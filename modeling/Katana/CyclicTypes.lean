/-
  Katana.CyclicTypes — comparisons of types with cycles, and those that are given up (patchwrite/typediff.c).

  The mark that cuts the recursion, `diffAgainst`, is set before the status is known. A type that points on gets its
  status after what it points to, so a cycle that is entered at such a type comes back to it too early. A transformer
  that is given up is freed, and the type goes on pointing to it.
-/
import Katana.TypeRecursion

namespace Katana

open Lib Lib.Run

variable {T : Type} (types : T → TypeInfo T)

/-! ## From the start -/

section
variable {types} {start : T × T} {st : TypediffState T} {a b : T}

theorem consistent_fresh : Consistent types start (.fresh : TypediffState T) :=
  ⟨fun _ _ => ⟨rfl, rfl⟩, fun _ _ h => (Option.some_ne_none _ h.symm).elim, fun _ _ h => (Option.some_ne_none _ h.symm).elim⟩

/-- A call is for two types of one kind. -/
theorem Calls.sameKind {z w : T × T} (h : Calls types z w) : SameKind types z.1 z.2 ∧ SameKind types w.1 w.2 := by
  cases h with
  | pointed hkind _ _ _ hxy => exact ⟨hkind, hxy⟩
  | nested hkept _ => exact ⟨hkept.kind, hkept.kept⟩
  | pointedField hkept _ _ _ hxy => exact ⟨hkept.kind, hxy⟩
  | pointerField hkept _ _ _ _ => exact ⟨hkept.kind, hkept.kept⟩

theorem ComesTo.sameKind {z w : T × T} (h : ComesTo types z w) (hz : SameKind types z.1 z.2) : SameKind types w.1 w.2 := by
  cases h with
  | refl => exact hz
  | tail _ hlast => exact hlast.sameKind.2

section
variable {field new : TypeField T} {x : Int32 × FieldTransformType}

theorem FieldSettled.nested_met (h : FieldSettled types st b field x) (hkept : KeptField types a b field new)
    (hstruct : (types field.type).type = .struct ∨ (types field.type).type = .union) : Met st field.type new.type := by
  cases h with
  | deleted hfound hkind =>
    cases hkept.found.symm.trans hfound
    exact absurd hkept.kept hkind
  | copied _ _ hbase => rcases hstruct with hkind | hkind <;> simp [hkind] at hbase
  | nested hfound _ _ hmet =>
    cases hkept.found.symm.trans hfound
    exact hmet
  | pointsToSame _ _ hpointer => rcases hstruct with hkind | hkind <;> simp [IsPointer, hkind] at hpointer
  | pointsToTransformed _ _ hpointer => rcases hstruct with hkind | hkind <;> simp [IsPointer, hkind] at hpointer

theorem FieldSettled.pointer_met (h : FieldSettled types st b field x) (hkept : KeptField types a b field new)
    (hpointer : IsPointer types field.type) {y z : T} (hy : (types field.type).pointedType = some y)
    (hz : (types new.type).pointedType = some z) :
    (Met st y z ∧ st.transformer y = none) ∨
      ((SameKind types y z → Met st y z) ∧ (st.transformer y).isSome ∧ Met st field.type new.type) := by
  cases h with
  | deleted hfound hkind =>
    cases hkept.found.symm.trans hfound
    exact absurd hkept.kept hkind
  | copied _ _ hbase => rcases hpointer with hkind | hkind <;> simp [hkind] at hbase
  | nested _ _ hstruct => rcases hpointer with hkind | hkind <;> simp [hkind] at hstruct
  | pointsToSame hfound _ _ hy' hz' hmet hnone =>
    cases hkept.found.symm.trans hfound
    cases hy.symm.trans hy'
    cases hz.symm.trans hz'
    exact .inl ⟨hmet, hnone⟩
  | pointsToTransformed hfound _ _ hy' hz' hmet hsome hfield =>
    cases hkept.found.symm.trans hfound
    cases hy.symm.trans hy'
    cases hz.symm.trans hz'
    exact .inr ⟨hmet, hsome, hfield⟩

theorem Settled.atField (h : Settled types st a b) (hgiven : ∀ t, st.transformer a = some t → t.freed = false)
    (hdiffers : Differs types a b) (hmem : field ∈ (types a).fields) : ∃ x, FieldSettled types st b field x := by
  obtain ⟨t, ht, -, ⟨-, hall⟩ | ⟨hgaveUp, -⟩⟩ := h.fields hdiffers
  · have hboth := hall.imp fun field x hx => (⟨⟨x, hx⟩, hx⟩ : (∃ x, FieldSettled types st b field x) ∧
      FieldSettled types st b field x)
    exact ((List.forall₂_and_left _ _).mp hboth).1 field hmem
  · rw [hgiven t ht] at hgaveUp
    cases hgaveUp

end

/-- Whatever a comparison can come to it came to, unless it was given up. -/
theorem Settled.calls {z w : T × T} (h : Settled types st z.1 z.2) (hst : Consistent types start st)
    (hgiven : ∀ t, st.transformer z.1 = some t → t.freed = false) (hcall : Calls types z w) : Met st w.1 w.2 := by
  cases hcall with
  | pointed hkind hthrough hx hy hxy =>
    obtain ⟨x, y, hx', hy', hmet⟩ := h.pointed hthrough
    cases hx.symm.trans hx'
    cases hy.symm.trans hy'
    exact hmet hxy
  | nested hkept hstruct =>
    obtain ⟨x, hfield⟩ := h.atField hgiven hkept.differs hkept.mem
    exact hfield.nested_met hkept hstruct
  | pointedField hkept hpointer hx hy hxy =>
    obtain ⟨_, hfield⟩ := h.atField hgiven hkept.differs hkept.mem
    rcases hfield.pointer_met hkept hpointer hx hy with ⟨hmet, -⟩ | ⟨hmet, -, -⟩
    · exact hmet
    · exact hmet hxy
  | pointerField hkept hpointer hx hy hdiffers =>
    obtain ⟨_, hfield⟩ := h.atField hgiven hkept.differs hkept.mem
    rcases hfield.pointer_met hkept hpointer hx hy with ⟨hmet, hnone⟩ | ⟨-, -, hmet⟩
    · have hsome := (hst.isSome hmet).mpr hdiffers
      rw [hnone] at hsome
      cases hsome
    · exact hmet

/-- What was compared in between is closed under calls. -/
theorem Advances.closed {st' : TypediffState T} (h : Advances types (fun _ => False) st st')
    (hst' : Consistent types start st')
    (hfreed : NothingFreed st') {z w : T × T} (hold : ∀ x y, ComesTo types z (x, y) → Met st' x y → st.diffAgainst x = none)
    (hz : Met st' z.1 z.2) (hpath : ComesTo types z w) : Met st' w.1 w.2 := by
  induction hpath with
  | refl => exact hz
  | tail hfirst hlast ih =>
    rename_i u w
    have hnone := hold u.1 u.2 hfirst ih
    exact (h.settled u.1 u.2 hnone ih.1).calls hst' (hfreed u.1) hlast

end

/-- What is freed was given up. -/
theorem Consistent.nothingFreed {types : T → TypeInfo T} {start : T × T} {st : TypediffState T}
    (h : Consistent types start st)
    (hgiven : ∀ x y, ComesTo types start (x, y) → ¬ GivesUp types x y) : NothingFreed st := by
  intro a t ht
  obtain ⟨b, hmet⟩ := h.transformed (show (st.transformer a).isSome by rw [ht]; rfl)
  have hdiffers := (h.isSome hmet).mp (by rw [ht]; rfl)
  have hrecorded := h.recorded a b hmet.1
  unfold Recorded at hrecorded
  rw [(h.differed hmet).mpr hdiffers] at hrecorded
  obtain ⟨-, t', ht', -, hgaveUp⟩ := hrecorded
  cases ht.symm.trans ht'
  by_cases hfreed : t.freed = true
  · exact absurd (hgaveUp hfreed) (hgiven a b (h.reached a b hmet.1).2)
  · simpa using hfreed

/-! ## From nothing compared -/

section
variable [Fintype T] [DecidableEq T] {types} {a b : T} {fuel : Nat} {same : Bool} {st' : TypediffState T}

omit [DecidableEq T] in
theorem ready_fresh (fueled : Prop) (hfuel : fueled → Fintype.card T < fuel) :
    CallReady types fueled (a, b) fuel .fresh a b :=
  ⟨consistent_fresh, fun _ => .refl, fun _ _ _ h => (Option.some_ne_none _ h.symm).elim,
    fun hfueled => lt_of_le_of_lt (unmarked_le _) (hfuel hfueled)⟩

omit [Fintype T] in
theorem compare_ends [Finite T] (h : compareTypesAndGenTransforms types fuel a b .fresh = .ok same st') :
    CallReturns types (a, b) .fresh a b same st' ∧ WalkAt types (a, b) st' [] := by
  have := Fintype.ofFinite T
  exact (compare_ensures False (a, b) fuel .fresh a b [] (ready_fresh False False.elim) walkAt_fresh).ok h

omit [Fintype T] in
/-- What a comparison returns with. -/
theorem compare_returns [Finite T] (h : compareTypesAndGenTransforms types fuel a b .fresh = .ok same st') :
    CallReturns types (a, b) .fresh a b same st' := (compare_ends h).1

omit [Fintype T] in
/-- What was freed was given up on the way. -/
theorem nothingFreed_iff [Finite T] (h : compareTypesAndGenTransforms types fuel a b .fresh = .ok same st') :
    NothingFreed st' ↔ ¬ GivenUp types (a, b) := (compare_ends h).2.nothingFreed_iff

/-- Why it stops, with fuel for every type. -/
theorem compare_stops (hfuel : Fintype.card T < fuel) {e : Halt}
    (h : compareTypesAndGenTransforms types fuel a b .fresh = .error e st') :
    Stops types True (a, b) e :=
  ((compare_ensures True (a, b) fuel .fresh a b [] (ready_fresh True fun _ => hfuel) walkAt_fresh).error h).stops

omit [Fintype T] in
/-- Why it reads something that is not there. -/
theorem compare_outside [Finite T] (h : compareTypesAndGenTransforms types fuel a b .fresh = .error (.fault .undefined) st') :
    ReadsOutside types (a, b) := by
  have := Fintype.ofFinite T
  exact ((compare_ensures False (a, b) fuel .fresh a b [] (ready_fresh False False.elim) walkAt_fresh).error h).outside rfl

/-! ## A cycle that is entered at a type that points on -/

omit [DecidableEq T] [Fintype T] in
theorem compareContents_pointed {recur : T → T → TypediffM T Bool} {retval : Bool} {st : TypediffState T}
    (hthrough : LooksThrough types a)
    (h : compareContents types recur a b retval st = .ok same st') : ∃ x y pointed st1, (types a).pointedType = some x ∧
      (types b).pointedType = some y ∧ recur x y st = .ok pointed st1 := by
  have hpointed : ∀ {r st1}, comparePointed types recur a b st = .ok r st1 → ∃ x y pointed st1,
    (types a).pointedType = some x ∧
      (types b).pointedType = some y ∧ recur x y st = .ok pointed st1 := by
    intro r st1 hrun
    unfold comparePointed at hrun
    cases hx : (types a).pointedType with
    | none =>
      rw [hx] at hrun
      cases hrun
    | some x =>
      cases hy : (types b).pointedType with
      | none =>
        rw [hx, hy] at hrun
        cases hrun
      | some y =>
        rw [hx, hy] at hrun
        exact ⟨x, y, r, st1, rfl, rfl, hrun⟩
  unfold compareContents at h
  rcases hthrough with hkind | hkind | hkind
  · rw [hkind] at h
    dsimp only at h
    split at h
    · cases h
    · obtain ⟨bounds, st1, hbounds, h⟩ := run_bind_ok.mp h
      obtain ⟨r, st2, hrun, -⟩ := run_bind_ok.mp h
      rw [(fromExcept_ok.mp hbounds).2] at hrun
      exact hpointed hrun
  · rw [hkind] at h
    obtain ⟨r, st1, hrun, -⟩ := run_bind_ok.mp h
    exact hpointed hrun
  · rw [hkind] at h
    obtain ⟨r, st1, hrun, -⟩ := run_bind_ok.mp h
    exact hpointed hrun

omit [Fintype T] in
/-- The comparison of what such a type points to. -/
theorem compare_pointed (hkind : SameKind types a b) (hthrough : LooksThrough types a)
    (h : compareTypesAndGenTransforms types (fuel + 1) a b .fresh = .ok same st') :
    ∃ x y pointed st1, (types a).pointedType = some x ∧ (types b).pointedType = some y ∧
      compareTypesAndGenTransforms types fuel x y (begin a b .fresh) = .ok pointed st1 := by
  unfold compareTypesAndGenTransforms at h
  obtain ⟨_, _, hget, h⟩ := run_bind_ok.mp h
  cases hget
  have hkind : (types a).type = (types b).type := hkind
  rw [if_neg (not_not.mpr hkind)] at h
  obtain ⟨_, _, hbegin, h⟩ := run_bind_ok.mp h
  cases hbegin
  obtain ⟨retval, st1, hcontents, -⟩ := run_bind_ok.mp h
  exact compareContents_pointed hthrough hcontents

/-- Entered at such a type, a comparison that comes back to it does not return. -/
theorem LoopsBack.not_ok (hloops : LoopsBack types a b) (hgiven : ∀ x y, ComesTo types (a, b) (x, y) → ¬ GivesUp types x y) :
    compareTypesAndGenTransforms types fuel a b .fresh ≠ .ok same st' := by
  intro h
  obtain ⟨hkind, b', hkind', hthrough, x, y, hx, hy, hxy, hpath⟩ := hloops
  cases fuel with
  | zero => cases h
  | succ fuel =>
    obtain ⟨x', y', pointed, st1, hx', hy', hcall⟩ := compare_pointed hkind hthrough h
    cases hx.symm.trans hx'
    cases hy.symm.trans hy'
    have hready : CallReady types False (a, b) (fuel + 1) .fresh a b := ready_fresh False False.elim
    have hworking := hready.begin hkind rfl
    have hready' := hworking.ready (.pointed hkind hthrough hx hy) fun _ hxy => ⟨hthrough, x, y, hx, hy, hxy, .refl⟩
    have hcontents : WalkAt types (a, b) (begin a b .fresh) [.contents a b, .conclude a b] :=
      walkAt_fresh.begin hkind rfl
    have hwalk := hcontents.here (next_pointed hthrough hx hy)
    obtain ⟨hreturns, -⟩ := (compare_ensures False (a, b) fuel _ x y _ hready' hwalk).ok hcall
    -- `a` has no status while what it points to is compared
    have hstatus : st1.typediffStatus a = .notDone := (hreturns.advances.unchanged a b (by simp [begin])).2
    have hold : ∀ u v, ComesTo types (x, y) (u, v) → Met st1 u v →
      (begin a b (.fresh : TypediffState T)).diffAgainst u = none := by
      intro u v _ hmet
      by_cases hu : u = a
      · rw [hu] at hmet
        exact absurd hstatus hmet.2
      · simp [begin, hu, TypediffState.fresh]
    have hfreed := hreturns.consistent.nothingFreed hgiven
    have hmet := hreturns.advances.closed hreturns.consistent hfreed hold (hreturns.met hxy) hpath
    exact hmet.2 hstatus

omit [DecidableEq T] [Fintype T] in
theorem Stops.mono {fueled : Prop} {start start' : T × T} {e : Halt} (hpath : ComesTo types start' start)
    (h : Stops types fueled start e) :
    Stops types fueled start' e := by
  cases h with
  | outOfFuel h => exact .outOfFuel h
  | loopsBack hreached h => exact .loopsBack (hpath.trans hreached) h
  | pointsNowhere hreached hkind hthrough h => exact .pointsNowhere (hpath.trans hreached) hkind hthrough h
  | fieldPointsNowhere hreached hkept hpointer h => exact .fieldPointsNowhere (hpath.trans hreached) hkept hpointer h
  | fieldRemoved hreached hkind hdiffers hmem h => exact .fieldRemoved (hpath.trans hreached) hkind hdiffers hmem h
  | gaveUp hreached h => exact .gaveUp (hpath.trans hreached) h
  | twoTypes hreached hreached' h => exact .twoTypes (hpath.trans hreached) (hpath.trans hreached') h
  | fieldTwoTypes hreached hkept hreached' h => exact .fieldTwoTypes (hpath.trans hreached) hkept (hpath.trans hreached') h
  | bounds hreached hkind harray h => exact .bounds (hpath.trans hreached) hkind harray h
  | unsupported hreached hkept h => exact .unsupported (hpath.trans hreached) hkept h
  | unionMember hreached hkept hunion h => exact .unionMember (hpath.trans hreached) hkept hunion h

variable (types) in
omit [DecidableEq T] [Fintype T] in
/-- Nothing but a status that is not recorded stops the comparison. -/
def Undisturbed (a b : T) : Prop := ∀ e, Stops types True (a, b) e → e = .fault .assertion

variable (types) in
/-- Wherever a comparison is entered, it ends and finds every status that it asks for. -/
def RecordsInTime (a b : T) : Prop :=
  ∀ x y, ComesTo types (a, b) (x, y) → ∀ fuel, Fintype.card T < fuel → ∀ e st',
    compareTypesAndGenTransforms types fuel x y .fresh = .error e st' → e ≠ .outOfFuel ∧ e ≠ .fault .assertion

/-- **Types without a cycle through what a type points to are compared in time, and no others are**: entered at a type that
leads back to itself, a comparison comes to a missing status, if nothing else stops it. -/
theorem recordsInTime_iff (a b : T) :
    ((∀ x y, ComesTo types (a, b) (x, y) → ¬ LoopsBack types x y) → RecordsInTime types a b) ∧
      (Undisturbed types a b → RecordsInTime types a b → ∀ x y, ComesTo types (a, b) (x, y) → ¬ LoopsBack types x y) := by
  refine ⟨?_, ?_⟩
  · intro hloops x y hreached fuel hfuel e st' hrun
    have hstops := (compare_stops hfuel hrun).mono hreached
    refine ⟨?_, ?_⟩
    · intro he
      rw [he] at hstops
      cases hstops with
      | outOfFuel h => exact h trivial
    · intro he
      rw [he] at hstops
      cases hstops with
      | loopsBack hreached' h => exact hloops _ _ hreached' h
  · intro hclean hrecords x y hreached hloops
    have hgiven : ∀ u v, ComesTo types (x, y) (u, v) → ¬ GivesUp types u v := by
      intro u v hpath hgives
      cases hclean _ (.gaveUp (hreached.trans hpath) hgives)
    cases hrun : compareTypesAndGenTransforms types (Fintype.card T + 1) x y .fresh with
    | ok same st' => exact hloops.not_ok hgiven hrun
    | error e st' =>
      have he := hclean e ((compare_stops (Nat.lt_succ_self _) hrun).mono hreached)
      exact (hrecords x y hreached _ (Nat.lt_succ_self _) e st' hrun).2 he

end

/-! ## Two nodes -/

/-- `struct node { struct node *next; }` and the pointer to it, which is 0; the new one is longer. -/
def nodePair : Fin 4 → TypeInfo (Fin 4)
  | 0 => ⟨"node *", .pointer, 8, [], some ⟨1, by decide⟩, []⟩
  | 1 => ⟨"node", .struct, 8, [⟨"next", 0, ⟨0, by decide⟩⟩], none, []⟩
  | 2 => ⟨"node *", .pointer, 8, [], some ⟨3, by decide⟩, []⟩
  | 3 => ⟨"node", .struct, 16, [⟨"next", 8, ⟨2, by decide⟩⟩], none, []⟩

/-- Entered at the struct, the comparison returns. -/
example : ∃ st', compareTypesAndGenTransforms nodePair 5 1 3 .fresh = .ok false st' := ⟨_, rfl⟩

/-- Entered at the pointer, it does not. -/
theorem nodePair_unrecorded : ∃ st', compareTypesAndGenTransforms nodePair 5 0 2 .fresh =
    .error (.fault .assertion) st' := ⟨_, rfl⟩

theorem not_recordsInTime : ¬ ∀ (types : Fin 4 → TypeInfo (Fin 4)) (a b : Fin 4), RecordsInTime types a b := by
  intro h
  obtain ⟨st', hrun⟩ := nodePair_unrecorded
  exact (h nodePair 0 2 0 2 .refl 5 (by decide) _ st' hrun).2 rfl

theorem nodePair_kept {a b : Fin 4} {field new : TypeField (Fin 4)} (h : KeptField nodePair a b field new)
    (hab : (a, b) = (0, 2) ∨ (a, b) = (1, 3)) : (a, b) = (1, 3) ∧ field.type = 0 ∧ new.type = 2 := by
  rcases hab with hab | hab
  · cases hab
    cases h.mem
  · cases hab
    have hfield := List.mem_singleton.mp h.mem
    have hfound := h.found
    rw [hfield] at hfound ⊢
    cases hfound
    exact ⟨rfl, rfl, rfl⟩

/-- Two pairs go on with each other. -/
theorem nodePair_comesTo {z : Fin 4 × Fin 4} (h : ComesTo nodePair (0, 2) z) : z = (0, 2) ∨ z = (1, 3) := by
  induction h with
  | refl => exact .inl rfl
  | tail _ hcall ih =>
    cases hcall with
    | pointed hkind hthrough hx hy _ =>
      rcases ih with ih | ih
      · cases ih
        cases hx
        cases hy
        exact .inr rfl
      · cases ih
        cases hx
    | nested hkept hstruct =>
      obtain ⟨-, hfield, -⟩ := nodePair_kept hkept ih
      rw [hfield] at hstruct
      rcases hstruct with hkind | hkind <;> cases hkind
    | pointedField hkept hpointer hx hy _ =>
      obtain ⟨-, hfield, hnew⟩ := nodePair_kept hkept ih
      rw [hfield] at hx
      rw [hnew] at hy
      cases hx
      cases hy
      exact .inr rfl
    | pointerField hkept hpointer hx hy _ =>
      obtain ⟨-, hfield, hnew⟩ := nodePair_kept hkept ih
      exact .inl (Prod.ext hfield hnew)

theorem nodePair_undisturbed : Undisturbed nodePair 0 2 := by
  have hfield : PointsOn nodePair 0 2 := ⟨1, 3, rfl, rfl⟩
  intro e h
  cases h with
  | outOfFuel h => exact absurd trivial h
  | loopsBack _ _ => rfl
  | pointsNowhere hreached _ hthrough h =>
    rcases nodePair_comesTo hreached with heq | heq
    · cases heq
      exact absurd hfield h
    · cases heq
      rcases hthrough with hkind | hkind | hkind <;> cases hkind
  | fieldPointsNowhere hreached hkept _ h =>
    obtain ⟨-, hold, hnew⟩ := nodePair_kept hkept (nodePair_comesTo hreached)
    rw [hold, hnew] at h
    exact absurd hfield h
  | fieldRemoved hreached _ _ hmem h =>
    rcases nodePair_comesTo hreached with heq | heq
    · cases heq
      cases hmem
    · cases heq
      rw [List.mem_singleton.mp hmem] at h
      cases h
  | gaveUp hreached h =>
    obtain ⟨field, new, x, y, hkept, -, hx, hy, hxy⟩ := h
    obtain ⟨-, hold, hnew⟩ := nodePair_kept hkept (nodePair_comesTo hreached)
    rw [hold] at hx
    rw [hnew] at hy
    cases hx
    cases hy
    exact absurd rfl hxy
  | twoTypes hreached hreached' h =>
    rcases nodePair_comesTo hreached with heq | heq <;> rcases nodePair_comesTo hreached' with heq' | heq' <;> cases heq <;> cases heq' <;>
      exact absurd rfl h
  | fieldTwoTypes hreached hkept hreached' h =>
    obtain ⟨-, hold, hnew⟩ := nodePair_kept hkept (nodePair_comesTo hreached)
    rw [hold] at hreached'
    rcases nodePair_comesTo hreached' with heq | heq
    · cases heq
      exact absurd hnew.symm h
    · cases heq
  | bounds hreached _ harray _ =>
    rcases nodePair_comesTo hreached with heq | heq <;> cases heq <;> cases harray
  | unsupported hreached hkept h =>
    obtain ⟨-, hold, -⟩ := nodePair_kept hkept (nodePair_comesTo hreached)
    rw [hold] at h
    rcases h with hkind | hkind | hkind <;> cases hkind
  | unionMember hreached hkept hunion _ =>
    obtain ⟨hab, -, -⟩ := nodePair_kept hkept (nodePair_comesTo hreached)
    cases hab
    cases hunion

/-- The pointer leads back to itself, and nothing else stops the comparison. -/
theorem nodePair_enters : ¬ RecordsInTime nodePair 0 2 := by
  intro h
  refine (recordsInTime_iff 0 2).2 nodePair_undisturbed h 0 2 .refl ?_
  have hstruct : Differs nodePair 1 3 := .contents rfl fun h => absurd h.1.2.2 (by decide)
  have hkept : KeptField nodePair 1 3 ⟨"next", 0, 0⟩ ⟨"next", 8, 2⟩ := ⟨rfl, hstruct, List.mem_singleton_self _, rfl, rfl⟩
  exact ⟨rfl, 2, rfl, .inr (.inl rfl), 1, 3, rfl, rfl, rfl, .single (.pointerField hkept (.inl rfl) rfl rfl hstruct)⟩

/-! ## Transformers that are given up -/

variable (types : T → TypeInfo T)

/-- What a type points to, or what a field of it points to, is of two kinds. -/
def Misfits (a b : T) : Prop :=
  (SameKind types a b ∧ LooksThrough types a ∧
    ∃ x y, (types a).pointedType = some x ∧ (types b).pointedType = some y ∧ ¬ SameKind types x y) ∨ GivesUp types a b

/-- There is no way to transform the one into the other, or a type that it goes on with. -/
inductive CannotTransform : T → T → Prop
  | kind {a b : T} : ¬ SameKind types a b → CannotTransform a b
  | misfits {a b : T} : Misfits types a b → CannotTransform a b
  | nested {a b x y : T} : Calls types (a, b) (x, y) → CannotTransform x y → CannotTransform a b

/-- No transform that was freed is pointed to, and there is none for a type that cannot be transformed. -/
def NothingHalfBuilt (st' : TypediffState T) (a b : T) : Prop :=
  NothingFreed st' ∧ (CannotTransform types a b → st'.transformer a = none)

section
variable {types} {a b x y : T}

theorem Misfits.sameKind (h : Misfits types a b) : SameKind types a b := by
  rcases h with ⟨hkind, -⟩ | ⟨_, _, _, _, hkept, -⟩
  · exact hkind
  · exact hkept.kind

theorem Misfits.differs (h : Misfits types a b) : Differs types a b := by
  rcases h with ⟨hkind, hthrough, x, y, hx, hy, hxy⟩ | ⟨_, _, _, _, hkept, -⟩
  · exact .pointed hkind hthrough hx hy (.kind hxy)
  · exact hkept.differs

theorem cannotTransform_iff : CannotTransform types a b ↔
    ¬ SameKind types a b ∨ ∃ x y, ComesTo types (a, b) (x, y) ∧ Misfits types x y := by
  refine ⟨?_, ?_⟩
  · intro h
    induction h with
    | kind hkind => exact .inl hkind
    | misfits hmisfits => exact .inr ⟨_, _, .refl, hmisfits⟩
    | nested hcall _ ih =>
      rcases ih with hkind | ⟨x, y, hpath, hmisfits⟩
      · exact absurd hcall.sameKind.2 hkind
      · exact .inr ⟨x, y, .head hcall hpath, hmisfits⟩
  · intro h
    rcases h with hkind | ⟨x, y, hpath, hmisfits⟩
    · exact .kind hkind
    · have hall : ∀ z, ComesTo types z (x, y) → CannotTransform types z.1 z.2 := by
        intro z hz
        induction hz using Relation.ReflTransGen.head_induction_on with
        | refl => exact .misfits hmisfits
        | head hcall _ ih => exact .nested hcall ih
      exact hall (a, b) hpath

/-- Types that come out the same go on with types that do. -/
theorem ComesTo.not_differs {z w : T × T} (h : ComesTo types z w) (hz : ¬ Differs types z.1 z.2) :
    ¬ Differs types w.1 w.2 := by
  induction h with
  | refl => exact hz
  | tail _ hcall ih =>
    cases hcall with
    | pointed hkind hthrough hx hy _ => exact fun hdiffers => ih (.pointed hkind hthrough hx hy hdiffers)
    | nested hkept _ => exact absurd hkept.differs ih
    | pointedField hkept _ _ _ _ => exact absurd hkept.differs ih
    | pointerField hkept _ _ _ _ => exact absurd hkept.differs ih

theorem comesTo_of_not_sameKind {z : T × T} (hkind : ¬ SameKind types a b) (h : ComesTo types (a, b) z) : z = (a, b) := by
  rcases Relation.ReflTransGen.cases_head h with heq | ⟨w, hcall, -⟩
  · exact heq.symm
  · exact absurd hcall.sameKind.1 hkind

/-- **A comparison that returns leaves nothing half-built exactly when whatever it goes on with is of one kind**;
what stays freed comes of the fields. -/
theorem nothingHalfBuilt_iff [Finite T] [DecidableEq T] {fuel : Nat} {same : Bool} {st' : TypediffState T}
    (h : compareTypesAndGenTransforms types fuel a b .fresh = .ok same st') :
    (NothingHalfBuilt types st' a b ↔ ∀ x y, ComesTo types (a, b) (x, y) → ¬ Misfits types x y) ∧
      ((∀ x y, ComesTo types (a, b) (x, y) → ¬ GivesUp types x y) → NothingFreed st') := by
  have hreturns := compare_returns h
  refine ⟨⟨?_, ?_⟩, hreturns.consistent.nothingFreed⟩
  · intro ⟨_, hnone⟩ x y hpath hmisfits
    have htransformer := hnone (cannotTransform_iff.mpr (.inr ⟨x, y, hpath, hmisfits⟩))
    have hkind : SameKind types a b := by
      by_contra hkind
      cases comesTo_of_not_sameKind hkind hpath
      exact hkind hmisfits.sameKind
    have hsame : ¬ Differs types a b := by
      rw [← hreturns.consistent.isSome (hreturns.met hkind), htransformer]
      simp
    exact hpath.not_differs hsame hmisfits.differs
  · intro hfits
    refine ⟨hreturns.consistent.nothingFreed fun x y hpath hgives => hfits x y hpath (.inr hgives), ?_⟩
    intro hcannot
    rcases cannotTransform_iff.mp hcannot with hkind | ⟨x, y, hpath, hmisfits⟩
    · cases htransformer : st'.transformer a with
      | none => rfl
      | some t =>
        obtain ⟨b', hmet⟩ := hreturns.consistent.transformed (show (st'.transformer a).isSome by rw [htransformer]; rfl)
        obtain ⟨hkind', hpath⟩ := hreturns.consistent.reached a b' hmet.1
        cases comesTo_of_not_sameKind hkind hpath
        exact absurd hkind' hkind
    · exact absurd hmisfits (hfits x y hpath)

end

/-! ## Two structs with a field of another kind -/

/-- `struct s { int *p; }` becomes `struct s { struct u *p; int n; }`. -/
def pointsAcross : Fin 6 → TypeInfo (Fin 6)
  | 0 => ⟨"s", .struct, 8, [⟨"p", 0, 1⟩], none, []⟩
  | 1 => ⟨"int *", .pointer, 8, [], some 2, []⟩
  | 2 => ⟨"int", .base, 4, [], none, []⟩
  | 3 => ⟨"s", .struct, 16, [⟨"p", 0, 4⟩, ⟨"n", 8, 2⟩], none, []⟩
  | 4 => ⟨"u *", .pointer, 8, [], some 5, []⟩
  | 5 => ⟨"u", .struct, 4, [⟨"n", 0, 2⟩], none, []⟩

/-- The old struct is left with a transformer that was freed. -/
theorem pointsAcross_freed : ∃ st', compareTypesAndGenTransforms pointsAcross 7 0 3 .fresh = .ok false st' ∧
    st'.transformer 0 = some ⟨3, false, [], true⟩ := ⟨_, rfl, rfl⟩

theorem not_nothingHalfBuilt : ¬ ∀ (types : Fin 6 → TypeInfo (Fin 6)) (fuel : Nat) (a b : Fin 6)
    (st' : TypediffState (Fin 6)),
    compareTypesAndGenTransforms types fuel a b .fresh = .ok false st' → NothingHalfBuilt types st' a b := by
  intro h
  obtain ⟨st', hrun, htransformer⟩ := pointsAcross_freed
  cases (h pointsAcross 7 0 3 st' hrun).1 0 _ htransformer

def longerStruct : Fin 3 → TypeInfo (Fin 3)
  | 0 => ⟨"s", .struct, 4, [⟨"n", 0, 2⟩], none, []⟩
  | 1 => ⟨"s", .struct, 8, [⟨"n", 4, 2⟩], none, []⟩
  | 2 => ⟨"int", .base, 4, [], none, []⟩

theorem longerStruct_fields {field new : TypeField (Fin 3)} (h : KeptField longerStruct 0 1 field new) :
    (longerStruct field.type).type = .base := by
  have hfield := List.mem_singleton.mp h.mem
  rw [hfield]
  rfl

/-- Nothing is gone into. -/
theorem longerStruct_comesTo {z : Fin 3 × Fin 3} (h : ComesTo longerStruct (0, 1) z) : z = (0, 1) := by
  rcases Relation.ReflTransGen.cases_head h with heq | ⟨w, hcall, -⟩
  · exact heq.symm
  · exfalso
    cases hcall with
    | pointed _ hthrough => rcases hthrough with hkind | hkind | hkind <;> cases hkind
    | nested hkept hstruct =>
      rw [longerStruct_fields hkept] at hstruct
      simp at hstruct
    | pointedField hkept hpointer => simp [IsPointer, longerStruct_fields hkept] at hpointer
    | pointerField hkept hpointer => simp [IsPointer, longerStruct_fields hkept] at hpointer

theorem longerStruct_nothingHalfBuilt :
    ∃ st', compareTypesAndGenTransforms longerStruct 4 0 1 .fresh = .ok false st' ∧
      NothingHalfBuilt longerStruct st' 0 1 := by
  obtain ⟨st', hrun⟩ : ∃ st', compareTypesAndGenTransforms longerStruct 4 0 1 .fresh = .ok false st' := ⟨_, rfl⟩
  refine ⟨st', hrun, (nothingHalfBuilt_iff hrun).1.mpr ?_⟩
  intro x y hpath hmisfits
  cases longerStruct_comesTo hpath
  rcases hmisfits with ⟨-, hthrough, -⟩ | ⟨field, new, _, _, hkept, hpointer, -⟩
  · rcases hthrough with hkind | hkind | hkind <;> cases hkind
  · simp [IsPointer, longerStruct_fields hkept] at hpointer

end Katana

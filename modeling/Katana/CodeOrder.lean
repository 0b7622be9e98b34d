/-
  Katana.CodeOrder — the order that the entries of relocation sections have, and what areSubprogramsIdentical makes of
  it.

  `sortList` returns the new head of the list, but what is walked is the list that the old head leads to: the
  relocations in front of the entry that came first in its section are not looked at.

  Proved, for both builds, every two files and functions:
  - `walked_iff`: in a function shorter than 2 GiB the relocations are walked by their offset, from any one on.
  - `walks_agree`: when all walks over the same relocations end alike.
  - `sameVerdict_iff`: when the verdict is the same in every order of the entries.
-/
import Katana.CodeDiff
import Mathlib.Data.List.Perm.Basic

namespace Katana

variable {arch : Arch}

/-! ## Orders -/

structure ScnReordered (scn scn' : CodeScn arch) : Prop where
  entries : Option.Rel List.Perm scn.entries scn'.entries
  rest : scn' = { scn with entries := scn'.entries }

/-- The file with the entries of its sections in another order. -/
structure Reordered (e e' : CodeElf arch) : Prop where
  sections : List.Forall₂ ScnReordered e.sections e'.sections
  rest : e' = { e with sections := e'.sections }

/-- No two entries of a section have the same offset. -/
def DistinctOffsets (e : CodeElf arch) : Prop :=
  ∀ scn ∈ e.sections, ∀ entries, scn.entries = some entries → (entries.map (·.rOffset)).Nodup

def SameVerdict (oldBinary newBinary : CodeElf arch) (patcheeFunc patchedFunc : SubprogramInfo arch) : Prop :=
  ∀ old' new', Reordered oldBinary old' → Reordered newBinary new' →
    (areSubprogramsIdentical old' new' patcheeFunc patchedFunc).toOption =
      (areSubprogramsIdentical oldBinary newBinary patcheeFunc patchedFunc).toOption

/-- What is walked of the relocations in some order of theirs. -/
def Walked (items li : List (RelocInfo arch)) : Prop := ∃ order, order.Perm items ∧ sortInPlace cmpRelocs order = li

/-- At byte `d` the texts end, or stop being the same. -/
structure OverAt (pair : TextPair arch) (d : Nat) : Prop where
  le : d ≤ pair.len
  bytes : ∀ j < d, pair.SameByte j
  ended : d = pair.len ∨ ¬ pair.SameByte d

/-- The relocations lie behind byte `d`, or at the end. -/
def Beyond (low : arch.Addr) (len d : Nat) (items : List (RelocInfo arch)) : Prop :=
  ∀ reloc ∈ items, d < bytesFrom low reloc ∨ len ≤ bytesFrom low reloc

/-- The comparison is over before it comes to a relocation. -/
def OverBefore (pair : TextPair arch) (oldItems newItems : List (RelocInfo arch)) : Prop :=
  ∃ d, OverAt pair d ∧ Beyond pair.lowOld pair.len d oldItems ∧ Beyond pair.lowNew pair.len d newItems

/-- There is no order to choose, or none of the relocations is come to, or whatever is walked something differs. -/
def OrderFits (oldBinary newBinary : CodeElf arch) (patcheeFunc patchedFunc : SubprogramInfo arch) : Prop :=
  patcheeFunc.len = patchedFunc.len → ∀ oldItems newItems textOld textNew,
    oldBinary.relocationItems patcheeFunc = .ok oldItems → newBinary.relocationItems patchedFunc = .ok newItems →
    oldItems.length = newItems.length →
    oldBinary.textAt patcheeFunc.name patcheeFunc.lowpc = .ok textOld →
    newBinary.textAt patcheeFunc.name patchedFunc.lowpc = .ok textNew →
    oldItems.length ≤ 1 ∨ OverBefore (patcheeFunc.textPair patchedFunc textOld textNew) oldItems newItems ∨
      ∀ oldLi newLi, Walked oldItems oldLi → Walked newItems newLi →
        TextDiffers oldBinary newBinary (patcheeFunc.textPair patchedFunc textOld textNew) 0 oldLi newLi

/-! ## What is walked -/

section Walks
variable {oldBinary newBinary : CodeElf arch} {pair : TextPair arch} {items oldItems newItems : List (RelocInfo arch)}

theorem toOption_eq_some {α : Type} {x : Except Fault α} {a : α} : x.toOption = some a ↔ x = .ok a := by
  cases x with
  | error e => simp [Except.toOption]
  | ok b => simp [Except.toOption]

theorem toOption_bind {α β : Type} (x : Except Fault α) (f : α → Except Fault β) :
    (x >>= f).toOption = x.toOption.bind fun a => (f a).toOption := by
  cases x with
  | error e => rfl
  | ok a => rfl

theorem walked_self (items : List (RelocInfo arch)) : Walked items (sortInPlace cmpRelocs items) := ⟨items, .refl _, rfl⟩

/-- Any relocation can come first. -/
theorem walked_cons {x : RelocInfo arch} (hx : x ∈ items) : ∃ rest, Walked items (x :: rest) := by
  obtain ⟨rest, hrest⟩ := sortInPlace_cons cmpRelocs x (items.erase x)
  exact ⟨rest, x :: items.erase x, (List.perm_cons_erase hx).symm, hrest⟩

theorem Walked.mem {li : List (RelocInfo arch)} {x : RelocInfo arch} (h : Walked items li) (hx : x ∈ li) : x ∈ items := by
  obtain ⟨order, hperm, rfl⟩ := h
  exact hperm.subset (sortInPlace_subset hx)

/-- Where there is at most one there is no order to choose. -/
theorem Walked.unique {li li' : List (RelocInfo arch)} (hshort : items.length ≤ 1) (h : Walked items li)
    (h' : Walked items li') : li = li' := by
  obtain ⟨order, hperm, rfl⟩ := h
  obtain ⟨order', hperm', rfl⟩ := h'
  match items with
  | [] => rw [hperm.eq_nil, hperm'.eq_nil]
  | [x] => rw [List.perm_singleton.mp hperm, List.perm_singleton.mp hperm']
  | _ :: _ :: _ => simp only [List.length_cons] at hshort; omega

theorem Beyond.mono {low : arch.Addr} {len d : Nat} {li : List (RelocInfo arch)} (h : Beyond low len d items)
    (hwalked : Walked items li) : Beyond low len d li := fun reloc hreloc => h reloc (hwalked.mem hreloc)

theorem Beyond.not_first {low : arch.Addr} {len d i : Nat} (h : Beyond low len d items) (hd : i ≤ d) (hlen : i < len) :
    ¬ FirstAt low items i := by
  rintro ⟨reloc, hreloc, hat⟩
  have hbeyond := h reloc (List.mem_of_mem_head? hreloc)
  omega

theorem bytesFrom_inj {low : arch.Addr} {x y : RelocInfo arch} (h : bytesFrom low x = bytesFrom low y) :
    x.rOffset = y.rOffset := by
  have hsub : x.rOffset - low = y.rOffset - low := BitVec.eq_of_toNat_eq h
  exact sub_left_inj.mp hsub

/-- In an int the difference of two offsets has its sign, as long as both are near. -/
theorem cmpRelocs_orders {low : arch.Addr} (hshort : ∀ x ∈ items, bytesFrom low x < 2 ^ 31) :
    Orders cmpRelocs (bytesFrom low) items := by
  intro x hx y hy
  have hxlt := hshort x hx
  have hylt := hshort y hy
  have hsub : x.rOffset - y.rOffset = (x.rOffset - low) - (y.rOffset - low) := by ring
  unfold bytesFrom at hxlt hylt ⊢
  unfold cmpRelocs asInt
  rw [hsub, BitVec.toInt_eq_toNat_cond, BitVec.toNat_setWidth, BitVec.toNat_sub]
  cases arch with
  | x86 =>
    simp only [Arch.size, Nat.reduceMul, Nat.reducePow] at hxlt hylt ⊢
    omega
  | x86_64 =>
    simp only [Arch.size, Nat.reduceMul, Nat.reducePow] at hxlt hylt ⊢
    omega

/-- **By their offset, from any one on**: the values are the relocations in the order of their offsets. -/
theorem walked_iff {low : arch.Addr} {values li : List (RelocInfo arch)} (hshort : ∀ x ∈ items, bytesFrom low x < 2 ^ 31)
    (hnodup : (items.map (·.rOffset)).Nodup) (hvalues : values.Perm items)
    (hsorted : values.Pairwise (bytesFrom low · ≤ bytesFrom low ·)) :
    Walked items li ↔
      items = [] ∧ li = [] ∨ ∃ x ∈ items, li = values.filter fun y => bytesFrom low x ≤ bytesFrom low y := by
  have hwalk : ∀ {x rest}, (x :: rest).Perm items →
      sortInPlace cmpRelocs (x :: rest) = values.filter fun y => bytesFrom low x ≤ bytesFrom low y := by
    intro x rest hperm
    refine sortInPlace_eq (cmpRelocs_orders fun y hy => hshort y (hperm.subset hy)) ?_ (hvalues.trans hperm.symm) hsorted
    have hnodup' : ((x :: rest).map (·.rOffset)).Nodup := (hperm.map _).nodup_iff.mpr hnodup
    exact List.pairwise_map.mpr ((List.pairwise_map.mp hnodup').imp fun hne hsame => hne (bytesFrom_inj hsame))
  constructor
  · rintro ⟨order, hperm, rfl⟩
    cases order with
    | nil => exact .inl ⟨hperm.nil_eq.symm, rfl⟩
    | cons x rest => exact .inr ⟨x, hperm.subset List.mem_cons_self, hwalk hperm⟩
  · rintro (⟨rfl, rfl⟩ | ⟨x, hx, rfl⟩)
    · exact walked_self []
    · exact ⟨x :: items.erase x, (List.perm_cons_erase hx).symm, hwalk (List.perm_cons_erase hx).symm⟩

/-! ## When all walks end alike -/

/-- Bytes alone decide. -/
theorem compareText_over {d fuel i : Nat} (hover : OverAt pair d) {oldLi newLi oldLi' newLi' : List (RelocInfo arch)}
    (hold : Beyond pair.lowOld pair.len d oldLi) (hnew : Beyond pair.lowNew pair.len d newLi)
    (hold' : Beyond pair.lowOld pair.len d oldLi') (hnew' : Beyond pair.lowNew pair.len d newLi') (hi : i ≤ d) :
    compareText oldBinary newBinary pair fuel i oldLi newLi =
      compareText oldBinary newBinary pair fuel i oldLi' newLi' := by
  induction fuel generalizing i with
  | zero => rfl
  | succ fuel ih =>
    rw [compareText, compareText]
    by_cases hend : pair.len ≤ i
    · rw [if_pos hend, if_pos hend]
    · have hlt : i < pair.len := Nat.lt_of_not_le hend
      have hint : i < 2 ^ 31 := hlt.trans pair.isInt
      rw [if_neg hend, if_neg hend, (relocAt_none hint).mpr (hold.not_first hi hlt),
        (relocAt_none hint).mpr (hnew.not_first hi hlt), (relocAt_none hint).mpr (hold'.not_first hi hlt),
        (relocAt_none hint).mpr (hnew'.not_first hi hlt)]
      dsimp only
      cases hbyte : compareBytes pair i with
      | error e => rfl
      | ok same =>
        cases same with
        | false => rfl
        | true =>
          rcases Nat.eq_or_lt_of_le hi with rfl | hless
          · exact absurd (compareBytes_true.mp hbyte) (hover.ended.resolve_left (by omega))
          · exact ih hless

theorem exists_overAt (pair : TextPair arch) : ∃ d, OverAt pair d := by
  classical
  have hex : ∃ d, d = pair.len ∨ ¬ pair.SameByte d := ⟨pair.len, .inl rfl⟩
  refine ⟨Nat.find hex, Nat.find_min' hex (.inl rfl), fun j hj => ?_, Nat.find_spec hex⟩
  have hnot := Nat.find_min hex hj
  exact not_not.mp fun hsame => hnot (.inr hsame)

/-- Two first relocations at different places are a difference, if the comparison comes to the nearer one. -/
theorem differs_of_heads {x y : RelocInfo arch} {oldLi newLi : List (RelocInfo arch)} {m : Nat}
    (hne : bytesFrom pair.lowOld x ≠ bytesFrom pair.lowNew y)
    (hm : m = min (bytesFrom pair.lowOld x) (bytesFrom pair.lowNew y)) (hlt : m < pair.len)
    (hbytes : ∀ j < m, pair.SameByte j) : TextDiffers oldBinary newBinary pair 0 (x :: oldLi) (y :: newLi) := by
  refine .alone (d := m) ⟨Nat.zero_le m, fun j _ hj => hbytes j hj, fun j _ hj => ?_, fun j _ hj => ?_⟩ hlt ?_
  · rw [firstAt_cons]
    omega
  · rw [firstAt_cons]
    omega
  · rw [firstAt_cons, firstAt_cons]
    omega

/-- Of two relocations one lies elsewhere. -/
theorem exists_elsewhere {low : arch.Addr} (hnodup : (items.map (·.rOffset)).Nodup) (hcount : 2 ≤ items.length)
    (m : Nat) :
    ∃ x ∈ items, bytesFrom low x ≠ m := by
  match items with
  | [] => simp at hcount
  | [_] => simp at hcount
  | x :: y :: rest =>
    by_cases hx : bytesFrom low x = m
    · refine ⟨y, by simp, fun hy => ?_⟩
      have hsame : x.rOffset = y.rOffset := bytesFrom_inj (hx.trans hy.symm)
      simp [hsame] at hnodup
    · exact ⟨x, by simp, hx⟩

/-- Unless the comparison is over before, two of the relocations can come first with which it ends in a difference. -/
theorem exists_differs (hold : (oldItems.map (·.rOffset)).Nodup) (hnew : (newItems.map (·.rOffset)).Nodup)
    (hcount : oldItems.length = newItems.length) (htwo : 2 ≤ oldItems.length)
    (hover : ¬ OverBefore pair oldItems newItems) :
    ∃ oldLi newLi, Walked oldItems oldLi ∧ Walked newItems newLi ∧
      TextDiffers oldBinary newBinary pair 0 oldLi newLi := by
  classical
  -- where the texts stop being the same a relocation has been come to, and `m` is where the first one lies
  let reached (m : Nat) : Prop :=
    (∃ x ∈ oldItems, bytesFrom pair.lowOld x = m) ∨ ∃ y ∈ newItems, bytesFrom pair.lowNew y = m
  obtain ⟨d, hd⟩ := exists_overAt pair
  have hex : ∃ m, reached m ∧ m ≤ d ∧ m < pair.len := by
    by_contra hnone
    refine hover ⟨d, hd, fun x hx => ?_, fun y hy => ?_⟩
    · have hnot : ¬ _ := fun h => hnone ⟨bytesFrom pair.lowOld x, .inl ⟨x, hx, rfl⟩, h⟩
      omega
    · have hnot : ¬ _ := fun h => hnone ⟨bytesFrom pair.lowNew y, .inr ⟨y, hy, rfl⟩, h⟩
      omega
  obtain ⟨m, ⟨hreached, hmd, hmlen⟩, hfirst⟩ : ∃ m, (reached m ∧ m ≤ d ∧ m < pair.len) ∧
      ∀ k < m, ¬ (reached k ∧ k ≤ d ∧ k < pair.len) := ⟨Nat.find hex, Nat.find_spec hex, fun k => Nat.find_min hex⟩
  have hlowest : ∀ k, reached k → m ≤ k := by
    intro k hk
    by_contra hlt
    exact hfirst k (by omega) ⟨hk, by omega, by omega⟩
  have hbytes : ∀ j < m, pair.SameByte j := fun j hj => hd.bytes j (by omega)
  obtain ⟨x, hx, y, hy, hne, hmin⟩ : ∃ x ∈ oldItems, ∃ y ∈ newItems,
      bytesFrom pair.lowOld x ≠ bytesFrom pair.lowNew y ∧ m = min (bytesFrom pair.lowOld x) (bytesFrom pair.lowNew y) := by
    rcases hreached with ⟨x, hx, hat⟩ | ⟨y, hy, hat⟩
    · obtain ⟨y, hy, helse⟩ := @exists_elsewhere _ _ pair.lowNew hnew (by omega) m
      have hle := hlowest _ (.inr ⟨y, hy, rfl⟩)
      exact ⟨x, hx, y, hy, by omega, by omega⟩
    · obtain ⟨x, hx, helse⟩ := @exists_elsewhere _ _ pair.lowOld hold (by omega) m
      have hle := hlowest _ (.inl ⟨x, hx, rfl⟩)
      exact ⟨x, hx, y, hy, by omega, by omega⟩
  obtain ⟨oldRest, hwalkedOld⟩ := walked_cons hx
  obtain ⟨newRest, hwalkedNew⟩ := walked_cons hy
  exact ⟨_, _, hwalkedOld, hwalkedNew, differs_of_heads hne hmin hmlen hbytes⟩

/-- **When all walks over the same relocations end alike.** -/
theorem walks_agree {oldLi newLi : List (RelocInfo arch)} (hold : (oldItems.map (·.rOffset)).Nodup)
    (hnew : (newItems.map (·.rOffset)).Nodup) (hcount : oldItems.length = newItems.length)
    (hwalkedOld : Walked oldItems oldLi) (hwalkedNew : Walked newItems newLi) :
    (∀ oldLi' newLi', Walked oldItems oldLi' → Walked newItems newLi' →
      (compareText oldBinary newBinary pair (pair.len + 1) 0 oldLi' newLi').toOption =
        (compareText oldBinary newBinary pair (pair.len + 1) 0 oldLi newLi).toOption) ↔
      oldItems.length ≤ 1 ∨ OverBefore pair oldItems newItems ∨
        ∀ oldLi' newLi', Walked oldItems oldLi' → Walked newItems newLi' →
          TextDiffers oldBinary newBinary pair 0 oldLi' newLi' := by
  have hfuel : pair.len < pair.len + 1 + 0 := by omega
  constructor
  · intro hsame
    by_cases hshort : oldItems.length ≤ 1
    · exact .inl hshort
    · by_cases hover : OverBefore pair oldItems newItems
      · exact .inr (.inl hover)
      · refine .inr (.inr fun oldLi' newLi' hwalkedOld' hwalkedNew' => ?_)
        obtain ⟨oldLi'', newLi'', hwalkedOld'', hwalkedNew'', hdiffers⟩ :=
          @exists_differs _ oldBinary newBinary pair _ _ hold hnew hcount (by omega) hover
        have hverdict := hsame oldLi'' newLi'' hwalkedOld'' hwalkedNew''
        rw [(compareText_false hfuel).mpr hdiffers] at hverdict
        have hverdict' := (hsame oldLi' newLi' hwalkedOld' hwalkedNew').trans hverdict.symm
        exact (compareText_false hfuel).mp (toOption_eq_some.mp hverdict')
  · rintro (hshort | ⟨d, hover, hbeyondOld, hbeyondNew⟩ | hdiffers) oldLi' newLi' hwalkedOld' hwalkedNew'
    · rw [hwalkedOld'.unique hshort hwalkedOld, hwalkedNew'.unique (hcount ▸ hshort) hwalkedNew]
    · rw [compareText_over hover (hbeyondOld.mono hwalkedOld') (hbeyondNew.mono hwalkedNew') (hbeyondOld.mono hwalkedOld)
        (hbeyondNew.mono hwalkedNew) (Nat.zero_le d)]
    · rw [(compareText_false hfuel).mpr (hdiffers oldLi' newLi' hwalkedOld' hwalkedNew'),
        (compareText_false hfuel).mpr (hdiffers oldLi newLi hwalkedOld hwalkedNew)]

end Walks

/-! ## The files in another order -/

section Files
variable {α β : Type} {R : α → β → Prop}

theorem forall₂_find? {p : α → Bool} {q : β → Bool} {l : List α} {m : List β} (h : List.Forall₂ R l m)
    (hpq : ∀ x y, R x y → p x = q y) : Option.Rel R (l.find? p) (m.find? q) := by
  induction h with
  | nil => exact .none
  | cons hxy _ ih =>
    rw [List.find?_cons, List.find?_cons, ← hpq _ _ hxy]
    split
    · exact .some hxy
    · exact ih

theorem forall₂_getElem? {l : List α} {m : List β} (h : List.Forall₂ R l m) (i : Nat) : Option.Rel R l[i]? m[i]? := by
  induction h generalizing i with
  | nil => exact .none
  | cons hxy _ ih =>
    cases i with
    | zero => exact .some hxy
    | succ i => exact ih i

theorem rel_iff {a : Option α} {b : Option β} :
    Option.Rel R a b ↔ a = none ∧ b = none ∨ ∃ x y, a = some x ∧ b = some y ∧ R x y := by
  constructor
  · rintro (hxy | _)
    · exact .inr ⟨_, _, rfl, rfl, hxy⟩
    · exact .inl ⟨rfl, rfl⟩
  · rintro (⟨rfl, rfl⟩ | ⟨x, y, rfl, rfl, hxy⟩)
    · exact .none
    · exact .some hxy

theorem rel_orElse {a b : Option α} {a' b' : Option β} (ha : Option.Rel R a a') (hb : Option.Rel R b b') :
    Option.Rel R (a <|> b) (a' <|> b') := by
  cases ha with
  | none => exact hb
  | some hxy => exact .some hxy

variable {scn scn' : CodeScn arch} {e e' old old' new new' : CodeElf arch} {func : SubprogramInfo arch}
  {items order : List (RelocInfo arch)}

theorem ScnReordered.refl (scn : CodeScn arch) : ScnReordered scn scn := by
  refine ⟨?_, rfl⟩
  cases scn.entries with
  | none => exact .none
  | some entries => exact .some (.refl entries)

theorem ScnReordered.symm (h : ScnReordered scn scn') : ScnReordered scn' scn := by
  refine ⟨rel_iff.mpr ?_, by rw [h.rest]⟩
  rcases rel_iff.mp h.entries with ⟨hnone, hnone'⟩ | ⟨entries, entries', hsome, hsome', hperm⟩
  · exact .inl ⟨hnone', hnone⟩
  · exact .inr ⟨entries', entries, hsome', hsome, hperm.symm⟩

theorem ScnReordered.name (h : ScnReordered scn scn') : scn'.name = scn.name := by rw [h.rest]

theorem ScnReordered.shInfo (h : ScnReordered scn scn') : scn'.shInfo = scn.shInfo := by rw [h.rest]

theorem ScnReordered.toRelocScn (h : ScnReordered scn scn') : scn'.toRelocScn = scn.toRelocScn := by rw [h.rest]

theorem Reordered.refl (e : CodeElf arch) : Reordered e e := ⟨List.forall₂_same.mpr fun scn _ => .refl scn, rfl⟩

theorem Reordered.symm (h : Reordered e e') : Reordered e' e := by
  refine ⟨h.sections.flip.imp fun _ _ hscn => hscn.symm, ?_⟩
  rw [h.rest]

theorem Reordered.getSymbol (h : Reordered e e') (symIdx : Nat) : e'.getSymbol symIdx = e.getSymbol symIdx := by
  rw [h.rest]
  rfl

theorem Reordered.getScn (h : Reordered e e') (idx : Nat) :
    (∃ scn scn', e.getScn idx = .ok scn ∧ e'.getScn idx = .ok scn' ∧ ScnReordered scn scn') ∨
      e.getScn idx = .error .assertion ∧ e'.getScn idx = .error .assertion := by
  unfold CodeElf.getScn
  rcases rel_iff.mp (forall₂_getElem? h.sections idx) with ⟨hnone, hnone'⟩ | ⟨scn, scn', hsome, hsome', hscn⟩
  · rw [hnone, hnone']
    exact .inr ⟨rfl, rfl⟩
  · rw [hsome, hsome']
    exact .inl ⟨scn, scn', rfl, rfl, hscn⟩

theorem Reordered.getSectionByName (h : Reordered e e') (name : List UInt8) :
    Option.Rel ScnReordered (e.getSectionByName name) (e'.getSectionByName name) :=
  forall₂_find? (List.forall₂_drop 1 h.sections) fun _ _ hscn => by rw [hscn.name]

theorem Reordered.getRelocationSection (h : Reordered e e') (fnname : List UInt8) :
    Option.Rel ScnReordered (e.getRelocationSection fnname) (e'.getRelocationSection fnname) :=
  rel_orElse (h.getSectionByName _) (rel_orElse (h.getSectionByName _)
    (rel_orElse (h.getSectionByName _) (h.getSectionByName _)))

theorem Reordered.symbolAndScn (h : Reordered e e') : e'.symbolAndScn = e.symbolAndScn := by
  funext scnIdx symIdx
  unfold CodeElf.symbolAndScn
  rw [h.getSymbol]
  rcases h.getScn scnIdx.toNat with ⟨scn, scn', hscn, hscn', hreordered⟩ | ⟨hscn, hscn'⟩
  · rw [hscn, hscn']
    simp only [bind_ok, hreordered.toRelocScn]
  · rw [hscn, hscn']

/-- The relocations come in another order. -/
theorem Reordered.relocationItems (h : Reordered e e') (hitems : e.relocationItems func = .ok items) :
    ∃ items', e'.relocationItems func = .ok items' ∧ items'.Perm items := by
  unfold CodeElf.relocationItems CodeElf.getRelocationItemsInRange getRelocationItemsInRange at hitems ⊢
  rcases rel_iff.mp (h.getRelocationSection func.name) with ⟨hnone, hnone'⟩ | ⟨scn, scn', hsome, hsome', hscn⟩
  · rw [hnone] at hitems
    rw [hnone']
    exact ⟨items, hitems, .refl items⟩
  · rw [hsome] at hitems
    rw [hsome']
    dsimp only at hitems ⊢
    rcases rel_iff.mp hscn.entries with ⟨hnone, -⟩ | ⟨entries, entries', hentries, hentries', hperm⟩
    · rw [hnone] at hitems
      cases hitems
    · rw [hentries] at hitems
      rw [hentries', hscn.shInfo, h.symbolAndScn]
      obtain ⟨items', hitems', hperm'⟩ := List.perm_comp_forall₂ (hperm.symm.filter _) (mapM_iff.mp hitems)
      exact ⟨items', mapM_iff.mpr hitems', hperm'⟩

/-- What is chosen from a list can come in any order. -/
theorem exists_filter {p : α → Bool} {l chosen : List α} (h : chosen.Perm (l.filter p)) :
    ∃ l', l.Perm l' ∧ l'.filter p = chosen := by
  refine ⟨chosen ++ l.filter (!p ·), ?_, ?_⟩
  · exact (List.filter_append_perm p l).symm.trans (h.symm.append_right _)
  · have hall : chosen.filter p = chosen := by
      rw [List.filter_eq_self]
      exact fun x hx => (List.mem_filter.mp (h.subset hx)).2
    rw [List.filter_append, hall, List.filter_filter]
    simp

def CodeElf.withEntries (e : CodeElf arch) (scn : CodeScn arch) (entries : List (RelxEntry arch)) : CodeElf arch :=
  { e with sections := e.sections.map fun s => if s = scn then { s with entries := some entries } else s }

theorem withEntries_reordered {entries entries' : List (RelxEntry arch)} (hentries : scn.entries = some entries)
    (hperm : entries.Perm entries') : Reordered e (e.withEntries scn entries') := by
  refine ⟨List.forall₂_map_right_iff.mpr (List.forall₂_same.mpr fun s _ => ?_), rfl⟩
  split
  · rename_i hs
    refine ⟨?_, rfl⟩
    rw [hs, hentries]
    exact .some hperm
  · exact .refl s

theorem withEntries_getSectionByName (e : CodeElf arch) (scn : CodeScn arch) (entries : List (RelxEntry arch))
    (name : List UInt8) : (e.withEntries scn entries).getSectionByName name =
      (e.getSectionByName name).map fun s => if s = scn then { s with entries := some entries } else s := by
  unfold CodeElf.getSectionByName CodeElf.withEntries
  rw [← List.map_drop, List.find?_map]
  congr 2
  funext s
  dsimp only [Function.comp_apply]
  split <;> rfl

theorem map_orElse {g : α → α} (a b : Option α) : (a.map g <|> b.map g) = (a <|> b).map g := by
  cases a with
  | none => rfl
  | some x => rfl

theorem withEntries_getRelocationSection {entries : List (RelxEntry arch)} {fnname : List UInt8}
    (hscn : e.getRelocationSection fnname = some scn) :
    (e.withEntries scn entries).getRelocationSection fnname = some { scn with entries := some entries } := by
  unfold CodeElf.getRelocationSection at hscn ⊢
  simp only [withEntries_getSectionByName, map_orElse, hscn]
  rw [Option.map_some, if_pos rfl]

/-- And they come in any order in some. -/
theorem exists_reordered (hitems : e.relocationItems func = .ok items) (horder : order.Perm items) :
    ∃ e', Reordered e e' ∧ e'.relocationItems func = .ok order := by
  unfold CodeElf.relocationItems CodeElf.getRelocationItemsInRange getRelocationItemsInRange at hitems
  cases hscn : e.getRelocationSection func.name with
  | none =>
    rw [hscn] at hitems
    cases hitems
    refine ⟨e, .refl e, ?_⟩
    unfold CodeElf.relocationItems CodeElf.getRelocationItemsInRange
    rw [hscn, horder.eq_nil]
  | some scn =>
    rw [hscn] at hitems
    dsimp only at hitems
    cases hentries : scn.entries with
    | none =>
      rw [hentries] at hitems
      cases hitems
    | some entries =>
      rw [hentries] at hitems
      obtain ⟨chosen, hchosen, hperm⟩ := List.perm_comp_forall₂ horder (mapM_iff.mp hitems).flip
      obtain ⟨entries', hentries', hfilter⟩ := exists_filter hperm
      have hreordered : Reordered e (e.withEntries scn entries') := withEntries_reordered hentries hentries'
      refine ⟨_, hreordered, ?_⟩
      unfold CodeElf.relocationItems CodeElf.getRelocationItemsInRange getRelocationItemsInRange
      rw [withEntries_getRelocationSection hscn, hreordered.symbolAndScn]
      dsimp only
      rw [hfilter]
      exact mapM_iff.mpr hchosen.flip

theorem Reordered.textAt (h : Reordered e e') (fnname : List UInt8) (addr : arch.Addr) :
    e'.textAt fnname addr = e.textAt fnname addr := by
  have htext : e'.textIdx = e.textIdx := by rw [h.rest]
  unfold CodeElf.textAt CodeElf.textScn
  rcases rel_iff.mp (h.getSectionByName (printName dotText fnname)) with ⟨hnone, hnone'⟩ | ⟨scn, scn', hsome, hsome', hscn⟩
  · rw [hnone, hnone', htext]
    dsimp only
    rcases h.getScn e.textIdx with ⟨scn, scn', hget, hget', hscn⟩ | ⟨hget, hget'⟩
    · rw [hget, hget']
      cases assert (e.textIdx ≠ 0) with
      | error fault => rfl
      | ok _ => simp only [bind_ok, hscn.toRelocScn]
    · rw [hget, hget']
  · rw [hsome, hsome']
    simp only [bind_ok, hscn.toRelocScn]

theorem Reordered.compareRelocs (hold : Reordered old old') (hnew : Reordered new new')
    (relocOld relocNew : RelocInfo arch) :
    compareRelocs old' new' relocOld relocNew = compareRelocs old new relocOld relocNew := by
  have hsections : ∀ symOld symNew,
      compareSections old' new' symOld symNew = compareSections old new symOld symNew := by
    intro symOld symNew
    unfold compareSections
    rcases hold.getScn symOld.stShndx.toNat with ⟨scn, scn', hget, hget', hscn⟩ | ⟨hget, hget'⟩
    · rcases hnew.getScn symNew.stShndx.toNat with ⟨scnNew, scnNew', hgetNew, hgetNew', hscnNew⟩ | ⟨hgetNew, hgetNew'⟩
      · rw [hget, hget', hgetNew, hgetNew']
        simp only [bind_ok, hscn.name, hscnNew.name]
      · rw [hget, hget', hgetNew, hgetNew']
        rfl
    · rw [hget, hget']
      rfl
  unfold Katana.compareRelocs
  simp only [hold.getSymbol, hnew.getSymbol, hsections]

theorem Reordered.compareText (hold : Reordered old old') (hnew : Reordered new new') (pair : TextPair arch)
    (fuel i : Nat) (oldLi newLi : List (RelocInfo arch)) :
    compareText old' new' pair fuel i oldLi newLi = compareText old new pair fuel i oldLi newLi := by
  induction fuel generalizing i oldLi newLi with
  | zero => rfl
  | succ fuel ih =>
    unfold Katana.compareText
    simp only [hold.compareRelocs hnew, ih]

end Files

/-! ## The verdict -/

section Verdict
variable {e oldBinary newBinary : CodeElf arch} {func patcheeFunc patchedFunc : SubprogramInfo arch}
  {items oldItems newItems : List (RelocInfo arch)} {textOld textNew : List UInt8}

theorem getSectionByName_mem {scn : CodeScn arch} {name : List UInt8} (h : e.getSectionByName name = some scn) :
    scn ∈ e.sections := List.mem_of_mem_drop (List.mem_of_find?_eq_some h)

theorem getRelocationSection_mem {scn : CodeScn arch} {fnname : List UInt8}
    (h : e.getRelocationSection fnname = some scn) :
    scn ∈ e.sections := by
  unfold CodeElf.getRelocationSection at h
  simp only [Option.orElse_eq_orElse, Option.orElse_eq_or, Option.or_eq_some_iff] at h
  rcases h with h | ⟨-, h | ⟨-, h | ⟨-, h⟩⟩⟩
  · exact getSectionByName_mem h
  · exact getSectionByName_mem h
  · exact getSectionByName_mem h
  · exact getSectionByName_mem h

/-- The relocations are entries of a section, in its order. -/
theorem relocationItems_offsets (h : e.relocationItems func = .ok items) :
    items = [] ∨ ∃ scn ∈ e.sections, ∃ entries, scn.entries = some entries ∧
      items.map (·.rOffset) = (entries.filter fun entry => entry.Within func.lowpc func.highpc).map (·.rOffset) := by
  unfold CodeElf.relocationItems CodeElf.getRelocationItemsInRange at h
  cases hscn : e.getRelocationSection func.name with
  | none =>
    rw [hscn] at h
    cases h
    exact .inl rfl
  | some scn =>
    rw [hscn] at h
    dsimp only at h
    cases hentries : scn.entries with
    | none =>
      rw [hentries] at h
      cases h
    | some entries =>
      rw [hentries] at h
      refine .inr ⟨scn, getRelocationSection_mem hscn, entries, hentries, ?_⟩
      have hforall := mapM_iff.mp h
      clear h
      generalize (entries.filter fun entry => entry.Within func.lowpc func.highpc) = chosen at hforall ⊢
      induction hforall with
      | nil => rfl
      | cons hitem _ ih =>
        obtain ⟨addend, -, hitem⟩ := bind_eq_ok.mp hitem
        cases hitem
        rw [List.map_cons, List.map_cons, ih]

theorem relocationItems_nodup (hdistinct : DistinctOffsets e) (h : e.relocationItems func = .ok items) :
    (items.map (·.rOffset)).Nodup := by
  rcases relocationItems_offsets h with rfl | ⟨scn, hscn, entries, hentries, hoffsets⟩
  · exact List.nodup_nil
  · rw [hoffsets]
    exact (hdistinct scn hscn entries hentries).sublist (List.filter_sublist.map _)

/-- They lie from `lowpc` to `highpc`. -/
theorem relocationItems_bytesFrom (h : e.relocationItems func = .ok items) {reloc : RelocInfo arch}
    (hreloc : reloc ∈ items) :
    bytesFrom func.lowpc reloc ≤ (func.highpc - func.lowpc).toNat := by
  rcases relocationItems_offsets h with rfl | ⟨scn, -, entries, -, hoffsets⟩
  · cases hreloc
  · have hmem := List.mem_map_of_mem (f := (·.rOffset)) hreloc
    rw [hoffsets] at hmem
    obtain ⟨entry, hentry, heq⟩ := List.mem_map.mp hmem
    have hwithin : entry.Within func.lowpc func.highpc := of_decide_eq_true (List.mem_filter.mp hentry).2
    unfold RelxEntry.Within at hwithin
    rw [heq, not_or, BitVec.not_lt, BitVec.not_lt, BitVec.le_def, BitVec.le_def] at hwithin
    unfold bytesFrom
    rw [BitVec.toNat_sub_of_le hwithin.1, BitVec.toNat_sub_of_le (BitVec.le_def.mpr (hwithin.1.trans hwithin.2))]
    omega

/-- In a function shorter than 2 GiB they are walked by their offset, from any one on. -/
theorem walked_relocations (hdistinct : DistinctOffsets e) (h : e.relocationItems func = .ok items)
    (hshort : (func.highpc - func.lowpc).toNat < 2 ^ 31) {values li : List (RelocInfo arch)} (hvalues : values.Perm items)
    (hsorted : values.Pairwise (bytesFrom func.lowpc · ≤ bytesFrom func.lowpc ·)) :
    Walked items li ↔ items = [] ∧ li = [] ∨
      ∃ x ∈ items, li = values.filter fun y => bytesFrom func.lowpc x ≤ bytesFrom func.lowpc y :=
  walked_iff (fun _ hx => Nat.lt_of_le_of_lt (relocationItems_bytesFrom h hx) hshort) (relocationItems_nodup hdistinct h)
    hvalues hsorted

/-- The relocations come in another order, if they are found. -/
theorem Reordered.items_rel {e' : CodeElf arch} (h : Reordered e e') (func : SubprogramInfo arch) :
    Option.Rel (fun items items' => items'.Perm items) (e.relocationItems func).toOption
      (e'.relocationItems func).toOption := by
  rw [rel_iff]
  cases hitems : (e.relocationItems func).toOption with
  | some items =>
    obtain ⟨items', hitems', hperm⟩ := h.relocationItems (toOption_eq_some.mp hitems)
    exact .inr ⟨items, items', rfl, toOption_eq_some.mpr hitems', hperm⟩
  | none =>
    refine .inl ⟨rfl, ?_⟩
    by_contra hfound
    obtain ⟨items', hitems'⟩ := Option.ne_none_iff_exists'.mp hfound
    obtain ⟨items, hback, -⟩ := h.symm.relocationItems (toOption_eq_some.mp hitems')
    rw [toOption_eq_some.mpr hback] at hitems
    cases hitems

/-- The verdict, if there is one. -/
theorem verdict_eq (oldBinary newBinary : CodeElf arch) (patcheeFunc patchedFunc : SubprogramInfo arch) :
    (areSubprogramsIdentical oldBinary newBinary patcheeFunc patchedFunc).toOption =
      if patcheeFunc.len ≠ patchedFunc.len then some false
      else
        (oldBinary.relocationItems patcheeFunc).toOption.bind fun oldItems =>
          (newBinary.relocationItems patchedFunc).toOption.bind fun newItems =>
            if oldItems.length ≠ newItems.length then some false
            else
              (oldBinary.textAt patcheeFunc.name patcheeFunc.lowpc).toOption.bind fun textOld =>
                (newBinary.textAt patcheeFunc.name patchedFunc.lowpc).toOption.bind fun textNew =>
                  (compareText oldBinary newBinary (patcheeFunc.textPair patchedFunc textOld textNew)
                    (patcheeFunc.len.toNat + 1) 0 (sortInPlace cmpRelocs oldItems)
                    (sortInPlace cmpRelocs newItems)).toOption := by
  unfold areSubprogramsIdentical
  split
  · rfl
  · rw [toOption_bind]
    refine Option.bind_congr fun oldItems _ => ?_
    rw [toOption_bind]
    refine Option.bind_congr fun newItems _ => ?_
    split
    · rfl
    · rw [toOption_bind]
      refine Option.bind_congr fun textOld _ => ?_
      rw [toOption_bind]

/-- **The verdict is the same in every order of the entries exactly if** there is none to choose, or the comparison is
over before it comes to a relocation, or whatever is walked something differs. -/
theorem sameVerdict_iff (oldBinary newBinary : CodeElf arch) (patcheeFunc patchedFunc : SubprogramInfo arch)
    (hdistinctOld : DistinctOffsets oldBinary) (hdistinctNew : DistinctOffsets newBinary) :
    SameVerdict oldBinary newBinary patcheeFunc patchedFunc ↔ OrderFits oldBinary newBinary patcheeFunc patchedFunc := by
  have hagree {oldItems newItems : List (RelocInfo arch)} {pair : TextPair arch}
      (hold : oldBinary.relocationItems patcheeFunc = .ok oldItems)
      (hnew : newBinary.relocationItems patchedFunc = .ok newItems)
      (hcount : oldItems.length = newItems.length) :=
    @walks_agree _ oldBinary newBinary pair _ _ _ _ (relocationItems_nodup hdistinctOld hold)
      (relocationItems_nodup hdistinctNew hnew) hcount (walked_self oldItems) (walked_self newItems)
  constructor
  · intro hsame hlen oldItems newItems textOld textNew hold hnew hcount htextOld htextNew
    refine (hagree hold hnew hcount).mp ?_
    rintro _ _ ⟨oldOrder, hpermOld, rfl⟩ ⟨newOrder, hpermNew, rfl⟩
    obtain ⟨old', hreOld, hold'⟩ := exists_reordered hold hpermOld
    obtain ⟨new', hreNew, hnew'⟩ := exists_reordered hnew hpermNew
    have hverdict := hsame old' new' hreOld hreNew
    have hcount' : oldOrder.length = newOrder.length := by rw [hpermOld.length_eq, hpermNew.length_eq, hcount]
    simp only [verdict_eq, if_neg (not_not_intro hlen), toOption_eq_some.mpr hold, toOption_eq_some.mpr hold',
      toOption_eq_some.mpr hnew, toOption_eq_some.mpr hnew', Option.bind_some, if_neg (not_not_intro hcount),
      if_neg (not_not_intro hcount'), hreOld.textAt, hreNew.textAt, toOption_eq_some.mpr htextOld,
      toOption_eq_some.mpr htextNew, hreOld.compareText hreNew] at hverdict
    exact hverdict
  · intro hfits old' new' hreOld hreNew
    rw [verdict_eq, verdict_eq]
    split
    · rfl
    · rename_i hlen
      rcases rel_iff.mp (hreOld.items_rel patcheeFunc) with ⟨hnone, hnone'⟩ | ⟨oldItems, oldItems', hold, hold', hpermOld⟩
      · rw [hnone, hnone', Option.bind_none, Option.bind_none]
      · rcases rel_iff.mp (hreNew.items_rel patchedFunc) with ⟨hnone, hnone'⟩ | ⟨newItems, newItems', hnew, hnew', hpermNew⟩
        · rw [hold, hold', hnone, hnone', Option.bind_some, Option.bind_some, Option.bind_none, Option.bind_none]
        · rw [hold, hold', hnew, hnew']
          simp only [Option.bind_some, hpermOld.length_eq, hpermNew.length_eq, hreOld.textAt, hreNew.textAt,
            hreOld.compareText hreNew]
          split
          · rfl
          · rename_i hcount
            refine Option.bind_congr fun textOld htextOld => Option.bind_congr fun textNew htextNew => ?_
            have hfit := hfits (not_not.mp hlen) oldItems newItems textOld textNew (toOption_eq_some.mp hold)
              (toOption_eq_some.mp hnew) (not_not.mp hcount) (toOption_eq_some.mp htextOld) (toOption_eq_some.mp htextNew)
            exact (hagree (toOption_eq_some.mp hold) (toOption_eq_some.mp hnew) (not_not.mp hcount)).mpr hfit _ _
              ⟨oldItems', hpermOld, rfl⟩ ⟨newItems', hpermNew, rfl⟩

/-- `f`, of 16 bytes, with the text and the entries of its relocations, which are for the symbol `g`. -/
def sixteenBytes (text : List UInt8) (entries : List (RelxEntry .x86_64)) : CodeElf .x86_64 :=
  let null : CodeScn .x86_64 := ⟨⟨0, false, []⟩, [], 0, none⟩
  let textScn : CodeScn .x86_64 := ⟨⟨0, true, text⟩, [46, 116, 101, 120, 116], 0, none⟩
  let rela : CodeScn .x86_64 := ⟨⟨0, false, []⟩, relaText, 1, some entries⟩
  ⟨"f.o", [null, textScn, rela], [⟨⟨0, 0, 0, 0⟩, [], 0, 0⟩, ⟨⟨0, 0, 1, 0⟩, [103], 1, 0⟩], 1⟩

def relocatedWord (rOffset : Arch.x86_64.Addr) : RelxEntry .x86_64 := ⟨rOffset, 1, 1, some 0⟩

def sixteen : SubprogramInfo .x86_64 := ⟨[102], 0, 16⟩

theorem sixteenBytes_distinct {text : List UInt8} {entries : List (RelxEntry .x86_64)}
    (h : (entries.map (·.rOffset)).Nodup) : DistinctOffsets (sixteenBytes text entries) := by
  intro scn hscn entries' hentries
  simp only [sixteenBytes, List.mem_cons, List.not_mem_nil, or_false] at hscn
  rcases hscn with rfl | rfl | rfl
  · cases hentries
  · cases hentries
  · cases hentries
    exact h

/-- Where the first byte changed the relocations behind it can be in any order. -/
theorem changed_sameVerdict :
    SameVerdict (sixteenBytes (List.replicate 16 0) [relocatedWord 1, relocatedWord 9])
      (sixteenBytes (144 :: List.replicate 15 0) [relocatedWord 1, relocatedWord 9]) sixteen sixteen := by
  refine (sameVerdict_iff _ _ sixteen sixteen (sixteenBytes_distinct (by decide)) (sixteenBytes_distinct (by decide))).mpr ?_
  intro _ oldItems newItems textOld textNew hold hnew _ htextOld htextNew
  have hitems : ∀ text, (sixteenBytes text [relocatedWord 1, relocatedWord 9]).relocationItems sixteen =
      .ok [⟨1, 1, 1, 0⟩, ⟨9, 1, 1, 0⟩] := fun text => rfl
  cases (hitems _).symm.trans hold
  cases (hitems _).symm.trans hnew
  cases htextOld
  cases htextNew
  have hbeyond : @Beyond .x86_64 0 16 0 [⟨1, 1, 1, 0⟩, ⟨9, 1, 1, 0⟩] := by
    unfold Beyond
    decide
  refine .inr (.inl ⟨0, ⟨Nat.zero_le _, fun j hj => absurd hj (Nat.not_lt_zero j), .inr ?_⟩, hbeyond, hbeyond⟩)
  rintro ⟨b, hold, hnew⟩
  cases hold
  cases hnew

/-- Two relocations in the one order or the other. -/
theorem not_sameVerdict :
    ¬ ∀ (oldBinary newBinary : CodeElf .x86_64) (patcheeFunc patchedFunc : SubprogramInfo .x86_64),
      DistinctOffsets oldBinary → DistinctOffsets newBinary → SameVerdict oldBinary newBinary patcheeFunc patchedFunc := by
  intro h
  let file (entries : List (RelxEntry .x86_64)) : CodeElf .x86_64 := sixteenBytes (List.replicate 16 0) entries
  have hdistinct : DistinctOffsets (file [relocatedWord 0, relocatedWord 8]) := sixteenBytes_distinct (by decide)
  have hreordered : Reordered (file [relocatedWord 0, relocatedWord 8]) (file [relocatedWord 8, relocatedWord 0]) := by
    refine ⟨.cons (.refl _) (.cons (.refl _) (.cons ⟨.some (.swap _ _ _), rfl⟩ .nil)), rfl⟩
  have hverdict := h _ _ sixteen sixteen hdistinct hdistinct _ _ (.refl _) hreordered
  have hchanged : areSubprogramsIdentical (file [relocatedWord 0, relocatedWord 8])
      (file [relocatedWord 8, relocatedWord 0]) sixteen sixteen = .ok false := by
    decide
  have hidentical : areSubprogramsIdentical (file [relocatedWord 0, relocatedWord 8])
      (file [relocatedWord 0, relocatedWord 8]) sixteen sixteen = .ok true := by
    decide
  rw [hchanged, hidentical] at hverdict
  cases hverdict

end Verdict

end Katana

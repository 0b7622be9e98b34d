/-
  Katana.Lib.Overwrite — cells that are overwritten in part, and put back from a saved copy.

  An operation sets one cell, made from a start value if there is none; saves a copy of all cells; or puts
  back the cells of the last copy, which leaves those that the copy has not. Changes of a cell are
  overwriting: what one writes stays when it is done once more after another.

  Proved, for every run that restores only copies of its own:
  - `exec_effects`: what it does to a cell depends on that cell alone.
  - `CellEffect.apply_apply`: done again it does nothing more.
  - `exec_again`: run once more and then further, it gives what the whole run gives.

  For every run, `exec_within`: what its values are of, when a restore takes a copy that is not its own as well.
-/
import Mathlib.Tactic.Common

namespace Katana.Lib

variable {K V : Type} [DecidableEq K]

/-! ## Runs -/

inductive CellOp (K V : Type) where
  | set (key : K) (start : V) (change : V → V)
  | save
  | restore

/-- The cells and the saved copies, the last one first. -/
abbrev CellState (K V : Type) := (K → Option V) × List (K → Option V)

def CellOp.step : CellOp K V → CellState K V → Option (CellState K V)
  | .set key start change, (cells, saved) =>
    some (fun k => if k = key then some (change ((cells k).getD start)) else cells k, saved)
  | .save, (cells, saved) => some (cells, cells :: saved)
  | .restore, (_, []) => none
  | .restore, (cells, copy :: saved) => some (fun k => (copy k).or (cells k), saved)

def exec (ops : List (CellOp K V)) (s : CellState K V) : Option (CellState K V) := ops.foldlM (fun s op => op.step s) s

@[simp] theorem exec_nil (s : CellState K V) : exec [] s = some s := rfl

@[simp] theorem exec_cons (op : CellOp K V) (ops : List (CellOp K V)) (s : CellState K V) :
    exec (op :: ops) s = op.step s >>= exec ops := rfl

theorem exec_append (ops more : List (CellOp K V)) (s : CellState K V) :
    exec (ops ++ more) s = exec ops s >>= exec more := List.foldlM_append

/-- With this many copies saved before, no restore is without one. -/
def restoresWithin : Nat → List (CellOp K V) → Prop
  | _, [] => True
  | depth, .set .. :: ops => restoresWithin depth ops
  | depth, .save :: ops => restoresWithin (depth + 1) ops
  | 0, .restore :: _ => False
  | depth + 1, .restore :: ops => restoresWithin depth ops

/-- A run comes to its end exactly when no restore is without a copy. -/
theorem exec_isSome_iff {ops : List (CellOp K V)} {cells : K → Option V} {saved : List (K → Option V)} :
    (exec ops (cells, saved)).isSome ↔ restoresWithin saved.length ops := by
  induction ops generalizing cells saved with
  | nil => simp [restoresWithin]
  | cons op ops ih =>
    cases op with
    | set key start change => simpa [CellOp.step, restoresWithin] using ih
    | save => simpa [CellOp.step, restoresWithin] using @ih cells (cells :: saved)
    | restore =>
      cases saved with
      | nil => simp [CellOp.step, restoresWithin]
      | cons copy saved => simpa [CellOp.step, restoresWithin] using ih

/-! ## What a run does to a cell -/

/-- What becomes of a cell that is not there, and of the value of one that is. -/
structure CellEffect (V : Type) where
  made : Option V
  change : V → V

def CellEffect.apply (e : CellEffect V) : Option V → Option V
  | none => e.made
  | some v => some (e.change v)

abbrev Effects (K V : Type) := (K → CellEffect V) × List (K → CellEffect V)

def CellOp.effect : CellOp K V → Effects K V → Option (Effects K V)
  | .set key start change, (e, saved) =>
    some (fun k => if k = key then ⟨some (change ((e k).made.getD start)), change ∘ (e k).change⟩ else e k, saved)
  | .save, (e, saved) => some (e, e :: saved)
  | .restore, (_, []) => none
  | .restore, (e, copy :: saved) => some (fun k => ⟨(copy k).made.or (e k).made, (copy k).change⟩, saved)

/-- The effects of a run on the cells and on the copies it leaves; none if it restores a copy that is not its own. -/
def effects (ops : List (CellOp K V)) : Option (Effects K V) :=
  ops.foldlM (fun e op => op.effect e) (fun _ => ⟨none, id⟩, [])

/-- The cells after effects on `cells`. -/
def applyTo (cells : K → Option V) (e : K → CellEffect V) : K → Option V := fun k => (e k).apply (cells k)

theorem step_effect {op : CellOp K V} {e e' : Effects K V} (h : op.effect e = some e') (cells : K → Option V)
    (saved : List (K → Option V)) : op.step (applyTo cells e.1, e.2.map (applyTo cells) ++ saved) =
      some (applyTo cells e'.1, e'.2.map (applyTo cells) ++ saved) := by
  obtain ⟨e, copies⟩ := e
  cases op with
  | set key start change =>
    cases h
    simp only [CellOp.step, Option.some.injEq, Prod.mk.injEq, and_true]
    funext k
    by_cases hk : k = key
    · subst hk
      cases hc : cells k <;> simp [applyTo, CellEffect.apply, hc]
    · simp [applyTo, hk]
  | save =>
    cases h
    rfl
  | restore =>
    cases copies with
    | nil => cases h
    | cons copy copies =>
      cases h
      simp only [List.map_cons, List.cons_append, CellOp.step, Option.some.injEq, Prod.mk.injEq, and_true]
      funext k
      cases hc : cells k <;> simp [applyTo, CellEffect.apply, hc]

/-- **A run that restores only its own copies** does to every cell what its effect says, whatever was saved before. -/
theorem exec_effects {ops : List (CellOp K V)} {e : Effects K V} (h : effects ops = some e) (cells : K → Option V)
    (saved : List (K → Option V)) :
    exec ops (cells, saved) = some (applyTo cells e.1, e.2.map (applyTo cells) ++ saved) := by
  have hrun : ∀ (ops : List (CellOp K V)) (e e' : Effects K V), ops.foldlM (fun e op => op.effect e) e = some e' →
      exec ops (applyTo cells e.1, e.2.map (applyTo cells) ++ saved) =
        some (applyTo cells e'.1, e'.2.map (applyTo cells) ++ saved) := by
    intro ops
    induction ops with
    | nil =>
      intro e e' h
      cases h
      rfl
    | cons op ops ih =>
      intro e e' h
      rw [List.foldlM_cons] at h
      obtain ⟨e1, h1, h⟩ := Option.bind_eq_some_iff.mp h
      rw [exec_cons, step_effect h1]
      exact ih e1 e' h
  have hstart : applyTo cells (fun _ => ⟨none, id⟩) = cells := by
    funext k
    cases hc : cells k <;> simp [applyTo, CellEffect.apply, hc]
  have h' := hrun ops _ e h
  rw [hstart] at h'
  exact h'

theorem effects_isSome_iff {ops : List (CellOp K V)} : (effects ops).isSome ↔ restoresWithin 0 ops := by
  have hrun : ∀ (ops : List (CellOp K V)) (e : Effects K V),
      (ops.foldlM (fun (e : Effects K V) (op : CellOp K V) => op.effect e) e).isSome ↔ restoresWithin e.2.length ops := by
    intro ops
    induction ops with
    | nil => simp [restoresWithin]
    | cons op ops ih =>
      rintro ⟨e, copies⟩
      cases op with
      | set key start change => simpa [CellOp.effect, restoresWithin] using ih (_, copies)
      | save => simpa [CellOp.effect, restoresWithin] using ih (e, e :: copies)
      | restore =>
        cases copies with
        | nil => simp [CellOp.effect, restoresWithin]
        | cons copy copies => simpa [CellOp.effect, restoresWithin] using ih (_, copies)
  exact hrun ops _

/-! ## Doing it again -/

/-- Changes of which each, done again after another, leaves nothing of what was before. -/
structure Overwriting (S : (V → V) → Prop) : Prop where
  id : S id
  comp : ∀ f g, S f → S g → S (f ∘ g)
  absorb : ∀ f g, S f → S g → ∀ v, f (g (f v)) = f (g v)

variable {S : (V → V) → Prop}

/-- Every change of a run is one of these. -/
def ChangesBy (S : (V → V) → Prop) (ops : List (CellOp K V)) : Prop :=
  ∀ key start change, CellOp.set key start change ∈ ops → S change

/-- What an effect makes, it leaves alone when it is done again; one that makes nothing does nothing. -/
structure CellEffect.Settled (S : (V → V) → Prop) (e : CellEffect V) : Prop where
  change : S e.change
  made : ∀ v, e.made = some v → e.change v = v
  nothing : e.made = none → ∀ v, e.change v = v

theorem CellEffect.apply_apply (hS : Overwriting S) {e : CellEffect V} (h : e.Settled S) (x : Option V) :
    e.apply (e.apply x) = e.apply x := by
  cases x with
  | some v => exact congrArg some (hS.absorb e.change id h.change hS.id v)
  | none =>
    cases hm : e.made with
    | none => simp [CellEffect.apply, hm]
    | some v => simp [CellEffect.apply, hm, h.made v hm]

theorem effect_settled (hS : Overwriting S) {op : CellOp K V} {e e' : Effects K V} (h : op.effect e = some e')
    (hop : ∀ key start change, op = .set key start change → S change) (he : ∀ k, (e.1 k).Settled S)
    (hsaved : ∀ copy ∈ e.2, ∀ k, (copy k).Settled S) :
    (∀ k, (e'.1 k).Settled S) ∧ ∀ copy ∈ e'.2, ∀ k, (copy k).Settled S := by
  obtain ⟨e, copies⟩ := e
  cases op with
  | set key start change =>
    cases h
    have hc := hop key start change rfl
    refine ⟨fun k => ?_, hsaved⟩
    dsimp only
    split
    · have hk := he k
      refine ⟨show S (change ∘ (e k).change) from hS.comp _ _ hc hk.change, fun v hv => ?_, fun hv => by cases hv⟩
      cases hv
      show change ((e k).change (change _)) = _
      rw [hS.absorb _ _ hc hk.change]
      cases hm : (e k).made with
      | none => rw [hk.nothing hm]
      | some v => rw [Option.getD_some, hk.made v hm]
    · exact he k
  | save =>
    cases h
    exact ⟨he, List.forall_mem_cons.mpr ⟨he, hsaved⟩⟩
  | restore =>
    cases copies with
    | nil => cases h
    | cons copy copies =>
      cases h
      obtain ⟨hcopy, hsaved⟩ := List.forall_mem_cons.mp hsaved
      refine ⟨fun k => ?_, hsaved⟩
      have hk := hcopy k
      refine ⟨hk.change, fun v hv => ?_, fun hv => ?_⟩
      · cases hm : (copy k).made with
        | none => exact hk.nothing hm v
        | some w =>
          simp only [hm, Option.some_or, Option.some.injEq] at hv
          exact hv ▸ hk.made w hm
      · exact hk.nothing (Option.or_eq_none_iff.mp hv).1

theorem effects_settled (hS : Overwriting S) {ops : List (CellOp K V)} (hops : ChangesBy S ops) {e : Effects K V}
    (h : effects ops = some e) : ∀ k, (e.1 k).Settled S := by
  have hrun : ∀ (ops : List (CellOp K V)) (e e' : Effects K V), ChangesBy S ops → (∀ k, (e.1 k).Settled S) →
      (∀ copy ∈ e.2, ∀ k, (copy k).Settled S) → ops.foldlM (fun e op => op.effect e) e = some e' →
      ∀ k, (e'.1 k).Settled S := by
    intro ops
    induction ops with
    | nil =>
      intro e e' _ he _ h
      cases h
      exact he
    | cons op ops ih =>
      intro e e' hops he hsaved h
      rw [List.foldlM_cons] at h
      obtain ⟨e1, h1, h⟩ := Option.bind_eq_some_iff.mp h
      obtain ⟨he1, hsaved1⟩ := effect_settled hS h1 (fun key start change heq => hops key start change (by simp [heq])) he
        hsaved
      exact ih e1 e' (fun key start change hmem => hops key start change (by simp [hmem])) he1 hsaved1 h
  refine hrun ops _ e hops (fun _ => ⟨hS.id, ?_, fun _ _ => rfl⟩) (by simp) h
  intro v hv
  cases hv

/-- **Once more and then further** is the whole run: the first part of it has been done before. -/
theorem exec_again (hS : Overwriting S) {ops more : List (CellOp K V)} (hops : ChangesBy S ops)
    (hown : restoresWithin 0 ops) (hmore : restoresWithin 0 more) {cells before : K → Option V}
    {saved saved' : List (K → Option V)} {left : List (K → Option V)} {after : CellState K V}
    (hbefore : exec ops (cells, saved) = some (before, left)) (hafter : exec (ops ++ more) (before, saved') = some after) :
    ∃ left', exec (ops ++ more) (cells, saved) = some (after.1, left') := by
  obtain ⟨e, he⟩ := Option.isSome_iff_exists.mp (effects_isSome_iff.mpr hown)
  obtain ⟨e', he'⟩ := Option.isSome_iff_exists.mp (effects_isSome_iff.mpr hmore)
  have hsettled := effects_settled hS hops he
  have htwice : applyTo (applyTo cells e.1) e.1 = applyTo cells e.1 := by
    funext k
    exact CellEffect.apply_apply hS (hsettled k) (cells k)
  rw [exec_effects he, Option.some.injEq, Prod.mk.injEq] at hbefore
  obtain ⟨rfl, -⟩ := hbefore
  rw [exec_append, exec_effects he, Option.bind_eq_bind, Option.bind_some, htwice, exec_effects he',
    Option.some.injEq] at hafter
  subst hafter
  rw [exec_append, exec_effects he, Option.bind_eq_bind, Option.bind_some, exec_effects he']
  exact ⟨_, rfl⟩

/-- The copies saved before do not matter to a run that restores only its own. -/
theorem exec_own {ops : List (CellOp K V)} (hown : restoresWithin 0 ops) {cells : K → Option V}
    {saved : List (K → Option V)} {after : CellState K V} (h : exec ops (cells, saved) = some after) :
    ∃ left, exec ops (cells, []) = some (after.1, left) := by
  obtain ⟨e, he⟩ := Option.isSome_iff_exists.mp (effects_isSome_iff.mpr hown)
  rw [exec_effects he, Option.some.injEq] at h
  subst h
  rw [exec_effects he]
  exact ⟨_, rfl⟩

/-! ## What the values are of -/

/-- How many copies of its own a run leaves, with so many before it. -/
def copiesLeft : Nat → List (CellOp K V) → Nat
  | depth, [] => depth
  | depth, .set .. :: ops => copiesLeft depth ops
  | depth, .save :: ops => copiesLeft (depth + 1) ops
  | depth, .restore :: ops => copiesLeft (depth - 1) ops

variable {P : V → Prop}

def AllCells (P : V → Prop) (cells : K → Option V) : Prop := ∀ k v, cells k = some v → P v

/-- The changes of a run make values of `P` of such values and of what they start from. -/
def ChangesWithin (P : V → Prop) (ops : List (CellOp K V)) : Prop :=
  ∀ key start change, CellOp.set key start change ∈ ops → P (change start) ∧ ∀ v, P v → P (change v)

omit [DecidableEq K] in
theorem ChangesWithin.tail {op : CellOp K V} {ops : List (CellOp K V)} (h : ChangesWithin P (op :: ops)) :
    ChangesWithin P ops := fun key start change hmem => h key start change (List.mem_cons_of_mem _ hmem)

theorem ChangesWithin.step {key : K} {start : V} {change : V → V} {ops : List (CellOp K V)}
    (h : ChangesWithin P (.set key start change :: ops)) {cells : K → Option V} (hcells : AllCells P cells) :
    AllCells P fun k => if k = key then some (change ((cells k).getD start)) else cells k := by
  obtain ⟨hstart, hchange⟩ := h key start change List.mem_cons_self
  intro k v hv
  dsimp only at hv
  split at hv
  · cases hv
    cases hk : cells k with
    | none => exact hstart
    | some w => exact hchange w (hcells k w hk)
  · exact hcells k v hv

omit [DecidableEq K] in
theorem AllCells.or {cells copy : K → Option V} (hcopy : AllCells P copy) (hcells : AllCells P cells) :
    AllCells P fun k => (copy k).or (cells k) := by
  intro k v hv
  rcases Option.or_eq_some_iff.mp hv with hv | ⟨-, hv⟩
  · exact hcopy k v hv
  · exact hcells k v hv

/-- **What a run leaves** is of what it makes itself, and of the copies from before if it restores one of these; the copies
it does not restore it leaves. -/
theorem exec_within {ops : List (CellOp K V)} (hops : ChangesWithin P ops) {cells : K → Option V} {own rest : List (K → Option V)}
    {after : CellState K V} (hcells : AllCells P cells) (hown : ∀ copy ∈ own, AllCells P copy)
    (hrest : restoresWithin own.length ops ∨ ∀ copy ∈ rest, AllCells P copy) (h : exec ops (cells, own ++ rest) = some after) :
    AllCells P after.1 ∧ ∃ own' rest', after.2 = own' ++ rest' ∧ rest' <:+ rest ∧ own'.length = copiesLeft own.length ops ∧
      ∀ copy ∈ own', AllCells P copy := by
  induction ops generalizing cells own rest with
  | nil =>
    cases h
    exact ⟨hcells, own, rest, rfl, List.suffix_rfl, rfl, hown⟩
  | cons op ops ih =>
    cases op with
    | set key start change => exact ih hops.tail (hops.step hcells) hown (hrest.imp_left id) h
    | save => exact ih hops.tail hcells (List.forall_mem_cons.mpr ⟨hcells, hown⟩) (hrest.imp_left id) h
    | restore =>
      cases own with
      | cons copy own =>
        obtain ⟨hcopy, hown⟩ := List.forall_mem_cons.mp hown
        exact ih hops.tail (hcopy.or hcells) hown (hrest.imp_left id) h
      | nil =>
        have hrest : ∀ copy ∈ rest, AllCells P copy := hrest.resolve_left id
        cases rest with
        | nil => cases h
        | cons copy rest =>
          obtain ⟨hcopy, hrest⟩ := List.forall_mem_cons.mp hrest
          obtain ⟨hafter, own', rest', hsaved, hsuffix, hlength, hown'⟩ :=
            @ih hops.tail _ [] rest (hcopy.or hcells) (by simp) (.inr hrest) h
          exact ⟨hafter, own', rest', hsaved, hsuffix.trans (List.suffix_cons copy rest), hlength, hown'⟩

end Katana.Lib

/-
  Katana.Lib.Follow — following a link from element to element until one of them ends the walk.

  Proved, for every link and every stop:
  - `follow_eq_some_iff`: a walk ends with what the first element that stops it gives.
  - `follow_ends_iff`: over finitely many elements a walk ends exactly if no element is met twice before that.
-/
import Mathlib.Data.Fintype.Pigeonhole
import Mathlib.Logic.Function.Iterate

namespace Katana.Lib

variable {α β : Type} (next : α → α) (stop : α → Option β)

/-- At most `n` elements are looked at. -/
def follow : Nat → α → Option β
  | 0, _ => none
  | n + 1, a =>
    match stop a with
    | some b => some b
    | none => follow n (next a)

/-- The walk from `a` comes to an element that stops it before it meets an element again. -/
def Unrepeated (a : α) : Prop :=
  ∀ i j, i < j → next^[i] a = next^[j] a → ∃ k < j, (stop (next^[k] a)).isSome

variable {next stop}

/-- The first index with a property is the only one that is. -/
theorem first_unique {p : Nat → Prop} {j k : Nat} (hj : p j) (hbeforej : ∀ i < j, ¬ p i) (hk : p k)
    (hbeforek : ∀ i < k, ¬ p i) : j = k :=
  Nat.le_antisymm (Nat.le_of_not_lt fun h => hbeforej k h hk) (Nat.le_of_not_lt fun h => hbeforek j h hj)

/-- The first element that stops a walk is the only one. -/
theorem first_stop {a : α} {b c : β} {j k : Nat} (hj : stop (next^[j] a) = some b)
    (hbeforej : ∀ i < j, stop (next^[i] a) = none) (hk : stop (next^[k] a) = some c)
    (hbeforek : ∀ i < k, stop (next^[i] a) = none) : j = k :=
  @first_unique (fun i => stop (next^[i] a) ≠ none) j k (by simp [hj]) (fun i hi => not_not_intro (hbeforej i hi))
    (by simp [hk]) fun i hi => not_not_intro (hbeforek i hi)

theorem follow_eq_some_iff {n : Nat} {a : α} {b : β} :
    follow next stop n a = some b ↔ ∃ k < n, stop (next^[k] a) = some b ∧ ∀ i < k, stop (next^[i] a) = none := by
  induction n generalizing a with
  | zero => simp [follow]
  | succ n ih =>
    rw [follow]
    cases hstop : stop a with
    | some c =>
      constructor
      · intro h
        exact ⟨0, Nat.succ_pos n, hstop.trans h, fun i hi => absurd hi (Nat.not_lt_zero i)⟩
      · rintro ⟨k, -, hk, hbefore⟩
        cases k with
        | zero => exact hstop.symm.trans hk
        | succ k =>
          have hnone := hbefore 0 (Nat.succ_pos k)
          rw [Function.iterate_zero_apply, hstop] at hnone
          cases hnone
    | none =>
      dsimp only
      rw [ih]
      constructor
      · rintro ⟨k, hk, hb, hbefore⟩
        refine ⟨k + 1, Nat.succ_lt_succ hk, hb, fun i hi => ?_⟩
        cases i with
        | zero => exact hstop
        | succ i => exact hbefore i (Nat.lt_of_succ_lt_succ hi)
      · rintro ⟨k, hk, hb, hbefore⟩
        cases k with
        | zero =>
          rw [Function.iterate_zero_apply, hstop] at hb
          cases hb
        | succ k =>
          exact ⟨k, Nat.lt_of_succ_lt_succ hk, hb, fun i hi => hbefore (i + 1) (Nat.succ_lt_succ hi)⟩

/-- An element that stops the walk has a first one before it or is it. -/
theorem exists_first {a : α} {k : Nat} (h : (stop (next^[k] a)).isSome) :
    ∃ j ≤ k, (stop (next^[j] a)).isSome ∧ ∀ i < j, stop (next^[i] a) = none := by
  have hex : ∃ k, (stop (next^[k] a)).isSome := ⟨k, h⟩
  refine ⟨Nat.find hex, Nat.find_min' hex h, Nat.find_spec hex, fun i hi => ?_⟩
  have hnot := Nat.find_min hex hi
  rwa [Option.not_isSome_iff_eq_none] at hnot

theorem ends_iff_exists {a : α} : (∃ n b, follow next stop n a = some b) ↔ ∃ k, (stop (next^[k] a)).isSome := by
  constructor
  · rintro ⟨n, b, h⟩
    obtain ⟨k, -, hk, -⟩ := follow_eq_some_iff.mp h
    exact ⟨k, by rw [hk]; rfl⟩
  · rintro ⟨k, hk⟩
    obtain ⟨j, -, hj, hbefore⟩ := exists_first hk
    obtain ⟨b, hb⟩ := Option.isSome_iff_exists.mp hj
    exact ⟨j + 1, b, follow_eq_some_iff.mpr ⟨j, Nat.lt_succ_self j, hb, hbefore⟩⟩

/-- Behind an element that is met again, the walk only meets those before it. -/
theorem iterate_before {a : α} {i j : Nat} (hij : i < j) (h : next^[i] a = next^[j] a) (k : Nat) :
    ∃ l < j, next^[l] a = next^[k] a := by
  induction k using Nat.strongRecOn with
  | ind k ih =>
    by_cases hk : k < j
    · exact ⟨k, hk, rfl⟩
    · obtain ⟨l, hl, heq⟩ := ih (k - j + i) (by omega)
      refine ⟨l, hl, ?_⟩
      calc next^[l] a = next^[k - j + i] a := heq
        _ = next^[k - j] (next^[i] a) := Function.iterate_add_apply next (k - j) i a
        _ = next^[k - j] (next^[j] a) := by rw [h]
        _ = next^[k - j + j] a := (Function.iterate_add_apply next (k - j) j a).symm
        _ = next^[k] a := by rw [Nat.sub_add_cancel (Nat.le_of_not_lt hk)]

/-- **Over finitely many elements the walk ends exactly if it does not meet one of them again before.** -/
theorem follow_ends_iff [Finite α] {a : α} : (∃ n b, follow next stop n a = some b) ↔ Unrepeated next stop a := by
  rw [ends_iff_exists]
  constructor
  · rintro ⟨k, hk⟩ i j hij heq
    obtain ⟨l, hl, hlk⟩ := iterate_before hij heq k
    exact ⟨l, hl, by rw [hlk]; exact hk⟩
  · intro h
    obtain ⟨i, j, hne, heq⟩ := Finite.exists_ne_map_eq_of_infinite fun k => next^[k] a
    rcases Nat.lt_or_gt_of_ne hne with hij | hji
    · obtain ⟨k, -, hk⟩ := h i j hij heq
      exact ⟨k, hk⟩
    · obtain ⟨k, -, hk⟩ := h j i hji heq.symm
      exact ⟨k, hk⟩

end Katana.Lib

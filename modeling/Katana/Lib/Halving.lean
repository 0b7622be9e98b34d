/-
  Katana.Lib.Halving — halving an interval of indices, with an upper bound that is half exclusive.

  The interval is `[low, high)`, but to the left of its middle the next one ends one index early, and a
  single index has nothing to its left. What matters is where the indices are beyond what is looked for.

  Proved, for every interval and every threshold:
  - `halving_ends`: it ends at the threshold or just before it, or at the threshold alone.
  - `halving_meets`: the index just before the threshold is looked at, or it ends there.
  - `halving_rightward`: it never comes back to the left of an index that is not beyond.
-/
import Mathlib.Tactic.Common

namespace Katana.Lib

/-- The indices looked at, first to last, and the index at the end; no index if it comes down to one that is beyond. -/
def halving (beyond : Nat → Bool) : Nat → Nat → Nat → List Nat × Option Nat
  | 0, low, _ => ([], some low)
  | fuel + 1, low, high =>
    if low < high then
      let middle := low + (high - low) / 2
      if beyond middle then
        if middle = low then ([middle], none)
        else
          let left := halving beyond fuel low (middle - 1)
          (middle :: left.1, left.2)
      else
        let right := halving beyond fuel (middle + 1) high
        (middle :: right.1, right.2)
    else ([], some low)

section Threshold
variable {beyond : Nat → Bool} {g low high fuel : Nat}

/-- **It ends at the threshold or just before it**, unless it comes down to the threshold alone. -/
theorem halving_ends (hbeyond : ∀ i, beyond i = true ↔ g ≤ i) (hlow : low ≤ g) (hhigh : g ≤ high + 1) (hle : low ≤ high)
    (hfuel : high - low < fuel) : ∀ l ∈ (halving beyond fuel low high).2, l = g ∨ l + 1 = g := by
  induction fuel generalizing low high with
  | zero => omega
  | succ fuel ih =>
    unfold halving
    by_cases hlt : low < high
    · simp only [hlt, if_true]
      by_cases hb : beyond (low + (high - low) / 2) = true
      · have hg := (hbeyond _).mp hb
        by_cases hm : low + (high - low) / 2 = low
        · simp only [hb, if_true]
          rw [if_pos hm]
          simp
        · simp only [hb, if_true, hm, if_false]
          exact ih hlow (by omega) (by omega) (by omega)
      · have hg : ¬ g ≤ low + (high - low) / 2 := fun h => hb ((hbeyond _).mpr h)
        simp only [hb, Bool.false_eq_true, if_false]
        exact ih (by omega) hhigh (by omega) (by omega)
    · simp only [hlt, if_false, Option.mem_some]
      intro l hl
      omega

/-- **The index just before the threshold** is looked at, or it ends there. -/
theorem halving_meets {t : Nat} (hbeyond : ∀ i, beyond i = true ↔ t + 1 ≤ i) (hlow : low ≤ t) (hhigh : t ≤ high)
    (hfuel : high - low < fuel) :
    t ∈ (halving beyond fuel low high).1 ∨ (halving beyond fuel low high).2 = some t := by
  induction fuel generalizing low high with
  | zero => omega
  | succ fuel ih =>
    unfold halving
    by_cases hlt : low < high
    · simp only [hlt, if_true]
      by_cases hb : beyond (low + (high - low) / 2) = true
      · have hg := (hbeyond _).mp hb
        have hm : ¬ low + (high - low) / 2 = low := by omega
        simp only [hb, if_true, hm, if_false, List.mem_cons]
        rcases ih hlow (show t ≤ low + (high - low) / 2 - 1 by omega) (by omega) with h | h
        · exact .inl (.inr h)
        · exact .inr h
      · have hg : ¬ t + 1 ≤ low + (high - low) / 2 := fun h => hb ((hbeyond _).mpr h)
        simp only [hb, Bool.false_eq_true, if_false, List.mem_cons]
        by_cases ht : t = low + (high - low) / 2
        · exact .inl (.inl ht)
        · rcases ih (show low + (high - low) / 2 + 1 ≤ t by omega) hhigh (by omega) with h | h
          · exact .inl (.inr h)
          · exact .inr h
    · simp only [hlt, if_false, List.not_mem_nil, false_or, Option.some.injEq]
      omega

/-- **Behind everything**: where no index is beyond, it ends at the upper bound. -/
theorem halving_behind (hbeyond : ∀ i < high, beyond i = false) (hle : low ≤ high) (hfuel : high - low < fuel) :
    (halving beyond fuel low high).2 = some high := by
  induction fuel generalizing low with
  | zero => omega
  | succ fuel ih =>
    unfold halving
    by_cases hlt : low < high
    · simp only [hlt, if_true, hbeyond _ (show low + (high - low) / 2 < high by omega), Bool.false_eq_true, if_false]
      exact ih (by omega) (by omega)
    · simp only [hlt, if_false, Option.some.injEq]
      omega

/-- Every index looked at is in the interval. -/
theorem halving_mem {i : Nat} (h : i ∈ (halving beyond fuel low high).1) : low ≤ i ∧ i < high := by
  induction fuel generalizing low high with
  | zero => simp [halving] at h
  | succ fuel ih =>
    unfold halving at h
    by_cases hlt : low < high
    · simp only [hlt, if_true] at h
      split at h
      · split at h
        · simp at h
          omega
        · rcases List.mem_cons.mp h with h | h
          · omega
          · have := ih h
            omega
      · rcases List.mem_cons.mp h with h | h
        · omega
        · have := ih h
          omega
    · simp [hlt] at h

/-- It ends in the interval or at its upper bound. -/
theorem halving_end_le {l : Nat} (h : (halving beyond fuel low high).2 = some l) : low ≤ l := by
  induction fuel generalizing low high with
  | zero => simp_all [halving]
  | succ fuel ih =>
    unfold halving at h
    by_cases hlt : low < high
    · simp only [hlt, if_true] at h
      split at h
      · split at h
        · simp at h
        · exact ih h
      · have := ih h
        omega
    · simp only [hlt, if_false, Option.some.injEq] at h
      omega

/-- **To the right of what is not beyond**: what is come to later has a greater index. -/
theorem halving_rightward :
    ((halving beyond fuel low high).1 ++ (halving beyond fuel low high).2.toList).Pairwise
      fun i j => beyond i = false → i < j := by
  induction fuel generalizing low high with
  | zero => simp [halving]
  | succ fuel ih =>
    unfold halving
    by_cases hlt : low < high
    · simp only [hlt, if_true]
      by_cases hb : beyond (low + (high - low) / 2) = true
      · simp only [hb, if_true]
        split
        · simp
        · simp only [List.cons_append, List.pairwise_cons]
          exact ⟨fun j _ hnot => absurd hb (by simp [hnot]), ih⟩
      · simp only [hb, Bool.false_eq_true, if_false, List.cons_append, List.pairwise_cons]
        refine ⟨fun j hj _ => ?_, ih⟩
        rcases List.mem_append.mp hj with hj | hj
        · have := halving_mem hj
          omega
        · have := halving_end_le (Option.mem_toList.mp hj)
          omega
    · simp [hlt]

end Threshold

end Katana.Lib

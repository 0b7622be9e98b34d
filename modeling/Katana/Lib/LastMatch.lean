/-
  Katana.Lib.LastMatch — a scan through a whole list for the last element that a check accepts, where the check
  can fail.

  Proved, for every check and list:
  - `lastMatch_ok`: the scan ends with an index exactly if no check fails, and it is that of the last element
    that is accepted, or the one to start with if none is.
-/
import Katana.Fault

namespace Katana.Lib

variable {α ε : Type} (accept : α → Except ε Bool)

/-- The elements are those from index `i` on; `retval` is what was found before. -/
def lastMatch : List α → Nat → Nat → Except ε Nat
  | [], _, retval => .ok retval
  | a :: rest, i, retval => do
    let found ← accept a
    lastMatch rest (i + 1) (if found then i else retval)

/-- The element at index `k`, counted from `i` on, is accepted and none behind it is. -/
structure LastAt (l : List α) (i k : Nat) : Prop where
  here : ∃ j a, k = i + j ∧ l[j]? = some a ∧ accept a = .ok true
  behind : ∀ j a, k < i + j → l[j]? = some a → accept a = .ok false

variable {accept}

theorem lastAt_cons {a : α} {l : List α} {i k : Nat} :
    LastAt accept (a :: l) i k ↔
      LastAt accept l (i + 1) k ∨ accept a = .ok true ∧ (∀ b ∈ l, accept b = .ok false) ∧ k = i := by
  constructor
  · rintro ⟨⟨j, b, hk, hb, haccept⟩, hbehind⟩
    cases j with
    | zero =>
      cases Option.some_inj.mp hb
      refine .inr ⟨haccept, fun c hc => ?_, hk⟩
      obtain ⟨j, hj⟩ := List.mem_iff_getElem?.mp hc
      exact hbehind (j + 1) c (by omega) hj
    | succ j =>
      refine .inl ⟨⟨j, b, by omega, hb, haccept⟩, fun j' c hj' hc => ?_⟩
      exact hbehind (j' + 1) c (by omega) hc
  · rintro (⟨⟨j, b, hk, hb, haccept⟩, hbehind⟩ | ⟨haccept, hnone, hk⟩)
    · refine ⟨⟨j + 1, b, by omega, hb, haccept⟩, fun j' c hj' hc => ?_⟩
      cases j' with
      | zero => omega
      | succ j' => exact hbehind j' c (by omega) hc
    · refine ⟨⟨0, a, hk, rfl, haccept⟩, fun j' c hj' hc => ?_⟩
      cases j' with
      | zero => omega
      | succ j' => exact hnone c (List.mem_of_getElem? hc)

/-- **What a scan ends with.** -/
theorem lastMatch_ok {l : List α} {i retval k : Nat} :
    lastMatch accept l i retval = .ok k ↔
      (∀ a ∈ l, ∃ found, accept a = .ok found) ∧
        (LastAt accept l i k ∨ (∀ a ∈ l, accept a = .ok false) ∧ k = retval) := by
  induction l generalizing i retval with
  | nil =>
    constructor
    · intro h
      cases h
      exact ⟨fun a ha => (by cases ha), .inr ⟨fun a ha => (by cases ha), rfl⟩⟩
    · rintro ⟨-, ⟨⟨j, a, -, hj, -⟩, -⟩ | ⟨-, rfl⟩⟩
      · cases hj
      · rfl
  | cons a l ih =>
    rw [lastMatch]
    cases haccept : accept a with
    | error e =>
      constructor
      · intro h
        cases h
      · rintro ⟨hall, -⟩
        obtain ⟨found, hfound⟩ := hall a List.mem_cons_self
        rw [haccept] at hfound
        cases hfound
    | ok found =>
      rw [bind_ok, ih, lastAt_cons, haccept, List.forall_mem_cons, List.forall_mem_cons, haccept]
      cases found with
      | true => simp
      | false => simp

end Katana.Lib

/-
  Katana.Lib.Region — runs of bytes in an address space.

  A region is its first address and its size; its bytes are counted without wrapping around.

  Proved: parts of disjoint regions are disjoint (`Inside.disjoint`), and the front of a region is
  disjoint from its rest (`front_disjoint_rest`).
-/
import Mathlib.Order.Interval.Set.Basic
import Mathlib.Order.CompletePartialOrder
import Mathlib.Data.Set.BooleanAlgebra

namespace Katana.Lib

structure Region where
  start : Nat
  size : Nat
  deriving DecidableEq, Repr

namespace Region

def bytes (r : Region) : Set Nat := Set.Ico r.start (r.start + r.size)

/-- From its first byte to its end, which an empty region has as well. -/
def Inside (r q : Region) : Prop := q.start ≤ r.start ∧ r.start + r.size ≤ q.start + q.size

variable {r q p : Region}

theorem Inside.trans (h : r.Inside q) (h' : q.Inside p) : r.Inside p :=
  ⟨Nat.le_trans h'.1 h.1, Nat.le_trans h.2 h'.2⟩

theorem Inside.subset (h : r.Inside q) : r.bytes ⊆ q.bytes := Set.Ico_subset_Ico h.1 h.2

theorem Inside.disjoint (h : r.Inside q) {b : Set Nat} (hb : Disjoint q.bytes b) : Disjoint r.bytes b :=
  hb.mono_left h.subset

theorem bytes_empty (start : Nat) : bytes ⟨start, 0⟩ = ∅ := Set.Ico_self start

theorem empty_disjoint (start : Nat) (b : Set Nat) : Disjoint (bytes ⟨start, 0⟩) b := by
  rw [bytes_empty]
  exact Set.empty_disjoint b

variable (start n rest : Nat)

theorem front_inside : (Region.mk start n).Inside ⟨start, n + rest⟩ := by
  refine ⟨Nat.le_refl _, ?_⟩
  simp

theorem rest_inside : (Region.mk (start + n) rest).Inside ⟨start, n + rest⟩ := by
  refine ⟨Nat.le_add_right _ _, ?_⟩
  simp [Nat.add_assoc]

theorem front_disjoint_rest : Disjoint (bytes ⟨start, n⟩) (bytes ⟨start + n, rest⟩) := by
  rw [Set.disjoint_left]
  intro x hx hrest
  have hlt := (Set.mem_Ico.mp hx).2
  have hle := (Set.mem_Ico.mp hrest).1
  exact Nat.not_lt.mpr hle hlt

end Region

end Katana.Lib

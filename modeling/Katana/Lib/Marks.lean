/-
  Katana.Lib.Marks — searches of a graph that mark each node when they come to it.

  A search ends because every call marks one more node, of finitely many. Where it comes back to a node
  it is still at work on, there was an edge into that node.

  Proved, for every finite type and relation:
  - `unmarked_mark` / `unmarked_mono`: marking a node leaves fewer unmarked ones, and marking nothing else adds none.
  - `exists_edge_into`: a path out of a closed set of nodes that ends in `a` has its last edge in the set.
  - `wellFounded_of_acyclic`: a relation that leads nothing back to itself is well-founded.
-/
import Mathlib.Data.Fintype.EquivFin
import Mathlib.Logic.Relation

namespace Katana.Lib

variable {α : Type}

/-! ## Unmarked nodes -/

section
variable [Fintype α]

/-- How many nodes are unmarked. -/
def unmarked (marked : α → Bool) : Nat := (Finset.univ.filter fun x => marked x = false).card

theorem unmarked_le (marked : α → Bool) : unmarked marked ≤ Fintype.card α := Finset.card_le_univ _

theorem unmarked_mono {marked marked' : α → Bool} (h : ∀ x, marked x = true → marked' x = true) :
    unmarked marked' ≤ unmarked marked := by
  refine Finset.card_le_card ?_
  intro x hx
  simp only [Finset.mem_filter, Finset.mem_univ, true_and] at hx ⊢
  by_cases hmarked : marked x = true
  · rw [h x hmarked] at hx
    cases hx
  · simpa using hmarked

theorem unmarked_mark {marked marked' : α → Bool} (h : ∀ x, marked x = true → marked' x = true) {a : α}
    (ha : marked a = false)
    (ha' : marked' a = true) : unmarked marked' < unmarked marked := by
  refine Finset.card_lt_card ((Finset.ssubset_iff_of_subset ?_).mpr ⟨a, by simpa using ha, by simp [ha']⟩)
  intro x hx
  simp only [Finset.mem_filter, Finset.mem_univ, true_and] at hx ⊢
  by_cases hmarked : marked x = true
  · rw [h x hmarked] at hx
    cases hx
  · simpa using hmarked

end

/-! ## Paths -/

theorem exists_edge_into {R : α → α → Prop} {M : α → Prop} {p a : α} (hp : M p)
    (hclosed : ∀ x, M x → x ≠ a → ∀ y, R x y → M y)
    (hpath : Relation.ReflTransGen R p a) : p = a ∨ ∃ x, M x ∧ x ≠ a ∧ R x a := by
  induction hpath using Relation.ReflTransGen.head_induction_on with
  | refl => exact .inl rfl
  | head hstep hrest ih =>
    rename_i x y
    by_cases hx : x = a
    · exact .inl hx
    · rcases ih (hclosed x hp hx y hstep) with hy | hedge
      · rw [hy] at hstep
        exact .inr ⟨x, hp, hx, hstep⟩
      · exact .inr hedge

theorem wellFounded_of_acyclic [Finite α] {R : α → α → Prop} (h : ∀ a, ¬ Relation.TransGen R a a) : WellFounded R := by
  have : Std.Irrefl (Relation.TransGen R) := ⟨h⟩
  exact Subrelation.wf (fun hxy => .single hxy) (Finite.wellFounded_of_trans_of_irrefl (Relation.TransGen R))

end Katana.Lib

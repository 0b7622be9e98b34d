/-
  Katana.Lib.Grouped — lists whose equals under a function stand together.

  Proved, for every function into numbers and every list:
  - `Grouped.takeWhile_eq`: a group is a run.
  - `insertRun_split` / `filter_insertRun` / `Grouped.insertRun`: an item behind the last one of its group.
-/
import Mathlib.Data.List.Basic

namespace Katana.Lib

variable {α : Type} {f : α → Nat}

/-- An item's group goes on with the next item, or does not go on. -/
def Grouped (f : α → Nat) : List α → Prop
  | [] => True
  | x :: l => ((∀ y ∈ l.head?, f y = f x) ∨ ∀ y ∈ l, f y ≠ f x) ∧ Grouped f l

def group (f : α → Nat) (b : Nat) (l : List α) : List α := l.filter fun x => f x == b

/-- An item behind the last one of its group, or at the end. -/
def insertRun (f : α → Nat) (n : α) : List α → List α
  | [] => [n]
  | m :: l => if f m = f n ∧ ∀ x ∈ l, f x ≠ f n then m :: n :: l else m :: insertRun f n l

theorem Grouped.of_append {l m : List α} (h : Grouped f (l ++ m)) : Grouped f m := by
  induction l with
  | nil => exact h
  | cons x l ih => exact ih h.2

theorem group_eq_nil {b : Nat} {l : List α} : group f b l = [] ↔ ∀ x ∈ l, f x ≠ b := by
  simp [group, List.filter_eq_nil_iff]

theorem group_append (b : Nat) (l m : List α) : group f b (l ++ m) = group f b l ++ group f b m := List.filter_append ..

theorem mem_group {b : Nat} {l : List α} {x : α} : x ∈ group f b l ↔ x ∈ l ∧ f x = b := by
  simp [group]

/-- From its first item on a group is a run. -/
theorem Grouped.takeWhile_eq {x : α} {l : List α} (h : Grouped f (x :: l)) :
    l.takeWhile (fun y => f y == f x) = group f (f x) l := by
  induction l generalizing x with
  | nil => rfl
  | cons y l ih =>
    rcases h.1 with hnext | hnone
    · have hy : f y = f x := hnext y rfl
      have hrest := ih h.2
      unfold group at hrest ⊢
      rw [hy] at hrest
      simp [hy, hrest]
    · have hy : f y ≠ f x := hnone y List.mem_cons_self
      rw [group_eq_nil.mpr hnone]
      simp [hy]

theorem insertRun_end {n : α} {l : List α} (h : ∀ x ∈ l, f x ≠ f n) : insertRun f n l = l ++ [n] := by
  induction l with
  | nil => rfl
  | cons m l ih =>
    unfold insertRun
    rw [if_neg fun hm => h m List.mem_cons_self hm.1, ih fun x hx => h x (List.mem_cons_of_mem _ hx)]
    rfl

theorem insertRun_split {n x : α} {l m : List α} (hx : f x = f n) (h : ∀ y ∈ m, f y ≠ f n) :
    insertRun f n (l ++ x :: m) = l ++ x :: n :: m := by
  induction l with
  | nil =>
    show insertRun f n (x :: m) = _
    unfold insertRun
    rw [if_pos ⟨hx, h⟩]
    rfl
  | cons y l ih =>
    show insertRun f n (y :: (l ++ x :: m)) = _
    unfold insertRun
    rw [if_neg fun hy => hy.2 x (List.mem_append_right _ List.mem_cons_self) hx, ih]
    rfl

theorem group_insertRun (n : α) (b : Nat) (l : List α) :
    group f b (insertRun f n l) = group f b l ++ if f n = b then [n] else [] := by
  induction l with
  | nil => by_cases hn : f n = b <;> simp [insertRun, group, hn]
  | cons m l ih =>
    unfold insertRun
    split
    · rename_i hm
      by_cases hn : f n = b
      · have hrest : group f b l = [] := group_eq_nil.mpr (hn ▸ hm.2)
        unfold group at hrest ⊢
        simp [hm.1, hn, hrest]
      · unfold group
        simp [hm.1, hn]
    · unfold group at ih ⊢
      by_cases hmb : f m = b <;> simp [hmb, ih]

theorem insertRun_perm (n : α) (l : List α) : (insertRun f n l).Perm (n :: l) := by
  induction l with
  | nil => exact List.Perm.refl _
  | cons m l ih =>
    unfold insertRun
    split
    · exact List.Perm.swap n m l
    · exact (ih.cons m).trans (List.Perm.swap n m l)

theorem head?_insertRun (n x : α) (l : List α) : (insertRun f n (x :: l)).head? = some x := by
  unfold insertRun
  split <;> rfl

theorem Grouped.insertRun {l : List α} (h : Grouped f l) (n : α) : Grouped f (insertRun f n l) := by
  induction l with
  | nil => exact ⟨.inl (by simp), trivial⟩
  | cons m l ih =>
    unfold Lib.insertRun
    split
    · rename_i hm
      refine ⟨.inl ?_, .inr hm.2, h.2⟩
      intro y hy
      cases hy
      exact hm.1.symm
    · rename_i hm
      refine ⟨?_, ih h.2⟩
      rcases h.1 with hnext | hnone
      · cases l with
        | nil =>
          by_cases hn : f n = f m
          · exact .inl (by simp [Lib.insertRun, hn])
          · exact .inr (by simp [Lib.insertRun, hn])
        | cons x l =>
          left
          rw [head?_insertRun]
          exact hnext
      · right
        intro y hy
        rcases List.mem_cons.mp ((insertRun_perm n l).mem_iff.mp hy) with hy | hy
        · rw [hy]
          intro heq
          exact hm ⟨heq.symm, heq ▸ hnone⟩
        · exact hnone y hy

theorem grouped_map {β : Type} {f : β → Nat} (g : α → β) (l : List α) :
    Grouped f (l.map g) ↔ Grouped (fun x => f (g x)) l := by
  induction l with
  | nil => exact Iff.rfl
  | cons x l ih =>
    rw [List.map_cons]
    unfold Grouped
    rw [ih, List.head?_map]
    simp

theorem group_map {β : Type} {f : β → Nat} (g : α → β) (b : Nat) (l : List α) :
    group f b (l.map g) = (group (fun x => f (g x)) b l).map g := by
  unfold group
  rw [List.filter_map]
  rfl

/-- A list without one of its items. -/
theorem Grouped.erase {l m : List α} {x : α} (h : Grouped f (l ++ x :: m)) : Grouped f (l ++ m) := by
  induction l with
  | nil => exact h.2
  | cons y l ih =>
    refine ⟨?_, ih h.2⟩
    rcases h.1 with hnext | hnone
    · cases l with
      | nil =>
        have hx : f x = f y := hnext x rfl
        have hrest := h.2.1
        rw [hx] at hrest
        exact hrest
      | cons z l => exact .inl hnext
    · right
      intro z hz
      apply hnone
      rcases List.mem_append.mp hz with hz | hz
      · exact List.mem_append_left _ hz
      · exact List.mem_append_right _ (List.mem_cons_of_mem _ hz)

end Katana.Lib

/-
  Katana.Lib.Paired — lists that can be paired off by a relation, in whatever order they are.

  The relation is one like "the same value is described by both": if `a` and `a'` both go with `b`, then whatever goes
  with `a'` goes with `a` as well. Who has paired some of two lists can then leave these out.

  Proved, for every such relation and lists:
  - `paired_append`: what is paired already does not matter.
  - `paired_iff_sorted`: the lists can be sorted before, by what paired elements have in common.
-/
import Mathlib.Data.List.Perm.Basic
import Mathlib.Data.List.Sort

namespace Katana.Lib

variable {α β : Type} {R : α → β → Prop}

/-- Each element of `l` goes with one of `m`, and none is left over. -/
def Paired (R : α → β → Prop) (l : List α) (m : List β) : Prop := ∃ m', List.Forall₂ R l m' ∧ m'.Perm m

def Difunctional (R : α → β → Prop) : Prop := ∀ a a' b b', R a b → R a' b → R a' b' → R a b'

theorem paired_nil : Paired R [] [] := ⟨[], .nil, .refl []⟩

theorem Paired.perm {l l' : List α} {m m' : List β} (h : Paired R l m) (hl : l'.Perm l) (hm : m.Perm m') :
    Paired R l' m' := by
  obtain ⟨order, hforall, hperm⟩ := h
  obtain ⟨order', hforall', hperm'⟩ := List.perm_comp_forall₂ hl hforall
  exact ⟨order', hforall', hperm'.trans (hperm.trans hm)⟩

/-- Of two elements that go together it does not matter what else they are paired with. -/
theorem paired_cons (hR : Difunctional R) {a : α} {b : β} {l : List α} {m : List β} (hab : R a b) :
    Paired R (a :: l) (b :: m) ↔ Paired R l m := by
  constructor
  · rintro ⟨_, hpaired, hperm⟩
    obtain ⟨b', order, hab', hforall, rfl⟩ := List.forall₂_cons_left_iff.mp hpaired
    by_cases hmem : b ∈ order
    · -- who is paired with `b` takes what `a` is paired with
      obtain ⟨front, back, rfl⟩ := List.append_of_mem hmem
      have hfront := List.forall₂_take_append l front (b :: back) hforall
      have hback := List.forall₂_drop_append l front (b :: back) hforall
      obtain ⟨a', rest, ha'b, hrest, hdrop⟩ := List.forall₂_cons_right_iff.mp hback
      refine ⟨front ++ b' :: back, ?_, ?_⟩
      · rw [← List.take_append_drop front.length l, hdrop]
        exact List.rel_append hfront (.cons (hR _ _ _ _ ha'b hab hab') hrest)
      · have hswap : (b' :: (front ++ b :: back)).Perm (b :: (front ++ b' :: back)) :=
          (List.perm_middle.cons b').trans ((List.Perm.swap b b' _).trans (List.perm_middle.symm.cons b))
        exact (hswap.symm.trans hperm).cons_inv
    · have hb : b = b' := (List.mem_cons.mp (hperm.symm.subset List.mem_cons_self)).resolve_right hmem
      rw [hb] at hperm
      exact ⟨order, hforall, hperm.cons_inv⟩
  · rintro ⟨order, hforall, hperm⟩
    exact ⟨b :: order, .cons hab hforall, hperm.cons b⟩

theorem paired_append (hR : Difunctional R) {front l : List α} {front' m : List β}
    (hfront : List.Forall₂ R front front') :
    Paired R (front ++ l) (front' ++ m) ↔ Paired R l m := by
  induction hfront with
  | nil => rfl
  | cons hab _ ih => exact (paired_cons hR hab).trans ih

section
variable {f : α → Nat} {g : β → Nat}

theorem exists_sorted (f : α → Nat) (l : List α) : ∃ l' : List α, l'.Perm l ∧ l'.Pairwise (f · ≤ f ·) := by
  have : Std.Total fun a b : α => f a ≤ f b := ⟨fun a b => Nat.le_total (f a) (f b)⟩
  have : IsTrans α fun a b : α => f a ≤ f b := ⟨fun _ _ _ => Nat.le_trans⟩
  exact ⟨l.insertionSort (f · ≤ f ·), List.perm_insertionSort _ l, List.pairwise_insertionSort _ l⟩

theorem sorted_of_forall₂ (hfg : ∀ a b, R a b → f a = g b) {l : List α} {m : List β} (h : List.Forall₂ R l m)
    (hsorted : l.Pairwise (f · ≤ f ·)) : m.Pairwise (g · ≤ g ·) := by
  have hkeys : l.map f = m.map g := by
    induction h with
    | nil => rfl
    | cons hab _ ih => rw [List.map_cons, List.map_cons, hfg _ _ hab, ih (List.pairwise_cons.mp hsorted).2]
  have hmap : (l.map f).Pairwise (· ≤ ·) := List.pairwise_map.mpr hsorted
  rw [hkeys] at hmap
  exact List.pairwise_map.mp hmap

theorem paired_iff_sorted (hfg : ∀ a b, R a b → f a = g b) {l : List α} {m : List β} :
    Paired R l m ↔ ∃ l' m', l'.Perm l ∧ l'.Pairwise (f · ≤ f ·) ∧ m'.Perm m ∧ m'.Pairwise (g · ≤ g ·) ∧
      List.Forall₂ R l' m' := by
  constructor
  · intro h
    obtain ⟨l', hperm, hsorted⟩ := exists_sorted f l
    obtain ⟨m', hforall, hperm'⟩ := h.perm hperm (.refl m)
    exact ⟨l', m', hperm, hsorted, hperm', sorted_of_forall₂ hfg hforall hsorted, hforall⟩
  · rintro ⟨l', m', hl, -, hm, -, hforall⟩
    exact Paired.perm ⟨m', hforall, .refl m'⟩ hl.symm hm

end

end Katana.Lib

/-
  Katana.SortList — the merge sort of linked lists (mergeSortedLists and sortList of util/list.c).

  The nodes are linked anew and none is copied, so that who goes on using the old head has what the sorted list
  holds from that node on, and not what comes before it.

  Proved, for every comparator and list:
  - `sortList_perm` / `sortList_sorted` / `sortList_stable`: a list is sorted, and equal values keep their order, if the
    comparator is a total preorder of its values.
  - `sortInPlace_cons`: the old head still comes first.
  - `sortInPlace_eq`: what it then leads to are the values not below its own, in order.
-/
import Mathlib.Data.List.Sort
import Mathlib.Data.List.TakeWhile

namespace Katana

variable {α : Type}

/-! ## util/list.c -/

section
variable (cmp : α → α → Int)

/-- The list that is merged from two; `fuel` is not less than what they have together. -/
def mergeSortedLists : Nat → List α → List α → List α
  | fuel + 1, a :: as, b :: bs =>
    if cmp a b ≤ 0 then a :: mergeSortedLists fuel as (b :: bs) else b :: mergeSortedLists fuel (a :: as) bs
  | _, as, bs => as ++ bs

/-- The new head's list; `fuel` is not less than its length. -/
def sortList : Nat → List α → List α
  | 0, lst => lst
  | fuel + 1, lst =>
    let halflen := lst.length / 2
    if halflen < 1 then lst
    else mergeSortedLists cmp lst.length (sortList fuel (lst.take halflen)) (sortList fuel (lst.drop halflen))

/-- The old head's list once it has been sorted. The nodes are told apart by their index. -/
def sortInPlace (lst : List α) : List α :=
  let sorted := sortList (fun (a b : α × Nat) => cmp a.1 b.1) lst.length lst.zipIdx
  (sorted.dropWhile (·.2 ≠ 0)).map Prod.fst

end

/-! ## Sorting -/

section
variable {cmp : α → α → Int} {f : α → Nat}

theorem mergeSortedLists_perm (fuel : Nat) (as bs : List α) : (mergeSortedLists cmp fuel as bs).Perm (as ++ bs) := by
  induction fuel generalizing as bs with
  | zero => exact .refl _
  | succ fuel ih =>
    cases as with
    | nil => exact .refl _
    | cons a as =>
      cases bs with
      | nil => exact .refl _
      | cons b bs =>
        rw [mergeSortedLists]
        split
        · exact (ih as (b :: bs)).cons a
        · exact ((ih (a :: as) bs).cons b).trans List.perm_middle.symm

theorem mergeSortedLists_enough {n k : Nat} {as bs : List α} (hn : as.length + bs.length ≤ n)
    (hk : as.length + bs.length ≤ k) : mergeSortedLists cmp n as bs = mergeSortedLists cmp k as bs := by
  induction n generalizing k as bs with
  | zero =>
    have has : as = [] := List.length_eq_zero_iff.mp (by omega)
    rw [has]
    cases k with
    | zero => rfl
    | succ k => rfl
  | succ n ih =>
    cases as with
    | nil =>
      cases k with
      | zero => rfl
      | succ k => rfl
    | cons a as =>
      cases bs with
      | nil =>
        cases k with
        | zero => rfl
        | succ k => rfl
      | cons b bs =>
        simp only [List.length_cons] at hn hk
        obtain ⟨k, rfl⟩ : ∃ j, k = j + 1 := ⟨k - 1, by omega⟩
        rw [mergeSortedLists, mergeSortedLists, ih (by simp only [List.length_cons]; omega)
          (show as.length + (b :: bs).length ≤ k by simp only [List.length_cons]; omega),
          ih (by simp only [List.length_cons]; omega)
          (show (a :: as).length + bs.length ≤ k by simp only [List.length_cons]; omega)]

theorem sortList_perm (fuel : Nat) (lst : List α) : (sortList cmp fuel lst).Perm lst := by
  induction fuel generalizing lst with
  | zero => exact .refl _
  | succ fuel ih =>
    rw [sortList]
    split
    · exact .refl _
    · have hhalves := (ih (lst.take (lst.length / 2))).append (ih (lst.drop (lst.length / 2)))
      rw [List.take_append_drop] at hhalves
      exact (mergeSortedLists_perm _ _ _).trans hhalves

/-- The comparator is a total preorder of the values. -/
structure PreorderOn (cmp : α → α → Int) (l : List α) : Prop where
  total : ∀ x ∈ l, ∀ y ∈ l, cmp x y ≤ 0 ∨ cmp y x ≤ 0
  trans : ∀ x ∈ l, ∀ y ∈ l, ∀ z ∈ l, cmp x y ≤ 0 → cmp y z ≤ 0 → cmp x z ≤ 0

theorem PreorderOn.mono {l m : List α} (h : PreorderOn cmp l) (hsub : ∀ x ∈ m, x ∈ l) : PreorderOn cmp m :=
  ⟨fun x hx y hy => h.total x (hsub x hx) y (hsub y hy),
    fun x hx y hy z hz => h.trans x (hsub x hx) y (hsub y hy) z (hsub z hz)⟩

theorem mem_of_halves {l front back : List α} (hfront : front.Perm (l.take (l.length / 2)))
    (hback : back.Perm (l.drop (l.length / 2))) {x : α} (hx : x ∈ front ++ back) : x ∈ l := by
  rcases List.mem_append.mp hx with hx | hx
  · exact List.mem_of_mem_take (hfront.subset hx)
  · exact List.mem_of_mem_drop (hback.subset hx)

theorem mergeSortedLists_sorted {fuel : Nat} {as bs : List α} (hfuel : as.length + bs.length ≤ fuel)
    (hpre : PreorderOn cmp (as ++ bs)) (has : as.Pairwise (cmp · · ≤ 0)) (hbs : bs.Pairwise (cmp · · ≤ 0)) :
    (mergeSortedLists cmp fuel as bs).Pairwise (cmp · · ≤ 0) := by
  induction fuel generalizing as bs with
  | zero =>
    have hnil : as = [] := List.length_eq_zero_iff.mp (by omega)
    rw [hnil]
    exact hbs
  | succ fuel ih =>
    cases as with
    | nil => exact hbs
    | cons a as =>
      cases bs with
      | nil =>
        have hnil : mergeSortedLists cmp (fuel + 1) (a :: as) [] = a :: as := List.append_nil _
        rw [hnil]
        exact has
      | cons b bs =>
        obtain ⟨ha, has'⟩ := List.pairwise_cons.mp has
        obtain ⟨hb, hbs'⟩ := List.pairwise_cons.mp hbs
        simp only [List.length_cons] at hfuel
        rw [mergeSortedLists]
        split
        · rename_i hle
          have hsub : ∀ x ∈ as ++ b :: bs, x ∈ a :: as ++ b :: bs := fun x => .tail a
          refine .cons (fun x hx => ?_) (ih (by simp only [List.length_cons]; omega) (hpre.mono hsub) has' hbs)
          rcases List.mem_append.mp ((mergeSortedLists_perm fuel as (b :: bs)).subset hx) with hx | hx
          · exact ha x hx
          · rcases List.mem_cons.mp hx with rfl | hx
            · exact hle
            · exact hpre.trans a (by simp) b (by simp) x (by simp [hx]) hle (hb x hx)
        · rename_i hle
          have hlt : cmp b a ≤ 0 := (hpre.total a (by simp) b (by simp)).resolve_left hle
          have hsub : ∀ x ∈ a :: as ++ bs, x ∈ a :: as ++ b :: bs := by
            intro x hx
            simp only [List.mem_append, List.mem_cons] at hx ⊢
            tauto
          refine .cons (fun x hx => ?_) (ih (by simp only [List.length_cons]; omega) (hpre.mono hsub) has hbs')
          rcases List.mem_append.mp ((mergeSortedLists_perm fuel (a :: as) bs).subset hx) with hx | hx
          · rcases List.mem_cons.mp hx with rfl | hx
            · exact hlt
            · exact hpre.trans b (by simp) a (by simp) x (by simp [hx]) hlt (ha x hx)
          · exact hb x hx

theorem sortList_sorted {fuel : Nat} {lst : List α} (hfuel : lst.length ≤ fuel) (hpre : PreorderOn cmp lst) :
    (sortList cmp fuel lst).Pairwise (cmp · · ≤ 0) := by
  induction fuel generalizing lst with
  | zero =>
    have hnil : lst = [] := List.length_eq_zero_iff.mp (by omega)
    rw [hnil]
    exact .nil
  | succ fuel ih =>
    rw [sortList]
    split
    · rename_i hshort
      match lst with
      | [] => exact .nil
      | [x] => exact List.pairwise_singleton _ x
      | x :: y :: l => simp only [List.length_cons] at hshort; omega
    · have htake := @sortList_perm _ cmp fuel (lst.take (lst.length / 2))
      have hdrop := @sortList_perm _ cmp fuel (lst.drop (lst.length / 2))
      have hlength := (htake.append hdrop).length_eq
      rw [List.take_append_drop, List.length_append] at hlength
      refine mergeSortedLists_sorted (Nat.le_of_eq hlength) (hpre.mono fun _ => mem_of_halves htake hdrop) ?_ ?_
      · exact ih (by rw [List.length_take]; omega) (hpre.mono fun x => List.mem_of_mem_take)
      · exact ih (by rw [List.length_drop]; omega) (hpre.mono fun x => List.mem_of_mem_drop)

/-! ## Equal values -/

def EqualTo (cmp : α → α → Int) (x y : α) : Prop := cmp x y ≤ 0 ∧ cmp y x ≤ 0

instance (cmp : α → α → Int) (x y : α) : Decidable (EqualTo cmp x y) := inferInstanceAs (Decidable (_ ∧ _))

/-- Of equal values those of the first list come first. -/
theorem mergeSortedLists_stable {fuel : Nat} {as bs : List α} {x : α} (hpre : PreorderOn cmp (x :: (as ++ bs)))
    (has : as.Pairwise (cmp · · ≤ 0)) :
    (mergeSortedLists cmp fuel as bs).filter (EqualTo cmp x ·) =
      as.filter (EqualTo cmp x ·) ++ bs.filter (EqualTo cmp x ·) := by
  induction fuel generalizing as bs with
  | zero => exact List.filter_append ..
  | succ fuel ih =>
    cases as with
    | nil => exact List.filter_append ..
    | cons a as =>
      cases bs with
      | nil => exact List.filter_append ..
      | cons b bs =>
        obtain ⟨ha, has'⟩ := List.pairwise_cons.mp has
        rw [mergeSortedLists]
        split
        · rw [List.filter_cons, List.filter_cons, ih (hpre.mono ?_) has']
          · split
            · rfl
            · rfl
          · intro y hy
            simp only [List.mem_append, List.mem_cons] at hy ⊢
            tauto
        · rename_i hle
          rw [List.filter_cons, ih (hpre.mono ?_) has, List.filter_cons (x := b)]
          · split
            · -- what equals `b` is not in the first list, all of which is above `b`
              rename_i hb
              have hbx : cmp b x ≤ 0 := (of_decide_eq_true hb).2
              have hxb : cmp x b ≤ 0 := (of_decide_eq_true hb).1
              have hnone : (a :: as).filter (EqualTo cmp x ·) = [] := by
                rw [List.filter_eq_nil_iff]
                intro y hy hequal
                have hyx : cmp y x ≤ 0 := (of_decide_eq_true hequal).2
                have hay : cmp a y ≤ 0 ∨ a = y := by
                  rcases List.mem_cons.mp hy with rfl | hy
                  · exact .inr rfl
                  · exact .inl (ha y hy)
                have hymem : y ∈ x :: (a :: as ++ b :: bs) := .tail x (List.mem_append_left _ hy)
                have hax : cmp a x ≤ 0 := by
                  rcases hay with hay | rfl
                  · exact hpre.trans a (by simp) y hymem x (by simp) hay hyx
                  · exact hyx
                exact hle (hpre.trans a (by simp) x (by simp) b (by simp) hax hxb)
              rw [hnone]
              rfl
            · rfl
          · intro y hy
            simp only [List.mem_append, List.mem_cons] at hy ⊢
            tauto

/-- **Equal values keep their order.** -/
theorem sortList_stable {fuel : Nat} {lst : List α} {x : α} (hfuel : lst.length ≤ fuel)
    (hpre : PreorderOn cmp (x :: lst)) :
    (sortList cmp fuel lst).filter (EqualTo cmp x ·) = lst.filter (EqualTo cmp x ·) := by
  induction fuel generalizing lst with
  | zero => rfl
  | succ fuel ih =>
    rw [sortList]
    split
    · rfl
    · rename_i hlong
      have htake := @sortList_perm _ cmp fuel (lst.take (lst.length / 2))
      have hdrop := @sortList_perm _ cmp fuel (lst.drop (lst.length / 2))
      have hpreTake : PreorderOn cmp (x :: lst.take (lst.length / 2)) :=
        hpre.mono fun y hy => List.cons_subset_cons x (List.take_subset ..) hy
      have hpreDrop : PreorderOn cmp (x :: lst.drop (lst.length / 2)) :=
        hpre.mono fun y hy => List.cons_subset_cons x (List.drop_subset ..) hy
      have hpreHalves := hpre.mono fun y hy => List.cons_subset_cons x (fun z => mem_of_halves htake hdrop) hy
      have htakeLength : (lst.take (lst.length / 2)).length ≤ fuel := by
        rw [List.length_take]
        omega
      have hsorted := sortList_sorted htakeLength (hpreTake.mono fun y => .tail x)
      rw [mergeSortedLists_stable hpreHalves hsorted, ih htakeLength hpreTake,
        ih (by rw [List.length_drop]; omega) hpreDrop, ← List.filter_append, List.take_append_drop]

/-! ## The old head -/

/-- The comparator orders the values by `f`. -/
def Orders (cmp : α → α → Int) (f : α → Nat) (l : List α) : Prop := ∀ x ∈ l, ∀ y ∈ l, cmp x y ≤ 0 ↔ f x ≤ f y

theorem Orders.preorderOn {l : List α} (h : Orders cmp f l) : PreorderOn cmp l := by
  refine ⟨fun x hx y hy => ?_, fun x hx y hy z hz hxy hyz => ?_⟩
  · rw [h x hx y hy, h y hy x hx]
    exact Nat.le_total (f x) (f y)
  · rw [h x hx z hz]
    exact ((h x hx y hy).mp hxy).trans ((h y hy z hz).mp hyz)

theorem Orders.sorted {l m : List α} (h : Orders cmp f l) (hsub : ∀ x ∈ m, x ∈ l)
    (hsorted : m.Pairwise (cmp · · ≤ 0)) : m.Pairwise (f · ≤ f ·) :=
  hsorted.imp_of_mem fun hx hy hle => (h _ (hsub _ hx) _ (hsub _ hy)).mp hle

theorem sortInPlace_cons (cmp : α → α → Int) (x : α) (l : List α) : ∃ rest, sortInPlace cmp (x :: l) = x :: rest := by
  unfold sortInPlace
  dsimp only
  have hperm := @sortList_perm _ (fun (a b : α × Nat) => cmp a.1 b.1) (x :: l).length (x :: l).zipIdx
  generalize sortList (fun (a b : α × Nat) => cmp a.1 b.1) (x :: l).length (x :: l).zipIdx = sorted at hperm
  have hhead : (x, 0) ∈ sorted := hperm.symm.subset (by simp)
  cases hrest : sorted.dropWhile (·.2 ≠ 0) with
  | nil =>
    have hall := List.dropWhile_eq_nil_iff.mp hrest _ hhead
    simp at hall
  | cons node rest =>
    refine ⟨rest.map Prod.fst, ?_⟩
    have hzero : node.2 = 0 := by
      have hnot := List.head?_dropWhile_not (fun (node : α × Nat) => decide (node.2 ≠ 0)) sorted
      rw [hrest] at hnot
      simpa using hnot
    have hsorted : node ∈ sorted := (List.dropWhile_sublist _).subset (hrest ▸ List.mem_cons_self)
    have hmem : node ∈ (x :: l).zipIdx := hperm.subset hsorted
    have hget := List.mem_zipIdx_iff_getElem?.mp hmem
    rw [hzero] at hget
    cases hget
    rfl

theorem sortInPlace_subperm {lst : List α} : (sortInPlace cmp lst).Subperm lst := by
  have hperm := (@sortList_perm _ (fun (a b : α × Nat) => cmp a.1 b.1) lst.length lst.zipIdx).map Prod.fst
  rw [List.zipIdx_map_fst] at hperm
  exact ((List.dropWhile_sublist _).map Prod.fst).subperm.trans hperm.subperm

theorem sortInPlace_subset {lst : List α} {x : α} (hx : x ∈ sortInPlace cmp lst) : x ∈ lst :=
  sortInPlace_subperm.subset hx

theorem dropWhile_congr {p q : α → Bool} {l : List α} (h : ∀ x ∈ l, p x = q x) : l.dropWhile p = l.dropWhile q := by
  induction l with
  | nil => rfl
  | cons x l ih =>
    rw [List.dropWhile_cons, List.dropWhile_cons, h x List.mem_cons_self, ih fun y hy => h y (List.mem_cons_of_mem x hy)]

/-- In a sorted list the rest from a value on is what is not below it. -/
theorem dropWhile_sorted {x : α} {l : List α} (hsorted : l.Pairwise (f · ≤ f ·)) (hx : x ∈ l) :
    l.dropWhile (fun y => f y ≠ f x) = l.filter (fun y => f x ≤ f y) := by
  induction l with
  | nil => cases hx
  | cons y l ih =>
    obtain ⟨hy, hsorted⟩ := List.pairwise_cons.mp hsorted
    by_cases heq : f y = f x
    · rw [List.dropWhile_cons_of_neg (by simpa using heq), List.filter_eq_self.mpr]
      intro z hz
      rcases List.mem_cons.mp hz with rfl | hz
      · simp [heq]
      · simpa [← heq] using hy z hz
    · have hmem : x ∈ l := (List.mem_cons.mp hx).resolve_left fun hxy => heq (congrArg f hxy.symm)
      have hlt : f y < f x := Nat.lt_of_le_of_ne (hy x hmem) heq
      rw [List.dropWhile_cons_of_pos (by simpa using heq), List.filter_cons_of_neg (by simpa using hlt), ih hsorted hmem]

/-- **Who goes on using the old head** has the values that are not below its own, in order. -/
theorem sortInPlace_eq {x : α} {l values : List α} (horders : Orders cmp f (x :: l)) (hnodup : ((x :: l).map f).Nodup)
    (hvalues : values.Perm (x :: l)) (hsorted : values.Pairwise (f · ≤ f ·)) :
    sortInPlace cmp (x :: l) = values.filter (fun y => f x ≤ f y) := by
  have hnode : ∀ node ∈ (x :: l).zipIdx, node.1 ∈ x :: l := fun node h =>
    List.mem_of_getElem? (List.mem_zipIdx_iff_getElem?.mp h)
  have hordersNodes : Orders (fun (a b : α × Nat) => cmp a.1 b.1) (f ·.1) (x :: l).zipIdx :=
    fun a ha b hb => horders a.1 (hnode a ha) b.1 (hnode b hb)
  have hperm := @sortList_perm _ (fun (a b : α × Nat) => cmp a.1 b.1) (x :: l).length (x :: l).zipIdx
  have hsortedNodes := hordersNodes.sorted (fun _ hnode => hperm.subset hnode)
    (sortList_sorted (by rw [List.length_zipIdx]) hordersNodes.preorderOn)
  unfold sortInPlace
  dsimp only
  generalize sortList (fun (a b : α × Nat) => cmp a.1 b.1) (x :: l).length (x :: l).zipIdx = nodes at hsortedNodes hperm
  -- the values are told apart by `f`, and so are the nodes
  have hfirst : ∀ node ∈ nodes, decide (node.2 ≠ 0) = decide (f node.1 ≠ f x) := by
    intro node h
    have hget := List.mem_zipIdx_iff_getElem?.mp (hperm.subset h)
    rw [decide_eq_decide, not_iff_not]
    constructor
    · intro hzero
      rw [hzero] at hget
      cases hget
      rfl
    · intro hkey
      cases hindex : node.2 with
      | zero => rfl
      | succ k =>
        rw [hindex, List.getElem?_cons_succ] at hget
        have hkeys := List.mem_map_of_mem (f := f) (List.mem_of_getElem? hget)
        rw [hkey] at hkeys
        exact absurd hkeys (List.nodup_cons.mp hnodup).1
  have hmap : (nodes.map Prod.fst).Perm (x :: l) := by
    have h := hperm.map Prod.fst
    rwa [List.zipIdx_map_fst] at h
  have hsame : nodes.map Prod.fst = values := by
    refine List.Perm.eq_of_pairwise (fun a b ha hb hab hba => ?_) (List.pairwise_map.mpr hsortedNodes) hsorted
      (hmap.trans hvalues.symm)
    exact List.inj_on_of_nodup_map hnodup (hmap.subset ha) (hvalues.subset hb) (Nat.le_antisymm hab hba)
  have hx : x ∈ values := hvalues.symm.subset List.mem_cons_self
  rw [dropWhile_congr hfirst, ← dropWhile_sorted hsorted hx, ← hsame, List.dropWhile_map]
  rfl

end

end Katana

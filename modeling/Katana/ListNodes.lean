/-
  Katana.ListNodes — the nodes of linked lists that are sorted (listLength, mergeSortedLists and sortList of util/list.c).

  A list is cut in two in the middle, and the two sorted halves are merged by linking their nodes anew. How many nodes a
  list has is counted in an int.

  Proved, for every memory, list and comparator:
  - `mergeSortedLists_nodes` / `sortList_nodes`: the nodes are linked as `mergeSortedLists` and `sortList` have them.
  - `sortList_undefined`: a list of 2^31 nodes or more is not sorted.
  - `sortsList_iff`: by a total preorder a list is sorted exactly if it has fewer.
-/
import Katana.Fault
import Katana.SortList
import Katana.Lib.Links
import Mathlib.Algebra.Group.Nat.Defs

namespace Katana.Nodes

open Lib

variable {α : Type}

/-! ## util/list.c -/

/-- The loop of `listLength`; `cnt` is an int. There is fuel for each node. -/
def countNodes (links : Links α) : Nat → Option Nat → Nat → Except Fault Nat
  | _, none, cnt => .ok cnt
  | 0, some _, _ => .error .undefined
  | fuel + 1, some lst, cnt => do
    defined (cnt + 1 < 2 ^ 31)
    let node ← links.load .undefined (some lst)
    countNodes links fuel node.next (cnt + 1)

def listLength (links : Links α) (fuel : Nat) (lst : Option Nat) : Except Fault Nat := countNodes links fuel lst 0

/-- The memory while lists are merged, and what has been merged. -/
structure MergeState (α : Type) where
  links : Links α
  result : Option Nat
  resultTail : Option Nat

/-- `next` becomes the last node of the result. -/
def MergeState.add (st : MergeState α) (next : Nat) : Except Fault (MergeState α) :=
  match st.result with
  | none => .ok ⟨st.links, some next, some next⟩
  | some _ => do
    let links ← st.links.setNext .undefined st.resultTail (some next)
    .ok ⟨links, st.result, some next⟩

section
variable (cmp : α → α → Int)

/-- The first loop of `mergeSortedLists`; gives what is left of the two lists as well. -/
def mergeLoop : Nat → MergeState α → Option Nat → Option Nat →
    Except Fault (MergeState α × Option Nat × Option Nat)
  | fuel + 1, st, some a, some b => do
    let nodeA ← st.links.load .undefined (some a)
    let nodeB ← st.links.load .undefined (some b)
    if cmp nodeA.value nodeB.value ≤ 0 then do
      let links ← st.links.setNext .undefined (some a) none
      let st ← { st with links }.add a
      mergeLoop fuel st nodeA.next (some b)
    else do
      let links ← st.links.setNext .undefined (some b) none
      let st ← { st with links }.add b
      mergeLoop fuel st (some a) nodeB.next
  | 0, _, some _, some _ => .error .undefined
  | _, st, a, b => .ok (st, a, b)

/-- The other two loops, each for one of the lists. -/
def appendLoop : Nat → MergeState α → Option Nat → Except Fault (MergeState α)
  | _, st, none => .ok st
  | 0, _, some _ => .error .undefined
  | fuel + 1, st, some a => do
    let st ← st.add a
    let node ← st.links.load .undefined (some a)
    appendLoop fuel st node.next

def mergeSortedLists (fuel : Nat) (links : Links α) (a b : Option Nat) : Except Fault (Links α × Option Nat) := do
  let (st, a, b) ← mergeLoop cmp fuel ⟨links, none, none⟩ a b
  let st ← appendLoop fuel st a
  let st ← appendLoop fuel st b
  .ok (st.links, st.result)

/-- `halflen` nodes on; gives `beforeMiddle` and `middle`. -/
def toMiddle (links : Links α) : Nat → Option Nat → Option Nat → Except Fault (Option Nat × Option Nat)
  | 0, beforeMiddle, middle => .ok (beforeMiddle, middle)
  | halflen + 1, _, middle => do
    let node ← links.load .undefined middle
    toMiddle links halflen middle node.next

def sortList : Nat → Links α → Option Nat → Except Fault (Links α × Option Nat)
  | 0, _, _ => .error .undefined
  | fuel + 1, links, lst => do
    let halflen := (← listLength links fuel lst) / 2
    if halflen < 1 then .ok (links, lst)
    else do
      let (beforeMiddle, middle) ← toMiddle links halflen none lst
      let links ← links.setNext .undefined beforeMiddle none
      let (links, a) ← sortList fuel links lst
      let (links, b) ← sortList fuel links middle
      mergeSortedLists cmp fuel links a b

def byValue (m n : Nat × α) : Int := cmp m.2 n.2

structure TotalPreorder : Prop where
  total : ∀ x y, cmp x y ≤ 0 ∨ cmp y x ≤ 0
  trans : ∀ x y z, cmp x y ≤ 0 → cmp y z ≤ 0 → cmp x z ≤ 0

/-- The same nodes, none before a smaller one, and equal ones in the order they had. -/
structure SortedNodes (nodes out : List (Nat × α)) : Prop where
  perm : out.Perm nodes
  sorted : out.Pairwise (byValue cmp · · ≤ 0)
  stable : ∀ n, out.filter (EqualTo (byValue cmp) n ·) = nodes.filter (EqualTo (byValue cmp) n ·)

/-- With fuel enough a list is returned, which ends, and of which the nodes are sorted. -/
def SortsList (links : Links α) (lst : Option Nat) (nodes : List (Nat × α)) : Prop :=
  ∃ enough, ∀ fuel ≥ enough, ∃ links' head out, sortList cmp fuel links lst = .ok (links', head) ∧
    Leads links' head out none ∧ SortedNodes cmp nodes out

end

/-! ## The length -/

section
variable {links : Links α} {lst : Option Nat} {nodes : List (Nat × α)}

theorem countNodes_ok {fuel cnt : Nat} (h : Leads links lst nodes none) (hfuel : nodes.length ≤ fuel)
    (hint : cnt + nodes.length < 2 ^ 31) : countNodes links fuel lst cnt = .ok (cnt + nodes.length) := by
  induction nodes generalizing lst fuel cnt with
  | nil =>
    cases h
    cases fuel with
    | zero => rfl
    | succ fuel => rfl
  | cons n nodes ih =>
    rcases n with ⟨a, x⟩
    obtain ⟨next, hload, hrest⟩ := h.load
    have hp := h.1
    rw [List.length_cons] at hfuel hint ⊢
    obtain ⟨fuel, rfl⟩ : ∃ n, fuel = n + 1 := ⟨fuel - 1, by omega⟩
    rw [hp] at hload ⊢
    rw [countNodes, defined_of (by omega), bind_ok, hload, bind_ok, ih hrest (by omega) (by omega)]
    congr 1
    omega

theorem countNodes_error {fuel cnt : Nat} (h : Leads links lst nodes none) (hne : nodes ≠ [])
    (hint : 2 ^ 31 ≤ cnt + nodes.length) : countNodes links fuel lst cnt = .error .undefined := by
  induction nodes generalizing lst fuel cnt with
  | nil => exact absurd rfl hne
  | cons n nodes ih =>
    rcases n with ⟨a, x⟩
    obtain ⟨next, hload, hrest⟩ := h.load
    have hp := h.1
    rw [hp] at hload ⊢
    rw [List.length_cons] at hint
    cases fuel with
    | zero => rfl
    | succ fuel =>
      rw [countNodes]
      by_cases hfits : cnt + 1 < 2 ^ 31
      · have hrestNe : nodes ≠ [] := by
          rintro rfl
          rw [List.length_nil] at hint
          omega
        rw [defined_of hfits, bind_ok, hload, bind_ok, ih hrest hrestNe (by omega)]
      · rw [defined_not hfits, bind_error]

end

/-! ## Merging -/

section
variable {cmp : α → α → Int} {links : Links α} {st : MergeState α} {done as bs : List (Nat × α)} {a b q : Option Nat}

structure Building (st : MergeState α) (done : List (Nat × α)) (q : Option Nat) : Prop where
  leads : Leads st.links st.result done q
  tail : st.resultTail = lastOf none done
  started : done = [] → st.result = none

theorem Building.frame {links : Links α} (h : Building st done q) (hsame : ∀ c ∈ addresses done, links c = st.links c) :
    Building { st with links } done q := ⟨h.leads.frame hsame, h.tail, h.started⟩

theorem Building.add {c : Nat} {x : α} {next : Option Nat} (h : Building st done q) (hnodup : (addresses done).Nodup)
    (hc : c ∉ addresses done) (hnode : st.links c = some ⟨x, next⟩) :
    ∃ st', st.add c = .ok st' ∧ Building st' (done ++ [(c, x)]) next ∧ ∀ d ∉ addresses done, st'.links d = st.links d := by
  unfold MergeState.add
  cases done with
  | nil =>
    rw [h.started rfl]
    refine ⟨_, rfl, ⟨⟨rfl, next, hnode, rfl⟩, rfl, fun hnil => by cases hnil⟩, fun _ _ => rfl⟩
  | cons n done =>
    obtain ⟨links', hset, hleads, hsame⟩ := h.leads.relink (by simp) hnodup (some c)
    have hstart := h.leads.1
    rw [hstart] at hleads ⊢
    dsimp only
    rw [h.tail, hset, bind_ok]
    refine ⟨_, rfl, ⟨?_, ?_, fun hnil => by cases hnil⟩, hsame⟩
    · exact leads_append.mpr ⟨some c, hleads, rfl, next, (hsame c hc).trans hnode, rfl⟩
    · rw [lastOf_append]
      rfl

theorem addresses_perm {l m : List (Nat × α)} (h : l.Perm m) : (addresses l).Perm (addresses m) := h.map _

/-- **A turn of the first loop**: a node is taken off one of the lists. -/
theorem Building.turn {c : Nat} {x : α} {l m : List (Nat × α)} {p : Option Nat} (h : Building st done none)
    (hl : Leads st.links (some c) ((c, x) :: l) none) (hm : Leads st.links p m none)
    (hnodup : (addresses (done ++ ((c, x) :: l ++ m))).Nodup) :
    ∃ next links st', st.links.load Fault.undefined (some c) = .ok ⟨x, next⟩ ∧
      st.links.setNext Fault.undefined (some c) none = .ok links ∧
      ({ st with links } : MergeState α).add c = .ok st' ∧ Building st' (done ++ [(c, x)]) none ∧
      Leads st'.links next l none ∧ Leads st'.links p m none ∧
      ∀ d ∉ addresses (done ++ [(c, x)]), st'.links d = st.links d := by
  obtain ⟨next, hload, hrest⟩ := @Leads.load _ _ _ Fault.undefined _ _ _ _ _ hl
  obtain ⟨-, next', hnode, -⟩ := hl
  have hsplit : done ++ ((c, x) :: l ++ m) = (done ++ [(c, x)]) ++ (l ++ m) := by simp
  rw [hsplit, addresses_append, List.nodup_append] at hnodup
  obtain ⟨hdone, -, hapart⟩ := hnodup
  have hother : ∀ d ∈ addresses (l ++ m), d ∉ addresses (done ++ [(c, x)]) := fun d hd hmem => hapart d hmem d hd rfl
  rw [addresses_append, List.nodup_append] at hdone
  obtain ⟨hdone, -, hdisjoint⟩ := hdone
  have hc : c ∉ addresses done := fun hmem => hdisjoint c hmem c List.mem_cons_self rfl
  have hbuilding : Building { st with links := Function.update st.links c (some ⟨x, none⟩) } done none :=
    h.frame fun d hd => Function.update_of_ne (ne_of_mem_of_not_mem hd hc) ..
  obtain ⟨st', hadd, hbuilt, hsame⟩ := hbuilding.add hdone hc (Function.update_self ..)
  have hframe : ∀ d ∉ addresses (done ++ [(c, x)]), st'.links d = st.links d := by
    intro d hd
    rw [addresses_append, List.mem_append, not_or] at hd
    rw [hsame d hd.1]
    exact Function.update_of_ne (fun heq => hd.2 (List.mem_singleton.mpr heq)) ..
  refine ⟨next, _, st', hload, setNext_some hnode none, hadd, hbuilt, hrest.frame fun d hd => ?_,
    hm.frame fun d hd => ?_, hframe⟩
  · refine hframe d (hother d ?_)
    rw [addresses_append]
    exact List.mem_append_left _ hd
  · refine hframe d (hother d ?_)
    rw [addresses_append]
    exact List.mem_append_right _ hd

theorem merge_nil_left (fuel : Nat) (bs : List (Nat × α)) : Katana.mergeSortedLists (byValue cmp) fuel [] bs = bs := by
  cases fuel with
  | zero => rfl
  | succ fuel => rfl

theorem merge_nil_right (fuel : Nat) (as : List (Nat × α)) : Katana.mergeSortedLists (byValue cmp) fuel as [] = as := by
  cases fuel with
  | zero => exact List.append_nil as
  | succ fuel =>
    cases as with
    | nil => rfl
    | cons n as => exact List.append_nil _

/-- What the first loop leaves: one of the lists has come to its end. -/
theorem mergeLoop_ok {fuel : Nat} (hfuel : as.length + bs.length ≤ fuel) (hst : Building st done none)
    (ha : Leads st.links a as none) (hb : Leads st.links b bs none) (hnodup : (addresses (done ++ (as ++ bs))).Nodup) :
    ∃ st' a' b' done' as' bs', mergeLoop cmp fuel st a b = .ok (st', a', b') ∧ Building st' done' none ∧
      Leads st'.links a' as' none ∧ Leads st'.links b' bs' none ∧ (as' = [] ∨ bs' = []) ∧
      done' ++ (as' ++ bs') = done ++ Katana.mergeSortedLists (byValue cmp) fuel as bs ∧
      ∀ c ∉ addresses (done ++ (as ++ bs)), st'.links c = st.links c := by
  induction fuel generalizing st done as bs a b with
  | zero =>
    have has : as = [] := List.length_eq_zero_iff.mp (by omega)
    have hbs : bs = [] := List.length_eq_zero_iff.mp (by omega)
    rw [has] at ha hnodup ⊢
    rw [hbs] at hb hnodup ⊢
    cases ha
    cases hb
    exact ⟨st, none, none, done, [], [], rfl, hst, rfl, rfl, .inl rfl, rfl, fun _ _ => rfl⟩
  | succ fuel ih =>
    cases as with
    | nil =>
      cases ha
      rw [merge_nil_left]
      exact ⟨st, none, b, done, [], bs, rfl, hst, rfl, hb, .inl rfl, rfl, fun _ _ => rfl⟩
    | cons m as =>
      cases bs with
      | nil =>
        cases hb
        rw [merge_nil_right]
        have hp := ha.1
        rw [hp] at ha ⊢
        exact ⟨st, some m.1, none, done, m :: as, [], rfl, hst, ha, rfl, .inr rfl, by rw [List.append_nil], fun _ _ => rfl⟩
      | cons n bs =>
        rcases m with ⟨c, x⟩
        rcases n with ⟨d, y⟩
        have hpa := ha.1
        have hpb := hb.1
        rw [hpa] at ha ⊢
        rw [hpb] at hb ⊢
        simp only [List.length_cons] at hfuel
        have hswap : (done ++ ((d, y) :: bs ++ (c, x) :: as)).Perm (done ++ ((c, x) :: as ++ (d, y) :: bs)) :=
          List.perm_append_comm.append_left done
        have hnodup' := (addresses_perm hswap).nodup_iff.mpr hnodup
        obtain ⟨nextA, linksA, stA, hloadA, hsetA, haddA, hbuiltA, hrestA, hotherA, hsameA⟩ := hst.turn ha hb hnodup
        obtain ⟨nextB, linksB, stB, hloadB, hsetB, haddB, hbuiltB, hrestB, hotherB, hsameB⟩ := hst.turn hb ha hnodup'
        rw [mergeLoop, hloadA, bind_ok, hloadB, bind_ok, Katana.mergeSortedLists]
        by_cases hle : cmp x y ≤ 0
        · have hsplit : done ++ ((c, x) :: as ++ (d, y) :: bs) = (done ++ [(c, x)]) ++ (as ++ (d, y) :: bs) := by simp
          rw [hsplit] at hnodup
          obtain ⟨st', a', b', done', as', bs', hrun, hst', ha', hb', hend, hout, hsame⟩ :=
            ih (by simp only [List.length_cons]; omega) hbuiltA hrestA hotherA hnodup
          rw [if_pos hle, if_pos (show byValue cmp (c, x) (d, y) ≤ 0 from hle), hsetA, bind_ok, haddA, bind_ok]
          refine ⟨st', a', b', done', as', bs', hrun, hst', ha', hb', hend, by rw [hout]; simp, fun e he => ?_⟩
          rw [hsplit] at he
          rw [hsame e he]
          rw [addresses_append, List.mem_append, not_or] at he
          exact hsameA e he.1
        · have hsplit : done ++ ((d, y) :: bs ++ (c, x) :: as) = (done ++ [(d, y)]) ++ (bs ++ (c, x) :: as) := by simp
          have hback : ((done ++ [(d, y)]) ++ ((c, x) :: as ++ bs)).Perm ((done ++ [(d, y)]) ++ (bs ++ (c, x) :: as)) :=
            List.perm_append_comm.append_left _
          rw [hsplit] at hnodup' hswap
          obtain ⟨st', a', b', done', as', bs', hrun, hst', ha', hb', hend, hout, hsame⟩ :=
            ih (by simp only [List.length_cons]; omega) hbuiltB hotherB hrestB ((addresses_perm hback).nodup_iff.mpr hnodup')
          rw [if_neg hle, if_neg (show ¬ byValue cmp (c, x) (d, y) ≤ 0 from hle), hsetB, bind_ok, haddB, bind_ok]
          refine ⟨st', a', b', done', as', bs', hrun, hst', ha', hb', hend, by rw [hout]; simp, fun e he => ?_⟩
          have he' : e ∉ addresses ((done ++ [(d, y)]) ++ ((c, x) :: as ++ bs)) := fun hmem =>
            he ((addresses_perm (hback.trans hswap)).subset hmem)
          rw [hsame e he']
          rw [addresses_append, List.mem_append, not_or] at he'
          exact hsameB e he'.1

theorem appendLoop_ok {fuel : Nat} {li : Option Nat} {rest : List (Nat × α)} (hfuel : rest.length ≤ fuel)
    (hst : Building st done q) (hq : q = none ∨ q = li) (hli : Leads st.links li rest none)
    (hnodup : (addresses (done ++ rest)).Nodup) :
    ∃ st', appendLoop fuel st li = .ok st' ∧ Building st' (done ++ rest) none ∧
      ∀ c ∉ addresses (done ++ rest), st'.links c = st.links c := by
  induction rest generalizing st done q li fuel with
  | nil =>
    cases hli
    have hend : q = none := by
      rcases hq with hq | hq
      · exact hq
      · exact hq
    rw [hend] at hst
    rw [List.append_nil]
    refine ⟨st, ?_, hst, fun _ _ => rfl⟩
    cases fuel with
    | zero => rfl
    | succ fuel => rfl
  | cons n rest ih =>
    rcases n with ⟨c, x⟩
    obtain ⟨rfl, next, hnode, hrest⟩ := hli
    have hsplit : done ++ (c, x) :: rest = (done ++ [(c, x)]) ++ rest := by simp
    rw [hsplit] at hnodup ⊢
    have hparts := hnodup
    rw [addresses_append, addresses_append, List.nodup_append, List.nodup_append] at hparts
    obtain ⟨⟨hdone, -, hdisjoint⟩, -, hapart⟩ := hparts
    have hc : c ∉ addresses done := fun hmem => hdisjoint c hmem c List.mem_cons_self rfl
    obtain ⟨st', hadd, hbuilt, hsame⟩ := hst.add hdone hc hnode
    rw [List.length_cons] at hfuel
    obtain ⟨fuel, rfl⟩ : ∃ j, fuel = j + 1 := ⟨fuel - 1, by omega⟩
    have hrest' : Leads st'.links next rest none := hrest.frame fun d hd =>
      hsame d fun hmem => hapart d (List.mem_append_left _ hmem) d hd rfl
    have hload : st'.links.load Fault.undefined (some c) = .ok ⟨x, next⟩ := by
      unfold Links.load
      rw [Option.bind_some, hsame c hc, hnode]
    obtain ⟨st'', hrun, hbuilt', hsame'⟩ := ih (show rest.length ≤ fuel by omega) hbuilt (.inr rfl) hrest' hnodup
    rw [appendLoop, hadd, bind_ok, hload, bind_ok]
    refine ⟨st'', hrun, hbuilt', fun d hd => ?_⟩
    rw [hsame' d hd]
    refine hsame d fun hmem => hd ?_
    rw [addresses_append, addresses_append]
    exact List.mem_append_left _ (List.mem_append_left _ hmem)

/-- **The nodes are merged** as the values are. -/
theorem mergeSortedLists_nodes {fuel : Nat} (hfuel : as.length + bs.length ≤ fuel) (ha : Leads links a as none)
    (hb : Leads links b bs none) (hnodup : (addresses (as ++ bs)).Nodup) :
    ∃ links' head, mergeSortedLists cmp fuel links a b = .ok (links', head) ∧
      Leads links' head (Katana.mergeSortedLists (byValue cmp) fuel as bs) none ∧
      ∀ c ∉ addresses (as ++ bs), links' c = links c := by
  have hstart : Building (⟨links, none, none⟩ : MergeState α) [] none := ⟨rfl, rfl, fun _ => rfl⟩
  obtain ⟨st, a', b', done, as', bs', hrun, hst, ha', hb', hend, hout, hsame⟩ :=
    @mergeLoop_ok _ cmp _ _ _ _ _ _ _ hfuel hstart ha hb hnodup
  rw [List.nil_append] at hout
  have hperm := @mergeSortedLists_perm _ (byValue cmp) fuel as bs
  rw [← hout] at hperm
  have hlength := hperm.length_eq
  simp only [List.length_append] at hlength
  have hnodup' := (addresses_perm hperm).nodup_iff.mpr hnodup
  rw [← List.append_assoc] at hnodup'
  have hfront := hnodup'
  rw [addresses_append, List.nodup_append] at hfront
  obtain ⟨hfront, -, hapart⟩ := hfront
  obtain ⟨stA, hrunA, hstA, hsameA⟩ := appendLoop_ok (show as'.length ≤ fuel by omega) hst (.inl rfl) ha' hfront
  have hb'' : Leads stA.links b' bs' none := hb'.frame fun c hc => hsameA c fun hmem => hapart c hmem c hc rfl
  obtain ⟨stB, hrunB, hstB, hsameB⟩ := appendLoop_ok (show bs'.length ≤ fuel by omega) hstA (.inl rfl) hb'' hnodup'
  unfold mergeSortedLists
  rw [hrun, bind_ok]
  dsimp only
  rw [hrunA, bind_ok, hrunB, bind_ok]
  refine ⟨stB.links, stB.result, rfl, ?_, fun c hc => ?_⟩
  · rw [← hout, ← List.append_assoc]
    exact hstB.leads
  · have hall : c ∉ addresses (done ++ as' ++ bs') := by
      rw [List.append_assoc]
      exact fun hmem => hc ((addresses_perm hperm).subset hmem)
    have hfront' : c ∉ addresses (done ++ as') := fun hmem => hall (by
      rw [addresses_append]
      exact List.mem_append_left _ hmem)
    rw [hsameB c hall, hsameA c hfront', hsame c hc]

end

/-! ## Sorting -/

section
variable {cmp : α → α → Int} {links : Links α} {lst : Option Nat} {nodes : List (Nat × α)}

theorem toMiddle_ok {front : List (Nat × α)} {p r before : Option Nat} (hfront : Leads links p front r) :
    toMiddle links front.length before p = .ok (lastOf before front, r) := by
  induction front generalizing p before with
  | nil =>
    cases hfront
    rfl
  | cons n front ih =>
    rcases n with ⟨a, x⟩
    obtain ⟨next, hload, hrest⟩ := hfront.load
    have hp := hfront.1
    rw [List.length_cons, toMiddle, hload, bind_ok]
    dsimp only
    rw [ih hrest, hp]
    rfl

/-- **The nodes are sorted** as the values are. -/
theorem sortList_nodes {fuel : Nat} (hfuel : nodes.length < fuel) (hint : nodes.length < 2 ^ 31)
    (h : Leads links lst nodes none) :
    ∃ links' head, sortList cmp fuel links lst = .ok (links', head) ∧
      Leads links' head (Katana.sortList (byValue cmp) fuel nodes) none ∧
      ∀ c ∉ addresses nodes, links' c = links c := by
  induction fuel generalizing links lst nodes with
  | zero => omega
  | succ fuel ih =>
    have hlength : listLength links fuel lst = .ok nodes.length := by
      unfold listLength
      rw [countNodes_ok h (by omega) (by omega), Nat.zero_add]
    rw [sortList, Katana.sortList, hlength, bind_ok]
    by_cases hshort : nodes.length / 2 < 1
    · rw [if_pos hshort, if_pos hshort]
      exact ⟨links, lst, rfl, h, fun _ _ => rfl⟩
    · rw [if_neg hshort, if_neg hshort]
      have hsplit := List.take_append_drop (nodes.length / 2) nodes
      have htakeLength : (nodes.take (nodes.length / 2)).length = nodes.length / 2 := by
        rw [List.length_take]
        omega
      have hdropLength : (nodes.drop (nodes.length / 2)).length = nodes.length - nodes.length / 2 := List.length_drop ..
      have hnodup := h.nodup
      generalize nodes.take (nodes.length / 2) = front at hsplit htakeLength ⊢
      generalize nodes.drop (nodes.length / 2) = back at hsplit hdropLength ⊢
      rw [← hsplit] at h hnodup
      obtain ⟨middle, hfront, hback⟩ := leads_append.mp h
      rw [addresses_append, List.nodup_append] at hnodup
      obtain ⟨hfrontNodup, hbackNodup, hapart⟩ := hnodup
      have hne : front ≠ [] := by
        rintro rfl
        rw [List.length_nil] at htakeLength
        omega
      obtain ⟨links1, hset, hfront1, hsame1⟩ := @Leads.relink _ _ _ Fault.undefined _ _ _ hfront hne hfrontNodup none
      have hback1 : Leads links1 middle back none := hback.frame fun c hc => hsame1 c fun hmem => hapart c hmem c hc rfl
      obtain ⟨links2, a, hrunA, hsortedA, hsame2⟩ := ih (by omega) (by omega) hfront1
      have hback2 : Leads links2 middle back none := hback1.frame fun c hc => hsame2 c fun hmem => hapart c hmem c hc rfl
      obtain ⟨links3, b, hrunB, hsortedB, hsame3⟩ := ih (by omega) (by omega) hback2
      have hpermA := @sortList_perm _ (byValue cmp) fuel front
      have hpermB := @sortList_perm _ (byValue cmp) fuel back
      have hsortedA3 : Leads links3 a (Katana.sortList (byValue cmp) fuel front) none := by
        refine hsortedA.frame fun c hc => hsame3 c fun hmem => ?_
        exact hapart c ((addresses_perm hpermA).subset hc) c hmem rfl
      have hpermBoth := addresses_perm (hpermA.append hpermB)
      have hnodupBoth : (addresses (Katana.sortList (byValue cmp) fuel front ++
          Katana.sortList (byValue cmp) fuel back)).Nodup := by
        refine hpermBoth.nodup_iff.mpr ?_
        rw [addresses_append, List.nodup_append]
        exact ⟨hfrontNodup, hbackNodup, hapart⟩
      have hboth := (hpermA.append hpermB).length_eq
      rw [List.length_append, List.length_append] at hboth
      obtain ⟨links4, head, hmerge, hmerged, hsame4⟩ :=
        @mergeSortedLists_nodes _ cmp _ _ _ _ _ fuel (by omega) hsortedA3 hsortedB hnodupBoth
      rw [htakeLength.symm, toMiddle_ok hfront, bind_ok]
      dsimp only
      rw [hset, bind_ok, hrunA, bind_ok]
      dsimp only
      rw [hrunB, bind_ok]
      refine ⟨links4, head, hmerge, ?_, fun c hc => ?_⟩
      · rw [mergeSortedLists_enough (by omega) (show _ ≤ fuel by omega)]
        exact hmerged
      · rw [← hsplit, addresses_append, List.mem_append, not_or] at hc
        have hc' : c ∉ addresses (Katana.sortList (byValue cmp) fuel front ++ Katana.sortList (byValue cmp) fuel back) := by
          intro hmem
          have hmem' := hpermBoth.subset hmem
          rw [addresses_append] at hmem'
          exact (List.mem_append.mp hmem').elim hc.1 hc.2
        rw [hsame4 c hc', hsame3 c hc.2, hsame2 c hc.1, hsame1 c hc.1]

/-- The length of a longer list is no int. -/
theorem sortList_undefined (hint : 2 ^ 31 ≤ nodes.length) (h : Leads links lst nodes none) (fuel : Nat) :
    sortList cmp fuel links lst = .error .undefined := by
  have hne : nodes ≠ [] := by
    rintro rfl
    rw [List.length_nil] at hint
    omega
  cases fuel with
  | zero => rfl
  | succ fuel =>
    unfold sortList listLength
    rw [countNodes_error h hne (by omega), bind_error]

theorem TotalPreorder.preorderOn (h : TotalPreorder cmp) (nodes : List (Nat × α)) : PreorderOn (byValue cmp) nodes :=
  ⟨fun m _ n _ => h.total m.2 n.2, fun l _ m _ n _ => h.trans l.2 m.2 n.2⟩

/-- **By a total preorder a list is sorted exactly if** it has fewer than 2^31 nodes. -/
theorem sortsList_iff (hcmp : TotalPreorder cmp) (hlst : Leads links lst nodes none) :
    SortsList cmp links lst nodes ↔ nodes.length < 2 ^ 31 := by
  constructor
  · rintro ⟨enough, h⟩
    by_contra hlong
    obtain ⟨links', head, out, hrun, -⟩ := h enough (Nat.le_refl enough)
    rw [sortList_undefined (Nat.le_of_not_lt hlong) hlst] at hrun
    cases hrun
  · intro hint
    refine ⟨nodes.length + 1, fun fuel hfuel => ?_⟩
    obtain ⟨links', head, hrun, hsorted, -⟩ := @sortList_nodes _ cmp _ _ _ fuel hfuel hint hlst
    refine ⟨links', head, _, hrun, hsorted, sortList_perm fuel nodes, ?_, fun n => ?_⟩
    · exact sortList_sorted (Nat.le_of_succ_le hfuel) (hcmp.preorderOn nodes)
    · exact sortList_stable (Nat.le_of_succ_le hfuel) (hcmp.preorderOn (n :: nodes))

/-- Three nodes with the values 2, 1 and 2, compared by their difference. -/
theorem three_sortsList :
    let links : Links Int := fun a => [⟨2, some 1⟩, ⟨1, some 2⟩, ⟨2, none⟩][a]?
    SortsList (fun x y => x - y) links (some 0) [(0, 2), (1, 1), (2, 2)] := by
  refine (sortsList_iff ⟨fun x y => ?_, fun x y z hxy hyz => ?_⟩ ?_).mpr (by decide)
  · omega
  · omega
  · exact ⟨rfl, _, rfl, rfl, _, rfl, rfl, _, rfl, rfl⟩

def lined (n : Nat) : Links Unit := fun a => if a < n then some ⟨(), if a + 1 < n then some (a + 1) else none⟩ else none

theorem lined_leads (n k : Nat) :
    Leads (lined (n + k)) (if 0 < n then some k else none) ((List.range' k n).map (·, ())) none := by
  induction n generalizing k with
  | zero => rfl
  | succ n ih =>
    have hrest := ih (k + 1)
    rw [show n + (k + 1) = n + 1 + k by omega] at hrest
    have hnext : (if k + 1 < n + 1 + k then some (k + 1) else none) = if 0 < n then some (k + 1) else none := by
      by_cases hn : 0 < n
      · rw [if_pos hn, if_pos (by omega)]
      · rw [if_neg hn, if_neg (by omega)]
    rw [if_pos (Nat.succ_pos n), List.range'_succ, List.map_cons]
    refine ⟨rfl, _, ?_, hrest⟩
    unfold lined
    rw [if_pos (by omega), hnext]

/-- The nodes are too many for an int. -/
theorem not_sortsList :
    ¬ ∀ (cmp : Unit → Unit → Int) (links : Links Unit) (lst : Option Nat) (nodes : List (Nat × Unit)),
      TotalPreorder cmp → Leads links lst nodes none → SortsList cmp links lst nodes := by
  intro h
  have hpre : TotalPreorder fun (_ _ : Unit) => (0 : Int) :=
    ⟨fun _ _ => .inl (Int.le_refl 0), fun _ _ _ _ _ => Int.le_refl 0⟩
  have hleads := lined_leads (2 ^ 31) 0
  obtain ⟨enough, hall⟩ := h _ _ _ _ hpre hleads
  obtain ⟨links', head, out, hrun, -⟩ := hall enough (Nat.le_refl enough)
  rw [sortList_undefined (by rw [List.length_map, List.length_range']) hleads] at hrun
  cases hrun

end

end Katana.Nodes

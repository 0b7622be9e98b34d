/-
  Katana.DListNodes — the nodes of doubly linked lists (dlistPush, dlistAppend and dlistDeleteTail of util/list.c).

  A list is known by its head and its tail. Each node is allocated by whoever pushes or appends it, at any address that is
  not in use, and so where a node was freed. `dlistDeleteTail` frees the last node, but what is then the last node goes on
  pointing to it, until a node is appended there.

  Proved, for every memory and sequence of operations:
  - `dlistPush_upTo` / `dlistAppend_upTo` / `dlistDeleteTail_upTo`: what each operation makes of a list, of which the
    last node can point anywhere.
  - `runOps_upTo`: what a sequence makes of the empty list, and whether its last node points to nothing.
  - `listed_iff`: exactly when the nodes are those of the abstract sequence.
-/
import Katana.Fault
import Katana.Lib.Thread
import Mathlib.Data.List.Induction

namespace Katana.Nodes

open Lib

variable {α : Type}

/-! ## util/list.c -/

structure DListState (α : Type) where
  heap : Heap α
  head : Option Nat
  tail : Option Nat

def dlistPush (st : DListState α) (li : Nat) : Except Fault (DListState α) := do
  let heap ← st.heap.modify .undefined li fun node => { node with prev := none, next := st.head }
  let heap ← heap.modifyAt .undefined st.head fun next => { next with prev := some li }
  .ok ⟨heap, some li, if st.head = none then some li else st.tail⟩

def dlistAppend (st : DListState α) (li : Nat) : Except Fault (DListState α) := do
  let heap ← st.heap.modify .undefined li fun node => { node with next := none, prev := st.tail }
  match st.head with
  | none => .ok ⟨heap, some li, some li⟩
  | some head => do
    assert (st.tail ≠ none)
    let heap ← heap.modifyAt .undefined st.tail fun last => { last with next := some li }
    .ok ⟨heap, some head, some li⟩

def dlistDeleteTail (st : DListState α) : Except Fault (DListState α) :=
  match st.tail with
  | none => .error .assertion
  | some oldTail => do
    let node ← st.heap.load .undefined oldTail
    .ok ⟨st.heap.free oldTail, if node.prev = none then none else st.head, node.prev⟩

/-! ## Sequences of operations -/

/-- An operation, with the address and the value of the node that was allocated for it. -/
inductive DListOp (α : Type) where
  | push (li : Nat) (value : α)
  | append (li : Nat) (value : α)
  | deleteTail

/-- An address that is in use is not given. -/
def malloc (heap : Heap α) (li : Nat) (value : α) : Except Fault (Heap α) :=
  match heap.cells li with
  | none => .ok (heap.set li (some ⟨none, none, value⟩))
  | some _ => .error .undefined

def runOp (st : DListState α) : DListOp α → Except Fault (DListState α)
  | .push li value => do
    let heap ← malloc st.heap li value
    dlistPush { st with heap } li
  | .append li value => do
    let heap ← malloc st.heap li value
    dlistAppend { st with heap } li
  | .deleteTail => dlistDeleteTail st

/-- On a list that starts empty. -/
def runOps (heap : Heap α) (ops : List (DListOp α)) : Except Fault (DListState α) :=
  ops.foldlM runOp ⟨heap, none, none⟩

def DListOp.apply (l : List (Nat × α)) : DListOp α → List (Nat × α)
  | .push li value => (li, value) :: l
  | .append li value => l ++ [(li, value)]
  | .deleteTail => l.dropLast

def contents (ops : List (DListOp α)) : List (Nat × α) := ops.foldl DListOp.apply []

/-- A node can be allocated where none is, and a list that is not empty has a tail to delete. -/
def DListOp.Possible (heap : Heap α) (l : List (Nat × α)) : DListOp α → Prop
  | .push li _ => heap.cells li = none ∧ li ∉ addresses l
  | .append li _ => heap.cells li = none ∧ li ∉ addresses l
  | .deleteTail => l ≠ []

def AllPossible (heap : Heap α) (ops : List (DListOp α)) : Prop :=
  ∀ before op after, ops = before ++ op :: after → op.Possible heap (contents before)

/-- From the head the next pointers lead through the sequence to null and the prev pointers back, and the tail is its last
node. -/
structure Represents (st : DListState α) (l : List (Nat × α)) : Prop where
  seg : Seg st.heap.cells none st.head l none
  tail : st.tail = lastOf none l

/-- The operations leave the list that they leave of the abstract sequence. -/
def Listed (heap : Heap α) (ops : List (DListOp α)) : Prop :=
  ∃ st, runOps heap ops = .ok st ∧ Represents st (contents ops)

def DListOp.IsPush : DListOp α → Prop
  | .push _ _ => True
  | _ => False

/-- The last operation that is no push is not the deletion of one of several nodes. -/
def Mended (ops : List (DListOp α)) : Prop :=
  ∀ before after, ops = before ++ .deleteTail :: after → (∀ op ∈ after, op.IsPush) → (contents before).length ≤ 1

/-! ## What the operations make of a list -/

section
variable {heap : Heap α} {st : DListState α} {l : List (Nat × α)} {q : Option Nat} {li : Nat} {value : α}

/-- The list is that of the sequence, but that its last node points to `q`. -/
structure ListUpTo (heap : Heap α) (st : DListState α) (l : List (Nat × α)) (q : Option Nat) : Prop where
  seg : Seg st.heap.cells none st.head l q
  tail : st.tail = lastOf none l
  nodup : (addresses l).Nodup
  empty : l = [] → q = none
  allocated : ∀ a ∈ addresses l, heap.cells a = none
  elsewhere : ∀ a ∉ addresses l, st.heap.cells a = heap.cells a

theorem ListUpTo.head_none_iff (h : ListUpTo heap st l q) : st.head = none ↔ l = [] := by
  cases l with
  | nil => exact iff_of_true (h.seg.trans (h.empty rfl)) rfl
  | cons n l =>
    refine iff_of_false (fun hnone => ?_) (by simp)
    cases hnone.symm.trans h.seg.1

theorem ListUpTo.represents_iff (h : ListUpTo heap st l q) : Represents st l ↔ q = none := by
  constructor
  · exact fun hrep => h.seg.end_unique hrep.seg
  · intro hq
    rw [hq] at h
    exact ⟨h.seg, h.tail⟩

/-- The node for an operation, with the pointers it is given. -/
theorem ListUpTo.allocate (h : ListUpTo heap st l q) (hfree : heap.cells li = none) (hli : li ∉ addresses l)
    (value : α) (next prev : Option Nat) :
    ∃ heap1 heap2, malloc st.heap li value = .ok heap1 ∧
      heap1.modify Fault.undefined li (fun node => { node with next, prev }) = .ok heap2 ∧
      heap2.cells li = some ⟨next, prev, value⟩ ∧ ∀ a ≠ li, heap2.cells a = st.heap.cells a := by
  have hnone : st.heap.cells li = none := (h.elsewhere li hli).trans hfree
  refine ⟨st.heap.set li (some ⟨none, none, value⟩), _, ?_, Heap.modify_ok (Heap.set_self ..) _, Heap.set_self .., ?_⟩
  · unfold malloc
    rw [hnone]
  · intro a ha
    rw [Heap.set_other _ ha, Heap.set_other _ ha]

theorem dlistPush_upTo (h : ListUpTo heap st l q) (hpossible : (DListOp.push li value).Possible heap l) :
    ∃ st', runOp st (.push li value) = .ok st' ∧ ListUpTo heap st' ((li, value) :: l) q := by
  obtain ⟨hfree, hli⟩ := hpossible
  obtain ⟨heap1, heap2, hmalloc, hmodify, hnode, hsame⟩ := h.allocate hfree hli value st.head none
  have hseg : Seg heap2.cells none st.head l q := h.seg.frame fun a ha => hsame a (ne_of_mem_of_not_mem ha hli)
  obtain ⟨heap3, hset, -, hseg3, hsame3⟩ :=
    Heap.modifyAt_start Fault.undefined hseg (fun hnil => h.head_none_iff.mpr hnil) h.nodup (some li)
  have hnode3 : heap3.cells li = some ⟨st.head, none, value⟩ := (hsame3 li hli).trans hnode
  rw [runOp, hmalloc, bind_ok, dlistPush]
  dsimp only
  rw [hmodify, bind_ok, hset, bind_ok]
  refine ⟨_, rfl, ⟨rfl, st.head, hnode3, hseg3⟩, ?_, List.nodup_cons.mpr ⟨hli, h.nodup⟩, fun hnil => (by cases hnil), ?_, ?_⟩
  · cases l with
    | nil =>
      rw [if_pos (h.head_none_iff.mpr rfl)]
      rfl
    | cons n l =>
      rw [if_neg fun hnone => absurd (h.head_none_iff.mp hnone) (by simp)]
      exact h.tail
  · exact List.forall_mem_cons.mpr ⟨hfree, h.allocated⟩
  · intro a ha
    rw [addresses_cons, List.mem_cons, not_or] at ha
    rw [hsame3 a ha.2, hsame a ha.1, h.elsewhere a ha.2]

theorem dlistAppend_upTo (h : ListUpTo heap st l q) (hpossible : (DListOp.append li value).Possible heap l) :
    ∃ st', runOp st (.append li value) = .ok st' ∧ ListUpTo heap st' (l ++ [(li, value)]) none := by
  obtain ⟨hfree, hli⟩ := hpossible
  obtain ⟨heap1, heap2, hmalloc, hmodify, hnode, hsame⟩ := h.allocate hfree hli value none st.tail
  have hseg : Seg heap2.cells none st.head l q := h.seg.frame fun a ha => hsame a (ne_of_mem_of_not_mem ha hli)
  have hnodup : (addresses (l ++ [(li, value)])).Nodup := by
    rw [addresses_append, List.nodup_append]
    refine ⟨h.nodup, List.nodup_singleton _, fun a ha b hb heq => hli ?_⟩
    have hb : b = li := List.mem_singleton.mp hb
    rw [← hb, ← heq]
    exact ha
  have hallocated : ∀ a ∈ addresses (l ++ [(li, value)]), heap.cells a = none := by
    rw [addresses_append]
    exact List.forall_mem_append.mpr ⟨h.allocated, List.forall_mem_singleton.mpr hfree⟩
  rw [runOp, hmalloc, bind_ok, dlistAppend]
  dsimp only
  rw [hmodify, bind_ok]
  cases hhead : st.head with
  | none =>
    have hnil := h.head_none_iff.mp hhead
    rw [h.tail, hnil] at hnode
    rw [hnil] at hnodup hallocated ⊢
    refine ⟨_, rfl, ⟨rfl, none, hnode, rfl⟩, rfl, hnodup, fun hcons => (by cases hcons), hallocated, fun a ha => ?_⟩
    rw [hsame a fun heq => ha (List.mem_singleton.mpr heq), h.elsewhere a (by simp [hnil, addresses])]
  | some head =>
    have hne : l ≠ [] := fun hnil => by
      rw [h.head_none_iff.mpr hnil] at hhead
      cases hhead
    have htail : st.tail ≠ none := by
      rw [h.tail]
      exact fun hnone => hne (lastOf_eq_none.mp hnone)
    obtain ⟨heap3, hset, -, hseg3, hsame3⟩ := Heap.modifyAt_lastOf Fault.undefined hseg h.nodup (some li)
    rw [if_neg hne, hhead] at hseg3
    dsimp only
    rw [assert_of htail, bind_ok, h.tail, hset, bind_ok]
    rw [h.tail] at hnode
    have hnode3 : heap3.cells li = some ⟨none, lastOf none l, value⟩ := (hsame3 li hli).trans hnode
    refine ⟨_, rfl, seg_append.mpr ⟨some li, hseg3, rfl, none, hnode3, rfl⟩, ?_, hnodup, fun _ => rfl, hallocated,
      fun a ha => ?_⟩
    · rw [lastOf_append]
      rfl
    · rw [addresses_append, List.mem_append, not_or] at ha
      rw [hsame3 a ha.1, hsame a fun heq => ha.2 (List.mem_singleton.mpr heq), h.elsewhere a ha.1]

/-- The last node that is left goes on pointing to the one that was freed. -/
theorem dlistDeleteTail_upTo (h : ListUpTo heap st l q) (hne : l ≠ []) :
    ∃ st' q', runOp st .deleteTail = .ok st' ∧ ListUpTo heap st' l.dropLast q' ∧ (q' = none ↔ l.length ≤ 1) := by
  obtain ⟨front, ⟨a, x⟩, rfl⟩ := (List.eq_nil_or_concat' l).resolve_left hne
  obtain ⟨r, hfront, hr, next, hnode, hend⟩ := seg_append.mp h.seg
  have htail := h.tail
  have hnodup := h.nodup
  rw [addresses_append, List.nodup_append] at hnodup
  have ha : a ∉ addresses front := fun hmem => hnodup.2.2 a hmem a List.mem_cons_self rfl
  have hallocated := h.allocated
  rw [addresses_append, List.forall_mem_append] at hallocated
  rw [lastOf_append] at htail
  have hload : st.heap.load Fault.undefined a = .ok ⟨next, lastOf none front, x⟩ := Heap.load_ok hnode
  have hcells : ∀ b ∉ addresses front, (st.heap.free a).cells b = heap.cells b := by
    intro b hb
    by_cases heq : b = a
    · rw [heq, Heap.free, Heap.set_self]
      exact (hallocated.2 a List.mem_cons_self).symm
    · rw [Heap.free, Heap.set_other _ heq]
      refine h.elsewhere b fun hmem => ?_
      rw [addresses_append, List.mem_append] at hmem
      exact hmem.elim hb fun hlast => heq (List.mem_singleton.mp hlast)
  have hseg : Seg (st.heap.free a).cells none st.head front (some a) := by
    rw [hr] at hfront
    exact hfront.update ha _
  have hrun : runOp st .deleteTail =
      .ok ⟨st.heap.free a, if lastOf none front = none then none else st.head, lastOf none front⟩ := by
    unfold runOp dlistDeleteTail
    dsimp only
    rw [htail]
    dsimp only [lastOf]
    rw [hload]
    rfl
  rw [List.dropLast_concat, List.length_append]
  cases hleft : front with
  | nil =>
    rw [hleft] at hrun hcells
    exact ⟨_, none, hrun, ⟨rfl, rfl, List.nodup_nil, fun _ => rfl, by simp [addresses], hcells⟩,
      iff_of_true rfl (by simp)⟩
  | cons n rest =>
    have hlast : lastOf none front ≠ none := fun hnone => by
      rw [lastOf_eq_none.mp hnone] at hleft
      cases hleft
    rw [if_neg hlast] at hrun
    rw [hleft] at hrun hseg hcells hnodup hallocated
    refine ⟨_, some a, hrun, ⟨hseg, rfl, hnodup.1, fun hnil => (by cases hnil), hallocated.1, hcells⟩, ?_⟩
    simp

end

/-! ## Runs -/

section
variable {heap : Heap α} {ops : List (DListOp α)} {op : DListOp α}

theorem runOps_snoc : runOps heap (ops ++ [op]) = runOps heap ops >>= fun st => runOp st op := by
  unfold runOps
  rw [List.foldlM_append]
  refine bind_congr fun st => ?_
  rw [List.foldlM_cons]
  cases runOp st op with
  | error fault => rfl
  | ok st' => rfl

theorem contents_snoc : contents (ops ++ [op]) = op.apply (contents ops) := by
  unfold contents
  rw [List.foldl_append]
  rfl

/-- An operation within a sequence is its last one, or comes before that. -/
theorem snoc_split {op' : DListOp α} {before after : List (DListOp α)} :
    ops ++ [op] = before ++ op' :: after ↔
      after = [] ∧ ops = before ∧ op = op' ∨ ∃ rest, after = rest ++ [op] ∧ ops = before ++ op' :: rest := by
  constructor
  · intro h
    rcases List.eq_nil_or_concat' after with rfl | ⟨rest, last, rfl⟩
    · obtain ⟨hops, hop⟩ := List.append_inj' h rfl
      exact .inl ⟨rfl, hops, List.singleton_inj.mp hop⟩
    · have hassoc : ops ++ [op] = (before ++ op' :: rest) ++ [last] := by rw [h, List.append_assoc, List.cons_append]
      obtain ⟨hops, hop⟩ := List.append_inj' hassoc rfl
      rw [List.singleton_inj.mp hop]
      exact .inr ⟨rest, rfl, hops⟩
  · rintro (⟨rfl, rfl, rfl⟩ | ⟨rest, rfl, rfl⟩)
    · rfl
    · rw [List.append_assoc, List.cons_append]

theorem allPossible_snoc : AllPossible heap (ops ++ [op]) ↔ AllPossible heap ops ∧ op.Possible heap (contents ops) := by
  constructor
  · intro h
    refine ⟨fun before op' after hsplit => ?_, h ops op [] rfl⟩
    exact h before op' (after ++ [op]) (snoc_split.mpr (.inr ⟨after, rfl, hsplit⟩))
  · rintro ⟨h, hop⟩ before op' after hsplit
    rcases snoc_split.mp hsplit with ⟨-, rfl, rfl⟩ | ⟨rest, -, hops⟩
    · exact hop
    · exact h before op' rest hops

theorem allPossible_nil : AllPossible heap ([] : List (DListOp α)) := by
  intro before op after hsplit
  cases before with
  | nil => cases hsplit
  | cons op before => cases hsplit

theorem mended_push {li : Nat} {value : α} : Mended (ops ++ [.push li value]) ↔ Mended ops := by
  constructor
  · intro h before after hsplit hpush
    refine h before (after ++ [.push li value]) (snoc_split.mpr (.inr ⟨after, rfl, hsplit⟩)) fun op hop => ?_
    rcases List.mem_append.mp hop with hop | hop
    · exact hpush op hop
    · rw [List.mem_singleton.mp hop]
      trivial
  · intro h before after hsplit hpush
    rcases snoc_split.mp hsplit with ⟨-, -, hlast⟩ | ⟨rest, rfl, hops⟩
    · cases hlast
    · exact h before rest hops fun op hop => hpush op (List.mem_append_left _ hop)

theorem mended_append {li : Nat} {value : α} : Mended (ops ++ [.append li value]) := by
  intro before after hsplit hpush
  rcases snoc_split.mp hsplit with ⟨-, -, hlast⟩ | ⟨rest, rfl, -⟩
  · cases hlast
  · cases hpush (.append li value) (List.mem_append_right _ List.mem_cons_self)

theorem mended_deleteTail : Mended (ops ++ [.deleteTail]) ↔ (contents ops).length ≤ 1 := by
  constructor
  · exact fun h => h ops [] rfl fun op hop => by cases hop
  · intro h before after hsplit hpush
    rcases snoc_split.mp hsplit with ⟨-, hops, -⟩ | ⟨rest, rfl, -⟩
    · rw [← hops]
      exact h
    · cases hpush .deleteTail (List.mem_append_right _ List.mem_cons_self)

/-- What a sequence makes of the empty list: its last node points to nothing exactly if it is mended. -/
theorem runOps_upTo (hpossible : AllPossible heap ops) :
    ∃ st q, runOps heap ops = .ok st ∧ ListUpTo heap st (contents ops) q ∧ (q = none ↔ Mended ops) := by
  induction ops using List.reverseRecOn with
  | nil =>
    refine ⟨⟨heap, none, none⟩, none, rfl, ⟨rfl, rfl, List.nodup_nil, fun _ => rfl, by simp [contents, addresses],
      fun _ _ => rfl⟩, iff_of_true rfl fun before after hsplit => ?_⟩
    cases before with
    | nil => cases hsplit
    | cons op before => cases hsplit
  | append_singleton ops op ih =>
    obtain ⟨hbefore, hop⟩ := allPossible_snoc.mp hpossible
    obtain ⟨st, q, hrun, hlist, hmended⟩ := ih hbefore
    rw [runOps_snoc, contents_snoc, hrun, bind_ok]
    cases op with
    | push li value =>
      obtain ⟨st', hop', hlist'⟩ := dlistPush_upTo hlist hop
      exact ⟨st', q, hop', hlist', hmended.trans mended_push.symm⟩
    | append li value =>
      obtain ⟨st', hop', hlist'⟩ := dlistAppend_upTo hlist hop
      exact ⟨st', none, hop', hlist', iff_of_true rfl mended_append⟩
    | deleteTail =>
      obtain ⟨st', q', hop', hlist', hlast⟩ := dlistDeleteTail_upTo hlist hop
      exact ⟨st', q', hop', hlist', hlast.trans mended_deleteTail.symm⟩

/-- **The nodes are those of the abstract sequence exactly if** the last operation that is no push is not the deletion of
one of several. -/
theorem listed_iff (hpossible : AllPossible heap ops) : Listed heap ops ↔ Mended ops := by
  obtain ⟨st, q, hrun, hlist, hmended⟩ := runOps_upTo hpossible
  refine Iff.trans ⟨?_, fun hrep => ⟨st, hrun, hrep⟩⟩ (hlist.represents_iff.trans hmended)
  rintro ⟨st', hrun', hrep⟩
  rw [hrun] at hrun'
  cases hrun'
  exact hrep

def appendedDeleted : List (DListOp Nat) := [.append 0 10, .append 1 11, .deleteTail]

theorem appendedDeleted_possible : AllPossible ⟨fun _ => none, 0⟩ appendedDeleted := by
  have hone : AllPossible (⟨fun _ => none, 0⟩ : Heap Nat) [.append 0 10] :=
    (@allPossible_snoc _ _ []).mpr ⟨allPossible_nil, rfl, by simp [contents, addresses]⟩
  have htwo : AllPossible (⟨fun _ => none, 0⟩ : Heap Nat) [.append 0 10, .append 1 11] :=
    (@allPossible_snoc _ _ [.append 0 10]).mpr ⟨hone, rfl, by simp [contents, addresses, DListOp.apply]⟩
  exact (@allPossible_snoc _ _ [.append 0 10, .append 1 11]).mpr
    ⟨htwo, by simp [DListOp.Possible, contents, DListOp.apply]⟩

/-- Then one is appended where it was. -/
theorem reused_listed : Listed ⟨fun _ => none, 0⟩ (appendedDeleted ++ [.append 1 12]) := by
  have hnew : (DListOp.append 1 12).Possible ⟨fun _ => none, 0⟩ (contents appendedDeleted) :=
    ⟨rfl, by simp [appendedDeleted, contents, addresses, DListOp.apply]⟩
  exact (listed_iff (allPossible_snoc.mpr ⟨appendedDeleted_possible, hnew⟩)).mpr mended_append

/-- Before that the first node still points to the second one. -/
theorem not_listed :
    ¬ ∀ (heap : Heap Nat) (ops : List (DListOp Nat)), AllPossible heap ops → Listed heap ops := by
  intro h
  obtain ⟨st, hrun, hseg, -⟩ := h _ _ appendedDeleted_possible
  cases hrun
  obtain ⟨-, next, hnode, hend⟩ := hseg
  cases hnode
  cases hend

end

end Katana.Nodes

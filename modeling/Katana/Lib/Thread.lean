/-
  Katana.Lib.Thread — doubly linked lists in a heap.

  A heap gives cells to addresses and hands out addresses it has not used before; a cell that was freed is
  no cell. `Seg` says that a list of addressed items is what the pointers lead through.

  Proved, for every heap:
  - `Seg.frame`: a segment depends on its own cells only.
  - `seg_append` / `Seg.insert` / `Seg.push` / `Seg.erase`: segments are put together, get a cell behind one
    of their own, one at their end, and lose one.
  - `Thread.pushFront` / `Thread.cutFrom`: a thread gets a cell before its first one, and is cut off at one.
-/
import Mathlib.Data.List.Nodup
import Mathlib.Data.List.Perm.Subperm
import Mathlib.Logic.Function.Basic

namespace Katana.Lib

structure Cell (α : Type) where
  next : Option Nat
  prev : Option Nat
  item : α

structure Heap (α : Type) where
  cells : Nat → Option (Cell α)
  fresh : Nat

namespace Heap
variable {α ε : Type}

/-- Through a pointer to no cell, what happens is `undefined`. -/
def load (undefined : ε) (h : Heap α) (a : Nat) : Except ε (Cell α) :=
  match h.cells a with
  | some c => .ok c
  | none => .error undefined

def set (h : Heap α) (a : Nat) (c : Option (Cell α)) : Heap α := { h with cells := Function.update h.cells a c }

def modify (undefined : ε) (h : Heap α) (a : Nat) (f : Cell α → Cell α) : Except ε (Heap α) :=
  match h.cells a with
  | some c => .ok (h.set a (some (f c)))
  | none => .error undefined

/-- Through a pointer that can be null. -/
def modifyAt (undefined : ε) (h : Heap α) (p : Option Nat) (f : Cell α → Cell α) : Except ε (Heap α) :=
  match p with
  | some a => h.modify undefined a f
  | none => .ok h

def alloc (h : Heap α) (c : Cell α) : Heap α := ⟨Function.update h.cells h.fresh (some c), h.fresh + 1⟩

def free (h : Heap α) (a : Nat) : Heap α := h.set a none

end Heap

section
variable {α : Type}

/-- From `p` the pointers lead through the items of the list to `q`; the first cell points back to `prev`. -/
def Seg (cells : Nat → Option (Cell α)) : Option Nat → Option Nat → List (Nat × α) → Option Nat → Prop
  | _, p, [], q => p = q
  | prev, p, (a, x) :: l, q => p = some a ∧ ∃ next, cells a = some ⟨next, prev, x⟩ ∧ Seg cells (some a) next l q

/-- The address a segment's last cell has. -/
def lastOf : Option Nat → List (Nat × α) → Option Nat
  | prev, [] => prev
  | _, (a, _) :: l => lastOf (some a) l

def addresses (l : List (Nat × α)) : List Nat := l.map Prod.fst

variable {cells cells' : Nat → Option (Cell α)} {prev p q : Option Nat} {l m : List (Nat × α)}

theorem lastOf_append (prev : Option Nat) (l m : List (Nat × α)) : lastOf prev (l ++ m) = lastOf (lastOf prev l) m := by
  induction l generalizing prev with
  | nil => rfl
  | cons n l ih => exact ih (some n.1)

theorem lastOf_eq_none {l : List (Nat × α)} : lastOf none l = none ↔ l = [] := by
  rcases List.eq_nil_or_concat' l with rfl | ⟨front, n, rfl⟩
  · exact iff_of_true rfl rfl
  · rw [lastOf_append]
    exact iff_of_false (fun h => by cases h) (by simp)

theorem Seg.frame (h : Seg cells prev p l q) (hsame : ∀ a ∈ addresses l, cells' a = cells a) : Seg cells' prev p l q := by
  induction l generalizing prev p with
  | nil => exact h
  | cons n l ih =>
    rcases n with ⟨a, x⟩
    obtain ⟨hp, next, hcell, hrest⟩ := h
    refine ⟨hp, next, ?_, ih hrest fun b hb => hsame b (List.mem_cons_of_mem _ hb)⟩
    rw [hsame a List.mem_cons_self, hcell]

theorem seg_append : Seg cells prev p (l ++ m) q ↔ ∃ r, Seg cells prev p l r ∧ Seg cells (lastOf prev l) r m q := by
  induction l generalizing prev p with
  | nil =>
    refine ⟨fun h => ⟨p, rfl, h⟩, fun h => ?_⟩
    obtain ⟨r, hr, h⟩ := h
    cases hr
    exact h
  | cons n l ih =>
    rcases n with ⟨a, x⟩
    refine ⟨?_, ?_⟩
    · intro h
      obtain ⟨hp, next, hcell, hrest⟩ := h
      obtain ⟨r, hl, hm⟩ := ih.mp hrest
      exact ⟨r, ⟨hp, next, hcell, hl⟩, hm⟩
    · intro h
      obtain ⟨r, ⟨hp, next, hcell, hl⟩, hm⟩ := h
      exact ⟨hp, next, hcell, ih.mpr ⟨r, hl, hm⟩⟩

/-- A segment to the end is the only one from its first cell. -/
theorem Seg.unique (h : Seg cells prev p l none) (h' : Seg cells prev p m none) : l = m := by
  induction l generalizing prev p m with
  | nil =>
    cases h
    cases m with
    | nil => rfl
    | cons n m => cases h'.1
  | cons n l ih =>
    obtain ⟨hp, next, hcell, hrest⟩ := h
    subst hp
    cases m with
    | nil => cases h'
    | cons n' m =>
      obtain ⟨hp', next', hcell', hrest'⟩ := h'
      rcases n with ⟨a, x⟩
      rcases n' with ⟨a', x'⟩
      cases hp'
      rw [hcell] at hcell'
      cases hcell'
      rw [ih hrest hrest']

/-- A segment leads to one end. -/
theorem Seg.end_unique {r : Option Nat} (h : Seg cells prev p l q) (h' : Seg cells prev p l r) : q = r := by
  induction l generalizing prev p with
  | nil => exact h.symm.trans h'
  | cons n l ih =>
    rcases n with ⟨a, x⟩
    obtain ⟨-, next, hcell, hrest⟩ := h
    obtain ⟨-, next', hcell', hrest'⟩ := h'
    rw [hcell] at hcell'
    cases hcell'
    exact ih hrest hrest'

theorem Seg.mem (h : Seg cells prev p l q) {a : Nat} {x : α} (hmem : (a, x) ∈ l) :
    ∃ next prev, cells a = some ⟨next, prev, x⟩ := by
  induction l generalizing prev p with
  | nil => cases hmem
  | cons n l ih =>
    rcases n with ⟨b, y⟩
    obtain ⟨-, next, hcell, hrest⟩ := h
    rcases List.mem_cons.mp hmem with hhead | htail
    · cases hhead
      exact ⟨next, prev, hcell⟩
    · exact ih hrest htail

theorem Seg.update (h : Seg cells prev p l q) {a : Nat} (ha : a ∉ addresses l) (c : Option (Cell α)) :
    Seg (Function.update cells a c) prev p l q := by
  apply h.frame
  intro b hb
  exact Function.update_of_ne (ne_of_mem_of_not_mem hb ha) ..

theorem addresses_append (l m : List (Nat × α)) : addresses (l ++ m) = addresses l ++ addresses m := List.map_append ..

theorem addresses_cons (n : Nat × α) (l : List (Nat × α)) : addresses (n :: l) = n.1 :: addresses l := rfl

end

namespace Heap
variable {α ε : Type} (undefined : ε)

def insertAfter (h : Heap α) (parent : Nat) (item : α) : Except ε (Heap α) :=
  h.load undefined parent >>= fun c =>
    let h' := h.alloc ⟨c.next, some parent, item⟩
    h'.modifyAt undefined c.next (fun c => { c with prev := some h.fresh }) >>= fun h' =>
      h'.modify undefined parent fun c => { c with next := some h.fresh }

def pushBack (h : Heap α) (last : Nat) (item : α) : Except ε (Heap α) :=
  (h.alloc ⟨none, some last, item⟩).modify undefined last fun c => { c with next := some h.fresh }

def unlink (h : Heap α) (a : Nat) : Except ε (Heap α) :=
  h.load undefined a >>= fun c =>
    h.modifyAt undefined c.prev (fun d => { d with next := c.next }) >>= fun h =>
      h.modifyAt undefined c.next (fun d => { d with prev := c.prev }) >>= fun h => .ok (h.free a)

variable {undefined}

theorem load_ok {h : Heap α} {a : Nat} {c : Cell α} (hc : h.cells a = some c) : h.load undefined a = .ok c := by
  unfold load
  rw [hc]

theorem modify_ok {h : Heap α} {a : Nat} {c : Cell α} (hc : h.cells a = some c) (f : Cell α → Cell α) :
    h.modify undefined a f = .ok (h.set a (some (f c))) := by
  unfold modify
  rw [hc]

@[simp] theorem modifyAt_some (h : Heap α) (a : Nat) (f : Cell α → Cell α) :
    h.modifyAt undefined (some a) f = h.modify undefined a f := rfl

@[simp] theorem modifyAt_none (h : Heap α) (f : Cell α → Cell α) : h.modifyAt undefined none f = .ok h := rfl

theorem alloc_old {h : Heap α} {a : Nat} (ha : a < h.fresh) (c : Cell α) : (h.alloc c).cells a = h.cells a :=
  Function.update_of_ne (Nat.ne_of_lt ha) ..

theorem alloc_new (h : Heap α) (c : Cell α) : (h.alloc c).cells h.fresh = some c := Function.update_self ..

theorem set_self (h : Heap α) (a : Nat) (c : Option (Cell α)) : (h.set a c).cells a = c := Function.update_self ..

theorem set_other (h : Heap α) {a b : Nat} (hne : b ≠ a) (c : Option (Cell α)) : (h.set a c).cells b = h.cells b :=
  Function.update_of_ne hne ..

/-- What is not among the addresses is as it was. -/
def SameElsewhere (h h' : Heap α) (addresses : List Nat) : Prop :=
  h.fresh ≤ h'.fresh ∧ ∀ a, a ∉ addresses → a < h.fresh → h'.cells a = h.cells a

/-- From its start the pointers lead through the items of a thread, forwards and backwards. -/
structure Thread (h : Heap α) (start : Option Nat) (l : List (Nat × α)) : Prop where
  seg : Seg h.cells none start l none
  nodup : (addresses l).Nodup
  below : ∀ a ∈ addresses l, a < h.fresh

theorem Thread.frame {h h' : Heap α} {start : Option Nat} {l : List (Nat × α)} (ht : h.Thread start l)
    (hfresh : h.fresh ≤ h'.fresh) (hsame : ∀ a ∈ addresses l, h'.cells a = h.cells a) : h'.Thread start l :=
  ⟨ht.seg.frame hsame, ht.nodup, fun a ha => Nat.lt_of_lt_of_le (ht.below a ha) hfresh⟩

/-- The cells around one of a thread's. -/
theorem Thread.split {h : Heap α} {start : Option Nat} {l m : List (Nat × α)} {a : Nat} {x : α}
    (ht : h.Thread start (l ++ (a, x) :: m)) :
    ∃ next, h.cells a = some ⟨next, lastOf none l, x⟩ ∧ Seg h.cells none start l (some a) ∧
      Seg h.cells (some a) next m none ∧
      a ∉ addresses l ∧ (addresses ((a, x) :: m)).Nodup ∧ (addresses l).Disjoint (addresses m) := by
  obtain ⟨r, hl, hr, next, hcell, hm⟩ := seg_append.mp ht.seg
  have hnodup := ht.nodup
  rw [addresses_append, addresses_cons, List.nodup_append] at hnodup
  obtain ⟨-, hcons, hdisjoint⟩ := hnodup
  cases hr
  refine ⟨next, hcell, hl, hm, ?_, hcons, ?_⟩
  · intro ha
    exact hdisjoint a ha a List.mem_cons_self rfl
  · intro b hb hb'
    exact hdisjoint b hb b (List.mem_cons_of_mem _ hb') rfl

theorem seg_middle {cells : Nat → Option (Cell α)} {prev p q next : Option Nat} {l m : List (Nat × α)} {a : Nat} {x : α}
    (hl : Seg cells prev p l (some a)) (hcell : cells a = some ⟨next, lastOf prev l, x⟩) (hm : Seg cells (some a) next m q) :
    Seg cells prev p (l ++ (a, x) :: m) q := seg_append.mpr ⟨some a, hl, rfl, next, hcell, hm⟩

theorem mem_addresses_middle {l m : List (Nat × α)} {n : Nat × α} {b : Nat} :
    b ∈ addresses (l ++ n :: m) ↔ b ∈ addresses l ∨ b = n.1 ∨ b ∈ addresses m := by
  simp [addresses]

/-- A fresh address among those of a thread. -/
theorem Thread.insertFresh {h : Heap α} {start : Option Nat} {l m : List (Nat × α)} (ht : h.Thread start (l ++ m)) (y : α) :
    (addresses (l ++ (h.fresh, y) :: m)).Nodup ∧ ∀ a ∈ addresses (l ++ (h.fresh, y) :: m), a < h.fresh + 1 := by
  have hnodup := ht.nodup
  have hbelow := ht.below
  rw [addresses_append] at hnodup hbelow
  refine ⟨?_, ?_⟩
  · rw [addresses_append, addresses_cons, List.nodup_middle, List.nodup_cons]
    exact ⟨fun hmem => Nat.lt_irrefl _ (hbelow _ hmem), hnodup⟩
  · intro a ha
    rcases mem_addresses_middle.mp ha with hl | ha | hm
    · exact Nat.lt_succ_of_lt (hbelow a (List.mem_append_left _ hl))
    · rw [ha]
      exact Nat.lt_succ_self _
    · exact Nat.lt_succ_of_lt (hbelow a (List.mem_append_right _ hm))

variable (undefined) in
/-- **A cell behind one of a thread's.** -/
theorem Thread.insertAfter {h : Heap α} {start : Option Nat} {l m : List (Nat × α)} {a : Nat} {x : α}
    (ht : h.Thread start (l ++ (a, x) :: m)) (y : α) :
    ∃ h', h.insertAfter undefined a y = .ok h' ∧ h'.fresh = h.fresh + 1 ∧
      h'.Thread start (l ++ (a, x) :: (h.fresh, y) :: m) ∧ SameElsewhere h h' (addresses (l ++ (a, x) :: m)) := by
  obtain ⟨next, hcell, hl, hm, hal, hcons, hlm⟩ := ht.split
  obtain ⟨ham, hmnodup⟩ := List.nodup_cons.mp hcons
  have halt : a < h.fresh := ht.below a (mem_addresses_middle.mpr (.inr (.inl rfl)))
  have hllt : ∀ b ∈ addresses l, b < h.fresh := fun b hb => ht.below b (mem_addresses_middle.mpr (.inl hb))
  have hmlt : ∀ b ∈ addresses m, b < h.fresh := fun b hb => ht.below b (mem_addresses_middle.mpr (.inr (.inr hb)))
  have hnew : (addresses (l ++ (a, x) :: (h.fresh, y) :: m)).Nodup ∧
      ∀ b ∈ addresses (l ++ (a, x) :: (h.fresh, y) :: m), b < h.fresh + 1 := by
    have hassoc : l ++ (a, x) :: m = (l ++ [(a, x)]) ++ m := by
      rw [List.append_assoc]
      rfl
    have hfresh := Thread.insertFresh (hassoc ▸ ht) y
    rw [List.append_assoc] at hfresh
    exact hfresh
  unfold Heap.insertAfter
  rw [load_ok hcell]
  have hnode : (h.alloc ⟨next, some a, y⟩).cells a = some ⟨next, lastOf none l, x⟩ := (alloc_old halt _).trans hcell
  cases m with
  | nil =>
    cases hm
    refine ⟨_, modify_ok hnode _, rfl, ⟨?_, hnew.1, hnew.2⟩, Nat.le_succ _, ?_⟩
    · refine seg_middle (hl.frame ?_) (set_self ..) ⟨rfl, none, ?_, rfl⟩
      · intro b hb
        rw [set_other _ (ne_of_mem_of_not_mem hb hal), alloc_old (hllt b hb)]
      · rw [set_other _ (Nat.ne_of_gt halt)]
        exact alloc_new _ _
    · intro b hb hlt
      rw [set_other _ (fun heq => hb (mem_addresses_middle.mpr (.inr (.inl heq)))), alloc_old hlt]
  | cons n m =>
    rcases n with ⟨b, z⟩
    obtain ⟨rfl, nb, hb, hm⟩ := hm
    have hblt : b < h.fresh := hmlt b List.mem_cons_self
    have hab : a ≠ b := fun heq => ham (heq ▸ List.mem_cons_self)
    have hbm := (List.nodup_cons.mp hmnodup).1
    have hbl : b ∉ addresses l := fun hmem => hlm hmem List.mem_cons_self
    have hback : ((h.alloc ⟨some b, some a, y⟩).set b (some ⟨nb, some h.fresh, z⟩)).cells a =
      some ⟨some b, lastOf none l, x⟩ := by
      rw [set_other _ hab, hnode]
    have hother : ∀ c, c < h.fresh → c ≠ a → c ≠ b →
        (((h.alloc ⟨some b, some a, y⟩).set b (some ⟨nb, some h.fresh, z⟩)).set a
          (some ⟨some h.fresh, lastOf none l, x⟩)).cells c = h.cells c := by
      intro c hlt hca hcb
      rw [set_other _ hca, set_other _ hcb, alloc_old hlt]
    have hrun : ((h.alloc ⟨some b, some a, y⟩).modifyAt undefined (some b) (fun c => { c with prev := some h.fresh }) >>=
        fun h' => h'.modify undefined a fun c => { c with next := some h.fresh }) =
        .ok (((h.alloc ⟨some b, some a, y⟩).set b (some ⟨nb, some h.fresh, z⟩)).set a
          (some ⟨some h.fresh, lastOf none l, x⟩)) := by
      rw [modifyAt_some, modify_ok ((alloc_old hblt _).trans hb)]
      exact modify_ok hback _
    refine ⟨_, hrun, rfl, ⟨?_, hnew.1, hnew.2⟩, Nat.le_succ _, ?_⟩
    · refine seg_middle (hl.frame ?_) (set_self ..) ⟨rfl, some b, ?_, rfl, nb, ?_, hm.frame ?_⟩
      · intro c hc
        exact hother c (hllt c hc) (ne_of_mem_of_not_mem hc hal) (ne_of_mem_of_not_mem hc hbl)
      · rw [set_other _ (Nat.ne_of_gt halt), set_other _ (Nat.ne_of_gt hblt)]
        exact alloc_new _ _
      · rw [set_other _ hab.symm]
        exact set_self ..
      · intro c hc
        exact hother c (hmlt c (List.mem_cons_of_mem _ hc)) (ne_of_mem_of_not_mem (List.mem_cons_of_mem _ hc) ham)
          (ne_of_mem_of_not_mem hc hbm)
    · intro c hc hlt
      refine hother c hlt (fun heq => hc (mem_addresses_middle.mpr (.inr (.inl heq)))) (fun heq => hc ?_)
      exact mem_addresses_middle.mpr (.inr (.inr (heq ▸ List.mem_cons_self)))

variable (undefined) in
/-- **A cell behind the last one.** -/
theorem Thread.pushBack {h : Heap α} {start : Option Nat} {l : List (Nat × α)} {a : Nat} {x : α}
    (ht : h.Thread start (l ++ [(a, x)])) (y : α) :
    ∃ h', h.pushBack undefined a y = .ok h' ∧ h'.fresh = h.fresh + 1 ∧
      h'.Thread start (l ++ [(a, x), (h.fresh, y)]) ∧ SameElsewhere h h' (addresses (l ++ [(a, x)])) := by
  obtain ⟨next, hcell, -, hm, -⟩ := ht.split
  cases hm
  have hsame : h.insertAfter undefined a y = h.pushBack undefined a y := by
    unfold Heap.insertAfter
    rw [load_ok hcell]
    rfl
  rw [← hsame]
  exact ht.insertAfter undefined y

/-- The first cell of a thread. -/
theorem Thread.first (h : Heap α) (y : α) :
    (h.alloc ⟨none, none, y⟩).Thread (some h.fresh) [(h.fresh, y)] := by
  refine ⟨⟨rfl, none, alloc_new _ _, rfl⟩, List.nodup_singleton _, ?_⟩
  intro a ha
  rw [List.mem_singleton.mp ha]
  exact Nat.lt_succ_self _

variable (undefined) in
/-- **The item of a cell changed.** -/
theorem Thread.setItem {h : Heap α} {start : Option Nat} {l m : List (Nat × α)} {a : Nat} {x : α}
    (ht : h.Thread start (l ++ (a, x) :: m)) (f : α → α) :
    ∃ h', h.modify undefined a (fun c => { c with item := f c.item }) = .ok h' ∧ h'.fresh = h.fresh ∧
      h'.Thread start (l ++ (a, f x) :: m) ∧ SameElsewhere h h' [a] := by
  obtain ⟨next, hcell, hl, hm, hal, hcons, -⟩ := ht.split
  have haddr : addresses (l ++ (a, f x) :: m) = addresses (l ++ (a, x) :: m) := by
    rw [addresses_append, addresses_append, addresses_cons, addresses_cons]
  refine ⟨_, modify_ok hcell _, rfl, ⟨?_, ?_, ?_⟩, Nat.le_refl _, ?_⟩
  · exact seg_middle (hl.update hal _) (set_self ..) (hm.update (List.nodup_cons.mp hcons).1 _)
  · rw [haddr]
    exact ht.nodup
  · rw [haddr]
    exact ht.below
  · intro b hb _
    exact set_other _ (fun heq => hb (List.mem_singleton.mpr heq)) _

variable (undefined) in
/-- The pointer out of a segment set, through the pointer back to it. -/
theorem modifyAt_lastOf {h : Heap α} {start q : Option Nat} {l : List (Nat × α)} (hseg : Seg h.cells none start l q)
    (hnodup : (addresses l).Nodup) (next : Option Nat) :
    ∃ h', h.modifyAt undefined (lastOf none l) (fun d => { d with next }) = .ok h' ∧ h'.fresh = h.fresh ∧
      Seg h'.cells none (if l = [] then next else start) l next ∧ ∀ a, a ∉ addresses l → h'.cells a = h.cells a := by
  rcases List.eq_nil_or_concat' l with hnil | hconcat
  · subst hnil
    exact ⟨h, rfl, rfl, rfl, fun _ _ => rfl⟩
  · obtain ⟨init, n, rfl⟩ := hconcat
    rcases n with ⟨b, w⟩
    obtain ⟨r, hinit, hr, nb, hcell, -⟩ := seg_append.mp hseg
    cases hr
    have hb : b ∉ addresses init := by
      rw [addresses_append, List.nodup_append] at hnodup
      exact fun hmem => hnodup.2.2 b hmem b List.mem_cons_self rfl
    rw [lastOf_append, if_neg (by simp)]
    refine ⟨_, modify_ok hcell _, rfl, seg_middle (hinit.update hb _) (set_self ..) rfl, ?_⟩
    intro c hc
    exact set_other _ (fun heq => hc (mem_addresses_middle.mpr (.inr (.inl heq)))) _

variable (undefined) in
/-- The pointer back out of a segment set, through the pointer to it; a segment without cells is at the end. -/
theorem modifyAt_start {h : Heap α} {prev next q : Option Nat} {m : List (Nat × α)} (hseg : Seg h.cells prev next m q)
    (hend : m = [] → next = none) (hnodup : (addresses m).Nodup) (prev' : Option Nat) :
    ∃ h', h.modifyAt undefined next (fun d => { d with prev := prev' }) = .ok h' ∧ h'.fresh = h.fresh ∧
      Seg h'.cells prev' next m q ∧ ∀ a, a ∉ addresses m → h'.cells a = h.cells a := by
  cases m with
  | nil =>
    rw [hend rfl] at hseg ⊢
    exact ⟨h, rfl, rfl, hseg, fun _ _ => rfl⟩
  | cons n m =>
    rcases n with ⟨b, z⟩
    obtain ⟨rfl, nb, hcell, hrest⟩ := hseg
    refine ⟨_, modify_ok hcell _, rfl, ⟨rfl, nb, set_self .., hrest.update (List.nodup_cons.mp hnodup).1 _⟩, ?_⟩
    intro c hc
    exact set_other _ (List.ne_of_not_mem_cons hc) _

variable (undefined) in
/-- In a segment that leads to the end. -/
theorem modifyAt_first {h : Heap α} {prev next : Option Nat} {m : List (Nat × α)} (hseg : Seg h.cells prev next m none)
    (hnodup : (addresses m).Nodup) (prev' : Option Nat) :
    ∃ h', h.modifyAt undefined next (fun d => { d with prev := prev' }) = .ok h' ∧ h'.fresh = h.fresh ∧
      Seg h'.cells prev' next m none ∧ ∀ a, a ∉ addresses m → h'.cells a = h.cells a := by
  refine modifyAt_start undefined hseg (fun hnil => ?_) hnodup prev'
  rw [hnil] at hseg
  exact hseg

variable (undefined) in
/-- **A cell taken out of a thread.** -/
theorem Thread.unlink {h : Heap α} {start next prev : Option Nat} {l m : List (Nat × α)} {a : Nat} {x : α}
    (ht : h.Thread start (l ++ (a, x) :: m)) (hcell : h.cells a = some ⟨next, prev, x⟩) :
    ∃ h', h.unlink undefined a = .ok h' ∧ h'.fresh = h.fresh ∧ h'.Thread (if l = [] then next else start) (l ++ m) ∧
      SameElsewhere h h' (addresses (l ++ (a, x) :: m)) := by
  obtain ⟨next', hcell', hl, hm, hal, hcons, hlm⟩ := ht.split
  obtain ⟨ham, hmnodup⟩ := List.nodup_cons.mp hcons
  have hnodup := ht.nodup
  rw [addresses_append, addresses_cons, List.nodup_middle, List.nodup_cons, List.nodup_append] at hnodup
  rw [hcell] at hcell'
  cases hcell'
  obtain ⟨h1, hrun1, hfresh1, hseg1, hsame1⟩ := modifyAt_lastOf undefined hl hnodup.2.1 next
  have hm1 : Seg h1.cells (some a) next m none := hm.frame fun b hb => hsame1 b fun hbl => hlm hbl hb
  obtain ⟨h2, hrun2, hfresh2, hseg2, hsame2⟩ := modifyAt_first undefined hm1 hmnodup (lastOf none l)
  have hrun : h.unlink undefined a = .ok (h2.free a) := by
    unfold Heap.unlink
    rw [load_ok hcell]
    show (h.modifyAt undefined (lastOf none l) _ >>= _) = _
    rw [hrun1]
    show (h1.modifyAt undefined next _ >>= _) = _
    rw [hrun2]
    rfl
  have hfresh : (h2.free a).fresh = h.fresh := hfresh2.trans hfresh1
  refine ⟨_, hrun, hfresh, ⟨?_, ?_, ?_⟩, Nat.le_of_eq hfresh.symm, ?_⟩
  · refine seg_append.mpr ⟨next, (hseg1.frame ?_).update hal _, hseg2.update ham _⟩
    intro b hb
    exact hsame2 b fun hbm => hlm hb hbm
  · rw [addresses_append, List.nodup_append]
    exact hnodup.2
  · intro b hb
    rw [hfresh]
    apply ht.below
    rw [addresses_append, List.mem_append] at hb
    rcases hb with hb | hb
    · exact mem_addresses_middle.mpr (.inl hb)
    · exact mem_addresses_middle.mpr (.inr (.inr hb))
  · intro b hb _
    have hba : b ≠ a := fun heq => hb (mem_addresses_middle.mpr (.inr (.inl heq)))
    rw [Heap.free, set_other _ hba, hsame2 b fun hbm => hb (mem_addresses_middle.mpr (.inr (.inr hbm))),
      hsame1 b fun hbl => hb (mem_addresses_middle.mpr (.inl hbl))]

/-! ## Both ends -/

variable (undefined) in
def pushFront (h : Heap α) (start : Option Nat) (item : α) : Except ε (Heap α × Nat) :=
  (h.alloc ⟨start, none, item⟩).modifyAt undefined start (fun c => { c with prev := some h.fresh }) >>= fun h' =>
    .ok (h', h.fresh)

variable (undefined) in
/-- The cells from a pointer on freed. -/
def freeFrom : Nat → Heap α → Option Nat → Except ε (Heap α)
  | _, h, none => .ok h
  | 0, _, some _ => .error undefined
  | fuel + 1, h, some a => h.load undefined a >>= fun c => freeFrom fuel (h.free a) c.next

variable (undefined) in
/-- The list ended before a cell, which is freed with those after it. -/
def cutFrom (h : Heap α) (a : Nat) : Except ε (Heap α) :=
  h.load undefined a >>= fun c =>
    h.modifyAt undefined c.prev (fun d => { d with next := none }) >>= fun h' => h'.freeFrom undefined h'.fresh (some a)

variable (undefined) in
/-- **A cell before the first one.** -/
theorem Thread.pushFront {h : Heap α} {start : Option Nat} {l : List (Nat × α)} (ht : h.Thread start l) (y : α) :
    ∃ h', h.pushFront undefined start y = .ok (h', h.fresh) ∧ h'.fresh = h.fresh + 1 ∧
      h'.Thread (some h.fresh) ((h.fresh, y) :: l) := by
  have hnew := Thread.insertFresh (l := []) ht y
  have hnotin : h.fresh ∉ addresses l := (List.nodup_cons.mp hnew.1).1
  have hold : Seg (h.alloc ⟨start, none, y⟩).cells none start l none :=
    ht.seg.frame fun a ha => alloc_old (ht.below a ha) _
  obtain ⟨h', hrun, hfresh, hseg, hsame⟩ := modifyAt_first undefined hold ht.nodup (some h.fresh)
  refine ⟨h', ?_, hfresh, ⟨⟨rfl, start, ?_, hseg⟩, hnew.1, ?_⟩⟩
  · unfold Heap.pushFront
    rw [hrun]
    rfl
  · rw [hsame _ hnotin]
    exact alloc_new _ _
  · intro a ha
    rw [hfresh]
    exact hnew.2 a ha

variable (undefined) in
theorem freeFrom_seg {h : Heap α} {prev p : Option Nat} {m : List (Nat × α)} {fuel : Nat} (hseg : Seg h.cells prev p m none)
    (hnodup : (addresses m).Nodup) (hfuel : m.length ≤ fuel) :
    ∃ h', h.freeFrom undefined fuel p = .ok h' ∧ h'.fresh = h.fresh ∧ (∀ a ∈ addresses m, h'.cells a = none) ∧
      ∀ a, a ∉ addresses m → h'.cells a = h.cells a := by
  induction m generalizing h prev p fuel with
  | nil =>
    cases hseg
    refine ⟨h, by cases fuel <;> rfl, rfl, by simp [addresses], fun _ _ => rfl⟩
  | cons n m ih =>
    rcases n with ⟨a, x⟩
    obtain ⟨rfl, next, hcell, hrest⟩ := hseg
    obtain ⟨ham, hmnodup⟩ := List.nodup_cons.mp hnodup
    cases fuel with
    | zero => cases hfuel
    | succ fuel =>
      obtain ⟨h', hrun, hfresh, hfreed, hsame⟩ :=
        ih (h := h.free a) (hrest.update ham _) hmnodup (Nat.le_of_succ_le_succ hfuel)
      refine ⟨h', ?_, hfresh, ?_, ?_⟩
      · unfold freeFrom
        rw [load_ok hcell]
        exact hrun
      · intro b hb
        rcases List.mem_cons.mp hb with hb | hb
        · rw [hb, hsame a ham]
          exact set_self ..
        · exact hfreed b hb
      · intro b hb
        have hne : b ≠ a := fun heq => hb (heq ▸ List.mem_cons_self)
        rw [hsame b fun hbm => hb (List.mem_cons_of_mem _ hbm)]
        exact set_other _ hne _

/-- No more items than addresses that were handed out. -/
theorem Thread.length_le {h : Heap α} {start : Option Nat} {l : List (Nat × α)} (ht : h.Thread start l) :
    l.length ≤ h.fresh := by
  have hsub : addresses l ⊆ List.range h.fresh := fun a ha => List.mem_range.mpr (ht.below a ha)
  have hlen := (ht.nodup.subperm hsub).length_le
  simpa [addresses] using hlen

variable (undefined) in
/-- **A thread cut off**: what is before the cell is left, and the rest is freed. -/
theorem Thread.cutFrom {h : Heap α} {start : Option Nat} {l m : List (Nat × α)} {a : Nat} {x : α}
    (ht : h.Thread start (l ++ (a, x) :: m)) :
    ∃ h', h.cutFrom undefined a = .ok h' ∧ h'.Thread (if l = [] then none else start) l ∧
      ∀ b ∈ addresses ((a, x) :: m), h'.cells b = none := by
  obtain ⟨next, hcell, hl, hm, hal, hcons, hlm⟩ := ht.split
  have hnodup := ht.nodup
  have hlen := ht.length_le
  rw [List.length_append] at hlen
  rw [addresses_append, List.nodup_append] at hnodup
  obtain ⟨h1, hrun1, hfresh1, hseg1, hsame1⟩ := modifyAt_lastOf undefined hl hnodup.1 none
  have hcut : Seg h1.cells (lastOf none l) (some a) ((a, x) :: m) none := by
    refine ⟨rfl, next, (hsame1 a hal).trans hcell, hm.frame fun b hb => hsame1 b fun hbl => hlm hbl hb⟩
  obtain ⟨h2, hrun2, hfresh2, hfreed, hsame2⟩ := freeFrom_seg undefined hcut hcons (show _ ≤ h1.fresh by omega)
  have hapart : ∀ b ∈ addresses l, b ∉ addresses ((a, x) :: m) := fun b hb hb' => hnodup.2.2 b hb b hb' rfl
  refine ⟨h2, ?_, ⟨hseg1.frame fun b hb => hsame2 b (hapart b hb), hnodup.1, ?_⟩, hfreed⟩
  · unfold Heap.cutFrom
    rw [load_ok hcell]
    show (h.modifyAt undefined (lastOf none l) _ >>= _) = _
    rw [hrun1]
    exact hrun2
  · intro b hb
    rw [hfresh2, hfresh1]
    exact ht.below b (mem_addresses_middle.mpr (.inl hb))

/-! ## Copies -/

variable (undefined) in
/-- The cells from an address on copied to fresh addresses, first to last. -/
def copyFrom (f : α → α) : Nat → Heap α → Nat → Except ε (Heap α × Nat)
  | 0, _, _ => .error undefined
  | fuel + 1, h, a =>
    h.load undefined a >>= fun c =>
      let h' := h.alloc ⟨none, none, f c.item⟩
      match c.next with
      | none => .ok (h', h.fresh)
      | some b =>
        copyFrom f fuel h' b >>= fun r =>
          r.1.modify undefined h.fresh (fun d => { d with next := some r.2 }) >>= fun h' =>
            h'.modify undefined r.2 (fun d => { d with prev := some h.fresh }) >>= fun h' => .ok (h', h.fresh)

def copies (f : α → α) : Nat → List (Nat × α) → List (Nat × α)
  | _, [] => []
  | fresh, n :: l => (fresh, f n.2) :: copies f (fresh + 1) l

theorem copies_ge {f : α → α} {fresh : Nat} {l : List (Nat × α)} : ∀ a ∈ addresses (copies f fresh l), fresh ≤ a := by
  induction l generalizing fresh with
  | nil =>
    intro a ha
    cases ha
  | cons n l ih =>
    intro a ha
    rcases List.mem_cons.mp ha with ha | ha
    · exact Nat.le_of_eq ha.symm
    · exact Nat.le_of_succ_le (ih a ha)

theorem copies_lt {f : α → α} {fresh : Nat} {l : List (Nat × α)} : ∀ a ∈ addresses (copies f fresh l),
    a < fresh + l.length := by
  induction l generalizing fresh with
  | nil =>
    intro a ha
    cases ha
  | cons n l ih =>
    intro a ha
    rw [List.length_cons]
    rcases List.mem_cons.mp ha with ha | ha
    · rw [ha]
      omega
    · have hlt := ih a ha
      omega

theorem copies_nodup (f : α → α) (fresh : Nat) (l : List (Nat × α)) : (addresses (copies f fresh l)).Nodup := by
  induction l generalizing fresh with
  | nil => exact .nil
  | cons n l ih => exact List.nodup_cons.mpr ⟨fun hmem => Nat.not_succ_le_self _ (copies_ge _ hmem), ih _⟩

theorem copies_items (f : α → α) (fresh : Nat) (l : List (Nat × α)) :
    (copies f fresh l).map Prod.snd = l.map fun n => f n.2 := by
  induction l generalizing fresh with
  | nil => rfl
  | cons n l ih => exact congrArg _ (ih _)

variable (undefined) in
/-- **The copies are a thread of their own.** -/
theorem copyFrom_seg {h : Heap α} {prev : Option Nat} {l : List (Nat × α)} {a fuel : Nat} (f : α → α)
    (hseg : Seg h.cells prev (some a) l none) (hbelow : ∀ b ∈ addresses l, b < h.fresh) (hfuel : l.length ≤ fuel) :
    ∃ h', copyFrom undefined f fuel h a = .ok (h', h.fresh) ∧ h'.fresh = h.fresh + l.length ∧
      Seg h'.cells none (some h.fresh) (copies f h.fresh l) none ∧ ∀ b < h.fresh, h'.cells b = h.cells b := by
  induction l generalizing h prev a fuel with
  | nil => cases hseg
  | cons n l ih =>
    rcases n with ⟨a', x⟩
    obtain ⟨hp, next, hcell, hrest⟩ := hseg
    cases hp
    cases fuel with
    | zero => cases hfuel
    | succ fuel =>
      unfold copyFrom
      rw [load_ok hcell]
      cases l with
      | nil =>
        cases hrest
        exact ⟨_, rfl, rfl, ⟨rfl, none, alloc_new _ _, rfl⟩, fun b hb => alloc_old hb _⟩
      | cons m l =>
        rcases m with ⟨b, z⟩
        have hnext := hrest.1
        subst hnext
        have hold : ∀ c < h.fresh, (h.alloc ⟨none, none, f x⟩).cells c = h.cells c := fun c hc => alloc_old hc _
        have hrec := ih (h := h.alloc ⟨none, none, f x⟩)
          (hrest.frame fun c hc => hold c (hbelow c (List.mem_cons_of_mem _ hc)))
          (fun c hc => Nat.lt_succ_of_lt (hbelow c (List.mem_cons_of_mem _ hc))) (Nat.le_of_succ_le_succ hfuel)
        obtain ⟨h2, hrun, hfresh, hcopied, hsame⟩ := hrec
        have hnew : h.fresh ∉ addresses (copies f (h.fresh + 1) ((b, z) :: l)) :=
          fun hmem => Nat.not_succ_le_self _ (copies_ge _ hmem)
        have hcell2 : h2.cells h.fresh = some ⟨none, none, f x⟩ :=
          (hsame h.fresh (Nat.lt_succ_self _)).trans (alloc_new _ _)
        have hlinked : Seg (h2.set h.fresh (some ⟨some (h.fresh + 1), none, f x⟩)).cells none (some (h.fresh + 1))
            (copies f (h.fresh + 1) ((b, z) :: l)) none := hcopied.update hnew _
        obtain ⟨h4, hrun4, hfresh4, hseg4, hsame4⟩ := modifyAt_first undefined hlinked
          (copies_nodup f _ _) (some h.fresh)
        have hend : (copyFrom undefined f fuel (h.alloc ⟨none, none, f x⟩) b >>= fun r =>
            r.1.modify undefined h.fresh (fun d => { d with next := some r.2 }) >>= fun h' =>
              h'.modify undefined r.2 (fun d => { d with prev := some h.fresh }) >>= fun h' => .ok (h', h.fresh)) =
            .ok (h4, h.fresh) := by
          rw [hrun]
          show (h2.modify undefined h.fresh _ >>= _) = _
          rw [modify_ok hcell2]
          show (Heap.modifyAt undefined (h2.set h.fresh (some ⟨some (h.fresh + 1), none, f x⟩))
            (some (h.fresh + 1)) _ >>= _) = _
          rw [hrun4]
          rfl
        have hfresh' : h4.fresh = h.fresh + ((a, x) :: (b, z) :: l).length := by
          rw [hfresh4]
          refine hfresh.trans ?_
          show h.fresh + 1 + _ = _
          simp only [List.length_cons]
          omega
        refine ⟨h4, hend, hfresh', ⟨rfl, some (h.fresh + 1), ?_, hseg4⟩, ?_⟩
        · rw [hsame4 _ hnew]
          exact set_self ..
        · intro c hc
          have hcopy : c ∉ addresses (copies f (h.fresh + 1) ((b, z) :: l)) := by
            intro hmem
            have hge := copies_ge _ hmem
            omega
          rw [hsame4 _ hcopy, set_other _ (Nat.ne_of_lt hc), hsame _ (Nat.lt_succ_of_lt hc), hold _ hc]

end Heap

end Katana.Lib

/-
  Katana.Lib.Chain — hash chains: the entries of all buckets are one doubly linked list, in which an array
  points to the first entry of each bucket.

  The comparison of keys can itself fail. A removed entry stays in the array; its bucket is no longer live.

  Proved, for every heap, hash function and comparison:
  - `Holds.find_eq`: a lookup compares with the entries of the key's bucket, in the order they were inserted.
  - `Holds.insert` / `Holds.overwrite` / `Holds.remove` / `Holds.duplicate` / `Holds.collect`: what each operation
    leaves of a chain, and that it leaves every other cell.
  - `Holds.insert_told` / `Holds.get_told`: a key that could be inserted is found.
-/
import Katana.Lib.Thread
import Katana.Lib.Grouped
import Mathlib.Data.List.Perm.Subperm

namespace Katana.Lib

structure Hashing (K ε : Type) where
  hash : K → Nat
  same : K → K → Except ε Bool
  undefined : ε
  assertion : ε

structure Entry (K V : Type) where
  key : K
  data : V
  hash : Nat

structure Chain where
  buckets : Nat → Option Nat
  numBuckets : Nat
  start : Option Nat
  last : Option Nat
  size : Nat

namespace Chain
variable {K V ε : Type} (κ : Hashing K ε)

def create (numBuckets : Nat) : Chain := ⟨fun _ => none, numBuckets, none, none, 0⟩

def bucketOf (c : Chain) (key : K) : Nat := κ.hash key % c.numBuckets

/-- Along the entries of a bucket; there is fuel for every address that was handed out. -/
def findFrom (h : Heap (Entry K V)) (key : K) (b : Nat) : Nat → Nat → Except ε (Option Nat)
  | 0, _ => .error κ.undefined
  | fuel + 1, a =>
    h.load κ.undefined a >>= fun c =>
      κ.same key c.item.key >>= fun same =>
        if same then .ok (some a)
        else
          match c.next with
          | none => .ok none
          | some next =>
            h.load κ.undefined next >>= fun d => if b = d.item.hash then findFrom h key b fuel next else .ok none

def find (h : Heap (Entry K V)) (c : Chain) (key : K) : Except ε (Option Nat) :=
  match c.buckets (bucketOf κ c key) with
  | none => .ok none
  | some a => findFrom κ h key (bucketOf κ c key) h.fresh a

def contains (h : Heap (Entry K V)) (c : Chain) (key : K) : Except ε Bool := find κ h c key >>= fun found => .ok found.isSome

def get (h : Heap (Entry K V)) (c : Chain) (key : K) : Except ε (Option V) :=
  find κ h c key >>= fun found =>
    match found with
    | none => .ok none
    | some a => h.load κ.undefined a >>= fun d => .ok (some d.item.data)

/-- To the last entry of a bucket; the key must not be that of an entry behind the first. -/
def lastOfRun (h : Heap (Entry K V)) (key : K) (b : Nat) : Nat → Nat → Except ε Nat
  | 0, _ => .error κ.undefined
  | fuel + 1, a =>
    h.load κ.undefined a >>= fun c =>
      match c.next with
      | none => .ok a
      | some next =>
        h.load κ.undefined next >>= fun d =>
          if d.item.hash = b then
            κ.same d.item.key key >>= fun same => if same then .error κ.assertion else lastOfRun h key b fuel next
          else .ok a

/-- A new entry at the end, with which its bucket begins. -/
def insertFirst (h : Heap (Entry K V)) (c : Chain) (entry : Entry K V) : Except ε (Heap (Entry K V) × Chain) :=
  let buckets := Function.update c.buckets entry.hash (some h.fresh)
  match c.start with
  | none => .ok (h.alloc ⟨none, c.last, entry⟩, ⟨buckets, c.numBuckets, some h.fresh, some h.fresh, c.size + 1⟩)
  | some start =>
    match c.last with
    | none => .error κ.undefined
    | some last =>
      h.pushBack κ.undefined last entry >>= fun h' => .ok (h', ⟨buckets, c.numBuckets, some start, some h.fresh, c.size + 1⟩)

/-- A new entry behind the last one of its bucket. -/
def insertBehind (h : Heap (Entry K V)) (c : Chain) (first : Nat) (entry : Entry K V) :
    Except ε (Heap (Entry K V) × Chain) :=
  lastOfRun κ h entry.key entry.hash h.fresh first >>= fun parent =>
    h.insertAfter κ.undefined parent entry >>= fun h' =>
      .ok (h', { c with last := if c.last = some parent then some h.fresh else c.last, size := c.size + 1 })

def insert (h : Heap (Entry K V)) (c : Chain) (key : K) (data : V) : Except ε (Heap (Entry K V) × Chain) :=
  find κ h c key >>= fun found =>
    if found.isSome then .error κ.assertion
    else
      match c.buckets (bucketOf κ c key) with
      | none => insertFirst κ h c ⟨key, data, bucketOf κ c key⟩
      | some first => insertBehind κ h c first ⟨key, data, bucketOf κ c key⟩

/-- An entry overwritten where there is one for the key; otherwise the key is inserted. -/
def assign (overwrite : Entry K V → Entry K V) (insert : Except ε (Heap (Entry K V) × Chain))
    (h : Heap (Entry K V)) (c : Chain)
    (key : K) : Except ε (Heap (Entry K V) × Chain) :=
  find κ h c key >>= fun found =>
    match found with
    | none => insert
    | some a => h.modify κ.undefined a (fun d => { d with item := overwrite d.item }) >>= fun h => .ok (h, c)

/-- The first entry of the key's bucket taken out; the array still points to it. -/
def remove (h : Heap (Entry K V)) (c : Chain) (key : K) : Except ε (Heap (Entry K V) × Chain × Bool) :=
  match c.buckets (bucketOf κ c key) with
  | none => .ok (h, c, false)
  | some a =>
    h.load κ.undefined a >>= fun d =>
      h.unlink κ.undefined a >>= fun h =>
        .ok (h, { c with start := if c.start = some a then d.next else c.start,
                         last := if c.last = some a then d.prev else c.last,
                         size := c.size - 1 }, true)

/-- The array filled, and the last entry found. -/
def fillBuckets (h : Heap (Entry K V)) : Nat → Option Nat → (Nat → Option Nat) → Option Nat →
    Except ε ((Nat → Option Nat) × Option Nat)
  | _, none, buckets, prev => .ok (buckets, prev)
  | 0, some _, _, _ => .error κ.undefined
  | fuel + 1, some a, buckets, _ =>
    h.load κ.undefined a >>= fun d =>
      fillBuckets h fuel d.next
        (if (buckets d.item.hash).isNone then Function.update buckets d.item.hash (some a) else buckets) (some a)

def duplicate (copy : V → V) (h : Heap (Entry K V)) (c : Chain) : Except ε (Heap (Entry K V) × Chain) :=
  (match c.start with
    | none => .ok (h, none)
    | some a => h.copyFrom κ.undefined (fun e => { e with data := copy e.data }) h.fresh a >>= fun r => .ok (r.1, some r.2))
  >>= fun r =>
    fillBuckets κ r.1 r.1.fresh r.2 (fun _ => none) none >>= fun filled =>
      .ok (r.1, ⟨filled.1, c.numBuckets, r.2, filled.2, c.size⟩)

/-- What the entries hold, from the start on. -/
def collect {β : Type} (f : Entry K V → β) (h : Heap (Entry K V)) : Nat → Option Nat → Except ε (List β)
  | _, none => .ok []
  | 0, some _ => .error κ.undefined
  | fuel + 1, some a => h.load κ.undefined a >>= fun d => collect f h fuel d.next >>= fun rest => .ok (f d.item :: rest)

/-! ## What a chain holds -/

abbrev Entries (K V : Type) := List (Nat × Entry K V)

def entryHash (n : Nat × Entry K V) : Nat := n.2.hash

def bucketEntries (b : Nat) (l : Entries K V) : Entries K V := group entryHash b l

/-- A chain leads through the entries, each bucket's together, and its array points to the first ones. -/
structure Holds (h : Heap (Entry K V)) (c : Chain) (live : Nat → Prop) (l : Entries K V) : Prop where
  thread : h.Thread c.start l
  last : c.last = lastOf none l
  hashed : ∀ n ∈ l, n.2.hash = bucketOf κ c n.2.key
  grouped : Grouped entryHash l
  buckets : ∀ b, live b → c.buckets b = ((bucketEntries b l).head?).map Prod.fst
  size : c.size = l.length

/-- The lookup in a bucket's entries. -/
def findIn (key : K) : Entries K V → Except ε (Option Nat)
  | [] => .ok none
  | n :: l => κ.same key n.2.key >>= fun same => if same then .ok (some n.1) else findIn key l

def checkIn (key : K) : Entries K V → Except ε Unit
  | [] => .ok ()
  | n :: l => κ.same n.2.key key >>= fun same => if same then .error κ.assertion else checkIn key l

variable {κ} {h : Heap (Entry K V)} {c : Chain} {live : Nat → Prop} {l : Entries K V}

theorem Holds.create (h : Heap (Entry K V)) (numBuckets : Nat) : Holds κ h (create numBuckets) live [] := by
  refine ⟨⟨rfl, .nil, ?_⟩, rfl, ?_, trivial, fun _ _ => rfl, rfl⟩
  · intro a ha
    cases ha
  · intro n hn
    cases hn

theorem Holds.frame {h' : Heap (Entry K V)} (hc : Holds κ h c live l) (hfresh : h.fresh ≤ h'.fresh)
    (hsame : ∀ a ∈ addresses l, h'.cells a = h.cells a) : Holds κ h' c live l :=
  { hc with thread := hc.thread.frame hfresh hsame }


theorem load_at {h : Heap (Entry K V)} {a : Nat} {c : Cell (Entry K V)} (hc : h.cells a = some c) {β : Type}
    (f : Cell (Entry K V) → Except ε β) : (h.load κ.undefined a >>= f) = f c := by
  rw [Heap.load_ok hc]
  rfl

theorem findFrom_seg {prev : Option Nat} {a fuel : Nat} {x : Entry K V} {l : Entries K V} (key : K) (b : Nat)
    (hseg : Seg h.cells prev (some a) ((a, x) :: l) none) (hfuel : l.length < fuel) :
    findFrom κ h key b fuel a = findIn κ key ((a, x) :: l.takeWhile fun n => entryHash n == b) := by
  induction l generalizing prev a x fuel with
  | nil =>
    obtain ⟨-, next, hcell, hnext⟩ := hseg
    cases hnext
    cases fuel with
    | zero => cases hfuel
    | succ fuel =>
      unfold findFrom
      rw [load_at hcell]
      rfl
  | cons n l ih =>
    rcases n with ⟨a', y⟩
    obtain ⟨-, next, hcell, hrest⟩ := hseg
    have hnext := hrest.1
    subst hnext
    obtain ⟨-, next', hcell', -⟩ := id hrest
    cases fuel with
    | zero => cases hfuel
    | succ fuel =>
      unfold findFrom findIn
      rw [load_at hcell]
      congr 1
      funext same
      cases same with
      | true => rfl
      | false =>
        simp only [Bool.false_eq_true, if_false]
        rw [load_at hcell']
        by_cases hb : b = y.hash
        · have htake : (entryHash (a', y) == b) = true := beq_iff_eq.mpr hb.symm
          rw [if_pos hb, ih hrest (Nat.lt_of_succ_lt_succ hfuel), List.takeWhile_cons, if_pos htake]
        · have htake : ¬ (entryHash (a', y) == b) = true := fun h => hb (beq_iff_eq.mp h).symm
          rw [if_neg hb, List.takeWhile_cons, if_neg htake]
          rfl

/-- The bucket's entries in the thread. -/
theorem bucket_split {b : Nat} {l : Entries K V} (hgrouped : Grouped entryHash l) {n : Nat × Entry K V} {rest : Entries K V}
    (hbucket : bucketEntries b l = n :: rest) :
    ∃ pre post, l = pre ++ n :: post ∧ (post.takeWhile fun m => entryHash m == b) = rest ∧ entryHash n = b := by
  have hmem : n ∈ bucketEntries b l := by
    rw [hbucket]
    exact List.mem_cons_self
  have hn := (mem_group.mp hmem).2
  obtain ⟨pre, post, hl, hpre, -, hpost⟩ := List.filter_eq_cons_iff.mp hbucket
  refine ⟨pre, post, hl, ?_, hn⟩
  rw [hl] at hgrouped
  have htake := hgrouped.of_append.takeWhile_eq
  rw [hn] at htake
  exact htake.trans hpost

/-- **A lookup compares with the entries of the key's bucket, first to last.** -/
theorem Holds.find_eq (hc : Holds κ h c live l) {key : K} (hlive : live (bucketOf κ c key)) :
    find κ h c key = findIn κ key (bucketEntries (bucketOf κ c key) l) := by
  unfold find
  rw [hc.buckets _ hlive]
  cases hbucket : bucketEntries (bucketOf κ c key) l with
  | nil => rfl
  | cons n rest =>
    rcases n with ⟨a, x⟩
    obtain ⟨pre, post, hl, htake, -⟩ := bucket_split hc.grouped hbucket
    have hthread := hc.thread
    rw [hl] at hthread
    obtain ⟨r, -, hseg⟩ := seg_append.mp hthread.seg
    have hr := hseg.1
    subst hr
    have hlen := hthread.length_le
    rw [List.length_append, List.length_cons] at hlen
    show findFrom κ h key _ _ a = _
    rw [findFrom_seg key _ hseg (by omega), htake]

theorem lastOfRun_seg {prev : Option Nat} {a fuel : Nat} {x : Entry K V} {l : Entries K V} (key : K) (b : Nat)
    (hseg : Seg h.cells prev (some a) ((a, x) :: l) none) (hfuel : l.length < fuel) :
    lastOfRun κ h key b fuel a = checkIn κ key (l.takeWhile fun n => entryHash n == b) >>= fun _ =>
      .ok (((a, x) :: l.takeWhile fun n => entryHash n == b).getLast (List.cons_ne_nil _ _)).1 := by
  induction l generalizing prev a x fuel with
  | nil =>
    obtain ⟨-, next, hcell, hnext⟩ := hseg
    cases hnext
    cases fuel with
    | zero => cases hfuel
    | succ fuel =>
      unfold lastOfRun
      rw [load_at hcell]
      rfl
  | cons n l ih =>
    rcases n with ⟨a', y⟩
    obtain ⟨-, next, hcell, hrest⟩ := hseg
    have hnext := hrest.1
    subst hnext
    obtain ⟨-, next', hcell', -⟩ := id hrest
    cases fuel with
    | zero => cases hfuel
    | succ fuel =>
      unfold lastOfRun
      rw [load_at hcell]
      simp only
      rw [load_at hcell']
      by_cases hb : y.hash = b
      · have htake : (entryHash (a', y) == b) = true := beq_iff_eq.mpr hb
        simp only [hb, if_true, List.takeWhile_cons, htake, checkIn]
        rw [bind_assoc]
        congr 1
        funext same
        cases same with
        | true => rfl
        | false =>
          simp only [Bool.false_eq_true, if_false]
          rw [ih hrest (Nat.lt_of_succ_lt_succ hfuel)]
          rfl
      · have htake : ¬ (entryHash (a', y) == b) = true := fun h => hb (beq_iff_eq.mp h)
        simp only [hb, if_false, List.takeWhile_cons, htake]
        rfl

/-! ## Insertions -/

/-- The last of a bucket's entries in the thread. -/
theorem last_split {b : Nat} {l init : Entries K V} {z : Nat × Entry K V} (hbucket : bucketEntries b l = init ++ [z]) :
    ∃ pre post, l = pre ++ z :: post ∧ entryHash z = b ∧ ∀ y ∈ post, entryHash y ≠ b := by
  obtain ⟨l1, l2, hl, -, hl2⟩ := List.filter_eq_append_iff.mp hbucket
  obtain ⟨pre, post, hl2, -, hz, hpost⟩ := List.filter_eq_cons_iff.mp hl2
  refine ⟨l1 ++ pre, post, ?_, beq_iff_eq.mp hz, group_eq_nil.mp hpost⟩
  rw [hl, hl2, List.append_assoc]

theorem lastOf_mem (prev : Option Nat) (n : Nat × Entry K V) (l : Entries K V) :
    ∃ a ∈ addresses (n :: l), lastOf prev (n :: l) = some a := by
  induction l generalizing prev n with
  | nil => exact ⟨n.1, List.mem_cons_self, rfl⟩
  | cons m l ih =>
    obtain ⟨a, ha, hlast⟩ := ih (some n.1) m
    exact ⟨a, List.mem_cons_of_mem _ ha, hlast⟩

/-- A thread ends at its first cell when there is no other. -/
theorem lastOf_ne_first {a : Nat} {x : Entry K V} {m : Nat × Entry K V} {post : Entries K V}
    (h : (addresses ((a, x) :: m :: post)).Nodup) : lastOf (some a) (m :: post) ≠ some a := by
  obtain ⟨b, hb, hlastOf⟩ := lastOf_mem (some a) m post
  rw [hlastOf]
  intro heq
  cases heq
  exact (List.nodup_cons.mp h).1 hb

/-- What an insertion leaves. -/
structure Inserted (κ : Hashing K ε) (h : Heap (Entry K V)) (c : Chain) (live : Nat → Prop) (l : Entries K V)
    (entry : Entry K V) (r : Heap (Entry K V) × Chain) : Prop where
  holds : Holds κ r.1 r.2 live (insertRun entryHash (h.fresh, entry) l)
  numBuckets : r.2.numBuckets = c.numBuckets
  fresh : r.1.fresh = h.fresh + 1
  same : h.SameElsewhere r.1 (addresses l)

/-- The array after an insertion. -/
theorem buckets_insertRun (hc : Holds κ h c live l) (n : Nat × Entry K V) {b : Nat} (hb : live b) :
    (if bucketEntries (entryHash n) l = [] then Function.update c.buckets (entryHash n) (some n.1) else c.buckets) b =
      ((bucketEntries b (insertRun entryHash n l)).head?).map Prod.fst := by
  unfold bucketEntries
  rw [group_insertRun]
  by_cases hn : entryHash n = b
  · subst hn
    rw [if_pos rfl]
    split
    · rename_i hempty
      rw [hempty, Function.update_self]
      rfl
    · rename_i hsome
      rw [hc.buckets _ hb, List.head?_append_of_ne_nil _ hsome]
      rfl
  · have hold := hc.buckets b hb
    unfold bucketEntries at hold
    rw [if_neg hn, List.append_nil, ← hold]
    split
    · exact Function.update_of_ne (Ne.symm hn) ..
    · rfl

theorem hashed_insertRun (hc : Holds κ h c live l) {c' : Chain} (hnum : c'.numBuckets = c.numBuckets) {n : Nat × Entry K V}
    (hn : n.2.hash = bucketOf κ c n.2.key) : ∀ m ∈ insertRun entryHash n l, m.2.hash = bucketOf κ c' m.2.key := by
  intro m hm
  unfold bucketOf
  rw [hnum]
  rcases List.mem_cons.mp ((insertRun_perm n l).mem_iff.mp hm) with hm | hm
  · rw [hm]
    exact hn
  · exact hc.hashed m hm

theorem Holds.insertFirst (hc : Holds κ h c live l) {entry : Entry K V} (hentry : entry.hash = bucketOf κ c entry.key)
    (hempty : bucketEntries entry.hash l = []) :
    ∃ r, Chain.insertFirst κ h c entry = .ok r ∧ Inserted κ h c live l entry r := by
  have hrun : insertRun entryHash (h.fresh, entry) l = l ++ [(h.fresh, entry)] := insertRun_end (group_eq_nil.mp hempty)
  have hbuckets : ∀ b, live b → Function.update c.buckets entry.hash (some h.fresh) b =
      ((bucketEntries b (insertRun entryHash (h.fresh, entry) l)).head?).map Prod.fst := by
    intro b hb
    have harray := buckets_insertRun hc (h.fresh, entry) hb
    rw [if_pos (show bucketEntries (entryHash (h.fresh, entry)) l = [] from hempty)] at harray
    exact harray
  unfold Chain.insertFirst
  rcases List.eq_nil_or_concat' l with hnil | hconcat
  · subst hnil
    have hstart : c.start = none := hc.thread.seg
    have hlast : c.last = none := hc.last
    have hsize : c.size = 0 := hc.size
    rw [hstart, hlast]
    refine ⟨_, rfl, ⟨⟨Heap.Thread.first h entry, rfl, hashed_insertRun hc rfl hentry, hc.grouped.insertRun _, hbuckets, ?_⟩,
      rfl, rfl, Nat.le_succ _, fun a _ ha => Heap.alloc_old ha _⟩⟩
    rw [hsize]
    rfl
  · obtain ⟨init, z, rfl⟩ := hconcat
    rcases z with ⟨a, x⟩
    have hlast : c.last = some a := by
      rw [hc.last, lastOf_append]
      rfl
    have hstart : ∃ start, c.start = some start := by
      cases hs : c.start with
      | some start => exact ⟨start, rfl⟩
      | none =>
        have hseg := hc.thread.seg
        rw [hs] at hseg
        cases init with
        | nil => cases hseg.1
        | cons n init => cases hseg.1
    obtain ⟨start, hstart⟩ := hstart
    obtain ⟨h', hpush, hfresh, hthread, hsame⟩ := hc.thread.pushBack κ.undefined entry
    rw [hstart, hlast]
    simp only
    rw [hpush]
    refine ⟨_, rfl, ⟨⟨?_, ?_, hashed_insertRun hc rfl hentry, hc.grouped.insertRun _, hbuckets, ?_⟩, rfl, hfresh, hsame⟩⟩
    · rw [hrun, List.append_assoc]
      rw [hstart] at hthread
      exact hthread
    · rw [hrun, lastOf_append]
      rfl
    · rw [hrun, List.length_append, hc.size]
      rfl

theorem Holds.insertBehind (hc : Holds κ h c live l) {entry : Entry K V} (hentry : entry.hash = bucketOf κ c entry.key)
    {first : Nat × Entry K V} {rest : Entries K V} (hbucket : bucketEntries entry.hash l = first :: rest) :
    ∃ r, Chain.insertBehind κ h c first.1 entry = checkIn κ entry.key rest >>= (fun _ => .ok r) ∧
      Inserted κ h c live l entry r := by
  -- from the first entry of the bucket to the last
  obtain ⟨pre, post, hl, htake, -⟩ := bucket_split hc.grouped hbucket
  have hrun : lastOfRun κ h entry.key entry.hash h.fresh first.1 = checkIn κ entry.key rest >>= fun _ =>
      .ok ((first :: rest).getLast (List.cons_ne_nil _ _)).1 := by
    have hthread := hc.thread
    rw [hl] at hthread
    obtain ⟨r, -, hseg⟩ := seg_append.mp hthread.seg
    have hr := hseg.1
    subst hr
    have hlen := hthread.length_le
    rw [List.length_append, List.length_cons] at hlen
    have hlast : lastOfRun κ h entry.key entry.hash h.fresh first.1 = _ :=
      lastOfRun_seg (x := first.2) entry.key entry.hash hseg (by omega)
    simp only [htake] at hlast
    exact hlast
  -- and the new entry behind it
  obtain ⟨pre, post, hl, hz, hpost⟩ := last_split
    (hbucket.trans (List.dropLast_append_getLast (List.cons_ne_nil first rest)).symm)
  generalize (first :: rest).getLast (List.cons_ne_nil _ _) = z at hrun hl hz
  rcases z with ⟨a, x⟩
  have hinsert : insertRun entryHash (h.fresh, entry) l = pre ++ (a, x) :: (h.fresh, entry) :: post := by
    rw [hl]
    exact insertRun_split hz hpost
  have hthread := hc.thread
  have hlast := hc.last
  rw [hl] at hthread hlast
  obtain ⟨h', hafter, hfresh, hthread', hsame⟩ := hthread.insertAfter κ.undefined entry
  have hbuckets : ∀ b, live b → c.buckets b =
    ((bucketEntries b (insertRun entryHash (h.fresh, entry) l)).head?).map Prod.fst := by
    intro b hb
    have harray := buckets_insertRun hc (h.fresh, entry) hb
    have hsome : ¬ bucketEntries (entryHash (h.fresh, entry)) l = [] := by
      show ¬ bucketEntries entry.hash l = []
      rw [hbucket]
      exact List.cons_ne_nil _ _
    rw [if_neg hsome] at harray
    exact harray
  have hend : (if c.last = some a then some h.fresh else c.last) = lastOf none
    (pre ++ (a, x) :: (h.fresh, entry) :: post) := by
    rw [hlast, lastOf_append, lastOf_append]
    show (if lastOf (some a) post = some a then _ else lastOf (some a) post) = lastOf (some h.fresh) post
    cases post with
    | nil => exact if_pos rfl
    | cons m post =>
      obtain ⟨-, -, -, -, -, hcons, -⟩ := hthread.split
      rw [if_neg (lastOf_ne_first hcons)]
      rfl
  refine ⟨(h', { c with last := if c.last = some a then some h.fresh else c.last, size := c.size + 1 }), ?_,
    ⟨⟨?_, hend.trans (congrArg _ hinsert.symm), hashed_insertRun hc rfl hentry, hc.grouped.insertRun _, hbuckets,
    ?_⟩, rfl, hfresh, ?_⟩⟩
  · unfold Chain.insertBehind
    rw [hrun, bind_assoc]
    congr 1
    funext u
    show (h.insertAfter κ.undefined a entry >>= _) = _
    rw [hafter]
    rfl
  · rw [hinsert]
    exact hthread'
  · show c.size + 1 = _
    rw [hc.size, (insertRun_perm _ _).length_eq]
    rfl
  · rw [hl]
    exact hsame

/-- **An insertion**: the key is compared with the entries of its bucket, and the new entry goes behind them. -/
theorem Holds.insert (hc : Holds κ h c live l) {key : K} (hlive : live (bucketOf κ c key)) (data : V) :
    ∃ r, Chain.insert κ h c key data = (findIn κ key (bucketEntries (bucketOf κ c key) l) >>= fun found =>
        if found.isSome then .error κ.assertion
        else checkIn κ key (bucketEntries (bucketOf κ c key) l).tail >>= fun _ => .ok r) ∧
      Inserted κ h c live l ⟨key, data, bucketOf κ c key⟩ r := by
  have hentry : (Entry.mk key data (bucketOf κ c key)).hash = bucketOf κ c key := rfl
  unfold Chain.insert
  rw [hc.find_eq hlive, hc.buckets _ hlive]
  cases hbucket : bucketEntries (bucketOf κ c key) l with
  | nil =>
    obtain ⟨r, hr, hinserted⟩ := hc.insertFirst hentry hbucket
    exact ⟨r, congrArg _ (funext fun found => by rw [← hr]; rfl), hinserted⟩
  | cons first rest =>
    obtain ⟨r, hr, hinserted⟩ := hc.insertBehind hentry hbucket
    exact ⟨r, congrArg _ (funext fun found => by rw [List.tail_cons, ← hr]; rfl), hinserted⟩

/-! ## Lookups, assignments and removals -/

def lookupIn (κ : Hashing K ε) (key : K) : Entries K V → Except ε (Option V)
  | [] => .ok none
  | n :: l => κ.same key n.2.key >>= fun same => if same then .ok (some n.2.data) else lookupIn κ key l

theorem Holds.get (hc : Holds κ h c live l) {key : K} (hlive : live (bucketOf κ c key)) :
    Chain.get κ h c key = lookupIn κ key (bucketEntries (bucketOf κ c key) l) := by
  have hcells : ∀ n ∈ bucketEntries (bucketOf κ c key) l, ∃ next prev, h.cells n.1 = some ⟨next, prev, n.2⟩ :=
    fun n hn => hc.thread.seg.mem (mem_group.mp hn).1
  unfold Chain.get
  rw [hc.find_eq hlive]
  generalize bucketEntries (bucketOf κ c key) l = entries at hcells
  induction entries with
  | nil => rfl
  | cons n rest ih =>
    obtain ⟨next, prev, hcell⟩ := hcells n List.mem_cons_self
    unfold findIn lookupIn
    rw [bind_assoc]
    congr 1
    funext same
    cases same with
    | true =>
      show (h.load κ.undefined n.1 >>= _) = _
      rw [load_at hcell]
      rfl
    | false => exact ih fun m hm => hcells m (List.mem_cons_of_mem _ hm)

/-- **An entry overwritten** in its bucket. -/
theorem Holds.overwrite {pre post : Entries K V} {a : Nat} {x : Entry K V} (hc : Holds κ h c live (pre ++ (a, x) :: post))
    {f : Entry K V → Entry K V} (hhash : (f x).hash = x.hash) (hkey : (f x).hash = bucketOf κ c (f x).key) :
    ∃ h', h.modify κ.undefined a (fun d => { d with item := f d.item }) = .ok h' ∧ h'.fresh = h.fresh ∧
      Holds κ h' c live (pre ++ (a, f x) :: post) ∧ h.SameElsewhere h' [a] := by
  have hmap : (pre ++ (a, f x) :: post).map (fun n => (n.1, entryHash n)) = (pre ++ (a, x) :: post).map fun n =>
    (n.1, entryHash n) := by
    simp [entryHash, hhash]
  obtain ⟨h', hrun, hfresh, hthread, hsame⟩ := hc.thread.setItem κ.undefined f
  refine ⟨h', hrun, hfresh, ⟨hthread, ?_, ?_, ?_, ?_, ?_⟩, hsame⟩
  · rw [hc.last, lastOf_append, lastOf_append]
    rfl
  · intro n hn
    rcases List.mem_append.mp hn with hn | hn
    · exact hc.hashed n (List.mem_append_left _ hn)
    · rcases List.mem_cons.mp hn with hn | hn
      · rw [hn]
        exact hkey
      · exact hc.hashed n (List.mem_append_right _ (List.mem_cons_of_mem _ hn))
  · have hgrouped := (grouped_map (f := Prod.snd) (fun n => (n.1, entryHash n)) (pre ++ (a, x) :: post)).mpr hc.grouped
    rw [← hmap] at hgrouped
    exact (grouped_map (f := Prod.snd) (fun n => (n.1, entryHash n)) _).mp hgrouped
  · intro b hb
    rw [hc.buckets b hb]
    have hgroup := congrArg (fun l => (group Prod.snd b l).head?.map Prod.fst) hmap
    simp only [group_map, List.head?_map, Option.map_map] at hgroup
    exact hgroup.symm
  · rw [hc.size]
    simp

/-- **The first entry of a bucket removed**, with which the bucket is no longer live. -/
theorem Holds.remove (hc : Holds κ h c live l) {key : K} (hlive : live (bucketOf κ c key)) {first : Nat × Entry K V}
    {rest : Entries K V} (hbucket : bucketEntries (bucketOf κ c key) l = first :: rest) :
    ∃ h' c' pre post, l = pre ++ first :: post ∧ Chain.remove κ h c key = .ok (h', c', true) ∧ h'.fresh = h.fresh ∧
      c'.numBuckets = c.numBuckets ∧ Holds κ h' c' (fun b => live b ∧ b ≠ bucketOf κ c key) (pre ++ post) ∧
      h.SameElsewhere h' (addresses l) := by
  obtain ⟨pre, post, hl, -, hfirst⟩ := bucket_split hc.grouped hbucket
  rcases first with ⟨a, x⟩
  subst hl
  obtain ⟨next, hcell, hseg, hrest, ha, hcons, -⟩ := hc.thread.split
  obtain ⟨h', hrun, hfresh, hthread, hsame⟩ := hc.thread.unlink κ.undefined hcell
  refine ⟨h', { c with start := if c.start = some a then next else c.start,
                       last := if c.last = some a then lastOf none pre else c.last,
                       size := c.size - 1 },
    pre, post, rfl, ?_, hfresh, rfl, ⟨?_, ?_, ?_, hc.grouped.erase, ?_, ?_⟩, hsame⟩
  · unfold Chain.remove
    rw [hc.buckets _ hlive, hbucket]
    show (h.load κ.undefined a >>= _) = _
    rw [load_at hcell, hrun]
    rfl
  · have hstart : (if c.start = some a then next else c.start) = if pre = [] then next else c.start := by
      cases pre with
      | nil => rw [if_pos rfl, if_pos (show c.start = some a from hseg)]
      | cons n pre =>
        have hne : ¬ c.start = some a := by
          rw [hseg.1]
          intro heq
          cases heq
          exact ha List.mem_cons_self
        rw [if_neg hne, if_neg (List.cons_ne_nil _ _)]
    rw [hstart]
    exact hthread
  · show (if c.last = some a then _ else c.last) = _
    rw [hc.last, lastOf_append, lastOf_append]
    show (if lastOf (some a) post = some a then _ else lastOf (some a) post) = _
    cases post with
    | nil => exact if_pos rfl
    | cons m post =>
      rw [if_neg (lastOf_ne_first hcons)]
      rfl
  · intro n hn
    rcases List.mem_append.mp hn with hn | hn
    · exact hc.hashed n (List.mem_append_left _ hn)
    · exact hc.hashed n (List.mem_append_right _ (List.mem_cons_of_mem _ hn))
  · intro b hb
    show c.buckets b = _
    have hne : ¬ entryHash (a, x) = b := fun heq => hb.2 (heq.symm.trans hfirst)
    rw [hc.buckets b hb.1]
    unfold bucketEntries
    rw [group_append, group_append]
    unfold group
    rw [List.filter_cons_of_neg (by simpa using hne)]
  · show c.size - 1 = _
    rw [hc.size, List.length_append, List.length_append, List.length_cons]
    omega

/-! ## Copies and listings -/

theorem collect_seg {β : Type} (f : Entry K V → β) {prev p : Option Nat} {l : Entries K V} {fuel : Nat}
    (hseg : Seg h.cells prev p l none) (hfuel : l.length ≤ fuel) :
    collect κ f h fuel p = .ok (l.map fun n => f n.2) := by
  induction l generalizing prev p fuel with
  | nil =>
    cases hseg
    cases fuel <;> rfl
  | cons n l ih =>
    rcases n with ⟨a, x⟩
    obtain ⟨hp, next, hcell, hrest⟩ := hseg
    subst hp
    cases fuel with
    | zero => cases hfuel
    | succ fuel =>
      unfold collect
      rw [load_at hcell, ih hrest (Nat.le_of_succ_le_succ hfuel)]
      rfl

/-- **A listing** of what the entries hold. -/
theorem Holds.collect {β : Type} (hc : Holds κ h c live l) (f : Entry K V → β) :
    Chain.collect κ f h h.fresh c.start = .ok (l.map fun n => f n.2) :=
  collect_seg f hc.thread.seg hc.thread.length_le

theorem fillBuckets_seg {prev p : Option Nat} {l : Entries K V} {fuel : Nat} (hseg : Seg h.cells prev p l none)
    (hfuel : l.length ≤ fuel) (buckets : Nat → Option Nat) :
    fillBuckets κ h fuel p buckets prev =
      .ok (fun b => (buckets b).or ((bucketEntries b l).head?.map Prod.fst), lastOf prev l) := by
  induction l generalizing prev p fuel buckets with
  | nil =>
    cases hseg
    have hsame : (fun b => (buckets b).or ((bucketEntries b ([] : Entries K V)).head?.map Prod.fst)) = buckets := by
      funext b
      exact Option.or_none
    rw [hsame]
    cases fuel <;> rfl
  | cons n l ih =>
    rcases n with ⟨a, x⟩
    obtain ⟨hp, next, hcell, hrest⟩ := hseg
    subst hp
    cases fuel with
    | zero => cases hfuel
    | succ fuel =>
      unfold fillBuckets
      rw [load_at hcell, ih hrest (Nat.le_of_succ_le_succ hfuel)]
      congr 2
      funext b
      unfold bucketEntries group
      by_cases hb : x.hash = b
      · subst hb
        rw [List.filter_cons_of_pos (by simp [entryHash])]
        cases hbuckets : buckets x.hash with
        | none => simp
        | some first => simp [hbuckets]
      · rw [List.filter_cons_of_neg (by simpa [entryHash] using hb)]
        split
        · rw [Function.update_of_ne (Ne.symm hb)]
        · rfl

def copiedEntries (copy : V → V) (fresh : Nat) (l : Entries K V) : Entries K V :=
  Heap.copies (fun e => { e with data := copy e.data }) fresh l

theorem copiedEntries_items (copy : V → V) (fresh : Nat) (l : Entries K V) :
    (copiedEntries copy fresh l).map Prod.snd = l.map fun n => { n.2 with data := copy n.2.data } :=
  Heap.copies_items _ fresh l

theorem length_copiedEntries (copy : V → V) (fresh : Nat) (l : Entries K V) :
    (copiedEntries copy fresh l).length = l.length := by
  have hlen := congrArg List.length (copiedEntries_items copy fresh l)
  simpa using hlen

theorem hashed_copiedEntries (hc : Holds κ h c live l) (copy : V → V) (fresh : Nat) :
    ∀ n ∈ copiedEntries copy fresh l, n.2.hash = bucketOf κ c n.2.key := by
  intro n hn
  have hmem := List.mem_map_of_mem (f := Prod.snd) hn
  rw [copiedEntries_items] at hmem
  obtain ⟨m, hm, hentry⟩ := List.mem_map.mp hmem
  rw [← hentry]
  exact hc.hashed m hm

theorem grouped_copiedEntries (hgrouped : Grouped entryHash l) (copy : V → V) (fresh : Nat) :
    Grouped entryHash (copiedEntries copy fresh l) := by
  apply (grouped_map (f := Entry.hash) Prod.snd _).mp
  rw [copiedEntries_items]
  exact (grouped_map (f := Entry.hash) _ l).mpr hgrouped

/-- The copied cells. -/
theorem copy_thread {start : Option Nat} (ht : h.Thread start l) (copy : V → V) :
    ∃ h' start', (match start with
        | none => .ok (h, none)
        | some a => h.copyFrom κ.undefined (fun e => { e with data := copy e.data }) h.fresh a >>= fun r =>
            .ok (r.1, some r.2)) =
        Except.ok (h', start') ∧
      h'.Thread start' (copiedEntries copy h.fresh l) ∧ h.SameElsewhere h' [] := by
  cases l with
  | nil =>
    have hstart : start = none := ht.seg
    subst hstart
    exact ⟨h, none, rfl, ht, Nat.le_refl _, fun _ _ _ => rfl⟩
  | cons n l =>
    have hstart := ht.seg.1
    subst hstart
    obtain ⟨h', hrun, hfresh, hseg, hsame⟩ := Heap.copyFrom_seg κ.undefined
      (fun e : Entry K V => { e with data := copy e.data })
      ht.seg ht.below ht.length_le
    refine ⟨h', some h.fresh, ?_, ⟨hseg, Heap.copies_nodup _ _ _, ?_⟩, ?_, fun a _ ha => hsame a ha⟩
    · show (h.copyFrom κ.undefined _ _ _ >>= _) = _
      rw [hrun]
      rfl
    · intro a ha
      rw [hfresh]
      exact Heap.copies_lt a ha
    · rw [hfresh]
      exact Nat.le_add_right _ _

/-- **A duplicate**: the copied entries in their order, at fresh addresses. -/
theorem Holds.duplicate (hc : Holds κ h c live l) (copy : V → V) :
    ∃ h' c', Chain.duplicate κ copy h c = .ok (h', c') ∧ c'.numBuckets = c.numBuckets ∧
      Holds κ h' c' (fun _ => True) (copiedEntries copy h.fresh l) ∧ h.SameElsewhere h' [] := by
  obtain ⟨h', start, hcopy, hthread, hsame⟩ := copy_thread (κ := κ) hc.thread copy
  have hfill := fillBuckets_seg (κ := κ) hthread.seg (hthread.length_le) (fun _ => none)
  refine ⟨h', ⟨fun b => none.or ((bucketEntries b (copiedEntries copy h.fresh l)).head?.map Prod.fst), c.numBuckets, start,
    lastOf none (copiedEntries copy h.fresh l), c.size⟩, ?_, rfl, ⟨hthread, ?_, ?_, ?_, ?_, ?_⟩, hsame⟩
  · unfold Chain.duplicate
    rw [hcopy]
    show (fillBuckets κ h' h'.fresh start (fun _ => none) none >>= _) = _
    rw [hfill]
    rfl
  · rfl
  · exact hashed_copiedEntries hc copy _
  · exact grouped_copiedEntries hc.grouped copy _
  · intro b _
    exact Option.none_or
  · show c.size = _
    rw [hc.size, length_copiedEntries]

/-! ## What is stored under a key -/

section
variable [DecidableEq K]

def entryOf (l : Entries K V) (key : K) : Option (Nat × Entry K V) := l.find? fun n => n.2.key = key

def lookup (l : Entries K V) (key : K) : Option V := (entryOf l key).map fun n => n.2.data

def keysOf (l : Entries K V) : List K := l.map fun n => n.2.key

/-- Up to the key's own entry, the comparison tells the keys apart. -/
def Tells (κ : Hashing K ε) (key : K) : Entries K V → Prop
  | [] => True
  | n :: l => if n.2.key = key then κ.same key n.2.key = .ok true else κ.same key n.2.key = .ok false ∧ Tells κ key l

theorem findIn_tells {key : K} (h : Tells κ key l) : findIn κ key l = .ok ((entryOf l key).map Prod.fst) := by
  induction l with
  | nil => rfl
  | cons n l ih =>
    unfold Tells at h
    unfold findIn entryOf
    by_cases hkey : n.2.key = key
    · rw [if_pos hkey] at h
      rw [h, List.find?_cons_of_pos (by simpa using hkey)]
      rfl
    · rw [if_neg hkey] at h
      rw [h.1, List.find?_cons_of_neg (by simpa using hkey)]
      exact ih h.2

theorem lookupIn_tells {key : K} (h : Tells κ key l) : lookupIn κ key l = .ok (lookup l key) := by
  induction l with
  | nil => rfl
  | cons n l ih =>
    unfold Tells at h
    unfold lookupIn lookup entryOf
    by_cases hkey : n.2.key = key
    · rw [if_pos hkey] at h
      rw [h, List.find?_cons_of_pos (by simpa using hkey)]
      rfl
    · rw [if_neg hkey] at h
      rw [h.1, List.find?_cons_of_neg (by simpa using hkey)]
      exact ih h.2

/-- A key's entry is in its bucket. -/
theorem entryOf_group {b : Nat} {key : K} (hbucket : ∀ n ∈ l, n.2.key = key → entryHash n = b) :
    entryOf (bucketEntries b l) key = entryOf l key := by
  unfold entryOf bucketEntries group
  induction l with
  | nil => rfl
  | cons n l ih =>
    have hrest := ih fun m hm => hbucket m (List.mem_cons_of_mem _ hm)
    by_cases hkey : n.2.key = key
    · have hn := hbucket n List.mem_cons_self hkey
      simp [hn, hkey]
    · by_cases hb : entryHash n = b
      · simp [hb, hkey, hrest]
      · simp [hb, hkey, hrest]

theorem Holds.entryOf_bucket (hc : Holds κ h c live l) (key : K) :
    entryOf (bucketEntries (bucketOf κ c key) l) key = entryOf l key := by
  apply entryOf_group
  intro n hn hkey
  rw [← hkey]
  exact hc.hashed n hn

theorem entryOf_eq_none_iff {key : K} : entryOf l key = none ↔ key ∉ keysOf l := by
  unfold entryOf keysOf
  simp [List.find?_eq_none]

theorem entryOf_some {key : K} {n : Nat × Entry K V} (hn : entryOf l key = some n) : n ∈ l ∧ n.2.key = key := by
  refine ⟨List.mem_of_find?_eq_some hn, ?_⟩
  simpa using List.find?_some hn

theorem lookup_eq_none_iff {key : K} : lookup l key = none ↔ key ∉ keysOf l :=
  Option.map_eq_none_iff.trans entryOf_eq_none_iff

/-- The bindings of a list of entries. -/
theorem lookup_eq_some_iff (hkeys : (keysOf l).Nodup) {key : K} {data : V} :
    lookup l key = some data ↔ ∃ n ∈ l, n.2.key = key ∧ n.2.data = data := by
  unfold lookup
  rw [Option.map_eq_some_iff]
  refine ⟨?_, ?_⟩
  · intro h
    obtain ⟨n, hn, hdata⟩ := h
    exact ⟨n, (entryOf_some hn).1, (entryOf_some hn).2, hdata⟩
  · intro h
    obtain ⟨n, hn, hkey, hdata⟩ := h
    cases hentry : entryOf l key with
    | none =>
      refine absurd ?_ (entryOf_eq_none_iff.mp hentry)
      rw [← hkey]
      exact List.mem_map_of_mem hn
    | some m =>
      have hm := entryOf_some hentry
      have heq : m = n := List.inj_on_of_nodup_map hkeys hm.1 hn (hm.2.trans hkey.symm)
      exact ⟨m, rfl, heq ▸ hdata⟩

omit [DecidableEq K] in
theorem keysOf_insertRun {n : Nat × Entry K V} (hkeys : (keysOf l).Nodup) (hfresh : n.2.key ∉ keysOf l) :
    (keysOf (insertRun entryHash n l)).Nodup :=
  ((insertRun_perm n l).map _).nodup_iff.mpr (List.nodup_cons.mpr ⟨hfresh, hkeys⟩)

theorem lookup_insertRun {n : Nat × Entry K V} (hkeys : (keysOf l).Nodup) (hfresh : n.2.key ∉ keysOf l) (key : K) :
    lookup (insertRun entryHash n l) key = if key = n.2.key then some n.2.data else lookup l key := by
  apply Option.ext
  intro d
  rw [lookup_eq_some_iff (keysOf_insertRun hkeys hfresh)]
  simp only [(insertRun_perm n l).mem_iff, List.mem_cons]
  by_cases hkey : key = n.2.key
  · rw [if_pos hkey]
    refine ⟨?_, ?_⟩
    · intro h
      obtain ⟨m, hm, hmkey, hdata⟩ := h
      rcases hm with hm | hm
      · rw [← hdata, hm]
      · exact absurd (List.mem_map_of_mem (f := fun n => n.2.key) hm) (by rw [hmkey, hkey]; exact hfresh)
    · intro h
      cases h
      exact ⟨n, .inl rfl, hkey.symm, rfl⟩
  · rw [if_neg hkey, lookup_eq_some_iff hkeys]
    refine ⟨?_, ?_⟩
    · intro h
      obtain ⟨m, hm, hmkey, hdata⟩ := h
      rcases hm with hm | hm
      · rw [hm] at hmkey
        exact absurd hmkey.symm hkey
      · exact ⟨m, hm, hmkey, hdata⟩
    · intro h
      obtain ⟨m, hm, hmkey, hdata⟩ := h
      exact ⟨m, .inr hm, hmkey, hdata⟩

theorem lookup_append (l m : Entries K V) (key : K) : lookup (l ++ m) key = (lookup l key).or (lookup m key) := by
  unfold lookup entryOf
  rw [List.find?_append, Option.map_or]

theorem lookup_cons (n : Nat × Entry K V) (l : Entries K V) (key : K) :
    lookup (n :: l) key = if n.2.key = key then some n.2.data else lookup l key := by
  unfold lookup entryOf
  by_cases hkey : n.2.key = key <;> simp [hkey]

theorem lookup_overwrite {pre post : Entries K V} {a : Nat} {x y : Entry K V}
    (hkeys : (keysOf (pre ++ (a, x) :: post)).Nodup)
    (hkey : y.key = x.key) (key : K) :
    lookup (pre ++ (a, y) :: post) key = if key = x.key then some y.data else lookup (pre ++ (a, x) :: post) key := by
  rw [lookup_append, lookup_append, lookup_cons, lookup_cons]
  by_cases hk : key = x.key
  · have hpre : lookup pre key = none := by
      rw [lookup_eq_none_iff, hk]
      unfold keysOf at hkeys ⊢
      rw [List.map_append, List.map_cons, List.nodup_middle, List.nodup_cons] at hkeys
      exact fun hmem => hkeys.1 (List.mem_append_left _ hmem)
    rw [if_pos hk, if_pos (hkey.trans hk.symm), hpre]
    rfl
  · rw [if_neg hk, if_neg (fun h => hk (h.symm.trans hkey)), if_neg (fun h => hk h.symm)]

theorem lookup_remove {pre post : Entries K V} {n : Nat × Entry K V} (hkeys : (keysOf (pre ++ n :: post)).Nodup) (key : K) :
    lookup (pre ++ post) key = if key = n.2.key then none else lookup (pre ++ n :: post) key := by
  by_cases hk : key = n.2.key
  · rw [if_pos hk, lookup_eq_none_iff, hk]
    unfold keysOf at hkeys ⊢
    rw [List.map_append, List.map_cons, List.nodup_middle, List.nodup_cons, ← List.map_append] at hkeys
    exact hkeys.1
  · rw [if_neg hk, lookup_append, lookup_append, lookup_cons, if_neg fun h => hk h.symm]

omit [DecidableEq K] in
theorem keysOf_copiedEntries (copy : V → V) (fresh : Nat) (l : Entries K V) :
    keysOf (copiedEntries copy fresh l) = keysOf l := by
  have hitems := congrArg (List.map Entry.key) (copiedEntries_items copy fresh l)
  rw [List.map_map, List.map_map] at hitems
  exact hitems

theorem lookup_copiedEntries (copy : V → V) (fresh : Nat) (l : Entries K V) (key : K) :
    lookup (copiedEntries copy fresh l) key = (lookup l key).map copy := by
  unfold copiedEntries
  induction l generalizing fresh with
  | nil => rfl
  | cons n l ih =>
    unfold Heap.copies
    rw [lookup_cons, lookup_cons, ih]
    split <;> rfl

end

/-! ## Keys told apart when they were inserted -/

/-- Every entry was told apart from those before it in its bucket. -/
def ToldApart (κ : Hashing K ε) (l : Entries K V) : Prop :=
  ∀ b, (bucketEntries b l).Pairwise fun m n => κ.same n.2.key m.2.key = .ok false

theorem findIn_none {key : K} (h : findIn κ key l = .ok none) : ∀ n ∈ l, κ.same key n.2.key = .ok false := by
  induction l with
  | nil => simp
  | cons n l ih =>
    unfold findIn at h
    intro m hm
    cases hsame : κ.same key n.2.key with
    | error e =>
      rw [hsame] at h
      cases h
    | ok same =>
      rw [hsame] at h
      cases same with
      | true => cases h
      | false =>
        rcases List.mem_cons.mp hm with rfl | hm
        · exact hsame
        · exact ih h m hm

theorem lookupIn_told {pre post : Entries K V} {n : Nat × Entry K V} (hn : κ.same n.2.key n.2.key = .ok true)
    (hpre : ∀ m ∈ pre, κ.same n.2.key m.2.key = .ok false) :
    lookupIn κ n.2.key (pre ++ n :: post) = .ok (some n.2.data) := by
  induction pre with
  | nil =>
    rw [List.nil_append]
    unfold lookupIn
    rw [hn]
    rfl
  | cons m pre ih =>
    rw [List.cons_append]
    unfold lookupIn
    rw [hpre m List.mem_cons_self]
    exact ih fun m hm => hpre m (List.mem_cons_of_mem _ hm)

/-- **An insertion that succeeds** adds the entry, and tells its key apart from the others of its bucket. -/
theorem Holds.insert_told (hc : Holds κ h c live l) (htold : ToldApart κ l) {key : K} (hlive : live (bucketOf κ c key))
    {data : V} {r : Heap (Entry K V) × Chain} (hrun : Chain.insert κ h c key data = .ok r) :
    ∃ n l', n.2 = ⟨key, data, bucketOf κ c key⟩ ∧ l'.Perm (n :: l) ∧ Holds κ r.1 r.2 live l' ∧ ToldApart κ l' ∧
      ∀ m ∈ bucketEntries (bucketOf κ c key) l, κ.same key m.2.key = .ok false := by
  obtain ⟨r', hins, hinserted⟩ := hc.insert hlive data
  rw [hins] at hrun
  cases hfind : findIn κ key (bucketEntries (bucketOf κ c key) l) with
  | error e =>
    rw [hfind] at hrun
    cases hrun
  | ok found =>
    rw [hfind] at hrun
    cases found with
    | some a => cases hrun
    | none =>
      have hcheck : (checkIn κ key (bucketEntries (bucketOf κ c key) l).tail >>= fun _ => .ok r') = .ok r := hrun
      have hr : r' = r := by
        cases hin : checkIn κ key (bucketEntries (bucketOf κ c key) l).tail with
        | error e =>
          rw [hin] at hcheck
          cases hcheck
        | ok u =>
          rw [hin] at hcheck
          exact Except.ok.inj hcheck
      subst hr
      have hnone := findIn_none hfind
      refine ⟨(h.fresh, ⟨key, data, bucketOf κ c key⟩), _, rfl, insertRun_perm _ _, hinserted.holds, ?_, hnone⟩
      intro b
      unfold bucketEntries
      rw [group_insertRun]
      by_cases hb : entryHash (h.fresh, (⟨key, data, bucketOf κ c key⟩ : Entry K V)) = b
      · rw [if_pos hb]
        refine List.pairwise_append.mpr ⟨htold b, List.pairwise_singleton _ _, ?_⟩
        intro m hm n hn
        rw [List.mem_singleton.mp hn]
        refine hnone m ?_
        rw [← hb] at hm
        exact hm
      · rw [if_neg hb, List.append_nil]
        exact htold b

/-- **An inserted key is found.** -/
theorem Holds.get_told (hc : Holds κ h c live l) (htold : ToldApart κ l) {n : Nat × Entry K V} (hn : n ∈ l)
    (hlive : live (bucketOf κ c n.2.key)) (hsame : κ.same n.2.key n.2.key = .ok true) :
    Chain.get κ h c n.2.key = .ok (some n.2.data) := by
  have hmem : n ∈ bucketEntries (bucketOf κ c n.2.key) l := mem_group.mpr ⟨hn, hc.hashed n hn⟩
  obtain ⟨pre, post, hbucket⟩ := List.append_of_mem hmem
  have htold := htold (bucketOf κ c n.2.key)
  rw [hc.get hlive]
  rw [hbucket] at htold ⊢
  exact lookupIn_told hsame fun m hm => (List.pairwise_append.mp htold).2.2 m hm n List.mem_cons_self

/-- A key that was told apart from its bucket is new. -/
theorem Holds.notin_of_told (hc : Holds κ h c live l) {key : K} (hsame : κ.same key key = .ok true)
    (h : ∀ m ∈ bucketEntries (bucketOf κ c key) l, κ.same key m.2.key = .ok false) : key ∉ keysOf l := by
  intro hmem
  obtain ⟨n, hn, rfl⟩ := List.mem_map.mp hmem
  have hfalse := h n (mem_group.mpr ⟨hn, hc.hashed n hn⟩)
  rw [hsame] at hfalse
  cases hfalse

end Chain

end Katana.Lib

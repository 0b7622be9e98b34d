/-
  Katana.DictionaryNodes — the nodes of dictionaries (util/dictionary.c, hash.c).

  The dictionaries of a run share one heap. A duplicate is a chain of new nodes in it.

  Proved, for every hash function and positive bucket count:
  - `DictRun.tracks`: in every run a dictionary is the finite map of the same operations.
  - `dictionary_refines`: so are its lookups and listings, while the ints of its size do not overflow.
-/
import Katana.CString
import Katana.Fault
import Katana.Lib.Chain
import Mathlib.Tactic.Ring

namespace Katana.Nodes

open Lib

/-- djb2; a `char` is signed. -/
def hash1 (str : CString) : UInt64 :=
  str.bytes.foldl (fun hash c => hash <<< 5 + hash + c.toInt8.toInt64.toUInt64) 5381

/-- The keys are compared by `strcmp`. -/
def strings : Hashing CString Fault where
  hash key := (hash1 key).toNat
  same a b := .ok (decide (a = b))
  undefined := .undefined
  assertion := .assertion

variable {V : Type}

abbrev DNode (V : Type) := Entry CString V

def dictCreate (bucketCnt : Nat) : Chain := .create bucketCnt

/-- `malloc` of the key's copy: its size is an int, from 2^31 on negative and from 2^32 on too small. -/
def keyCopied (key : CString) : Except Fault Unit :=
  if strlen key + 1 < 2 ^ 31 then .ok ()
  else if 2 ^ 31 ≤ (strlen key + 1) % 2 ^ 32 then .error (.death "No enough memory at util/dictionary.c:line 184 ")
  else .error .undefined

def sizeCounted (dict : Chain) : Except Fault Unit := defined (dict.size < 2 ^ 31)

def dictExists (h : Heap (DNode V)) (dict : Chain) (key : CString) : Except Fault Bool := Chain.contains strings h dict key

def dictInsert (h : Heap (DNode V)) (dict : Chain) (key : CString) (value : V) : Except Fault (Heap (DNode V) × Chain) :=
  Chain.insert strings h dict key value >>= fun r => keyCopied key >>= fun _ => sizeCounted r.2 >>= fun _ => .ok r

def dictSet (h : Heap (DNode V)) (dict : Chain) (key : CString) (value : V) : Except Fault (Heap (DNode V) × Chain) :=
  Chain.assign strings (fun node => { node with data := value }) (dictInsert h dict key value) h dict key

def dictGet (h : Heap (DNode V)) (dict : Chain) (key : CString) : Except Fault (Option V) := Chain.get strings h dict key

def dictSize (dict : Chain) : Int32 := Int32.ofNat dict.size

/-- An array of `size+1` elements, filled from the front, with NULL in the last; what is not filled is undefined. -/
def nullTerminated {β : Type} (size : Nat) (items : List β) : Except Fault (List (Option β)) :=
  defined (size + 1 < 2 ^ 31) >>= fun _ => defined (items.length ≤ size + 1) >>= fun _ =>
    defined (size ≤ items.length) >>= fun _ =>
    .ok ((items.take size).map some ++ [none])

def dictKeys (h : Heap (DNode V)) (dict : Chain) : Except Fault (List (Option CString)) :=
  Chain.collect strings Entry.key h h.fresh dict.start >>= nullTerminated dict.size

def dictValues (h : Heap (DNode V)) (dict : Chain) : Except Fault (List (Option V)) :=
  Chain.collect strings Entry.data h h.fresh dict.start >>= nullTerminated dict.size

def dictDuplicate (h : Heap (DNode V)) (dict : Chain) (dataCP : V → V) : Except Fault (Heap (DNode V) × Chain) :=
  Chain.duplicate strings dataCP h dict

/-! ## Runs -/

/-- The dictionaries of a run and the heap their nodes are in. -/
structure Dictionaries (V : Type) where
  heap : Heap (DNode V)
  dicts : List Chain

inductive DictOp (V : Type) where
  | create (bucketCnt : Nat)
  | insert (dict : Nat) (key : CString) (value : V)
  | set (dict : Nat) (key : CString) (value : V)
  | duplicate (dict : Nat) (dataCP : V → V)

def Dictionaries.update (s : Dictionaries V) (i : Nat) (f : Chain → Except Fault (Heap (DNode V) × Chain)) :
    Except Fault (Dictionaries V) :=
  match s.dicts[i]? with
  | none => .error .undefined
  | some dict => f dict >>= fun r => .ok ⟨r.1, s.dicts.set i r.2⟩

def Dictionaries.step (s : Dictionaries V) : DictOp V → Except Fault (Dictionaries V)
  | .create bucketCnt => .ok ⟨s.heap, s.dicts ++ [dictCreate bucketCnt]⟩
  | .insert i key value => s.update i fun dict => dictInsert s.heap dict key value
  | .set i key value => s.update i fun dict => dictSet s.heap dict key value
  | .duplicate i dataCP =>
    match s.dicts[i]? with
    | none => .error .undefined
    | some dict => dictDuplicate s.heap dict dataCP >>= fun r => .ok ⟨r.1, s.dicts ++ [r.2]⟩

def mapStep (ms : List (CString → Option V)) : DictOp V → List (CString → Option V)
  | .create _ => ms ++ [fun _ : CString => (none : Option V)]
  | .insert i key value | .set i key value => ms.modify i fun m => Function.update m key (some value)
  | .duplicate i dataCP => ms ++ (ms[i]?.map fun m key => (m key).map dataCP).toList

/-- A dictionary there is; a positive bucket count; an inserted key is a fresh one. -/
def Allowed (ms : List (CString → Option V)) : DictOp V → Prop
  | .create bucketCnt => 0 < bucketCnt
  | .insert i key _ => ∃ m, ms[i]? = some m ∧ m key = none
  | .set i _ _ => i < ms.length
  | .duplicate i _ => i < ms.length

/-! ## One dictionary -/

section
variable {h : Heap (DNode V)} {dict : Chain} {l : Chain.Entries CString V} {m : CString → Option V}

structure Bound (h : Heap (DNode V)) (dict : Chain) (l : Chain.Entries CString V) (m : CString → Option V) : Prop where
  holds : Chain.Holds strings h dict (fun _ => True) l
  keys : (Chain.keysOf l).Nodup
  maps : ∀ key, Chain.lookup l key = m key
  counted : dict.size + 1 < 2 ^ 31

theorem tells_strings (key : CString) (l : Chain.Entries CString V) : Chain.Tells strings key l := by
  induction l with
  | nil => trivial
  | cons n l ih =>
    unfold Chain.Tells
    by_cases hkey : n.2.key = key
    · rw [if_pos hkey]
      exact congrArg _ (decide_eq_true hkey.symm)
    · rw [if_neg hkey]
      exact ⟨congrArg _ (decide_eq_false fun h => hkey h.symm), ih⟩

theorem checkIn_strings {key : CString} (h : key ∉ Chain.keysOf l) : Chain.checkIn strings key l = .ok () := by
  induction l with
  | nil => rfl
  | cons n l ih =>
    have hne : n.2.key ≠ key := fun heq => h (heq ▸ List.mem_cons_self)
    have hsame : strings.same n.2.key key = .ok false := congrArg _ (decide_eq_false hne)
    unfold Chain.checkIn
    rw [hsame]
    exact ih fun hmem => h (List.mem_cons_of_mem _ hmem)

/-- What an update of a dictionary touches: its own nodes and new ones. -/
structure Updates (h h' : Heap (DNode V)) (l l' : Chain.Entries CString V) : Prop where
  same : h.SameElsewhere h' (addresses l)
  own : ∀ a ∈ addresses l', a ∈ addresses l ∨ h.fresh ≤ a

/-- There is room for the ints of a new binding: the key's size, and the length of an array of all bindings and NULL. -/
def Room (dict : Chain) (key : CString) : Prop := dict.size + 2 < 2 ^ 31 ∧ strlen key + 1 < 2 ^ 31

theorem Bound.find (hb : Bound h dict l m) (key : CString) :
    Chain.find strings h dict key = .ok ((Chain.entryOf l key).map Prod.fst) := by
  rw [hb.holds.find_eq trivial, Chain.findIn_tells (tells_strings key _), hb.holds.entryOf_bucket]

theorem Bound.get (hb : Bound h dict l m) (key : CString) : dictGet h dict key = .ok (m key) := by
  unfold dictGet
  rw [hb.holds.get trivial, Chain.lookupIn_tells (tells_strings key _)]
  unfold Chain.lookup
  rw [hb.holds.entryOf_bucket, ← hb.maps]
  rfl

theorem Bound.contains (hb : Bound h dict l m) (key : CString) : dictExists h dict key = .ok (m key).isSome := by
  unfold dictExists Chain.contains
  rw [hb.find, ← hb.maps]
  unfold Chain.lookup
  rw [bind_ok]
  simp

theorem Bound.insert (hb : Bound h dict l m) {key : CString} (hfresh : m key = none) (hroom : Room dict key) (value : V) :
    ∃ h' dict' l', dictInsert h dict key value = .ok (h', dict') ∧
      Bound h' dict' l' (Function.update m key (some value)) ∧ Updates h h' l l' := by
  have hnotin : key ∉ Chain.keysOf l := Chain.lookup_eq_none_iff.mp ((hb.maps key).trans hfresh)
  have htail : key ∉ Chain.keysOf (Chain.bucketEntries (Chain.bucketOf strings dict key) l).tail := by
    intro hmem
    obtain ⟨n, hn, hkey⟩ := List.mem_map.mp hmem
    exact hnotin (List.mem_map.mpr ⟨n, (mem_group.mp (List.mem_of_mem_tail hn)).1, hkey⟩)
  have hlive : (fun _ : Nat => True) (Chain.bucketOf strings dict key) := trivial
  obtain ⟨r, hrun, hinserted⟩ := hb.holds.insert hlive value
  rcases r with ⟨h', dict'⟩
  rw [Chain.findIn_tells (tells_strings key _), hb.holds.entryOf_bucket, Chain.entryOf_eq_none_iff.mpr hnotin,
    checkIn_strings htail] at hrun
  have hsize : dict'.size = dict.size + 1 := by
    rw [hinserted.holds.size, (insertRun_perm _ l).length_eq, hb.holds.size]
    rfl
  have hcounted : dict'.size + 1 < 2 ^ 31 := by
    rw [hsize]
    exact hroom.1
  refine ⟨h', dict', _, ?_, ⟨hinserted.holds, Chain.keysOf_insertRun hb.keys hnotin, ?_, hcounted⟩, hinserted.same, ?_⟩
  · unfold dictInsert
    rw [hrun]
    show (keyCopied key >>= fun _ => sizeCounted dict' >>= fun _ => _) = _
    unfold keyCopied sizeCounted
    rw [if_pos hroom.2, defined_of (Nat.lt_of_succ_lt hcounted)]
    rfl
  · intro k
    rw [Chain.lookup_insertRun hb.keys hnotin, hb.maps, Function.update_apply]
  · intro a ha
    rcases List.mem_cons.mp (((insertRun_perm (f := Chain.entryHash)
      (h.fresh, _) l).map Prod.fst).mem_iff.mp ha) with ha | ha
    · exact .inr (Nat.le_of_eq ha.symm)
    · exact .inl ha

/-- An assignment to a key there is, or to one there is room for. -/
theorem Bound.set (hb : Bound h dict l m) {key : CString} (hroom : m key = none → Room dict key) (value : V) :
    ∃ h' dict' l', dictSet h dict key value = .ok (h', dict') ∧
      Bound h' dict' l' (Function.update m key (some value)) ∧ Updates h h' l l' := by
  unfold dictSet Chain.assign
  rw [hb.find, bind_ok]
  cases hentry : Chain.entryOf l key with
  | none =>
    have hnone : m key = none := by
      rw [← hb.maps, Chain.lookup_eq_none_iff]
      exact Chain.entryOf_eq_none_iff.mp hentry
    exact hb.insert hnone (hroom hnone) value
  | some n =>
    obtain ⟨hmem, hkey⟩ := Chain.entryOf_some hentry
    obtain ⟨pre, post, rfl⟩ := List.append_of_mem hmem
    rcases n with ⟨a, x⟩
    obtain ⟨h', hrun, hfresh, hholds, hsame⟩ := hb.holds.overwrite (f := fun node => { node with data := value }) rfl
      (hb.holds.hashed _ hmem)
    refine ⟨h', dict, _, ?_, ⟨hholds, ?_, ?_, hb.counted⟩, ⟨hsame.1, ?_⟩, ?_⟩
    · rw [Option.map_some]
      dsimp only
      rw [hrun]
      rfl
    · have hkeys := hb.keys
      unfold Chain.keysOf at hkeys ⊢
      rw [List.map_append, List.map_cons] at hkeys ⊢
      exact hkeys
    · intro k
      have hlookup := Chain.lookup_overwrite hb.keys (y := { x with data := value }) rfl k
      rw [hlookup, hb.maps, Function.update_apply]
      exact if_congr (by rw [← hkey]) rfl rfl
    · intro b hb' hlt
      refine hsame.2 b (fun hmem => hb' ?_) hlt
      rw [List.mem_singleton.mp hmem]
      exact Heap.mem_addresses_middle.mpr (.inr (.inl rfl))
    · intro b hb'
      left
      rw [addresses_append, addresses_cons] at hb' ⊢
      exact hb'

theorem Bound.duplicate (hb : Bound h dict l m) (dataCP : V → V) :
    ∃ h' dict' l', dictDuplicate h dict dataCP = .ok (h', dict') ∧
      Bound h' dict' l' (fun key => (m key).map dataCP) ∧ h.SameElsewhere h' [] ∧ ∀ a ∈ addresses l', h.fresh ≤ a := by
  obtain ⟨h', dict', hrun, -, hholds, hsame⟩ := hb.holds.duplicate dataCP
  refine ⟨h', dict', _, hrun, ⟨hholds, ?_, ?_, ?_⟩, hsame, fun a ha => Heap.copies_ge a ha⟩
  · rw [Chain.keysOf_copiedEntries]
    exact hb.keys
  · intro key
    rw [Chain.lookup_copiedEntries, hb.maps]
  · rw [hholds.size, Chain.length_copiedEntries, ← hb.holds.size]
    exact hb.counted

structure Listing (m : CString → Option V) (bindings : List (CString × V)) : Prop where
  once : (bindings.map Prod.fst).Nodup
  mem_iff : ∀ key value, (key, value) ∈ bindings ↔ m key = some value

theorem nullTerminated_ok {β : Type} {size : Nat} {items : List β} (hsize : size = items.length)
    (hroom : size + 1 < 2 ^ 31) :
    nullTerminated size items = .ok (items.map some ++ [none]) := by
  subst hsize
  unfold nullTerminated
  rw [defined_of hroom, bind_ok, defined_of (Nat.le_succ _), bind_ok, defined_of (Nat.le_refl _), bind_ok, List.take_length]

/-- A dictionary lists its bindings, keys and values in one order. -/
theorem Bound.listing (hb : Bound h dict l m) :
    ∃ bindings, Listing m bindings ∧ (dictSize dict).toInt = bindings.length ∧
      dictKeys h dict = .ok (bindings.map (fun b => some b.1) ++ [none]) ∧
      dictValues h dict = .ok (bindings.map (fun b => some b.2) ++ [none]) := by
  have hsize : dict.size = (l.map fun n => n.2.key).length := by
    rw [hb.holds.size, List.length_map]
  have hsize' : dict.size = (l.map fun n => n.2.data).length := by
    rw [hb.holds.size, List.length_map]
  refine ⟨l.map fun n => (n.2.key, n.2.data), ⟨?_, ?_⟩, ?_, ?_, ?_⟩
  · rw [List.map_map]
    exact hb.keys
  · intro key value
    rw [← hb.maps, Chain.lookup_eq_some_iff hb.keys, List.mem_map]
    simp
  · have hlen : dict.size = (l.map fun n => (n.2.key, n.2.data)).length := by
      rw [hb.holds.size, List.length_map]
    rw [← hlen]
    have hcounted := hb.counted
    unfold dictSize
    rw [Int32.toInt_ofNat', Int32.size, Int.bmod_def]
    omega
  · unfold dictKeys
    rw [hb.holds.collect, bind_ok, nullTerminated_ok hsize hb.counted, List.map_map, List.map_map]
    rfl
  · unfold dictValues
    rw [hb.holds.collect, bind_ok, nullTerminated_ok hsize' hb.counted, List.map_map, List.map_map]
    rfl

end

/-! ## Every run -/

/-- A dictionary with its entries, and the finite map it is. -/
structure Tracked (V : Type) where
  dict : Chain
  entries : Chain.Entries CString V
  map : CString → Option V

/-- The dictionaries of a state are finite maps, in cells of their own. -/
structure Tracks (s : Dictionaries V) (ms : List (CString → Option V)) (ts : List (Tracked V)) : Prop where
  dicts : s.dicts = ts.map Tracked.dict
  maps : ms = ts.map Tracked.map
  bound : ∀ (i : Nat) t, ts[i]? = some t → Bound s.heap t.dict t.entries t.map
  apart : ∀ (i j : Nat) t t', i ≠ j → ts[i]? = some t → ts[j]? = some t' →
    (addresses t.entries).Disjoint (addresses t'.entries)

theorem Bound.frame {h h' : Heap (DNode V)} {dict : Chain} {l : Chain.Entries CString V} {m : CString → Option V}
    (hb : Bound h dict l m) {touched : List Nat} (hsame : h.SameElsewhere h' touched)
    (hapart : (addresses l).Disjoint touched) :
    Bound h' dict l m := by
  refine { hb with holds := hb.holds.frame hsame.1 ?_ }
  intro a ha
  exact hsame.2 a (fun hmem => hapart ha hmem) (hb.holds.thread.below a ha)

section
variable {s : Dictionaries V} {ms : List (CString → Option V)} {ts : List (Tracked V)} {i : Nat}

/-- One of the dictionaries is updated, in its own cells and new ones. -/
theorem Tracks.update (ht : Tracks s ms ts) {t : Tracked V} (hi : ts[i]? = some t) (t' : Tracked V) {h' : Heap (DNode V)}
    (hb : Bound h' t'.dict t'.entries t'.map) (hu : Updates s.heap h' t.entries t'.entries) :
    Tracks ⟨h', s.dicts.set i t'.dict⟩ (ms.set i t'.map) (ts.set i t') := by
  have hcases : ∀ (j : Nat) u, (ts.set i t')[j]? = some u → j = i ∧ u = t' ∨ j ≠ i ∧ ts[j]? = some u := by
    intro j u hj
    rw [List.getElem?_set] at hj
    split at hj
    · split at hj
      · cases hj
        exact .inl ⟨‹i = j›.symm, rfl⟩
      · cases hj
    · exact .inr ⟨fun heq => ‹¬ i = j› heq.symm, hj⟩
  -- another dictionary keeps its cells, and the new ones are not its own
  have hother : ∀ (j : Nat) u, j ≠ i → ts[j]? = some u → (addresses u.entries).Disjoint (addresses t'.entries) := by
    intro j u hne hj a ha ha'
    rcases hu.own a ha' with hown | hnew
    · exact ht.apart j i u t hne hj hi ha hown
    · exact Nat.not_lt.mpr hnew ((ht.bound j u hj).holds.thread.below a ha)
  refine ⟨?_, ?_, ?_, ?_⟩
  · rw [List.map_set, ← ht.dicts]
  · rw [List.map_set, ← ht.maps]
  · intro j u hj
    rcases hcases j u hj with hnew | hold
    · rw [hnew.2]
      exact hb
    · exact (ht.bound j u hold.2).frame hu.same (ht.apart j i u t hold.1 hold.2 hi)
  · intro j k u v hne hj hk
    rcases hcases j u hj with hnew | hold
    · rcases hcases k v hk with hnew' | hold'
      · exact absurd (hnew.1.trans hnew'.1.symm) hne
      · rw [hnew.2]
        exact List.disjoint_symm (hother k v hold'.1 hold'.2)
    · rcases hcases k v hk with hnew' | hold'
      · rw [hnew'.2]
        exact hother j u hold.1 hold.2
      · exact ht.apart j k u v hne hold.2 hold'.2

/-- A new dictionary, in new cells. -/
theorem Tracks.append (ht : Tracks s ms ts) (t' : Tracked V) {h' : Heap (DNode V)} (hb : Bound h' t'.dict t'.entries t'.map)
    (hsame : s.heap.SameElsewhere h' []) (hnew : ∀ a ∈ addresses t'.entries, s.heap.fresh ≤ a) :
    Tracks ⟨h', s.dicts ++ [t'.dict]⟩ (ms ++ [t'.map]) (ts ++ [t']) := by
  have hcases : ∀ (j : Nat) u, (ts ++ [t'])[j]? = some u → u = t' ∧ j = ts.length ∨ ts[j]? = some u := by
    intro j u hj
    rw [List.getElem?_append] at hj
    split at hj
    · exact .inr hj
    · obtain ⟨hlt, hu⟩ := List.getElem?_eq_some_iff.mp hj
      have hzero : j - ts.length = 0 := Nat.lt_one_iff.mp hlt
      left
      refine ⟨?_, by omega⟩
      rw [← hu]
      simp
  have hother : ∀ (j : Nat) u, ts[j]? = some u → (addresses u.entries).Disjoint (addresses t'.entries) := by
    intro j u hj a ha ha'
    exact Nat.not_lt.mpr (hnew a ha') ((ht.bound j u hj).holds.thread.below a ha)
  refine ⟨?_, ?_, ?_, ?_⟩
  · rw [List.map_append, ← ht.dicts]
    rfl
  · rw [List.map_append, ← ht.maps]
    rfl
  · intro j u hj
    rcases hcases j u hj with hlast | hold
    · rw [hlast.1]
      exact hb
    · exact (ht.bound j u hold).frame hsame (List.disjoint_nil_right _)
  · intro j k u v hne hj hk
    rcases hcases j u hj with hlast | hold
    · rcases hcases k v hk with hlast' | hold'
      · exact absurd (hlast.2.trans hlast'.2.symm) hne
      · rw [hlast.1]
        exact List.disjoint_symm (hother k v hold')
    · rcases hcases k v hk with hlast' | hold'
      · rw [hlast'.1]
        exact hother j u hold
      · exact ht.apart j k u v hne hold hold'

end

def noDictionaries : Dictionaries V := ⟨⟨fun _ => none, 0⟩, []⟩

/-- The states of a run whose steps meet a condition, with the finite maps of the same operations. -/
inductive DictRun (condition : Dictionaries V → List (CString → Option V) → DictOp V → Prop) :
    Dictionaries V → List (CString → Option V) → Prop
  | start : DictRun condition noDictionaries []
  | step {s s' : Dictionaries V} {ms : List (CString → Option V)} {op : DictOp V} : DictRun condition s ms → Allowed ms op →
    condition s ms op → s.step op = .ok s' → DictRun condition s' (mapStep ms op)

def RoomFor (s : Dictionaries V) (ms : List (CString → Option V)) : DictOp V → Prop
  | .insert i key _ => ∀ dict, s.dicts[i]? = some dict → Room dict key
  | .set i key _ => ∀ dict m, s.dicts[i]? = some dict → ms[i]? = some m → m key = none → Room dict key
  | _ => True

/-- The lookups and listings of every dictionary are those of its finite map. -/
structure Agrees (s : Dictionaries V) (ms : List (CString → Option V)) : Prop where
  count : s.dicts.length = ms.length
  get : ∀ (i : Nat) dict m, s.dicts[i]? = some dict → ms[i]? = some m → ∀ key, dictGet s.heap dict key = .ok (m key)
  contains : ∀ (i : Nat) dict m, s.dicts[i]? = some dict → ms[i]? = some m → ∀ key,
    dictExists s.heap dict key = .ok (m key).isSome
  listing : ∀ (i : Nat) dict m, s.dicts[i]? = some dict → ms[i]? = some m → ∃ bindings, Listing m bindings ∧
    (dictSize dict).toInt = bindings.length ∧
    dictKeys s.heap dict = .ok (bindings.map (fun b => some b.1) ++ [none]) ∧
    dictValues s.heap dict = .ok (bindings.map (fun b => some b.2) ++ [none])

section
variable {s : Dictionaries V} {ms : List (CString → Option V)} {ts : List (Tracked V)}

/-- A dictionary and its finite map are at one place. -/
theorem Tracks.at (ht : Tracks s ms ts) {i : Nat} {m : CString → Option V} (hm : ms[i]? = some m) :
    ∃ t, ts[i]? = some t ∧ s.dicts[i]? = some t.dict ∧ t.map = m := by
  rw [ht.maps, List.getElem?_map, Option.map_eq_some_iff] at hm
  obtain ⟨t, hi, hmap⟩ := hm
  refine ⟨t, hi, ?_, hmap⟩
  rw [ht.dicts, List.getElem?_map, hi]
  rfl

/-- An operation on one of the dictionaries is that on its finite map. -/
theorem Tracks.updated (ht : Tracks s ms ts) {i : Nat} {t : Tracked V} (hi : ts[i]? = some t)
    {f : Chain → Except Fault (Heap (DNode V) × Chain)} {g : (CString → Option V) → CString → Option V}
    (hf : ∃ h' dict' l', f t.dict = .ok (h', dict') ∧ Bound h' dict' l' (g t.map) ∧ Updates s.heap h' t.entries l') :
    ∃ s' ts', s.update i f = .ok s' ∧ Tracks s' (ms.modify i g) ts' := by
  obtain ⟨h', dict', l', hrun, hb, hu⟩ := hf
  have hdict : s.dicts[i]? = some t.dict := by
    rw [ht.dicts, List.getElem?_map, hi]
    rfl
  have hmap : ms[i]? = some t.map := by
    rw [ht.maps, List.getElem?_map, hi]
    rfl
  have hmodify : ms.modify i g = ms.set i (g t.map) := by
    rw [List.modify_eq_set_getElem?, hmap]
    rfl
  refine ⟨⟨h', s.dicts.set i dict'⟩, ts.set i ⟨dict', l', g t.map⟩, ?_, ?_⟩
  · unfold Dictionaries.update
    rw [hdict]
    dsimp only
    rw [hrun]
    rfl
  · rw [hmodify]
    exact ht.update hi ⟨dict', l', g t.map⟩ hb hu

/-- **What one operation preserves.** -/
theorem Tracks.step (ht : Tracks s ms ts) {op : DictOp V} (hallowed : Allowed ms op) (hroom : RoomFor s ms op) :
    ∃ s' ts', s.step op = .ok s' ∧ Tracks s' (mapStep ms op) ts' := by
  cases op with
  | create bucketCnt =>
    have hnew : Bound s.heap (dictCreate bucketCnt) [] (fun _ : CString => (none : Option V)) :=
      ⟨.create _ _, .nil, fun _ => rfl, Nat.one_lt_two_pow (by decide)⟩
    exact ⟨_, _, rfl, ht.append ⟨_, _, _⟩ hnew ⟨Nat.le_refl _, fun _ _ _ => rfl⟩ (by simp [addresses])⟩
  | insert i key value =>
    obtain ⟨m, hm, hfresh⟩ := hallowed
    obtain ⟨t, hi, hdict, hmap⟩ := ht.at hm
    subst hmap
    exact ht.updated hi ((ht.bound i t hi).insert hfresh (hroom _ hdict) value)
  | set i key value =>
    obtain ⟨t, hi, hdict, hmap⟩ := ht.at (List.getElem?_eq_getElem hallowed)
    exact ht.updated hi ((ht.bound i t hi).set (hroom _ _ hdict (hmap ▸ List.getElem?_eq_getElem hallowed)) value)
  | duplicate i dataCP =>
    have hm := List.getElem?_eq_getElem hallowed
    obtain ⟨t, hi, hdict, hmap⟩ := ht.at hm
    obtain ⟨h', dict', l', hrun, hb, hsame, hnew⟩ := (ht.bound i t hi).duplicate dataCP
    refine ⟨⟨h', s.dicts ++ [dict']⟩, ts ++ [⟨dict', l', fun key => (t.map key).map dataCP⟩], ?_, ?_⟩
    · simp only [Dictionaries.step, hdict, hrun]
      rfl
    · simp only [mapStep, hm, ← hmap]
      exact ht.append ⟨dict', l', _⟩ hb hsame hnew

/-- **What a run preserves.** -/
theorem DictRun.tracks (h : DictRun RoomFor s ms) : ∃ ts, Tracks s ms ts := by
  induction h with
  | start => exact ⟨[], rfl, rfl, fun _ _ h => by simp at h, fun _ _ _ _ _ h => by simp at h⟩
  | step _ hallowed hroom hstep ih =>
    obtain ⟨ts, ht⟩ := ih
    obtain ⟨s', ts', hstep', ht'⟩ := ht.step hallowed hroom
    rw [hstep] at hstep'
    cases hstep'
    exact ⟨ts', ht'⟩

theorem Tracks.agrees (ht : Tracks s ms ts) : Agrees s ms := by
  have hbound : ∀ (i : Nat) dict m, s.dicts[i]? = some dict → ms[i]? = some m → ∃ l, Bound s.heap dict l m := by
    intro i dict m hdict hm
    obtain ⟨t, hi, hd, hmap⟩ := ht.at hm
    rw [hd] at hdict
    cases hdict
    rw [← hmap]
    exact ⟨t.entries, ht.bound i t hi⟩
  refine ⟨?_, ?_, ?_, ?_⟩
  · rw [ht.dicts, ht.maps, List.length_map, List.length_map]
  · intro i dict m hdict hm key
    obtain ⟨l, hb⟩ := hbound i dict m hdict hm
    exact hb.get key
  · intro i dict m hdict hm key
    obtain ⟨l, hb⟩ := hbound i dict m hdict hm
    exact hb.contains key
  · intro i dict m hdict hm
    obtain ⟨l, hb⟩ := hbound i dict m hdict hm
    exact hb.listing

end

/-- **Dictionaries are finite maps**: in every run, while there is room for the ints. -/
theorem dictionary_refines {s : Dictionaries V} {ms : List (CString → Option V)} (h : DictRun RoomFor s ms) :
    Agrees s ms ∧ ∀ op, Allowed ms op → RoomFor s ms op → ∃ s', s.step op = .ok s' := by
  obtain ⟨ts, ht⟩ := h.tracks
  refine ⟨ht.agrees, ?_⟩
  intro op hallowed hroom
  obtain ⟨s', ts', hstep, -⟩ := ht.step hallowed hroom
  exact ⟨s', hstep⟩

def keyA : CString := ⟨[97], by decide⟩

def keyB : CString := ⟨[98], by decide⟩

/-- A dictionary of one bucket with one key. -/
theorem inserted_keyA : ∃ s : Dictionaries Nat,
    Dictionaries.step ⟨noDictionaries.heap, [dictCreate 1]⟩ (.insert 0 keyA 7) = .ok s ∧
      ∀ dict, s.dicts[0]? = some dict → dict.size = 1 := by
  refine ⟨_, rfl, ?_⟩
  intro dict hdict
  cases hdict
  rfl

def twoKeys : CString → Option Nat := Function.update (Function.update (fun _ => none) keyA (some 7)) keyB (some 8)

/-- Both are in one bucket; in a duplicate one of them is set, and the original keeps its own. -/
theorem duplicateSet_refines : ∃ s : Dictionaries Nat,
    DictRun RoomFor s [twoKeys, Function.update (fun key => (twoKeys key).map id) keyA (some 9)] ∧
      Agrees s [twoKeys, Function.update (fun key => (twoKeys key).map id) keyA (some 9)] := by
  have hcreated : DictRun RoomFor (V := Nat) ⟨noDictionaries.heap, [dictCreate 1]⟩ [fun _ => none] :=
    .step .start (show Allowed [] (DictOp.create 1 : DictOp Nat) from Nat.one_pos) trivial rfl
  have hroom : RoomFor (V := Nat) ⟨noDictionaries.heap, [dictCreate 1]⟩ [fun _ => none] (.insert 0 keyA 7) := by
    intro dict hdict
    cases hdict
    exact ⟨by decide, by decide⟩
  obtain ⟨s1, hs1, hsize⟩ := inserted_keyA
  have hfresh : Allowed [fun _ => none] (DictOp.insert 0 keyA 7) := ⟨_, rfl, rfl⟩
  have hone : DictRun RoomFor s1 [Function.update (fun _ => none) keyA (some 7)] := .step hcreated hfresh hroom hs1
  have hroom' : RoomFor s1 [Function.update (fun _ => none) keyA (some 7)] (.insert 0 keyB 8) := by
    intro dict hdict
    refine ⟨?_, by decide⟩
    rw [hsize dict hdict]
    decide
  have hfresh' : Allowed [Function.update (fun _ => none) keyA (some 7)] (DictOp.insert 0 keyB 8) := ⟨_, rfl, rfl⟩
  obtain ⟨s2, hs2⟩ := (dictionary_refines hone).2 _ hfresh' hroom'
  have htwo : DictRun RoomFor s2 [twoKeys] := .step hone hfresh' hroom' hs2
  have hallowed : Allowed [twoKeys] (DictOp.duplicate 0 id) := Nat.one_pos
  obtain ⟨s3, hs3⟩ := (dictionary_refines htwo).2 _ hallowed trivial
  have hduplicated : DictRun RoomFor s3 [twoKeys, fun key => (twoKeys key).map id] := .step htwo hallowed trivial hs3
  have hroom'' : RoomFor s3 [twoKeys, fun key => (twoKeys key).map id] (.set 1 keyA 9) := by
    intro dict m _ hm hnone
    cases hm
    exact absurd hnone (by decide)
  have hallowed' : Allowed [twoKeys, fun key => (twoKeys key).map id] (DictOp.set 1 keyA 9) := (by decide : 1 < 2)
  obtain ⟨s4, hs4⟩ := (dictionary_refines hduplicated).2 _ hallowed' hroom''
  have hrun : DictRun RoomFor s4 [twoKeys, Function.update (fun key => (twoKeys key).map id) keyA (some 9)] :=
    .step hduplicated hallowed' hroom'' hs4
  exact ⟨s4, hrun, (dictionary_refines hrun).1⟩

def hugeKey : CString := ⟨List.replicate 2147483647 97, fun h => absurd (List.eq_of_mem_replicate h) (by decide)⟩

theorem keyCopied_huge : ∃ e, keyCopied hugeKey = .error e := by
  have hlen : strlen hugeKey + 1 = 2147483648 := congrArg (· + 1) List.length_replicate
  unfold keyCopied
  rw [hlen]
  exact ⟨_, rfl⟩

/-- Its insertion does not come to an end. -/
theorem not_dictionary_refines : ¬ ∀ (s : Dictionaries Unit) (ms : List (CString → Option Unit)),
    DictRun (fun _ _ _ => True) s ms → Agrees s ms ∧ ∀ op, Allowed ms op → ∃ s', s.step op = .ok s' := by
  intro h
  have hallowed : Allowed [] (DictOp.create 1 : DictOp Unit) := Nat.one_pos
  have hcreated : DictRun (V := Unit) (fun _ _ _ => True) ⟨noDictionaries.heap, [dictCreate 1]⟩ [fun _ => none] :=
    .step .start hallowed trivial rfl
  obtain ⟨s', hs'⟩ := (h _ _ hcreated).2 (.insert 0 hugeKey ()) ⟨_, rfl, rfl⟩
  obtain ⟨e, he⟩ := keyCopied_huge
  have hfind : Chain.find strings (noDictionaries (V := Unit)).heap (dictCreate 1) hugeKey = .ok none := by
    unfold Chain.find
    rfl
  have hinserted : ∃ r, Chain.insert strings noDictionaries.heap (dictCreate 1) hugeKey () = .ok r := by
    unfold Chain.insert
    rw [hfind]
    exact ⟨_, rfl⟩
  obtain ⟨r, hr⟩ := hinserted
  have hfault : dictInsert noDictionaries.heap (dictCreate 1) hugeKey () = .error e := by
    unfold dictInsert
    rw [hr, bind_ok, he]
    rfl
  unfold Dictionaries.step Dictionaries.update at hs'
  simp only [List.getElem?_cons_zero] at hs'
  rw [hfault] at hs'
  cases hs'

end Katana.Nodes

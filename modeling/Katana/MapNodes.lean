/-
  Katana.MapNodes — the nodes of maps with int, uint and size_t keys (util/map.c, hash.c).

  `mapRemove` takes out the first node of the key's bucket, whatever its key is, and leaves the bucket
  pointing to it. `size_tCmp` compares the low halves of its keys, `intCmp` by a difference of ints.

  Proved, for every positive bucket count:
  - `MapRun.tracks`: in every run whose operations are `Served`, the map is the finite map of the same operations.
  - `map_refines`: so is every result of a served operation.
-/
import Katana.Map
import Katana.Lib.Chain

namespace Katana.Nodes

open Lib

/-- `hashfunc` and `cmpfunc` of a map; the hash of an int can overflow. -/
structure MapKeys (K : Type) where
  hashing : Hashing K Fault
  hashed : K → Except Fault Unit

def fitsInt (n : Int) : Prop := -2 ^ 31 ≤ n ∧ n < 2 ^ 31

instance (n : Int) : Decidable (fitsInt n) := inferInstanceAs (Decidable (_ ∧ _))

def hashInt (key : Int32) : UInt32 :=
  let res := (~~~key + key <<< 15).toUInt32
  let res := res ^^^ (res >>> 12)
  let res := res + res <<< 2
  let res := res ^^^ (res >>> 4)
  let res := res * 2057
  res ^^^ (res >>> 16)

/-- The first sum of `hashInt` is one of ints. -/
def hashedInt (key : Int32) : Except Fault Unit := defined (fitsInt ((~~~key).toInt + (key <<< 15).toInt))

/-- `integerMapCreate`: `intHash` and `intCmp`. -/
def intKeys : MapKeys Int32 where
  hashing := ⟨fun key => (hashInt key).toNat,
    fun a b => defined (fitsInt (a.toInt - b.toInt)) >>= fun _ => .ok (decide (a - b = 0)), .undefined, .assertion⟩
  hashed := hashedInt

/-- `uintMapCreate`: `intHash` and `uintCmp`. -/
def uintKeys : MapKeys UInt32 where
  hashing := ⟨fun key => (hashInt key.toInt32).toNat, fun a b => .ok (decide (a - b = 0)), .undefined, .assertion⟩
  hashed key := hashedInt key.toInt32

/-- `size_tMapCreate`: `size_tHash` and `size_tCmp`. -/
def sizeTKeys : MapKeys UInt64 where
  hashing := ⟨fun key => (hash64Bit key).toNat, fun a b => .ok (sizeTSame a b), .undefined, .assertion⟩
  hashed _ := .ok ()

variable {K V : Type} (κ : MapKeys K)

def mapCreate (bucketCnt : Nat) : Chain := .create bucketCnt

def mapExists (h : Heap (Entry K V)) (map : Chain) (key : K) : Except Fault Bool :=
  κ.hashed key >>= fun _ => Chain.contains κ.hashing h map key

/-- `map->size++` counts an int. -/
def mapInsert (h : Heap (Entry K V)) (map : Chain) (key : K) (value : V) : Except Fault (Heap (Entry K V) × Chain) :=
  κ.hashed key >>= fun _ =>
    Chain.insert κ.hashing h map key value >>= fun r => defined (r.2.size < 2 ^ 31) >>= fun _ => .ok r

def mapSet (h : Heap (Entry K V)) (map : Chain) (key : K) (value : V) : Except Fault (Heap (Entry K V) × Chain) :=
  κ.hashed key >>= fun _ =>
    Chain.assign κ.hashing (fun node => { node with key := key, data := value }) (mapInsert κ h map key value) h map key

def mapGet (h : Heap (Entry K V)) (map : Chain) (key : K) : Except Fault (Option V) :=
  κ.hashed key >>= fun _ => Chain.get κ.hashing h map key

def mapRemove (h : Heap (Entry K V)) (map : Chain) (key : K) : Except Fault (Heap (Entry K V) × Chain × Bool) :=
  κ.hashed key >>= fun _ => Chain.remove κ.hashing h map key

/-! ## Runs -/

structure MapState (K V : Type) where
  heap : Heap (Entry K V)
  map : Chain

inductive MapOp (K V : Type) where
  | insert (key : K) (value : V)
  | set (key : K) (value : V)
  | remove (key : K)
  | get (key : K)
  | exists (key : K)

def MapOp.key : MapOp K V → K
  | .insert key _ | .set key _ | .remove key | .get key | .exists key => key

inductive MapResult (V : Type) where
  | done
  | found (value : Option V)
  | answer (yes : Bool)

def MapState.step (s : MapState K V) : MapOp K V → Except Fault (MapState K V × MapResult V)
  | .insert key value => mapInsert κ s.heap s.map key value >>= fun r => .ok (⟨r.1, r.2⟩, .done)
  | .set key value => mapSet κ s.heap s.map key value >>= fun r => .ok (⟨r.1, r.2⟩, .done)
  | .remove key => mapRemove κ s.heap s.map key >>= fun r => .ok (⟨r.1, r.2.1⟩, .answer r.2.2)
  | .get key => mapGet κ s.heap s.map key >>= fun r => .ok (s, .found r)
  | .exists key => mapExists κ s.heap s.map key >>= fun r => .ok (s, .answer r)

section
variable [DecidableEq K]

def MapOp.apply (m : K → Option V) : MapOp K V → (K → Option V) × MapResult V
  | .insert key value | .set key value => (Function.update m key (some value), .done)
  | .remove key => (Function.update m key none, .answer (m key).isSome)
  | .get key => (m, .found (m key))
  | .exists key => (m, .answer (m key).isSome)

/-- Only fresh keys are inserted. -/
def MapOp.Fresh (m : K → Option V) : MapOp K V → Prop
  | .insert key _ => m key = none
  | _ => True

/-- The buckets from which a node was removed, after one more operation. -/
def freedBy (s : MapState K V) (freed : List Nat) : MapOp K V → MapResult V → List Nat
  | .remove key, .answer true => Chain.bucketOf κ.hashing s.map key :: freed
  | _, _ => freed

def noNodes : Heap (Entry K V) := ⟨fun _ => none, 0⟩

/-- The states of a run whose operations meet a condition, with the finite map of the same operations and
the buckets from which a node was removed. -/
inductive MapRun (condition : MapState K V → (K → Option V) → List Nat → MapOp K V → Prop) :
    MapState K V → (K → Option V) → List Nat → Prop
  | create (bucketCnt : Nat) : 0 < bucketCnt → bucketCnt < 2 ^ 31 →
    MapRun condition ⟨noNodes, mapCreate bucketCnt⟩ (fun _ => none) []
  | step {s s' : MapState K V} {m : K → Option V} {freed : List Nat} {op : MapOp K V} {result : MapResult V} :
    MapRun condition s m freed → op.Fresh m → condition s m freed op → s.step κ op = .ok (s', result) →
    MapRun condition s' (op.apply m).1 (freedBy κ s freed op result)

/-- There is room for one more node, and the key is none of those behind the first in its bucket. -/
def RoomBehind (s : MapState K V) (bucket : Chain.Entries K V) (key : K) : Prop :=
  Chain.checkIn κ.hashing key bucket.tail = .ok () ∧ s.map.size + 1 < 2 ^ 31

/-- What the operation does in the key's bucket: it tells the key from the others there, or the first node is the key's. -/
def ServedIn (s : MapState K V) (m : K → Option V) (bucket : Chain.Entries K V) : MapOp K V → Prop
  | .insert key _ => Chain.Tells κ.hashing key bucket ∧ RoomBehind κ s bucket key
  | .set key _ => Chain.Tells κ.hashing key bucket ∧ (m key = none → RoomBehind κ s bucket key)
  | .remove key => ∀ first ∈ bucket.head?, first.2.key = key
  | .get key => Chain.Tells κ.hashing key bucket
  | .exists key => Chain.Tells κ.hashing key bucket

/-- The key's hash is defined, no node was removed from its bucket, and there the operation is served. -/
structure Served (s : MapState K V) (m : K → Option V) (freed : List Nat) (op : MapOp K V) : Prop where
  hashed : κ.hashed op.key = .ok ()
  notFreed : Chain.bucketOf κ.hashing s.map op.key ∉ freed
  bucket : ∀ l, s.heap.Thread s.map.start l → ServedIn κ s m
    (Chain.bucketEntries (Chain.bucketOf κ.hashing s.map op.key) l) op

/-! ## One operation -/

/-- A map with its entries, and the finite map it is. -/
structure MapTracks (s : MapState K V) (m : K → Option V) (freed : List Nat) (l : Chain.Entries K V) : Prop where
  holds : Chain.Holds κ.hashing s.heap s.map (fun b => b ∉ freed) l
  keys : (Chain.keysOf l).Nodup
  maps : ∀ key, Chain.lookup l key = m key

variable {κ} {s : MapState K V} {m : K → Option V} {freed : List Nat} {l : Chain.Entries K V} {key : K}

theorem MapTracks.find (ht : MapTracks κ s m freed l) (hlive : Chain.bucketOf κ.hashing s.map key ∉ freed)
    (htells : Chain.Tells κ.hashing key (Chain.bucketEntries (Chain.bucketOf κ.hashing s.map key) l)) :
    Chain.find κ.hashing s.heap s.map key = .ok ((Chain.entryOf l key).map Prod.fst) := by
  rw [ht.holds.find_eq hlive, Chain.findIn_tells htells, ht.holds.entryOf_bucket]

theorem MapTracks.get (ht : MapTracks κ s m freed l) (hhash : κ.hashed key = .ok ())
    (hlive : Chain.bucketOf κ.hashing s.map key ∉ freed)
    (htells : Chain.Tells κ.hashing key (Chain.bucketEntries (Chain.bucketOf κ.hashing s.map key) l)) :
    mapGet κ s.heap s.map key = .ok (m key) := by
  unfold mapGet
  rw [hhash, bind_ok, ht.holds.get hlive, Chain.lookupIn_tells htells]
  unfold Chain.lookup
  rw [ht.holds.entryOf_bucket, ← ht.maps]
  rfl

theorem MapTracks.exists (ht : MapTracks κ s m freed l) (hhash : κ.hashed key = .ok ())
    (hlive : Chain.bucketOf κ.hashing s.map key ∉ freed)
    (htells : Chain.Tells κ.hashing key (Chain.bucketEntries (Chain.bucketOf κ.hashing s.map key) l)) :
    mapExists κ s.heap s.map key = .ok (m key).isSome := by
  unfold mapExists Chain.contains
  rw [hhash, bind_ok, ht.find hlive htells, ← ht.maps]
  unfold Chain.lookup
  rw [bind_ok]
  simp

theorem MapTracks.insert (ht : MapTracks κ s m freed l) (hhash : κ.hashed key = .ok ())
    (hlive : Chain.bucketOf κ.hashing s.map key ∉ freed)
    (htells : Chain.Tells κ.hashing key (Chain.bucketEntries (Chain.bucketOf κ.hashing s.map key) l))
    (hroom : RoomBehind κ s (Chain.bucketEntries (Chain.bucketOf κ.hashing s.map key) l) key) (hfresh : m key = none)
    (value : V) :
    ∃ s' l', mapInsert κ s.heap s.map key value = .ok (s'.heap, s'.map) ∧
      MapTracks κ s' (Function.update m key (some value)) freed l' := by
  have hnotin : key ∉ Chain.keysOf l := Chain.lookup_eq_none_iff.mp ((ht.maps key).trans hfresh)
  obtain ⟨r, hrun, hinserted⟩ := ht.holds.insert hlive value
  rw [Chain.findIn_tells htells, ht.holds.entryOf_bucket, Chain.entryOf_eq_none_iff.mpr hnotin, hroom.1] at hrun
  have hsize : r.2.size = s.map.size + 1 := by
    rw [hinserted.holds.size, (insertRun_perm _ l).length_eq, ht.holds.size]
    rfl
  refine ⟨⟨r.1, r.2⟩, _, ?_, ⟨hinserted.holds, Chain.keysOf_insertRun ht.keys hnotin, ?_⟩⟩
  · unfold mapInsert
    rw [hhash, bind_ok, hrun]
    show (defined (r.2.size < 2 ^ 31) >>= fun _ => _) = _
    rw [defined_of (hsize ▸ hroom.2)]
    rfl
  · intro k
    rw [Chain.lookup_insertRun ht.keys hnotin, ht.maps, Function.update_apply]

theorem MapTracks.set (ht : MapTracks κ s m freed l) (hhash : κ.hashed key = .ok ())
    (hlive : Chain.bucketOf κ.hashing s.map key ∉ freed)
    (htells : Chain.Tells κ.hashing key (Chain.bucketEntries (Chain.bucketOf κ.hashing s.map key) l))
    (hroom : m key = none → RoomBehind κ s (Chain.bucketEntries (Chain.bucketOf κ.hashing s.map key) l) key) (value : V) :
    ∃ s' l', mapSet κ s.heap s.map key value = .ok (s'.heap, s'.map) ∧
      MapTracks κ s' (Function.update m key (some value)) freed l' := by
  unfold mapSet Chain.assign
  rw [hhash, bind_ok, ht.find hlive htells, bind_ok]
  cases hentry : Chain.entryOf l key with
  | none =>
    have hnone : m key = none := by
      rw [← ht.maps, Chain.lookup_eq_none_iff]
      exact Chain.entryOf_eq_none_iff.mp hentry
    exact ht.insert hhash hlive htells (hroom hnone) hnone value
  | some n =>
    obtain ⟨hmem, hkey⟩ := Chain.entryOf_some hentry
    obtain ⟨pre, post, hl⟩ := List.append_of_mem hmem
    subst hl
    rcases n with ⟨a, x⟩
    -- the new key is the old one
    have hover : ({ x with key := key, data := value } : Entry K V) = { x with data := value } := by
      rw [← hkey]
    obtain ⟨h', hrun, -, hholds, -⟩ := ht.holds.overwrite (f := fun node => { node with key := key, data := value }) rfl
      (by rw [hover]; exact ht.holds.hashed _ hmem)
    rw [hover] at hholds
    refine ⟨⟨h', s.map⟩, _, ?_, ⟨hholds, ?_, ?_⟩⟩
    · rw [Option.map_some]
      dsimp only
      rw [hrun]
      rfl
    · have hkeys := ht.keys
      unfold Chain.keysOf at hkeys ⊢
      rw [List.map_append, List.map_cons] at hkeys ⊢
      exact hkeys
    · intro k
      have hlookup := Chain.lookup_overwrite ht.keys (y := { x with data := value }) rfl k
      rw [hlookup, ht.maps, Function.update_apply]
      exact if_congr (by rw [← hkey]) rfl rfl

/-- A removal takes out the key's own node, when it is the first of its bucket. -/
theorem MapTracks.remove (ht : MapTracks κ s m freed l) (hhash : κ.hashed key = .ok ())
    (hlive : Chain.bucketOf κ.hashing s.map key ∉ freed)
    (hfirst : ∀ first ∈ (Chain.bucketEntries (Chain.bucketOf κ.hashing s.map key) l).head?, first.2.key = key) :
    ∃ s' l', mapRemove κ s.heap s.map key = .ok (s'.heap, s'.map, (m key).isSome) ∧
      MapTracks κ s' (Function.update m key none)
        (if (m key).isSome then Chain.bucketOf κ.hashing s.map key :: freed else freed) l' := by
  unfold mapRemove
  rw [hhash, bind_ok]
  cases hbucket : Chain.bucketEntries (Chain.bucketOf κ.hashing s.map key) l with
  | nil =>
    have hnone : m key = none := by
      rw [← ht.maps]
      unfold Chain.lookup
      rw [← ht.holds.entryOf_bucket, hbucket]
      rfl
    have harray : s.map.buckets (Chain.bucketOf κ.hashing s.map key) = none := by
      rw [ht.holds.buckets _ hlive, hbucket]
      rfl
    refine ⟨s, l, ?_, ?_⟩
    · unfold Chain.remove
      rw [harray, hnone]
      rfl
    · rw [hnone, Function.update_eq_self_iff.mpr hnone.symm]
      exact ht
  | cons first rest =>
    rw [hbucket] at hfirst
    have hkey : first.2.key = key := hfirst first rfl
    obtain ⟨h', map', pre, post, hl, hrun, -, -, hholds, -⟩ := ht.holds.remove hlive hbucket
    subst hl
    have hsome : (m key).isSome := by
      rw [← ht.maps, Option.isSome_iff_ne_none, Ne, Chain.lookup_eq_none_iff]
      exact not_not_intro (List.mem_map.mpr ⟨first, List.mem_append_right _ List.mem_cons_self, hkey⟩)
    refine ⟨⟨h', map'⟩, pre ++ post, ?_, ⟨?_, ?_, ?_⟩⟩
    · rw [hrun, hsome]
    · rw [if_pos hsome]
      refine { hholds with buckets := fun b hb => hholds.buckets b ⟨?_, ?_⟩ }
      · exact fun hmem => hb (List.mem_cons_of_mem _ hmem)
      · exact fun heq => hb (heq ▸ List.mem_cons_self)
    · have hkeys := ht.keys
      unfold Chain.keysOf at hkeys ⊢
      rw [List.map_append, List.map_cons, List.nodup_middle, List.nodup_cons, ← List.map_append] at hkeys
      exact hkeys.2
    · intro k
      rw [Chain.lookup_remove ht.keys, ht.maps, Function.update_apply, hkey]

/-- **What one operation preserves.** -/
theorem MapTracks.step (ht : MapTracks κ s m freed l) {op : MapOp K V} (hfresh : op.Fresh m)
    (hserved : Served κ s m freed op) :
    ∃ s' l', s.step κ op = .ok (s', (op.apply m).2) ∧
      MapTracks κ s' (op.apply m).1 (freedBy κ s freed op (op.apply m).2) l' := by
  have hhash := hserved.hashed
  have hlive := hserved.notFreed
  have hbucket := hserved.bucket l ht.holds.thread
  cases op with
  | insert key value =>
    dsimp only [MapOp.key] at hhash hlive hbucket
    obtain ⟨s', l', hrun, ht'⟩ := ht.insert hhash hlive hbucket.1 hbucket.2 hfresh value
    refine ⟨s', l', ?_, ht'⟩
    simp only [MapState.step, hrun]
    rfl
  | set key value =>
    dsimp only [MapOp.key] at hhash hlive hbucket
    obtain ⟨s', l', hrun, ht'⟩ := ht.set hhash hlive hbucket.1 hbucket.2 value
    refine ⟨s', l', ?_, ht'⟩
    simp only [MapState.step, hrun]
    rfl
  | remove key =>
    dsimp only [MapOp.key] at hhash hlive hbucket
    obtain ⟨s', l', hrun, ht'⟩ := ht.remove hhash hlive hbucket
    refine ⟨s', l', ?_, ?_⟩
    · simp only [MapState.step, hrun]
      rfl
    · have hfreed : freedBy κ s freed (.remove key : MapOp K V) (.answer (m key).isSome : MapResult V) =
          if (m key).isSome then Chain.bucketOf κ.hashing s.map key :: freed else freed := by
        cases (m key).isSome <;> rfl
      rw [← hfreed] at ht'
      exact ht'
  | get key =>
    dsimp only [MapOp.key] at hhash hlive hbucket
    refine ⟨s, l, ?_, ht⟩
    simp only [MapState.step, ht.get hhash hlive hbucket]
    rfl
  | «exists» key =>
    dsimp only [MapOp.key] at hhash hlive hbucket
    refine ⟨s, l, ?_, ht⟩
    simp only [MapState.step, ht.exists hhash hlive hbucket]
    rfl

/-- **What a run preserves.** -/
theorem MapRun.tracks (h : MapRun κ (Served κ) s m freed) : ∃ l, MapTracks κ s m freed l := by
  induction h with
  | create bucketCnt => exact ⟨[], .create _ _, .nil, fun _ => rfl⟩
  | step _ hfresh hserved hstep ih =>
    obtain ⟨l, ht⟩ := ih
    obtain ⟨s', l', hstep', ht'⟩ := ht.step hfresh hserved
    rw [hstep] at hstep'
    cases hstep'
    exact ⟨l', ht'⟩

end

/-! ## The three kinds of keys -/

section
variable {V : Type}

/-- Keys whose low halves differ are told apart. -/
theorem tells_sizeTKeys {key : UInt64} {l : Chain.Entries UInt64 V}
    (h : ∀ n ∈ l, n.2.key.toUInt32 = key.toUInt32 → n.2.key = key) : Chain.Tells sizeTKeys.hashing key l := by
  induction l with
  | nil => trivial
  | cons n l ih =>
    unfold Chain.Tells
    by_cases hkey : n.2.key = key
    · rw [if_pos hkey]
      exact congrArg _ (sizeTSame_iff.mpr (congrArg UInt64.toUInt32 hkey.symm))
    · rw [if_neg hkey]
      have hsame : sizeTSame key n.2.key = false := by
        rw [Bool.eq_false_iff, Ne, sizeTSame_iff]
        exact fun hlow => hkey (h n List.mem_cons_self hlow.symm)
      exact ⟨congrArg Except.ok hsame, ih fun n hn => h n (List.mem_cons_of_mem _ hn)⟩

/-- None of the nodes has the low half of the key. -/
theorem checkIn_sizeTKeys {key : UInt64} {l : Chain.Entries UInt64 V} (h : ∀ n ∈ l, n.2.key.toUInt32 ≠ key.toUInt32) :
    Chain.checkIn sizeTKeys.hashing key l = .ok () := by
  induction l with
  | nil => rfl
  | cons n l ih =>
    have hsame : sizeTSame n.2.key key = false := by
      rw [Bool.eq_false_iff, Ne, sizeTSame_iff]
      exact h n List.mem_cons_self
    have hcmp : sizeTKeys.hashing.same n.2.key key = .ok false := congrArg Except.ok hsame
    unfold Chain.checkIn
    rw [hcmp, bind_ok, if_neg (by simp)]
    exact ih fun n hn => h n (List.mem_cons_of_mem _ hn)

/-- The keys of the bucket are keys of the map. -/
theorem MapTracks.mem_bucket {s : MapState UInt64 V} {m : UInt64 → Option V} {freed : List Nat} {l l' : Chain.Entries UInt64 V}
    (ht : MapTracks sizeTKeys s m freed l) (hthread : s.heap.Thread s.map.start l') {b : Nat} {n : Nat × Entry UInt64 V}
    (hn : n ∈ Chain.bucketEntries b l') : (m n.2.key).isSome := by
  rw [hthread.seg.unique ht.holds.thread.seg] at hn
  rw [← ht.maps, Option.isSome_iff_ne_none, Ne, Chain.lookup_eq_none_iff]
  exact not_not_intro (List.mem_map_of_mem (mem_group.mp hn).1)

/-- An insertion of a `size_t` key is served when no other key has its low half. -/
theorem MapTracks.insert_served {s : MapState UInt64 V} {m : UInt64 → Option V} {freed : List Nat}
    {l : Chain.Entries UInt64 V} (ht : MapTracks sizeTKeys s m freed l) {key : UInt64}
    (hlive : Chain.bucketOf sizeTKeys.hashing s.map key ∉ freed) (hlow : ∀ k, (m k).isSome → k.toUInt32 ≠ key.toUInt32)
    (hsize : s.map.size + 1 < 2 ^ 31) (value : V) : Served sizeTKeys s m freed (.insert key value) := by
  refine ⟨rfl, hlive, ?_⟩
  intro l' hthread
  refine ⟨tells_sizeTKeys fun n hn heq => ?_, checkIn_sizeTKeys fun n hn => ?_, hsize⟩
  · exact absurd heq (hlow _ (ht.mem_bucket hthread hn))
  · exact hlow _ (ht.mem_bucket hthread (List.mem_of_mem_tail hn))

/-- A lookup of a `size_t` key is served when no other key has its low half. -/
theorem MapTracks.get_served {s : MapState UInt64 V} {m : UInt64 → Option V} {freed : List Nat}
    {l : Chain.Entries UInt64 V} (ht : MapTracks sizeTKeys s m freed l) {key : UInt64}
    (hlive : Chain.bucketOf sizeTKeys.hashing s.map key ∉ freed)
    (hlow : ∀ k, (m k).isSome → k.toUInt32 = key.toUInt32 → k = key) : Served sizeTKeys s m freed (.get key) := by
  refine ⟨rfl, hlive, ?_⟩
  intro l' hthread
  exact tells_sizeTKeys fun n hn => hlow _ (ht.mem_bucket hthread hn)

end

/-- Whatever runs meet the condition, the next operation that meets it ends with the finite map's result. -/
def Refines {K : Type} [DecidableEq K] (V : Type) (κ : MapKeys K)
    (condition : MapState K V → (K → Option V) → List Nat → MapOp K V → Prop) : Prop :=
  ∀ s m freed, MapRun κ condition s m freed → ∀ op : MapOp K V, op.Fresh m → condition s m freed op →
    ∃ s', s.step κ op = .ok (s', (op.apply m).2)

theorem refines {K V : Type} [DecidableEq K] (κ : MapKeys K) : Refines V κ (Served κ) := by
  intro s m freed h op hfresh hserved
  obtain ⟨l, ht⟩ := h.tracks
  obtain ⟨s', l', hstep, -⟩ := ht.step hfresh hserved
  exact ⟨s', hstep⟩

/-- **Maps are finite maps**: in every run whose operations are served, every operation has the finite map's result. -/
theorem map_refines (V : Type) :
    Refines V intKeys (Served intKeys) ∧ Refines V uintKeys (Served uintKeys) ∧ Refines V sizeTKeys (Served sizeTKeys) :=
  ⟨refines intKeys, refines uintKeys, refines sizeTKeys⟩

def oneNode {K : Type} (κ : MapKeys K) (key : K) : MapState K Nat :=
  let b := κ.hashing.hash key % 1
  ⟨noNodes.alloc ⟨none, none, ⟨key, 5, b⟩⟩, ⟨Function.update (fun _ => none) b (some 0), 1, some 0, some 0, 1⟩⟩

/-- Its node is freed, and its bucket still points to it. -/
def oneFreed {K : Type} (κ : MapKeys K) (key : K) : MapState K Nat :=
  ⟨(oneNode κ key).heap.free 0, { (oneNode κ key).map with start := none, last := none, size := 0 }⟩

section
variable {K : Type} {κ : MapKeys K} {key : K}

theorem insert_oneNode (hhash : κ.hashed key = .ok ()) :
    MapState.step κ ⟨noNodes, mapCreate 1⟩ (.insert key 5) = .ok (oneNode κ key, .done) := by
  simp only [MapState.step, mapInsert, hhash, bind_ok, Chain.insert, Chain.find, mapCreate, Chain.create]
  rfl

theorem remove_oneFreed (hhash : κ.hashed key = .ok ()) :
    (oneNode κ key).step κ (.remove key) = .ok (oneFreed κ key, .answer true) := by
  simp only [MapState.step, mapRemove, hhash, bind_ok, Chain.remove, Chain.bucketOf, oneNode, Function.update_self]
  rfl

theorem get_oneFreed (hhash : κ.hashed key = .ok ()) : (oneFreed κ key).step κ (.get key) = .error κ.hashing.undefined := by
  simp only [MapState.step, mapGet, hhash, bind_ok, Chain.get, Chain.find, Chain.bucketOf, oneFreed, oneNode,
    Function.update_self]
  rfl

/-- A lookup after a removal reads the removed node. -/
theorem not_refines [DecidableEq K] (κ : MapKeys K) (key : K) (hhash : κ.hashed key = .ok ()) :
    ¬ Refines Nat κ (fun _ _ _ _ => True) := by
  intro h
  have hcreated : MapRun (V := Nat) κ (fun _ _ _ _ => True) ⟨noNodes, mapCreate 1⟩ (fun _ => none) [] :=
    .create 1 Nat.one_pos (by decide)
  have hfresh : (MapOp.insert key 5 : MapOp K Nat).Fresh fun _ => none := rfl
  have hinsert := hcreated.step hfresh trivial (insert_oneNode hhash)
  have hany : (MapOp.remove key : MapOp K Nat).Fresh (Function.update (fun _ => none) key (some 5)) := trivial
  have hremove := hinsert.step hany trivial (remove_oneFreed hhash)
  obtain ⟨s, hs⟩ := h _ _ _ hremove (.get key) trivial trivial
  rw [get_oneFreed hhash] at hs
  cases hs

end

def twoValues : UInt64 → Option Nat := Function.update (Function.update (fun _ => none) 3 (some 5)) 4 (some 6)

theorem twoValues_keys {k : UInt64} (hk : (twoValues k).isSome) : k = 3 ∨ k = 4 := by
  by_contra hne
  rw [not_or] at hne
  unfold twoValues at hk
  rw [Function.update_of_ne hne.2, Function.update_of_ne hne.1] at hk
  cases hk

/-- With both keys in one bucket, both are found. -/
theorem twoValues_found : ∃ s : MapState UInt64 Nat, MapRun sizeTKeys (Served sizeTKeys) s twoValues [] ∧
    (oneNode sizeTKeys 3).step sizeTKeys (.insert 4 6) = .ok (s, .done) ∧
    (∃ s', s.step sizeTKeys (.get 3) = .ok (s', .found (some 5))) ∧
      ∃ s', s.step sizeTKeys (.get 4) = .ok (s', .found (some 6)) := by
  have hcreated : MapRun (V := Nat) sizeTKeys (Served sizeTKeys) ⟨noNodes, mapCreate 1⟩ (fun _ => none) [] :=
    .create 1 (by decide) (by decide)
  have hfresh : (MapOp.insert 3 5 : MapOp UInt64 Nat).Fresh fun _ => none := rfl
  obtain ⟨_, hnone⟩ := hcreated.tracks
  have hfirst : MapRun sizeTKeys (Served sizeTKeys) (oneNode sizeTKeys 3) (Function.update (fun _ => none) 3 (some 5)) [] :=
    hcreated.step hfresh (hnone.insert_served List.not_mem_nil (fun k hk => by cases hk) (by decide) 5) (insert_oneNode rfl)
  obtain ⟨_, hone⟩ := hfirst.tracks
  have hserved : Served sizeTKeys (oneNode sizeTKeys 3) (Function.update (fun _ => none) 3 (some 5)) [] (.insert 4 6) := by
    refine hone.insert_served List.not_mem_nil (fun k hk => ?_) (by decide) 6
    by_cases hthree : k = 3
    · rw [hthree]
      decide
    · rw [Function.update_of_ne hthree] at hk
      cases hk
  have hfresh' : (MapOp.insert 4 6 : MapOp UInt64 Nat).Fresh (Function.update (fun _ => none) 3 (some 5)) := rfl
  obtain ⟨s, hs⟩ := (map_refines Nat).2.2 _ _ _ hfirst (.insert 4 6) hfresh' hserved
  have hrun : MapRun sizeTKeys (Served sizeTKeys) s twoValues [] := hfirst.step hfresh' hserved hs
  obtain ⟨_, hboth⟩ := hrun.tracks
  have hget : ∀ key, key = 3 ∨ key = 4 → Served sizeTKeys s twoValues [] (.get key) := by
    intro key hkey
    refine hboth.get_served List.not_mem_nil fun k hk hlow => ?_
    rcases twoValues_keys hk with rfl | rfl
    · rcases hkey with rfl | rfl
      · rfl
      · exact absurd hlow (by decide)
    · rcases hkey with rfl | rfl
      · exact absurd hlow (by decide)
      · rfl
  exact ⟨s, hrun, hs, (map_refines Nat).2.2 _ _ _ hrun (.get 3) trivial (hget 3 (.inl rfl)),
    (map_refines Nat).2.2 _ _ _ hrun (.get 4) trivial (hget 4 (.inr rfl))⟩

/-- Not so without the condition, whatever the keys are. -/
theorem not_map_refines : ¬ Refines Nat intKeys (fun _ _ _ _ => True) ∧ ¬ Refines Nat uintKeys (fun _ _ _ _ => True) ∧
    ¬ Refines Nat sizeTKeys (fun _ _ _ _ => True) :=
  ⟨not_refines intKeys 1 rfl, not_refines uintKeys 1 rfl, not_refines sizeTKeys 1 rfl⟩

end Katana.Nodes

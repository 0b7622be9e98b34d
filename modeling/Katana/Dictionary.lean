/-
  Katana.Dictionary — string-keyed dictionaries (util/dictionary.c, hash.c) and stacks (util/stack.c).

  The nodes of a dictionary are one list, with the hash array pointing to the first node of each bucket:
  a `Table` whose keys are compared by `strcmp`.

  Proved:
  - `dictGet_insert` / `dictGet_assign` / `dictGet_duplicate`: the lookups after each operation.
-/
import Katana.Fault
import Katana.Lib.Table

namespace Katana

open Lib

/-- djb2; the keys are plain ASCII. -/
def hash1 (str : String) : UInt64 := str.toList.foldl (fun hash c => hash <<< 5 + hash + UInt64.ofNat c.toNat) 5381

/-- `strcmp` inside the bucket `hash1(key)%dict->numBuckets`. -/
def dictKeying (numBuckets : Nat) : Keying String where
  hash key := (hash1 key).toNat % numBuckets
  same a b := a == b
  equiv := ⟨fun a => by simp, fun h => by simpa using (by simpa using h : _ = _).symm,
    fun h h' => by simpa using (by simpa using h : _ = _).trans (by simpa using h' : _ = _)⟩

theorem matches_dictKeying {numBuckets : Nat} {a b : String} : Matches (dictKeying numBuckets) a b ↔ a = b := by
  constructor
  · intro h
    exact beq_iff_eq.mp h.2
  · intro h
    subst h
    exact .refl a

structure Dictionary (V : Type) where
  numBuckets : Nat
  table : Table (dictKeying numBuckets) V

variable {V : Type}

def dictCreate (bucketCnt : Nat) : Dictionary V := ⟨bucketCnt, .empty⟩

def dictGet (dict : Dictionary V) (key : String) : Option V := dict.table.get key

def dictInsert (dict : Dictionary V) (key : String) (value : V) : Except Fault (Dictionary V) :=
  if h : dict.table.get key = none then .ok ⟨dict.numBuckets, dict.table.insert key value h⟩ else .error .assertion

def dictAssign (dict : Dictionary V) (key : String) (value : V) : Dictionary V :=
  ⟨dict.numBuckets, dict.table.update key fun _ => value⟩

def dictDuplicate (dict : Dictionary V) (dataCP : V → V) : Dictionary V := ⟨dict.numBuckets, dict.table.map dataCP⟩

def dictKeys (dict : Dictionary V) : List String := dict.table.keys

def dictValues (dict : Dictionary V) : List V := dict.table.values

@[simp] theorem dictGet_create (bucketCnt : Nat) (key : String) : dictGet (dictCreate bucketCnt : Dictionary V) key = none :=
  Table.get_empty key

theorem dictInsert_ok {dict : Dictionary V} {key : String} (h : dictGet dict key = none) (value : V) :
    ∃ dict', dictInsert dict key value = .ok dict' := ⟨_, dif_pos h⟩

theorem dictGet_insert {dict dict' : Dictionary V} {key : String} {value : V} (h : dictInsert dict key value = .ok dict')
    (key' : String) : dictGet dict' key' = if key' = key then some value else dictGet dict key' := by
  unfold dictInsert at h
  split at h
  · rename_i hnone
    cases h
    exact (Table.get_insert hnone key').trans (if_congr matches_dictKeying rfl rfl)
  · cases h

theorem dictGet_assign (dict : Dictionary V) (key : String) (value : V) (key' : String) :
    dictGet (dictAssign dict key value) key' =
      if key = key' then (dictGet dict key').map fun _ => value else dictGet dict key' :=
  (Table.get_update dict.table key _ key').trans (if_congr matches_dictKeying rfl rfl)

theorem dictGet_duplicate (dict : Dictionary V) (dataCP : V → V) (key : String) :
    dictGet (dictDuplicate dict dataCP) key = (dictGet dict key).map dataCP := Table.get_map dict.table dataCP key

theorem dictGet_of_value {dict : Dictionary V} {value : V} (h : value ∈ dictValues dict) :
    ∃ key, dictGet dict key = some value := by
  obtain ⟨n, hn, rfl⟩ := List.mem_map.mp h
  exact ⟨n.1, Table.get_of_mem hn⟩

theorem mem_dictKeys {dict : Dictionary V} {key : String} : key ∈ dictKeys dict ↔ (dictGet dict key).isSome := by
  unfold dictKeys Table.keys dictGet
  rw [Option.isSome_iff_exists, List.mem_map]
  constructor
  · intro h
    rcases h with ⟨n, hn, rfl⟩
    exact ⟨n.2, Table.get_of_mem hn⟩
  · intro h
    rcases h with ⟨v, hv⟩
    obtain ⟨n, hn, hmatch, -⟩ := Table.get_eq_some_iff.mp hv
    exact ⟨n, hn, (matches_dictKeying.mp hmatch).symm⟩

end Katana

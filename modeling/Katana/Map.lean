/-
  Katana.Map — maps with `size_t` keys (util/map.c, hash.c).

  A map is the same table as a dictionary. Its keys are hashed as 64-bit words, but `size_tCmp` reads
  them through `uint` pointers: two keys of one bucket are the same when their low four bytes are.

  Proved:
  - `mapGet_insert`: the lookups after an insertion.
  - `SizeTMap.size_le`: a map has at most as many entries as there are words.
-/
import Katana.Fault
import Katana.Lib.Table
import Mathlib.Data.Fintype.Card
import Mathlib.Tactic.Ring

namespace Katana

open Lib

@[irreducible] def hash64Bit (key : UInt64) : UInt64 :=
  let key := ~~~key + key <<< 21
  let key := key ^^^ (key >>> 24)
  let key := key + key <<< 3 + key <<< 8
  let key := key ^^^ (key >>> 14)
  let key := key + key <<< 2 + key <<< 4
  let key := key ^^^ (key >>> 28)
  key + key <<< 31

/-- `!size_tCmp(a,b)`: the difference of two uints is an int. -/
def sizeTSame (a b : UInt64) : Bool := (a.toUInt32.toUInt64 - b.toUInt32.toUInt64).toUInt32 == 0

theorem sizeTSame_iff {a b : UInt64} : sizeTSame a b = true ↔ a.toUInt32 = b.toUInt32 := by
  unfold sizeTSame
  rw [UInt64.toUInt32_sub, UInt32.toUInt32_toUInt64, UInt32.toUInt32_toUInt64, beq_iff_eq]
  exact ⟨fun h => by
    have hadd := congrArg (· + b.toUInt32) h
    simpa using hadd, fun h => by rw [h, UInt32.sub_self]⟩

def sizeTKeying (numBuckets : Nat) : Keying UInt64 where
  hash key := (hash64Bit key).toNat % numBuckets
  same := sizeTSame
  equiv := ⟨fun _ => sizeTSame_iff.mpr rfl, fun h => sizeTSame_iff.mpr (sizeTSame_iff.mp h).symm,
    fun h h' => sizeTSame_iff.mpr ((sizeTSame_iff.mp h).trans (sizeTSame_iff.mp h'))⟩

structure SizeTMap (V : Type) where
  numBuckets : Nat
  table : Table (sizeTKeying numBuckets) V

variable {V : Type}

def sizeTMapCreate (bucketCnt : Nat) : SizeTMap V := ⟨bucketCnt, .empty⟩

def mapGet (map : SizeTMap V) (key : UInt64) : Option V := map.table.get key

def mapInsert (map : SizeTMap V) (key : UInt64) (value : V) : Except Fault (SizeTMap V) :=
  if h : map.table.get key = none then .ok ⟨map.numBuckets, map.table.insert key value h⟩ else .error .assertion

def SizeTMap.size (map : SizeTMap V) : Nat := map.table.nodes.length

theorem mapInsert_total {map : SizeTMap V} {key : UInt64} (h : mapGet map key = none) (value : V) :
    ∃ map', mapInsert map key value = .ok map' := ⟨_, dif_pos h⟩

/-- The inserted value is found at the keys the map takes for the same one. -/
theorem mapGet_insert {map map' : SizeTMap V} {key : UInt64} {value : V} (h : mapInsert map key value = .ok map')
    (key' : UInt64) : mapGet map' key' =
      if Matches (sizeTKeying map.numBuckets) key' key then some value else mapGet map key' := by
  unfold mapInsert at h
  split at h
  · rename_i hnone
    cases h
    exact Table.get_insert hnone key'
  · cases h

theorem numBuckets_mapInsert {map map' : SizeTMap V} {key : UInt64} {value : V} (h : mapInsert map key value = .ok map') :
    map'.numBuckets = map.numBuckets := by
  unfold mapInsert at h
  split at h
  · cases h
    rfl
  · cases h

theorem size_mapInsert {map map' : SizeTMap V} {key : UInt64} {value : V} (h : mapInsert map key value = .ok map') :
    map'.size = map.size + 1 := by
  unfold mapInsert at h
  split at h
  · cases h
    exact (insertAt_perm (key, value) map.table.nodes).length_eq
  · cases h

/-- No two entries have one key, and there are only so many words. -/
theorem SizeTMap.size_le (map : SizeTMap V) : map.size ≤ 2 ^ 64 := by
  have hnodup : (map.table.nodes.map fun n => n.1.toNat).Nodup := by
    refine List.pairwise_map.mpr (map.table.fresh.imp fun {m n} h heq => h ?_)
    rw [UInt64.toNat_inj.mp heq]
    exact .refl _
  have hsub : (map.table.nodes.map fun n => n.1.toNat) ⊆ List.range (2 ^ 64) := by
    intro x hx
    obtain ⟨n, -, rfl⟩ := List.mem_map.mp hx
    exact List.mem_range.mpr n.1.toNat_lt
  have hlen := (hnodup.subperm hsub).length_le
  simpa [SizeTMap.size] using hlen

end Katana

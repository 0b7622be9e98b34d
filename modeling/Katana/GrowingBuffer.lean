/-
  Katana.GrowingBuffer — a byte buffer that grows as it is filled (util/growingBuffer.c).
-/
import Katana.Leb.Encode

namespace Katana

open Lib

/-- `len` is the length of `data`; both sizes are C ints. -/
structure GrowingBuffer where
  data : List UInt8
  allocated : Nat
  fits : data.length ≤ allocated
  isInt : allocated < 2 ^ 31
  deriving DecidableEq, Repr

namespace GrowingBuffer

def zero : GrowingBuffer := ⟨[], 0, by simp, by norm_num⟩

def len (buf : GrowingBuffer) : Nat := buf.data.length

theorem len_lt (buf : GrowingBuffer) : buf.len < 2 ^ 31 := lt_of_le_of_lt buf.fits buf.isInt

end GrowingBuffer

/-- Growing past the range of an int is undefined. -/
def addToGrowingBuffer (buf : GrowingBuffer) (data : List UInt8) : Except Fault GrowingBuffer :=
  if data.length = 0 then .ok buf
  else if hfit : buf.len + data.length ≤ buf.allocated then
    .ok ⟨buf.data ++ data, buf.allocated, by simpa [GrowingBuffer.len] using hfit, buf.isInt⟩
  else if hint : (buf.len + data.length) * 2 < 2 ^ 31 then
    .ok ⟨buf.data ++ data, (buf.len + data.length) * 2, by simp [GrowingBuffer.len]; omega, hint⟩
  else .error .undefined

def addUlebToGrowingBuffer (buf : GrowingBuffer) (data : Nat) : Except Fault GrowingBuffer :=
  addToGrowingBuffer buf (encodeAsLEB128 (toLE 8 data) false)

def addSlebToGrowingBuffer (buf : GrowingBuffer) (data : Nat) : Except Fault GrowingBuffer :=
  addToGrowingBuffer buf (encodeAsLEB128 (toLE 8 data) true)

theorem addToGrowingBuffer_ok {buf buf' : GrowingBuffer} {data : List UInt8}
    (h : addToGrowingBuffer buf data = .ok buf') : buf'.data = buf.data ++ data := by
  rw [addToGrowingBuffer] at h
  split at h
  · rename_i h0
    cases h
    rw [List.length_eq_zero_iff.mp h0, List.append_nil]
  · split at h
    · cases h; rfl
    · split at h
      · cases h; rfl
      · cases h

theorem addUlebToGrowingBuffer_ok {buf buf' : GrowingBuffer} {v : Nat} (hv : v < 2 ^ 64)
    (h : addUlebToGrowingBuffer buf v = .ok buf') : buf'.data = buf.data ++ uleb v := by
  rw [addToGrowingBuffer_ok h, encodeAsLEB128_toLE (by norm_num) (by norm_num) hv]

theorem bmod_ofInt {z : Int} (hlo : -2 ^ 63 ≤ z) (hhi : z < 2 ^ 63) : Int.bmod (UInt64.ofInt z).toNat (2 ^ 64) = z := by
  have hnat : ((UInt64.ofInt z).toNat : Int) = z % 2 ^ 64 := by
    unfold UInt64.ofInt
    rw [UInt64.toNat_ofNat']
    omega
  have hpow : (2 : Int) ^ 64 = ((2 ^ 64 : Nat) : Int) := by norm_num
  rw [hnat, hpow, Int.emod_bmod]
  exact Int.bmod_eq_of_le (by norm_num at *; omega) (by norm_num at *; omega)

theorem addSlebToGrowingBuffer_ok {buf buf' : GrowingBuffer} {z : Int} (hlo : -2 ^ 63 ≤ z) (hhi : z < 2 ^ 63)
    (h : addSlebToGrowingBuffer buf (UInt64.ofInt z).toNat = .ok buf') : buf'.data = buf.data ++ sleb z := by
  have hz := encodeAsLEB128_toLE_signed (v := (UInt64.ofInt z).toNat) (show 0 < 8 by norm_num) le_rfl
  rw [show (256 : Nat) ^ 8 = 2 ^ 64 by norm_num, bmod_ofInt hlo hhi] at hz
  rw [addToGrowingBuffer_ok h, hz]

/-- A buffer of less than a quarter of the range always takes as much again. -/
theorem addToGrowingBuffer_total {buf : GrowingBuffer} {data : List UInt8} (h : buf.len + data.length < 2 ^ 30) :
    ∃ buf', addToGrowingBuffer buf data = .ok buf' := by
  rw [addToGrowingBuffer]
  split
  · exact ⟨_, rfl⟩
  · split
    · exact ⟨_, rfl⟩
    · rw [dif_pos (by omega)]; exact ⟨_, rfl⟩

end Katana

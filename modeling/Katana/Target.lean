/-
  Katana.Target — reading and writing the memory of the target (patcher/target.c).

  Memory is peeked at and poked word by word; a word with an unmapped byte ends katana. Reads go in
  steps of four bytes, and copy up to eight out of a variable of four. Writes start with the rest of a word that the address is inside of, go on word by
  word, and complete the last word with what is there.

  Proved, for every memory, address and length:
  - `memcpyFromTarget_ok`: what is read is the run of bytes at the address.
  - `memcpyToTarget_ok`: the bytes of the run are written and no others. A negative length is written as
    the run up to the next word boundary.
  - `memcpyToTarget_fails`: a copy of a length that an int counts ends without a result only at a word that is not mapped.
  - `memcpyFromTarget_ends` / `memcpyToTarget_ends`: and it ends with one exactly when the words it comes to are mapped.
  - `copiesBack_behind`: with every word mapped, a run is written and read back, up to the length at which
    the ints of the loops overflow, if what is behind the variable can be read.
  - `copiesBack_iff`: if it can not, nothing is.
-/
import Katana.Fault
import Katana.Lib.Memory

namespace Katana

open Lib

/-- What katana does not do itself: which bytes are mapped, and `malloc` in the target. -/
structure Process (H : Type) where
  mapped : H → UInt64 → Bool
  malloc : H → UInt64 → UInt64 × H

structure Target (H : Type) where
  bytes : Memory
  heap : H
  mallocAddress : UInt64
  targetTextStart : UInt64

def ptraceWordSize : Nat := 8

variable {H : Type} (process : Process H)

def ptraceFailed : Fault := .death ""

def wordMapped (heap : H) (addr : UInt64) : Bool :=
  (List.range ptraceWordSize).all fun k => process.mapped heap (addr + UInt64.ofNat k)

def peekData (t : Target H) (addr : UInt64) : Except Fault (List UInt8) :=
  if wordMapped process t.heap addr then .ok (t.bytes.read addr ptraceWordSize) else .error ptraceFailed

/-- `PTRACE_POKEDATA`, which `EKCF_CHECK_PTRACE_WRITES` peeks at again. -/
def modifyTarget (t : Target H) (addr : UInt64) (value : List UInt8) : Except Fault (Target H) :=
  if wordMapped process t.heap addr then .ok { t with bytes := t.bytes.write addr value } else .error ptraceFailed

/-- `memcpy` of so many bytes from `val`, which has four. What is behind it must not be read; where it is read nevertheless
(`behind`), it is what the stack has there. -/
def copyVal (behind : Bool) (val : List UInt8) (n : Nat) : Except Fault (List UInt8) := do
  defined (behind = true ∨ n ≤ 4)
  .ok (val.take n)

/-- The loop over the bytes that are left. Of what is copied, the bytes from behind `val` are those over which the next turn
writes. -/
def copyFromTargetLoop (behind : Bool) (t : Target H) : UInt64 → Nat → Except Fault (List UInt8)
  | addr, n + 4 => do
    let val ← peekData process t addr
    let copied ← copyVal behind val (min ptraceWordSize (n + 4))
    let rest ← copyFromTargetLoop behind t (addr + 4) n
    .ok (copied.take 4 ++ rest)
  | _, 0 => .ok []
  | addr, n => do
    let val ← peekData process t addr
    copyVal behind val n

/-- `i` and `i+PTRACE_WORD_SIZE` are ints. -/
def loopBound : Nat := 2 ^ 31 - 8

def copyFromTarget (behind : Bool) (t : Target H) (addr : UInt64) (numBytes : Int32) : Except Fault (List UInt8) := do
  defined (numBytes.toInt.toNat ≤ loopBound)
  copyFromTargetLoop process behind t addr numBytes.toInt.toNat

/-- The loop from an aligned address. -/
def copyToTargetLoop (behind : Bool) (t : Target H) (addr : UInt64) (data : List UInt8) : Nat → Except Fault (Target H)
  | n + 8 => do
    let t ← modifyTarget process t addr (data.take 8)
    copyToTargetLoop behind t (addr + 8) (data.drop 8) n
  | 0 => .ok t
  | n => do
    let tmp ← copyFromTargetLoop process behind t addr ptraceWordSize
    modifyTarget process t addr (data.take n ++ tmp.drop n)

/-- How many bytes go into the word that `addr` is inside of; the comparison is one of words. -/
def bytesInFirstWord (misalignment : UInt64) (numBytes : Int32) : Int32 :=
  if 8 - misalignment > numBytes.toInt64.toUInt64 then numBytes else (8 - misalignment).toUInt32.toInt32

def copyToTarget (behind : Bool) (t : Target H) (addr : UInt64) (data : List UInt8) (numBytes : Int32) :
    Except Fault (Target H) := do
  let misalignment := addr % 8
  if misalignment = 0 then
    defined (numBytes.toInt.toNat ≤ loopBound)
    copyToTargetLoop process behind t addr data numBytes.toInt.toNat
  else
    let firstWord ← copyFromTargetLoop process behind t (addr - misalignment) ptraceWordSize
    let bytesInWd := bytesInFirstWord misalignment numBytes
    let n := bytesInWd.toInt.toNat
    let t ← modifyTarget process t (addr - misalignment)
      (firstWord.take misalignment.toNat ++ data.take n ++ firstWord.drop (misalignment.toNat + n))
    defined (-2 ^ 31 ≤ numBytes.toInt - bytesInWd.toInt)
    let numBytes := numBytes - bytesInWd
    if numBytes = 0 then .ok t
    else
      defined (numBytes.toInt.toNat ≤ loopBound)
      copyToTargetLoop process behind t (addr + bytesInWd.toInt64.toUInt64) (data.drop n) numBytes.toInt.toNat

/-- The copies of a program that does read behind `val`. -/
def memcpyFromTarget (t : Target H) (addr : UInt64) (numBytes : Int32) : Except Fault (List UInt8) :=
  copyFromTarget process true t addr numBytes

def memcpyToTarget (t : Target H) (addr : UInt64) (data : List UInt8) (numBytes : Int32) : Except Fault (Target H) :=
  copyToTarget process true t addr data numBytes

/-- The call of `malloc`, for which the text is changed and put back. -/
def mallocTarget (t : Target H) (len : UInt64) : Except Fault (UInt64 × Target H) := do
  if t.mallocAddress = 0 then .error (.death "location of malloc is unknown\n")
  else if t.targetTextStart = 0 then .error (.death "location of target's start of text\n")
  else
    let answer := process.malloc t.heap len
    if answer.1 = 0 then .error (.death ("malloc in target of size " ++ toString len.toUInt32.toInt32.toInt ++ " failed\n"))
    else .ok (answer.1, { t with heap := answer.2 })

def wordsRead : UInt64 → Nat → List UInt64
  | addr, n + 4 => addr :: wordsRead (addr + 4) n
  | _, 0 => []
  | addr, _ => [addr]

/-- Those that the loop over words peeks and pokes at. -/
def wordsLooped : UInt64 → Nat → List UInt64
  | addr, n + 8 => addr :: wordsLooped (addr + 8) n
  | _, 0 => []
  | addr, _ => wordsRead addr ptraceWordSize ++ [addr]

def wordsWritten (addr : UInt64) (n : Nat) : List UInt64 :=
  if addr % 8 = 0 then wordsLooped addr n
  else
    let k := min (8 - (addr % 8).toNat) n
    wordsRead (addr - addr % 8) ptraceWordSize ++ (addr - addr % 8) :: wordsLooped (addr + UInt64.ofNat k) (n - k)

/-! ## What is read and written -/

section
variable {process}

theorem peekData_ok {t : Target H} {addr : UInt64} {val : List UInt8} (h : peekData process t addr = .ok val) :
    val = t.bytes.read addr 8 := by
  unfold peekData at h
  split at h
  · cases h
    rfl
  · cases h

theorem modifyTarget_ok {t t' : Target H} {addr : UInt64} {value : List UInt8}
    (h : modifyTarget process t addr value = .ok t') : t' = { t with bytes := t.bytes.write addr value } := by
  unfold modifyTarget at h
  split at h
  · cases h
    rfl
  · cases h

theorem copyVal_ok {behind : Bool} {val copied : List UInt8} {n : Nat} (h : copyVal behind val n = .ok copied) :
    (behind = true ∨ n ≤ 4) ∧ copied = val.take n := by
  unfold copyVal at h
  by_cases hread : behind = true ∨ n ≤ 4
  · rw [defined_of hread] at h
    cases h
    exact ⟨hread, rfl⟩
  · rw [defined_not hread] at h
    cases h

theorem copyVal_behind (val : List UInt8) (n : Nat) : copyVal true val n = .ok (val.take n) := rfl

theorem copyFromTargetLoop_ok {behind : Bool} {t : Target H} {n : Nat} {addr : UInt64} {data : List UInt8}
    (h : copyFromTargetLoop process behind t addr n = .ok data) : data = t.bytes.read addr n := by
  induction n using Nat.strongRecOn generalizing addr data with
  | ind n ih =>
    unfold copyFromTargetLoop at h
    split at h
    · rename_i n
      obtain ⟨val, hval, h⟩ := bind_eq_ok.mp h
      obtain ⟨copied, hcopied, h⟩ := bind_eq_ok.mp h
      obtain ⟨rest, hrest, h⟩ := bind_eq_ok.mp h
      cases h
      have hfour : copied.take 4 = val.take 4 := by
        rw [(copyVal_ok hcopied).2, List.take_take, ptraceWordSize, Nat.min_eq_left (by omega)]
      have hsplit : t.bytes.read addr (n + 4) = t.bytes.read addr 4 ++ t.bytes.read (addr + 4) n := by
        rw [Nat.add_comm n 4, Memory.read_append]
        rfl
      rw [hfour, peekData_ok hval, ih n (by omega) hrest, Memory.read_take _ _ 8 4 (by omega)]
      exact hsplit.symm
    · cases h
      rfl
    · rename_i hlarge hzero
      have hsmall : n < 4 := by
        by_contra hle
        exact hlarge (n - 4) (by omega)
      obtain ⟨val, hval, h⟩ := bind_eq_ok.mp h
      rw [(copyVal_ok h).2, peekData_ok hval, Memory.read_take _ _ 8 n (by omega)]

theorem copyFromTarget_ok {behind : Bool} {t : Target H} {addr : UInt64} {numBytes : Int32} {data : List UInt8}
    (h : copyFromTarget process behind t addr numBytes = .ok data) : data = t.bytes.read addr numBytes.toInt.toNat := by
  unfold copyFromTarget at h
  obtain ⟨-, -, h⟩ := bind_eq_ok.mp h
  exact copyFromTargetLoop_ok h

theorem memcpyFromTarget_ok {t : Target H} {addr : UInt64} {numBytes : Int32} {data : List UInt8}
    (h : memcpyFromTarget process t addr numBytes = .ok data) : data = t.bytes.read addr numBytes.toInt.toNat :=
  copyFromTarget_ok h

theorem copyToTargetLoop_ok {behind : Bool} {n : Nat} {t t' : Target H} {addr : UInt64} {data : List UInt8}
    (hlen : n ≤ data.length) (h : copyToTargetLoop process behind t addr data n = .ok t') :
    t' = { t with bytes := t.bytes.write addr (data.take n) } := by
  induction n using Nat.strongRecOn generalizing t addr data with
  | ind n ih =>
    unfold copyToTargetLoop at h
    split at h
    · rename_i n
      obtain ⟨t1, h1, h⟩ := bind_eq_ok.mp h
      have hsplit : data.take (n + 8) = data.take 8 ++ (data.drop 8).take n := by
        rw [Nat.add_comm n 8, List.take_add]
      rw [ih n (by omega) (by rw [List.length_drop]; omega) h, modifyTarget_ok h1, hsplit, Memory.write_append,
        List.length_take_of_le (by omega)]
      rfl
    · cases h
      rfl
    · rename_i hlarge hzero
      have hsmall : n < 8 := by
        by_contra hle
        exact hlarge (n - 8) (by omega)
      obtain ⟨tmp, htmp, h⟩ := bind_eq_ok.mp h
      have hbefore := Memory.write_before t.bytes addr (data.take n) (8 - n) (by rw [List.length_take_of_le hlen]; omega)
      rw [List.length_take_of_le hlen] at hbefore
      rw [modifyTarget_ok h, copyFromTargetLoop_ok htmp, ptraceWordSize, Memory.read_drop _ _ 8 n (by omega), hbefore]

/-- The number of bytes that are written; a negative length ends at the word boundary. -/
def writtenCount (addr : UInt64) (numBytes : Int32) : Nat :=
  if 0 ≤ numBytes.toInt then numBytes.toInt.toNat else (8 - (addr % 8).toNat) % 8

theorem toUInt64_toNat (b : Int32) : (b.toInt64.toUInt64.toNat : Int) =
    if 0 ≤ b.toInt then b.toInt else b.toInt + 2 ^ 64 := by
  have h : b.toInt64.toInt = b.toInt := Int32.toInt_toInt64 b
  have hcond := BitVec.toInt_eq_toNat_cond b.toInt64.toBitVec
  have hlt := b.toInt64.toUInt64.toNat_lt
  have hnat : b.toInt64.toBitVec.toNat = b.toInt64.toUInt64.toNat := rfl
  have hint : b.toInt64.toBitVec.toInt = b.toInt64.toInt := rfl
  rw [hint, h, hnat] at hcond
  split at hcond <;> split <;> omega

theorem offset_toUInt64 {b : Int32} (h : 0 ≤ b.toInt) : b.toInt64.toUInt64 = UInt64.ofNat b.toInt.toNat := by
  have hval := toUInt64_toNat b
  rw [if_pos h] at hval
  rw [← UInt64.toNat_inj, UInt64.toNat_ofNat_of_lt']
  · omega
  · have hlt := b.toInt64.toUInt64.toNat_lt
    show b.toInt.toNat < 2 ^ 64
    omega

theorem small_toInt {x : UInt64} (h : x.toNat ≤ 8) : x.toUInt32.toInt32.toInt = x.toNat := by
  have hnat : x.toUInt32.toInt32.toBitVec.toNat = x.toNat := by
    have : x.toUInt32.toInt32.toBitVec.toNat = x.toUInt32.toNat := rfl
    rw [this, UInt64.toNat_toUInt32, Nat.mod_eq_of_lt (by omega)]
  have hcond := BitVec.toInt_eq_toNat_cond x.toUInt32.toInt32.toBitVec
  rw [hnat] at hcond
  have hint : x.toUInt32.toInt32.toBitVec.toInt = x.toUInt32.toInt32.toInt := rfl
  rw [hint] at hcond
  split at hcond <;> omega

theorem bytesInFirstWord_toInt {misalignment : UInt64} (h : misalignment.toNat < 8) (numBytes : Int32) :
    (bytesInFirstWord misalignment numBytes).toInt =
      if 0 ≤ numBytes.toInt then min (8 - misalignment.toNat : Int) numBytes.toInt else 8 - misalignment.toNat := by
  have hrest : (8 - misalignment).toNat = 8 - misalignment.toNat := by
    rw [UInt64.toNat_sub_of_le _ _ (UInt64.le_iff_toNat_le.mpr (by simp; omega))]
    rfl
  have hval := toUInt64_toNat numBytes
  have hrange := numBytes.le_toInt
  unfold bytesInFirstWord
  split
  · rename_i hgt
    have hlt : numBytes.toInt64.toUInt64.toNat < 8 - misalignment.toNat := by
      rw [← hrest]
      exact hgt
    split <;> split at hval <;> omega
  · rename_i hgt
    have hle : 8 - misalignment.toNat ≤ numBytes.toInt64.toUInt64.toNat := by
      rw [← hrest]
      exact Nat.le_of_not_lt hgt
    rw [small_toInt (by omega), hrest]
    split <;> split at hval <;> omega

/-- **The bytes of the run are written and no others.** -/
theorem copyToTarget_ok {behind : Bool} {t t' : Target H} {addr : UInt64} {data : List UInt8} {numBytes : Int32}
    (hlen : writtenCount addr numBytes ≤ data.length) (h : copyToTarget process behind t addr data numBytes = .ok t') :
    t' = { t with bytes := t.bytes.write addr (data.take (writtenCount addr numBytes)) } := by
  unfold copyToTarget at h
  by_cases halign : addr % 8 = 0
  · have hcount : writtenCount addr numBytes = numBytes.toInt.toNat := by
      unfold writtenCount
      rw [halign]
      split
      · rfl
      · rw [Int.toNat_of_nonpos (by omega)]
        rfl
    rw [if_pos halign] at h
    obtain ⟨-, -, h⟩ := bind_eq_ok.mp h
    rw [hcount] at hlen ⊢
    exact copyToTargetLoop_ok hlen h
  · rw [if_neg halign] at h
    have hsmall : (addr % 8).toNat < 8 := by
      rw [UInt64.toNat_mod]
      exact Nat.mod_lt _ (by decide)
    have hpos : 0 < (addr % 8).toNat := Nat.pos_of_ne_zero fun hzero => halign (UInt64.toNat_inj.mp hzero)
    have hb := bytesInFirstWord_toInt hsmall numBytes
    have hback : addr - addr % 8 + UInt64.ofNat (addr % 8).toNat = addr := by
      rw [UInt64.ofNat_toNat, UInt64.sub_add_cancel]
    generalize hm : (addr % 8).toNat = m at *
    generalize hbw : bytesInFirstWord (addr % 8) numBytes = b at *
    obtain ⟨firstWord, hfirst, h⟩ := bind_eq_ok.mp h
    dsimp only at h
    obtain ⟨t1, h1, h⟩ := bind_eq_ok.mp h
    have hnonneg : 0 ≤ b.toInt := by
      rw [hb]
      split <;> omega
    have hcount : writtenCount addr numBytes = if 0 ≤ numBytes.toInt then numBytes.toInt.toNat else b.toInt.toNat := by
      unfold writtenCount
      rw [hm]
      split
      · rfl
      · rename_i hneg
        rw [if_neg hneg] at hb
        omega
    -- the first word: its old bytes, the first of the run, and its old bytes again
    have hfill : t1 = { t with bytes := t.bytes.write addr (data.take b.toInt.toNat) } := by
      have hle : b.toInt.toNat ≤ data.length := by
        rw [hcount] at hlen
        split at hb <;> split at hlen <;> omega
      have hn : (data.take b.toInt.toNat).length = b.toInt.toNat := List.length_take_of_le hle
      have hmb : m + b.toInt.toNat ≤ 8 := by
        split at hb <;> omega
      rw [modifyTarget_ok h1, copyFromTargetLoop_ok hfirst, ptraceWordSize, Memory.read_take _ _ 8 m (by omega),
        Memory.read_drop _ _ 8 _ hmb]
      have haround := Memory.write_around t.bytes (addr - addr % 8) m (data.take b.toInt.toNat)
        (8 - (m + b.toInt.toNat)) (by omega)
      rw [hback, hn] at haround
      rw [UInt64.ofNat_add, ← UInt64.add_assoc, hback, haround]
    obtain ⟨u, hdefined, h⟩ := bind_eq_ok.mp h
    have hleft : (numBytes - b).toInt = numBytes.toInt - b.toInt := by
      have hlow : -2 ^ 31 ≤ numBytes.toInt - b.toInt := by
        by_contra hno
        rw [defined_not hno] at hdefined
        cases hdefined
      have hhigh := numBytes.toInt_lt
      rw [Int32.toInt_sub, Int.bmod_eq_of_le] <;> omega
    have htotal : writtenCount addr numBytes = b.toInt.toNat + (numBytes - b).toInt.toNat := by
      rw [hcount, hleft]
      split at hb <;> split <;> omega
    rw [htotal] at hlen ⊢
    split at h
    · rename_i hzero
      cases h
      rw [hfill, hzero]
      simp
    · obtain ⟨-, -, h⟩ := bind_eq_ok.mp h
      rw [copyToTargetLoop_ok (by rw [List.length_drop]; omega) h, hfill, List.take_add, Memory.write_append,
        List.length_take_of_le (by omega), offset_toUInt64 hnonneg]

theorem memcpyToTarget_ok {t t' : Target H} {addr : UInt64} {data : List UInt8} {numBytes : Int32}
    (hlen : writtenCount addr numBytes ≤ data.length) (h : memcpyToTarget process t addr data numBytes = .ok t') :
    t' = { t with bytes := t.bytes.write addr (data.take (writtenCount addr numBytes)) } :=
  copyToTarget_ok hlen h

theorem writtenCount_four (addr : UInt64) : writtenCount addr 4 = 4 := by
  unfold writtenCount
  exact if_pos (by decide)

/-- Four bytes are written. -/
theorem memcpyToTarget_four {t t' : Target H} {addr : UInt64} {data : List UInt8} (hlen : 4 ≤ data.length)
    (h : memcpyToTarget process t addr data 4 = .ok t') : t' = { t with bytes := t.bytes.write addr (data.take 4) } := by
  have hok := memcpyToTarget_ok (by rw [writtenCount_four]; exact hlen) h
  rw [writtenCount_four] at hok
  exact hok

end

/-! ## What can go wrong -/

section
variable {process} {t : Target H} {e : Fault}

theorem peekData_fails {addr : UInt64} (h : peekData process t addr = .error e) : e = ptraceFailed := by
  unfold peekData at h
  split at h
  · cases h
  · cases h
    rfl

theorem modifyTarget_fails {addr : UInt64} {value : List UInt8} (h : modifyTarget process t addr value = .error e) :
    e = ptraceFailed := by
  unfold modifyTarget at h
  split at h
  · cases h
  · cases h
    rfl

theorem copyFromTargetLoop_fails {n : Nat} {addr : UInt64} (h : copyFromTargetLoop process true t addr n = .error e) :
    e = ptraceFailed := by
  induction n using Nat.strongRecOn generalizing addr with
  | ind n ih =>
    unfold copyFromTargetLoop at h
    split at h
    · rename_i n
      rcases bind_eq_error.mp h with h | ⟨val, -, h⟩
      · exact peekData_fails h
      · rw [copyVal_behind, bind_ok] at h
        rcases bind_eq_error.mp h with h | ⟨rest, -, h⟩
        · exact ih n (by omega) h
        · cases h
    · cases h
    · rcases bind_eq_error.mp h with h | ⟨val, -, h⟩
      · exact peekData_fails h
      · cases h

theorem memcpyFromTarget_fails {addr : UInt64} {numBytes : Int32} (hbound : numBytes.toInt.toNat ≤ loopBound)
    (h : memcpyFromTarget process t addr numBytes = .error e) : e = ptraceFailed := by
  unfold memcpyFromTarget copyFromTarget at h
  rw [defined_of hbound, bind_ok] at h
  exact copyFromTargetLoop_fails h

theorem copyToTargetLoop_fails {n : Nat} {addr : UInt64} {data : List UInt8}
    (h : copyToTargetLoop process true t addr data n = .error e) : e = ptraceFailed := by
  induction n using Nat.strongRecOn generalizing t addr data with
  | ind n ih =>
    unfold copyToTargetLoop at h
    split at h
    · rename_i n
      rcases bind_eq_error.mp h with h | ⟨t', -, h⟩
      · exact modifyTarget_fails h
      · exact ih n (by omega) h
    · cases h
    · rcases bind_eq_error.mp h with h | ⟨tmp, -, h⟩
      · exact copyFromTargetLoop_fails h
      · exact modifyTarget_fails h

theorem misalignment_lt (addr : UInt64) : (addr % 8).toNat < 8 := by
  rw [UInt64.toNat_mod]
  exact Nat.mod_lt _ (by decide)

/-- The bytes that go into the first word, and those that are left. -/
theorem firstWord_counted {numBytes : Int32} (hnonneg : 0 ≤ numBytes.toInt) (addr : UInt64) :
    (bytesInFirstWord (addr % 8) numBytes).toInt = (min (8 - (addr % 8).toNat) numBytes.toInt.toNat : Nat) ∧
      (numBytes - bytesInFirstWord (addr % 8) numBytes).toInt =
        (numBytes.toInt.toNat - min (8 - (addr % 8).toNat) numBytes.toInt.toNat : Nat) := by
  have hsmall := misalignment_lt addr
  have hb := bytesInFirstWord_toInt hsmall numBytes
  rw [if_pos hnonneg] at hb
  have hleft : (numBytes - bytesInFirstWord (addr % 8) numBytes).toInt =
    numBytes.toInt - (bytesInFirstWord (addr % 8) numBytes).toInt := by
    have hhigh := numBytes.toInt_lt
    rw [Int32.toInt_sub, Int.bmod_eq_of_le] <;> omega
  exact ⟨by omega, by omega⟩

/-- The bytes that are left after the first word are counted by an int. -/
theorem left_counted {numBytes : Int32} (hnonneg : 0 ≤ numBytes.toInt) (hbound : numBytes.toInt.toNat ≤ loopBound)
    (addr : UInt64) :
    -2 ^ 31 ≤ numBytes.toInt - (bytesInFirstWord (addr % 8) numBytes).toInt ∧
      (numBytes - bytesInFirstWord (addr % 8) numBytes).toInt.toNat ≤ loopBound := by
  obtain ⟨hfirst, hleft⟩ := firstWord_counted hnonneg addr
  rw [hfirst, hleft, Int.toNat_natCast]
  omega

theorem memcpyToTarget_fails {addr : UInt64} {data : List UInt8} {numBytes : Int32} (hnonneg : 0 ≤ numBytes.toInt)
    (hbound : numBytes.toInt.toNat ≤ loopBound) (h : memcpyToTarget process t addr data numBytes = .error e) :
    e = ptraceFailed := by
  unfold memcpyToTarget copyToTarget at h
  by_cases halign : addr % 8 = 0
  · rw [if_pos halign, defined_of hbound] at h
    exact copyToTargetLoop_fails h
  · obtain ⟨hlow, hrest⟩ := left_counted hnonneg hbound addr
    rw [if_neg halign] at h
    rcases bind_eq_error.mp h with h | ⟨firstWord, -, h⟩
    · exact copyFromTargetLoop_fails h
    · rcases bind_eq_error.mp h with h | ⟨t', -, h⟩
      · exact modifyTarget_fails h
      · rw [defined_of hlow, bind_ok] at h
        dsimp only at h
        split at h
        · cases h
        · rw [defined_of hrest] at h
          exact copyToTargetLoop_fails h

end

/-! ## Which words are mapped -/

section
variable {process} {t : Target H}

/-- A computation in two steps ends when both do. -/
theorem bind_ends {α β : Type} {x : Except Fault α} {f : α → Except Fault β} {P Q : Prop} (hx : (∃ a, x = .ok a) ↔ P)
    (hf : ∀ a, x = .ok a → ((∃ b, f a = .ok b) ↔ Q)) : (∃ b, (x >>= f) = .ok b) ↔ P ∧ Q := by
  cases h : x with
  | ok a =>
    rw [bind_ok, hf a h]
    have hP := hx.mp ⟨a, h⟩
    exact ⟨fun hQ => ⟨hP, hQ⟩, fun hPQ => hPQ.2⟩
  | error e =>
    have hnot : ¬ P := by
      intro hP
      obtain ⟨a, ha⟩ := hx.mpr hP
      rw [h] at ha
      cases ha
    refine ⟨fun hb => ?_, fun hPQ => absurd hPQ.1 hnot⟩
    obtain ⟨b, hb⟩ := hb
    cases hb

theorem peekData_ends {addr : UInt64} : (∃ val, peekData process t addr = .ok val) ↔ wordMapped process t.heap addr := by
  unfold peekData
  split
  · rename_i h
    simp [h]
  · rename_i h
    simp [h]

theorem modifyTarget_ends {addr : UInt64} {value : List UInt8} :
    (∃ t', modifyTarget process t addr value = .ok t') ↔ wordMapped process t.heap addr := by
  unfold modifyTarget
  split
  · rename_i h
    simp [h]
  · rename_i h
    simp [h]

theorem wordsRead_small {addr : UInt64} {n : Nat} (hlarge : ∀ k, n ≠ k + 4) (hzero : n ≠ 0) : wordsRead addr n = [addr] := by
  match n, hlarge, hzero with
  | 1, _, _ => rfl
  | 2, _, _ => rfl
  | 3, _, _ => rfl
  | k + 4, hlarge, _ => exact absurd rfl (hlarge k)

theorem wordsLooped_small {addr : UInt64} {n : Nat} (hlarge : ∀ k, n ≠ k + 8) (hzero : n ≠ 0) :
    wordsLooped addr n = wordsRead addr ptraceWordSize ++ [addr] := by
  match n, hlarge, hzero with
  | 1, _, _ => rfl
  | 2, _, _ => rfl
  | 3, _, _ => rfl
  | 4, _, _ => rfl
  | 5, _, _ => rfl
  | 6, _, _ => rfl
  | 7, _, _ => rfl
  | k + 8, hlarge, _ => exact absurd rfl (hlarge k)

theorem copyFromTargetLoop_ends {n : Nat} {addr : UInt64} : (∃ data, copyFromTargetLoop process true t addr n = .ok data) ↔
    ∀ w ∈ wordsRead addr n, wordMapped process t.heap w := by
  induction n using Nat.strongRecOn generalizing addr with
  | ind n ih =>
    unfold copyFromTargetLoop
    split
    · rename_i n
      rw [wordsRead, List.forall_mem_cons]
      refine bind_ends peekData_ends fun val _ => ?_
      rw [copyVal_behind, bind_ok, ← and_true (∀ w ∈ wordsRead (addr + 4) n, _)]
      exact bind_ends (ih n (by omega)) fun rest _ => ⟨fun _ => trivial, fun _ => ⟨_, rfl⟩⟩
    · simp [wordsRead]
    · rename_i hlarge hzero
      rw [wordsRead_small hlarge hzero, List.forall_mem_singleton, ← and_true (wordMapped process t.heap addr = true)]
      exact bind_ends peekData_ends fun val _ => ⟨fun _ => trivial, fun _ => ⟨_, rfl⟩⟩

theorem copyToTargetLoop_ends {n : Nat} {addr : UInt64} {data : List UInt8} :
    (∃ t', copyToTargetLoop process true t addr data n = .ok t') ↔ ∀ w ∈ wordsLooped addr n, wordMapped process t.heap w := by
  induction n using Nat.strongRecOn generalizing t addr data with
  | ind n ih =>
    unfold copyToTargetLoop
    split
    · rename_i n
      rw [wordsLooped, List.forall_mem_cons]
      refine bind_ends modifyTarget_ends fun t' ht' => ?_
      rw [ih n (by omega), modifyTarget_ok ht']
    · simp [wordsLooped]
    · rename_i hlarge hzero
      rw [wordsLooped_small hlarge hzero, List.forall_mem_append, List.forall_mem_singleton]
      exact bind_ends copyFromTargetLoop_ends fun tmp _ => modifyTarget_ends

/-- A read of a length that an int counts ends exactly when the words it peeks at are mapped. -/
theorem memcpyFromTarget_ends {addr : UInt64} {numBytes : Int32} : (∃ data, memcpyFromTarget process t addr numBytes = .ok data) ↔
    numBytes.toInt.toNat ≤ loopBound ∧ ∀ w ∈ wordsRead addr numBytes.toInt.toNat, wordMapped process t.heap w := by
  unfold memcpyFromTarget copyFromTarget
  by_cases hbound : numBytes.toInt.toNat ≤ loopBound
  · rw [defined_of hbound, bind_ok, copyFromTargetLoop_ends]
    exact ⟨fun h => ⟨hbound, h⟩, fun h => h.2⟩
  · rw [defined_not hbound]
    refine ⟨fun h => ?_, fun h => absurd h.1 hbound⟩
    obtain ⟨data, hdata⟩ := h
    cases hdata

/-- And so does a write. -/
theorem memcpyToTarget_ends {addr : UInt64} {data : List UInt8} {numBytes : Int32} (hnonneg : 0 ≤ numBytes.toInt)
    (hbound : numBytes.toInt.toNat ≤ loopBound) : (∃ t', memcpyToTarget process t addr data numBytes = .ok t') ↔
      ∀ w ∈ wordsWritten addr numBytes.toInt.toNat, wordMapped process t.heap w := by
  unfold memcpyToTarget copyToTarget wordsWritten
  by_cases halign : addr % 8 = 0
  · rw [if_pos halign, if_pos halign, defined_of hbound, bind_ok, copyToTargetLoop_ends]
  · obtain ⟨hlow, hrest⟩ := left_counted hnonneg hbound addr
    obtain ⟨hfirst, hleft⟩ := firstWord_counted hnonneg addr
    rw [if_neg halign, if_neg halign, List.forall_mem_append, List.forall_mem_cons]
    refine bind_ends copyFromTargetLoop_ends fun firstWord _ => ?_
    refine bind_ends modifyTarget_ends fun t' ht' => ?_
    rw [modifyTarget_ok ht', defined_of hlow, bind_ok]
    dsimp only
    split
    · rename_i hzero
      rw [hzero] at hleft
      have hnone : numBytes.toInt.toNat - min (8 - (addr % 8).toNat) numBytes.toInt.toNat = 0 :=
        (Int.ofNat_eq_zero.mp hleft.symm)
      rw [hnone]
      simp [wordsLooped]
    · rw [defined_of hrest, bind_ok, copyToTargetLoop_ends, hleft, Int.toNat_natCast, offset_toUInt64 (by omega), hfirst,
        Int.toNat_natCast]

end

/-! ## Byte copies -/

section
variable {H : Type} {malloc : H → UInt64 → UInt64 × H}

/-- A target with every word mapped. -/
def mappedProcess (malloc : H → UInt64 → UInt64 × H) : Process H := ⟨fun _ _ => true, malloc⟩

theorem wordMapped_mapped (heap : H) (addr : UInt64) : wordMapped (mappedProcess malloc) heap addr = true := by
  unfold wordMapped
  rw [List.all_eq_true]
  intro k _
  rfl

/-- A length the loop's ints can count to is read. -/
theorem memcpyFromTarget_total (t : Target H) (addr : UInt64) {numBytes : Int32} (h : numBytes.toInt.toNat ≤ loopBound) :
    memcpyFromTarget (mappedProcess malloc) t addr numBytes = .ok (t.bytes.read addr numBytes.toInt.toNat) := by
  obtain ⟨data, hdata⟩ := memcpyFromTarget_ends.mpr ⟨h, fun w _ => @wordMapped_mapped _ malloc t.heap w⟩
  rw [hdata, memcpyFromTarget_ok hdata]

theorem memcpyToTarget_total (t : Target H) (addr : UInt64) (data : List UInt8) {numBytes : Int32}
    (hnonneg : 0 ≤ numBytes.toInt)
    (h : numBytes.toInt.toNat ≤ loopBound) : ∃ t', memcpyToTarget (mappedProcess malloc) t addr data numBytes = .ok t' :=
  (memcpyToTarget_ends hnonneg h).mpr fun w _ => wordMapped_mapped t.heap w

def Copied (before after : Memory) (addr : UInt64) (data : List UInt8) : Prop :=
  (∀ i, ∀ b, data[i]? = some b → after (addr + UInt64.ofNat i) = b) ∧
  ∀ x, (∀ i < data.length, x ≠ addr + UInt64.ofNat i) → after x = before x

/-- The copy ends, and what is read back is what was written. -/
def CopiesBack (behind : Bool) (malloc : H → UInt64 → UInt64 × H) (t : Target H) (addr : UInt64) (data : List UInt8)
    (numBytes : Int32) : Prop :=
  ∃ t', copyToTarget (mappedProcess malloc) behind t addr data numBytes = .ok t' ∧ Copied t.bytes t'.bytes addr data ∧
    copyFromTarget (mappedProcess malloc) behind t' addr numBytes = .ok data

theorem copied_write (m : Memory) (addr : UInt64) {data : List UInt8} (h : data.length ≤ 2 ^ 64) :
    Copied m (m.write addr data) addr data := by
  refine ⟨?_, ?_⟩
  · intro i b hi
    exact Memory.write_inside m addr h hi
  · intro x hx
    exact Memory.write_outside m addr h hx

/-- **Where what is behind `val` is read as it is, a run is copied to the target and back exactly when the ints of the loops
count to its end.** -/
theorem copiesBack_behind (malloc : H → UInt64 → UInt64 × H) (t : Target H) (addr : UInt64) (data : List UInt8)
    (numBytes : Int32) (hcount : numBytes.toInt = data.length) :
    CopiesBack true malloc t addr data numBytes ↔ data.length ≤ loopBound := by
  have hnat : numBytes.toInt.toNat = data.length := by
    rw [hcount]
    rfl
  refine ⟨?_, ?_⟩
  · intro h
    by_contra hlong
    obtain ⟨t', -, -, hread⟩ := h
    unfold copyFromTarget at hread
    rw [defined_not (by rw [hnat]; exact hlong)] at hread
    cases hread
  · intro h
    have hbound : numBytes.toInt.toNat ≤ loopBound := by
      rw [hnat]
      exact h
    have hnonneg : 0 ≤ numBytes.toInt := by
      omega
    obtain ⟨t', ht'⟩ := memcpyToTarget_total t addr data hnonneg hbound
    have hwritten : writtenCount addr numBytes = data.length := by
      unfold writtenCount
      rw [if_pos hnonneg, hnat]
    have hbytes := memcpyToTarget_ok (by omega) ht'
    rw [hwritten, List.take_length] at hbytes
    refine ⟨t', ht', ?_, ?_⟩
    · rw [hbytes]
      exact copied_write _ _ (by have hlt := numBytes.toInt_lt; omega)
    · refine (memcpyFromTarget_total _ _ hbound).trans ?_
      rw [hbytes, hnat]
      exact congrArg _ (Memory.read_write _ _ (by have hlt := numBytes.toInt_lt; omega))

/-! ### Without reading behind `val` -/

section
variable {process : Process H} {t : Target H}

/-- A run that is longer than `val` is read from behind it in the first turn. -/
theorem copyFromTargetLoop_long {addr : UInt64} {n : Nat} {data : List UInt8}
    (h : copyFromTargetLoop process false t addr n = .ok data) : n ≤ 4 := by
  unfold copyFromTargetLoop at h
  split at h
  · rename_i n
    obtain ⟨val, -, h⟩ := bind_eq_ok.mp h
    obtain ⟨copied, hcopied, -⟩ := bind_eq_ok.mp h
    have hfour := (copyVal_ok hcopied).1.resolve_left Bool.false_ne_true
    unfold ptraceWordSize at hfour
    omega
  · omega
  · obtain ⟨val, -, h⟩ := bind_eq_ok.mp h
    exact (copyVal_ok h).1.resolve_left Bool.false_ne_true

/-- Nor can a part of a word be written, which takes the word that is there. -/
theorem copyToTargetLoop_short {addr : UInt64} {n : Nat} {data : List UInt8} {t' : Target H} (hshort : n < 8)
    (h : copyToTargetLoop process false t addr data n = .ok t') : n = 0 := by
  unfold copyToTargetLoop at h
  split at h
  · omega
  · rfl
  · obtain ⟨tmp, htmp, -⟩ := bind_eq_ok.mp h
    exact absurd (copyFromTargetLoop_long htmp) (by decide)

theorem copyToTarget_aligned {addr : UInt64} {data : List UInt8} {numBytes : Int32} {t' : Target H}
    (hshort : numBytes.toInt.toNat < 8) (h : copyToTarget process false t addr data numBytes = .ok t') :
    addr % 8 = 0 ∧ numBytes.toInt.toNat = 0 := by
  unfold copyToTarget at h
  by_cases halign : addr % 8 = 0
  · rw [if_pos halign] at h
    obtain ⟨-, -, h⟩ := bind_eq_ok.mp h
    exact ⟨halign, copyToTargetLoop_short hshort h⟩
  · rw [if_neg halign] at h
    obtain ⟨firstWord, hfirst, -⟩ := bind_eq_ok.mp h
    exact absurd (copyFromTargetLoop_long hfirst) (by decide)

end

/-- **What is behind `val` is not read exactly when nothing is copied, at an aligned address.** -/
theorem copiesBack_iff (malloc : H → UInt64 → UInt64 × H) (t : Target H) (addr : UInt64) (data : List UInt8)
    (numBytes : Int32) (hcount : numBytes.toInt = data.length) :
    CopiesBack false malloc t addr data numBytes ↔ data = [] ∧ addr % 8 = 0 := by
  refine ⟨?_, ?_⟩
  · rintro ⟨t', hwrite, -, hread⟩
    have hfour : numBytes.toInt.toNat ≤ 4 := by
      obtain ⟨-, -, hloop⟩ := bind_eq_ok.mp hread
      exact copyFromTargetLoop_long hloop
    obtain ⟨halign, hnone⟩ := copyToTarget_aligned (by omega) hwrite
    exact ⟨List.length_eq_zero_iff.mp (by omega), halign⟩
  · rintro ⟨rfl, halign⟩
    obtain rfl : numBytes = 0 := Int32.toInt_inj.mp hcount
    refine ⟨t, if_pos halign, ⟨by simp, fun x _ => rfl⟩, rfl⟩

def keptHeap (heap : Unit) (_ : UInt64) : UInt64 × Unit := (0, heap)

def zeroTarget : Target Unit := ⟨fun _ => 0, (), 0, 0⟩

theorem copiesBack_none : CopiesBack false keptHeap zeroTarget 16 [] 0 :=
  (copiesBack_iff keptHeap zeroTarget 16 [] 0 rfl).mpr (by decide)

/-- One word, at its address. -/
theorem not_copiesBack_word : ¬ ∀ (t : Target Unit) (addr : UInt64) (data : List UInt8) (numBytes : Int32),
    numBytes.toInt = data.length → CopiesBack false keptHeap t addr data numBytes := by
  intro h
  obtain ⟨t', -, -, hread⟩ := h zeroTarget 0 [1, 2, 3, 4, 5, 6, 7, 8] 8 rfl
  obtain ⟨-, -, hloop⟩ := bind_eq_ok.mp hread
  exact absurd (copyFromTargetLoop_long hloop) (by decide)

end

end Katana

/-
  Katana.Register — registers of the patching VM (register.c): their binary form and their names.

  Proved, for every register:
  - `encodeRegAsLEB128_ok`: only basic registers are encoded, as the numeral of their index.
  - `readRegFromLEB128_uleb`: which encoded registers are read back, and that the others stop the
    reader: a numeral whose low byte is in the patch-object range is taken for a patch register.
  - `patchReg_roundTrips`: the registers a patch is written with come back, with and without an offset.
-/
import Katana.Leb.Decode

namespace Katana

open Lib

/-! ## Registers -/

inductive RegType where
  | none | basic | poStart | currTargNew | currTargOld | expr | oldSymVal | newSymVal | cfa | poEnd
  deriving DecidableEq, Repr

/-- The patch register type a byte stands for, between `ERT_PO_START` and `ERT_PO_END`. -/
def RegType.ofByte (b : UInt8) : Option RegType :=
  if b = 0xF1 then some .currTargNew
  else if b = 0xF2 then some .currTargOld
  else if b = 0xF3 then some .expr
  else if b = 0xF4 then some .oldSymVal
  else if b = 0xF5 then some .newSymVal
  else if b = 0xF6 then some .cfa
  else Option.none

/-- `u` is the C union: an offset for `ERT_CURR_TARG_*` and `ERT_EXPR`, an index for the others. -/
structure PoReg where
  type : RegType
  size : Int32
  u : Int32
  deriving DecidableEq, Repr

namespace PoReg

def zero : PoReg := ⟨.none, 0, 0⟩

def basic (index : Int32) : PoReg := ⟨.basic, 0, index⟩

end PoReg

/-- The first four bytes at most, as an int. -/
def intOfBytes (bytes : List UInt8) : Int32 := Int32.ofNat (leNat (bytes.take 4))

/-- The register, and the number of LEB bytes it took. -/
def readRegFromLEB128 (leb : List UInt8) : Except Fault (PoReg × Nat) := do
  let d ← decodeLEB128 leb false
  assert (0 < d.numBytes)
  let b := d.result.getD 0 0
  if b.toNat < 0xF0 then
    assert (d.numBytes < 8)
    -- the copy goes into an int
    defined (d.numBytes ≤ 4)
    .ok (.basic (intOfBytes (d.result.take d.numBytes)), d.numSeptetsRead)
  else
    match RegType.ofByte b with
    | Option.none => .error .assertion
    | some .currTargNew | some .currTargOld =>
      assert (5 ≤ d.numBytes ∧ d.numBytes ≤ 9)
      .ok (⟨if b = 0xF1 then .currTargNew else .currTargOld, intOfBytes (d.result.drop 1),
        intOfBytes ((d.result.take d.numBytes).drop 5)⟩, d.numSeptetsRead)
    | some .cfa => .error (.death "unsupported register type\n")
    | some type =>
      assert (d.numBytes = 5)
      .ok (⟨type, 0, intOfBytes (d.result.drop 1)⟩, d.numSeptetsRead)

def encodeRegAsLEB128 (reg : PoReg) : Except Fault (List UInt8) :=
  match reg.type with
  | .basic => .ok (uintToLEB128 reg.u.toUInt32.toNat)
  | .currTargNew | .currTargOld | .newSymVal | .oldSymVal =>
    .error (.death "Patch-specific register types not supported in encodeRegAsLEB128 yet\n")
  | .none => .error (.death "Attempt to encode a NONE (i.e. unused) register to LEB128\n")
  | _ => .error (.death "Unsupported register type in encodeRegAsLEB128\n")

/-! ## Names -/

def hex (n : Nat) : String := String.ofList (Nat.toDigits 16 n)

def getX86_64RegNameFromDwarfRegNum (num : Int32) : Option String :=
  if num = 0 then some "rax" else if num = 1 then some "rdx" else if num = 2 then some "rcx"
  else if num = 3 then some "rbx" else if num = 4 then some "rsi" else if num = 5 then some "rdi"
  else if num = 6 then some "rbp" else if num = 7 then some "rsp" else Option.none

/-- `strForReg`, without `DWIPF_NO_REG_NAMES`. -/
def strForReg (reg : PoReg) : Except Fault String :=
  match reg.type with
  | .none => .error .assertion
  | .currTargOld =>
    .ok ("\x7bCURR_TARG_OLD,0x" ++ hex reg.size.toUInt32.toNat ++ " bytes,0x" ++ hex reg.u.toUInt32.toNat ++ " off\x7d")
  | .currTargNew =>
    .ok ("\x7bCURR_TARG_NEW,0x" ++ hex reg.size.toUInt32.toNat ++ " bytes,0x" ++ hex reg.u.toUInt32.toNat ++ " off\x7d")
  | .expr => .ok ("\x7bEXPR,0x" ++ hex reg.u.toUInt32.toNat ++ " off")
  | .newSymVal => .ok ("\x7bNEW_SYM_VAL,idx " ++ toString reg.u.toInt ++ "\x7d")
  | .oldSymVal => .ok ("\x7bOLD_SYM_VAL,idx " ++ toString reg.u.toInt ++ "\x7d")
  | .cfa => .ok "\x7bCFA\x7d"
  | .basic =>
    match getX86_64RegNameFromDwarfRegNum reg.u with
    | some regName => .ok ("r" ++ toString reg.u.toInt ++ "/" ++ regName)
    | Option.none => .ok ("r" ++ toString reg.u.toInt)
  | _ => .error (.death "unsupported register type\n")

/-! ### Different names -/

theorem ofNat_toNat_int32 (u : Int32) : Int32.ofNat u.toUInt32.toNat = u := by
  apply Int32.toBitVec_inj.mp
  simp

theorem currTargNew_name (size u : Nat) :
    ("\x7bCURR_TARG_NEW,0x" ++ hex size ++ " bytes,0x" ++ hex u ++ " off\x7d").toList =
      "\x7bCURR_TARG_NEW,0x".toList ++ (Nat.toDigits 16 size ++ ' ' :: ("bytes,0x".toList ++
        (Nat.toDigits 16 u ++ ' ' :: "off\x7d".toList))) := by
  simp only [hex, String.toList_append, String.toList_ofList, List.append_assoc]
  rfl

/-- The registers of the new object have names of their own. -/
theorem strForReg_injective {reg reg' : PoReg} (hreg : reg.type = .currTargNew) (hreg' : reg'.type = .currTargNew)
    (h : strForReg reg = strForReg reg') : reg = reg' := by
  unfold strForReg at h
  rw [hreg, hreg'] at h
  have hname := congrArg String.toList (Except.ok.inj h)
  rw [currTargNew_name, currTargNew_name] at hname
  obtain ⟨hsize, hrest⟩ := append_cons_inj (space_notMem_toDigits _) (space_notMem_toDigits _)
    (List.append_cancel_left hname)
  obtain ⟨hu, -⟩ := append_cons_inj (space_notMem_toDigits _) (space_notMem_toDigits _) (List.append_cancel_left hrest)
  obtain ⟨type, size, u⟩ := reg
  obtain ⟨type', size', u'⟩ := reg'
  have hsize' : size = size' := by
    rw [← ofNat_toNat_int32 size, ← ofNat_toNat_int32 size', toDigits_injective hsize]
  have hu' : u = u' := by
    rw [← ofNat_toNat_int32 u, ← ofNat_toNat_int32 u', toDigits_injective hu]
  rw [show type = .currTargNew from hreg, show type' = .currTargNew from hreg', hsize', hu']

/-! ## The binary form of basic registers -/

theorem encodeRegAsLEB128_ok {reg : PoReg} {bytes : List UInt8} :
    encodeRegAsLEB128 reg = .ok bytes ↔ reg.type = .basic ∧ bytes = uleb reg.u.toUInt32.toNat := by
  have hlt : reg.u.toUInt32.toNat < 2 ^ 32 := reg.u.toUInt32.toNat_lt
  unfold encodeRegAsLEB128
  cases h : reg.type <;> simp [uintToLEB128_eq hlt, eq_comm]

/-- A basic register index whose numeral the reader takes for one. -/
def readsBack (u : Int32) : Prop := u.toUInt32.toNat % 256 < 0xF0

instance (u : Int32) : Decidable (readsBack u) := inferInstanceAs (Decidable (_ < _))

/-- Every byte string the reader takes for a patch register is longer than four bytes. -/
theorem readReg_short {leb : List UInt8} {d : Decoded} (hd : decodeLEB128 leb false = .ok d) (hlen : d.numBytes ≤ 4)
    (hb : ¬ (d.result.getD 0 0).toNat < 0xF0) : ∃ e, readRegFromLEB128 leb = .error e := by
  unfold readRegFromLEB128
  rw [hd, bind_ok]
  by_cases h0 : 0 < d.numBytes
  · rw [assert_of h0, bind_ok, if_neg hb]
    split
    · exact ⟨_, rfl⟩
    · rw [assert_not (by omega)]; exact ⟨_, rfl⟩
    · rw [assert_not (by omega)]; exact ⟨_, rfl⟩
    · exact ⟨_, rfl⟩
    · rw [assert_not (by omega)]; exact ⟨_, rfl⟩
  · rw [assert_not h0]; exact ⟨_, rfl⟩

theorem readRegFromLEB128_uleb (u : Int32) (rest : List UInt8) :
    (readsBack u → readRegFromLEB128 (uleb u.toUInt32.toNat ++ rest) = .ok (.basic u, ulebLen u.toUInt32.toNat)) ∧
    (¬ readsBack u → ∃ e, readRegFromLEB128 (uleb u.toUInt32.toNat ++ rest) = .error e) := by
  have hv : u.toUInt32.toNat < 2 ^ 32 := u.toUInt32.toNat_lt
  have hu := ofNat_toNat_int32 u
  have hd := decode_uleb (show u.toUInt32.toNat < 2 ^ 64 by omega) rest
  have hval := leNat_numeral (.ofNat u.toUInt32.toNat)
  rw [Numeral.value_ofNat, Numeral.length_ofNat] at hval
  have h4 : unsignedBytes u.toUInt32.toNat (ulebLen u.toUInt32.toNat) ≤ 4 := (unsignedBytes_ulebLen (by norm_num)).mpr hv
  have h0 : 0 < unsignedBytes u.toUInt32.toNat (ulebLen u.toUInt32.toNat) := by
    simpa using numeralBytes_pos (.ofNat u.toUInt32.toNat)
  have hfirst : ((toLE (unsignedBytes u.toUInt32.toNat (ulebLen u.toUInt32.toNat)) u.toUInt32.toNat).getD 0 0).toNat =
      u.toUInt32.toNat % 256 := by
    rw [getD_toLE h0, pow_zero, Nat.div_one]
  constructor
  · intro hback
    unfold readRegFromLEB128
    rw [hd, bind_ok, assert_of h0, bind_ok, if_pos (by rw [hfirst]; exact hback), assert_of (by simp only; omega), bind_ok,
      defined_of h4, bind_ok, intOfBytes, List.take_take, min_eq_right h4, hval, hu]
  · intro hback
    exact readReg_short hd h4 (by rw [hfirst]; exact hback)

/-! ## The binary form of patch registers -/

def currTarg (new : Bool) : RegType := if new then .currTargNew else .currTargOld

def currTargByte (new : Bool) : UInt8 := if new then 0xF1 else 0xF2

/-- The type and the size, for an offset of zero. -/
def shortRegBytes (new : Bool) (size : Int32) : List UInt8 := currTargByte new :: toLE 4 size.toUInt32.toNat

def longRegBytes (new : Bool) (size offset : Int32) : List UInt8 := shortRegBytes new size ++ toLE 4 offset.toUInt32.toNat

/-- The one byte that the septets may add is zero and dropped again. -/
theorem unsignedBytes_noOptimization {bytes : List UInt8} (hne : bytes ≠ []) :
    unsignedBytes (leNat bytes) (numSeptetsFor bytes.length) = bytes.length := by
  have hpos : 0 < bytes.length := List.length_pos_iff.mpr hne
  have hle := numSeptetsFor_le bytes.length
  have hge := le_numSeptetsFor bytes.length
  have hq : 7 * numSeptetsFor bytes.length / 8 = bytes.length := by omega
  have hzero : leNat bytes / 256 ^ bytes.length = 0 := Nat.div_eq_of_lt (leNat_lt bytes)
  unfold unsignedBytes
  rw [hq, if_pos (.inr ⟨hzero, hpos⟩)]

theorem decode_noOptimization {bytes : List UInt8} (hne : bytes ≠ []) (hcount : numSeptetsFor bytes.length < 65536)
    (rest : List UInt8) : decodeLEB128 (encodeAsLEB128NoOptimization bytes false ++ rest) false =
      .ok ⟨bytes, bytes.length, numSeptetsFor bytes.length⟩ := by
  have hfit := lt_of_lt_of_le (leNat_lt bytes) (bytes_le_septets bytes.length)
  have hge := le_numSeptetsFor bytes.length
  have hpos : 0 < bytes.length := List.length_pos_iff.mpr hne
  have hdigits : fixed 128 (numSeptetsFor bytes.length) (leNat bytes) ≠ [] := by
    rw [← List.length_pos_iff, length_fixed]
    omega
  rw [encodeNoOptimization_unsigned, decode_unsigned (fixed_lt (by norm_num) _ _) hdigits, length_fixed, ofDigits_fixed,
    Nat.mod_eq_of_lt hfit, unsignedBytes_noOptimization hne, toLE_leNat]
  unfold usint
  rw [Nat.mod_eq_of_lt hcount, Nat.mod_eq_of_lt (by omega)]

theorem intOfBytes_toLE (u : Int32) (rest : List UInt8) : intOfBytes (toLE 4 u.toUInt32.toNat ++ rest) = u := by
  have hlt : u.toUInt32.toNat < 256 ^ 4 := u.toUInt32.toNat_lt
  unfold intOfBytes
  rw [List.take_left' (length_toLE _ _), leNat_toLE, Nat.mod_eq_of_lt hlt, ofNat_toNat_int32]

/-- A patch register of either length, with as much of the offset as there is. -/
theorem readReg_currTarg (new : Bool) (size : Int32) {offset : List UInt8} (hlen : offset.length ≤ 4) (rest : List UInt8) :
    readRegFromLEB128 (encodeAsLEB128NoOptimization (shortRegBytes new size ++ offset) false ++ rest) =
      .ok (⟨currTarg new, size, intOfBytes offset⟩,
        (encodeAsLEB128NoOptimization (shortRegBytes new size ++ offset) false).length) := by
  have hcount : (shortRegBytes new size ++ offset).length = 5 + offset.length := by simp [shortRegBytes]; omega
  have hsmall : numSeptetsFor (shortRegBytes new size ++ offset).length < 65536 := by
    unfold numSeptetsFor
    omega
  have hne : shortRegBytes new size ++ offset ≠ [] := by simp [shortRegBytes]
  have hseptets : (encodeAsLEB128NoOptimization (shortRegBytes new size ++ offset) false).length =
      numSeptetsFor (shortRegBytes new size ++ offset).length := by simp [encodeNoOptimization_unsigned]
  have hbounds : 5 ≤ (shortRegBytes new size ++ offset).length ∧ (shortRegBytes new size ++ offset).length ≤ 9 := by omega
  have hfirst : (shortRegBytes new size ++ offset).getD 0 0 = currTargByte new := by simp [shortRegBytes]
  have hsize : intOfBytes ((shortRegBytes new size ++ offset).drop 1) = size := by
    simpa [shortRegBytes] using intOfBytes_toLE size offset
  have hoffset : (shortRegBytes new size ++ offset).drop 5 = offset := List.drop_left' (by simp [shortRegBytes])
  unfold readRegFromLEB128
  rw [decode_noOptimization hne hsmall, bind_ok, assert_of (show 0 < (shortRegBytes new size ++ offset).length by omega),
    bind_ok, hseptets]
  simp only [hfirst, hsize, List.take_length, hoffset, assert_of hbounds]
  cases new <;> rfl

/-- **The registers of a patch come back.** -/
theorem patchReg_roundTrips (new : Bool) (size offset : Int32) (rest : List UInt8) :
    readRegFromLEB128 (encodeAsLEB128NoOptimization (shortRegBytes new size) false ++ rest) =
      .ok (⟨currTarg new, size, 0⟩, (encodeAsLEB128NoOptimization (shortRegBytes new size) false).length) ∧
    readRegFromLEB128 (encodeAsLEB128NoOptimization (longRegBytes new size offset) false ++ rest) =
      .ok (⟨currTarg new, size, offset⟩, (encodeAsLEB128NoOptimization (longRegBytes new size offset) false).length) := by
  have hshort := readReg_currTarg new size (show ([] : List UInt8).length ≤ 4 by simp) rest
  have hlong := readReg_currTarg new size (show (toLE 4 offset.toUInt32.toNat).length ≤ 4 by simp) rest
  have hoffset : intOfBytes (toLE 4 offset.toUInt32.toNat) = offset := by simpa using intOfBytes_toLE offset []
  rw [List.append_nil] at hshort
  rw [hoffset] at hlong
  exact ⟨hshort, hlong⟩

end Katana

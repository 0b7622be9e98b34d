/-
  Katana.FdeReader — reading an FDE of `.eh_frame` as the Linux Standard Base lays it out.

  A reader takes the initial location and then the address range in the format the CIE declares, then
  the augmentation data with its length, and the rest of the record as instructions. The writer gives
  the range four bytes whatever the format.

  Proved:
  - `pointer_recovers`: a stored pointer is read back exactly when it fits its format.
  - `fourBytes_of_recovers`: a record that is read back has a four-byte format.
  - `fde_readable_iff`: which FDEs a reader recovers.
-/
import Katana.FrameLayout

namespace Katana

open Lib

/-! ## The reader -/

def ElfBitwidth.word (config : ElfBitwidth) (z : Int) : Int := z % (256 ^ config.ptrSize : Nat)

/-- The number that the `k` low bytes of `v` stand for in a format. -/
def extended (encoding : UInt8) (k v : Nat) : Int :=
  if (peFormat encoding).signed then Int.bmod v (256 ^ k) else (v % 256 ^ k : Nat)

/-- A value in the format of an encoding, counted from `origin`, and where it ends. -/
def valueAt (config : ElfBitwidth) (encoding : UInt8) (origin : UInt64) (record : List UInt8) (off stop : Nat) :
    Option (Int × Nat) :=
  match getPointerSizeFromEHPointerEncoding config encoding with
  | .error _ => none
  | .ok k =>
    if off + k ≤ stop then
      some (config.word (extended encoding k (leNat ((record.drop off).take k)) + origin.toNat), off + k)
    else none

/-- The pointer at an offset of a record at `address`. What an indirect pointer points to is not looked up. -/
def pointerAt (config : ElfBitwidth) (encoding : UInt8) (address : UInt64) (record : List UInt8) (off stop : Nat) :
    Option (Int × Nat) :=
  if Supported encoding then
    valueAt config encoding (pointerOrigin encoding (address + UInt64.ofNat off)) record off stop
  else none

namespace CIE

/-- The pointer encoding of the FDEs: that of the `R` augmentation, or else absolute words. -/
def declaredEncoding (cie : CIE) : UInt8 :=
  if cie.augmentationFlags.dataPresent ∧ cie.augmentationFlags.fdeEnc then cie.fdePointerEncoding else 0

/-- The FDEs have an LSDA pointer in their augmentation data. -/
def AnnouncesLSDA (cie : CIE) : Prop :=
  cie.augmentationFlags.dataPresent ∧ cie.augmentationFlags.fdeLsda ∧ cie.fdeLSDAPointerEncoding ≠ ehPeOmit

instance (cie : CIE) : Decidable cie.AnnouncesLSDA := inferInstanceAs (Decidable (_ ∧ _ ∧ _))

end CIE

/-- The LSDA pointer of an FDE's augmentation data and where the data ends. -/
def augmentationAt (config : ElfBitwidth) (cie : CIE) (address : UInt64) (record : List UInt8) (off stop : Nat) :
    Option (Option Int × Nat) :=
  if cie.augmentationFlags.dataPresent then do
    let (length, k) ← readUleb (record.drop off)
    if off + k + length ≤ stop then
      if cie.AnnouncesLSDA then do
        let (pointer, _) ← pointerAt config cie.fdeLSDAPointerEncoding address record (off + k) (off + k + length)
        some (some pointer, off + k + length)
      else some (none, off + k + length)
    else none
  else some (none, off)

structure FdeContents where
  initialLocation : Int
  addressRange : Int
  lsdaPointer : Option Int
  instructions : List UInt8
  deriving DecidableEq, Repr

/-- Reads the FDE at the start of `record`, which is loaded at `address`. -/
def readFDE (config : ElfBitwidth) (cie : CIE) (address : UInt64) (record : List UInt8) : Option FdeContents := do
  let stop := 4 + leNat (record.take 4)
  if stop ≤ record.length then
    let (initialLocation, off) ← pointerAt config cie.declaredEncoding address record 8 stop
    -- the range is in the same format, and never relative
    let (addressRange, off) ← valueAt config cie.declaredEncoding 0 record off stop
    let (lsdaPointer, off) ← augmentationAt config cie address record off stop
    some ⟨initialLocation, addressRange, lsdaPointer, (record.take stop).drop off⟩
  else none

/-! ## What is recovered -/

/-- The low bytes of a word, read in the encoding's format, are the word. -/
def Fits (config : ElfBitwidth) (encoding : UInt8) (x : UInt64) : Prop :=
  ∀ k, getPointerSizeFromEHPointerEncoding config encoding = .ok k →
    config.word (extended encoding k x.toNat) = config.word x.toNat

def FDE.lsdaPointer (fde : FDE) (lsdaPointers : List UInt64) : Option UInt64 :=
  if fde.hasLSDAPointer then lsdaPointers[fde.lsdaIdx.toNat]? else none

def FDE.range (fde : FDE) : UInt64 := UInt64.ofInt (fde.highpc.toInt - fde.lowpc.toInt)

/-- An FDE's contents as words, with the padding that was written after its instructions. -/
def FDE.contents (config : ElfBitwidth) (fde : FDE) (lsdaPointers : List UInt64) (instrs : List UInt8) (pad : Nat) :
    FdeContents where
  initialLocation := config.word (addrOfInt fde.lowpc).toNat
  addressRange := config.word fde.range.toNat
  lsdaPointer := (fde.lsdaPointer lsdaPointers).map fun p => config.word p.toNat
  instructions := instrs ++ List.replicate pad 0

/-- The FDE was written at `start` of a section, with these instruction bytes and this padding. -/
def FdeRecordAt (config : ElfBitwidth) (cfi : CallFrameInfo) (cieOffsets : List Nat) (lsdaPointers : List UInt64) (fde : FDE)
    (start : Nat) (data : List UInt8) (cie : CIE) (instrs : List UInt8) (pad : Nat) : Prop :=
  ∃ cieOffset location n m aug,
    FdeWritten config cfi cieOffsets lsdaPointers fde start cie cieOffset location n m aug instrs ∧
    framed (toLE 4 (ciePointer cfi.isEHFrame start cieOffset) ++
      fdeTail cie (toLE n location.toNat) (toLE m fde.range.toNat) aug instrs pad) <+: data.drop start

/-- A reader gets out of the section what was put into it. -/
def FdeReadable (config : ElfBitwidth) (cfi : CallFrameInfo) (lsdaPointers : List UInt64) (sec : FrameSection) (fde : FDE)
    (start : Nat) : Prop :=
  ∃ cie instrs pad, FdeRecordAt config cfi sec.cieOffsets lsdaPointers fde start sec.buf.data cie instrs pad ∧
    readFDE config cie (cfi.ehAddress + UInt64.ofNat start) (sec.buf.data.drop start) =
      some (fde.contents config lsdaPointers instrs pad)

/-- What it takes: a four-byte format for all that the record stores, and a CIE that announces the LSDA pointer, if there
is one. -/
structure FourByteFDE (config : ElfBitwidth) (cfi : CallFrameInfo) (lsdaPointers : List UInt64) (cie : CIE) (fde : FDE)
    (start : Nat) : Prop where
  size : getPointerSizeFromEHPointerEncoding config cie.fdePointerEncoding = .ok 4
  location : Fits config cie.fdePointerEncoding
    (storedPointer (addrOfInt fde.lowpc) (cfi.ehAddress + UInt64.ofNat start + 8) cie.fdePointerEncoding)
  range : Fits config cie.fdePointerEncoding fde.range
  announced : (fde.lsdaPointer lsdaPointers).isSome → cie.AnnouncesLSDA
  lsda : ∀ p, fde.lsdaPointer lsdaPointers = some p → Fits config cie.fdeLSDAPointerEncoding
    (storedPointer p (cfi.ehAddress + UInt64.ofNat start + 17) cie.fdeLSDAPointerEncoding)

/-! ## One value -/

section Values
variable {config : ElfBitwidth} {encoding : UInt8} {k : Nat}

theorem ptrSize_cases (config : ElfBitwidth) : config.ptrSize = 4 ∨ config.ptrSize = 8 := by
  cases config <;> simp [ElfBitwidth.ptrSize]

theorem word_dvd (config : ElfBitwidth) : ((256 ^ config.ptrSize : Nat) : Int) ∣ 2 ^ 64 := by
  rcases ptrSize_cases config with h | h <;> rw [h] <;> norm_num

/-- Words agree when the numbers agree modulo 2^64. -/
theorem word_congr {a b : Int} (h : a % 2 ^ 64 = b % 2 ^ 64) : config.word a = config.word b := by
  unfold ElfBitwidth.word
  rw [← Int.emod_emod_of_dvd a (word_dvd config), h, Int.emod_emod_of_dvd b (word_dvd config)]

theorem extended_mod (v : Nat) : extended encoding k (v % 256 ^ k) = extended encoding k v := by
  unfold extended
  rw [Nat.mod_mod]
  split
  · rw [show ((v % 256 ^ k : Nat) : Int) = (v : Int) % (256 ^ k : Nat) by push_cast; rfl, Int.emod_bmod]
  · rfl

theorem valueAt_stored {origin : UInt64} {record : List UInt8} {off stop x : Nat}
    (hk : getPointerSizeFromEHPointerEncoding config encoding = .ok k) (hstop : off + k ≤ stop)
    (hbytes : (record.drop off).take k = toLE k x) :
    valueAt config encoding origin record off stop =
      some (config.word (extended encoding k x + origin.toNat), off + k) := by
  unfold valueAt
  rw [hk]
  simp only [if_pos hstop]
  rw [hbytes, leNat_toLE, extended_mod]

theorem valueAt_some {origin : UInt64} {record : List UInt8} {off stop off' : Nat} {v : Int}
    (h : valueAt config encoding origin record off stop = some (v, off')) :
    ∃ k, getPointerSizeFromEHPointerEncoding config encoding = .ok k ∧ off + k ≤ stop ∧ off' = off + k ∧
      v = config.word (extended encoding k (leNat ((record.drop off).take k)) + origin.toNat) := by
  unfold valueAt at h
  cases hk : getPointerSizeFromEHPointerEncoding config encoding with
  | error e => rw [hk] at h; cases h
  | ok k =>
    rw [hk] at h
    simp only at h
    split at h
    · rename_i hstop
      cases h
      exact ⟨k, rfl, hstop, rfl, rfl⟩
    · cases h

/-- **A stored pointer is read back exactly when it fits its format.** -/
theorem pointer_recovers {pointer location : UInt64} (hk : getPointerSizeFromEHPointerEncoding config encoding = .ok k) :
    config.word (extended encoding k (storedPointer pointer location encoding).toNat +
      (pointerOrigin encoding location).toNat) =
      config.word pointer.toNat ↔ Fits config encoding (storedPointer pointer location encoding) := by
  have hsum : config.word pointer.toNat = config.word
      ((storedPointer pointer location encoding).toNat + (pointerOrigin encoding location).toNat) := by
    refine word_congr ?_
    have h := congrArg UInt64.toNat (storedPointer_add_origin pointer location encoding)
    rw [UInt64.toNat_add] at h
    omega
  rw [hsum]
  unfold Fits ElfBitwidth.word
  constructor
  · intro h j hj
    rw [hk] at hj
    cases hj
    exact Int.emod_add_cancel_right _ |>.mp h
  · intro h
    exact Int.emod_add_cancel_right _ |>.mpr (h k hk)

end Values

/-! ## The reader's steps -/

section Steps
variable {config : ElfBitwidth} {cie : CIE} {address : UInt64} {record : List UInt8} {off stop : Nat}

theorem pointerAt_eq {encoding : UInt8} (h : Supported encoding) : pointerAt config encoding address record off stop =
    valueAt config encoding (pointerOrigin encoding (address + UInt64.ofNat off)) record off stop := if_pos h

theorem pointerAt_some {encoding : UInt8} {r : Int × Nat} (h : pointerAt config encoding address record off stop = some r) :
    Supported encoding ∧
      valueAt config encoding (pointerOrigin encoding (address + UInt64.ofNat off)) record off stop = some r := by
  unfold pointerAt at h
  split at h
  · rename_i hs
    exact ⟨hs, h⟩
  · cases h

theorem readFDE_eq_some {c : FdeContents} : readFDE config cie address record = some c ↔
    4 + leNat (record.take 4) ≤ record.length ∧ ∃ location off1 range off2 lsda off3,
      pointerAt config cie.declaredEncoding address record 8 (4 + leNat (record.take 4)) = some (location, off1) ∧
      valueAt config cie.declaredEncoding 0 record off1 (4 + leNat (record.take 4)) = some (range, off2) ∧
      augmentationAt config cie address record off2 (4 + leNat (record.take 4)) = some (lsda, off3) ∧
      c = ⟨location, range, lsda, (record.take (4 + leNat (record.take 4))).drop off3⟩ := by
  unfold readFDE
  simp only
  split
  · rename_i hle
    simp only [Option.bind_eq_bind, Option.bind_eq_some_iff, hle, true_and, Prod.exists, Option.some.injEq]
    constructor
    · rintro ⟨location, off1, h1, range, off2, h2, lsda, off3, h3, rfl⟩
      exact ⟨location, off1, range, off2, lsda, off3, h1, h2, h3, rfl⟩
    · rintro ⟨location, off1, range, off2, lsda, off3, h1, h2, h3, rfl⟩
      exact ⟨location, off1, h1, range, off2, h2, lsda, off3, h3, rfl⟩
  · rename_i hle
    simp [hle]

theorem augmentationAt_plain (h : cie.augmentationFlags.dataPresent = false) :
    augmentationAt config cie address record off stop = some (none, off) := by
  unfold augmentationAt
  rw [h]
  rfl

theorem augmentationAt_some {lsda : Option Int} {off' : Nat} (hp : cie.augmentationFlags.dataPresent = true)
    (h : augmentationAt config cie address record off stop = some (lsda, off')) :
    ∃ length k, readUleb (record.drop off) = some (length, k) ∧ off + k + length ≤ stop ∧ off' = off + k + length ∧
      (cie.AnnouncesLSDA ∧ (∃ p e, pointerAt config cie.fdeLSDAPointerEncoding address record (off + k) (off + k + length) =
        some (p, e) ∧ lsda = some p) ∨ ¬ cie.AnnouncesLSDA ∧ lsda = none) := by
  unfold augmentationAt at h
  rw [if_pos hp, Option.bind_eq_bind, Option.bind_eq_some_iff] at h
  obtain ⟨⟨length, k⟩, hr, h⟩ := h
  simp only at h
  split at h
  · rename_i hle
    refine ⟨length, k, hr, hle, ?_⟩
    split at h
    · rename_i ha
      rw [Option.bind_eq_bind, Option.bind_eq_some_iff] at h
      obtain ⟨⟨p, e⟩, hp, h⟩ := h
      cases h
      exact ⟨rfl, .inl ⟨ha, p, e, hp, rfl⟩⟩
    · rename_i ha
      cases h
      exact ⟨rfl, .inr ⟨ha, rfl⟩⟩
  · cases h

theorem augmentationAt_of {length k : Nat} (hp : cie.augmentationFlags.dataPresent = true)
    (hr : readUleb (record.drop off) = some (length, k)) (hle : off + k + length ≤ stop) :
    augmentationAt config cie address record off stop =
      if cie.AnnouncesLSDA then
        (pointerAt config cie.fdeLSDAPointerEncoding address record (off + k) (off + k + length)).map fun r =>
          (some r.1, off + k + length)
      else some (none, off + k + length) := by
  unfold augmentationAt
  rw [if_pos hp, hr]
  simp only [Option.bind_eq_bind, Option.bind_some, if_pos hle]
  split
  · rw [Option.map_eq_bind]
    rfl
  · rfl

end Steps

/-! ## A written record -/

/-- The bytes of an FDE's record, whose address range takes four bytes. -/
structure RecordBytes (cie : CIE) (ptr n location range : Nat) (aug instrs : List UInt8) (pad : Nat) (record : List UInt8) :
    Prop where
  written : framed (toLE 4 ptr ++ fdeTail cie (toLE n location) (toLE 4 range) aug instrs pad) <+: record
  short : (framed (toLE 4 ptr ++ fdeTail cie (toLE n location) (toLE 4 range) aug instrs pad)).length < 2 ^ 31

section Written
variable {cie : CIE} {ptr n location range pad : Nat} {aug instrs record : List UInt8}

theorem RecordBytes.of_section {start : Nat} {data : List UInt8} (hdata : data.length < 2 ^ 31)
    (h : framed (toLE 4 ptr ++ fdeTail cie (toLE n location) (toLE 4 range) aug instrs pad) <+: data.drop start) :
    RecordBytes cie ptr n location range aug instrs pad (data.drop start) :=
  ⟨h, lt_of_le_of_lt (h.length_le.trans (by simp)) hdata⟩

theorem RecordBytes.stop (h : RecordBytes cie ptr n location range aug instrs pad record) :
    4 + leNat (record.take 4) =
      12 + n + (augmentationLengthLEB cie.augmentationFlags aug).length + aug.length + instrs.length + pad := by
  obtain ⟨rest, hrest⟩ := h.written
  have hshort := h.short
  rw [length_framed] at hshort
  rw [← hrest, framed, List.append_assoc, List.take_left' (length_toLE _ _), leNat_toLE, Nat.mod_eq_of_lt (by omega)]
  simp [fdeTail]
  omega

theorem RecordBytes.fits (h : RecordBytes cie ptr n location range aug instrs pad record) :
    4 + leNat (record.take 4) ≤ record.length := by
  have hle := h.written.length_le
  rw [h.stop]
  simp [fdeTail] at hle
  omega

theorem RecordBytes.takeStop (h : RecordBytes cie ptr n location range aug instrs pad record) :
    record.take (4 + leNat (record.take 4)) =
      framed (toLE 4 ptr ++ fdeTail cie (toLE n location) (toLE 4 range) aug instrs pad) := by
  obtain ⟨rest, hrest⟩ := h.written
  rw [h.stop, ← hrest]
  refine List.take_left' ?_
  simp [fdeTail]
  omega

theorem RecordBytes.location_bytes (h : RecordBytes cie ptr n location range aug instrs pad record) :
    (record.drop 8).take n = toLE n location := by
  have hpre : (toLE 4 (toLE 4 ptr ++ fdeTail cie (toLE n location) (toLE 4 range) aug instrs pad).length ++ toLE 4 ptr) ++
      (toLE n location ++ (toLE 4 range ++ augmentationLengthLEB cie.augmentationFlags aug ++ aug ++ instrs ++
        List.replicate pad 0)) <+: record := by
    simpa [framed, fdeTail] using h.written
  exact read_prefix hpre (by simp) (length_toLE n location)

/-- After the initial location come the address range, the length of the augmentation data and the data. -/
theorem RecordBytes.drop_location (h : RecordBytes cie ptr n location range aug instrs pad record) :
    ∃ rest, record.drop (8 + n) =
      toLE 4 range ++ (augmentationLengthLEB cie.augmentationFlags aug ++
        (aug ++ (instrs ++ (List.replicate pad 0 ++ rest)))) := by
  obtain ⟨rest, hrest⟩ := h.written
  refine ⟨rest, ?_⟩
  have hcut : record = (toLE 4 (toLE 4 ptr ++ fdeTail cie (toLE n location) (toLE 4 range) aug instrs pad).length ++
    toLE 4 ptr ++
      toLE n location) ++ (toLE 4 range ++ (augmentationLengthLEB cie.augmentationFlags aug ++
        (aug ++ (instrs ++ (List.replicate pad 0 ++ rest))))) := by
    rw [← hrest]
    simp [framed, fdeTail]
  rw [hcut]
  refine List.drop_left' ?_
  simp
  omega

theorem RecordBytes.range_bytes (h : RecordBytes cie ptr n location range aug instrs pad record) {k : Nat} (hk : k ≤ 4) :
    (record.drop (8 + n)).take k = toLE k range := by
  obtain ⟨rest, hrest⟩ := h.drop_location
  rw [hrest, List.take_append_of_le_length (by simpa using hk), take_toLE hk]

/-- The length of short data takes one byte. -/
theorem augmentationLength_small (hp : cie.augmentationFlags.dataPresent = true) (hlt : aug.length < 128) :
    augmentationLengthLEB cie.augmentationFlags aug = uleb aug.length ∧ ulebLen aug.length = 1 := by
  unfold augmentationLengthLEB
  rw [if_pos hp, uintToLEB128_eq (by omega)]
  refine ⟨rfl, ulebLen_eq (by omega) (by omega) (by omega)⟩

theorem RecordBytes.augmentation_bytes (h : RecordBytes cie ptr n location range aug instrs pad record)
    (hp : cie.augmentationFlags.dataPresent = true) (hle : aug.length ≤ 8) :
    readUleb (record.drop (12 + n)) = some (aug.length, 1) ∧ (record.drop (13 + n)).take aug.length = aug := by
  obtain ⟨rest, hrest⟩ := h.drop_location
  obtain ⟨hleb, hlen⟩ := augmentationLength_small hp (lt_of_le_of_lt hle (by norm_num))
  rw [hleb] at hrest
  have h12 : record.drop (12 + n) = uleb aug.length ++ (aug ++ (instrs ++ (List.replicate pad 0 ++ rest))) := by
    rw [show 12 + n = 8 + n + 4 by omega, ← List.drop_drop, hrest, List.drop_left' (length_toLE _ _)]
  refine ⟨by rw [h12, readUleb_uleb, hlen], ?_⟩
  rw [show 13 + n = 12 + n + 1 by omega, ← List.drop_drop, h12, List.drop_left' (by rw [length_uleb, hlen]),
    List.take_left' rfl]

/-- The instructions are what is left after the augmentation data. -/
theorem RecordBytes.instruction_bytes (h : RecordBytes cie ptr n location range aug instrs pad record) :
    (record.take (4 + leNat (record.take 4))).drop
        (12 + n + (augmentationLengthLEB cie.augmentationFlags aug).length + aug.length) =
      instrs ++ List.replicate pad 0 := by
  rw [h.takeStop]
  have hcut : framed (toLE 4 ptr ++ fdeTail cie (toLE n location) (toLE 4 range) aug instrs pad) =
      (toLE 4 (toLE 4 ptr ++ fdeTail cie (toLE n location) (toLE 4 range) aug instrs pad).length ++ toLE 4 ptr ++
        toLE n location ++ toLE 4 range ++ augmentationLengthLEB cie.augmentationFlags aug ++ aug) ++
      (instrs ++ List.replicate pad 0) := by
    simp [framed, fdeTail]
  rw [hcut]
  refine List.drop_left' ?_
  simp
  omega

end Written

/-! ## Reading a record back -/

/-- A range whose low two bytes, read in a format, are all of it. -/
theorem range_of_two_bytes {config : ElfBitwidth} {encoding : UInt8} {r : Int} (hr : -2 ^ 31 ≤ r ∧ r < 2 ^ 31)
    (h : config.word (extended encoding 2 (UInt64.ofInt r).toNat) = config.word (UInt64.ofInt r).toNat) :
    0 ≤ r ∧ (UInt64.ofInt r).toNat / 2 ^ 16 = 0 ∨ r < 0 ∧ (UInt64.ofInt r).toNat / 2 ^ 16 = 2 ^ 48 - 1 := by
  have hval : ((UInt64.ofInt r).toNat : Int) = r % 2 ^ 64 := by
    unfold UInt64.ofInt
    rw [UInt64.toNat_ofNat']
    omega
  have hmod : (extended encoding 2 (UInt64.ofInt r).toNat) % 2 ^ 32 = ((UInt64.ofInt r).toNat : Int) % 2 ^ 32 := by
    unfold ElfBitwidth.word at h
    rcases ptrSize_cases config with hs | hs <;> rw [hs] at h <;> norm_num at h ⊢ <;> omega
  unfold extended at hmod
  split at hmod
  · have hb := Int.bmod_eq_emod (x := ((UInt64.ofInt r).toNat : Int)) (m := 65536)
    norm_num at hmod hb ⊢
    rw [hb] at hmod
    split at hmod <;> omega
  · norm_num at hmod ⊢
    omega

section Recover
variable {config : ElfBitwidth} {cie : CIE} {ptr n location range pad : Nat} {aug instrs record : List UInt8}
  {address : UInt64} {r : Int}

/-- The augmentation data is an LSDA pointer, or there is none. -/
def AugmentationIs (config : ElfBitwidth) (cie : CIE) (aug : List UInt8) : Prop :=
  aug = [] ∨ cie.AnnouncesLSDA ∧ getPointerSizeFromEHPointerEncoding config cie.fdeLSDAPointerEncoding = .ok aug.length

theorem AugmentationIs.length_le (h : AugmentationIs config cie aug) : aug.length ≤ 8 := by
  rcases h with rfl | ⟨-, hk⟩
  · simp
  · exact pointerSize_le hk

/-- With two-byte formats the reader would take the upper half of the range for the augmentation data's length. -/
theorem not_twoBytes (h : RecordBytes cie ptr 2 location (UInt64.ofInt r).toNat aug instrs pad record)
    (hr : -2 ^ 31 ≤ r ∧ r < 2 ^ 31) (hp : cie.augmentationFlags.dataPresent = true) (hle : aug.length ≤ 8)
    {encoding : UInt8} (hrange : config.word (extended encoding 2 (UInt64.ofInt r).toNat) =
    config.word (UInt64.ofInt r).toNat)
    {length k : Nat} (hread : readUleb (record.drop 12) = some (length, k)) (hsum : 12 + k + length = 15 + aug.length)
    (hlen : aug.length ≤ length) : False := by
  obtain ⟨rest, hrest⟩ := h.drop_location
  obtain ⟨hleb, -⟩ := augmentationLength_small hp (lt_of_le_of_lt hle (by norm_num))
  have h12 : record.drop 12 = toLE 2 ((UInt64.ofInt r).toNat / 2 ^ 16) ++
      (uleb aug.length ++ (aug ++ (instrs ++ (List.replicate pad 0 ++ rest)))) := by
    rw [show 12 = 8 + 2 + 2 by omega, ← List.drop_drop, hrest, hleb, show 4 = 2 + 2 by omega, toLE_append,
      List.append_assoc, List.drop_left' (length_toLE _ _)]
    norm_num
  rcases range_of_two_bytes hr hrange with ⟨-, hz⟩ | ⟨-, hz⟩
  · rw [h12, hz] at hread
    have hzero : readUleb (toLE 2 0 ++ (uleb aug.length ++ (aug ++ (instrs ++ (List.replicate pad 0 ++ rest))))) =
      some (0, 1) := rfl
    rw [hzero] at hread
    cases hread
    omega
  · rw [h12, hz] at hread
    have hones : toLE 2 (2 ^ 48 - 1) = [255, 255] := by decide
    rw [hones, List.cons_append, List.cons_append, List.nil_append, readUleb, if_neg (by decide), readUleb,
      if_neg (by decide), readUleb_uleb] at hread
    cases hread
    have h255 : (255 : UInt8).toNat % 128 = 127 := by decide
    rw [h255] at hsum
    omega

/-- **A record that is read back has a four-byte format.** -/
theorem fourBytes_of_recovers (h : RecordBytes cie ptr n location (UInt64.ofInt r).toNat aug instrs pad record)
    (hr : -2 ^ 31 ≤ r ∧ r < 2 ^ 31) (hn : getPointerSizeFromEHPointerEncoding config cie.declaredEncoding = .ok n)
    (hn0 : n = 2 ∨ n = 4 ∨ n = 8) (haug : AugmentationIs config cie aug) {c : FdeContents}
    (hread : readFDE config cie address record = some c)
    (hrange : c.addressRange = config.word (UInt64.ofInt r).toNat)
    (hinstrs : c.instructions = instrs ++ List.replicate pad 0) : n = 4 := by
  obtain ⟨-, v, off1, w, off2, lsda, off3, h1, h2, h3, rfl⟩ := readFDE_eq_some.mp hread
  obtain ⟨-, h1⟩ := pointerAt_some h1
  obtain ⟨k, hk, hstop1, rfl, -⟩ := valueAt_some h1
  rw [hn] at hk
  cases hk
  obtain ⟨k, hk, hstop2, rfl, hw⟩ := valueAt_some h2
  rw [hn] at hk
  cases hk
  have hoff : off3 = 12 + n + (augmentationLengthLEB cie.augmentationFlags aug).length + aug.length ∨
    off3 > 4 + leNat (record.take 4) := by
    have hlen := congrArg List.length hinstrs
    rw [h.takeStop] at hlen
    have hstop := h.stop
    simp [fdeTail] at hlen
    omega
  cases hp : cie.augmentationFlags.dataPresent with
  | false =>
    rw [augmentationAt_plain hp] at h3
    cases h3
    have hnil : aug = [] := by
      rcases haug with rfl | ⟨ha, -⟩
      · rfl
      · have := ha.1
        rw [hp] at this
        cases this
    have hno : augmentationLengthLEB cie.augmentationFlags aug = [] := by
      unfold augmentationLengthLEB
      rw [hp]
      rfl
    rw [hno, hnil] at hoff
    simp at hoff
    omega
  | true =>
    obtain ⟨length, k, huleb, hle, rfl, hcase⟩ := augmentationAt_some hp h3
    obtain ⟨hleb, hone⟩ := augmentationLength_small hp (lt_of_le_of_lt haug.length_le (by norm_num))
    have haugLen : aug.length ≤ length := by
      rcases haug with rfl | ⟨ha, hsize⟩
      · simp
      · rcases hcase with ⟨-, p, e, hptr, -⟩ | ⟨hna, -⟩
        · obtain ⟨-, hval⟩ := pointerAt_some hptr
          obtain ⟨j, hj, hjle, -, -⟩ := valueAt_some hval
          rw [hsize] at hj
          cases hj
          omega
        · exact absurd ha hna
    have hkpos := readUleb_pos huleb
    rw [hleb, length_uleb, hone] at hoff
    rcases hn0 with rfl | rfl | rfl
    · exfalso
      have hbytes := h.range_bytes (show 2 ≤ 4 by omega)
      rw [hbytes, leNat_toLE, extended_mod] at hw
      have hval : config.word (extended cie.declaredEncoding 2 (UInt64.ofInt r).toNat) =
        config.word (UInt64.ofInt r).toNat := by
        have := hrange
        simp only [hw] at this
        simpa using this
      exact not_twoBytes h hr hp haug.length_le hval huleb (by omega) haugLen
    · rfl
    · omega

/-- What is read from a record with a four-byte format and no LSDA pointer missing. -/
theorem readFDE_fourBytes (h : RecordBytes cie ptr 4 location range aug instrs pad record)
    (hn : getPointerSizeFromEHPointerEncoding config cie.declaredEncoding = .ok 4) (hs : Supported cie.declaredEncoding)
    {lsda : Option Int} (haug : augmentationAt config cie address record 16 (4 + leNat (record.take 4)) =
      some (lsda, 16 + (augmentationLengthLEB cie.augmentationFlags aug).length + aug.length)) :
    readFDE config cie address record = some
      ⟨config.word (extended cie.declaredEncoding 4 location + (pointerOrigin cie.declaredEncoding (address + 8)).toNat),
        config.word (extended cie.declaredEncoding 4 range), lsda, instrs ++ List.replicate pad 0⟩ := by
  have hstop := h.stop
  have hloc : pointerAt config cie.declaredEncoding address record 8 (4 + leNat (record.take 4)) =
      some (config.word (extended cie.declaredEncoding 4 location +
        (pointerOrigin cie.declaredEncoding (address + 8)).toNat), 12) := by
    rw [pointerAt_eq hs, valueAt_stored hn (by omega) h.location_bytes]
    rfl
  have hrange : valueAt config cie.declaredEncoding 0 record 12 (4 + leNat (record.take 4)) =
      some (config.word (extended cie.declaredEncoding 4 range), 16) := by
    rw [valueAt_stored hn (by omega) (h.range_bytes le_rfl)]
    simp
  exact readFDE_eq_some.mpr ⟨h.fits, _, _, _, _, _, _, hloc, hrange, haug, by rw [h.instruction_bytes]⟩

/-! ### The augmentation data -/

theorem augmentationAt_unannounced (h : RecordBytes cie ptr 4 location range [] instrs pad record)
    (hno : ¬ cie.AnnouncesLSDA) : augmentationAt config cie address record 16 (4 + leNat (record.take 4)) =
      some (none, 16 + (augmentationLengthLEB cie.augmentationFlags []).length + ([] : List UInt8).length) := by
  have hstop := h.stop
  cases hp : cie.augmentationFlags.dataPresent with
  | false =>
    rw [augmentationAt_plain hp, augmentationLengthLEB, hp]
    rfl
  | true =>
    obtain ⟨hleb, hone⟩ := augmentationLength_small hp (show ([] : List UInt8).length < 128 by simp)
    obtain ⟨huleb, -⟩ := h.augmentation_bytes hp (by simp)
    rw [hleb, length_uleb, hone] at hstop ⊢
    rw [augmentationAt_of hp huleb (by simp; omega), if_neg hno]

theorem augmentationAt_announced {p : UInt64} {k : Nat} {location' : UInt64} (hloc : address + 17 = location')
    (hk : getPointerSizeFromEHPointerEncoding config cie.fdeLSDAPointerEncoding = .ok k)
    (hs : Supported cie.fdeLSDAPointerEncoding) (ha : cie.AnnouncesLSDA)
    (haug : aug = toLE k (storedPointer p location' cie.fdeLSDAPointerEncoding).toNat)
    (h : RecordBytes cie ptr 4 location range aug instrs pad record) :
    augmentationAt config cie address record 16 (4 + leNat (record.take 4)) =
      some (some (config.word (extended cie.fdeLSDAPointerEncoding k
        (storedPointer p location' cie.fdeLSDAPointerEncoding).toNat +
        (pointerOrigin cie.fdeLSDAPointerEncoding location').toNat)),
        16 + (augmentationLengthLEB cie.augmentationFlags aug).length + aug.length) := by
  have hstop := h.stop
  have hlen : aug.length = k := by rw [haug, length_toLE]
  have hle : aug.length ≤ 8 := by rw [hlen]; exact pointerSize_le hk
  obtain ⟨hleb, hone⟩ := augmentationLength_small ha.1 (lt_of_le_of_lt hle (by norm_num))
  obtain ⟨huleb, hbytes⟩ := h.augmentation_bytes ha.1 hle
  rw [hleb, length_uleb, hone] at hstop ⊢
  have hptr : pointerAt config cie.fdeLSDAPointerEncoding address record (16 + 1) (16 + 1 + aug.length) =
      some (config.word (extended cie.fdeLSDAPointerEncoding k (storedPointer p location' cie.fdeLSDAPointerEncoding).toNat +
        (pointerOrigin cie.fdeLSDAPointerEncoding location').toNat), 16 + 1 + k) := by
    rw [hlen] at hbytes ⊢
    rw [pointerAt_eq hs, valueAt_stored hk le_rfl (hbytes.trans haug), ← hloc]
    rfl
  rw [augmentationAt_of ha.1 huleb (by omega), if_pos ha, hptr]
  rfl

end Recover

section Frame
variable {config : ElfBitwidth} {cfi : CallFrameInfo} {stale : Nat → UInt32} {lsdaPointers : List UInt64}
  {sec : FrameSection}

theorem fdeLocation_eh {cie : CIE} {fde : FDE} {at' location : UInt64} {n m : Nat} (heh : cfi.isEHFrame = true)
    (h : fdeLocation config cfi cie fde at' = .ok (location, n, m)) :
    m = 4 ∧ getPointerSizeFromEHPointerEncoding config cie.fdePointerEncoding = .ok n ∧ Supported cie.fdePointerEncoding ∧
      location = storedPointer (addrOfInt fde.lowpc) at' cie.fdePointerEncoding := by
  unfold fdeLocation at h
  rw [if_pos heh] at h
  obtain ⟨⟨v, k⟩, henc, h⟩ := bind_eq_ok.mp h
  cases h
  obtain ⟨hk, hs, hv⟩ := encodeEHPointer_ok henc
  exact ⟨rfl, hk, hs, hv⟩

/-- The augmentation data is the LSDA pointer the FDE has, where the CIE announces one, and else nothing. -/
theorem fdeAugmentationData_ok {cie : CIE} {fde : FDE} {at' : UInt64} {aug : List UInt8}
    (h : fdeAugmentationData config cie fde lsdaPointers at' = .ok aug) :
    cie.AnnouncesLSDA ∧ (∃ p k, fde.lsdaPointer lsdaPointers = some p ∧
      getPointerSizeFromEHPointerEncoding config cie.fdeLSDAPointerEncoding = .ok k ∧ Supported cie.fdeLSDAPointerEncoding ∧
      aug = toLE k (storedPointer p at' cie.fdeLSDAPointerEncoding).toNat) ∨
    ¬ cie.AnnouncesLSDA ∧ aug = [] := by
  unfold fdeAugmentationData at h
  split at h
  · rename_i hall
    obtain ⟨hp, hl⟩ := hall
    split at h
    · rename_i hhas
      cases hget : lsdaPointers[fde.lsdaIdx.toNat]? with
      | none => rw [hget] at h; cases h
      | some p =>
        rw [hget] at h
        obtain ⟨⟨v, k⟩, henc, h⟩ := bind_eq_ok.mp h
        cases h
        obtain ⟨hk, hs, rfl⟩ := encodeEHPointer_ok henc
        refine .inl ⟨⟨hp, hl, not_omit_of_application hs⟩, p, k, ?_, hk, hs, rfl⟩
        unfold FDE.lsdaPointer
        rw [if_pos hhas, hget]
    · cases h
  · rename_i hall
    cases h
    exact .inr ⟨fun ha => hall ⟨ha.1, ha.2.1⟩, rfl⟩

/-- The same, once the format is known to have four bytes. -/
theorem recovers_iff_of_size {cieOffsets : List Nat} {fde : FDE} {start ptr : Nat} {record : List UInt8} {cie : CIE}
    {location : UInt64} {aug instrs : List UInt8} {pad cieOffset : Nat} (heh : cfi.isEHFrame = true)
    (hdecl : cie.fdePointerEncoding = cie.declaredEncoding)
    (hw : FdeWritten config cfi cieOffsets lsdaPointers fde start cie cieOffset location 4 4 aug instrs)
    (h : RecordBytes cie ptr 4 location.toNat fde.range.toNat aug instrs pad record) :
    readFDE config cie (cfi.ehAddress + UInt64.ofNat start) record = some (fde.contents config lsdaPointers instrs pad) ↔
      FourByteFDE config cfi lsdaPointers cie fde start := by
  obtain ⟨-, hn, hs, hloc⟩ := fdeLocation_eh heh hw.location_eq
  have hlocation := @pointer_recovers config cie.fdePointerEncoding 4 (addrOfInt fde.lowpc)
    (cfi.ehAddress + UInt64.ofNat start + 8) hn
  have hrange : config.word (extended cie.fdePointerEncoding 4 fde.range.toNat) = config.word fde.range.toNat ↔
      Fits config cie.fdePointerEncoding fde.range := by
    refine ⟨fun hf k hk => ?_, fun hf => hf 4 hn⟩
    rw [hn] at hk
    cases hk
    exact hf
  rw [← hloc] at hlocation
  have hread := fun lsda => @readFDE_fourBytes config cie ptr location.toNat fde.range.toNat pad aug instrs
    record (cfi.ehAddress + UInt64.ofNat start) h (hdecl ▸ hn) (hdecl ▸ hs) lsda
  rw [← hdecl] at hread
  have h17 : cfi.ehAddress + UInt64.ofNat start + 17 = cfi.ehAddress + UInt64.ofNat start + 8 + UInt64.ofNat
    (4 + 4 + 1) := by
    have h9 : UInt64.ofNat (4 + 4 + 1) = 9 := rfl
    rw [h9]
    grind
  rcases fdeAugmentationData_ok hw.data_eq with ⟨ha, p, k, hp, hk, hks, haug⟩ | ⟨ha, rfl⟩
  · -- the LSDA pointer was written
    rw [← h17] at haug
    have hlsda := @pointer_recovers config cie.fdeLSDAPointerEncoding k p (cfi.ehAddress + UInt64.ofNat start + 17) hk
    rw [hread _ (augmentationAt_announced rfl hk hks ha haug h), Option.some.injEq, FDE.contents, FdeContents.mk.injEq, hp,
      Option.map_some, Option.some.injEq, hlocation, hrange, hlsda]
    constructor
    · rintro ⟨h1, h2, h3, -⟩
      refine ⟨hn, hloc ▸ h1, h2, fun _ => ha, fun q hq => ?_⟩
      rw [hp] at hq
      cases hq
      exact h3
    · rintro ⟨-, h1, h2, -, h3⟩
      exact ⟨hloc ▸ h1, h2, h3 p hp, rfl⟩
  · -- no LSDA pointer is announced, and none is written
    rw [hread _ (augmentationAt_unannounced h ha), Option.some.injEq, FDE.contents, FdeContents.mk.injEq, hlocation, hrange]
    constructor
    · rintro ⟨h1, h2, h3, -⟩
      have hl : fde.lsdaPointer lsdaPointers = none := by simpa using h3.symm
      refine ⟨hn, hloc ▸ h1, h2, by simp [hl], fun q hq => ?_⟩
      rw [hl] at hq
      cases hq
    · rintro ⟨-, h1, h2, h3, -⟩
      have hl : fde.lsdaPointer lsdaPointers = none := by
        rw [← Option.not_isSome_iff_eq_none]
        exact fun hsome => ha (h3 hsome)
      exact ⟨hloc ▸ h1, h2, by rw [hl]; rfl, rfl⟩

/-- A written FDE is read back exactly when it is a four-byte one. -/
theorem recovers_iff {cieOffsets : List Nat} {fde : FDE} {start : Nat} {data : List UInt8} {cie : CIE} {instrs : List UInt8}
    {pad : Nat} (heh : cfi.isEHFrame = true) (hdecl : cie.fdePointerEncoding = cie.declaredEncoding)
    (hdata : data.length < 2 ^ 31)
    (hrec : FdeRecordAt config cfi cieOffsets lsdaPointers fde start data cie instrs pad) :
    readFDE config cie (cfi.ehAddress + UInt64.ofNat start) (data.drop start) =
      some (fde.contents config lsdaPointers instrs pad) ↔
      FourByteFDE config cfi lsdaPointers cie fde start := by
  obtain ⟨cieOffset, location, n, m, aug, hw, hbytes⟩ := hrec
  obtain ⟨rfl, hn, hs, -⟩ := fdeLocation_eh heh hw.location_eq
  have h := RecordBytes.of_section hdata hbytes
  have haug : AugmentationIs config cie aug := by
    rcases fdeAugmentationData_ok hw.data_eq with ⟨ha, p, k, -, hk, -, rfl⟩ | ⟨-, hnil⟩
    · exact .inr ⟨ha, by rw [length_toLE]; exact hk⟩
    · exact .inl hnil
  constructor
  · intro hread
    have hn4 : n = 4 := fourBytes_of_recovers h hw.range_int (hdecl ▸ hn)
      (pointerSize_cases hn (not_omit_of_application hs)) haug
      hread rfl rfl
    subst hn4
    exact (recovers_iff_of_size heh hdecl hw h).mp hread
  · intro hf
    have hn4 := hf.size
    rw [hn] at hn4
    cases hn4
    exact (recovers_iff_of_size heh hdecl hw h).mpr hf

/-- Each FDE of a section was written from its CIE. -/
theorem fdeRecordAt {fde : FDE} {i start : Nat} (h : buildFrameSection config cfi stale lsdaPointers = .ok sec)
    (hi : cfi.fdes[i]? = some fde) (hstart : sec.fdeOffsets[i]? = some start) :
    ∃ cie instrs pad, cfi.cies[fde.cie]? = some cie ∧
      FdeRecordAt config cfi sec.cieOffsets lsdaPointers fde start sec.buf.data cie instrs pad := by
  obtain ⟨buf, buf', hoff, hbuild, hpre⟩ := (buildFrameSection_framed h).fdes i fde hi
  rw [hstart] at hoff
  cases hoff
  obtain ⟨cie, cieOffset, location, n, m, aug, instrs, pad, hw, -, hbytes⟩ := buildFDE_ok hbuild
  refine ⟨cie, instrs, pad, hw.cie_eq, cieOffset, location, n, m, aug, hw, ?_⟩
  rw [hbytes] at hpre
  obtain ⟨rest, hrest⟩ := hpre
  rw [← hrest, List.append_assoc, List.drop_left' (show buf.data.length = buf.len from rfl)]
  exact List.prefix_append _ _

theorem readable_iff {fde : FDE} {i start : Nat} {cie : CIE} (h : buildFrameSection config cfi stale lsdaPointers = .ok sec)
    (heh : cfi.isEHFrame = true) (hi : cfi.fdes[i]? = some fde) (hstart : sec.fdeOffsets[i]? = some start)
    (hcie : cfi.cies[fde.cie]? = some cie) (hdecl : cie.fdePointerEncoding = cie.declaredEncoding) :
    FdeReadable config cfi lsdaPointers sec fde start ↔ FourByteFDE config cfi lsdaPointers cie fde start := by
  have hdata : sec.buf.data.length < 2 ^ 31 := sec.buf.len_lt
  constructor
  · rintro ⟨cie', instrs, pad, hrec, hread⟩
    have hsame : cfi.cies[fde.cie]? = some cie' := by
      obtain ⟨cieOffset, location, n, m, aug, hw, -⟩ := hrec
      exact hw.cie_eq
    rw [hcie] at hsame
    cases hsame
    exact (recovers_iff heh hdecl hdata hrec).mp hread
  · intro hf
    obtain ⟨cie', instrs, pad, hcie', hrec⟩ := fdeRecordAt h hi hstart
    rw [hcie] at hcie'
    cases hcie'
    exact ⟨cie, instrs, pad, hrec, (recovers_iff heh hdecl hdata hrec).mpr hf⟩

/-- **A reader recovers an FDE exactly when its CIE's pointer format has four bytes, all that is stored fits, and
its CIE announces the LSDA pointer, if it has one.** -/
theorem fde_readable_iff (h : buildFrameSection config cfi stale lsdaPointers = .ok sec) (heh : cfi.isEHFrame = true)
    (hdecl : ∀ cie ∈ cfi.cies, cie.fdePointerEncoding = cie.declaredEncoding) {fde : FDE} {i : Nat}
    (hi : cfi.fdes[i]? = some fde) :
    ∃ cie start, cfi.cies[fde.cie]? = some cie ∧ sec.fdeOffsets[i]? = some start ∧
      (FdeReadable config cfi lsdaPointers sec fde start ↔ FourByteFDE config cfi lsdaPointers cie fde start) := by
  obtain ⟨buf, buf', hoff, -, -⟩ := (buildFrameSection_framed h).fdes i fde hi
  obtain ⟨cie, -, -, hcie, -⟩ := fdeRecordAt h hi hoff
  exact ⟨cie, buf.len, hcie, hoff, readable_iff h heh hi hoff hcie (hdecl cie (List.mem_of_getElem? hcie))⟩

end Frame

theorem fde_readable_iff_sampleFrame : ∃ sec cie start, buildFrameSection .elf64 sampleFrame (fun _ => 0) [] = .ok sec ∧
    sampleFrame.cies[0]? = some cie ∧ sec.fdeOffsets[0]? = some start ∧
    (FdeReadable .elf64 sampleFrame [] sec ⟨0, [{ RegInstruction.blank .advanceLoc with arg1 := 4 }], 0x2000, 0x2010,
    false, 0, 0⟩ start ↔
      FourByteFDE .elf64 sampleFrame [] cie ⟨0, [{ RegInstruction.blank .advanceLoc with arg1 := 4 }], 0x2000,
        0x2010, false, 0, 0⟩ start) := by
  have hbuilt : (buildFrameSection .elf64 sampleFrame (fun _ => 0) []).map FrameSection.fdeOffsets = .ok [20, 40] := by
    decide +kernel
  obtain ⟨sec, hsec, -⟩ := written_at hbuilt
  obtain ⟨cie, start, hcie, hstart, hiff⟩ := fde_readable_iff hsec rfl (by decide)
    (show sampleFrame.fdes[0]? = some _ from rfl)
  exact ⟨sec, cie, start, hsec, hcie, hstart, hiff⟩

/-- A CIE without augmentation: its FDEs have absolute pointers of the word size. -/
def plainFrame : CallFrameInfo :=
  { sampleFrame with
    fdes := [⟨0, [], 0x2000, 0x2010, false, 0, 0⟩]
    cies := [{ sampleCIE with augmentationFlags := .none, fdePointerEncoding := 0 }] }

theorem not_readable_plainFrame : ¬ ∀ (config : ElfBitwidth) (cfi : CallFrameInfo) (stale : Nat → UInt32)
    (lsdaPointers : List UInt64) (sec : FrameSection) (i : Nat) (fde : FDE) (start : Nat),
    buildFrameSection config cfi stale lsdaPointers = .ok sec → cfi.isEHFrame = true →
    (∀ cie ∈ cfi.cies, cie.fdePointerEncoding = cie.declaredEncoding) → cfi.fdes[i]? = some fde →
    sec.fdeOffsets[i]? = some start → FdeReadable config cfi lsdaPointers sec fde start := by
  intro h
  have hbuilt : (buildFrameSection .elf64 plainFrame (fun _ => 0) []).map FrameSection.fdeOffsets = .ok [20] := by
    decide +kernel
  obtain ⟨sec, hsec, hoff⟩ := written_at hbuilt
  have hstart : sec.fdeOffsets[0]? = some 20 := by rw [hoff]; rfl
  have hread := h _ _ _ _ _ 0 _ 20 hsec rfl (by decide) rfl hstart
  have hfour := (readable_iff hsec rfl rfl hstart rfl (by decide)).mp hread
  have hsize := hfour.size
  revert hsize
  decide

end Katana

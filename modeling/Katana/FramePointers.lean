/-
  Katana.FramePointers — where the pc-relative pointers of `.eh_frame` lead.

  The writer adds up the sizes of what it expects before a pointer. For an FDE the sum is right; for the
  personality pointer it misses the length of the augmentation data and, from version 4 on, the address and
  segment sizes.

  Proved:
  - `location_points` / `lsda_points`: an FDE's pointers lead where they should.
  - `personality_points`: the personality pointer leads one or three bytes past its target.
  - `pcrel_pointers_iff`: all pointers are right exactly when no personality pointer is pc-relative.
-/
import Katana.FdeReader

namespace Katana

open Lib

/-- The CIE was written at `start` of a section, with this augmentation data. -/
def CieRecordAt (config : ElfBitwidth) (cfi : CallFrameInfo) (stale : UInt32) (cie : CIE) (start : Nat) (data : List UInt8)
    (aug : List UInt8) : Prop :=
  cieData config cfi stale cie start = .ok aug ∧
    ∃ instrs pad, framed (cieBody cfi.isEHFrame cie aug instrs pad) <+: data.drop start

namespace CIE

/-- Where the augmentation data of a CIE lies: after the length, the id and the version, the head, and its own length. -/
def dataOffset (cie : CIE) (aug : List UInt8) : Nat :=
  9 + cie.headParts.length + (augmentationLengthLEB cie.augmentationFlags aug).length

/-- What follows the personality pointer in the augmentation data: the encodings of the LSDA pointers and of the FDEs. -/
def laterData (cie : CIE) : List UInt8 :=
  (if cie.augmentationFlags.fdeLsda then [cie.fdeLSDAPointerEncoding] else []) ++
    (if cie.augmentationFlags.fdeEnc then [cie.fdePointerEncoding] else [])

theorem laterData_le (cie : CIE) : cie.laterData.length ≤ 2 := by
  unfold laterData
  split <;> split <;> simp

/-- The CIE gets a pc-relative personality pointer. Past 32 bits it would be written as an absolute one. -/
def PcrelPersonality (cie : CIE) : Prop :=
  cie.augmentationFlags.dataPresent ∧ cie.augmentationFlags.personality ∧
    cie.personalityFunction &&& 0xFFFFFFFF00000000 = 0 ∧ peApplication cie.personalityPointerEncoding = .pcrel

instance (cie : CIE) : Decidable cie.PcrelPersonality := inferInstanceAs (Decidable (_ ∧ _ ∧ _ ∧ _))

end CIE

/-- Each pc-relative pointer of a section, added to the address of its own first byte, gives the pointer intended. -/
structure PcrelPointersRight (config : ElfBitwidth) (cfi : CallFrameInfo) (stale : Nat → UInt32) (lsdaPointers : List UInt64)
    (sec : FrameSection) : Prop where
  personality : ∀ (i : Nat) (cie : CIE) (start : Nat) (aug : List UInt8) (k : Nat), cfi.cies[i]? = some cie →
    sec.cieOffsets[i]? = some start → CieRecordAt config cfi (stale i) cie start sec.buf.data aug → cie.PcrelPersonality →
    getPointerSizeFromEHPointerEncoding config cie.personalityPointerEncoding = .ok k →
    PointsTo sec.buf.data cfi.ehAddress (start + cie.dataOffset aug + 1) k cie.personalityFunction
  location : ∀ (i : Nat) (fde : FDE) (start : Nat) (cie : CIE) (instrs : List UInt8) (pad k : Nat), cfi.fdes[i]? = some fde →
    sec.fdeOffsets[i]? = some start →
      FdeRecordAt config cfi sec.cieOffsets lsdaPointers fde start sec.buf.data cie instrs pad →
    peApplication cie.fdePointerEncoding = .pcrel →
      getPointerSizeFromEHPointerEncoding config cie.fdePointerEncoding = .ok k →
    PointsTo sec.buf.data cfi.ehAddress (start + 8) k (addrOfInt fde.lowpc)
  lsda : ∀ (i : Nat) (fde : FDE) (start : Nat) (cie : CIE) (instrs : List UInt8) (pad n k : Nat) (p : UInt64),
    cfi.fdes[i]? = some fde → sec.fdeOffsets[i]? = some start →
    FdeRecordAt config cfi sec.cieOffsets lsdaPointers fde start sec.buf.data cie instrs pad →
    cie.AnnouncesLSDA → fde.lsdaPointer lsdaPointers = some p → peApplication cie.fdeLSDAPointerEncoding = .pcrel →
    getPointerSizeFromEHPointerEncoding config cie.fdePointerEncoding = .ok n →
    getPointerSizeFromEHPointerEncoding config cie.fdeLSDAPointerEncoding = .ok k →
    PointsTo sec.buf.data cfi.ehAddress (start + 8 + n + 4 + 1) k p

section Pointers
variable {config : ElfBitwidth} {cfi : CallFrameInfo} {stale : Nat → UInt32} {lsdaPointers : List UInt64}
  {sec : FrameSection}

/-! ## One pointer -/

/-- A difference taken at `at'` and stored at `off` leads past the pointer by what `at'` falls short. -/
theorem pointsTo_iff {data : List UInt8} {base at' p : UInt64} {off k : Nat} (hk : k ≤ 8)
    (hbytes : (data.drop off).take k = toLE k (p - at').toNat) :
    PointsTo data base off k p ↔ (p + (base + UInt64.ofNat off - at')).toNat % 256 ^ k = p.toNat % 256 ^ k := by
  unfold PointsTo
  rw [hbytes, leNat_toLE, pcrel_points hk]

theorem pointsTo_self {data : List UInt8} {base at' p : UInt64} {off k : Nat} (hk : k ≤ 8)
    (hbytes : (data.drop off).take k = toLE k (p - at').toNat) (hat : base + UInt64.ofNat off = at') :
    PointsTo data base off k p := by
  rw [pointsTo_iff hk hbytes, hat]
  congr 2
  grind

/-- One or three bytes past a target is not the target, however many of its bytes are looked at. -/
theorem past_target {p : UInt64} {k d : Nat} (hk : k = 2 ∨ k = 4 ∨ k = 8) (hd : d = 1 ∨ d = 3) :
    (p + UInt64.ofNat d).toNat % 256 ^ k ≠ p.toNat % 256 ^ k := by
  rw [UInt64.toNat_add, UInt64.toNat_ofNat']
  rcases hk with rfl | rfl | rfl <;> rcases hd with rfl | rfl <;> norm_num <;> omega

theorem not_pointsTo {data : List UInt8} {base at' p : UInt64} {off k d : Nat} (hk : k = 2 ∨ k = 4 ∨ k = 8)
    (hbytes : (data.drop off).take k = toLE k (p - at').toNat) (hd : d = 1 ∨ d = 3)
    (hat : base + UInt64.ofNat off = at' + UInt64.ofNat d) : ¬ PointsTo data base off k p := by
  rw [pointsTo_iff (by omega) hbytes, hat]
  have hsub : at' + UInt64.ofNat d - at' = UInt64.ofNat d := by grind
  rw [hsub]
  exact past_target hk hd

/-! ## The pointers of an FDE -/

theorem location_points {fde : FDE} {start : Nat} {cie : CIE} {instrs : List UInt8} {pad k : Nat}
    (heh : cfi.isEHFrame = true)
    (hrec : FdeRecordAt config cfi sec.cieOffsets lsdaPointers fde start sec.buf.data cie instrs pad)
    (happ : peApplication cie.fdePointerEncoding = .pcrel)
    (hk : getPointerSizeFromEHPointerEncoding config cie.fdePointerEncoding = .ok k) :
    PointsTo sec.buf.data cfi.ehAddress (start + 8) k (addrOfInt fde.lowpc) := by
  obtain ⟨cieOffset, location, n, m, aug, hw, hbytes⟩ := hrec
  obtain ⟨rfl, hn, -, rfl⟩ := fdeLocation_eh heh hw.location_eq
  rw [hk] at hn
  cases hn
  have h := RecordBytes.of_section sec.buf.len_lt hbytes
  have hread := h.location_bytes
  rw [List.drop_drop, storedPointer, if_pos happ] at hread
  refine pointsTo_self (pointerSize_le hk) hread ?_
  rw [UInt64.ofNat_add]
  grind

theorem lsda_points {fde : FDE} {start : Nat} {cie : CIE} {instrs : List UInt8} {pad n k : Nat} {p : UInt64}
    (heh : cfi.isEHFrame = true)
    (hrec : FdeRecordAt config cfi sec.cieOffsets lsdaPointers fde start sec.buf.data cie instrs pad)
    (ha : cie.AnnouncesLSDA) (hp : fde.lsdaPointer lsdaPointers = some p)
    (happ : peApplication cie.fdeLSDAPointerEncoding = .pcrel)
    (hn : getPointerSizeFromEHPointerEncoding config cie.fdePointerEncoding = .ok n)
    (hk : getPointerSizeFromEHPointerEncoding config cie.fdeLSDAPointerEncoding = .ok k) :
    PointsTo sec.buf.data cfi.ehAddress (start + 8 + n + 4 + 1) k p := by
  obtain ⟨cieOffset, location, n', m, aug, hw, hbytes⟩ := hrec
  obtain ⟨rfl, hn', -, rfl⟩ := fdeLocation_eh heh hw.location_eq
  rw [hn] at hn'
  cases hn'
  have h := RecordBytes.of_section sec.buf.len_lt hbytes
  rcases fdeAugmentationData_ok hw.data_eq with ⟨-, q, j, hq, hj, -, haug⟩ | ⟨hno, -⟩
  · rw [hp] at hq
    rw [hk] at hj
    cases hq
    cases hj
    have hlen : aug.length = k := by rw [haug, length_toLE]
    obtain ⟨-, hread⟩ := h.augmentation_bytes ha.1 (by rw [hlen]; exact pointerSize_le hk)
    rw [hlen, haug, List.drop_drop, storedPointer, if_pos happ,
      show start + (13 + n) = start + 8 + n + 4 + 1 by omega] at hread
    refine pointsTo_self (pointerSize_le hk) hread ?_
    simp only [UInt64.ofNat_add]
    grind
  · exact absurd ha hno

/-! ## The personality pointer -/

/-- The augmentation data is the personality pointer's bytes and the two encodings. -/
theorem cieData_ok {cie : CIE} {stale : UInt32} {start : Nat} {aug : List UInt8}
    (hdata : cie.augmentationFlags.dataPresent = true)
    (h : cieData config cfi stale cie start = .ok aug) : ∃ personality, aug = personality ++ cie.laterData ∧
      (if cie.augmentationFlags.personality then
        personalityData config cie (cie.expectedDataAddress cfi.ehAddress start + 1) stale else .ok []) =
          .ok personality := by
  unfold cieData at h
  rw [if_pos hdata] at h
  unfold cieAugmentationData at h
  cases hper : cie.augmentationFlags.personality with
  | false =>
    rw [hper] at h
    cases h
    exact ⟨[], rfl, rfl⟩
  | true =>
    rw [hper] at h
    obtain ⟨personality, hp, h⟩ := bind_eq_ok.mp h
    cases h
    exact ⟨personality, List.append_assoc .., hp⟩

/-- A personality pointer below 2^32 is written in its encoding. -/
theorem personalityData_small {cie : CIE} {stale : UInt32} {expected : UInt64} {personality : List UInt8}
    (hsmall : cie.personalityFunction &&& 0xFFFFFFFF00000000 = 0)
    (h : personalityData config cie expected stale = .ok personality) :
    ∃ k, getPointerSizeFromEHPointerEncoding config cie.personalityPointerEncoding = .ok k ∧
      Supported cie.personalityPointerEncoding ∧ personality = cie.personalityPointerEncoding ::
        toLE k (storedPointer cie.personalityFunction expected cie.personalityPointerEncoding).toNat := by
  unfold personalityData at h
  rw [if_pos hsmall] at h
  obtain ⟨⟨v, k⟩, henc, h⟩ := bind_eq_ok.mp h
  cases h
  obtain ⟨hk, hs, rfl⟩ := encodeEHPointer_ok henc
  exact ⟨k, hk, hs, rfl⟩

/-- The augmentation data of a CIE with a pc-relative personality pointer. -/
theorem cieData_personality {cie : CIE} {stale : UInt32} {start : Nat} {aug : List UInt8} (hp : cie.PcrelPersonality)
    (h : cieData config cfi stale cie start = .ok aug) :
    ∃ k, getPointerSizeFromEHPointerEncoding config cie.personalityPointerEncoding = .ok k ∧
      aug = cie.personalityPointerEncoding ::
        (toLE k (cie.personalityFunction - (cie.expectedDataAddress cfi.ehAddress start + 1)).toNat ++ cie.laterData) := by
  obtain ⟨hdata, hper, hsmall, happ⟩ := hp
  obtain ⟨personality, rfl, hpers⟩ := cieData_ok hdata h
  rw [if_pos hper] at hpers
  obtain ⟨k, hk, -, rfl⟩ := personalityData_small hsmall hpers
  refine ⟨k, hk, ?_⟩
  rw [storedPointer, if_pos happ]
  rfl

theorem length_headParts (cie : CIE) :
    cie.headParts.length = cie.headSizes + if 4 ≤ cie.version.toNat then 2 else 0 := by
  unfold CIE.headParts CIE.headSizes
  split <;> simp <;> omega

/-- What lies at the augmentation data's offset. -/
theorem aug_bytes {cie : CIE} {instrs aug : List UInt8} {start pad : Nat} {data : List UInt8}
    (h : framed (cieBody cfi.isEHFrame cie aug instrs pad) <+: data.drop start) :
    ∃ rest, data.drop (start + cie.dataOffset aug) = aug ++ rest := by
  obtain ⟨rest, hrest⟩ := h
  refine ⟨instrs ++ (List.replicate pad 0 ++ rest), ?_⟩
  have hcut : data.drop start = (toLE 4 (cieBody cfi.isEHFrame cie aug instrs pad).length ++ (toLE 4 (cieId cfi.isEHFrame) ++
      [cie.version]) ++ cie.headParts ++ augmentationLengthLEB cie.augmentationFlags aug) ++
        (aug ++ (instrs ++ (List.replicate pad 0 ++ rest))) := by
    rw [← hrest]
    unfold framed cieBody
    simp
  rw [← List.drop_drop, hcut]
  refine List.drop_left' ?_
  simp [CIE.dataOffset]
  omega

/-- The writer expects the personality pointer one byte before it lies, and three from version 4 on. -/
theorem personality_location {cie : CIE} {start : Nat} {base : UInt64} {aug : List UInt8}
    (hdata : cie.augmentationFlags.dataPresent = true) (hlen : aug.length < 128) :
    base + UInt64.ofNat (start + cie.dataOffset aug + 1) =
      cie.expectedDataAddress base start + 1 + UInt64.ofNat (if 4 ≤ cie.version.toNat then 3 else 1) := by
  obtain ⟨hleb, hone⟩ := augmentationLength_small hdata hlen
  unfold CIE.dataOffset CIE.expectedDataAddress
  rw [hleb, length_uleb, hone, length_headParts]
  simp only [UInt64.ofNat_add]
  split <;> grind

/-- **A pc-relative personality pointer does not lead to its target.** -/
theorem personality_points {cie : CIE} {stale : UInt32} {start k : Nat} {aug : List UInt8} (hp : cie.PcrelPersonality)
    (hrec : CieRecordAt config cfi stale cie start sec.buf.data aug)
    (hk : getPointerSizeFromEHPointerEncoding config cie.personalityPointerEncoding = .ok k) :
    ¬ PointsTo sec.buf.data cfi.ehAddress (start + cie.dataOffset aug + 1) k cie.personalityFunction := by
  obtain ⟨haug, instrs, pad, hbytes⟩ := hrec
  obtain ⟨j, hj, rfl⟩ := cieData_personality hp haug
  rw [hk] at hj
  cases hj
  obtain ⟨rest, hread⟩ := aug_bytes hbytes
  have hsizes := pointerSize_cases hk (not_omit_of_application (.inr hp.2.2.2))
  have hlen : (cie.personalityPointerEncoding ::
      (toLE k (cie.personalityFunction - (cie.expectedDataAddress cfi.ehAddress start + 1)).toNat ++
      cie.laterData)).length < 128 := by
    have hlater := cie.laterData_le
    simp
    omega
  have hptr : (sec.buf.data.drop (start + cie.dataOffset (cie.personalityPointerEncoding ::
      (toLE k (cie.personalityFunction - (cie.expectedDataAddress cfi.ehAddress start + 1)).toNat ++
      cie.laterData)) + 1)).take k =
      toLE k (cie.personalityFunction - (cie.expectedDataAddress cfi.ehAddress start + 1)).toNat := by
    rw [← List.drop_drop, hread, List.cons_append, List.drop_succ_cons, List.drop_zero, List.append_assoc,
      List.take_left' (length_toLE _ _)]
  refine not_pointsTo hsizes hptr ?_ (personality_location hp.1 hlen)
  split <;> simp

/-! ## All of them -/

/-- Each CIE of a section was written at its offset. -/
theorem cieRecordAt {cie : CIE} {i : Nat} (h : buildFrameSection config cfi stale lsdaPointers = .ok sec)
    (hi : cfi.cies[i]? = some cie) :
    ∃ start aug, sec.cieOffsets[i]? = some start ∧ CieRecordAt config cfi (stale i) cie start sec.buf.data aug := by
  obtain ⟨buf, buf', hoff, hbuild, hpre⟩ := (buildFrameSection_framed h).cies i cie hi
  obtain ⟨aug, raw, pad, haug, -, -, hbytes⟩ := buildCIE_ok hbuild
  refine ⟨buf.len, aug, hoff, haug, raw.instrs, pad, ?_⟩
  rw [hbytes] at hpre
  obtain ⟨rest, hrest⟩ := hpre
  rw [← hrest, List.append_assoc, List.drop_left' (show buf.data.length = buf.len from rfl)]
  exact List.prefix_append _ _

/-- **The pc-relative pointers of `.eh_frame` are right exactly when none of them is a personality pointer.** -/
theorem pcrel_pointers_iff (h : buildFrameSection config cfi stale lsdaPointers = .ok sec) (heh : cfi.isEHFrame = true) :
    PcrelPointersRight config cfi stale lsdaPointers sec ↔ ∀ cie ∈ cfi.cies, ¬ cie.PcrelPersonality := by
  constructor
  · intro hright cie hmem hp
    obtain ⟨i, hi⟩ := List.getElem?_of_mem hmem
    obtain ⟨start, aug, hstart, hrec⟩ := cieRecordAt h hi
    obtain ⟨k, hk, -⟩ := cieData_personality hp hrec.1
    exact personality_points hp hrec hk (hright.personality i cie start aug k hi hstart hrec hp hk)
  · intro hno
    refine ⟨?_, ?_, ?_⟩
    · intro i cie start aug k hi hstart hrec hp
      exact absurd hp (hno cie (List.mem_of_getElem? hi))
    · intro i fde start cie instrs pad k hi hstart hrec happ hk
      exact location_points heh hrec happ hk
    · intro i fde start cie instrs pad n k p hi hstart hrec ha hp happ hn hk
      exact lsda_points heh hrec ha hp happ hn hk

end Pointers

theorem pcrel_pointers_iff_sampleFrame : ∃ sec, buildFrameSection .elf64 sampleFrame (fun _ => 0) [] = .ok sec ∧
    (PcrelPointersRight .elf64 sampleFrame (fun _ => 0) [] sec ↔ ∀ cie ∈ sampleFrame.cies, ¬ cie.PcrelPersonality) := by
  have hbuilt : (buildFrameSection .elf64 sampleFrame (fun _ => 0) []).map FrameSection.fdeOffsets = .ok [20, 40] := by
    decide +kernel
  obtain ⟨sec, hsec, -⟩ := written_at hbuilt
  exact ⟨sec, hsec, pcrel_pointers_iff hsec rfl⟩

def personalityFrame : CallFrameInfo :=
  { sampleFrame with
    fdes := []
    cies := [{ sampleCIE with
      augmentationFlags := ⟨true, false, false, true⟩, personalityPointerEncoding := 0x1b, personalityFunction := 0x4000 }] }

theorem not_pcrel_pointers_personalityFrame : ¬ ∀ (config : ElfBitwidth) (cfi : CallFrameInfo) (stale : Nat → UInt32)
    (lsdaPointers : List UInt64) (sec : FrameSection), buildFrameSection config cfi stale lsdaPointers = .ok sec →
    cfi.isEHFrame = true → PcrelPointersRight config cfi stale lsdaPointers sec := by
  intro h
  have hbuilt : (buildFrameSection .elf64 personalityFrame (fun _ => 0) []).map FrameSection.fdeOffsets = .ok [] := by
    decide +kernel
  obtain ⟨sec, hsec, -⟩ := written_at hbuilt
  obtain ⟨start, aug, hstart, hrec⟩ := cieRecordAt hsec (show personalityFrame.cies[0]? = some _ from rfl)
  have hright := h _ _ _ _ _ hsec rfl
  exact personality_points (by decide) hrec rfl (hright.personality 0 _ start aug 4 rfl hstart hrec (by decide) rfl)

end Katana

/-
  Katana.RecordAlignment — where the records of a frame section start (the padding in buildCIERawData and
  buildFDERawData).

  A record is padded until the value of its length is a multiple of the address size. The length field
  itself takes four bytes more.

  Proved, for every section that is built:
  - `padded_multiple`: the value of the length is a multiple of an address size of 4 or 8.
  - `recordsAligned_iff`: the records are aligned to the address sizes exactly if these are all 4.
-/
import Katana.FrameLayout

namespace Katana

open Lib

/-- The rule: the length field and the length are a multiple of the address size together, and so is the start. -/
def RecordAligned (data : List UInt8) (addressSize off : Nat) : Prop :=
  off % addressSize = 0 ∧ (4 + leNat ((data.drop off).take 4)) % addressSize = 0

/-- The records that the lengths lead to are those of the CIEs and then those of the FDEs, each aligned to the address size
of its CIE. -/
def RecordsAligned (cfi : CallFrameInfo) (data : List UInt8) : Prop :=
  ∃ offsets, walk data.length 0 data = some offsets ∧
    (∀ (i : Nat) (cie : CIE), cfi.cies[i]? = some cie →
      ∃ off, offsets[i]? = some off ∧ RecordAligned data cie.addressSize.toInt.toNat off) ∧
    ∀ (j : Nat) (fde : FDE) (cie : CIE), cfi.fdes[j]? = some fde → cfi.cies[fde.cie]? = some cie →
      ∃ off, offsets[cfi.cies.length + j]? = some off ∧ RecordAligned data cie.addressSize.toInt.toNat off

/-! ## One record -/

/-- **The padding rounds the length's value up.** -/
theorem padded_multiple {length pad : Nat} {addressSize : Int32} (h : paddingFor length addressSize = .ok pad)
    (hsize : addressSize = 4 ∨ addressSize = 8) : (length + pad) % addressSize.toInt.toNat = 0 := by
  unfold paddingFor at h
  obtain ⟨-, -, h⟩ := bind_eq_ok.mp h
  have hm : addressSize.toUInt32.toNat = addressSize.toInt.toNat ∧
      (addressSize.toInt.toNat = 4 ∨ addressSize.toInt.toNat = 8) := by
    rcases hsize with rfl | rfl <;> decide
  rw [hm.1] at h
  dsimp only at h
  generalize addressSize.toInt.toNat = m at h hm ⊢
  split at h
  · cases h
    rcases hm.2 with rfl | rfl <;> omega
  · split at h
    · cases h
    · cases h
      rcases hm.2 with rfl | rfl <;> omega

/-- The length of a record, where it was written. -/
theorem length_at {buf buf' : GrowingBuffer} {body data : List UInt8} (hdata : buf'.data = buf.data ++ framed body)
    (hpre : buf'.data <+: data) : leNat ((data.drop buf.len).take 4) = body.length := by
  have hlt := buf'.len_lt
  unfold GrowingBuffer.len at hlt
  rw [hdata, List.length_append, length_framed] at hlt
  have hread : (data.drop buf.len).take 4 = toLE 4 body.length :=
    read_prefix (by rw [hdata, framed] at hpre; exact hpre) rfl (length_toLE _ _)
  rw [hread, leNat_toLE, Nat.mod_eq_of_lt (by norm_num; omega)]

section Build
variable {config : ElfBitwidth} {cfi : CallFrameInfo} {stale : Nat → UInt32} {lsdaPointers : List UInt64}

/-- What a CIE adds. -/
theorem buildCIE_multiple {old : UInt32} {cie : CIE} {buf buf' : GrowingBuffer}
    (h : buildCIERawData config cfi old cie buf = .ok buf') (hsize : cie.addressSize = 4 ∨ cie.addressSize = 8) :
    ∃ body, buf'.data = buf.data ++ framed body ∧ body.length % cie.addressSize.toInt.toNat = 0 := by
  obtain ⟨data, raw, pad, hparts⟩ := buildCIE_ok h
  obtain ⟨-, -, hpad, hdata⟩ := hparts
  refine ⟨_, hdata, ?_⟩
  have hmultiple := padded_multiple hpad hsize
  rw [length_cieBody] at hmultiple ⊢
  exact hmultiple

/-- What an FDE adds. -/
theorem buildFDE_multiple {cieOffsets : List Nat} {fde : FDE} {buf buf' : GrowingBuffer}
    (h : buildFDERawData config cfi cieOffsets lsdaPointers fde buf = .ok buf') :
    ∃ cie body, cfi.cies[fde.cie]? = some cie ∧ buf'.data = buf.data ++ framed body ∧
      (cie.addressSize = 4 ∨ cie.addressSize = 8 → body.length % cie.addressSize.toInt.toNat = 0) := by
  obtain ⟨cie, cieOffset, location, n, m, data, instrs, pad, hparts⟩ := buildFDE_ok h
  obtain ⟨hw, hpad, hdata⟩ := hparts
  refine ⟨cie, _, hw.cie_eq, hdata, fun hsize => ?_⟩
  have hmultiple := padded_multiple hpad hsize
  rw [length_fdeTail, Nat.add_zero, Nat.add_assoc 4] at hmultiple
  rw [List.length_append, length_toLE, length_fdeTail]
  exact hmultiple

/-! ## The starts -/

/-- All of a section so far is a multiple of four. -/
structure Fourfold (sec : FrameSection) : Prop where
  len : sec.buf.len % 4 = 0
  offsets : ∀ off ∈ sec.cieOffsets ++ sec.fdeOffsets, off % 4 = 0

theorem fourfold_len {buf buf' : GrowingBuffer} {body : List UInt8} (hdata : buf'.data = buf.data ++ framed body)
    (hbody : body.length % 4 = 0) (hlen : buf.len % 4 = 0) : buf'.len % 4 = 0 := by
  unfold GrowingBuffer.len at *
  rw [hdata, List.length_append, length_framed]
  omega

theorem addCIE_fourfold {cie : CIE} {sec sec' : FrameSection} (h : addCIE config cfi stale sec cie = .ok sec')
    (hsize : cie.addressSize = 4) (hsec : Fourfold sec) : Fourfold sec' := by
  obtain ⟨buf, hbuild, h⟩ := bind_eq_ok.mp h
  cases h
  obtain ⟨body, hdata, hbody⟩ := buildCIE_multiple hbuild (.inl hsize)
  rw [hsize] at hbody
  refine ⟨fourfold_len hdata hbody hsec.len, fun off hoff => ?_⟩
  rw [List.mem_append, List.mem_append, List.mem_singleton] at hoff
  rcases hoff with (hoff | rfl) | hoff
  · exact hsec.offsets off (List.mem_append_left _ hoff)
  · exact hsec.len
  · exact hsec.offsets off (List.mem_append_right _ hoff)

theorem addFDE_fourfold {fde : FDE} {sec sec' : FrameSection} (h : addFDE config cfi lsdaPointers sec fde = .ok sec')
    (hsizes : ∀ cie ∈ cfi.cies, cie.addressSize = 4) (hsec : Fourfold sec) : Fourfold sec' := by
  obtain ⟨buf, hbuild, h⟩ := bind_eq_ok.mp h
  cases h
  obtain ⟨cie, body, hcie, hdata, hbody⟩ := buildFDE_multiple hbuild
  have hsize := hsizes cie (List.mem_of_getElem? hcie)
  have hbody := hbody (.inl hsize)
  rw [hsize] at hbody
  refine ⟨fourfold_len hdata hbody hsec.len, fun off hoff => ?_⟩
  rw [List.mem_append, List.mem_append, List.mem_singleton] at hoff
  rcases hoff with hoff | hoff | rfl
  · exact hsec.offsets off (List.mem_append_left _ hoff)
  · exact hsec.offsets off (List.mem_append_right _ hoff)
  · exact hsec.len

theorem buildFrameSection_fourfold {sec : FrameSection} (h : buildFrameSection config cfi stale lsdaPointers = .ok sec)
    (hsizes : ∀ cie ∈ cfi.cies, cie.addressSize = 4) : Fourfold sec := by
  obtain ⟨sec0, h0, h⟩ := bind_eq_ok.mp h
  have hempty : Fourfold emptySection := ⟨rfl, by simp [emptySection]⟩
  have hcies := foldlM_ok (P := fun _ sec => Fourfold sec) h0 hempty fun done cie rest _ _ hl hsec hstep =>
    addCIE_fourfold hstep (hsizes cie (by simp [hl])) hsec
  exact foldlM_ok (P := fun _ sec => Fourfold sec) h hcies fun _ _ _ _ _ _ hsec hstep => addFDE_fourfold hstep hsizes hsec

/-! ## The section -/

/-- **The records are aligned** exactly if no CIE has addresses of eight bytes. -/
theorem recordsAligned_iff {out : CallFrameSectionData} (hbuild : buildCallFrameSectionData config cfi stale = .ok out)
    (hsizes : ∀ cie ∈ cfi.cies, cie.addressSize = 4 ∨ cie.addressSize = 8) :
    RecordsAligned cfi out.ehData ↔ ∀ cie ∈ cfi.cies, cie.addressSize = 4 := by
  obtain ⟨exceptTable, sec, -, hsec, -, hframed⟩ := section_framing hbuild
  have hcieOffset {i : Nat} {cie : CIE} (hi : cfi.cies[i]? = some cie) :
      (sec.cieOffsets ++ sec.fdeOffsets)[i]? = sec.cieOffsets[i]? := by
    have hlt := (List.getElem?_eq_some_iff.mp hi).1
    exact List.getElem?_append_left (by rw [hframed.cieCount]; exact hlt)
  constructor
  · rintro ⟨offsets, hwalk, hcies, -⟩ cie hcie
    cases hframed.walked.symm.trans hwalk
    obtain ⟨i, hi⟩ := List.getElem?_of_mem hcie
    obtain ⟨off, hoff, -, haligned⟩ := hcies i cie hi
    obtain ⟨buf, buf', hstart, hrecord, hpre⟩ := hframed.cies i cie hi
    rw [hcieOffset hi, hstart] at hoff
    cases hoff
    obtain ⟨body, hdata, hbody⟩ := buildCIE_multiple hrecord (hsizes cie hcie)
    rw [length_at hdata hpre] at haligned
    rcases hsizes cie hcie with h4 | h8
    · exact h4
    · rw [h8, show (8 : Int32).toInt.toNat = 8 from rfl] at haligned hbody
      omega
  · intro hfour
    have hfold := buildFrameSection_fourfold hsec hfour
    refine ⟨_, hframed.walked, ?_, ?_⟩
    · intro i cie hi
      obtain ⟨buf, buf', hstart, hrecord, hpre⟩ := hframed.cies i cie hi
      have hsize := hfour cie (List.mem_of_getElem? hi)
      obtain ⟨body, hdata, hbody⟩ := buildCIE_multiple hrecord (.inl hsize)
      refine ⟨buf.len, (hcieOffset hi).trans hstart, ?_⟩
      rw [hsize] at hbody ⊢
      have hstart := hfold.offsets buf.len (List.mem_append_left _ (List.mem_of_getElem? hstart))
      unfold RecordAligned
      rw [length_at hdata hpre]
      rw [show (4 : Int32).toInt.toNat = 4 from rfl] at hbody ⊢
      exact ⟨hstart, by omega⟩
    · intro j fde cie hj hcie
      obtain ⟨buf, buf', hstart, hrecord, hpre⟩ := hframed.fdes j fde hj
      obtain ⟨cie', body, hcie', hdata, hbody⟩ := buildFDE_multiple hrecord
      cases hcie.symm.trans hcie'
      have hsize := hfour cie (List.mem_of_getElem? hcie)
      have hbody := hbody (.inl hsize)
      have hget : (sec.cieOffsets ++ sec.fdeOffsets)[cfi.cies.length + j]? = sec.fdeOffsets[j]? := by
        rw [← hframed.cieCount, List.getElem?_append_right (Nat.le_add_right _ _), Nat.add_sub_cancel_left]
      refine ⟨buf.len, hget.trans hstart, ?_⟩
      rw [hsize] at hbody ⊢
      have hstart := hfold.offsets buf.len (List.mem_append_right _ (List.mem_of_getElem? hstart))
      unfold RecordAligned
      rw [length_at hdata hpre]
      rw [show (4 : Int32).toInt.toNat = 4 from rfl] at hbody ⊢
      exact ⟨hstart, by omega⟩

end Build

def wordFrame : CallFrameInfo := { sampleFrame with cies := [{ sampleCIE with addressSize := 4 }] }

theorem wordFrame_aligned : RecordsAligned wordFrame sampleSections.ehData :=
  (recordsAligned_iff (show buildCallFrameSectionData .elf64 wordFrame (fun _ => 0) = .ok sampleSections by decide +kernel)
    (by decide)).mpr (by decide)

/-- With addresses of eight bytes the first record takes twenty. -/
theorem not_recordsAligned : ¬ ∀ (config : ElfBitwidth) (cfi : CallFrameInfo) (stale : Nat → UInt32)
    (out : CallFrameSectionData), buildCallFrameSectionData config cfi stale = .ok out →
      (∀ cie ∈ cfi.cies, cie.addressSize = 4 ∨ cie.addressSize = 8) → RecordsAligned cfi out.ehData := by
  intro h
  have hbuild : buildCallFrameSectionData .elf64 sampleFrame (fun _ => 0) = .ok sampleSections := by decide +kernel
  obtain ⟨offsets, hwalk, hcies, -⟩ := h .elf64 sampleFrame (fun _ => 0) sampleSections hbuild (by decide)
  have hvisited : walk sampleSections.ehData.length 0 sampleSections.ehData = some [0, 20, 40] := by decide +kernel
  cases hvisited.symm.trans hwalk
  obtain ⟨off, hoff, -, haligned⟩ := hcies 0 sampleCIE rfl
  cases hoff
  exact absurd haligned (by decide)

end Katana

/-
  Katana.Script.Frames — the CIEs and FDEs of a dwarfscript.

  A property is printed on a line of its own. The bits of a CIE's augmentation come from the properties it has, an FDE's
  end from its start and its range; of its index it is only checked that it is where the FDE stands.

  Proved:
  - `readsItems_cie` / `readsItems_fde`: a record is read if it is kept, and where it is read as the same.
-/
import Katana.Script.Instructions
import Katana.Augmentation

namespace Katana.Script

open Lib

/-! ## Kinds of properties -/

section Properties
variable {α : Type} {Q : Token → Prop} {item : Item α} {a a' : α} (k : Keyword) {name : String}

theorem newlineEnds : newline = space ∨ newline = newline := .inr rfl

/-- A number without a sign. -/
theorem readsItems_natural {w : Text} {n : Nat} {f : Int32 → Parse α} (hname : (name, k) ∈ propertyNames) (hw : Printed w n)
    (hitem : item a (.keyword k) = some (property nonnegIntLit >>= f)) (hf : ∀ rest, f (intOf n) rest = .ok a' rest) :
    ReadsItems NotComma Q item (line name w) True True a a' :=
  (readsItems_value k hname (hw.nonneg newlineEnds) hitem hf).imp (fun _ => by omega) fun _ => trivial

/-- A word in hexadecimal. -/
theorem readsItems_word {w : UInt64} {f : Int32 → Parse α} (hname : (name, k) ∈ propertyNames)
    (hitem : item a (.keyword k) = some (property nonnegIntLit >>= f)) (hf : ∀ rest, f (intOf w.toNat) rest = .ok a' rest) :
    ReadsItems NotComma Q item (line name (hexDigits w.toNat)) True True a a' :=
  readsItems_natural k hname (printed_hex _) hitem hf

/-- A word with its sign, which is refused. -/
theorem readsItems_signed {w : UInt64} {f : Int32 → Parse α} (hname : (name, k) ∈ propertyNames)
    (hitem : item a (.keyword k) = some (property nonnegIntLit >>= f))
    (hf : ∀ rest, f (intOf (signedWord w)) rest = .ok a' rest) :
    ReadsItems NotComma Q item (line name (signedDigits (signedWord w))) (0 ≤ signedWord w) (0 ≤ signedWord w) a a' :=
  readsItems_value k hname ((printed_signed _).nonneg newlineEnds) hitem hf

theorem readsItems_encoding {e : UInt8} {t : Text} {f : Int32 → Parse α} (hname : (name, k) ∈ propertyNames)
    (h : printEHPointerEncoding e = .ok t) (hitem : item a (.keyword k) = some (property dwPeLit >>= f))
    (hf : ∀ rest v, byteOfInt v = e → f v rest = .ok a' rest) :
    ReadsItems NotComma Q item (line name t) True True a a' := by
  obtain ⟨hread, hv⟩ := reads_encoding h newlineEnds
  exact readsItems_value k hname hread hitem fun rest => hf rest _ hv

/-- An encoding that is there, or is not. -/
theorem readsItems_encodingLine {present : Bool} {e : UInt8} {t : Text} {f : Int32 → Parse α}
    (hname : (name, k) ∈ propertyNames) (h : encodingLine name present e = .ok t)
    (hitem : item a (.keyword k) = some (property dwPeLit >>= f))
    (hf : ∀ rest v, byteOfInt v = e → f v rest = .ok a' rest) :
    ReadsItems NotComma Q item t True True a (if present then a' else a) := by
  cases present with
  | false =>
    cases h
    exact readsItems_nil
  | true =>
    obtain ⟨value, hvalue, h⟩ := bind_eq_ok.mp h
    cases h
    exact readsItems_encoding k hname hvalue hitem hf

end Properties

section Values

theorem intOf_nat_toUInt32 {n : Nat} (h : n < 2 ^ 31) : (intOf n).toUInt32 = UInt32.ofNat n := by
  have hclamp : clampLong (n : Int) = n := by
    unfold clampLong
    omega
  unfold intOf
  rw [hclamp, Int32.ofInt_eq_ofNat]
  rfl

theorem byteOfInt_intOf (b : UInt8) : byteOfInt (intOf b.toNat) = b := by
  have hlt := b.toNat_lt
  unfold byteOfInt
  rw [intOf_nat_toUInt32 (by omega)]
  simp

theorem ushort_intOf (w : UInt16) : (intOf w.toNat).toUInt32.toUInt16 = w := by
  have hlt := w.toNat_lt
  rw [intOf_nat_toUInt32 (by omega)]
  simp

theorem dataAlign_iff {x : Int64} : (intOf x.toInt).toInt64 = x ↔ -2 ^ 31 ≤ x.toInt ∧ x.toInt < 2 ^ 31 := by
  rw [← Int64.toInt_inj, Int32.toInt_toInt64]
  constructor
  · intro h
    have hlo := (intOf x.toInt).le_toInt
    have hhi := (intOf x.toInt).toInt_lt
    omega
  · intro h
    exact intOf_toInt h.1 h.2

theorem intOf_position {n : Nat} (h : n < 2 ^ 31) : (intOf n).toInt = n := intOf_toInt (by omega) (by omega)

def EncodingKept (e : UInt8) : Prop := (printEHPointerEncoding e).isOk = true

instance (e : UInt8) : Decidable (EncodingKept e) := inferInstanceAs (Decidable (_ = _))

theorem encodingKept_iff {e : UInt8} : EncodingKept e ↔ ∃ t, printEHPointerEncoding e = .ok t := by
  unfold EncodingKept
  cases printEHPointerEncoding e <;> simp [Except.isOk, Except.toBool]

theorem encodingLine_ok (name : String) {present : Bool} {e : UInt8} :
    (∃ t, encodingLine name present e = .ok t) ↔ (present = true → EncodingKept e) := by
  rw [encodingKept_iff]
  cases present with
  | false => exact ⟨fun _ hpresent => (by cases hpresent), fun _ => ⟨[], rfl⟩⟩
  | true =>
    constructor
    · intro h _
      obtain ⟨t, h⟩ := h
      obtain ⟨value, hvalue, -⟩ := bind_eq_ok.mp h
      exact ⟨value, hvalue⟩
    · intro h
      obtain ⟨value, hvalue⟩ := h rfl
      exact ⟨_, by simp only [encodingLine, hvalue, bind_ok, if_true]; rfl⟩

end Values

/-- **A record**: its properties, its instructions, and no properties behind them. -/
theorem reads_record {γ δ : Type} {P : Token → Prop} {item : Item γ} {f : γ → Parse δ} {start read : γ} {b : δ}
    {instrs : List RegInstruction} {properties instructions : Text} {K K' C C' : Prop}
    (withInstructions : γ → List RegInstruction → γ) (name : String) {k : Keyword} (hname : (name, k) ∈ sectionNames)
    (hnone : ∀ c, item c (.keyword .begin_) = none ∧ item c (.keyword .end_) = none)
    (hproperties : ReadsItems NotComma Anything item properties K C start read)
    (hinstructions : ReadsFrom (.keyword .begin_) Anything instructionSection instructions K' C' instrs)
    (hf : Yields P (f (withInstructions read instrs)) [] True True b) :
    Reads P (items item start >>= fun c => instructionSection >>= fun instrs =>
      items item (withInstructions c instrs) >>= fun c => expectEnd k >>= fun _ => f c)
      (properties ++ (instructions ++ text ("end " ++ name))) (K ∧ K') (C ∧ C') b := by
  let behind (c : γ) : Parse δ := instructionSection >>= fun instrs =>
    items item (withInstructions c instrs) >>= fun c => expectEnd k >>= fun _ => f c
  have hnil : ReadsItems NotComma Anything item [] True True (withInstructions read instrs) (withInstructions read instrs) :=
    readsItems_nil
  have hbehind : ReadsFrom (.keyword .begin_) P (behind read) (instructions ++ text ("end " ++ name)) _ _ b :=
    hinstructions.bind (hnil.closed name hname hf (by simp) trivial fun c => (hnone c).2)
  exact (hproperties.bind (f := behind) hbehind (by simp) (fun c => (hnone c).1) fun _ _ _ _ _ => head_anything _).imp
    (fun hk => ⟨hk.1, hk.2, trivial, trivial⟩) fun hc => ⟨hc.1, hc.2.1⟩

/-! ## CIEs -/

/-- What of a CIE has to be as the grammar has it. -/
structure CieKept (cie : CIE) : Prop where
  instructions : ∀ inst ∈ cie.initialInstructions, Kept false inst
  dataAlign : -2 ^ 31 ≤ cie.dataAlign.toInt ∧ cie.dataAlign.toInt < 2 ^ 31
  codeAlign : cie.codeAlign.toNat < 2 ^ 31
  dataPresent : cie.augmentationFlags.dataPresent =
    (cie.augmentationFlags.fdeEnc || cie.augmentationFlags.fdeLsda || cie.augmentationFlags.personality)
  fdeEnc : cie.augmentationFlags.fdeEnc = true → EncodingKept cie.fdePointerEncoding
  fdeLsda : cie.augmentationFlags.fdeLsda = true → EncodingKept cie.fdeLSDAPointerEncoding
  personality : cie.augmentationFlags.personality = true →
    EncodingKept cie.personalityPointerEncoding ∧ Short cie.personalityFunction

/-- The CIE its section is read as. -/
def readCIE (isEHFrame : Bool) (cie : CIE) : CIE where
  initialInstructions := cie.initialInstructions.map readInstruction
  dataAlign := (intOf cie.dataAlign.toInt).toInt64
  codeAlign := readSigned cie.codeAlign
  returnAddrRuleNum := cie.returnAddrRuleNum
  version := cie.version
  addressSize := if isEHFrame then 4 else 8
  segmentSize := 0
  augmentationFlags := { cie.augmentationFlags with
    dataPresent := cie.augmentationFlags.fdeEnc || cie.augmentationFlags.fdeLsda || cie.augmentationFlags.personality }
  fdePointerEncoding := if cie.augmentationFlags.fdeEnc then cie.fdePointerEncoding else 0
  fdeLSDAPointerEncoding := if cie.augmentationFlags.fdeLsda then cie.fdeLSDAPointerEncoding else 0
  personalityPointerEncoding := if cie.augmentationFlags.personality then cie.personalityPointerEncoding else 0
  personalityFunction := if cie.augmentationFlags.personality then readWord cie.personalityFunction else 0

/-- The CIE was read with the same fields; the sizes are not in the script. -/
structure SameCIE (cie read : CIE) : Prop where
  instructions : List.Forall₂ RegInstruction.Same read.initialInstructions cie.initialInstructions
  dataAlign : read.dataAlign = cie.dataAlign
  codeAlign : read.codeAlign = cie.codeAlign
  returnAddrRuleNum : read.returnAddrRuleNum = cie.returnAddrRuleNum
  version : read.version = cie.version
  augmentation : SameAugmentation cie read

def numbersRead (cie : CIE) : CIE :=
  { zeroCIE with
    version := cie.version, dataAlign := (intOf cie.dataAlign.toInt).toInt64, codeAlign := readSigned cie.codeAlign
    returnAddrRuleNum := cie.returnAddrRuleNum }

def withFdeEnc (cie s : CIE) : CIE :=
  { s with
    fdePointerEncoding := cie.fdePointerEncoding
    augmentationFlags := { s.augmentationFlags with fdeEnc := true, dataPresent := true } }

def withFdeLsda (cie s : CIE) : CIE :=
  { s with
    fdeLSDAPointerEncoding := cie.fdeLSDAPointerEncoding
    augmentationFlags := { s.augmentationFlags with fdeLsda := true, dataPresent := true } }

def withPersonalityEnc (cie s : CIE) : CIE :=
  { s with
    personalityPointerEncoding := cie.personalityPointerEncoding
    augmentationFlags := { s.augmentationFlags with personality := true, dataPresent := true } }

def withPersonality (cie s : CIE) : CIE :=
  { s with
    personalityFunction := readWord cie.personalityFunction
    augmentationFlags := { s.augmentationFlags with personality := true, dataPresent := true } }

def propertiesRead (cie : CIE) : CIE :=
  let s := numbersRead cie
  let s := if cie.augmentationFlags.fdeEnc then withFdeEnc cie s else s
  let s := if cie.augmentationFlags.fdeLsda then withFdeLsda cie s else s
  let s := if cie.augmentationFlags.personality then withPersonalityEnc cie s else s
  if cie.augmentationFlags.personality then withPersonality cie s else s

section Cie
variable {Q : Token → Prop} {cie : CIE} {idx : Nat}

/-- The numbers of a CIE at `idx`. -/
theorem readsItems_numbers (hidx : idx < 2 ^ 31) :
    ReadsItems NotComma Q (cieProperty idx)
      (line "index: " (digits 10 idx) ++ (line "version: " (digits 10 cie.version.toNat) ++
        (line "data_align: " (signedDigits cie.dataAlign.toInt) ++
          (line "code_align: " (signedDigits (signedWord cie.codeAlign)) ++
            line "return_addr_rule: " (digits 10 cie.returnAddrRuleNum.toNat)))))
      (0 ≤ signedWord cie.codeAlign) (0 ≤ signedWord cie.codeAlign) zeroCIE (numbersRead cie) := by
  have hindex : ReadsItems NotComma Q (cieProperty idx) (line "index: " (digits 10 idx)) _ _ zeroCIE zeroCIE :=
    readsItems_natural .index (by simp [propertyNames]) (printed_decimal idx) rfl
      fun rest => by rw [if_pos (intOf_position hidx)]; rfl
  have hversion : ReadsItems NotComma Q (cieProperty idx) (line "version: " (digits 10 cie.version.toNat)) _ _ zeroCIE
      { zeroCIE with version := cie.version } :=
    readsItems_natural .version (by simp [propertyNames]) (printed_decimal _) rfl
      fun rest => by rw [byteOfInt_intOf]; rfl
  have hdataAlign : ReadsItems NotComma Q (cieProperty idx) (line "data_align: " (signedDigits cie.dataAlign.toInt)) _ _
      { zeroCIE with version := cie.version }
      { zeroCIE with version := cie.version, dataAlign := (intOf cie.dataAlign.toInt).toInt64 } :=
    readsItems_value .dataAlign (by simp [propertyNames]) ((printed_signed _).int newlineEnds) rfl fun _ => rfl
  have hcodeAlign : ReadsItems NotComma Q (cieProperty idx)
      (line "code_align: " (signedDigits (signedWord cie.codeAlign))) _ _
      { zeroCIE with version := cie.version, dataAlign := (intOf cie.dataAlign.toInt).toInt64 }
      { zeroCIE with
        version := cie.version, dataAlign := (intOf cie.dataAlign.toInt).toInt64, codeAlign := readSigned cie.codeAlign } :=
    readsItems_signed .codeAlign (by simp [propertyNames]) rfl fun _ => rfl
  have hrule : ReadsItems NotComma Q (cieProperty idx)
      (line "return_addr_rule: " (digits 10 cie.returnAddrRuleNum.toNat)) _ _
      { zeroCIE with
        version := cie.version, dataAlign := (intOf cie.dataAlign.toInt).toInt64, codeAlign := readSigned cie.codeAlign }
      (numbersRead cie) :=
    readsItems_natural .returnAddrRule (by simp [propertyNames]) (printed_decimal _) rfl
      fun rest => by rw [ushort_intOf]; rfl
  exact (hindex.append (hversion.append (hdataAlign.append (hcodeAlign.append hrule)))).imp
    (fun hk => ⟨trivial, trivial, trivial, hk, trivial⟩) fun hc => hc.2.2.2.1

theorem finishCIE_propertiesRead (isEHFrame : Bool) :
    finishCIE isEHFrame { propertiesRead cie with initialInstructions := cie.initialInstructions.map readInstruction } =
      readCIE isEHFrame cie := by
  obtain ⟨initialInstructions, dataAlign, codeAlign, returnAddrRuleNum, version, addressSize, segmentSize, flags, fdePtr,
    fdeLsdaPtr, personalityPtr, personalityFunction⟩ := cie
  obtain ⟨dataPresent, fdeEnc, fdeLsda, personality⟩ := flags
  cases fdeEnc <;> cases fdeLsda <;> cases personality <;> rfl

/-- What a CIE says of its augmentation. -/
theorem readsItems_augmentation {fdeEnc fdeLsda personality : Text}
    (hfdeEnc : encodingLine "fde_ptr_enc: " cie.augmentationFlags.fdeEnc cie.fdePointerEncoding = .ok fdeEnc)
    (hfdeLsda : encodingLine "fde_lsda_ptr_enc: " cie.augmentationFlags.fdeLsda cie.fdeLSDAPointerEncoding = .ok fdeLsda)
    (hpersonality : encodingLine "personality_ptr_enc: " cie.augmentationFlags.personality cie.personalityPointerEncoding =
      .ok personality) :
    ReadsItems NotComma Q (cieProperty idx) (fdeEnc ++ (fdeLsda ++ (personality ++
      if cie.augmentationFlags.personality then line "personality: " (hexDigits cie.personalityFunction.toNat) else [])))
      True True (numbersRead cie) (propertiesRead cie) := by
  have hfde (s : CIE) : ReadsItems NotComma Q (cieProperty idx) fdeEnc _ _ s
      (if cie.augmentationFlags.fdeEnc then withFdeEnc cie s else s) :=
    readsItems_encodingLine .fdePtrEnc (by simp [propertyNames]) hfdeEnc rfl
      fun rest v hv => by rw [withFdeEnc, ← hv]; rfl
  have hlsda (s : CIE) : ReadsItems NotComma Q (cieProperty idx) fdeLsda _ _ s
      (if cie.augmentationFlags.fdeLsda then withFdeLsda cie s else s) :=
    readsItems_encodingLine .fdeLsdaPtrEnc (by simp [propertyNames]) hfdeLsda rfl
      fun rest v hv => by rw [withFdeLsda, ← hv]; rfl
  have henc (s : CIE) : ReadsItems NotComma Q (cieProperty idx) personality _ _ s
      (if cie.augmentationFlags.personality then withPersonalityEnc cie s else s) :=
    readsItems_encodingLine .personalityPtrEnc (by simp [propertyNames]) hpersonality rfl
      fun rest v hv => by rw [withPersonalityEnc, ← hv]; rfl
  have hfunction (s : CIE) : ReadsItems NotComma Q (cieProperty idx)
      (if cie.augmentationFlags.personality then line "personality: " (hexDigits cie.personalityFunction.toNat) else [])
      _ _ s
      (if cie.augmentationFlags.personality then withPersonality cie s else s) :=
    readsItems_if fun _ => readsItems_word .personality (by simp [propertyNames]) rfl fun _ => rfl
  exact ((hfde _).append ((hlsda _).append ((henc _).append (hfunction _)))).imp
    (fun _ => ⟨trivial, trivial, trivial, fun _ => trivial⟩) fun _ => trivial

theorem reads_cieSection {P : Token → Prop} {cfi : CallFrameInfo} (hidx : cfi.cies.length < 2 ^ 31) (hfdes : cfi.fdes = [])
    {properties instructions : Text} {K K' C C' : Prop}
    (hproperties : ReadsItems NotComma Anything (cieProperty cfi.cies.length) properties K C zeroCIE (propertiesRead cie))
    (hinstructions : ReadsFrom (.keyword .begin_) Anything instructionSection instructions K' C'
      (cie.initialInstructions.map readInstruction)) :
    Reads P (cieSection cfi) (properties ++ (instructions ++ text "end CIE\n")) (K ∧ K') (C ∧ C')
      { cfi with cies := cfi.cies ++ [readCIE cfi.isEHFrame cie] } := by
  unfold cieSection
  rw [defined_of ⟨hidx, hfdes⟩, ← finishCIE_propertiesRead]
  let add (cie : CIE) : Parse CallFrameInfo := pure { cfi with cies := cfi.cies ++ [finishCIE cfi.isEHFrame cie] }
  exact reads_record (f := add) (fun cie initialInstructions => { cie with initialInstructions }) "CIE\n"
    (by simp [sectionNames]) (fun _ => ⟨rfl, rfl⟩) hproperties hinstructions (yields_pure _)

/-- **A CIE** is read if it is kept, and where it is read as the same. -/
theorem readsItems_cie {cfi : CallFrameInfo} (hfdes : cfi.fdes = []) {t : Text}
    (h : printCIEInfo cfi.cies.length cie = .ok t) :
    ReadsItems (· = .keyword .begin_) Q sectionItem t (CieKept cie)
      (SameCIE cie (readCIE cfi.isEHFrame cie) → CieKept cie) cfi
      { cfi with cies := cfi.cies ++ [readCIE cfi.isEHFrame cie] } := by
  obtain ⟨u, hidx, h⟩ := bind_eq_ok.mp h
  obtain ⟨fdeEnc, hfdeEnc, h⟩ := bind_eq_ok.mp h
  obtain ⟨fdeLsda, hfdeLsda, h⟩ := bind_eq_ok.mp h
  obtain ⟨personality, hpersonality, h⟩ := bind_eq_ok.mp h
  obtain ⟨instructions, hinstructions, h⟩ := bind_eq_ok.mp h
  cases h
  have hidx := defined_ok hidx
  have hitem : ReadsItems (· = .keyword .begin_) Q sectionItem _ _ _ cfi _ := readsItems_section "CIE\n" .cie
    (by simp [sectionNames]) rfl rfl (fun _ => rfl) (reads_cieSection hidx hfdes
      ((readsItems_numbers hidx).append (readsItems_augmentation hfdeEnc hfdeLsda hpersonality))
      (reads_instructions hinstructions))
  refine (hitem.imp (fun hk => ?_) fun hc hsame => ?_).of_text (by simp only [List.append_assoc]; rfl)
  · exact ⟨⟨(readSigned_nonneg_iff.mpr hk.codeAlign).1, trivial⟩, hk.instructions⟩
  · have hencoding := hsame.augmentation
    exact {
      instructions := hc.2 hsame.instructions
      dataAlign := dataAlign_iff.mp hsame.dataAlign
      codeAlign := readSigned_nonneg_iff.mp ⟨hc.1.1, hsame.codeAlign⟩
      dataPresent := (congrArg AugmentFlags.dataPresent hencoding.flags).symm
      fdeEnc := (encodingLine_ok _).mp ⟨_, hfdeEnc⟩
      fdeLsda := (encodingLine_ok _).mp ⟨_, hfdeLsda⟩
      personality := fun hp => ⟨(encodingLine_ok _).mp ⟨_, hpersonality⟩ hp,
        readWord_iff.mp ((if_pos hp).symm.trans (hencoding.personality hp).2)⟩ }

theorem printCIEInfo_ok (h : CieKept cie) (hidx : idx < 2 ^ 31) : ∃ t, printCIEInfo idx cie = .ok t := by
  obtain ⟨fdeEnc, hfdeEnc⟩ := (encodingLine_ok "fde_ptr_enc: ").mpr h.fdeEnc
  obtain ⟨fdeLsda, hfdeLsda⟩ := (encodingLine_ok "fde_lsda_ptr_enc: ").mpr h.fdeLsda
  obtain ⟨personality, hpersonality⟩ := (encodingLine_ok "personality_ptr_enc: ").mpr fun hp => (h.personality hp).1
  obtain ⟨instructions, hinstructions⟩ := printInstructions_ok h.instructions
  exact ⟨_, by simp only [printCIEInfo, defined_of hidx, hfdeEnc, hfdeLsda, hpersonality, hinstructions, bind_ok]; rfl⟩

theorem same_readCIE (h : CieKept cie) (isEHFrame : Bool) : SameCIE cie (readCIE isEHFrame cie) where
  instructions := same_readInstructions h.instructions
  dataAlign := dataAlign_iff.mpr h.dataAlign
  codeAlign := (readSigned_nonneg_iff.mpr h.codeAlign).2
  returnAddrRuleNum := rfl
  version := rfl
  augmentation := {
    flags := by
      rw [readCIE, ← h.dataPresent]
    fdeEnc := fun hp => if_pos hp
    fdeLsda := fun hp => if_pos hp
    personality := fun hp => ⟨if_pos hp, (if_pos hp).trans (readWord_iff.mpr (h.personality hp).2)⟩ }

end Cie

/-! ## FDEs -/

structure FdeKept (numCIEs : Nat) (fde : FDE) : Prop where
  instructions : ∀ inst ∈ fde.instructions, Kept true inst
  cie : fde.cie < numCIEs
  range : -2 ^ 31 ≤ fde.highpc.toInt - fde.lowpc.toInt ∧ fde.highpc.toInt - fde.lowpc.toInt < 2 ^ 31
  lsdaIdx : fde.hasLSDAPointer = true → Short fde.lsdaIdx

/-- The FDE its section is read as. -/
def readFDE (fde : FDE) : FDE where
  cie := fde.cie
  instructions := fde.instructions.map readInstruction
  lowpc := fde.lowpc
  highpc := fde.highpc
  hasLSDAPointer := fde.hasLSDAPointer
  lsdaIdx := if fde.hasLSDAPointer then readWord fde.lsdaIdx else 0
  idx := fde.idx

structure SameFDE (fde read : FDE) : Prop where
  cie : read.cie = fde.cie
  instructions : List.Forall₂ RegInstruction.Same read.instructions fde.instructions
  lowpc : read.lowpc = fde.lowpc
  highpc : read.highpc = fde.highpc
  hasLSDAPointer : read.hasLSDAPointer = fde.hasLSDAPointer
  lsdaIdx : fde.hasLSDAPointer = true → read.lsdaIdx = fde.lsdaIdx
  idx : read.idx = fde.idx

section Fde
variable {P Q : Token → Prop} {fde : FDE} {numCIEs position : Nat} {cfi : CallFrameInfo} {cies : List CIE}
  {guess : Int32 → Except Fault Text} {t : Text}

theorem addInt_ok {x y : Int32} (h : -2 ^ 31 ≤ x.toInt + y.toInt ∧ x.toInt + y.toInt < 2 ^ 31) :
    addInt x y = .ok (x + y) := by
  unfold addInt
  rw [defined_of h]
  rfl

theorem addInt_range (h : -2 ^ 31 ≤ fde.highpc.toInt - fde.lowpc.toInt ∧ fde.highpc.toInt - fde.lowpc.toInt < 2 ^ 31) :
    addInt fde.lowpc (fde.highpc - fde.lowpc) = .ok fde.highpc := by
  have hsub : (fde.highpc - fde.lowpc).toInt = fde.highpc.toInt - fde.lowpc.toInt := by
    rw [Int32.toInt_sub]
    exact Int.bmod_eq_of_le (by omega) (by omega)
  have hlo := fde.highpc.le_toInt
  have hhi := fde.highpc.toInt_lt
  rw [addInt_ok (by omega)]
  exact congrArg Except.ok (Int32.toInt_inj.mp (by
    rw [Int32.toInt_add, hsub]
    exact (Int.bmod_eq_of_le (by omega) (by omega)).trans (by omega)))

theorem addInt_zero (x : Int32) : addInt x 0 = .ok x := by
  have hlo := x.le_toInt
  have hhi := x.toInt_lt
  have hzero : (0 : Int32).toInt = 0 := rfl
  rw [addInt_ok (by omega)]
  exact congrArg Except.ok (Int32.add_zero x)

theorem ofNat_position {n : Nat} (h : n < 2 ^ 31) (x : Int32) : x = Int32.ofNat n ↔ x.toInt = n := by
  rw [← Int32.toInt_inj, Int32.toInt_ofNat_of_lt h]

def locationRead (fde : FDE) : FdeParse := ⟨some fde.cie, ⟨0, [], fde.lowpc, fde.highpc, false, 0, fde.idx⟩⟩

def withLsdaIdx (fde : FDE) (p : FdeParse) : FdeParse :=
  { p with fde := { p.fde with hasLSDAPointer := true, lsdaIdx := readWord fde.lsdaIdx } }

def fdePropertiesRead (fde : FDE) : FdeParse :=
  if fde.hasLSDAPointer then withLsdaIdx fde (locationRead fde) else locationRead fde

/-- The index is compared with the position of the FDE in the script. -/
theorem readsItems_fdeIndex (hposition : position < 2 ^ 31) :
    ReadsItems NotComma Q (fdeProperty numCIEs) (line "index: " (signedDigits fde.idx.toInt)) (fde.idx.toInt = position)
      (fde.idx.toInt = position) (.zero (Int32.ofNat position)) (.zero fde.idx) := by
  have hcompare : Yields NotComma (if intOf fde.idx.toInt = Int32.ofNat position then pure (.zero (Int32.ofNat position))
      else yyerror "FDEs in dwarfscript must be listed in order of their indices. Found index %i when expectin %i\n") []
      (fde.idx.toInt = position) (fde.idx.toInt = position) (FdeParse.zero fde.idx) := by
    rw [intOf_index, ← ofNat_position hposition]
    by_cases hidx : fde.idx = Int32.ofNat position
    · rw [if_pos hidx, ← hidx]
      exact (yields_pure _).imp (fun _ => trivial) fun _ => rfl
    · -- the script is refused as a whole
      rw [if_neg hidx]
      exact (yields_never fun _ _ _ _ hok => by cases hok).imp hidx False.elim
  exact (readsItems_property .index (by simp [propertyNames]) ((printed_signed _).nonneg newlineEnds) rfl hcompare).imp
    (fun hk => ⟨by omega, hk⟩) And.right

theorem readsItems_location (hposition : position < 2 ^ 31) (hnum : numCIEs < 2 ^ 31) (hcie : fde.cie < numCIEs)
    (hrange : -2 ^ 31 ≤ fde.highpc.toInt - fde.lowpc.toInt ∧ fde.highpc.toInt - fde.lowpc.toInt < 2 ^ 31) :
    ReadsItems NotComma Q (fdeProperty numCIEs)
      (line "index: " (signedDigits fde.idx.toInt) ++ (line "cie_index: " (digits 10 fde.cie) ++
        (line "initial_location: " (hexDigits fde.lowpc.toUInt32.toNat) ++
          line "address_range: " (hexDigits (fde.highpc - fde.lowpc).toUInt32.toNat))))
      (fde.idx.toInt = position) (fde.idx.toInt = position) (.zero (Int32.ofNat position)) (locationRead fde) := by
  have hcieIndex : ReadsItems NotComma Q (fdeProperty numCIEs) (line "cie_index: " (digits 10 fde.cie)) True True
      (.zero fde.idx) { FdeParse.zero fde.idx with cie := some fde.cie } := by
    have hint : (intOf fde.cie).toInt = fde.cie := intOf_position (by omega)
    refine readsItems_natural .cieIndex (by simp [propertyNames]) (printed_decimal _) rfl fun rest => ?_
    have hlt : (intOf fde.cie).toInt < numCIEs := by omega
    have hnonneg : 0 ≤ (intOf fde.cie).toInt := by omega
    rw [if_pos hlt, defined_of hnonneg, hint]
    rfl
  have hlowpc : ReadsItems NotComma Q (fdeProperty numCIEs)
      (line "initial_location: " (hexDigits fde.lowpc.toUInt32.toNat)) True True
      { FdeParse.zero fde.idx with cie := some fde.cie }
      ⟨some fde.cie, ⟨0, [], fde.lowpc, fde.lowpc, false, 0, fde.idx⟩⟩ := by
    refine readsItems_natural .initialLocation (by simp [propertyNames]) (printed_hex _) rfl fun rest => ?_
    rw [intOf_toUInt32]
    have hadd : addInt fde.lowpc (FdeParse.zero fde.idx).fde.highpc = .ok fde.lowpc := addInt_zero _
    rw [hadd]
    rfl
  have hhighpc : ReadsItems NotComma Q (fdeProperty numCIEs)
      (line "address_range: " (hexDigits (fde.highpc - fde.lowpc).toUInt32.toNat)) True True
      ⟨some fde.cie, ⟨0, [], fde.lowpc, fde.lowpc, false, 0, fde.idx⟩⟩ (locationRead fde) := by
    refine readsItems_natural .addressRange (by simp [propertyNames]) (printed_hex _) rfl fun rest => ?_
    rw [intOf_toUInt32, addInt_range hrange]
    rfl
  exact ((readsItems_fdeIndex hposition).append (hcieIndex.append (hlowpc.append hhighpc))).imp
    (fun hk => ⟨hk, trivial, trivial, trivial⟩) And.left

theorem finished_fdePropertiesRead (fde : FDE) : FdeParse.finished { fdePropertiesRead fde with
    fde := { (fdePropertiesRead fde).fde with instructions := fde.instructions.map readInstruction } } =
      .ok (readFDE fde) := by
  obtain ⟨cie, instructions, lowpc, highpc, hasLSDAPointer, lsdaIdx, idx⟩ := fde
  cases hasLSDAPointer <;> rfl

theorem reads_fdeSection (hposition : cfi.fdes.length < 2 ^ 31) {properties instructions : Text} {K K' C C' : Prop}
    (hproperties : ReadsItems NotComma Anything (fdeProperty cfi.cies.length) properties K C
      (.zero (Int32.ofNat cfi.fdes.length)) (fdePropertiesRead fde))
    (hinstructions : ReadsFrom (.keyword .begin_) Anything instructionSection instructions K' C'
      (fde.instructions.map readInstruction)) :
    Reads P (fdeSection cfi) (properties ++ (instructions ++ text "end FDE\n")) (K ∧ K') (C ∧ C')
      { cfi with fdes := cfi.fdes ++ [readFDE fde] } := by
  unfold fdeSection
  rw [defined_of hposition]
  let add (p : FdeParse) : Parse CallFrameInfo := do
    let fde ← Run.fromExcept p.finished
    pure { cfi with fdes := cfi.fdes ++ [fde] }
  have hadd : Yields P (add { fdePropertiesRead fde with
      fde := { (fdePropertiesRead fde).fde with instructions := fde.instructions.map readInstruction } }) [] True True
      { cfi with fdes := cfi.fdes ++ [readFDE fde] } :=
    yields_of fun rest _ => by
      dsimp only [add]
      rw [finished_fdePropertiesRead]
      rfl
  exact reads_record (f := add) (fun p instructions => { p with fde := { p.fde with instructions } }) "FDE\n"
    (by simp [sectionNames]) (fun _ => ⟨rfl, rfl⟩) hproperties hinstructions hadd

/-- **An FDE** is read if it is kept and stands where its index says, and where it is read as the same. -/
theorem readsItems_fde (hcies : cies.length = cfi.cies.length) (hnum : cfi.cies.length < 2 ^ 31)
    (hposition : cfi.fdes.length < 2 ^ 31) (hline : ∀ name, guess fde.lowpc = .ok name → newline ∉ name)
    (h : printFDEInfo guess cies fde = .ok t) :
    ReadsItems (· = .keyword .begin_) Q sectionItem t (fde.idx.toInt = cfi.fdes.length ∧ FdeKept cfi.cies.length fde)
      (fde.idx.toInt = cfi.fdes.length ∧ (SameFDE fde (readFDE fde) → FdeKept cfi.cies.length fde)) cfi
      { cfi with fdes := cfi.fdes ++ [readFDE fde] } := by
  obtain ⟨name, hname, h⟩ := bind_eq_ok.mp h
  obtain ⟨_, hcie, h⟩ := bind_eq_ok.mp h
  obtain ⟨_, hrange, h⟩ := bind_eq_ok.mp h
  obtain ⟨instructions, hinstructions, h⟩ := bind_eq_ok.mp h
  cases h
  have hcie := hcies ▸ defined_ok hcie
  have hrange := defined_ok hrange
  have hlsdaIdx : ReadsItems NotComma Anything (fdeProperty cfi.cies.length)
      (if fde.hasLSDAPointer then line "lsda_idx: " (hexDigits fde.lsdaIdx.toNat) else []) _ _ (locationRead fde)
      (fdePropertiesRead fde) :=
    readsItems_if fun _ => readsItems_word .lsdaIdx (by simp [propertyNames]) rfl fun _ => rfl
  have hitem : ReadsItems (· = .keyword .begin_) Q sectionItem _ _ _ cfi _ := readsItems_section "FDE\n" .fde
    (by simp [sectionNames]) rfl rfl (fun _ => rfl) (reads_fdeSection hposition
      ((readsItems_location hposition hnum hcie hrange).append hlsdaIdx) (reads_instructions hinstructions))
  have hcomment : Lexes (pound :: (text "function guess: " ++ name ++ [newline])) [] := by
    refine lexes_comment fun hmem => ?_
    rcases List.mem_append.mp hmem with hmem | hmem
    · exact absurd hmem (by decide +kernel)
    · exact hline name hname hmem
  refine ((hitem.after hcomment).imp (fun hk => ?_) fun hc => ⟨hc.1.1, fun hsame => ?_⟩).of_text
    (by simp only [List.append_assoc, List.cons_append]; rfl)
  · exact ⟨⟨hk.1, fun _ => trivial⟩, hk.2.instructions⟩
  · exact {
      instructions := hc.2 hsame.instructions
      cie := hcie
      range := hrange
      lsdaIdx := fun hp => readWord_iff.mp ((if_pos hp).symm.trans (hsame.lsdaIdx hp)) }

theorem printFDEInfo_ok (h : FdeKept cies.length fde) {name : Text} (hname : guess fde.lowpc = .ok name) :
    ∃ t, printFDEInfo guess cies fde = .ok t := by
  obtain ⟨instructions, hinstructions⟩ := printInstructions_ok h.instructions
  exact ⟨_, by simp only [printFDEInfo, hname, defined_of h.cie, defined_of h.range, hinstructions, bind_ok]; rfl⟩

theorem same_readFDE (h : FdeKept numCIEs fde) : SameFDE fde (readFDE fde) where
  cie := rfl
  instructions := same_readInstructions h.instructions
  lowpc := rfl
  highpc := rfl
  hasLSDAPointer := rfl
  lsdaIdx hp := (if_pos hp).trans (readWord_iff.mpr (h.lsdaIdx hp))
  idx := rfl

end Fde

end Katana.Script

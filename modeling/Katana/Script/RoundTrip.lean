/-
  Katana.Script.RoundTrip — call-frame information goes into a dwarfscript and comes back (emitDwarfscript and
  compileDwarfscript in shell/commands/dwarfscriptCommand.cpp).

  The script has the fields the readers of `.eh_frame` fill in; sizes and what has no flag are not among them. The
  positions of the records come from their order.

  Proved:
  - `compileDwarfscript_emitDwarfscript`: information that the grammar has comes back.
  - `recompiles_iff`: and no other does.
-/
import Katana.Script.Lsdas
import Katana.OffsetMap

namespace Katana.Script

open Lib

/-! ## The call-frame information -/

/-- What of the call-frame information has to be as the grammar has it. -/
structure Scriptable (cfi : CallFrameInfo) : Prop where
  ehAddress : Short cfi.ehAddress
  header : cfi.isEHFrame = true →
    Short cfi.ehHdrAddress ∧ Short cfi.exceptTableAddress ∧ EncodingKept cfi.hdrTableEncoding
  numCIEs : cfi.cies.length < 2 ^ 31
  numFDEs : cfi.fdes.length < 2 ^ 31
  cies : ∀ cie ∈ cfi.cies, CieKept cie
  fdes : ∀ fde ∈ cfi.fdes, FdeKept cfi.cies.length fde
  indices : ∀ (i : Nat) (fde : FDE), cfi.fdes[i]? = some fde → fde.idx.toInt = i
  lsdas : ∀ lsda ∈ cfi.exceptTable.getD [], LsdaKept lsda

/-- The call-frame information was read as it was; only `.eh_frame` has a header. -/
structure SameInfo (cfi read : CallFrameInfo) : Prop where
  isEHFrame : read.isEHFrame = cfi.isEHFrame
  ehAddress : read.ehAddress = cfi.ehAddress
  header : cfi.isEHFrame = true → read.ehHdrAddress = cfi.ehHdrAddress ∧
    read.exceptTableAddress = cfi.exceptTableAddress ∧ read.hdrTableEncoding = cfi.hdrTableEncoding
  cies : List.Forall₂ SameCIE cfi.cies read.cies
  fdes : List.Forall₂ SameFDE cfi.fdes read.fdes
  lsdas : List.Forall₂ SameLSDA (cfi.exceptTable.getD []) (read.exceptTable.getD [])

/-- The LSDAs that have been read; there is a table from the first on. -/
def lsdasRead (done : List LSDA) : Option (List LSDA) := if done = [] then none else some (done.map readLSDA)

/-- The call-frame information with the properties of the section. -/
def topRead (cfi : CallFrameInfo) : CallFrameInfo :=
  { defaults with
    isEHFrame := cfi.isEHFrame
    ehAddress := readWord cfi.ehAddress
    ehHdrAddress := if cfi.isEHFrame then readWord cfi.ehHdrAddress else 0
    exceptTableAddress := if cfi.isEHFrame then readWord cfi.exceptTableAddress else 0
    hdrTableEncoding := if cfi.isEHFrame then cfi.hdrTableEncoding else 0x3b }

/-- What the script is compiled to. -/
def readInfo (cfi : CallFrameInfo) : CallFrameInfo :=
  { topRead cfi with
    cies := cfi.cies.map (readCIE cfi.isEHFrame)
    fdes := cfi.fdes.map readFDE
    exceptTable := lsdasRead (cfi.exceptTable.getD []) }

section Info
variable {P Q : Token → Prop} {cfi : CallFrameInfo} {guess : Int32 → Except Fault Text} {t : Text}

/-! ### The properties of the section -/

theorem lexes_sectionType : ∀ b : Bool, Shell.closed (text (if b then ".eh_frame" else ".debug_frame")) = true ∧
    Shell.accumulated (text (if b then ".eh_frame" else ".debug_frame")) =
      [text (if b then ".eh_frame" else ".debug_frame")] ∧
    text (if b then "\".eh_frame\"" else "\".debug_frame\"") =
      quote :: (text (if b then ".eh_frame" else ".debug_frame") ++ [quote]) := by
  decide +kernel

theorem reads_sectionType (b : Bool) :
    Reads P stringLit (text (if b then "\".eh_frame\"" else "\".debug_frame\"") ++ [newline]) True True
      (stringOf (text (if b then ".eh_frame" else ".debug_frame"))) := by
  obtain ⟨hclosed, hrun, htext⟩ := lexes_sectionType b
  rw [htext]
  exact ⟨_, (lexes_literal hclosed hrun).append (lexes_delimiter (.inr rfl)), yields_of fun _ _ => rfl⟩

theorem sectionType_ok (cfi : CallFrameInfo) (b : Bool) :
    sectionType cfi (stringOf (text (if b then ".eh_frame" else ".debug_frame"))) = .ok { cfi with isEHFrame := b } := by
  have hnames : stringOf (text ".eh_frame") = text ".eh_frame" ∧
      ¬ (stringOf (text ".debug_frame") = text ".eh_frame" ∨ stringOf (text ".debug_frame") = text "eh_frame") ∧
      stringOf (text ".debug_frame") = text ".debug_frame" := by decide +kernel
  dsimp only [sectionType]
  cases b with
  | true => exact if_pos (Or.inl hnames.1)
  | false => exact (if_neg hnames.2.1).trans (if_pos (Or.inl hnames.2.2))

theorem readsItems_top {hdrTableEnc : Text}
    (h : encodingLine "eh_hdr_table_enc: " cfi.isEHFrame cfi.hdrTableEncoding = .ok hdrTableEnc) :
    ReadsItems NotComma Q topProperty
      (line "section_type: " (text (if cfi.isEHFrame then "\".eh_frame\"" else "\".debug_frame\"")) ++
        (line "section_addr: " (hexDigits cfi.ehAddress.toNat) ++
          ((if cfi.isEHFrame then line "eh_hdr_addr: " (hexDigits cfi.ehHdrAddress.toNat) ++
            line "except_table_addr: " (hexDigits cfi.exceptTableAddress.toNat) else []) ++ hdrTableEnc)))
      True True defaults (topRead cfi) := by
  have htype : ReadsItems NotComma Q topProperty
      (line "section_type: " (text (if cfi.isEHFrame then "\".eh_frame\"" else "\".debug_frame\""))) True True defaults
      { defaults with isEHFrame := cfi.isEHFrame } :=
    readsItems_value .sectionType (by simp [propertyNames]) (reads_sectionType _) rfl fun rest => by
      rw [sectionType_ok]
      rfl
  have haddr : ReadsItems NotComma Q topProperty (line "section_addr: " (hexDigits cfi.ehAddress.toNat)) True True
      { defaults with isEHFrame := cfi.isEHFrame }
      { defaults with isEHFrame := cfi.isEHFrame, ehAddress := readWord cfi.ehAddress } :=
    readsItems_word .sectionAddr (by simp [propertyNames]) rfl fun _ => rfl
  have hheader : ReadsItems NotComma Q topProperty
      ((if cfi.isEHFrame then line "eh_hdr_addr: " (hexDigits cfi.ehHdrAddress.toNat) ++
        line "except_table_addr: " (hexDigits cfi.exceptTableAddress.toNat) else []) ++ hdrTableEnc) True True
      { defaults with isEHFrame := cfi.isEHFrame, ehAddress := readWord cfi.ehAddress } (topRead cfi) := by
    cases hframe : cfi.isEHFrame with
    | false =>
      have htop : topRead cfi = { defaults with isEHFrame := false, ehAddress := readWord cfi.ehAddress } := by
        simp [topRead, hframe, defaults]
      rw [hframe] at h
      cases h
      rw [htop]
      exact readsItems_nil
    | true =>
      have hhdrAddr : ReadsItems NotComma Q topProperty (line "eh_hdr_addr: " (hexDigits cfi.ehHdrAddress.toNat)) True True
          { defaults with isEHFrame := true, ehAddress := readWord cfi.ehAddress }
          { defaults with
            isEHFrame := true, ehAddress := readWord cfi.ehAddress, ehHdrAddress := readWord cfi.ehHdrAddress } :=
        readsItems_word .ehHdrAddr (by simp [propertyNames]) rfl fun _ => rfl
      have htableAddr : ReadsItems NotComma Q topProperty
          (line "except_table_addr: " (hexDigits cfi.exceptTableAddress.toNat)) True True
          { defaults with
            isEHFrame := true, ehAddress := readWord cfi.ehAddress, ehHdrAddress := readWord cfi.ehHdrAddress }
          { defaults with
            isEHFrame := true, ehAddress := readWord cfi.ehAddress, ehHdrAddress := readWord cfi.ehHdrAddress
            exceptTableAddress := readWord cfi.exceptTableAddress } :=
        readsItems_word .exceptTableAddr (by simp [propertyNames]) rfl fun _ => rfl
      rw [hframe] at h
      have henc : ReadsItems NotComma Q topProperty hdrTableEnc True True
          { defaults with
            isEHFrame := true, ehAddress := readWord cfi.ehAddress, ehHdrAddress := readWord cfi.ehHdrAddress
            exceptTableAddress := readWord cfi.exceptTableAddress } (topRead cfi) :=
        readsItems_encodingLine .ehHdrTableEnc (by simp [propertyNames]) h rfl fun rest v hv => by
          rw [hv]
          simp only [hframe]
          rfl
      exact ((hhdrAddr.append htableAddr).append henc).imp (fun _ => ⟨⟨trivial, trivial⟩, trivial⟩) fun _ => trivial
  exact (htype.append (haddr.append hheader)).imp (fun _ => ⟨trivial, trivial, trivial⟩) fun _ => trivial

/-! ### The sections -/

theorem getD_lsdasRead (done : List LSDA) : (lsdasRead done).getD [] = done.map readLSDA := by
  cases done <;> simp [lsdasRead]

/-- What came back was as the grammar has it. -/
theorem scriptable_of_same {hdrTableEnc : Text}
    (hhdr : encodingLine "eh_hdr_table_enc: " cfi.isEHFrame cfi.hdrTableEncoding = .ok hdrTableEnc)
    (hnumCIEs : cfi.cies.length < 2 ^ 31) (hnumFDEs : cfi.fdes.length < 2 ^ 31)
    (hcies : ∀ cie ∈ cfi.cies, SameCIE cie (readCIE cfi.isEHFrame cie) → CieKept cie)
    (hfdes : ∀ (i : Nat) (fde : FDE), cfi.fdes[i]? = some fde →
      fde.idx.toInt = i ∧ (SameFDE fde (readFDE fde) → FdeKept cfi.cies.length fde))
    (hlsdas : ∀ lsda ∈ cfi.exceptTable.getD [], SameLSDA lsda (readLSDA lsda) → LsdaKept lsda)
    (hsame : SameInfo cfi (readInfo cfi)) : Scriptable cfi where
  ehAddress := readWord_iff.mp hsame.ehAddress
  header hp := by
    obtain ⟨hhdrAddress, htableAddress, -⟩ := hsame.header hp
    exact ⟨readWord_iff.mp ((if_pos hp).symm.trans hhdrAddress), readWord_iff.mp ((if_pos hp).symm.trans htableAddress),
      (encodingLine_ok _).mp ⟨_, hhdr⟩ hp⟩
  numCIEs := hnumCIEs
  numFDEs := hnumFDEs
  cies cie hmem := hcies cie hmem (List.forall₂_same.mp (List.forall₂_map_right_iff.mp hsame.cies) cie hmem)
  fdes fde hmem := by
    obtain ⟨i, hi⟩ := List.mem_iff_getElem?.mp hmem
    exact (hfdes i fde hi).2 (List.forall₂_same.mp (List.forall₂_map_right_iff.mp hsame.fdes) fde hmem)
  indices i fde hi := (hfdes i fde hi).1
  lsdas lsda hmem := by
    have hread : (readInfo cfi).exceptTable.getD [] = (cfi.exceptTable.getD []).map readLSDA := getD_lsdasRead _
    have hsameLSDAs := hsame.lsdas
    rw [hread] at hsameLSDAs
    exact hlsdas lsda hmem (List.forall₂_same.mp (List.forall₂_map_right_iff.mp hsameLSDAs) lsda hmem)

/-- **The sections** are read one after the other. -/
theorem readsItems_sections {hdrTableEnc cies fdes lsdas : Text}
    (hline : ∀ fde ∈ cfi.fdes, ∀ name, guess fde.lowpc = .ok name → newline ∉ name)
    (hhdr : encodingLine "eh_hdr_table_enc: " cfi.isEHFrame cfi.hdrTableEncoding = .ok hdrTableEnc)
    (hnumCIEs : cfi.cies.length < 2 ^ 31) (hnumFDEs : cfi.fdes.length < 2 ^ 31)
    (hcies : printAll printCIEInfo cfi.cies = .ok cies)
    (hfdes : printAll (fun _ => printFDEInfo guess cfi.cies) cfi.fdes = .ok fdes)
    (hlsdas : printAll printLSDA (cfi.exceptTable.getD []) = .ok lsdas) :
    ReadsItems (· = .keyword .begin_) Q sectionItem (cies ++ (fdes ++ lsdas)) (Scriptable cfi)
      (SameInfo cfi (readInfo cfi) → Scriptable cfi) (topRead cfi) (readInfo cfi) := by
  have hreadCIEs : ReadsItems (· = .keyword .begin_) Q sectionItem cies _ _ _ _ :=
    readsItems_printAll printCIEInfo cfi.cies (fun done => { topRead cfi with cies := done.map (readCIE cfi.isEHFrame) })
      (fun _ => CieKept) (fun _ cie => SameCIE cie (readCIE cfi.isEHFrame cie) → CieKept cie) (fun done cie rest _ t ht => by
        rw [List.map_append]
        rw [← List.length_map (readCIE cfi.isEHFrame)] at ht
        exact readsItems_cie rfl ht) hcies
  have hreadFDEs : ReadsItems (· = .keyword .begin_) Q sectionItem fdes _ _ _ _ :=
    readsItems_printAll (fun _ => printFDEInfo guess cfi.cies) cfi.fdes
      (fun done => { topRead cfi with cies := cfi.cies.map (readCIE cfi.isEHFrame), fdes := done.map readFDE })
      (fun done fde => fde.idx.toInt = done.length ∧ FdeKept cfi.cies.length fde)
      (fun done fde => fde.idx.toInt = done.length ∧ (SameFDE fde (readFDE fde) → FdeKept cfi.cies.length fde))
      (fun done fde rest hl t ht => by
        have hlen : done.length < 2 ^ 31 := by
          rw [hl, List.length_append] at hnumFDEs
          omega
        let before : CallFrameInfo :=
          { topRead cfi with cies := cfi.cies.map (readCIE cfi.isEHFrame), fdes := done.map readFDE }
        have hcies : before.cies.length = cfi.cies.length := List.length_map _
        have hposition : before.fdes.length = done.length := List.length_map _
        have hfde : ReadsItems (· = .keyword .begin_) Q sectionItem t _ _ before _ :=
          readsItems_fde hcies.symm (hcies ▸ hnumCIEs) (hposition ▸ hlen) (hline fde (by simp [hl])) ht
        rw [hcies, hposition] at hfde
        rw [List.map_append]
        exact hfde) hfdes
  have hreadLSDAs : ReadsItems (· = .keyword .begin_) Q sectionItem lsdas _ _ _ _ :=
    readsItems_printAll printLSDA (cfi.exceptTable.getD []) (fun done => { readInfo cfi with exceptTable := lsdasRead done })
      (fun _ => LsdaKept) (fun _ lsda => SameLSDA lsda (readLSDA lsda) → LsdaKept lsda) (fun done lsda rest _ t ht => by
        have htable : lsdasRead (done ++ [lsda]) = some ((lsdasRead done).getD [] ++ [readLSDA lsda]) := by
          rw [getD_lsdasRead]
          simp [lsdasRead]
        rw [htable]
        exact readsItems_lsda ht) hlsdas
  refine (hreadCIEs.append (hreadFDEs.append hreadLSDAs)).imp (fun hk => ?_) fun hc => ?_
  · have hfdeK : ∀ (i : Nat) (fde : FDE), cfi.fdes[i]? = some fde → fde.idx.toInt = i ∧ FdeKept cfi.cies.length fde :=
      fun i fde hi => ⟨hk.indices i fde hi, hk.fdes fde (List.mem_of_getElem? hi)⟩
    exact ⟨each_iff.mpr hk.cies, each_position_iff.mpr hfdeK, each_iff.mpr hk.lsdas⟩
  · have hfdeC : ∀ (i : Nat) (fde : FDE), cfi.fdes[i]? = some fde →
        fde.idx.toInt = i ∧ (SameFDE fde (readFDE fde) → FdeKept cfi.cies.length fde) := each_position_iff.mp hc.2.1
    exact scriptable_of_same hhdr hnumCIEs hnumFDEs (each_iff.mp hc.1) hfdeC (each_iff.mp hc.2.2)

/-! ### The script -/

/-- What a script that was emitted is compiled to, if it is. -/
theorem compileDwarfscript_emitted (hline : ∀ fde ∈ cfi.fdes, ∀ name, guess fde.lowpc = .ok name → newline ∉ name)
    (h : emitDwarfscript guess cfi = .ok t) :
    (Scriptable cfi → compileDwarfscript t = .ok (readInfo cfi)) ∧
      ∀ read, compileDwarfscript t = .ok read → read = readInfo cfi ∧ (SameInfo cfi (readInfo cfi) → Scriptable cfi) := by
  obtain ⟨hdrTableEnc, hhdr, h⟩ := bind_eq_ok.mp h
  obtain ⟨_, hnumCIEs, h⟩ := bind_eq_ok.mp h
  obtain ⟨cies, hcies, h⟩ := bind_eq_ok.mp h
  obtain ⟨_, hnumFDEs, h⟩ := bind_eq_ok.mp h
  obtain ⟨fdes, hfdes, h⟩ := bind_eq_ok.mp h
  obtain ⟨lsdas, hlsdas, h⟩ := bind_eq_ok.mp h
  cases h
  obtain ⟨toks, hlex, -, htop⟩ := (readsItems_top (Q := Anything) hhdr).items
  obtain ⟨toks', hlex', hhead, hsections⟩ :=
    (readsItems_sections (Q := Anything) hline hhdr (defined_ok hnumCIEs) (defined_ok hnumFDEs) hcies hfdes hlsdas).items
  obtain ⟨hreadTop, honlyTop⟩ := htop toks' (fun stop hstop => by rw [hhead stop hstop]; simp) fun stop hstop a => by
    rw [hhead stop hstop]
    rfl
  obtain ⟨hread, honly⟩ := hsections [] head_nil (by simp)
  rw [List.append_nil] at hread honly
  have hlexed := lexText_of_lexes (hlex.append hlex')
  simp only [List.append_assoc] at hlexed ⊢
  simp only [compileDwarfscript, hlexed, Except.mapError, bind_ok]
  constructor
  · intro hk
    have hrun : dwarfscript defaults (toks ++ toks') = .ok (readInfo cfi) [] := by
      unfold dwarfscript
      rw [Run.run_bind_of_ok (hreadTop trivial), Run.run_bind_of_ok (hread hk)]
      rfl
    rw [hrun]
  · intro read hok
    split at hok
    · rename_i info rest hrun
      cases hok
      obtain ⟨top, mid, htop, hbehind⟩ := Run.run_bind_ok.mp hrun
      obtain ⟨-, rfl, rfl⟩ := honlyTop _ _ htop (head_anything _)
      obtain ⟨info, mid, hinfo, hend⟩ := Run.run_bind_ok.mp hbehind
      obtain ⟨hc, rfl, rfl⟩ := honly _ _ hinfo (head_anything _)
      cases hend
      exact ⟨rfl, hc⟩
    · cases hok

theorem emitDwarfscript_ok (hnames : ∀ fde ∈ cfi.fdes, ∃ name, guess fde.lowpc = .ok name) (h : Scriptable cfi) :
    ∃ t, emitDwarfscript guess cfi = .ok t := by
  obtain ⟨hdrTableEnc, hhdr⟩ := (encodingLine_ok "eh_hdr_table_enc: ").mpr fun hp => (h.header hp).2.2
  obtain ⟨cies, hcies⟩ : ∃ cies, printAll printCIEInfo cfi.cies = .ok cies := by
    refine printAll_ok fun i cie hi => printCIEInfo_ok (h.cies cie (List.mem_of_getElem? hi)) ?_
    have hlt := (List.getElem?_eq_some_iff.mp hi).1
    have hnumCIEs := h.numCIEs
    omega
  obtain ⟨fdes, hfdes⟩ : ∃ fdes, printAll (fun _ => printFDEInfo guess cfi.cies) cfi.fdes = .ok fdes := by
    refine printAll_ok fun _ fde hi => ?_
    have hmem := List.mem_of_getElem? hi
    obtain ⟨name, hname⟩ := hnames fde hmem
    exact printFDEInfo_ok (h.fdes fde hmem) hname
  obtain ⟨lsdas, hlsdas⟩ : ∃ lsdas, printAll printLSDA (cfi.exceptTable.getD []) = .ok lsdas :=
    printAll_ok fun _ lsda hi => printLSDA_ok (h.lsdas lsda (List.mem_of_getElem? hi))
  exact ⟨_, by
    simp only [emitDwarfscript, hhdr, hcies, defined_of h.numCIEs, defined_of h.numFDEs, hfdes, hlsdas, bind_ok]
    rfl⟩

theorem names_of_emitted (h : emitDwarfscript guess cfi = .ok t) : ∀ fde ∈ cfi.fdes, ∃ name, guess fde.lowpc = .ok name := by
  obtain ⟨_, -, h⟩ := bind_eq_ok.mp h
  obtain ⟨_, -, h⟩ := bind_eq_ok.mp h
  obtain ⟨_, -, h⟩ := bind_eq_ok.mp h
  obtain ⟨_, -, h⟩ := bind_eq_ok.mp h
  obtain ⟨_, hfdes, -⟩ := bind_eq_ok.mp h
  intro fde hmem
  obtain ⟨_, _, hprint⟩ := printAll_mem hfdes fde hmem
  obtain ⟨name, hname, -⟩ := bind_eq_ok.mp hprint
  exact ⟨name, hname⟩

theorem same_readInfo (h : Scriptable cfi) : SameInfo cfi (readInfo cfi) where
  isEHFrame := rfl
  ehAddress := readWord_iff.mpr h.ehAddress
  header hp := ⟨(if_pos hp).trans (readWord_iff.mpr (h.header hp).1), (if_pos hp).trans (readWord_iff.mpr (h.header hp).2.1),
    if_pos hp⟩
  cies := List.forall₂_map_right_iff.mpr
    (List.forall₂_same.mpr fun cie hmem => same_readCIE (h.cies cie hmem) cfi.isEHFrame)
  fdes := List.forall₂_map_right_iff.mpr (List.forall₂_same.mpr fun fde hmem => same_readFDE (h.fdes fde hmem))
  lsdas := by
    have hread : (readInfo cfi).exceptTable.getD [] = (cfi.exceptTable.getD []).map readLSDA := getD_lsdasRead _
    rw [hread]
    exact List.forall₂_map_right_iff.mpr (List.forall₂_same.mpr fun lsda hmem => same_readLSDA (h.lsdas lsda hmem))

/-- The names of the functions are found and fit in a line. -/
def NamesFound (guess : Int32 → Except Fault Text) (cfi : CallFrameInfo) : Prop :=
  ∀ fde ∈ cfi.fdes, ∃ name, guess fde.lowpc = .ok name ∧ newline ∉ name

/-- A script is emitted for the call-frame information, and compiled to the same. -/
def Recompiles (guess : Int32 → Except Fault Text) (cfi : CallFrameInfo) : Prop :=
  ∃ t, emitDwarfscript guess cfi = .ok t ∧ ∃ read, compileDwarfscript t = .ok read ∧ SameInfo cfi read

theorem recompiles_of (hnames : ∀ fde ∈ cfi.fdes, ∃ name, guess fde.lowpc = .ok name)
    (hline : ∀ fde ∈ cfi.fdes, ∀ name, guess fde.lowpc = .ok name → newline ∉ name) (h : Scriptable cfi) :
    Recompiles guess cfi := by
  obtain ⟨t, ht⟩ := emitDwarfscript_ok hnames h
  exact ⟨t, ht, readInfo cfi, (compileDwarfscript_emitted hline ht).1 h, same_readInfo h⟩

theorem Recompiles.scriptable (hline : ∀ fde ∈ cfi.fdes, ∀ name, guess fde.lowpc = .ok name → newline ∉ name)
    (h : Recompiles guess cfi) : Scriptable cfi := by
  obtain ⟨t, ht, read, hread, hsame⟩ := h
  obtain ⟨rfl, hscriptable⟩ := (compileDwarfscript_emitted hline ht).2 read hread
  exact hscriptable hsame

/-- **A script that was emitted is compiled to the information it was emitted for.** -/
theorem compileDwarfscript_emitDwarfscript {guess : Int32 → Except Fault Text} (hguess : NamesFound guess cfi)
    (h : Scriptable cfi) :
    ∃ t, emitDwarfscript guess cfi = .ok t ∧ ∃ read, compileDwarfscript t = .ok read ∧ SameInfo cfi read := by
  refine recompiles_of (fun fde hmem => ?_) (fun fde hmem name hname => ?_) h
  · obtain ⟨name, hname, -⟩ := hguess fde hmem
    exact ⟨name, hname⟩
  · obtain ⟨name', hname', hline⟩ := hguess fde hmem
    rw [hname'] at hname
    cases hname
    exact hline

end Info

/-! ### A script -/

def printedCIE : CIE where
  initialInstructions := [
    { RegInstruction.blank .defCfa with arg1 := 7, arg1Reg := .basic 7, arg2 := 8 },
    { RegInstruction.blank .offset with arg1 := 16, arg1Reg := .basic 16, arg2 := 1 }]
  dataAlign := -8
  codeAlign := 1
  returnAddrRuleNum := 16
  version := 1
  addressSize := 4
  segmentSize := 0
  augmentationFlags := ⟨true, true, true, true⟩
  fdePointerEncoding := 0x1b
  fdeLSDAPointerEncoding := 0x1b
  personalityPointerEncoding := 0x9b
  personalityFunction := 0x400

def printedFDE : FDE where
  cie := 0
  instructions := [
    { RegInstruction.blank .advanceLoc with arg1 := 4 },
    { RegInstruction.blank .valExpression with
      arg1 := 3, arg1Reg := .basic 3, expr := [⟨.ofByte 0x73, 0xfffffffffffffff8, 0⟩, ⟨.ofByte 0x39, 0, 0⟩, ⟨.plus, 0, 0⟩] }]
  lowpc := 0x400000
  highpc := 0x400100
  hasLSDAPointer := true
  lsdaIdx := 0
  idx := 0

def printedLSDA : LSDA := ⟨0x400000, [⟨1, 2, 3, 0, true⟩], [⟨-1, 0, false⟩], 0x1b, [0x500]⟩

def printedInfo : CallFrameInfo :=
  ⟨[printedFDE], [printedCIE], true, 0x1000, 0x2000, 0x3000, 0x3b, some [printedLSDA]⟩


theorem kept_printedInfo : CieKept printedCIE ∧ FdeKept 1 printedFDE ∧ LsdaKept printedLSDA := by
  refine ⟨⟨?_, by decide, by decide, rfl, by decide, by decide, by decide⟩, ⟨?_, by decide, by decide, by decide⟩,
    ⟨by decide, by decide, ?_, ?_, List.forall_mem_singleton.mpr (by decide)⟩⟩
  · decide +kernel
  · decide +kernel
  · exact List.forall_mem_singleton.mpr ⟨by decide, by decide, by decide, by decide⟩
  · exact List.forall_mem_singleton.mpr ⟨by decide, by decide⟩

theorem scriptable_printedInfo : Scriptable printedInfo := by
  obtain ⟨hcie, hfde, hlsda⟩ := kept_printedInfo
  exact {
    ehAddress := by decide
    header := by decide
    numCIEs := by decide
    numFDEs := by decide
    cies := List.forall_mem_singleton.mpr hcie
    fdes := List.forall_mem_singleton.mpr hfde
    indices := fun i fde hget => by
      cases i with
      | zero =>
        obtain rfl := Option.some.inj hget
        rfl
      | succ i => cases hget
    lsdas := List.forall_mem_singleton.mpr hlsda }

/-- Every function is called `main`. -/
def guessMain (_ : Int32) : Except Fault Text := .ok (text "main")

theorem guessMain_line (lowpc : Int32) (name : Text) (h : guessMain lowpc = .ok name) : newline ∉ name := by
  cases h
  decide +kernel

theorem compileDwarfscript_printedInfo : ∃ t, emitDwarfscript (fun _ => .ok (text "main")) printedInfo = .ok t ∧
    ∃ read, compileDwarfscript t = .ok read ∧ SameInfo printedInfo read :=
  compileDwarfscript_emitDwarfscript (fun fde _ => ⟨_, rfl, guessMain_line fde.lowpc _ rfl⟩) scriptable_printedInfo

section Recompiled
variable {cfi : CallFrameInfo} {guess : Int32 → Except Fault Text}

/-- **A script comes back as the information it was emitted for** exactly if the grammar has what is in it, and each FDE is
where its index says. -/
theorem recompiles_iff (hline : ∀ fde ∈ cfi.fdes, ∀ name, guess fde.lowpc = .ok name → newline ∉ name) :
    Recompiles guess cfi ↔ Scriptable cfi ∧ ∀ fde ∈ cfi.fdes, ∃ name, guess fde.lowpc = .ok name := by
  constructor
  · intro h
    obtain ⟨t, ht, -⟩ := id h
    exact ⟨h.scriptable hline, names_of_emitted ht⟩
  · intro h
    exact recompiles_of h.2 hline h.1

theorem recompiles_printedInfo : Recompiles guessMain printedInfo ∧
    ¬ Recompiles guessMain { printedInfo with fdes := [{ printedFDE with idx := 1 }] } := by
  constructor
  · exact (recompiles_iff fun fde _ => guessMain_line fde.lowpc).mpr ⟨scriptable_printedInfo, fun _ _ => ⟨_, rfl⟩⟩
  · intro h
    have hindex := ((recompiles_iff fun fde _ => guessMain_line fde.lowpc).mp h).1.indices 0 _ rfl
    revert hindex
    decide

end Recompiled

/-! ### What is read of a file -/

/-- The call-frame information that `readDebugFrame` leaves, with the array of FDEs sorted. -/
def callFrameInfoRead (object : FrameObject) (contents : FrameContents) (fdes : List LoadedFDE) : CallFrameInfo where
  fdes := fdes.map LoadedFDE.toFDE
  cies := contents.cies.map LoadedCIE.cie
  isEHFrame := object.isEHFrame
  ehAddress := object.ehAddress
  ehHdrAddress := contents.ehHdrAddress
  exceptTableAddress := if object.isEHFrame then (object.exceptTable.map Prod.fst).getD 0 else 0
  hdrTableEncoding := contents.hdrTableEncoding
  exceptTable := contents.exceptTable

/-- An executable whose `.eh_frame` has the FDE of 0x400430 before that of 0x400400. -/
def swappedObject : FrameObject where
  isPO := false
  isEHFrame := true
  ehAddress := 0x400500
  ehFrameHdr := some (0x4004e0, [1, 0x1b, 3, 0x3b])
  exceptTable := none
  cies := [⟨1, [], 1, -8, 16, [], 0, [], 0⟩]
  fdes := [⟨0, [], 0, 0x400430, 0x20, [], 24, []⟩, ⟨0, [], 0, 0x400400, 0x20, [], 48, []⟩]

def swappedFDE (lowpc highpc idx offset : Int32) : LoadedFDE := ⟨⟨0, [], lowpc, highpc, false, 0, idx⟩, 0, offset⟩

theorem swappedObject_read : ∃ contents, readDebugFrame .elf64 swappedObject [] = .ok contents ∧
    contents.frame.fdes = [swappedFDE 0x400430 0x400450 0 24, swappedFDE 0x400400 0x400420 1 48] := by
  have hok : (readDebugFrame .elf64 swappedObject []).toOption.map (fun contents => contents.frame.fdes) =
      some [swappedFDE 0x400430 0x400450 0 24, swappedFDE 0x400400 0x400420 1 48] := by decide +kernel
  cases h : readDebugFrame .elf64 swappedObject [] with
  | error e =>
    rw [h] at hok
    cases hok
  | ok contents =>
    rw [h] at hok
    exact ⟨contents, rfl, Option.some.inj hok⟩

/-- Not everything that is read comes back. -/
theorem not_recompiles : ¬ ∀ (config : ElfBitwidth) (object : FrameObject) (stateStack : List (Dictionary PoRegRule))
    (contents : FrameContents) (fdes : List LoadedFDE), readDebugFrame config object stateStack = .ok contents →
      Sorts fdeCmp contents.frame.fdes fdes → Recompiles guessMain (callFrameInfoRead object contents fdes) := by
  intro h
  obtain ⟨contents, hread, hfdes⟩ := swappedObject_read
  have hsorts : Sorts fdeCmp contents.frame.fdes [swappedFDE 0x400400 0x400420 1 48, swappedFDE 0x400430 0x400450 0 24] := by
    rw [hfdes]
    exact ⟨List.Perm.swap _ _ _, List.pairwise_pair.mpr ⟨-0x30, rfl, by decide⟩⟩
  have hscriptable := (h .elf64 swappedObject [] contents _ hread hsorts).scriptable fun fde _ => guessMain_line fde.lowpc
  have hindex := hscriptable.indices 0 _ rfl
  revert hindex
  decide

end Katana.Script

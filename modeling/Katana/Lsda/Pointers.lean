/-
  Katana.Lsda.Pointers — LSDA pointers and the indices that stand for them (callFrameInfo.c, exceptTable.c).

  The pointers found while FDEs are read are kept in a list without repetitions, and an FDE keeps an
  index into it. The exception table is read in the order of the list, and written in that order again.

  Proved, for every object that can be read:
  - `lsdaIndex_ok`: what looking up or adding one pointer does.
  - `PointersKept.step` / `loadFDE_pointers`: what the list and the indices are after any FDEs.
  - `lsdaLinked_iff`: exactly when an index leads to the same LSDA everywhere.
-/
import Katana.OffsetMap
import Katana.Lsda.RoundTrip

namespace Katana

/-! ## One pointer -/

section Index
variable {lsdaPointers lsdaPointers' : List UInt64} {p : UInt64} {i : Nat}

/-- **A pointer is found where it is, or added.** -/
theorem lsdaIndex_ok (hnodup : lsdaPointers.Nodup) (hlen : lsdaPointers.length < 2 ^ 31)
    (h : lsdaIndex lsdaPointers p = .ok (lsdaPointers', i)) :
    lsdaPointers'.Nodup ∧ lsdaPointers'.length < 2 ^ 31 ∧ lsdaPointers <+: lsdaPointers' ∧ lsdaPointers'[i]? = some p := by
  unfold lsdaIndex at h
  cases hfind : lsdaPointers.findIdx? (p == ·) with
  | some j =>
    rw [hfind] at h
    cases h
    obtain ⟨hj, hp, -⟩ := List.findIdx?_eq_some_iff_getElem.mp hfind
    refine ⟨hnodup, hlen, List.prefix_refl _, ?_⟩
    rw [List.getElem?_eq_getElem hj, beq_iff_eq.mp hp]
  | none =>
    rw [hfind] at h
    obtain ⟨_, hdef, h⟩ := bind_eq_ok.mp h
    cases h
    have hnew : p ∉ lsdaPointers := by
      intro hmem
      have hno := List.findIdx?_eq_none_iff.mp hfind p hmem
      simp at hno
    refine ⟨?_, ?_, List.prefix_append _ _, List.getElem?_concat_length⟩
    · rw [List.nodup_append]
      exact ⟨hnodup, List.nodup_singleton p, fun a ha b hb hab => hnew (by rwa [← List.mem_singleton.mp hb, ← hab])⟩
    · rw [List.length_append, List.length_singleton]
      exact defined_ok hdef

end Index

/-! ## The FDEs that were read -/

/-- The LSDA pointer the FDE's augmentation data holds. -/
def ownLsdaPointer (config : ElfBitwidth) (object : FrameObject) (cie : CIE) (dfde : DwarfFde) : Except Fault UInt64 := do
  let off ← augDataOffset dfde
  fdeLsdaPointer config cie (object.ehAddress + off) dfde.augdata

/-- The FDE has augmentation data that is looked at, and its CIE announces LSDA pointers. -/
def LooksForLSDA (object : FrameObject) (cie : CIE) (dfde : DwarfFde) : Prop :=
  object.isEHFrame = true ∧ dfde.augdata ≠ [] ∧ cie.augmentationFlags.fdeLsda = true

structure PointerKept (config : ElfBitwidth) (object : FrameObject) (cies : List LoadedCIE) (lsdaPointers : List UInt64)
    (dfde : DwarfFde) (fde : LoadedFDE) : Prop where
  has_iff : fde.hasLSDAPointer = true ↔ ∃ loaded, cies[dfde.cieIndex]? = some loaded ∧ LooksForLSDA object loaded.cie dfde
  own : fde.hasLSDAPointer = true → ∃ loaded p, cies[dfde.cieIndex]? = some loaded ∧
    ownLsdaPointer config object loaded.cie dfde = .ok p ∧ lsdaPointers[fde.lsdaIdx.toNat]? = some p

/-- The list after some FDEs. -/
structure PointersKept (config : ElfBitwidth) (object : FrameObject) (cies : List LoadedCIE) (dfdes : List DwarfFde)
    (st : FrameRead) : Prop where
  nodup : st.lsdaPointers.Nodup
  length_lt : st.lsdaPointers.length < 2 ^ 31
  kept : List.Forall₂ (PointerKept config object cies st.lsdaPointers) dfdes st.fdes
  used : st.lsdaPointers ≠ [] → ∃ fde ∈ st.fdes, fde.hasLSDAPointer = true

section Read
variable {config : ElfBitwidth} {object : FrameObject} {cies : List LoadedCIE} {st st' : FrameRead} {dfde : DwarfFde}
  {dfdes : List DwarfFde}

theorem getElem?_of_extends {α : Type} {l l' : List α} {i : Nat} {a : α} (h : l <+: l') (hi : l[i]? = some a) :
    l'[i]? = some a := by
  obtain ⟨rest, rfl⟩ := h
  rw [List.getElem?_append_left (List.getElem?_eq_some_iff.mp hi).1]
  exact hi

theorem PointerKept.mono {lsdaPointers lsdaPointers' : List UInt64} {fde : LoadedFDE}
    (h : PointerKept config object cies lsdaPointers dfde fde) (hpre : lsdaPointers <+: lsdaPointers') :
    PointerKept config object cies lsdaPointers' dfde fde := by
  refine ⟨h.has_iff, fun hhas => ?_⟩
  obtain ⟨loaded, p, hcie, hown, hp⟩ := h.own hhas
  exact ⟨loaded, p, hcie, hown, getElem?_of_extends hpre hp⟩

/-- What the augmentation data of an FDE adds. -/
theorem readFDEAugmentation_pointers {loaded : LoadedCIE} {fde : LoadedFDE} {lsdaPointers : List UInt64}
    {r : LoadedFDE × List UInt64} (hnodup : lsdaPointers.Nodup) (hlen : lsdaPointers.length < 2 ^ 31)
    (hcie : cies[dfde.cieIndex]? = some loaded) (hnone : fde.hasLSDAPointer = false)
    (h : readFDEAugmentation config object loaded.cie dfde fde lsdaPointers = .ok r) :
    r.2.Nodup ∧ r.2.length < 2 ^ 31 ∧ lsdaPointers <+: r.2 ∧ PointerKept config object cies r.2 dfde r.1 ∧
      (r.1.hasLSDAPointer = true ∨ r.2 = lsdaPointers) := by
  have hplain : ¬ LooksForLSDA object loaded.cie dfde → PointerKept config object cies lsdaPointers dfde fde := by
    intro hno
    refine ⟨iff_of_false (by simp [hnone]) ?_, fun hhas => by simp [hnone] at hhas⟩
    rintro ⟨loaded', hcie', hlooks⟩
    rw [hcie] at hcie'
    cases hcie'
    exact hno hlooks
  unfold readFDEAugmentation at h
  split at h
  · rename_i hdata
    obtain ⟨off, hoff, h⟩ := bind_eq_ok.mp h
    unfold parseFDEAugmentationData at h
    split at h
    · rename_i hlsda
      obtain ⟨p, hp, h⟩ := bind_eq_ok.mp h
      obtain ⟨⟨lsdaPointers', i⟩, hindex, h⟩ := bind_eq_ok.mp h
      cases h
      obtain ⟨hnodup', hlen', hpre, hget⟩ := lsdaIndex_ok hnodup hlen hindex
      have hi : i < 2 ^ 64 := by
        have hlt := (List.getElem?_eq_some_iff.mp hget).1
        omega
      refine ⟨hnodup', hlen', hpre, ⟨iff_of_true rfl ⟨loaded, hcie, hdata.1, hdata.2, hlsda⟩, fun _ => ?_⟩, .inl rfl⟩
      refine ⟨loaded, p, hcie, ?_, ?_⟩
      · unfold ownLsdaPointer
        rw [hoff, bind_ok]
        exact hp
      · show lsdaPointers'[(UInt64.ofNat i).toNat]? = some p
        rw [UInt64.toNat_ofNat_of_lt' hi]
        exact hget
    · rename_i hlsda
      cases h
      exact ⟨hnodup, hlen, List.prefix_refl _, hplain fun hlooks => hlsda hlooks.2.2, .inr rfl⟩
  · rename_i hdata
    cases h
    exact ⟨hnodup, hlen, List.prefix_refl _, hplain fun hlooks => hdata ⟨hlooks.1, hlooks.2.1⟩, .inr rfl⟩

theorem PointersKept.step (hk : PointersKept config object cies dfdes st) (h : loadFDE config object cies st dfde = .ok st') :
    PointersKept config object cies (dfdes ++ [dfde]) st' := by
  obtain ⟨loaded, instrs, fde, lsdaPointers, hcie, hread, -, hfdes, hpointers⟩ := loadFDE_eq_ok h
  obtain ⟨hnodup, hlen, hpre, hkept, hused⟩ :=
    readFDEAugmentation_pointers hk.nodup hk.length_lt hcie rfl hread
  refine ⟨by rwa [hpointers], by rwa [hpointers], ?_, ?_⟩
  · rw [hfdes, hpointers]
    exact List.rel_append (hk.kept.imp fun _ _ hold => hold.mono hpre) (.cons hkept .nil)
  · rw [hfdes, hpointers]
    intro hne
    rcases hused with hhas | hsame
    · exact ⟨fde, by simp, hhas⟩
    · rw [show lsdaPointers = st.lsdaPointers from hsame] at hne
      obtain ⟨old, hmem, hhas⟩ := hk.used hne
      exact ⟨old, List.mem_append_left _ hmem, hhas⟩

/-- **What any FDEs leave** of the list and the indices. -/
theorem loadFDE_pointers (h : dfdes.foldlM (loadFDE config object cies) .start = .ok st) :
    PointersKept config object cies dfdes st := by
  refine foldlM_ok (P := PointersKept config object cies) h ?_ ?_
  · exact ⟨List.nodup_nil, by decide, .nil, fun hne => absurd rfl hne⟩
  · exact fun _ _ _ _ _ _ hk hstep => hk.step hstep

/-- Two FDEs with LSDAs have one index exactly when they have one pointer. -/
theorem PointersKept.index_eq_iff (hk : PointersKept config object cies dfdes st) {i i' : Nat} {dfde' : DwarfFde}
    {fde fde' : LoadedFDE} {loaded loaded' : LoadedCIE} (hi : dfdes[i]? = some dfde) (hf : st.fdes[i]? = some fde)
    (hi' : dfdes[i']? = some dfde') (hf' : st.fdes[i']? = some fde') (hhas : fde.hasLSDAPointer = true)
    (hhas' : fde'.hasLSDAPointer = true) (hcie : cies[dfde.cieIndex]? = some loaded)
    (hcie' : cies[dfde'.cieIndex]? = some loaded') :
    fde.lsdaIdx = fde'.lsdaIdx ↔
      ownLsdaPointer config object loaded.cie dfde = ownLsdaPointer config object loaded'.cie dfde' := by
  have hkept := (List.forall₂_iff_get.mp hk.kept).2
  obtain ⟨hlt, rfl⟩ := List.getElem?_eq_some_iff.mp hi
  obtain ⟨hltf, rfl⟩ := List.getElem?_eq_some_iff.mp hf
  obtain ⟨hlt', rfl⟩ := List.getElem?_eq_some_iff.mp hi'
  obtain ⟨hltf', rfl⟩ := List.getElem?_eq_some_iff.mp hf'
  obtain ⟨l, p, hl, hown, hp⟩ := (hkept i hlt hltf).own hhas
  obtain ⟨l', p', hl', hown', hp'⟩ := (hkept i' hlt' hltf').own hhas'
  rw [List.get_eq_getElem, hcie] at hl
  rw [List.get_eq_getElem, hcie'] at hl'
  cases hl
  cases hl'
  rw [List.get_eq_getElem] at hown hown' hp hp'
  rw [hown, hown']
  constructor
  · intro heq
    rw [heq, hp'] at hp
    cases hp
    rfl
  · intro heq
    cases Except.ok.inj heq
    obtain ⟨hin, hget⟩ := List.getElem?_eq_some_iff.mp hp
    obtain ⟨hin', hget'⟩ := List.getElem?_eq_some_iff.mp hp'
    exact UInt64.toNat_inj.mp ((List.Nodup.getElem_inj_iff hk.nodup).mp (hget.trans hget'.symm))

end Read

/-! ## CIEs that announce LSDA pointers -/

section Announce
variable {config : ElfBitwidth} {ehAddress address : UInt64} {data : List UInt8}

theorem parseLetter_fdeLsda {st st' : CIE × Nat} {c : Char} (h : parseLetter config data address st c = .ok st') :
    st'.1.augmentationFlags.fdeLsda = true ↔ st.1.augmentationFlags.fdeLsda = true ∨ c = 'L' := by
  obtain ⟨_, -, h⟩ := bind_eq_ok.mp h
  unfold takeLetter at h
  split at h
  · cases h
    simp
  · cases h
    simp
  · obtain ⟨personality, -, h⟩ := bind_eq_ok.mp h
    cases h
    simp
  · cases h
    simp
  · rename_i hL
    cases h
    exact (or_iff_left hL).symm

theorem letters_fdeLsda {letters : List Char} {st st' : CIE × Nat}
    (h : letters.foldlM (parseLetter config data address) st = .ok st') :
    st'.1.augmentationFlags.fdeLsda = true ↔ st.1.augmentationFlags.fdeLsda = true ∨ 'L' ∈ letters := by
  induction letters generalizing st with
  | nil =>
    cases h
    simp
  | cons c letters ih =>
    rw [List.foldlM_cons] at h
    obtain ⟨st1, h1, h⟩ := bind_eq_ok.mp h
    rw [ih h, parseLetter_fdeLsda h1, List.mem_cons, or_assoc, eq_comm (a := c)]

def SaysLSDA (dcie : DwarfCie) (loaded : LoadedCIE) : Prop :=
  loaded.cie.augmentationFlags.fdeLsda = true ↔ 'L' ∈ dcie.augmenter

theorem readCIE_says {st st' : List LoadedCIE × List (Dictionary PoRegRule)} {dcie : DwarfCie}
    (h : readCIE config ehAddress st dcie = .ok st') : ∃ loaded, st'.1 = st.1 ++ [loaded] ∧ SaysLSDA dcie loaded := by
  obtain ⟨_, -, h⟩ := bind_eq_ok.mp h
  obtain ⟨cie, hparse, h⟩ := bind_eq_ok.mp h
  obtain ⟨instrs, -, h⟩ := bind_eq_ok.mp h
  obtain ⟨rules, -, h⟩ := bind_eq_ok.mp h
  cases h
  obtain ⟨letters, hletters, hparse⟩ := bind_eq_ok.mp hparse
  cases hparse
  refine ⟨_, rfl, ?_⟩
  have hflag := letters_fdeLsda hletters
  unfold SaysLSDA
  rw [hflag]
  exact or_iff_right (by simp [DwarfCie.toCIE, AugmentFlags.none])

theorem readCIE_run {dcies : List DwarfCie} {stateStack : List (Dictionary PoRegRule)}
    {r : List LoadedCIE × List (Dictionary PoRegRule)}
    (h : dcies.foldlM (readCIE config ehAddress) ([], stateStack) = .ok r) : List.Forall₂ SaysLSDA dcies r.1 := by
  refine foldlM_ok (P := fun dcies r => List.Forall₂ SaysLSDA dcies r.1) h .nil ?_
  intro done dcie rest st st' _ hdone hstep
  obtain ⟨loaded, hst, hsays⟩ := readCIE_says hstep
  rw [hst]
  exact List.rel_append hdone (.cons hsays .nil)

end Announce

/-! ## One index everywhere -/

/-- The file gives the FDE an LSDA pointer. -/
def HasLSDA (object : FrameObject) (dfde : DwarfFde) : Prop :=
  object.isEHFrame = true ∧ dfde.augdata ≠ [] ∧ ∃ dcie, object.cies[dfde.cieIndex]? = some dcie ∧ 'L' ∈ dcie.augmenter

/-- An index leads to one LSDA in the list of pointers, the exception table that was read and the one that is written
at any address. -/
structure LsdaLinked (config : ElfBitwidth) (object : FrameObject) (sectionAddress : UInt64) (data : List UInt8)
    (contents : FrameContents) : Prop where
  nodup : contents.frame.lsdaPointers.Nodup
  resolves : ∀ (i : Nat) (dfde : DwarfFde) (fde : LoadedFDE), object.fdes[i]? = some dfde →
    contents.frame.fdes[i]? = some fde → (fde.hasLSDAPointer = true ↔ HasLSDA object dfde) ∧
      (fde.hasLSDAPointer = true → ∃ loaded p, contents.cies[dfde.cieIndex]? = some loaded ∧
        ownLsdaPointer config object loaded.cie dfde = .ok p ∧ contents.frame.lsdaPointers[fde.lsdaIdx.toNat]? = some p)
  sameIndex : ∀ (i i' : Nat) (dfde dfde' : DwarfFde) (fde fde' : LoadedFDE) (loaded loaded' : LoadedCIE),
    object.fdes[i]? = some dfde → contents.frame.fdes[i]? = some fde → object.fdes[i']? = some dfde' →
    contents.frame.fdes[i']? = some fde' → fde.hasLSDAPointer = true → fde'.hasLSDAPointer = true →
    contents.cies[dfde.cieIndex]? = some loaded → contents.cies[dfde'.cieIndex]? = some loaded' →
    (fde.lsdaIdx = fde'.lsdaIdx ↔
      ownLsdaPointer config object loaded.cie dfde = ownLsdaPointer config object loaded'.cie dfde')
  parsed : ∀ lsdas, contents.exceptTable = some lsdas → ∀ (i : Nat) (p : UInt64), contents.frame.lsdaPointers[i]? = some p →
    ∃ lsda, lsdas[i]? = some lsda ∧ parseLSDA config data sectionAddress p = .ok lsda
  written : ∀ lsdas, contents.exceptTable = some lsdas → ∀ (exceptTableAddress : UInt64) (sec : ExceptSection),
    buildExceptTableRawData config exceptTableAddress lsdas = .ok sec → ∀ (i : Nat) (lsda : LSDA), lsdas[i]? = some lsda →
    LsdaAt config exceptTableAddress sec i lsda

section Linked
variable {config : ElfBitwidth} {object : FrameObject} {stateStack : List (Dictionary PoRegRule)} {contents : FrameContents}
  {sectionAddress : UInt64} {data : List UInt8}

/-- The loops of `readDebugFrame` that returned. -/
theorem readDebugFrame_ok (h : readDebugFrame config object stateStack = .ok contents) :
    List.Forall₂ SaysLSDA object.cies contents.cies ∧
      PointersKept config object contents.cies object.fdes contents.frame ∧
      readExceptTable config object contents.frame.lsdaPointers = .ok contents.exceptTable := by
  unfold readDebugFrame at h
  obtain ⟨hdr, -, h⟩ := bind_eq_ok.mp h
  obtain ⟨⟨cies, stack⟩, hcies, h⟩ := bind_eq_ok.mp h
  obtain ⟨frame, hframe, h⟩ := bind_eq_ok.mp h
  obtain ⟨exceptTable, htable, h⟩ := bind_eq_ok.mp h
  cases h
  exact ⟨readCIE_run hcies, loadFDE_pointers hframe, htable⟩

/-- The CIE that was read says what the file does. -/
theorem hasLSDA_iff (hcies : List.Forall₂ SaysLSDA object.cies contents.cies) (dfde : DwarfFde) :
    (∃ loaded, contents.cies[dfde.cieIndex]? = some loaded ∧ LooksForLSDA object loaded.cie dfde) ↔ HasLSDA object dfde := by
  obtain ⟨hlen, hget⟩ := List.forall₂_iff_get.mp hcies
  constructor
  · intro h
    obtain ⟨loaded, hcie, hEH, hdata, hflag⟩ := h
    obtain ⟨hlt, rfl⟩ := List.getElem?_eq_some_iff.mp hcie
    exact ⟨hEH, hdata, _, List.getElem?_eq_getElem (hlen ▸ hlt), (hget _ (hlen ▸ hlt) hlt).mp hflag⟩
  · intro h
    obtain ⟨hEH, hdata, dcie, hcie, hL⟩ := h
    obtain ⟨hlt, rfl⟩ := List.getElem?_eq_some_iff.mp hcie
    exact ⟨_, List.getElem?_eq_getElem (hlen ▸ hlt), hEH, hdata, (hget _ hlt (hlen ▸ hlt)).mpr hL⟩

/-- What `parseExceptFrame` gives for a pointer of its list, unless the section is empty. -/
theorem parseExceptFrame_get {lsdaPointers : List UInt64} {lsdas : List LSDA}
    (h : parseExceptFrame config data sectionAddress lsdaPointers = .ok lsdas) (hdata : data ≠ []) {i : Nat} {p : UInt64}
    (hi : lsdaPointers[i]? = some p) : ∃ lsda, lsdas[i]? = some lsda ∧ parseLSDA config data sectionAddress p = .ok lsda := by
  unfold parseExceptFrame at h
  rw [if_neg (by simpa using hdata)] at h
  induction lsdaPointers generalizing i lsdas with
  | nil => cases hi
  | cons q lsdaPointers ih =>
    rw [List.mapM_cons] at h
    obtain ⟨lsda, hlsda, h⟩ := bind_eq_ok.mp h
    obtain ⟨rest, hrest, h⟩ := bind_eq_ok.mp h
    cases h
    cases i with
    | zero =>
      cases hi
      exact ⟨lsda, rfl, hlsda⟩
    | succ i => exact ih hrest hi

/-- **An index leads to one LSDA everywhere** exactly when the section is not empty, or no FDE has an LSDA. -/
theorem lsdaLinked_iff (h : readDebugFrame config object stateStack = .ok contents)
    (htable : object.exceptTable = some (sectionAddress, data)) :
    LsdaLinked config object sectionAddress data contents ↔ data ≠ [] ∨ ∀ dfde ∈ object.fdes, ¬ HasLSDA object dfde := by
  obtain ⟨hcies, hk, hread⟩ := readDebugFrame_ok h
  obtain ⟨hlen, hkept⟩ := List.forall₂_iff_get.mp hk.kept
  have hhas : ∀ (i : Nat) (dfde : DwarfFde) (fde : LoadedFDE), object.fdes[i]? = some dfde →
      contents.frame.fdes[i]? = some fde → PointerKept config object contents.cies contents.frame.lsdaPointers dfde fde := by
    intro i dfde fde hi hf
    obtain ⟨hlt, rfl⟩ := List.getElem?_eq_some_iff.mp hi
    obtain ⟨hltf, rfl⟩ := List.getElem?_eq_some_iff.mp hf
    exact hkept i hlt hltf
  constructor
  · intro hlinked
    by_contra hno
    rw [not_or, not_not] at hno
    obtain ⟨hempty, hsome⟩ := hno
    obtain ⟨dfde, hmem, hlsda⟩ : ∃ dfde ∈ object.fdes, HasLSDA object dfde := by simpa using hsome
    obtain ⟨i, hi⟩ := List.mem_iff_getElem?.mp hmem
    obtain ⟨hlt, -⟩ := List.getElem?_eq_some_iff.mp hi
    have hf : contents.frame.fdes[i]? = some contents.frame.fdes[i] := List.getElem?_eq_getElem (hlen ▸ hlt)
    obtain ⟨hiff, hown⟩ := hlinked.resolves i dfde _ hi hf
    obtain ⟨loaded, p, -, -, hp⟩ := hown (hiff.mpr hlsda)
    -- an empty section is read as an empty table
    have hnil : contents.exceptTable = some [] := by
      unfold readExceptTable at hread
      rw [hlsda.1, htable, hempty] at hread
      exact (Except.ok.inj hread).symm
    obtain ⟨lsda, hget, -⟩ := hlinked.parsed [] hnil _ p hp
    simp at hget
  · intro hcond
    refine ⟨hk.nodup, ?_, fun i i' dfde dfde' fde fde' loaded loaded' => hk.index_eq_iff, ?_,
      fun lsdas _ address sec hbuild i lsda => buildExceptTableRawData_ok hbuild⟩
    · intro i dfde fde hi hf
      have hone := hhas i dfde fde hi hf
      exact ⟨hone.has_iff.trans (hasLSDA_iff hcies dfde), hone.own⟩
    · intro lsdas hlsdas i p hp
      have hdata : data ≠ [] := by
        rcases hcond with hdata | hnone
        · exact hdata
        · obtain ⟨fde, hmem, hfde⟩ := hk.used (List.ne_nil_of_mem (List.mem_of_getElem? hp))
          obtain ⟨j, hj⟩ := List.mem_iff_getElem?.mp hmem
          obtain ⟨hlt, -⟩ := List.getElem?_eq_some_iff.mp hj
          have hd : object.fdes[j]? = some object.fdes[j] := List.getElem?_eq_getElem (hlen ▸ hlt)
          have hlsda := (hasLSDA_iff hcies _).mp ((hhas j _ fde hd hj).has_iff.mp hfde)
          exact absurd hlsda (hnone _ (List.mem_of_getElem? hd))
      refine parseExceptFrame_get ?_ hdata hp
      unfold readExceptTable at hread
      rw [htable] at hread
      rw [hlsdas] at hread
      cases hEH : object.isEHFrame with
      | false =>
        rw [hEH] at hread
        cases hread
      | true =>
        rw [hEH] at hread
        obtain ⟨parsed, hparsed, hread⟩ := bind_eq_ok.mp hread
        cases hread
        exact hparsed

end Linked

def sharedObject : FrameObject where
  isPO := false
  isEHFrame := true
  ehAddress := 0x1000
  ehFrameHdr := none
  exceptTable := some (0x400000, [0xff, 0xff, 0x01, 0x00])
  cies := [⟨1, ['z', 'L'], 1, -8, 16, [], 0, [0x03], 0⟩]
  fdes := [
    ⟨0, [], 0, 0x2000, 8, [28, 0, 0, 0, 28, 0, 0, 0, 0, 32, 0, 0, 8, 0, 0, 0, 4, 0, 0, 64, 0], 24, [0, 0, 64, 0]⟩,
    ⟨0, [], 0, 0x2008, 8, [28, 0, 0, 0, 60, 0, 0, 0, 8, 32, 0, 0, 8, 0, 0, 0, 4, 0, 0, 64, 0], 56, [0, 0, 64, 0]⟩]

theorem lsdaLinked_sharedObject : ∃ contents, readDebugFrame .elf64 sharedObject [] = .ok contents ∧
    contents.frame.lsdaPointers = [0x400000] ∧ contents.frame.fdes.map (·.lsdaIdx) = [0, 0] ∧
      LsdaLinked .elf64 sharedObject 0x400000 [0xff, 0xff, 0x01, 0x00] contents := by
  have hread : (readDebugFrame .elf64 sharedObject []).map
      (fun c => (c.frame.lsdaPointers, c.frame.fdes.map (·.lsdaIdx))) = .ok ([0x400000], [0, 0]) := by
    decide +kernel
  cases h : readDebugFrame .elf64 sharedObject [] with
  | error e =>
    rw [h] at hread
    cases hread
  | ok contents =>
    rw [h] at hread
    obtain ⟨hpointers, hindices⟩ := Prod.mk.inj (Except.ok.inj hread)
    exact ⟨contents, rfl, hpointers, hindices, (lsdaLinked_iff h rfl).mpr (.inl (by decide))⟩

def emptyTableObject : FrameObject where
  isPO := false
  isEHFrame := true
  ehAddress := 0x1000
  ehFrameHdr := none
  exceptTable := some (0x400000, [])
  cies := [⟨1, ['z', 'L'], 1, -8, 16, [], 0, [0x03], 0⟩]
  fdes := [⟨0, [], 0, 0x2000, 8, [28, 0, 0, 0, 28, 0, 0, 0, 0, 32, 0, 0, 8, 0, 0, 0, 4, 0, 0, 64, 0], 24, [0, 0, 64, 0]⟩]

theorem emptyTableObject_read : ∃ contents, readDebugFrame .elf64 emptyTableObject [] = .ok contents ∧
    contents.frame.lsdaPointers = [0x400000] ∧ contents.exceptTable = some [] := by
  have hread : (readDebugFrame .elf64 emptyTableObject []).map (fun c => (c.frame.lsdaPointers, c.exceptTable)) =
      .ok ([0x400000], some []) := by
    decide +kernel
  cases h : readDebugFrame .elf64 emptyTableObject [] with
  | error e =>
    rw [h] at hread
    cases hread
  | ok contents =>
    rw [h] at hread
    obtain ⟨hpointers, htable⟩ := Prod.mk.inj (Except.ok.inj hread)
    exact ⟨contents, rfl, hpointers, htable⟩

/-- Its index leads nowhere in the table. -/
theorem not_lsdaLinked : ¬ ∀ (config : ElfBitwidth) (object : FrameObject) (stateStack : List (Dictionary PoRegRule))
    (contents : FrameContents) (sectionAddress : UInt64) (data : List UInt8),
    readDebugFrame config object stateStack = .ok contents → object.exceptTable = some (sectionAddress, data) →
    LsdaLinked config object sectionAddress data contents := by
  intro h
  obtain ⟨contents, hread, hpointers, htable⟩ := emptyTableObject_read
  obtain ⟨lsda, hget, -⟩ := (h _ _ _ _ _ _ hread rfl).parsed [] htable 0 0x400000 (by rw [hpointers]; rfl)
  cases hget

end Katana

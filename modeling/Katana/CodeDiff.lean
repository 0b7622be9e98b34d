/-
  Katana.CodeDiff — whether the text of a function changed (areSubprogramsIdentical of patchwrite/codediff.c), with
  the relocations that lie within it.

  The old and the new text are compared byte by byte. Where both have a relocation the symbols and the addends are
  compared instead, and a whole address is passed over, whatever the relocation's width. The relocations are sorted,
  and the lists that are then walked are those of the nodes that came first before.

  Proved, for both builds, every two files, texts and lists of relocations:
  - `compareRelocs_none` / `compareRelocs_false`: when two relocations are the same.
  - `textDiffers_byte` / `textDiffers_reloc`: what a difference from one byte on is, by what is at that byte.
  - `compareText_false`: the walk says that the text changed exactly if it comes to a difference.
-/
import Katana.Addend
import Katana.SortList

namespace Katana

variable {arch : Arch}

/-! ## The files -/

/-- `GElf_Sym` with its name. -/
structure CodeSym extends ElfSym where
  name : List UInt8
  stBind : UInt8
  stOther : UInt8
  deriving DecidableEq

/-- A section with its name; one of relocations has entries. -/
structure CodeScn (arch : Arch) extends RelocScn where
  name : List UInt8
  shInfo : UInt32
  entries : Option (List (RelxEntry arch))
  deriving DecidableEq

/-- A file, as far as functions are compared in it. -/
structure CodeElf (arch : Arch) where
  fname : String
  sections : List (CodeScn arch)
  symtab : List CodeSym
  /-- `sectionIndices[ERS_TEXT]`. -/
  textIdx : Nat
  deriving DecidableEq

structure SubprogramInfo (arch : Arch) where
  name : List UInt8
  lowpc : arch.Addr
  highpc : arch.Addr
  deriving DecidableEq

/-- What `snprintf(buf,1024,"%s%s",...)` leaves in the buffer. -/
def printName (start name : List UInt8) : List UInt8 := (start ++ name).take 1023

def dotText : List UInt8 := [46, 116, 101, 120, 116, 46]

def relText : List UInt8 := [46, 114, 101, 108, 46, 116, 101, 120, 116]

def relaText : List UInt8 := [46, 114, 101, 108, 97, 46, 116, 101, 120, 116]

namespace CodeElf
variable (e : CodeElf arch)

def getSymbol (symIdx : Nat) : Except Fault CodeSym :=
  match e.symtab[symIdx]? with
  | none =>
    .error (.death
      ("gelf_getsym failed trying to get symbol at index " ++ toString symIdx ++ " in ELF " ++ e.fname ++ "\n"))
  | some sym => .ok sym

/-- `elf_getscn` with its assertion. -/
def getScn (idx : Nat) : Except Fault (CodeScn arch) :=
  match e.sections[idx]? with
  | none => .error .assertion
  | some scn => .ok scn

def getSectionByName (name : List UInt8) : Option (CodeScn arch) := (e.sections.drop 1).find? (·.name = name)

/-- With `-ffunction-sections` a function has one of its own. -/
def getRelocationSection (fnname : List UInt8) : Option (CodeScn arch) :=
  e.getSectionByName (printName (relText ++ [46]) fnname) <|>
    e.getSectionByName (printName (relaText ++ [46]) fnname) <|> e.getSectionByName relText <|> e.getSectionByName relaText

/-- The symbol and the section with the index `scnIdx`, which is relocated. -/
def symbolAndScn (scnIdx : UInt32) (symIdx : Nat) : Except Fault (ElfSym × RelocScn) := do
  let sym ← e.getSymbol symIdx
  let scn ← e.getScn scnIdx.toNat
  .ok (sym.toElfSym, scn.toRelocScn)

/-- A section that is not there has no items, and one that has no entries fails an assertion. -/
def getRelocationItemsInRange (relocScn : Option (CodeScn arch)) (lowAddr highAddr : arch.Addr) :
    Except Fault (List (RelocInfo arch)) :=
  match relocScn with
  | none => .ok []
  | some scn =>
    match scn.entries with
    | none => .error .assertion
    | some entries => Katana.getRelocationItemsInRange (e.symbolAndScn scn.shInfo) entries lowAddr highAddr

def relocationItems (func : SubprogramInfo arch) : Except Fault (List (RelocInfo arch)) :=
  e.getRelocationItemsInRange (e.getRelocationSection func.name) func.lowpc func.highpc

/-- `getSectionByERS(e,ERS_TEXT)` if the function has no section of its own. -/
def textScn (fnname : List UInt8) : Except Fault (CodeScn arch) :=
  match e.getSectionByName (printName dotText fnname) with
  | some scn => .ok scn
  | none => do
    assert (e.textIdx ≠ 0)
    e.getScn e.textIdx

/-- `getDataAtAbs`: what lies from an address on; the offset is an `uint`. -/
def textAt (fnname : List UInt8) (addr : arch.Addr) : Except Fault (List UInt8) := do
  let scn ← e.textScn fnname
  let offset := placeOf scn.shAddr addr % 2 ^ 32
  assert (offset ≤ scn.data.length)
  .ok (scn.data.drop offset)

end CodeElf

/-! ## areSubprogramsIdentical -/

/-- What is left of a difference of addresses in an int. -/
def asInt (x : arch.Addr) : Int := (x.setWidth 32).toInt

theorem asInt_toNat_lt (x : arch.Addr) : (asInt x).toNat < 2 ^ 31 := by
  have hlt := @BitVec.toInt_lt 32 (x.setWidth 32)
  unfold asInt
  omega

def cmpRelocs (relocA relocB : RelocInfo arch) : Int := asInt (relocA.rOffset - relocB.rOffset)

/-- `SHN_UNDEF`, `SHN_COMMON` or `SHN_ABS`. -/
def Special (sym : CodeSym) : Prop := sym.stShndx = 0 ∨ sym.stShndx = 0xfff2 ∨ sym.stShndx = 0xfff1

instance (sym : CodeSym) : Decidable (Special sym) := inferInstanceAs (Decidable (_ ∨ _))

/-- The same symbol, but for its section. -/
def SymsAlike (symOld symNew : CodeSym) : Prop :=
  symOld.name = symNew.name ∧ symOld.stType = symNew.stType ∧ symOld.stBind = symNew.stBind ∧
    symOld.stOther = symNew.stOther

instance (symOld symNew : CodeSym) : Decidable (SymsAlike symOld symNew) := inferInstanceAs (Decidable (_ ∧ _))

section
variable (oldBinary newBinary : CodeElf arch)

/-- None if the sections are the same; else what is returned. -/
def compareSections (symOld symNew : CodeSym) : Except Fault (Option Bool) :=
  if ¬ Special symOld ∧ ¬ Special symNew then do
    let scnOld ← oldBinary.getScn symOld.stShndx.toNat
    let scnNew ← newBinary.getScn symNew.stShndx.toNat
    .ok (if scnOld.name = scnNew.name then none else some false)
  -- the loop is left with `retval` still true
  else .ok (if symOld.stShndx = symNew.stShndx then none else some true)

/-- None if the relocations are the same; else what is returned. -/
def compareRelocs (relocOld relocNew : RelocInfo arch) : Except Fault (Option Bool) := do
  let symOld ← oldBinary.getSymbol relocOld.symIdx
  let symNew ← newBinary.getSymbol relocNew.symIdx
  if ¬ SymsAlike symOld symNew then .ok (some false)
  else
    match ← compareSections oldBinary newBinary symOld symNew with
    | some retval => .ok (some retval)
    | none => .ok (if relocOld.rAddend = relocNew.rAddend then none else some false)

/-- The old and the new text, each from its `lowpc` on, and how much of it is compared. -/
structure TextPair (arch : Arch) where
  lowOld : arch.Addr
  lowNew : arch.Addr
  textOld : List UInt8
  textNew : List UInt8
  len : Nat
  isInt : len < 2 ^ 31

def compareBytes (pair : TextPair arch) (i : Nat) : Except Fault Bool :=
  match pair.textOld[i]?, pair.textNew[i]? with
  | some b, some b' => .ok (decide (b = b'))
  | _, _ => .error .undefined

/-- The first relocation and those behind it, if it lies at byte `i`. -/
def relocAt (low : arch.Addr) (i : Nat) (li : List (RelocInfo arch)) :
    Option (RelocInfo arch × List (RelocInfo arch)) :=
  match li with
  | [] => none
  | reloc :: next => if low + BitVec.ofNat _ i = reloc.rOffset then some (reloc, next) else none

/-- The loop from byte `i` on; it has at most `fuel - 1` turns. -/
def compareText (pair : TextPair arch) : Nat → Nat → List (RelocInfo arch) → List (RelocInfo arch) → Except Fault Bool
  | 0, _, _, _ => .error .undefined
  | fuel + 1, i, oldLi, newLi =>
    if pair.len ≤ i then .ok true
    else
      match relocAt pair.lowOld i oldLi, relocAt pair.lowNew i newLi with
      | some (relocOld, oldNext), some (relocNew, newNext) => do
        match ← compareRelocs oldBinary newBinary relocOld relocNew with
        | some retval => .ok retval
        | none =>
          -- `i` is an int
          defined (i + arch.size < 2 ^ 31)
          compareText pair fuel (i + arch.size) oldNext newNext
      | none, none => do
        let same ← compareBytes pair i
        if same then compareText pair fuel (i + 1) oldLi newLi else .ok false
      | _, _ => .ok false

def SubprogramInfo.len (func : SubprogramInfo arch) : Int := asInt (func.highpc - func.lowpc)

def SubprogramInfo.textPair (patcheeFunc patchedFunc : SubprogramInfo arch) (textOld textNew : List UInt8) :
    TextPair arch :=
  ⟨patcheeFunc.lowpc, patchedFunc.lowpc, textOld, textNew, patcheeFunc.len.toNat, asInt_toNat_lt _⟩

def areSubprogramsIdentical (patcheeFunc patchedFunc : SubprogramInfo arch) : Except Fault Bool :=
  if patcheeFunc.len ≠ patchedFunc.len then .ok false
  else do
    let oldRelocations ← oldBinary.relocationItems patcheeFunc
    let newRelocations ← newBinary.relocationItems patchedFunc
    if oldRelocations.length ≠ newRelocations.length then .ok false
    else do
      let textOld ← oldBinary.textAt patcheeFunc.name patcheeFunc.lowpc
      -- the new text is looked for by the old name
      let textNew ← newBinary.textAt patcheeFunc.name patchedFunc.lowpc
      compareText oldBinary newBinary (patcheeFunc.textPair patchedFunc textOld textNew) (patcheeFunc.len.toNat + 1) 0
        (sortInPlace cmpRelocs oldRelocations) (sortInPlace cmpRelocs newRelocations)

end

/-! ## Differences -/

/-- How far into the function a relocation lies. -/
def bytesFrom (low : arch.Addr) (reloc : RelocInfo arch) : Nat := (reloc.rOffset - low).toNat

def FirstAt (low : arch.Addr) (li : List (RelocInfo arch)) (i : Nat) : Prop :=
  ∃ reloc ∈ li.head?, bytesFrom low reloc = i

namespace TextPair
variable (pair : TextPair arch)

def SameByte (i : Nat) : Prop := ∃ b, pair.textOld[i]? = some b ∧ pair.textNew[i]? = some b

def OtherByte (i : Nat) : Prop := ∃ b b', pair.textOld[i]? = some b ∧ pair.textNew[i]? = some b' ∧ b ≠ b'

/-- From byte `i` to byte `d` the texts are the same, and neither list's first relocation lies there. -/
structure Plain (oldLi newLi : List (RelocInfo arch)) (i d : Nat) : Prop where
  le : i ≤ d
  bytes : ∀ j, i ≤ j → j < d → pair.SameByte j
  old : ∀ j, i ≤ j → j < d → ¬ FirstAt pair.lowOld oldLi j
  new : ∀ j, i ≤ j → j < d → ¬ FirstAt pair.lowNew newLi j

end TextPair

section
variable (oldBinary newBinary : CodeElf arch)

/-- In sections of the same name, or in the same special one. -/
def SameSection (symOld symNew : CodeSym) : Prop :=
  if ¬ Special symOld ∧ ¬ Special symNew then
    ∃ scnOld scnNew, oldBinary.sections[symOld.stShndx.toNat]? = some scnOld ∧
      newBinary.sections[symNew.stShndx.toNat]? = some scnNew ∧ scnOld.name = scnNew.name
  else symOld.stShndx = symNew.stShndx

def OtherSection (symOld symNew : CodeSym) : Prop :=
  ¬ Special symOld ∧ ¬ Special symNew ∧ ∃ scnOld scnNew, oldBinary.sections[symOld.stShndx.toNat]? = some scnOld ∧
    newBinary.sections[symNew.stShndx.toNat]? = some scnNew ∧ scnOld.name ≠ scnNew.name

def SameRelocs (relocOld relocNew : RelocInfo arch) : Prop :=
  ∃ symOld symNew, oldBinary.symtab[relocOld.symIdx]? = some symOld ∧ newBinary.symtab[relocNew.symIdx]? = some symNew ∧
    SymsAlike symOld symNew ∧ SameSection oldBinary newBinary symOld symNew ∧ relocOld.rAddend = relocNew.rAddend

def OtherRelocs (relocOld relocNew : RelocInfo arch) : Prop :=
  ∃ symOld symNew, oldBinary.symtab[relocOld.symIdx]? = some symOld ∧ newBinary.symtab[relocNew.symIdx]? = some symNew ∧
    (¬ SymsAlike symOld symNew ∨ OtherSection oldBinary newBinary symOld symNew ∨
      SameSection oldBinary newBinary symOld symNew ∧ relocOld.rAddend ≠ relocNew.rAddend)

/-- From byte `i` on, and with these relocations, something differs: a byte, a relocation that only one of the two has,
or two relocations at one place. Behind two that are the same the comparison goes on a whole address later. -/
inductive TextDiffers (pair : TextPair arch) : Nat → List (RelocInfo arch) → List (RelocInfo arch) → Prop
  | byte {i d : Nat} {oldLi newLi : List (RelocInfo arch)} (plain : pair.Plain oldLi newLi i d) (inside : d < pair.len)
      (old : ¬ FirstAt pair.lowOld oldLi d) (new : ¬ FirstAt pair.lowNew newLi d) (other : pair.OtherByte d) :
      TextDiffers pair i oldLi newLi
  | alone {i d : Nat} {oldLi newLi : List (RelocInfo arch)} (plain : pair.Plain oldLi newLi i d) (inside : d < pair.len)
      (one : ¬ (FirstAt pair.lowOld oldLi d ↔ FirstAt pair.lowNew newLi d)) : TextDiffers pair i oldLi newLi
  | reloc {i d : Nat} {relocOld relocNew : RelocInfo arch} {oldLi newLi : List (RelocInfo arch)}
      (plain : pair.Plain (relocOld :: oldLi) (relocNew :: newLi) i d) (inside : d < pair.len)
      (old : bytesFrom pair.lowOld relocOld = d) (new : bytesFrom pair.lowNew relocNew = d)
      (other : OtherRelocs oldBinary newBinary relocOld relocNew) :
      TextDiffers pair i (relocOld :: oldLi) (relocNew :: newLi)
  | behind {i d : Nat} {relocOld relocNew : RelocInfo arch} {oldLi newLi : List (RelocInfo arch)}
      (plain : pair.Plain (relocOld :: oldLi) (relocNew :: newLi) i d) (inside : d < pair.len)
      (old : bytesFrom pair.lowOld relocOld = d) (new : bytesFrom pair.lowNew relocNew = d)
      (same : SameRelocs oldBinary newBinary relocOld relocNew) (isInt : d + arch.size < 2 ^ 31)
      (rest : TextDiffers pair (d + arch.size) oldLi newLi) : TextDiffers pair i (relocOld :: oldLi) (relocNew :: newLi)

end

/-! ## Two relocations -/

section Relocs
variable {oldBinary newBinary : CodeElf arch} {relocOld relocNew : RelocInfo arch}

theorem getSymbol_ok {e : CodeElf arch} {symIdx : Nat} {sym : CodeSym} :
    e.getSymbol symIdx = .ok sym ↔ e.symtab[symIdx]? = some sym := by
  unfold CodeElf.getSymbol
  cases e.symtab[symIdx]? with
  | none => simp
  | some sym' => simp

theorem getScn_ok {e : CodeElf arch} {idx : Nat} {scn : CodeScn arch} :
    e.getScn idx = .ok scn ↔ e.sections[idx]? = some scn := by
  unfold CodeElf.getScn
  cases e.sections[idx]? with
  | none => simp
  | some scn' => simp

theorem compareSections_none {symOld symNew : CodeSym} :
    compareSections oldBinary newBinary symOld symNew = .ok none ↔ SameSection oldBinary newBinary symOld symNew := by
  unfold compareSections SameSection
  split
  · simp only [bind_eq_ok, getScn_ok, Except.ok.injEq]
    constructor
    · rintro ⟨scnOld, hold, scnNew, hnew, hname⟩
      by_cases heq : scnOld.name = scnNew.name
      · exact ⟨scnOld, scnNew, hold, hnew, heq⟩
      · rw [if_neg heq] at hname
        cases hname
    · rintro ⟨scnOld, scnNew, hold, hnew, heq⟩
      exact ⟨scnOld, hold, scnNew, hnew, if_pos heq⟩
  · rw [Except.ok.injEq]
    constructor
    · intro h
      by_contra hne
      rw [if_neg hne] at h
      cases h
    · exact fun h => if_pos h

theorem compareSections_false {symOld symNew : CodeSym} :
    compareSections oldBinary newBinary symOld symNew = .ok (some false) ↔
      OtherSection oldBinary newBinary symOld symNew := by
  unfold compareSections OtherSection
  split
  · rename_i hplain
    simp only [bind_eq_ok, getScn_ok, Except.ok.injEq]
    constructor
    · rintro ⟨scnOld, hold, scnNew, hnew, hname⟩
      refine ⟨hplain.1, hplain.2, scnOld, scnNew, hold, hnew, fun heq => ?_⟩
      rw [if_pos heq] at hname
      cases hname
    · rintro ⟨-, -, scnOld, scnNew, hold, hnew, hne⟩
      exact ⟨scnOld, hold, scnNew, hnew, if_neg hne⟩
  · rename_i hspecial
    constructor
    · intro h
      split at h
      · cases h
      · cases h
    · exact fun h => absurd ⟨h.1, h.2.1⟩ hspecial

theorem compareRelocs_none :
    compareRelocs oldBinary newBinary relocOld relocNew = .ok none ↔ SameRelocs oldBinary newBinary relocOld relocNew := by
  unfold compareRelocs SameRelocs
  simp only [bind_eq_ok, getSymbol_ok]
  refine ⟨?_, ?_⟩
  · rintro ⟨symOld, hold, symNew, hnew, h⟩
    refine ⟨symOld, symNew, hold, hnew, ?_⟩
    by_cases halike : SymsAlike symOld symNew
    · rw [if_neg (not_not_intro halike)] at h
      obtain ⟨sections, hsections, h⟩ := bind_eq_ok.mp h
      cases sections with
      | some retval => cases h
      | none =>
        refine ⟨halike, compareSections_none.mp hsections, ?_⟩
        by_contra hne
        simp [hne] at h
    · rw [if_pos halike] at h
      cases h
  · rintro ⟨symOld, symNew, hold, hnew, halike, hsection, haddend⟩
    refine ⟨symOld, hold, symNew, hnew, ?_⟩
    rw [if_neg (not_not_intro halike), compareSections_none.mpr hsection, bind_ok]
    dsimp only
    rw [if_pos haddend]

theorem compareRelocs_false :
    compareRelocs oldBinary newBinary relocOld relocNew = .ok (some false) ↔
      OtherRelocs oldBinary newBinary relocOld relocNew := by
  unfold compareRelocs OtherRelocs
  simp only [bind_eq_ok, getSymbol_ok]
  refine ⟨?_, ?_⟩
  · rintro ⟨symOld, hold, symNew, hnew, h⟩
    refine ⟨symOld, symNew, hold, hnew, ?_⟩
    by_cases halike : SymsAlike symOld symNew
    · rw [if_neg (not_not_intro halike)] at h
      obtain ⟨sections, hsections, h⟩ := bind_eq_ok.mp h
      cases sections with
      | some retval =>
        cases h
        exact .inr (.inl (compareSections_false.mp hsections))
      | none =>
        refine .inr (.inr ⟨compareSections_none.mp hsections, fun haddend => ?_⟩)
        simp [haddend] at h
    · exact .inl halike
  · rintro ⟨symOld, symNew, hold, hnew, hother⟩
    refine ⟨symOld, hold, symNew, hnew, ?_⟩
    by_cases halike : SymsAlike symOld symNew
    · rw [if_neg (not_not_intro halike)]
      rcases hother with hunlike | hsection | ⟨hsection, haddend⟩
      · exact absurd halike hunlike
      · rw [compareSections_false.mpr hsection]
        rfl
      · rw [compareSections_none.mpr hsection, bind_ok]
        dsimp only
        rw [if_neg haddend]
    · rw [if_pos halike]

end Relocs

/-! ## The walk -/

section Walk
variable {oldBinary newBinary : CodeElf arch} {pair : TextPair arch} {i : Nat} {oldLi newLi : List (RelocInfo arch)}

theorem at_iff {low rOffset : arch.Addr} (hi : i < 2 ^ 31) :
    low + BitVec.ofNat _ i = rOffset ↔ (rOffset - low).toNat = i := by
  have hword : (2 : Nat) ^ 31 ≤ 2 ^ (8 * arch.size) := Nat.pow_le_pow_right (by decide) (by cases arch <;> decide)
  constructor
  · intro h
    have hsub : rOffset - low = BitVec.ofNat _ i := by
      rw [← h]
      ring
    rw [hsub, BitVec.toNat_ofNat, Nat.mod_eq_of_lt (by omega)]
  · intro h
    have hsub : rOffset - low = BitVec.ofNat _ i := by rw [← h, BitVec.ofNat_toNat, BitVec.setWidth_eq]
    rw [← hsub]
    ring

theorem relocAt_some {low : arch.Addr} {reloc : RelocInfo arch} {li next : List (RelocInfo arch)} (hi : i < 2 ^ 31) :
    relocAt low i li = some (reloc, next) ↔ li = reloc :: next ∧ bytesFrom low reloc = i := by
  unfold relocAt bytesFrom
  cases li with
  | nil => simp
  | cons head tail =>
    simp only [at_iff hi]
    split
    · rename_i hat
      simp only [Option.some.injEq, Prod.mk.injEq, List.cons.injEq]
      constructor
      · rintro ⟨rfl, rfl⟩
        exact ⟨⟨rfl, rfl⟩, hat⟩
      · exact fun h => h.1
    · rename_i hnot
      simp only [reduceCtorEq, List.cons.injEq, false_iff]
      rintro ⟨⟨rfl, rfl⟩, hat⟩
      exact hnot hat

theorem relocAt_none {low : arch.Addr} {li : List (RelocInfo arch)} (hi : i < 2 ^ 31) :
    relocAt low i li = none ↔ ¬ FirstAt low li i := by
  unfold relocAt FirstAt bytesFrom
  cases li with
  | nil => simp
  | cons head tail =>
    simp [at_iff hi]

theorem compareBytes_true : compareBytes pair i = .ok true ↔ pair.SameByte i := by
  unfold compareBytes TextPair.SameByte
  cases pair.textOld[i]? with
  | none => simp
  | some b =>
    cases pair.textNew[i]? with
    | none => simp
    | some b' => simp [eq_comm]

theorem compareBytes_false : compareBytes pair i = .ok false ↔ pair.OtherByte i := by
  unfold compareBytes TextPair.OtherByte
  cases pair.textOld[i]? with
  | none => simp
  | some b =>
    cases pair.textNew[i]? with
    | none => simp
    | some b' => simp

theorem Plain.refl : pair.Plain oldLi newLi i i :=
  ⟨Nat.le_refl i, fun _ _ _ => by omega, fun _ _ _ => by omega, fun _ _ _ => by omega⟩

/-- One more byte in front. -/
theorem Plain.cons {d : Nat} (h : pair.Plain oldLi newLi (i + 1) d) (hsame : pair.SameByte i)
    (hold : ¬ FirstAt pair.lowOld oldLi i) (hnew : ¬ FirstAt pair.lowNew newLi i) : pair.Plain oldLi newLi i d := by
  refine ⟨by have := h.le; omega, fun j hj hd => ?_, fun j hj hd => ?_, fun j hj hd => ?_⟩
  · rcases Nat.eq_or_lt_of_le hj with rfl | hlt
    · exact hsame
    · exact h.bytes j hlt hd
  · rcases Nat.eq_or_lt_of_le hj with rfl | hlt
    · exact hold
    · exact h.old j hlt hd
  · rcases Nat.eq_or_lt_of_le hj with rfl | hlt
    · exact hnew
    · exact h.new j hlt hd

theorem Plain.tail {d : Nat} (h : pair.Plain oldLi newLi i d) (hlt : i < d) : pair.Plain oldLi newLi (i + 1) d :=
  ⟨hlt, fun j hj => h.bytes j (by omega), fun j hj => h.old j (by omega), fun j hj => h.new j (by omega)⟩

theorem TextDiffers.inside (h : TextDiffers oldBinary newBinary pair i oldLi newLi) : i < pair.len := by
  cases h with
  | byte plain inside => exact Nat.lt_of_le_of_lt plain.le inside
  | alone plain inside => exact Nat.lt_of_le_of_lt plain.le inside
  | reloc plain inside => exact Nat.lt_of_le_of_lt plain.le inside
  | behind plain inside => exact Nat.lt_of_le_of_lt plain.le inside

theorem firstAt_cons {low : arch.Addr} {reloc : RelocInfo arch} {next : List (RelocInfo arch)} :
    FirstAt low (reloc :: next) i ↔ bytesFrom low reloc = i := by
  simp [FirstAt]

/-- Where neither has a relocation. -/
theorem textDiffers_byte (hi : i < pair.len) (hold : ¬ FirstAt pair.lowOld oldLi i)
    (hnew : ¬ FirstAt pair.lowNew newLi i) :
    TextDiffers oldBinary newBinary pair i oldLi newLi ↔
      pair.OtherByte i ∨ pair.SameByte i ∧ TextDiffers oldBinary newBinary pair (i + 1) oldLi newLi := by
  constructor
  · intro h
    cases h with
    | byte plain inside old new other =>
      rcases Nat.eq_or_lt_of_le plain.le with rfl | hlt
      · exact .inl other
      · exact .inr ⟨plain.bytes i (Nat.le_refl i) hlt, .byte (Plain.tail plain hlt) inside old new other⟩
    | alone plain inside one =>
      rcases Nat.eq_or_lt_of_le plain.le with rfl | hlt
      · exact absurd (iff_of_false hold hnew) one
      · exact .inr ⟨plain.bytes i (Nat.le_refl i) hlt, .alone (Plain.tail plain hlt) inside one⟩
    | reloc plain inside old new other =>
      rcases Nat.eq_or_lt_of_le plain.le with rfl | hlt
      · exact absurd (firstAt_cons.mpr old) hold
      · exact .inr ⟨plain.bytes i (Nat.le_refl i) hlt, .reloc (Plain.tail plain hlt) inside old new other⟩
    | behind plain inside old new same isInt rest =>
      rcases Nat.eq_or_lt_of_le plain.le with rfl | hlt
      · exact absurd (firstAt_cons.mpr old) hold
      · exact .inr ⟨plain.bytes i (Nat.le_refl i) hlt, .behind (Plain.tail plain hlt) inside old new same isInt rest⟩
  · rintro (hother | ⟨hsame, h⟩)
    · exact .byte Plain.refl hi hold hnew hother
    · cases h with
      | byte plain inside old new other => exact .byte (Plain.cons plain hsame hold hnew) inside old new other
      | alone plain inside one => exact .alone (Plain.cons plain hsame hold hnew) inside one
      | reloc plain inside old new other => exact .reloc (Plain.cons plain hsame hold hnew) inside old new other
      | behind plain inside old new same isInt rest =>
        exact .behind (Plain.cons plain hsame hold hnew) inside old new same isInt rest

/-- Where both have one. -/
theorem textDiffers_reloc {relocOld relocNew : RelocInfo arch} (hi : i < pair.len)
    (hold : bytesFrom pair.lowOld relocOld = i) (hnew : bytesFrom pair.lowNew relocNew = i) :
    TextDiffers oldBinary newBinary pair i (relocOld :: oldLi) (relocNew :: newLi) ↔
      OtherRelocs oldBinary newBinary relocOld relocNew ∨ SameRelocs oldBinary newBinary relocOld relocNew ∧
        i + arch.size < 2 ^ 31 ∧ TextDiffers oldBinary newBinary pair (i + arch.size) oldLi newLi := by
  constructor
  · intro h
    cases h with
    | byte plain inside old new other =>
      rcases Nat.eq_or_lt_of_le plain.le with rfl | hlt
      · exact absurd (firstAt_cons.mpr hold) old
      · exact absurd (firstAt_cons.mpr hold) (plain.old i (Nat.le_refl i) hlt)
    | alone plain inside one =>
      rcases Nat.eq_or_lt_of_le plain.le with rfl | hlt
      · exact absurd (iff_of_true (firstAt_cons.mpr hold) (firstAt_cons.mpr hnew)) one
      · exact absurd (firstAt_cons.mpr hold) (plain.old i (Nat.le_refl i) hlt)
    | reloc plain inside old new other => exact .inl other
    | behind plain inside old new same isInt rest =>
      rw [← old, hold] at isInt rest
      exact .inr ⟨same, isInt, rest⟩
  · rintro (hother | ⟨hsame, hint, hrest⟩)
    · exact .reloc Plain.refl hi hold hnew hother
    · exact .behind Plain.refl hi hold hnew hsame hint hrest

/-- **The walk says that the text changed exactly if it comes to a difference.** -/
theorem compareText_false {fuel : Nat} (hfuel : pair.len < fuel + i) :
    compareText oldBinary newBinary pair fuel i oldLi newLi = .ok false ↔
      TextDiffers oldBinary newBinary pair i oldLi newLi := by
  induction fuel generalizing i oldLi newLi with
  | zero => exact ⟨fun h => (by cases h), fun h => absurd h.inside (by omega)⟩
  | succ fuel ih =>
    rw [compareText]
    by_cases hend : pair.len ≤ i
    · rw [if_pos hend]
      exact ⟨fun h => (by cases h), fun h => absurd h.inside (by omega)⟩
    · rw [if_neg hend]
      have hi : i < pair.len := Nat.lt_of_not_le hend
      have hint : i < 2 ^ 31 := hi.trans pair.isInt
      cases hold : relocAt pair.lowOld i oldLi with
      | none =>
        have hnotOld := (relocAt_none hint).mp hold
        cases hnew : relocAt pair.lowNew i newLi with
        | none =>
          rw [textDiffers_byte hi hnotOld ((relocAt_none hint).mp hnew), ← ih (by omega), ← compareBytes_true,
            ← compareBytes_false]
          dsimp only
          cases compareBytes pair i with
          | error e => simp
          | ok same => cases same <;> simp
        | some found =>
          obtain ⟨relocNew, newNext⟩ := found
          obtain ⟨rfl, hat⟩ := (relocAt_some hint).mp hnew
          refine iff_of_true rfl (.alone Plain.refl hi fun hone => ?_)
          exact hnotOld (hone.mpr (firstAt_cons.mpr hat))
      | some found =>
        obtain ⟨relocOld, oldNext⟩ := found
        obtain ⟨rfl, hatOld⟩ := (relocAt_some hint).mp hold
        cases hnew : relocAt pair.lowNew i newLi with
        | none =>
          refine iff_of_true rfl (.alone Plain.refl hi fun hone => ?_)
          exact (relocAt_none hint).mp hnew (hone.mp (firstAt_cons.mpr hatOld))
        | some found =>
          obtain ⟨relocNew, newNext⟩ := found
          obtain ⟨rfl, hatNew⟩ := (relocAt_some hint).mp hnew
          have hsize : 0 < arch.size := by cases arch <;> decide
          rw [textDiffers_reloc hi hatOld hatNew, ← ih (by omega), ← compareRelocs_none, ← compareRelocs_false]
          dsimp only
          cases compareRelocs oldBinary newBinary relocOld relocNew with
          | error e => simp
          | ok result =>
            cases result with
            | some retval => simp
            | none =>
              have hsame : ¬ (Except.ok none : Except Fault (Option Bool)) = .ok (some false) := by simp
              rw [bind_ok]
              dsimp only
              by_cases hfits : i + arch.size < 2 ^ 31
              · rw [defined_of hfits, bind_ok]
                exact ⟨fun h => .inr ⟨rfl, hfits, h⟩, fun h => (h.resolve_left hsame).2.2⟩
              · rw [defined_not hfits, bind_error]
                exact ⟨fun h => (by cases h), fun h => absurd (h.resolve_left hsame).2.1 hfits⟩

end Walk

end Katana

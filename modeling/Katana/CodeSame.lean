/-
  Katana.CodeSame — what it says about two functions that areSubprogramsIdentical finds them identical.

  Not all of the two functions is compared: not the relocations in front of the one that came first in its section, not
  a relocation within a whole address behind another or at `highpc`, not the bytes of that address behind a narrower
  field, and nothing from two relocations on whose symbols are in different special sections. Lengths are compared as
  ints, and the new text is looked for by the old name.

  Proved, for both builds, every two files and functions:
  - `compareText_true`: the walk finds nothing exactly if nothing differs in what it comes to.
  - `sameFunction_iff`: then the functions are the same exactly if what it does not come to is.
  - `soundVerdict_iff`: when functions found identical are the same.
  - `wholly_sound`: they are where all is compared.
-/
import Katana.CodeOrder
import Katana.Lib.Paired

namespace Katana

variable {arch : Arch}

/-! ## The same functions -/

/-- The byte at `j` belongs to a relocation's field. -/
def Covered (low : arch.Addr) (items : List (RelocInfo arch)) (j : Nat) : Prop :=
  ∃ reloc ∈ items, bytesFrom low reloc ≤ j ∧ j < bytesFrom low reloc + (fieldWidth arch reloc.relocType).getD 0

/-- The relocations in an order of their offsets. -/
structure OffsetOrder (low : arch.Addr) (items li : List (RelocInfo arch)) : Prop where
  perm : li.Perm items
  sorted : li.Pairwise (bytesFrom low · ≤ bytesFrom low ·)

structure Parts (arch : Arch) where
  oldItems : List (RelocInfo arch)
  newItems : List (RelocInfo arch)
  textOld : List UInt8
  textNew : List UInt8
  /-- The text of the new function as it is found by the old name. -/
  lookedAt : List UInt8

/-- The relocations that are walked. -/
def Parts.oldLi (parts : Parts arch) : List (RelocInfo arch) := sortInPlace cmpRelocs parts.oldItems

def Parts.newLi (parts : Parts arch) : List (RelocInfo arch) := sortInPlace cmpRelocs parts.newItems

section
variable (oldBinary newBinary : CodeElf arch) (patcheeFunc patchedFunc : SubprogramInfo arch)

structure PartsOf (parts : Parts arch) : Prop where
  oldItems : oldBinary.relocationItems patcheeFunc = .ok parts.oldItems
  newItems : newBinary.relocationItems patchedFunc = .ok parts.newItems
  textOld : oldBinary.textAt patcheeFunc.name patcheeFunc.lowpc = .ok parts.textOld
  textNew : newBinary.textAt patchedFunc.name patchedFunc.lowpc = .ok parts.textNew
  lookedAt : newBinary.textAt patcheeFunc.name patchedFunc.lowpc = .ok parts.lookedAt

def SamePlace (relocOld relocNew : RelocInfo arch) : Prop :=
  bytesFrom patcheeFunc.lowpc relocOld = bytesFrom patchedFunc.lowpc relocNew ∧
    SameRelocs oldBinary newBinary relocOld relocNew

/-- The functions are as long, and the same but for the fields of relocations, which are the same by themselves. -/
structure SameFunction (parts : Parts arch) : Prop where
  length : patcheeFunc.highpc - patcheeFunc.lowpc = patchedFunc.highpc - patchedFunc.lowpc
  bytes : ∀ j < (patcheeFunc.highpc - patcheeFunc.lowpc).toNat, ¬ Covered patcheeFunc.lowpc parts.oldItems j →
    ¬ Covered patchedFunc.lowpc parts.newItems j → parts.textOld[j]? = parts.textNew[j]?
  relocs : ∃ oldLi newLi, OffsetOrder patcheeFunc.lowpc parts.oldItems oldLi ∧
    OffsetOrder patchedFunc.lowpc parts.newItems newLi ∧
    List.Forall₂ (SamePlace oldBinary newBinary patcheeFunc patchedFunc) oldLi newLi

/-- Functions found identical are the same. -/
def SoundVerdict : Prop :=
  areSubprogramsIdentical oldBinary newBinary patcheeFunc patchedFunc = .ok true →
    ∀ parts, PartsOf oldBinary newBinary patcheeFunc patchedFunc parts →
      SameFunction oldBinary newBinary patcheeFunc patchedFunc parts

/-! ## What is compared -/

/-- They name the same symbol, of which one is in a special section and the other is not in that one. -/
def OtherSpecial (relocOld relocNew : RelocInfo arch) : Prop :=
  ∃ symOld symNew, oldBinary.symtab[relocOld.symIdx]? = some symOld ∧
    newBinary.symtab[relocNew.symIdx]? = some symNew ∧ SymsAlike symOld symNew ∧
    (Special symOld ∨ Special symNew) ∧ symOld.stShndx ≠ symNew.stShndx

/-- From byte `i` on, and with these relocations, nothing differs up to byte `d`, where the comparison ends: all bytes
have been come to, or two relocations whose symbols are in different special sections. With the first `n` relocations a
whole address each was passed over. -/
inductive TextSame (pair : TextPair arch) : Nat → List (RelocInfo arch) → List (RelocInfo arch) → Nat → Nat → Prop
  | ended {i d : Nat} {oldLi newLi : List (RelocInfo arch)} (plain : pair.Plain oldLi newLi i d) (done : pair.len ≤ d) :
      TextSame pair i oldLi newLi d 0
  | special {i d : Nat} {relocOld relocNew : RelocInfo arch} {oldLi newLi : List (RelocInfo arch)}
      (plain : pair.Plain (relocOld :: oldLi) (relocNew :: newLi) i d) (inside : d < pair.len)
      (old : bytesFrom pair.lowOld relocOld = d) (new : bytesFrom pair.lowNew relocNew = d)
      (other : OtherSpecial oldBinary newBinary relocOld relocNew) :
      TextSame pair i (relocOld :: oldLi) (relocNew :: newLi) d 0
  | behind {i d e n : Nat} {relocOld relocNew : RelocInfo arch} {oldLi newLi : List (RelocInfo arch)}
      (plain : pair.Plain (relocOld :: oldLi) (relocNew :: newLi) i d) (inside : d < pair.len)
      (old : bytesFrom pair.lowOld relocOld = d) (new : bytesFrom pair.lowNew relocNew = d)
      (same : SameRelocs oldBinary newBinary relocOld relocNew) (isInt : d + arch.size < 2 ^ 31)
      (rest : TextSame pair (d + arch.size) oldLi newLi e n) :
      TextSame pair i (relocOld :: oldLi) (relocNew :: newLi) e (n + 1)

def Passed (low : arch.Addr) (li : List (RelocInfo arch)) (j : Nat) : Prop :=
  ∃ reloc ∈ li, bytesFrom low reloc ≤ j ∧ j < bytesFrom low reloc + arch.size

/-- What is not compared is the same too: the lengths beyond an int; from where the comparison ended on, within a whole
address, and in a text found by another name, the bytes but for fields; and the other relocations. -/
structure UnseenSame (parts : Parts arch) (d n : Nat) : Prop where
  length : patcheeFunc.highpc - patcheeFunc.lowpc = patchedFunc.highpc - patchedFunc.lowpc
  bytes : ∀ j < (patcheeFunc.highpc - patcheeFunc.lowpc).toNat, ¬ Covered patcheeFunc.lowpc parts.oldItems j →
    ¬ Covered patchedFunc.lowpc parts.newItems j →
    d ≤ j ∨ Passed patcheeFunc.lowpc (parts.oldLi.take n) j ∨ parts.lookedAt ≠ parts.textNew →
    parts.textOld[j]? = parts.textNew[j]?
  relocs : Lib.Paired (SamePlace oldBinary newBinary patcheeFunc patchedFunc) (parts.oldItems.diff (parts.oldLi.take n))
    (parts.newItems.diff (parts.newLi.take n))

/-- All is compared, as the old function's relocations lie: within it and a whole address apart, with the first of them
first in its section. -/
structure WhollyCompared (parts : Parts arch) : Prop where
  name : patchedFunc.name = patcheeFunc.name
  oldLen : (patcheeFunc.highpc - patcheeFunc.lowpc).toNat < 2 ^ 31
  newLen : (patchedFunc.highpc - patchedFunc.lowpc).toNat < 2 ^ 31
  first : ∀ x ∈ parts.oldItems.head?, ∀ y ∈ parts.oldItems,
    bytesFrom patcheeFunc.lowpc x ≤ bytesFrom patcheeFunc.lowpc y
  apart : parts.oldItems.Pairwise fun x y =>
    bytesFrom patcheeFunc.lowpc x + arch.size ≤ bytesFrom patcheeFunc.lowpc y ∨
      bytesFrom patcheeFunc.lowpc y + arch.size ≤ bytesFrom patcheeFunc.lowpc x
  inside : ∀ x ∈ parts.oldItems, bytesFrom patcheeFunc.lowpc x < (patcheeFunc.highpc - patcheeFunc.lowpc).toNat
  special : ∀ x ∈ parts.oldItems, ∀ y ∈ parts.newItems, ¬ OtherSpecial oldBinary newBinary x y
  behind : ∀ j < (patcheeFunc.highpc - patcheeFunc.lowpc).toNat, ¬ Covered patcheeFunc.lowpc parts.oldItems j →
    ¬ Covered patchedFunc.lowpc parts.newItems j → Passed patcheeFunc.lowpc parts.oldItems j →
    parts.textOld[j]? = parts.textNew[j]?

/-- Where nothing differs in what is compared, what is not compared is the same too. -/
def UnseenFits : Prop :=
  patcheeFunc.len = patchedFunc.len → ∀ parts, PartsOf oldBinary newBinary patcheeFunc patchedFunc parts →
    parts.oldItems.length = parts.newItems.length → ∀ d n,
    TextSame oldBinary newBinary (patcheeFunc.textPair patchedFunc parts.textOld parts.lookedAt) 0 parts.oldLi parts.newLi
      d n → UnseenSame oldBinary newBinary patcheeFunc patchedFunc parts d n

end

/-! ## A walk to the end -/

section Walk
variable {oldBinary newBinary : CodeElf arch} {pair : TextPair arch} {i d n : Nat} {oldLi newLi : List (RelocInfo arch)}
  {relocOld relocNew : RelocInfo arch}

theorem compareRelocs_true :
    compareRelocs oldBinary newBinary relocOld relocNew = .ok (some true) ↔
      OtherSpecial oldBinary newBinary relocOld relocNew := by
  unfold compareRelocs OtherSpecial
  simp only [bind_eq_ok, getSymbol_ok]
  constructor
  · rintro ⟨symOld, hold, symNew, hnew, h⟩
    by_cases halike : SymsAlike symOld symNew
    · rw [if_neg (not_not_intro halike)] at h
      obtain ⟨sections, hsections, h⟩ := bind_eq_ok.mp h
      cases sections with
      | none =>
        dsimp only at h
        split at h
        · cases h
        · cases h
      | some retval =>
        cases h
        unfold compareSections at hsections
        split at hsections
        · simp only [bind_eq_ok] at hsections
          obtain ⟨scnOld, -, scnNew, -, hsections⟩ := hsections
          split at hsections
          · cases hsections
          · cases hsections
        · rename_i hspecial
          refine ⟨symOld, symNew, hold, hnew, halike, or_iff_not_and_not.mpr hspecial, fun hsame => ?_⟩
          rw [if_pos hsame] at hsections
          cases hsections
    · rw [if_pos halike] at h
      cases h
  · rintro ⟨symOld, symNew, hold, hnew, halike, hspecial, hother⟩
    refine ⟨symOld, hold, symNew, hnew, ?_⟩
    unfold compareSections
    rw [if_neg (not_not_intro halike), if_neg (or_iff_not_and_not.mp hspecial), if_neg hother]
    rfl

/-- Where neither has a relocation. -/
theorem textSame_byte (hi : i < pair.len) (hold : ¬ FirstAt pair.lowOld oldLi i)
    (hnew : ¬ FirstAt pair.lowNew newLi i) :
    TextSame oldBinary newBinary pair i oldLi newLi d n ↔
      pair.SameByte i ∧ TextSame oldBinary newBinary pair (i + 1) oldLi newLi d n := by
  constructor
  · intro h
    cases h with
    | ended plain done =>
      have hlt : i < d := Nat.lt_of_lt_of_le hi done
      exact ⟨plain.bytes i (Nat.le_refl i) hlt, .ended (Plain.tail plain hlt) done⟩
    | special plain inside old new other =>
      rcases Nat.eq_or_lt_of_le plain.le with rfl | hlt
      · exact absurd (firstAt_cons.mpr old) hold
      · exact ⟨plain.bytes i (Nat.le_refl i) hlt, .special (Plain.tail plain hlt) inside old new other⟩
    | behind plain inside old new same isInt rest =>
      rcases Nat.eq_or_lt_of_le plain.le with rfl | hlt
      · exact absurd (firstAt_cons.mpr old) hold
      · exact ⟨plain.bytes i (Nat.le_refl i) hlt, .behind (Plain.tail plain hlt) inside old new same isInt rest⟩
  · rintro ⟨hsame, h⟩
    cases h with
    | ended plain done => exact .ended (Plain.cons plain hsame hold hnew) done
    | special plain inside old new other => exact .special (Plain.cons plain hsame hold hnew) inside old new other
    | behind plain inside old new same isInt rest =>
      exact .behind (Plain.cons plain hsame hold hnew) inside old new same isInt rest

/-- Where both have one. -/
theorem textSame_reloc (hi : i < pair.len) (hold : bytesFrom pair.lowOld relocOld = i)
    (hnew : bytesFrom pair.lowNew relocNew = i) :
    (∃ d n, TextSame oldBinary newBinary pair i (relocOld :: oldLi) (relocNew :: newLi) d n) ↔
      OtherSpecial oldBinary newBinary relocOld relocNew ∨ SameRelocs oldBinary newBinary relocOld relocNew ∧
        i + arch.size < 2 ^ 31 ∧ ∃ d n, TextSame oldBinary newBinary pair (i + arch.size) oldLi newLi d n := by
  constructor
  · rintro ⟨d, n, h⟩
    cases h with
    | ended plain done => exact absurd (firstAt_cons.mpr hold) (plain.old i (Nat.le_refl i) (Nat.lt_of_lt_of_le hi done))
    | special plain inside old new other => exact .inl other
    | behind plain inside old new same isInt rest =>
      rw [← old, hold] at isInt rest
      exact .inr ⟨same, isInt, _, _, rest⟩
  · rintro (hother | ⟨hsame, hint, d, n, hrest⟩)
    · exact ⟨i, 0, .special Plain.refl hi hold hnew hother⟩
    · exact ⟨d, n + 1, .behind Plain.refl hi hold hnew hsame hint hrest⟩

/-- Only one of the two has a relocation there. -/
theorem not_textSame_alone (hi : i < pair.len) (hone : ¬ (FirstAt pair.lowOld oldLi i ↔ FirstAt pair.lowNew newLi i)) :
    ¬ TextSame oldBinary newBinary pair i oldLi newLi d n := by
  have hplain {d : Nat} (plain : pair.Plain oldLi newLi i d) (hlt : i < d) : False :=
    hone (iff_of_false (plain.old i (Nat.le_refl i) hlt) (plain.new i (Nat.le_refl i) hlt))
  intro h
  cases h with
  | ended plain done => exact hplain plain (Nat.lt_of_lt_of_le hi done)
  | special plain inside old new other =>
    rcases Nat.eq_or_lt_of_le plain.le with rfl | hlt
    · exact hone (iff_of_true (firstAt_cons.mpr old) (firstAt_cons.mpr new))
    · exact hplain plain hlt
  | behind plain inside old new same isInt rest =>
    rcases Nat.eq_or_lt_of_le plain.le with rfl | hlt
    · exact hone (iff_of_true (firstAt_cons.mpr old) (firstAt_cons.mpr new))
    · exact hplain plain hlt

/-- **The walk says that the text is the same exactly if nothing differs** in what it comes to. -/
theorem compareText_true {fuel : Nat} (hfuel : pair.len < fuel + i) (hpos : 0 < fuel) :
    compareText oldBinary newBinary pair fuel i oldLi newLi = .ok true ↔
      ∃ d n, TextSame oldBinary newBinary pair i oldLi newLi d n := by
  induction fuel generalizing i oldLi newLi with
  | zero => exact absurd hpos (Nat.lt_irrefl 0)
  | succ fuel ih =>
    rw [compareText]
    by_cases hend : pair.len ≤ i
    · rw [if_pos hend]
      exact iff_of_true rfl ⟨i, 0, .ended Plain.refl hend⟩
    · rw [if_neg hend]
      have hi : i < pair.len := Nat.lt_of_not_le hend
      have hint : i < 2 ^ 31 := hi.trans pair.isInt
      cases hold : relocAt pair.lowOld i oldLi with
      | none =>
        have hnotOld := (relocAt_none hint).mp hold
        cases hnew : relocAt pair.lowNew i newLi with
        | none =>
          simp only [textSame_byte hi hnotOld ((relocAt_none hint).mp hnew), exists_and_left]
          rw [← ih (by omega) (by omega), ← compareBytes_true]
          cases compareBytes pair i with
          | error e => simp
          | ok same => cases same <;> simp
        | some found =>
          obtain ⟨relocNew, newNext⟩ := found
          obtain ⟨rfl, hat⟩ := (relocAt_some hint).mp hnew
          refine iff_of_false (fun h => by cases h) ?_
          rintro ⟨d, n, h⟩
          refine not_textSame_alone hi (fun hone => ?_) h
          exact hnotOld (hone.mpr (firstAt_cons.mpr hat))
      | some found =>
        obtain ⟨relocOld, oldNext⟩ := found
        obtain ⟨rfl, hatOld⟩ := (relocAt_some hint).mp hold
        cases hnew : relocAt pair.lowNew i newLi with
        | none =>
          refine iff_of_false (fun h => by cases h) ?_
          rintro ⟨d, n, h⟩
          refine not_textSame_alone hi (fun hone => ?_) h
          exact (relocAt_none hint).mp hnew (hone.mp (firstAt_cons.mpr hatOld))
        | some found =>
          obtain ⟨relocNew, newNext⟩ := found
          obtain ⟨rfl, hatNew⟩ := (relocAt_some hint).mp hnew
          have hsize : 0 < arch.size := by cases arch <;> decide
          rw [textSame_reloc hi hatOld hatNew, ← ih (by omega) (by omega), ← compareRelocs_none, ← compareRelocs_true]
          dsimp only
          cases compareRelocs oldBinary newBinary relocOld relocNew with
          | error e => simp
          | ok result =>
            cases result with
            | some retval => simp
            | none =>
              have hgoes : ¬ (Except.ok none : Except Fault (Option Bool)) = .ok (some true) := by simp
              rw [bind_ok]
              dsimp only
              by_cases hfits : i + arch.size < 2 ^ 31
              · rw [defined_of hfits, bind_ok]
                exact ⟨fun h => .inr ⟨rfl, hfits, h⟩, fun h => (h.resolve_left hgoes).2.2⟩
              · rw [defined_not hfits, bind_error]
                exact ⟨fun h => (by cases h), fun h => absurd (h.resolve_left hgoes).2.1 hfits⟩

end Walk

/-! ## What is the same by itself -/

section Same
variable {oldBinary newBinary : CodeElf arch} {patcheeFunc patchedFunc : SubprogramInfo arch}
  {symOld symNew symOld' symNew' : CodeSym}

theorem SameSection.special_iff (h : SameSection oldBinary newBinary symOld symNew) : Special symOld ↔ Special symNew := by
  unfold SameSection at h
  split at h
  · rename_i hplain
    exact iff_of_false hplain.1 hplain.2
  · unfold Special
    rw [h]

theorem sameSection_special (hspecial : Special symOld) :
    SameSection oldBinary newBinary symOld symNew ↔ symOld.stShndx = symNew.stShndx := by
  unfold SameSection
  rw [if_neg fun h => h.1 hspecial]

theorem sameSection_plain (hold : ¬ Special symOld) (hnew : ¬ Special symNew) :
    SameSection oldBinary newBinary symOld symNew ↔
      ∃ scnOld scnNew, oldBinary.sections[symOld.stShndx.toNat]? = some scnOld ∧
        newBinary.sections[symNew.stShndx.toNat]? = some scnNew ∧ scnOld.name = scnNew.name := by
  unfold SameSection
  rw [if_pos ⟨hold, hnew⟩]

/-- Who is in the same section as one is in the same sections as that one's. -/
theorem SameSection.through (h : SameSection oldBinary newBinary symOld symNew)
    (hback : SameSection oldBinary newBinary symOld' symNew) (h' : SameSection oldBinary newBinary symOld' symNew') :
    SameSection oldBinary newBinary symOld symNew' := by
  by_cases hspecial : Special symOld
  · have hspecial' : Special symOld' := hback.special_iff.mpr (h.special_iff.mp hspecial)
    rw [sameSection_special hspecial] at h ⊢
    rw [sameSection_special hspecial'] at hback h'
    rw [h, ← hback, h']
  · have hnew : ¬ Special symNew := fun hnew => hspecial (h.special_iff.mpr hnew)
    have hold' : ¬ Special symOld' := fun hold' => hnew (hback.special_iff.mp hold')
    have hnew' : ¬ Special symNew' := fun hnew' => hold' (h'.special_iff.mpr hnew')
    obtain ⟨scnOld, scnNew, hscnOld, hscnNew, hname⟩ := (sameSection_plain hspecial hnew).mp h
    obtain ⟨scnOld', _, hscnOld', hget, hback⟩ := (sameSection_plain hold' hnew).mp hback
    obtain ⟨_, scnNew', hget', hscnNew', hname'⟩ := (sameSection_plain hold' hnew').mp h'
    cases hscnNew.symm.trans hget
    cases hscnOld'.symm.trans hget'
    have hnames : scnOld.name = scnNew'.name := hname.trans (hback.symm.trans hname')
    exact (sameSection_plain hspecial hnew').mpr ⟨scnOld, scnNew', hscnOld, hscnNew', hnames⟩

theorem SameRelocs.through {x x' y y' : RelocInfo arch} (h : SameRelocs oldBinary newBinary x y)
    (hback : SameRelocs oldBinary newBinary x' y) (h' : SameRelocs oldBinary newBinary x' y') :
    SameRelocs oldBinary newBinary x y' := by
  obtain ⟨symOld, symNew, hold, hnew, ⟨hname, htype, hbind, hother⟩, hsection, haddend⟩ := h
  obtain ⟨symOld', _, hold', hget, ⟨hnameBack, htypeBack, hbindBack, hotherBack⟩, hsectionBack, haddendBack⟩ := hback
  obtain ⟨_, symNew', hget', hnew', ⟨hname', htype', hbind', hother'⟩, hsection', haddend'⟩ := h'
  cases hnew.symm.trans hget
  cases hold'.symm.trans hget'
  refine ⟨symOld, symNew', hold, hnew', ⟨?_, ?_, ?_, ?_⟩, hsection.through hsectionBack hsection', ?_⟩
  · rw [hname, ← hnameBack, hname']
  · rw [htype, ← htypeBack, htype']
  · rw [hbind, ← hbindBack, hbind']
  · rw [hother, ← hotherBack, hother']
  · rw [haddend, ← haddendBack, haddend']

theorem samePlace_difunctional : Lib.Difunctional (SamePlace oldBinary newBinary patcheeFunc patchedFunc) := by
  intro x x' y y' h hback h'
  exact ⟨h.1.trans (hback.1.symm.trans h'.1), h.2.through hback.2 h'.2⟩

theorem TextSame.bytes {pair : TextPair arch} {i d n : Nat} {oldLi newLi : List (RelocInfo arch)}
    (h : TextSame oldBinary newBinary pair i oldLi newLi d n) {j : Nat} (hi : i ≤ j) (hd : j < d)
    (hpassed : ¬ Passed pair.lowOld (oldLi.take n) j) : pair.SameByte j := by
  induction h with
  | ended plain done => exact plain.bytes j hi hd
  | special plain inside old new other => exact plain.bytes j hi hd
  | @behind i d e n relocOld relocNew oldLi newLi plain inside old new same isInt rest ih =>
    by_cases hless : j < d
    · exact plain.bytes j hi hless
    · have hbehind : d + arch.size ≤ j := by
        by_contra hnot
        exact hpassed ⟨relocOld, by simp, by omega, by omega⟩
      refine ih hbehind hd ?_
      rintro ⟨reloc, hreloc, hcover⟩
      refine hpassed ⟨reloc, ?_, hcover⟩
      rw [List.take_succ_cons]
      exact .tail _ hreloc

theorem TextSame.relocs {textOld textNew : List UInt8} {i d n : Nat} {oldLi newLi : List (RelocInfo arch)}
    (h : TextSame oldBinary newBinary (patcheeFunc.textPair patchedFunc textOld textNew) i oldLi newLi d n) :
    List.Forall₂ (SamePlace oldBinary newBinary patcheeFunc patchedFunc) (oldLi.take n) (newLi.take n) := by
  induction h with
  | ended plain done => exact .nil
  | special plain inside old new other => exact .nil
  | behind plain inside old new same isInt rest ih =>
    rw [List.take_succ_cons, List.take_succ_cons]
    exact .cons ⟨old.trans new.symm, same⟩ ih

/-- The relocations are the first ones of those walked and the others. -/
theorem walked_append_diff (items : List (RelocInfo arch)) (n : Nat) :
    ((sortInPlace cmpRelocs items).take n ++ items.diff ((sortInPlace cmpRelocs items).take n)).Perm items := by
  refine List.subperm_append_diff_self_of_count_le fun x _ => ?_
  exact List.Subperm.count_le ((List.take_sublist n _).subperm.trans sortInPlace_subperm) x

theorem diff_walked_nil {items : List (RelocInfo arch)} {n : Nat}
    (hall : ((sortInPlace cmpRelocs items).take n).length = items.length) :
    items.diff ((sortInPlace cmpRelocs items).take n) = [] := by
  have hlength := (walked_append_diff items n).length_eq
  rw [List.length_append] at hlength
  exact List.length_eq_zero_iff.mp (by omega)

/-- **Where nothing differs in what is compared** the functions are the same exactly if what is not compared is. -/
theorem sameFunction_iff {parts : Parts arch} {d n : Nat}
    (hwalk : TextSame oldBinary newBinary (patcheeFunc.textPair patchedFunc parts.textOld parts.lookedAt) 0 parts.oldLi
      parts.newLi d n) :
    SameFunction oldBinary newBinary patcheeFunc patchedFunc parts ↔
      UnseenSame oldBinary newBinary patcheeFunc patchedFunc parts d n := by
  have hrelocs : Lib.Paired (SamePlace oldBinary newBinary patcheeFunc patchedFunc) parts.oldItems parts.newItems ↔
      Lib.Paired (SamePlace oldBinary newBinary patcheeFunc patchedFunc) (parts.oldItems.diff (parts.oldLi.take n))
        (parts.newItems.diff (parts.newLi.take n)) := by
    have hold := walked_append_diff parts.oldItems n
    have hnew := walked_append_diff parts.newItems n
    refine Iff.trans ?_ (Lib.paired_append samePlace_difunctional hwalk.relocs)
    exact ⟨fun h => h.perm hold hnew.symm, fun h => h.perm hold.symm hnew⟩
  have hsorted := @Lib.paired_iff_sorted _ _ (SamePlace oldBinary newBinary patcheeFunc patchedFunc)
    (bytesFrom patcheeFunc.lowpc) (bytesFrom patchedFunc.lowpc) (fun _ _ h => h.1) parts.oldItems parts.newItems
  constructor
  · intro h
    refine ⟨h.length, fun j hj hold hnew _ => h.bytes j hj hold hnew, hrelocs.mp (hsorted.mpr ?_)⟩
    obtain ⟨oldLi, newLi, hold, hnew, hforall⟩ := h.relocs
    exact ⟨oldLi, newLi, hold.perm, hold.sorted, hnew.perm, hnew.sorted, hforall⟩
  · intro h
    refine ⟨h.length, fun j hj hold hnew => ?_, ?_⟩
    · by_cases hunseen : d ≤ j ∨ Passed patcheeFunc.lowpc (parts.oldLi.take n) j ∨ parts.lookedAt ≠ parts.textNew
      · exact h.bytes j hj hold hnew hunseen
      · simp only [not_or, not_le, not_not] at hunseen
        obtain ⟨hd, hpassed, hlooked⟩ := hunseen
        obtain ⟨b, hbyteOld, hbyteNew⟩ := hwalk.bytes (Nat.zero_le j) hd hpassed
        rw [← hlooked]
        exact hbyteOld.trans hbyteNew.symm
    · obtain ⟨oldLi, newLi, holdPerm, holdSorted, hnewPerm, hnewSorted, hforall⟩ := hsorted.mp (hrelocs.mpr h.relocs)
      exact ⟨oldLi, newLi, ⟨holdPerm, holdSorted⟩, ⟨hnewPerm, hnewSorted⟩, hforall⟩

end Same

/-! ## The verdict -/

section Verdict
variable {oldBinary newBinary : CodeElf arch} {patcheeFunc patchedFunc : SubprogramInfo arch}

/-- When two functions are found identical. -/
theorem verdict_true {parts : Parts arch} (hparts : PartsOf oldBinary newBinary patcheeFunc patchedFunc parts) :
    areSubprogramsIdentical oldBinary newBinary patcheeFunc patchedFunc = .ok true ↔
      patcheeFunc.len = patchedFunc.len ∧ parts.oldItems.length = parts.newItems.length ∧ ∃ d n,
        TextSame oldBinary newBinary (patcheeFunc.textPair patchedFunc parts.textOld parts.lookedAt) 0 parts.oldLi
          parts.newLi d n := by
  unfold areSubprogramsIdentical
  by_cases hlen : patcheeFunc.len = patchedFunc.len
  · rw [if_neg (not_not_intro hlen), hparts.oldItems, hparts.newItems, bind_ok, bind_ok]
    by_cases hcount : parts.oldItems.length = parts.newItems.length
    · rw [if_neg (not_not_intro hcount), hparts.textOld, hparts.lookedAt, bind_ok, bind_ok]
      have hfuel : (patcheeFunc.textPair patchedFunc parts.textOld parts.lookedAt).len < patcheeFunc.len.toNat + 1 + 0 :=
        Nat.lt_succ_self _
      rw [compareText_true hfuel (Nat.succ_pos _)]
      exact ⟨fun h => ⟨hlen, hcount, h⟩, fun h => h.2.2⟩
    · rw [if_pos hcount]
      exact iff_of_false (fun h => by cases h) fun h => hcount h.2.1
  · rw [if_pos hlen]
    exact iff_of_false (fun h => by cases h) fun h => hlen h.1

/-- **Functions found identical are the same exactly if**, where nothing differs in what is compared, what is not compared
is the same too. -/
theorem soundVerdict_iff (oldBinary newBinary : CodeElf arch) (patcheeFunc patchedFunc : SubprogramInfo arch) :
    SoundVerdict oldBinary newBinary patcheeFunc patchedFunc ↔
      UnseenFits oldBinary newBinary patcheeFunc patchedFunc := by
  constructor
  · intro hsound hlen parts hparts hcount d n hwalk
    have hverdict := (verdict_true hparts).mpr ⟨hlen, hcount, d, n, hwalk⟩
    exact (sameFunction_iff hwalk).mp (hsound hverdict parts hparts)
  · intro hfits hverdict parts hparts
    obtain ⟨hlen, hcount, d, n, hwalk⟩ := (verdict_true hparts).mp hverdict
    exact (sameFunction_iff hwalk).mpr (hfits hlen parts hparts hcount d n hwalk)

/-- A call of `g`, and behind its field an immediate in the text. -/
def callAndAdd (immediate : UInt8) : CodeElf .x86_64 :=
  sixteenBytes ([232, 0, 0, 0, 0, 131, 192, immediate, 195] ++ List.replicate 7 144) [⟨1, 1, 2, some (-4)⟩]

/-- The immediate that is added is not looked at: it lies in the eight bytes that are passed over with the call's four. -/
theorem not_soundVerdict :
    ¬ ∀ (oldBinary newBinary : CodeElf .x86_64) (patcheeFunc patchedFunc : SubprogramInfo .x86_64),
      SoundVerdict oldBinary newBinary patcheeFunc patchedFunc := by
  intro h
  have hverdict : areSubprogramsIdentical (callAndAdd 1) (callAndAdd 2) sixteen sixteen = .ok true := by decide
  let text (immediate : UInt8) : List UInt8 := [232, 0, 0, 0, 0, 131, 192, immediate, 195] ++ List.replicate 7 144
  let items : List (RelocInfo .x86_64) := [⟨1, 1, 2, -4⟩]
  have hparts : PartsOf (callAndAdd 1) (callAndAdd 2) sixteen sixteen ⟨items, items, text 1, text 2, text 2⟩ :=
    ⟨rfl, rfl, rfl, rfl, rfl⟩
  have hcovered : ¬ @Covered .x86_64 0 items 7 := by
    rintro ⟨reloc, hreloc, -, hlt⟩
    rw [List.mem_singleton.mp hreloc] at hlt
    exact absurd hlt (by decide)
  have hbyte := (h _ _ sixteen sixteen hverdict _ hparts).bytes 7 (by decide) hcovered hcovered
  exact absurd hbyte (by decide)

/-! ## All compared -/

theorem asInt_of_lt {x : arch.Addr} (h : x.toNat < 2 ^ 31) : asInt x = x.toNat := by
  unfold asInt
  rw [BitVec.toInt_eq_toNat_cond, BitVec.toNat_setWidth]
  omega

/-- The walk is over all relocations, if the first of them is first in its section. -/
theorem sortInPlace_whole {low : arch.Addr} {items : List (RelocInfo arch)}
    (hshort : ∀ x ∈ items, bytesFrom low x < 2 ^ 31)
    (hfirst : ∀ x ∈ items.head?, ∀ y ∈ items, bytesFrom low x ≤ bytesFrom low y)
    (hapart : items.Pairwise fun x y =>
      bytesFrom low x + arch.size ≤ bytesFrom low y ∨ bytesFrom low y + arch.size ≤ bytesFrom low x) :
    (sortInPlace cmpRelocs items).Perm items ∧
      (sortInPlace cmpRelocs items).Pairwise fun x y => bytesFrom low x + arch.size ≤ bytesFrom low y := by
  have hsize : 0 < arch.size := by cases arch <;> decide
  obtain ⟨values, hperm, hsorted⟩ := Lib.exists_sorted (bytesFrom low) items
  have heq : sortInPlace cmpRelocs items = values := by
    cases items with
    | nil => rw [hperm.eq_nil]; rfl
    | cons x rest =>
      have hnodup : ((x :: rest).map (bytesFrom low)).Nodup := List.pairwise_map.mpr (hapart.imp fun h => by omega)
      rw [sortInPlace_eq (cmpRelocs_orders hshort) hnodup hperm hsorted, List.filter_eq_self]
      exact fun y hy => decide_eq_true (hfirst x rfl y (hperm.subset hy))
  rw [heq]
  refine ⟨hperm, ?_⟩
  have hapart' := (hperm.pairwise_iff fun h => h.symm).mpr hapart
  exact (hsorted.and hapart').imp fun h => by omega

theorem TextSame.whole {pair : TextPair arch} {i d n : Nat} {oldLi newLi : List (RelocInfo arch)}
    (h : TextSame oldBinary newBinary pair i oldLi newLi d n) (hi : ∀ x ∈ oldLi, i ≤ bytesFrom pair.lowOld x)
    (hapart : oldLi.Pairwise fun x y => bytesFrom pair.lowOld x + arch.size ≤ bytesFrom pair.lowOld y)
    (hinside : ∀ x ∈ oldLi, bytesFrom pair.lowOld x < pair.len)
    (hspecial : ∀ x ∈ oldLi, ∀ y ∈ newLi, ¬ OtherSpecial oldBinary newBinary x y) :
    pair.len ≤ d ∧ n = oldLi.length := by
  induction h with
  | @ended i d oldLi newLi plain done =>
    cases oldLi with
    | nil => exact ⟨done, rfl⟩
    | cons x rest =>
      have hlt := Nat.lt_of_lt_of_le (hinside x List.mem_cons_self) done
      exact absurd (firstAt_cons.mpr rfl) (plain.old _ (hi x List.mem_cons_self) hlt)
  | special plain inside old new other => exact absurd other (hspecial _ List.mem_cons_self _ List.mem_cons_self)
  | behind plain inside old new same isInt rest ih =>
    obtain ⟨hhead, hrest⟩ := List.pairwise_cons.mp hapart
    rw [old] at hhead
    obtain ⟨hdone, hcount⟩ := ih hhead hrest (fun x hx => hinside x (.tail _ hx))
      fun x hx y hy => hspecial x (.tail _ hx) y (.tail _ hy)
    exact ⟨hdone, by rw [hcount, List.length_cons]⟩

/-- **Where all is compared** functions found identical are the same. -/
theorem wholly_sound (hwhole : ∀ parts, PartsOf oldBinary newBinary patcheeFunc patchedFunc parts →
    WhollyCompared oldBinary newBinary patcheeFunc patchedFunc parts) :
    SoundVerdict oldBinary newBinary patcheeFunc patchedFunc := by
  refine (soundVerdict_iff oldBinary newBinary patcheeFunc patchedFunc).mpr fun hlen parts hparts hcount d n hwalk => ?_
  have h := hwhole parts hparts
  have hlenOld : patcheeFunc.len = (patcheeFunc.highpc - patcheeFunc.lowpc).toNat := asInt_of_lt h.oldLen
  have hlenNew : patchedFunc.len = (patchedFunc.highpc - patchedFunc.lowpc).toNat := asInt_of_lt h.newLen
  have hpairLen : (patcheeFunc.textPair patchedFunc parts.textOld parts.lookedAt).len =
      (patcheeFunc.highpc - patcheeFunc.lowpc).toNat := by
    have htoNat := congrArg Int.toNat hlenOld
    rwa [Int.toNat_natCast] at htoNat
  obtain ⟨hperm, hapart⟩ := sortInPlace_whole (fun x hx => (h.inside x hx).trans h.oldLen) h.first h.apart
  obtain ⟨hdone, hn⟩ := hwalk.whole (fun _ _ => Nat.zero_le _) hapart
    (fun x hx => hpairLen ▸ h.inside x (hperm.subset hx))
    fun x hx y hy => h.special x (hperm.subset hx) y (sortInPlace_subset hy)
  have hall : parts.oldLi.take n = parts.oldLi := by rw [hn, List.take_length]
  refine ⟨?_, fun j hj hold hnew hunseen => ?_, ?_⟩
  · rw [hlenOld, hlenNew, Int.natCast_inj] at hlen
    exact BitVec.eq_of_toNat_eq hlen
  · rcases hunseen with hd | ⟨x, hx, hcover⟩ | hlooked
    · omega
    · rw [hall] at hx
      exact h.behind j hj hold hnew ⟨x, hperm.subset hx, hcover⟩
    · have hsame := hparts.lookedAt
      rw [← h.name, hparts.textNew] at hsame
      exact absurd (Except.ok.inj hsame).symm hlooked
  · have htakeOld : (parts.oldLi.take n).length = parts.oldItems.length := by
      rw [hall]
      exact hperm.length_eq
    have htakeNew : (parts.newLi.take n).length = parts.newItems.length := by
      rw [← hwalk.relocs.length_eq, htakeOld, hcount]
    have holdNil : parts.oldItems.diff (parts.oldLi.take n) = [] := diff_walked_nil htakeOld
    have hnewNil : parts.newItems.diff (parts.newLi.take n) = [] := diff_walked_nil htakeNew
    rw [holdNil, hnewNil]
    exact Lib.paired_nil

end Verdict

end Katana

/-
  Katana.Addend — the addend of a relocation that has none of its own (computeAddend and
  getRelocationItemsInRange of relocation.c, getWordAtAbs of elfutil.c), and what applying it writes back.

  The word at the place is taken for symbol value and addend together. For one that is relative to the
  program counter a word's size is added, so that the addend counts from the end of the instruction;
  applyRelocation counts from the place.

  Proved, for both builds, every section, symbol table, PLT and list of relocations:
  - `computeAddend_ok`: the addend that is computed.
  - `extracted`: what getRelocationItemsInRange returns.
  - `writesBack_iff`: applying what was extracted writes the same words back exactly if, at each place, the
    symbol's part and the word's size cancel out.
-/
import Katana.Relocation
import Mathlib.Data.BitVec
import Mathlib.Tactic.Ring

namespace Katana

open Lib

section
variable {arch : Arch}

/-! ## computeAddend -/

def wordIn (arch : Arch) (data : List UInt8) (offset : Nat) : arch.Addr :=
  BitVec.ofNat _ (leNat ((data.drop offset).take arch.size))

/-- `offset` is an `uint`; a word is read that only starts inside the data. -/
def getWordAtAbs (scn : RelocScn) (addr : arch.Addr) : Except Fault arch.Addr := do
  let offset := placeOf scn.shAddr addr % 2 ^ 32
  assert (offset ≤ scn.data.length)
  defined (offset + arch.size ≤ scn.data.length)
  .ok (wordIn arch scn.data offset)

def Common (sym : ElfSym) : Prop := sym.stShndx = 0xfff2

instance (sym : ElfSym) : Decidable (Common sym) := inferInstanceAs (Decidable (_ = _))

/-- `symVal`: the value of a common symbol is an alignment. -/
def symVal (arch : Arch) (sym : ElfSym) : arch.Addr := if Common sym then 0 else arch.addr sym.stValue

/-- `R_386_COPY`, `R_386_GLOB_DAT` and `R_386_JMP_SLOT` have no addend, and for them the symbol and the section are not
looked up. -/
def computeAddend (lookup : Except Fault (ElfSym × RelocScn)) (type : UInt8) (rOffset : arch.Addr) : Except Fault arch.Addr :=
  if type = 5 ∨ type = 6 ∨ type = 7 then .ok 0
  else do
    let (sym, scn) ← lookup
    let addrAccessed ← getWordAtAbs scn rOffset
    if type = 1 then .ok (addrAccessed - symVal arch sym)
    else if type = 2 then
      let computation := addrAccessed - symVal arch sym + rOffset + BitVec.ofNat _ arch.size
      if symVal arch sym = 0 ∧ computation = rOffset then .ok (-BitVec.ofNat _ arch.size)
      else .ok computation
    else .error (.death "unhandled relocation type in computeAddend\n")

/-- An entry of a relocation section; one of `SHT_REL` has no addend. -/
structure RelxEntry (arch : Arch) where
  rOffset : arch.Addr
  symIdx : Nat
  relocType : UInt8
  rAddend : Option arch.Addr
  deriving DecidableEq

def RelxEntry.Within (entry : RelxEntry arch) (lowAddr highAddr : arch.Addr) : Prop :=
  ¬ (entry.rOffset < lowAddr ∨ highAddr < entry.rOffset)

instance (entry : RelxEntry arch) (lowAddr highAddr : arch.Addr) : Decidable (entry.Within lowAddr highAddr) :=
  inferInstanceAs (Decidable (¬ _))

/-- `r_addend` of an entry, by the type of its section. -/
def addendOf (lookup : Nat → Except Fault (ElfSym × RelocScn)) (entry : RelxEntry arch) : Except Fault arch.Addr :=
  match entry.rAddend with
  | some addend => .ok addend
  | none => computeAddend (lookup entry.symIdx) entry.relocType entry.rOffset

/-- A turn of the loop, for an entry in the range. -/
def relocOf (lookup : Nat → Except Fault (ElfSym × RelocScn)) (entry : RelxEntry arch) : Except Fault (RelocInfo arch) := do
  let addend ← addendOf lookup entry
  .ok ⟨entry.rOffset, entry.symIdx, entry.relocType, addend⟩

/-- `lookup` is that of a symbol, by its index, and of the section that is relocated. -/
def getRelocationItemsInRange (lookup : Nat → Except Fault (ElfSym × RelocScn)) (entries : List (RelxEntry arch))
    (lowAddr highAddr : arch.Addr) : Except Fault (List (RelocInfo arch)) :=
  (entries.filter fun entry => entry.Within lowAddr highAddr).mapM (relocOf lookup)

/-! ## Writing back -/

/-- The entry is one of `R_386_32` or `R_386_PC32` without an addend, with the word at its place inside the data. -/
structure RelWord (scn : RelocScn) (entry : RelxEntry arch) : Prop where
  rel : entry.rAddend = none
  type : entry.relocType = 1 ∨ entry.relocType = 2
  fits : placeOf scn.shAddr entry.rOffset + arch.size ≤ scn.data.length

variable {H : Type}

/-- The relocations in the range are extracted, and applying any of them leaves the data as they were. -/
def WritesBack (malloc : H → UInt64 → UInt64 × H) (getSymbol : Nat → ElfSym) (plt : Nat → Option arch.Addr) (scn : RelocScn)
    (entries : List (RelxEntry arch)) (lowAddr highAddr : arch.Addr) (t : Target H) : Prop :=
  ∃ items, getRelocationItemsInRange (fun symIdx => .ok (getSymbol symIdx, scn)) entries lowAddr highAddr = .ok items ∧
    ∀ item ∈ items, applyRelocation (mappedProcess malloc) item (getSymbol item.symIdx) (plt item.symIdx) scn t .onDisk =
      .ok (scn.data, t)

def low32 (x : arch.Addr) : BitVec 32 := x.setWidth 32

/-- The value that a common symbol has after all. -/
def commonVal (arch : Arch) (sym : ElfSym) : arch.Addr := if Common sym then arch.addr sym.stValue else 0

/-- The word at the place and the one that is read for it, which is another one from 4 GiB on. From the PLT, its entry is
the word that is there. An absolute word is kept if the symbol is not common or has no value. One relative to the program
counter is kept only where the word's size is made up for: by the value of a common symbol, or at a place of that address
where the word is the size negated and the symbol has no value. -/
def AddendFits (sym : ElfSym) (plt : Option arch.Addr) (scn : RelocScn) (entry : RelxEntry arch) : Prop :=
  let word := wordIn arch scn.data (placeOf scn.shAddr entry.rOffset)
  let seen := wordIn arch scn.data (placeOf scn.shAddr entry.rOffset % 2 ^ 32)
  let size := BitVec.ofNat (8 * arch.size) arch.size
  if FromPLT sym then
    ∃ address, plt = some address ∧
      if entry.relocType = 1 then address = word else low32 (address - entry.rOffset - 4) = low32 word
  else if entry.relocType = 1 then commonVal arch sym + seen = word
  else if symVal arch sym = 0 ∧ seen = -size then low32 (commonVal arch sym - size - entry.rOffset) = low32 word
  else low32 (commonVal arch sym + seen + size) = low32 word

/-! ## The words -/

theorem wordIn_toNat (data : List UInt8) (offset : Nat) :
    (wordIn arch data offset).toNat = leNat ((data.drop offset).take arch.size) := by
  unfold wordIn
  rw [BitVec.toNat_ofNat, Nat.mod_eq_of_lt]
  have hlt := leNat_lt ((data.drop offset).take arch.size)
  have hle : ((data.drop offset).take arch.size).length ≤ arch.size := List.length_take_le _ _
  calc leNat ((data.drop offset).take arch.size) < 256 ^ ((data.drop offset).take arch.size).length := hlt
    _ ≤ 256 ^ arch.size := Nat.pow_le_pow_right (by decide) hle
    _ = 2 ^ (8 * arch.size) := by rw [Nat.pow_mul]

/-- What is written over itself. -/
theorem replacedBytes_self {place : Nat} {field data : List UInt8} :
    replacedBytes place field data = data ↔ (data.drop place).take field.length = field := by
  unfold replacedBytes
  have hsplit : data.take place ++ (data.drop place).take field.length ++ data.drop (place + field.length) = data := by
    rw [List.append_assoc, ← List.drop_drop, List.take_append_drop, List.take_append_drop]
  constructor
  · intro heq
    exact (List.append_cancel_left (List.append_cancel_right (heq.trans hsplit.symm))).symm
  · intro hfield
    rw [hfield] at hsplit
    exact hsplit

theorem leNat_storedBytes (value : arch.Addr) {n : Nat} (hn : n ≤ arch.size) :
    leNat (storedBytes value n) = value.toNat % 256 ^ n := by
  unfold storedBytes
  rw [take_toLE hn, leNat_toLE]

theorem low32_iff (x y : arch.Addr) : low32 x = low32 y ↔ x.toNat % 256 ^ 4 = y.toNat % 256 ^ 4 := by
  have hpow : 256 ^ 4 = 2 ^ 32 := by decide
  unfold low32
  rw [← BitVec.toNat_inj, BitVec.toNat_setWidth, BitVec.toNat_setWidth, hpow]

theorem whole_iff (x y : arch.Addr) : x = y ↔ x.toNat % 256 ^ arch.size = y.toNat % 256 ^ arch.size := by
  have hpow : 256 ^ arch.size = 2 ^ (8 * arch.size) := by rw [Nat.pow_mul]
  rw [hpow, Nat.mod_eq_of_lt x.isLt, Nat.mod_eq_of_lt y.isLt, BitVec.toNat_inj]

/-- A value is stored over the word that is there exactly if the two agree in its bytes. -/
theorem stored_back {data : List UInt8} {place n : Nat} (hfit : place + arch.size ≤ data.length)
    (hn : n = 4 ∨ n = arch.size) (value : arch.Addr) :
    StorageType.dataWith .onDisk place (storedBytes value n) data = data ↔
      value.toNat % 256 ^ n = (wordIn arch data place).toNat % 256 ^ n := by
  have hlen := length_storedBytes hn value
  have hle := bytesInAddr_le hn
  unfold StorageType.dataWith
  rw [if_pos (by decide), replacedBytes_self, hlen, wordIn_toNat, ← leNat_take, List.take_take,
    Nat.min_eq_left hle, ← leNat_storedBytes value hle]
  constructor
  · intro h
    rw [h]
  · intro h
    exact (leNat_inj (by rw [hlen, List.length_take, List.length_drop]; omega) h).symm

/-! ## The addend -/

/-- The sum that is looked at is the place exactly if the word is the size negated. -/
theorem counted_iff {n : Nat} (word place size : BitVec n) : word - 0 + place + size = place ↔ word = -size := by
  constructor
  · intro h
    calc word = word - 0 + place + size - place - size := by ring
      _ = -size := by rw [h]; ring
  · rintro rfl
    ring

theorem value_eq (arch : Arch) (sym : ElfSym) : arch.addr sym.stValue = commonVal arch sym + symVal arch sym := by
  unfold commonVal symVal
  split <;> simp

variable {scn : RelocScn} {entry : RelxEntry arch}

def computedAddend (sym : ElfSym) (seen : arch.Addr) (entry : RelxEntry arch) : arch.Addr :=
  if entry.relocType = 1 then seen - symVal arch sym
  else if symVal arch sym = 0 ∧ seen = -BitVec.ofNat _ arch.size then -BitVec.ofNat _ arch.size
  else seen - symVal arch sym + entry.rOffset + BitVec.ofNat _ arch.size

theorem getWordAtAbs_ok (h : RelWord scn entry) :
    getWordAtAbs scn entry.rOffset = .ok (wordIn arch scn.data (placeOf scn.shAddr entry.rOffset % 2 ^ 32)) := by
  have hle := Nat.mod_le (placeOf scn.shAddr entry.rOffset) (2 ^ 32)
  have hfits := h.fits
  unfold getWordAtAbs
  dsimp only
  rw [assert_of (by omega), bind_ok, defined_of (by omega), bind_ok]

theorem computeAddend_ok (h : RelWord scn entry) (sym : ElfSym) :
    computeAddend (.ok (sym, scn)) entry.relocType entry.rOffset =
      .ok (computedAddend sym (wordIn arch scn.data (placeOf scn.shAddr entry.rOffset % 2 ^ 32)) entry) := by
  unfold computeAddend computedAddend
  simp only [bind_ok, getWordAtAbs_ok h]
  generalize wordIn arch scn.data (placeOf scn.shAddr entry.rOffset % 2 ^ 32) = seen
  rcases h.type with htype | htype
  · rw [htype]
    rfl
  · rw [htype]
    have hspecial : symVal arch sym = 0 ∧ seen - symVal arch sym + entry.rOffset + BitVec.ofNat _ arch.size = entry.rOffset ↔
        symVal arch sym = 0 ∧ seen = -BitVec.ofNat _ arch.size := by
      refine and_congr_right fun hval => ?_
      rw [hval]
      exact counted_iff seen entry.rOffset _
    have hne : ¬ ((2 : UInt8) = 1) := by decide
    rw [if_neg (by decide), if_neg hne, if_pos rfl, if_neg hne]
    by_cases hcase : symVal arch sym = 0 ∧ seen = -BitVec.ofNat _ arch.size
    · rw [if_pos (hspecial.mpr hcase), if_pos hcase]
    · rw [if_neg fun h => hcase (hspecial.mp h), if_neg hcase]

/-- What is extracted are the entries in the range, with the addends that are computed for them. -/
theorem extracted {entries : List (RelxEntry arch)} {lowAddr highAddr : arch.Addr}
    (hwords : ∀ entry ∈ entries, entry.Within lowAddr highAddr → RelWord scn entry) (getSymbol : Nat → ElfSym) :
    getRelocationItemsInRange (fun symIdx => .ok (getSymbol symIdx, scn)) entries lowAddr highAddr =
      .ok ((entries.filter fun entry => entry.Within lowAddr highAddr).map fun entry =>
        ⟨entry.rOffset, entry.symIdx, entry.relocType, computedAddend (getSymbol entry.symIdx)
          (wordIn arch scn.data (placeOf scn.shAddr entry.rOffset % 2 ^ 32)) entry⟩) := by
  refine mapM_ok fun entry hentry => ?_
  obtain ⟨hmem, hwithin⟩ := List.mem_filter.mp hentry
  have hword := hwords entry hmem (of_decide_eq_true hwithin)
  unfold relocOf addendOf
  rw [hword.rel]
  dsimp only
  rw [computeAddend_ok hword]
  rfl

/-! ## What is written back -/

variable {malloc : H → UInt64 → UInt64 × H} {t : Target H} {sym : ElfSym} {plt : Option arch.Addr}

/-- On disk only the data change. -/
theorem applyRelocation_disk {rel : RelocInfo arch} {value : arch.Addr} {n : Nat}
    (hvalue : relocatedValue rel sym plt = .ok (value, n))
    (hfit : placeOf scn.shAddr rel.rOffset + arch.size ≤ scn.data.length) (hn : n = 4 ∨ n = arch.size) :
    applyRelocation (mappedProcess malloc) rel sym plt scn t .onDisk = .ok (scn.data, t) ↔
      value.toNat % 256 ^ n = (wordIn arch scn.data (placeOf scn.shAddr rel.rOffset)).toNat % 256 ^ n := by
  have hle := bytesInAddr_le hn
  rw [applyRelocation_eq hn hvalue (fun h => by cases h.1), storeOnDisk_ok (by rw [length_storedBytes hn]; omega), bind_ok,
    ← stored_back hfit hn]
  have hmem : StorageType.memoryWith .onDisk scn.alloc (UInt64.ofNat rel.rOffset.toNat) (storedBytes value n) t.bytes =
      t.bytes := if_neg fun h => h.1 rfl
  rw [hmem]
  constructor
  · intro h
    exact (Prod.mk.inj (Except.ok.inj h)).1
  · intro h
    rw [h]

/-- The symbol's value and the addend make the value again, and a word's size more for a word relative to the program
counter. -/
theorem relocated_again (hplt : ¬ FromPLT sym) (htype : entry.relocType = 1 ∨ entry.relocType = 2) (seen : arch.Addr) :
    relocatedValue ⟨entry.rOffset, entry.symIdx, entry.relocType, computedAddend sym seen entry⟩ sym plt =
      if entry.relocType = 1 then .ok (commonVal arch sym + seen, arch.size)
      else if symVal arch sym = 0 ∧ seen = -BitVec.ofNat _ arch.size then
        .ok (commonVal arch sym - BitVec.ofNat _ arch.size - entry.rOffset, 4)
      else .ok (commonVal arch sym + seen + BitVec.ofNat _ arch.size, 4) := by
  have hhalf : (if arch = Arch.x86_64 then 4 else arch.size) = 4 := by cases arch <;> rfl
  have hne : ¬ ((2 : UInt8) = 1) := by decide
  unfold relocatedValue computedAddend
  rw [if_neg hplt]
  dsimp only
  rw [value_eq]
  generalize BitVec.ofNat _ arch.size = size
  rcases htype with htype | htype
  · rw [htype, if_pos (.inl rfl), if_pos rfl, if_pos rfl, if_neg fun h => by cases h.2]
    congr 2
    ring
  · rw [htype, if_neg (by decide), if_pos rfl, if_neg hne, if_neg hne, hhalf]
    by_cases hcase : symVal arch sym = 0 ∧ seen = -size
    · rw [if_pos hcase, if_pos hcase, hcase.1]
      congr 2
      ring
    · rw [if_neg hcase, if_neg hcase]
      congr 2
      ring

theorem relocated_plt (hplt : FromPLT sym) (htype : entry.relocType = 1 ∨ entry.relocType = 2) (addend address : arch.Addr) :
    relocatedValue ⟨entry.rOffset, entry.symIdx, entry.relocType, addend⟩ sym (some address) =
      if entry.relocType = 1 then .ok (address, arch.size) else .ok (address - entry.rOffset - 4, 4) := by
  unfold relocatedValue
  rw [if_pos hplt]
  rcases htype with htype | htype
  · rw [htype]
    rfl
  · rw [htype]
    rfl

theorem applied_back (h : RelWord scn entry) :
    applyRelocation (mappedProcess malloc) ⟨entry.rOffset, entry.symIdx, entry.relocType, computedAddend sym
      (wordIn arch scn.data (placeOf scn.shAddr entry.rOffset % 2 ^ 32)) entry⟩ sym plt scn t .onDisk = .ok (scn.data, t) ↔
      AddendFits sym plt scn entry := by
  unfold AddendFits
  dsimp only
  generalize hseen : wordIn arch scn.data (placeOf scn.shAddr entry.rOffset % 2 ^ 32) = seen
  have hne : entry.relocType = 2 → ¬ entry.relocType = 1 := fun htype hone => by
    rw [htype] at hone
    exact absurd hone (by decide)
  by_cases hplt : FromPLT sym
  · rw [if_pos hplt]
    cases plt with
    | none =>
      have hfails : relocatedValue ⟨entry.rOffset, entry.symIdx, entry.relocType, computedAddend sym seen entry⟩ sym none =
          .error (.death "could not find symbol in PLT\n") := if_pos hplt
      rw [applyRelocation_fails (fun hearly => by cases hearly.1) hfails]
      simp
    | some address =>
      have hvalue := relocated_plt hplt h.type (computedAddend sym seen entry) address
      rcases h.type with htype | htype
      · rw [if_pos htype] at hvalue
        rw [applyRelocation_disk hvalue h.fits (.inr rfl), ← whole_iff]
        simp [htype]
      · rw [if_neg (hne htype)] at hvalue
        rw [applyRelocation_disk hvalue h.fits (.inl rfl), ← low32_iff]
        simp [htype]
  · rw [if_neg hplt]
    have hvalue := @relocated_again arch entry sym plt hplt h.type seen
    rcases h.type with htype | htype
    · rw [if_pos htype] at hvalue
      rw [if_pos htype, applyRelocation_disk hvalue h.fits (.inr rfl), ← whole_iff]
    · rw [if_neg (hne htype)] at hvalue
      rw [if_neg (hne htype)]
      by_cases hcase : symVal arch sym = 0 ∧ seen = -BitVec.ofNat _ arch.size
      · rw [if_pos hcase] at hvalue ⊢
        rw [applyRelocation_disk hvalue h.fits (.inl rfl), ← low32_iff]
      · rw [if_neg hcase] at hvalue ⊢
        rw [applyRelocation_disk hvalue h.fits (.inl rfl), ← low32_iff]

/-- **The words are written back exactly if at each place the symbol's part and the word's size cancel out.** -/
theorem writesBack_iff (malloc : H → UInt64 → UInt64 × H) (getSymbol : Nat → ElfSym) (plt : Nat → Option arch.Addr)
    (scn : RelocScn) (entries : List (RelxEntry arch)) (lowAddr highAddr : arch.Addr) (t : Target H)
    (hwords : ∀ entry ∈ entries, entry.Within lowAddr highAddr → RelWord scn entry) :
    WritesBack malloc getSymbol plt scn entries lowAddr highAddr t ↔
      ∀ entry ∈ entries, entry.Within lowAddr highAddr →
        AddendFits (getSymbol entry.symIdx) (plt entry.symIdx) scn entry := by
  unfold WritesBack
  rw [extracted hwords]
  constructor
  · rintro ⟨items, hitems, hback⟩ entry hmem hwithin
    cases hitems
    have hitem := hback _ (List.mem_map_of_mem (List.mem_filter.mpr ⟨hmem, decide_eq_true hwithin⟩))
    exact (applied_back (hwords entry hmem hwithin)).mp hitem
  · intro hfits
    refine ⟨_, rfl, fun item hitem => ?_⟩
    obtain ⟨entry, hentry, rfl⟩ := List.mem_map.mp hitem
    obtain ⟨hmem, hwithin⟩ := List.mem_filter.mp hentry
    have hwithin := of_decide_eq_true hwithin
    exact (applied_back (hwords entry hmem hwithin)).mpr (hfits entry hmem hwithin)

theorem low32_add (x y : arch.Addr) : low32 (x + y) = low32 x + low32 y :=
  BitVec.setWidth_add x y (by cases arch <;> decide)

/-- Below 4 GiB an absolute word is kept for every symbol that is not common. One relative to the program counter is not,
unless a common symbol makes up for the word's size or the word and the place are of the special case. -/
theorem addendFits_near (hplt : ¬ FromPLT sym) (hnear : placeOf scn.shAddr entry.rOffset < 2 ^ 32) :
    AddendFits sym plt scn entry ↔
      if entry.relocType = 1 then commonVal arch sym = 0
      else if symVal arch sym = 0 ∧ wordIn arch scn.data (placeOf scn.shAddr entry.rOffset) = -BitVec.ofNat _ arch.size then
        low32 (commonVal arch sym) = low32 entry.rOffset
      else low32 (commonVal arch sym) + low32 (BitVec.ofNat (8 * arch.size) arch.size) = 0 := by
  unfold AddendFits
  dsimp only
  rw [if_neg hplt, Nat.mod_eq_of_lt hnear]
  generalize wordIn arch scn.data (placeOf scn.shAddr entry.rOffset) = word
  generalize BitVec.ofNat _ arch.size = size
  generalize commonVal arch sym = value
  split
  · exact add_eq_right
  · split
    · rename_i hcase
      have hvalue : low32 value = low32 (value - size - entry.rOffset) + low32 size + low32 entry.rOffset := by
        rw [← low32_add, ← low32_add]
        congr 1
        ring
      have hzero : low32 (-size) + low32 size = 0 := by
        rw [← low32_add, neg_add_cancel]
        exact BitVec.setWidth_zero _ _
      rw [hcase.2]
      constructor
      · intro h
        rw [hvalue, h, hzero, zero_add]
      · intro h
        rw [h] at hvalue
        have hsum : low32 (value - size - entry.rOffset) + low32 size = 0 := right_eq_add.mp hvalue
        exact (eq_neg_of_add_eq_zero_left hsum).trans (eq_neg_of_add_eq_zero_left hzero).symm
    · rw [low32_add, low32_add, add_right_comm]
      exact add_eq_right

end

/-! ## Two words -/

def twoWords : RelocScn := ⟨0, true, [1, 0, 0, 0, 2, 0, 0, 0]⟩

def someFunction : ElfSym := ⟨16, 4, 2, 1⟩

/-- An absolute word is written back. -/
theorem absoluteWord_back : WritesBack keptHeap (fun _ => someFunction) (fun _ => none) twoWords
    [(⟨0, 1, 1, none⟩ : RelxEntry .x86)] 0 7 zeroTarget :=
  (writesBack_iff keptHeap (fun _ => someFunction) (fun _ => none) twoWords [(⟨0, 1, 1, none⟩ : RelxEntry .x86)] 0 7
    zeroTarget (fun entry h _ => by rw [List.mem_singleton.mp h]; exact ⟨rfl, .inl rfl, by decide⟩)).mpr
    (fun entry h _ => by
      rw [List.mem_singleton.mp h]
      exact (addendFits_near (by decide) (by decide)).mpr (by decide))

/-- One relative to the program counter is written back with four more. -/
theorem not_writesBack : ¬ ∀ (arch : Arch) (getSymbol : Nat → ElfSym) (plt : Nat → Option arch.Addr) (scn : RelocScn)
    (entries : List (RelxEntry arch)) (lowAddr highAddr : arch.Addr) (t : Target Unit),
    (∀ entry ∈ entries, entry.Within lowAddr highAddr → RelWord scn entry) →
    WritesBack keptHeap getSymbol plt scn entries lowAddr highAddr t := by
  intro h
  have hword : RelWord twoWords (⟨0, 1, 2, none⟩ : RelxEntry .x86) := ⟨rfl, .inr rfl, by decide⟩
  obtain ⟨items, hitems, hback⟩ := h .x86 (fun _ => someFunction) (fun _ => none) twoWords [⟨0, 1, 2, none⟩] 0 7 zeroTarget
    (fun entry hentry _ => by rw [List.mem_singleton.mp hentry]; exact hword)
  rw [extracted (fun entry hentry _ => by rw [List.mem_singleton.mp hentry]; exact hword)] at hitems
  cases hitems
  have hfits := (applied_back hword).mp (hback _ List.mem_cons_self)
  rw [addendFits_near (by decide) (by decide)] at hfits
  exact absurd hfits (by decide)

end Katana

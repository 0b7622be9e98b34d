/-
  Katana.Reindex — finding a symbol of one ELF object in another (findSymbol and reindexSymbol of symbol.c).

  The whole table is scanned for the last entry that matches: by its name, where what is in the table is always
  taken up to its `@`, its binding, type and visibility, and by the names of the sections, which an assertion
  wants to exist unless one of the symbols is undefined or common. Unless a symbol is found without them, the
  flags for fuzzy matching are tried as well.

  Proved, for every object, flags and symbol:
  - `matchesAt_true` / `matchesAt_false`: what the check of one entry answers.
  - `reindex_scan`: what a search of both rounds ends with.
  - `reindexed_iff`: a symbol is found at its own index exactly if flags allow the version in its name, no entry
    that is otherwise alike asks for a section that is not there, and none behind it matches.
-/
import Mathlib.Data.List.TakeWhile
import Katana.Lib.LastMatch
import Katana.PatchTables

namespace Katana

open Lib

/-! ## The objects -/

/-- `ElfXX_Sym` with its name; binding and type are those of `st_info`. -/
structure NamedSym where
  name : List UInt8
  bind : UInt8
  type : UInt8
  other : UInt8
  shndx : UInt16
  deriving DecidableEq, Repr

/-- The tables, the names of the sections by their index, and `fname`. -/
structure SymElf where
  fname : String
  symtab : List NamedSym
  dynsym : Option (List NamedSym)
  sections : List (List UInt8)
  deriving DecidableEq, Repr

/-- Without `ESFF_FUZZY_MATCHING_OK`. -/
def FindFlags.noFuzzy (flags : FindFlags) : FindFlags :=
  { flags with mangledOk := false, versionedSectionsOk := false }

/-! ## findSymbol -/

/-- Both are for sections, or the names are the same. Those in the table are always unmangled. -/
def NamesAlike (flags : FindFlags) (sym sym2 : NamedSym) : Prop :=
  sym.type = 3 ∧ sym2.type = 3 ∨ unmangleSymbolName sym2.name = flags.shown sym.name

instance (flags : FindFlags) (sym sym2 : NamedSym) : Decidable (NamesAlike flags sym sym2) :=
  inferInstanceAs (Decidable (_ ∨ _))

def TypesAlike (sym sym2 : NamedSym) : Prop := ¬ (sym.type ≠ 0 ∧ sym2.type ≠ 0 ∧ sym.type ≠ sym2.type)

instance (sym sym2 : NamedSym) : Decidable (TypesAlike sym sym2) := inferInstanceAs (Decidable (¬ _))

def NamedSym.InScn (sym : NamedSym) : Prop := sym.shndx ≠ 0 ∧ sym.shndx ≠ 0xfff2

instance (sym : NamedSym) : Decidable sym.InScn := inferInstanceAs (Decidable (_ ∧ _))

def scnName (e : SymElf) (shndx : UInt16) : Except Fault (List UInt8) :=
  match e.sections[shndx.toNat]? with
  | none => .error .assertion
  | some name => .ok name

def withoutSuffix (suffix name : List UInt8) : List UInt8 :=
  if suffix <:+ name then name.take (name.length - suffix.length) else name

/-- Without `.` and the symbol's name and, if allowed, without `.new`. -/
def strippedScn (flags : FindFlags) (symbolName name : List UInt8) : List UInt8 :=
  let name := withoutSuffix (46 :: symbolName) name
  if flags.versionedSectionsOk then withoutSuffix [46, 110, 101, 119] name else name

/-- It begins with `.data` or `.bss`. -/
def IsData (name : List UInt8) : Prop := [46, 100, 97, 116, 97] <+: name

def IsBss (name : List UInt8) : Prop := [46, 98, 115, 115] <+: name

instance (name : List UInt8) : Decidable (IsData name) := inferInstanceAs (Decidable (_ <+: _))

instance (name : List UInt8) : Decidable (IsBss name) := inferInstanceAs (Decidable (_ <+: _))

/-- The stripped names are the same; `.data` and `.bss` may be, for all but section symbols. -/
def ScnsAlike (flags : FindFlags) (sym : NamedSym) (scnNameRef scnNameNew : List UInt8) : Prop :=
  let nameRef := strippedScn flags sym.name scnNameRef
  let nameNew := strippedScn flags sym.name scnNameNew
  nameRef = nameNew ∨ (sym.type ≠ 3 ∧ flags.bssMatchDataOk = true ∧
    (IsData nameRef ∧ IsBss nameNew ∨ IsBss nameRef ∧ IsData nameNew))

instance (flags : FindFlags) (sym : NamedSym) (scnNameRef scnNameNew : List UInt8) :
    Decidable (ScnsAlike flags sym scnNameRef scnNameNew) := inferInstanceAs (Decidable (_ ∨ _))

/-- A turn of the loop: whether `retval` is set to the entry's index. -/
def matchesAt (e ref : SymElf) (flags : FindFlags) (sym sym2 : NamedSym) : Except Fault Bool :=
  if ¬ NamesAlike flags sym sym2 then .ok false
  else if sym.bind ≠ sym2.bind then .ok false
  else if ¬ TypesAlike sym sym2 then .ok false
  else if sym.other ≠ sym2.other then .ok false
  else if sym.InScn ∧ sym2.InScn then do
    let scnNameRef ← scnName ref sym.shndx
    let scnNameNew ← scnName e sym2.shndx
    .ok (decide (ScnsAlike flags sym scnNameRef scnNameNew))
  else .ok true

def searchedTable (e : SymElf) (flags : FindFlags) : Except Fault (List NamedSym) :=
  if flags.newDynamic then
    match e.dynsym with
    | none => .error .assertion
    | some dynsym => .ok dynsym
  else .ok e.symtab

/-- `numEntries` is an int. -/
def scannedEntries (table : List NamedSym) : List NamedSym :=
  table.take (Int32.ofNat table.length).toInt.toNat

/-- 0 is `STN_UNDEF`, and the entry at 0 is never looked at. -/
def findSymbol (e : SymElf) (sym : NamedSym) (ref : SymElf) (flags : FindFlags) : Except Fault Nat := do
  let table ← searchedTable e flags
  lastMatch (matchesAt e ref flags sym) ((scannedEntries table).drop 1) 1 0

def reindexSymbol (old new : SymElf) (oldIdx : Nat) (flags : FindFlags) : Except Fault Nat :=
  match old.symtab[oldIdx]? with
  | none =>
    .error (.death
      ("gelf_getsym failed trying to get symbol at index " ++ toString oldIdx ++ " in ELF " ++ old.fname ++ "\n"))
  | some sym => do
    let idx ← findSymbol new sym old flags.noFuzzy
    if idx = 0 ∧ flags ≠ flags.noFuzzy then findSymbol new sym old flags else .ok idx

/-! ## Finding itself -/

structure Candidate (flags : FindFlags) (sym sym2 : NamedSym) : Prop where
  names : NamesAlike flags sym sym2
  bind : sym.bind = sym2.bind
  type : TypesAlike sym sym2
  other : sym.other = sym2.other

def ScnsThere (e : SymElf) (flags : FindFlags) (sym sym2 : NamedSym) : Prop :=
  Candidate flags sym sym2 → sym.InScn → sym2.InScn →
    sym.shndx.toNat < e.sections.length ∧ sym2.shndx.toNat < e.sections.length

def SymsMatch (e : SymElf) (flags : FindFlags) (sym sym2 : NamedSym) : Prop :=
  Candidate flags sym sym2 ∧ (sym.InScn → sym2.InScn →
    ScnsAlike flags sym (e.sections.getD sym.shndx.toNat []) (e.sections.getD sym2.shndx.toNat []))

/-- No entry of the table asks for a section that is not there. -/
def AllScnsThere (e : SymElf) (flags : FindFlags) (sym : NamedSym) (table : List NamedSym) : Prop :=
  ∀ j sym2, 1 ≤ j → table[j]? = some sym2 → ScnsThere e flags sym sym2

/-- The entry at `i` matches and none behind it does. -/
structure LastMatching (e : SymElf) (flags : FindFlags) (sym : NamedSym) (table : List NamedSym) (i : Nat) : Prop where
  here : ∃ sym2, table[i]? = some sym2 ∧ SymsMatch e flags sym sym2
  behind : ∀ j sym2, i < j → table[j]? = some sym2 → ¬ SymsMatch e flags sym sym2

/-- It is found without fuzzy matching, or nothing is and it is found with it. -/
def FoundIn (e : SymElf) (flags : FindFlags) (sym : NamedSym) (table : List NamedSym) (i : Nat) : Prop :=
  AllScnsThere e flags.noFuzzy sym table ∧ (LastMatching e flags.noFuzzy sym table i ∨
    (∀ j sym2, 1 ≤ j → table[j]? = some sym2 → ¬ SymsMatch e flags.noFuzzy sym sym2) ∧ flags ≠ flags.noFuzzy ∧
      AllScnsThere e flags sym table ∧ LastMatching e flags sym table i)

def Versioned (sym : NamedSym) : Prop := sym.type ≠ 3 ∧ 64 ∈ sym.name

instance (sym : NamedSym) : Decidable (Versioned sym) := inferInstanceAs (Decidable (_ ∧ _))

def FindFlags.round (flags : FindFlags) (sym : NamedSym) : FindFlags :=
  if Versioned sym then flags else flags.noFuzzy

/-- A symbol finds itself in its own table. -/
structure FindsItself (e : SymElf) (flags : FindFlags) (sym : NamedSym) (i : Nat) : Prop where
  scanned : i < (Int32.ofNat e.symtab.length).toInt.toNat
  mangledOk : Versioned sym → flags.mangledOk = true
  scnsThere : AllScnsThere e (flags.round sym) sym (scannedEntries e.symtab)
  behind : ∀ j sym2, i < j → (scannedEntries e.symtab)[j]? = some sym2 → ¬ SymsMatch e (flags.round sym) sym sym2

/-- Or it is found at the same index of the dynamic symbols, where these are searched. -/
def FindsIndex (e : SymElf) (flags : FindFlags) (sym : NamedSym) (i : Nat) : Prop :=
  if flags.newDynamic then ∃ dynsym, e.dynsym = some dynsym ∧ FoundIn e flags sym (scannedEntries dynsym) i
  else FindsItself e flags sym i

/-! ## One entry -/

section Entry
variable {e : SymElf} {flags : FindFlags} {sym sym2 : NamedSym}

theorem scnName_of_lt {shndx : UInt16} (h : shndx.toNat < e.sections.length) :
    scnName e shndx = .ok (e.sections.getD shndx.toNat []) := by
  unfold scnName
  rw [List.getD_eq_getElem?_getD, List.getElem?_eq_getElem h]
  rfl

theorem scnName_of_not_lt {shndx : UInt16} (h : ¬ shndx.toNat < e.sections.length) :
    scnName e shndx = .error .assertion := by
  unfold scnName
  rw [List.getElem?_eq_none (Nat.le_of_not_lt h)]

theorem matchesAt_not_candidate (h : ¬ Candidate flags sym sym2) : matchesAt e e flags sym sym2 = .ok false := by
  unfold matchesAt
  by_cases hnames : NamesAlike flags sym sym2
  · rw [if_neg (not_not_intro hnames)]
    by_cases hbind : sym.bind = sym2.bind
    · rw [if_neg (not_not_intro hbind)]
      by_cases htype : TypesAlike sym sym2
      · rw [if_neg (not_not_intro htype), if_pos fun hother => h ⟨hnames, hbind, htype, hother⟩]
      · rw [if_pos htype]
    · rw [if_pos hbind]
  · rw [if_pos hnames]

theorem matchesAt_candidate (h : Candidate flags sym sym2) :
    matchesAt e e flags sym sym2 =
      if sym.InScn ∧ sym2.InScn then
        scnName e sym.shndx >>= fun scnNameRef => scnName e sym2.shndx >>= fun scnNameNew =>
          .ok (decide (ScnsAlike flags sym scnNameRef scnNameNew))
      else .ok true := by
  unfold matchesAt
  rw [if_neg (not_not_intro h.names), if_neg (not_not_intro h.bind), if_neg (not_not_intro h.type),
    if_neg (not_not_intro h.other)]

/-- The check answers exactly if the sections that it compares are there. -/
theorem matchesAt_answers : (∃ found, matchesAt e e flags sym sym2 = .ok found) ↔ ScnsThere e flags sym sym2 := by
  unfold ScnsThere
  by_cases hcandidate : Candidate flags sym sym2
  · rw [matchesAt_candidate hcandidate]
    by_cases hin : sym.InScn ∧ sym2.InScn
    · rw [if_pos hin]
      by_cases href : sym.shndx.toNat < e.sections.length
      · by_cases hnew : sym2.shndx.toNat < e.sections.length
        · rw [scnName_of_lt href, bind_ok, scnName_of_lt hnew, bind_ok]
          exact ⟨fun _ _ _ _ => ⟨href, hnew⟩, fun _ => ⟨_, rfl⟩⟩
        · rw [scnName_of_lt href, bind_ok, scnName_of_not_lt hnew]
          exact ⟨fun ⟨_, h⟩ => (by cases h), fun h => absurd (h hcandidate hin.1 hin.2).2 hnew⟩
      · rw [scnName_of_not_lt href]
        exact ⟨fun ⟨_, h⟩ => (by cases h), fun h => absurd (h hcandidate hin.1 hin.2).1 href⟩
    · rw [if_neg hin]
      exact ⟨fun _ _ h1 h2 => absurd ⟨h1, h2⟩ hin, fun _ => ⟨true, rfl⟩⟩
  · rw [matchesAt_not_candidate hcandidate]
    exact ⟨fun _ h => absurd h hcandidate, fun _ => ⟨false, rfl⟩⟩

theorem matchesAt_true (hthere : ScnsThere e flags sym sym2) :
    matchesAt e e flags sym sym2 = .ok true ↔ SymsMatch e flags sym sym2 := by
  unfold SymsMatch
  by_cases hcandidate : Candidate flags sym sym2
  · rw [matchesAt_candidate hcandidate]
    by_cases hin : sym.InScn ∧ sym2.InScn
    · obtain ⟨href, hnew⟩ := hthere hcandidate hin.1 hin.2
      rw [if_pos hin, scnName_of_lt href, bind_ok, scnName_of_lt hnew, bind_ok, Except.ok.injEq, decide_eq_true_iff]
      exact ⟨fun h => ⟨hcandidate, fun _ _ => h⟩, fun h => h.2 hin.1 hin.2⟩
    · rw [if_neg hin]
      exact ⟨fun _ => ⟨hcandidate, fun h1 h2 => absurd ⟨h1, h2⟩ hin⟩, fun _ => rfl⟩
  · rw [matchesAt_not_candidate hcandidate]
    exact ⟨fun h => (by cases h), fun h => absurd h.1 hcandidate⟩

theorem matchesAt_false (hthere : ScnsThere e flags sym sym2) :
    matchesAt e e flags sym sym2 = .ok false ↔ ¬ SymsMatch e flags sym sym2 := by
  rw [← matchesAt_true hthere]
  obtain ⟨found, hfound⟩ := matchesAt_answers.mpr hthere
  rw [hfound]
  cases found <;> simp

end Entry

/-! ## A round -/

section Round
variable {e : SymElf} {flags : FindFlags} {sym : NamedSym} {table : List NamedSym}

theorem mem_drop_one {a : NamedSym} : a ∈ table.drop 1 ↔ ∃ j, 1 ≤ j ∧ table[j]? = some a := by
  rw [List.mem_iff_getElem?]
  constructor
  · rintro ⟨j, hj⟩
    rw [List.getElem?_drop] at hj
    exact ⟨1 + j, by omega, hj⟩
  · rintro ⟨j, hj, ha⟩
    exact ⟨j - 1, by rw [List.getElem?_drop, Nat.add_sub_cancel' hj]; exact ha⟩

theorem allScnsThere_iff :
    (∀ a ∈ table.drop 1, ∃ found, matchesAt e e flags sym a = .ok found) ↔ AllScnsThere e flags sym table := by
  constructor
  · intro h j sym2 hj hsym2
    exact matchesAt_answers.mp (h sym2 (mem_drop_one.mpr ⟨j, hj, hsym2⟩))
  · intro h a ha
    obtain ⟨j, hj, hsym2⟩ := mem_drop_one.mp ha
    exact matchesAt_answers.mpr (h j a hj hsym2)

theorem noneMatches_iff (hthere : AllScnsThere e flags sym table) :
    (∀ a ∈ table.drop 1, matchesAt e e flags sym a = .ok false) ↔
      ∀ j sym2, 1 ≤ j → table[j]? = some sym2 → ¬ SymsMatch e flags sym sym2 := by
  constructor
  · intro h j sym2 hj hsym2
    exact (matchesAt_false (hthere j sym2 hj hsym2)).mp (h sym2 (mem_drop_one.mpr ⟨j, hj, hsym2⟩))
  · intro h a ha
    obtain ⟨j, hj, hsym2⟩ := mem_drop_one.mp ha
    exact (matchesAt_false (hthere j a hj hsym2)).mpr (h j a hj hsym2)

theorem lastMatching_iff (hthere : AllScnsThere e flags sym table) {i : Nat} (hi : 1 ≤ i) :
    LastAt (matchesAt e e flags sym) (table.drop 1) 1 i ↔ LastMatching e flags sym table i := by
  constructor
  · rintro ⟨⟨j, sym2, rfl, hsym2, htrue⟩, hbehind⟩
    rw [List.getElem?_drop] at hsym2
    refine ⟨⟨sym2, hsym2, (matchesAt_true (hthere _ sym2 hi hsym2)).mp htrue⟩, fun k sym3 hk hsym3 => ?_⟩
    have hfalse := hbehind (k - 1) sym3 (by omega) (by rw [List.getElem?_drop, Nat.add_sub_cancel' (by omega)]; exact hsym3)
    exact (matchesAt_false (hthere k sym3 (by omega) hsym3)).mp hfalse
  · rintro ⟨⟨sym2, hsym2, hmatch⟩, hbehind⟩
    refine ⟨⟨i - 1, sym2, by omega, by rw [List.getElem?_drop, Nat.add_sub_cancel' hi]; exact hsym2,
      (matchesAt_true (hthere i sym2 hi hsym2)).mpr hmatch⟩, fun j sym3 hj hsym3 => ?_⟩
    rw [List.getElem?_drop] at hsym3
    exact (matchesAt_false (hthere _ sym3 (by omega) hsym3)).mpr (hbehind _ sym3 (by omega) hsym3)

/-- What a round over the table finds. -/
theorem round_finds {i : Nat} (hi : 1 ≤ i) :
    lastMatch (matchesAt e e flags sym) (table.drop 1) 1 0 = .ok i ↔
      AllScnsThere e flags sym table ∧ LastMatching e flags sym table i := by
  rw [lastMatch_ok, allScnsThere_iff]
  refine and_congr_right fun hthere => ?_
  rw [lastMatching_iff hthere hi]
  constructor
  · rintro (h | ⟨-, hzero⟩)
    · exact h
    · omega
  · exact .inl

theorem round_finds_none :
    lastMatch (matchesAt e e flags sym) (table.drop 1) 1 0 = .ok 0 ↔
      AllScnsThere e flags sym table ∧ ∀ j sym2, 1 ≤ j → table[j]? = some sym2 → ¬ SymsMatch e flags sym sym2 := by
  rw [lastMatch_ok, allScnsThere_iff]
  refine and_congr_right fun hthere => ?_
  rw [noneMatches_iff hthere]
  constructor
  · rintro (⟨⟨j, a, hzero, -, -⟩, -⟩ | ⟨h, -⟩)
    · omega
    · exact h
  · exact fun h => .inr ⟨h, rfl⟩

/-- What both rounds over the table find. -/
theorem reindex_scan {i : Nat} (hsym : e.symtab[i]? = some sym) (hi : 1 ≤ i)
    (htable : searchedTable e flags = .ok table) :
    reindexSymbol e e i flags = .ok i ↔ FoundIn e flags sym (scannedEntries table) i := by
  have htable' : searchedTable e flags.noFuzzy = .ok table := htable
  have hfind : ∀ fl, searchedTable e fl = .ok table → findSymbol e sym e fl =
      lastMatch (matchesAt e e fl sym) ((scannedEntries table).drop 1) 1 0 := by
    intro fl hfl
    unfold findSymbol
    rw [hfl]
    rfl
  unfold reindexSymbol FoundIn
  rw [hsym]
  dsimp only
  rw [hfind _ htable', hfind _ htable]
  generalize scannedEntries table = scanned
  constructor
  · intro h
    obtain ⟨idx, hfirst, h⟩ := bind_eq_ok.mp h
    by_cases hzero : idx = 0
    · rw [hzero] at hfirst h
      obtain ⟨hthere, hnone⟩ := round_finds_none.mp hfirst
      by_cases hfuzzy : flags ≠ flags.noFuzzy
      · rw [if_pos ⟨rfl, hfuzzy⟩] at h
        exact ⟨hthere, .inr ⟨hnone, hfuzzy, (round_finds hi).mp h⟩⟩
      · rw [if_neg fun hboth => hfuzzy hboth.2] at h
        cases h
        omega
    · rw [if_neg fun hboth => hzero hboth.1] at h
      cases h
      obtain ⟨hthere, hlast⟩ := (round_finds hi).mp hfirst
      exact ⟨hthere, .inl hlast⟩
  · rintro ⟨hthere, hlast | ⟨hnone, hfuzzy, hthere', hlast⟩⟩
    · rw [(round_finds hi).mpr ⟨hthere, hlast⟩, bind_ok, if_neg fun hboth => absurd hboth.1 (by omega)]
    · rw [round_finds_none.mpr ⟨hthere, hnone⟩, bind_ok, if_pos ⟨rfl, hfuzzy⟩]
      exact (round_finds hi).mpr ⟨hthere', hlast⟩

end Round

/-! ## Its own table -/

section Own
variable {e : SymElf} {flags : FindFlags} {sym : NamedSym} {i : Nat}

theorem unmangle_of_not_mem {name : List UInt8} (h : 64 ∉ name) : unmangleSymbolName name = name := by
  unfold unmangleSymbolName
  rw [List.takeWhile_eq_self_iff]
  intro b hb
  exact decide_eq_true fun hat => h (hat ▸ hb)

theorem not_mem_unmangle (name : List UInt8) : 64 ∉ unmangleSymbolName name := by
  intro h
  have hne := List.mem_takeWhile_imp h
  simp at hne

/-- A symbol is alike to itself in a round that its name allows. -/
theorem candidate_self (h : ¬ Versioned sym ∨ flags.mangledOk = true) : Candidate flags sym sym := by
  refine ⟨?_, rfl, fun hdiffer => hdiffer.2.2 rfl, rfl⟩
  by_cases hsection : sym.type = 3
  · exact .inl ⟨hsection, hsection⟩
  · refine .inr ?_
    unfold FindFlags.shown
    split
    · rfl
    · rename_i hmangled
      have hname : 64 ∉ sym.name := fun hat => (h.resolve_right hmangled) ⟨hsection, hat⟩
      exact unmangle_of_not_mem hname

theorem symsMatch_self (h : ¬ Versioned sym ∨ flags.mangledOk = true) : SymsMatch e flags sym sym :=
  ⟨candidate_self h, fun _ _ => .inl rfl⟩

/-- A name with a version is like none in the table, as long as it is not unmangled. -/
theorem not_candidate (h : Versioned sym) (hmangled : flags.mangledOk = false) (sym2 : NamedSym) :
    ¬ Candidate flags sym sym2 := by
  intro hcandidate
  rcases hcandidate.names with hsection | hname
  · exact h.1 hsection.1
  · unfold FindFlags.shown at hname
    rw [if_neg (by rw [hmangled]; decide)] at hname
    exact not_mem_unmangle sym2.name (hname ▸ h.2)

/-- The entry is come to in the scan. -/
theorem scanned_iff (hsym : e.symtab[i]? = some sym) {sym2 : NamedSym} :
    (scannedEntries e.symtab)[i]? = some sym2 ↔ i < (Int32.ofNat e.symtab.length).toInt.toNat ∧ sym2 = sym := by
  unfold scannedEntries
  rw [List.getElem?_take, hsym]
  split
  · rename_i hlt
    exact ⟨fun h => ⟨hlt, (Option.some_inj.mp h).symm⟩, fun h => by rw [h.2]⟩
  · rename_i hnot
    exact ⟨fun h => (by cases h), fun h => absurd h.1 hnot⟩

/-- A name with a version is found in the second round. -/
theorem foundIn_versioned (hversioned : Versioned sym) (hsym : e.symtab[i]? = some sym) :
    FoundIn e flags sym (scannedEntries e.symtab) i ↔ FindsItself e flags sym i := by
  have hround : flags.round sym = flags := if_pos hversioned
  have hnone := @not_candidate flags.noFuzzy sym hversioned rfl
  constructor
  · rintro ⟨-, ⟨⟨sym2, hsym2, hmatch⟩, -⟩ | ⟨-, -, hthere, ⟨sym2, hsym2, hmatch⟩, hbehind⟩⟩
    · exact absurd hmatch.1 (hnone sym2)
    · obtain ⟨hlt, rfl⟩ := (scanned_iff hsym).mp hsym2
      refine ⟨hlt, fun _ => ?_, by rw [hround]; exact hthere, by rw [hround]; exact hbehind⟩
      rw [← Bool.not_eq_false]
      exact fun hmangled => not_candidate hversioned hmangled _ hmatch.1
  · intro h
    have hmangled := h.mangledOk hversioned
    have hthere := h.scnsThere
    have hbehind := h.behind
    rw [hround] at hthere hbehind
    refine ⟨fun j sym2 _ _ hcandidate => absurd hcandidate (hnone sym2), .inr ⟨?_, ?_, hthere, ?_, hbehind⟩⟩
    · exact fun j sym2 _ _ hmatch => hnone sym2 hmatch.1
    · intro hsame
      rw [hsame] at hmangled
      cases hmangled
    · exact ⟨sym, (scanned_iff hsym).mpr ⟨h.scanned, rfl⟩, symsMatch_self (.inr hmangled)⟩

/-- Any other name is found in the first round. -/
theorem foundIn_plain (hplain : ¬ Versioned sym) (hi : 1 ≤ i) (hsym : e.symtab[i]? = some sym) :
    FoundIn e flags sym (scannedEntries e.symtab) i ↔ FindsItself e flags sym i := by
  have hround : flags.round sym = flags.noFuzzy := if_neg hplain
  have hmatch : SymsMatch e flags.noFuzzy sym sym := symsMatch_self (.inl hplain)
  constructor
  · rintro ⟨hthere, ⟨⟨sym2, hsym2, -⟩, hbehind⟩ | ⟨hnone, -, -, ⟨sym2, hsym2, -⟩, -⟩⟩
    · obtain ⟨hlt, -⟩ := (scanned_iff hsym).mp hsym2
      exact ⟨hlt, fun h => absurd h hplain, by rw [hround]; exact hthere, by rw [hround]; exact hbehind⟩
    · obtain ⟨-, rfl⟩ := (scanned_iff hsym).mp hsym2
      exact absurd hmatch (hnone i _ hi hsym2)
  · intro h
    have hthere := h.scnsThere
    have hbehind := h.behind
    rw [hround] at hthere hbehind
    exact ⟨hthere, .inl ⟨⟨sym, (scanned_iff hsym).mpr ⟨h.scanned, rfl⟩, hmatch⟩, hbehind⟩⟩

theorem foundIn_own (hi : 1 ≤ i) (hsym : e.symtab[i]? = some sym) :
    FoundIn e flags sym (scannedEntries e.symtab) i ↔ FindsItself e flags sym i := by
  by_cases hversioned : Versioned sym
  · exact foundIn_versioned hversioned hsym
  · exact foundIn_plain hversioned hi hsym

/-- **A symbol is found at its own index exactly if it finds itself.** -/
theorem reindexed_iff (e : SymElf) (flags : FindFlags) {i : Nat} {sym : NamedSym}
    (hsym : e.symtab[i]? = some sym) (hi : 1 ≤ i) :
    reindexSymbol e e i flags = .ok i ↔ FindsIndex e flags sym i := by
  unfold FindsIndex
  by_cases hdynamic : flags.newDynamic = true
  · rw [if_pos hdynamic]
    cases hdynsym : e.dynsym with
    | none =>
      have htable : searchedTable e flags.noFuzzy = .error .assertion := by
        unfold searchedTable
        rw [if_pos (show flags.noFuzzy.newDynamic = true from hdynamic), hdynsym]
      have hfails : reindexSymbol e e i flags = .error .assertion := by
        unfold reindexSymbol findSymbol
        rw [hsym]
        dsimp only
        rw [htable]
        rfl
      rw [hfails]
      exact ⟨fun h => (by cases h), fun ⟨_, hsome, _⟩ => (by cases hsome)⟩
    | some dynsym =>
      have htable : searchedTable e flags = .ok dynsym := by
        unfold searchedTable
        rw [if_pos hdynamic, hdynsym]
      rw [reindex_scan hsym hi htable]
      simp
  · rw [if_neg hdynamic, reindex_scan hsym hi (if_neg hdynamic), foundIn_own hi hsym]

/-- No two symbols, other than those of sections, agree in name and binding, and no two sections in their name. -/
structure SymElf.Distinct (e : SymElf) : Prop where
  symbols : (e.symtab.filter (·.type ≠ 3)).Pairwise fun sym sym2 => ¬ (sym.name = sym2.name ∧ sym.bind = sym2.bind)
  sections : e.sections.Nodup

def oneFunction (name : List UInt8) : SymElf :=
  let text : List UInt8 := [46, 116, 101, 120, 116]
  ⟨"a.out", [⟨[], 0, 0, 0, 0⟩, ⟨name, 1, 2, 0, 1⟩], none, [[], text]⟩

/-- `f` is found. -/
theorem function_reindexed :
    reindexSymbol (oneFunction [102]) (oneFunction [102]) 1 ⟨false, false, false, false⟩ = .ok 1 := by
  refine (reindexed_iff (oneFunction [102]) ⟨false, false, false, false⟩ rfl (by decide)).mpr ?_
  have hend : ∀ j sym2, 1 < j → (scannedEntries (oneFunction [102]).symtab)[j]? = some sym2 → False := by
    intro j sym2 hj hsym2
    have hlt := (List.getElem?_eq_some_iff.mp hsym2).1
    have hlength : (scannedEntries (oneFunction [102]).symtab).length = 2 := by decide
    omega
  refine ⟨by decide, by decide, fun j sym2 hj hsym2 _ _ _ => ?_, fun j sym2 hj hsym2 => (hend j sym2 hj hsym2).elim⟩
  by_cases hone : j = 1
  · rw [hone] at hsym2
    cases hsym2
    decide
  · exact (hend j sym2 (by omega) hsym2).elim

/-- `f@V` is not, as the flags do not allow the version. -/
theorem not_reindexed :
    ¬ ∀ (e : SymElf) (flags : FindFlags) (i : Nat) (sym : NamedSym), e.Distinct → e.symtab[i]? = some sym → 1 ≤ i →
      reindexSymbol e e i flags = .ok i := by
  intro h
  have hfound := h (oneFunction [102, 64, 86]) ⟨false, false, false, false⟩ 1 _ ⟨by decide, by decide⟩ rfl (by decide)
  have hnot : reindexSymbol (oneFunction [102, 64, 86]) (oneFunction [102, 64, 86]) 1 ⟨false, false, false, false⟩ =
      .ok 0 := by
    decide
  rw [hnot] at hfound
  cases hfound

end Own

end Katana

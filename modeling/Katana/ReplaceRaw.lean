/-
  Katana.ReplaceRaw — replacing bytes by their offset in the file (the RT_RAW case of ReplaceCommand::execute
  in shell/commands/replaceCommand.cpp, getInt of shell/param.cpp, modifyScnData of elfwriter.c).

  The offset comes through an int, and the number of bytes is one. The sections are scanned for the one that starts last before the offset; the scan ends early at one that
  goes on behind the data. A section that starts at the offset itself is not considered, and one without
  data in the file is.

  Proved, for every layout, offset and data:
  - `findClosest_picked` / `picked_unique`: which section is taken.
  - `picked_of_filled`: sections with data in the file take nothing from each other behind their first byte.
  - `replacesRight_iff`: the right bytes are replaced, whatever is in the sections, exactly if the ints hold the offset and
    the number of bytes and the section they lie in is taken.
-/
import Katana.PltCopy

namespace Katana

open Lib

/-! ## modifyScnData -/

/-- `Elf_Data`: the buffer, which is NULL for a section without data in the file, and `d_size`. -/
structure ElfData where
  dBuf : Option (List UInt8)
  dSize : Nat
  deriving DecidableEq, Repr

/-- `realloc` to `size` bytes; `fresh` is what is found in those that are not copied. Between the old end and the offset
they are zeroed. -/
def ElfData.extend (fresh : Nat → UInt8) (data : ElfData) (offset size : Nat) : List UInt8 :=
  let old := data.dBuf.getD []
  (List.range size).map fun i =>
    if i < data.dSize then old.getD i (fresh i) else if i < offset then 0 else fresh i

/-- `memcpy(dataDest->d_buf+offset,data,size)`, of more than there is for a negative size; nothing is accessed for no
bytes. -/
def ElfData.copyIn (dest : ElfData) (offset : Nat) (data : List UInt8) (size : Int32) : Except Fault ElfData :=
  if size = 0 then .ok dest
  else do
    defined (0 ≤ size.toInt ∧ size.toInt.toNat ≤ data.length)
    match dest.dBuf with
    | none => .error .undefined
    | some buf => do
      let buf ← memcpyMirror buf offset (data.take size.toInt.toNat)
      .ok { dest with dBuf := some buf }

def modifyScnData (fresh : Nat → UInt8) (dest : ElfData) (offset : UInt64) (data : List UInt8) (size : Int32) :
    Except Fault ElfData :=
  let stop := (offset + addrOfInt size).toNat
  if dest.dSize < stop then
    ElfData.copyIn ⟨some (dest.extend fresh offset.toNat stop), stop⟩ offset.toNat data size
  else dest.copyIn offset.toNat data size

/-! ## replace raw -/

structure RawSection where
  shOffset : UInt64
  shSize : UInt64
  data : ElfData
  deriving DecidableEq, Repr

namespace RawSection

def start (s : RawSection) : Nat := s.shOffset.toNat

/-- It goes on behind the data. -/
def Reaches (offset : UInt64) (rawBytesLen : Int32) (s : RawSection) : Prop :=
  offset + addrOfInt rawBytesLen < s.shOffset + s.shSize

instance (offset : UInt64) (rawBytesLen : Int32) (s : RawSection) : Decidable (s.Reaches offset rawBytesLen) :=
  inferInstanceAs (Decidable (_ < _))

end RawSection

/-- The loop over the sections from number `i` on, with `closestScn`. -/
def findClosest (offset : UInt64) (rawBytesLen : Int32) : List RawSection → Nat → Option (Nat × RawSection) →
    Option (Nat × RawSection)
  | [], _, closestScn => closestScn
  | scn :: rest, i, closestScn =>
    if scn.start < offset.toNat ∧ ∀ closest ∈ closestScn, closest.2.start < scn.start then
      if scn.Reaches offset rawBytesLen then some (i, scn)
      else findClosest offset rawBytesLen rest (i + 1) (some (i, scn))
    else findClosest offset rawBytesLen rest (i + 1) closestScn

inductive CommandFailure where
  | thrown (msg : String)
  | fault (f : Fault)
  deriving DecidableEq, Repr

/-- `getInt` of a parameter, whose value is a word. -/
def getInt (intval : UInt64) : Int32 := intval.toUInt32.toInt32

/-- The offset that is used for one that is given. -/
def usedOffset (which : UInt64) : UInt64 := addrOfInt (getInt which)

def lenOf (rawBytes : List UInt8) : Int32 := Int32.ofNat rawBytes.length

/-- The sections are those from 1 on. -/
def replaceRaw (fresh : Nat → UInt8) (sections : List RawSection) (which : UInt64) (rawBytes : List UInt8) :
    Except CommandFailure (List RawSection) :=
  let offset := usedOffset which
  let rawBytesLen := lenOf rawBytes
  match findClosest offset rawBytesLen sections 0 none with
  | none => .error (.thrown "Unable to replace raw data\n")
  | some (i, scn) => do
    let data ← (modifyScnData fresh scn.data (offset - scn.shOffset) rawBytes rawBytesLen).mapError .fault
    .ok (sections.set i { scn with data })

/-! ## Layouts -/

def RawSection.Occupies (s : RawSection) (p : Nat) : Prop := s.data.dBuf.isSome ∧ s.start ≤ p ∧ p < s.start + s.shSize.toNat

/-- The sections of an ELF object as they are loaded: their file ranges do not overlap. -/
structure RawLayout where
  sections : List RawSection
  dSize_eq : ∀ s ∈ sections, s.data.dSize = s.shSize.toNat
  dBuf_length : ∀ s ∈ sections, ∀ bytes ∈ s.data.dBuf, bytes.length = s.data.dSize
  inFile : ∀ s ∈ sections, s.data.dBuf.isSome → s.start + s.shSize.toNat < 2 ^ 64
  apart : ∀ (i j : Nat) (s c : RawSection) (p : Nat), sections[i]? = some s → sections[j]? = some c → s.Occupies p →
    c.Occupies p → i = j

/-- The data lies wholly inside a section of the file. -/
structure LiesIn (s : RawSection) (offset : UInt64) (rawBytes : List UInt8) : Prop where
  filled : s.data.dBuf.isSome
  start_le : s.start ≤ offset.toNat
  le_end : offset.toNat + rawBytes.length ≤ s.start + s.shSize.toNat

/-- A buffer with the bytes from `offset` on replaced. -/
def replacedBytes (offset : Nat) (rawBytes buf : List UInt8) : List UInt8 :=
  buf.take offset ++ rawBytes ++ buf.drop (offset + rawBytes.length)

def RawSection.replaced (s : RawSection) (offset : UInt64) (rawBytes : List UInt8) : RawSection :=
  { s with data := ⟨s.data.dBuf.map (replacedBytes (offset.toNat - s.start) rawBytes), s.data.dSize⟩ }

/-- Exactly the requested bytes of section `k` are changed. -/
def Replaces (layout : RawLayout) (which : UInt64) (rawBytes : List UInt8) (k : Nat) (s : RawSection) : Prop :=
  ∀ fresh, replaceRaw fresh layout.sections which rawBytes = .ok (layout.sections.set k (s.replaced which rawBytes))

structure RawSection.SameShape (s c : RawSection) : Prop where
  shOffset : c.shOffset = s.shOffset
  shSize : c.shSize = s.shSize
  dSize : c.data.dSize = s.data.dSize
  filled : c.data.dBuf.isSome = s.data.dBuf.isSome

def RawLayout.SameShape (layout other : RawLayout) : Prop :=
  List.Forall₂ RawSection.SameShape layout.sections other.sections

/-- Whatever bytes are in the sections. -/
def ReplacesRight (layout : RawLayout) (which : UInt64) (rawBytes : List UInt8) (k : Nat) : Prop :=
  ∀ other, layout.SameShape other → ∀ s, other.sections[k]? = some s → Replaces other which rawBytes k s

/-! ## The section that is taken -/

section Scan
variable {sections : List RawSection} {offset : UInt64} {rawBytesLen : Int32}

/-- An earlier section before the offset starts no earlier than number `j`, which is passed over. -/
def Overtaken (sections : List RawSection) (offset : UInt64) (j : Nat) (c : RawSection) : Prop :=
  ∃ i d, i < j ∧ sections[i]? = some d ∧ d.start < offset.toNat ∧ c.start ≤ d.start

/-- Section `k` starts before the offset and later than any such section in front of it, of which none that is not passed
over goes on behind the data. It does so itself, or no such section behind it starts later. -/
structure Picked (sections : List RawSection) (offset : UInt64) (rawBytesLen : Int32) (k : Nat) (s : RawSection) : Prop where
  section_eq : sections[k]? = some s
  start_lt : s.start < offset.toNat
  before_lt : ∀ j c, j < k → sections[j]? = some c → c.start < offset.toNat → c.start < s.start
  before_ends : ∀ j c, j < k → sections[j]? = some c → c.start < offset.toNat →
    ¬ c.Reaches offset rawBytesLen ∨ Overtaken sections offset j c
  behind : s.Reaches offset rawBytesLen ∨
    ∀ j c, k < j → sections[j]? = some c → c.start < offset.toNat → c.start ≤ s.start

theorem Picked.not_before {j k : Nat} {c s : RawSection} (h : Picked sections offset rawBytesLen j c)
    (h' : Picked sections offset rawBytesLen k s) : ¬ j < k := by
  intro hlt
  have hends : ¬ c.Reaches offset rawBytesLen := by
    rcases h'.before_ends j c hlt h.section_eq h.start_lt with hends | ⟨i, d, hi, hd, hstart, hle⟩
    · exact hends
    · have := h.before_lt i d hi hd hstart
      omega
  have hle := (h.behind.resolve_left hends) k s hlt h'.section_eq h'.start_lt
  have hless := h'.before_lt j c hlt h.section_eq h.start_lt
  omega

theorem picked_unique {j k : Nat} {c s : RawSection} (h : Picked sections offset rawBytesLen j c)
    (h' : Picked sections offset rawBytesLen k s) : j = k := by
  have hnot := h.not_before h'
  have hnot' := h'.not_before h
  omega

/-- What has been scanned when section `n` is next, and the scan has not ended early. -/
structure Scanned (sections : List RawSection) (offset : UInt64) (rawBytesLen : Int32) (n : Nat)
    (closest : Option (Nat × RawSection)) : Prop where
  closest_eq : ∀ i s, closest = some (i, s) → i < n ∧ sections[i]? = some s ∧ s.start < offset.toNat ∧
    ∀ j c, j < i → sections[j]? = some c → c.start < offset.toNat → c.start < s.start
  all_le : ∀ j c, j < n → sections[j]? = some c → c.start < offset.toNat →
    ∃ i s, closest = some (i, s) ∧ c.start ≤ s.start
  ends : ∀ j c, j < n → sections[j]? = some c → c.start < offset.toNat →
    ¬ c.Reaches offset rawBytesLen ∨ Overtaken sections offset j c

theorem scanned_start : Scanned sections offset rawBytesLen 0 none :=
  ⟨nofun, fun _ _ h => absurd h (Nat.not_lt_zero _), fun _ _ h => absurd h (Nat.not_lt_zero _)⟩

/-- A section that is passed over. -/
theorem Scanned.pass {n : Nat} {closest : Option (Nat × RawSection)} {scn : RawSection}
    (h : Scanned sections offset rawBytesLen n closest) (hscn : sections[n]? = some scn)
    (hnot : ¬ (scn.start < offset.toNat ∧ ∀ c ∈ closest, c.2.start < scn.start)) :
    Scanned sections offset rawBytesLen (n + 1) closest := by
  -- before the offset it starts no later than the closest one
  have hle : scn.start < offset.toNat → ∃ i s, closest = some (i, s) ∧ scn.start ≤ s.start := by
    intro hstart
    by_contra hnone
    refine hnot ⟨hstart, fun c hc => ?_⟩
    by_contra hge
    exact hnone ⟨c.1, c.2, hc, by omega⟩
  refine ⟨?_, ?_, ?_⟩
  · intro i s hi
    obtain ⟨hlt, hrest⟩ := h.closest_eq i s hi
    exact ⟨by omega, hrest⟩
  · intro j c hj hc hstart
    rcases Nat.lt_succ_iff_lt_or_eq.mp hj with hj | rfl
    · exact h.all_le j c hj hc hstart
    · cases hscn.symm.trans hc
      exact hle hstart
  · intro j c hj hc hstart
    rcases Nat.lt_succ_iff_lt_or_eq.mp hj with hj | rfl
    · exact h.ends j c hj hc hstart
    · cases hscn.symm.trans hc
      obtain ⟨i, s, hi, hsle⟩ := hle hstart
      obtain ⟨hlt, hget, hsstart, -⟩ := h.closest_eq i s hi
      exact .inr ⟨i, s, hlt, hget, hsstart, hsle⟩

/-- A section that starts later than all so far. -/
theorem Scanned.later {n : Nat} {closest : Option (Nat × RawSection)} {scn : RawSection}
    (h : Scanned sections offset rawBytesLen n closest) (hlater : ∀ c ∈ closest, c.2.start < scn.start) :
    ∀ j c, j < n → sections[j]? = some c → c.start < offset.toNat → c.start < scn.start := by
  intro j c hj hc hstart
  obtain ⟨i, s, hi, hle⟩ := h.all_le j c hj hc hstart
  have := hlater (i, s) hi
  dsimp only at this
  omega

theorem Scanned.take {n : Nat} {closest : Option (Nat × RawSection)} {scn : RawSection}
    (h : Scanned sections offset rawBytesLen n closest) (hscn : sections[n]? = some scn) (hstart : scn.start < offset.toNat)
    (hlater : ∀ c ∈ closest, c.2.start < scn.start) (hends : ¬ scn.Reaches offset rawBytesLen) :
    Scanned sections offset rawBytesLen (n + 1) (some (n, scn)) := by
  have hless := h.later hlater
  refine ⟨?_, ?_, ?_⟩
  · intro i s hi
    cases hi
    exact ⟨Nat.lt_succ_self n, hscn, hstart, hless⟩
  · intro j c hj hc hcstart
    refine ⟨n, scn, rfl, ?_⟩
    rcases Nat.lt_succ_iff_lt_or_eq.mp hj with hj | rfl
    · exact (hless j c hj hc hcstart).le
    · cases hscn.symm.trans hc
      exact le_rfl
  · intro j c hj hc hcstart
    rcases Nat.lt_succ_iff_lt_or_eq.mp hj with hj | rfl
    · exact h.ends j c hj hc hcstart
    · cases hscn.symm.trans hc
      exact .inl hends

/-- What the loop returns, from any state of the scan. -/
theorem findClosest_scanned {rest : List RawSection} {n : Nat} {closest : Option (Nat × RawSection)}
    (h : Scanned sections offset rawBytesLen n closest) (hrest : sections.drop n = rest) :
    (∀ i s, findClosest offset rawBytesLen rest n closest = some (i, s) → Picked sections offset rawBytesLen i s) ∧
      (findClosest offset rawBytesLen rest n closest = none → ∀ c ∈ sections, ¬ c.start < offset.toNat) := by
  induction rest generalizing n closest with
  | nil =>
    have hlen : sections.length ≤ n := List.drop_eq_nil_iff.mp hrest
    constructor
    · intro i s hi
      obtain ⟨hlt, hget, hstart, hless⟩ := h.closest_eq i s hi
      refine ⟨hget, hstart, hless, fun j c hj => h.ends j c (hj.trans hlt), .inr ?_⟩
      intro j c _ hc hcstart
      have hj := (List.getElem?_eq_some_iff.mp hc).1
      obtain ⟨i', s', hi', hle⟩ := h.all_le j c (by omega) hc hcstart
      cases (show some (i, s) = some (i', s') from hi.symm.trans hi')
      exact hle
    · intro hnone c hc hstart
      obtain ⟨j, hj⟩ := List.getElem?_of_mem hc
      obtain ⟨i, s, hi, -⟩ := h.all_le j c (lt_of_lt_of_le (List.getElem?_eq_some_iff.mp hj).1 hlen) hj hstart
      cases (show none = some (i, s) from hnone.symm.trans hi)
  | cons scn rest ih =>
    have hscn : sections[n]? = some scn := by
      have hhead := List.head?_drop (l := sections) (i := n)
      rw [hrest] at hhead
      exact hhead.symm
    have hnext : sections.drop (n + 1) = rest := by rw [← List.drop_drop, hrest]; rfl
    rw [findClosest]
    by_cases htaken : scn.start < offset.toNat ∧ ∀ c ∈ closest, c.2.start < scn.start
    · obtain ⟨hstart, hlater⟩ := htaken
      rw [if_pos ⟨hstart, hlater⟩]
      by_cases hreaches : scn.Reaches offset rawBytesLen
      · rw [if_pos hreaches]
        constructor
        · intro i s hi
          cases hi
          exact ⟨hscn, hstart, h.later hlater, fun j c hj => h.ends j c hj, .inl hreaches⟩
        · intro hnone
          cases hnone
      · rw [if_neg hreaches]
        exact ih (h.take hscn hstart hlater hreaches) hnext
    · rw [if_neg htaken]
      exact ih (h.pass hscn htaken) hnext

/-- **Which section is taken.** -/
theorem findClosest_picked {i : Nat} {s : RawSection} :
    findClosest offset rawBytesLen sections 0 none = some (i, s) ↔ Picked sections offset rawBytesLen i s := by
  obtain ⟨hsome, hnone⟩ := @findClosest_scanned sections offset rawBytesLen _ _ _ scanned_start rfl
  constructor
  · exact hsome i s
  · intro h
    cases hfind : findClosest offset rawBytesLen sections 0 none with
    | none => exact absurd h.start_lt (hnone hfind s (List.mem_of_getElem? h.section_eq))
    | some r =>
      have hpicked := hsome r.1 r.2 hfind
      have hindex := picked_unique hpicked h
      have hget := hpicked.section_eq
      rw [hindex, h.section_eq] at hget
      rw [show r = (i, s) from Prod.ext hindex (Option.some.inj hget).symm]

/-- Only the places of the sections count. -/
theorem Picked.sameShape {other : List RawSection} {k : Nat} {s : RawSection}
    (hshape : List.Forall₂ RawSection.SameShape sections other) (h : Picked sections offset rawBytesLen k s) :
    ∃ c, Picked other offset rawBytesLen k c ∧ s.SameShape c := by
  have hthere : ∀ {j : Nat} {c : RawSection}, sections[j]? = some c → ∃ c', other[j]? = some c' ∧ c.SameShape c' := by
    intro j c hc
    obtain ⟨hj, rfl⟩ := List.getElem?_eq_some_iff.mp hc
    have hj' : j < other.length := hshape.length_eq ▸ hj
    exact ⟨other[j], List.getElem?_eq_getElem hj', hshape.get hj hj'⟩
  have hback : ∀ {j : Nat} {c' : RawSection}, other[j]? = some c' → ∃ c, sections[j]? = some c ∧ c.SameShape c' := by
    intro j c' hc
    obtain ⟨hj, rfl⟩ := List.getElem?_eq_some_iff.mp hc
    have hj' : j < sections.length := hshape.length_eq ▸ hj
    exact ⟨sections[j], List.getElem?_eq_getElem hj', hshape.get hj' hj⟩
  have hstart : ∀ {c c' : RawSection}, c.SameShape c' → c'.start = c.start := by
    intro c c' hcc'
    unfold RawSection.start
    rw [hcc'.shOffset]
  have hreaches : ∀ {c c' : RawSection}, c.SameShape c' → (c'.Reaches offset rawBytesLen ↔ c.Reaches offset rawBytesLen) := by
    intro c c' hcc'
    unfold RawSection.Reaches
    rw [hcc'.shOffset, hcc'.shSize]
  obtain ⟨s', hs', hss'⟩ := hthere h.section_eq
  refine ⟨s', ⟨hs', ?_, ?_, ?_, ?_⟩, hss'⟩
  · rw [hstart hss']
    exact h.start_lt
  · intro j c' hj hc' hlt
    obtain ⟨c, hc, hcc'⟩ := hback hc'
    rw [hstart hcc'] at hlt ⊢
    rw [hstart hss']
    exact h.before_lt j c hj hc hlt
  · intro j c' hj hc' hlt
    obtain ⟨c, hc, hcc'⟩ := hback hc'
    rw [hstart hcc'] at hlt
    rw [hreaches hcc']
    refine (h.before_ends j c hj hc hlt).imp id ?_
    rintro ⟨i, d, hi, hd, hdlt, hle⟩
    obtain ⟨d', hd', hdd'⟩ := hthere hd
    exact ⟨i, d', hi, hd', by rw [hstart hdd']; exact hdlt, by rw [hstart hcc', hstart hdd']; exact hle⟩
  · rw [hreaches hss']
    refine h.behind.imp id fun hall j c' hj hc' hlt => ?_
    obtain ⟨c, hc, hcc'⟩ := hback hc'
    rw [hstart hcc'] at hlt ⊢
    rw [hstart hss']
    exact hall j c hj hc hlt

end Scan

/-! ## The ints -/

/-- The offsets that an int holds; those from the end of the address space are negative ones. -/
theorem usedOffset_eq_iff {which : UInt64} : usedOffset which = which ↔ which.toNat < 2 ^ 31 ∨ 2 ^ 64 - 2 ^ 31 ≤ which.toNat := by
  have hvalue := toUInt64_toNat which.toUInt32.toInt32
  have hnat : which.toUInt32.toInt32.toBitVec.toNat = which.toNat % 2 ^ 32 := by
    have hword : which.toUInt32.toInt32.toBitVec.toNat = which.toUInt32.toNat := rfl
    rw [hword, UInt64.toNat_toUInt32]
  have hcond := BitVec.toInt_eq_toNat_cond which.toUInt32.toInt32.toBitVec
  have hint : which.toUInt32.toInt32.toBitVec.toInt = which.toUInt32.toInt32.toInt := rfl
  have hlt := which.toNat_lt
  rw [hnat, hint] at hcond
  unfold usedOffset getInt addrOfInt
  rw [← UInt64.toNat_inj]
  split at hcond <;> split at hvalue <;> omega

/-- The int of a length is the length up to `2^31`, and negative or less from there on. -/
theorem lenOf_toInt (rawBytes : List UInt8) : (lenOf rawBytes).toInt ≤ rawBytes.length ∧
    ((lenOf rawBytes).toInt = rawBytes.length ↔ rawBytes.length < 2 ^ 31) := by
  have hint : (lenOf rawBytes).toInt = (BitVec.ofNat 32 rawBytes.length).toInt := rfl
  rw [hint, BitVec.toInt_eq_toNat_cond, BitVec.toNat_ofNat]
  have hle := Nat.mod_le rawBytes.length (2 ^ 32)
  have hlt := Nat.mod_lt rawBytes.length (show 0 < 2 ^ 32 by decide)
  split
  · exact ⟨by omega, by omega, fun hsmall => by rw [Nat.mod_eq_of_lt (by omega)]⟩
  · refine ⟨by omega, by omega, fun hsmall => ?_⟩
    rename_i hlarge
    rw [Nat.mod_eq_of_lt (by omega)] at hlarge
    omega

/-! ## What is replaced -/

section Replace
variable {fresh : Nat → UInt8} {layout : RawLayout} {which offset : UInt64} {rawBytes : List UInt8} {size : Int32}
  {s c : RawSection} {k j : Nat}

theorem set_same {l : List RawSection} {i : Nat} {a : RawSection} (h : l[i]? = some a) : l.set i a = l := by
  obtain ⟨hlt, rfl⟩ := List.getElem?_eq_some_iff.mp h
  exact List.set_getElem_self hlt

theorem sub_start (h : c.start ≤ offset.toNat) : (offset - c.shOffset).toNat = offset.toNat - c.start :=
  UInt64.toNat_sub_of_le _ _ (UInt64.le_iff_toNat_le.mpr h)

/-- What a copy leaves. -/
theorem copyIn_ok {dest data : ElfData} {n : Nat} (h : dest.copyIn n rawBytes size = .ok data) :
    (size = 0 ∧ data = dest) ∨ (0 < size.toInt ∧ ∃ buf, dest.dBuf = some buf ∧
      n + (rawBytes.take size.toInt.toNat).length ≤ buf.length ∧
      data = ⟨some (replacedBytes n (rawBytes.take size.toInt.toNat) buf), dest.dSize⟩) := by
  unfold ElfData.copyIn at h
  by_cases hzero : size = 0
  · rw [if_pos hzero] at h
    exact .inl ⟨hzero, (Except.ok.inj h).symm⟩
  · rw [if_neg hzero] at h
    obtain ⟨_, hsize, h⟩ := bind_eq_ok.mp h
    have hnonneg : 0 ≤ size.toInt := by
      by_contra hneg
      rw [defined_not fun hboth => hneg hboth.1] at hsize
      cases hsize
    have hne : size.toInt ≠ 0 := fun heq => hzero (Int32.toInt_inj.mp heq)
    refine .inr ⟨by omega, ?_⟩
    cases hbuf : dest.dBuf with
    | none =>
      rw [hbuf] at h
      cases h
    | some buf =>
      rw [hbuf] at h
      obtain ⟨replaced, hcopy, h⟩ := bind_eq_ok.mp h
      unfold memcpyMirror at hcopy
      obtain ⟨_, hfits, hcopy⟩ := bind_eq_ok.mp hcopy
      by_cases hle : n + (rawBytes.take size.toInt.toNat).length ≤ buf.length
      · exact ⟨buf, rfl, hle, by rw [← Except.ok.inj h, ← Except.ok.inj hcopy]; rfl⟩
      · rw [defined_not hle] at hfits
        cases hfits

theorem copyIn_dSize {dest data : ElfData} {n : Nat} (h : dest.copyIn n rawBytes size = .ok data) :
    data.dSize = dest.dSize := by
  rcases copyIn_ok h with ⟨-, rfl⟩ | ⟨-, buf, -, -, rfl⟩
  · rfl
  · rfl

/-- Where the size stays, nothing was extended. -/
theorem modify_kept {dest data : ElfData} {n : UInt64} (h : modifyScnData fresh dest n rawBytes size = .ok data)
    (hkept : data.dSize = dest.dSize) :
    (n + addrOfInt size).toNat ≤ dest.dSize ∧ dest.copyIn n.toNat rawBytes size = .ok data := by
  unfold modifyScnData at h
  dsimp only at h
  by_cases hgrows : dest.dSize < (n + addrOfInt size).toNat
  · rw [if_pos hgrows] at h
    have hsize := copyIn_dSize h
    rw [hkept] at hsize
    dsimp only at hsize
    omega
  · rw [if_neg hgrows] at h
    exact ⟨by omega, h⟩

/-- Bytes inside the data are replaced. -/
theorem modify_inside {buf : List UInt8} {dest : ElfData} {n : UInt64} (hbuf : dest.dBuf = some buf)
    (hlength : buf.length = dest.dSize) (hsize : (size.toInt : Int) = rawBytes.length)
    (hinside : n.toNat + rawBytes.length ≤ dest.dSize) (hfile : dest.dSize < 2 ^ 64) :
    modifyScnData fresh dest n rawBytes size = .ok ⟨some (replacedBytes n.toNat rawBytes buf), dest.dSize⟩ := by
  have hnat : size.toInt.toNat = rawBytes.length := by omega
  have hword : addrOfInt size = UInt64.ofNat rawBytes.length := by
    rw [← hnat]
    exact offset_toUInt64 (by omega)
  have hstop : (n + addrOfInt size).toNat = n.toNat + rawBytes.length := by
    rw [hword, UInt64.toNat_add, UInt64.toNat_ofNat_of_lt' (by show _ < 2 ^ 64; omega), Nat.mod_eq_of_lt (by omega)]
  unfold modifyScnData
  dsimp only
  rw [hstop, if_neg (by omega)]
  unfold ElfData.copyIn
  by_cases hzero : size = 0
  · have hnil : rawBytes = [] := List.length_eq_zero_iff.mp (by rw [← hnat, hzero]; rfl)
    rw [if_pos hzero, hnil]
    unfold replacedBytes
    rw [List.append_nil, List.length_nil, Nat.add_zero, List.take_append_drop, ← hbuf]
  · rw [if_neg hzero, defined_of ⟨by omega, by omega⟩, bind_ok, hbuf, hnat, List.take_length]
    dsimp only
    unfold memcpyMirror
    rw [defined_of (by omega), bind_ok, bind_ok]
    rfl

theorem replaceRaw_picked (h : Picked layout.sections (usedOffset which) (lenOf rawBytes) j c) :
    replaceRaw fresh layout.sections which rawBytes =
      ((modifyScnData fresh c.data (usedOffset which - c.shOffset) rawBytes (lenOf rawBytes)).mapError .fault >>= fun data =>
        .ok (layout.sections.set j { c with data })) := by
  unfold replaceRaw
  dsimp only
  rw [findClosest_picked.mpr h]

theorem LiesIn.end_lt (hin : LiesIn s offset rawBytes) (hs : layout.sections[k]? = some s) :
    offset.toNat + rawBytes.length < 2 ^ 64 :=
  lt_of_le_of_lt hin.le_end (layout.inFile s (List.mem_of_getElem? hs) hin.filled)

theorem LiesIn.sameShape (hin : LiesIn s offset rawBytes) (h : s.SameShape c) : LiesIn c offset rawBytes := by
  have hstart : c.start = s.start := by
    unfold RawSection.start
    rw [h.shOffset]
  exact ⟨h.filled ▸ hin.filled, hstart ▸ hin.start_le, by rw [hstart, h.shSize]; exact hin.le_end⟩

/-- The section that the data lies in. -/
theorem replaces_own (hin : LiesIn s which rawBytes) (hused : usedOffset which = which) (hlen : rawBytes.length < 2 ^ 31)
    (hpicked : Picked layout.sections (usedOffset which) (lenOf rawBytes) k s) : Replaces layout which rawBytes k s := by
  intro fresh
  have hs := hpicked.section_eq
  have hmem := List.mem_of_getElem? hs
  have hstart := hin.start_le
  obtain ⟨buf, hbuf⟩ := Option.isSome_iff_exists.mp hin.filled
  have hlength := layout.dBuf_length s hmem buf hbuf
  have hsize := layout.dSize_eq s hmem
  have hle := hin.le_end
  have hfile := s.shSize.toNat_lt
  have hsub := sub_start hstart
  rw [replaceRaw_picked hpicked, hused,
    modify_inside hbuf hlength ((lenOf_toInt rawBytes).2.mpr hlen) (by omega) (by omega), hsub]
  show Except.ok _ = _
  unfold RawSection.replaced
  rw [hbuf]
  rfl

theorem replaced_nil (s : RawSection) (which : UInt64) : s.replaced which [] = s := by
  unfold RawSection.replaced replacedBytes
  simp

/-- No bytes are replaced at a place of the section that is taken. -/
theorem replaces_none (hs : layout.sections[k]? = some s) (hpicked : Picked layout.sections (usedOffset which) 0 j c)
    (hle : (usedOffset which).toNat ≤ c.start + c.data.dSize) : Replaces layout which [] k s := by
  intro fresh
  have hkept : modifyScnData fresh c.data (usedOffset which - c.shOffset) [] 0 = .ok c.data := by
    have hstop : (usedOffset which - c.shOffset + addrOfInt 0).toNat = (usedOffset which).toNat - c.start := by
      rw [show addrOfInt 0 = 0 from rfl, UInt64.add_zero, sub_start hpicked.start_lt.le]
    unfold modifyScnData
    dsimp only
    rw [hstop, if_neg (by omega)]
    rfl
  have hrun : replaceRaw fresh layout.sections which [] = _ := replaceRaw_picked hpicked
  rw [hrun, show lenOf [] = 0 from rfl, hkept, replaced_nil, set_same hs]
  show Except.ok (layout.sections.set j c) = _
  rw [set_same hpicked.section_eq]

end Replace

/-! ### Sections that are filled with one byte -/

section Filled

def RawSection.filledWith (b : UInt8) (s : RawSection) : RawSection :=
  { s with data := { s.data with dBuf := s.data.dBuf.map fun _ => List.replicate s.data.dSize b } }

theorem RawSection.sameShape_filledWith (b : UInt8) (s : RawSection) : s.SameShape (s.filledWith b) :=
  ⟨rfl, rfl, rfl, Option.isSome_map⟩

theorem RawSection.occupies_filledWith {b : UInt8} {s : RawSection} {p : Nat} :
    (s.filledWith b).Occupies p ↔ s.Occupies p := by
  unfold RawSection.Occupies
  rw [(sameShape_filledWith b s).filled]
  rfl

def RawLayout.filledWith (b : UInt8) (layout : RawLayout) : RawLayout where
  sections := layout.sections.map (RawSection.filledWith b)
  dSize_eq := by
    intro s hs
    obtain ⟨c, hc, rfl⟩ := List.mem_map.mp hs
    exact layout.dSize_eq c hc
  dBuf_length := by
    intro s hs bytes hbytes
    obtain ⟨c, -, rfl⟩ := List.mem_map.mp hs
    obtain ⟨-, -, rfl⟩ := Option.map_eq_some_iff.mp hbytes
    exact List.length_replicate
  inFile := by
    intro s hs hfilled
    obtain ⟨c, hc, rfl⟩ := List.mem_map.mp hs
    exact layout.inFile c hc ((RawSection.sameShape_filledWith b c).filled ▸ hfilled)
  apart := by
    intro i j s c p hs hc hsp hcp
    rw [List.getElem?_map] at hs hc
    obtain ⟨s, hs', rfl⟩ := Option.map_eq_some_iff.mp hs
    obtain ⟨c, hc', rfl⟩ := Option.map_eq_some_iff.mp hc
    exact layout.apart i j s c p hs' hc' (RawSection.occupies_filledWith.mp hsp) (RawSection.occupies_filledWith.mp hcp)

theorem RawLayout.sameShape_filledWith (b : UInt8) (layout : RawLayout) : layout.SameShape (layout.filledWith b) :=
  List.forall₂_map_right_iff.mpr (List.forall₂_same.mpr fun s _ => s.sameShape_filledWith b)

theorem getElem?_replacedBytes {n i : Nat} {bytes buf : List UInt8} (hfits : n + bytes.length ≤ buf.length) :
    (replacedBytes n bytes buf)[i]? =
      if n ≤ i ∧ i < n + bytes.length then bytes[i - n]? else buf[i]? := by
  have htake : (buf.take n).length = n := List.length_take_of_le (by omega)
  unfold replacedBytes
  by_cases hlow : i < n
  · rw [if_neg (by omega), List.append_assoc, List.getElem?_append_left (by omega), List.getElem?_take_of_lt hlow]
  · by_cases hhigh : i < n + bytes.length
    · rw [if_pos ⟨by omega, hhigh⟩, List.append_assoc, List.getElem?_append_right (by omega), htake,
        List.getElem?_append_left (by omega)]
    · rw [if_neg (by omega), List.getElem?_append_right (by simp; omega), List.getElem?_drop]
      congr 1
      rw [List.length_append, htake]
      omega

/-- Two runs whose ends stand out from what is around them can be told apart. -/
theorem replacedBytes_injective {n m total : Nat} {b : UInt8} {bytes : List UInt8} (hne : bytes ≠ [])
    (hhead : bytes.head hne ≠ b) (hlast : bytes.getLast hne ≠ b) {l : Nat} (hpos : 0 < l)
    (hfits : n + (bytes.take l).length ≤ total) (hfits' : m + bytes.length ≤ total)
    (h : replacedBytes n (bytes.take l) (List.replicate total b) = replacedBytes m bytes (List.replicate total b)) :
    n = m ∧ bytes.length ≤ l := by
  have hlen := List.length_pos_iff.mpr hne
  have hget (i : Nat) := congrArg (·[i]?) h
  simp only [getElem?_replacedBytes (show n + (bytes.take l).length ≤ (List.replicate total b).length by simpa using hfits),
    getElem?_replacedBytes (show m + bytes.length ≤ (List.replicate total b).length by simpa using hfits')] at hget
  have htake : (bytes.take l).length = min l bytes.length := List.length_take
  have hout : ∀ i, i < total → (List.replicate total b)[i]? = some b := fun i hi => List.getElem?_replicate_of_lt hi
  have hfirst : bytes[0]? = some (bytes.head hne) := by rw [List.head_eq_getElem, List.getElem?_eq_getElem hlen]
  have hfinal : bytes[bytes.length - 1]? = some (bytes.getLast hne) := by
    rw [List.getLast_eq_getElem, List.getElem?_eq_getElem (by omega)]
  -- the first byte of either run is nowhere before the other one
  have hstart : n = m := by
    rcases Nat.lt_trichotomy n m with hlt | heq | hgt
    · have hbyte := hget n
      rw [if_pos ⟨le_rfl, by omega⟩, if_neg (by omega), Nat.sub_self, List.getElem?_take_of_lt hpos, hfirst,
        hout n (by omega)] at hbyte
      exact absurd (Option.some.inj hbyte) hhead
    · exact heq
    · have hbyte := hget m
      rw [if_neg (by omega), if_pos ⟨le_rfl, by omega⟩, Nat.sub_self, hfirst, hout m (by omega)] at hbyte
      exact absurd (Option.some.inj hbyte).symm hhead
  subst hstart
  refine ⟨rfl, ?_⟩
  by_contra hshort
  have hbyte := hget (n + (bytes.length - 1))
  rw [if_neg (by omega), if_pos ⟨by omega, by omega⟩, Nat.add_sub_cancel_left, hfinal, hout _ (by omega)] at hbyte
  exact absurd (Option.some.inj hbyte).symm hlast

end Filled

section Exactly
variable {layout : RawLayout} {which : UInt64} {rawBytes : List UInt8} {s : RawSection} {k : Nat}

/-- In sections that are filled with a byte that the data neither begins nor ends with, a wrong place is seen. -/
theorem picked_of_replaces {b : UInt8} (hs : (layout.filledWith b).sections[k]? = some s) (hin : LiesIn s which rawBytes)
    (hne : rawBytes ≠ []) (hhead : rawBytes.head hne ≠ b) (hlast : rawBytes.getLast hne ≠ b)
    (h : Replaces (layout.filledWith b) which rawBytes k s) :
    usedOffset which = which ∧ rawBytes.length < 2 ^ 31 ∧
      Picked (layout.filledWith b).sections (usedOffset which) (lenOf rawBytes) k s := by
  have hmem := List.mem_of_getElem? hs
  have hsize := (layout.filledWith b).dSize_eq s hmem
  have hstart := hin.start_le
  have hle := hin.le_end
  have hlen := List.length_pos_iff.mpr hne
  have hbuf : s.data.dBuf = some (List.replicate s.data.dSize b) := by
    obtain ⟨buf, hbuf⟩ := Option.isSome_iff_exists.mp hin.filled
    obtain ⟨t, -, rfl⟩ := List.mem_map.mp hmem
    obtain ⟨-, -, rfl⟩ := Option.map_eq_some_iff.mp hbuf
    exact hbuf
  have hright : (s.replaced which rawBytes).data.dBuf =
      some (replacedBytes (which.toNat - s.start) rawBytes (List.replicate s.data.dSize b)) := by
    unfold RawSection.replaced
    rw [hbuf]
    rfl
  -- its first byte is not what it was
  have hchanged : replacedBytes (which.toNat - s.start) rawBytes (List.replicate s.data.dSize b) ≠
      List.replicate s.data.dSize b := by
    intro heq
    have hbyte := congrArg (·[which.toNat - s.start]?) heq
    rw [getElem?_replacedBytes (by simp; omega), if_pos ⟨le_rfl, by omega⟩, Nat.sub_self,
      List.getElem?_replicate_of_lt (by omega), List.getElem?_eq_getElem hlen, ← List.head_eq_getElem hne] at hbyte
    exact hhead (Option.some.inj hbyte)
  have hrun := h fun _ => 0
  cases hfind : findClosest (usedOffset which) (lenOf rawBytes) (layout.filledWith b).sections 0 none with
  | none =>
    unfold replaceRaw at hrun
    dsimp only at hrun
    rw [hfind] at hrun
    cases hrun
  | some r =>
    obtain ⟨j, c⟩ := r
    have hpicked := findClosest_picked.mp hfind
    rw [replaceRaw_picked hpicked] at hrun
    obtain ⟨data, hmodify, hset⟩ := bind_eq_ok.mp hrun
    have hset := Except.ok.inj hset
    have hjlt := (List.getElem?_eq_some_iff.mp hpicked.section_eq).1
    have hklt := (List.getElem?_eq_some_iff.mp hs).1
    have hjk : j = k := by
      by_contra hjk
      have hget := congrArg (·[k]?) hset
      rw [List.getElem?_set_ne hjk, List.getElem?_set_self hklt, hs] at hget
      have hdata := congrArg (fun t : RawSection => t.data.dBuf) (Option.some.inj hget)
      rw [hright, hbuf] at hdata
      exact hchanged (Option.some.inj hdata).symm
    subst hjk
    cases hs.symm.trans hpicked.section_eq
    have hdata : ({ s with data } : RawSection) = s.replaced which rawBytes := by
      have hget := congrArg (·[j]?) hset
      rw [List.getElem?_set_self hjlt, List.getElem?_set_self hjlt] at hget
      exact Option.some.inj hget
    obtain rfl : data = (s.replaced which rawBytes).data := congrArg RawSection.data hdata
    cases hmod : modifyScnData (fun _ => 0) s.data (usedOffset which - s.shOffset) rawBytes (lenOf rawBytes) with
    | error e =>
      rw [hmod] at hmodify
      cases hmodify
    | ok data =>
      rw [hmod] at hmodify
      obtain rfl : data = (s.replaced which rawBytes).data := Except.ok.inj hmodify
      obtain ⟨-, hcopy⟩ := modify_kept hmod rfl
      rw [sub_start hpicked.start_lt.le] at hcopy
      rcases copyIn_ok hcopy with ⟨-, hkept⟩ | ⟨hpos, buf, hbuf', hfits, hnew⟩
      · have hsame := congrArg ElfData.dBuf hkept
        rw [hright, hbuf] at hsame
        exact absurd (Option.some.inj hsame) hchanged
      · obtain rfl : List.replicate s.data.dSize b = buf := Option.some.inj (hbuf.symm.trans hbuf')
        have hbytes := congrArg ElfData.dBuf hnew
        rw [hright] at hbytes
        obtain ⟨hplace, hall⟩ := replacedBytes_injective hne hhead hlast (by omega) (by simpa using hfits) (by omega)
          (Option.some.inj hbytes).symm
        have hlt := hpicked.start_lt
        have hintle := (lenOf_toInt rawBytes).1
        exact ⟨UInt64.toNat_inj.mp (by omega), (lenOf_toInt rawBytes).2.mp (by omega), hpicked⟩

/-- No bytes: then the size must not change. -/
theorem picked_of_replaces_none (hs : layout.sections[k]? = some s) (h : Replaces layout which [] k s) :
    ∃ j c, Picked layout.sections (usedOffset which) 0 j c ∧ (usedOffset which).toNat ≤ c.start + c.data.dSize := by
  have hrun := h fun _ => 0
  rw [replaced_nil, set_same hs] at hrun
  cases hfind : findClosest (usedOffset which) (lenOf []) layout.sections 0 none with
  | none =>
    unfold replaceRaw at hrun
    dsimp only at hrun
    rw [hfind] at hrun
    cases hrun
  | some r =>
    obtain ⟨j, c⟩ := r
    have hpicked := findClosest_picked.mp hfind
    rw [replaceRaw_picked hpicked] at hrun
    have hjlt := (List.getElem?_eq_some_iff.mp hpicked.section_eq).1
    cases hmod : modifyScnData (fun _ => 0) c.data (usedOffset which - c.shOffset) [] (lenOf []) with
    | error e =>
      rw [hmod] at hrun
      cases hrun
    | ok data =>
      rw [hmod] at hrun
      have hget := congrArg (·[j]?) (Except.ok.inj hrun)
      rw [List.getElem?_set_self hjlt, hpicked.section_eq] at hget
      have hkept : data = c.data := congrArg RawSection.data (Option.some.inj hget)
      obtain ⟨hle, -⟩ := modify_kept hmod (congrArg ElfData.dSize hkept)
      have hstop : (usedOffset which - c.shOffset + addrOfInt (lenOf [])).toNat = (usedOffset which).toNat - c.start := by
        rw [show addrOfInt (lenOf []) = 0 from rfl, UInt64.add_zero, sub_start hpicked.start_lt.le]
      rw [hstop] at hle
      exact ⟨j, c, hpicked, by omega⟩

/-- There are more than two bytes. -/
theorem exists_other (x y : UInt8) : ∃ b, x ≠ b ∧ y ≠ b := by
  by_cases hx : x = 0 ∨ y = 0
  · by_cases hy : x = 1 ∨ y = 1
    · exact ⟨2, by rcases hx with rfl | rfl <;> rcases hy with h | h <;> simp_all,
        by rcases hx with rfl | rfl <;> rcases hy with h | h <;> simp_all⟩
    · push Not at hy
      exact ⟨1, hy.1, hy.2⟩
  · push Not at hx
    exact ⟨0, hx.1, hx.2⟩

/-- **Exactly the requested bytes are replaced**, whatever bytes there are, if the ints hold what is requested and the section
that it lies in is taken; or if no bytes are, at a place of the section that is. -/
theorem replacesRight_iff (hs : layout.sections[k]? = some s) (hin : LiesIn s which rawBytes) :
    ReplacesRight layout which rawBytes k ↔
      (usedOffset which = which ∧ rawBytes.length < 2 ^ 31 ∧ Picked layout.sections which (lenOf rawBytes) k s) ∨
      (rawBytes = [] ∧ ∃ j c, Picked layout.sections (usedOffset which) 0 j c ∧
        (usedOffset which).toNat ≤ c.start + c.data.dSize) := by
  constructor
  · intro h
    by_cases hne : rawBytes = []
    · subst hne
      exact .inr ⟨rfl, picked_of_replaces_none hs (h layout (List.forall₂_same.mpr fun _ _ => ⟨rfl, rfl, rfl, rfl⟩) s hs)⟩
    · obtain ⟨b, hhead, hlast⟩ := exists_other (rawBytes.head hne) (rawBytes.getLast hne)
      have hshape := layout.sameShape_filledWith b
      have hs' : (layout.filledWith b).sections[k]? = some (s.filledWith b) := by
        show (layout.sections.map _)[k]? = _
        rw [List.getElem?_map, hs]
        rfl
      obtain ⟨hused, hlen, hpicked⟩ := picked_of_replaces hs' (hin.sameShape (s.sameShape_filledWith b)) hne hhead hlast
        (h _ hshape _ hs')
      have hback : List.Forall₂ RawSection.SameShape (layout.filledWith b).sections layout.sections :=
        hshape.flip.imp fun _ _ hflip => ⟨hflip.shOffset.symm, hflip.shSize.symm, hflip.dSize.symm, hflip.filled.symm⟩
      obtain ⟨c, hc, -⟩ := hpicked.sameShape hback
      cases hs.symm.trans hc.section_eq
      rw [hused] at hc
      exact .inl ⟨hused, hlen, hc⟩
  · rintro (⟨hused, hlen, hpicked⟩ | ⟨rfl, j, c, hpicked, hle⟩) other hshape s' hs'
    · obtain ⟨c, hc, hshape'⟩ := hpicked.sameShape hshape
      cases hs'.symm.trans hc.section_eq
      exact replaces_own (hin.sameShape hshape') hused hlen (by rw [hused]; exact hc)
    · obtain ⟨c', hc', hshape'⟩ := hpicked.sameShape hshape
      refine replaces_none hs' hc' ?_
      have hstart : c'.start = c.start := by
        unfold RawSection.start
        rw [hshape'.shOffset]
      rw [hstart, hshape'.dSize]
      exact hle

/-- Where every section has bytes in the file, only the first byte of one is missed. -/
theorem picked_of_filled (hs : layout.sections[k]? = some s) (hin : LiesIn s which rawBytes) (hlen : rawBytes.length < 2 ^ 31)
    (hfilled : ∀ c ∈ layout.sections, c.data.dBuf.isSome ∧ 0 < c.data.dSize) :
    Picked layout.sections which (lenOf rawBytes) k s ↔ s.start < which.toNat := by
  have hend := hin.end_lt hs
  have hstart := hin.start_le
  have hle := hin.le_end
  have hends : ∀ j c, j ≠ k → layout.sections[j]? = some c → c.start < which.toNat →
      c.start < s.start ∧ c.start + c.data.dSize ≤ which.toNat + rawBytes.length := by
    intro j c hne hc hcstart
    obtain ⟨hsome, hpos⟩ := hfilled c (List.mem_of_getElem? hc)
    have hown := (hfilled s (List.mem_of_getElem? hs)).2
    rw [layout.dSize_eq s (List.mem_of_getElem? hs)] at hown
    have hsize := layout.dSize_eq c (List.mem_of_getElem? hc)
    have hoccupies (p : Nat) (hlo : c.start ≤ p) (hhi : p < c.start + c.data.dSize) : ¬ s.Occupies p := by
      intro hp
      exact hne (layout.apart j k c s p hc hs ⟨hsome, hlo, by omega⟩ hp)
    have hfirst := hoccupies c.start le_rfl (by omega)
    have hbefore : c.start < s.start := by
      by_contra hge
      exact hfirst ⟨hin.filled, by omega, by omega⟩
    refine ⟨hbefore, ?_⟩
    by_contra hpast
    exact hoccupies s.start hbefore.le (by omega) ⟨hin.filled, le_rfl, by omega⟩
  constructor
  · intro h
    exact h.start_lt
  · intro hlt
    refine ⟨hs, hlt, fun j c hj hc hcstart => (hends j c hj.ne hc hcstart).1, fun j c hj hc hcstart => .inl ?_, .inr ?_⟩
    · have hcend := (hends j c hj.ne hc hcstart).2
      have hsize := layout.dSize_eq c (List.mem_of_getElem? hc)
      have hfile := layout.inFile c (List.mem_of_getElem? hc) (hfilled c (List.mem_of_getElem? hc)).1
      have hword : addrOfInt (lenOf rawBytes) = UInt64.ofNat rawBytes.length := by
        have hint := (lenOf_toInt rawBytes).2.mpr hlen
        have hnat : (lenOf rawBytes).toInt.toNat = rawBytes.length := by omega
        rw [← hnat]
        exact offset_toUInt64 (by omega)
      unfold RawSection.Reaches RawSection.start at *
      rw [hword, UInt64.lt_iff_toNat_lt, UInt64.toNat_add, UInt64.toNat_add,
        UInt64.toNat_ofNat_of_lt' (by show _ < 2 ^ 64; omega), Nat.mod_eq_of_lt (by omega), Nat.mod_eq_of_lt (by omega)]
      omega
    · intro j c hj hc hcstart
      exact (hends j c hj.ne' hc hcstart).1.le

end Exactly

def oneSection : RawLayout where
  sections := [⟨0x40, 4, ⟨some [1, 2, 3, 4], 4⟩⟩]
  dSize_eq := by decide
  dBuf_length := by decide
  inFile := by decide
  apart := by
    intro i j s c p hi hj _ _
    have hi := (List.getElem?_eq_some_iff.mp hi).1
    have hj := (List.getElem?_eq_some_iff.mp hj).1
    simp at hi hj
    omega

theorem oneSection_replaced : ReplacesRight oneSection 0x41 [9] 0 := by
  have hin : LiesIn ⟨0x40, 4, ⟨some [1, 2, 3, 4], 4⟩⟩ 0x41 [9] := ⟨rfl, by decide, by decide⟩
  exact (replacesRight_iff rfl hin).mpr (.inl ⟨by decide, by decide, findClosest_picked.mp rfl⟩)

/-- Its first byte cannot be replaced. -/
theorem not_replacesRight : ¬ ∀ (layout : RawLayout) (which : UInt64) (rawBytes : List UInt8) (k : Nat) (s : RawSection),
    layout.sections[k]? = some s → LiesIn s which rawBytes → ReplacesRight layout which rawBytes k := by
  intro h
  have hrun := h oneSection 0x40 [9] 0 _ rfl ⟨rfl, by decide, by decide⟩ oneSection
    (List.forall₂_same.mpr fun _ _ => ⟨rfl, rfl, rfl, rfl⟩) _ rfl fun _ => 0
  cases hrun

end Katana

/-
  Katana.Lsda.Bounds — what `parseExceptFrame` accesses of `.gcc_except_table` (exceptTable.c).

  The values read are those of Katana.Lsda.Read, of which only those are kept that steer what is read
  next. Offsets are words and wrap. A read outside the section is undefined, and so are a table that is
  never read to its end and a displacement whose sign extension C leaves open.

  Proved, for every section and list of LSDA pointers:
  - `exceptFrame_stays_iff`: the parser stays inside the section exactly if LSDAs complete in it lead to
    the end of the list or to one that is refused;
  - `exceptFrame_stays_of_parse`: where `parseExceptFrame` returns the values, nothing outside was read.
-/
import Mathlib.Data.List.Nodup
import Mathlib.Data.List.Perm.Subperm
import Katana.Lsda.TypeTable
import Katana.Dwarf.Bounds

namespace Katana

open Lib

/-! ## The accesses -/

section Accesses
variable (config : ElfBitwidth) (data : List UInt8) (sectionAddress : UInt64)

/-- The loop of `readCallSiteTable` from `i` on, an int: the first actions of the call sites that have one. -/
def accessCallSites (callSiteFormat : UInt8) (offset callSiteTableSize : Nat) : Nat → Nat → Except Fault (List Nat)
  | fuel, i =>
    if callSiteTableSize ≤ i then .ok []
    else
      match fuel with
      | 0 => .error .undefined
      | fuel + 1 => do
        let (callSite, n) ← readCallSite config data sectionAddress callSiteFormat (offset + i)
        defined (i + n < 2 ^ 31)
        if callSiteTableSize < i + n then
          .error (.death "Call site table in .gcc_except_frame was not properly formatted\n")
        else
          let rest ← accessCallSites callSiteFormat offset callSiteTableSize fuel (i + n)
          .ok (if callSite.hasAction then callSite.firstAction.toNat :: rest else rest)

def accessCallSiteTable (header : LsdaHeader) : Except Fault (List Nat) := do
  let firstActions ← accessCallSites config data sectionAddress header.callSiteFormat header.offset
    header.callSiteTableSize (data.length + 1) 0
  if data.length < header.offset + header.callSiteTableSize then
    .error (.death "Malformed LSDA in .gcc_except_table, ran out of space while reading the call site table\n")
  else .ok firstActions

/-- The actions read so far, and the highest end of one. -/
structure ActionOffsets where
  actionOffsets : List Nat
  highestActionOffset : Nat
  deriving DecidableEq, Repr

def ActionOffsets.add (st : ActionOffsets) (actionOffset n : Nat) : ActionOffsets :=
  ⟨st.actionOffsets ++ [actionOffset], max st.highestActionOffset ((actionOffset + n) % 2 ^ 64)⟩

/-- `actionOffset=(sword_t)actionOffset+nextRecordPtr`. -/
def nextActionOffset (actionOffset : Nat) (nextRecordPtr : Int) : Nat := (UInt64.ofInt (actionOffset + nextRecordPtr)).toNat

/-- A chain of actions, up to one that was read before. -/
def accessChain (offset : Nat) : Nat → ActionOffsets → Nat → Except Fault ActionOffsets
  | 0, _, _ => .error .undefined
  | fuel + 1, st, actionOffset =>
    if actionOffset ∈ st.actionOffsets then .ok st
    else do
      let (_, nextRecordPtr, n) ← readAction data ((offset + actionOffset) % 2 ^ 64)
      if nextRecordPtr = 0 then .ok (st.add actionOffset n)
      else accessChain offset fuel (st.add actionOffset n) (nextActionOffset actionOffset nextRecordPtr)

def accessActionTable (offset : Nat) (firstActions : List Nat) : Except Fault ActionOffsets :=
  firstActions.foldlM (accessChain data offset (data.length + 1)) ⟨[], 0⟩

/-- One turn of the loop of `parseExceptFrame`. -/
def accessLSDA (lsdaPointer : UInt64) : Except Fault Unit := do
  let offset := (lsdaPointer - sectionAddress).toNat
  if data.length < offset then
    .error (.death "Failed to parse except table, request for LSDA pointer outside allowable range\n")
  else
    let header ← parseLsdaHeader config data sectionAddress offset
    let firstActions ← accessCallSiteTable config data sectionAddress header
    let offset := header.offset + header.callSiteTableSize
    let st ← accessActionTable data offset firstActions
    let offset := (offset + st.highestActionOffset) % 2 ^ 64
    if data.length < offset then
      .error (.death "Malformed LSDA in .gcc_except_table, ran out of space while reading the action table\n")
    else
      let _ ← readTypeTable config data sectionAddress offset header.ttBase header.ttEncoding
      if header.ttEncoding ≠ ehPeOmit ∧ data.length < header.ttBase then
        .error (.death "Malformed LSDA in .gcc_except_table\n")
      else .ok ()

def accessExceptFrame (lsdaPointers : List UInt64) : Except Fault Unit :=
  if data.length = 0 then .ok () else lsdaPointers.forM (accessLSDA config data sectionAddress)

end Accesses

/-! ## The format -/

section Parts
variable (config : ElfBitwidth) (data : List UInt8) (sectionAddress : UInt64)

def byteField (offset : Nat) : Reading UInt8 := .within (offset < data.length) (byteAt data offset)

def NumeralAt (offset : Nat) : Prop := ∃ n rest, data.drop offset = Numeral.bytes n ++ rest

/-- A pointer of a fixed size is read only if there is room for it. A numeral has to be complete; and the rest of the
section has to fit an int where it is what bounds a pointer. -/
def PointerInside (offset : Nat) (encoding : UInt8) : Prop :=
  match peFormat encoding with
  | .uleb128 | .sleb128 => NumeralAt data offset
  | .absptr => 0 ≤ cInt (data.length - offset)
  | _ => True

def pointerField (encoding : UInt8) (offset : Nat) : Reading (UInt64 × Nat) :=
  .within (PointerInside data offset encoding) (decodeAt config data sectionAddress offset encoding)

/-- The base of the types, a numeral of up to eight bytes. -/
def baseField (offset : Nat) : Reading (Nat × Nat) :=
  (Reading.within (NumeralAt data offset) (leb128ToUWord (data.drop offset))).bind fun r =>
    .pure ((r.1 + (offset + r.2)) % 2 ^ 64, r.2)

def lsdaHeader (offset : Nat) : Reading LsdaHeader :=
  (byteField data offset).bind fun lpStartFormat =>
  (if lpStartFormat ≠ ehPeOmit then pointerField config data sectionAddress lpStartFormat (offset + 1)
    else .pure (0, 0)).bind fun lpStart =>
  (byteField data (offset + 1 + lpStart.2)).bind fun ttEncoding =>
  (if ttEncoding ≠ ehPeOmit then baseField data (offset + 1 + lpStart.2 + 1) else .pure (0, 0)).bind fun ttBase =>
  (byteField data (offset + 1 + lpStart.2 + 1 + ttBase.2)).bind fun callSiteFormat =>
  (pointerField config data sectionAddress callSiteFormat (offset + 1 + lpStart.2 + 1 + ttBase.2 + 1)).bind fun size =>
  .pure ⟨lpStart.1, ttEncoding, ttBase.1, callSiteFormat, size.1.toNat, offset + 1 + lpStart.2 + 1 + ttBase.2 + 1 + size.2⟩

def callSiteFields (callSiteFormat : UInt8) (offset : Nat) : Reading (CallSiteRecord × Nat) :=
  (pointerField config data sectionAddress callSiteFormat offset).bind fun position =>
  (pointerField config data sectionAddress callSiteFormat (offset + position.2)).bind fun length =>
  (pointerField config data sectionAddress callSiteFormat (offset + position.2 + length.2)).bind fun landingPad =>
  (pointerField config data sectionAddress callSiteFormat (offset + position.2 + length.2 + landingPad.2)).bind fun action =>
  .pure (⟨position.1, length.1, landingPad.1, action.1 - 1, action.1 != 0⟩, position.2 + length.2 + landingPad.2 + action.2)

/-- The first actions of call sites that fill their table from `i` on. -/
inductive SitesFrom (callSiteFormat : UInt8) (offset callSiteTableSize : Nat) : Nat → List Nat → Prop
  | done {i : Nat} : callSiteTableSize ≤ i → SitesFrom callSiteFormat offset callSiteTableSize i []
  | site {i n : Nat} {callSite : CallSiteRecord} {rest : List Nat} : i < callSiteTableSize →
    (callSiteFields config data sectionAddress callSiteFormat (offset + i)).gives (callSite, n) → i + n < 2 ^ 31 →
    i + n ≤ callSiteTableSize → SitesFrom callSiteFormat offset callSiteTableSize (i + n) rest →
    SitesFrom callSiteFormat offset callSiteTableSize i
      (if callSite.hasAction then callSite.firstAction.toNat :: rest else rest)

/-- Call sites up to one that is refused, or is longer than the table. -/
inductive SitesRefused (callSiteFormat : UInt8) (offset callSiteTableSize : Nat) : Nat → Prop
  | here {i : Nat} : i < callSiteTableSize →
    (callSiteFields config data sectionAddress callSiteFormat (offset + i)).refuses →
    SitesRefused callSiteFormat offset callSiteTableSize i
  | longer {i n : Nat} {callSite : CallSiteRecord} : i < callSiteTableSize →
    (callSiteFields config data sectionAddress callSiteFormat (offset + i)).gives (callSite, n) → i + n < 2 ^ 31 →
    callSiteTableSize < i + n → SitesRefused callSiteFormat offset callSiteTableSize i
  | later {i n : Nat} {callSite : CallSiteRecord} : i < callSiteTableSize →
    (callSiteFields config data sectionAddress callSiteFormat (offset + i)).gives (callSite, n) → i + n < 2 ^ 31 →
    i + n ≤ callSiteTableSize → SitesRefused callSiteFormat offset callSiteTableSize (i + n) →
    SitesRefused callSiteFormat offset callSiteTableSize i

def callSites (callSiteFormat : UInt8) (offset callSiteTableSize i : Nat) : Reading (List Nat) :=
  ⟨SitesFrom config data sectionAddress callSiteFormat offset callSiteTableSize i,
    SitesRefused config data sectionAddress callSiteFormat offset callSiteTableSize i⟩

/-- A complete numeral that can be sign-extended: C leaves open what comes of five to seven bytes. -/
def SignedAt (offset : Nat) : Prop :=
  ∃ n rest, data.drop offset = Numeral.bytes n ++ rest ∧ decodedBytes true n ≠ 0 ∧
    ¬ (5 ≤ decodedBytes true n ∧ decodedBytes true n ≤ 7)

def actionFields (offset : Nat) : Reading (Nat × Int × Nat) :=
  (Reading.within (NumeralAt data offset) (leb128ToUWord (data.drop offset))).bind fun typeIdx =>
  (Reading.within (SignedAt data (offset + typeIdx.2)) (leb128ToSWord (data.drop (offset + typeIdx.2)))).bind fun next =>
  .pure (typeIdx.1, if next.1 ≠ 0 then next.1 + typeIdx.2 else next.1, typeIdx.2 + next.2)

/-- The actions read when a chain is followed to its end or to an action read before. -/
inductive ChainTo (offset : Nat) : ActionOffsets → Nat → ActionOffsets → Prop
  | seen {st : ActionOffsets} {a : Nat} : a ∈ st.actionOffsets → ChainTo offset st a st
  | last {st : ActionOffsets} {a typeIdx n : Nat} : a ∉ st.actionOffsets →
    (actionFields data ((offset + a) % 2 ^ 64)).gives (typeIdx, 0, n) → ChainTo offset st a (st.add a n)
  | next {st st' : ActionOffsets} {a typeIdx n : Nat} {d : Int} : a ∉ st.actionOffsets →
    (actionFields data ((offset + a) % 2 ^ 64)).gives (typeIdx, d, n) → d ≠ 0 →
    ChainTo offset (st.add a n) (nextActionOffset a d) st' → ChainTo offset st a st'

/-- A chain of actions up to one that is refused. -/
inductive ChainRefused (offset : Nat) : ActionOffsets → Nat → Prop
  | here {st : ActionOffsets} {a : Nat} : a ∉ st.actionOffsets →
    (actionFields data ((offset + a) % 2 ^ 64)).refuses → ChainRefused offset st a
  | later {st : ActionOffsets} {a typeIdx n : Nat} {d : Int} : a ∉ st.actionOffsets →
    (actionFields data ((offset + a) % 2 ^ 64)).gives (typeIdx, d, n) → d ≠ 0 →
    ChainRefused offset (st.add a n) (nextActionOffset a d) → ChainRefused offset st a

def chain (offset : Nat) (st : ActionOffsets) (a : Nat) : Reading ActionOffsets :=
  ⟨ChainTo data offset st a, ChainRefused data offset st a⟩

def chains (offset : Nat) : List Nat → ActionOffsets → Reading ActionOffsets
  | [], st => .pure st
  | a :: firstActions, st => (chain data offset st a).bind fun st => chains offset firstActions st

/-- Entries downwards from the base: the first ends at it, so they are inside if it is. -/
def typeEntries (offset ttBase : Nat) (ttEncoding : UInt8) : Reading Unit :=
  if ttEncoding = ehPeOmit then .pure ()
  else
    match getPointerSizeFromEHPointerEncoding config ttEncoding with
    | .error _ => .refuse
    | .ok ttEntrySize =>
      let ttOffset := Int.bmod (ttBase - ttEntrySize - offset) (2 ^ 64)
      if ttOffset < 0 then .pure ()
      else if offset + ttOffset.toNat + ttEntrySize ≤ data.length then
        if peApplication ttEncoding = .absolute ∨ peApplication ttEncoding = .pcrel then .pure () else .refuse
      else .nothing

def lsda (offset : Nat) : Reading Unit :=
  if data.length < offset then .refuse
  else
    (lsdaHeader config data sectionAddress offset).bind fun header =>
    (callSites config data sectionAddress header.callSiteFormat header.offset header.callSiteTableSize 0).bind
      fun firstActions =>
    (chains data (header.offset + header.callSiteTableSize) firstActions ⟨[], 0⟩).bind fun st =>
    let offset := (header.offset + header.callSiteTableSize + st.highestActionOffset) % 2 ^ 64
    (typeEntries config data offset header.ttBase header.ttEncoding).bind fun _ =>
    if header.ttEncoding ≠ ehPeOmit ∧ data.length < header.ttBase then .refuse else .pure ()

def lsdas : List UInt64 → Reading Unit
  | [] => .pure ()
  | lsdaPointer :: lsdaPointers =>
    (lsda config data sectionAddress (lsdaPointer - sectionAddress).toNat).bind fun _ => lsdas lsdaPointers

def exceptFrame (lsdaPointers : List UInt64) : Reading Unit :=
  if data.length = 0 then .pure () else lsdas config data sectionAddress lsdaPointers

end Parts

/-! ## The fields -/

theorem uword_inside (p : List UInt8) : leb128ToUWord p ≠ .error .undefined ↔ ∃ n rest, p = Numeral.bytes n ++ rest := by
  constructor
  · intro h
    rcases numeral_or_open p with hnumeral | hopen
    · exact hnumeral
    · exact absurd (by simp [leb128ToUWord, decodeLEB128_open false hopen]) h
  · rintro ⟨n, rest, rfl⟩
    obtain ⟨result, hresult⟩ := decode_any false n rest
    by_cases hsize : decodedBytes false n ≤ 8
    · simp [leb128ToUWord, hresult, assert_of hsize]
    · simp [leb128ToUWord, hresult, assert_not hsize]

theorem sextend_undefined {v n : Nat} (hn : n < 8) (hwide : ¬ (1 ≤ n ∧ n ≤ 4)) : sextend v n = .error .undefined := by
  unfold sextend
  rw [if_neg (by omega), assert_of hn, bind_ok, defined_not hwide, bind_error]

theorem sword_inside (p : List UInt8) : leb128ToSWord p ≠ .error .undefined ↔
    ∃ n rest, p = Numeral.bytes n ++ rest ∧ decodedBytes true n ≠ 0 ∧
      ¬ (5 ≤ decodedBytes true n ∧ decodedBytes true n ≤ 7) := by
  have hread (n : Numeral) (rest : List UInt8) : leb128ToSWord (n.bytes ++ rest) ≠ .error .undefined ↔
      decodedBytes true n ≠ 0 ∧ ¬ (5 ≤ decodedBytes true n ∧ decodedBytes true n ≤ 7) := by
    obtain ⟨result, hresult⟩ := decode_any true n rest
    unfold leb128ToSWord
    rw [hresult, bind_ok]
    dsimp only
    generalize decodedBytes true n = size
    by_cases hsize : size ≤ 8
    · rw [assert_of hsize, bind_ok]
      by_cases hword : size < 8
      · rw [if_pos hword]
        by_cases hwide : 1 ≤ size ∧ size ≤ 4
        · obtain ⟨w, hw⟩ := @sextend_ok (leNat (result.take size)) size hwide
          simp [hw]
          omega
        · simp [sextend_undefined hword hwide]
          omega
      · rw [if_neg hword]
        simp
        omega
    · rw [assert_not hsize]
      simp
      omega
  constructor
  · intro h
    rcases numeral_or_open p with ⟨n, rest, rfl⟩ | hopen
    · exact ⟨n, rest, rfl, (hread n rest).mp h⟩
    · exact absurd (by simp [leb128ToSWord, decodeLEB128_open true hopen]) h
  · rintro ⟨n, rest, rfl, hn⟩
    exact (hread n rest).mpr hn

theorem cInt_le {z : Int} (hz : 0 ≤ z) : cInt z ≤ z := by
  have hmod := Int.emod_nonneg z (show ((2 ^ 32 : Nat) : Int) ≠ 0 by norm_num)
  have hdiv := Int.emod_add_mul_ediv z ((2 ^ 32 : Nat) : Int)
  have hquot := Int.ediv_nonneg hz (show 0 ≤ ((2 ^ 32 : Nat) : Int) by norm_num)
  unfold cInt
  rw [Int.bmod_def]
  split <;> omega

/-- What is done with a pointer that was read is never undefined. -/
theorem decodeEHPointer_undefined {config : ElfBitwidth} {p : List UInt8} {len : Int} {addr : UInt64} {encoding : UInt8} :
    decodeEHPointer config p len addr encoding = .error .undefined ↔
      readEHPointer config p len encoding = .error .undefined := by
  unfold decodeEHPointer
  cases readEHPointer config p len encoding with
  | error e => simp
  | ok r =>
    rw [bind_ok]
    cases peApplication encoding <;> simp

theorem decodeEHPointer_size {config : ElfBitwidth} {p : List UInt8} {len : Int} {addr v : UInt64} {encoding : UInt8}
    {k : Nat} (h : decodeEHPointer config p len addr encoding = .ok (v, k)) :
    ∃ x, readEHPointer config p len encoding = .ok (x, k) := by
  obtain ⟨⟨x, k'⟩, hread, h⟩ := bind_eq_ok.mp h
  cases happ : peApplication encoding <;> simp only [happ] at h <;> cases h <;> exact ⟨x, hread⟩

section Fields
variable {config : ElfBitwidth} {data : List UInt8} {sectionAddress : UInt64} {offset : Nat} {encoding : UInt8}

theorem readLE_of_le {k : Nat} {p : List UInt8} (h : k ≤ p.length) : readLE k p = .ok (leNat (p.take k)) := by
  unfold readLE
  rw [defined_of h, bind_ok]

/-- A fixed number of bytes is read only if there are as many, and as many are moved over at most. -/
theorem read_fixed {p : List UInt8} {len : Int} {k m : Nat} (hlen : len ≤ p.length) (hm : m ≤ k) :
    (assert (k ≤ len) >>= fun _ => readLE k p >>= fun result => .ok (result, m)) ≠
      (.error .undefined : Except Fault (Nat × Nat)) ∧
    ∀ r, (assert (k ≤ len) >>= fun _ => readLE k p >>= fun result => .ok (result, m)) = .ok r → r.2 ≤ p.length := by
  by_cases hk : (k : Int) ≤ len
  · rw [assert_of hk, bind_ok, readLE_of_le (by omega), bind_ok]
    refine ⟨by simp, fun r hr => ?_⟩
    cases hr
    dsimp only
    omega
  · rw [assert_not hk]
    exact ⟨by simp, fun r hr => by cases hr⟩

theorem readEHPointer_inside (hoffset : offset ≤ data.length) :
    (readEHPointer config (data.drop offset) (cInt (data.length - offset)) encoding ≠ .error .undefined ↔
      PointerInside data offset encoding) ∧
    ∀ r, readEHPointer config (data.drop offset) (cInt (data.length - offset)) encoding = .ok r →
      offset + r.2 ≤ data.length := by
  have hlen : cInt (data.length - offset) ≤ (data.drop offset).length := by
    have hle := @cInt_le (data.length - offset) (by omega)
    rw [List.length_drop]
    omega
  have hdrop : (data.drop offset).length = data.length - offset := List.length_drop
  unfold PointerInside readEHPointer
  cases hformat : peFormat encoding <;> dsimp only
  case absptr =>
    by_cases hneg : 0 ≤ cInt (data.length - offset)
    · rw [defined_of hneg, bind_ok, readLE_of_le (by omega), bind_ok]
      refine ⟨by simpa using hneg, fun r hr => ?_⟩
      cases hr
      dsimp only
      omega
    · rw [defined_not hneg]
      exact ⟨by simp [hneg], fun r hr => by cases hr⟩
  case udata2 | sdata2 =>
    have h := @read_fixed (data.drop offset) _ 2 2 hlen le_rfl
    exact ⟨iff_of_true h.1 trivial, fun r hr => by have := h.2 r hr; omega⟩
  case udata4 | sdata4 =>
    have h := @read_fixed (data.drop offset) _ 4 4 hlen le_rfl
    exact ⟨iff_of_true h.1 trivial, fun r hr => by have := h.2 r hr; omega⟩
  case udata8 | sdata8 =>
    have h := @read_fixed (data.drop offset) _ 8 4 hlen (by omega)
    exact ⟨iff_of_true h.1 trivial, fun r hr => by have := h.2 r hr; omega⟩
  case uleb128 | sleb128 =>
    refine ⟨uword_inside (data.drop offset), fun r hr => ?_⟩
    obtain ⟨d, hd, hr⟩ := bind_eq_ok.mp hr
    obtain ⟨-, -, hr⟩ := bind_eq_ok.mp hr
    cases hr
    have hle := decodeLEB128_le hd
    dsimp only
    omega
  case other => exact ⟨by simp, fun r hr => by cases hr⟩

theorem pointerField_conforms (hoffset : offset ≤ data.length) :
    Conforms .undefined (decodeAt config data sectionAddress offset encoding)
      (pointerField config data sectionAddress encoding offset) := by
  refine conforms_within ?_
  unfold decodeAt
  rw [ne_eq, decodeEHPointer_undefined]
  exact (readEHPointer_inside hoffset).1

theorem decodeAt_le (hoffset : offset ≤ data.length) {v : UInt64} {k : Nat}
    (h : decodeAt config data sectionAddress offset encoding = .ok (v, k)) : offset + k ≤ data.length := by
  obtain ⟨x, hx⟩ := decodeEHPointer_size h
  exact (readEHPointer_inside hoffset).2 (x, k) hx

theorem byteField_conforms (data : List UInt8) (offset : Nat) :
    Conforms .undefined (byteAt data offset) (byteField data offset) := by
  refine conforms_within ?_
  unfold byteAt
  by_cases hlt : offset < data.length
  · simp [hlt]
  · simp [hlt]

theorem lt_of_byteAt {b : UInt8} (h : byteAt data offset = .ok b) : offset < data.length := by
  unfold byteAt at h
  split at h
  · rename_i hget
    exact (List.getElem?_eq_some_iff.mp hget).1
  · cases h

theorem uwordField_conforms (data : List UInt8) (offset : Nat) :
    Conforms .undefined (leb128ToUWord (data.drop offset))
      (.within (NumeralAt data offset) (leb128ToUWord (data.drop offset))) :=
  conforms_within (uword_inside _)

theorem uword_le {v k : Nat} (hoffset : offset ≤ data.length) (h : leb128ToUWord (data.drop offset) = .ok (v, k)) :
    offset + k ≤ data.length := by
  obtain ⟨d, hd, h⟩ := bind_eq_ok.mp h
  obtain ⟨-, -, h⟩ := bind_eq_ok.mp h
  cases h
  have hle := decodeLEB128_le hd
  rw [List.length_drop] at hle
  omega

/-! ## The header and the call sites -/

theorem baseField_conforms (data : List UInt8) (offset : Nat) :
    Conforms .undefined (leb128ToUWord (data.drop offset) >>= fun r => .ok ((r.1 + (offset + r.2)) % 2 ^ 64, r.2))
      (baseField data offset) :=
  (uwordField_conforms data offset).bind fun _ _ => conforms_pure _

/-- The decoder and its assertion are those of `leb128ToUWord`. -/
theorem decode_base (p : List UInt8) (offset : Nat) :
    (decodeLEB128 p false >>= fun d => assert (d.numBytes ≤ 8) >>= fun _ =>
      .ok ((leNat (d.result.take d.numBytes) + (offset + d.numSeptetsRead)) % 2 ^ 64, d.numSeptetsRead)) =
    leb128ToUWord p >>= fun r => (.ok ((r.1 + (offset + r.2)) % 2 ^ 64, r.2) : Except Fault (Nat × Nat)) := by
  unfold leb128ToUWord
  cases decodeLEB128 p false with
  | error e => simp only [bind_error]
  | ok d =>
    by_cases hsize : d.numBytes ≤ 8
    · simp only [bind_ok, assert_of hsize]
    · simp only [bind_ok, assert_not hsize, bind_error]

theorem ite_bind {c : Prop} [Decidable c] {α β : Type} (x y : Except Fault α) (f : α → Except Fault β) :
    ((if c then x else y) >>= f) = if c then x >>= f else y >>= f := by
  split <;> rfl

/-- The header's fields, one behind the other. -/
theorem parseLsdaHeader_eq (config : ElfBitwidth) (data : List UInt8) (sectionAddress : UInt64) (offset : Nat) :
    parseLsdaHeader config data sectionAddress offset =
      byteAt data offset >>= fun lpStartFormat =>
      (if lpStartFormat ≠ ehPeOmit then decodeAt config data sectionAddress (offset + 1) lpStartFormat
        else .ok (0, 0)) >>= fun lpStart =>
      byteAt data (offset + 1 + lpStart.2) >>= fun ttEncoding =>
      (if ttEncoding ≠ ehPeOmit then leb128ToUWord (data.drop (offset + 1 + lpStart.2 + 1)) >>= fun r =>
        .ok ((r.1 + (offset + 1 + lpStart.2 + 1 + r.2)) % 2 ^ 64, r.2) else .ok (0, 0)) >>= fun ttBase =>
      byteAt data (offset + 1 + lpStart.2 + 1 + ttBase.2) >>= fun callSiteFormat =>
      decodeAt config data sectionAddress (offset + 1 + lpStart.2 + 1 + ttBase.2 + 1) callSiteFormat >>= fun size =>
      if data.length < offset + 1 + lpStart.2 + 1 + ttBase.2 + 1 + size.2 then
        .error (.death "Malformed LSDA in .gcc_except_table, ran out of space while reading the header\n")
      else .ok ⟨lpStart.1, ttEncoding, ttBase.1, callSiteFormat, size.1.toNat,
        offset + 1 + lpStart.2 + 1 + ttBase.2 + 1 + size.2⟩ := by
  unfold parseLsdaHeader
  simp only [← decode_base, ite_bind, bind_ok, bind_assoc]

theorem parseLsdaHeader_conforms (data : List UInt8) (offset : Nat) :
    Conforms .undefined (parseLsdaHeader config data sectionAddress offset) (lsdaHeader config data sectionAddress offset) ∧
    ∀ header, parseLsdaHeader config data sectionAddress offset = .ok header → header.offset ≤ data.length := by
  rw [parseLsdaHeader_eq]
  constructor
  · refine (byteField_conforms data offset).bind fun lpStartFormat hlp => ?_
    have hstart := lt_of_byteAt hlp
    have hlpStart : Conforms .undefined
        (if lpStartFormat ≠ ehPeOmit then decodeAt config data sectionAddress (offset + 1) lpStartFormat else .ok (0, 0))
        (if lpStartFormat ≠ ehPeOmit then pointerField config data sectionAddress lpStartFormat (offset + 1)
          else .pure (0, 0)) := by
      split
      · exact pointerField_conforms hstart
      · exact conforms_pure _
    refine hlpStart.bind fun lpStart _ => ?_
    refine (byteField_conforms data _).bind fun ttEncoding _ => ?_
    have hbase : Conforms .undefined
        (if ttEncoding ≠ ehPeOmit then leb128ToUWord (data.drop (offset + 1 + lpStart.2 + 1)) >>= fun r =>
          .ok ((r.1 + (offset + 1 + lpStart.2 + 1 + r.2)) % 2 ^ 64, r.2) else .ok (0, 0))
        (if ttEncoding ≠ ehPeOmit then baseField data (offset + 1 + lpStart.2 + 1) else .pure (0, 0)) := by
      split
      · exact baseField_conforms data _
      · exact conforms_pure _
    refine hbase.bind fun ttBase _ => ?_
    refine (byteField_conforms data _).bind fun callSiteFormat hcs => ?_
    have hformat := lt_of_byteAt hcs
    refine (pointerField_conforms hformat).bind fun size hsize => ?_
    have hend := decodeAt_le hformat hsize
    rw [if_neg (by omega)]
    exact conforms_pure _
  · intro header h
    obtain ⟨lpStartFormat, -, h⟩ := bind_eq_ok.mp h
    obtain ⟨lpStart, -, h⟩ := bind_eq_ok.mp h
    obtain ⟨ttEncoding, -, h⟩ := bind_eq_ok.mp h
    obtain ⟨ttBase, -, h⟩ := bind_eq_ok.mp h
    obtain ⟨callSiteFormat, -, h⟩ := bind_eq_ok.mp h
    obtain ⟨size, -, h⟩ := bind_eq_ok.mp h
    split at h
    · cases h
    · rename_i hlt
      cases h
      exact Nat.not_lt.mp hlt

theorem readCallSite_conforms {callSiteFormat : UInt8} (hoffset : offset ≤ data.length) :
    Conforms .undefined (readCallSite config data sectionAddress callSiteFormat offset)
      (callSiteFields config data sectionAddress callSiteFormat offset) ∧
    ∀ r, readCallSite config data sectionAddress callSiteFormat offset = .ok r → offset + r.2 ≤ data.length := by
  unfold readCallSite callSiteFields
  rw [if_neg (by omega)]
  constructor
  · refine (pointerField_conforms hoffset).bind ?_
    rintro ⟨position, n1⟩ h1
    have hle1 := decodeAt_le hoffset h1
    refine (pointerField_conforms hle1).bind ?_
    rintro ⟨length, n2⟩ h2
    have hle2 := decodeAt_le hle1 h2
    refine (pointerField_conforms hle2).bind ?_
    rintro ⟨landingPad, n3⟩ h3
    have hle3 := decodeAt_le hle2 h3
    refine (pointerField_conforms hle3).bind ?_
    rintro ⟨action, n4⟩ -
    exact conforms_pure _
  · intro r h
    obtain ⟨⟨position, n1⟩, h1, h⟩ := bind_eq_ok.mp h
    have hle1 := decodeAt_le hoffset h1
    obtain ⟨⟨length, n2⟩, h2, h⟩ := bind_eq_ok.mp h
    have hle2 := decodeAt_le hle1 h2
    obtain ⟨⟨landingPad, n3⟩, h3, h⟩ := bind_eq_ok.mp h
    have hle3 := decodeAt_le hle2 h3
    obtain ⟨⟨action, n4⟩, h4, h⟩ := bind_eq_ok.mp h
    have hle4 := decodeAt_le hle3 h4
    cases h
    dsimp only at *
    omega

end Fields

section CallSites
variable {config : ElfBitwidth} {data : List UInt8} {sectionAddress : UInt64} {callSiteFormat : UInt8}
  {offset callSiteTableSize fuel i : Nat} {firstActions : List Nat}

theorem accessCallSites_done (hi : callSiteTableSize ≤ i) :
    accessCallSites config data sectionAddress callSiteFormat offset callSiteTableSize fuel i = .ok [] := by
  unfold accessCallSites
  rw [if_pos hi]

theorem accessCallSites_turn (hi : i < callSiteTableSize) :
    accessCallSites config data sectionAddress callSiteFormat offset callSiteTableSize (fuel + 1) i =
      readCallSite config data sectionAddress callSiteFormat (offset + i) >>= fun r =>
        defined (i + r.2 < 2 ^ 31) >>= fun _ =>
          if callSiteTableSize < i + r.2 then
            .error (.death "Call site table in .gcc_except_frame was not properly formatted\n")
          else
            accessCallSites config data sectionAddress callSiteFormat offset callSiteTableSize fuel (i + r.2) >>= fun rest =>
              .ok (if r.1.hasAction then r.1.firstAction.toNat :: rest else rest) := by
  rw [accessCallSites, if_neg (by omega)]

/-- A call site that takes nothing is read for ever. -/
theorem sites_advance (hoffset : offset + i ≤ data.length) (hi : i < callSiteTableSize) {callSite : CallSiteRecord}
    (hsite : (callSiteFields config data sectionAddress callSiteFormat (offset + i)).gives (callSite, 0)) :
    (∀ l, ¬ SitesFrom config data sectionAddress callSiteFormat offset callSiteTableSize i l) ∧
    ¬ SitesRefused config data sectionAddress callSiteFormat offset callSiteTableSize i := by
  have hread := ((readCallSite_conforms hoffset).1.ok _).mpr hsite
  have honly (r : CallSiteRecord × Nat) : (callSiteFields config data sectionAddress callSiteFormat (offset + i)).gives r ↔
      r = (callSite, 0) := ((readCallSite_conforms hoffset).1.gives_iff hread).1
  have hno : ¬ (callSiteFields config data sectionAddress callSiteFormat (offset + i)).refuses :=
    (@Conforms.gives_iff _ _ _ _ _ (readCallSite_conforms hoffset).1 _ (callSite, 0) hread).2
  constructor
  · intro l h
    generalize hj : i = j at h
    induction h with
    | done hle => omega
    | site _ hgives _ _ _ ih =>
      subst hj
      cases (honly _).mp hgives
      exact ih rfl
  · intro h
    generalize hj : i = j at h
    induction h with
    | here _ hrefuses =>
      subst hj
      exact hno hrefuses
    | longer _ hgives _ hlt =>
      subst hj
      cases (honly _).mp hgives
      omega
    | later _ hgives _ _ _ ih =>
      subst hj
      cases (honly _).mp hgives
      exact ih rfl

theorem sites_inside (h : SitesFrom config data sectionAddress callSiteFormat offset callSiteTableSize i firstActions)
    (hi : i ≤ callSiteTableSize) (hoffset : offset + i ≤ data.length) : offset + callSiteTableSize ≤ data.length := by
  induction h with
  | done hle => omega
  | site _ hgives _ hle _ ih =>
    have hread := ((readCallSite_conforms hoffset).1.ok _).mpr hgives
    have hin := (readCallSite_conforms hoffset).2 _ hread
    exact ih hle (by dsimp only at hin; omega)

def sitesBehind (config : ElfBitwidth) (data : List UInt8) (sectionAddress : UInt64) (callSiteFormat : UInt8)
    (offset callSiteTableSize i : Nat) (r : CallSiteRecord × Nat) : Reading (List Nat) :=
  if i + r.2 < 2 ^ 31 then
    if callSiteTableSize < i + r.2 then .refuse
    else (callSites config data sectionAddress callSiteFormat offset callSiteTableSize (i + r.2)).bind fun rest =>
      .pure (if r.1.hasAction then r.1.firstAction.toNat :: rest else rest)
  else .nothing

theorem callSites_gives (hi : i < callSiteTableSize) :
    (callSites config data sectionAddress callSiteFormat offset callSiteTableSize i).gives firstActions ↔
      ((callSiteFields config data sectionAddress callSiteFormat (offset + i)).bind
        (sitesBehind config data sectionAddress callSiteFormat offset callSiteTableSize i)).gives firstActions := by
  constructor
  · intro h
    cases h with
    | done hle => omega
    | site _ hgives hint hle hrest =>
      refine ⟨_, hgives, ?_⟩
      unfold sitesBehind
      rw [if_pos hint, if_neg (by dsimp only; omega)]
      exact ⟨_, hrest, rfl⟩
  · rintro ⟨⟨callSite, n⟩, hgives, h⟩
    unfold sitesBehind at h
    by_cases hint : i + n < 2 ^ 31
    · rw [if_pos hint] at h
      by_cases hle : callSiteTableSize < i + n
      · rw [if_pos hle] at h
        exact h.elim
      · rw [if_neg hle] at h
        obtain ⟨rest, hrest, rfl⟩ := h
        exact .site hi hgives hint (Nat.not_lt.mp hle) hrest
    · rw [if_neg hint] at h
      exact h.elim

theorem callSites_refuses (hi : i < callSiteTableSize) :
    (callSites config data sectionAddress callSiteFormat offset callSiteTableSize i).refuses ↔
      ((callSiteFields config data sectionAddress callSiteFormat (offset + i)).bind
        (sitesBehind config data sectionAddress callSiteFormat offset callSiteTableSize i)).refuses := by
  constructor
  · intro h
    cases h with
    | here _ hrefuses => exact .inl hrefuses
    | longer _ hgives hint hlt =>
      refine .inr ⟨_, hgives, ?_⟩
      unfold sitesBehind
      rw [if_pos hint, if_pos hlt]
      trivial
    | later _ hgives hint hle hrest =>
      refine .inr ⟨_, hgives, ?_⟩
      unfold sitesBehind
      rw [if_pos hint, if_neg (by dsimp only; omega)]
      exact .inl hrest
  · rintro (hrefuses | ⟨⟨callSite, n⟩, hgives, h⟩)
    · exact .here hi hrefuses
    · unfold sitesBehind at h
      by_cases hint : i + n < 2 ^ 31
      · rw [if_pos hint] at h
        by_cases hle : callSiteTableSize < i + n
        · exact .longer hi hgives hint hle
        · rw [if_neg hle] at h
          refine .later hi hgives hint (Nat.not_lt.mp hle) (h.resolve_right ?_)
          rintro ⟨rest, -, hrest⟩
          exact hrest
      · rw [if_neg hint] at h
        exact h.elim

theorem accessCallSites_stuck (hi : i < callSiteTableSize) {callSite : CallSiteRecord}
    (hread : readCallSite config data sectionAddress callSiteFormat (offset + i) = .ok (callSite, 0)) :
    accessCallSites config data sectionAddress callSiteFormat offset callSiteTableSize fuel i = .error .undefined := by
  induction fuel with
  | zero =>
    unfold accessCallSites
    rw [if_neg (by omega)]
  | succ fuel ih =>
    rw [accessCallSites_turn hi, hread, bind_ok]
    by_cases hint : i + 0 < 2 ^ 31
    · rw [defined_of hint, bind_ok, if_neg (by dsimp only; omega), Nat.add_zero, ih, bind_error]
    · rw [defined_not hint, bind_error]

/-- Call sites are gone through where all of them are complete, or up to one that is refused. -/
theorem accessCallSites_conforms (hoffset : offset + i ≤ data.length) (hfuel : data.length < fuel + (offset + i)) :
    Conforms .undefined (accessCallSites config data sectionAddress callSiteFormat offset callSiteTableSize fuel i)
      (callSites config data sectionAddress callSiteFormat offset callSiteTableSize i) := by
  induction fuel generalizing i with
  | zero => omega
  | succ fuel ih =>
    by_cases hi : callSiteTableSize ≤ i
    · rw [accessCallSites_done hi]
      refine (conforms_pure []).congr (fun l => ⟨?_, fun h => ?_⟩) ⟨False.elim, fun h => ?_⟩
      · rintro rfl
        exact .done hi
      · cases h with
        | done _ => rfl
        | site hlt _ _ _ _ => omega
      · cases h <;> omega
    · have hlt := Nat.not_le.mp hi
      obtain ⟨hconforms, hin⟩ := @readCallSite_conforms config data sectionAddress (offset + i) callSiteFormat hoffset
      by_cases hstuck : ∃ callSite, readCallSite config data sectionAddress callSiteFormat (offset + i) = .ok (callSite, 0)
      · obtain ⟨callSite, hread⟩ := hstuck
        obtain ⟨hgives, hrefuses⟩ := sites_advance hoffset hlt ((hconforms.ok _).mp hread)
        rw [accessCallSites_stuck hlt hread]
        exact conforms_stray.congr (fun l => iff_of_false id (hgives l)) (iff_of_false id hrefuses)
      · rw [accessCallSites_turn hlt]
        refine Conforms.congr (hconforms.bind fun r hr => ?_) (fun l => (callSites_gives hlt).symm)
          (callSites_refuses hlt).symm
        have hpos : 0 < r.2 := by
          by_contra hzero
          exact hstuck ⟨r.1, by rw [hr, ← Nat.eq_zero_of_not_pos hzero]⟩
        have hend := hin r hr
        unfold sitesBehind
        by_cases hint : i + r.2 < 2 ^ 31
        · rw [defined_of hint, bind_ok, if_pos hint]
          by_cases hle : callSiteTableSize < i + r.2
          · rw [if_pos hle, if_pos hle]
            exact conforms_refuse (by simp)
          · rw [if_neg hle, if_neg hle]
            exact (ih (by omega) (by omega)).bind fun _ _ => conforms_pure _
        · rw [defined_not hint, if_neg hint]
          exact conforms_stray

/-- The check behind the loop comes too late: complete call sites are inside. -/
theorem accessCallSiteTable_conforms {header : LsdaHeader} (hoffset : header.offset ≤ data.length) :
    Conforms .undefined (accessCallSiteTable config data sectionAddress header)
      (callSites config data sectionAddress header.callSiteFormat header.offset header.callSiteTableSize 0) ∧
    ∀ l, accessCallSiteTable config data sectionAddress header = .ok l →
      header.offset + header.callSiteTableSize ≤ data.length := by
  have hconforms := @accessCallSites_conforms config data sectionAddress header.callSiteFormat header.offset
    header.callSiteTableSize (data.length + 1) 0 (by omega) (by omega)
  unfold accessCallSiteTable
  cases hrun : accessCallSites config data sectionAddress header.callSiteFormat header.offset
      header.callSiteTableSize (data.length + 1) 0 with
  | error e =>
    rw [hrun] at hconforms
    exact ⟨hconforms, fun l h => by cases h⟩
  | ok l =>
    have hinside := sites_inside ((hconforms.ok l).mp hrun) (Nat.zero_le _) (by omega)
    rw [hrun] at hconforms
    rw [bind_ok, if_neg (by omega)]
    exact ⟨hconforms, fun _ _ => hinside⟩

end CallSites

/-! ## The actions -/

/-- The actions read lie inside, each once. -/
structure ActionsInside (data : List UInt8) (offset : Nat) (st : ActionOffsets) : Prop where
  nodup : st.actionOffsets.Nodup
  word : ∀ a ∈ st.actionOffsets, a < 2 ^ 64
  inside : ∀ a ∈ st.actionOffsets, (offset + a) % 2 ^ 64 < data.length
  highest : (offset + st.highestActionOffset) % 2 ^ 64 ≤ data.length

section Actions
variable {data : List UInt8} {offset fuel a : Nat} {st st' : ActionOffsets}

theorem actionsInside_nil (hoffset : offset ≤ data.length) : ActionsInside data offset ⟨[], 0⟩ where
  nodup := List.nodup_nil
  word := nofun
  inside := nofun
  highest := (Nat.mod_le _ _).trans hoffset

theorem ActionsInside.length_le (h : ActionsInside data offset st) : st.actionOffsets.length ≤ data.length := by
  have hnodup : (st.actionOffsets.map fun a => (offset + a) % 2 ^ 64).Nodup := by
    refine List.Nodup.map_on (fun a ha b hb heq => ?_) h.nodup
    have hlta := h.word a ha
    have hltb := h.word b hb
    omega
  have hsub : (st.actionOffsets.map fun a => (offset + a) % 2 ^ 64) ⊆ List.range data.length := by
    intro x hx
    obtain ⟨a, ha, rfl⟩ := List.mem_map.mp hx
    exact List.mem_range.mpr (h.inside a ha)
  simpa using (List.subperm_of_subset hnodup hsub).length_le

theorem readAction_conforms (data : List UInt8) (position : Nat) :
    Conforms .undefined (readAction data position) (actionFields data position) := by
  unfold readAction actionFields
  refine (uwordField_conforms data position).bind fun typeIdx _ => ?_
  exact (conforms_within (sword_inside _)).bind fun _ _ => conforms_pure _

/-- A record that is read lies inside. -/
theorem readAction_inside {position typeIdx n : Nat} {d : Int} (h : readAction data position = .ok (typeIdx, d, n)) :
    position < data.length ∧ position + n ≤ data.length := by
  obtain ⟨⟨t, n1⟩, h1, h⟩ := bind_eq_ok.mp h
  obtain ⟨⟨next, n2⟩, h2, h⟩ := bind_eq_ok.mp h
  have hlt : position < data.length := by
    by_contra hge
    rw [List.drop_eq_nil_of_le (Nat.not_lt.mp hge)] at h1
    cases h1
  have hle1 := uword_le hlt.le h1
  obtain ⟨result, hd, h2⟩ := bind_eq_ok.mp h2
  have hle2 := decodeLEB128_le hd
  have hn2 : n2 = result.numSeptetsRead := by
    obtain ⟨-, -, h2⟩ := bind_eq_ok.mp h2
    dsimp only at h2
    split at h2
    · obtain ⟨x, -, h2⟩ := bind_eq_ok.mp h2
      exact (Prod.mk.inj (Except.ok.inj h2)).2.symm
    · exact (Prod.mk.inj (Except.ok.inj h2)).2.symm
  have hn : n1 + n2 = n := (Prod.mk.inj (Prod.mk.inj (Except.ok.inj h)).2).2
  rw [List.length_drop] at hle2
  omega

theorem ActionsInside.add (h : ActionsInside data offset st) {typeIdx n : Nat} {d : Int} (ha : a < 2 ^ 64)
    (hnew : a ∉ st.actionOffsets) (hread : readAction data ((offset + a) % 2 ^ 64) = .ok (typeIdx, d, n)) :
    ActionsInside data offset (st.add a n) := by
  obtain ⟨hlt, hle⟩ := readAction_inside hread
  constructor
  · have hsingle : [a].Nodup := List.nodup_singleton a
    refine List.nodup_append.mpr ⟨h.nodup, hsingle, fun b hb c hc => ?_⟩
    rw [List.mem_singleton.mp hc]
    rintro rfl
    exact hnew hb
  · intro b hb
    rcases List.mem_append.mp hb with hb | hb
    · exact h.word b hb
    · rw [List.mem_singleton.mp hb]
      exact ha
  · intro b hb
    rcases List.mem_append.mp hb with hb | hb
    · exact h.inside b hb
    · rw [List.mem_singleton.mp hb]
      exact hlt
  · have hhighest := h.highest
    unfold ActionOffsets.add
    dsimp only
    rcases le_total st.highestActionOffset ((a + n) % 2 ^ 64) with hmax | hmax
    · rw [max_eq_right hmax]
      omega
    · rw [max_eq_left hmax]
      exact hhighest

theorem nextActionOffset_lt (a : Nat) (d : Int) : nextActionOffset a d < 2 ^ 64 := UInt64.toNat_lt _

theorem accessChain_inside (h : ActionsInside data offset st) (ha : a < 2 ^ 64)
    (hrun : accessChain data offset fuel st a = .ok st') : ActionsInside data offset st' := by
  induction fuel generalizing st a with
  | zero => cases hrun
  | succ fuel ih =>
    unfold accessChain at hrun
    split at hrun
    · cases hrun
      exact h
    · rename_i hnew
      obtain ⟨⟨typeIdx, d, n⟩, hread, hrun⟩ := bind_eq_ok.mp hrun
      dsimp only at hrun
      split at hrun
      · cases hrun
        exact h.add ha hnew hread
      · exact ih (h.add ha hnew hread) (nextActionOffset_lt a d) hrun

def chainBehind (data : List UInt8) (offset : Nat) (st : ActionOffsets) (a : Nat) (r : Nat × Int × Nat) :
    Reading ActionOffsets :=
  if r.2.1 = 0 then .pure (st.add a r.2.2) else chain data offset (st.add a r.2.2) (nextActionOffset a r.2.1)

theorem chain_seen (ha : a ∈ st.actionOffsets) : (∀ st', (chain data offset st a).gives st' ↔ st' = st) ∧
    ¬ (chain data offset st a).refuses := by
  constructor
  · intro st'
    constructor
    · intro h
      cases h with
      | seen _ => rfl
      | last hnew _ => exact absurd ha hnew
      | next hnew _ _ _ => exact absurd ha hnew
    · rintro rfl
      exact .seen ha
  · intro h
    cases h with
    | here hnew _ => exact absurd ha hnew
    | later hnew _ _ _ => exact absurd ha hnew

theorem chain_gives (hnew : a ∉ st.actionOffsets) : (chain data offset st a).gives st' ↔
    ((actionFields data ((offset + a) % 2 ^ 64)).bind (chainBehind data offset st a)).gives st' := by
  constructor
  · intro h
    cases h with
    | seen ha => exact absurd ha hnew
    | last _ hgives => exact ⟨_, hgives, rfl⟩
    | next _ hgives hd hrest =>
      refine ⟨_, hgives, ?_⟩
      unfold chainBehind
      rw [if_neg hd]
      exact hrest
  · rintro ⟨⟨typeIdx, d, n⟩, hgives, h⟩
    unfold chainBehind at h
    by_cases hd : d = 0
    · rw [if_pos hd] at h
      cases h
      rw [hd] at hgives
      exact .last hnew hgives
    · rw [if_neg hd] at h
      exact .next hnew hgives hd h

theorem chain_refuses (hnew : a ∉ st.actionOffsets) : (chain data offset st a).refuses ↔
    ((actionFields data ((offset + a) % 2 ^ 64)).bind (chainBehind data offset st a)).refuses := by
  constructor
  · intro h
    cases h with
    | here _ hrefuses => exact .inl hrefuses
    | later _ hgives hd hrest =>
      refine .inr ⟨_, hgives, ?_⟩
      unfold chainBehind
      rw [if_neg hd]
      exact hrest
  · rintro (hrefuses | ⟨⟨typeIdx, d, n⟩, hgives, h⟩)
    · exact .here hnew hrefuses
    · unfold chainBehind at h
      by_cases hd : d = 0
      · rw [if_pos hd] at h
        exact h.elim
      · rw [if_neg hd] at h
        exact .later hnew hgives hd h

/-- A chain is followed to its end, which it has: no record is read twice, and there are no more than bytes. -/
theorem accessChain_conforms (h : ActionsInside data offset st) (ha : a < 2 ^ 64)
    (hfuel : data.length < fuel + st.actionOffsets.length) :
    Conforms .undefined (accessChain data offset fuel st a) (chain data offset st a) := by
  induction fuel generalizing st a with
  | zero =>
    have hle := h.length_le
    omega
  | succ fuel ih =>
    unfold accessChain
    by_cases hseen : a ∈ st.actionOffsets
    · obtain ⟨hgives, hrefuses⟩ := @chain_seen data offset a st hseen
      rw [if_pos hseen]
      exact (conforms_pure st).congr (fun st' => (hgives st').symm) (iff_of_false id hrefuses)
    · rw [if_neg hseen]
      refine Conforms.congr ((readAction_conforms data _).bind (S := chainBehind data offset st a) fun r hr => ?_)
        (fun st' => (chain_gives hseen).symm) (chain_refuses hseen).symm
      obtain ⟨typeIdx, d, n⟩ := r
      unfold chainBehind
      dsimp only
      split
      · exact conforms_pure _
      · refine ih (h.add ha hseen hr) (nextActionOffset_lt a d) ?_
        simp [ActionOffsets.add]
        omega

theorem accessActionTable_conforms (firstActions : List Nat) (hfirst : ∀ a ∈ firstActions, a < 2 ^ 64)
    (h : ActionsInside data offset st) :
    Conforms .undefined (firstActions.foldlM (accessChain data offset (data.length + 1)) st)
      (chains data offset firstActions st) ∧
    ∀ st', firstActions.foldlM (accessChain data offset (data.length + 1)) st = .ok st' → ActionsInside data offset st' := by
  induction firstActions generalizing st with
  | nil =>
    refine ⟨conforms_pure st, fun st' hrun => ?_⟩
    cases hrun
    exact h
  | cons a firstActions ih =>
    have ha := hfirst a (by simp)
    have hrest := fun b hb => hfirst b (List.mem_cons_of_mem a hb)
    rw [List.foldlM_cons]
    constructor
    · exact (accessChain_conforms h ha (by omega)).bind fun st' hst' => (ih hrest (accessChain_inside h ha hst')).1
    · intro st' hrun
      obtain ⟨st1, hst1, hrun⟩ := bind_eq_ok.mp hrun
      exact (ih hrest (accessChain_inside h ha hst1)).2 st' hrun

end Actions

/-! ## The types -/

section Types
variable {config : ElfBitwidth} {data p : List UInt8} {sectionAddress : UInt64} {ttEncoding : UInt8} {ttEntrySize : Nat}

/-- An entry reads as many bytes as it is said to have. -/
theorem readEHPointer_entry (hsize : getPointerSizeFromEHPointerEncoding config ttEncoding = .ok ttEntrySize)
    (homit : ttEncoding ≠ ehPeOmit) :
    (ttEntrySize ≤ p.length → ∃ r, readEHPointer config p ttEntrySize ttEncoding = .ok r) ∧
    (p.length < ttEntrySize → readEHPointer config p ttEntrySize ttEncoding = .error .undefined) := by
  unfold getPointerSizeFromEHPointerEncoding at hsize
  rw [if_neg homit] at hsize
  unfold readEHPointer
  cases hformat : peFormat ttEncoding <;> simp only [hformat] at hsize <;> cases hsize
  all_goals
    refine ⟨fun h => ?_, fun h => ?_⟩
    · simp [readLE_of_le h]
    · simp [readLE, Nat.not_le.mpr h]

theorem decodeEHPointer_applied {len : Int} {addr : UInt64} {r : Nat × Nat}
    (hread : readEHPointer config p len ttEncoding = .ok r) :
    if peApplication ttEncoding = .absolute ∨ peApplication ttEncoding = .pcrel then
      ∃ v, decodeEHPointer config p len addr ttEncoding = .ok v
    else ∃ msg, decodeEHPointer config p len addr ttEncoding = .error (.death msg) := by
  unfold decodeEHPointer
  rw [hread, bind_ok]
  cases peApplication ttEncoding <;> simp

theorem pointerSize_error {e : Fault} (h : getPointerSizeFromEHPointerEncoding config ttEncoding = .error e) :
    e ≠ .undefined := by
  rintro rfl
  unfold getPointerSizeFromEHPointerEncoding at h
  split at h
  · cases h
  · cases hformat : peFormat ttEncoding <;> simp [hformat] at h

theorem mapM_first {f : Nat → Except Fault UInt64} {e : Fault} {n : Nat} (h : f 0 = .error e) :
    (List.range (n + 1)).mapM f = .error e := by
  rw [List.range_succ_eq_map, List.mapM_cons, h, bind_error]

theorem readTypeEntry_cases (hsize : getPointerSizeFromEHPointerEncoding config ttEncoding = .ok ttEntrySize)
    (homit : ttEncoding ≠ ehPeOmit) (position : Nat) :
    if position + ttEntrySize ≤ data.length then
      if peApplication ttEncoding = .absolute ∨ peApplication ttEncoding = .pcrel then
        ∃ v, readTypeEntry config data sectionAddress ttEncoding ttEntrySize position = .ok v
      else ∃ msg, readTypeEntry config data sectionAddress ttEncoding ttEntrySize position = .error (.death msg)
    else readTypeEntry config data sectionAddress ttEncoding ttEntrySize position = .error .undefined := by
  have hpos := pointerSize_cases hsize homit
  obtain ⟨hin, hout⟩ := @readEHPointer_entry config (data.drop position) ttEncoding ttEntrySize hsize homit
  rw [List.length_drop] at hin hout
  unfold readTypeEntry
  by_cases hinside : position + ttEntrySize ≤ data.length
  · rw [if_pos hinside]
    obtain ⟨r, hr⟩ := hin (by omega)
    have happlied := @decodeEHPointer_applied _ _ _ _ (sectionAddress + UInt64.ofNat position) _ hr
    by_cases happ : peApplication ttEncoding = .absolute ∨ peApplication ttEncoding = .pcrel
    · rw [if_pos happ] at happlied ⊢
      obtain ⟨v, hv⟩ := happlied
      exact ⟨v.1, by rw [hv, bind_ok]⟩
    · rw [if_neg happ] at happlied ⊢
      obtain ⟨msg, hmsg⟩ := happlied
      exact ⟨msg, by rw [hmsg, bind_error]⟩
  · rw [if_neg hinside, decodeEHPointer_undefined.mpr (hout (by omega)), bind_error]

/-- The entries lie below the first one. -/
theorem accessTypeTable_conforms (offset ttBase : Nat) :
    Conforms .undefined (readTypeTable config data sectionAddress offset ttBase ttEncoding >>= fun _ => .ok ())
      (typeEntries config data offset ttBase ttEncoding) := by
  unfold readTypeTable typeEntries
  by_cases homit : ttEncoding = ehPeOmit
  · rw [if_neg (not_not.mpr homit), if_pos homit, bind_ok]
    exact conforms_pure ()
  · rw [if_pos homit, if_neg homit]
    cases hsize : getPointerSizeFromEHPointerEncoding config ttEncoding with
    | error e => exact conforms_refuse (pointerSize_error hsize)
    | ok ttEntrySize =>
      have hpos : 0 < ttEntrySize := by
        have hcases := pointerSize_cases hsize homit
        omega
      rw [bind_ok]
      dsimp only
      generalize Int.bmod (ttBase - ttEntrySize - offset) (2 ^ 64) = ttOffset
      by_cases hneg : ttOffset < 0
      · rw [if_pos hneg, if_neg (by omega)]
        exact conforms_pure ()
      · rw [if_neg hneg, if_pos (by omega)]
        change Conforms _ (List.mapM (fun ttIdx => readTypeEntry config data sectionAddress ttEncoding ttEntrySize
          (offset + (ttOffset.toNat - ttIdx * ttEntrySize))) (List.range (ttOffset.toNat / ttEntrySize + 1)) >>= _) _
        have hentry := @readTypeEntry_cases config data sectionAddress ttEncoding ttEntrySize hsize homit
        have hfirst := hentry (offset + (ttOffset.toNat - 0 * ttEntrySize))
        rw [Nat.zero_mul, Nat.sub_zero] at hfirst
        by_cases hinside : offset + ttOffset.toNat + ttEntrySize ≤ data.length
        · rw [if_pos hinside] at hfirst ⊢
          by_cases happ : peApplication ttEncoding = .absolute ∨ peApplication ttEncoding = .pcrel
          · have hall (ttIdx : Nat) : ∃ v, readTypeEntry config data sectionAddress ttEncoding ttEntrySize
                (offset + (ttOffset.toNat - ttIdx * ttEntrySize)) = .ok v := by
              have h := hentry (offset + (ttOffset.toNat - ttIdx * ttEntrySize))
              rwa [if_pos (by omega), if_pos happ] at h
            choose g hg using hall
            rw [if_pos happ, mapM_ok fun ttIdx _ => hg ttIdx, bind_ok]
            exact conforms_pure ()
          · rw [if_neg happ] at hfirst ⊢
            obtain ⟨msg, hmsg⟩ := hfirst
            rw [mapM_first (by simpa using hmsg), bind_error]
            exact conforms_refuse (by simp)
        · rw [if_neg hinside] at hfirst ⊢
          rw [mapM_first (by simpa using hfirst), bind_error]
          exact conforms_stray

end Types

/-! ## The section -/

section Frame
variable {config : ElfBitwidth} {data : List UInt8} {sectionAddress : UInt64}

/-- First actions are words. -/
theorem sites_words {callSiteFormat : UInt8} {offset callSiteTableSize i : Nat} {firstActions : List Nat}
    (h : SitesFrom config data sectionAddress callSiteFormat offset callSiteTableSize i firstActions) :
    ∀ a ∈ firstActions, a < 2 ^ 64 := by
  induction h with
  | done _ => simp
  | @site i n callSite rest _ _ _ _ _ ih =>
    intro a ha
    split at ha
    · rcases List.mem_cons.mp ha with ha | ha
      · rw [ha]
        exact UInt64.toNat_lt _
      · exact ih a ha
    · exact ih a ha

theorem accessLSDA_conforms (config : ElfBitwidth) (data : List UInt8) (sectionAddress lsdaPointer : UInt64) :
    Conforms .undefined (accessLSDA config data sectionAddress lsdaPointer)
      (lsda config data sectionAddress (lsdaPointer - sectionAddress).toNat) := by
  unfold accessLSDA lsda
  by_cases hpast : data.length < (lsdaPointer - sectionAddress).toNat
  · rw [if_pos hpast, if_pos hpast]
    exact conforms_refuse (by simp)
  · rw [if_neg hpast, if_neg hpast]
    obtain ⟨hheader, hstart⟩ := @parseLsdaHeader_conforms config sectionAddress data (lsdaPointer - sectionAddress).toNat
    refine hheader.bind fun header hrun => ?_
    obtain ⟨hsites, hend⟩ := @accessCallSiteTable_conforms config data sectionAddress header (hstart header hrun)
    refine hsites.bind fun firstActions hrun => ?_
    have hwords := sites_words ((hsites.ok _).mp hrun)
    obtain ⟨hchains, hinside⟩ := accessActionTable_conforms firstActions hwords
      (actionsInside_nil (hend firstActions hrun))
    refine hchains.bind fun st hrun => ?_
    -- the highest end of an action is the end of one, so this check comes too late as well
    have hhighest := (hinside st hrun).highest
    rw [if_neg (Nat.not_lt.mpr hhighest)]
    have htypes := @accessTypeTable_conforms config data sectionAddress header.ttEncoding
      ((header.offset + header.callSiteTableSize + st.highestActionOffset) % 2 ^ 64) header.ttBase
    have hlast : Conforms Fault.undefined
        (if header.ttEncoding ≠ ehPeOmit ∧ data.length < header.ttBase then
          .error (Fault.death "Malformed LSDA in .gcc_except_table\n") else .ok ())
        (if header.ttEncoding ≠ ehPeOmit ∧ data.length < header.ttBase then .refuse else .pure ()) := by
      split
      · exact conforms_refuse (by simp)
      · exact conforms_pure ()
    have hboth := htypes.bind fun _ _ => hlast
    rw [bind_assoc] at hboth
    exact hboth

theorem accessLSDAs_conforms (lsdaPointers : List UInt64) :
    Conforms .undefined (lsdaPointers.forM (accessLSDA config data sectionAddress))
      (lsdas config data sectionAddress lsdaPointers) := by
  induction lsdaPointers with
  | nil => exact conforms_pure ()
  | cons lsdaPointer lsdaPointers ih => exact (accessLSDA_conforms config data sectionAddress lsdaPointer).bind fun _ _ => ih

/-! ### What is read stays inside -/

/-- What of the actions read steers the reading. -/
def ReadActions.offsets (st : ReadActions) : ActionOffsets := ⟨st.actionOffsets, st.highestActionOffset⟩

@[simp] theorem offsets_link (st : ReadActions) (previousActionIdx : Option Nat) (actionIdx : Nat) :
    (st.link previousActionIdx actionIdx).offsets = st.offsets := by
  cases previousActionIdx <;> rfl

@[simp] theorem actionOffsets_link (st : ReadActions) (previousActionIdx : Option Nat) (actionIdx : Nat) :
    (st.link previousActionIdx actionIdx).actionOffsets = st.actionOffsets := by
  cases previousActionIdx <;> rfl

@[simp] theorem highest_link (st : ReadActions) (previousActionIdx : Option Nat) (actionIdx : Nat) :
    (st.link previousActionIdx actionIdx).highestActionOffset = st.highestActionOffset := by
  cases previousActionIdx <;> rfl

theorem accessChain_of_follow {offset fuel a i : Nat} {st st' : ReadActions} {prev : Option Nat}
    (hrun : followChain data offset fuel st a prev = .ok (st', i)) (hword : st'.highestActionOffset < 2 ^ 64) :
    st.highestActionOffset ≤ st'.highestActionOffset ∧ accessChain data offset fuel st.offsets a = .ok st'.offsets := by
  induction fuel generalizing st a i prev with
  | zero => cases hrun
  | succ fuel ih =>
    unfold followChain at hrun
    unfold accessChain
    split at hrun
    · rename_i k hfind
      have hmem : a ∈ st.offsets.actionOffsets := by
        have hsome := @List.findIdx?_isSome _ st.actionOffsets (· == a)
        rw [hfind] at hsome
        simpa [ReadActions.offsets] using hsome.symm
      cases hrun
      rw [if_pos hmem]
      simp
    · rename_i hfind
      have hnew : a ∉ st.offsets.actionOffsets := by
        intro ha
        have hnone := List.findIdx?_eq_none_iff.mp hfind a ha
        simp at hnone
      obtain ⟨⟨typeIdx, d, n⟩, hread, hrun⟩ := bind_eq_ok.mp hrun
      rw [if_neg hnew, hread, bind_ok]
      dsimp only at hrun ⊢
      split at hrun
      · rename_i hd
        cases hrun
        rw [highest_link] at hword ⊢
        dsimp only at hword ⊢
        rw [if_pos hd, offsets_link]
        refine ⟨le_max_left _ _, ?_⟩
        simp only [ReadActions.offsets, ActionOffsets.add]
        rw [Nat.mod_eq_of_lt (show a + n < 2 ^ 64 by omega)]
      · rename_i hd
        obtain ⟨⟨st1, j⟩, hrest, hrun⟩ := bind_eq_ok.mp hrun
        cases hrun
        obtain ⟨hle, haccess⟩ := ih hrest
        rw [highest_link] at hle
        dsimp only at hle hword
        rw [offsets_link] at haccess
        refine ⟨by dsimp only; omega, ?_⟩
        rw [if_neg hd]
        simp only [ReadActions.offsets, ActionOffsets.add] at haccess ⊢
        rw [Nat.mod_eq_of_lt (show a + n < 2 ^ 64 by omega)]
        exact haccess

def firstActionsOf (callSites : List CallSiteRecord) : List Nat :=
  (callSites.filter CallSiteRecord.hasAction).map fun callSite => callSite.firstAction.toNat

theorem accessActionTable_of_read {offset : Nat} {callSites done done' : List CallSiteRecord} {st st' : ReadActions}
    (hrun : callSites.foldlM (readChain data offset) (st, done) = .ok (st', done'))
    (hword : st'.highestActionOffset < 2 ^ 64) :
    st.highestActionOffset ≤ st'.highestActionOffset ∧
      (firstActionsOf callSites).foldlM (accessChain data offset (data.length + 1)) st.offsets = .ok st'.offsets := by
  induction callSites generalizing st done with
  | nil =>
    cases hrun
    exact ⟨le_rfl, rfl⟩
  | cons callSite callSites ih =>
    rw [List.foldlM_cons] at hrun
    obtain ⟨⟨st1, done1⟩, hone, hrun⟩ := bind_eq_ok.mp hrun
    obtain ⟨hle, hrest⟩ := ih hrun
    unfold readChain at hone
    dsimp only at hone hle hrest
    by_cases haction : callSite.hasAction = true
    · rw [if_pos haction] at hone
      obtain ⟨⟨st2, j⟩, hchain, hone⟩ := bind_eq_ok.mp hone
      cases hone
      dsimp only at hle hrest
      obtain ⟨hle1, hfirst⟩ := accessChain_of_follow hchain (by omega)
      have hcons : firstActionsOf (callSite :: callSites) = callSite.firstAction.toNat :: firstActionsOf callSites := by
        simp [firstActionsOf, haction]
      rw [hcons, List.foldlM_cons, hfirst, bind_ok]
      exact ⟨by omega, hrest⟩
    · rw [if_neg haction] at hone
      cases hone
      have hcons : firstActionsOf (callSite :: callSites) = firstActionsOf callSites := by
        simp [firstActionsOf, haction]
      rw [hcons]
      exact ⟨hle, hrest⟩

theorem accessCallSites_of_read {callSiteFormat : UInt8} {offset callSiteTableSize fuel i : Nat}
    {callSites : List CallSiteRecord} (hlen : data.length < 2 ^ 31) (hi : i ≤ callSiteTableSize)
    (hrun : readCallSites config data sectionAddress callSiteFormat fuel (offset + i) (callSiteTableSize - i) =
      .ok callSites) :
    accessCallSites config data sectionAddress callSiteFormat offset callSiteTableSize fuel i =
      .ok (firstActionsOf callSites) := by
  induction fuel generalizing i callSites with
  | zero =>
    cases hsize : callSiteTableSize - i with
    | zero =>
      rw [hsize] at hrun
      cases hrun
      exact accessCallSites_done (by omega)
    | succ size =>
      rw [hsize] at hrun
      cases hrun
  | succ fuel ih =>
    cases hsize : callSiteTableSize - i with
    | zero =>
      rw [hsize] at hrun
      cases hrun
      exact accessCallSites_done (by omega)
    | succ size =>
      rw [hsize] at hrun
      obtain ⟨⟨callSite, n⟩, hread, hrun⟩ := bind_eq_ok.mp hrun
      dsimp only at hrun
      split at hrun
      · cases hrun
      · rename_i hle
        obtain ⟨rest, hrest, hrun⟩ := bind_eq_ok.mp hrun
        cases hrun
        have hoffset : offset + i ≤ data.length := by
          by_contra hpast
          unfold readCallSite at hread
          rw [if_pos (by omega)] at hread
          cases hread
        have hend := (readCallSite_conforms hoffset).2 _ hread
        dsimp only at hend
        rw [← hsize, Nat.add_assoc, show callSiteTableSize - i - n = callSiteTableSize - (i + n) by omega] at hrest
        rw [accessCallSites_turn (by omega), hread, bind_ok, defined_of (by dsimp only; omega), bind_ok,
          if_neg (by dsimp only; omega), ih (by omega) hrest, bind_ok]
        by_cases haction : callSite.hasAction = true
        · simp [firstActionsOf, haction]
        · simp [firstActionsOf, haction]

theorem accessLSDA_of_parse {lsdaPointer : UInt64} {r : LSDA} (hlen : data.length < 2 ^ 31)
    (hrun : parseLSDA config data sectionAddress lsdaPointer = .ok r) :
    accessLSDA config data sectionAddress lsdaPointer = .ok () := by
  unfold parseLSDA at hrun
  unfold accessLSDA
  dsimp only at hrun ⊢
  split at hrun
  · cases hrun
  · rename_i hpast
    rw [if_neg hpast]
    obtain ⟨⟨header, callSites, actions, offset⟩, htables, hrun⟩ := bind_eq_ok.mp hrun
    obtain ⟨header, hheader, htables⟩ := bind_eq_ok.mp htables
    obtain ⟨sites, hsites, htables⟩ := bind_eq_ok.mp htables
    obtain ⟨⟨st, callSites⟩, hactions, htables⟩ := bind_eq_ok.mp htables
    cases htables
    dsimp only at hrun
    split at hrun
    · cases hrun
    · rename_i hend
      obtain ⟨types, htypes, hrun⟩ := bind_eq_ok.mp hrun
      obtain ⟨read, hread, hsites⟩ := bind_eq_ok.mp hsites
      split at hsites
      · cases hsites
      · rename_i hfits
        cases hsites
        have hfirst := accessCallSites_of_read (i := 0) hlen (Nat.zero_le _) hread
        obtain ⟨-, hchains⟩ := accessActionTable_of_read hactions (by omega)
        have hwrap : (header.offset + header.callSiteTableSize + st.highestActionOffset) % 2 ^ 64 =
            header.offset + header.callSiteTableSize + st.highestActionOffset := Nat.mod_eq_of_lt (by omega)
        have htable : accessCallSiteTable config data sectionAddress header = .ok (firstActionsOf sites) := by
          unfold accessCallSiteTable
          rw [hfirst, bind_ok, if_neg hfits]
        have hactions : accessActionTable data (header.offset + header.callSiteTableSize) (firstActionsOf sites) =
            .ok st.offsets := hchains
        rw [hheader, bind_ok, htable, bind_ok, hactions, bind_ok]
        simp only [ReadActions.offsets, hwrap]
        rw [if_neg hend, htypes, bind_ok]
        split at hrun
        · cases hrun
        · rename_i hbase
          rw [if_neg hbase]

/-- Where the values are read, nothing outside was. -/
theorem exceptFrame_stays_of_parse {lsdaPointers : List UInt64} {r : List LSDA} (hlen : data.length < 2 ^ 31)
    (hrun : parseExceptFrame config data sectionAddress lsdaPointers = .ok r) :
    accessExceptFrame config data sectionAddress lsdaPointers = .ok () := by
  unfold parseExceptFrame at hrun
  unfold accessExceptFrame
  split at hrun
  · rename_i hempty
    rw [if_pos hempty]
  · rename_i hsome
    rw [if_neg hsome]
    induction lsdaPointers generalizing r with
    | nil => rfl
    | cons lsdaPointer lsdaPointers ih =>
      rw [List.mapM_cons] at hrun
      obtain ⟨one, hone, hrun⟩ := bind_eq_ok.mp hrun
      obtain ⟨rest, hrest, -⟩ := bind_eq_ok.mp hrun
      show (accessLSDA config data sectionAddress lsdaPointer >>= fun _ => _) = _
      rw [accessLSDA_of_parse hlen hone, bind_ok]
      exact ih hrest

/-- **The parser stays inside** the section exactly if its LSDAs are complete up to the end of the list, or to one that
is refused. -/
theorem exceptFrame_stays_iff (config : ElfBitwidth) (data : List UInt8) (sectionAddress : UInt64)
    (lsdaPointers : List UInt64) : StaysInside (accessExceptFrame config data sectionAddress lsdaPointers) ↔
      (exceptFrame config data sectionAddress lsdaPointers).Known := by
  refine Conforms.strays_iff ?_
  unfold accessExceptFrame exceptFrame
  split
  · exact conforms_pure ()
  · exact accessLSDAs_conforms lsdaPointers

end Frame

/-- A pointer to the end of the section is let through. -/
theorem not_exceptFrame_stays : ¬ ∀ (config : ElfBitwidth) (data : List UInt8) (sectionAddress : UInt64)
    (lsdaPointers : List UInt64), StaysInside (accessExceptFrame config data sectionAddress lsdaPointers) := by
  intro h
  exact h .unset [0xff] 0x1000 [0x1001] (by decide)

end Katana

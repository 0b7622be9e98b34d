/-
  Katana.Augmentation — reading the augmentation of a CIE (callFrameInfo.c, parseAugmentationStringAndData).

  Each letter of the string takes what it needs from the data. The reader wants a byte left at every
  letter, also at one that takes none, and after a pointer of eight bytes it goes on four bytes too early.

  Proved:
  - `parseLetter_P` / `parseLetter_L` / `parseLetter_R`: what one letter does.
  - `accepts_iff`: which well-formed augmentations are accepted.
  - `recovers_augmentation_iff`: which written augmentations are read back.
  - `augmentation_iff`: both.
-/
import Katana.FramePointers

namespace Katana

open Lib

/-! ## parseAugmentationStringAndData -/

/-- What one letter takes from the data at `offset`, and the offset after it. -/
def takeLetter (config : ElfBitwidth) (data : List UInt8) (augDataAddress : UInt64) (cie : CIE) (offset : Nat) (c : Char) :
    Except Fault (CIE × Nat) :=
  match c with
  | 'z' => .ok ({ cie with augmentationFlags := { cie.augmentationFlags with dataPresent := true } }, offset)
  | 'R' =>
    .ok ({ cie with
      augmentationFlags := { cie.augmentationFlags with fdeEnc := true }
      fdePointerEncoding := data.getD offset 0 }, offset + 1)
  | 'P' => do
    let personality ← decodeEHPointer config (data.drop (offset + 1)) (data.length - (offset + 1 : Nat))
      (augDataAddress + UInt64.ofNat (offset + 1)) (data.getD offset 0)
    .ok ({ cie with
      augmentationFlags := { cie.augmentationFlags with personality := true }
      personalityPointerEncoding := data.getD offset 0
      personalityFunction := personality.1 }, offset + 1 + personality.2)
  | 'L' =>
    .ok ({ cie with
      augmentationFlags := { cie.augmentationFlags with fdeLsda := true }
      fdeLSDAPointerEncoding := data.getD offset 0 }, offset + 1)
  | _ => .ok (cie, offset)

/-- One round of the loop: the CIE so far and the offset in the data. -/
def parseLetter (config : ElfBitwidth) (data : List UInt8) (augDataAddress : UInt64) (st : CIE × Nat) (c : Char) :
    Except Fault (CIE × Nat) := do
  assert (st.2 < data.length)
  takeLetter config data augDataAddress st.1 st.2 c

def parseAugmentationStringAndData (config : ElfBitwidth) (cie : CIE) (augmentationString : List Char) (data : List UInt8)
    (augDataAddress : UInt64) : Except Fault CIE := do
  let st ← augmentationString.foldlM (parseLetter config data augDataAddress) (cie, 0)
  .ok st.1

/-! ## One letter -/

section Letters
variable {config : ElfBitwidth} {data rest : List UInt8} {address : UInt64} {cie : CIE} {off : Nat} {b : UInt8}

theorem lt_of_drop (h : data.drop off = b :: rest) : off < data.length := by
  by_contra hge
  rw [List.drop_eq_nil_of_le (by omega)] at h
  cases h

theorem getD_of_drop (h : data.drop off = b :: rest) : data.getD off 0 = b := by
  rw [List.getD_eq_getElem?_getD, ← List.head?_drop, h]
  rfl

theorem parseLetter_past {c : Char} (h : data.length ≤ off) :
    parseLetter config data address (cie, off) c = .error .assertion := by
  unfold parseLetter
  rw [assert_not (by simpa using h)]
  rfl

theorem parseLetter_of {c : Char} (h : off < data.length) :
    parseLetter config data address (cie, off) c = takeLetter config data address cie off c := by
  unfold parseLetter
  rw [assert_of h, bind_ok]

theorem parseLetter_R (h : data.drop off = b :: rest) : parseLetter config data address (cie, off) 'R' =
    .ok ({ cie with
      augmentationFlags := { cie.augmentationFlags with fdeEnc := true }, fdePointerEncoding := b }, off + 1) := by
  rw [parseLetter_of (lt_of_drop h), ← getD_of_drop h]
  rfl

theorem parseLetter_L (h : data.drop off = b :: rest) : parseLetter config data address (cie, off) 'L' =
    .ok ({ cie with
      augmentationFlags := { cie.augmentationFlags with fdeLsda := true }, fdeLSDAPointerEncoding := b }, off + 1) := by
  rw [parseLetter_of (lt_of_drop h), ← getD_of_drop h]
  rfl

theorem parseLetter_P (h : data.drop off = b :: rest) : parseLetter config data address (cie, off) 'P' =
    decodeEHPointer config rest rest.length (address + UInt64.ofNat (off + 1)) b >>= fun personality =>
      .ok ({ cie with
        augmentationFlags := { cie.augmentationFlags with personality := true }
        personalityPointerEncoding := b
        personalityFunction := personality.1 }, off + 1 + personality.2) := by
  have hdrop : data.drop (off + 1) = rest := by rw [← List.drop_drop, h]; rfl
  have hlen : (data.length : Int) - (off + 1 : Nat) = rest.length := by
    have hlt := lt_of_drop h
    have hcut := congrArg List.length hdrop
    rw [List.length_drop] at hcut
    omega
  rw [parseLetter_of (lt_of_drop h)]
  unfold takeLetter
  simp only [hdrop, hlen, getD_of_drop h]

end Letters

/-! ## Well-formed augmentations -/

/-- A letter of an augmentation string with its data. -/
inductive AugItem where
  | z | S
  | P (encoding : UInt8) (pointer : List UInt8)
  | L (encoding : UInt8)
  | R (encoding : UInt8)
  deriving DecidableEq, Repr

namespace AugItem

def letter : AugItem → Char
  | z => 'z' | S => 'S' | P _ _ => 'P' | L _ => 'L' | R _ => 'R'

def data : AugItem → List UInt8
  | z | S => []
  | P encoding pointer => encoding :: pointer
  | L encoding | R encoding => [encoding]

end AugItem

def LebFormat (encoding : UInt8) : Prop := peFormat encoding = .uleb128 ∨ peFormat encoding = .sleb128

/-- The bytes are those of a pointer in the encoding's format; a numeral has the ten septets a word takes at most. -/
def PointerBytes (config : ElfBitwidth) (encoding : UInt8) (pointer : List UInt8) : Prop :=
  getPointerSizeFromEHPointerEncoding config encoding = .ok pointer.length ∨
    LebFormat encoding ∧ ∃ l, l ≠ [] ∧ (∀ d ∈ l, d < 128) ∧ l.length ≤ 10 ∧ pointer = mark l

/-- No letter stands twice, and the personality pointer has the bytes its encoding says. -/
structure WellFormedAugmentation (config : ElfBitwidth) (items : List AugItem) : Prop where
  nodup : (items.map AugItem.letter).Nodup
  pointer : ∀ encoding pointer, .P encoding pointer ∈ items → PointerBytes config encoding pointer

/-- A pointer can be decoded: its application is supported, and a numeral spells a word. -/
def DecodablePointer (encoding : UInt8) (pointer : List UInt8) : Prop :=
  Supported encoding ∧ (LebFormat encoding → ∀ v k, readUleb pointer = some (v, k) → v < 2 ^ 64)

/-- What it takes to be accepted: a personality pointer that can be decoded, and a byte left at the last letter. Some are
left after a pointer of eight bytes. -/
structure Acceptable (items : List AugItem) : Prop where
  personality : ∀ encoding pointer, .P encoding pointer ∈ items → DecodablePointer encoding pointer
  last : items = [] ∨ (∃ item, items.getLast? = some item ∧ item.data ≠ []) ∨
    ∃ encoding pointer, .P encoding pointer ∈ items ∧ EightByteFormat encoding

section Accept
variable {config : ElfBitwidth} {data : List UInt8} {address : UInt64} {cie : CIE} {off : Nat} {items : List AugItem}

def dataOf (items : List AugItem) : List UInt8 := items.flatMap AugItem.data

theorem parseLetter_plain {item : AugItem} (hP : ∀ e p, item ≠ .P e p) (h : off < data.length) :
    ∃ cie', parseLetter config data address (cie, off) item.letter = .ok (cie', off + item.data.length) := by
  rw [parseLetter_of h]
  cases item with
  | P e p => exact absurd rfl (hP e p)
  | _ => exact ⟨_, rfl⟩

/-- Letters other than `P` go through as long as a byte is left. -/
theorem plain_run (hP : ∀ e p, AugItem.P e p ∉ items) (h : items = [] ∨ off + (dataOf items.dropLast).length < data.length) :
    ∃ cie', (items.map AugItem.letter).foldlM (parseLetter config data address) (cie, off) =
      .ok (cie', off + (dataOf items).length) := by
  induction items generalizing cie off with
  | nil => exact ⟨cie, rfl⟩
  | cons item items ih =>
    rcases h with h | h
    · cases h
    · obtain ⟨cie1, h1⟩ := @parseLetter_plain config data address cie off item
        (fun e p he => hP e p (by simp [he])) (by omega)
      have hrest : items = [] ∨ off + item.data.length + (dataOf items.dropLast).length < data.length := by
        rcases items with _ | ⟨next, items⟩
        · exact .inl rfl
        · refine .inr ?_
          simp [dataOf] at h ⊢
          omega
      obtain ⟨cie2, h2⟩ := @ih cie1 (off + item.data.length) (fun e p he => hP e p (by simp [he])) hrest
      refine ⟨cie2, ?_⟩
      rw [List.map_cons, List.foldlM_cons, h1, bind_ok, h2]
      simp [dataOf, Nat.add_assoc]

/-- And they do not when none is left before the last of them. -/
theorem plain_stuck (hP : ∀ e p, AugItem.P e p ∉ items) (hne : items ≠ [])
    (h : data.length ≤ off + (dataOf items.dropLast).length) :
    ¬ ((items.map AugItem.letter).foldlM (parseLetter config data address) (cie, off)).isOk := by
  induction items generalizing cie off with
  | nil => exact absurd rfl hne
  | cons item items ih =>
    rw [List.map_cons, List.foldlM_cons]
    by_cases hlt : off < data.length
    · obtain ⟨cie1, h1⟩ := @parseLetter_plain config data address cie off item
        (fun e p he => hP e p (by simp [he])) hlt
      rw [h1, bind_ok]
      rcases items with _ | ⟨next, items⟩
      · simp [dataOf] at h
        omega
      · refine ih (fun e p he => hP e p (by simp [he])) (by simp) ?_
        simp [dataOf] at h ⊢
        omega
    · rw [parseLetter_past (by omega), bind_error]
      exact Bool.false_ne_true

theorem not_lebFormat {encoding : UInt8} {k : Nat} (hk : getPointerSizeFromEHPointerEncoding config encoding = .ok k)
    (ho : encoding ≠ ehPeOmit) : ¬ LebFormat encoding := by
  unfold getPointerSizeFromEHPointerEncoding at hk
  rw [if_neg ho] at hk
  rintro (hf | hf) <;> rw [hf] at hk <;> cases hk

theorem bytesRead_leb {encoding : UInt8} (h : LebFormat encoding) (k : Nat) : bytesRead encoding k = k := by
  refine if_neg ?_
  rintro (h8 | h8) <;> rcases h with hf | hf <;> rw [hf] at h8 <;> cases h8

/-- The personality pointer goes through if it can be decoded. -/
theorem personality_run {encoding : UInt8} {pointer rest : List UInt8} (hb : PointerBytes config encoding pointer)
    (hdrop : data.drop off = encoding :: (pointer ++ rest)) (h : DecodablePointer encoding pointer) :
    ∃ cie', parseLetter config data address (cie, off) 'P' = .ok (cie', off + 1 + bytesRead encoding pointer.length) := by
  obtain ⟨hs, hword⟩ := h
  have ho := not_omit_of_application hs
  have hread : ∃ v, readEHPointer config (pointer ++ rest) (pointer ++ rest).length encoding =
      .ok (v, bytesRead encoding pointer.length) := by
    rcases hb with hk | ⟨hleb, l, hne, hl, hlen, rfl⟩
    · have hbytes := readEHPointer_toLE hk ho (leNat pointer) rest (show _ ≤ ((pointer ++ rest).length : Int) by simp)
      rw [toLE_leNat] at hbytes
      exact ⟨_, hbytes⟩
    · have hvalue := hword hleb _ _ (by rw [← List.append_nil (mark l)]; exact readUleb_mark hne hl)
      rw [readEHPointer_mark hleb hne hl hlen, if_pos hvalue, length_mark, bytesRead_leb hleb]
      exact ⟨_, rfl⟩
  obtain ⟨v, hv⟩ := hread
  rw [parseLetter_P hdrop, decodeEHPointer_of hv hs, bind_ok]
  exact ⟨_, rfl⟩

/-- And not otherwise. -/
theorem personality_stuck {encoding : UInt8} {pointer rest : List UInt8} (hb : PointerBytes config encoding pointer)
    (hdrop : data.drop off = encoding :: (pointer ++ rest)) (h : ¬ DecodablePointer encoding pointer) :
    ¬ (parseLetter config data address (cie, off) 'P').isOk := by
  have hnot : ¬ (decodeEHPointer config (pointer ++ rest) (pointer ++ rest).length
    (address + UInt64.ofNat (off + 1)) encoding).isOk := by
    by_cases hs : Supported encoding
    · rcases hb with hk | ⟨hleb, l, hne, hl, hlen, rfl⟩
      · exact absurd ⟨hs, fun hleb => absurd hleb (not_lebFormat hk (not_omit_of_application hs))⟩ h
      · have hbig : ¬ Nat.ofDigits 128 l < 2 ^ 64 := by
          intro hlt
          refine h ⟨hs, fun _ v k hv => ?_⟩
          rw [← List.append_nil (mark l), readUleb_mark hne hl] at hv
          cases hv
          exact hlt
        unfold decodeEHPointer
        rw [readEHPointer_mark hleb hne hl hlen, if_neg hbig, bind_error]
        exact Bool.false_ne_true
    · exact not_decodeEHPointer hs
  rw [parseLetter_P hdrop]
  cases hd : decodeEHPointer config (pointer ++ rest) (pointer ++ rest).length
    (address + UInt64.ofNat (off + 1)) encoding with
  | error e => rw [bind_error]; exact Bool.false_ne_true
  | ok r => rw [hd] at hnot; exact absurd rfl hnot

theorem isOk_parse {letters : List Char} : (parseAugmentationStringAndData config cie letters data address).isOk =
    (letters.foldlM (parseLetter config data address) (cie, 0)).isOk := by
  unfold parseAugmentationStringAndData
  cases letters.foldlM (parseLetter config data address) (cie, 0) <;> rfl

/-- The data of all letters but the last is less than all of it when the last has some. -/
theorem dropLast_lt (hne : items ≠ []) :
    (dataOf items.dropLast).length < (dataOf items).length ↔ ∃ item, items.getLast? = some item ∧ item.data ≠ [] := by
  obtain ⟨init, last, rfl⟩ : ∃ init last, items = init ++ [last] := ⟨_, _, (List.dropLast_concat_getLast hne).symm⟩
  rw [List.dropLast_concat]
  simp [dataOf, List.length_pos_iff]

theorem dropLast_le (items : List AugItem) : (dataOf items.dropLast).length ≤ (dataOf items).length := by
  by_cases hne : items = []
  · rw [hne]
    rfl
  · obtain ⟨init, last, rfl⟩ : ∃ init last, items = init ++ [last] := ⟨_, _, (List.dropLast_concat_getLast hne).symm⟩
    rw [List.dropLast_concat]
    simp [dataOf]

/-- Without a personality pointer only the last letter matters. -/
theorem accepts_plain (hP : ∀ e p, AugItem.P e p ∉ items) :
    ((items.map AugItem.letter).foldlM (parseLetter config (dataOf items) address) (cie, 0)).isOk ↔ Acceptable items := by
  have hlast : Acceptable items ↔ items = [] ∨ ∃ item, items.getLast? = some item ∧ item.data ≠ [] := by
    constructor
    · intro h
      rcases h.last with h | h | ⟨e, p, h, -⟩
      · exact .inl h
      · exact .inr h
      · exact absurd h (hP e p)
    · intro h
      refine ⟨fun e p hep => absurd hep (hP e p), ?_⟩
      rcases h with h | h
      · exact .inl h
      · exact .inr (.inl h)
  rw [hlast]
  by_cases hne : items = []
  · subst hne
    exact iff_of_true rfl (.inl rfl)
  · by_cases hlt : (dataOf items.dropLast).length < (dataOf items).length
    · obtain ⟨cie', h⟩ := @plain_run config (dataOf items) address cie 0 items hP (.inr (by omega))
      rw [h]
      exact iff_of_true rfl (.inr ((dropLast_lt hne).mp hlt))
    · refine iff_of_false (plain_stuck hP hne (by omega)) ?_
      rintro (h | h)
      · exact hne h
      · exact hlt ((dropLast_lt hne).mpr h)

/-- A personality pointer is followed and preceded by other letters. -/
theorem split_personality {encoding : UInt8} {pointer : List UInt8} (hn : (items.map AugItem.letter).Nodup)
    (h : .P encoding pointer ∈ items) : ∃ before after, items = before ++ .P encoding pointer :: after ∧
      (∀ e p, AugItem.P e p ∉ before) ∧ ∀ e p, AugItem.P e p ∉ after := by
  obtain ⟨before, after, rfl⟩ := List.append_of_mem h
  rw [List.map_append, List.map_cons, List.nodup_append] at hn
  obtain ⟨-, hafter, hdisj⟩ := hn
  refine ⟨before, after, rfl, fun e p hep => ?_, fun e p hep => ?_⟩
  · exact hdisj 'P' (List.mem_map.mpr ⟨_, hep, rfl⟩) 'P' (by simp [AugItem.letter]) rfl
  · exact (List.nodup_cons.mp hafter).1 (List.mem_map.mpr ⟨_, hep, rfl⟩)

theorem bytesRead_cases {encoding : UInt8} {pointer : List UInt8} (hb : PointerBytes config encoding pointer) :
    EightByteFormat encoding ∧ pointer.length = 8 ∧ bytesRead encoding pointer.length = 4 ∨
      ¬ EightByteFormat encoding ∧ bytesRead encoding pointer.length = pointer.length := by
  by_cases h8 : EightByteFormat encoding
  · refine .inl ⟨h8, ?_, if_pos h8⟩
    rcases hb with hk | ⟨hleb, -⟩
    · have ho : encoding ≠ ehPeOmit := by
        rintro rfl
        revert h8
        decide
      unfold getPointerSizeFromEHPointerEncoding at hk
      rw [if_neg ho] at hk
      rcases h8 with hf | hf <;> rw [hf] at hk <;> exact (Except.ok.inj hk).symm
    · rcases h8 with h8 | h8 <;> rcases hleb with hf | hf <;> rw [hf] at h8 <;> cases h8
  · exact .inr ⟨h8, if_neg h8⟩

/-- The last letter of a string with a personality pointer in it. -/
theorem acceptable_split {before after : List AugItem} {encoding : UInt8} {pointer : List UInt8}
    (hbefore : ∀ e p, AugItem.P e p ∉ before) (hafter : ∀ e p, AugItem.P e p ∉ after) :
    Acceptable (before ++ .P encoding pointer :: after) ↔ DecodablePointer encoding pointer ∧
      (after = [] ∨ (dataOf after.dropLast).length < (dataOf after).length ∨ EightByteFormat encoding) := by
  have honly : ∀ e p, .P e p ∈ before ++ .P encoding pointer :: after → e = encoding ∧ p = pointer := by
    intro e p hep
    rcases List.mem_append.mp hep with hep | hep
    · exact absurd hep (hbefore e p)
    · rcases List.mem_cons.mp hep with hep | hep
      · cases hep
        exact ⟨rfl, rfl⟩
      · exact absurd hep (hafter e p)
  have hlast : (before ++ .P encoding pointer :: after).getLast? = some (after.getLast?.getD (.P encoding pointer)) := by
    rw [List.getLast?_append, List.getLast?_cons]
    rfl
  constructor
  · intro h
    refine ⟨h.personality _ _ (by simp), ?_⟩
    by_cases hnil : after = []
    · exact .inl hnil
    · rcases h.last with h | ⟨item, hitem, hne⟩ | ⟨e, p, hep, h8⟩
      · simp at h
      · refine .inr (.inl ((dropLast_lt hnil).mpr ⟨item, ?_, hne⟩))
        rw [hlast, List.getLast?_eq_some_getLast hnil] at hitem
        rw [List.getLast?_eq_some_getLast hnil]
        exact hitem
      · obtain ⟨rfl, rfl⟩ := honly e p hep
        exact .inr (.inr h8)
  · rintro ⟨hdec, h⟩
    refine ⟨fun e p hep => ?_, ?_⟩
    · obtain ⟨rfl, rfl⟩ := honly e p hep
      exact hdec
    · rcases h with rfl | h | h
      · exact .inr (.inl ⟨_, hlast, by simp [AugItem.data]⟩)
      · have hnil : after ≠ [] := by
          rintro rfl
          exact lt_irrefl _ h
        obtain ⟨item, hitem, hne⟩ := (dropLast_lt hnil).mp h
        refine .inr (.inl ⟨item, ?_, hne⟩)
        rw [hlast, hitem]
        rfl
      · exact .inr (.inr ⟨encoding, pointer, by simp, h⟩)

/-- **Which well-formed augmentations are accepted.** -/
theorem accepts_iff (hw : WellFormedAugmentation config items) :
    (parseAugmentationStringAndData config cie (items.map AugItem.letter) (dataOf items) address).isOk ↔
    Acceptable items := by
  rw [isOk_parse]
  by_cases hP : ∀ e p, AugItem.P e p ∉ items
  · exact accepts_plain hP
  · push Not at hP
    obtain ⟨encoding, pointer, hmem⟩ := hP
    have hbytes := hw.pointer encoding pointer hmem
    obtain ⟨before, after, rfl, hbefore, hafter⟩ := split_personality hw.nodup hmem
    have hdata : dataOf (before ++ .P encoding pointer :: after) =
        dataOf before ++ (encoding :: (pointer ++ dataOf after)) := by simp [dataOf, AugItem.data]
    have hdrop : (dataOf (before ++ .P encoding pointer :: after)).drop (0 + (dataOf before).length) =
        encoding :: (pointer ++ dataOf after) := by rw [hdata, Nat.zero_add, List.drop_left' rfl]
    have hlen : (dataOf (before ++ .P encoding pointer :: after)).length =
        (dataOf before).length + 1 + pointer.length + (dataOf after).length := by
      rw [hdata]
      simp
      omega
    have hroom : before = [] ∨
        0 + (dataOf before.dropLast).length < (dataOf (before ++ .P encoding pointer :: after)).length := by
      refine .inr ?_
      have hle := dropLast_le before
      omega
    obtain ⟨cie1, h1⟩ := @plain_run config _ address cie 0 before hbefore hroom
    rw [List.map_append, List.map_cons, List.foldlM_append, h1, bind_ok, List.foldlM_cons]
    by_cases hdec : DecodablePointer encoding pointer
    · obtain ⟨cie2, h2⟩ := @personality_run config _ address cie1 _ _ _ _ hbytes hdrop hdec
      have hsum : after ≠ [] → (0 + (dataOf before).length + 1 + bytesRead encoding pointer.length +
          (dataOf after.dropLast).length < (dataOf (before ++ .P encoding pointer :: after)).length ↔
          (dataOf after.dropLast).length < (dataOf after).length ∨ EightByteFormat encoding) := by
        intro _
        have hle := dropLast_le after
        rcases bytesRead_cases hbytes with ⟨h8, hl, hr⟩ | ⟨h8, hr⟩
        · rw [hr]
          exact iff_of_true (by omega) (.inr h8)
        · rw [hr]
          constructor
          · intro h
            exact .inl (by omega)
          · rintro (h | h)
            · omega
            · exact absurd h h8
      rw [AugItem.letter, h2, bind_ok, acceptable_split hbefore hafter]
      by_cases hnil : after = []
      · subst hnil
        exact iff_of_true rfl ⟨hdec, .inl rfl⟩
      · by_cases hroom2 : 0 + (dataOf before).length + 1 + bytesRead encoding pointer.length +
            (dataOf after.dropLast).length < (dataOf (before ++ .P encoding pointer :: after)).length
        · obtain ⟨cie3, h3⟩ := @plain_run config _ address cie2 _ after hafter (.inr hroom2)
          rw [h3]
          exact iff_of_true rfl ⟨hdec, .inr ((hsum hnil).mp hroom2)⟩
        · refine iff_of_false (plain_stuck hafter hnil (by omega)) ?_
          rintro ⟨-, h | h⟩
          · exact hnil h
          · exact hroom2 ((hsum hnil).mpr h)
    · have hstuck := @personality_stuck config _ address cie1 _ _ _ _ hbytes hdrop hdec
      refine iff_of_false ?_ fun h => hdec (h.personality encoding pointer hmem)
      rw [AugItem.letter]
      cases h2 : parseLetter config (dataOf (before ++ .P encoding pointer :: after)) address
          (cie1, 0 + (dataOf before).length) 'P' with
      | error e => rw [bind_error]; exact Bool.false_ne_true
      | ok r => rw [h2] at hstuck; exact absurd rfl hstuck

end Accept

/-! ## Written augmentations -/

/-- The parsed CIE has the augmentation of the written one. -/
structure SameAugmentation (cie parsed : CIE) : Prop where
  flags : parsed.augmentationFlags = cie.augmentationFlags
  fdeEnc : cie.augmentationFlags.fdeEnc → parsed.fdePointerEncoding = cie.fdePointerEncoding
  fdeLsda : cie.augmentationFlags.fdeLsda → parsed.fdeLSDAPointerEncoding = cie.fdeLSDAPointerEncoding
  personality : cie.augmentationFlags.personality →
    parsed.personalityPointerEncoding = cie.personalityPointerEncoding ∧ parsed.personalityFunction = cie.personalityFunction

/-- The written string and data, read at the data's address, give the augmentation back. -/
def AugmentationRecovered (config : ElfBitwidth) (blank cie : CIE) (aug : List UInt8) (address : UInt64) : Prop :=
  ∃ parsed, parseAugmentationStringAndData config blank cie.augmentationString aug address = .ok parsed ∧
    SameAugmentation cie parsed

/-- What it takes: some letter after the `z`, and a personality pointer that is absolute and fits its format, or of
eight bytes
with its upper half left on the stack; after the formats of eight bytes the encodings must be what stands in that half. -/
structure KeptAugmentation (config : ElfBitwidth) (cie : CIE) (stale : UInt32) : Prop where
  someLetter : cie.augmentationFlags.personality ∨ cie.augmentationFlags.fdeLsda ∨ cie.augmentationFlags.fdeEnc
  small : cie.augmentationFlags.personality → cie.personalityFunction &&& 0xFFFFFFFF00000000 = 0 →
    peApplication cie.personalityPointerEncoding = .absolute ∧
      ∀ k, getPointerSizeFromEHPointerEncoding config cie.personalityPointerEncoding = .ok k →
        cie.personalityFunction.toNat < 256 ^ k
  large : cie.augmentationFlags.personality → cie.personalityFunction &&& 0xFFFFFFFF00000000 ≠ 0 →
    cie.personalityPointerEncoding = 0x04 ∧ stale.toNat = cie.personalityFunction.toNat / 2 ^ 32
  later : cie.augmentationFlags.personality → EightByteFormat cie.personalityPointerEncoding →
    cie.laterData <+: toLE 4 (cie.personalityFunction.toNat / 2 ^ 32)

section Recover
variable {config : ElfBitwidth} {data rest x : List UInt8} {address : UInt64} {cie cie1 : CIE} {off : Nat}

/-- The letters after the personality pointer. -/
def CIE.laterLetters (cie : CIE) : List Char :=
  (if cie.augmentationFlags.fdeLsda then ['L'] else []) ++ (if cie.augmentationFlags.fdeEnc then ['R'] else [])

/-- The encodings are taken from where the offset is. -/
theorem later_run (hx : x.length = cie.laterData.length) (hdrop : data.drop off = x ++ rest) :
    ∃ parsed n, cie.laterLetters.foldlM (parseLetter config data address) (cie1, off) = .ok (parsed, n) ∧
      parsed.augmentationFlags = { cie1.augmentationFlags with
        fdeLsda := cie1.augmentationFlags.fdeLsda || cie.augmentationFlags.fdeLsda
        fdeEnc := cie1.augmentationFlags.fdeEnc || cie.augmentationFlags.fdeEnc } ∧
      parsed.personalityPointerEncoding = cie1.personalityPointerEncoding ∧
      parsed.personalityFunction = cie1.personalityFunction ∧
      ((cie.augmentationFlags.fdeEnc → parsed.fdePointerEncoding = cie.fdePointerEncoding) ∧
        (cie.augmentationFlags.fdeLsda → parsed.fdeLSDAPointerEncoding = cie.fdeLSDAPointerEncoding) ↔
        x = cie.laterData) := by
  have hone : ∀ (c : Char) (st : CIE × Nat), [c].foldlM (parseLetter config data address) st =
    parseLetter config data address st c := by
    intro c st
    rw [List.foldlM_cons]
    cases parseLetter config data address st c <;> rfl
  unfold CIE.laterData at hx ⊢
  unfold CIE.laterLetters
  cases hl : cie.augmentationFlags.fdeLsda <;> cases hr : cie.augmentationFlags.fdeEnc <;> rw [hl, hr] at hx
  · obtain rfl : x = [] := List.length_eq_zero_iff.mp hx
    refine ⟨cie1, off, rfl, ?_, rfl, rfl, ?_⟩
    · simp
    · simp
  · obtain ⟨a, rfl⟩ := List.length_eq_one_iff.mp hx
    refine ⟨_, _, (hone 'R' _).trans (parseLetter_R hdrop), ?_, rfl, rfl, ?_⟩
    · simp
    · simp
  · obtain ⟨a, rfl⟩ := List.length_eq_one_iff.mp hx
    refine ⟨_, _, (hone 'L' _).trans (parseLetter_L hdrop), ?_, rfl, rfl, ?_⟩
    · simp
    · simp
  · obtain ⟨a, b, rfl⟩ : ∃ a b, x = [a, b] := by
      rcases x with _ | ⟨a, _ | ⟨b, _ | ⟨c, x⟩⟩⟩
      · simp at hx
      · simp at hx
      · exact ⟨a, b, rfl⟩
      · simp at hx
    have hnext : data.drop (off + 1) = b :: rest := by rw [← List.drop_drop, hdrop]; rfl
    have hrun : ['L', 'R'].foldlM (parseLetter config data address) (cie1, off) =
        parseLetter config data address ({ cie1 with
          augmentationFlags := { cie1.augmentationFlags with fdeLsda := true }, fdeLSDAPointerEncoding := a },
            off + 1) 'R' := by
      rw [List.foldlM_cons, parseLetter_L hdrop, bind_ok, hone]
    refine ⟨_, _, hrun.trans (parseLetter_R hnext), ?_, rfl, rfl, ?_⟩
    · simp
    · simp [and_comm]

theorem augmentationString_eq (hdata : cie.augmentationFlags.dataPresent = true) : cie.augmentationString =
    'z' :: ((if cie.augmentationFlags.personality then ['P'] else []) ++ cie.laterLetters) := by
  unfold CIE.augmentationString CIE.laterLetters
  rw [if_pos hdata, List.append_assoc]

theorem parse_z {blank : CIE} {letters : List Char} (hne : data ≠ []) :
    parseAugmentationStringAndData config blank ('z' :: letters) data address =
      letters.foldlM (parseLetter config data address)
        ({ blank with augmentationFlags := { blank.augmentationFlags with dataPresent := true } }, 0) >>= fun st =>
        .ok st.1 := by
  unfold parseAugmentationStringAndData
  rw [List.foldlM_cons, parseLetter_of (List.length_pos_iff.mpr hne)]
  rfl

theorem eightByte_size {encoding : UInt8} {k : Nat} (h8 : EightByteFormat encoding)
    (hk : getPointerSizeFromEHPointerEncoding config encoding = .ok k) : k = 8 := by
  have ho : encoding ≠ ehPeOmit := by
    rintro rfl
    revert h8
    decide
  unfold getPointerSizeFromEHPointerEncoding at hk
  rw [if_neg ho] at hk
  rcases h8 with hf | hf <;> rw [hf] at hk <;> exact (Except.ok.inj hk).symm

/-- What the letters after the personality pointer read: their own data, unless the pointer counts four of its eight
bytes. -/
theorem later_bytes {encoding : UInt8} {k y : Nat} (hk : getPointerSizeFromEHPointerEncoding config encoding = .ok k) :
    ∃ x rest : List UInt8, (encoding :: (toLE k y ++ cie.laterData)).drop (0 + 1 + bytesRead encoding k) = x ++ rest ∧
      x.length = cie.laterData.length ∧
      (x = cie.laterData ↔ (EightByteFormat encoding → cie.laterData <+: toLE 4 (y / 2 ^ 32))) := by
  by_cases h8 : EightByteFormat encoding
  · obtain rfl := eightByte_size h8 hk
    have hlater := cie.laterData_le
    have hcut : toLE 8 y = toLE 4 y ++ toLE 4 (y / 2 ^ 32) := by
      rw [show 8 = 4 + 4 by omega, toLE_append]
      norm_num
    refine ⟨(toLE 4 (y / 2 ^ 32)).take cie.laterData.length,
      (toLE 4 (y / 2 ^ 32)).drop cie.laterData.length ++ cie.laterData, ?_, ?_, ?_⟩
    · rw [bytesRead, if_pos h8, hcut, ← List.append_assoc, List.take_append_drop]
      show (toLE 4 y ++ toLE 4 (y / 2 ^ 32) ++ cie.laterData).drop 4 = _
      rw [List.append_assoc, List.drop_left' (length_toLE _ _)]
    · simp
      omega
    · rw [List.prefix_iff_eq_take]
      exact ⟨fun h _ => h.symm, fun h => (h h8).symm⟩
  · refine ⟨cie.laterData, [], ?_, rfl, iff_of_true rfl fun h => absurd h h8⟩
    rw [bytesRead, if_neg h8, show 0 + 1 + k = k + 1 by omega, List.drop_succ_cons, List.drop_left' (length_toLE _ _),
      List.append_nil]

/-- A personality pointer stored as `y` in some encoding. -/
theorem parsed_personality {blank : CIE} {encoding : UInt8} {k y : Nat} (hblank : blank.augmentationFlags = .none)
    (hdata : cie.augmentationFlags.dataPresent = true) (hper : cie.augmentationFlags.personality = true)
    (hk : getPointerSizeFromEHPointerEncoding config encoding = .ok k) (hs : Supported encoding) :
    ∃ parsed, parseAugmentationStringAndData config blank cie.augmentationString
        (encoding :: (toLE k y ++ cie.laterData)) address = .ok parsed ∧
      parsed.augmentationFlags = cie.augmentationFlags ∧ parsed.personalityPointerEncoding = encoding ∧
      parsed.personalityFunction = UInt64.ofNat (y % 256 ^ k) + pointerOrigin encoding (address + 1) ∧
      ((cie.augmentationFlags.fdeEnc → parsed.fdePointerEncoding = cie.fdePointerEncoding) ∧
        (cie.augmentationFlags.fdeLsda → parsed.fdeLSDAPointerEncoding = cie.fdeLSDAPointerEncoding) ↔
        (EightByteFormat encoding → cie.laterData <+: toLE 4 (y / 2 ^ 32))) := by
  have hdecode := @decodeEHPointer_of config encoding (address + UInt64.ofNat (0 + 1)) _ _ _ _
    (readEHPointer_toLE hk (not_omit_of_application hs) y cie.laterData
      (show k ≤ ((toLE k y ++ cie.laterData).length : Int) by simp)) hs
  obtain ⟨x, rest, hdrop, hx, hiff⟩ := @later_bytes config cie encoding k y hk
  obtain ⟨parsed, n, hrun, hflags, henc, hfun, hlater⟩ := @later_run config
    (encoding :: (toLE k y ++ cie.laterData)) rest x address cie
    { blank with
      augmentationFlags := { blank.augmentationFlags with dataPresent := true, personality := true }
      personalityPointerEncoding := encoding
      personalityFunction := UInt64.ofNat (y % 256 ^ k) + pointerOrigin encoding (address + UInt64.ofNat (0 + 1)) }
    (0 + 1 + bytesRead encoding k) hx hdrop
  refine ⟨parsed, ?_, ?_, henc, hfun, hlater.trans hiff⟩
  · rw [augmentationString_eq hdata, if_pos hper, parse_z (by simp), List.cons_append, List.nil_append, List.foldlM_cons,
      parseLetter_P List.drop_zero, hdecode, bind_ok, bind_ok, hrun, bind_ok]
  · rw [hflags, hblank]
    cases hf : cie.augmentationFlags with
    | mk d e l p =>
      rw [hf] at hdata hper
      simp only at hdata hper
      rw [hdata, hper]
      rfl

/-- With the parsed CIE at hand, what is left to compare. -/
theorem recovered_of_parsed {blank parsed : CIE} {aug : List UInt8} (hper : cie.augmentationFlags.personality = true)
    (hparse : parseAugmentationStringAndData config blank cie.augmentationString aug address = .ok parsed)
    (hflags : parsed.augmentationFlags = cie.augmentationFlags) :
    AugmentationRecovered config blank cie aug address ↔
      parsed.personalityPointerEncoding = cie.personalityPointerEncoding ∧
        parsed.personalityFunction = cie.personalityFunction ∧
        (cie.augmentationFlags.fdeEnc → parsed.fdePointerEncoding = cie.fdePointerEncoding) ∧
        (cie.augmentationFlags.fdeLsda → parsed.fdeLSDAPointerEncoding = cie.fdeLSDAPointerEncoding) := by
  constructor
  · rintro ⟨parsed', h, hsame⟩
    rw [hparse] at h
    cases h
    exact ⟨(hsame.personality hper).1, (hsame.personality hper).2, hsame.fdeEnc, hsame.fdeLsda⟩
  · rintro ⟨h1, h2, h3, h4⟩
    exact ⟨parsed, hparse, hflags, h3, h4, fun _ => ⟨h1, h2⟩⟩

theorem recovered_plain {blank : CIE} {stale : UInt32} (hblank : blank.augmentationFlags = .none)
    (hdata : cie.augmentationFlags.dataPresent = true) (hper : cie.augmentationFlags.personality = false) :
    AugmentationRecovered config blank cie cie.laterData address ↔ KeptAugmentation config cie stale := by
  have hkept : KeptAugmentation config cie stale ↔ cie.laterData ≠ [] := by
    have hno : ¬ cie.augmentationFlags.personality = true := by rw [hper]; exact Bool.false_ne_true
    constructor
    · intro h
      unfold CIE.laterData
      rcases h.someLetter with h | h | h
      · exact absurd h hno
      · simp [h]
      · simp [h]
    · intro hne
      refine ⟨?_, fun h => absurd h hno, fun h => absurd h hno, fun h => absurd h hno⟩
      by_contra hnone
      push Not at hnone
      refine hne ?_
      simp [CIE.laterData, hnone.2.1, hnone.2.2]
  rw [hkept]
  by_cases hne : cie.laterData = []
  · refine iff_of_false ?_ (by simp [hne])
    rintro ⟨parsed, h, -⟩
    rw [hne, augmentationString_eq hdata] at h
    unfold parseAugmentationStringAndData at h
    rw [List.foldlM_cons, parseLetter_past (by simp)] at h
    cases h
  · obtain ⟨parsed, n, hrun, hflags, henc, hfun, hlater⟩ := @later_run config cie.laterData [] cie.laterData address cie
      { blank with augmentationFlags := { blank.augmentationFlags with dataPresent := true } } 0 rfl (by simp)
    refine iff_of_true ⟨parsed, ?_, ?_, (hlater.mpr rfl).1, (hlater.mpr rfl).2, fun h => ?_⟩ hne
    · rw [augmentationString_eq hdata, hper, parse_z hne]
      simp only [Bool.false_eq_true, if_false, List.nil_append]
      rw [hrun, bind_ok]
    · rw [hflags, hblank]
      cases hf : cie.augmentationFlags with
      | mk d e l p =>
        rw [hf] at hdata hper
        simp only at hdata hper
        rw [hdata, hper]
        rfl
    · rw [hper] at h
      cases h

/-- A stored pointer read at its own location, when it was taken at the expected one. -/
theorem decoded_iff {pf expected location : UInt64} {encoding : UInt8} {k d : Nat}
    (hk : getPointerSizeFromEHPointerEncoding config encoding = .ok k) (hs : Supported encoding) (hd : d = 1 ∨ d = 3)
    (hloc : location = expected + UInt64.ofNat d) :
    UInt64.ofNat ((storedPointer pf expected encoding).toNat % 256 ^ k) + pointerOrigin encoding location = pf ↔
      peApplication encoding = .absolute ∧ pf.toNat < 256 ^ k := by
  have hsizes := pointerSize_cases hk (not_omit_of_application hs)
  have hle := pointerSize_le hk
  rcases hs with happ | happ
  · have hne : peApplication encoding ≠ .pcrel := by rw [happ]; decide
    rw [storedPointer, pointerOrigin, if_neg hne, if_neg hne, happ, UInt64.add_zero]
    have hpow : 0 < 256 ^ k := by positivity
    constructor
    · intro h
      have h64 : pf.toNat % 256 ^ k < 2 ^ 64 := lt_of_le_of_lt (Nat.mod_le _ _) pf.toNat_lt
      rw [← UInt64.toNat_inj, UInt64.toNat_ofNat', Nat.mod_eq_of_lt h64] at h
      exact ⟨rfl, by rw [← h]; exact Nat.mod_lt _ hpow⟩
    · rintro ⟨-, hlt⟩
      rw [Nat.mod_eq_of_lt hlt, UInt64.ofNat_toNat]
  · rw [storedPointer, pointerOrigin, if_pos happ, if_pos happ, happ]
    refine iff_of_false (fun h => ?_) (by simp)
    have h64 : (pf - expected).toNat % 256 ^ k < 2 ^ 64 := lt_of_le_of_lt (Nat.mod_le _ _) (UInt64.toNat_lt _)
    have hmod := @pcrel_points pf expected location k hle
    have hsum : (UInt64.ofNat ((pf - expected).toNat % 256 ^ k) + location).toNat % 256 ^ k =
        ((pf - expected).toNat % 256 ^ k + location.toNat) % 256 ^ k := by
      rw [UInt64.toNat_add, UInt64.toNat_ofNat', Nat.mod_eq_of_lt h64]
      refine Nat.mod_mod_of_dvd _ ?_
      rw [show (2 : Nat) ^ 64 = 256 ^ 8 by norm_num]
      exact pow_dvd_pow 256 hle
    rw [h, hmod, hloc] at hsum
    have hshift : pf + (expected + UInt64.ofNat d - expected) = pf + UInt64.ofNat d := by grind
    rw [hshift] at hsum
    exact past_target hsizes hd hsum.symm

end Recover

section Written
variable {config : ElfBitwidth} {cfi : CallFrameInfo} {cie blank : CIE} {stale : UInt32} {start : Nat} {aug : List UInt8}

theorem recovered_small (hblank : blank.augmentationFlags = .none) (hdata : cie.augmentationFlags.dataPresent = true)
    (hper : cie.augmentationFlags.personality = true) (hsmall : cie.personalityFunction &&& 0xFFFFFFFF00000000 = 0)
    (haug : cieData config cfi stale cie start = .ok aug) :
    AugmentationRecovered config blank cie aug (cfi.ehAddress + UInt64.ofNat (start + cie.dataOffset aug)) ↔
      KeptAugmentation config cie stale := by
  obtain ⟨personality, rfl, hpers⟩ := cieData_ok hdata haug
  rw [if_pos hper] at hpers
  obtain ⟨k, hk, hs, rfl⟩ := personalityData_small hsmall hpers
  rw [List.cons_append]
  have hlen : (cie.personalityPointerEncoding :: (toLE k (storedPointer cie.personalityFunction
      (cie.expectedDataAddress cfi.ehAddress start + 1) cie.personalityPointerEncoding).toNat ++
      cie.laterData)).length < 128 := by
    have hlater := cie.laterData_le
    have hle := pointerSize_le hk
    simp
    omega
  have hloc := @personality_location cie start cfi.ehAddress _ hdata hlen
  have hone : UInt64.ofNat 1 = 1 := rfl
  rw [UInt64.ofNat_add, hone, ← UInt64.add_assoc] at hloc
  obtain ⟨parsed, hparse, hflags, henc, hfun, hlater⟩ := parsed_personality hblank hdata hper hk hs
  rw [recovered_of_parsed hper hparse hflags, henc, hfun, hlater, decoded_iff hk hs (by split <;> simp) hloc]
  constructor
  · rintro ⟨-, ⟨happ, hlt⟩, hl⟩
    refine ⟨.inl hper, fun _ _ => ⟨happ, fun j hj => ?_⟩, fun _ hbig => absurd hsmall hbig, fun _ h8 => ?_⟩
    · rw [hk] at hj
      cases hj
      exact hlt
    · have h := hl h8
      rw [storedPointer, if_neg (by rw [happ]; decide)] at h
      exact h
  · intro h
    obtain ⟨happ, hlt⟩ := h.small hper hsmall
    refine ⟨rfl, ⟨happ, hlt k hk⟩, fun h8 => ?_⟩
    rw [storedPointer, if_neg (by rw [happ]; decide)]
    exact h.later hper h8

theorem recovered_large (hblank : blank.augmentationFlags = .none) (hdata : cie.augmentationFlags.dataPresent = true)
    (hper : cie.augmentationFlags.personality = true) (hlarge : cie.personalityFunction &&& 0xFFFFFFFF00000000 ≠ 0)
    (haug : cieData config cfi stale cie start = .ok aug) (address : UInt64) :
    AugmentationRecovered config blank cie aug address ↔ KeptAugmentation config cie stale := by
  obtain ⟨personality, rfl, hpers⟩ := cieData_ok hdata haug
  rw [if_pos hper] at hpers
  unfold personalityData at hpers
  rw [if_neg hlarge] at hpers
  cases hpers
  have hk : getPointerSizeFromEHPointerEncoding config 0x04 = .ok 8 := by cases config <;> rfl
  have h8 : EightByteFormat 0x04 := .inl rfl
  have hpf := cie.personalityFunction.toNat_lt
  have hst := stale.toNat_lt
  have hbytes : toLE 4 cie.personalityFunction.toNat ++ toLE 4 stale.toNat =
      toLE 8 (cie.personalityFunction.toNat % 2 ^ 32 + 2 ^ 32 * stale.toNat) := by
    rw [show 8 = 4 + 4 by omega, toLE_append, ← toLE_mod 4 cie.personalityFunction.toNat,
      ← toLE_mod 4 (cie.personalityFunction.toNat % 2 ^ 32 + 2 ^ 32 * stale.toNat)]
    congr 2
    · norm_num
    · norm_num
      omega
  have hcut : (0x04 :: (toLE 4 cie.personalityFunction.toNat ++ toLE 4 stale.toNat)) ++ cie.laterData =
      0x04 :: (toLE 8 (cie.personalityFunction.toNat % 2 ^ 32 + 2 ^ 32 * stale.toNat) ++ cie.laterData) := by
    rw [hbytes]
    rfl
  rw [hcut]
  obtain ⟨parsed, hparse, hflags, henc, hfun, hlater⟩ := @parsed_personality config address cie blank 0x04 8
    (cie.personalityFunction.toNat % 2 ^ 32 + 2 ^ 32 * stale.toNat) hblank hdata hper hk (.inl rfl)
  have hvalue : UInt64.ofNat ((cie.personalityFunction.toNat % 2 ^ 32 + 2 ^ 32 * stale.toNat) % 256 ^ 8) +
      pointerOrigin 0x04 (address + 1) = cie.personalityFunction ↔ stale.toNat = cie.personalityFunction.toNat / 2 ^ 32 := by
    have horigin : pointerOrigin 0x04 (address + 1) = 0 := rfl
    rw [horigin, UInt64.add_zero, ← UInt64.toNat_inj, UInt64.toNat_ofNat']
    norm_num
    omega
  have hhigh : (cie.personalityFunction.toNat % 2 ^ 32 + 2 ^ 32 * stale.toNat) / 2 ^ 32 = stale.toNat := by omega
  rw [recovered_of_parsed hper hparse hflags, henc, hfun, hlater, hvalue, hhigh]
  constructor
  · rintro ⟨he, hv, hl⟩
    exact ⟨.inl hper, fun _ hsmall => absurd hsmall hlarge, fun _ _ => ⟨he.symm, hv⟩, fun _ _ => hv ▸ hl h8⟩
  · intro h
    obtain ⟨he, hv⟩ := h.large hper hlarge
    exact ⟨he.symm, hv, fun _ => by rw [hv]; exact h.later hper (he ▸ h8)⟩

/-- **Which written augmentations are read back.** -/
theorem recovers_augmentation_iff (hblank : blank.augmentationFlags = .none)
    (hdata : cie.augmentationFlags.dataPresent = true)
    (haug : cieData config cfi stale cie start = .ok aug) :
    AugmentationRecovered config blank cie aug (cfi.ehAddress + UInt64.ofNat (start + cie.dataOffset aug)) ↔
      KeptAugmentation config cie stale := by
  cases hper : cie.augmentationFlags.personality with
  | false =>
    obtain ⟨personality, rfl, hpers⟩ := cieData_ok hdata haug
    rw [hper] at hpers
    cases hpers
    exact recovered_plain hblank hdata hper
  | true =>
    by_cases hsmall : cie.personalityFunction &&& 0xFFFFFFFF00000000 = 0
    · exact recovered_small hblank hdata hper hsmall haug
    · exact recovered_large hblank hdata hper hsmall haug _

end Written

/-- **A written augmentation is read back exactly when it is kept, and a well-formed one accepted exactly when it is
acceptable.** -/
theorem augmentation_iff {config : ElfBitwidth} {blank : CIE} (hblank : blank.augmentationFlags = .none) :
    (∀ (cfi : CallFrameInfo) (stale : Nat → UInt32) (lsdaPointers : List UInt64) (sec : FrameSection) (i : Nat) (cie : CIE),
      buildFrameSection config cfi stale lsdaPointers = .ok sec → cfi.cies[i]? = some cie →
      cie.augmentationFlags.dataPresent = true →
      ∃ start aug, sec.cieOffsets[i]? = some start ∧ CieRecordAt config cfi (stale i) cie start sec.buf.data aug ∧
        (AugmentationRecovered config blank cie aug (cfi.ehAddress + UInt64.ofNat (start + cie.dataOffset aug)) ↔
          KeptAugmentation config cie (stale i))) ∧
    ∀ (items : List AugItem) (address : UInt64), WellFormedAugmentation config items →
      ((parseAugmentationStringAndData config blank (items.map AugItem.letter) (dataOf items) address).isOk ↔
        Acceptable items) := by
  refine ⟨?_, fun items address hw => accepts_iff hw⟩
  intro cfi stale lsdaPointers sec i cie h hi hdata
  obtain ⟨start, aug, hstart, hrec⟩ := cieRecordAt h hi
  exact ⟨start, aug, hstart, hrec, recovers_augmentation_iff hblank hdata hrec.1⟩

def zeroCIE : CIE where
  initialInstructions := []
  dataAlign := 0
  codeAlign := 0
  returnAddrRuleNum := 0
  version := 0
  addressSize := 0
  segmentSize := 0
  augmentationFlags := .none
  fdePointerEncoding := 0
  fdeLSDAPointerEncoding := 0
  personalityPointerEncoding := 0
  personalityFunction := 0

theorem augmentation_iff_sampleFrame : (∃ sec, buildFrameSection .elf64 sampleFrame (fun _ => 0) [] = .ok sec ∧
      ∃ start aug, sec.cieOffsets[0]? = some start ∧ CieRecordAt .elf64 sampleFrame 0 sampleCIE start sec.buf.data aug ∧
        (AugmentationRecovered .elf64 zeroCIE sampleCIE aug
        (sampleFrame.ehAddress + UInt64.ofNat (start + sampleCIE.dataOffset aug)) ↔
          KeptAugmentation .elf64 sampleCIE 0)) ∧
    ((parseAugmentationStringAndData .elf64 zeroCIE ['z', 'R'] [0x1b] 0).isOk ↔ Acceptable [.z, .R 0x1b]) := by
  have hbuilt : (buildFrameSection .elf64 sampleFrame (fun _ => 0) []).map FrameSection.fdeOffsets = .ok [20, 40] := by
    decide +kernel
  obtain ⟨sec, hsec, -⟩ := written_at hbuilt
  obtain ⟨hrecovers, haccepts⟩ := @augmentation_iff .elf64 zeroCIE rfl
  have hw : WellFormedAugmentation .elf64 [.z, .R 0x1b] := ⟨by decide, fun e p h => by simp at h⟩
  exact ⟨⟨sec, hsec, hrecovers _ _ _ sec 0 sampleCIE hsec rfl rfl⟩, haccepts [.z, .R 0x1b] 0 hw⟩

/-- The personality pointer of `personalityFrame` comes back changed, and `zRS` is not accepted. -/
theorem not_augmentation :
    (¬ ∀ (cfi : CallFrameInfo) (stale : Nat → UInt32) (lsdaPointers : List UInt64) (sec : FrameSection) (i : Nat) (cie : CIE)
      (start : Nat) (aug : List UInt8), buildFrameSection .elf64 cfi stale lsdaPointers = .ok sec → cfi.cies[i]? = some cie →
      cie.augmentationFlags.dataPresent = true → CieRecordAt .elf64 cfi (stale i) cie start sec.buf.data aug →
      AugmentationRecovered .elf64 zeroCIE cie aug (cfi.ehAddress + UInt64.ofNat (start + cie.dataOffset aug))) ∧
    ¬ ∀ (items : List AugItem) (address : UInt64), WellFormedAugmentation .elf64 items →
      (parseAugmentationStringAndData .elf64 zeroCIE (items.map AugItem.letter) (dataOf items) address).isOk := by
  constructor
  · intro h
    have hbuilt : (buildFrameSection .elf64 personalityFrame (fun _ => 0) []).map FrameSection.fdeOffsets = .ok [] := by
      decide +kernel
    obtain ⟨sec, hsec, -⟩ := written_at hbuilt
    obtain ⟨start, aug, -, hrec⟩ := cieRecordAt hsec (show personalityFrame.cies[0]? = some _ from rfl)
    have hkept := (recovers_augmentation_iff rfl rfl hrec.1).mp (h _ _ _ _ 0 _ start aug hsec rfl rfl hrec)
    have happ := (hkept.small rfl (by decide)).1
    revert happ
    decide
  · intro h
    have hok := h [.z, .R 0x1b, .S] 0 ⟨by decide, fun e p h => by simp at h⟩
    revert hok
    decide

end Katana

/-
  Katana.Script.Lexer — the words of a dwarfscript (shell/dwarfscript/dwarfscript.l).

  flex takes the longest match at every place, and of the longest the rule that comes first; what no rule matches is
  echoed and left out. Blanks and newlines, the `#` of a comment and the quote of a string literal start no other rule,
  so the scanner decides for them first.

  Proved, for every text:
  - `lexes_word`: a word is scanned on its own, up to the blank or the newline behind it.
  - `pieces_decimal` / `pieces_signed` / `pieces_hex` / `pieces_register`: what numerals are scanned as.
-/
import Katana.Lib.Munch
import Katana.Lib.Digits
import Katana.StringLiterals
import Katana.Dwarfscript

namespace Katana.Script

open Lib

abbrev Text := List UInt8

def text (s : String) : Text := s.toUTF8.data.toList

def space : UInt8 := 32
def tab : UInt8 := 9
def newline : UInt8 := 10
def quote : UInt8 := 34
def pound : UInt8 := 35
def minusSign : UInt8 := 45

/-! ## Tokens -/

inductive Keyword where
  | begin_ | end_ | index | dataAlign | codeAlign | returnAddrRule | augmentation | augmentationData | initialLocation
  | addressRange | length | cieIndex | version | addressSize | segmentSize | sectionType | sectionAddr | ehHdrAddr
  | lpstart | position | landingPad | hasAction | firstAction | typeIdx | next | typeinfo | typeinfoEnc | none_
  | fdePtrEnc | fdeLsdaPtrEnc | personality | lsdaIdx | exceptTableAddr | personalityPtrEnc | matchAll | ehHdrTableEnc
  | fde | cie | instructions | lsda | callSite | action | expression
  deriving DecidableEq, Repr

/-- A token with what the lexer saves for the parser. -/
inductive Token where
  | keyword (k : Keyword)
  | colon
  | comma
  | cfa (op : CfaOp)
  | dwOp (type : DwOp)
  | litn (savedInt : Int32)
  | bregn (savedInt : Int32)
  | regn (savedInt : Int32)
  | ptrEncoding (savedInt : Int32)
  | intLit (lit : IntLit)
  | hexdata
  | float
  | boolLit (value : Bool)
  | register (savedRegisterNumber : Int32)
  | identifier (savedString : Text)
  | stringLiteral (savedString : Text)
  | invalid
  deriving DecidableEq, Repr

/-! ## Numerals -/

def isDigit (b : UInt8) : Bool := 48 ≤ b && b ≤ 57

def isHexDigit (b : UInt8) : Bool := isDigit b || (97 ≤ b && b ≤ 102) || (65 ≤ b && b ≤ 70)

def digitValue (b : UInt8) : Nat :=
  if isDigit b then b.toNat - 48 else if 97 ≤ b then b.toNat - 87 else b.toNat - 55

def numeral (base : Nat) (digits : Text) : Nat := digits.foldl (fun n b => n * base + digitValue b) 0

/-- The nearest long. -/
def clampLong (x : Int) : Int := max (-2 ^ 63) (min x (2 ^ 63 - 1))

def strtol (base : Nat) (yytext : Text) : Int :=
  clampLong (if yytext.head? = some minusSign then -(numeral base yytext.tail : Int) else numeral base yytext)

def atoi (yytext : Text) : Int32 := Int32.ofInt (strtol 10 yytext)

/-- `%zu`, and `%zx` to the base of 16. -/
def digits (base n : Nat) : Text := (Nat.toDigits base n).map fun c => UInt8.ofNat c.toNat

def signedDigits (x : Int) : Text := if x < 0 then minusSign :: digits 10 x.natAbs else digits 10 x.toNat

def digitByte (d : Nat) : UInt8 := UInt8.ofNat d.digitChar.toNat

theorem digits_eq {base : Nat} (hbase : 1 < base) (n : Nat) :
    digits base n = if n < base then [digitByte n] else digits base (n / base) ++ [digitByte (n % base)] := by
  unfold digits
  rw [Nat.toDigits_eq_if hbase]
  split
  · rfl
  · rw [List.map_append]
    rfl

theorem digits_ne_nil {base : Nat} (hbase : 1 < base) (n : Nat) : digits base n ≠ [] := by
  rw [digits_eq hbase]
  split <;> simp

theorem digits_forall {base : Nat} (hbase : 1 < base) {P : UInt8 → Prop} (h : ∀ d < base, P (digitByte d)) (n : Nat) :
    ∀ b ∈ digits base n, P b := by
  intro b hb
  obtain ⟨c, hc, rfl⟩ := List.mem_map.mp hb
  exact toDigits_forall (P := fun c => P (UInt8.ofNat c.toNat)) hbase h n c hc

theorem numeral_digits {base : Nat} (hbase : 1 < base) (h : ∀ d < base, digitValue (digitByte d) = d) (n : Nat) :
    numeral base (digits base n) = n := by
  induction n using Nat.strongRecOn with
  | ind n ih =>
    rw [digits_eq hbase]
    split
    · rename_i hn
      simp [numeral, h n hn]
    · rename_i hn
      have hrest := ih (n / base) (Nat.div_lt_self (by omega) hbase)
      unfold numeral at hrest ⊢
      rw [List.foldl_append, hrest, List.foldl_cons, List.foldl_nil, h _ (Nat.mod_lt _ (by omega))]
      have hdiv := Nat.div_add_mod n base
      rw [Nat.mul_comm] at hdiv
      exact hdiv

theorem isDigit_digits (n : Nat) : ∀ b ∈ digits 10 n, isDigit b = true :=
  digits_forall (by norm_num) (by decide) n

theorem isHexDigit_digits (n : Nat) : ∀ b ∈ digits 16 n, isHexDigit b = true :=
  digits_forall (by norm_num) (by decide) n

@[simp] theorem numeral_decimal (n : Nat) : numeral 10 (digits 10 n) = n := numeral_digits (by norm_num) (by decide) n

@[simp] theorem numeral_hex (n : Nat) : numeral 16 (digits 16 n) = n := numeral_digits (by norm_num) (by decide) n

theorem signedDigits_nat (n : Nat) : signedDigits n = digits 10 n := by
  have hneg : ¬ (n : Int) < 0 := by omega
  unfold signedDigits
  rw [if_neg hneg]
  rfl

/-! ### Numbers in strings -/

theorem text_append (s s' : String) : text (s ++ s') = text s ++ text s' := by
  simp [text]

theorem text_ofList {l : List Char} (h : ∀ c ∈ l, c.toNat < 128) :
    text (String.ofList l) = l.map fun c => UInt8.ofNat c.toNat := by
  have hbytes : text (String.ofList l) = l.flatMap String.utf8EncodeChar := by
    simp [text, List.utf8Encode]
  rw [hbytes, List.map_eq_flatMap]
  refine List.flatMap_congr fun c hc => ?_
  have hsize : c.utf8Size = 1 := Char.utf8Size_eq_one_iff.mpr (UInt32.le_iff_toNat_le.mpr (Nat.le_of_lt_succ (h c hc)))
  rw [String.utf8EncodeChar_eq_singleton hsize]
  rfl

theorem text_digits {base : Nat} (hbase : 1 < base) (h : ∀ d < base, d.digitChar.toNat < 128) (n : Nat) :
    text (String.ofList (Nat.toDigits base n)) = digits base n := text_ofList (toDigits_forall hbase h n)

theorem text_toString (x : Int) : text (toString x) = signedDigits x := by
  have hrepr (n : Nat) : text (Nat.repr n) = digits 10 n := text_digits (by norm_num) (by decide) n
  rw [Int.toString_eq_repr]
  cases x with
  | ofNat n => exact (hrepr n).trans (signedDigits_nat n).symm
  | negSucc n =>
    have hneg : Int.negSucc n < 0 := Int.negSucc_lt_zero n
    unfold signedDigits
    rw [if_pos hneg]
    exact (text_append "-" _).trans (congrArg (minusSign :: ·) (hrepr (n + 1)))

theorem text_hex (n : Nat) : text (hex n) = digits 16 n := text_digits (by norm_num) (by decide) n

/-! ## Rules -/

def isLetter (b : UInt8) : Bool := (97 ≤ b && b ≤ 122) || (65 ≤ b && b ≤ 90) || b == 95

def isWordByte (b : UInt8) : Bool := isLetter b || isDigit b

def isBlank (b : UInt8) : Bool := b == space || b == tab

def wordRule (s : String) (t : Token) : Rule UInt8 Token := ⟨literal (text s), fun _ => t⟩

def keywordRules : List (Rule UInt8 Token) := [
  wordRule "begin" (.keyword .begin_), wordRule "end" (.keyword .end_), wordRule ":" .colon,
  wordRule "index" (.keyword .index), wordRule "data_align" (.keyword .dataAlign),
  wordRule "code_align" (.keyword .codeAlign), wordRule "return_addr_rule" (.keyword .returnAddrRule),
  wordRule "augmentation" (.keyword .augmentation), wordRule "augmentation_data" (.keyword .augmentationData),
  wordRule "initial_location" (.keyword .initialLocation), wordRule "address_range" (.keyword .addressRange),
  wordRule "length" (.keyword .length), wordRule "cie_index" (.keyword .cieIndex), wordRule "version" (.keyword .version),
  wordRule "address_size" (.keyword .addressSize), wordRule "segment_size" (.keyword .segmentSize),
  wordRule "section_type" (.keyword .sectionType), wordRule "section_addr" (.keyword .sectionAddr),
  wordRule "eh_hdr_addr" (.keyword .ehHdrAddr), wordRule "lpstart" (.keyword .lpstart),
  wordRule "position" (.keyword .position), wordRule "landing_pad" (.keyword .landingPad),
  wordRule "has_action" (.keyword .hasAction), wordRule "first_action" (.keyword .firstAction),
  wordRule "type_idx" (.keyword .typeIdx), wordRule "next" (.keyword .next), wordRule "typeinfo" (.keyword .typeinfo),
  wordRule "typeinfo_enc" (.keyword .typeinfoEnc), wordRule "none" (.keyword .none_),
  wordRule "fde_ptr_enc" (.keyword .fdePtrEnc), wordRule "fde_lsda_ptr_enc" (.keyword .fdeLsdaPtrEnc),
  wordRule "personality" (.keyword .personality), wordRule "lsda_idx" (.keyword .lsdaIdx),
  wordRule "except_table_addr" (.keyword .exceptTableAddr), wordRule "personality_ptr_enc" (.keyword .personalityPtrEnc),
  wordRule "match_all" (.keyword .matchAll), wordRule "eh_hdr_table_enc" (.keyword .ehHdrTableEnc),
  wordRule "FDE" (.keyword .fde), wordRule "fde" (.keyword .fde), wordRule "CIE" (.keyword .cie),
  wordRule "cie" (.keyword .cie), wordRule "INSTRUCTIONS" (.keyword .instructions),
  wordRule "instructions" (.keyword .instructions), wordRule "LSDA" (.keyword .lsda), wordRule "lsda" (.keyword .lsda),
  wordRule "CALL_SITE" (.keyword .callSite), wordRule "call_site" (.keyword .callSite),
  wordRule "ACTION" (.keyword .action), wordRule "action" (.keyword .action)]

def cfaRules : List (Rule UInt8 Token) := [
  wordRule "DW_CFA_advance_loc" (.cfa .advanceLoc), wordRule "DW_CFA_offset" (.cfa .offset),
  wordRule "DW_CFA_restore" (.cfa .restore), wordRule "DW_CFA_nop" (.cfa .nop), wordRule "DW_CFA_set_loc" (.cfa .setLoc),
  wordRule "DW_CFA_advance_loc1" (.cfa .advanceLoc1), wordRule "DW_CFA_advance_loc2" (.cfa .advanceLoc2),
  wordRule "DW_CFA_advance_loc4" (.cfa .advanceLoc4), wordRule "DW_CFA_offset_extended" (.cfa .offsetExtended),
  wordRule "DW_CFA_restore_extended" (.cfa .restoreExtended), wordRule "DW_CFA_undefined" (.cfa .undefined),
  wordRule "DW_CFA_same_value" (.cfa .sameValue), wordRule "DW_CFA_register" (.cfa .register),
  wordRule "DW_CFA_remember_state" (.cfa .rememberState), wordRule "DW_CFA_restore_state" (.cfa .restoreState),
  wordRule "DW_CFA_def_cfa" (.cfa .defCfa), wordRule "DW_CFA_def_cfa_register" (.cfa .defCfaRegister),
  wordRule "DW_CFA_def_cfa_offset" (.cfa .defCfaOffset), wordRule "DW_CFA_def_cfa_expression" (.cfa .defCfaExpression),
  wordRule "DW_CFA_expression" (.cfa .expression), wordRule "DW_CFA_offset_extended_sf" (.cfa .offsetExtendedSf),
  wordRule "DW_CFA_def_cfa_sf" (.cfa .defCfaSf), wordRule "DW_CFA_def_cfa_offset_sf" (.cfa .defCfaOffsetSf),
  wordRule "DW_CFA_val_offset" (.cfa .valOffset), wordRule "DW_CFA_val_offset_sf" (.cfa .valOffsetSf),
  wordRule "DW_CFA_val_expression" (.cfa .valExpression), wordRule "DW_CFA_GNU_args_size" (.cfa .gnuArgsSize),
  wordRule "EXPRESSION" (.keyword .expression)]

def dwOpRules : List (Rule UInt8 Token) := [
  wordRule "DW_OP_addr" (.dwOp .addr), wordRule "DW_OP_deref" (.dwOp .deref), wordRule "DW_OP_const1u" (.dwOp .const1u),
  wordRule "DW_OP_const1s" (.dwOp .const1s), wordRule "DW_OP_const2u" (.dwOp .const2u),
  wordRule "DW_OP_const2s" (.dwOp .const2s), wordRule "DW_OP_const4u" (.dwOp .const4u),
  wordRule "DW_OP_const4s" (.dwOp .const4s), wordRule "DW_OP_const8u" (.dwOp .const8u),
  wordRule "DW_OP_const8s" (.dwOp .const8s), wordRule "DW_OP_constu" (.dwOp .constu),
  wordRule "DW_OP_consts" (.dwOp .consts), wordRule "DW_OP_dup" (.dwOp .dup), wordRule "DW_OP_drop" (.dwOp .drop),
  wordRule "DW_OP_over" (.dwOp .opOver), wordRule "DW_OP_pick" (.dwOp .pick), wordRule "DW_OP_swap" (.dwOp .swap),
  wordRule "DW_OP_rot" (.dwOp .rot), wordRule "DW_OP_xderef" (.dwOp .xderef), wordRule "DW_OP_abs" (.dwOp .abs),
  wordRule "DW_OP_and" (.dwOp .and), wordRule "DW_OP_div" (.dwOp .div), wordRule "DW_OP_minus" (.dwOp .minus),
  wordRule "DW_OP_mod" (.dwOp .mod), wordRule "DW_OP_mul" (.dwOp .mul), wordRule "DW_OP_neg" (.dwOp .neg),
  wordRule "DW_OP_not" (.dwOp .not), wordRule "DW_OP_or" (.dwOp .or), wordRule "DW_OP_plus" (.dwOp .plus),
  wordRule "DW_OP_plus_uconst" (.dwOp .plusUconst), wordRule "DW_OP_shl" (.dwOp .shl), wordRule "DW_OP_shr" (.dwOp .shr),
  wordRule "DW_OP_shra" (.dwOp .shra), wordRule "DW_OP_xor" (.dwOp .xor), wordRule "DW_OP_skip" (.dwOp .skip),
  wordRule "DW_OP_bra" (.dwOp .bra), wordRule "DW_OP_eq" (.dwOp .eq), wordRule "DW_OP_ge" (.dwOp .ge),
  wordRule "DW_OP_gt" (.dwOp .gt), wordRule "DW_OP_le" (.dwOp .le), wordRule "DW_OP_lt" (.dwOp .lt),
  wordRule "DW_OP_ne" (.dwOp .ne),
  ⟨literal (text "DW_OP_lit") ++ [.one isDigit, .many isDigit], fun yytext => .litn (atoi (yytext.drop 9))⟩,
  ⟨literal (text "DW_OP_breg") ++ [.one isDigit, .many isDigit], fun yytext => .bregn (atoi (yytext.drop 10))⟩,
  ⟨literal (text "DW_OP_reg") ++ [.one isDigit, .many isDigit], fun yytext => .regn (atoi (yytext.drop 9))⟩,
  wordRule "DW_OP_regx" (.dwOp (.other 0x90)), wordRule "DW_OP_fbreg" (.dwOp .fbreg), wordRule "DW_OP_bregx" (.dwOp .bregx),
  wordRule "DW_OP_piece" (.dwOp (.other 0x93)), wordRule "DW_OP_deref_size" (.dwOp .derefSize),
  wordRule "DW_OP_xderef_size" (.dwOp .xderefSize), wordRule "DW_OP_nop" (.dwOp .nop),
  wordRule "DW_OP_push_object_address" (.dwOp .pushObjectAddress), wordRule "DW_OP_call2" (.dwOp (.other 0x98)),
  wordRule "DW_OP_call4" (.dwOp (.other 0x99)), wordRule "DW_OP_call_ref" (.dwOp (.other 0x9a)),
  wordRule "DW_OP_form_tls_address" (.dwOp .formTlsAddress), wordRule "DW_OP_call_frame_cfa" (.dwOp .callFrameCfa),
  wordRule "DW_OP_bit_piece" (.dwOp (.other 0x9d)), wordRule "DW_OP_implicit_value" (.dwOp (.other 0x9e)),
  wordRule "DW_OP_stack_value" (.dwOp (.other 0x9f)),
  -- `BAD_DW_OP`
  ⟨literal (text "DW_OP_") ++ [.many fun b => !(isBlank b || b == newline || b == 13)], fun _ => .invalid⟩]

def encodingRules : List (Rule UInt8 Token) := [
  wordRule "DW_EH_PE_absptr" (.ptrEncoding 0x00), wordRule "DW_EH_PE_uleb128" (.ptrEncoding 0x01),
  wordRule "DW_EH_PE_udata2" (.ptrEncoding 0x02), wordRule "DW_EH_PE_udata4" (.ptrEncoding 0x03),
  wordRule "DW_EH_PE_udata8" (.ptrEncoding 0x04), wordRule "DW_EH_PE_sleb128" (.ptrEncoding 0x09),
  wordRule "DW_EH_PE_sdata2" (.ptrEncoding 0x0a), wordRule "DW_EH_PE_sdata4" (.ptrEncoding 0x0b),
  wordRule "DW_EH_PE_sdata8" (.ptrEncoding 0x0c), wordRule "DW_EH_PE_pcrel" (.ptrEncoding 0x10),
  wordRule "DW_EH_PE_textrel" (.ptrEncoding 0x20), wordRule "DW_EH_PE_datarel" (.ptrEncoding 0x30),
  wordRule "DW_EH_PE_funcrel" (.ptrEncoding 0x40), wordRule "DW_EH_PE_aligned" (.ptrEncoding 0x50),
  wordRule "DW_EH_PE_indirect" (.ptrEncoding 0x80), wordRule "DW_EH_PE_omit" (.ptrEncoding 0xff), wordRule "," .comma]

def posInt : Rule UInt8 Token :=
  ⟨[.one fun b => isDigit b && b != 48, .many isDigit], fun yytext => .intLit ⟨false, atoi yytext⟩⟩

def nonnegInt : Rule UInt8 Token := ⟨[.one isDigit, .many isDigit], fun yytext => .intLit ⟨false, atoi yytext⟩⟩

def int : Rule UInt8 Token :=
  ⟨[.opt (· == minusSign), .one isDigit, .many isDigit],
    fun yytext => .intLit ⟨yytext.head? == some minusSign, atoi yytext⟩⟩

def hexInt : Rule UInt8 Token :=
  ⟨[.one (· == 48), .one fun b => b == 88 || b == 120, .one isHexDigit, .many isHexDigit],
    fun yytext => .intLit ⟨false, Int32.ofInt (strtol 16 (yytext.drop 2))⟩⟩

def floatPoint : Rule UInt8 Token :=
  ⟨[.opt (· == minusSign), .many isDigit, .one (· == 46), .one isDigit, .many isDigit], fun _ => .float⟩

def floatDigit : Rule UInt8 Token :=
  ⟨[.opt (· == minusSign), .one isDigit, .many isDigit, .one (· == 46), .many isDigit], fun _ => .float⟩

def registerRule : Rule UInt8 Token :=
  ⟨[.one (· == 114), .one isDigit, .many isDigit], fun yytext => .register (atoi (yytext.drop 1))⟩

def identifierRule : Rule UInt8 Token := ⟨[.one isLetter, .many isWordByte], fun yytext => .identifier yytext⟩

def invalidRule : Rule UInt8 Token := ⟨[.one isWordByte, .many isWordByte], fun _ => .invalid⟩

def literalRules : List (Rule UInt8 Token) := [
  posInt, nonnegInt, int, hexInt, ⟨literal (text "hex;") ++ [.many isHexDigit], fun _ => .hexdata⟩, floatPoint, floatDigit,
  wordRule "true" (.boolLit true), wordRule "yes" (.boolLit true), wordRule "false" (.boolLit false),
  wordRule "no" (.boolLit false), registerRule, identifierRule, invalidRule]

def lexRules : List (Rule UInt8 Token) := keywordRules ++ cfaRules ++ dwOpRules ++ encodingRules ++ literalRules

/-! ## Scanning -/

/-- `yydwlex` up to the end of the input; every turn takes a byte at least, and `fuel` is one for each. -/
def lex : Nat → Shell.Lexer → Text → Except Fault (List Token)
  | _, _, [] => .ok []
  | 0, _, _ :: _ => .error .undefined
  | fuel + 1, st, b :: input =>
    if isBlank b then lex fuel st input
    else if b = newline then lex fuel { st with lineNumber := st.lineNumber + 1 } input
    else if b = pound then lex fuel st (input.dropWhile (· != newline))
    else if b = quote then do
      match ← Shell.inString (input.length + 1) st input with
      | (none, _, _) => .ok []
      | (some savedString, rest, st) =>
        let tokens ← lex fuel st rest
        .ok (.stringLiteral savedString :: tokens)
    else
      match pick lexRules (b :: input) with
      | none => lex fuel st input
      | some (n, t) => do
        let tokens ← lex fuel st ((b :: input).drop n)
        .ok (t :: tokens)

def lexText (input : Text) : Except Fault (List Token) := lex input.length .start input

/-- The tokens of a text without comments and string literals. -/
def pieces : Nat → Text → List Token
  | _, [] => []
  | 0, _ :: _ => []
  | fuel + 1, b :: input =>
    if isBlank b ∨ b = newline then pieces fuel input
    else
      match pick lexRules (b :: input) with
      | none => pieces fuel input
      | some (n, t) => t :: pieces fuel ((b :: input).drop n)

/-- No comment and no string literal starts in the text. -/
def Plain (w : Text) : Prop := ∀ b ∈ w, b ≠ pound ∧ b ≠ quote

instance (w : Text) : Decidable (Plain w) :=
  decidable_of_iff (w.all fun b => b != pound && b != quote) (by simp [Plain])

/-! ## Words on their own -/

/-- The scanner takes the text for these tokens, whatever is behind it. -/
def Lexes (t : Text) (tokens : List Token) : Prop :=
  ∀ fuel st rest, st.textAccumulating = false → t.length + rest.length ≤ fuel →
    ∃ fuel' st', st'.textAccumulating = false ∧ rest.length ≤ fuel' ∧
      lex fuel st (t ++ rest) = (lex fuel' st' rest).map (tokens ++ ·)

theorem map_nil_append (x : Except Fault (List Token)) : x.map (([] : List Token) ++ ·) = x := by
  cases x <;> rfl

theorem map_append (x : Except Fault (List Token)) (a b : List Token) :
    (x.map (b ++ ·)).map (a ++ ·) = x.map ((a ++ b) ++ ·) := by
  cases x with
  | error f => rfl
  | ok tokens => exact congrArg Except.ok (List.append_assoc a b tokens).symm

theorem lexes_nil : Lexes [] [] := fun fuel st rest hst hfuel =>
  ⟨fuel, st, hst, by simpa using hfuel, (map_nil_append _).symm⟩

theorem Lexes.append {t u : Text} {a b : List Token} (ht : Lexes t a) (hu : Lexes u b) : Lexes (t ++ u) (a ++ b) := by
  intro fuel st rest hst hfuel
  rw [List.length_append] at hfuel
  obtain ⟨fuel1, st1, hst1, hfuel1, h1⟩ := ht fuel st (u ++ rest) hst (by rw [List.length_append]; omega)
  obtain ⟨fuel2, st2, hst2, hfuel2, h2⟩ := hu fuel1 st1 rest hst1 (by rw [List.length_append] at hfuel1; omega)
  refine ⟨fuel2, st2, hst2, hfuel2, ?_⟩
  rw [List.append_assoc, h1, h2, map_append]

theorem lexText_of_lexes {t : Text} {tokens : List Token} (h : Lexes t tokens) : lexText t = .ok tokens := by
  obtain ⟨fuel, st, -, -, hlex⟩ := h t.length .start [] rfl (by simp)
  rw [List.append_nil] at hlex
  unfold lexText
  rw [hlex]
  cases fuel <;> simp [lex, Except.map]

theorem lexRules_avoid {d : UInt8} (hd : d = space ∨ d = newline) : ∀ r ∈ lexRules, Avoids r.pattern d := by
  rcases hd with rfl | rfl <;> decide +kernel

theorem lex_delimiter {d : UInt8} (hd : d = space ∨ d = newline) (fuel : Nat) (st : Shell.Lexer)
    (hst : st.textAccumulating = false) (input : Text) :
    ∃ st', st'.textAccumulating = false ∧ lex (fuel + 1) st (d :: input) = lex fuel st' input := by
  rcases hd with rfl | rfl
  · exact ⟨st, hst, rfl⟩
  · exact ⟨{ st with lineNumber := st.lineNumber + 1 }, hst, rfl⟩

theorem lexes_delimiter {d : UInt8} (hd : d = space ∨ d = newline) : Lexes [d] [] := by
  intro fuel st rest hst hfuel
  cases fuel with
  | zero => simp at hfuel
  | succ fuel =>
    obtain ⟨st', hst', hlex⟩ := lex_delimiter hd fuel st hst rest
    refine ⟨fuel, st', hst', by simp at hfuel; omega, ?_⟩
    rw [map_nil_append]
    exact hlex

/-- **A text without comments and literals is scanned on its own, up to the blank or the newline behind it.** -/
theorem lexes_word {d : UInt8} (hd : d = space ∨ d = newline) {w : Text} (hw : Plain w) :
    Lexes (w ++ [d]) (pieces w.length w) := by
  suffices h : ∀ k (v : Text), v.length ≤ k → Plain v → Lexes (v ++ [d]) (pieces k v) from
    h _ w (Nat.le_refl _) hw
  intro k
  induction k with
  | zero =>
    intro v hv _
    rw [List.eq_nil_of_length_eq_zero (Nat.le_zero.mp hv)]
    exact lexes_delimiter hd
  | succ k ih =>
    intro v hv hplain
    cases v with
    | nil => exact lexes_delimiter hd
    | cons b v =>
      have hlen : v.length ≤ k := Nat.le_of_succ_le_succ hv
      have hrest : Plain v := fun c hc => hplain c (List.mem_cons_of_mem _ hc)
      obtain ⟨hpound, hquote⟩ := hplain b List.mem_cons_self
      intro fuel st rest hst hfuel
      cases fuel with
      | zero => simp at hfuel
      | succ fuel =>
        have hfuel' : (v ++ [d]).length + rest.length ≤ fuel := by
          simp only [List.length_append, List.length_cons] at hfuel ⊢
          omega
        rw [List.cons_append, List.cons_append]
        by_cases hblank : isBlank b = true
        · have hskip : lex (fuel + 1) st (b :: (v ++ [d] ++ rest)) = lex fuel st (v ++ [d] ++ rest) := by
            simp [lex, hblank]
          rw [hskip, show pieces (k + 1) (b :: v) = pieces k v by simp [pieces, hblank]]
          exact ih v hlen hrest fuel st rest hst hfuel'
        · by_cases hnewline : b = newline
          · subst hnewline
            rw [show pieces (k + 1) (newline :: v) = pieces k v by simp [pieces]]
            exact ih v hlen hrest fuel { st with lineNumber := st.lineNumber + 1 } rest hst hfuel'
          · have hpick : pick lexRules (b :: (v ++ [d] ++ rest)) = pick lexRules (b :: v) := by
              rw [List.append_assoc]
              exact pick_delimited (lexRules_avoid hd) (b :: v) rest
            simp only [lex, pieces, hblank, hnewline, hpound, hquote, hpick, if_false, or_self, Bool.false_eq_true]
            cases hfound : pick lexRules (b :: v) with
            | none => exact ih v hlen hrest fuel st rest hst hfuel'
            | some found =>
              obtain ⟨n, t⟩ := found
              obtain ⟨hpos, hn⟩ := pick_pos hfound
              dsimp only
              have hdrop : (b :: (v ++ [d] ++ rest)).drop n = (b :: v).drop n ++ [d] ++ rest := by
                rw [← List.cons_append, ← List.cons_append, List.append_assoc, List.drop_append_of_le_length hn,
                  List.append_assoc]
              rw [hdrop]
              have hshort : ((b :: v).drop n).length ≤ k := by
                rw [List.length_drop, List.length_cons]
                omega
              obtain ⟨fuel', st', hst', hfuel'', hlex⟩ := ih ((b :: v).drop n) hshort
                (fun c hc => hplain c (List.mem_of_mem_drop hc)) fuel st rest hst (by
                  simp only [List.length_append, List.length_drop, List.length_cons, List.length_nil] at hfuel ⊢
                  omega)
              refine ⟨fuel', st', hst', hfuel'', ?_⟩
              rw [hlex]
              cases lex fuel' st' rest <;> rfl

/-! ## Numerals are scanned as they were printed -/

section
variable {v : Text} {b : UInt8}

theorem takeWhile_all {cls : UInt8 → Bool} (h : ∀ b ∈ v, cls b = true) : v.takeWhile cls = v :=
  List.takeWhile_eq_self_iff.mpr h

theorem dropWhile_all {cls : UInt8 → Bool} (h : ∀ b ∈ v, cls b = true) : v.dropWhile cls = [] :=
  List.dropWhile_eq_nil_iff.mpr h

theorem isWordByte_of_isDigit (h : isDigit b = true) : isWordByte b = true := by
  simp [isWordByte, h]

/-- No word of the language starts with a digit or a sign. -/
theorem words_start (hb : b ∈ text "0123456789-") :
    ∀ r ∈ keywordRules ++ cfaRules ++ dwOpRules ++ encodingRules, r.canStart b = false := by
  have hall : ((text "0123456789-").all fun b =>
      (keywordRules ++ cfaRules ++ dwOpRules ++ encodingRules).all fun r => !r.canStart b) = true := by decide +kernel
  simpa using List.all_eq_true.mp (List.all_eq_true.mp hall b hb)

theorem startLiteral (hb : b ∈ text "0123456789-") :
    lexRules.filter (·.canStart b) = literalRules.filter (·.canStart b) := by
  unfold lexRules
  rw [List.filter_append, List.filter_eq_nil_iff.mpr, List.nil_append]
  intro r hr
  rw [words_start hb r hr]
  exact Bool.false_ne_true

theorem mem_of_isDigit (h : isDigit b = true) : b ∈ text "0123456789" := by
  have hall : ∀ n : Fin 256, isDigit (UInt8.ofNat n) = true → UInt8.ofNat n ∈ text "0123456789" := by decide +kernel
  have hb := hall ⟨b.toNat, b.toNat_lt⟩
  simpa [h] using hb

theorem startZero : lexRules.filter (·.canStart 48) = [nonnegInt, int, hexInt, floatPoint, floatDigit, invalidRule] :=
  (startLiteral (by decide)).trans rfl

theorem startMinus : lexRules.filter (·.canStart minusSign) = [int, floatPoint, floatDigit] :=
  (startLiteral (by decide)).trans rfl

theorem startDigit (h : isDigit b = true) (hzero : b ≠ 48) :
    lexRules.filter (·.canStart b) = [posInt, nonnegInt, int, floatPoint, floatDigit, invalidRule] := by
  have hmem := mem_of_isDigit h
  rw [startLiteral (List.mem_append_left (text "-") hmem)]
  have hbytes : text "0123456789" = [48, 49, 50, 51, 52, 53, 54, 55, 56, 57] := rfl
  rw [hbytes] at hmem
  simp only [List.mem_cons, List.not_mem_nil, or_false] at hmem
  rcases hmem with rfl | rfl | rfl | rfl | rfl | rfl | rfl | rfl | rfl | rfl
  · exact absurd rfl hzero
  all_goals rfl

theorem startR : lexRules.filter (·.canStart 114) =
    [wordRule "return_addr_rule" (.keyword .returnAddrRule), registerRule, identifierRule, invalidRule] := by
  unfold lexRules
  simp only [List.filter_append]
  have hcfa : cfaRules.filter (·.canStart 114) = [] := rfl
  have hdwOp : dwOpRules.filter (·.canStart 114) = [] := rfl
  have hencoding : encodingRules.filter (·.canStart 114) = [] := rfl
  have hkeyword : keywordRules.filter (·.canStart 114) = [wordRule "return_addr_rule" (.keyword .returnAddrRule)] := rfl
  have hliteral : literalRules.filter (·.canStart 114) = [registerRule, identifierRule, invalidRule] := rfl
  rw [hkeyword, hcfa, hdwOp, hencoding, hliteral]
  rfl

/-! ### The matches of single rules -/

theorem found_digits (hv : ∀ b ∈ v, isDigit b = true) (hb : isDigit b = true) :
    nonnegInt.found (b :: v) = some (v.length + 1, .intLit ⟨false, atoi (b :: v)⟩) := by
  simp [Rule.found, nonnegInt, matchLength, hb, takeWhile_all hv]

theorem found_posDigits (hv : ∀ b ∈ v, isDigit b = true) (hb : isDigit b = true) (hzero : b ≠ 48) :
    posInt.found (b :: v) = some (v.length + 1, .intLit ⟨false, atoi (b :: v)⟩) := by
  simp [Rule.found, posInt, matchLength, hb, hzero, takeWhile_all hv]

theorem ne_minusSign (hb : isDigit b = true) : b ≠ minusSign := by
  rintro rfl
  exact absurd hb (by decide)

theorem found_int (hv : ∀ b ∈ v, isDigit b = true) (hb : isDigit b = true) :
    int.found (b :: v) = some (v.length + 1, .intLit ⟨false, atoi (b :: v)⟩) := by
  simp [Rule.found, int, matchLength, hb, ne_minusSign hb, takeWhile_all hv]

theorem found_floatPoint (hv : ∀ b ∈ v, isDigit b = true) (hb : isDigit b = true) : floatPoint.found (b :: v) = none := by
  have hall : ∀ c ∈ b :: v, isDigit c = true := by
    intro c hc
    rcases List.mem_cons.mp hc with rfl | hc
    · exact hb
    · exact hv c hc
  simp [Rule.found, floatPoint, matchLength, ne_minusSign hb, dropWhile_all hall]

theorem found_floatDigit (hv : ∀ b ∈ v, isDigit b = true) (hb : isDigit b = true) : floatDigit.found (b :: v) = none := by
  simp [Rule.found, floatDigit, matchLength, hb, ne_minusSign hb, dropWhile_all hv]

theorem found_invalid (hv : ∀ b ∈ v, isWordByte b = true) (hb : isWordByte b = true) :
    invalidRule.found (b :: v) = some (v.length + 1, .invalid) := by
  simp [Rule.found, invalidRule, matchLength, hb, takeWhile_all hv]

theorem pick_digits (hv : ∀ b ∈ v, isDigit b = true) (hb : isDigit b = true) :
    pick lexRules (b :: v) = some (v.length + 1, .intLit ⟨false, atoi (b :: v)⟩) := by
  have hinvalid := found_invalid (fun c hc => isWordByte_of_isDigit (hv c hc)) (isWordByte_of_isDigit hb)
  rw [pick_filter]
  by_cases hzero : b = 48
  · subst hzero
    have hhex : hexInt.found (48 :: v) = none := by
      cases v with
      | nil => rfl
      | cons c v =>
        have hc := hv c List.mem_cons_self
        have hx : (c == 88 || c == 120) = false := by
          by_contra hx
          have hor : c = 88 ∨ c = 120 := by simpa only [Bool.not_eq_false, Bool.or_eq_true, beq_iff_eq] using hx
          rcases hor with rfl | rfl <;> exact absurd hc (by decide)
        simp [Rule.found, hexInt, matchLength, hx]
    rw [startZero]
    simp only [pick, found_digits hv hb, found_int hv hb, hhex, found_floatPoint hv hb, found_floatDigit hv hb, hinvalid, longer,
      lt_irrefl, if_false]
  · rw [startDigit hb hzero]
    simp only [pick, found_posDigits hv hb hzero, found_digits hv hb, found_int hv hb, found_floatPoint hv hb,
      found_floatDigit hv hb, hinvalid, longer, lt_irrefl, if_false]

theorem pick_negative (hv : ∀ b ∈ v, isDigit b = true) (hb : isDigit b = true) :
    pick lexRules (minusSign :: b :: v) = some (v.length + 2, .intLit ⟨true, atoi (minusSign :: b :: v)⟩) := by
  have hall : ∀ c ∈ b :: v, isDigit c = true := List.forall_mem_cons.mpr ⟨hb, hv⟩
  have hint : int.found (minusSign :: b :: v) = some (v.length + 2, .intLit ⟨true, atoi (minusSign :: b :: v)⟩) := by
    simp [Rule.found, int, matchLength, hb, takeWhile_all hv]
  have hpoint : floatPoint.found (minusSign :: b :: v) = none := by
    simp [Rule.found, floatPoint, matchLength, dropWhile_all hall]
  have hdigit : floatDigit.found (minusSign :: b :: v) = none := by
    simp [Rule.found, floatDigit, matchLength, hb, dropWhile_all hv]
  rw [pick_filter, startMinus]
  simp only [pick, hint, hpoint, hdigit, longer]

theorem pick_hex (hv : ∀ b ∈ v, isHexDigit b = true) (hb : isHexDigit b = true) :
    pick lexRules (48 :: 120 :: b :: v) =
      some (v.length + 3, .intLit ⟨false, Int32.ofInt (strtol 16 (b :: v))⟩) := by
  have hword : ∀ c, isHexDigit c = true → isWordByte c = true := by
    intro c hc
    have hall : ∀ n : Fin 256, isHexDigit (UInt8.ofNat n) = true → isWordByte (UInt8.ofNat n) = true := by decide +kernel
    simpa [hc] using hall ⟨c.toNat, c.toNat_lt⟩
  have hhex : hexInt.found (48 :: 120 :: b :: v) =
      some (v.length + 3, .intLit ⟨false, Int32.ofInt (strtol 16 (b :: v))⟩) := by
    simp [Rule.found, hexInt, matchLength, hb, takeWhile_all hv]
  have hnonneg : nonnegInt.found (48 :: 120 :: b :: v) = some (1, .intLit ⟨false, atoi [48]⟩) := rfl
  have hint : int.found (48 :: 120 :: b :: v) = some (1, .intLit ⟨false, atoi [48]⟩) := rfl
  have hpoint : floatPoint.found (48 :: 120 :: b :: v) = none := rfl
  have hdigit : floatDigit.found (48 :: 120 :: b :: v) = none := rfl
  have hinvalid : invalidRule.found (48 :: 120 :: b :: v) = some (v.length + 3, .invalid) :=
    found_invalid (List.forall_mem_cons.mpr ⟨by decide, List.forall_mem_cons.mpr ⟨hword b hb, fun c hc => hword c (hv c hc)⟩⟩)
      (by decide)
  rw [pick_filter, startZero]
  simp [pick, hnonneg, hint, hhex, hpoint, hdigit, hinvalid, longer]

theorem pick_register (hv : ∀ b ∈ v, isDigit b = true) (hb : isDigit b = true) :
    pick lexRules (114 :: b :: v) = some (v.length + 2, .register (atoi (b :: v))) := by
  have hword : ∀ c ∈ b :: v, isWordByte c = true :=
    List.forall_mem_cons.mpr ⟨isWordByte_of_isDigit hb, fun c hc => isWordByte_of_isDigit (hv c hc)⟩
  have hrule : (wordRule "return_addr_rule" (.keyword .returnAddrRule)).found (114 :: b :: v) = none := by
    have he : (b == 101) = false := by
      by_contra h
      have heq : b = 101 := by simpa using h
      rw [heq] at hb
      exact absurd hb (by decide)
    have hpattern : (wordRule "return_addr_rule" (.keyword .returnAddrRule)).pattern =
        .one (· == 114) :: .one (· == 101) :: literal (text "turn_addr_rule") := rfl
    unfold Rule.found
    rw [hpattern]
    simp [matchLength, he]
  have hregister : registerRule.found (114 :: b :: v) = some (v.length + 2, .register (atoi (b :: v))) := by
    simp [Rule.found, registerRule, matchLength, hb, takeWhile_all hv]
  have hidentifier : identifierRule.found (114 :: b :: v) = some (v.length + 2, .identifier (114 :: b :: v)) := by
    have hletter : isLetter 114 = true := rfl
    simp [Rule.found, identifierRule, matchLength, hletter, takeWhile_all hword]
  have hinvalid : invalidRule.found (114 :: b :: v) = some (v.length + 2, .invalid) := found_invalid hword (by decide)
  rw [pick_filter, startR]
  simp [pick, hrule, hregister, hidentifier, hinvalid, longer]

/-- Without a digit behind it, an `r` is a word of its own. -/
theorem pick_signedRegister (v : Text) : pick lexRules (114 :: minusSign :: v) = some (1, .identifier [114]) := by
  have hrule : (wordRule "return_addr_rule" (.keyword .returnAddrRule)).found (114 :: minusSign :: v) = none := rfl
  have hregister : registerRule.found (114 :: minusSign :: v) = none := rfl
  have hidentifier : identifierRule.found (114 :: minusSign :: v) = some (1, .identifier [114]) := rfl
  have hinvalid : invalidRule.found (114 :: minusSign :: v) = some (1, .invalid) := rfl
  rw [pick_filter, startR]
  simp [pick, hrule, hregister, hidentifier, hinvalid, longer]

/-- The rules of words that start with one of these letters, none of which makes a register. -/
theorem startWord (hb : b ∈ text "CENO") :
    identifierRule ∈ lexRules.filter (·.canStart b) ∧
      ∀ r ∈ lexRules.filter (·.canStart b), ∀ w x, r.action w ≠ .register x := by
  have hbytes : text "CENO" = [67, 69, 78, 79] := rfl
  rw [hbytes] at hb
  simp only [List.mem_cons, List.not_mem_nil, or_false] at hb
  have hC : lexRules.filter (·.canStart 67) =
      [wordRule "CIE" (.keyword .cie), wordRule "CALL_SITE" (.keyword .callSite), identifierRule, invalidRule] := rfl
  have hE : lexRules.filter (·.canStart 69) =
      [wordRule "EXPRESSION" (.keyword .expression), identifierRule, invalidRule] := rfl
  have hN : lexRules.filter (·.canStart 78) = [identifierRule, invalidRule] := rfl
  have hO : lexRules.filter (·.canStart 79) = [identifierRule, invalidRule] := rfl
  rcases hb with rfl | rfl | rfl | rfl
  · simp [hC, wordRule, identifierRule, invalidRule]
  · simp [hE, wordRule, identifierRule, invalidRule]
  · simp [hN, identifierRule, invalidRule]
  · simp [hO, identifierRule, invalidRule]

theorem pieces_of_pick {t : Token} (hw : pick lexRules (b :: v) = some (v.length + 1, t)) (hblank : isBlank b = false)
    (hnewline : b ≠ newline) : pieces (b :: v).length (b :: v) = [t] := by
  rw [List.length_cons]
  simp only [pieces, hblank, hnewline, hw, or_self, if_false, Bool.false_eq_true]
  rw [List.drop_succ_cons, List.drop_length]
  cases v <;> rfl

/-! ### Printed numerals -/

theorem digits_cons {base : Nat} (hbase : 1 < base) (n : Nat) : ∃ b v, digits base n = b :: v := by
  cases h : digits base n with
  | nil => exact absurd h (digits_ne_nil hbase n)
  | cons b v => exact ⟨b, v, rfl⟩

theorem strtol_decimal (n : Nat) : strtol 10 (digits 10 n) = clampLong n := by
  obtain ⟨b, v, hdigits⟩ := digits_cons (by norm_num : 1 < 10) n
  have hb : isDigit b = true := isDigit_digits n b (by rw [hdigits]; exact List.mem_cons_self)
  have hhead : (digits 10 n).head? ≠ some minusSign := by
    rw [hdigits]
    exact fun h => ne_minusSign hb (Option.some.inj h)
  unfold strtol
  rw [if_neg hhead, numeral_decimal]

def intToken (x : Int) : Token := .intLit ⟨decide (x < 0), Int32.ofInt (clampLong x)⟩

theorem pieces_decimal (n : Nat) : pieces (digits 10 n).length (digits 10 n) = [intToken n] := by
  have hatoi : atoi (digits 10 n) = Int32.ofInt (clampLong n) := congrArg Int32.ofInt (strtol_decimal n)
  have hall := isDigit_digits n
  obtain ⟨b, v, hdigits⟩ := digits_cons (by norm_num : 1 < 10) n
  rw [hdigits] at hatoi hall ⊢
  obtain ⟨hb, hv⟩ := List.forall_mem_cons.mp hall
  have hblank : isBlank b = false := by
    by_contra h
    have hor : b = space ∨ b = tab := by
      simpa only [isBlank, Bool.not_eq_false, Bool.or_eq_true, beq_iff_eq] using h
    rcases hor with rfl | rfl <;> exact absurd hb (by decide)
  have hnewline : b ≠ newline := by
    rintro rfl
    exact absurd hb (by decide)
  rw [pieces_of_pick (pick_digits hv hb) hblank hnewline, hatoi]
  simp [intToken]

theorem pieces_signed (x : Int) : pieces (signedDigits x).length (signedDigits x) = [intToken x] := by
  unfold signedDigits
  by_cases hx : x < 0
  · rw [if_pos hx]
    have hatoi : atoi (minusSign :: digits 10 x.natAbs) = Int32.ofInt (clampLong x) := by
      unfold atoi strtol
      rw [if_pos (List.head?_cons), List.tail_cons, numeral_decimal, show -(x.natAbs : Int) = x by omega]
    have hall := isDigit_digits x.natAbs
    obtain ⟨b, v, hdigits⟩ := digits_cons (by norm_num : 1 < 10) x.natAbs
    rw [hdigits] at hatoi hall ⊢
    obtain ⟨hb, hv⟩ := List.forall_mem_cons.mp hall
    rw [pieces_of_pick (pick_negative hv hb) (by decide) (by decide), hatoi]
    simp [intToken, hx]
  · rw [if_neg hx, pieces_decimal, show ((x.toNat : Nat) : Int) = x by omega]

/-- Hexadecimal digits behind a `0x`. -/
theorem pieces_marked {w : Text} (hw : ∀ b ∈ w, isHexDigit b = true) (hne : w ≠ []) :
    pieces (text "0x" ++ w).length (text "0x" ++ w) = [.intLit ⟨false, Int32.ofInt (strtol 16 w)⟩] := by
  have hmark : text "0x" ++ w = 48 :: 120 :: w := rfl
  obtain ⟨b, v, rfl⟩ := List.exists_cons_of_ne_nil hne
  obtain ⟨hb, hv⟩ := List.forall_mem_cons.mp hw
  rw [hmark, pieces_of_pick (pick_hex hv hb) (by decide) (by decide)]

theorem strtol_digits (n : Nat) : strtol 16 (digits 16 n) = clampLong n := by
  unfold strtol
  rw [if_neg, numeral_hex]
  intro h
  have hminus := isHexDigit_digits n minusSign (List.mem_of_mem_head? h)
  exact absurd hminus (by decide)

theorem pieces_hex (n : Nat) :
    pieces (text "0x" ++ digits 16 n).length (text "0x" ++ digits 16 n) = [intToken n] := by
  rw [pieces_marked (isHexDigit_digits n) (digits_ne_nil (by norm_num) n), strtol_digits]
  simp [intToken]

theorem pieces_register (n : Nat) :
    pieces (text "r" ++ digits 10 n).length (text "r" ++ digits 10 n) = [.register (Int32.ofInt (clampLong n))] := by
  have hmark : text "r" ++ digits 10 n = 114 :: digits 10 n := rfl
  have hatoi : atoi (digits 10 n) = Int32.ofInt (clampLong n) := congrArg Int32.ofInt (strtol_decimal n)
  have hall := isDigit_digits n
  obtain ⟨b, v, hdigits⟩ := digits_cons (by norm_num : 1 < 10) n
  rw [hmark]
  rw [hdigits] at hatoi hall ⊢
  obtain ⟨hb, hv⟩ := List.forall_mem_cons.mp hall
  rw [pieces_of_pick (pick_register hv hb) (by decide) (by decide), hatoi]

theorem pieces_cons {n : Nat} {t : Token} (hw : pick lexRules (b :: v) = some (n, t)) (hblank : isBlank b = false)
    (hnewline : b ≠ newline) : ∃ more, pieces (b :: v).length (b :: v) = t :: more := by
  rw [List.length_cons]
  simp only [pieces, hblank, hnewline, hw, or_self, if_false, Bool.false_eq_true]
  exact ⟨_, rfl⟩

/-- A sign behind a `0x` leaves it without a number. -/
theorem pieces_signedMark (v : Text) : ∃ more,
    pieces (48 :: 120 :: minusSign :: v).length (48 :: 120 :: minusSign :: v) = .invalid :: more := by
  have hnonneg : nonnegInt.found (48 :: 120 :: minusSign :: v) = some (1, .intLit ⟨false, atoi [48]⟩) := rfl
  have hint : int.found (48 :: 120 :: minusSign :: v) = some (1, .intLit ⟨false, atoi [48]⟩) := rfl
  have hhex : hexInt.found (48 :: 120 :: minusSign :: v) = none := rfl
  have hpoint : floatPoint.found (48 :: 120 :: minusSign :: v) = none := rfl
  have hdigit : floatDigit.found (48 :: 120 :: minusSign :: v) = none := rfl
  have hinvalid : invalidRule.found (48 :: 120 :: minusSign :: v) = some (2, .invalid) := rfl
  have hpick : pick lexRules (48 :: 120 :: minusSign :: v) = some (2, .invalid) := by
    rw [pick_filter, startZero]
    simp [pick, hnonneg, hint, hhex, hpoint, hdigit, hinvalid, longer]
  exact pieces_cons hpick (by decide) (by decide)

theorem pieces_signedRegister (v : Text) : ∃ more,
    pieces (114 :: minusSign :: v).length (114 :: minusSign :: v) = .identifier [114] :: more :=
  pieces_cons (pick_signedRegister v) (by decide) (by decide)

/-- A word in braces. -/
theorem pieces_brace (hb : b ∈ text "CENO") : ∃ t more,
    pieces (123 :: b :: v).length (123 :: b :: v) = t :: more ∧ ∀ x, t ≠ .register x := by
  have hbrace : pick lexRules (123 :: b :: v) = none := by
    have hnone : lexRules.filter (·.canStart 123) = [] := rfl
    rw [pick_filter, hnone]
    rfl
  obtain ⟨hidentifier, hnot⟩ := startWord hb
  have hletter : isLetter b = true ∧ isBlank b = false ∧ b ≠ newline := by
    have hall : (text "CENO").all (fun b => isLetter b && !isBlank b && b != newline) = true := by decide
    have hbyte := List.all_eq_true.mp hall b hb
    simpa [and_assoc] using hbyte
  obtain ⟨hletter, hblank, hnewline⟩ := hletter
  have hfound : (identifierRule.found (b :: v)).isSome = true := by
    simp [Rule.found, identifierRule, matchLength, hletter]
  obtain ⟨⟨n, t⟩, hpick⟩ := Option.isSome_iff_exists.mp (pick_isSome hidentifier hfound)
  obtain ⟨r, hr, hrule⟩ := pick_mem hpick
  rw [← pick_filter] at hpick
  obtain ⟨more, hmore⟩ := pieces_cons hpick hblank hnewline
  refine ⟨t, more, ?_, ?_⟩
  · rw [← hmore, List.length_cons, pieces, if_neg (by decide), hbrace]
  · unfold Rule.found at hrule
    split at hrule
    · cases hrule
      exact hnot r hr _
    · cases hrule

end

end Katana.Script

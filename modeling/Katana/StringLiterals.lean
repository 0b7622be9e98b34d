/-
  Katana.StringLiterals — the string literals of a dwarfscript and of the shell (the `IN_STRING` rules of
  dwarfscript.l and shell.l, and the text accumulator under them).

  Between two literals only the shell's `!` commands touch the accumulator. `finishAccumulateText` leaves its text
  behind, and a literal whose rules accumulate nothing is given it.

  Proved, for every sequence of literals and shell commands:
  - `Matches.inString`: what the rules matched in a literal do, and that nothing behind its quote is read.
  - `ownContents_iff`: exactly when each literal's token is what the literal contains.
-/
import Katana.CString
import Katana.Fault
import Mathlib.Algebra.Group.Nat.Defs

namespace Katana.Shell

def quote : UInt8 := 34
def backslash : UInt8 := 92
def newline : UInt8 := 10

/-! ## The text accumulator -/

structure Lexer where
  textAccumulator : Option (List UInt8)
  textAccumulating : Bool
  lineNumber : Nat

def Lexer.start : Lexer := ⟨none, false, 1⟩

def accumulateText (st : Lexer) (text : List UInt8) : Except Fault Lexer :=
  if st.textAccumulating = false then
    .ok { st with textAccumulating := true, textAccumulator := some (stringOf text) }
  else
    match st.textAccumulator with
    | none => .error .undefined
    | some accumulated => do
      -- `accumLen`, `newLen` and the size for `realloc` are ints
      defined (accumulated.length + (stringOf text).length + 1 < 2 ^ 31)
      .ok { st with textAccumulator := some (accumulated ++ stringOf text) }

/-- `savedString=strdup(finishAccumulateText())`. -/
def saveString (st : Lexer) : Except Fault (List UInt8 × Lexer) :=
  match st.textAccumulator with
  | none => .error .undefined
  | some text => .ok (text, { st with textAccumulating := false })

/-! ## The rules -/

/-- The rule of `IN_STRING` that matches; `echo` is flex's own, for a newline no rule is for. -/
inductive Match where
  | close
  | run (yytext : List UInt8)
  | continuation
  | escapedQuote
  | backslash
  | echo
  deriving DecidableEq

/-- `[^\"\n\\]`. -/
def isText (b : UInt8) : Bool := b ≠ quote && b ≠ newline && b ≠ backslash

/-- The longest match, and the input behind it. -/
def nextMatch : List UInt8 → Option (Match × List UInt8)
  | [] => none
  | b :: input =>
    if b = quote then some (.close, input)
    else if b = newline then some (.echo, input)
    else if b = backslash then
      if input.head? = some newline then some (.continuation, input.tail)
      else if input.head? = some quote then some (.escapedQuote, input.tail)
      else some (.backslash, input)
    else some (.run (b :: input.takeWhile isText), input.dropWhile isText)

def Match.accumulated : Match → Option (List UInt8)
  | .run yytext => some yytext
  | .escapedQuote => some [Shell.backslash, quote]
  | .backslash => some [Shell.backslash]
  | _ => none

/-- The action of every rule but the closing quote's. -/
def act (st : Lexer) (m : Match) : Except Fault Lexer :=
  match m.accumulated with
  | some yytext => accumulateText st yytext
  | none => .ok (if m = .continuation then { st with lineNumber := st.lineNumber + 1 } else st)

/-- From behind the opening quote: the token's value, or none where the input ends, and the input behind the token.
Each match takes a byte at least of the input, and `fuel` is one for each. -/
def inString : Nat → Lexer → List UInt8 → Except Fault (Option (List UInt8) × List UInt8 × Lexer)
  | 0, _, _ => .error .undefined
  | fuel + 1, st, input =>
    match nextMatch input with
    | none => .ok (none, [], st)
    | some (.close, rest) => do
      let (savedString, st) ← saveString st
      .ok (some savedString, rest, st)
    | some (m, rest) => do
      let st ← act st m
      inString fuel st rest

/-- From behind the `!` of a shell command; newlines in front of it are echoed. -/
def inShellCmd (st : Lexer) (input : List UInt8) : Except Fault (Option (List UInt8) × List UInt8 × Lexer) :=
  match input.dropWhile (· = newline) with
  | [] => .ok (none, [], st)
  | b :: input => do
    let st ← accumulateText st (b :: input.takeWhile (· ≠ newline))
    let (savedString, st) ← saveString st
    .ok (some savedString, input.dropWhile (· ≠ newline), st)

/-! ## Literals -/

/-- No quote closes the literal before its text ends: each is escaped, and the closing one is not. -/
def closed : List UInt8 → Bool
  | [] => true
  | [a] => a ≠ quote && a ≠ backslash
  | a :: b :: text =>
    if a = backslash ∧ (b = quote ∨ b = newline) then closed text else a ≠ quote && closed (b :: text)

/-- What a literal contains once its escapes are processed: line continuations are dropped, and of an escaped quote the
backslash is dropped or `kept`. -/
def contents (kept : Bool) : List UInt8 → List UInt8
  | [] => []
  | [a] => [a]
  | a :: b :: text =>
    if a = backslash ∧ b = newline then contents kept text
    else if a = backslash ∧ b = quote then (if kept then [a, b] else [b]) ++ contents kept text
    else a :: contents kept (b :: text)

/-- What uses the accumulator, in the order of the input: a literal with the text between its quotes, a shell command
with its line. -/
inductive Piece where
  | literal (text : List UInt8) (isClosed : closed text)
  | shellCommand (line : List UInt8) (isLine : line ≠ [] ∧ newline ∉ line)

def lexAll (st : Lexer) : List Piece → Except Fault (List (Option (List UInt8)))
  | [] => .ok []
  | .literal text _ :: pieces => do
    let (token, _, st) ← inString (text.length + 1) st (text ++ [quote])
    let tokens ← lexAll st pieces
    .ok (token :: tokens)
  | .shellCommand line _ :: pieces => do
    let (_, _, st) ← inShellCmd st (line ++ [newline])
    lexAll st pieces

def literals : List Piece → List (List UInt8)
  | [] => []
  | .literal text _ :: pieces => text :: literals pieces
  | .shellCommand _ _ :: pieces => literals pieces

/-- Each token's value is the contents of its own literal. -/
def OwnContents (kept : Bool) (pieces : List Piece) : Prop :=
  lexAll .start pieces = .ok ((literals pieces).map fun text => some (contents kept text))

/-- The matches up to the closing quote. -/
def scan : Nat → List UInt8 → List Match
  | 0, _ => []
  | fuel + 1, input =>
    match nextMatch input with
    | none => []
    | some (.close, _) => []
    | some (m, rest) => m :: scan fuel rest

def rules (text : List UInt8) : List Match := scan (text.length + 1) (text ++ [quote])

def accumulated (text : List UInt8) : List (List UInt8) := (rules text).filterMap Match.accumulated

/-- No byte of the literal is a NUL, no newline of it is bare, no quote in it loses a backslash that is kept, and it is
accumulated at once or its length is an int. -/
structure Clean (kept : Bool) (text : List UInt8) : Prop where
  noNul : 0 ∉ text
  noNewline : Match.echo ∉ rules text
  escapes : kept ∨ Match.escapedQuote ∉ rules text
  short : (accumulated text).length ≤ 1 ∨ (accumulated text).flatten.length + 1 < 2 ^ 31

/-- Every literal is clean, and one in which nothing is accumulated comes where the accumulator is left `empty`: other
such literals apart, right behind a shell command that starts with a NUL. -/
def Fits (kept : Bool) : Prop → List Piece → Prop
  | _, [] => True
  | empty, .literal text _ :: pieces =>
    Clean kept text ∧ (accumulated text = [] → empty) ∧ Fits kept (empty ∧ accumulated text = []) pieces
  | _, .shellCommand line _ :: pieces => Fits kept (line.head? = some 0) pieces

/-! ## One literal -/

def Match.contents (kept : Bool) : Match → List UInt8
  | .close => []
  | .run yytext => yytext
  | .continuation => []
  | .escapedQuote => if kept then [Shell.backslash, quote] else [quote]
  | .backslash => [Shell.backslash]
  | .echo => [newline]

/-- In `text` the rule `m` matches first, and `rest` is left of it. -/
structure Step (m : Match) (text rest : List UInt8) : Prop where
  next : ∀ input, nextMatch (text ++ quote :: input) = some (m, rest ++ quote :: input)
  inside : m ≠ .close
  shorter : rest.length < text.length
  contents : ∀ kept, contents kept text = m.contents kept ++ Shell.contents kept rest
  isRun : ∀ yytext, m = .run yytext → yytext ≠ [] ∧ ∀ b ∈ yytext, isText b

inductive Matches : List UInt8 → List Match → Prop where
  | nil : Matches [] []
  | cons {m : Match} {text rest : List UInt8} {ms : List Match} (step : Step m text rest) (tail : Matches rest ms) :
      Matches text (m :: ms)

section
variable {text : List UInt8} {kept : Bool}

theorem closed_cons {a : UInt8} (ha : a ≠ backslash) : closed (a :: text) = (decide (a ≠ quote) && closed text) := by
  cases text with
  | nil => simp [closed, ha]
  | cons b text => simp [closed, ha]

theorem contents_cons {a : UInt8} (ha : a ≠ backslash) : contents kept (a :: text) = a :: contents kept text := by
  cases text with
  | nil => simp [contents]
  | cons b text => simp [contents, ha]

theorem isText_iff {b : UInt8} : isText b ↔ b ≠ quote ∧ b ≠ newline ∧ b ≠ backslash := by
  simp [isText, and_assoc]

theorem span_quote (text input : List UInt8) : (text ++ quote :: input).takeWhile isText = text.takeWhile isText ∧
    (text ++ quote :: input).dropWhile isText = text.dropWhile isText ++ quote :: input := by
  induction text with
  | nil => exact ⟨rfl, rfl⟩
  | cons b text ih =>
    by_cases hb : isText b
    · simp [hb, ih.1, ih.2]
    · simp [hb]

theorem contents_run (text : List UInt8) :
    contents kept text = text.takeWhile isText ++ contents kept (text.dropWhile isText) := by
  induction text with
  | nil => rfl
  | cons b text ih =>
    by_cases hb : isText b
    · rw [contents_cons (isText_iff.mp hb).2.2, List.takeWhile_cons_of_pos hb, List.dropWhile_cons_of_pos hb, ih]
      rfl
    · rw [List.takeWhile_cons_of_neg hb, List.dropWhile_cons_of_neg hb]
      rfl

theorem closed_run (h : closed text) : closed (text.dropWhile isText) := by
  induction text with
  | nil => exact h
  | cons b text ih =>
    by_cases hb : isText b
    · rw [List.dropWhile_cons_of_pos hb]
      rw [closed_cons (isText_iff.mp hb).2.2, Bool.and_eq_true] at h
      exact ih h.2
    · rw [List.dropWhile_cons_of_neg hb]
      exact h

/-- In a closed literal that has not ended some rule matches, and not the closing quote's. -/
theorem exists_step (h : closed text) (hne : text ≠ []) : ∃ m rest, Step m text rest ∧ closed rest := by
  obtain ⟨b, text, rfl⟩ := List.exists_cons_of_ne_nil hne
  by_cases hslash : b = backslash
  · subst hslash
    cases text with
    | nil => cases h
    | cons c text =>
      by_cases hline : c = newline
      · subst hline
        refine ⟨.continuation, text, ⟨fun input => rfl, by simp, ?_, fun kept => rfl, by simp⟩, h⟩
        simp only [List.length_cons]
        omega
      · by_cases hquote : c = quote
        · subst hquote
          refine ⟨.escapedQuote, text, ⟨fun input => rfl, by simp, ?_, fun kept => ?_, by simp⟩, h⟩
          · simp only [List.length_cons]
            omega
          · cases kept <;> rfl
        · refine ⟨.backslash, c :: text, ⟨fun input => ?_, by simp, by simp, fun kept => ?_, by simp⟩, ?_⟩
          · simp [nextMatch, hline, hquote, show backslash ≠ quote by decide, show backslash ≠ newline by decide]
          · simp [contents, hline, hquote, Match.contents]
          · simpa [closed, hline, hquote, show backslash ≠ quote by decide] using h
  · rw [closed_cons hslash, Bool.and_eq_true, decide_eq_true_eq] at h
    by_cases hline : b = newline
    · subst hline
      exact ⟨.echo, text, ⟨fun input => rfl, by simp, by simp, fun kept => contents_cons hslash, by simp⟩, h.2⟩
    · refine ⟨.run (b :: text.takeWhile isText), text.dropWhile isText,
        ⟨fun input => ?_, by simp, ?_, fun kept => ?_, ?_⟩, closed_run h.2⟩
      · simp [nextMatch, h.1, hline, hslash, span_quote]
      · exact Nat.lt_succ_of_le (List.dropWhile_suffix isText).length_le
      · rw [contents_cons hslash, contents_run]
        rfl
      · rintro yytext hrun
        cases hrun
        refine ⟨by simp, fun c hc => ?_⟩
        rcases List.mem_cons.mp hc with rfl | hc
        · exact isText_iff.mpr ⟨h.1, hline, hslash⟩
        · exact List.mem_takeWhile_imp hc

theorem exists_matches : ∀ {text : List UInt8}, closed text → ∃ ms, Matches text ms := by
  intro text
  induction hlen : text.length using Nat.strongRecOn generalizing text with
  | ind n ih =>
    intro h
    by_cases hne : text = []
    · exact ⟨[], hne ▸ .nil⟩
    · obtain ⟨m, rest, step, hrest⟩ := exists_step h hne
      obtain ⟨ms, tail⟩ := ih rest.length (hlen ▸ step.shorter) rfl hrest
      exact ⟨m :: ms, .cons step tail⟩

theorem Matches.scan {ms : List Match} (h : Matches text ms) {fuel : Nat} (hfuel : text.length < fuel)
    (input : List UInt8) : scan fuel (text ++ quote :: input) = ms := by
  induction h generalizing fuel with
  | nil =>
    obtain ⟨fuel, rfl⟩ : ∃ j, fuel = j + 1 := ⟨fuel - 1, by omega⟩
    rfl
  | @cons m text rest ms step tail ih =>
    obtain ⟨fuel, rfl⟩ : ∃ j, fuel = j + 1 := ⟨fuel - 1, by omega⟩
    have hrest := ih (show rest.length < fuel by have := step.shorter; omega)
    have hinside := step.inside
    rw [Shell.scan, step.next]
    cases m with
    | close => exact absurd rfl hinside
    | run yytext => exact congrArg _ hrest
    | continuation => exact congrArg _ hrest
    | escapedQuote => exact congrArg _ hrest
    | backslash => exact congrArg _ hrest
    | echo => exact congrArg _ hrest

theorem rules_matches (h : closed text) : Matches text (rules text) := by
  obtain ⟨ms, hms⟩ := exists_matches h
  have hrules : rules text = ms := hms.scan (Nat.lt_succ_self _) []
  rw [hrules]
  exact hms

theorem Matches.inString {ms : List Match} (h : Matches text ms) {fuel : Nat} (hfuel : text.length < fuel) (st : Lexer)
    (input : List UInt8) : inString fuel st (text ++ quote :: input) =
      ms.foldlM act st >>= saveString >>= fun saved => .ok (some saved.1, input, saved.2) := by
  induction h generalizing fuel st with
  | nil =>
    obtain ⟨fuel, rfl⟩ : ∃ j, fuel = j + 1 := ⟨fuel - 1, by omega⟩
    rfl
  | @cons m text rest ms step tail ih =>
    obtain ⟨fuel, rfl⟩ : ∃ j, fuel = j + 1 := ⟨fuel - 1, by omega⟩
    have hrest : ∀ st, _ := ih (show rest.length < fuel by have := step.shorter; omega)
    have hinside := step.inside
    have hstep : Shell.inString (fuel + 1) st (text ++ quote :: input) =
        act st m >>= fun st => Shell.inString fuel st (rest ++ quote :: input) := by
      rw [Shell.inString, step.next]
      cases m with
      | close => exact absurd rfl hinside
      | run yytext => rfl
      | continuation => rfl
      | escapedQuote => rfl
      | backslash => rfl
      | echo => rfl
    rw [hstep, List.foldlM_cons]
    cases hact : act st m with
    | error e => rfl
    | ok st => exact hrest st

theorem Matches.contents {ms : List Match} (h : Matches text ms) :
    contents kept text = ms.flatMap (Match.contents kept) := by
  induction h with
  | nil => rfl
  | cons step tail ih => rw [step.contents, ih, List.flatMap_cons]

/-- What is accumulated is not empty, and there is no newline in it. -/
theorem Matches.isText {ms : List Match} (h : Matches text ms) :
    ∀ yytext ∈ ms.filterMap Match.accumulated, yytext ≠ [] ∧ newline ∉ yytext := by
  induction h with
  | nil => simp
  | @cons m text rest ms step tail ih =>
    intro yytext hmem
    obtain ⟨m', hm', hacc⟩ := List.mem_filterMap.mp hmem
    rcases List.mem_cons.mp hm' with rfl | hm'
    · cases m' with
      | close => cases hacc
      | run yytext' =>
        cases hacc
        have hrun := step.isRun _ rfl
        exact ⟨hrun.1, fun hline => (isText_iff.mp (hrun.2 _ hline)).2.1 rfl⟩
      | continuation => cases hacc
      | escapedQuote =>
        cases hacc
        exact ⟨by simp, by decide⟩
      | backslash =>
        cases hacc
        exact ⟨by simp, by decide⟩
      | echo => cases hacc
    · exact ih yytext (List.mem_filterMap.mpr ⟨m', hm', hacc⟩)

end

/-! ## What is accumulated -/

def joined (texts : List (List UInt8)) : List UInt8 := (texts.map stringOf).flatten

@[simp] theorem joined_cons (text : List UInt8) (texts : List (List UInt8)) :
    joined (text :: texts) = stringOf text ++ joined texts := rfl

theorem accumulateText_more (held text : List UInt8) (line : Nat) : accumulateText ⟨some held, true, line⟩ text =
    if held.length + (stringOf text).length + 1 < 2 ^ 31 then .ok ⟨some (held ++ stringOf text), true, line⟩
    else .error .undefined := by
  rw [accumulateText, if_neg (by simp)]
  dsimp only
  by_cases hshort : held.length + (stringOf text).length + 1 < 2 ^ 31
  · rw [if_pos hshort, defined_of hshort, bind_ok]
  · rw [if_neg hshort, defined_not hshort, bind_error]

theorem count_cons (rule m : Match) (ms : List Match) : (m :: ms).count rule = [m].count rule + ms.count rule := by
  rw [← List.count_append, List.singleton_append]

theorem lines_cons (line : Nat) (m : Match) (ms : List Match) :
    line + [m].count .continuation + ms.count .continuation = line + (m :: ms).count .continuation := by
  rw [count_cons _ m ms, Nat.add_assoc]

theorem act_none {m : Match} (h : m.accumulated = none) (st : Lexer) :
    act st m = .ok { st with lineNumber := st.lineNumber + [m].count .continuation } := by
  rw [act, h]
  by_cases hline : m = .continuation
  · simp [hline]
  · simp [hline]

section
variable {ms : List Match}

theorem foldlM_more (held : List UInt8) (line : Nat) : ms.foldlM act ⟨some held, true, line⟩ =
    if ms.filterMap Match.accumulated = [] ∨
        held.length + (joined (ms.filterMap Match.accumulated)).length + 1 < 2 ^ 31 then
      .ok ⟨some (held ++ joined (ms.filterMap Match.accumulated)), true, line + ms.count .continuation⟩
    else .error .undefined := by
  induction ms generalizing held line with
  | nil => simp [joined]
  | cons m ms ih =>
    rw [List.foldlM_cons]
    cases hacc : m.accumulated with
    | none =>
      rw [act_none hacc, bind_ok, ih, List.filterMap_cons_none hacc, lines_cons]
    | some text =>
      have hline : m ≠ .continuation := by
        rintro rfl
        cases hacc
      have hact : ∀ st, act st m = accumulateText st text := fun st => by rw [act, hacc]
      rw [List.filterMap_cons_some hacc, List.count_cons_of_ne hline, hact, accumulateText_more, joined_cons,
        List.length_append]
      by_cases hshort : held.length + (stringOf text).length + 1 < 2 ^ 31
      · rw [if_pos hshort, bind_ok, ih, List.length_append, List.append_assoc]
        refine if_congr ?_ rfl rfl
        constructor
        · rintro (hnil | hlen)
          · rw [hnil]
            exact .inr (by simpa [joined] using hshort)
          · exact .inr (by omega)
        · rintro (hnil | hlen)
          · cases hnil
          · exact .inr (by omega)
      · rw [if_neg hshort, bind_error, if_neg]
        rintro (hnil | hlen)
        · cases hnil
        · omega

/-- Where nothing is accumulated the text before is left. -/
theorem foldlM_blank (h : ms.filterMap Match.accumulated = []) (st : Lexer) :
    ms.foldlM act st = .ok { st with lineNumber := st.lineNumber + ms.count .continuation } := by
  induction ms generalizing st with
  | nil => rfl
  | cons m ms ih =>
    cases hacc : m.accumulated with
    | none =>
      rw [List.filterMap_cons_none hacc] at h
      rw [List.foldlM_cons, act_none hacc, bind_ok, ih h, lines_cons]
    | some text =>
      rw [List.filterMap_cons_some hacc] at h
      cases h

/-- Otherwise it is replaced. -/
theorem foldlM_first (h : ms.filterMap Match.accumulated ≠ []) (held : Option (List UInt8)) (line : Nat) :
    ms.foldlM act ⟨held, false, line⟩ =
      if (ms.filterMap Match.accumulated).length ≤ 1 ∨ (joined (ms.filterMap Match.accumulated)).length + 1 < 2 ^ 31 then
        .ok ⟨some (joined (ms.filterMap Match.accumulated)), true, line + ms.count .continuation⟩
      else .error .undefined := by
  induction ms generalizing held line with
  | nil => exact absurd rfl h
  | cons m ms ih =>
    rw [List.foldlM_cons]
    cases hacc : m.accumulated with
    | none =>
      rw [List.filterMap_cons_none hacc] at h
      rw [act_none hacc, bind_ok, ih h, List.filterMap_cons_none hacc, lines_cons]
    | some text =>
      have hline : m ≠ .continuation := by
        rintro rfl
        cases hacc
      have hact : act ⟨held, false, line⟩ m = .ok ⟨some (stringOf text), true, line⟩ := by
        rw [act, hacc]
        rfl
      rw [hact, bind_ok, foldlM_more, List.filterMap_cons_some hacc, List.count_cons_of_ne hline, joined_cons,
        List.length_append, List.length_cons]
      refine if_congr (or_congr_left ?_) rfl rfl
      rw [← List.length_eq_zero_iff]
      omega

end

/-! ## The value of a token -/

theorem mem_joined {texts : List (List UInt8)} {b : UInt8} (hb : b ∈ joined texts) :
    b ≠ 0 ∧ ∃ text ∈ texts, b ∈ text := by
  obtain ⟨_, htext, hb⟩ := List.mem_flatten.mp hb
  obtain ⟨text, hmem, rfl⟩ := List.mem_map.mp htext
  exact ⟨(mem_stringOf hb).1, text, hmem, (mem_stringOf hb).2⟩

theorem joined_of {texts : List (List UInt8)} (h : ∀ text ∈ texts, 0 ∉ text) : joined texts = texts.flatten := by
  rw [joined, List.map_congr_left fun text htext => stringOf_of (h text htext), List.map_id']

theorem nul_mem_contents {kept : Bool} (text : List UInt8) : 0 ∈ contents kept text ↔ 0 ∈ text := by
  fun_induction contents kept text with
  | case1 => rfl
  | case2 a => rfl
  | case3 a b text h ih =>
    rw [ih, h.1, h.2]
    simp [backslash, newline]
  | case4 a b text _ h ih =>
    rw [h.1, h.2, List.mem_append, ih]
    cases kept <;> simp [backslash, quote]
  | case5 a b text _ _ ih =>
    rw [List.mem_cons, ih]
    exact List.mem_cons.symm

section
variable {ms : List Match} {kept : Bool}

theorem accumulated_flatten (m : Match) : ((m :: ms).filterMap Match.accumulated).flatten =
    m.accumulated.getD [] ++ (ms.filterMap Match.accumulated).flatten := by
  cases hacc : m.accumulated with
  | none => rw [List.filterMap_cons_none hacc, Option.getD_none, List.nil_append]
  | some yytext => rw [List.filterMap_cons_some hacc, Option.getD_some, List.flatten_cons]

theorem contents_flatten (h : .echo ∉ ms) (hkept : kept ∨ .escapedQuote ∉ ms) :
    ms.flatMap (Match.contents kept) = (ms.filterMap Match.accumulated).flatten := by
  induction ms with
  | nil => rfl
  | cons m ms ih =>
    rw [List.mem_cons, not_or] at h hkept
    rw [List.flatMap_cons, ih h.2 (hkept.imp_right And.right), accumulated_flatten]
    congr 1
    cases m with
    | close => rfl
    | run yytext => rfl
    | continuation => rfl
    | escapedQuote =>
      rw [hkept.resolve_right fun hquote => hquote.1 rfl]
      rfl
    | backslash => rfl
    | echo => exact absurd rfl h.1

/-- Without its backslash each escaped quote is a byte shorter. -/
theorem contents_length (h : .echo ∉ ms) : (ms.flatMap (Match.contents false)).length + ms.count .escapedQuote =
    (ms.filterMap Match.accumulated).flatten.length := by
  induction ms with
  | nil => rfl
  | cons m ms ih =>
    rw [List.mem_cons, not_or] at h
    have hone : (m.contents false).length + [m].count .escapedQuote = (m.accumulated.getD []).length := by
      cases m with
      | close => rfl
      | run yytext => rfl
      | continuation => rfl
      | escapedQuote => rfl
      | backslash => rfl
      | echo => exact absurd rfl h.1
    rw [List.flatMap_cons, accumulated_flatten, List.length_append, List.length_append, ← ih h.2, count_cons]
    omega

end

section
variable {text : List UInt8} {kept : Bool} {st : Lexer}

theorem nul_accumulated (h : closed text) (hecho : .echo ∉ rules text) (hnul : 0 ∉ text) :
    ∀ yytext ∈ accumulated text, 0 ∉ yytext := by
  intro yytext hmem hzero
  rw [← @nul_mem_contents true, (rules_matches h).contents, contents_flatten hecho (.inl rfl)] at hnul
  exact hnul (List.mem_flatten_of_mem hmem hzero)

/-- What is accumulated in a literal is what the literal contains. -/
theorem joined_eq_contents (h : closed text) : joined (accumulated text) = contents kept text ↔
    0 ∉ text ∧ .echo ∉ rules text ∧ (kept ∨ .escapedQuote ∉ rules text) := by
  have hmatches := rules_matches h
  have htexts : ∀ b, (∃ yytext ∈ accumulated text, b ∈ yytext) → b ≠ newline := by
    rintro b ⟨yytext, hmem, hb⟩ rfl
    exact (hmatches.isText yytext hmem).2 hb
  constructor
  · intro heq
    have hnul : 0 ∉ text := by
      rw [← @nul_mem_contents kept, ← heq]
      exact fun hzero => (mem_joined hzero).1 rfl
    have hecho : .echo ∉ rules text := by
      intro hecho
      have hline : newline ∈ contents kept text := by
        rw [hmatches.contents, List.mem_flatMap]
        exact ⟨.echo, hecho, List.mem_singleton_self newline⟩
      rw [← heq] at hline
      exact htexts newline (mem_joined hline).2 rfl
    refine ⟨hnul, hecho, ?_⟩
    cases kept with
    | true => exact .inl rfl
    | false =>
      right
      intro hquote
      have hlen := contents_length hecho
      have hcount := List.count_pos_iff.mpr hquote
      rw [← hmatches.contents, ← heq, joined_of (nul_accumulated h hecho hnul)] at hlen
      exact absurd hlen (by unfold accumulated; omega)
  · rintro ⟨hnul, hecho, hkept⟩
    rw [hmatches.contents, contents_flatten hecho hkept]
    exact joined_of (nul_accumulated h hecho hnul)

/-- Between two tokens nothing is being accumulated, and in what was there is no newline. -/
structure Lexer.Between (st : Lexer) : Prop where
  done : st.textAccumulating = false
  line : ∀ held, st.textAccumulator = some held → newline ∉ held

theorem between_start : Lexer.start.Between := ⟨rfl, fun _ h => by cases h⟩

theorem newline_joined (h : closed text) : newline ∉ joined (accumulated text) := by
  intro hline
  obtain ⟨-, yytext, hmem, hb⟩ := mem_joined hline
  exact ((rules_matches h).isText yytext hmem).2 hb

/-- Where nothing is accumulated the token is what was accumulated before. -/
theorem inString_blank (h : closed text) (hblank : accumulated text = []) (st : Lexer) (input : List UInt8) :
    inString (text.length + 1) st (text ++ quote :: input) =
      saveString { st with lineNumber := st.lineNumber + (rules text).count .continuation } >>=
        fun saved => .ok (some saved.1, input, saved.2) := by
  rw [(rules_matches h).inString (Nat.lt_succ_self _), foldlM_blank hblank]
  rfl

theorem inString_texts (h : closed text) (hne : accumulated text ≠ []) (hst : st.textAccumulating = false)
    (input : List UInt8) : inString (text.length + 1) st (text ++ quote :: input) =
      if (accumulated text).length ≤ 1 ∨ (joined (accumulated text)).length + 1 < 2 ^ 31 then
        .ok (some (joined (accumulated text)), input,
          ⟨some (joined (accumulated text)), false, st.lineNumber + (rules text).count .continuation⟩)
      else .error .undefined := by
  obtain ⟨held, accumulating, line⟩ := st
  cases hst
  rw [(rules_matches h).inString (Nat.lt_succ_self _), foldlM_first hne]
  by_cases hshort : (accumulated text).length ≤ 1 ∨ (joined (accumulated text)).length + 1 < 2 ^ 31
  · rw [if_pos hshort]
    exact congrArg (· >>= _ >>= _) (if_pos hshort)
  · rw [if_neg hshort]
    exact congrArg (· >>= _ >>= _) (if_neg hshort)

structure Left (st st' : Lexer) (text : List UInt8) : Prop where
  between : st'.Between
  empty : st'.textAccumulator = some [] ↔ st.textAccumulator = some [] ∧ accumulated text = []

theorem joined_ne_nil (h : closed text) (hne : accumulated text ≠ []) (hnul : 0 ∉ text) (hecho : .echo ∉ rules text) :
    joined (accumulated text) ≠ [] := by
  rw [joined_of (nul_accumulated h hecho hnul)]
  obtain ⟨yytext, texts, htexts⟩ := List.exists_cons_of_ne_nil hne
  have hmem : yytext ∈ accumulated text := htexts ▸ List.mem_cons_self
  have hyytext := ((rules_matches h).isText yytext hmem).1
  rw [htexts, List.flatten_cons]
  exact List.append_ne_nil_of_left_ne_nil hyytext _

theorem contents_blank (h : closed text) (hblank : accumulated text = []) (hecho : .echo ∉ rules text) :
    contents kept text = [] := by
  have hms : .escapedQuote ∉ rules text := by
    intro hquote
    have hmem : [backslash, quote] ∈ accumulated text := List.mem_filterMap.mpr ⟨_, hquote, rfl⟩
    rw [hblank] at hmem
    cases hmem
  have hflat : contents kept text = (accumulated text).flatten :=
    (rules_matches h).contents.trans (contents_flatten hecho (.inr hms))
  rw [hflat, hblank]
  rfl

theorem token_ok (hst : st.Between) (h : closed text) (hclean : Clean kept text)
    (hblank : accumulated text = [] → st.textAccumulator = some []) :
    ∃ st', inString (text.length + 1) st (text ++ [quote]) = .ok (some (contents kept text), [], st') ∧
      Left st st' text := by
  by_cases hne : accumulated text = []
  · have hheld := hblank hne
    rw [inString_blank h hne, contents_blank h hne hclean.noNewline]
    obtain ⟨held, accumulating, line⟩ := st
    cases hheld
    exact ⟨_, rfl, ⟨rfl, hst.line⟩, by simp [hne]⟩
  · have heq : joined (accumulated text) = contents kept text :=
      (joined_eq_contents h).mpr ⟨hclean.noNul, hclean.noNewline, hclean.escapes⟩
    have hshort : (accumulated text).length ≤ 1 ∨ (joined (accumulated text)).length + 1 < 2 ^ 31 := by
      rw [joined_of (nul_accumulated h hclean.noNewline hclean.noNul)]
      exact hclean.short
    rw [inString_texts h hne hst.done, if_pos hshort, heq]
    refine ⟨_, rfl, ⟨rfl, ?_⟩, ?_⟩
    · intro held hheld
      cases hheld
      exact heq ▸ newline_joined h
    · have hcontents := joined_ne_nil h hne hclean.noNul hclean.noNewline
      rw [heq] at hcontents
      simp [hne, hcontents]

theorem token_of {rest : List UInt8} {st' : Lexer} (hst : st.Between) (h : closed text)
    (hrun : inString (text.length + 1) st (text ++ [quote]) = .ok (some (contents kept text), rest, st')) :
    Clean kept text ∧ (accumulated text = [] → st.textAccumulator = some []) := by
  by_cases hne : accumulated text = []
  · rw [inString_blank h hne] at hrun
    obtain ⟨held, accumulating, line⟩ := st
    cases held with
    | none => cases hrun
    | some held =>
      have hheld : held = contents kept text := by
        cases hrun
        rfl
      have hecho : .echo ∉ rules text := by
        intro hecho
        refine hst.line held rfl ?_
        rw [hheld, (rules_matches h).contents, List.mem_flatMap]
        exact ⟨.echo, hecho, List.mem_singleton_self newline⟩
      have hnil := @contents_blank text kept h hne hecho
      have heq : joined (accumulated text) = contents kept text := by
        rw [hnil, hne]
        rfl
      obtain ⟨hnul, -, hkept⟩ := (joined_eq_contents h).mp heq
      exact ⟨⟨hnul, hecho, hkept, .inl (by simp [hne])⟩, fun _ => by rw [hheld, hnil]⟩
  · rw [inString_texts h hne hst.done] at hrun
    by_cases hshort : (accumulated text).length ≤ 1 ∨ (joined (accumulated text)).length + 1 < 2 ^ 31
    · rw [if_pos hshort] at hrun
      have heq : joined (accumulated text) = contents kept text := by
        injection hrun with hrun
        exact Option.some.inj (congrArg Prod.fst hrun)
      obtain ⟨hnul, hecho, hkept⟩ := (joined_eq_contents h).mp heq
      rw [joined_of (nul_accumulated h hecho hnul)] at hshort
      exact ⟨⟨hnul, hecho, hkept, hshort⟩, fun hblank => absurd hblank hne⟩
    · rw [if_neg hshort] at hrun
      cases hrun

/-- A shell command's line is accumulated, and the newline behind it is left. -/
theorem inShellCmd_ok {line : List UInt8} (hst : st.Between) (hne : line ≠ []) (hline : newline ∉ line) :
    inShellCmd st (line ++ [newline]) =
      .ok (some (stringOf line), [newline], ⟨some (stringOf line), false, st.lineNumber⟩) := by
  obtain ⟨b, line, rfl⟩ := List.exists_cons_of_ne_nil hne
  obtain ⟨held, accumulating, lineNumber⟩ := st
  cases hst.done
  rw [List.mem_cons, not_or] at hline
  have hplain : ∀ c ∈ line, decide (c ≠ newline) := fun c hc => decide_eq_true fun heq => hline.2 (heq ▸ hc)
  have htake : (line ++ [newline]).takeWhile (· ≠ newline) = line := by
    rw [List.takeWhile_append_of_pos hplain]
    simp
  have hdrop : (line ++ [newline]).dropWhile (· ≠ newline) = [newline] := by
    rw [List.dropWhile_append_of_pos hplain]
    rfl
  unfold inShellCmd
  rw [List.cons_append, List.dropWhile_cons_of_neg (by simpa using Ne.symm hline.1)]
  dsimp only
  rw [htake, hdrop]
  rfl

theorem between_command {line : List UInt8} (hline : newline ∉ line) (lineNumber : Nat) :
    Lexer.Between ⟨some (stringOf line), false, lineNumber⟩ := by
  refine ⟨rfl, fun held hheld => ?_⟩
  cases hheld
  exact fun hmem => hline (mem_stringOf hmem).2

theorem stringOf_eq_nil {line : List UInt8} (hne : line ≠ []) : stringOf line = [] ↔ line.head? = some 0 := by
  obtain ⟨b, line, rfl⟩ := List.exists_cons_of_ne_nil hne
  by_cases hb : b = 0
  · simp [stringOf, hb]
  · simp [stringOf, hb]

/-! ## Every sequence -/

theorem lexAll_iff (pieces : List Piece) (hst : st.Between) :
    lexAll st pieces = .ok ((literals pieces).map fun text => some (contents kept text)) ↔
      Fits kept (st.textAccumulator = some []) pieces := by
  induction pieces generalizing st with
  | nil => exact iff_of_true rfl trivial
  | cons piece pieces ih =>
    cases piece with
    | literal text isClosed =>
      rw [Fits]
      constructor
      · intro h
        rw [lexAll] at h
        obtain ⟨⟨token, rest, st'⟩, hrun, h⟩ := bind_eq_ok.mp h
        obtain ⟨tokens, hall, h⟩ := bind_eq_ok.mp h
        injection h with h
        obtain ⟨rfl, rfl⟩ := List.cons.inj h
        obtain ⟨hclean, hblank⟩ := token_of hst isClosed hrun
        obtain ⟨st'', hrun', hleft⟩ := token_ok hst isClosed hclean hblank
        rw [hrun'] at hrun
        cases hrun
        rw [← propext hleft.empty]
        exact ⟨hclean, hblank, (ih hleft.between).mp hall⟩
      · rintro ⟨hclean, hblank, hfits⟩
        obtain ⟨st', hrun, hleft⟩ := token_ok hst isClosed hclean hblank
        rw [← propext hleft.empty] at hfits
        rw [lexAll, hrun, bind_ok]
        dsimp only
        rw [(ih hleft.between).mpr hfits]
        rfl
    | shellCommand line isLine =>
      have hempty : some (stringOf line) = some [] ↔ line.head? = some 0 := by
        rw [Option.some_inj, stringOf_eq_nil isLine.1]
      rw [lexAll, inShellCmd_ok hst isLine.1 isLine.2, bind_ok, Fits, ← propext hempty]
      exact ih (between_command isLine.2 st.lineNumber)

/-- **Exactly when each literal's token is what the literal contains.** -/
theorem ownContents_iff (kept : Bool) (pieces : List Piece) : OwnContents kept pieces ↔ Fits kept False pieces := by
  have hstart : (Lexer.start.textAccumulator = some []) = False := eq_false (by simp [Lexer.start])
  rw [← hstart]
  exact lexAll_iff pieces between_start

/-- Behind `"a"` the literal `""` is `a` once more. -/
theorem not_ownContents : ¬ ∃ kept, ∀ pieces, OwnContents kept pieces := by
  rintro ⟨kept, h⟩
  have hfits := h [.literal [97] rfl, .literal [] rfl]
  have hrun : lexAll .start [.literal [97] rfl, .literal [] rfl] = .ok [some [97], some [97]] := by decide
  rw [OwnContents, hrun] at hfits
  cases hfits

end

end Katana.Shell

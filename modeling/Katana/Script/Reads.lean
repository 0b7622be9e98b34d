/-
  Katana.Script.Reads — texts that are parsed on their own.

  The tokens of a text are scanned whatever is behind it. Of what the parser does with them two things are said: under a
  condition it takes just these, as a value, and where it returns at all, another condition holds, and it has taken them
  as that value. What follows may matter: a comma makes an encoding longer, and a list goes on with the next item.

  Proved:
  - `Reads.bind` / `ReadsItems.append`: texts in a row.
  - `ReadsItems.bind`: a list, and what is behind it.
  - `ReadsItems.closed`: a section's items up to its end.
  - `readsItems_printAll`: elements that are printed one after the other are read one after the other.
  - `reads_encoding`: a pointer encoding is read as it was printed.
-/
import Katana.Script.Parse
import Katana.Script.Print

namespace Katana.Script

open Lib

variable {α β : Type}

/-! ## Tokens -/

/-- The first of the tokens, if there is one. -/
def Head (P : Token → Prop) (toks : List Token) : Prop := ∀ t ∈ toks.head?, P t

abbrev Anything (_ : Token) : Prop := True

abbrev NotComma (t : Token) : Prop := t ≠ .comma

section
variable {P P' : Token → Prop} {toks more : List Token}

theorem head_nil : Head P [] := by simp [Head]

theorem head_cons {t : Token} : Head P (t :: toks) ↔ P t := by simp [Head]

theorem head_append (h : Head P toks) (hmore : Head P more) : Head P (toks ++ more) := by
  cases toks with
  | nil => exact hmore
  | cons t toks => exact head_cons.mpr (head_cons.mp h)

theorem head_anything (toks : List Token) : Head Anything toks := fun _ _ => trivial

end

/-- At these tokens the parser returns `a` under `K`, and where it returns, under `C` and with `a`; no token more and
none less. -/
def Yields (P : Token → Prop) (p : Parse α) (tokens : List Token) (K C : Prop) (a : α) : Prop :=
  ∀ rest, Head P rest → (K → p (tokens ++ rest) = .ok a rest) ∧
    ∀ b rest', p (tokens ++ rest) = .ok b rest' → C ∧ b = a ∧ rest' = rest

section
variable {P P' : Token → Prop} {p : Parse α} {f : α → Parse β} {tokens more : List Token} {K K' C C' : Prop} {a : α} {b : β}

/-- What is read whatever the text says. -/
theorem yields_of (h : ∀ rest, Head P rest → p (tokens ++ rest) = .ok a rest) : Yields P p tokens True True a := by
  intro rest hrest
  refine ⟨fun _ => h rest hrest, fun b rest' hok => ?_⟩
  rw [h rest hrest] at hok
  cases hok
  exact ⟨trivial, rfl, rfl⟩

theorem yields_pure (a : α) : Yields P (pure a) [] True True a := yields_of fun _ _ => rfl

/-- What is refused. -/
theorem yields_never (h : ∀ rest, Head P rest → ∀ b rest', p (tokens ++ rest) ≠ .ok b rest') :
    Yields P p tokens False False a :=
  fun rest hrest => ⟨False.elim, fun b rest' hok => absurd hok (h rest hrest b rest')⟩

theorem Yields.imp (h : Yields P p tokens K C a) (hK : K' → K) (hC : C → C') : Yields P p tokens K' C' a := by
  intro rest hrest
  obtain ⟨hread, honly⟩ := h rest hrest
  refine ⟨fun hk => hread (hK hk), fun b rest' hok => ?_⟩
  obtain ⟨hc, hval, hend⟩ := honly b rest' hok
  exact ⟨hC hc, hval, hend⟩

theorem Yields.bind (hp : Yields P p tokens K C a) (hf : Yields P' (f a) more K' C' b)
    (hhead : ∀ rest, Head P' rest → Head P (more ++ rest)) :
    Yields P' (p >>= f) (tokens ++ more) (K ∧ K') (C ∧ C') b := by
  intro rest hrest
  obtain ⟨hread, honly⟩ := hp (more ++ rest) (hhead rest hrest)
  obtain ⟨hread', honly'⟩ := hf rest hrest
  rw [List.append_assoc]
  refine ⟨fun hk => ?_, fun c rest' hok => ?_⟩
  · rw [Run.run_bind_of_ok (hread hk.1)]
    exact hread' hk.2
  · obtain ⟨a', mid, hfirst, hthen⟩ := Run.run_bind_ok.mp hok
    obtain ⟨hc, rfl, rfl⟩ := honly _ _ hfirst
    obtain ⟨hc', hval, hend⟩ := honly' _ _ hthen
    exact ⟨⟨hc, hc'⟩, hval, hend⟩

theorem yields_fromExcept {x : Except ParseEnd α} (hK : K → x = .ok a) (hC : ∀ b, x = .ok b → C ∧ b = a) :
    Yields P (Run.fromExcept x) [] K C a := by
  intro rest _
  refine ⟨fun hk => Run.fromExcept_ok.mpr ⟨hK hk, rfl⟩, fun b rest' hok => ?_⟩
  obtain ⟨hx, hend⟩ := Run.fromExcept_ok.mp hok
  exact ⟨(hC b hx).1, (hC b hx).2, hend⟩

end

/-! ## Texts in a row -/

/-- The text is scanned alone, and the parser takes its tokens. -/
def Reads (P : Token → Prop) (p : Parse α) (t : Text) (K C : Prop) (a : α) : Prop :=
  ∃ tokens, Lexes t tokens ∧ Yields P p tokens K C a

/-- And the first of them is known. -/
def ReadsFrom (first : Token) (P : Token → Prop) (p : Parse α) (t : Text) (K C : Prop) (a : α) : Prop :=
  ∃ more, Lexes t (first :: more) ∧ Yields P p (first :: more) K C a

section
variable {P P' : Token → Prop} {p : Parse α} {f : α → Parse β} {t u : Text} {K K' C C' : Prop} {a : α} {b : β}
  {first : Token} {d : UInt8}

theorem Reads.imp (h : Reads P p t K C a) (hK : K' → K) (hC : C → C') : Reads P p t K' C' a := by
  obtain ⟨tokens, hlex, hyields⟩ := h
  exact ⟨tokens, hlex, hyields.imp hK hC⟩

theorem Reads.of_text (h : Reads P p t K C a) (hu : u = t) : Reads P p u K C a := hu ▸ h

theorem Reads.bind (hp : Reads Anything p t K C a) (hf : Reads P (f a) u K' C' b) :
    Reads P (p >>= f) (t ++ u) (K ∧ K') (C ∧ C') b := by
  obtain ⟨tokens, hlex, hyields⟩ := hp
  obtain ⟨more, hlex', hyields'⟩ := hf
  exact ⟨_, hlex.append hlex', hyields.bind hyields' fun _ _ => head_anything _⟩

/-- What is done with a value once it is read. -/
theorem Reads.then_ (hp : Reads P p t K C a) (hf : Yields P (f a) [] K' C' b) :
    Reads P (p >>= f) t (K ∧ K') (C ∧ C') b := by
  obtain ⟨tokens, hlex, hyields⟩ := hp
  have hbind := hyields.bind hf fun rest hrest => hrest
  rw [List.append_nil] at hbind
  exact ⟨tokens, hlex, hbind⟩

/-- A value is put into another one. -/
theorem Reads.map (hp : Reads P p t K C a) (g : α → β) : Reads P (p >>= fun a => pure (g a)) t K C (g a) :=
  (hp.then_ (yields_pure (g a))).imp (fun hk => ⟨hk, trivial⟩) And.left

/-- What is refused is refused with all that would be done with it. -/
theorem Reads.refused (hp : Reads P p t K C a) (hc : ¬ C) : Reads P (p >>= f) t False False b := by
  obtain ⟨tokens, hlex, hyields⟩ := hp
  refine ⟨tokens, hlex, yields_never fun rest hrest c rest' hok => ?_⟩
  obtain ⟨a', mid, hfirst, -⟩ := Run.run_bind_ok.mp hok
  exact hc ((hyields rest hrest).2 _ _ hfirst).1

theorem reads_pure (a : α) : Reads P (pure a) [] True True a := ⟨[], lexes_nil, yields_pure a⟩

/-- Another blank or newline behind it. -/
theorem Reads.before (h : Reads P p t K C a) (hd : d = space ∨ d = newline) : Reads P p (t ++ [d]) K C a := by
  obtain ⟨tokens, hlex, hyields⟩ := h
  have hlast := hlex.append (lexes_delimiter hd)
  rw [List.append_nil] at hlast
  exact ⟨tokens, hlast, hyields⟩

theorem ReadsFrom.reads (h : ReadsFrom first P p t K C a) : Reads P p t K C a := by
  obtain ⟨more, hlex, hyields⟩ := h
  exact ⟨first :: more, hlex, hyields⟩

theorem ReadsFrom.bind (hp : ReadsFrom first Anything p t K C a) (hf : Reads P (f a) u K' C' b) :
    ReadsFrom first P (p >>= f) (t ++ u) (K ∧ K') (C ∧ C') b := by
  obtain ⟨more, hlex, hyields⟩ := hp
  obtain ⟨tokens, hlex', hyields'⟩ := hf
  exact ⟨more ++ tokens, hlex.append hlex', hyields.bind hyields' fun _ _ => head_anything _⟩

theorem ReadsFrom.then_ (hp : ReadsFrom first P p t K C a) (hf : Yields P (f a) [] K' C' b) :
    ReadsFrom first P (p >>= f) t (K ∧ K') (C ∧ C') b := by
  obtain ⟨more, hlex, hyields⟩ := hp
  have hbind := hyields.bind hf fun rest hrest => hrest
  rw [List.append_nil] at hbind
  exact ⟨more, hlex, hbind⟩

theorem ReadsFrom.imp (h : ReadsFrom first P p t K C a) (hK : K' → K) (hC : C → C') : ReadsFrom first P p t K' C' a := by
  obtain ⟨more, hlex, hyields⟩ := h
  exact ⟨more, hlex, hyields.imp hK hC⟩

/-- A word and the blank or the newline behind it. -/
theorem reads_word (hd : d = space ∨ d = newline) {w : Text} (hw : Plain w) {tokens : List Token}
    (hpieces : pieces w.length w = tokens) (hyields : Yields P p tokens K C a) : Reads P p (w ++ [d]) K C a := by
  refine ⟨tokens, ?_, hyields⟩
  rw [← hpieces]
  exact lexes_word hd hw

end

/-- A comment of one line. -/
theorem lexes_comment {w : Text} (hw : newline ∉ w) : Lexes (pound :: (w ++ [newline])) [] := by
  intro fuel st rest hst hfuel
  have hdrop : (w ++ [newline] ++ rest).dropWhile (· != newline) = newline :: rest := by
    rw [List.append_assoc, List.dropWhile_append_of_pos]
    · rfl
    · intro b hb
      have hb' : b ≠ newline := ne_of_mem_of_not_mem hb hw
      simpa using hb'
  match fuel with
  | 0 => simp at hfuel
  | 1 =>
    simp only [List.length_cons, List.length_append] at hfuel
    omega
  | fuel + 2 =>
    refine ⟨fuel, { st with lineNumber := st.lineNumber + 1 }, hst, ?_, ?_⟩
    · simp only [List.length_cons, List.length_append] at hfuel
      omega
    · have hcomment : lex (fuel + 2) st (pound :: (w ++ [newline] ++ rest)) =
          lex (fuel + 1) st ((w ++ [newline] ++ rest).dropWhile (· != newline)) := rfl
      rw [List.cons_append, hcomment, hdrop, map_nil_append]
      rfl

/-- A token that is told whatever is behind the text. -/
theorem lexes_pick {b : UInt8} {v u : Text} {t : Token} {tokens : List Token}
    (hb : isBlank b = false ∧ b ≠ newline ∧ b ≠ pound ∧ b ≠ quote)
    (hpick : ∀ rest, pick lexRules (b :: (v ++ (u ++ rest))) = some (v.length + 1, t)) (hu : Lexes u tokens) :
    Lexes (b :: v ++ u) (t :: tokens) := by
  obtain ⟨hblank, hnewline, hpound, hquote⟩ := hb
  intro fuel st rest hst hfuel
  cases fuel with
  | zero => simp at hfuel
  | succ fuel =>
    obtain ⟨fuel', st', hst', hfuel', hlex⟩ := hu fuel st rest hst (by
      simp only [List.cons_append, List.length_cons, List.length_append] at hfuel
      omega)
    refine ⟨fuel', st', hst', hfuel', ?_⟩
    have hdrop : (b :: (v ++ (u ++ rest))).drop (v.length + 1) = u ++ rest := by simp
    have hrun : lex (fuel + 1) st (b :: (v ++ (u ++ rest))) = (lex fuel st (u ++ rest)).map (t :: ·) := by
      simp only [lex, hblank, hnewline, hpound, hquote, hpick, hdrop, if_false, Bool.false_eq_true]
      cases lex fuel st (u ++ rest) <;> rfl
    rw [List.cons_append, List.cons_append, List.append_assoc, hrun, hlex]
    cases lex fuel' st' rest <;> rfl

/-- A string literal of one run of text. -/
theorem lexes_literal {w : Text} (hclosed : Shell.closed w = true) (hrun : Shell.accumulated w = [w]) :
    Lexes (quote :: (w ++ [quote])) [.stringLiteral (stringOf w)] := by
  intro fuel st rest hst hfuel
  cases fuel with
  | zero => simp at hfuel
  | succ fuel =>
    have hmatches := Shell.rules_matches hclosed
    obtain ⟨held, accumulating, lineNumber⟩ := st
    cases hst
    have hne : Shell.accumulated w ≠ [] := by simp [hrun]
    have hshort : (Shell.accumulated w).length ≤ 1 ∨ (Shell.joined (Shell.accumulated w)).length + 1 < 2 ^ 31 :=
      .inl (by simp [hrun])
    have hjoined : Shell.joined (Shell.accumulated w) = stringOf w := by simp [hrun, Shell.joined]
    let st' : Shell.Lexer := ⟨some (stringOf w), false, lineNumber + (Shell.rules w).count .continuation⟩
    have hfold : (Shell.rules w).foldlM Shell.act ⟨held, false, lineNumber⟩ = .ok { st' with textAccumulating := true } :=
      (Shell.foldlM_first hne held lineNumber).trans
        ((if_pos hshort).trans (congrArg (fun s => Except.ok (Shell.Lexer.mk (some s) true st'.lineNumber)) hjoined))
    have hstring : Shell.inString ((w ++ Shell.quote :: rest).length + 1) ⟨held, false, lineNumber⟩
        (w ++ Shell.quote :: rest) = .ok (some (stringOf w), rest, st') := by
      rw [hmatches.inString (by simp only [List.length_append, List.length_cons]; omega), hfold]
      rfl
    refine ⟨fuel, st', rfl, ?_, ?_⟩
    · simp at hfuel
      omega
    · rw [List.cons_append, List.append_assoc]
      show (Shell.inString ((w ++ Shell.quote :: rest).length + 1) ⟨held, false, lineNumber⟩ (w ++ Shell.quote :: rest) >>=
        _) = _
      rw [hstring, bind_ok]
      show (lex fuel st' rest >>= fun tokens => .ok (.stringLiteral (stringOf w) :: tokens)) = _
      cases lex fuel st' rest <;> rfl

/-! ## Items -/

/-- What the items of a list go through at a text, where the list is left in front of what `Q` allows. -/
def ReadsItems (P Q : Token → Prop) (item : Item α) (t : Text) (K C : Prop) (a a' : α) : Prop :=
  ∃ tokens, Lexes t tokens ∧ Head P tokens ∧ ∀ fuel rest, Head P rest → (tokens ++ rest).length < fuel →
    ∃ fuel', rest.length < fuel' ∧ (K → itemList item fuel a (tokens ++ rest) = itemList item fuel' a' rest) ∧
      ∀ b rest', itemList item fuel a (tokens ++ rest) = .ok b rest' → Head Q rest' →
        C ∧ itemList item fuel' a' rest = .ok b rest'

section
variable {P P' Q : Token → Prop} {item : Item α} {t u w : Text} {K K' C C' : Prop} {a a' a'' : α} {first : Token}
  {more : List Token}

theorem readsItems_nil : ReadsItems P Q item [] True True a a :=
  ⟨[], lexes_nil, head_nil, fun fuel _ _ hfuel => ⟨fuel, hfuel, fun _ => rfl, fun _ _ h _ => ⟨trivial, h⟩⟩⟩

theorem ReadsItems.append (h : ReadsItems P Q item t K C a a') (h' : ReadsItems P Q item u K' C' a' a'') :
    ReadsItems P Q item (t ++ u) (K ∧ K') (C ∧ C') a a'' := by
  obtain ⟨tokens, hlex, hhead, hrun⟩ := h
  obtain ⟨tokens', hlex', hhead', hrun'⟩ := h'
  refine ⟨tokens ++ tokens', hlex.append hlex', head_append hhead hhead', ?_⟩
  intro fuel rest hrest hfuel
  rw [List.append_assoc] at hfuel ⊢
  obtain ⟨fuel1, hfuel1, hread1, honly1⟩ := hrun fuel (tokens' ++ rest) (head_append hhead' hrest) hfuel
  obtain ⟨fuel2, hfuel2, hread2, honly2⟩ := hrun' fuel1 rest hrest hfuel1
  refine ⟨fuel2, hfuel2, fun hk => (hread1 hk.1).trans (hread2 hk.2), fun b rest' hok hstop => ?_⟩
  obtain ⟨hc, hok⟩ := honly1 b rest' hok hstop
  obtain ⟨hc', hok⟩ := honly2 b rest' hok hstop
  exact ⟨⟨hc, hc'⟩, hok⟩

theorem ReadsItems.imp (h : ReadsItems P Q item t K C a a') (hK : K' → K) (hC : C → C') :
    ReadsItems P Q item t K' C' a a' := by
  obtain ⟨tokens, hlex, hhead, hrun⟩ := h
  refine ⟨tokens, hlex, hhead, fun fuel rest hrest hfuel => ?_⟩
  obtain ⟨fuel', hfuel', hread, honly⟩ := hrun fuel rest hrest hfuel
  exact ⟨fuel', hfuel', fun hk => hread (hK hk), fun b rest' hok hstop =>
    ⟨hC (honly b rest' hok hstop).1, (honly b rest' hok hstop).2⟩⟩

theorem ReadsItems.of_text (h : ReadsItems P Q item t K C a a') (hu : u = t) : ReadsItems P Q item u K C a a' := hu ▸ h

/-- A comment in front. -/
theorem ReadsItems.after (h : ReadsItems P Q item u K C a a') (ht : Lexes t []) : ReadsItems P Q item (t ++ u) K C a a' := by
  obtain ⟨tokens, hlex, hrest⟩ := h
  exact ⟨tokens, ht.append hlex, hrest⟩

/-- **An item**: words, of which the first tells it, and what is parsed behind them. -/
theorem readsItems_of {parse p : Parse α} (hw : Lexes w (first :: more)) (hfirst : P first)
    (hitem : item a first = some parse) (hparse : ∀ toks, parse (more ++ toks) = p toks) (hp : Reads P p u K C a') :
    ReadsItems P Q item (w ++ u) K C a a' := by
  obtain ⟨tokens, hlex, hyields⟩ := hp
  refine ⟨first :: more ++ tokens, hw.append hlex, head_cons.mpr hfirst, ?_⟩
  intro fuel rest hrest hfuel
  simp only [List.cons_append, List.append_assoc, List.length_cons, List.length_append] at hfuel ⊢
  cases fuel with
  | zero => omega
  | succ fuel =>
    obtain ⟨hread, honly⟩ := hyields rest hrest
    have hlist : itemList item (fuel + 1) a (first :: (more ++ (tokens ++ rest))) =
        (parse >>= itemList item fuel) (more ++ (tokens ++ rest)) := by
      simp only [itemList, hitem]
    refine ⟨fuel, by omega, fun hk => ?_, fun b rest' hok _ => ?_⟩
    · rw [hlist, Run.run_bind_of_ok ((hparse _).trans (hread hk))]
    · rw [hlist] at hok
      obtain ⟨a1, mid, hfirst, hthen⟩ := Run.run_bind_ok.mp hok
      obtain ⟨hc, rfl, rfl⟩ := honly _ _ ((hparse _).symm.trans hfirst)
      exact ⟨hc, hthen⟩

/-- What no item starts with, where the list must not be left. -/
theorem readsItems_stuck {tokens : List Token} (hw : Lexes w (first :: tokens)) (hfirst : P first)
    (hitem : item a first = none) (hstop : ¬ Q first) : ReadsItems P Q item w False False a a' := by
  refine ⟨first :: tokens, hw, head_cons.mpr hfirst, fun fuel rest _ hfuel => ?_⟩
  cases fuel with
  | zero => simp at hfuel
  | succ fuel =>
    refine ⟨rest.length + 1, Nat.lt_succ_self _, False.elim, fun b rest' hok hQ => ?_⟩
    have hlist : itemList item (fuel + 1) a (first :: (tokens ++ rest)) = .ok a (first :: (tokens ++ rest)) := by
      simp only [itemList, hitem]
    rw [List.cons_append, hlist] at hok
    cases hok
    exact absurd (head_cons.mp hQ) hstop

/-- An item that may be left out. -/
theorem readsItems_if {present : Bool} (h : present = true → ReadsItems P Q item t K C a a') :
    ReadsItems P Q item (if present then t else []) (present = true → K) (present = true → C) a
      (if present then a' else a) := by
  cases present with
  | false => exact readsItems_nil.imp (fun _ => trivial) fun _ hpresent => by cases hpresent
  | true => exact (h rfl).imp (fun hk => hk rfl) fun hc _ => hc

/-- A list is left at a token that starts no item and at the end of the input. -/
theorem itemList_stop {rest : List Token} (hstop : ∀ stop ∈ rest.head?, item a stop = none) {fuel : Nat}
    (hfuel : rest.length < fuel) : itemList item fuel a rest = .ok a rest := by
  cases fuel with
  | zero => omega
  | succ fuel =>
    cases rest with
    | nil => rfl
    | cons stop rest => simp [itemList, hstop stop rfl]

/-- The items of a text, and what the list is left in front of. -/
theorem ReadsItems.items (h : ReadsItems P Q item t K C a a') : ∃ tokens, Lexes t tokens ∧ Head P tokens ∧
    ∀ rest, Head P rest → (∀ stop ∈ rest.head?, ∀ a, item a stop = none) →
      (K → items item a (tokens ++ rest) = .ok a' rest) ∧
        ∀ b rest', items item a (tokens ++ rest) = .ok b rest' → Head Q rest' → C ∧ b = a' ∧ rest' = rest := by
  obtain ⟨tokens, hlex, hhead, hrun⟩ := h
  refine ⟨tokens, hlex, hhead, fun rest hrest hstop => ?_⟩
  obtain ⟨fuel', hfuel', hread, honly⟩ := hrun _ rest hrest (Nat.lt_succ_self _)
  have hleft : itemList item fuel' a' rest = .ok a' rest := itemList_stop (fun stop hmem => hstop stop hmem a') hfuel'
  refine ⟨fun hk => (hread hk).trans hleft, fun b rest' hok hQ => ?_⟩
  obtain ⟨hc, hok⟩ := honly b rest' hok hQ
  rw [hleft] at hok
  cases hok
  exact ⟨hc, rfl, rfl⟩

/-- **A list, and what is behind it.** -/
theorem ReadsItems.bind {f : α → Parse β} {b : β} {stop : Token} (h : ReadsItems P Q item t K C a a')
    (hf : ReadsFrom stop P' (f a') u K' C' b) (hstop : P stop) (hnone : ∀ a, item a stop = none)
    (hneed : ∀ c toks d rest, f c toks = .ok d rest → Head Q toks) :
    Reads P' (Script.items item a >>= f) (t ++ u) (K ∧ K') (C ∧ C') b := by
  obtain ⟨tokens, hlex, -, hrun⟩ := h.items
  obtain ⟨more, hlex', hyields⟩ := hf
  refine ⟨tokens ++ (stop :: more), hlex.append hlex', fun rest hrest => ?_⟩
  obtain ⟨hread, honly⟩ := hrun (stop :: more ++ rest) (head_cons.mpr hstop) (by simpa using hnone)
  obtain ⟨hread', honly'⟩ := hyields rest hrest
  rw [List.append_assoc]
  refine ⟨fun hk => (Run.run_bind_of_ok (hread hk.1)).trans (hread' hk.2), fun c rest' hok => ?_⟩
  obtain ⟨a1, mid, hfirst, hthen⟩ := Run.run_bind_ok.mp hok
  obtain ⟨hc, rfl, rfl⟩ := honly _ _ hfirst (hneed _ _ _ _ hthen)
  obtain ⟨hc', hval, hend⟩ := honly' _ _ hthen
  exact ⟨⟨hc, hc'⟩, hval, hend⟩

/-! ### Elements -/

/-- Each element of a list as it is behind those before it. -/
def Each {γ : Type} (l : List γ) (R : List γ → γ → Prop) : Prop := ∀ done c rest, l = done ++ c :: rest → R done c

theorem each_iff {γ : Type} {l : List γ} {R : γ → Prop} : Each l (fun _ => R) ↔ ∀ c ∈ l, R c := by
  constructor
  · intro h c hc
    obtain ⟨done, rest, hl⟩ := List.append_of_mem hc
    exact h done c rest hl
  · intro h done c rest hl
    exact h c (by simp [hl])

/-- What is said of an element and those before it, where only their number counts. -/
theorem each_position_iff {γ : Type} {l : List γ} {R : Nat → γ → Prop} :
    Each l (fun done => R done.length) ↔ ∀ i c, l[i]? = some c → R i c := by
  constructor
  · intro h i c hc
    obtain ⟨hi, rfl⟩ := List.getElem?_eq_some_iff.mp hc
    have hR := h (l.take i) l[i] (l.drop (i + 1)) (by rw [← List.drop_eq_getElem_cons, List.take_append_drop])
    dsimp only at hR
    rwa [List.length_take_of_le hi.le] at hR
  · intro h done c rest hl
    exact h done.length c (by simp [hl])

/-- **Elements that are printed one after the other** are read one after the other. -/
theorem readsItems_mapM {γ : Type} (print : γ → Except Fault Text) (l : List γ) (state : List γ → α)
    (R S : List γ → γ → Prop) (h : ∀ done c rest, l = done ++ c :: rest → ∀ t, print c = .ok t →
      ReadsItems P Q item t (R done c) (S done c) (state done) (state (done ++ [c])))
    {texts : List Text} (hprint : l.mapM print = .ok texts) :
    ReadsItems P Q item texts.flatten (Each l R) (Each l S) (state []) (state l) := by
  -- by induction on the elements still to be printed, with those before them
  suffices hrest : ∀ rest done texts, l = done ++ rest → rest.mapM print = .ok texts →
      ReadsItems P Q item texts.flatten (∀ before c after, rest = before ++ c :: after → R (done ++ before) c)
        (∀ before c after, rest = before ++ c :: after → S (done ++ before) c) (state done) (state l) from
    hrest l [] texts rfl hprint
  intro rest
  induction rest with
  | nil =>
    intro done texts hl hprint
    rw [List.append_nil] at hl
    cases hprint
    rw [← hl]
    exact readsItems_nil.imp (fun _ => trivial) fun _ before c after hsplit => by simp at hsplit
  | cons c rest ih =>
    intro done texts hl hprint
    rw [List.mapM_cons] at hprint
    obtain ⟨t, ht, hprint⟩ := bind_eq_ok.mp hprint
    obtain ⟨more, hmore, hprint⟩ := bind_eq_ok.mp hprint
    cases hprint
    have hone := h done c rest hl t ht
    have hothers := ih (done ++ [c]) more (by rw [hl]; simp) hmore
    refine (hone.append hothers).imp (fun hk => ⟨?_, ?_⟩) fun hc => ?_
    · simpa using hk [] c rest rfl
    · intro before d after hsplit
      simpa using hk (c :: before) d after (by simp [hsplit])
    · intro before d after hsplit
      cases before with
      | nil =>
        cases hsplit
        simpa using hc.1
      | cons c' before =>
        cases hsplit
        simpa using hc.2 before d after rfl

theorem map_positions {γ δ : Type} (f : Nat → γ → δ) (l : List γ) :
    (l.mapIdx fun i a => (i, a)).map (fun p => f p.1 p.2) = l.mapIdx f := by
  apply List.ext_getElem?
  intro i
  simp only [List.getElem?_map, List.getElem?_mapIdx, Option.map_map]
  rfl

theorem map_snd_positions {γ : Type} (l : List γ) : (l.mapIdx fun i a => (i, a)).map Prod.snd = l := by
  refine (map_positions (fun _ a => a) l).trans (List.ext_getElem? fun i => ?_)
  rw [List.getElem?_mapIdx, Option.map_id']

/-- The element behind `done` has its length as position. -/
theorem position_of_split {γ : Type} {l : List γ} {done rest : List (Nat × γ)} {p : Nat × γ}
    (h : (l.mapIdx fun i a => (i, a)) = done ++ p :: rest) :
    p.1 = done.length ∧ l = done.map Prod.snd ++ p.2 :: rest.map Prod.snd := by
  constructor
  · have hget := congrArg (·[done.length]?) h
    simp only [List.getElem?_mapIdx, List.getElem?_append_right (Nat.le_refl _), Nat.sub_self, List.getElem?_cons_zero,
      Option.map_eq_some_iff] at hget
    obtain ⟨c, -, rfl⟩ := hget
    rfl
  · have hsnd := congrArg (List.map Prod.snd) h
    rwa [map_snd_positions, List.map_append, List.map_cons] at hsnd

theorem each_positions {γ : Type} {l : List γ} {R : List γ → γ → Prop} :
    Each (l.mapIdx fun i a => (i, a)) (fun done p => R (done.map Prod.snd) p.2) ↔ Each l R := by
  constructor
  · intro h done c rest hl
    have hsplit : (l.mapIdx fun i a => (i, a)) = (done.mapIdx fun i a => (i, a)) ++
        (done.length, c) :: rest.mapIdx fun i a => (i + 1 + done.length, a) := by
      rw [hl, List.mapIdx_append, List.mapIdx_cons]
      simp
    have hR := h _ _ _ hsplit
    dsimp only at hR
    rwa [map_snd_positions] at hR
  · intro h done p rest hl
    exact h _ _ _ (position_of_split hl).2

/-- And with their positions. -/
theorem readsItems_printAll {γ : Type} (print : Nat → γ → Except Fault Text) (l : List γ) (state : List γ → α)
    (R S : List γ → γ → Prop) (h : ∀ done c rest, l = done ++ c :: rest → ∀ t, print done.length c = .ok t →
      ReadsItems P Q item t (R done c) (S done c) (state done) (state (done ++ [c])))
    (hprint : printAll print l = .ok t) :
    ReadsItems P Q item t (Each l R) (Each l S) (state []) (state l) := by
  unfold printAll at hprint
  obtain ⟨texts, htexts, hprint⟩ := bind_eq_ok.mp hprint
  cases hprint
  have hread := readsItems_mapM (fun p => print p.1 p.2) (l.mapIdx fun i a => (i, a)) (fun done => state (done.map Prod.snd))
    (fun done p => R (done.map Prod.snd) p.2) (fun done p => S (done.map Prod.snd) p.2) (by
      intro done p rest hl t ht
      obtain ⟨hpos, hsplit⟩ := position_of_split hl
      have hlen : (done.map Prod.snd).length = done.length := List.length_map _
      rw [hpos, ← hlen] at ht
      have hone := h _ _ _ hsplit t ht
      rw [List.map_append]
      exact hone) htexts
  rw [map_snd_positions] at hread
  exact hread.imp each_positions.mpr each_positions.mp

theorem mapM_exists {γ δ : Type} {f : γ → Except Fault δ} {l : List γ} (h : ∀ c ∈ l, ∃ d, f c = .ok d) :
    ∃ ds, l.mapM f = .ok ds := by
  induction l with
  | nil => exact ⟨[], rfl⟩
  | cons c l ih =>
    obtain ⟨⟨d, hd⟩, hl⟩ := List.forall_mem_cons.mp h
    obtain ⟨ds, hds⟩ := ih hl
    refine ⟨d :: ds, ?_⟩
    rw [List.mapM_cons, hd, bind_ok, hds, bind_ok]
    rfl

theorem mapM_mem {γ δ : Type} {f : γ → Except Fault δ} {l : List γ} {ds : List δ} (h : l.mapM f = .ok ds) :
    ∀ c ∈ l, ∃ d, f c = .ok d := by
  induction l generalizing ds with
  | nil => exact List.forall_mem_nil _
  | cons c l ih =>
    rw [List.mapM_cons] at h
    obtain ⟨d, hd, h⟩ := bind_eq_ok.mp h
    obtain ⟨rest, hrest, -⟩ := bind_eq_ok.mp h
    exact List.forall_mem_cons.mpr ⟨⟨d, hd⟩, ih hrest⟩

theorem printAll_ok {γ : Type} {print : Nat → γ → Except Fault Text} {l : List γ}
    (h : ∀ i c, l[i]? = some c → ∃ t, print i c = .ok t) : ∃ t, printAll print l = .ok t := by
  have hpairs : ∀ p ∈ l.mapIdx fun i a => (i, a), ∃ t, print p.1 p.2 = .ok t := by
    intro p hp
    obtain ⟨i, hi⟩ := List.mem_iff_getElem?.mp hp
    rw [List.getElem?_mapIdx] at hi
    obtain ⟨c, hc, rfl⟩ := Option.map_eq_some_iff.mp hi
    exact h i c hc
  obtain ⟨texts, htexts⟩ := mapM_exists hpairs
  exact ⟨texts.flatten, by simp only [printAll, htexts, bind_ok]⟩

theorem printAll_mem {γ : Type} {print : Nat → γ → Except Fault Text} {l : List γ} (h : printAll print l = .ok t) :
    ∀ c ∈ l, ∃ i t, print i c = .ok t := by
  obtain ⟨texts, htexts, -⟩ := bind_eq_ok.mp h
  intro c hc
  rw [← map_snd_positions l] at hc
  obtain ⟨p, hp, rfl⟩ := List.mem_map.mp hc
  obtain ⟨u, hu⟩ := mapM_mem htexts p hp
  exact ⟨p.1, u, hu⟩

/-- Elements whose text is always there. -/
theorem readsItems_mapIdx {γ : Type} (print : Nat → γ → Text) (l : List γ) (state : List γ → α) (R S : γ → Prop)
    (h : ∀ done c, ReadsItems P Q item (print done.length c) (R c) (S c) (state done) (state (done ++ [c]))) :
    ReadsItems P Q item (l.mapIdx print).flatten (∀ c ∈ l, R c) (∀ c ∈ l, S c) (state []) (state l) := by
  have hall : printAll (fun i c => .ok (print i c)) l = .ok (l.mapIdx print).flatten := by
    have hmap : (l.mapIdx fun i a => (i, a)).mapM (fun p => (.ok (print p.1 p.2) : Except Fault Text)) =
        .ok ((l.mapIdx fun i a => (i, a)).map fun p => print p.1 p.2) := mapM_ok fun _ _ => rfl
    unfold printAll
    rw [hmap, map_positions]
    rfl
  have hread := readsItems_printAll (fun i c => .ok (print i c)) l state (fun _ => R) (fun _ => S)
    (fun done c rest _ t ht => by cases ht; exact h done c) hall
  exact hread.imp each_iff.mpr each_iff.mp

end

/-! ## Words -/

/-- The tokens of a text that ends with a blank or a newline and has no comments and literals. -/
def wordsOf (t : Text) : Option (List Token) :=
  if (t.getLast? = some space ∨ t.getLast? = some newline) ∧ Plain t then
    some (pieces t.dropLast.length t.dropLast)
  else none

theorem lexes_words {t : Text} {tokens : List Token} (h : wordsOf t = some tokens) : Lexes t tokens := by
  unfold wordsOf at h
  split at h
  · rename_i hwords
    obtain ⟨hlast, hplain⟩ := hwords
    obtain ⟨d, hd, ht⟩ : ∃ d, (d = space ∨ d = newline) ∧ t.dropLast ++ [d] = t := by
      rcases hlast with hlast | hlast
      · exact ⟨space, .inl rfl, List.dropLast_append_getLast? _ hlast⟩
      · exact ⟨newline, .inr rfl, List.dropLast_append_getLast? _ hlast⟩
    cases h
    have hlex := lexes_word hd (w := t.dropLast) fun b hb => hplain b (List.dropLast_subset t hb)
    rwa [ht] at hlex
  · cases h

/-- The lines with which sections begin and end. -/
def sectionNames : List (String × Keyword) := [
  ("CIE\n", .cie), ("FDE\n", .fde), ("INSTRUCTIONS\n", .instructions), ("EXPRESSION\n", .expression), ("LSDA\n", .lsda),
  ("CALL_SITE\n", .callSite), ("ACTION\n", .action)]

theorem wordsOf_sectionNames : ∀ p ∈ sectionNames,
    wordsOf (text ("begin " ++ p.1)) = some [.keyword .begin_, .keyword p.2] ∧
      wordsOf (text ("end " ++ p.1)) = some [.keyword .end_, .keyword p.2] := by
  decide +kernel

theorem readsFrom_expectBegin {P : Token → Prop} (name : String) {k : Keyword} (h : (name, k) ∈ sectionNames) :
    ReadsFrom (.keyword .begin_) P (expectBegin k) (text ("begin " ++ name)) True True () := by
  refine ⟨[.keyword k], lexes_words (wordsOf_sectionNames _ h).1, yields_of fun rest _ => ?_⟩
  simp [expectBegin, expect, nextToken, bind, EStateM.bind, pure, EStateM.pure]

theorem readsFrom_expectEnd {P : Token → Prop} (name : String) {k : Keyword} (h : (name, k) ∈ sectionNames) :
    ReadsFrom (.keyword .end_) P (expectEnd k) (text ("end " ++ name)) True True () := by
  refine ⟨[.keyword k], lexes_words (wordsOf_sectionNames _ h).2, yields_of fun rest _ => ?_⟩
  simp [expectEnd, expect, nextToken, bind, EStateM.bind, pure, EStateM.pure]

theorem expect_ok {t : Token} {f : Unit → Parse α} {toks rest : List Token} {a : α}
    (h : (expect t >>= f) toks = .ok a rest) : ∃ more, toks = t :: more := by
  obtain ⟨u, mid, hfirst, -⟩ := Run.run_bind_ok.mp h
  cases toks with
  | nil => cases hfirst
  | cons first toks =>
    by_cases hne : first = t
    · exact ⟨toks, by rw [hne]⟩
    · have hrun : expect t (first :: toks) = (yyerror syntaxError : Parse Unit) toks := by
        simp [expect, nextToken, bind, EStateM.bind, hne]
      rw [hrun] at hfirst
      cases hfirst

/-- A list in front of the end of its section is left there only. -/
theorem expectEnd_head {k : Keyword} {f : Unit → Parse α} {toks rest : List Token} {a : α}
    (h : (expectEnd k >>= f) toks = .ok a rest) : Head (· = .keyword .end_) toks := by
  have hassoc : expectEnd k >>= f = expect (.keyword .end_) >>= fun _ => expect (.keyword k) >>= f := by
    simp only [expectEnd, bind_assoc]
  rw [hassoc] at h
  obtain ⟨more, rfl⟩ := expect_ok h
  exact head_cons.mpr rfl

/-- **The items of a section, and its end.** -/
theorem ReadsItems.closed {P P' Q : Token → Prop} {item : Item α} {f : α → Parse β} {t : Text} {K K' C C' : Prop}
    {a a' : α} {b : β} (name : String) {k : Keyword} (hname : (name, k) ∈ sectionNames) (h : ReadsItems P Q item t K C a a')
    (hf : Yields P' (f a') [] K' C' b) (hP : P (.keyword .end_)) (hQ : Q (.keyword .end_))
    (hnone : ∀ a, item a (.keyword .end_) = none) :
    Reads P' (Script.items item a >>= fun a => expectEnd k >>= fun _ => f a) (t ++ text ("end " ++ name)) (K ∧ K') (C ∧ C')
      b := by
  let close (a : α) : Parse β := expectEnd k >>= fun _ => f a
  have hclose : ReadsFrom (.keyword .end_) P' (close a') (text ("end " ++ name)) _ _ b :=
    (readsFrom_expectEnd name hname).then_ hf
  have hneed : ∀ c toks d rest, close c toks = .ok d rest → Head Q toks := by
    intro c toks d rest hok first hfirst
    rw [expectEnd_head hok first hfirst]
    exact hQ
  exact (h.bind (f := close) hclose hP hnone hneed).imp (fun hk => ⟨hk.1, trivial, hk.2⟩) fun hc => ⟨hc.1, hc.2.2⟩

/-- Where a section has to begin and does not. -/
theorem yields_notBegin {P : Token → Prop} {k : Keyword} {f : Unit → Parse α} {tokens : List Token} {a : α}
    (hP : ∀ t, P t → t ≠ .keyword .begin_) (h : Head (· ≠ .keyword .begin_) tokens) :
    Yields P (expectBegin k >>= f) tokens False False a := by
  refine yields_never fun rest hrest b rest' hok => ?_
  have hassoc : expectBegin k >>= f = expect (.keyword .begin_) >>= fun _ => expect (.keyword k) >>= f := by
    simp only [expectBegin, bind_assoc]
  rw [hassoc] at hok
  obtain ⟨more, hmore⟩ := expect_ok hok
  have hhead : Head (· ≠ .keyword .begin_) (tokens ++ rest) := head_append h fun t ht => hP t (hrest t ht)
  rw [hmore] at hhead
  exact head_cons.mp hhead rfl

/-! ## Numbers -/

/-- The int a number is read as. -/
def intOf (x : Int) : Int32 := Int32.ofInt (clampLong x)

def litOf (x : Int) : IntLit := ⟨decide (x < 0), intOf x⟩

theorem intOf_toInt {x : Int} (hlo : -2 ^ 31 ≤ x) (hhi : x < 2 ^ 31) : (intOf x).toInt = x := by
  have hclamp : clampLong x = x := by
    unfold clampLong
    omega
  unfold intOf
  rw [hclamp]
  exact Int32.toInt_ofInt_of_le (by simpa using hlo) (by simpa using hhi)

theorem intOf_index (x : Int32) : intOf x.toInt = x := Int32.toInt_inj.mp (intOf_toInt x.le_toInt x.toInt_lt)

structure Printed (w : Text) (x : Int) : Prop where
  scanned : pieces w.length w = [.intLit (litOf x)]
  plain : Plain w

theorem plain_of_isHexDigit {b : UInt8} (h : isHexDigit b = true) : b ≠ pound ∧ b ≠ quote := by
  constructor
  · intro hb
    subst hb
    exact absurd h (by decide)
  · intro hb
    subst hb
    exact absurd h (by decide)

theorem plain_digits (n : Nat) : Plain (digits 10 n) := fun b hb =>
  plain_of_isHexDigit (by simp [isHexDigit, isDigit_digits n b hb])

theorem printed_decimal (n : Nat) : Printed (digits 10 n) n := ⟨pieces_decimal n, plain_digits n⟩

theorem printed_signed (x : Int) : Printed (signedDigits x) x := by
  refine ⟨pieces_signed x, ?_⟩
  unfold signedDigits
  split
  · exact List.forall_mem_cons.mpr ⟨by decide, plain_digits _⟩
  · exact plain_digits _

theorem plain_marked {w : Text} (hw : ∀ b ∈ w, isHexDigit b = true) : Plain (text "0x" ++ w) := by
  intro b hb
  rcases List.mem_append.mp hb with hb | hb
  · have hbytes : b ∈ ([48, 120] : Text) := hb
    have hmark : b = 48 ∨ b = 120 := by simpa using hbytes
    rcases hmark with rfl | rfl <;> decide
  · exact plain_of_isHexDigit (hw b hb)

theorem plain_append {w v : Text} (hw : Plain w) (hv : Plain v) : Plain (w ++ v) := by
  intro b hb
  rcases List.mem_append.mp hb with hb | hb
  · exact hw b hb
  · exact hv b hb

theorem printed_hex (n : Nat) : Printed (hexDigits n) n := ⟨pieces_hex n, plain_marked (isHexDigit_digits n)⟩

section
variable {P : Token → Prop} {w : Text} {x : Int} {d : UInt8}

theorem Printed.intLit (h : Printed w x) (hd : d = space ∨ d = newline) :
    Reads P intLit (w ++ [d]) True True (litOf x) :=
  reads_word hd h.plain h.scanned (yields_of fun _ _ => rfl)

theorem Printed.int (h : Printed w x) (hd : d = space ∨ d = newline) : Reads P int_ (w ++ [d]) True True (intOf x) :=
  ((h.intLit hd).then_ (yields_pure (litOf x).savedInt)).imp (fun _ => ⟨trivial, trivial⟩) fun _ => trivial

/-- A sign is refused. -/
theorem yields_nonnegIntLit (x : Int) : Yields P nonnegIntLit [.intLit (litOf x)] (0 ≤ x) (0 ≤ x) (intOf x) := by
  have hlit : Yields P intLit [.intLit (litOf x)] True True (litOf x) := yields_of fun _ _ => rfl
  have hsign : Yields P (if (litOf x).minus then yyerror syntaxError else pure (litOf x).savedInt) [] (0 ≤ x) (0 ≤ x)
      (intOf x) := by
    have hminus : (litOf x).minus = true ↔ x < 0 := decide_eq_true_iff
    by_cases hx : x < 0
    · rw [if_pos (hminus.mpr hx)]
      exact (yields_never fun _ _ _ _ hok => by cases hok).imp (by omega) False.elim
    · rw [if_neg (mt hminus.mp hx)]
      exact (yields_pure _).imp (fun _ => trivial) fun _ => by omega
  exact (hlit.bind hsign fun _ hrest => hrest).imp (fun hx => ⟨trivial, hx⟩) And.right

theorem Printed.nonneg (h : Printed w x) (hd : d = space ∨ d = newline) :
    Reads P nonnegIntLit (w ++ [d]) (0 ≤ x) (0 ≤ x) (intOf x) :=
  reads_word hd h.plain h.scanned (yields_nonnegIntLit x)

end

/-! ### Registers -/

section
variable {P : Token → Prop} {d : UInt8} {u : Int32}

theorem reads_notRegister {w : Text} (hw : Plain w) {t : Token} {more : List Token} (hpieces : pieces w.length w = t :: more)
    (ht : ∀ v, t ≠ .register v) (hd : d = space ∨ d = newline) : Reads P registerLit (w ++ [d]) False False u := by
  refine reads_word hd hw hpieces (yields_never fun rest _ b rest' hok => ?_)
  cases t with
  | register v => exact ht v rfl
  | _ => cases hok

/-- A register's number; a sign makes a word of the `r`. -/
theorem reads_index (x : Int) (hd : d = space ∨ d = newline) :
    Reads P registerLit (text "r" ++ signedDigits x ++ [d]) (0 ≤ x) (0 ≤ x) (intOf x) := by
  have hplain : Plain (text "r" ++ signedDigits x) := List.forall_mem_cons.mpr ⟨by decide, (printed_signed x).plain⟩
  by_cases hx : x < 0
  · have hsigned : signedDigits x = minusSign :: digits 10 x.natAbs := if_pos hx
    rw [hsigned] at hplain ⊢
    obtain ⟨more, hmore⟩ := pieces_signedRegister (digits 10 x.natAbs)
    exact (reads_notRegister hplain hmore (by simp) hd).imp (by omega) False.elim
  · obtain ⟨n, rfl⟩ := Int.eq_ofNat_of_zero_le (Int.not_lt.mp hx)
    rw [signedDigits_nat] at hplain ⊢
    exact (reads_word hd hplain (pieces_register n) (yields_of fun _ _ => rfl)).imp (fun _ => trivial) fun _ => by omega

end

/-! ### The values -/

/-- The words an int can be: the small ones, and the greatest as -1. -/
def Short (w : UInt64) : Prop := w.toNat < 2 ^ 31 ∨ w.toNat = 2 ^ 64 - 1

instance (w : UInt64) : Decidable (Short w) := inferInstanceAs (Decidable (_ ∨ _))

/-- The words that are printed with their sign and are ints. -/
def SignedShort (w : UInt64) : Prop := -2 ^ 31 ≤ signedWord w ∧ signedWord w < 2 ^ 31

instance (w : UInt64) : Decidable (SignedShort w) := inferInstanceAs (Decidable (_ ∧ _))

/-- A word as it is read where it was printed without a sign. -/
def readWord (w : UInt64) : UInt64 := addrOfInt (intOf w.toNat)

/-- And with one. -/
def readSigned (w : UInt64) : UInt64 := addrOfInt (intOf (signedWord w))

theorem addrOfInt_toInt (v : Int32) : (addrOfInt v).toInt64.toInt = v.toInt := by
  simp [addrOfInt]

theorem eq_of_signed {w w' : UInt64} (h : w.toInt64.toInt = w'.toInt64.toInt) : w = w' := by
  have h64 : w.toInt64 = w'.toInt64 := Int64.toInt_inj.mp h
  simpa using congrArg Int64.toUInt64 h64

theorem signedWord_eq (w : UInt64) :
    signedWord w = if w.toNat < 2 ^ 63 then (w.toNat : Int) else (w.toNat : Int) - 2 ^ 64 := by
  have hbmod : w.toInt64.toInt = (w.toNat : Int).bmod (2 ^ 64) := BitVec.toInt_eq_toNat_bmod w.toBitVec
  have hlt := w.toNat_lt
  unfold signedWord
  rw [hbmod]
  split
  · exact Int.bmod_eq_of_le (by omega) (by omega)
  · rw [Int.bmod_def, Int.emod_eq_of_lt (by omega) (by omega), if_neg (by omega)]
    rfl

theorem signedWord_of_lt {w : UInt64} (h : w.toNat < 2 ^ 63) : signedWord w = w.toNat := by
  rw [signedWord_eq, if_pos h]

/-- What is read is an int. -/
theorem signedWord_addrOfInt (v : Int32) : SignedShort (addrOfInt v) := by
  unfold SignedShort signedWord
  rw [addrOfInt_toInt]
  exact ⟨v.le_toInt, v.toInt_lt⟩

/-- **A word printed with its sign comes back** exactly if it is an int. -/
theorem readSigned_iff {w : UInt64} : readSigned w = w ↔ SignedShort w := by
  constructor
  · intro h
    rw [← h]
    exact signedWord_addrOfInt _
  · intro h
    obtain ⟨hlo, hhi⟩ := h
    apply eq_of_signed
    unfold readSigned
    rw [addrOfInt_toInt, intOf_toInt hlo hhi]
    rfl

/-- **A word printed without a sign comes back** exactly if an int can be it. -/
theorem readWord_iff {w : UInt64} : readWord w = w ↔ Short w := by
  have hlt := w.toNat_lt
  have hsigned := signedWord_eq w
  by_cases hsmall : w.toNat < 2 ^ 63
  · rw [if_pos hsmall] at hsigned
    have hread : readWord w = readSigned w := by
      unfold readWord readSigned
      rw [hsigned]
    rw [hread, readSigned_iff]
    unfold SignedShort Short
    omega
  · have hclamp : clampLong (w.toNat : Int) = 2 ^ 63 - 1 := by
      unfold clampLong
      omega
    have hread : readWord w = 0xffffffffffffffff := by
      unfold readWord intOf
      rw [hclamp]
      decide
    have hshort : Short w ↔ w.toNat = 2 ^ 64 - 1 := by
      unfold Short
      omega
    rw [hread, hshort, eq_comm, ← UInt64.toNat_inj]
    rfl

/-- Where a sign is printed and refused. -/
theorem readSigned_nonneg_iff {w : UInt64} : 0 ≤ signedWord w ∧ readSigned w = w ↔ w.toNat < 2 ^ 31 := by
  have hlt := w.toNat_lt
  rw [readSigned_iff, SignedShort, signedWord_eq]
  split <;> omega

theorem intOf_toUInt32 (i : Int32) : intOf i.toUInt32.toNat = i := by
  have hlt := i.toUInt32.toNat_lt
  have hclamp : clampLong (i.toUInt32.toNat : Int) = i.toUInt32.toNat := by
    unfold clampLong
    omega
  unfold intOf
  rw [hclamp, Int32.ofInt_eq_ofNat]
  exact ofNat_toNat_int32 i

/-! ## Encodings -/

def encodingTokens (e : UInt8) : List Token :=
  if e = ehPeOmit then [.ptrEncoding 0xff]
  else .ptrEncoding (Int32.ofNat (e.toNat &&& 0xF)) ::
    if e.toNat &&& 0xF0 = 0 then []
    else if e.toNat &&& 0xF0 = 0x90 then [.comma, .ptrEncoding 0x80, .comma, .ptrEncoding 0x10]
    else [.comma, .ptrEncoding (Int32.ofNat (e.toNat &&& 0xF0))]

def encodingInt (e : UInt8) : Int32 :=
  if e = ehPeOmit then 0xff
  else if e.toNat &&& 0xF0 = 0 then Int32.ofNat (e.toNat &&& 0xF)
  else if e.toNat &&& 0xF0 = 0x90 then Int32.ofNat (e.toNat &&& 0xF) ||| (0x80 ||| 0x10)
  else Int32.ofNat (e.toNat &&& 0xF) ||| Int32.ofNat (e.toNat &&& 0xF0)

theorem encodingInt_byte : ∀ n : Fin 256, (printEHPointerEncoding (UInt8.ofNat n)).isOk = true →
    byteOfInt (encodingInt (UInt8.ofNat n)) = UInt8.ofNat n := by
  decide +kernel

/-- A text that is scanned as these tokens. -/
def ScannedAs (t : Text) (tokens : List Token) : Prop :=
  pieces t.length t = tokens ∧ Plain t

instance (t : Text) (tokens : List Token) : Decidable (ScannedAs t tokens) := inferInstanceAs (Decidable (_ ∧ _))

theorem ScannedAs.lexes {t : Text} {tokens : List Token} (h : ScannedAs t tokens) {d : UInt8}
    (hd : d = space ∨ d = newline) : Lexes (t ++ [d]) tokens := by
  rw [← h.1]
  exact lexes_word hd h.2

theorem scanned_omit : ScannedAs (text "DW_EH_PE_omit") [.ptrEncoding 0xff] := by decide +kernel

theorem scanned_format : ∀ n : Fin 16, ∀ t ∈ dwpeFormat (UInt8.ofNat n),
    ScannedAs t [.ptrEncoding (Int32.ofNat n)] ∧ ScannedAs (t ++ text ",") [.ptrEncoding (Int32.ofNat n), .comma] := by
  decide +kernel

theorem scanned_application : ∀ n : Fin 16, ∀ t ∈ dwpeApplication (UInt8.ofNat (16 * n)),
    ScannedAs t (if 16 * (n : Nat) = 0x90 then [.ptrEncoding 0x80, .comma, .ptrEncoding 0x10]
      else [.ptrEncoding (Int32.ofNat (16 * n))]) := by
  decide +kernel

/-- The two halves of a byte decide alone. -/
theorem encoding_halves : ∀ n : Fin 256, dwpeFormat (UInt8.ofNat n) = dwpeFormat (UInt8.ofNat (n % 16)) ∧
    dwpeApplication (UInt8.ofNat n) = dwpeApplication (UInt8.ofNat (16 * (n / 16))) ∧
    (n : Nat) &&& 0xF = n % 16 ∧ (n : Nat) &&& 0xF0 = 16 * (n / 16) := by
  decide +kernel

/-- **An encoding is scanned word by word.** -/
theorem lexes_encoding {e : UInt8} {t : Text} (h : printEHPointerEncoding e = .ok t) {d : UInt8}
    (hd : d = space ∨ d = newline) : Lexes (t ++ [d]) (encodingTokens e) := by
  have he : UInt8.ofNat e.toNat = e := UInt8.ofNat_toNat
  have hlt := e.toNat_lt
  have hhalves := encoding_halves ⟨e.toNat, hlt⟩
  simp only [he] at hhalves
  obtain ⟨hformat, happlication, hlow, hhigh⟩ := hhalves
  have hwords := scanned_format ⟨e.toNat % 16, Nat.mod_lt _ (by decide)⟩
  have hlast := scanned_application ⟨e.toNat / 16, by omega⟩
  simp only [← hformat] at hwords
  simp only [← happlication] at hlast
  unfold printEHPointerEncoding at h
  unfold encodingTokens
  rw [hlow, hhigh]
  rw [hhigh] at h
  split at h
  · cases h
    rename_i homit
    rw [if_pos homit]
    exact scanned_omit.lexes hd
  · rename_i homit
    rw [if_neg homit]
    cases hf : dwpeFormat e with
    | none =>
      rw [hf] at h
      cases h
    | some format =>
      obtain ⟨halone, hcomma⟩ := hwords format hf
      rw [hf] at h
      dsimp only at h
      split at h
      · rename_i hzero
        cases h
        rw [if_pos hzero]
        exact halone.lexes hd
      · rename_i hzero
        rw [if_neg hzero]
        cases ha : dwpeApplication e with
        | none =>
          rw [ha] at h
          cases h
        | some application =>
          rw [ha] at h
          cases h
          have hlex := (hcomma.lexes (.inl rfl)).append ((hlast application ha).lexes hd)
          have htext : format ++ text ", " ++ application ++ [d] =
              format ++ text "," ++ [space] ++ (application ++ [d]) := by
            have hblank : text ", " = text "," ++ [space] := by decide +kernel
            rw [hblank]
            simp only [List.append_assoc]
          rw [htext]
          have htokens : ∀ n, (.ptrEncoding (Int32.ofNat (e.toNat % 16)) ::
              if n = 0x90 then [.comma, .ptrEncoding 0x80, .comma, .ptrEncoding 0x10]
              else [.comma, .ptrEncoding (Int32.ofNat n)] : List Token) =
              [.ptrEncoding (Int32.ofNat (e.toNat % 16)), .comma] ++
                (if n = 0x90 then [.ptrEncoding 0x80, .comma, .ptrEncoding 0x10] else [.ptrEncoding (Int32.ofNat n)]) := by
            intro n
            split <;> rfl
          rw [htokens]
          exact hlex

theorem dwPeLit_last {rest : List Token} (hrest : Head NotComma rest) (savedInt : Int32) :
    dwPeLit (.ptrEncoding savedInt :: rest) = .ok savedInt rest := by
  cases rest with
  | nil => rfl
  | cons t rest =>
    have ht : t ≠ .comma := hrest t rfl
    unfold dwPeLit
    split
    · rename_i heq
      cases heq
      exact absurd rfl ht
    · rename_i heq
      cases heq
      rfl
    · rename_i hother
      exact absurd rfl (hother savedInt _)

theorem dwPeLit_comma {rest rest' : List Token} {v : Int32} (savedInt : Int32) (h : dwPeLit rest = .ok v rest') :
    dwPeLit (.ptrEncoding savedInt :: .comma :: rest) = .ok (savedInt ||| v) rest' := by
  rw [dwPeLit]
  simp only [h]

theorem dwPeLit_encoding (e : UInt8) {rest : List Token} (hrest : Head NotComma rest) :
    dwPeLit (encodingTokens e ++ rest) = .ok (encodingInt e) rest := by
  have hlast := dwPeLit_last hrest
  unfold encodingTokens encodingInt
  split
  · exact hlast _
  · split
    · exact hlast _
    · split
      · exact dwPeLit_comma _ (dwPeLit_comma _ (hlast _))
      · exact dwPeLit_comma _ (hlast _)

/-- **An encoding is read as it was.** -/
theorem reads_encoding {e : UInt8} {t : Text} (h : printEHPointerEncoding e = .ok t) {d : UInt8}
    (hd : d = space ∨ d = newline) :
    Reads NotComma dwPeLit (t ++ [d]) True True (encodingInt e) ∧ byteOfInt (encodingInt e) = e := by
  have he : UInt8.ofNat e.toNat = e := UInt8.ofNat_toNat
  have hbyte := encodingInt_byte ⟨e.toNat, e.toNat_lt⟩
  simp only [he, h] at hbyte
  exact ⟨⟨encodingTokens e, lexes_encoding h hd, yields_of fun rest hrest => dwPeLit_encoding e hrest⟩, hbyte rfl⟩

/-! ## Properties and sections -/

def propertyNames : List (String × Keyword) := [
  ("index: ", .index), ("version: ", .version), ("data_align: ", .dataAlign), ("code_align: ", .codeAlign),
  ("return_addr_rule: ", .returnAddrRule), ("fde_ptr_enc: ", .fdePtrEnc), ("fde_lsda_ptr_enc: ", .fdeLsdaPtrEnc),
  ("personality_ptr_enc: ", .personalityPtrEnc), ("personality: ", .personality), ("cie_index: ", .cieIndex),
  ("initial_location: ", .initialLocation), ("address_range: ", .addressRange), ("lsda_idx: ", .lsdaIdx),
  ("position: ", .position), ("length: ", .length), ("landing_pad: ", .landingPad), ("has_action: ", .hasAction),
  ("first_action: ", .firstAction), ("type_idx: ", .typeIdx), ("next: ", .next), ("typeinfo: ", .typeinfo),
  ("lpstart: ", .lpstart), ("typeinfo_enc: ", .typeinfoEnc), ("section_type: ", .sectionType),
  ("section_addr: ", .sectionAddr), ("eh_hdr_addr: ", .ehHdrAddr), ("except_table_addr: ", .exceptTableAddr),
  ("eh_hdr_table_enc: ", .ehHdrTableEnc)]

theorem wordsOf_propertyNames : ∀ p ∈ propertyNames, wordsOf (text p.1) = some [.keyword p.2, .colon] := by
  decide +kernel

section
variable {Q : Token → Prop} {item : Item α} {K K' C C' : Prop} {a a' : α}

/-- **A property is read as its value is.** -/
theorem readsItems_property (k : Keyword) {name : String} {value : Text} {p : Parse β} {v : β} {f : β → Parse α}
    (hname : (name, k) ∈ propertyNames) (hv : Reads NotComma p (value ++ [newline]) K C v)
    (hitem : item a (.keyword k) = some (property p >>= f)) (hf : Yields NotComma (f v) [] K' C' a') :
    ReadsItems NotComma Q item (line name value) (K ∧ K') (C ∧ C') a a' :=
  readsItems_of (lexes_words (wordsOf_propertyNames _ hname)) (by simp) hitem (fun _ => rfl) (hv.then_ hf)

/-- And put where it belongs. -/
theorem readsItems_value (k : Keyword) {name : String} {value : Text} {p : Parse β} {v : β} {f : β → Parse α}
    (hname : (name, k) ∈ propertyNames) (hv : Reads NotComma p (value ++ [newline]) K C v)
    (hitem : item a (.keyword k) = some (property p >>= f)) (hf : ∀ rest, f v rest = .ok a' rest) :
    ReadsItems NotComma Q item (line name value) K C a a' :=
  (readsItems_property k hname hv hitem (yields_of fun rest _ => hf rest)).imp (fun hk => ⟨hk, trivial⟩) And.left

/-- **A section is read as what is in it.** -/
theorem readsItems_section {P : Token → Prop} (name : String) (k : Keyword) {parse p : Parse α} {u : Text}
    (hname : (name, k) ∈ sectionNames) (hP : P (.keyword .begin_)) (hitem : item a (.keyword .begin_) = some parse)
    (hparse : ∀ rest, parse (.keyword k :: rest) = p rest) (hp : Reads P p u K C a') :
    ReadsItems P Q item (text ("begin " ++ name) ++ u) K C a a' :=
  readsItems_of (lexes_words (wordsOf_sectionNames _ hname).1) hP hitem hparse hp

end

end Katana.Script

/-
  Katana.Lib.Format — what a string says, and readers that conform to it.

  A reading says which value is to be found and whether something is refused; where it says neither,
  there is nothing to be found. A reader conforms to it when it gives that value, fails where something
  is refused, and strays otherwise. A format is a reading for every string, of sizes.

  Proved, for every reading and reader:
  - `Conforms.bind`: a reader that goes on with what it found conforms to the reading that does.
  - `Conforms.strays_iff`: a reader does not stray exactly where its reading says something.
-/
import Mathlib.Algebra.GroupWithZero.Nat
import Mathlib.Data.List.Basic
import Mathlib.Tactic.Common

namespace Katana.Lib

/-! ## Readings -/

/-- The values that are found, and whether something is refused. -/
structure Reading (α : Type) where
  gives : α → Prop
  refuses : Prop

namespace Reading
variable {α β : Type}

def pure (a : α) : Reading α := ⟨fun b => b = a, False⟩

def refuse : Reading α := ⟨fun _ => False, True⟩

def nothing : Reading α := ⟨fun _ => False, False⟩

def bind (R : Reading α) (S : α → Reading β) : Reading β where
  gives b := ∃ a, R.gives a ∧ (S a).gives b
  refuses := R.refuses ∨ ∃ a, R.gives a ∧ (S a).refuses

/-- What a computation says where a condition holds; elsewhere there is nothing to be found. -/
def within {ε : Type} (I : Prop) (x : Except ε α) : Reading α := ⟨fun a => I ∧ x = .ok a, I ∧ ∃ e, x = .error e⟩

/-- A value is found, or something refused. -/
def Known (R : Reading α) : Prop := (∃ a, R.gives a) ∨ R.refuses

end Reading

/-! ## Readers -/

section Readers
variable {α β ε : Type} {stray : ε} {R : Reading α} {x : Except ε α}

/-- The result of a reader is what the reading says; `stray` is its failure where that says nothing. -/
structure Conforms (stray : ε) (x : Except ε α) (R : Reading α) : Prop where
  ok : ∀ a, x = .ok a ↔ R.gives a
  error : (∃ e, e ≠ stray ∧ x = .error e) ↔ R.refuses

theorem Conforms.strays_iff (h : Conforms stray x R) : x ≠ .error stray ↔ R.Known := by
  unfold Reading.Known
  rw [← h.error]
  simp only [← h.ok]
  cases x with
  | ok a => simp
  | error e => simp

/-- Where a reader gives a value, the reading says that one and refuses nothing. -/
theorem Conforms.gives_iff (h : Conforms stray x R) {a b : α} (ha : x = .ok a) : (R.gives b ↔ b = a) ∧ ¬ R.refuses := by
  rw [← h.ok, ← h.error, ha]
  simp [eq_comm]

theorem Conforms.congr {R' : Reading α} (h : Conforms stray x R) (hgives : ∀ a, R.gives a ↔ R'.gives a)
    (hrefuses : R.refuses ↔ R'.refuses) : Conforms stray x R' :=
  ⟨fun a => (h.ok a).trans (hgives a), h.error.trans hrefuses⟩

theorem conforms_pure (a : α) : Conforms stray (.ok a) (.pure a) := by
  constructor
  · intro b
    simp [Reading.pure, eq_comm]
  · simp [Reading.pure]

theorem conforms_refuse {e : ε} (he : e ≠ stray) : Conforms stray (.error e : Except ε α) .refuse := by
  constructor
  · simp [Reading.refuse]
  · simpa [Reading.refuse] using he

theorem conforms_stray : Conforms stray (.error stray : Except ε α) .nothing := by
  constructor
  · simp [Reading.nothing]
  · simp [Reading.nothing]

theorem conforms_within {I : Prop} (h : x ≠ .error stray ↔ I) : Conforms stray x (.within I x) := by
  unfold Reading.within
  constructor
  · intro a
    rw [← h]
    refine ⟨fun hx => ⟨by simp [hx], hx⟩, And.right⟩
  · rw [← h]
    constructor
    · rintro ⟨e, hne, rfl⟩
      exact ⟨by simpa using hne, e, rfl⟩
    · rintro ⟨hne, e, rfl⟩
      exact ⟨e, by simpa using hne, rfl⟩

theorem Conforms.bind {S : α → Reading β} {f : α → Except ε β} (hx : Conforms stray x R)
    (hf : ∀ a, x = .ok a → Conforms stray (f a) (S a)) : Conforms stray (x >>= f) (R.bind S) := by
  cases hcase : x with
  | error e =>
    have hnone : ∀ a, ¬ R.gives a := fun a ha => by
      rw [← hx.ok, hcase] at ha
      cases ha
    constructor
    · intro b
      refine ⟨fun h => (by cases h), ?_⟩
      rintro ⟨a, ha, -⟩
      exact absurd ha (hnone a)
    · have herror := hx.error
      rw [hcase] at herror
      calc (∃ e', e' ≠ stray ∧ (.error e : Except ε β) = .error e')
          ↔ ∃ e', e' ≠ stray ∧ (.error e : Except ε α) = .error e' := by simp
        _ ↔ R.refuses := herror
        _ ↔ (R.bind S).refuses := ⟨.inl, fun h => h.resolve_right fun ⟨a, ha, _⟩ => hnone a ha⟩
  | ok a =>
    have ha := (hx.ok a).mp hcase
    have honly : ∀ a', R.gives a' → a' = a := fun a' ha' => by
      rw [← hx.ok, hcase] at ha'
      cases ha'
      rfl
    have hno : ¬ R.refuses := fun h => by
      obtain ⟨e, -, he⟩ := hx.error.mpr h
      rw [hcase] at he
      cases he
    have hthen := hf a hcase
    constructor
    · intro b
      refine (hthen.ok b).trans ⟨fun h => ⟨a, ha, h⟩, ?_⟩
      rintro ⟨a', ha', h⟩
      rwa [honly a' ha'] at h
    · refine hthen.error.trans ⟨fun h => .inr ⟨a, ha, h⟩, ?_⟩
      rintro (h | ⟨a', ha', h⟩)
      · exact absurd h hno
      · rwa [honly a' ha'] at h

end Readers

/-! ## Formats -/

/-- The sizes of what may lie at the head of a string. -/
abbrev Format (β : Type) := List β → Reading Nat

namespace Format
variable {β : Type}

/-- One behind the other. -/
def andThen (F G : Format β) : Format β := fun p => (F p).bind fun k => (G (p.drop k)).bind fun k' => .pure (k + k')

/-- All of them, one behind the other. -/
def row : List (Format β) → Format β
  | [] => fun _ => .pure 0
  | [F] => F
  | F :: G :: Fs => F.andThen (row (G :: Fs))

/-- What is found there, but not moved over. -/
def ahead (F : Format β) : Format β := fun p => (F p).bind fun _ => .pure 0

def Within (F : Format β) : Prop := ∀ p k, (F p).gives k → k ≤ p.length

/-- Items of these sizes lie one behind the other from the head of the string. -/
def Laid (F : Format β) : List β → List Nat → Prop
  | _, [] => True
  | p, k :: ks => (F p).gives k ∧ F.Laid (p.drop k) ks

/-- Items lie one behind the other up to the end of the string, or to one that is refused. -/
def Runs (F : Format β) (p : List β) : Prop :=
  ∃ ks, F.Laid p ks ∧ (p.drop ks.sum = [] ∨ (F (p.drop ks.sum)).refuses)

variable {ε : Type} {stray : ε} {F G : Format β} {p : List β} {x : Except ε Nat} {f : Nat → Except ε Nat}

theorem runs_nil : F.Runs [] := ⟨[], trivial, .inl rfl⟩

theorem runs_iff (hp : p ≠ []) : F.Runs p ↔ (F p).refuses ∨ ∃ k, (F p).gives k ∧ F.Runs (p.drop k) := by
  constructor
  · rintro ⟨ks, hlaid, hend⟩
    cases ks with
    | nil => exact .inl (hend.resolve_left hp)
    | cons k ks =>
      rw [List.sum_cons, ← List.drop_drop] at hend
      exact .inr ⟨k, hlaid.1, ks, hlaid.2, hend⟩
  · rintro (hrefuses | ⟨k, hk, ks, hlaid, hend⟩)
    · exact ⟨[], trivial, .inr hrefuses⟩
    · refine ⟨k :: ks, ⟨hk, hlaid⟩, ?_⟩
      rwa [List.sum_cons, ← List.drop_drop]

theorem Within.andThen (hF : F.Within) (hG : G.Within) : (F.andThen G).Within := by
  rintro p k ⟨k1, h1, k2, h2, rfl⟩
  have hle := hF p k1 h1
  have hrest := hG _ k2 h2
  rw [List.length_drop] at hrest
  omega

theorem within_row {Fs : List (Format β)} (h : ∀ F ∈ Fs, F.Within) : (row Fs).Within := by
  induction Fs with
  | nil =>
    rintro p k rfl
    exact Nat.zero_le _
  | cons F Fs ih =>
    cases Fs with
    | nil => exact h F (by simp)
    | cons G Fs => exact (h F (by simp)).andThen (ih fun F' hF' => h F' (by simp [hF']))

theorem within_ahead : F.ahead.Within := by
  rintro p k ⟨k', -, rfl⟩
  exact Nat.zero_le _

theorem conforms_andThen (hx : Conforms stray x (F p)) (hf : ∀ k, x = .ok k → Conforms stray (f k) (G (p.drop k))) :
    Conforms stray (x >>= fun k => f k >>= fun k' => .ok (k + k')) (F.andThen G p) :=
  hx.bind fun k hk => (hf k hk).bind fun _ _ => conforms_pure _

end Format

end Katana.Lib

/-
  Katana.Fault — how a run of the C code can end without a result.
-/
import Mathlib.Data.List.Forall2

namespace Katana

/-- `death(...)` with its message, a failed `assert`, or a step C leaves undefined (an access outside
its buffer, a signed overflow, a shift by the operand's width). -/
inductive Fault where
  | death (msg : String)
  | assertion
  | undefined
  deriving DecidableEq, Repr

def assert (p : Prop) [Decidable p] : Except Fault Unit := if p then .ok () else .error .assertion

/-- A step C defines only when `p` holds. -/
def defined (p : Prop) [Decidable p] : Except Fault Unit := if p then .ok () else .error .undefined

@[simp] theorem assert_of {p : Prop} [Decidable p] (h : p) : assert p = .ok () := if_pos h

@[simp] theorem assert_not {p : Prop} [Decidable p] (h : ¬ p) : assert p = .error .assertion := if_neg h

theorem assert_ok {p : Prop} [Decidable p] (h : assert p = .ok ()) : p := by
  by_cases hp : p
  · exact hp
  · rw [assert_not hp] at h
    cases h

@[simp] theorem defined_of {p : Prop} [Decidable p] (h : p) : defined p = .ok () := if_pos h

@[simp] theorem defined_not {p : Prop} [Decidable p] (h : ¬ p) : defined p = .error .undefined := if_neg h

theorem defined_ok {p : Prop} [Decidable p] {u : Unit} (h : defined p = .ok u) : p := by
  by_contra hp
  rw [defined_not hp] at h
  cases h

section Bind
variable {ε α β : Type} {x : Except ε α} {f : α → Except ε β}

@[simp] theorem bind_ok (a : α) : ((.ok a : Except ε α) >>= f) = f a := rfl

@[simp] theorem bind_error (e : ε) : ((.error e : Except ε α) >>= f) = .error e := rfl

theorem bind_eq_ok {b : β} : (x >>= f) = .ok b ↔ ∃ a, x = .ok a ∧ f a = .ok b := by
  cases x with
  | error e => simp
  | ok a => simp

theorem bind_eq_error {e : ε} : (x >>= f) = .error e ↔ x = .error e ∨ ∃ a, x = .ok a ∧ f a = .error e := by
  cases x with
  | error e => simp
  | ok a => simp

@[simp] theorem pure_eq_ok (a : α) : (pure a : Except ε α) = .ok a := rfl

/-- What holds before a loop, and of the elements done so far after each of its turns, holds at its end. -/
theorem foldlM_ok {f : β → α → Except ε β} {P : List α → β → Prop} {l : List α} {b b' : β} (h : l.foldlM f b = .ok b')
    (hstart : P [] b)
    (hstep : ∀ done x rest b b', l = done ++ x :: rest → P done b → f b x = .ok b' → P (done ++ [x]) b') : P l b' := by
  suffices hall : ∀ rest done b, l = done ++ rest → P done b → rest.foldlM f b = .ok b' →
    P l b' from hall l [] b rfl hstart h
  intro rest
  induction rest with
  | nil =>
    intro done b hl hb h
    rw [List.append_nil] at hl
    cases h
    rw [hl]
    exact hb
  | cons x rest ih =>
    intro done b hl hb h
    rw [List.foldlM_cons] at h
    obtain ⟨b1, hx, h⟩ := bind_eq_ok.mp h
    exact ih (done ++ [x]) b1 (by rw [hl]; simp) (hstep done x rest b b1 hl hb hx) h

end Bind

theorem mapM_ok {ε α β : Type} {f : α → Except ε β} {g : α → β} {l : List α} (h : ∀ x ∈ l, f x = .ok (g x)) :
    l.mapM f = .ok (l.map g) := by
  induction l with
  | nil => rfl
  | cons x l ih =>
    rw [List.mapM_cons, h x List.mem_cons_self, bind_ok, ih fun y hy => h y (List.mem_cons_of_mem _ hy)]
    rfl

theorem mapM_iff {ε α β : Type} {f : α → Except ε β} {l : List α} {m : List β} :
    l.mapM f = .ok m ↔ List.Forall₂ (fun x y => f x = .ok y) l m := by
  induction l generalizing m with
  | nil =>
    rw [List.forall₂_nil_left_iff]
    exact ⟨fun h => (by cases h; rfl), fun h => h ▸ rfl⟩
  | cons x l ih =>
    rw [List.mapM_cons, List.forall₂_cons_left_iff, bind_eq_ok]
    constructor
    · rintro ⟨y, hy, h⟩
      obtain ⟨rest, hrest, h⟩ := bind_eq_ok.mp h
      cases h
      exact ⟨y, rest, hy, ih.mp hrest, rfl⟩
    · rintro ⟨y, rest, hy, hrest, rfl⟩
      exact ⟨y, hy, bind_eq_ok.mpr ⟨rest, ih.mpr hrest, rfl⟩⟩

end Katana

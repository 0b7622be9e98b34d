/-
  Katana.Lib.Run — programs over a state that return or fail, and recursion with fuel.

  A program that fails keeps the state it has come to. Recursion that need not end is given fuel, and
  running out of it is a failure of its own (`bot`).

  Proved, for every state and program:
  - `keeps_bind` / `keeps_fromExcept`: an invariant of the parts is one of the whole, whether the run
    returns or fails.
  - `Below.bind` / `Below.ends`: what does not run out of fuel is not changed by more of it.
  - `ends_bind`: a run ends when its parts do.
  - `Ensures.bind`: what a run returns with, or fails with, from what its parts do.
-/
import Mathlib.Order.Basic

namespace Katana.Lib.Run

variable {ε σ α β : Type}

def after (x : EStateM ε σ α) (s : σ) : σ :=
  match x s with
  | .ok _ s' => s'
  | .error _ s' => s'

def fromExcept (x : Except ε α) : EStateM ε σ α :=
  match x with
  | .ok a => pure a
  | .error e => throw e

theorem run_bind_ok {x : EStateM ε σ α} {f : α → EStateM ε σ β} {s s' : σ} {b : β} :
    (x >>= f) s = .ok b s' ↔ ∃ a s1, x s = .ok a s1 ∧ f a s1 = .ok b s' := by
  simp only [bind, EStateM.bind]
  cases x s with
  | ok a s1 => simp [and_assoc]
  | error e s1 => simp

theorem run_bind_of_ok {x : EStateM ε σ α} {f : α → EStateM ε σ β} {s s1 : σ} {a : α} (h : x s = .ok a s1) :
    (x >>= f) s = f a s1 := by
  simp only [bind, EStateM.bind, h]

theorem fromExcept_ok {x : Except ε α} {s s' : σ} {a : α} : fromExcept x s = .ok a s' ↔ x = .ok a ∧ s' = s := by
  cases x with
  | ok b =>
    simp only [fromExcept, pure, EStateM.pure, EStateM.Result.ok.injEq, Except.ok.injEq]
    exact and_congr_right fun _ => eq_comm
  | error e =>
    refine ⟨fun h => ?_, fun h => ?_⟩
    · cases h
    · cases h.1

theorem pure_ok {a b : α} {s s' : σ} : (pure a : EStateM ε σ α) s = .ok b s' ↔ b = a ∧ s' = s := by
  simp only [pure, EStateM.pure, EStateM.Result.ok.injEq]
  exact and_congr eq_comm eq_comm

theorem get_run (s : σ) : (get : EStateM ε σ σ) s = .ok s s := rfl

theorem modify_run (f : σ → σ) (s : σ) : (modify f : EStateM ε σ PUnit) s = .ok ⟨⟩ (f s) := rfl

theorem run_bind_of_error {x : EStateM ε σ α} {f : α → EStateM ε σ β} {s s1 : σ} {e : ε} (h : x s = .error e s1) :
    (x >>= f) s = .error e s1 := by
  simp only [bind, EStateM.bind, h]

/-! ## Invariants -/

def Keeps (I : σ → Prop) (x : EStateM ε σ α) : Prop := ∀ s, I s → I (after x s)

variable {I : σ → Prop}

theorem Keeps.ok {x : EStateM ε σ α} (h : Keeps I x) {s s' : σ} {a : α} (hs : I s) (hx : x s = .ok a s') : I s' := by
  have hafter := h s hs
  unfold after at hafter
  rwa [hx] at hafter

theorem after_of_ok {x : EStateM ε σ α} {s s' : σ} {a : α} (h : x s = .ok a s') : after x s = s' := by
  unfold after
  rw [h]

theorem after_of_error {x : EStateM ε σ α} {s s' : σ} {e : ε} (h : x s = .error e s') : after x s = s' := by
  unfold after
  rw [h]

theorem after_bind {x : EStateM ε σ α} {f : α → EStateM ε σ β} {s s' : σ} {a : α} (h : x s = .ok a s') :
    after (x >>= f) s = after (f a) s' := by
  unfold after
  rw [run_bind_of_ok h]

theorem keeps_pure (a : α) : Keeps I (pure a : EStateM ε σ α) := fun _ hs => hs

theorem keeps_throw (e : ε) : Keeps I (throw e : EStateM ε σ α) := fun _ hs => hs

theorem keeps_get : Keeps I (get : EStateM ε σ σ) := fun _ hs => hs

theorem keeps_modify {f : σ → σ} (hf : ∀ s, I s → I (f s)) : Keeps I (modify f : EStateM ε σ PUnit) := hf

theorem keeps_fromExcept (x : Except ε α) : Keeps I (fromExcept x : EStateM ε σ α) := by
  cases x with
  | ok a => exact keeps_pure a
  | error e => exact keeps_throw e

/-- The second part only has to keep the invariant after runs of the first. -/
theorem keeps_bind {x : EStateM ε σ α} {f : α → EStateM ε σ β} (hx : Keeps I x)
    (hf : ∀ a s s', I s → x s = .ok a s' → I (after (f a) s')) : Keeps I (x >>= f) := by
  intro s hs
  have hfirst := hx s hs
  unfold after at hfirst ⊢
  simp only [bind, EStateM.bind]
  cases h : x s with
  | ok a s1 => exact hf a s s1 hs h
  | error e s1 =>
    rw [h] at hfirst
    exact hfirst

theorem Keeps.bind {x : EStateM ε σ α} {f : α → EStateM ε σ β} (hx : Keeps I x) (hf : ∀ a, Keeps I (f a)) :
    Keeps I (x >>= f) :=
  keeps_bind hx fun a _ s' hs h => hf a s' (hx.ok hs h)

/-! ## Fuel -/

section
variable {bot : ε}

/-- `x` runs out of fuel or does what `y` does. -/
def Below (bot : ε) (x y : EStateM ε σ α) : Prop := ∀ s, (∃ s', x s = .error bot s') ∨ x s = y s

def Ends (bot : ε) (x : EStateM ε σ α) (s : σ) : Prop := ∀ s', x s ≠ .error bot s'

theorem Below.refl (x : EStateM ε σ α) : Below bot x x := fun _ => .inr rfl

theorem Below.trans {x y z : EStateM ε σ α} (h : Below bot x y) (h' : Below bot y z) : Below bot x z := by
  intro s
  rcases h s with hbot | heq
  · exact .inl hbot
  · rw [heq]
    exact h' s

theorem Below.bind {x y : EStateM ε σ α} {f g : α → EStateM ε σ β} (h : Below bot x y) (hf : ∀ a, Below bot (f a) (g a)) :
    Below bot (x >>= f) (y >>= g) := by
  intro s
  simp only [Bind.bind, EStateM.bind]
  rcases h s with ⟨s', hbot⟩ | heq
  · left
    rw [hbot]
    exact ⟨s', rfl⟩
  · rw [heq]
    cases y s with
    | ok a s1 => exact hf a s1
    | error e s1 => exact .inr rfl

theorem Below.ends {x y : EStateM ε σ α} (h : Below bot x y) {s : σ} (hx : Ends bot x s) : x s = y s := by
  rcases h s with ⟨s', hbot⟩ | heq
  · exact absurd hbot (hx s')
  · exact heq

theorem Ends.mono {x y : EStateM ε σ α} {s : σ} (hx : Ends bot x s) (h : Below bot x y) : Ends bot y s := by
  have heq := h.ends hx
  unfold Ends
  rw [← heq]
  exact hx

theorem ends_of_ok {x : EStateM ε σ α} {f : α → EStateM ε σ β} {s s' : σ} {a : α} (hx : x s = .ok a s')
    (hf : Ends bot (f a) s') : Ends bot (x >>= f) s := by
  intro s1 h
  rw [run_bind_of_ok hx] at h
  exact hf s1 h

theorem ends_of_error {x : EStateM ε σ α} {f : α → EStateM ε σ β} {s s' : σ} {e : ε} (hx : x s = .error e s')
    (he : e ≠ bot) : Ends bot (x >>= f) s := by
  intro s1 h
  rw [run_bind_of_error hx] at h
  cases h
  exact he rfl

theorem ends_bind {x : EStateM ε σ α} {f : α → EStateM ε σ β} {s : σ} (hx : Ends bot x s)
    (hf : ∀ a s', x s = .ok a s' → Ends bot (f a) s') : Ends bot (x >>= f) s := by
  cases h : x s with
  | ok a s' => exact ends_of_ok h (hf a s' h)
  | error e s' =>
    refine ends_of_error h ?_
    intro he
    exact hx s' (he ▸ h)

theorem ends_pure (a : α) (s : σ) : Ends bot (pure a : EStateM ε σ α) s := by
  intro s' h
  cases h

end

/-! ## Outcomes -/

/-- The program returns with `Q`, or it fails with `E`. -/
def Ensures (x : EStateM ε σ α) (s : σ) (Q : α → σ → Prop) (E : ε → Prop) : Prop :=
  match x s with
  | .ok a s' => Q a s'
  | .error e _ => E e

section
variable {Q : α → σ → Prop} {E : ε → Prop} {s : σ}

theorem ensures_pure {a : α} (h : Q a s) : Ensures (pure a) s Q E := h

theorem ensures_throw {e : ε} (h : E e) : Ensures (throw e : EStateM ε σ α) s Q E := h

theorem ensures_get {f : σ → EStateM ε σ α} (h : Ensures (f s) s Q E) : Ensures (get >>= f) s Q E := h

theorem ensures_modify {f : PUnit → EStateM ε σ α} {g : σ → σ} (h : Ensures (f ⟨⟩) (g s) Q E) :
    Ensures (modify g >>= f) s Q E := h

theorem Ensures.ok {x : EStateM ε σ α} (h : Ensures x s Q E) {a : α} {s' : σ} (hx : x s = .ok a s') : Q a s' := by
  unfold Ensures at h
  rwa [hx] at h

theorem Ensures.error {x : EStateM ε σ α} (h : Ensures x s Q E) {e : ε} {s' : σ} (hx : x s = .error e s') : E e := by
  unfold Ensures at h
  rwa [hx] at h

theorem Ensures.bind {x : EStateM ε σ β} {f : β → EStateM ε σ α} {P : β → σ → Prop} (hx : Ensures x s P E)
    (hf : ∀ b s', P b s' → Ensures (f b) s' Q E) : Ensures (x >>= f) s Q E := by
  cases h : x s with
  | ok b s1 =>
    have hrest := hf b s1 (hx.ok h)
    unfold Ensures at hrest ⊢
    rwa [run_bind_of_ok h]
  | error e s1 =>
    have herror := hx.error h
    unfold Ensures
    rwa [run_bind_of_error h]

theorem Ensures.imp {x : EStateM ε σ α} {P : α → σ → Prop} (hx : Ensures x s P E) (h : ∀ a s', P a s' → Q a s') :
    Ensures x s Q E := by
  unfold Ensures at hx ⊢
  cases hrun : x s with
  | ok a s' =>
    rw [hrun] at hx
    exact h a s' hx
  | error e s' =>
    rw [hrun] at hx
    exact hx

end

end Katana.Lib.Run

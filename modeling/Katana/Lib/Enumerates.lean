/-
  Katana.Lib.Enumerates — lists that have the elements of a set, each once.

  Proved: a list in two parts, of elements that are told apart, enumerates a set in two parts exactly when
  each part does (`enumerates_append`).
-/
import Mathlib.Data.List.Nodup

namespace Katana.Lib

variable {α : Type} {l m : List α} {P Q : α → Prop}

def Enumerates (l : List α) (P : α → Prop) : Prop := l.Nodup ∧ ∀ x, x ∈ l ↔ P x

theorem enumerates_congr (h : ∀ x, P x ↔ Q x) : Enumerates l P ↔ Enumerates l Q :=
  and_congr_right' (forall_congr' fun x => iff_congr Iff.rfl (h x))

theorem enumerates_nil : Enumerates ([] : List α) P ↔ ∀ x, ¬ P x := by
  unfold Enumerates
  simp

theorem enumerates_singleton {a : α} : Enumerates [a] P ↔ ∀ x, P x ↔ x = a := by
  unfold Enumerates
  simp [eq_comm, iff_comm]

theorem not_enumerates_replicate {n : Nat} (h : 2 ≤ n) (a : α) : ¬ Enumerates (List.replicate n a) P := by
  intro he
  have hle := List.nodup_replicate.mp he.1
  omega

/-- Two parts that are told apart. -/
theorem enumerates_append {T : α → Prop} (hl : ∀ x ∈ l, T x) (hP : ∀ x, P x → T x) (hm : ∀ x ∈ m, ¬ T x)
    (hQ : ∀ x, Q x → ¬ T x) : Enumerates (l ++ m) (fun x => P x ∨ Q x) ↔ Enumerates l P ∧ Enumerates m Q := by
  unfold Enumerates
  rw [List.nodup_append']
  refine ⟨?_, ?_⟩
  · intro h
    obtain ⟨⟨hlnodup, hmnodup, -⟩, hmem⟩ := h
    refine ⟨⟨hlnodup, ?_⟩, ⟨hmnodup, ?_⟩⟩
    · intro x
      refine ⟨?_, ?_⟩
      · intro hx
        exact ((hmem x).mp (List.mem_append_left _ hx)).resolve_right fun hq => hQ x hq (hl x hx)
      · intro hx
        exact (List.mem_append.mp ((hmem x).mpr (.inl hx))).resolve_right fun hxm => hm x hxm (hP x hx)
    · intro x
      refine ⟨?_, ?_⟩
      · intro hx
        exact ((hmem x).mp (List.mem_append_right _ hx)).resolve_left fun hp => hm x hx (hP x hp)
      · intro hx
        exact (List.mem_append.mp ((hmem x).mpr (.inr hx))).resolve_left fun hxl => hQ x hx (hl x hxl)
  · intro h
    obtain ⟨⟨hlnodup, hlmem⟩, ⟨hmnodup, hmmem⟩⟩ := h
    refine ⟨⟨hlnodup, hmnodup, ?_⟩, ?_⟩
    · intro x hxl hxm
      exact hm x hxm (hl x hxl)
    · intro x
      rw [List.mem_append, hlmem, hmmem]

end Katana.Lib

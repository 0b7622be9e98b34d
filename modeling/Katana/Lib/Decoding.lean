/-
  Katana.Lib.Decoding — decoders that take the items of a code one after another.

  `step` reads the item at the start of some bytes and says how many bytes it took; `enc` is how an
  item is written, and `Means` what an item that was read says about the one that was written,
  given the bytes behind it. A decoder is in frame when every step starts at the first byte of an
  item and takes exactly the item's bytes.

  Proved:
  - `inFrame_iff`: where it is decided item by item whether a step keeps the frame, a whole code is
    in frame exactly when each of its items is.
-/
import Katana.Lib.Digits

namespace Katana.Lib

section
variable {ε α γ : Type} (step : List UInt8 → Except ε (α × Nat)) (enc : γ → List UInt8)
  (Means : γ → List UInt8 → α → Prop)

/-- From item to item, with `rest` behind the last one; the items that were read are in the last list. -/
inductive InFrame : List γ → List UInt8 → List α → Prop
  | nil (rest : List UInt8) : InFrame [] rest []
  | cons {c : γ} {items : List γ} {rest : List UInt8} {a : α} {read : List α} :
    step (enc c ++ (items.flatMap enc ++ rest)) = .ok (a, (enc c).length) →
    Means c (items.flatMap enc ++ rest) a → InFrame items rest read → InFrame (c :: items) rest (a :: read)

variable {step enc Means}

/-- **A code is read in frame exactly when each of its items is one that can be.** -/
theorem inFrame_iff {Readable : γ → Prop}
    (h : ∀ c rest, (∃ a, step (enc c ++ rest) = .ok (a, (enc c).length) ∧ Means c rest a) ↔ Readable c)
    (items : List γ) (rest : List UInt8) :
    (∃ read, InFrame step enc Means items rest read) ↔ ∀ c ∈ items, Readable c := by
  constructor
  · intro hframe
    rcases hframe with ⟨read, hframe⟩
    induction hframe with
    | nil rest =>
      intro c hc
      cases hc
    | cons hstep hmeans _ ih =>
      intro c hc
      rcases List.mem_cons.mp hc with rfl | hc
      · exact (h c _).mp ⟨_, hstep, hmeans⟩
      · exact ih c hc
  · intro hall
    induction items with
    | nil => exact ⟨[], .nil rest⟩
    | cons c items ih =>
      obtain ⟨read, hread⟩ := ih fun x hx => hall x (by simp [hx])
      obtain ⟨a, hstep, hmeans⟩ := (h c (items.flatMap enc ++ rest)).mpr (hall c (by simp))
      exact ⟨a :: read, .cons hstep hmeans hread⟩

end

end Katana.Lib

/-
  Katana.Lib.Munch — scanners that take the longest match.

  A pattern is a list of segments: one symbol of a class, at most one, or as many as there are. Every segment takes what
  it can. All rules of a scanner are tried, and of the longest matches the first rule's wins.

  Proved, for every list of rules:
  - `pick_delimited`: what is behind a symbol that is in no class of the rules does not matter.
  - `pick_filter`: a rule that cannot start with the first symbol does not matter.
  - `pick_whole`: the first of the rules that take all of the input wins.
-/
import Mathlib.Data.List.Basic
import Mathlib.Tactic.Common

namespace Katana.Lib

variable {β τ : Type}

/-! ## Patterns -/

inductive Segment (β : Type) where
  | one (cls : β → Bool)
  | opt (cls : β → Bool)
  | many (cls : β → Bool)

def Segment.cls : Segment β → β → Bool
  | one cls | opt cls | many cls => cls

abbrev Pattern (β : Type) := List (Segment β)

/-- Exactly these symbols. -/
def literal [BEq β] (symbols : List β) : Pattern β := symbols.map fun b => .one (· == b)

/-- The number of symbols matched. -/
def matchLength : Pattern β → List β → Option Nat
  | [], _ => some 0
  | .one _ :: _, [] => none
  | .one cls :: pattern, b :: input => if cls b then (matchLength pattern input).map (· + 1) else none
  | .opt _ :: pattern, [] => matchLength pattern []
  | .opt cls :: pattern, b :: input =>
    if cls b then (matchLength pattern input).map (· + 1) else matchLength pattern (b :: input)
  | .many cls :: pattern, input =>
    (matchLength pattern (input.dropWhile cls)).map (· + (input.takeWhile cls).length)

def mayStart : Pattern β → β → Bool
  | [], _ => true
  | .one cls :: _, b => cls b
  | .opt cls :: pattern, b | .many cls :: pattern, b => cls b || mayStart pattern b

/-- No class of the pattern has the symbol. -/
def Avoids (pattern : Pattern β) (d : β) : Prop := ∀ s ∈ pattern, s.cls d = false

instance (pattern : Pattern β) (d : β) : Decidable (Avoids pattern d) := inferInstanceAs (Decidable (∀ s ∈ pattern, _))

theorem takeWhile_delimited {cls : β → Bool} {d : β} (hd : cls d = false) (w rest : List β) :
    (w ++ d :: rest).takeWhile cls = w.takeWhile cls := by
  induction w with
  | nil => simp [hd]
  | cons b w ih => simp [List.takeWhile_cons, ih]

theorem dropWhile_delimited {cls : β → Bool} {d : β} (hd : cls d = false) (w rest : List β) :
    (w ++ d :: rest).dropWhile cls = w.dropWhile cls ++ d :: rest := by
  induction w with
  | nil => simp [hd]
  | cons b w ih =>
    rw [List.cons_append, List.dropWhile_cons, List.dropWhile_cons, ih]
    split <;> rfl

theorem matchLength_delimited {pattern : Pattern β} {d : β} (h : Avoids pattern d) (w rest : List β) :
    matchLength pattern (w ++ d :: rest) = matchLength pattern w := by
  induction pattern generalizing w with
  | nil => rfl
  | cons s pattern ih =>
    have hd : s.cls d = false := h s List.mem_cons_self
    have hrest : Avoids pattern d := fun t ht => h t (List.mem_cons_of_mem _ ht)
    cases s with
    | one cls =>
      have hcls : cls d = false := hd
      cases w with
      | nil => simp [matchLength, hcls]
      | cons b w => simp only [List.cons_append, matchLength, ih hrest]
    | opt cls =>
      have hcls : cls d = false := hd
      cases w with
      | nil =>
        have hnil := ih hrest []
        simpa [matchLength, hcls] using hnil
      | cons b w =>
        have hcons := ih hrest (b :: w)
        rw [List.cons_append] at hcons
        simp only [List.cons_append, matchLength, ih hrest, hcons]
    | many cls =>
      have hcls : cls d = false := hd
      simp only [matchLength, takeWhile_delimited hcls, dropWhile_delimited hcls, ih hrest]

theorem matchLength_eq_none {pattern : Pattern β} {b : β} (h : mayStart pattern b = false) (input : List β) :
    matchLength pattern (b :: input) = none := by
  induction pattern with
  | nil => cases h
  | cons s pattern ih =>
    cases s with
    | one cls =>
      have hcls : cls b = false := h
      simp [matchLength, hcls]
    | opt cls =>
      obtain ⟨hcls, hrest⟩ := Bool.or_eq_false_iff.mp h
      simp [matchLength, hcls, ih hrest]
    | many cls =>
      obtain ⟨hcls, hrest⟩ := Bool.or_eq_false_iff.mp h
      simp [matchLength, hcls, ih hrest]

theorem matchLength_le {pattern : Pattern β} {input : List β} {n : Nat} (h : matchLength pattern input = some n) :
    n ≤ input.length := by
  induction pattern generalizing input n with
  | nil => cases h; exact Nat.zero_le _
  | cons s pattern ih =>
    cases s with
    | one cls =>
      cases input with
      | nil => cases h
      | cons b input =>
        simp only [matchLength] at h
        split at h
        · obtain ⟨m, hm, rfl⟩ := Option.map_eq_some_iff.mp h
          exact Nat.succ_le_succ (ih hm)
        · cases h
    | opt cls =>
      cases input with
      | nil => exact ih h
      | cons b input =>
        simp only [matchLength] at h
        split at h
        · obtain ⟨m, hm, rfl⟩ := Option.map_eq_some_iff.mp h
          exact Nat.succ_le_succ (ih hm)
        · exact ih h
    | many cls =>
      obtain ⟨m, hm, rfl⟩ := Option.map_eq_some_iff.mp h
      have hle := ih hm
      have hsplit := congrArg List.length (List.takeWhile_append_dropWhile (p := cls) (l := input))
      rw [List.length_append] at hsplit
      omega

/-! ## Rules -/

structure Rule (β τ : Type) where
  pattern : Pattern β
  action : List β → τ

/-- The longer match; the first one where they are as long. -/
def longer (a b : Option (Nat × τ)) : Option (Nat × τ) :=
  match a, b with
  | some x, some y => if x.1 < y.1 then some y else some x
  | some x, none => some x
  | none, b => b

/-- The match of one rule; an empty one does not count. -/
def Rule.found (r : Rule β τ) (input : List β) : Option (Nat × τ) :=
  match matchLength r.pattern input with
  | some (n + 1) => some (n + 1, r.action (input.take (n + 1)))
  | _ => none

/-- The length of the match that wins, and what its rule makes of it. -/
def pick : List (Rule β τ) → List β → Option (Nat × τ)
  | [], _ => none
  | r :: rules, input => longer (r.found input) (pick rules input)

def Rule.canStart (r : Rule β τ) (b : β) : Bool := mayStart r.pattern b

section
variable {rules : List (Rule β τ)} {r : Rule β τ} {d : β}

theorem found_delimited (h : Avoids r.pattern d) (w rest : List β) : r.found (w ++ d :: rest) = r.found w := by
  unfold Rule.found
  rw [matchLength_delimited h]
  cases hm : matchLength r.pattern w with
  | none => rfl
  | some n =>
    cases n with
    | zero => rfl
    | succ n =>
      have hle := matchLength_le hm
      dsimp only
      rw [List.take_append_of_le_length hle]

/-- **Nothing behind a symbol that no rule's classes have is looked at.** -/
theorem pick_delimited (h : ∀ r ∈ rules, Avoids r.pattern d) (w rest : List β) :
    pick rules (w ++ d :: rest) = pick rules w := by
  induction rules with
  | nil => rfl
  | cons r rules ih =>
    unfold pick
    rw [found_delimited (h r List.mem_cons_self), ih fun r hr => h r (List.mem_cons_of_mem _ hr)]

theorem found_eq_none {b : β} (h : r.canStart b = false) (input : List β) : r.found (b :: input) = none := by
  unfold Rule.found
  rw [matchLength_eq_none h]

/-- **Rules that cannot start with the first symbol do not matter.** -/
theorem pick_filter (rules : List (Rule β τ)) (b : β) (input : List β) :
    pick rules (b :: input) = pick (rules.filter (·.canStart b)) (b :: input) := by
  induction rules with
  | nil => rfl
  | cons r rules ih =>
    cases hstart : r.canStart b with
    | true =>
      rw [List.filter_cons_of_pos (p := fun r : Rule β τ => r.canStart b) hstart]
      show longer _ _ = longer _ _
      rw [ih]
    | false =>
      rw [List.filter_cons_of_neg (p := fun r : Rule β τ => r.canStart b) (by simp [hstart]), ← ih]
      show longer _ _ = _
      rw [found_eq_none hstart]
      rfl

theorem found_pos {input : List β} {n : Nat} {t : τ} (h : r.found input = some (n, t)) : 0 < n ∧ n ≤ input.length := by
  unfold Rule.found at h
  split at h
  · rename_i m hm
    cases h
    exact ⟨Nat.succ_pos _, matchLength_le hm⟩
  · cases h

/-- What wins is the match of one of the rules. -/
theorem pick_mem {input : List β} {n : Nat} {t : τ} (h : pick rules input = some (n, t)) :
    ∃ r ∈ rules, r.found input = some (n, t) := by
  induction rules with
  | nil => cases h
  | cons r rules ih =>
    have hchosen : r.found input = some (n, t) ∨ pick rules input = some (n, t) := by
      unfold pick longer at h
      split at h
      · rename_i x y hx hy
        split at h
        · exact .inr (hy.trans h)
        · exact .inl (hx.trans h)
      · rename_i x hx hy
        exact .inl (hx.trans h)
      · exact .inr h
    rcases hchosen with hfound | hpick
    · exact ⟨r, List.mem_cons_self, hfound⟩
    · obtain ⟨r', hr', hfound⟩ := ih hpick
      exact ⟨r', List.mem_cons_of_mem _ hr', hfound⟩

theorem pick_pos {input : List β} {n : Nat} {t : τ} (h : pick rules input = some (n, t)) : 0 < n ∧ n ≤ input.length := by
  obtain ⟨r, -, hfound⟩ := pick_mem h
  exact found_pos hfound

theorem pick_isSome {input : List β} (hr : r ∈ rules) (h : (r.found input).isSome = true) :
    (pick rules input).isSome = true := by
  induction rules with
  | nil => cases hr
  | cons r' rules ih =>
    unfold pick longer
    split
    · split <;> rfl
    · rfl
    · rename_i hnone
      rcases List.mem_cons.mp hr with rfl | hr
      · rw [hnone] at h
        cases h
      · exact ih hr

/-! ## Matches of all that is there -/

def Segment.isOne : Segment β → Bool
  | one _ => true
  | opt _ | many _ => false

/-- The pattern takes all of the input. Where every segment takes one symbol, the lengths are compared first. -/
def matchesWhole (pattern : Pattern β) (input : List β) : Bool :=
  (pattern.length == input.length || !pattern.all Segment.isOne) && matchLength pattern input == some input.length

theorem matchLength_ones {pattern : Pattern β} (h : pattern.all Segment.isOne = true) {input : List β} {n : Nat}
    (hn : matchLength pattern input = some n) : n = pattern.length := by
  induction pattern generalizing input n with
  | nil => cases hn; rfl
  | cons s pattern ih =>
    rw [List.all_cons, Bool.and_eq_true_iff] at h
    obtain ⟨hs, hrest⟩ := h
    cases s with
    | opt cls => cases hs
    | many cls => cases hs
    | one cls =>
      cases input with
      | nil => cases hn
      | cons b input =>
        simp only [matchLength] at hn
        split at hn
        · obtain ⟨m, hm, rfl⟩ := Option.map_eq_some_iff.mp hn
          rw [ih hrest hm, List.length_cons]
        · cases hn

theorem matchesWhole_iff {pattern : Pattern β} {input : List β} :
    matchesWhole pattern input = true ↔ matchLength pattern input = some input.length := by
  unfold matchesWhole
  rw [Bool.and_eq_true_iff, beq_iff_eq]
  refine ⟨And.right, fun h => ⟨?_, h⟩⟩
  cases hones : pattern.all Segment.isOne with
  | false => simp
  | true => simp [matchLength_ones hones h]

/-- **The first rule that takes all of the input wins.** -/
theorem pick_whole {input : List β} (hne : input ≠ [])
    (h : rules.find? (fun r => matchesWhole r.pattern input) = some r) : pick rules input = some (input.length, r.action input) := by
  have hpos : 0 < input.length := List.length_pos_iff.mpr hne
  induction rules with
  | nil => cases h
  | cons r' rules ih =>
    unfold pick
    cases hwhole : matchesWhole r'.pattern input with
    | true =>
      rw [List.find?_cons_of_pos (p := fun r : Rule β τ => matchesWhole r.pattern input) hwhole] at h
      cases h
      obtain ⟨n, hn⟩ := Nat.exists_eq_succ_of_ne_zero (Nat.ne_of_gt hpos)
      have hfound : r.found input = some (input.length, r.action input) := by
        unfold Rule.found
        rw [matchesWhole_iff.mp hwhole, hn]
        dsimp only
        rw [← Nat.succ_eq_add_one, ← hn, List.take_length]
      rw [hfound]
      cases hrest : pick rules input with
      | none => rfl
      | some y => exact if_neg (Nat.not_lt.mpr (pick_pos hrest).2)
    | false =>
      rw [List.find?_cons_of_neg (p := fun r : Rule β τ => matchesWhole r.pattern input) (by simp [hwhole])] at h
      rw [ih h]
      cases hfound : r'.found input with
      | none => rfl
      | some x =>
        have hle := (found_pos hfound).2
        have hshort : x.1 ≠ input.length := by
          intro heq
          unfold Rule.found at hfound
          split at hfound
          · rename_i m hm
            cases hfound
            rw [matchesWhole_iff.mpr (hm.trans (congrArg some heq))] at hwhole
            cases hwhole
          · cases hfound
        exact if_pos (Nat.lt_of_le_of_ne hle hshort)

end

end Katana.Lib

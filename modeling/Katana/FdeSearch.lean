/-
  Katana.FdeSearch — the FDE of a pc (getFDEForPC in patcher/safety.c).

  The FDEs are halved with an upper bound that is half exclusive, `highpc` counts as part of the range, and
  what the halving ends at is probed once more. So an FDE that ends at the pc is taken for one that has it,
  and the probe can be behind the array, or far behind it once the upper bound wraps.

  Proved, for every array of fewer than 2^24 FDEs:
  - `getFDELoop_eq`: what the loop gives is what is met first on the halving.
  - `getFDEForPC_iff`: exactly when the answer is right, and what that comes to for ranges in order.
  - `getFDEForPC_behind`: a pc behind every FDE is never answered.
-/
import Katana.Lib.Halving
import Katana.CallFrameInfo

namespace Katana

open Lib

/-! ## The search -/

/-- A conversion to `float`: 24 bits of precision, to the nearest, ties to even. -/
def roundToFloat (x : Nat) : Nat :=
  let dropped := x.log2 + 1 - 24
  let kept := x / 2 ^ dropped
  let rest := 2 * (x % 2 ^ dropped)
  if rest < 2 ^ dropped ∨ (rest = 2 ^ dropped ∧ kept % 2 = 0) then kept * 2 ^ dropped else (kept + 1) * 2 ^ dropped

/-- `low+(size_t)floor((float)(high-low)/2.0f)` -/
def middleOf (low high : UInt64) : UInt64 := low + UInt64.ofNat (roundToFloat (high - low).toNat / 2)

/-- `fdes[i]`, which is only defined inside the array. -/
def fdeAt (fdes : List FDE) (i : UInt64) : Except Fault FDE :=
  match fdes[i.toNat]? with
  | some fde => .ok fde
  | none => .error .undefined

def FDE.low (fde : FDE) : UInt64 := addrOfInt fde.lowpc

def FDE.high (fde : FDE) : UInt64 := addrOfInt fde.highpc

def getFDELoop (fdes : List FDE) (pc : UInt64) : Nat → UInt64 → UInt64 → Except Fault (Option Nat)
  | 0, _, _ => .error .undefined
  | fuel + 1, low, high =>
    if 0 < high - low then do
      let middle := middleOf low high
      let fde ← fdeAt fdes middle
      if pc < fde.low then getFDELoop fdes pc fuel low (middle - 1)
      else if fde.high < pc then getFDELoop fdes pc fuel (middle + 1) high
      else .ok (some middle.toNat)
    else do
      let fde ← fdeAt fdes low
      if fde.low ≤ pc ∧ pc ≤ fde.high then .ok (some low.toNat) else .ok none

/-- The index of the FDE returned, or `NULL`. The asserted `fdes` comes from `zmalloc`, also with no FDE. -/
def getFDEForPC (fdes : List FDE) (pc : UInt64) : Except Fault (Option Nat) :=
  getFDELoop fdes pc (fdes.length + 2) 0 (UInt64.ofNat fdes.length)

/-! ## What it is for -/

section Search
variable (fdes : List FDE) (pc : UInt64)

def Has (i : Nat) : Prop := ∃ fde, fdes[i]? = some fde ∧ fde.low ≤ pc ∧ pc < fde.high

def EndsAt (i : Nat) : Prop := ∃ fde, fdes[i]? = some fde ∧ fde.low ≤ pc ∧ fde.high = pc

/-- The FDE that has the pc is found, and none if there is none. -/
def FindsFDE : Prop :=
  match getFDEForPC fdes pc with
  | .ok (some i) => Has fdes pc i
  | .ok none => ∀ i, ¬ Has fdes pc i
  | .error _ => False

def beyond (i : Nat) : Bool := (fdes[i]?).all fun fde => decide (pc < fde.low)

/-- The range at `i` has the pc, if `highpc` is counted as part of it. -/
def touches (i : Nat) : Bool := (fdes[i]?).any fun fde => decide (fde.low ≤ pc) && decide (pc ≤ fde.high)

/-- The halving of the indices of `n` FDEs, of which those from `g` on begin beyond the pc. -/
def halved (n g : Nat) : List Nat × Option Nat := halving (fun i => decide (g ≤ i)) (n + 1) 0 n

def begun : Nat := fdes.countP fun fde => decide (fde.low ≤ pc)

def comesTo : List Nat × Option Nat := halving (beyond fdes pc) (fdes.length + 1) 0 fdes.length

/-- The first of these indices, the last one included, at which the pc is touched. -/
def firstTouched (search : List Nat × Option Nat) : Option Nat := (search.1 ++ search.2.toList).find? (touches fdes pc)

/-- What is met first decides, and nothing is met only where there is nothing. -/
structure SearchSound : Prop where
  /-- The first range met that touches the pc does not end at it. -/
  first : ∀ i, firstTouched fdes pc (comesTo fdes pc) = some i → ¬ EndsAt fdes pc i
  /-- It does not leave the array. -/
  inside : firstTouched fdes pc (comesTo fdes pc) = none → ∃ l, (comesTo fdes pc).2 = some l ∧ l < fdes.length
  /-- A range that has the pc is not passed by. -/
  meets : ∀ i, Has fdes pc i → firstTouched fdes pc (comesTo fdes pc) ≠ none

/-- Ranges that are not empty, each ending before the next begins. -/
structure RangesInOrder : Prop where
  proper : ∀ fde ∈ fdes, fde.low < fde.high
  apart : fdes.Pairwise fun a b => a.high ≤ b.low

/-- The condition for ranges in order, where the halving depends on the two numbers alone. -/
structure RangesSound : Prop where
  /-- The range before the one that has the pc does not end at it, or is not looked at. -/
  covered : ∀ i, Has fdes pc (i + 1) → EndsAt fdes pc i → i ∉ (halved fdes.length (begun fdes pc)).1
  /-- A pc in no range is no range's end, and the halving ends at an index of the array. -/
  uncovered : (∀ i, ¬ Has fdes pc i) →
    (∀ i, ¬ EndsAt fdes pc i) ∧ ∃ l, (halved fdes.length (begun fdes pc)).2 = some l ∧ l < fdes.length

/-! ## The loop follows the halving -/

def outcome (search : List Nat × Option Nat) : Except Fault (Option Nat) :=
  match search.1.find? (touches fdes pc) with
  | some i => .ok (some i)
  | none =>
    match search.2 with
    | none => .error .undefined
    | some l => if l < fdes.length then .ok (if touches fdes pc l = true then some l else none) else .error .undefined

end Search

section Loop
variable {fdes : List FDE} {pc low high : UInt64}

theorem roundToFloat_small {x : Nat} (h : x < 2 ^ 24) : roundToFloat x = x := by
  have hlog : x.log2 + 1 - 24 = 0 := by
    by_cases hx : x = 0
    · simp [hx]
    · have := (Nat.log2_lt hx).mpr h
      omega
  simp [roundToFloat, hlog, Nat.mod_one]

theorem fdeAt_inside {i : UInt64} (h : i.toNat < fdes.length) : fdeAt fdes i = .ok fdes[i.toNat] := by
  simp [fdeAt, h]

theorem fdeAt_outside {i : UInt64} (h : fdes.length ≤ i.toNat) : fdeAt fdes i = .error .undefined := by
  simp [fdeAt, h]

theorem middleOf_toNat (hle : low.toNat ≤ high.toNat) (hsmall : high.toNat < 2 ^ 24) :
    (middleOf low high).toNat = low.toNat + (high.toNat - low.toNat) / 2 := by
  have hsub : (high - low).toNat = high.toNat - low.toNat := UInt64.toNat_sub_of_le _ _ hle
  rw [middleOf, hsub, roundToFloat_small (by omega), UInt64.toNat_add, UInt64.toNat_ofNat_of_lt' (by
    show _ < 2 ^ 64
    omega)]
  omega

theorem below_sub (low : UInt64) : low - 1 - low = 0 - 1 := by
  rw [UInt64.sub_eq_add_neg (low - 1), UInt64.sub_eq_add_neg low, UInt64.add_comm low, UInt64.add_assoc,
    UInt64.add_right_neg, UInt64.sub_eq_add_neg 0, UInt64.add_zero, UInt64.zero_add]

/-- **The wrapped upper bound**: once it is just below `low`, the middle is half the address space away. -/
theorem middleOf_wrapped (hlow : low.toNat < 2 ^ 24) : (middleOf low (low - 1)).toNat = low.toNat + 2 ^ 63 := by
  have hsub := below_sub low
  have hround : roundToFloat (0 - 1 : UInt64).toNat / 2 = 2 ^ 63 := by decide
  rw [middleOf, hsub, hround, UInt64.toNat_add]
  simp
  omega

theorem beyond_inside {i : Nat} (h : i < fdes.length) : beyond fdes pc i = decide (pc < fdes[i].low) := by
  simp [beyond, h]

theorem touches_inside {i : Nat} (h : i < fdes.length) :
    touches fdes pc i = (decide (fdes[i].low ≤ pc) && decide (pc ≤ fdes[i].high)) := by
  simp [touches, h]

theorem touches_lt {i : Nat} (h : touches fdes pc i = true) : i < fdes.length := by
  by_contra hi
  simp [touches, List.getElem?_eq_none (Nat.le_of_not_lt hi)] at h

theorem getFDELoop_wrapped {fuel : Nat} (hcount : fdes.length < 2 ^ 24) (hlow : low.toNat < 2 ^ 24) :
    getFDELoop fdes pc (fuel + 1) low (low - 1) = .error .undefined := by
  have hpos : 0 < low - 1 - low := by
    rw [below_sub]
    decide
  have hw := middleOf_wrapped hlow
  unfold getFDELoop
  rw [if_pos hpos]
  dsimp only
  rw [fdeAt_outside (by omega), bind_error]

/-- **The loop follows the halving**, and where the halving comes down to an index that is beyond, it leaves the array. -/
theorem getFDELoop_eq {fuel : Nat} (hcount : fdes.length < 2 ^ 24) (hle : low.toNat ≤ high.toNat)
    (hhigh : high.toNat ≤ fdes.length) (hfuel : high.toNat - low.toNat < fuel) :
    getFDELoop fdes pc (fuel + 1) low high =
      outcome fdes pc (halving (beyond fdes pc) fuel low.toNat high.toNat) := by
  induction fuel generalizing low high with
  | zero => omega
  | succ fuel ih =>
    unfold getFDELoop halving
    have hsub : (high - low).toNat = high.toNat - low.toNat := UInt64.toNat_sub_of_le _ _ hle
    by_cases hlt : low.toNat < high.toNat
    · have hpos : 0 < high - low := by
        rw [UInt64.lt_iff_toNat_lt, hsub]
        simp
        omega
      have hm := middleOf_toNat hle (by omega)
      have hin : (middleOf low high).toNat < fdes.length := by omega
      rw [if_pos hpos, if_pos hlt]
      dsimp only
      rw [fdeAt_inside hin, bind_ok, ← hm, beyond_inside hin]
      by_cases hb : pc < fdes[(middleOf low high).toNat].low
      · have htouch : touches fdes pc (middleOf low high).toNat = false := by
          simp [touches_inside hin, UInt64.not_le.mpr hb]
        simp only [hb, if_true, decide_true]
        by_cases hlow : (middleOf low high).toNat = low.toNat
        · -- a single index with nothing to its left: the upper bound is now below `low`
          rw [if_pos hlow, UInt64.toNat_inj.mp hlow, getFDELoop_wrapped hcount (by omega)]
          simp [outcome, ← hlow, htouch]
        · rw [if_neg hlow]
          have hone : (middleOf low high - 1).toNat = (middleOf low high).toNat - 1 := by
            rw [UInt64.toNat_sub_of_le _ _ (by rw [UInt64.le_iff_toNat_le]; simp; omega)]
            rfl
          rw [ih (by omega) (by omega) (by omega), hone]
          simp [outcome, htouch]
      · simp only [hb, if_false, decide_false, Bool.false_eq_true]
        have hle' := UInt64.not_lt.mp hb
        by_cases hend : fdes[(middleOf low high).toNat].high < pc
        · have htouch : touches fdes pc (middleOf low high).toNat = false := by
            simp [touches_inside hin, UInt64.not_le.mpr hend]
          have hone : (middleOf low high + 1).toNat = (middleOf low high).toNat + 1 := by
            rw [UInt64.toNat_add]
            simp
            omega
          rw [if_pos hend, ih (by omega) (by omega) (by omega), hone]
          simp [outcome, htouch]
        · have htouch : touches fdes pc (middleOf low high).toNat = true := by
            simp [touches_inside hin, hle', UInt64.not_lt.mp hend]
          simp [outcome, htouch, hend]
    · have hnot : ¬ 0 < high - low := by
        rw [UInt64.lt_iff_toNat_lt, hsub]
        simp
        omega
      rw [if_neg hnot, if_neg hlt]
      by_cases hin : low.toNat < fdes.length
      · rw [fdeAt_inside hin, bind_ok]
        simp only [outcome, List.find?_nil, hin, if_true, touches_inside hin, Bool.and_eq_true, decide_eq_true_eq]
        split <;> rfl
      · rw [fdeAt_outside (by omega)]
        simp [outcome, hin]

end Loop

/-! ## Exactly when the answer is right -/

section Sound
variable {fdes : List FDE} {pc : UInt64} {i j : Nat}

theorem getFDEForPC_eq (hcount : fdes.length < 2 ^ 24) : getFDEForPC fdes pc = outcome fdes pc (comesTo fdes pc) := by
  have hlen : (UInt64.ofNat fdes.length).toNat = fdes.length := UInt64.toNat_ofNat_of_lt' (by
    show _ < 2 ^ 64
    omega)
  have h := @getFDELoop_eq fdes pc 0 (UInt64.ofNat fdes.length) (fdes.length + 1) hcount (by simp) (by omega)
    (by simp; omega)
  rw [getFDEForPC, h, hlen]
  rfl

theorem touches_iff : touches fdes pc i = true ↔ Has fdes pc i ∨ EndsAt fdes pc i := by
  unfold touches Has EndsAt
  cases fdes[i]? with
  | none => simp
  | some fde =>
    simp only [Option.any_some, Bool.and_eq_true, decide_eq_true_eq, Option.some.injEq, exists_eq_left']
    constructor
    · rintro ⟨hlow, hhigh⟩
      rcases UInt64.lt_or_eq_of_le hhigh with h | h
      · exact .inl ⟨hlow, h⟩
      · exact .inr ⟨hlow, h.symm⟩
    · rintro (⟨hlow, h⟩ | ⟨hlow, h⟩)
      · exact ⟨hlow, UInt64.le_of_lt h⟩
      · exact ⟨hlow, h ▸ UInt64.le_refl _⟩

theorem Has.not_endsAt (h : Has fdes pc i) : ¬ EndsAt fdes pc i := by
  rintro ⟨fde, hfde, -, hend⟩
  obtain ⟨fde', hfde', -, hlt⟩ := h
  rw [hfde', Option.some.injEq] at hfde
  subst hfde
  rw [hend] at hlt
  exact UInt64.lt_irrefl _ hlt

theorem outcome_eq (search : List Nat × Option Nat) :
    outcome fdes pc search =
      match firstTouched fdes pc search with
      | some i => .ok (some i)
      | none => if ∃ l, search.2 = some l ∧ l < fdes.length then .ok none else .error .undefined := by
  obtain ⟨looked, last⟩ := search
  unfold outcome firstTouched
  cases hfind : looked.find? (touches fdes pc) with
  | some i => simp [hfind]
  | none =>
    cases last with
    | none => simp [hfind]
    | some l =>
      by_cases htouch : touches fdes pc l = true
      · have hl := touches_lt htouch
        simp [List.find?_append, hfind, htouch, hl]
      · simp [List.find?_append, hfind, htouch]

theorem findsFDE_iff_searchSound (hcount : fdes.length < 2 ^ 24) : FindsFDE fdes pc ↔ SearchSound fdes pc := by
  have hresult : getFDEForPC fdes pc = _ := getFDEForPC_eq hcount
  rw [outcome_eq] at hresult
  cases hfirst : firstTouched fdes pc (comesTo fdes pc) with
  | some i =>
    have htouch := touches_iff.mp (List.find?_some hfirst)
    simp only [hfirst] at hresult
    rw [FindsFDE, hresult]
    constructor
    · intro hhas
      refine ⟨fun j hj => ?_, fun h => ?_, fun _ _ => ?_⟩
      · rw [hfirst, Option.some.injEq] at hj
        exact hj ▸ hhas.not_endsAt
      · simp [hfirst] at h
      · simp [hfirst]
    · intro h
      exact htouch.resolve_right (h.first i hfirst)
  | none =>
    simp only [hfirst] at hresult
    by_cases hinside : ∃ l, (comesTo fdes pc).2 = some l ∧ l < fdes.length
    · rw [FindsFDE, hresult, if_pos hinside]
      constructor
      · intro hno
        refine ⟨fun j hj => ?_, fun _ => hinside, fun j hj => absurd hj (hno j)⟩
        simp [hfirst] at hj
      · intro h j hj
        exact h.meets j hj hfirst
    · rw [FindsFDE, hresult, if_neg hinside]
      exact ⟨False.elim, fun h => hinside (h.inside hfirst)⟩

/-! ## Ranges in order -/

theorem begun_cons (fde : FDE) : begun (fde :: fdes) pc = begun fdes pc + if fde.low ≤ pc then 1 else 0 := by
  simp [begun, List.countP_cons]

/-- In order, the first `begun` FDEs are those that begin at or before the pc. -/
theorem RangesInOrder.beyond_iff (h : RangesInOrder fdes) : beyond fdes pc i = true ↔ begun fdes pc ≤ i := by
  induction fdes generalizing i with
  | nil => simp [beyond, begun]
  | cons fde fdes ih =>
    obtain ⟨hbefore, hapart⟩ := List.pairwise_cons.mp h.apart
    have hrest : RangesInOrder fdes := ⟨fun x hx => h.proper x (List.mem_cons_of_mem _ hx), hapart⟩
    have hcons (j : Nat) : beyond (fde :: fdes) pc (j + 1) = beyond fdes pc j := rfl
    rw [begun_cons]
    by_cases hlow : fde.low ≤ pc
    · rw [if_pos hlow]
      cases i with
      | zero => simp [beyond, hlow]
      | succ j =>
        rw [hcons, ih hrest]
        omega
    · -- none of those after it has begun
      have hnone : begun fdes pc = 0 := by
        rw [begun, List.countP_eq_zero]
        intro x hx
        have := UInt64.lt_of_lt_of_le (h.proper fde List.mem_cons_self) (hbefore x hx)
        simp only [decide_eq_true_eq]
        intro hle
        exact hlow (UInt64.le_trans (UInt64.le_of_lt this) hle)
      rw [if_neg hlow, hnone]
      cases i with
      | zero => simp [beyond, UInt64.not_le.mp hlow]
      | succ j =>
        rw [hcons, ih hrest, hnone]
        simp

theorem RangesInOrder.comesTo_eq (h : RangesInOrder fdes) : comesTo fdes pc = halved fdes.length (begun fdes pc) := by
  have hbeyond : beyond fdes pc = fun i => decide (begun fdes pc ≤ i) := by
    funext i
    rw [Bool.eq_iff_iff, h.beyond_iff, decide_eq_true_eq]
  rw [comesTo, halved, hbeyond]

theorem begun_le : begun fdes pc ≤ fdes.length := List.countP_le_length

theorem RangesInOrder.halved_ends (h : RangesInOrder fdes) {l : Nat} (hl : (comesTo fdes pc).2 = some l) :
    l = begun fdes pc ∨ l + 1 = begun fdes pc :=
  halving_ends (fun _ => h.beyond_iff) (Nat.zero_le _) (Nat.le_succ_of_le begun_le) (Nat.zero_le _)
    (Nat.lt_succ_self _) l hl

/-- The last FDE to begin at or before the pc is always come to. -/
theorem RangesInOrder.comes_to_last (h : RangesInOrder fdes) (hlast : begun fdes pc = i + 1) :
    i ∈ (comesTo fdes pc).1 ++ (comesTo fdes pc).2.toList := by
  have hle : begun fdes pc ≤ fdes.length := begun_le
  rw [List.mem_append, Option.mem_toList]
  apply halving_meets (t := i) _ (Nat.zero_le _) (by omega) (Nat.lt_succ_self _)
  intro j
  rw [h.beyond_iff, hlast]

theorem RangesInOrder.low_le_iff (h : RangesInOrder fdes) (hi : i < fdes.length) :
    fdes[i].low ≤ pc ↔ i < begun fdes pc := by
  have hb : beyond fdes pc i = true ↔ _ := h.beyond_iff
  rw [beyond_inside hi, decide_eq_true_eq] at hb
  rw [← UInt64.not_lt, hb, Nat.not_le]

theorem RangesInOrder.high_le (h : RangesInOrder fdes) (hij : i < j) (hj : j < fdes.length) : fdes[i].high ≤ fdes[j].low :=
  List.pairwise_iff_getElem.mp h.apart i j (by omega) hj hij

theorem Has.inside (h : Has fdes pc i) : ∃ hi : i < fdes.length, fdes[i].low ≤ pc ∧ pc < fdes[i].high := by
  obtain ⟨fde, hfde, hrange⟩ := h
  obtain ⟨hi, rfl⟩ := List.getElem?_eq_some_iff.mp hfde
  exact ⟨hi, hrange⟩

theorem EndsAt.inside (h : EndsAt fdes pc i) : ∃ hi : i < fdes.length, fdes[i].low ≤ pc ∧ fdes[i].high = pc := by
  obtain ⟨fde, hfde, hrange⟩ := h
  obtain ⟨hi, rfl⟩ := List.getElem?_eq_some_iff.mp hfde
  exact ⟨hi, hrange⟩

/-- In order, the FDE that has the pc is the last to begin at or before it. -/
theorem RangesInOrder.begun_of_has (h : RangesInOrder fdes) (hhas : Has fdes pc i) : begun fdes pc = i + 1 := by
  obtain ⟨hi, hlow, hhigh⟩ := hhas.inside
  have hbegun := (h.low_le_iff hi).mp hlow
  have hle : begun fdes pc ≤ fdes.length := begun_le
  by_contra hne
  have hnext : i + 1 < fdes.length := by omega
  have hlow' : fdes[i + 1].low ≤ pc := (h.low_le_iff hnext).mpr (by omega)
  have := UInt64.lt_of_lt_of_le hhigh (h.high_le (Nat.lt_succ_self i) hnext)
  exact UInt64.not_lt.mpr hlow' this

/-- **One that ends at the pc** is the last to begin before it, unless the next begins there and has it. -/
theorem RangesInOrder.begun_of_endsAt (h : RangesInOrder fdes) (hend : EndsAt fdes pc i) :
    begun fdes pc = i + 1 ∨ Has fdes pc (i + 1) := by
  obtain ⟨hi, hlow, hhigh⟩ := hend.inside
  have hbegun := (h.low_le_iff hi).mp hlow
  have hle : begun fdes pc ≤ fdes.length := begun_le
  by_cases hlast : begun fdes pc = i + 1
  · exact .inl hlast
  · have hnext : i + 1 < fdes.length := by omega
    have hproper := h.proper _ (List.getElem_mem hnext)
    have hstart : pc ≤ fdes[i + 1].low := hhigh ▸ h.high_le (Nat.lt_succ_self i) hnext
    have hlow' : fdes[i + 1].low ≤ pc := (h.low_le_iff hnext).mpr (by omega)
    exact .inr ⟨_, List.getElem?_eq_getElem hnext, hlow', UInt64.lt_of_le_of_lt hstart hproper⟩

theorem RangesInOrder.rangesSound (h : RangesInOrder fdes) (hsound : SearchSound fdes pc) : RangesSound fdes pc where
  covered i hhas hend hlooked := by
    rw [← h.comesTo_eq] at hlooked
    cases hfirst : firstTouched fdes pc (comesTo fdes pc) with
    | none => exact hsound.meets _ hhas hfirst
    | some j =>
      have hhas' := (touches_iff.mp (List.find?_some hfirst)).resolve_right (hsound.first j hfirst)
      have hj : j = i + 1 := by
        have h₁ := h.begun_of_has hhas'
        have h₂ := h.begun_of_has hhas
        omega
      -- the end is met after `i + 1`, and what is met after it lies to its right
      obtain ⟨htouch, before, after, hpath, hbefore⟩ := List.find?_eq_some_iff_append.mp hfirst
      have hi : i ∈ before ++ j :: after := hpath ▸ List.mem_append_left _ hlooked
      have htouch' := touches_iff.mpr (.inr hend)
      have horder := @halving_rightward (beyond fdes pc) 0 fdes.length (fdes.length + 1)
      rw [← comesTo, hpath] at horder
      rcases List.mem_append.mp hi with hi | hi
      · have := hbefore i hi
        simp [htouch'] at this
      · rcases List.mem_cons.mp hi with hi | hi
        · omega
        · have hbelow : beyond fdes pc j = false := by
            rw [Bool.eq_false_iff, Ne, h.beyond_iff, h.begun_of_has hhas']
            omega
          have := (List.pairwise_cons.mp (List.pairwise_append.mp horder).2.1).1 i hi hbelow
          omega
  uncovered hno := by
    have hnone : firstTouched fdes pc (comesTo fdes pc) = none := by
      cases hfirst : firstTouched fdes pc (comesTo fdes pc) with
      | none => rfl
      | some j => exact absurd ((touches_iff.mp (List.find?_some hfirst)).resolve_left (hno j)) (hsound.first j hfirst)
    refine ⟨fun i hend => ?_, ?_⟩
    · have hlast := (h.begun_of_endsAt hend).resolve_right (hno _)
      exact List.find?_eq_none.mp hnone i (h.comes_to_last hlast) (touches_iff.mpr (.inr hend))
    · rw [← h.comesTo_eq]
      exact hsound.inside hnone

theorem RangesInOrder.searchSound (h : RangesInOrder fdes) (hsound : RangesSound fdes pc) : SearchSound fdes pc := by
  have hmeets : ∀ i, Has fdes pc i → firstTouched fdes pc (comesTo fdes pc) ≠ none := fun i hhas hnone =>
    List.find?_eq_none.mp hnone i (h.comes_to_last (h.begun_of_has hhas)) (touches_iff.mpr (.inl hhas))
  refine ⟨fun i hfirst hend => ?_, fun hnone => ?_, hmeets⟩
  · by_cases hno : ∀ k, ¬ Has fdes pc k
    · exact (hsound.uncovered hno).1 i hend
    · obtain ⟨k, hk⟩ := not_forall_not.mp hno
      have hbegun := h.begun_of_has hk
      have hnext : Has fdes pc (i + 1) := by
        rcases h.begun_of_endsAt hend with hlast | hnext
        · have hik : i = k := by omega
          exact absurd hend (hik ▸ hk.not_endsAt)
        · exact hnext
      have hlast := h.begun_of_has hnext
      rcases List.mem_append.mp (List.mem_of_find?_eq_some hfirst) with hmem | hmem
      · exact hsound.covered i hnext hend (h.comesTo_eq ▸ hmem)
      · -- the halving ends at the FDE that has the pc, or behind it
        have := h.halved_ends (Option.mem_toList.mp hmem)
        omega
  · by_cases hno : ∀ k, ¬ Has fdes pc k
    · rw [h.comesTo_eq]
      exact (hsound.uncovered hno).2
    · obtain ⟨k, hk⟩ := not_forall_not.mp hno
      exact absurd hnone (hmeets k hk)

/-- **When the FDE of a pc is found**: for any array in terms of what the halving comes to, and for ranges in order
in terms of the numbers of FDEs and of those begun by the pc. -/
theorem getFDEForPC_iff (hcount : fdes.length < 2 ^ 24) :
    (FindsFDE fdes pc ↔ SearchSound fdes pc) ∧ (RangesInOrder fdes → (FindsFDE fdes pc ↔ RangesSound fdes pc)) :=
  ⟨findsFDE_iff_searchSound hcount, fun h =>
    (findsFDE_iff_searchSound hcount).trans ⟨h.rangesSound, h.searchSound⟩⟩

/-- Two functions that share a boundary. -/
def adjoining : List FDE := [⟨0, [], 0x1000, 0x1100, false, 0, 0⟩, ⟨0, [], 0x1100, 0x1200, false, 0, 0⟩]

theorem adjoining_inOrder : RangesInOrder adjoining := ⟨by decide, by decide⟩

theorem getFDEForPC_adjoining : RangesInOrder adjoining ∧ FindsFDE adjoining 0x1100 := by
  refine ⟨adjoining_inOrder, ((getFDEForPC_iff (by decide)).2 adjoining_inOrder).mpr ?_⟩
  refine ⟨fun i hhas _ => ?_, fun hno => ?_⟩
  · have hi : i = 0 := by
      have := adjoining_inOrder.begun_of_has hhas
      have hbegun : begun adjoining 0x1100 = 2 := by decide
      omega
    subst hi
    decide
  · exact absurd ⟨_, rfl, by decide⟩ (hno 1)

/-- **A pc behind every FDE**: the probe after the loop is behind the array. -/
theorem getFDEForPC_behind (hcount : fdes.length < 2 ^ 24) (hbehind : ∀ fde ∈ fdes, fde.low ≤ pc ∧ fde.high < pc) :
    getFDEForPC fdes pc = .error .undefined := by
  have hend : (comesTo fdes pc).2 = some fdes.length := by
    apply halving_behind _ (Nat.zero_le _) (Nat.lt_succ_self _)
    intro i hi
    have := (hbehind _ (List.getElem_mem hi)).1
    simp [beyond_inside hi, this]
  have hnone : firstTouched fdes pc (comesTo fdes pc) = none := by
    refine List.find?_eq_none.mpr fun i _ htouch => ?_
    have hi := touches_lt htouch
    have := (hbehind _ (List.getElem_mem hi)).2
    simp [touches_inside hi, UInt64.not_le.mpr this] at htouch
  rw [getFDEForPC_eq hcount, outcome_eq, hnone]
  simp [hend]

/-- One function, and a pc behind it. -/
theorem not_findsFDE :
    ¬ ∀ (fdes : List FDE) (pc : UInt64), fdes.length < 2 ^ 24 → RangesInOrder fdes → FindsFDE fdes pc := by
  intro h
  have hfinds := h [⟨0, [], 0x1000, 0x1100, false, 0, 0⟩] 0x2000 (by decide) ⟨by decide, by decide⟩
  have hresult : getFDEForPC [⟨0, [], 0x1000, 0x1100, false, 0, 0⟩] 0x2000 = .error .undefined := by decide
  rw [FindsFDE, hresult] at hfinds
  exact hfinds

end Sound

end Katana

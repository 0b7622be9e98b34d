/-
  Katana.StopLocation — where `evaluateInstructionsToRules` stops (dwarfvm.c).

  The rules at an address are those of the longest prefix of the instructions that does not move beyond it.
  An advance moves by its delta times the code alignment factor. The loop tests with the delta alone, adds
  and compares words, and has no case for `DW_CFA_advance_loc4`.

  Proved, for every instruction list, start and stop:
  - `within_longest`: the prefix the rules are those of.
  - `stopsAt_iff`: the loop applies that prefix and returns its location exactly when its tests agree.
-/
import Katana.Remember
import Katana.Target

namespace Katana

/-! ## The prefix that does not move beyond the stop location -/

def movesTo (codeAlign : UInt64) (inst : RegInstruction) (loc : Int) : Option Int :=
  match inst.type with
  | .setLoc => some inst.arg1.toNat
  | .advanceLoc | .advanceLoc1 | .advanceLoc2 | .advanceLoc4 => some (loc + inst.arg1.toNat * codeAlign.toNat)
  | _ => none

def runningLocations (codeAlign : UInt64) : List RegInstruction → Int → List Int
  | [], _ => []
  | inst :: instrs, loc =>
    match movesTo codeAlign inst loc with
    | none => runningLocations codeAlign instrs loc
    | some next => next :: runningLocations codeAlign instrs next

/-- A negative stop location is ignored. -/
def NotBeyond (stopLocation : Int32) (loc : Int) : Prop := stopLocation.toInt < 0 ∨ loc ≤ stopLocation.toInt

instance (stopLocation : Int32) (loc : Int) : Decidable (NotBeyond stopLocation loc) :=
  inferInstanceAs (Decidable (_ ∨ _))

/-- The longest prefix whose locations are not beyond the stop location. -/
def within (codeAlign : UInt64) (stopLocation : Int32) : List RegInstruction → Int → List RegInstruction
  | [], _ => []
  | inst :: instrs, loc =>
    match movesTo codeAlign inst loc with
    | none => inst :: within codeAlign stopLocation instrs loc
    | some next => if NotBeyond stopLocation next then inst :: within codeAlign stopLocation instrs next else []

def lastLocation (codeAlign : UInt64) (instrs : List RegInstruction) (loc : Int) : Int :=
  (runningLocations codeAlign instrs loc).getLast?.getD loc

section
variable {codeAlign : UInt64} {stopLocation : Int32}

theorem within_prefix (instrs : List RegInstruction) (loc : Int) : within codeAlign stopLocation instrs loc <+: instrs := by
  induction instrs generalizing loc with
  | nil => exact List.prefix_refl _
  | cons inst instrs ih =>
    unfold within
    cases movesTo codeAlign inst loc with
    | none => exact List.cons_prefix_cons.mpr ⟨rfl, ih loc⟩
    | some next =>
      dsimp only
      split
      · exact List.cons_prefix_cons.mpr ⟨rfl, ih next⟩
      · exact List.nil_prefix

theorem within_notBeyond (instrs : List RegInstruction) (loc : Int) :
    ∀ l ∈ runningLocations codeAlign (within codeAlign stopLocation instrs loc) loc, NotBeyond stopLocation l := by
  induction instrs generalizing loc with
  | nil =>
    intro l hl
    cases hl
  | cons inst instrs ih =>
    unfold within
    cases hmove : movesTo codeAlign inst loc with
    | none =>
      unfold runningLocations
      simp only [hmove]
      exact ih loc
    | some next =>
      dsimp only
      split
      · rename_i hnext
        unfold runningLocations
        simp only [hmove]
        exact List.forall_mem_cons.mpr ⟨hnext, ih next⟩
      · intro l hl
        cases hl

/-- No longer prefix has its locations there. -/
theorem within_longest {instrs pre : List RegInstruction} {loc : Int} (hpre : pre <+: instrs)
    (h : ∀ l ∈ runningLocations codeAlign pre loc, NotBeyond stopLocation l) :
    pre <+: within codeAlign stopLocation instrs loc := by
  induction instrs generalizing pre loc with
  | nil => exact hpre
  | cons inst instrs ih =>
    cases pre with
    | nil => exact List.nil_prefix
    | cons first pre =>
      obtain ⟨rfl, hrest⟩ := List.cons_prefix_cons.mp hpre
      unfold within
      unfold runningLocations at h
      cases hmove : movesTo codeAlign first loc with
      | none =>
        simp only [hmove] at h
        exact List.cons_prefix_cons.mpr ⟨rfl, ih hrest h⟩
      | some next =>
        simp only [hmove] at h
        obtain ⟨hnext, htail⟩ := List.forall_mem_cons.mp h
        dsimp only
        rw [if_pos hnext]
        exact List.cons_prefix_cons.mpr ⟨rfl, ih hrest htail⟩

end

/-! ## What the loop applies -/

/-- An instruction's effect on the rules; the location-advancing ones have none. -/
def applyInstruction (cie : CIE) (st : RuleState) (inst : RegInstruction) : Except Fault RuleState :=
  match movesTo cie.codeAlign inst 0 with
  | some _ => .ok st
  | none => evaluateInstruction cie inst st

/-- The instructions the loop gets through before it stops. -/
def gotThrough (codeAlign : UInt64) (stopLocation : Int32) : List RegInstruction → Int32 → List RegInstruction
  | [], _ => []
  | inst :: instrs, loc =>
    match advance codeAlign stopLocation inst loc with
    | .stop => []
    | .move next => inst :: gotThrough codeAlign stopLocation instrs next
    | .other => inst :: gotThrough codeAlign stopLocation instrs loc

/-- The loop gets through the longest prefix, leaves its rules, and returns the last location. -/
structure StopsAt (cie : CIE) (instrs : List RegInstruction) (rules : Dictionary PoRegRule)
    (stateStack : List (Dictionary PoRegRule)) (startLocation stopLocation : Int32) : Prop where
  through : gotThrough cie.codeAlign stopLocation instrs startLocation =
    within cie.codeAlign stopLocation instrs startLocation.toInt
  result : ∃ st loc, (within cie.codeAlign stopLocation instrs startLocation.toInt).foldlM (applyInstruction cie)
      ⟨rules, stateStack, startLocation⟩ = .ok st ∧
    evaluateInstructionsToRules cie instrs rules stateStack startLocation stopLocation = .ok { st with loc } ∧
    loc.toInt = lastLocation cie.codeAlign (within cie.codeAlign stopLocation instrs startLocation.toInt) startLocation.toInt

/-- The location the loop tests: an advance's delta alone is added, as a word. -/
def testedLocation (inst : RegInstruction) (loc : Int) : Int :=
  if inst.type = .setLoc then inst.arg1.toNat else (loc + inst.arg1.toNat) % 2 ^ 64

/-- Every location-advancing instruction that is come to has a case, and its test agrees; the last location is an int. -/
def TestsAgree (codeAlign : UInt64) (stopLocation : Int32) : List RegInstruction → Int → Prop
  | [], loc => -2 ^ 31 ≤ loc ∧ loc < 2 ^ 31
  | inst :: instrs, loc =>
    match movesTo codeAlign inst loc with
    | none => TestsAgree codeAlign stopLocation instrs loc
    | some next =>
      inst.type ≠ .advanceLoc4 ∧ (NotBeyond stopLocation (testedLocation inst loc) ↔ NotBeyond stopLocation next) ∧
      (NotBeyond stopLocation next → TestsAgree codeAlign stopLocation instrs next)

/-! ## The words and ints of the loop -/

theorem toInt32_ofNat (x : UInt64) : x.toUInt32.toInt32 = Int32.ofInt x.toNat := by
  apply Int32.toBitVec.inj
  apply BitVec.eq_of_toNat_eq
  rw [Int32.toBitVec_ofInt, BitVec.ofInt_natCast, BitVec.toNat_ofNat]
  rfl

theorem toUInt64_toInt32 (b : Int32) : b.toInt64.toUInt64.toUInt32.toInt32 = b := by
  apply Int32.toBitVec.inj
  apply BitVec.eq_of_toNat_eq
  have hval := toUInt64_toNat b
  have hcond := BitVec.toInt_eq_toNat_cond b.toBitVec
  have hint : b.toBitVec.toInt = b.toInt := rfl
  have hlt := b.toBitVec.isLt
  have hnat : b.toInt64.toUInt64.toUInt32.toInt32.toBitVec.toNat = b.toInt64.toUInt64.toNat % 2 ^ 32 :=
    UInt64.toNat_toUInt32 _
  rw [hint] at hcond
  rw [hnat]
  split at hval <;> split at hcond <;> omega

/-- The sum is one of words, of which the int keeps the low half. -/
theorem advanced_ofInt (loc : Int32) (arg codeAlign : UInt64) :
    (loc.toInt64.toUInt64 + arg * codeAlign).toUInt32.toInt32 = Int32.ofInt (loc.toInt + arg.toNat * codeAlign.toNat) := by
  rw [UInt64.toUInt32_add, UInt64.toUInt32_mul, UInt32.toInt32_add, UInt32.toInt32_mul, toUInt64_toInt32, toInt32_ofNat,
    toInt32_ofNat, Int32.ofInt_add, Int32.ofInt_mul, Int32.ofInt_toInt]

theorem tested_toNat (loc : Int32) (arg : UInt64) :
    ((loc.toInt64.toUInt64 + arg).toNat : Int) = (loc.toInt + arg.toNat) % 2 ^ 64 := by
  have hval := toUInt64_toNat loc
  rw [UInt64.toNat_add]
  split at hval <;> omega

/-! ## One instruction -/

section
variable {codeAlign : UInt64} {stopLocation loc : Int32} {inst : RegInstruction} {here next : Int}

/-- The loop's int keeps the low bits of the location, and all of it while there is a stop location. -/
structure Tracks (stopLocation loc : Int32) (here : Int) : Prop where
  low : loc = Int32.ofInt here
  exact : 0 ≤ stopLocation.toInt → loc.toInt = here

theorem movesTo_cases (h : movesTo codeAlign inst here = some next) :
    inst.type = .setLoc ∧ next = inst.arg1.toNat ∨
      (inst.type = .advanceLoc ∨ inst.type = .advanceLoc1 ∨ inst.type = .advanceLoc2 ∨ inst.type = .advanceLoc4) ∧
        next = here + inst.arg1.toNat * codeAlign.toNat := by
  unfold movesTo at h
  split at h
  · cases h
    exact .inl ⟨‹_›, rfl⟩
  · cases h
    exact .inr ⟨.inl ‹_›, rfl⟩
  · cases h
    exact .inr ⟨.inr (.inl ‹_›), rfl⟩
  · cases h
    exact .inr ⟨.inr (.inr (.inl ‹_›)), rfl⟩
  · cases h
    exact .inr ⟨.inr (.inr (.inr ‹_›)), rfl⟩
  · cases h

theorem advance_other (h : movesTo codeAlign inst here = none) : advance codeAlign stopLocation inst loc = .other := by
  unfold movesTo at h
  unfold advance
  cases htype : inst.type <;> simp only [htype] at h ⊢ <;> cases h

theorem advance_four (h : inst.type = .advanceLoc4) : advance codeAlign stopLocation inst loc = .other := by
  unfold advance
  simp only [h]

theorem word_gt_iff (x : UInt64) :
    (0 ≤ stopLocation ∧ x > stopLocation.toInt64.toUInt64) ↔ ¬ NotBeyond stopLocation x.toNat := by
  have hval := toUInt64_toNat stopLocation
  unfold NotBeyond
  rw [Int32.le_iff_toInt_le, gt_iff_lt, UInt64.lt_iff_toNat_lt, Int32.toInt_zero]
  split at hval <;> omega

/-- The loop tests one location and moves to another. -/
theorem advance_eq (hloc : Tracks stopLocation loc here) (hmove : movesTo codeAlign inst here = some next)
    (hfour : inst.type ≠ .advanceLoc4) :
    advance codeAlign stopLocation inst loc =
      if NotBeyond stopLocation (testedLocation inst loc.toInt) then .move (Int32.ofInt next) else .stop := by
  rcases movesTo_cases hmove with hset | hadvance
  · obtain ⟨htype, rfl⟩ := hset
    unfold advance testedLocation
    simp only [htype, word_gt_iff, toInt32_ofNat, if_true, ite_not]
  · obtain ⟨htype, rfl⟩ := hadvance
    have hnext : (loc.toInt64.toUInt64 + inst.arg1 * codeAlign).toUInt32.toInt32 =
        Int32.ofInt (here + inst.arg1.toNat * codeAlign.toNat) := by
      rw [advanced_ofInt, Int32.ofInt_add, Int32.ofInt_toInt, hloc.low, Int32.ofInt_add]
    have hset : inst.type ≠ .setLoc := by
      rcases htype with h | h | h | h <;> rw [h] <;> decide
    unfold testedLocation
    rw [if_neg hset, ← tested_toNat]
    rcases htype with h | h | h | h
    · unfold advance
      simp only [h, word_gt_iff, hnext, ite_not]
    · unfold advance
      simp only [h, word_gt_iff, hnext, ite_not]
    · unfold advance
      simp only [h, word_gt_iff, hnext, ite_not]
    · exact absurd h hfour

theorem Tracks.tested (hloc : Tracks stopLocation loc here) (inst : RegInstruction) :
    NotBeyond stopLocation (testedLocation inst loc.toInt) ↔ NotBeyond stopLocation (testedLocation inst here) := by
  by_cases hstop : 0 ≤ stopLocation.toInt
  · rw [hloc.exact hstop]
  · unfold NotBeyond
    simp [Int.not_le.mp hstop]

theorem movesTo_low (hfits : -2 ^ 31 ≤ here) (hmove : movesTo codeAlign inst here = some next) : -2 ^ 31 ≤ next := by
  rcases movesTo_cases hmove with hset | hadvance
  · rw [hset.2]
    exact Int.le_trans (by decide) (Int.natCast_nonneg _)
  · rw [hadvance.2]
    have hnonneg : 0 ≤ (inst.arg1.toNat : Int) * codeAlign.toNat :=
      Int.mul_nonneg (Int.natCast_nonneg _) (Int.natCast_nonneg _)
    omega

/-- A location that is not beyond the stop location is an int. -/
theorem Tracks.move (hloc : Tracks stopLocation loc here) (hmove : movesTo codeAlign inst here = some next)
    (hnext : NotBeyond stopLocation next) : Tracks stopLocation (Int32.ofInt next) next := by
  refine ⟨rfl, ?_⟩
  intro hstop
  have hhigh := stopLocation.toInt_lt
  have hlow : -2 ^ 31 ≤ here := by
    rw [← hloc.exact hstop]
    exact loc.le_toInt
  apply Int32.toInt_ofInt_of_le (movesTo_low hlow hmove)
  unfold NotBeyond at hnext
  omega

theorem Tracks.toInt_iff (hloc : Tracks stopLocation loc here) : loc.toInt = here ↔ -2 ^ 31 ≤ here ∧ here < 2 ^ 31 := by
  refine ⟨?_, ?_⟩
  · intro h
    rw [← h]
    exact ⟨loc.le_toInt, loc.toInt_lt⟩
  · intro h
    rw [hloc.low]
    exact Int32.toInt_ofInt_of_le h.1 h.2

end

/-! ## The whole loop -/

section
variable {cie : CIE} {stopLocation : Int32}

theorem lastLocation_other {codeAlign : UInt64} {inst : RegInstruction} {here : Int} (h : movesTo codeAlign inst here = none)
    (instrs : List RegInstruction) : lastLocation codeAlign (inst :: instrs) here = lastLocation codeAlign instrs here := by
  unfold lastLocation
  rw [runningLocations, h]

theorem lastLocation_move {codeAlign : UInt64} {inst : RegInstruction} {here next : Int}
    (h : movesTo codeAlign inst here = some next) (instrs : List RegInstruction) :
    lastLocation codeAlign (inst :: instrs) here = lastLocation codeAlign instrs next := by
  unfold lastLocation
  rw [runningLocations, h]
  simp only [List.getLast?_cons, Option.getD_some]

/-- Whether an instruction moves the location does not depend on the location. -/
theorem movesTo_isSome (codeAlign : UInt64) (inst : RegInstruction) (here there : Int) :
    (movesTo codeAlign inst here).isSome = (movesTo codeAlign inst there).isSome := by
  unfold movesTo
  cases inst.type <;> rfl

theorem applyInstruction_move {inst : RegInstruction} {here next : Int} (h : movesTo cie.codeAlign inst here = some next)
    (st : RuleState) : applyInstruction cie st inst = .ok st := by
  have hsome := movesTo_isSome cie.codeAlign inst here 0
  rw [h] at hsome
  unfold applyInstruction
  cases hzero : movesTo cie.codeAlign inst 0 with
  | none =>
    rw [hzero] at hsome
    cases hsome
  | some l => rfl

theorem applyInstruction_other {inst : RegInstruction} {here : Int} (h : movesTo cie.codeAlign inst here = none)
    (st : RuleState) : applyInstruction cie st inst = evaluateInstruction cie inst st := by
  have hsome := movesTo_isSome cie.codeAlign inst here 0
  rw [h] at hsome
  unfold applyInstruction
  cases hzero : movesTo cie.codeAlign inst 0 with
  | none => rfl
  | some l =>
    rw [hzero] at hsome
    cases hsome

/-- The location is not looked at. -/
theorem evaluateInstruction_at (inst : RegInstruction) (st : RuleState) (loc : Int32) :
    evaluateInstruction cie inst { st with loc } =
      evaluateInstruction cie inst st >>= fun st => .ok { st with loc } := by
  unfold evaluateInstruction
  split
  · rfl
  · cases st.stateStack with
    | nil => rfl
    | cons savedRules stateStack =>
      dsimp only
      cases (dictKeys savedRules).foldlM (restoreKey savedRules) st.rules with
      | error e => rfl
      | ok rules => rfl
  · dsimp only
    cases strForReg (ruleRegister inst) with
    | error e => rfl
    | ok str =>
      simp only [bind_ok]
      cases dictGet st.rules str with
      | some rule =>
        dsimp only
        cases setRule cie inst rule with
        | error e => rfl
        | ok rule => rfl
      | none =>
        dsimp only
        cases dictInsert st.rules str (.blank (ruleRegister inst)) with
        | error e => rfl
        | ok rules =>
          simp only [bind_ok]
          cases setRule cie inst (.blank (ruleRegister inst)) with
          | error e => rfl
          | ok rule => rfl

variable (cie) in
theorem evaluateInstruction_four {inst : RegInstruction} (h : inst.type = .advanceLoc4) (st : RuleState) :
    ∃ e, evaluateInstruction cie inst st = .error e := by
  have hset : ∀ rule, ∃ e, setRule cie inst rule = .error e := by
    intro rule
    unfold setRule
    simp only [h]
    exact ⟨_, rfl⟩
  unfold evaluateInstruction
  simp only [h]
  cases strForReg (ruleRegister inst) with
  | error e => exact ⟨e, rfl⟩
  | ok str =>
    rw [bind_ok]
    cases dictGet st.rules str with
    | some rule =>
      obtain ⟨e, he⟩ := hset rule
      exact ⟨e, by simp only [he, bind_error]⟩
    | none =>
      dsimp only
      cases dictInsert st.rules str (.blank (ruleRegister inst)) with
      | error e => exact ⟨e, rfl⟩
      | ok rules =>
        obtain ⟨e, he⟩ := hset (.blank (ruleRegister inst))
        exact ⟨e, by rw [bind_ok, he, bind_error]⟩

/-- The loop when its tests agree. -/
theorem evaluateLoop_within {instrs : List RegInstruction} {here : Int} {loc : Int32} {st st' : RuleState}
    (hloc : Tracks stopLocation loc here) (hagree : TestsAgree cie.codeAlign stopLocation instrs here)
    (hfold : (within cie.codeAlign stopLocation instrs here).foldlM (applyInstruction cie) st = .ok st') :
    gotThrough cie.codeAlign stopLocation instrs loc = within cie.codeAlign stopLocation instrs here ∧
    ∃ last done, evaluateLoop cie stopLocation instrs { st with loc } = .ok ({ st' with loc := last }, done) ∧
      last.toInt = lastLocation cie.codeAlign (within cie.codeAlign stopLocation instrs here) here := by
  induction instrs generalizing here loc st with
  | nil =>
    cases hfold
    exact ⟨rfl, loc, true, rfl, hloc.toInt_iff.mpr hagree⟩
  | cons inst instrs ih =>
    unfold TestsAgree at hagree
    unfold within at hfold ⊢
    unfold gotThrough evaluateLoop
    cases hmove : movesTo cie.codeAlign inst here with
    | none =>
      simp only [hmove, List.foldlM_cons, applyInstruction_other hmove, advance_other hmove] at hagree hfold ⊢
      obtain ⟨st1, h1, hfold⟩ := bind_eq_ok.mp hfold
      obtain ⟨hthrough, last, done, hloop, hlast⟩ := ih hloc hagree hfold
      refine ⟨congrArg _ hthrough, last, done, ?_, ?_⟩
      · rw [evaluateInstruction_at, h1]
        exact hloop
      · rw [lastLocation_other hmove]
        exact hlast
    | some next =>
      simp only [hmove] at hagree hfold ⊢
      obtain ⟨hfour, htest, hrest⟩ := hagree
      rw [advance_eq hloc hmove hfour]
      rw [← hloc.tested] at htest
      by_cases hnext : NotBeyond stopLocation next
      · rw [if_pos hnext] at hfold ⊢
        rw [if_pos (htest.mpr hnext)]
        rw [List.foldlM_cons, applyInstruction_move hmove, bind_ok] at hfold
        obtain ⟨hthrough, last, done, hloop, hlast⟩ := ih (hloc.move hmove hnext) (hrest hnext) hfold
        refine ⟨congrArg _ hthrough, last, done, hloop, ?_⟩
        rw [lastLocation_move hmove]
        exact hlast
      · rw [if_neg hnext] at hfold ⊢
        rw [if_neg (fun h => hnext (htest.mp h))]
        cases hfold
        refine ⟨rfl, loc, false, rfl, hloc.exact ?_⟩
        apply Int.not_lt.mp
        intro hneg
        exact hnext (.inl hneg)

theorem testsAgree_of_stops {instrs : List RegInstruction} {here : Int} {loc last : Int32} {st st' : RuleState} {done : Bool}
    (hloc : Tracks stopLocation loc here)
    (hthrough : gotThrough cie.codeAlign stopLocation instrs loc = within cie.codeAlign stopLocation instrs here)
    (hloop : evaluateLoop cie stopLocation instrs { st with loc } = .ok ({ st' with loc := last }, done))
    (hlast : last.toInt = lastLocation cie.codeAlign (within cie.codeAlign stopLocation instrs here) here) :
    TestsAgree cie.codeAlign stopLocation instrs here := by
  induction instrs generalizing here loc st with
  | nil =>
    have hend : loc = last := congrArg RuleState.loc (Prod.mk.inj (Except.ok.inj hloop)).1
    rw [← hend] at hlast
    exact hloc.toInt_iff.mp hlast
  | cons inst instrs ih =>
    unfold TestsAgree
    unfold gotThrough within at hthrough
    unfold within at hlast
    unfold evaluateLoop at hloop
    cases hmove : movesTo cie.codeAlign inst here with
    | none =>
      simp only [hmove, advance_other hmove, lastLocation_other hmove] at hthrough hloop hlast ⊢
      rw [evaluateInstruction_at] at hloop
      obtain ⟨st1, h1, hloop⟩ := bind_eq_ok.mp hloop
      obtain ⟨st2, h2, h1⟩ := bind_eq_ok.mp h1
      cases h1
      exact ih hloc (List.cons_eq_cons.mp hthrough).2 hloop hlast
    | some next =>
      simp only [hmove] at hthrough hlast ⊢
      have hfour : inst.type ≠ .advanceLoc4 := by
        intro hfour
        obtain ⟨e, he⟩ := evaluateInstruction_four cie hfour { st with loc }
        simp only [advance_four hfour, he, bind_error] at hloop
        cases hloop
      simp only [advance_eq hloc hmove hfour] at hthrough hloop
      have htest := hloc.tested inst
      by_cases hnext : NotBeyond stopLocation next
      · rw [if_pos hnext] at hthrough hlast
        by_cases hpass : NotBeyond stopLocation (testedLocation inst loc.toInt)
        · rw [if_pos hpass] at hthrough hloop
          rw [lastLocation_move hmove] at hlast
          refine ⟨hfour, ⟨fun _ => hnext, fun _ => htest.mp hpass⟩, fun _ => ?_⟩
          exact ih (hloc.move hmove hnext) (List.cons_eq_cons.mp hthrough).2 hloop hlast
        · rw [if_neg hpass] at hthrough
          cases hthrough
      · refine ⟨hfour, ⟨fun hpass => ?_, fun h => absurd h hnext⟩, fun h => absurd h hnext⟩
        rw [if_neg hnext, if_pos (htest.mpr hpass)] at hthrough
        cases hthrough

end

/-- **The loop stops where the rules at the stop location end exactly when its tests agree.** -/
theorem stopsAt_iff (cie : CIE) (instrs : List RegInstruction) (rules : Dictionary PoRegRule)
    (stateStack : List (Dictionary PoRegRule)) (startLocation stopLocation : Int32) {st : RuleState}
    (hsupported : (within cie.codeAlign stopLocation instrs startLocation.toInt).foldlM (applyInstruction cie)
      ⟨rules, stateStack, startLocation⟩ = .ok st) :
    StopsAt cie instrs rules stateStack startLocation stopLocation ↔
      TestsAgree cie.codeAlign stopLocation instrs startLocation.toInt := by
  have hstart : Tracks stopLocation startLocation startLocation.toInt := ⟨(Int32.ofInt_toInt _).symm, fun _ => rfl⟩
  refine ⟨?_, ?_⟩
  · intro h
    obtain ⟨st1, last, -, hrun, hlast⟩ := h.result
    unfold evaluateInstructionsToRules at hrun
    obtain ⟨r, hloop, hrun⟩ := bind_eq_ok.mp hrun
    rcases r with ⟨st2, done⟩
    have hinit : evaluateLoop cie stopLocation instrs
      { RuleState.mk rules stateStack startLocation with loc := startLocation } =
        .ok (st2, done) := hloop
    cases hrun
    exact testsAgree_of_stops hstart h.through hinit hlast
  · intro h
    obtain ⟨hthrough, last, done, hloop, hlast⟩ := evaluateLoop_within hstart h hsupported
    refine ⟨hthrough, st, last, hsupported, ?_, hlast⟩
    unfold evaluateInstructionsToRules
    rw [hloop]
    rfl

/-- Two advances, of which the stop location allows the first. -/
theorem stopsAt_advances :
    StopsAt exampleCIE [⟨.advanceLoc, 2, [], .zero, 0, .zero, 0⟩, ⟨.advanceLoc1, 3, [], .zero, 0, .zero, 0⟩]
      (dictCreate 100) [] 0 4 ↔
      TestsAgree 1 4 [⟨.advanceLoc, 2, [], .zero, 0, .zero, 0⟩, ⟨.advanceLoc1, 3, [], .zero, 0, .zero, 0⟩] 0 :=
  stopsAt_iff exampleCIE _ (dictCreate 100) [] 0 4 rfl

/-- A code alignment of four: the delta is before the stop location and the location behind it. -/
theorem not_stopsAt : ¬ ∀ (cie : CIE) (instrs : List RegInstruction) (rules : Dictionary PoRegRule)
    (stateStack : List (Dictionary PoRegRule)) (startLocation stopLocation : Int32) (st : RuleState),
    (within cie.codeAlign stopLocation instrs startLocation.toInt).foldlM (applyInstruction cie)
      ⟨rules, stateStack, startLocation⟩ = .ok st →
    ∃ loc, evaluateInstructionsToRules cie instrs rules stateStack startLocation stopLocation = .ok { st with loc } ∧
      loc.toInt = lastLocation cie.codeAlign
        (within cie.codeAlign stopLocation instrs startLocation.toInt) startLocation.toInt := by
  intro h
  obtain ⟨loc, hrun, hlast⟩ := h { exampleCIE with codeAlign := 4 } [⟨.advanceLoc, 2, [], .zero, 0, .zero, 0⟩]
    (dictCreate 100) [] 0 4
    ⟨dictCreate 100, [], 0⟩ rfl
  have hcode : evaluateInstructionsToRules { exampleCIE with codeAlign := 4 }
      [⟨.advanceLoc, 2, [], .zero, 0, .zero, 0⟩] (dictCreate 100) [] 0 4 = .ok ⟨dictCreate 100, [], 8⟩ := rfl
  have hloc : (8 : Int32) = loc := congrArg RuleState.loc (Except.ok.inj (hcode.symm.trans hrun))
  rw [← hloc] at hlast
  exact absurd hlast (by decide)

end Katana

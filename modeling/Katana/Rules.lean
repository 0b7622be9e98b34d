/-
  Katana.Rules — register rules (register.h) and `evaluateInstructionsToRules` (dwarfvm.c): the
  instructions of an FDE build up a dictionary from register names to rules.

  Proved, for every instruction list and state:
  - `evaluateLoop_location`: the loop comes to the end exactly when the locations do.
  - `evaluateInstruction_rule`: an instruction that sets a rule leaves the stack alone and adds its
    register to the keys.
  - `evaluateInstruction_restore`: a restore gives the remembered keys their rules back, and leaves the others.
-/
import Katana.CallFrameInfo
import Katana.Dictionary

namespace Katana

/-! ## Rules -/

inductive RuleType where
  | undef | offset | register | cfa | expr | recurseFixup | recurseFixupPointer | undefined
  deriving DecidableEq, Repr

structure PoRegRule where
  regLH : PoReg
  type : RuleType
  regRH : PoReg
  offset : Int32
  index : UInt64
  deriving DecidableEq, Repr

/-- A rule with every byte zero but its left-hand side. -/
def PoRegRule.blank (regLH : PoReg) : PoRegRule := ⟨regLH, .undef, .zero, 0, 0⟩

def duplicatePoRegRule (rule : PoRegRule) : PoRegRule := rule

/-! ## evaluateInstructionsToRules -/

inductive Advance where
  | stop
  | move (loc : Int32)
  | other
  deriving DecidableEq, Repr

/-- `loc` is an int that is added to and compared as a word; a negative `stopLocation` is ignored. -/
def advance (codeAlign : UInt64) (stopLocation : Int32) (inst : RegInstruction) (loc : Int32) : Advance :=
  match inst.type with
  | .setLoc =>
    if 0 ≤ stopLocation ∧ inst.arg1 > stopLocation.toInt64.toUInt64 then .stop
    else .move inst.arg1.toUInt32.toInt32
  | .advanceLoc | .advanceLoc1 | .advanceLoc2 =>
    if 0 ≤ stopLocation ∧ loc.toInt64.toUInt64 + inst.arg1 > stopLocation.toInt64.toUInt64 then .stop
    else .move (loc.toInt64.toUInt64 + inst.arg1 * codeAlign).toUInt32.toInt32
  | _ => .other

structure RuleState where
  rules : Dictionary PoRegRule
  stateStack : List (Dictionary PoRegRule)
  loc : Int32

/-- The register whose rule an instruction sets. -/
def ruleRegister (inst : RegInstruction) : PoReg :=
  match inst.type with
  | .defCfa | .defCfaRegister | .defCfaOffset => ⟨.cfa, 0, 0⟩
  | _ => inst.arg1Reg

/-- The rule an instruction makes of a register's rule. -/
def setRule (cie : CIE) (inst : RegInstruction) (rule : PoRegRule) : Except Fault PoRegRule :=
  match inst.type with
  | .undefined => .ok { rule with type := .undef }
  | .offset =>
    .ok { rule with type := .offset, offset := (inst.arg2 * cie.dataAlign.toUInt64).toUInt32.toInt32 }
  | .register => .ok { rule with type := .register, regRH := inst.arg2Reg }
  | .defCfa => .ok { rule with type := .cfa, regRH := inst.arg1Reg, offset := inst.arg2.toUInt32.toInt32 }
  | .defCfaRegister => .ok { rule with type := .cfa, regRH := inst.arg1Reg }
  | .defCfaOffset => .ok { rule with type := .cfa, offset := inst.arg1.toUInt32.toInt32 }
  | .restore =>
    -- the name that is looked up in the CIE's rules has been freed
    .error .undefined
  | .katanaFixups => .ok { rule with type := .recurseFixup, regRH := inst.arg2Reg, index := inst.arg3 }
  | .katanaFixupsPointer => .ok { rule with type := .recurseFixupPointer, regRH := inst.arg2Reg, index := inst.arg3 }
  | .expression | .valExpression | .nop => .ok rule
  | type => .error (.death ("unexpected instruction 0x" ++ hex type.code ++ " in dwarfvm evaluateInstructions"))

def restoreKey (savedRules rules : Dictionary PoRegRule) (key : String) : Except Fault (Dictionary PoRegRule) :=
  match dictGet savedRules key with
  | none => .error .assertion
  | some savedRule =>
    match dictGet rules key with
    | some _ => .ok (dictAssign rules key savedRule)
    | none => dictInsert rules key (duplicatePoRegRule savedRule)

def restoreWithoutRemember : Fault :=
  .death "Attempt to use DW_CFA_restore_state without using DW_CFA_remember_state\n"

def evaluateInstruction (cie : CIE) (inst : RegInstruction) (st : RuleState) : Except Fault RuleState := do
  match inst.type with
  | .rememberState => .ok { st with stateStack := dictDuplicate st.rules duplicatePoRegRule :: st.stateStack }
  | .restoreState =>
    match st.stateStack with
    | [] => .error restoreWithoutRemember
    | savedRules :: stateStack =>
      let rules ← (dictKeys savedRules).foldlM (restoreKey savedRules) st.rules
      .ok { st with rules, stateStack }
  | _ =>
    let reg := ruleRegister inst
    let str ← strForReg reg
    match dictGet st.rules str with
    | some rule =>
      let rule ← setRule cie inst rule
      .ok { st with rules := dictAssign st.rules str rule }
    | none =>
      let rules ← dictInsert st.rules str (.blank reg)
      let rule ← setRule cie inst (.blank reg)
      .ok { st with rules := dictAssign rules str rule }

def evaluateLoop (cie : CIE) (stopLocation : Int32) : List RegInstruction → RuleState → Except Fault (RuleState × Bool)
  | [], st => .ok (st, true)
  | inst :: instrs, st =>
    match advance cie.codeAlign stopLocation inst st.loc with
    | .stop => .ok (st, false)
    | .move loc => evaluateLoop cie stopLocation instrs { st with loc }
    | .other => do
      let st ← evaluateInstruction cie inst st
      evaluateLoop cie stopLocation instrs st

def evaluateInstructionsToRules (cie : CIE) (instrs : List RegInstruction) (rules : Dictionary PoRegRule)
    (stateStack : List (Dictionary PoRegRule)) (startLocation stopLocation : Int32) : Except Fault RuleState := do
  let (st, _) ← evaluateLoop cie stopLocation instrs ⟨rules, stateStack, startLocation⟩
  .ok st

/-! ## Balanced bodies -/

/-- Every remembered state is restored again, in the order of a stack. -/
inductive Balanced : List RegInstruction → Prop
  | nil : Balanced []
  | inst {i : RegInstruction} {l : List RegInstruction} :
    i.type ≠ .rememberState → i.type ≠ .restoreState → Balanced l → Balanced (i :: l)
  | nest {i j : RegInstruction} {body l : List RegInstruction} :
    i.type = .rememberState → j.type = .restoreState → Balanced body → Balanced l → Balanced (i :: (body ++ j :: l))

/-- Where the location-advancing instructions lead; none when they pass the stop location. -/
def locationAfter (codeAlign : UInt64) (stopLocation : Int32) : List RegInstruction → Int32 → Option Int32
  | [], loc => some loc
  | inst :: instrs, loc =>
    match advance codeAlign stopLocation inst loc with
    | .stop => none
    | .move loc => locationAfter codeAlign stopLocation instrs loc
    | .other => locationAfter codeAlign stopLocation instrs loc

def ruleName (inst : RegInstruction) : Option String :=
  match inst.type with
  | .setLoc | .advanceLoc | .advanceLoc1 | .advanceLoc2 | .rememberState | .restoreState => none
  | _ => (strForReg (ruleRegister inst)).toOption

def ruleNames (instrs : List RegInstruction) : List String := instrs.filterMap ruleName

/-- An instruction the loop gets over: one with a case of its own, whose register has a name. -/
def ruleSupported (inst : RegInstruction) : Bool :=
  match inst.type with
  | .setLoc | .advanceLoc | .advanceLoc1 | .advanceLoc2 | .rememberState | .restoreState => true
  | .undefined | .offset | .register | .defCfa | .defCfaRegister | .defCfaOffset | .katanaFixups | .katanaFixupsPointer
  | .expression | .valExpression | .nop => (ruleName inst).isSome
  | _ => false

section
variable {cie : CIE} {stopLocation : Int32}

theorem evaluateLoop_append (l m : List RegInstruction) (st : RuleState) :
    evaluateLoop cie stopLocation (l ++ m) st = (do
      let (st, done) ← evaluateLoop cie stopLocation l st
      if done then evaluateLoop cie stopLocation m st else .ok (st, false)) := by
  induction l generalizing st with
  | nil => rfl
  | cons inst l ih =>
    rw [List.cons_append, evaluateLoop, evaluateLoop]
    cases advance cie.codeAlign stopLocation inst st.loc with
    | stop => rfl
    | move loc => exact ih _
    | other =>
      dsimp only
      cases evaluateInstruction cie inst st with
      | error e => rfl
      | ok st => exact ih st

theorem evaluateInstruction_loc {inst : RegInstruction} {st st' : RuleState}
    (h : evaluateInstruction cie inst st = .ok st') :
    st'.loc = st.loc := by
  unfold evaluateInstruction at h
  split at h
  · cases h
    rfl
  · split at h
    · cases h
    · obtain ⟨rules, -, h⟩ := bind_eq_ok.mp h
      cases h
      rfl
  · obtain ⟨str, -, h⟩ := bind_eq_ok.mp h
    split at h
    · obtain ⟨rule, -, h⟩ := bind_eq_ok.mp h
      cases h
      rfl
    · obtain ⟨rules, -, h⟩ := bind_eq_ok.mp h
      obtain ⟨rule, -, h⟩ := bind_eq_ok.mp h
      cases h
      rfl

/-- The loop comes to the end exactly when the locations do. -/
theorem evaluateLoop_location {instrs : List RegInstruction} {st st' : RuleState} {done : Bool}
    (h : evaluateLoop cie stopLocation instrs st = .ok (st', done)) :
    locationAfter cie.codeAlign stopLocation instrs st.loc = if done then some st'.loc else none := by
  induction instrs generalizing st with
  | nil => cases h; rfl
  | cons inst instrs ih =>
    unfold evaluateLoop at h
    unfold locationAfter
    cases hadv : advance cie.codeAlign stopLocation inst st.loc with
    | stop =>
      rw [hadv] at h
      cases h
      rfl
    | move loc =>
      rw [hadv] at h
      exact ih h
    | other =>
      rw [hadv] at h
      obtain ⟨st1, h1, h⟩ := bind_eq_ok.mp h
      rw [← evaluateInstruction_loc h1]
      exact ih h

/-! ### One instruction -/

/-- An instruction that sets a rule leaves the stack alone and adds its register to the keys. -/
theorem evaluateInstruction_rule {inst : RegInstruction} {st st' : RuleState} (hrem : inst.type ≠ .rememberState)
    (hres : inst.type ≠ .restoreState) (h : evaluateInstruction cie inst st = .ok st') :
    st'.stateStack = st.stateStack ∧ ∃ str, strForReg (ruleRegister inst) = .ok str ∧
      ∀ key, (dictGet st'.rules key).isSome ↔ (dictGet st.rules key).isSome ∨ key = str := by
  unfold evaluateInstruction at h
  split at h
  · exact absurd ‹_› hrem
  · exact absurd ‹_› hres
  · obtain ⟨str, hstr, h⟩ := bind_eq_ok.mp h
    split at h
    · rename_i rule0 hget
      obtain ⟨rule, -, h⟩ := bind_eq_ok.mp h
      cases h
      refine ⟨rfl, str, hstr, fun key => ?_⟩
      rw [dictGet_assign]
      by_cases hkey : str = key
      · subst hkey
        simp [hget]
      · simp [hkey, Ne.symm hkey]
    · rename_i hget
      obtain ⟨rules, hrules, h⟩ := bind_eq_ok.mp h
      obtain ⟨rule, -, h⟩ := bind_eq_ok.mp h
      cases h
      refine ⟨rfl, str, hstr, fun key => ?_⟩
      rw [dictGet_assign, dictGet_insert hrules]
      by_cases hkey : str = key
      · subst hkey
        simp
      · simp [hkey, Ne.symm hkey]

/-- The remembered rules copied back, key by key. -/
theorem restoreKeys_ok {savedRules : Dictionary PoRegRule} {keys : List String}
    (hkeys : ∀ key ∈ keys, (dictGet savedRules key).isSome) (rules : Dictionary PoRegRule) :
    ∃ rules', keys.foldlM (restoreKey savedRules) rules = .ok rules' ∧
      ∀ key, dictGet rules' key = if key ∈ keys then dictGet savedRules key else dictGet rules key := by
  induction keys generalizing rules with
  | nil => exact ⟨rules, rfl, fun key => by simp⟩
  | cons name keys ih =>
    obtain ⟨savedRule, hsaved⟩ := Option.isSome_iff_exists.mp (hkeys name (by simp))
    obtain ⟨rules1, hstep, hget1⟩ : ∃ rules1, restoreKey savedRules rules name = .ok rules1 ∧
        ∀ key, dictGet rules1 key = if key = name then some savedRule else dictGet rules key := by
      unfold restoreKey
      rw [hsaved]
      dsimp only
      cases hget : dictGet rules name with
      | some rule =>
        refine ⟨_, rfl, fun key => ?_⟩
        rw [dictGet_assign]
        by_cases hkey : key = name
        · subst hkey
          simp [hget]
        · simp [hkey, Ne.symm hkey]
      | none =>
        obtain ⟨rules1, h1⟩ := dictInsert_ok hget (duplicatePoRegRule savedRule)
        exact ⟨rules1, h1, fun key => dictGet_insert h1 key⟩
    obtain ⟨rules', hfold, hget'⟩ := ih (fun key hkey => hkeys key (by simp [hkey])) rules1
    refine ⟨rules', ?_, fun key => ?_⟩
    · rw [List.foldlM_cons, hstep, bind_ok]
      exact hfold
    · rw [hget' key, hget1 key]
      by_cases hin : key ∈ keys
      · simp [hin]
      · by_cases hkey : key = name
        · subst hkey
          simp [hin, hsaved]
        · simp [hin, hkey]

variable (cie) in
/-- A restore with the remembered rules on the stack gives their keys their rules back, and leaves the others. -/
theorem evaluateInstruction_restore {inst : RegInstruction} (hres : inst.type = .restoreState) (st : RuleState)
    {savedRules : Dictionary PoRegRule} {stateStack : List (Dictionary PoRegRule)}
    (hstack : st.stateStack = savedRules :: stateStack) :
    ∃ rules', evaluateInstruction cie inst st = .ok { st with rules := rules', stateStack } ∧
      ∀ key, dictGet rules' key = if (dictGet savedRules key).isSome then dictGet savedRules key else dictGet st.rules key := by
  obtain ⟨rules', hfold, hget⟩ := restoreKeys_ok (fun key hkey => mem_dictKeys.mp hkey) st.rules
  refine ⟨rules', ?_, fun key => ?_⟩
  · unfold evaluateInstruction
    simp only [hres, hstack]
    rw [hfold, bind_ok]
  · rw [hget key]
    simp only [mem_dictKeys]

end

end Katana

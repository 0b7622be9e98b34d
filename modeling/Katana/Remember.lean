/-
  Katana.Remember — `DW_CFA_remember_state`, a balanced body and `DW_CFA_restore_state` (dwarfvm.c).

  A remember pushes a copy of the dictionary. The restore pops it and copies its rules back one key at a
  time, so the rule of a register that had none stays. A body that is cut off by the stop location never
  comes to the restore.

  Proved, for every dictionary, stack, location and balanced body:
  - `evaluate_balanced`: a body leaves the stack as it was, and the keys are the old ones and the registers
    its instructions name; a body that is cut off leaves its copies on the stack.
  - `evaluateLoop_supported` / `evaluateLoop_ruleSupported`: the instructions that are got over.
  - `remember_restore_iff`: remember, body and restore give back the map and the stack exactly when the
    stop location is not passed and every register named in the body had a rule before.
-/
import Katana.Rules

namespace Katana

section
variable {cie : CIE} {stopLocation : Int32}

def RuleState.remembered (st : RuleState) : RuleState :=
  { st with stateStack := dictDuplicate st.rules duplicatePoRegRule :: st.stateStack }

theorem advance_remember {inst : RegInstruction} (h : inst.type = .rememberState ∨ inst.type = .restoreState)
    (codeAlign : UInt64) (loc : Int32) : advance codeAlign stopLocation inst loc = .other := by
  unfold advance
  rcases h with h | h
  · rw [h]
  · rw [h]

/-- A remember, a body and a restore, and what follows them. -/
theorem evaluateLoop_nest {i j : RegInstruction} (hi : i.type = .rememberState) (hj : j.type = .restoreState)
    (body l : List RegInstruction) (st : RuleState) :
    evaluateLoop cie stopLocation (i :: (body ++ j :: l)) st =
      evaluateLoop cie stopLocation body st.remembered >>= fun r =>
        if r.2 then evaluateInstruction cie j r.1 >>= evaluateLoop cie stopLocation l else .ok (r.1, false) := by
  have hfirst : evaluateInstruction cie i st = .ok st.remembered := by
    unfold evaluateInstruction
    simp only [hi]
    rfl
  rw [evaluateLoop, advance_remember (.inl hi)]
  dsimp only
  rw [hfirst, bind_ok, evaluateLoop_append]
  congr 1
  funext r
  rcases r with ⟨st1, done⟩
  cases done with
  | false => rfl
  | true =>
    dsimp only
    rw [if_pos rfl, if_pos rfl, evaluateLoop, advance_remember (.inr hj)]

theorem dictGet_remembered (st : RuleState) (key : String) :
    dictGet (dictDuplicate st.rules duplicatePoRegRule) key = dictGet st.rules key := by
  rw [dictGet_duplicate]
  exact congrFun Option.map_id (dictGet st.rules key)

variable (cie) in
/-- What the restore does with the rules a remember has pushed. -/
theorem restore_remembered {j : RegInstruction} (hj : j.type = .restoreState) {st st2 : RuleState}
    (hstack : st2.stateStack = st.remembered.stateStack) :
    ∃ rules, evaluateInstruction cie j st2 = .ok { st2 with rules, stateStack := st.stateStack } ∧
      ∀ key, dictGet rules key = if (dictGet st.rules key).isSome then dictGet st.rules key else dictGet st2.rules key := by
  obtain ⟨rules, hstep, hget⟩ := evaluateInstruction_restore cie hj st2 hstack
  refine ⟨rules, hstep, fun key => ?_⟩
  rw [hget key, dictGet_remembered]

theorem ruleName_of_move {codeAlign : UInt64} {inst : RegInstruction} {loc loc' : Int32}
    (h : advance codeAlign stopLocation inst loc = .move loc') : ruleName inst = none := by
  unfold advance at h
  unfold ruleName
  cases ht : inst.type <;> rw [ht] at h <;> first | rfl | cases h

theorem ruleName_of_other {codeAlign : UInt64} {inst : RegInstruction} {loc : Int32}
    (h : advance codeAlign stopLocation inst loc = .other) (hrem : inst.type ≠ .rememberState)
    (hres : inst.type ≠ .restoreState) : ruleName inst = (strForReg (ruleRegister inst)).toOption := by
  unfold advance at h
  unfold ruleName
  split at h
  · split at h <;> cases h
  · split at h <;> cases h
  · split at h <;> cases h
  · split at h <;> cases h
  · split
    · contradiction
    · contradiction
    · contradiction
    · contradiction
    · exact absurd ‹_› hrem
    · exact absurd ‹_› hres
    · rfl

theorem ruleNames_cons (inst : RegInstruction) (l : List RegInstruction) :
    ruleNames (inst :: l) = (ruleName inst).toList ++ ruleNames l := by
  unfold ruleNames
  rw [List.filterMap_cons]
  cases ruleName inst <;> rfl

theorem ruleNames_nest {i j : RegInstruction} (hi : i.type = .rememberState) (hj : j.type = .restoreState)
    (body l : List RegInstruction) : ruleNames (i :: (body ++ j :: l)) = ruleNames body ++ ruleNames l := by
  have hni : ruleName i = none := by unfold ruleName; rw [hi]
  have hnj : ruleName j = none := by unfold ruleName; rw [hj]
  rw [ruleNames_cons, hni]
  unfold ruleNames
  rw [List.filterMap_append, List.filterMap_cons_none hnj]
  rfl

/-- **A balanced body that is run to its end leaves the stack as it was and adds the registers it names to the
keys**; one that is cut off leaves its remembered rules on the stack. -/
theorem evaluate_balanced {body : List RegInstruction} (hb : Balanced body) {st st' : RuleState} {done : Bool}
    (h : evaluateLoop cie stopLocation body st = .ok (st', done)) :
    if done then st'.stateStack = st.stateStack ∧
      ∀ key, (dictGet st'.rules key).isSome ↔ (dictGet st.rules key).isSome ∨ key ∈ ruleNames body
    else ∃ pushed, st'.stateStack = pushed ++ st.stateStack := by
  induction hb generalizing st st' done with
  | nil =>
    cases h
    exact ⟨rfl, fun key => by simp [ruleNames]⟩
  | @inst i l hrem hres _ ih =>
    unfold evaluateLoop at h
    cases hadv : advance cie.codeAlign stopLocation i st.loc with
    | stop =>
      rw [hadv] at h
      cases h
      exact ⟨[], rfl⟩
    | move loc =>
      rw [hadv] at h
      have hrun := ih h
      rw [ruleNames_cons, ruleName_of_move hadv]
      exact hrun
    | other =>
      rw [hadv] at h
      obtain ⟨st1, h1, h⟩ := bind_eq_ok.mp h
      obtain ⟨hstack, str, hstr, hkeys⟩ := evaluateInstruction_rule hrem hres h1
      have hrun := ih h
      rw [ruleNames_cons, ruleName_of_other hadv hrem hres, hstr]
      cases done with
      | false =>
        rw [hstack] at hrun
        exact hrun
      | true =>
        refine ⟨hrun.1.trans hstack, fun key => ?_⟩
        rw [hrun.2 key, hkeys key, or_assoc]
        simp [Except.toOption]
  | @nest i j body l hi hj _ _ ihbody ihl =>
    rw [evaluateLoop_nest hi hj] at h
    obtain ⟨⟨st2, done2⟩, h2, h⟩ := bind_eq_ok.mp h
    have hbody := ihbody h2
    cases done2 with
    | false =>
      cases h
      rcases hbody with ⟨pushed, hpushed⟩
      refine ⟨pushed ++ [dictDuplicate st.rules duplicatePoRegRule], ?_⟩
      rw [hpushed, List.append_assoc]
      rfl
    | true =>
      obtain ⟨hstack, hkeys⟩ := hbody
      obtain ⟨rules, hrestore, hget⟩ := restore_remembered cie hj hstack
      dsimp only at h
      rw [if_pos rfl, hrestore, bind_ok] at h
      have hrun := ihl h
      rw [ruleNames_nest hi hj]
      cases done with
      | false => exact hrun
      | true =>
        refine ⟨hrun.1, fun key => ?_⟩
        have hrules : (dictGet rules key).isSome ↔ (dictGet st.rules key).isSome ∨ key ∈ ruleNames body := by
          have hkey : (dictGet st2.rules key).isSome ↔ (dictGet st.rules key).isSome ∨ key ∈ ruleNames body := hkeys key
          rw [hget key]
          split
          · rename_i hsome
            simp [hsome]
          · exact hkey
        rw [hrun.2 key, List.mem_append, ← or_assoc]
        exact or_congr_left hrules

/-! ## Remember and restore -/

/-- The map from registers to rules and the stack are the ones before. -/
def Restored (rules : Dictionary PoRegRule) (stateStack : List (Dictionary PoRegRule)) (st : RuleState) : Prop :=
  (∀ name, dictGet st.rules name = dictGet rules name) ∧ st.stateStack = stateStack

variable (cie) in
/-- Supported instructions are run through. -/
theorem evaluateInstruction_supported {inst : RegInstruction} (hs : ruleSupported inst) (hrem : inst.type ≠ .rememberState)
    (hres : inst.type ≠ .restoreState) {codeAlign : UInt64} {st : RuleState}
    (hadv : advance codeAlign stopLocation inst st.loc = .other) : ∃ st', evaluateInstruction cie inst st = .ok st' := by
  have hname := ruleName_of_other hadv hrem hres
  have hset : ∀ rule, ∃ rule', setRule cie inst rule = .ok rule' := by
    intro rule
    unfold ruleSupported at hs
    unfold setRule
    unfold advance at hadv
    cases ht : inst.type <;> simp only [ht] at hs hadv ⊢ <;>
      first | exact absurd ht hrem | exact absurd ht hres | exact ⟨_, rfl⟩ | cases hs
    all_goals (split at hadv <;> cases hadv)
  obtain ⟨str, hstr⟩ : ∃ str, strForReg (ruleRegister inst) = .ok str := by
    have hsome : (ruleName inst).isSome := by
      unfold ruleSupported at hs
      unfold advance at hadv
      cases ht : inst.type <;> simp only [ht] at hs hadv <;>
        first | exact absurd ht hrem | exact absurd ht hres | exact hs | cases hs
      all_goals (split at hadv <;> cases hadv)
    rw [hname] at hsome
    cases hs' : strForReg (ruleRegister inst) with
    | error e => rw [hs'] at hsome; cases hsome
    | ok str => exact ⟨str, rfl⟩
  unfold evaluateInstruction
  split
  · contradiction
  · contradiction
  · dsimp only
    rw [hstr, bind_ok]
    cases hget : dictGet st.rules str with
    | some rule =>
      obtain ⟨rule', hrule⟩ := hset rule
      dsimp only
      rw [hrule]
      exact ⟨_, rfl⟩
    | none =>
      obtain ⟨rules, hrules⟩ := dictInsert_ok hget (PoRegRule.blank (ruleRegister inst))
      obtain ⟨rule', hrule⟩ := hset (.blank (ruleRegister inst))
      dsimp only
      rw [hrules, bind_ok, hrule]
      exact ⟨_, rfl⟩

variable (cie stopLocation) in
theorem evaluateLoop_supported {body : List RegInstruction} (hb : Balanced body) (hs : ∀ inst ∈ body, ruleSupported inst)
    (st : RuleState) : ∃ r, evaluateLoop cie stopLocation body st = .ok r := by
  induction hb generalizing st with
  | nil => exact ⟨_, rfl⟩
  | @inst i l hrem hres _ ih =>
    have hl := ih fun inst hinst => hs inst (by simp [hinst])
    unfold evaluateLoop
    cases hadv : advance cie.codeAlign stopLocation i st.loc with
    | stop => exact ⟨_, rfl⟩
    | move loc => exact hl _
    | other =>
      obtain ⟨st1, h1⟩ := evaluateInstruction_supported cie (hs i (by simp)) hrem hres hadv
      dsimp only
      rw [h1]
      exact hl st1
  | @nest i j body l hi hj hbody _ ihbody ihl =>
    obtain ⟨⟨st2, done⟩, h2⟩ := ihbody (fun inst hinst => hs inst (by simp [hinst])) st.remembered
    rw [evaluateLoop_nest hi hj, h2, bind_ok]
    cases done with
    | false => exact ⟨_, rfl⟩
    | true =>
      obtain ⟨hstack, -⟩ := evaluate_balanced hbody h2
      obtain ⟨rules, hrestore, -⟩ := restore_remembered cie hj hstack
      dsimp only
      rw [if_pos rfl, hrestore]
      exact ihl (fun inst hinst => hs inst (by simp [hinst])) _

/-- An instruction that is got over is one with a case of its own, whose register has a name. -/
theorem ruleSupported_of_ok {inst : RegInstruction} {st st' : RuleState} (h : evaluateInstruction cie inst st = .ok st') :
    ruleSupported inst := by
  unfold evaluateInstruction at h
  split at h
  · unfold ruleSupported
    rw [‹inst.type = .rememberState›]
  · unfold ruleSupported
    rw [‹inst.type = .restoreState›]
  · obtain ⟨str, hstr, h⟩ := bind_eq_ok.mp h
    obtain ⟨rule, rule', hset⟩ : ∃ rule rule', setRule cie inst rule = .ok rule' := by
      split at h
      · obtain ⟨rule', hset, -⟩ := bind_eq_ok.mp h
        exact ⟨_, rule', hset⟩
      · obtain ⟨rules, -, h⟩ := bind_eq_ok.mp h
        obtain ⟨rule', hset, -⟩ := bind_eq_ok.mp h
        exact ⟨_, rule', hset⟩
    unfold setRule at hset
    unfold ruleSupported ruleName
    -- what `setRule` refuses is what is not supported
    cases ht : inst.type <;> simp only [ht] at hset ⊢ <;> first | (rw [hstr]; rfl) | cases hset

theorem evaluateLoop_ruleSupported {body : List RegInstruction} {st st' : RuleState}
    (h : evaluateLoop cie stopLocation body st = .ok (st', true)) : ∀ inst ∈ body, ruleSupported inst := by
  induction body generalizing st with
  | nil => intro inst hinst; cases hinst
  | cons i body ih =>
    unfold evaluateLoop at h
    intro inst hinst
    rcases List.mem_cons.mp hinst with hinst | hinst
    · subst hinst
      cases hadv : advance cie.codeAlign stopLocation inst st.loc with
      | stop =>
        rw [hadv] at h
        cases h
      | move loc =>
        unfold advance at hadv
        unfold ruleSupported
        cases ht : inst.type <;> simp only [ht] at hadv ⊢ <;> cases hadv
      | other =>
        rw [hadv] at h
        obtain ⟨st1, h1, -⟩ := bind_eq_ok.mp h
        exact ruleSupported_of_ok h1
    · cases hadv : advance cie.codeAlign stopLocation i st.loc with
      | stop =>
        rw [hadv] at h
        cases h
      | move loc =>
        rw [hadv] at h
        exact ih h inst hinst
      | other =>
        rw [hadv] at h
        obtain ⟨st1, -, h⟩ := bind_eq_ok.mp h
        exact ih h inst hinst

/-- The rules after the restore: the old ones, and the body's own for the registers that had none. -/
theorem evaluate_restored {remember restore : RegInstruction} (hi : remember.type = .rememberState)
    (hj : restore.type = .restoreState) {body : List RegInstruction} (hb : Balanced body) {rules : Dictionary PoRegRule}
    {stateStack : List (Dictionary PoRegRule)} {start : Int32} {st : RuleState}
    (h : evaluateLoop cie stopLocation body (RuleState.remembered ⟨rules, stateStack, start⟩) = .ok (st, true)) :
    ∃ st', evaluateInstructionsToRules cie (remember :: (body ++ [restore])) rules stateStack start stopLocation = .ok st' ∧
      st'.stateStack = stateStack ∧
      ∀ name, dictGet st'.rules name =
        if (dictGet rules name).isSome then dictGet rules name else dictGet st.rules name := by
  obtain ⟨hstack, -⟩ := evaluate_balanced hb h
  obtain ⟨rules', hrestore, hget⟩ := restore_remembered cie hj hstack
  refine ⟨{ st with rules := rules', stateStack }, ?_, rfl, hget⟩
  unfold evaluateInstructionsToRules
  rw [evaluateLoop_nest hi hj, h, bind_ok]
  dsimp only
  rw [if_pos rfl, hrestore, bind_ok]
  rfl

/-- A body that is cut off leaves the rules pushed by the remember on the stack. -/
theorem evaluate_cut {remember restore : RegInstruction} (hi : remember.type = .rememberState)
    (hj : restore.type = .restoreState) {body : List RegInstruction} (hb : Balanced body) {rules : Dictionary PoRegRule}
    {stateStack : List (Dictionary PoRegRule)} {start : Int32} {st : RuleState}
    (h : evaluateLoop cie stopLocation body (RuleState.remembered ⟨rules, stateStack, start⟩) = .ok (st, false)) :
    evaluateInstructionsToRules cie (remember :: (body ++ [restore])) rules stateStack start stopLocation = .ok st ∧
      st.stateStack ≠ stateStack := by
  refine ⟨?_, ?_⟩
  · unfold evaluateInstructionsToRules
    rw [evaluateLoop_nest hi hj, h, bind_ok]
    rfl
  · obtain ⟨pushed, hpushed⟩ := evaluate_balanced hb h
    intro heq
    have hlen := congrArg List.length (hpushed.symm.trans heq)
    simp [RuleState.remembered] at hlen
    omega

/-- What is left behind where the rules are the old ones. -/
theorem remember_restore_gives {i j : RegInstruction} (hi : i.type = .rememberState)
    (hj : j.type = .restoreState) {body : List RegInstruction} (hb : Balanced body) (rules : Dictionary PoRegRule)
    (stateStack : List (Dictionary PoRegRule)) {start : Int32} (hs : ∀ inst ∈ body, ruleSupported inst)
    (hloc : (locationAfter cie.codeAlign stopLocation body start).isSome) :
    ∃ st', evaluateInstructionsToRules cie (i :: (body ++ [j])) rules stateStack start stopLocation = .ok st' ∧
      st'.stateStack = stateStack ∧ ∀ name, (dictGet rules name).isSome ∧ dictGet st'.rules name = dictGet rules name ∨
        dictGet rules name = none ∧ ((dictGet st'.rules name).isSome ↔ name ∈ ruleNames body) := by
  obtain ⟨⟨st, done⟩, hrun⟩ := evaluateLoop_supported cie stopLocation hb hs
    (RuleState.remembered ⟨rules, stateStack, start⟩)
  have hend := evaluateLoop_location hrun
  cases done with
  | false =>
    rw [if_neg Bool.false_ne_true, show (RuleState.remembered ⟨rules, stateStack, start⟩).loc = start from rfl] at hend
    rw [hend] at hloc
    cases hloc
  | true =>
    obtain ⟨st', heval, hstack, hget⟩ := evaluate_restored hi hj hb hrun
    refine ⟨st', heval, hstack, fun name => ?_⟩
    have hkey : (dictGet st.rules name).isSome ↔ (dictGet rules name).isSome ∨ name ∈ ruleNames body :=
      (evaluate_balanced hb hrun).2 name
    cases hold : dictGet rules name with
    | some rule =>
      left
      rw [hget name, hold]
      exact ⟨rfl, rfl⟩
    | none =>
      right
      rw [hget name, hold]
      simpa [hold] using hkey

/-- **Remember, a balanced body and a restore give back the rules and the stack** exactly when the body is run to
its end over supported instructions and names no register that had no rule before. -/
theorem remember_restore_iff {remember restore : RegInstruction} (hi : remember.type = .rememberState)
    (hj : restore.type = .restoreState) {body : List RegInstruction} (hb : Balanced body) (rules : Dictionary PoRegRule)
    (stateStack : List (Dictionary PoRegRule)) (start : Int32) :
    (∃ st', evaluateInstructionsToRules cie (remember :: (body ++ [restore])) rules stateStack start stopLocation = .ok st' ∧
      Restored rules stateStack st') ↔
    (∀ inst ∈ body, ruleSupported inst) ∧ (locationAfter cie.codeAlign stopLocation body start).isSome ∧
      ∀ name ∈ ruleNames body, (dictGet rules name).isSome := by
  refine ⟨?_, ?_⟩
  · intro hgive
    rcases hgive with ⟨st', heval, hmap, hstack⟩
    cases hrun : evaluateLoop cie stopLocation body (RuleState.remembered ⟨rules, stateStack, start⟩) with
    | error e =>
      unfold evaluateInstructionsToRules at heval
      rw [evaluateLoop_nest hi hj, hrun] at heval
      cases heval
    | ok r =>
      obtain ⟨st, done⟩ := r
      cases done with
      | false =>
        obtain ⟨hcut, hne⟩ := evaluate_cut hi hj hb hrun
        rw [hcut] at heval
        cases heval
        exact absurd hstack hne
      | true =>
        have hs := evaluateLoop_ruleSupported hrun
        have hloc : (locationAfter cie.codeAlign stopLocation body start).isSome :=
          Option.isSome_iff_exists.mpr ⟨_, evaluateLoop_location hrun⟩
        obtain ⟨st2, heval2, -, hget⟩ := remember_restore_gives hi hj hb rules stateStack hs hloc
        rw [heval2] at heval
        cases heval
        refine ⟨hs, hloc, fun name hname => ?_⟩
        rcases hget name with hget | hget
        · exact hget.1
        · have hsome := hget.2.mpr hname
          rwa [hmap name] at hsome
  · intro hcond
    rcases hcond with ⟨hs, hloc, hold⟩
    obtain ⟨st', heval, hstack, hget⟩ := remember_restore_gives hi hj hb rules stateStack hs hloc
    refine ⟨st', heval, fun name => ?_, hstack⟩
    rcases hget name with hget | hget
    · exact hget.2
    · have hnot : ¬ (dictGet st'.rules name).isSome := by
        intro hsome
        have hback := hold name (hget.2.mp hsome)
        rw [hget.1] at hback
        cases hback
      rw [hget.1, Option.not_isSome_iff_eq_none.mp hnot]

end

def exampleCIE : CIE := ⟨[], -8, 1, 16, 1, 8, 0, .none, 0, 0, 0, 0⟩

def offsetRbx : RegInstruction := { RegInstruction.blank .offset with arg1Reg := ⟨.basic, 0, 3⟩, arg2 := 2 }

theorem balanced_offsetRbx : Balanced [offsetRbx] := .inst (by decide) (by decide) .nil

/-- For a register that has a rule, the body's rule is taken back. -/
theorem remember_restore_offset : ∃ rules, dictInsert (dictCreate 100) "r3/rbx" ⟨⟨.basic, 0, 3⟩, .offset, ⟨.cfa, 0, 0⟩, 8, 0⟩ = .ok rules ∧
    ∃ st', evaluateInstructionsToRules exampleCIE (.blank .rememberState :: ([offsetRbx] ++ [.blank .restoreState]))
      rules [] 0 (-1) = .ok st' ∧ Restored rules [] st' := by
  obtain ⟨rules, hrules⟩ := dictInsert_ok (show dictGet (dictCreate 100 : Dictionary PoRegRule) "r3/rbx" = none from rfl)
    ⟨⟨.basic, 0, 3⟩, .offset, ⟨.cfa, 0, 0⟩, 8, 0⟩
  have hname : ruleNames [offsetRbx] = ["r3/rbx"] := by decide
  refine ⟨rules, hrules, (remember_restore_iff rfl rfl balanced_offsetRbx rules [] 0).mpr ⟨by decide, by decide, ?_⟩⟩
  rw [hname]
  intro name hmem
  rw [List.mem_singleton.mp hmem, dictGet_insert hrules, if_pos rfl]
  rfl

/-- The rule that the body gives to a register without one is still there after the restore. -/
theorem restore_keeps_added_rule :
    ∃ st', evaluateInstructionsToRules exampleCIE (.blank .rememberState :: ([offsetRbx] ++ [.blank .restoreState]))
      (dictCreate 100) [] 0 (-1) = .ok st' ∧ (dictGet st'.rules "r3/rbx").isSome ∧ ¬ Restored (dictCreate 100) [] st' := by
  have hname : ruleNames [offsetRbx] = ["r3/rbx"] := by decide
  have hs : ∀ inst ∈ [offsetRbx], ruleSupported inst := by decide
  obtain ⟨st', heval, -, hget⟩ := remember_restore_gives (i := .blank .rememberState)
    (j := .blank .restoreState) rfl rfl balanced_offsetRbx
    (dictCreate 100) [] hs (by decide : (locationAfter exampleCIE.codeAlign (-1) [offsetRbx] 0).isSome)
  have hadded : (dictGet st'.rules "r3/rbx").isSome := by
    rcases hget "r3/rbx" with hget | hget
    · cases hget.1
    · exact hget.2.mpr (by rw [hname]; simp)
  refine ⟨st', heval, hadded, ?_⟩
  intro hrestored
  rw [hrestored.1 "r3/rbx"] at hadded
  cases hadded

end Katana

/-
  Katana.RuleCells — the instructions of an FDE as operations on cells (dwarfvm.c).

  A cell for each register's rule; a remember saves a copy of all, and a restore takes the last one, whoever remembered it.
  An instruction that sets a rule overwrites some of its fields.

  Proved, for every instruction list:
  - `evaluateLoop_cells`: an evaluation does to the rules and the remembered ones what the operations of the instructions
    it gets through do to the cells.
-/
import Katana.Lib.Overwrite
import Katana.StopLocation

namespace Katana

open Lib

/-- The instructions an evaluation for a location gets through. -/
def evaluated (cie : CIE) (fde : FDE) (i : Int32) : List RegInstruction :=
  gotThrough cie.codeAlign i fde.instructions fde.lowpc

/-- No restore is without a remember among these. -/
def restoresOwn : Nat → List RegInstruction → Bool
  | _, [] => true
  | depth, inst :: instrs =>
    match inst.type, depth with
    | .rememberState, depth => restoresOwn (depth + 1) instrs
    | .restoreState, 0 => false
    | .restoreState, depth + 1 => restoresOwn depth instrs
    | _, depth => restoresOwn depth instrs

/-- How many states of its own are left remembered, with so many before. -/
def rememberedLeft : Nat → List RegInstruction → Nat
  | depth, [] => depth
  | depth, inst :: instrs =>
    match inst.type with
    | .rememberState => rememberedLeft (depth + 1) instrs
    | .restoreState => rememberedLeft (depth - 1) instrs
    | _ => rememberedLeft depth instrs

/-! ## Instructions as operations on cells -/

/-- Changes of a rule that overwrite some of its fields. -/
def OverwritesFields (f : PoRegRule → PoRegRule) : Prop :=
  ∃ (type : Option RuleType) (regRH : Option PoReg) (offset : Option Int32) (index : Option UInt64),
    f = fun rule => ⟨rule.regLH, type.getD rule.type, regRH.getD rule.regRH, offset.getD rule.offset, index.getD rule.index⟩

theorem overwriting_fields : Overwriting OverwritesFields where
  id := ⟨none, none, none, none, rfl⟩
  comp := by
    rintro f g ⟨t, r, o, x, rfl⟩ ⟨t', r', o', x', rfl⟩
    refine ⟨t.or t', r.or r', o.or o', x.or x', ?_⟩
    funext rule
    cases t <;> cases r <;> cases o <;> cases x <;> rfl
  absorb := by
    rintro f g ⟨t, r, o, x, rfl⟩ ⟨t', r', o', x', rfl⟩ rule
    cases t <;> cases r <;> cases o <;> cases x <;> rfl

section Cells
variable (cie : CIE)

def changedRule (inst : RegInstruction) (rule : PoRegRule) : PoRegRule :=
  match setRule cie inst rule with
  | .ok rule => rule
  | .error _ => rule

/-- What an instruction does to the rules; none for those that move the location. -/
def cellOp (inst : RegInstruction) : Option (CellOp String PoRegRule) :=
  match movesTo cie.codeAlign inst 0, inst.type with
  | some _, _ => none
  | none, .rememberState => some .save
  | none, .restoreState => some .restore
  | none, _ => some (.set ((strForReg (ruleRegister inst)).toOption.getD "") (.blank (ruleRegister inst))
      (changedRule cie inst))

def cellOps (instrs : List RegInstruction) : List (CellOp String PoRegRule) := instrs.filterMap (cellOp cie)

def RuleState.cells (st : RuleState) : CellState String PoRegRule := (dictGet st.rules, st.stateStack.map dictGet)

/-- What instructions do to the rule of a register. -/
def ruleEffect (instrs : List RegInstruction) (name : String) : CellEffect PoRegRule :=
  match effects (cellOps cie instrs) with
  | some e => e.1 name
  | none => ⟨none, id⟩

end Cells

section Cells
variable {cie : CIE} {inst : RegInstruction} {instrs : List RegInstruction} {st st' : RuleState}

theorem changedRule_overwrites (cie : CIE) (inst : RegInstruction) : OverwritesFields (changedRule cie inst) := by
  unfold OverwritesFields
  cases htype : inst.type with
  | undefined => exact ⟨some .undef, none, none, none, by funext rule; simp [changedRule, setRule, htype]⟩
  | offset => exact ⟨some .offset, none, some _, none, by funext rule; simp [changedRule, setRule, htype]; rfl⟩
  | register => exact ⟨some .register, some inst.arg2Reg, none, none, by funext rule; simp [changedRule, setRule, htype]⟩
  | defCfa => exact ⟨some .cfa, some inst.arg1Reg, some _, none, by funext rule; simp [changedRule, setRule, htype]; rfl⟩
  | defCfaRegister => exact ⟨some .cfa, some inst.arg1Reg, none, none, by funext rule; simp [changedRule, setRule, htype]⟩
  | defCfaOffset => exact ⟨some .cfa, none, some _, none, by funext rule; simp [changedRule, setRule, htype]; rfl⟩
  | katanaFixups =>
    exact ⟨some .recurseFixup, some inst.arg2Reg, none, some inst.arg3, by funext rule; simp [changedRule, setRule, htype]⟩
  | katanaFixupsPointer =>
    exact ⟨some .recurseFixupPointer, some inst.arg2Reg, none, some inst.arg3, by
      funext rule; simp [changedRule, setRule, htype]⟩
  | _ => exact ⟨none, none, none, none, by funext rule; simp [changedRule, setRule, htype]⟩

theorem changesBy_cellOps (cie : CIE) (instrs : List RegInstruction) : ChangesBy OverwritesFields (cellOps cie instrs) := by
  intro key start change hmem
  obtain ⟨inst, -, hop⟩ := List.mem_filterMap.mp hmem
  unfold cellOp at hop
  split at hop
  · cases hop
  · cases hop
  · cases hop
  · cases hop
    exact changedRule_overwrites cie inst

theorem cellOps_append (instrs more : List RegInstruction) :
    cellOps cie (instrs ++ more) = cellOps cie instrs ++ cellOps cie more := List.filterMap_append

/-- The restores among the operations are those among the instructions. -/
theorem restoresWithin_cellOps {depth : Nat} : restoresWithin depth (cellOps cie instrs) ↔ restoresOwn depth instrs = true := by
  induction instrs generalizing depth with
  | nil => simp [cellOps, restoresWithin, restoresOwn]
  | cons inst instrs ih =>
    have hcons : cellOps cie (inst :: instrs) = (cellOp cie inst).toList ++ cellOps cie instrs := by
      cases h : cellOp cie inst <;> simp [cellOps, h]
    rw [hcons]
    cases htype : inst.type <;> cases depth <;>
      simp [cellOp, movesTo, htype, restoresWithin, restoresOwn, ih]

theorem copiesLeft_cellOps {depth : Nat} : copiesLeft depth (cellOps cie instrs) = rememberedLeft depth instrs := by
  induction instrs generalizing depth with
  | nil => simp [cellOps, copiesLeft, rememberedLeft]
  | cons inst instrs ih =>
    have hcons : cellOps cie (inst :: instrs) = (cellOp cie inst).toList ++ cellOps cie instrs := by
      cases h : cellOp cie inst <;> simp [cellOps, h]
    rw [hcons]
    cases htype : inst.type <;> simp [cellOp, movesTo, htype, copiesLeft, rememberedLeft, ih]

theorem cellOp_move {here next : Int} (h : movesTo cie.codeAlign inst here = some next) : cellOp cie inst = none := by
  have hsome := movesTo_isSome cie.codeAlign inst here 0
  rw [h] at hsome
  obtain ⟨l, hl⟩ := Option.isSome_iff_exists.mp hsome.symm
  simp [cellOp, hl]

theorem cellOp_set (hmove : movesTo cie.codeAlign inst 0 = none) (hrem : inst.type ≠ .rememberState)
    (hres : inst.type ≠ .restoreState) : cellOp cie inst =
      some (.set ((strForReg (ruleRegister inst)).toOption.getD "") (.blank (ruleRegister inst)) (changedRule cie inst)) := by
  unfold cellOp
  rw [hmove]
  cases htype : inst.type <;> first | rfl | exact absurd htype hrem | exact absurd htype hres

/-- The rule an instruction sets. -/
theorem evaluateInstruction_sets (hrem : inst.type ≠ .rememberState) (hres : inst.type ≠ .restoreState)
    (h : evaluateInstruction cie inst st = .ok st') :
    ∃ str, strForReg (ruleRegister inst) = .ok str ∧ st'.stateStack = st.stateStack ∧
      ∀ name, dictGet st'.rules name = if name = str then
        some (changedRule cie inst ((dictGet st.rules name).getD (.blank (ruleRegister inst)))) else dictGet st.rules name := by
  unfold evaluateInstruction at h
  split at h
  · exact absurd ‹_› hrem
  · exact absurd ‹_› hres
  · obtain ⟨str, hstr, h⟩ := bind_eq_ok.mp h
    split at h
    · rename_i rule0 hget
      obtain ⟨rule, hset, h⟩ := bind_eq_ok.mp h
      cases h
      refine ⟨str, hstr, rfl, fun name => ?_⟩
      rw [dictGet_assign]
      by_cases hname : name = str
      · subst hname
        simp [hget, changedRule, hset]
      · simp [hname, Ne.symm hname]
    · rename_i hget
      obtain ⟨rules, hrules, h⟩ := bind_eq_ok.mp h
      obtain ⟨rule, hset, h⟩ := bind_eq_ok.mp h
      cases h
      refine ⟨str, hstr, rfl, fun name => ?_⟩
      rw [dictGet_assign, dictGet_insert hrules]
      by_cases hname : name = str
      · subst hname
        simp [hget, changedRule, hset]
      · simp [hname, Ne.symm hname]

/-- What an evaluated instruction does to the cells. -/
theorem evaluateInstruction_cells (hmove : movesTo cie.codeAlign inst 0 = none)
    (h : evaluateInstruction cie inst st = .ok st') : exec (cellOp cie inst).toList st.cells = some st'.cells := by
  by_cases hrem : inst.type = .rememberState
  · have hremember : evaluateInstruction cie inst st = .ok st.remembered := by
      unfold evaluateInstruction
      simp only [hrem]
      rfl
    rw [hremember] at h
    cases h
    have hcopy : dictGet (dictDuplicate st.rules duplicatePoRegRule) = dictGet st.rules := by
      funext name
      exact dictGet_remembered st name
    simp [cellOp, hmove, hrem, CellOp.step, RuleState.cells, RuleState.remembered, hcopy]
  · by_cases hres : inst.type = .restoreState
    · cases hstack : st.stateStack with
      | nil =>
        unfold evaluateInstruction at h
        simp only [hres, hstack] at h
        cases h
      | cons savedRules stateStack =>
        obtain ⟨rules, hrestore, hget⟩ := evaluateInstruction_restore cie hres st hstack
        rw [hrestore] at h
        cases h
        have hrules : (fun name => (dictGet savedRules name).or (dictGet st.rules name)) = dictGet rules := by
          funext name
          rw [hget name]
          cases dictGet savedRules name <;> rfl
        simp [cellOp, hmove, hres, CellOp.step, RuleState.cells, hstack, hrules]
    · obtain ⟨str, hstr, hstack, hget⟩ := evaluateInstruction_sets hrem hres h
      have hrules : (fun name => if name = str then
          some (changedRule cie inst ((dictGet st.rules name).getD (.blank (ruleRegister inst))))
          else dictGet st.rules name) = dictGet st'.rules := by
        funext name
        exact (hget name).symm
      simp [cellOp_set hmove hrem hres, CellOp.step, RuleState.cells, hstr, Except.toOption, hrules, hstack]

theorem cellOps_cons : cellOps cie (inst :: instrs) = (cellOp cie inst).toList ++ cellOps cie instrs := by
  cases h : cellOp cie inst <;> simp [cellOps, h]

theorem advance_move {codeAlign : UInt64} {stopLocation loc loc' : Int32}
    (h : advance codeAlign stopLocation inst loc = .move loc') :
    (∃ next, movesTo codeAlign inst 0 = some next) ∧ ruleSupported inst = true := by
  unfold advance at h
  cases htype : inst.type <;> simp only [htype] at h <;> first | cases h | simp [movesTo, ruleSupported, htype]

theorem movesTo_of_evaluated {stopLocation loc : Int32} (hadv : advance cie.codeAlign stopLocation inst loc = .other)
    (h : evaluateInstruction cie inst st = .ok st') : movesTo cie.codeAlign inst 0 = none := by
  cases hmove : movesTo cie.codeAlign inst 0 with
  | none => rfl
  | some next =>
    by_cases hfour : inst.type = .advanceLoc4
    · obtain ⟨e, he⟩ := evaluateInstruction_four cie hfour st
      rw [he] at h
      cases h
    · unfold advance at hadv
      rcases movesTo_cases hmove with ⟨htype, -⟩ | ⟨htype | htype | htype | htype, -⟩
      · simp only [htype] at hadv
        split at hadv <;> cases hadv
      · simp only [htype] at hadv
        split at hadv <;> cases hadv
      · simp only [htype] at hadv
        split at hadv <;> cases hadv
      · simp only [htype] at hadv
        split at hadv <;> cases hadv
      · exact absurd htype hfour

/-- The instructions an evaluation got through were supported, and did to the cells what their operations do. -/
theorem evaluateLoop_cells {stopLocation : Int32} {done : Bool}
    (h : evaluateLoop cie stopLocation instrs st = .ok (st', done)) :
    exec (cellOps cie (gotThrough cie.codeAlign stopLocation instrs st.loc)) st.cells = some st'.cells ∧
      ∀ inst ∈ gotThrough cie.codeAlign stopLocation instrs st.loc, ruleSupported inst = true := by
  induction instrs generalizing st with
  | nil =>
    cases h
    simp [gotThrough, cellOps]
  | cons inst instrs ih =>
    unfold evaluateLoop at h
    unfold gotThrough
    cases hadv : advance cie.codeAlign stopLocation inst st.loc with
    | stop =>
      rw [hadv] at h
      cases h
      simp [cellOps]
    | move loc =>
      rw [hadv] at h
      obtain ⟨hrun, hsupported⟩ := ih h
      obtain ⟨⟨next, hnext⟩, hinst⟩ := advance_move hadv
      refine ⟨?_, List.forall_mem_cons.mpr ⟨hinst, hsupported⟩⟩
      rw [cellOps_cons, cellOp_move hnext]
      exact hrun
    | other =>
      rw [hadv] at h
      obtain ⟨st1, h1, h⟩ := bind_eq_ok.mp h
      obtain ⟨hrun, hsupported⟩ := ih h
      rw [evaluateInstruction_loc h1] at hrun hsupported
      refine ⟨?_, List.forall_mem_cons.mpr ⟨ruleSupported_of_ok h1, hsupported⟩⟩
      rw [cellOps_cons, exec_append, evaluateInstruction_cells (movesTo_of_evaluated hadv h1) h1]
      exact hrun

/-- The same for instructions that are applied one after the other. -/
theorem applied_cells (h : instrs.foldlM (applyInstruction cie) st = .ok st') :
    exec (cellOps cie instrs) st.cells = some st'.cells := by
  induction instrs generalizing st with
  | nil =>
    cases h
    rfl
  | cons inst instrs ih =>
    rw [List.foldlM_cons] at h
    obtain ⟨st1, h1, h⟩ := bind_eq_ok.mp h
    rw [cellOps_cons, exec_append]
    cases hmove : movesTo cie.codeAlign inst 0 with
    | some next =>
      rw [applyInstruction_move hmove] at h1
      cases h1
      rw [cellOp_move hmove]
      exact ih h
    | none =>
      rw [applyInstruction_other hmove] at h1
      rw [evaluateInstruction_cells hmove h1]
      exact ih h

theorem evaluateInstruction_runs {stepped : CellState String PoRegRule} (hmove : movesTo cie.codeAlign inst 0 = none)
    (hsupported : ruleSupported inst = true) (h : exec (cellOp cie inst).toList st.cells = some stepped) :
    ∃ st', evaluateInstruction cie inst st = .ok st' := by
  by_cases hrem : inst.type = .rememberState
  · unfold evaluateInstruction
    simp only [hrem]
    exact ⟨_, rfl⟩
  · by_cases hres : inst.type = .restoreState
    · cases hstack : st.stateStack with
      | nil => simp [cellOp, hmove, hres, CellOp.step, RuleState.cells, hstack] at h
      | cons savedRules stateStack =>
        obtain ⟨rules, hrestore, -⟩ := evaluateInstruction_restore cie hres st hstack
        exact ⟨_, hrestore⟩
    · have hother : advance cie.codeAlign 0 inst st.loc = .other := advance_other hmove
      exact evaluateInstruction_supported cie hsupported hrem hres hother

/-- Supported instructions can be applied where their operations can be run. -/
theorem applied_of_cells {stepped : CellState String PoRegRule} (hsupported : ∀ inst ∈ instrs, ruleSupported inst = true)
    (h : exec (cellOps cie instrs) st.cells = some stepped) :
    ∃ st', instrs.foldlM (applyInstruction cie) st = .ok st' ∧ st'.cells = stepped := by
  induction instrs generalizing st with
  | nil =>
    cases h
    exact ⟨st, rfl, rfl⟩
  | cons inst instrs ih =>
    obtain ⟨hinst, hrest⟩ := List.forall_mem_cons.mp hsupported
    rw [cellOps_cons, exec_append] at h
    obtain ⟨mid, hmid, h⟩ := Option.bind_eq_some_iff.mp h
    cases hmove : movesTo cie.codeAlign inst 0 with
    | some next =>
      rw [cellOp_move hmove] at hmid
      cases hmid
      rw [List.foldlM_cons, applyInstruction_move hmove, bind_ok]
      exact ih hrest h
    | none =>
      obtain ⟨st1, h1⟩ := evaluateInstruction_runs hmove hinst hmid
      rw [evaluateInstruction_cells hmove h1, Option.some.injEq] at hmid
      rw [List.foldlM_cons, applyInstruction_other hmove, h1, bind_ok]
      exact ih hrest (hmid ▸ h)

end Cells

section
variable {cie : CIE} {fde : FDE} {rules : Dictionary PoRegRule} {stateStack : List (Dictionary PoRegRule)} {i : Int32}
  {st : RuleState}

theorem evaluated_cells (h : evaluateInstructionsToRules cie fde.instructions rules stateStack fde.lowpc i = .ok st) :
    exec (cellOps cie (evaluated cie fde i)) (dictGet rules, stateStack.map dictGet) = some st.cells ∧
      ∀ inst ∈ evaluated cie fde i, ruleSupported inst = true := by
  unfold evaluateInstructionsToRules at h
  obtain ⟨⟨st1, done⟩, hloop, h⟩ := bind_eq_ok.mp h
  cases h
  exact evaluateLoop_cells hloop

end

end Katana

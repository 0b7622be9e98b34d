/-
  Katana.UnwindTable — the table that `printFDEInfo` prints of an FDE (info/fdedump.c).

  For every location the evaluator is called on the rules and remembered states the last call left. It
  never stores how many instructions it read, so every call begins with the first one again. Rules that are
  set again come out the same; a state remembered after some were set does not.

  Proved, for every FDE, CIE and stack of remembered states:
  - `table_row`: a row is the table of its location if no earlier evaluation ended between a remember and
    its restore; and exactly if its instructions make of the rules before it what they make of the CIE's.
  - `goesOn_iff`: from location 1 on an evaluation goes on where the one before it ended.
-/
import Katana.RuleCells

namespace Katana

open Lib

/-! ## The loop -/

/-- `evaluateInstructionsToRules`, and what `*outInstrsCnt` is after it: nothing is stored there. -/
def evaluateCounting (cie : CIE) (instrs : List RegInstruction) (rules : Dictionary PoRegRule)
    (stateStack : List (Dictionary PoRegRule)) (startLocation stopLocation : Int32) (outInstrsCnt : Nat) :
    Except Fault (RuleState × Nat) := do
  let st ← evaluateInstructionsToRules cie instrs rules stateStack startLocation stopLocation
  .ok (st, outInstrsCnt)

structure Turn where
  location : Int32
  rules : Dictionary PoRegRule
  result : RuleState

/-- Whether the rules are printed; otherwise they would be a duplicate. -/
def Turn.printed (t : Turn) : Bool := t.result.loc == t.location

section Loop
variable (cie : CIE) (fde : FDE)

/-- The turns from `i` on, and how they end. -/
def tableLoop : Nat → Int32 → Nat → Dictionary PoRegRule → List (Dictionary PoRegRule) →
    List Turn × Except Fault (List (Dictionary PoRegRule))
  | 0, _, _, _, stateStack => ([], .ok stateStack)
  | fuel + 1, i, numInstrsReadSoFar, rules, stateStack =>
    if i < fde.highpc ∨ 0 = i then
      match evaluateCounting cie (fde.instructions.drop numInstrsReadSoFar) rules stateStack fde.lowpc i 0 with
      | .error e => ([], .error e)
      | .ok (st, instrsRead) =>
        let rest := tableLoop fuel (i + 1) (numInstrsReadSoFar + instrsRead) st.rules st.stateStack
        (⟨i, rules, st⟩ :: rest.1, rest.2)
    else ([], .ok stateStack)

/-- No more turns than locations, and one for location 0. -/
def tableFuel : Nat := (fde.highpc.toInt - fde.lowpc.toInt).toNat + 1

def tableTurns (initialRules : Dictionary PoRegRule) (stateStack : List (Dictionary PoRegRule)) : List Turn :=
  (tableLoop cie fde (tableFuel fde) fde.lowpc 0 (dictDuplicate initialRules duplicatePoRegRule) stateStack).1

end Loop

/-! ## What it is for -/

def upTo (codeAlign : UInt64) (location : Int) : List RegInstruction → Int → List RegInstruction
  | [], _ => []
  | inst :: instrs, here =>
    match movesTo codeAlign inst here with
    | none => inst :: upTo codeAlign location instrs here
    | some next => if next ≤ location then inst :: upTo codeAlign location instrs next else []

/-- The rules of a turn are those of its location: the instructions up to it, applied once to the CIE's rules. -/
def RowRight (cie : CIE) (fde : FDE) (initialRules : Dictionary PoRegRule) (t : Turn) : Prop :=
  ∃ st, (upTo cie.codeAlign t.location.toInt fde.instructions fde.lowpc.toInt).foldlM (applyInstruction cie)
      ⟨initialRules, [], fde.lowpc⟩ = .ok st ∧
    ∀ name, dictGet t.result.rules name = dictGet st.rules name

/-- The evaluation for a location goes on where the one before ended, with instructions that restore only what they
remember. -/
def GoesOn (cie : CIE) (fde : FDE) (i : Int32) : Prop :=
  if i = fde.lowpc then restoresOwn 0 (evaluated cie fde i) = true
  else ∃ more, evaluated cie fde i = evaluated cie fde (i - 1) ++ more ∧ restoresOwn 0 more = true

/-- The tests of the evaluation for a location stop where the location is passed. -/
def StopsRight (cie : CIE) (fde : FDE) (i : Int32) : Prop :=
  evaluated cie fde i = upTo cie.codeAlign i.toInt fde.instructions fde.lowpc.toInt

/-! ## The turns of the loop -/

section Turns
variable {cie : CIE} {fde : FDE} {initialRules rules : Dictionary PoRegRule} {stateStack : List (Dictionary PoRegRule)}
  {i : Int32} {st : RuleState}

/-- Before the turn of `i` the rules are those of the location before, if every turn so far went on where the one before
it ended. -/
def RulesBefore (cie : CIE) (fde : FDE) (initialRules : Dictionary PoRegRule) (i : Int32) (rules : Dictionary PoRegRule) :
    Prop :=
  (∀ j, fde.lowpc ≤ j → j < i → GoesOn cie fde j) →
    if i = fde.lowpc then dictGet rules = dictGet initialRules
    else ∃ left, exec (cellOps cie (evaluated cie fde (i - 1))) (dictGet initialRules, []) = some (dictGet rules, left)

/-- **One turn**: what the evaluation gets through again changes nothing, and then it goes on. -/
theorem rules_after (hbefore : RulesBefore cie fde initialRules i rules) (hlow : fde.lowpc ≤ i)
    (heval : evaluateInstructionsToRules cie fde.instructions rules stateStack fde.lowpc i = .ok st)
    (hgoes : ∀ j, fde.lowpc ≤ j → j ≤ i → GoesOn cie fde j) :
    ∃ left, exec (cellOps cie (evaluated cie fde i)) (dictGet initialRules, []) = some (dictGet st.rules, left) := by
  obtain ⟨hrun, -⟩ := evaluated_cells heval
  have hstart := hbefore fun j hj hji => hgoes j hj (Int32.le_of_lt hji)
  have hthis := hgoes i hlow (Int32.le_refl i)
  unfold GoesOn at hthis
  by_cases hfirst : i = fde.lowpc
  · rw [if_pos hfirst] at hstart hthis
    rw [hstart] at hrun
    exact exec_own (restoresWithin_cellOps.mpr hthis) hrun
  · rw [if_neg hfirst] at hstart hthis
    obtain ⟨more, hmore, hown⟩ := hthis
    obtain ⟨left, hleft⟩ := hstart
    have hprev : restoresWithin 0 (cellOps cie (evaluated cie fde (i - 1))) := by
      have hsome : (exec (cellOps cie (evaluated cie fde (i - 1))) (dictGet initialRules, [])).isSome := by simp [hleft]
      exact exec_isSome_iff.mp hsome
    rw [hmore, cellOps_append] at hrun ⊢
    exact exec_again overwriting_fields (changesBy_cellOps cie _) hprev (restoresWithin_cellOps.mpr hown) hleft hrun

theorem next_toInt (h : i < fde.highpc ∨ 0 = i) : (i + 1).toInt = i.toInt + 1 := by
  have hhigh := fde.highpc.toInt_lt
  have hlow := i.le_toInt
  have hi : i.toInt < 2 ^ 31 - 1 := by
    rcases h with h | h
    · have := Int32.lt_iff_toInt_lt.mp h
      omega
    · rw [← h]
      decide
  rw [Int32.toInt_add]
  exact Int.bmod_eq_of_le (by simp; omega) (by simp; omega)

/-- What holds of a turn of the loop. -/
structure TurnOf (cie : CIE) (fde : FDE) (initialRules : Dictionary PoRegRule) (t : Turn) : Prop where
  from_low : fde.lowpc ≤ t.location
  evaluates : ∃ saved, exec (cellOps cie (evaluated cie fde t.location)) (dictGet t.rules, saved) = some t.result.cells
  supported : ∀ inst ∈ evaluated cie fde t.location, ruleSupported inst = true
  after : (∀ j, fde.lowpc ≤ j → j ≤ t.location → GoesOn cie fde j) →
    ∃ left, exec (cellOps cie (evaluated cie fde t.location)) (dictGet initialRules, []) =
      some (dictGet t.result.rules, left)

theorem tableLoop_turns {fuel : Nat} (hlow : fde.lowpc ≤ i) (hbefore : RulesBefore cie fde initialRules i rules) :
    ∀ t ∈ (tableLoop cie fde fuel i 0 rules stateStack).1, TurnOf cie fde initialRules t := by
  induction fuel generalizing i rules stateStack with
  | zero => simp [tableLoop]
  | succ fuel ih =>
    intro t ht
    unfold tableLoop at ht
    split at ht
    · rename_i hgo
      cases heval : evaluateInstructionsToRules cie fde.instructions rules stateStack fde.lowpc i with
      | error e => simp [evaluateCounting, heval] at ht
      | ok st =>
        simp only [evaluateCounting, List.drop_zero, heval, bind_ok, Nat.add_zero, List.mem_cons] at ht
        have hnext := next_toInt hgo
        rcases ht with rfl | ht
        · obtain ⟨hrun, hsupported⟩ := evaluated_cells heval
          exact ⟨hlow, ⟨_, hrun⟩, hsupported, rules_after hbefore hlow heval⟩
        · refine ih ?_ (fun hgoes => ?_) t ht
          · rw [Int32.le_iff_toInt_le] at hlow ⊢
            omega
          · rw [if_neg, Int32.add_sub_cancel]
            · exact rules_after hbefore hlow heval fun j hj hji => hgoes j hj (by
                rw [Int32.le_iff_toInt_le] at hji
                rw [Int32.lt_iff_toInt_lt]
                omega)
            · intro heq
              rw [Int32.le_iff_toInt_le] at hlow
              rw [← heq] at hlow
              omega
    · simp at ht

/-- The fuel is more than there are turns. -/
theorem tableLoop_fuel {fuel more n : Nat}
    (hfuel : (fde.highpc.toInt - i.toInt).toNat + (if i.toInt ≤ 0 then 1 else 0) ≤ fuel) :
    tableLoop cie fde (fuel + more) i n rules stateStack = tableLoop cie fde fuel i n rules stateStack := by
  have hgo : (i < fde.highpc ∨ 0 = i) ↔ i.toInt < fde.highpc.toInt ∨ 0 = i.toInt := by
    rw [Int32.lt_iff_toInt_lt, ← Int32.toInt_inj, Int32.toInt_zero]
  induction fuel generalizing i n rules stateStack with
  | zero =>
    cases more with
    | zero => rfl
    | succ more =>
      have hstop : ¬ (i < fde.highpc ∨ 0 = i) := by
        rw [hgo]
        split at hfuel <;> omega
      have hleft : tableLoop cie fde (more + 1) i n rules stateStack = ([], .ok stateStack) := by
        rw [tableLoop, if_neg hstop]
      rw [Nat.zero_add, hleft]
      rfl
  | succ fuel ih =>
    rw [Nat.succ_add, tableLoop, tableLoop]
    by_cases hturn : i < fde.highpc ∨ 0 = i
    · rw [if_pos hturn, if_pos hturn]
      have hnext := next_toInt hturn
      rw [hgo] at hturn
      cases evaluateCounting cie (fde.instructions.drop n) rules stateStack fde.lowpc i 0 with
      | error e => rfl
      | ok r =>
        obtain ⟨st, instrsRead⟩ := r
        dsimp only
        rw [ih]
        · rw [hnext]
          split at hfuel <;> split <;> omega
        · rw [Int32.lt_iff_toInt_lt, ← Int32.toInt_inj, Int32.toInt_zero]
    · rw [if_neg hturn, if_neg hturn]

theorem tableTurns_fuel (initialRules : Dictionary PoRegRule) (stateStack : List (Dictionary PoRegRule)) (more : Nat) :
    (tableLoop cie fde (tableFuel fde + more) fde.lowpc 0 (dictDuplicate initialRules duplicatePoRegRule) stateStack).1 =
      tableTurns cie fde initialRules stateStack := by
  rw [tableTurns, tableLoop_fuel]
  unfold tableFuel
  split <;> omega

/-- Every turn of the table's loop. -/
theorem tableTurns_turnOf (initialRules : Dictionary PoRegRule) (stateStack : List (Dictionary PoRegRule)) :
    ∀ t ∈ tableTurns cie fde initialRules stateStack, TurnOf cie fde initialRules t := by
  refine tableLoop_turns (Int32.le_refl _) fun _ => ?_
  rw [if_pos rfl]
  funext name
  rw [dictGet_duplicate]
  exact congrFun Option.map_id (dictGet initialRules name)

end Turns

/-! ## The rows -/

def tableRows (cie : CIE) (fde : FDE) (initialRules : Dictionary PoRegRule) (stateStack : List (Dictionary PoRegRule)) :
    List Turn := (tableTurns cie fde initialRules stateStack).filter Turn.printed

section Rows
variable {cie : CIE} {fde : FDE} {initialRules : Dictionary PoRegRule} {t : Turn} {i : Int32}

theorem TurnOf.rowRight (ht : TurnOf cie fde initialRules t) (hstops : StopsRight cie fde t.location)
    (hgoes : ∀ j, fde.lowpc ≤ j → j ≤ t.location → GoesOn cie fde j) : RowRight cie fde initialRules t := by
  obtain ⟨left, hrun⟩ := ht.after hgoes
  have hstart : exec _ (RuleState.cells ⟨initialRules, [], fde.lowpc⟩) = _ := hrun
  obtain ⟨st, hst, hcells⟩ := applied_of_cells ht.supported hstart
  rw [hstops] at hst
  have hrules : dictGet st.rules = dictGet t.result.rules := congrArg Prod.fst hcells
  exact ⟨st, hst, fun name => by rw [hrules]⟩

/-- The rules come out the same when what the instructions leave alone was the same before. -/
theorem TurnOf.rowRight_iff (ht : TurnOf cie fde initialRules t) (hstops : StopsRight cie fde t.location) :
    RowRight cie fde initialRules t ↔ restoresOwn 0 (evaluated cie fde t.location) = true ∧
      ∀ name, (ruleEffect cie (evaluated cie fde t.location) name).apply (dictGet t.rules name) =
        (ruleEffect cie (evaluated cie fde t.location) name).apply (dictGet initialRules name) := by
  obtain ⟨saved, hturn⟩ := ht.evaluates
  have hresult {e : Effects String PoRegRule} (he : effects (cellOps cie (evaluated cie fde t.location)) = some e) :
      dictGet t.result.rules = applyTo (dictGet t.rules) e.1 := by
    rw [exec_effects he, Option.some.injEq] at hturn
    exact (congrArg Prod.fst hturn).symm
  have heffect {e : Effects String PoRegRule} (he : effects (cellOps cie (evaluated cie fde t.location)) = some e) :
      ruleEffect cie (evaluated cie fde t.location) = e.1 := by
    funext name
    simp [ruleEffect, he]
  constructor
  · rintro ⟨st, hst, hget⟩
    rw [← hstops] at hst
    have hrun : exec _ (dictGet initialRules, []) = some st.cells := applied_cells hst
    have hown : restoresWithin 0 (cellOps cie (evaluated cie fde t.location)) := by
      have hsome : (exec (cellOps cie (evaluated cie fde t.location)) (dictGet initialRules, [])).isSome := by
        rw [hrun]
        rfl
      exact exec_isSome_iff.mp hsome
    obtain ⟨e, he⟩ := Option.isSome_iff_exists.mp (effects_isSome_iff.mpr hown)
    rw [exec_effects he, Option.some.injEq] at hrun
    have hst' : dictGet st.rules = applyTo (dictGet initialRules) e.1 := (congrArg Prod.fst hrun).symm
    refine ⟨restoresWithin_cellOps.mp hown, fun name => ?_⟩
    have hname := hget name
    rw [hresult he, hst'] at hname
    rw [heffect he]
    exact hname
  · rintro ⟨hown, halike⟩
    obtain ⟨e, he⟩ := Option.isSome_iff_exists.mp (effects_isSome_iff.mpr (restoresWithin_cellOps.mpr hown))
    have hstart : exec _ (RuleState.cells ⟨initialRules, [], fde.lowpc⟩) = _ := exec_effects he _ _
    obtain ⟨st, hst, hcells⟩ := applied_of_cells ht.supported hstart
    rw [hstops] at hst
    have hrules : dictGet st.rules = applyTo (dictGet initialRules) e.1 := congrArg Prod.fst hcells
    refine ⟨st, hst, fun name => ?_⟩
    rw [hresult he, hrules]
    have hname := halike name
    rw [heffect he] at hname
    exact hname

/-- **The rows of the table.** One whose location the tests stop at rightly is the table of that location if every turn
up to it went on where the one before ended, with instructions that restore only what they remember; and exactly if its
instructions restore only what they remember, and make of the rules before its evaluation what they make of the CIE's. -/
theorem table_row (cie : CIE) (fde : FDE) (initialRules : Dictionary PoRegRule)
    (stateStack : List (Dictionary PoRegRule)) : ∀ t ∈ tableRows cie fde initialRules stateStack,
      StopsRight cie fde t.location →
        ((∀ j, fde.lowpc ≤ j → j ≤ t.location → GoesOn cie fde j) → RowRight cie fde initialRules t) ∧
        (RowRight cie fde initialRules t ↔ restoresOwn 0 (evaluated cie fde t.location) = true ∧
          ∀ name, (ruleEffect cie (evaluated cie fde t.location) name).apply (dictGet t.rules name) =
            (ruleEffect cie (evaluated cie fde t.location) name).apply (dictGet initialRules name)) := by
  intro t ht hstops
  have hturn := tableTurns_turnOf initialRules stateStack t (List.mem_filter.mp ht).1
  exact ⟨hturn.rowRight hstops, hturn.rowRight_iff hstops⟩

theorem advance_mono {codeAlign : UInt64} {stop stop' loc loc' : Int32} {inst : RegInstruction} (hstop : 0 ≤ stop.toInt)
    (hle : stop.toInt ≤ stop'.toInt) (h : advance codeAlign stop inst loc = .move loc') :
    advance codeAlign stop' inst loc = .move loc' := by
  have htest (x : UInt64) (hx : ¬ (0 ≤ stop ∧ x > stop.toInt64.toUInt64)) :
      ¬ (0 ≤ stop' ∧ x > stop'.toInt64.toUInt64) := by
    rw [word_gt_iff] at hx ⊢
    unfold NotBeyond at hx ⊢
    omega
  unfold advance at h ⊢
  cases htype : inst.type <;> simp only [htype] at h ⊢ <;> first | cases h | skip
  all_goals
    split at h
    · cases h
    · rw [if_neg (htest _ ‹_›)]
      exact h

theorem advance_mono_other {codeAlign : UInt64} {stop stop' loc : Int32} {inst : RegInstruction}
    (h : advance codeAlign stop inst loc = .other) : advance codeAlign stop' inst loc = .other := by
  unfold advance at h ⊢
  cases htype : inst.type <;> simp only [htype] at h ⊢ <;> (split at h <;> cases h)

/-- An evaluation that stops later gets through no less. -/
theorem gotThrough_mono {codeAlign : UInt64} {stop stop' loc : Int32} (hstop : 0 ≤ stop.toInt)
    (hle : stop.toInt ≤ stop'.toInt) (instrs : List RegInstruction) :
    gotThrough codeAlign stop instrs loc <+: gotThrough codeAlign stop' instrs loc := by
  induction instrs generalizing loc with
  | nil => exact List.nil_prefix
  | cons inst instrs ih =>
    unfold gotThrough
    cases hadv : advance codeAlign stop inst loc with
    | stop => exact List.nil_prefix
    | move next =>
      rw [advance_mono hstop hle hadv]
      exact List.cons_prefix_cons.mpr ⟨rfl, ih⟩
    | other =>
      rw [advance_mono_other hadv]
      exact List.cons_prefix_cons.mpr ⟨rfl, ih⟩

/-- From location 1 on an evaluation goes on if what is new to it restores only what it remembers. -/
theorem goesOn_iff (hfirst : i ≠ fde.lowpc) (hpos : 0 < i.toInt) :
    GoesOn cie fde i ↔ restoresOwn 0 ((evaluated cie fde i).drop (evaluated cie fde (i - 1)).length) = true := by
  have hone : (i - 1).toInt = i.toInt - 1 := by
    have := i.toInt_lt
    rw [Int32.toInt_sub]
    exact Int.bmod_eq_of_le (by simp; omega) (by simp; omega)
  obtain ⟨more, hmore⟩ : evaluated cie fde (i - 1) <+: evaluated cie fde i := gotThrough_mono (by omega) (by omega) _
  rw [GoesOn, if_neg hfirst, ← hmore, List.drop_left]
  constructor
  · rintro ⟨more', heq, hown⟩
    rwa [List.append_cancel_left heq]
  · intro hown
    exact ⟨more, rfl, hown⟩

end Rows

def rbxRules : Dictionary PoRegRule :=
  match dictInsert (dictCreate 100) "r3/rbx" ⟨⟨.basic, 0, 3⟩, .offset, .zero, -8, 0⟩ with
  | .ok rules => rules
  | .error _ => dictCreate 100

/-- Remembered and restored at one location, and an advance behind it. -/
def restoredAtOnce : FDE :=
  ⟨0, [.blank .rememberState, offsetRbx, .blank .restoreState, ⟨.advanceLoc, 1, [], .zero, 0, .zero, 0⟩, offsetRbx],
    4, 6, false, 0, 0⟩

theorem restoredAtOnce_row : ∃ t ∈ tableRows exampleCIE restoredAtOnce rbxRules [],
    t.location = 5 ∧ RowRight exampleCIE restoredAtOnce rbxRules t := by
  have hloc : ((tableRows exampleCIE restoredAtOnce rbxRules []).get ⟨1, by decide⟩).location = 5 := by decide
  have hmem := List.get_mem (tableRows exampleCIE restoredAtOnce rbxRules []) ⟨1, by decide⟩
  refine ⟨_, hmem, hloc, (table_row exampleCIE restoredAtOnce rbxRules [] _ hmem ?_).1 fun j hj hj' => ?_⟩
  · rw [StopsRight, hloc]
    decide
  · rw [hloc, Int32.le_iff_toInt_le] at hj'
    rw [Int32.le_iff_toInt_le] at hj
    have hcases : j = 4 ∨ j = 5 := by
      have h4 : restoredAtOnce.lowpc.toInt = 4 := rfl
      have h5 : (5 : Int32).toInt = 5 := rfl
      rw [← Int32.toInt_inj, ← Int32.toInt_inj, h5]
      have h4' : (4 : Int32).toInt = 4 := rfl
      omega
    rcases hcases with rfl | rfl
    · rw [GoesOn, if_pos (by decide)]
      decide
    · rw [goesOn_iff (by decide) (by decide)]
      decide

/-- An advance between the remember and the restore. -/
def restoredLater : FDE :=
  ⟨0, [.blank .rememberState, offsetRbx, ⟨.advanceLoc, 1, [], .zero, 0, .zero, 0⟩, .blank .restoreState], 4, 6, false, 0, 0⟩

theorem not_rowRight : ¬ ∀ (cie : CIE) (fde : FDE) (initialRules : Dictionary PoRegRule)
    (stateStack : List (Dictionary PoRegRule)), ∀ t ∈ tableRows cie fde initialRules stateStack,
      RowRight cie fde initialRules t := by
  intro h
  obtain ⟨st, hst, hget⟩ := h exampleCIE restoredLater rbxRules [] _ (List.get_mem _ ⟨1, by decide⟩)
  have hrow : dictGet ((tableRows exampleCIE restoredLater rbxRules []).get ⟨1, by decide⟩).result.rules "r3/rbx" =
      some ⟨⟨.basic, 0, 3⟩, .offset, .zero, -16, 0⟩ := by decide
  have htable : ((upTo 1 5 restoredLater.instructions 4).foldlM (applyInstruction exampleCIE) ⟨rbxRules, [], 4⟩).map
      (fun st => dictGet st.rules "r3/rbx") = .ok (some ⟨⟨.basic, 0, 3⟩, .offset, .zero, -8, 0⟩) := by decide
  have hname := hget "r3/rbx"
  rw [hrow] at hname
  have hst' : (upTo 1 5 restoredLater.instructions 4).foldlM (applyInstruction exampleCIE) ⟨rbxRules, [], 4⟩ = .ok st := hst
  rw [hst'] at htable
  simp [Except.map, ← hname] at htable

end Katana

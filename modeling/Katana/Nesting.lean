/-
  Katana.Nesting — which FDEs nest which by value (dwarfvm.c).

  A fixup by value goes on into the FDE that it names, at the same object. The rules of an FDE are made by its own
  instructions. But the remembered states are one stack for all FDEs: one that restores a state it has not remembered takes
  what another one left there, with the fixups of that one.

  Proved, for every patch:
  - `rulesOf_mayNest`: what the rules of an FDE can go on into by value, on whatever stack the FDEs have left.
  - `mayNest_wf`: where no FDE can come to nest itself, nesting ends.
-/
import Katana.DwarfVm
import Katana.RuleCells
import Mathlib.Logic.Relation
import Mathlib.Data.Fintype.Card
import Mathlib.Data.Set.Finite.List

namespace Katana

open Lib

variable (bins : Binaries)

def evaluatedInstructions (fde : FDE) : List RegInstruction :=
  match bins.callFrameInfo.cies[fde.cie]? with
  | some cie => evaluated cie fde fde.highpc
  | none => []

/-- `f` has a fixup by value with `g`. -/
def Nests (f g : FDE) : Prop :=
  ∃ inst ∈ evaluatedInstructions bins f, inst.type = .katanaFixups ∧ patchFDE bins inst.arg3 = .ok g

/-- It restores a state that it has not remembered. -/
def RestoresOthers (fde : FDE) : Prop := restoresOwn 0 (evaluatedInstructions bins fde) = false

/-- It remembers a state that it does not restore. -/
def LeavesState (fde : FDE) : Prop := 0 < rememberedLeft 0 (evaluatedInstructions bins fde)

variable (root : FDE) (start : List (Dictionary PoRegRule))

/-- The fixups by value of the remembered states: of those at the start, and of those that FDEs leave. -/
inductive LeftToRestore : FDE → Prop
  | before {rules : Dictionary PoRegRule} {rule : PoRegRule} {g : FDE} : rules ∈ start → rule ∈ dictValues rules →
    rule.type = .recurseFixup → patchFDE bins rule.index = .ok g → LeftToRestore g
  | left {f g : FDE} : InPatch bins root f → LeavesState bins f → Nests bins f g → LeftToRestore g

/-- By an instruction of its own, or by a state that is not. -/
def MayNest (f g : FDE) : Prop :=
  InPatch bins root f ∧ (Nests bins f g ∨ RestoresOthers bins f ∧ LeftToRestore bins root start g)

/-- No FDE nests itself by its own instructions and those of the FDEs that it nests. -/
def NestingAcyclic : Prop := ∀ fde, ¬ Relation.TransGen (fun f g => InPatch bins root f ∧ Nests bins f g) fde fde

/-- Nor by states that others remembered. -/
def MayNestAcyclic : Prop := ∀ fde, ¬ Relation.TransGen (MayNest bins root start) fde fde

section
variable {bins root start}

/-- Where every FDE restores only what it has remembered, its own instructions are all there is to it. -/
theorem mayNestAcyclic_of_own (hown : ∀ fde, InPatch bins root fde → ¬ RestoresOthers bins fde) (h : NestingAcyclic bins root) :
    MayNestAcyclic bins root start := by
  have hle : MayNest bins root start ≤ fun f g => InPatch bins root f ∧ Nests bins f g := by
    intro f g ⟨hf, hnests⟩
    rcases hnests with hnests | ⟨hothers, -⟩
    · exact ⟨hf, hnests⟩
    · exact absurd hothers (hown f hf)
  exact fun fde hcycle => h fde (Relation.TransGen.mono hle fde fde hcycle)

theorem mem_of_patchFDE {index : UInt64} {fde : FDE} (h : patchFDE bins index = .ok fde) : fde ∈ bins.callFrameInfo.fdes := by
  unfold patchFDE at h
  split at h
  · rename_i hget
    cases h
    exact List.mem_of_getElem? hget
  · cases h

theorem MayNest.mem {f g : FDE} (h : MayNest bins root start f g) : g ∈ bins.callFrameInfo.fdes := by
  have hnests : ∀ {f g}, Nests bins f g → g ∈ bins.callFrameInfo.fdes := by
    intro f g hnests
    obtain ⟨inst, -, -, hfde⟩ := hnests
    exact mem_of_patchFDE hfde
  rcases h.2 with h | ⟨-, h⟩
  · exact hnests h
  · cases h with
    | before _ _ _ hfde => exact mem_of_patchFDE hfde
    | left _ _ h => exact hnests h

/-- There are finitely many FDEs to nest. -/
theorem mayNest_wf (h : MayNestAcyclic bins root start) : WellFounded fun g f => MayNest bins root start f g := by
  have hfinite : Finite {fde // fde ∈ bins.callFrameInfo.fdes} := (List.finite_toSet bins.callFrameInfo.fdes).to_subtype
  let r : {fde // fde ∈ bins.callFrameInfo.fdes} → {fde // fde ∈ bins.callFrameInfo.fdes} → Prop :=
    fun g f => Relation.TransGen (MayNest bins root start) f.1 g.1
  have htrans : IsTrans _ r := ⟨fun _ _ _ hab hbc => hbc.trans hab⟩
  have hirrefl : Std.Irrefl r := ⟨fun f => h f.1⟩
  have hwf : WellFounded r := Finite.wellFounded_of_trans_of_irrefl r
  have hpatch : ∀ f : {fde // fde ∈ bins.callFrameInfo.fdes}, Acc (fun g f => MayNest bins root start f g) f.1 := by
    intro f
    induction f using hwf.induction with
    | _ f ih => exact ⟨_, fun g hg => ih ⟨g, hg.mem⟩ (.single hg)⟩
  exact ⟨fun f => ⟨f, fun g hg => hpatch ⟨g, hg.mem⟩⟩⟩

/-! ## The rules of an FDE -/

/-- A fixup by value is one with these. -/
def FixesUp (bins : Binaries) (S : FDE → Prop) (rule : PoRegRule) : Prop :=
  rule.type = .recurseFixup → ∀ g, patchFDE bins rule.index = .ok g → S g

variable {S : FDE → Prop} {cie : CIE} {inst : RegInstruction} {rule : PoRegRule}

theorem FixesUp.mono {S' : FDE → Prop} (h : ∀ g, S g → S' g) (hrule : FixesUp bins S rule) : FixesUp bins S' rule :=
  fun htype g hg => h g (hrule htype g hg)

theorem fixesUp_changedRule (hinst : inst.type = .katanaFixups → ∀ g, patchFDE bins inst.arg3 = .ok g → S g)
    (hrule : FixesUp bins S rule) : FixesUp bins S (changedRule cie inst rule) := by
  unfold FixesUp at hrule ⊢
  cases htype : inst.type with
  | katanaFixups => simpa [changedRule, setRule, htype] using hinst htype
  | undefined | offset | register | defCfa | defCfaRegister | defCfaOffset | katanaFixupsPointer =>
    simp [changedRule, setRule, htype]
  | _ => simpa [changedRule, setRule, htype] using hrule

/-- The operations of instructions whose own fixups are with these. -/
theorem fixesUp_cellOps {instrs : List RegInstruction}
    (hinstrs : ∀ inst ∈ instrs, inst.type = .katanaFixups → ∀ g, patchFDE bins inst.arg3 = .ok g → S g) :
    ChangesWithin (FixesUp bins S) (cellOps cie instrs) := by
  intro key first change hmem
  obtain ⟨inst, hinst, hop⟩ := List.mem_filterMap.mp hmem
  have hblank : FixesUp bins S (.blank (ruleRegister inst)) := by
    intro htype
    cases htype
  unfold cellOp at hop
  split at hop
  · cases hop
  · cases hop
  · cases hop
  · cases hop
    exact ⟨fixesUp_changedRule (hinstrs inst hinst) hblank, fun rule hrule => fixesUp_changedRule (hinstrs inst hinst) hrule⟩

variable (bins root start) in
/-- The remembered states are those of the start and those the FDEs leave. -/
def StackFrom (stateStack : List (Dictionary PoRegRule)) : Prop :=
  ∀ rules ∈ stateStack, AllCells (FixesUp bins (LeftToRestore bins root start)) (dictGet rules)

theorem stackFrom_start : StackFrom bins root start start := by
  intro rules hrules key rule hget htype g hg
  obtain ⟨n, hn, -, hvalue⟩ := Table.get_eq_some_iff.mp hget
  exact .before hrules (List.mem_map.mpr ⟨n, hn, hvalue⟩) htype hg

/-- **What an FDE goes on into by value** it may nest, and the stack is one that the FDEs can leave. -/
theorem rulesOf_mayNest {fde : FDE} {stateStack : List (Dictionary PoRegRule)} {st : RuleState} (hfde : InPatch bins root fde)
    (hstack : StackFrom bins root start stateStack) (h : rulesOf bins fde stateStack = .ok st) :
    AllCells (FixesUp bins (MayNest bins root start fde)) (dictGet st.rules) ∧ StackFrom bins root start st.stateStack := by
  unfold rulesOf at h
  cases hcie : bins.callFrameInfo.cies[fde.cie]? with
  | none =>
    rw [hcie] at h
    cases h
  | some cie =>
    rw [hcie] at h
    obtain ⟨hrun, -⟩ := evaluated_cells h
    have hinstructions : evaluatedInstructions bins fde = evaluated cie fde fde.highpc := by
      unfold evaluatedInstructions
      rw [hcie]
    rw [← hinstructions] at hrun
    have hops : ChangesWithin (FixesUp bins (MayNest bins root start fde)) (cellOps cie (evaluatedInstructions bins fde)) :=
      fixesUp_cellOps fun inst hinst htype g hg => ⟨hfde, .inl ⟨inst, hinst, htype, hg⟩⟩
    have hempty : AllCells (FixesUp bins (MayNest bins root start fde))
        (dictGet (dictCreate 100 : Dictionary PoRegRule)) := by
      intro key rule hget
      rw [dictGet_create] at hget
      cases hget
    have hrest : restoresWithin 0 (cellOps cie (evaluatedInstructions bins fde)) ∨
        ∀ copy ∈ stateStack.map dictGet, AllCells (FixesUp bins (MayNest bins root start fde)) copy := by
      cases hown : restoresOwn 0 (evaluatedInstructions bins fde) with
      | true => exact .inl (restoresWithin_cellOps.mpr hown)
      | false =>
        right
        intro copy hcopy
        obtain ⟨rules, hrules, rfl⟩ := List.mem_map.mp hcopy
        intro key rule hget
        exact (hstack rules hrules key rule hget).mono fun g hg => ⟨hfde, .inr ⟨hown, hg⟩⟩
    obtain ⟨hrules, own, rest, hsaved, hsuffix, hlength, hown⟩ :=
      exec_within hops hempty (List.forall_mem_nil _) hrest hrun
    rw [copiesLeft_cellOps] at hlength
    refine ⟨hrules, ?_⟩
    intro rules hmem
    have hsaved : st.stateStack.map dictGet = own ++ rest := hsaved
    have hcells : dictGet rules ∈ own ++ rest := by
      rw [← hsaved]
      exact List.mem_map_of_mem hmem
    rcases List.mem_append.mp hcells with hcells | hcells
    · have hleaves : LeavesState bins fde := by
        unfold LeavesState
        have hpos := List.length_pos_of_mem hcells
        rw [hlength] at hpos
        exact hpos
      intro key rule hget
      refine (hown _ hcells key rule hget).mono ?_
      intro g ⟨_, hg⟩
      rcases hg with hg | ⟨-, hg⟩
      · exact .left hfde hleaves hg
      · exact hg
    · obtain ⟨before, hbefore, heq⟩ := List.mem_map.mp (hsuffix.subset hcells)
      rw [← heq]
      exact hstack before hbefore

end

end Katana

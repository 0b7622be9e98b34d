/-
  Katana.TransformWriter — how the transformations of types become FDEs (patchwrite/write_to_dwarf.c).

  `writeTransformationToDwarf` goes through a graph of transformers, which may be cyclic. It marks a
  transformer before it goes on. Every transformer gets an FDE of its own but that of a const type, which
  borrows the index of the FDE of what the type points to. A fixup names the transformation it goes on with
  by the index of its FDE.

  The recursion is given fuel.

  Proved, for every graph of transformers:
  - `write_writes`: what one call leaves as it was, and what it adds, whatever it comes back to.
  - `write_total`: the writer ends, and needs no more fuel than there are types.
  - `writesFixups_iff`: the fixups have the right indices, in whatever order types are transformed, exactly when nothing
    stops the writer and no const type leads back to itself.
-/
import Katana.TypeDiff
import Katana.Dwarf.Instr
import Katana.Lib.Marks

namespace Katana

open Lib Lib.Run

/-! ## Transformers -/

/-- What is there before anything is written. -/
structure TransformGraph (T : Type) where
  types : T → TypeInfo T
  transformer : T → Option (TypeTransform T)
  /-- The types that have a `die`. -/
  die : T → Bool
  /-- What `dwarf_add_frame_fde` of libdwarf returns when so many FDEs have been added. -/
  dwarfAddFrameFde : Nat → Nat

/-- `arg3` is the index of an FDE, in a fixup. -/
structure TransformInstruction where
  instr : DwarfInstruction
  arg3 : Nat
  deriving DecidableEq, Repr

/-- What libdwarf is told of an FDE, and the type whose transformation it is. -/
structure TransformFde (T : Type) where
  transformed : T
  die : T
  codeLength : Int32
  instrs : List TransformInstruction
  deriving DecidableEq, Repr

/-- `onDisk` and `fdeIdx` are by the type that is transformed. -/
structure TransformWriter (T : Type) where
  onDisk : T → Bool
  fdeIdx : T → Nat
  fdes : List (TransformFde T)

abbrev TransformWriterM (T : Type) := EStateM Halt (TransformWriter T)

variable {T : Type}

def TransformWriter.fresh : TransformWriter T := ⟨fun _ => false, fun _ => 0, []⟩

/-! ## Instructions -/

/-- An instruction before it is known where the transformation it goes on with is. Its index is written in four bytes, or in
as few septets as it takes. -/
inductive TransformStep (T : Type) where
  | register (arg1Bytes arg2Bytes : List UInt8)
  | fixup (opcode : CfaOp) (arg1Bytes arg2Bytes : List UInt8) (optimized : Bool) (target : Option T)

def TransformStep.target : TransformStep T → Option T
  | register _ _ => none
  | fixup _ _ _ _ target => target

def TransformStep.instruction (fdeIdx : Nat) : TransformStep T → TransformInstruction
  | register arg1Bytes arg2Bytes => ⟨{ DwarfInstruction.blank .register with arg1Bytes, arg2Bytes }, 0⟩
  | fixup opcode arg1Bytes arg2Bytes optimized _ =>
    let arg3Bytes := if optimized then encodeAsLEB128 (toLE 4 fdeIdx) false else encodeAsLEB128NoOptimization
      (toLE 4 fdeIdx) false
    ⟨{ DwarfInstruction.blank opcode with arg1Bytes, arg2Bytes, arg3Bytes }, fdeIdx⟩

def shortReg (new : Bool) (size : Int32) : List UInt8 := encodeAsLEB128NoOptimization (shortRegBytes new size) false

def longReg (new : Bool) (size offset : Int32) :
    List UInt8 := encodeAsLEB128NoOptimization (longRegBytes new size offset) false

variable (g : TransformGraph T)

def fieldStep (field : TypeField T) (off : Int32) (transformType : FieldTransformType) : Option (TransformStep T) :=
  let size := (g.types field.type).length
  let arg1Bytes := longReg true size off
  let arg2Bytes := longReg false size field.offset
  match transformType with
  | .delete => none
  | .recurse =>
    if (g.types field.type).type = .pointer then
      some (.fixup .katanaFixupsPointer arg1Bytes arg2Bytes true (g.types field.type).pointedType)
    else some (.fixup .katanaFixups arg1Bytes arg2Bytes true (some field.type))
  | .copy => some (.register arg1Bytes arg2Bytes)

/-- The loop over the fields. What the transformer was not filled with is zero, which is neither of the two that are
asked for. -/
def fieldSteps : List (TypeField T) → List (Int32 × FieldTransformType) → List (TransformStep T)
  | [], _ => []
  | field :: fields, filled =>
    let x := filled.headD (0, .copy)
    (fieldStep g field x.1 x.2).toList ++ fieldSteps fields filled.tail

def transformSteps (a : T) (transform : TypeTransform T) : Except Fault (List (TransformStep T)) :=
  if transform.straightCopy then do
    assert ((g.types a).length ≤ (g.types transform.toType).length)
    .ok [.register (shortReg true (g.types transform.toType).length) (shortReg false (g.types a).length)]
  else
    match (g.types a).type with
    | .pointer => .ok [.fixup .katanaFixupsPointer (shortReg true 8) (shortReg false 8) false (g.types a).pointedType]
    | .struct => .ok (fieldSteps g (g.types a).fields transform.fields)
    | _ => .error (.death "unsupported TypeInfo type in writeTransformationToDwarf\n")

/-! ## writeTransformationToDwarf -/

def faultOr {α : Type} (x : Except Fault α) : TransformWriterM T α := fromExcept (x.mapError .fault)

def writeUnlessOnDisk (recur : T → TransformWriterM T Unit) (a : T) : TransformWriterM T Unit := do
  let st ← get
  if st.onDisk a then pure () else recur a

def writeStep (recur : T → TransformWriterM T Unit) (step : TransformStep T) : TransformWriterM T TransformInstruction :=
  match step with
  | .register _ _ => pure (step.instruction 0)
  | .fixup _ _ _ _ none => throw (.fault .assertion)
  | .fixup _ _ _ _ (some target) => do
    faultOr (assert (g.transformer target).isSome)
    writeUnlessOnDisk recur target
    let st ← get
    pure (step.instruction (st.fdeIdx target))

def writeSteps (recur : T → TransformWriterM T Unit) : List (TransformStep T) →
    TransformWriterM T (List TransformInstruction)
  | [] => pure []
  | step :: steps => do
    let instr ← writeStep g recur step
    let instrs ← writeSteps recur steps
    pure (instr :: instrs)

def newFde (a : T) (transform : TypeTransform T) (instrs : List TransformInstruction) : TransformFde T :=
  ⟨a, transform.toType, (g.types transform.toType).length, instrs⟩

variable [DecidableEq T]

def addFde (a : T) (transform : TypeTransform T) (st : TransformWriter T) : TransformWriter T :=
  { st with
    fdeIdx := Function.update st.fdeIdx a (g.dwarfAddFrameFde st.fdes.length)
    fdes := st.fdes ++ [newFde g a transform []] }

/-- `dwarf_insert_fde_inst_bytes`, for the FDE at that place. -/
def insertInstrs (fde : Nat) (instrs : List TransformInstruction) (st : TransformWriter T) : TransformWriter T :=
  { st with fdes := st.fdes.modify fde fun fde => { fde with instrs } }

def writeFde (recur : T → TransformWriterM T Unit) (a : T) (transform : TypeTransform T) : TransformWriterM T Unit := do
  let st ← get
  faultOr (assert (g.die transform.toType))
  modify (addFde g a transform)
  let steps ← faultOr (transformSteps g a transform)
  let instrs ← writeSteps g recur steps
  modify (insertInstrs st.fdes.length instrs)

/-- A const type borrows the index. -/
def writeConst (recur : T → TransformWriterM T Unit) (a : T) : TransformWriterM T Unit :=
  match (g.types a).pointedType with
  | none => throw (.fault .undefined)
  | some pointed => do
    faultOr (assert (g.transformer pointed).isSome)
    recur pointed
    modify fun st => { st with fdeIdx := Function.update st.fdeIdx a (st.fdeIdx pointed) }

/-- `TT_CONST==trans->from->type && !trans->straightCopy`. -/
def borrowsIndex (a : T) (transform : TypeTransform T) : Bool := (g.types a).type == .const && !transform.straightCopy

def markOnDisk (a : T) (st : TransformWriter T) : TransformWriter T := { st with onDisk := Function.update st.onDisk a true }

/-- The transformation of `a`. -/
def writeTransformationToDwarf : Nat → T → TransformWriterM T Unit
  | 0, _ => throw .outOfFuel
  | fuel + 1, a =>
    match g.transformer a with
    | none => throw (.fault .undefined)
    | some transform =>
      if transform.freed then throw (.fault .undefined)
      else do
        let st ← get
        if st.onDisk a then pure ()
        else do
          modify (markOnDisk a)
          if borrowsIndex g a transform then writeConst g (writeTransformationToDwarf fuel) a
          else writeFde g (writeTransformationToDwarf fuel) a transform

def writeTransformations (fuel : Nat) : List T → TransformWriterM T Unit
  | [] => pure ()
  | a :: types => do
    writeTransformationToDwarf g fuel a
    writeTransformations fuel types

/-! ## What a transformation goes on with -/

/-- What an instruction goes on with has a transformer. -/
def HasTarget : TransformStep T → Prop
  | .register _ _ => True
  | .fixup _ _ _ _ target => ∃ b, target = some b ∧ (g.transformer b).isSome

def Borrows (a : T) : Prop := ∃ transform, g.transformer a = some transform ∧ borrowsIndex g a transform = true

def Refers (a b : T) : Prop :=
  ∃ transform, g.transformer a = some transform ∧
    ((borrowsIndex g a transform = true ∧ (g.types a).pointedType = some b) ∨
      (borrowsIndex g a transform = false ∧ ∃ steps step, transformSteps g a transform = .ok steps ∧ step ∈ steps ∧
      step.target = some b))

/-- Nothing stops the writer at `a`. -/
def Writable (a : T) : Prop :=
  ∃ transform, g.transformer a = some transform ∧ transform.freed = false ∧
    (borrowsIndex g a transform = true → ∃ b, (g.types a).pointedType = some b ∧ (g.transformer b).isSome) ∧
    (borrowsIndex g a transform = false →
      g.die transform.toType = true ∧ ∃ steps, transformSteps g a transform = .ok steps ∧ ∀ step ∈ steps, HasTarget g step)

/-- A const transformer that its own transformation comes back to. -/
def LeadsBack (a : T) : Prop := Borrows g a ∧ Relation.TransGen (Refers g) a a

/-! ## What has been written -/

/-- `i` is the index of `a`, or was read before `a` was given one. -/
def IndexOf (st st' : TransformWriter T) (a : T) (i : Nat) : Prop := i = st'.fdeIdx a ∨ (LeadsBack g a ∧ st.onDisk a = false)

def FdeFinished (st st' : TransformWriter T) (a : T) : Prop :=
  ∃ transform steps i instrs, g.transformer a = some transform ∧ transformSteps g a transform = .ok steps ∧
    st'.fdeIdx a = g.dwarfAddFrameFde i ∧ st'.fdes[i]? = some (newFde g a transform instrs) ∧
    List.Forall₂ (fun step instr => ∃ i, instr = step.instruction i ∧ ∀ b, step.target = some b →
      IndexOf g st st' b i) steps instrs

/-- A transformer that was written on the way from `st` to `st'`. -/
structure Finished (st st' : TransformWriter T) (a : T) : Prop where
  writable : Writable g a
  refers : ∀ b, Refers g a b → st'.onDisk b = true
  borrowed : Borrows g a → ∀ b, Refers g a b → IndexOf g st st' b (st'.fdeIdx a)
  fde : ¬ Borrows g a → FdeFinished g st st' a

/-- What was there stays. -/
structure Grows (st st' : TransformWriter T) : Prop where
  onDisk : ∀ a, st.onDisk a = true → st'.onDisk a = true
  fdeIdx : ∀ a, st.onDisk a = true → st'.fdeIdx a = st.fdeIdx a
  fdes : st.fdes <+: st'.fdes

structure Writes (st st' : TransformWriter T) : Prop extends Grows st st' where
  finished : ∀ a, st.onDisk a = false → st'.onDisk a = true → Finished g st st' a
  /-- No other FDEs are added. -/
  added : ∀ i fde, st.fdes.length ≤ i → st'.fdes[i]? = some fde →
    st.onDisk fde.transformed = false ∧ st'.onDisk fde.transformed = true ∧ ¬ Borrows g fde.transformed ∧
      st'.fdeIdx fde.transformed = g.dwarfAddFrameFde i

section
variable {g}

omit [DecidableEq T]

theorem Grows.refl (st : TransformWriter T) : Grows st st := ⟨fun _ h => h, fun _ _ => rfl, List.prefix_refl _⟩

theorem Grows.trans {st st1 st' : TransformWriter T} (h : Grows st st1) (h' : Grows st1 st') : Grows st st' := by
  refine ⟨fun a ha => h'.onDisk a (h.onDisk a ha), ?_, h.fdes.trans h'.fdes⟩
  intro a ha
  rw [h'.fdeIdx a (h.onDisk a ha), h.fdeIdx a ha]

theorem Grows.unmarked {st st' : TransformWriter T} (h : Grows st st') {a : T} (ha : st'.onDisk a = false) :
    st.onDisk a = false := by
  by_cases hst : st.onDisk a = true
  · rw [h.onDisk a hst] at ha
    cases ha
  · simpa using hst

theorem Grows.getElem {st st' : TransformWriter T} (h : Grows st st') {i : Nat} {fde : TransformFde T}
    (hi : st.fdes[i]? = some fde) : st'.fdes[i]? = some fde := by
  obtain ⟨added, hadded⟩ := h.fdes
  have hlt : i < st.fdes.length := (List.getElem?_eq_some_iff.mp hi).1
  rw [← hadded, List.getElem?_append_left hlt, hi]

/-- What was written goes on being so, as long as the indices that were read go on being right. -/
theorem Finished.lift {st st1 st2 st' : TransformWriter T} {a : T} (h : Finished g st1 st2 a)
    (hdisk : ∀ b, st2.onDisk b = true → st'.onDisk b = true) (hidx : st'.fdeIdx a = st2.fdeIdx a)
    (hfde : ∀ (i : Nat) (fde : TransformFde T), st2.fdes[i]? = some fde → fde.transformed = a → st'.fdes[i]? = some fde)
    (hindex : ∀ b i, Refers g a b → st2.onDisk b = true → IndexOf g st1 st2 b i → IndexOf g st st' b i) :
    Finished g st st' a := by
  refine ⟨h.writable, fun b hb => hdisk b (h.refers b hb), ?_, ?_⟩
  · intro hborrows b hb
    rw [hidx]
    exact hindex b _ hb (h.refers b hb) (h.borrowed hborrows b hb)
  · intro hborrows
    obtain ⟨transform, steps, i, instrs, htransform, hsteps, hi, hget, hinstrs⟩ := h.fde hborrows
    refine ⟨transform, steps, i, instrs, htransform, hsteps, hidx.trans hi, hfde i _ hget rfl, ?_⟩
    have hown : borrowsIndex g a transform = false := by
      by_cases hborrow : borrowsIndex g a transform = true
      · exact absurd ⟨transform, htransform, hborrow⟩ hborrows
      · simpa using hborrow
    refine ((List.forall₂_and_left steps instrs).mpr ⟨fun step hstep => hstep, hinstrs⟩).imp ?_
    intro step instr hstep
    obtain ⟨hmem, i, hinstr, hread⟩ := hstep
    refine ⟨i, hinstr, ?_⟩
    intro b hb
    have hrefers : Refers g a b := ⟨transform, htransform, .inr ⟨hown, steps, step, hsteps, hmem, hb⟩⟩
    exact hindex b i hrefers (h.refers b hrefers) (hread b hb)

theorem Writes.refl (st : TransformWriter T) : Writes g st st := by
  refine ⟨.refl st, ?_, ?_⟩
  · intro a hnew hdone
    rw [hnew] at hdone
    cases hdone
  · intro i fde hi hget
    exact absurd (List.getElem?_eq_some_iff.mp hget).1 (by omega)

theorem Writes.trans {st st1 st' : TransformWriter T} (h : Writes g st st1) (h' : Writes g st1 st') : Writes g st st' := by
  refine ⟨h.toGrows.trans h'.toGrows, ?_, ?_⟩
  · intro a hnew hdone
    by_cases hfirst : st1.onDisk a = true
    · refine (h.finished a hnew hfirst).lift h'.onDisk (h'.fdeIdx a hfirst) (fun i fde hget _ => h'.getElem hget) ?_
      intro b i _ hb hindex
      rcases hindex with hindex | hindex
      · exact .inl (by rw [hindex, h'.fdeIdx b hb])
      · exact .inr hindex
    · refine (h'.finished a (by simpa using hfirst) hdone).lift (fun _ hb => hb) rfl (fun _ _ hget _ => hget) ?_
      intro b i _ _ hindex
      rcases hindex with hindex | ⟨hleads, hmark⟩
      · exact .inl hindex
      · exact .inr ⟨hleads, h.unmarked hmark⟩
  · intro i fde hi hget
    by_cases hfirst : i < st1.fdes.length
    · have hget1 : st1.fdes[i]? = some fde := by
        rw [List.getElem?_eq_getElem hfirst, ← h'.getElem (List.getElem?_eq_getElem hfirst), hget]
      obtain ⟨hnew, hdone, hborrows, hidx⟩ := h.added i fde hi hget1
      exact ⟨hnew, h'.onDisk _ hdone, hborrows, (h'.fdeIdx _ hdone).trans hidx⟩
    · obtain ⟨hnew, hdone, hborrows, hidx⟩ := h'.added i fde (by omega) hget
      exact ⟨h.unmarked hnew, hdone, hborrows, hidx⟩

variable (g) in
/-- What the recursion is used for. -/
structure RecurWrites (recur : T → TransformWriterM T Unit) : Prop where
  writes : ∀ a st st', recur a st = .ok () st' → Writes g st st'
  onDisk : ∀ a st st', recur a st = .ok () st' → st'.onDisk a = true
  reached : ∀ a st st', recur a st = .ok () st' → ∀ b, st.onDisk b = false → st'.onDisk b = true →
    Relation.ReflTransGen (Refers g) a b

variable (g) in
/-- What an instruction goes on with has been written. -/
def TargetWritten (st' : TransformWriter T) (step : TransformStep T) : Prop :=
  HasTarget g step ∧ ∀ b, step.target = some b → st'.onDisk b = true

variable (g) in
/-- An instruction that was written, with the index as it is. -/
def StepWritten (st' : TransformWriter T) (step : TransformStep T) (instr : TransformInstruction) : Prop :=
  TargetWritten g st' step ∧ ∃ i, instr = step.instruction i ∧ ∀ b, step.target = some b → i = st'.fdeIdx b

theorem StepWritten.mono {st st' : TransformWriter T} (h : Grows st st') {step : TransformStep T}
    {instr : TransformInstruction}
    (hstep : StepWritten g st step instr) : StepWritten g st' step instr := by
  obtain ⟨⟨htarget, hdone⟩, i, hinstr, hread⟩ := hstep
  refine ⟨⟨htarget, fun b hb => h.onDisk b (hdone b hb)⟩, i, hinstr, ?_⟩
  intro b hb
  rw [hread b hb, h.fdeIdx b (hdone b hb)]

theorem faultOr_ok {α : Type} {x : Except Fault α} {r : α} {st st' : TransformWriter T}
    (h : faultOr x st = .ok r st') : x = .ok r ∧ st' = st := by
  obtain ⟨hx, hst'⟩ := fromExcept_ok.mp h
  cases x with
  | error f => cases hx
  | ok y => exact ⟨congrArg _ (Except.ok.inj hx), hst'⟩

variable {recur : T → TransformWriterM T Unit}

/-- The mark only saves the call. -/
theorem writeUnlessOnDisk_ok (hrec : RecurWrites g recur) : RecurWrites g (writeUnlessOnDisk recur) := by
  have hcases : ∀ a st st', writeUnlessOnDisk recur a st = .ok () st' →
      (st.onDisk a = true ∧ st' = st) ∨ recur a st = .ok () st' := by
    intro a st st' h
    obtain ⟨st1, s1, hget, h⟩ := run_bind_ok.mp h
    cases hget
    by_cases hdone : st.onDisk a = true
    · rw [if_pos hdone] at h
      exact .inl ⟨hdone, (pure_ok.mp h).2⟩
    · rw [if_neg hdone] at h
      exact .inr h
  refine ⟨?_, ?_, ?_⟩
  · intro a st st' h
    rcases hcases a st st' h with ⟨_, hst'⟩ | hcall
    · rw [hst']
      exact .refl st
    · exact hrec.writes a st st' hcall
  · intro a st st' h
    rcases hcases a st st' h with ⟨hdone, hst'⟩ | hcall
    · rw [hst']
      exact hdone
    · exact hrec.onDisk a st st' hcall
  · intro a st st' h b hnew hdone
    rcases hcases a st st' h with ⟨_, hst'⟩ | hcall
    · rw [hst', hnew] at hdone
      cases hdone
    · exact hrec.reached a st st' hcall b hnew hdone

theorem writeStep_ok (hrec : RecurWrites g recur) {step : TransformStep T} {instr : TransformInstruction}
    {st st' : TransformWriter T}
    (h : writeStep g recur step st = .ok instr st') : Writes g st st' ∧ StepWritten g st' step instr ∧
      ∀ b, st.onDisk b = false → st'.onDisk b = true → ∃ e, step.target = some e ∧ Relation.ReflTransGen (Refers g) e b := by
  cases step with
  | register arg1Bytes arg2Bytes =>
    obtain ⟨hinstr, hst'⟩ := pure_ok.mp h
    rw [hst']
    refine ⟨.refl st, ⟨⟨trivial, nofun⟩, 0, hinstr, nofun⟩, ?_⟩
    intro b hnew hdone
    rw [hnew] at hdone
    cases hdone
  | fixup opcode arg1Bytes arg2Bytes optimized target =>
    cases target with
    | none => cases h
    | some e =>
      have hwrites := writeUnlessOnDisk_ok hrec
      obtain ⟨_, st1, hassert, h⟩ := run_bind_ok.mp h
      obtain ⟨hsome, hst1⟩ := faultOr_ok hassert
      obtain ⟨_, st2, hwrite, h⟩ := run_bind_ok.mp h
      obtain ⟨st3, s3, hget, h⟩ := run_bind_ok.mp h
      cases hget
      obtain ⟨hinstr, hst'⟩ := pure_ok.mp h
      rw [hst1] at hwrite
      rw [hst']
      refine ⟨hwrites.writes e st _ hwrite, ⟨⟨⟨e, rfl, assert_ok hsome⟩, ?_⟩, _, hinstr, ?_⟩, ?_⟩
      · intro b hb
        cases hb
        exact hwrites.onDisk e st _ hwrite
      · intro b hb
        cases hb
        rfl
      · intro b hnew hdone
        exact ⟨e, rfl, hwrites.reached e st _ hwrite b hnew hdone⟩

theorem writeSteps_ok (hrec : RecurWrites g recur) {steps : List (TransformStep T)} {instrs : List TransformInstruction}
    {st st' : TransformWriter T} (h : writeSteps g recur steps st = .ok instrs st') :
    Writes g st st' ∧ List.Forall₂ (StepWritten g st') steps instrs ∧ ∀ b, st.onDisk b = false → st'.onDisk b = true →
      ∃ step e, step ∈ steps ∧ step.target = some e ∧ Relation.ReflTransGen (Refers g) e b := by
  induction steps generalizing st instrs with
  | nil =>
    obtain ⟨hinstrs, hst'⟩ := pure_ok.mp h
    rw [hinstrs, hst']
    refine ⟨.refl st, .nil, ?_⟩
    intro b hnew hdone
    rw [hnew] at hdone
    cases hdone
  | cons step steps ih =>
    obtain ⟨instr, st1, hfirst, h⟩ := run_bind_ok.mp h
    obtain ⟨rest, st2, hrest, h⟩ := run_bind_ok.mp h
    obtain ⟨hinstrs, hst'⟩ := pure_ok.mp h
    rw [← hst'] at hrest
    obtain ⟨hwrites, hwritten, hreached⟩ := writeStep_ok hrec hfirst
    obtain ⟨hwrites', hwritten', hreached'⟩ := ih hrest
    rw [hinstrs]
    refine ⟨hwrites.trans hwrites', .cons (hwritten.mono hwrites'.toGrows) hwritten', ?_⟩
    intro b hnew hdone
    by_cases hdone1 : st1.onDisk b = true
    · obtain ⟨e, htarget, hpath⟩ := hreached b hnew hdone1
      exact ⟨step, e, List.mem_cons_self, htarget, hpath⟩
    · obtain ⟨step', e, hmem, htarget, hpath⟩ := hreached' b (by simpa using hdone1) hdone
      exact ⟨step', e, List.mem_cons_of_mem _ hmem, htarget, hpath⟩

end

section
variable {g} {recur : T → TransformWriterM T Unit} {a : T} {transform : TypeTransform T}

@[simp] theorem markOnDisk_self (st : TransformWriter T) : (markOnDisk a st).onDisk a = true := by simp [markOnDisk]

theorem markOnDisk_of {st : TransformWriter T} {b : T} (h : st.onDisk b = true) : (markOnDisk a st).onDisk b = true := by
  by_cases hb : b = a
  · simp [markOnDisk, hb]
  · simp [markOnDisk, hb, h]

theorem markOnDisk_ne {st : TransformWriter T} {b : T} (hb : b ≠ a) : (markOnDisk a st).onDisk b = st.onDisk b := by
  simp [markOnDisk, hb]

omit [DecidableEq T] in
theorem insertInstrs_ne {n i : Nat} (h : n ≠ i) (instrs : List TransformInstruction) (st : TransformWriter T) :
    (insertInstrs n instrs st).fdes[i]? = st.fdes[i]? := by simp [insertInstrs, h]

omit [DecidableEq T] in
theorem insertInstrs_self {n : Nat} {st : TransformWriter T} (instrs : List TransformInstruction)
    (h : st.fdes[n]? = some (newFde g a transform [])) :
    (insertInstrs n instrs st).fdes[n]? = some (newFde g a transform instrs) := by
  simp [insertInstrs, h, newFde]

omit [DecidableEq T] in
theorem insertInstrs_prefix {l : List (TransformFde T)} (instrs : List TransformInstruction) {st : TransformWriter T}
    (h : l <+: st.fdes) : l <+: (insertInstrs l.length instrs st).fdes := by
  refine ⟨(st.fdes.drop l.length).modifyHead fun fde => { fde with instrs }, ?_⟩
  rw [insertInstrs, List.modify_eq_take_drop, ← List.prefix_iff_eq_take.mp h]

omit [DecidableEq T] in
theorem borrows_iff (htransform : g.transformer a = some transform) : Borrows g a ↔ borrowsIndex g a transform = true := by
  refine ⟨?_, fun h => ⟨transform, htransform, h⟩⟩
  intro ⟨t, ht, hborrow⟩
  cases htransform.symm.trans ht
  exact hborrow

omit [DecidableEq T] in
theorem refers_own {b : T} (htransform : g.transformer a = some transform) (hown : borrowsIndex g a transform = false)
    {steps : List (TransformStep T)} (hsteps : transformSteps g a transform = .ok steps) :
    Refers g a b ↔ ∃ step ∈ steps, step.target = some b := by
  refine ⟨?_, fun ⟨step, hmem, hb⟩ => ⟨transform, htransform, .inr ⟨hown, steps, step, hsteps, hmem, hb⟩⟩⟩
  intro ⟨t, ht, h⟩
  cases htransform.symm.trans ht
  rcases h with ⟨hborrow, _⟩ | ⟨_, steps', step, hsteps', hmem, hb⟩
  · rw [hown] at hborrow
    cases hborrow
  · cases hsteps.symm.trans hsteps'
    exact ⟨step, hmem, hb⟩

omit [DecidableEq T] in
theorem refers_borrowed {b : T} (htransform : g.transformer a = some transform)
    (hborrow : borrowsIndex g a transform = true) :
    Refers g a b ↔ (g.types a).pointedType = some b := by
  refine ⟨?_, fun hb => ⟨transform, htransform, .inl ⟨hborrow, hb⟩⟩⟩
  intro ⟨t, ht, h⟩
  cases htransform.symm.trans ht
  rcases h with ⟨_, hb⟩ | ⟨hown, _⟩
  · exact hb
  · rw [hborrow] at hown
    cases hown

omit [DecidableEq T] in
/-- An index that was read while another transformer was at work goes on being right, or was read too early. -/
theorem IndexOf.finish {st st1 st2 st' : TransformWriter T} {b : T} {i : Nat} (h : IndexOf g st1 st2 b i)
    (hmark : ∀ b, st.onDisk b = true → st1.onDisk b = true)
    (hidx : st'.fdeIdx b = st2.fdeIdx b ∨ (LeadsBack g b ∧ st.onDisk b = false)) : IndexOf g st st' b i := by
  rcases h with hindex | ⟨hleads, hb⟩
  · rcases hidx with hsame | hback
    · exact .inl (hindex.trans hsame.symm)
    · exact .inr hback
  · refine .inr ⟨hleads, ?_⟩
    by_cases hst : st.onDisk b = true
    · rw [hmark b hst] at hb
      cases hb
    · simpa using hst

theorem writeFde_run {st0 st' : TransformWriter T} (h : writeFde g recur a transform st0 = .ok () st') :
    g.die transform.toType = true ∧ ∃ steps instrs st2, transformSteps g a transform = .ok steps ∧
      writeSteps g recur steps (addFde g a transform st0) = .ok instrs st2 ∧
        st' = insertInstrs st0.fdes.length instrs st2 := by
  obtain ⟨_, _, hget, h⟩ := run_bind_ok.mp h
  cases hget
  obtain ⟨_, s, hassert, h⟩ := run_bind_ok.mp h
  obtain ⟨hassert, hs⟩ := faultOr_ok hassert
  obtain ⟨_, st1, hadd, h⟩ := run_bind_ok.mp h
  cases hadd
  obtain ⟨steps, s1, hsteps, h⟩ := run_bind_ok.mp h
  obtain ⟨hsteps, hs1⟩ := faultOr_ok hsteps
  obtain ⟨instrs, st2, hwrite, h⟩ := run_bind_ok.mp h
  cases h
  rw [hs1, hs] at hwrite
  exact ⟨assert_ok hassert, steps, instrs, st2, hsteps, hwrite, rfl⟩

theorem writeFde_ok (hrec : RecurWrites g recur) {st st' : TransformWriter T} (htransform : g.transformer a = some transform)
    (hfreed : transform.freed = false) (hown : borrowsIndex g a transform = false) (hnew : st.onDisk a = false)
    (h : writeFde g recur a transform (markOnDisk a st) = .ok () st') :
    Writes g st st' ∧ st'.onDisk a = true ∧ ∀ b, st.onDisk b = false → st'.onDisk b = true →
      Relation.ReflTransGen (Refers g) a b := by
  obtain ⟨hdie, steps, instrs, st2, hsteps, hwrite, hst'⟩ := writeFde_run h
  have hlen : (markOnDisk a st).fdes.length = st.fdes.length := rfl
  rw [hlen] at hst'
  obtain ⟨hwrites, hwritten, hreached⟩ := writeSteps_ok hrec hwrite
  have htargets := ((List.forall₂_and_left steps instrs).mp hwritten).1
  set st1 := addFde g a transform (markOnDisk a st) with hst1
  have hborrows : ¬ Borrows g a := by
    rw [borrows_iff htransform, hown]
    simp
  have hmark : ∀ b, st.onDisk b = true → st1.onDisk b = true := fun b hb => markOnDisk_of hb
  have hself : st1.onDisk a = true := markOnDisk_self st
  have hother : ∀ b, b ≠ a → st1.onDisk b = st.onDisk b := fun b hb => markOnDisk_ne hb
  have hfdes : st1.fdes = st.fdes ++ [newFde g a transform []] := rfl
  have hplace : st2.fdes[st.fdes.length]? = some (newFde g a transform []) := hwrites.getElem (by rw [hfdes]; simp)
  have hidx : st2.fdeIdx a = g.dwarfAddFrameFde st.fdes.length := by
    rw [hwrites.fdeIdx a hself, hst1]
    simp [addFde, markOnDisk]
  rw [hst']
  refine ⟨⟨⟨?_, ?_, ?_⟩, ?_, ?_⟩, hwrites.onDisk a hself, ?_⟩
  · exact fun b hb => hwrites.onDisk b (hmark b hb)
  · intro b hb
    have hne : b ≠ a := by
      intro heq
      rw [heq, hnew] at hb
      cases hb
    have hfirst : st1.fdeIdx b = st.fdeIdx b := by simp [hst1, addFde, markOnDisk, hne]
    exact (hwrites.fdeIdx b (hmark b hb)).trans hfirst
  · exact insertInstrs_prefix instrs ((List.prefix_append _ _).trans hwrites.fdes)
  · intro b hb hdone
    by_cases hba : b = a
    · rw [hba]
      refine ⟨⟨transform, htransform, hfreed, ?_,
        fun _ => ⟨hdie, steps, hsteps, fun step hstep => (htargets step hstep).1⟩⟩, ?_, ?_, ?_⟩
      · intro hborrow
        rw [hown] at hborrow
        cases hborrow
      · intro e he
        obtain ⟨step, hmem, htarget⟩ := (refers_own htransform hown hsteps).mp he
        exact (htargets step hmem).2 e htarget
      · exact fun h => absurd h hborrows
      · intro _
        refine ⟨transform, steps, st.fdes.length, instrs, htransform, hsteps, hidx, insertInstrs_self instrs hplace, ?_⟩
        refine hwritten.imp ?_
        intro step instr hstep
        obtain ⟨-, i, hinstr, hread⟩ := hstep
        exact ⟨i, hinstr, fun e he => .inl (hread e he)⟩
    · refine (hwrites.finished b (by rw [hother b hba]; exact hb) hdone).lift (fun _ h => h) rfl ?_ ?_
      · intro i fde hi hfde
        rw [insertInstrs_ne]
        · exact hi
        · intro hplace'
          rw [← hplace', hplace] at hi
          cases hi
          exact hba hfde.symm
      · exact fun e i _ _ he => he.finish hmark (.inl rfl)
  · intro i fde hi hfde
    by_cases hplace' : st.fdes.length = i
    · rw [← hplace', insertInstrs_self instrs hplace] at hfde
      cases hfde
      exact ⟨hnew, hwrites.onDisk a hself, hborrows, by rw [← hplace']; exact hidx⟩
    · rw [insertInstrs_ne hplace'] at hfde
      have hlen1 : st1.fdes.length = st.fdes.length + 1 := by rw [hfdes]; simp
      obtain ⟨hnew', hdone, hborrows', hidx'⟩ := hwrites.added i fde (by omega) hfde
      refine ⟨?_, hdone, hborrows', hidx'⟩
      by_cases hst : st.onDisk fde.transformed = true
      · rw [hmark _ hst] at hnew'
        cases hnew'
      · simpa using hst
  · intro b hb hdone
    by_cases hba : b = a
    · rw [hba]
    · obtain ⟨step, e, hmem, he, hpath⟩ := hreached b (by rw [hother b hba]; exact hb) hdone
      exact .head ((refers_own htransform hown hsteps).mpr ⟨step, hmem, he⟩) hpath

theorem writeConst_run {st0 st' : TransformWriter T} (h : writeConst g recur a st0 = .ok () st') :
    ∃ b st2, (g.types a).pointedType = some b ∧ (g.transformer b).isSome ∧ recur b st0 = .ok () st2 ∧
      st' = { st2 with fdeIdx := Function.update st2.fdeIdx a (st2.fdeIdx b) } := by
  unfold writeConst at h
  cases hpointed : (g.types a).pointedType with
  | none =>
    rw [hpointed] at h
    cases h
  | some b =>
    rw [hpointed] at h
    obtain ⟨_, s, hassert, h⟩ := run_bind_ok.mp h
    obtain ⟨hassert, hs⟩ := faultOr_ok hassert
    obtain ⟨_, st2, hcall, h⟩ := run_bind_ok.mp h
    cases h
    rw [hs] at hcall
    exact ⟨b, st2, rfl, assert_ok hassert, hcall, rfl⟩

theorem writeConst_ok (hrec : RecurWrites g recur) {st st' : TransformWriter T}
    (htransform : g.transformer a = some transform)
    (hfreed : transform.freed = false) (hborrow : borrowsIndex g a transform = true) (hnew : st.onDisk a = false)
    (h : writeConst g recur a (markOnDisk a st) = .ok () st') :
    Writes g st st' ∧ st'.onDisk a = true ∧ ∀ b, st.onDisk b = false → st'.onDisk b = true →
      Relation.ReflTransGen (Refers g) a b := by
  obtain ⟨e, st2, hpointed, hsome, hcall, hst'⟩ := writeConst_run h
  have hwrites := hrec.writes e _ _ hcall
  have hreached := hrec.reached e _ _ hcall
  have hdoneE : st2.onDisk e = true := hrec.onDisk e _ _ hcall
  have hborrows : Borrows g a := (borrows_iff htransform).mpr hborrow
  have hrefers : Refers g a e := (refers_borrowed htransform hborrow).mpr hpointed
  have hmark : ∀ b, st.onDisk b = true → (markOnDisk a st).onDisk b = true := fun b hb => markOnDisk_of hb
  have hself := hwrites.onDisk a (markOnDisk_self st)
  have hpath : ∀ b, st.onDisk b = false → st2.onDisk b = true → Relation.ReflTransGen (Refers g) a b := by
    intro b hb hdone
    by_cases hba : b = a
    · rw [hba]
    · exact .head hrefers (hreached b (by rw [markOnDisk_ne hba]; exact hb) hdone)
  rw [hst']
  refine ⟨⟨⟨?_, ?_, hwrites.fdes⟩, ?_, ?_⟩, hself, hpath⟩
  · exact fun b hb => hwrites.onDisk b (hmark b hb)
  · intro b hb
    have hne : b ≠ a := by
      intro heq
      rw [heq, hnew] at hb
      cases hb
    have hkept : st2.fdeIdx b = st.fdeIdx b := hwrites.fdeIdx b (hmark b hb)
    simpa [hne] using hkept
  · intro b hb hdone
    by_cases hba : b = a
    · rw [hba]
      refine ⟨⟨transform, htransform, hfreed, fun _ => ⟨e, hpointed, hsome⟩, ?_⟩, ?_, ?_, fun h => absurd hborrows h⟩
      · intro hown
        rw [hborrow] at hown
        cases hown
      · intro b' hb'
        cases hpointed.symm.trans ((refers_borrowed htransform hborrow).mp hb')
        exact hdoneE
      · intro _ b' hb'
        cases hpointed.symm.trans ((refers_borrowed htransform hborrow).mp hb')
        by_cases hea : e = a
        · rw [hea] at hrefers ⊢
          exact .inr ⟨⟨hborrows, .single hrefers⟩, hnew⟩
        · exact .inl (by simp [hea])
    · refine (hwrites.finished b (by rw [markOnDisk_ne hba]; exact hb) hdone).lift (fun _ h => h) ?_ (fun _ _ hi _ => hi) ?_
      · simp [hba]
      · intro e' i he' _ hindex
        refine hindex.finish hmark ?_
        by_cases hea : e' = a
        · -- an index of the const type that is still to come
          rw [hea] at he' ⊢
          exact .inr ⟨⟨hborrows, .tail' (hpath b hb hdone) he'⟩, hnew⟩
        · exact .inl (by simp [hea])
  · intro i fde hi hfde
    obtain ⟨hnew', hdone, hborrows', hidx'⟩ := hwrites.added i fde hi hfde
    have hne : fde.transformed ≠ a := by
      intro heq
      rw [heq] at hborrows'
      exact hborrows' hborrows
    refine ⟨?_, hdone, hborrows', by simpa [hne] using hidx'⟩
    rw [markOnDisk_ne hne] at hnew'
    exact hnew'

/-- What one call does. -/
theorem write_run {fuel : Nat} {st st' : TransformWriter T} (h : writeTransformationToDwarf g (fuel + 1) a st = .ok () st') :
    ∃ transform, g.transformer a = some transform ∧ transform.freed = false ∧
      ((st.onDisk a = true ∧ st' = st) ∨
        (st.onDisk a = false ∧ borrowsIndex g a transform = true ∧
          writeConst g (writeTransformationToDwarf g fuel) a (markOnDisk a st) = .ok () st') ∨
        (st.onDisk a = false ∧ borrowsIndex g a transform = false ∧
          writeFde g (writeTransformationToDwarf g fuel) a transform (markOnDisk a st) = .ok () st')) := by
  unfold writeTransformationToDwarf at h
  cases htransform : g.transformer a with
  | none =>
    rw [htransform] at h
    cases h
  | some transform =>
    rw [htransform] at h
    dsimp only at h
    by_cases hfreed : transform.freed = true
    · rw [if_pos hfreed] at h
      cases h
    · rw [if_neg hfreed] at h
      refine ⟨transform, rfl, by simpa using hfreed, ?_⟩
      obtain ⟨_, _, hget, h⟩ := run_bind_ok.mp h
      cases hget
      by_cases hdone : st.onDisk a = true
      · rw [if_pos hdone] at h
        exact .inl ⟨hdone, (pure_ok.mp h).2⟩
      · rw [if_neg hdone] at h
        obtain ⟨_, _, hmark, h⟩ := run_bind_ok.mp h
        cases hmark
        by_cases hborrow : borrowsIndex g a transform = true
        · rw [if_pos hborrow] at h
          exact .inr (.inl ⟨by simpa using hdone, hborrow, h⟩)
        · rw [if_neg hborrow] at h
          exact .inr (.inr ⟨by simpa using hdone, by simpa using hborrow, h⟩)

/-- What one call writes. -/
theorem write_writes (fuel : Nat) : RecurWrites g (writeTransformationToDwarf g fuel) := by
  have hcall : ∀ a st st', writeTransformationToDwarf g fuel a st = .ok () st' → Writes g st st' ∧ st'.onDisk a = true ∧
      ∀ b, st.onDisk b = false → st'.onDisk b = true → Relation.ReflTransGen (Refers g) a b := by
    induction fuel with
    | zero =>
      intro a st st' h
      cases h
    | succ fuel ih =>
      have hrec : RecurWrites g (writeTransformationToDwarf g fuel) :=
        ⟨fun a st st' h => (ih a st st' h).1, fun a st st' h => (ih a st st' h).2.1, fun a st st' h => (ih a st st' h).2.2⟩
      intro a st st' h
      obtain ⟨transform, htransform, hfreed, ⟨hdone, hst'⟩ | ⟨hnew, hborrow, hrun⟩ | ⟨hnew, hown, hrun⟩⟩ := write_run h
      · rw [hst']
        refine ⟨.refl st, hdone, ?_⟩
        intro b hb hb'
        rw [hb] at hb'
        cases hb'
      · exact writeConst_ok hrec htransform hfreed hborrow hnew hrun
      · exact writeFde_ok hrec htransform hfreed hown hnew hrun
  exact ⟨fun a st st' h => (hcall a st st' h).1, fun a st st' h => (hcall a st st' h).2.1,
    fun a st st' h => (hcall a st st' h).2.2⟩

/-! ## The writer ends -/

omit [DecidableEq T] in
theorem faultOr_of_ok {α : Type} {x : Except Fault α} {r : α} (h : x = .ok r) (st : TransformWriter T) :
    faultOr x st = .ok r st := by
  rw [h]
  rfl

section
variable [Fintype T]

variable (g) in
/-- The recursion, with fewer transformers left than there is fuel. -/
structure RecurTotal (n : Nat) (recur : T → TransformWriterM T Unit) : Prop extends RecurWrites g recur where
  total : ∀ a st, unmarked st.onDisk < n → (g.transformer a).isSome → ∃ st', recur a st = .ok () st'

omit [DecidableEq T] in
theorem writeUnlessOnDisk_total {n : Nat} (hrec : RecurTotal g n recur) {st : TransformWriter T}
    (hfuel : unmarked st.onDisk < n)
    (ha : (g.transformer a).isSome) : ∃ st', writeUnlessOnDisk recur a st = .ok () st' := by
  unfold writeUnlessOnDisk
  rw [run_bind_of_ok (get_run st)]
  by_cases hdone : st.onDisk a = true
  · rw [if_pos hdone]
    exact ⟨st, rfl⟩
  · rw [if_neg hdone]
    exact hrec.total a st hfuel ha

omit [DecidableEq T] in
theorem writeStep_total {n : Nat} (hrec : RecurTotal g n recur) {step : TransformStep T} (hstep : HasTarget g step)
    {st : TransformWriter T} (hfuel : unmarked st.onDisk < n) : ∃ instr st', writeStep g recur step st = .ok instr st' := by
  cases step with
  | register arg1Bytes arg2Bytes => exact ⟨_, st, rfl⟩
  | fixup opcode arg1Bytes arg2Bytes optimized target =>
    obtain ⟨b, hb, hsome⟩ := hstep
    obtain ⟨st1, hwrite⟩ := writeUnlessOnDisk_total hrec hfuel hsome
    refine ⟨(TransformStep.fixup opcode arg1Bytes arg2Bytes optimized (some b)).instruction (st1.fdeIdx b), st1, ?_⟩
    rw [hb]
    unfold writeStep
    dsimp only
    rw [run_bind_of_ok (faultOr_of_ok (assert_of hsome) st), run_bind_of_ok hwrite, run_bind_of_ok (get_run st1)]
    rfl

omit [DecidableEq T] in
theorem writeSteps_total {n : Nat} (hrec : RecurTotal g n recur) {steps : List (TransformStep T)}
    (hsteps : ∀ step ∈ steps, HasTarget g step) {st : TransformWriter T} (hfuel : unmarked st.onDisk < n) :
    ∃ instrs st', writeSteps g recur steps st = .ok instrs st' := by
  induction steps generalizing st with
  | nil => exact ⟨[], st, rfl⟩
  | cons step steps ih =>
    obtain ⟨instr, st1, hfirst⟩ := writeStep_total hrec (hsteps step List.mem_cons_self) hfuel
    have hgrows := (writeStep_ok hrec.toRecurWrites hfirst).1.toGrows
    obtain ⟨instrs, st2, hrest⟩ := ih (fun step' hmem => hsteps step' (List.mem_cons_of_mem _ hmem))
      (lt_of_le_of_lt (unmarked_mono hgrows.onDisk) hfuel)
    refine ⟨instr :: instrs, st2, ?_⟩
    unfold writeSteps
    rw [run_bind_of_ok hfirst, run_bind_of_ok hrest]
    rfl

theorem unmarked_markOnDisk {st : TransformWriter T} (h : st.onDisk a = false) :
    unmarked (markOnDisk a st).onDisk < unmarked st.onDisk :=
  unmarked_mark (fun _ hb => markOnDisk_of hb) h (markOnDisk_self st)

/-- A graph without anything to stop the writer is written, with fuel for every transformer. -/
theorem write_total (hgraph : ∀ a, (g.transformer a).isSome → Writable g a) (fuel : Nat) :
    RecurTotal g fuel (writeTransformationToDwarf g fuel) := by
  refine ⟨write_writes fuel, ?_⟩
  induction fuel with
  | zero =>
    intro a st hfuel
    omega
  | succ fuel ih =>
    have hrec : RecurTotal g fuel (writeTransformationToDwarf g fuel) := ⟨write_writes fuel, ih⟩
    intro a st hfuel ha
    obtain ⟨transform, htransform, hfreed, hconst, hfde⟩ := hgraph a ha
    unfold writeTransformationToDwarf
    rw [htransform]
    dsimp only
    rw [if_neg (by simp [hfreed]), run_bind_of_ok (get_run st)]
    by_cases hdone : st.onDisk a = true
    · rw [if_pos hdone]
      exact ⟨st, rfl⟩
    · have hleft : unmarked (markOnDisk a st).onDisk < fuel := by
        have hless := unmarked_markOnDisk (a := a) (by simpa using hdone : st.onDisk a = false)
        omega
      rw [if_neg hdone, run_bind_of_ok (modify_run _ st)]
      by_cases hborrow : borrowsIndex g a transform = true
      · obtain ⟨b, hb, hsome⟩ := hconst hborrow
        obtain ⟨st1, hcall⟩ := hrec.total b _ hleft hsome
        rw [if_pos hborrow]
        unfold writeConst
        rw [hb]
        dsimp only
        rw [run_bind_of_ok (faultOr_of_ok (assert_of hsome) _), run_bind_of_ok hcall]
        exact ⟨_, rfl⟩
      · obtain ⟨hdie, steps, hsteps, htargets⟩ := hfde (by simpa using hborrow)
        have hadded : unmarked (addFde g a transform (markOnDisk a st)).onDisk < fuel := hleft
        obtain ⟨instrs, st1, hrun⟩ := writeSteps_total hrec htargets hadded
        rw [if_neg hborrow]
        unfold writeFde
        rw [run_bind_of_ok (get_run _), run_bind_of_ok (faultOr_of_ok (assert_of hdie) _), run_bind_of_ok (modify_run _ _),
          run_bind_of_ok (faultOr_of_ok hsteps _), run_bind_of_ok hrun]
        exact ⟨_, rfl⟩

end

/-! ## Sequences of transformations -/

theorem writeTransformations_ok {fuel : Nat} {starts : List T} {st st' : TransformWriter T}
    (h : writeTransformations g fuel starts st = .ok () st') : Writes g st st' ∧ (∀ a ∈ starts, st'.onDisk a = true) ∧
      ∀ b, st.onDisk b = false → st'.onDisk b = true → ∃ a ∈ starts, Relation.ReflTransGen (Refers g) a b := by
  induction starts generalizing st with
  | nil =>
    rw [(pure_ok.mp h).2]
    refine ⟨.refl st, nofun, ?_⟩
    intro b hb hb'
    rw [hb] at hb'
    cases hb'
  | cons a starts ih =>
    obtain ⟨_, st1, hfirst, hrest⟩ := run_bind_ok.mp h
    have hrec := write_writes (g := g) fuel
    have hwrites := hrec.writes a st st1 hfirst
    obtain ⟨hwrites', hdone, hreached⟩ := ih hrest
    refine ⟨hwrites.trans hwrites', ?_, ?_⟩
    · intro b hb
      rcases List.mem_cons.mp hb with heq | hmem
      · rw [heq]
        exact hwrites'.onDisk a (hrec.onDisk a st st1 hfirst)
      · exact hdone b hmem
    · intro b hb hb'
      by_cases hfirst' : st1.onDisk b = true
      · exact ⟨a, List.mem_cons_self, hrec.reached a st st1 hfirst b hb hfirst'⟩
      · obtain ⟨a', hmem, hpath⟩ := hreached b (by simpa using hfirst') hb'
        exact ⟨a', List.mem_cons_of_mem _ hmem, hpath⟩

theorem writeTransformations_total [Fintype T] (hgraph : ∀ a, (g.transformer a).isSome → Writable g a) {fuel : Nat}
    {starts : List T} (hstarts : ∀ a ∈ starts, (g.transformer a).isSome) {st : TransformWriter T}
    (hfuel : unmarked st.onDisk < fuel) :
    ∃ st', writeTransformations g fuel starts st = .ok () st' := by
  induction starts generalizing st with
  | nil => exact ⟨st, rfl⟩
  | cons a starts ih =>
    have hrec := write_total hgraph fuel
    obtain ⟨st1, hfirst⟩ := hrec.total a st hfuel (hstarts a List.mem_cons_self)
    have hless := unmarked_mono (hrec.writes a st st1 hfirst).onDisk
    obtain ⟨st', hrest⟩ := ih (fun b hb => hstarts b (List.mem_cons_of_mem _ hb)) (lt_of_le_of_lt hless hfuel)
    refine ⟨st', ?_⟩
    unfold writeTransformations
    rw [run_bind_of_ok hfirst]
    exact hrest

end

/-! ## Right indices -/

variable (g : TransformGraph T)

/-- The FDE that stands for the transformation of `a` is that of the second. -/
inductive FdeOf : T → T → Prop
  | own {a : T} : ¬ Borrows g a → FdeOf a a
  | borrowed {a b c : T} : Borrows g a → Refers g a b → FdeOf b c → FdeOf a c

def ReachedFrom (starts : List T) (b : T) : Prop := ∃ a ∈ starts, Relation.ReflTransGen (Refers g) a b

def instructionsOf (fdeIdx : T → Nat) (steps : List (TransformStep T)) : List TransformInstruction :=
  steps.map fun step => step.instruction ((step.target.map fdeIdx).getD 0)

/-- Whatever is reached has the index of its FDE, counted from one; there is one FDE for each transformer that is not
of a const type,
and the fixups in it have these indices. -/
structure FixupsRight (starts : List T) (st' : TransformWriter T) : Prop where
  index : ∀ a, ReachedFrom g starts a →
    ∃ (b : T) (i : Nat) (fde : TransformFde T), FdeOf g a b ∧ st'.fdeIdx a = i + 1 ∧ st'.fdes[i]? = some fde ∧
      fde.transformed = b
  one : ∀ a, ReachedFrom g starts a → ¬ Borrows g a → ∃! i : Nat, ∃ fde :
    TransformFde T, st'.fdes[i]? = some fde ∧ fde.transformed = a
  fixups : ∀ fde ∈ st'.fdes, ReachedFrom g starts fde.transformed ∧ ¬ Borrows g fde.transformed ∧
    ∃ transform steps, g.transformer fde.transformed = some transform ∧
      transformSteps g fde.transformed transform = .ok steps ∧
      fde = newFde g fde.transformed transform (instructionsOf st'.fdeIdx steps)

/-- Whatever is to be transformed, and in whatever order, the writer ends and the fixups are right. -/
def WritesFixups [Fintype T] : Prop :=
  ∀ (starts : List T), (∀ a ∈ starts, (g.transformer a).isSome) → ∀ fuel, Fintype.card T < fuel →
    ∃ st', writeTransformations g fuel starts .fresh = .ok () st' ∧ FixupsRight g starts st'

section
variable {g} {a : T}

omit [DecidableEq T] in
theorem instruction_eq {step : TransformStep T} (htarget : HasTarget g step) {fdeIdx : T → Nat} {i : Nat}
    (hi : ∀ b, step.target = some b → i = fdeIdx b) :
    step.instruction i = step.instruction ((step.target.map fdeIdx).getD 0) := by
  cases step with
  | register arg1Bytes arg2Bytes => rfl
  | fixup opcode arg1Bytes arg2Bytes optimized target =>
    obtain ⟨b, hb, -⟩ := htarget
    have hi : i = fdeIdx b := hi b hb
    simp [TransformStep.target, hb, hi]

omit [DecidableEq T] in
theorem instructionsOf_eq {fdeIdx : T → Nat} {steps : List (TransformStep T)} {instrs : List TransformInstruction}
    (h : List.Forall₂ (fun step instr => instr = step.instruction ((step.target.map fdeIdx).getD 0)) steps instrs) :
    instrs = instructionsOf fdeIdx steps := by
  rw [instructionsOf, ← List.forall₂_eq_eq_eq, List.forall₂_map_right_iff]
  exact h.flip

omit [DecidableEq T] in
theorem instruction_arg3 {step : TransformStep T} {b : T} (h : step.target = some b) (i : Nat) :
    (step.instruction i).arg3 = i := by
  cases step with
  | register arg1Bytes arg2Bytes => cases h
  | fixup opcode arg1Bytes arg2Bytes optimized target => rfl

omit [DecidableEq T] in
/-- The reader of FDEs gets the index back, if it has no more than four bytes. -/
theorem fixup_readsBack {opcode : CfaOp} {arg1Bytes arg2Bytes : List UInt8} {optimized : Bool} {target : Option T} {i : Nat}
    (hi : i < 2 ^ 32) (rest : List UInt8) :
    let bytes := ((TransformStep.fixup opcode arg1Bytes arg2Bytes optimized target).instruction i).instr.arg3Bytes
    leb128ToUInt (bytes ++ rest) = .ok (i, bytes.length) := by
  have hmod : i % 256 ^ 4 = i := Nat.mod_eq_of_lt hi
  cases optimized with
  | true =>
    have hbytes : encodeAsLEB128 (toLE 4 i) false = uleb i := encodeAsLEB128_toLE (by norm_num) (by norm_num) hi
    simp only [TransformStep.instruction, if_true]
    rw [hbytes, leb128ToUInt_uleb (by omega), if_pos hi, length_uleb]
  | false =>
    have hne : toLE 4 i ≠ [] := by simp [← List.length_pos_iff]
    have hdecode := decode_noOptimization hne (by simp [numSeptetsFor]) rest
    simp only [TransformStep.instruction, Bool.false_eq_true, if_false]
    unfold leb128ToUInt
    rw [hdecode, bind_ok, length_toLE, assert_of (by norm_num), bind_ok, List.take_of_length_le (by simp), leNat_toLE, hmod]
    simp [encodeNoOptimization_unsigned]

omit [DecidableEq T] in
/-- The borrowing ends. -/
theorem exists_fdeOf [Finite T] (hgraph : ∀ a, (g.transformer a).isSome → Writable g a)
    (hback : ∀ a, ¬ LeadsBack g a) (a : T) :
    ∃ b, FdeOf g a b := by
  have hacyclic : ∀ x, ¬ Relation.TransGen (fun b a => Borrows g a ∧ Refers g a b) x x := by
    intro x hcycle
    have hborrows : Borrows g x := by
      obtain ⟨y, -, hlast⟩ := Relation.TransGen.tail'_iff.mp hcycle
      exact hlast.1
    have hpath : Relation.TransGen (Refers g) x x := by
      have hswap := Relation.transGen_swap.mp hcycle
      exact hswap.lift id fun _ _ h => h.2
    exact hback x ⟨hborrows, hpath⟩
  induction a using (wellFounded_of_acyclic hacyclic).induction with
  | _ a ih =>
    by_cases hborrows : Borrows g a
    · obtain ⟨transform, htransform, hborrow⟩ := hborrows
      obtain ⟨t, ht, -, hconst, -⟩ := hgraph a (by rw [htransform]; rfl)
      cases htransform.symm.trans ht
      obtain ⟨b, hb, -⟩ := hconst hborrow
      have hrefers := (refers_borrowed htransform hborrow).mpr hb
      obtain ⟨c, hc⟩ := ih b ⟨⟨transform, htransform, hborrow⟩, hrefers⟩
      exact ⟨c, .borrowed ⟨transform, htransform, hborrow⟩ hrefers hc⟩
    · exact ⟨a, .own hborrows⟩

section
variable {st' : TransformWriter T} {starts : List T}

omit [DecidableEq T] in
theorem Writes.reached (h : Writes g .fresh st') {b : T} (ha : st'.onDisk a = true)
    (hpath : Relation.ReflTransGen (Refers g) a b) :
    st'.onDisk b = true := by
  induction hpath with
  | refl => exact ha
  | tail _ hstep ih => exact (h.finished _ rfl ih).refers _ hstep

variable (hlibdwarf : ∀ n, g.dwarfAddFrameFde n = n + 1)
include hlibdwarf

omit [DecidableEq T] in
theorem Writes.fde (h : Writes g .fresh st') (hback : ∀ a, ¬ LeadsBack g a) (ha : st'.onDisk a = true)
    (hborrows : ¬ Borrows g a) :
    ∃ transform steps i, g.transformer a = some transform ∧ transformSteps g a transform = .ok steps ∧ st'.fdeIdx a = i + 1 ∧
      st'.fdes[i]? = some (newFde g a transform (instructionsOf st'.fdeIdx steps)) := by
  have hfinished := h.finished a rfl ha
  obtain ⟨transform, steps, i, instrs, htransform, hsteps, hi, hget, hinstrs⟩ := hfinished.fde hborrows
  obtain ⟨t, ht, -, -, hfde⟩ := hfinished.writable
  cases htransform.symm.trans ht
  have hown : borrowsIndex g a transform = false := by
    rw [borrows_iff htransform] at hborrows
    simpa using hborrows
  obtain ⟨-, steps', hsteps', htargets⟩ := hfde hown
  cases hsteps.symm.trans hsteps'
  have hall : instrs = instructionsOf st'.fdeIdx steps := by
    refine instructionsOf_eq (((List.forall₂_and_left steps instrs).mpr ⟨htargets, hinstrs⟩).imp ?_)
    intro step instr hstep
    obtain ⟨htarget, j, hinstr, hread⟩ := hstep
    refine hinstr.trans (instruction_eq htarget ?_)
    intro b hb
    rcases hread b hb with hidx | hleads
    · exact hidx
    · exact absurd hleads.1 (hback b)
  rw [hall] at hget
  exact ⟨transform, steps, i, htransform, hsteps, by rw [hi, hlibdwarf], hget⟩

omit [DecidableEq T] in
theorem Writes.index (h : Writes g .fresh st') (hback : ∀ a, ¬ LeadsBack g a) {b : T} (hfde : FdeOf g a b)
    (ha : st'.onDisk a = true) :
    ∃ (i : Nat) (fde : TransformFde T), st'.fdeIdx a = i + 1 ∧ st'.fdes[i]? = some fde ∧ fde.transformed = b := by
  induction hfde with
  | own hborrows =>
    obtain ⟨transform, steps, i, -, -, hi, hget⟩ := h.fde hlibdwarf hback ha hborrows
    exact ⟨i, _, hi, hget, rfl⟩
  | borrowed hborrows hrefers _ ih =>
    have hfinished := h.finished _ rfl ha
    obtain ⟨i, fde, hi, hget, htransformed⟩ := ih (hfinished.refers _ hrefers)
    refine ⟨i, fde, ?_, hget, htransformed⟩
    rcases hfinished.borrowed hborrows _ hrefers with hidx | hleads
    · exact hidx.trans hi
    · exact absurd hleads.1 (hback _)

theorem fixupsRight_of_ok [Finite T] (hgraph : ∀ a, (g.transformer a).isSome → Writable g a) (hback : ∀ a, ¬ LeadsBack g a)
    {fuel : Nat} (h : writeTransformations g fuel starts .fresh = .ok () st') : FixupsRight g starts st' := by
  obtain ⟨hwrites, hstarts, hreached⟩ := writeTransformations_ok h
  have hdone : ∀ b, ReachedFrom g starts b → st'.onDisk b = true := by
    intro b ⟨a, ha, hpath⟩
    exact hwrites.reached (hstarts a ha) hpath
  have hadded : ∀ (i : Nat) (fde : TransformFde T), st'.fdes[i]? = some fde → st'.onDisk fde.transformed = true ∧
      ¬ Borrows g fde.transformed ∧ st'.fdeIdx fde.transformed = i + 1 := by
    intro i fde hget
    obtain ⟨-, hmark, hborrows, hidx⟩ := hwrites.added i fde (Nat.zero_le i) hget
    exact ⟨hmark, hborrows, by rw [hidx, hlibdwarf]⟩
  refine ⟨?_, ?_, ?_⟩
  · intro a ha
    obtain ⟨b, hfde⟩ := exists_fdeOf hgraph hback a
    obtain ⟨i, fde, hi, hget, htransformed⟩ := hwrites.index hlibdwarf hback hfde (hdone a ha)
    exact ⟨b, i, fde, hfde, hi, hget, htransformed⟩
  · intro a ha hborrows
    obtain ⟨transform, steps, i, -, -, hi, hget⟩ := hwrites.fde hlibdwarf hback (hdone a ha) hborrows
    refine ⟨i, ⟨_, hget, rfl⟩, ?_⟩
    intro j ⟨fde, hj, htransformed⟩
    have hidx := (hadded j fde hj).2.2
    rw [htransformed, hi] at hidx
    omega
  · intro fde hfde
    obtain ⟨i, hget⟩ := List.mem_iff_getElem?.mp hfde
    obtain ⟨hmark, hborrows, hidx⟩ := hadded i fde hget
    refine ⟨hreached _ rfl hmark, hborrows, ?_⟩
    obtain ⟨transform, steps, j, htransform, hsteps, hj, hget'⟩ := hwrites.fde hlibdwarf hback hmark hborrows
    have hij : i = j := by omega
    rw [← hij, hget] at hget'
    exact ⟨transform, steps, htransform, hsteps, Option.some.inj hget'⟩

omit hlibdwarf in
omit [DecidableEq T] in
/-- A fixup that is right has an index that was there when it was written. -/
theorem Finished.index_of_right {st st1 : TransformWriter T} {a b : T} (h : Finished g st st1 a)
    (hright : FixupsRight g starts st')
    (hfdes : st'.fdes = st1.fdes) (hborrows : ¬ Borrows g a) (hrefers : Refers g a b) :
    IndexOf g st st1 b (st'.fdeIdx b) := by
  obtain ⟨transform, steps, i, instrs, htransform, hsteps, -, hget, hinstrs⟩ := h.fde hborrows
  have hmem : newFde g a transform instrs ∈ st'.fdes := by
    rw [hfdes]
    exact List.mem_of_getElem? hget
  obtain ⟨-, -, transform', steps', htransform', hsteps', heq⟩ := hright.fixups _ hmem
  cases htransform.symm.trans htransform'
  cases hsteps.symm.trans hsteps'
  have hall : instrs = instructionsOf st'.fdeIdx steps := congrArg TransformFde.instrs heq
  have hown : borrowsIndex g a transform = false := by
    rw [borrows_iff htransform] at hborrows
    simpa using hborrows
  obtain ⟨step, hstep, htarget⟩ := (refers_own htransform hown hsteps).mp hrefers
  rw [hall, instructionsOf, List.forall₂_map_right_iff, List.forall₂_same] at hinstrs
  obtain ⟨j, hinstr, hindex⟩ := hinstrs step hstep
  have harg3 := congrArg TransformInstruction.arg3 hinstr
  rw [instruction_arg3 htarget, instruction_arg3 htarget, htarget] at harg3
  have hj : st'.fdeIdx b = j := harg3
  rw [hj]
  exact hindex b htarget

omit hlibdwarf in
/-- Written first, a const transformer that leads back to itself is met without an index. -/
theorem LeadsBack.not_right (hleads : LeadsBack g a) {fuel : Nat}
    (h : writeTransformations g fuel [a] .fresh = .ok () st') : ¬ FixupsRight g [a] st' := by
  intro hright
  obtain ⟨hborrows, hcycle⟩ := hleads
  obtain ⟨_, st1, hcall, h⟩ := run_bind_ok.mp h
  rw [← (pure_ok.mp h).2] at hcall
  cases fuel with
  | zero => cases hcall
  | succ fuel =>
    obtain ⟨transform, htransform, -, ⟨hdone, -⟩ | ⟨-, hborrow, hrun⟩ | ⟨-, hown, -⟩⟩ := write_run hcall
    · cases hdone
    · obtain ⟨b, st2, hpointed, -, hrec, hst'⟩ := writeConst_run hrun
      have hwrites := (write_writes fuel).writes b _ _ hrec
      have hmarked : (markOnDisk a (TransformWriter.fresh : TransformWriter T)).onDisk a = true := markOnDisk_self _
      have hzero : st2.fdeIdx a = 0 := hwrites.fdeIdx a hmarked
      have hset : ∀ x, x ≠ a → st'.fdeIdx x = st2.fdeIdx x := by
        intro x hx
        simp [hst', hx]
      have hnonzero : ∀ x, ReachedFrom g [a] x → st'.fdeIdx x ≠ 0 := by
        intro x hx
        obtain ⟨_, i, _, _, hi, _⟩ := hright.index x hx
        omega
      have hself : ReachedFrom g [a] a := ⟨a, by simp, .refl⟩
      have hrefers : Refers g a b := (refers_borrowed htransform hborrow).mpr hpointed
      have hpath : Relation.ReflTransGen (Refers g) b a := by
        obtain ⟨y, hstep, hrest⟩ := Relation.TransGen.head'_iff.mp hcycle
        cases hpointed.symm.trans ((refers_borrowed htransform hborrow).mp hstep)
        exact hrest
      have hnew : ∀ x, x ≠ a → (markOnDisk a (TransformWriter.fresh : TransformWriter T)).onDisk x = false :=
        fun x hx => markOnDisk_ne hx
      have hread : ∀ i, IndexOf g (markOnDisk a .fresh) st2 a i → i = 0 := by
        intro i hindex
        rcases hindex with hindex | ⟨-, hmark⟩
        · exact hindex.trans hzero
        · rw [hmarked] at hmark
          cases hmark
      rcases exists_edge_into (M := fun x => st2.onDisk x = true) ((write_writes fuel).onDisk b _ _ hrec)
        (fun x hx hxa y hy => (hwrites.finished x (hnew x hxa) hx).refers y hy) hpath with heq | ⟨x, hx, hxa, hedge⟩
      · refine hnonzero a hself ?_
        rw [hst', heq]
        simpa using hzero
      · have hfinished := hwrites.finished x (hnew x hxa) hx
        have hreached : ReachedFrom g [a] x :=
          ⟨a, by simp, .head hrefers ((write_writes fuel).reached b _ _ hrec x (hnew x hxa) hx)⟩
        by_cases hx' : Borrows g x
        · exact hnonzero x hreached ((hset x hxa).trans (hread _ (hfinished.borrowed hx' a hedge)))
        · exact hnonzero a hself (hread _ (hfinished.index_of_right hright (by rw [hst']) hx' hedge))
    · rw [borrows_iff htransform, hown] at hborrows
      cases hborrows

omit hlibdwarf in
theorem writable_of_ok {fuel : Nat} (h : writeTransformations g fuel [a] .fresh = .ok () st') : Writable g a := by
  obtain ⟨hwrites, hstarts, -⟩ := writeTransformations_ok h
  exact (hwrites.finished a rfl (hstarts a (by simp))).writable

/-- **The fixups are right, in whatever order types are transformed, exactly when nothing stops the writer and no const type
leads back to itself.** -/
theorem writesFixups_iff [Fintype T] :
    WritesFixups g ↔ (∀ a, (g.transformer a).isSome → Writable g a) ∧ ∀ a, ¬ LeadsBack g a := by
  refine ⟨fun h => ⟨?_, ?_⟩, ?_⟩
  · intro a ha
    obtain ⟨st', hrun, -⟩ := h [a] (by simpa using ha) _ (Nat.lt_succ_self _)
    exact writable_of_ok hrun
  · intro a hleads
    have ha : (g.transformer a).isSome := by
      obtain ⟨transform, htransform, -⟩ := hleads.1
      rw [htransform]
      rfl
    obtain ⟨st', hrun, hright⟩ := h [a] (by simpa using ha) _ (Nat.lt_succ_self _)
    exact hleads.not_right hrun hright
  · intro ⟨hgraph, hback⟩ starts hstarts fuel hfuel
    obtain ⟨st', hrun⟩ := writeTransformations_total hgraph hstarts
      (lt_of_le_of_lt (unmarked_le TransformWriter.fresh.onDisk) hfuel)
    exact ⟨st', hrun, fixupsRight_of_ok hlibdwarf hgraph hback hrun⟩

end

end

/-! ## A list of const nodes -/

/-- `struct node { qualifier struct node *next; }`, which got longer; 0 is the qualified type. -/
def nodeTypes (kind : TypeType) : Fin 4 → TypeInfo (Fin 4)
  | 0 => ⟨"node", kind, 8, [⟨"next", 0, 2⟩], some 1, []⟩
  | 1 => ⟨"node", .struct, 8, [⟨"next", 0, 2⟩], none, []⟩
  | 2 => ⟨"pointer", .pointer, 8, [], some 0, []⟩
  | 3 => ⟨"node", .struct, 16, [⟨"next", 8, 2⟩], none, []⟩

def nodeGraph (kind : TypeType) : TransformGraph (Fin 4) where
  types := nodeTypes kind
  transformer
    | 0 | 1 => some ⟨3, false, [(8, .recurse)], false⟩
    | 2 | 3 => none
  die _ := true
  dwarfAddFrameFde n := n + 1

def nodeStep : TransformStep (Fin 4) := .fixup .katanaFixupsPointer (longReg true 8 8) (longReg false 8 0) true (some 0)

theorem nodeGraph_writable {kind : TypeType} (hkind : kind = .const ∨ kind = .struct) (a : Fin 4)
    (ha : ((nodeGraph kind).transformer a).isSome) : Writable (nodeGraph kind) a := by
  have htarget : ∀ step ∈ [nodeStep], HasTarget (nodeGraph kind) step := by
    intro step hstep
    rw [List.mem_singleton.mp hstep]
    exact ⟨0, rfl, rfl⟩
  match a with
  | 0 =>
    rcases hkind with hconst | hstruct
    · rw [hconst]
      exact ⟨_, rfl, rfl, fun _ => ⟨1, rfl, rfl⟩, nofun⟩
    · rw [hstruct] at htarget ⊢
      exact ⟨_, rfl, rfl, nofun, fun _ => ⟨rfl, [nodeStep], rfl, htarget⟩⟩
  | 1 => exact ⟨_, rfl, rfl, nofun, fun _ => ⟨rfl, [nodeStep], rfl, htarget⟩⟩
  | 2 => cases ha
  | 3 => cases ha

theorem nodes_writesFixups : WritesFixups (nodeGraph .struct) := by
  refine (writesFixups_iff fun _ => rfl).mpr ⟨nodeGraph_writable (.inr rfl), ?_⟩
  intro a hleads
  obtain ⟨⟨transform, htransform, hborrow⟩, -⟩ := hleads
  match a with
  | 0 =>
    cases htransform
    cases hborrow
  | 1 =>
    cases htransform
    cases hborrow
  | 2 => cases htransform
  | 3 => cases htransform

/-- The const type is met again before it has an index. -/
theorem constNodes_unset : ∃ st', writeTransformations (nodeGraph .const) 5 [0] .fresh = .ok () st' ∧ st'.fdeIdx 0 = 1 ∧
    st'.fdes = [newFde (nodeGraph .const) 1 ⟨3, false, [(8, .recurse)], false⟩ [nodeStep.instruction 0]] :=
      ⟨_, rfl, rfl, rfl⟩

theorem not_writesFixups : ¬ ∀ g : TransformGraph (Fin 4), (∀ n, g.dwarfAddFrameFde n = n + 1) →
    (∀ a, (g.transformer a).isSome → Writable g a) → WritesFixups g := by
  intro h
  obtain ⟨st', hrun, hright⟩ := h (nodeGraph .const) (fun _ => rfl) (fun _ => nodeGraph_writable (.inl rfl) _) [0]
    (by simp [nodeGraph]) 5 (by decide)
  obtain ⟨st, hrun', hidx, hfdes⟩ := constNodes_unset
  rw [hrun] at hrun'
  cases hrun'
  obtain ⟨-, -, transform, steps, htransform, hsteps, hfde⟩ :=
    hright.fixups _ (by rw [hfdes]; exact List.mem_singleton_self _)
  cases htransform
  cases hsteps
  have harg3 := congrArg (fun fde => fde.instrs.map (·.arg3)) hfde
  have hunset : [0] = [st'.fdeIdx 0] := harg3
  rw [hidx] at hunset
  cases hunset

end Katana

/-
  Katana.SafeBreakpoint — waiting for the functions that are patched to be left (patcher/safety.c).

  The target is a stack of activations, each with the address it returns to. When it is stopped the frames but
  the innermost are looked at, from the oldest on, up to the first in an unsafe function; the breakpoint goes
  where the last one before it will go on. An address does not tell activations apart: a later activation of
  the same function can come to it first. libunwind is taken to give the return addresses.

  Proved, for every stack, every list of unsafe functions and every run of the target:
  - `findSafeFrame_ok`: the frame is one of the stack, and no frame from it up is in an unsafe function.
  - `safe_at_breakpoint`: when the breakpoint is reached at last by the activation that was chosen, no unsafe
    function is active.
-/
import Katana.DwarfVm
import Mathlib.Data.List.DropRight

namespace Katana

/-! ## The frames -/

/-- The symbols of the executing binary and its text section. -/
structure TargetElf where
  symtab : List ElfSym
  textAddr : UInt64
  textSize : UInt64

def functionContains (addr : UInt64) (sym : ElfSym) : Bool := symbolContains sttFunc 0 addr sym

variable (elf : TargetElf)

def findFunctionContainingAddress (addr : UInt64) : Nat := symbolContaining elf.symtab addr sttFunc 0

structure ActivationFrame where
  pc : UInt64
  symIdx : Nat
  /-- Where the frames further up the stack go on; katana does not keep it. -/
  callers : List UInt64
  deriving DecidableEq, Repr

def inText (ip : UInt64) : Bool := elf.textAddr ≤ ip && ip ≤ elf.textAddr + elf.textSize

/-- The loop over `unw_step`; a frame goes to the front of the list. -/
def unwindLoop (activationFramesHead : List ActivationFrame) : List UInt64 → List ActivationFrame
  | [] => activationFramesHead
  | ip :: callers =>
    let symIdx := findFunctionContainingAddress elf ip
    if inText elf ip ∧ symIdx ≠ 0 then unwindLoop (⟨ip, symIdx, callers⟩ :: activationFramesHead) callers
    else unwindLoop activationFramesHead callers

/-- From the oldest frame to the newest. The first step leaves the innermost one behind. -/
def findActivationFrames (returnAddresses : List UInt64) : List ActivationFrame := unwindLoop elf [] returnAddresses

/-- `deepestGoodFrameLi` after the loop over the frames, with the nodes before it. -/
def deepestGoodFrame (unsafeFunctions : List Nat) (deepestGoodFrameLi : List ActivationFrame) :
    List ActivationFrame → List ActivationFrame
  | [] => deepestGoodFrameLi
  | frame :: li =>
    if frame.symIdx ∈ unsafeFunctions then deepestGoodFrameLi
    else deepestGoodFrame unsafeFunctions (frame :: deepestGoodFrameLi) li

def reindexUnsafe (reindexSymbol : Nat → Nat) (unsafeFunctionsData : Option (List Nat)) : Except Fault (List Nat) :=
  match unsafeFunctionsData with
  | none => .error (.death "Patch object does not contain any unsafe functions data. This should not be\n")
  | some data => data.mapM fun symIdxPatch =>
    if reindexSymbol symIdxPatch = 0 then .error (.death "Failed to reindex symbol for unsafe function\n")
    else .ok (reindexSymbol symIdxPatch)

/-- The frame in which the target is to be stopped. -/
def findSafeFrame (unsafeFunctions : List Nat) (returnAddresses : List UInt64) (avoidCurrentFrame : Bool) :
    Except Fault ActivationFrame :=
  match deepestGoodFrame unsafeFunctions [] (findActivationFrames elf returnAddresses) with
  | [] => .error (.death ("All functions with activation frames on the stack require patching. " ++
      "The application will never be in a patchable state!"))
  | [frame] => .ok frame
  | frame :: prev :: _ => .ok (if avoidCurrentFrame then prev else frame)

def findSafeBreakpointForPatch (reindexSymbol : Nat → Nat) (unsafeFunctionsData : Option (List Nat))
    (returnAddresses : List UInt64) (avoidCurrentFrame : Bool) : Except Fault UInt64 := do
  let unsafeFunctions ← reindexUnsafe reindexSymbol unsafeFunctionsData
  let frame ← findSafeFrame elf unsafeFunctions returnAddresses avoidCurrentFrame
  .ok frame.pc

/-! ## The target -/

/-- Where the innermost activation is, and where each goes on when what it called returns. -/
structure Activations where
  pc : UInt64
  returnAddresses : List UInt64

inductive Activations.Step : Activations → Activations → Prop
  | call (pc target returnAddress : UInt64) (callers : List UInt64) : Step ⟨pc, callers⟩ ⟨target, returnAddress :: callers⟩
  | ret (pc returnAddress : UInt64) (callers : List UInt64) : Step ⟨pc, returnAddress :: callers⟩ ⟨returnAddress, callers⟩
  | inside (pc pc' : UInt64) (callers : List UInt64) : Step ⟨pc, callers⟩ ⟨pc', callers⟩

/-- A run up to the first moment at an address. -/
inductive RunsTo (addr : UInt64) (stop : Activations) : Activations → Prop
  | stop : RunsTo addr stop stop
  | step {m m' : Activations} : RunsTo addr stop m → m.pc ≠ addr → m.Step m' → RunsTo addr stop m'

/-- An activation at this address is one of an unsafe function. -/
def InUnsafe (unsafeFunctions : List Nat) (addr : UInt64) : Prop :=
  ∃ symIdx ∈ unsafeFunctions, ∃ sym, elf.symtab[symIdx]? = some sym ∧ functionContains addr sym = true

/-- No unsafe function is active. -/
def SafeToPatch (unsafeFunctions : List Nat) (m : Activations) : Prop :=
  ∀ addr ∈ m.pc :: m.returnAddresses, ¬ InUnsafe elf unsafeFunctions addr

/-- The frames of unsafe functions are recognised: they are in the text section, and the first symbol that is found
there is one of the list. -/
def Recognised (unsafeFunctions : List Nat) (returnAddresses : List UInt64) : Prop :=
  ∀ addr ∈ returnAddresses, InUnsafe elf unsafeFunctions addr →
    inText elf addr = true ∧ findFunctionContainingAddress elf addr ∈ unsafeFunctions ∧
      findFunctionContainingAddress elf addr ≠ 0

/-! ## The frame that is chosen -/

section
variable {elf : TargetElf} {unsafeFunctions : List Nat}

def newestFirst (elf : TargetElf) : List UInt64 → List ActivationFrame
  | [] => []
  | ip :: callers =>
    if inText elf ip ∧ findFunctionContainingAddress elf ip ≠ 0 then
      ⟨ip, findFunctionContainingAddress elf ip, callers⟩ :: newestFirst elf callers
    else newestFirst elf callers

theorem unwindLoop_newestFirst (ips : List UInt64) (head : List ActivationFrame) :
    unwindLoop elf head ips = (newestFirst elf ips).reverse ++ head := by
  induction ips generalizing head with
  | nil => rfl
  | cons ip callers ih =>
    unfold unwindLoop newestFirst
    dsimp only
    split
    · rw [ih, List.reverse_cons, List.append_assoc]
      rfl
    · exact ih head

theorem deepestGoodFrame_takeWhile (li good : List ActivationFrame) :
    deepestGoodFrame unsafeFunctions good li = (li.takeWhile fun frame => frame.symIdx ∉ unsafeFunctions).reverse ++
      good := by
  induction li generalizing good with
  | nil => rfl
  | cons frame li ih =>
    unfold deepestGoodFrame
    by_cases hbad : frame.symIdx ∈ unsafeFunctions
    · simp [hbad]
    · rw [if_neg hbad, ih]
      simp [hbad]

/-- The frames from one on are those of its callers. -/
theorem newestFirst_suffix {ips : List UInt64} {frame : ActivationFrame} {older : List ActivationFrame}
    (h : frame :: older <:+ newestFirst elf ips) :
    older = newestFirst elf frame.callers ∧ frame.pc :: frame.callers <:+ ips ∧
      inText elf frame.pc = true ∧ frame.symIdx = findFunctionContainingAddress elf frame.pc := by
  induction ips with
  | nil => exact absurd (List.suffix_nil.mp h) (List.cons_ne_nil _ _)
  | cons ip callers ih =>
    unfold newestFirst at h
    split at h
    · rename_i hseen
      rcases List.suffix_cons_iff.mp h with heq | hsuffix
      · obtain ⟨hframe, holder⟩ := List.cons.inj heq
        rw [hframe]
        exact ⟨holder, List.suffix_refl _, hseen.1, rfl⟩
      · obtain ⟨holder, hstack, hrest⟩ := ih hsuffix
        exact ⟨holder, hstack.trans (List.suffix_cons ip callers), hrest⟩
    · obtain ⟨holder, hstack, hrest⟩ := ih h
      exact ⟨holder, hstack.trans (List.suffix_cons ip callers), hrest⟩

theorem mem_newestFirst {ips : List UInt64} {ip : UInt64} (hmem : ip ∈ ips) (htext : inText elf ip = true)
    (hsym : findFunctionContainingAddress elf ip ≠ 0) :
    ∃ frame ∈ newestFirst elf ips, frame.symIdx = findFunctionContainingAddress elf ip := by
  induction ips with
  | nil => cases hmem
  | cons a callers ih =>
    unfold newestFirst
    rcases List.mem_cons.mp hmem with heq | hmem
    · rw [if_pos (heq ▸ ⟨htext, hsym⟩)]
      exact ⟨_, List.mem_cons_self, by rw [heq]⟩
    · obtain ⟨frame, hframe, heq⟩ := ih hmem
      split
      · exact ⟨frame, List.mem_cons_of_mem _ hframe, heq⟩
      · exact ⟨frame, hframe, heq⟩

/-- **The chosen frame is one of the stack**, and from it up no frame is in an unsafe function. -/
theorem findSafeFrame_ok {returnAddresses : List UInt64} {avoidCurrentFrame : Bool} {frame : ActivationFrame}
    (hseen : Recognised elf unsafeFunctions returnAddresses)
    (h : findSafeFrame elf unsafeFunctions returnAddresses avoidCurrentFrame = .ok frame) :
    frame.pc :: frame.callers <:+ returnAddresses ∧
      ∀ addr ∈ frame.pc :: frame.callers, ¬ InUnsafe elf unsafeFunctions addr := by
  -- the good frames are the oldest ones, up to the first that is unsafe
  have hgood : ∃ good, frame :: good <:+ newestFirst elf returnAddresses ∧
      ∀ f ∈ frame :: good, f.symIdx ∉ unsafeFunctions := by
    unfold findSafeFrame findActivationFrames at h
    rw [unwindLoop_newestFirst, deepestGoodFrame_takeWhile, List.append_nil, List.append_nil, ← List.rtakeWhile] at h
    have hsuffix := List.rtakeWhile_suffix (fun frame : ActivationFrame => frame.symIdx ∉ unsafeFunctions)
      (newestFirst elf returnAddresses)
    have hsafe : ∀ f ∈ (newestFirst elf returnAddresses).rtakeWhile fun frame => frame.symIdx ∉ unsafeFunctions,
        f.symIdx ∉ unsafeFunctions := by
      intro f hf
      simpa using List.mem_rtakeWhile_imp hf
    split at h
    · cases h
    · rename_i hframes
      cases h
      rw [hframes] at hsuffix hsafe
      exact ⟨[], hsuffix, hsafe⟩
    · rename_i first prev rest hframes
      rw [hframes] at hsuffix hsafe
      cases avoidCurrentFrame with
      | true =>
        cases h
        exact ⟨rest, (List.suffix_cons first _).trans hsuffix, fun f hf => hsafe f (List.mem_cons_of_mem _ hf)⟩
      | false =>
        cases h
        exact ⟨prev :: rest, hsuffix, hsafe⟩
  obtain ⟨good, hsuffix, hsafe⟩ := hgood
  obtain ⟨hcallers, hstack, htext, hsym⟩ := newestFirst_suffix hsuffix
  refine ⟨hstack, ?_⟩
  intro addr haddr hbad
  obtain ⟨htext', hlisted, hfound⟩ := hseen addr (hstack.subset haddr) hbad
  rcases List.mem_cons.mp haddr with heq | haddr
  · rw [heq, ← hsym] at hlisted
    exact hsafe frame List.mem_cons_self hlisted
  · obtain ⟨f, hf, hsymf⟩ := mem_newestFirst haddr htext' hfound
    rw [← hcallers] at hf
    exact hsafe f (List.mem_cons_of_mem _ hf) (hsymf ▸ hlisted)

/-! ## The run -/

/-- The frame is waiting, or it has just gone on at its address and nothing is left above it. -/
theorem waits_or_arrives {frame : ActivationFrame} {stop m : Activations}
    (hstop : frame.pc :: frame.callers <:+ stop.returnAddresses)
    (hrun : RunsTo frame.pc stop m) :
    frame.pc :: frame.callers <:+ m.returnAddresses ∨ m.pc = frame.pc ∧ m.returnAddresses = frame.callers := by
  induction hrun with
  | stop => exact .inl hstop
  | step _ hbefore hstep ih =>
    rcases ih with hwaits | harrived
    · cases hstep with
      | call pc target returnAddress callers => exact .inl (hwaits.trans (List.suffix_cons _ _))
      | inside pc pc' callers => exact .inl hwaits
      | ret pc returnAddress callers =>
        rcases List.suffix_cons_iff.mp hwaits with heq | hsuffix
        · obtain ⟨hpc, hcallers⟩ := List.cons.inj heq
          exact .inr ⟨hpc.symm, hcallers.symm⟩
        · exact .inl hsuffix
    · exact absurd harrived.1 hbefore

/-- **When the activation that was chosen arrives at the breakpoint, no unsafe function is active**: it is the
first to get there unless a later activation does, with more return addresses on the stack. -/
theorem safe_at_breakpoint {reindexSymbol : Nat → Nat} {unsafeFunctionsData : Option (List Nat)} {stop : Activations}
    {avoidCurrentFrame : Bool} {addr : UInt64}
    (h : findSafeBreakpointForPatch elf reindexSymbol unsafeFunctionsData stop.returnAddresses avoidCurrentFrame =
    .ok addr) :
    ∃ unsafeFunctions frame, reindexUnsafe reindexSymbol unsafeFunctionsData = .ok unsafeFunctions ∧
      findSafeFrame elf unsafeFunctions stop.returnAddresses avoidCurrentFrame = .ok frame ∧ frame.pc = addr ∧
      (Recognised elf unsafeFunctions stop.returnAddresses → ∀ m, RunsTo addr stop m → m.pc = addr →
        m.returnAddresses.length ≤ frame.callers.length → SafeToPatch elf unsafeFunctions m) := by
  obtain ⟨unsafeFunctions, hreindex, h⟩ := bind_eq_ok.mp h
  obtain ⟨frame, hframe, h⟩ := bind_eq_ok.mp h
  cases h
  refine ⟨unsafeFunctions, frame, hreindex, hframe, rfl, ?_⟩
  intro hseen m hrun hpc hheight
  obtain ⟨hstack, hsafe⟩ := findSafeFrame_ok hseen hframe
  rcases waits_or_arrives hstack hrun with hwaits | ⟨-, hcallers⟩
  · have hlonger := hwaits.length_le
    rw [List.length_cons] at hlonger
    omega
  · intro a ha
    rw [hpc, hcallers] at ha
    exact hsafe a ha

end

/-! ## Two runs -/

def twoFunctions : TargetElf := ⟨[⟨0, 0, 0, 0⟩, ⟨0x1000, 0x100, sttFunc, 1⟩, ⟨0x2000, 0x100, sttFunc, 1⟩], 0x1000, 0x2000⟩

def calledOnce : Activations := ⟨0x2010, [0x1010]⟩

theorem calledOnce_breakpoint :
    findSafeBreakpointForPatch twoFunctions id (some [2]) calledOnce.returnAddresses true = .ok 0x1010 := rfl

theorem calledOnce_frame : findSafeFrame twoFunctions [2] calledOnce.returnAddresses true = .ok ⟨0x1010, 1, []⟩ := rfl

theorem inUnsafe_second {addr : UInt64} : InUnsafe twoFunctions [2] addr ↔
    functionContains addr ⟨0x2000, 0x100, sttFunc, 1⟩ = true := by
  refine ⟨?_, ?_⟩
  · intro h
    obtain ⟨symIdx, hsym, sym, hget, hcontains⟩ := h
    rw [List.mem_singleton.mp hsym] at hget
    cases hget
    exact hcontains
  · intro h
    exact ⟨2, List.mem_singleton_self 2, _, rfl, h⟩

/-- The second returns. -/
theorem returned_safe : SafeToPatch twoFunctions [2] ⟨0x1010, []⟩ := by
  obtain ⟨unsafeFunctions, frame, hreindex, hframe, -, hsafe⟩ := safe_at_breakpoint calledOnce_breakpoint
  rw [show reindexUnsafe id (some [2]) = .ok [2] from rfl] at hreindex
  cases hreindex
  rw [calledOnce_frame] at hframe
  cases hframe
  have hseen : Recognised twoFunctions [2] calledOnce.returnAddresses := by
    intro addr haddr hbad
    rw [List.mem_singleton.mp haddr, inUnsafe_second] at hbad
    exact absurd hbad (by decide)
  have hrun : RunsTo 0x1010 calledOnce ⟨0x1010, []⟩ := .step .stop (by decide) (.ret 0x2010 0x1010 [])
  exact hsafe hseen _ hrun rfl (Nat.le_refl _)

/-- The second calls the first, which calls it again: when that call returns, the breakpoint is reached with the
second still active. -/
theorem not_safe_at_breakpoint :
    ¬ ∀ (elf : TargetElf) (reindexSymbol : Nat → Nat) (unsafeFunctionsData : Option (List Nat)) (unsafeFunctions : List Nat)
      (stop m : Activations) (avoidCurrentFrame : Bool) (addr : UInt64),
      findSafeBreakpointForPatch elf reindexSymbol unsafeFunctionsData stop.returnAddresses avoidCurrentFrame = .ok addr →
      reindexUnsafe reindexSymbol unsafeFunctionsData = .ok unsafeFunctions → RunsTo addr stop m → m.pc = addr →
      SafeToPatch elf unsafeFunctions m := by
  intro h
  have hrun : RunsTo 0x1010 calledOnce ⟨0x1010, [0x2020, 0x1010]⟩ := by
    have hcall : RunsTo 0x1010 calledOnce ⟨0x1000, [0x2020, 0x1010]⟩ := .step .stop (by decide) (.call _ _ _ _)
    have hagain : RunsTo 0x1010 calledOnce ⟨0x2000, [0x1010, 0x2020, 0x1010]⟩ := .step hcall (by decide) (.call _ _ _ _)
    exact .step hagain (by decide) (.ret _ _ _)
  have hsafe := h twoFunctions id (some [2]) [2] calledOnce _ true 0x1010 calledOnce_breakpoint rfl hrun rfl
  exact hsafe 0x2020 (by simp) (inUnsafe_second.mpr (by decide))

end Katana

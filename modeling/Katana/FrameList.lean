/-
  Katana.FrameList — choosing among the activation frames (findSafeBreakpointForPatch in patcher/safety.c).

  The frames are a doubly linked list, oldest first. It is cut off at the first frame in an unsafe
  function, and the breakpoint goes to the last frame that is left, or to the one before it. Each frame's
  function is named in the log, and a name that looks like C++ must demangle for that.

  Proved, for every list of frames and of unsafe functions:
  - `pushFrames_thread`: pushing the frames gives the list.
  - `checkFrames_ok`: the loop leaves the frames before the first unsafe one, and follows no freed pointer.
  - `chooseFrame_eq`: where all names can be logged, the frame is that of `deepestGoodFrame`.
  - `frameChosen_iff`: exactly when the right frame is chosen.
-/
import Katana.Lib.Thread
import Katana.SafeBreakpoint

namespace Katana

open Lib

/-! ## The names in the log -/

/-- Names of symbols, and `abi::__cxa_demangle`, which is not part of the program. -/
structure FunctionNames where
  nameOf : Nat → String
  cxaDemangle : String → Option String

def FunctionNames.demangleName (names : FunctionNames) (mangledName : String) : Except Fault String :=
  match names.cxaDemangle mangledName with
  | some demangled => .ok demangled
  | none => .error (.death "c++ name demangling failed\n")

variable (elf : TargetElf) (names : FunctionNames)

def getFunctionNameAtPC (pc : UInt64) : Except Fault String :=
  let symIdx := findFunctionContainingAddress elf pc
  if symIdx = 0 then .ok "?"
  else if "_Z".toList <+: (names.nameOf symIdx).toList then names.demangleName (names.nameOf symIdx)
  else .ok (names.nameOf symIdx)

/-! ## The list -/

/-- `dlistPush(&activationFramesHead,NULL,li)`. -/
def dlistPush (st : Heap ActivationFrame × Option Nat) (frame : ActivationFrame) :
    Except Fault (Heap ActivationFrame × Option Nat) :=
  st.1.pushFront Fault.undefined st.2 frame >>= fun r => .ok (r.1, some r.2)

/-- The frames pushed as they are unwound, the newest first. -/
def pushFrames (activationFrames : List ActivationFrame) : Except Fault (Heap ActivationFrame × Option Nat) :=
  activationFrames.reverse.foldlM dlistPush (⟨fun _ => none, 0⟩, none)

/-- The loop over the list from `li` on; gives the heap and `deepestGoodFrameLi`. -/
def checkFrames (unsafeFunctions : List Nat) :
    Nat → Heap ActivationFrame → Option Nat → Option Nat → Except Fault (Heap ActivationFrame × Option Nat)
  | _, h, deepestGoodFrameLi, none => .ok (h, deepestGoodFrameLi)
  | 0, _, _, some _ => .error .undefined
  | fuel + 1, h, deepestGoodFrameLi, some li => do
    let node ← h.load Fault.undefined li
    let _ ← getFunctionNameAtPC elf names node.item.pc
    if node.item.symIdx ∈ unsafeFunctions then
      let h ← h.cutFrom Fault.undefined li
      .ok (h, deepestGoodFrameLi)
    else checkFrames unsafeFunctions fuel h (some li) node.next

def neverPatchable : Fault :=
  .death ("All functions with activation frames on the stack require patching. " ++
    "The application will never be in a patchable state!")

/-- `findSafeBreakpointForPatch` from the frames and the reindexed unsafe functions on. -/
def chooseFrame (unsafeFunctions : List Nat) (activationFrames : List ActivationFrame) (avoidCurrentFrame : Bool) :
    Except Fault UInt64 := do
  let (h, head) ← pushFrames activationFrames
  let (h, deepestGoodFrameLi) ← checkFrames elf names unsafeFunctions h.fresh h none head
  match deepestGoodFrameLi with
  | none => .error neverPatchable
  | some li =>
    let node ← h.load Fault.undefined li
    match node.prev with
    | some prev =>
      -- never break in the current function if possible
      if avoidCurrentFrame then
        let node ← h.load Fault.undefined prev
        .ok node.item.pc
      else .ok node.item.pc
    | none => .ok node.item.pc

/-! ## What the loop leaves -/

section Walk
variable {elf : TargetElf} {names : FunctionNames} {unsafeFunctions : List Nat} {h : Heap ActivationFrame}

def framesOf (l : List (Nat × ActivationFrame)) : List ActivationFrame := l.map Prod.snd

/-- **Pushing the frames gives the list.** -/
theorem pushFrames_thread (activationFrames : List ActivationFrame) :
    ∃ h head l, pushFrames activationFrames = .ok (h, head) ∧ h.Thread head l ∧ framesOf l = activationFrames := by
  unfold pushFrames
  induction activationFrames with
  | nil => exact ⟨_, _, [], rfl, ⟨rfl, List.nodup_nil, by simp [addresses]⟩, rfl⟩
  | cons frame activationFrames ih =>
    obtain ⟨h, head, l, hrun, ht, hframes⟩ := ih
    obtain ⟨h', hpush, -, ht'⟩ := ht.pushFront Fault.undefined frame
    refine ⟨h', _, _, ?_, ht', by simp [framesOf, ← hframes]⟩
    rw [List.reverse_cons, List.foldlM_append, hrun, bind_ok]
    simp [dlistPush, hpush]

def Named (elf : TargetElf) (names : FunctionNames) (frame : ActivationFrame) : Prop :=
  (getFunctionNameAtPC elf names frame.pc).isOk

instance (frame : ActivationFrame) : Decidable (Named elf names frame) := inferInstanceAs (Decidable (_ = true))

/-- The frames before the first one in an unsafe function. -/
def safePart (unsafeFunctions : List Nat) (frames : List ActivationFrame) : List ActivationFrame :=
  frames.takeWhile fun frame => frame.symIdx ∉ unsafeFunctions

/-- The frames the loop comes to: those, and the unsafe one. -/
def lookedAt (unsafeFunctions : List Nat) : List ActivationFrame → List ActivationFrame
  | [] => []
  | frame :: frames => frame :: if frame.symIdx ∈ unsafeFunctions then [] else lookedAt unsafeFunctions frames

theorem getFunctionNameAtPC_ok {frame : ActivationFrame} (hnamed : Named elf names frame) :
    ∃ name, getFunctionNameAtPC elf names frame.pc = .ok name := by
  unfold Named at hnamed
  cases hname : getFunctionNameAtPC elf names frame.pc with
  | error e => simp [hname, Except.isOk, Except.toBool] at hnamed
  | ok name => exact ⟨name, rfl⟩

/-- A name that cannot be logged ends the program. -/
theorem getFunctionNameAtPC_error {frame : ActivationFrame} (hnamed : ¬ Named elf names frame) :
    ∃ msg, getFunctionNameAtPC elf names frame.pc = .error (.death msg) := by
  unfold Named at hnamed
  unfold getFunctionNameAtPC FunctionNames.demangleName at hnamed ⊢
  dsimp only at hnamed ⊢
  split
  · simp_all [Except.isOk, Except.toBool]
  · split
    · split
      · simp_all [Except.isOk, Except.toBool]
      · exact ⟨_, rfl⟩
    · simp_all [Except.isOk, Except.toBool]

/-- **The loop leaves the frames before the first unsafe one** as a list, and points to the last of them. -/
theorem checkFrames_ok {start li : Option Nat} {done rest : List (Nat × ActivationFrame)} {fuel : Nat}
    (ht : h.Thread start (done ++ rest)) (hli : Seg h.cells (lastOf none done) li rest none) (hfuel : rest.length ≤ fuel)
    (hnamed : ∀ frame ∈ lookedAt unsafeFunctions (framesOf rest), Named elf names frame) :
    ∃ h' start' kept, checkFrames elf names unsafeFunctions fuel h (lastOf none done) li = .ok (h', lastOf none kept) ∧
      h'.Thread start' kept ∧ framesOf kept = framesOf done ++ safePart unsafeFunctions (framesOf rest) := by
  induction rest generalizing done li fuel with
  | nil =>
    cases hli
    refine ⟨h, start, done, by cases fuel <;> rfl, by simpa using ht, by simp [framesOf, safePart]⟩
  | cons n rest ih =>
    rcases n with ⟨a, frame⟩
    obtain ⟨rfl, next, hcell, hrest⟩ := hli
    cases fuel with
    | zero => cases hfuel
    | succ fuel =>
      obtain ⟨name, hname⟩ := getFunctionNameAtPC_ok (hnamed frame (by simp [framesOf, lookedAt]))
      unfold checkFrames
      rw [Heap.load_ok hcell, bind_ok, hname, bind_ok]
      by_cases hbad : frame.symIdx ∈ unsafeFunctions
      · obtain ⟨h', hcut, ht', -⟩ := ht.cutFrom Fault.undefined
        refine ⟨h', _, done, ?_, ht', by simp [framesOf, safePart, hbad]⟩
        rw [if_pos hbad, hcut]
        rfl
      · rw [if_neg hbad]
        have hsnoc : done ++ (a, frame) :: rest = (done ++ [(a, frame)]) ++ rest := by simp
        have hlast : lastOf none (done ++ [(a, frame)]) = some a := by rw [lastOf_append]; rfl
        have hrest' : Seg h.cells (lastOf none (done ++ [(a, frame)])) next rest none := by rw [hlast]; exact hrest
        obtain ⟨h', start', kept, hrun, ht', hkept⟩ := ih (hsnoc ▸ ht) hrest' (Nat.le_of_succ_le_succ hfuel) fun g hg =>
          hnamed g (by simp [framesOf, lookedAt, hbad] at hg ⊢; exact .inr hg)
        rw [hlast] at hrun
        refine ⟨h', start', kept, hrun, ht', ?_⟩
        rw [hkept]
        simp [framesOf, safePart, hbad]

/-- **It ends at a name that cannot be logged.** -/
theorem checkFrames_unnamed {prev li deepestGoodFrameLi : Option Nat} {rest : List (Nat × ActivationFrame)} {fuel : Nat}
    (hli : Seg h.cells prev li rest none) (hfuel : rest.length ≤ fuel)
    (hunnamed : ¬ ∀ frame ∈ lookedAt unsafeFunctions (framesOf rest), Named elf names frame) :
    ∃ msg, checkFrames elf names unsafeFunctions fuel h deepestGoodFrameLi li = .error (.death msg) := by
  induction rest generalizing prev li deepestGoodFrameLi fuel with
  | nil => simp [framesOf, lookedAt] at hunnamed
  | cons n rest ih =>
    rcases n with ⟨a, frame⟩
    obtain ⟨rfl, next, hcell, hrest⟩ := hli
    cases fuel with
    | zero => cases hfuel
    | succ fuel =>
      unfold checkFrames
      rw [Heap.load_ok hcell, bind_ok]
      by_cases hnamed : Named elf names frame
      · obtain ⟨name, hname⟩ := getFunctionNameAtPC_ok hnamed
        rw [hname, bind_ok]
        by_cases hbad : frame.symIdx ∈ unsafeFunctions
        · simp [framesOf, lookedAt, hbad, hnamed] at hunnamed
        · rw [if_neg hbad]
          refine ih hrest (Nat.le_of_succ_le_succ hfuel) fun hall => hunnamed ?_
          simpa [framesOf, lookedAt, hbad, hnamed] using hall
      · obtain ⟨msg, hdeath⟩ := getFunctionNameAtPC_error hnamed
        exact ⟨msg, by rw [hdeath]; rfl⟩

/-- What is returned of the frames left, the newest first. -/
def returnedPc (avoidCurrentFrame : Bool) : List ActivationFrame → Except Fault UInt64
  | [] => .error neverPatchable
  | [frame] => .ok frame.pc
  | frame :: prev :: _ => .ok (if avoidCurrentFrame then prev.pc else frame.pc)

/-- The end of `findSafeBreakpointForPatch`, on the list that is left. -/
theorem returnedPc_of_thread {start : Option Nat} {kept : List (Nat × ActivationFrame)} (ht : h.Thread start kept)
    (avoidCurrentFrame : Bool) :
    (match lastOf none kept with
      | none => .error neverPatchable
      | some li => do
        let node ← h.load Fault.undefined li
        match node.prev with
        | some prev =>
          if avoidCurrentFrame then
            let node ← h.load Fault.undefined prev
            .ok node.item.pc
          else .ok node.item.pc
        | none => .ok node.item.pc) = returnedPc avoidCurrentFrame (framesOf kept).reverse := by
  rcases List.eq_nil_or_concat' kept with rfl | ⟨init, ⟨a, frame⟩, rfl⟩
  · rfl
  · obtain ⟨next, hcell, hseg, -⟩ := ht.split
    have hlast : lastOf none (init ++ [(a, frame)]) = some a := by rw [lastOf_append]; rfl
    rw [hlast]
    dsimp only
    rw [Heap.load_ok hcell, bind_ok]
    rcases List.eq_nil_or_concat' init with rfl | ⟨init, ⟨b, prev⟩, rfl⟩
    · rfl
    · have hlast : lastOf none (init ++ [(b, prev)]) = some b := by rw [lastOf_append]; rfl
      obtain ⟨nb, pb, hprev⟩ := hseg.mem (show (b, prev) ∈ init ++ [(b, prev)] by simp)
      rw [hlast]
      dsimp only
      rw [Heap.load_ok hprev, bind_ok]
      cases avoidCurrentFrame <;> simp [framesOf, returnedPc]

variable {activationFrames : List ActivationFrame} {avoidCurrentFrame : Bool}

/-- **The frame of `deepestGoodFrame`** is chosen, where all names can be logged. -/
theorem chooseFrame_eq (hnamed : ∀ frame ∈ lookedAt unsafeFunctions activationFrames, Named elf names frame) :
    chooseFrame elf names unsafeFunctions activationFrames avoidCurrentFrame =
      returnedPc avoidCurrentFrame (deepestGoodFrame unsafeFunctions [] activationFrames) := by
  obtain ⟨h, head, l, hpush, ht, rfl⟩ := pushFrames_thread activationFrames
  obtain ⟨h', start', kept, hrun, ht', hkept⟩ := @checkFrames_ok elf names unsafeFunctions h head head [] l h.fresh
    ht ht.seg ht.length_le hnamed
  unfold chooseFrame
  rw [hpush, bind_ok]
  dsimp only
  rw [show (none : Option Nat) = lastOf none ([] : List (Nat × ActivationFrame)) from rfl, hrun, bind_ok]
  rw [deepestGoodFrame_takeWhile, List.append_nil]
  have hsafe : framesOf kept = safePart unsafeFunctions (framesOf l) := hkept
  unfold safePart at hsafe
  rw [← hsafe]
  exact returnedPc_of_thread ht' avoidCurrentFrame

theorem chooseFrame_unnamed (hunnamed : ¬ ∀ frame ∈ lookedAt unsafeFunctions activationFrames, Named elf names frame) :
    ∃ msg, chooseFrame elf names unsafeFunctions activationFrames avoidCurrentFrame = .error (.death msg) := by
  obtain ⟨h, head, l, hpush, ht, rfl⟩ := pushFrames_thread activationFrames
  obtain ⟨msg, hrun⟩ := @checkFrames_unnamed elf names unsafeFunctions h none head none l h.fresh ht.seg
    ht.length_le hunnamed
  refine ⟨msg, ?_⟩
  unfold chooseFrame
  rw [hpush, bind_ok]
  dsimp only
  rw [hrun]
  rfl

end Walk

/-! ## The right frame -/

/-- No frame, or the oldest in an unsafe function. -/
def NeverSafe (unsafeFunctions : List Nat) (activationFrames : List ActivationFrame) : Prop :=
  ∀ oldest ∈ activationFrames.head?, oldest.symIdx ∈ unsafeFunctions

/-- The newest frame such that it and all older ones are safe, with those. -/
structure NewestSafe (unsafeFunctions : List Nat) (activationFrames older : List ActivationFrame) (frame : ActivationFrame) :
    Prop where
  begins : older ++ [frame] <+: activationFrames
  safe : ∀ g ∈ older ++ [frame], g.symIdx ∉ unsafeFunctions
  newest : ∀ g, older ++ [frame, g] <+: activationFrames → g.symIdx ∈ unsafeFunctions

/-- The program ends where it can never be patched, and elsewhere the breakpoint goes to the newest safe frame, or to the
one just older if there is one and the newest is to be avoided. -/
structure FrameChosen (unsafeFunctions : List Nat) (activationFrames : List ActivationFrame) (avoidCurrentFrame : Bool)
    (chosen : Except Fault UInt64) : Prop where
  dies_iff : (∃ msg, chosen = .error (.death msg)) ↔ NeverSafe unsafeFunctions activationFrames
  returns : ∀ older frame, NewestSafe unsafeFunctions activationFrames older frame →
    chosen = .ok (if avoidCurrentFrame then (older.getLast?.getD frame).pc else frame.pc)

section Choice
variable {elf : TargetElf} {names : FunctionNames} {unsafeFunctions : List Nat} {activationFrames older : List ActivationFrame}
  {avoidCurrentFrame : Bool} {frame : ActivationFrame}

theorem NewestSafe.safePart_eq (h : NewestSafe unsafeFunctions activationFrames older frame) :
    safePart unsafeFunctions activationFrames = older ++ [frame] := by
  obtain ⟨rest, rfl⟩ := h.begins
  unfold safePart
  rw [List.takeWhile_append_of_pos fun g hg => by simpa using h.safe g hg]
  cases rest with
  | nil => simp
  | cons g rest =>
    have hbad := h.newest g ⟨rest, by simp⟩
    simp [hbad]

theorem NewestSafe.not_neverSafe (h : NewestSafe unsafeFunctions activationFrames older frame) :
    ¬ NeverSafe unsafeFunctions activationFrames := by
  intro hnever
  obtain ⟨rest, rfl⟩ := h.begins
  cases older with
  | nil => exact h.safe frame (by simp) (hnever frame (by simp))
  | cons g older => exact h.safe g (by simp) (hnever g (by simp))

theorem safePart_eq_nil_iff : safePart unsafeFunctions activationFrames = [] ↔ NeverSafe unsafeFunctions activationFrames := by
  unfold safePart NeverSafe
  cases activationFrames with
  | nil => simp
  | cons oldest frames => by_cases h : oldest.symIdx ∈ unsafeFunctions <;> simp [h]

/-- It dies where nothing is returned. -/
theorem chooseFrame_dies (h : NeverSafe unsafeFunctions activationFrames) :
    ∃ msg, chooseFrame elf names unsafeFunctions activationFrames avoidCurrentFrame = .error (.death msg) := by
  by_cases hnamed : ∀ frame ∈ lookedAt unsafeFunctions activationFrames, Named elf names frame
  · have hnil := safePart_eq_nil_iff.mpr h
    unfold safePart at hnil
    rw [chooseFrame_eq hnamed, deepestGoodFrame_takeWhile, hnil]
    exact ⟨_, rfl⟩
  · exact chooseFrame_unnamed hnamed

theorem returnedPc_newest (older : List ActivationFrame) (frame : ActivationFrame) :
    returnedPc avoidCurrentFrame (older ++ [frame]).reverse =
      .ok (if avoidCurrentFrame then (older.getLast?.getD frame).pc else frame.pc) := by
  rcases List.eq_nil_or_concat' older with rfl | ⟨older, prev, rfl⟩
  · simp [returnedPc]
  · simp [returnedPc]

end Choice

/-- **The right frame is chosen** exactly when there is none, or every frame that is looked at has a name for the log. -/
theorem frameChosen_iff (elf : TargetElf) (names : FunctionNames) (unsafeFunctions : List Nat)
    (activationFrames : List ActivationFrame) (avoidCurrentFrame : Bool) :
    FrameChosen unsafeFunctions activationFrames avoidCurrentFrame
        (chooseFrame elf names unsafeFunctions activationFrames avoidCurrentFrame) ↔
      NeverSafe unsafeFunctions activationFrames ∨
        ∀ frame ∈ lookedAt unsafeFunctions activationFrames, Named elf names frame := by
  constructor
  · intro h
    by_contra hno
    rw [not_or] at hno
    exact hno.1 (h.dies_iff.mp (chooseFrame_unnamed hno.2))
  · intro h
    rcases h with hnever | hnamed
    · exact ⟨iff_of_true (chooseFrame_dies hnever) hnever, fun older frame hf => absurd hnever hf.not_neverSafe⟩
    · refine ⟨⟨fun hdies => ?_, chooseFrame_dies⟩, fun older frame hf => ?_⟩
      · obtain ⟨msg, hdies⟩ := hdies
        rw [chooseFrame_eq hnamed, deepestGoodFrame_takeWhile, List.append_nil] at hdies
        rw [← safePart_eq_nil_iff]
        unfold safePart
        rcases List.eq_nil_or_concat' (activationFrames.takeWhile fun frame => frame.symIdx ∉ unsafeFunctions) with
          hnil | ⟨older, frame, hsafe⟩
        · exact hnil
        · rw [hsafe, returnedPc_newest] at hdies
          cases hdies
      · have hsafe := hf.safePart_eq
        unfold safePart at hsafe
        rw [chooseFrame_eq hnamed, deepestGoodFrame_takeWhile, List.append_nil, hsafe, returnedPc_newest]

/-- A C program whose oldest function is called `_Zfoo`, which is no C++ name. -/
def oddlyNamed : FunctionNames := ⟨fun _ => "_Zfoo", fun _ => none⟩

/-- Nothing is unsafe, and it dies all the same. -/
theorem not_frameChosen : ¬ ∀ (elf : TargetElf) (names : FunctionNames) (unsafeFunctions : List Nat)
    (activationFrames : List ActivationFrame) (avoidCurrentFrame : Bool),
    FrameChosen unsafeFunctions activationFrames avoidCurrentFrame
      (chooseFrame elf names unsafeFunctions activationFrames avoidCurrentFrame) := by
  intro h
  have hdies : chooseFrame twoFunctions oddlyNamed [] [⟨0x1010, 1, []⟩] true =
      .error (.death "c++ name demangling failed\n") := by
    decide +kernel
  have hnever := (h twoFunctions oddlyNamed [] [⟨0x1010, 1, []⟩] true).dies_iff.mp ⟨_, hdies⟩
  exact absurd (hnever ⟨0x1010, 1, []⟩ rfl) (by simp)

end Katana

/-
  Katana.ParallelFixup — a fixup is a parallel assignment (dwarfvm.c).

  The meaning of an FDE is given on its own: a list of assignments in the order of the rules, with all right-hand sides
  taken from one memory, that of the target before the fixup. A fixup by value adds the assignments of its FDE. So does an
  object behind a pointer that is come to for the first time; objects are told apart by their addresses. The code's map
  takes an object for another one if their addresses have one bucket and the same low four bytes.

  Proved, for every FDE, state and target:
  - `generate_outcome`: the patches that are generated are the assignments, each once and in order, unless an object is
    taken for another one; then they are not.
  - `patchDataWithFDE_parallel`: the memory afterwards is the original one with them written; until they are all there
    nothing is written.
-/
import Katana.Aliasing

namespace Katana

open Lib Lib.Run

variable {H : Type} (process : Process H) (bins : Binaries) (orig : Memory)

/-! ## The assignments of an FDE -/

/-- The remembered states, the objects that have been moved, by their addresses, and the heap. -/
structure Moves (H : Type) where
  stateStack : List (Dictionary PoRegRule)
  moved : UInt64 → Option UInt64
  heap : H

def Moves.enter (m : Moves H) (old new : UInt64) (heap : H) : Moves H :=
  { m with moved := Function.update m.moved old (some new), heap }

/-- Where an object goes: one of a variable to where the patch has the variable, another one to memory from `malloc`. -/
inductive Relocates (index old : UInt64) (heap : H) : UInt64 → H → Prop
  | patched {new : UInt64} : findSymbolContainingAddress bins old ≠ 0 →
    movedSymbol bins (findSymbolContainingAddress bins old) = .ok new → Relocates index old heap new heap
  | allocated {size new : UInt64} {heap' : H} : findSymbolContainingAddress bins old = 0 →
    patchMemSize bins index = .ok size → process.malloc heap size = (new, heap') → new ≠ 0 →
    Relocates index old heap new heap'

mutual

/-- The assignments of a rule, and what has been moved after it. -/
inductive RuleAssigns : PoRegRule → SpecialRegsState → Moves H → Moves H → List Assignment → Prop
  | undef {rule : PoRegRule} {state : SpecialRegsState} {m : Moves H} :
    rule.type = .undef → RuleAssigns rule state m m []
  | offset {rule : PoRegRule} {state : SpecialRegsState} {m : Moves H} {dest : UInt64} :
    rule.type = .offset → registerAddress bins state rule.regLH = some dest →
    RuleAssigns rule state m m [(dest, offsetBytes orig state rule dest)]
  | register {rule : PoRegRule} {state : SpecialRegsState} {m : Moves H} {dest : UInt64} {bytes : List UInt8} :
    rule.type = .register → registerAddress bins state rule.regLH = some dest →
    registerBytes bins orig state rule.regRH = some bytes → RuleAssigns rule state m m [(dest, bytes)]
  | fixup {rule : PoRegRule} {state : SpecialRegsState} {m m' : Moves H} {dest old : UInt64} {fde : FDE}
      {assigns : List Assignment} :
    rule.type = .recurseFixup → registerAddress bins state rule.regLH = some dest →
    registerAddress bins state rule.regRH = some old → patchFDE bins rule.index = .ok fde →
    FdeAssigns fde { state with currAddrOld := old, currAddrNew := dest } m m' assigns →
    RuleAssigns rule state m m' assigns
  | nullPointer {rule : PoRegRule} {state : SpecialRegsState} {m : Moves H} {dest : UInt64} {bytes : List UInt8} :
    rule.type = .recurseFixupPointer → registerAddress bins state rule.regLH = some dest →
    registerBytes bins orig state rule.regRH = some bytes → addrOfBytes bytes = 0 →
    RuleAssigns rule state m m [(dest, addrBytes 0)]
  | movedPointer {rule : PoRegRule} {state : SpecialRegsState} {m : Moves H} {dest new : UInt64} {bytes : List UInt8} :
    rule.type = .recurseFixupPointer → registerAddress bins state rule.regLH = some dest →
    registerBytes bins orig state rule.regRH = some bytes → addrOfBytes bytes ≠ 0 →
    m.moved (addrOfBytes bytes) = some new → RuleAssigns rule state m m [(dest, addrBytes new)]
  | movePointer {rule : PoRegRule} {state : SpecialRegsState} {m m' : Moves H} {dest new : UInt64} {heap : H}
      {bytes : List UInt8} {fde : FDE} {assigns : List Assignment} :
    rule.type = .recurseFixupPointer → registerAddress bins state rule.regLH = some dest →
    registerBytes bins orig state rule.regRH = some bytes → addrOfBytes bytes ≠ 0 →
    m.moved (addrOfBytes bytes) = none → Relocates process bins rule.index (addrOfBytes bytes) m.heap new heap →
    patchFDE bins rule.index = .ok fde →
    FdeAssigns fde { state with currAddrOld := addrOfBytes bytes, currAddrNew := new }
      (m.enter (addrOfBytes bytes) new heap) m' assigns →
    RuleAssigns rule state m m' ((dest, addrBytes new) :: assigns)

/-- The assignments of one rule after the other. -/
inductive RulesAssign : List PoRegRule → SpecialRegsState → Moves H → Moves H → List Assignment → Prop
  | nil {state : SpecialRegsState} {m : Moves H} : RulesAssign [] state m m []
  | cons {rule : PoRegRule} {rules : List PoRegRule} {state : SpecialRegsState} {m m1 m' : Moves H}
      {assigns assigns' : List Assignment} :
    RuleAssigns rule state m m1 assigns → RulesAssign rules state m1 m' assigns' →
    RulesAssign (rule :: rules) state m m' (assigns ++ assigns')

/-- The assignments of an FDE; its CFA, when it has one, is the same for all its rules. -/
inductive FdeAssigns : FDE → SpecialRegsState → Moves H → Moves H → List Assignment → Prop
  | rules {fde : FDE} {state : SpecialRegsState} {m m' : Moves H} {st : RuleState} {cfaValue : UInt64}
      {assigns : List Assignment} :
    rulesOf bins fde m.stateStack = .ok st → CfaIs bins state st.rules cfaValue →
    RulesAssign (dictValues st.rules) { state with cfaValue } { m with stateStack := st.stateStack } m' assigns →
    FdeAssigns fde state m m' assigns

end

/-! ## Objects that are taken for others -/

variable (buckets : Nat)

mutual

/-- An object that has not been moved has the key of one that has. -/
inductive RuleConfuses : PoRegRule → SpecialRegsState → Moves H → Prop
  | pointer {rule : PoRegRule} {state : SpecialRegsState} {m : Moves H} {bytes : List UInt8} {other new : UInt64} :
    rule.type = .recurseFixupPointer → registerBytes bins orig state rule.regRH = some bytes → addrOfBytes bytes ≠ 0 →
    m.moved (addrOfBytes bytes) = none → m.moved other = some new →
    Matches (sizeTKeying buckets) (addrOfBytes bytes) other → RuleConfuses rule state m
  | behind {rule : PoRegRule} {state : SpecialRegsState} {m : Moves H} {new : UInt64} {heap : H}
      {bytes : List UInt8} {fde : FDE} :
    rule.type = .recurseFixupPointer → registerBytes bins orig state rule.regRH = some bytes → addrOfBytes bytes ≠ 0 →
    m.moved (addrOfBytes bytes) = none → Relocates process bins rule.index (addrOfBytes bytes) m.heap new heap →
    patchFDE bins rule.index = .ok fde →
    FdeConfuses fde { state with currAddrOld := addrOfBytes bytes, currAddrNew := new }
      (m.enter (addrOfBytes bytes) new heap) → RuleConfuses rule state m
  | fixup {rule : PoRegRule} {state : SpecialRegsState} {m : Moves H} {dest old : UInt64} {fde : FDE} :
    rule.type = .recurseFixup → registerAddress bins state rule.regLH = some dest →
    registerAddress bins state rule.regRH = some old → patchFDE bins rule.index = .ok fde →
    FdeConfuses fde { state with currAddrOld := old, currAddrNew := dest } m → RuleConfuses rule state m

inductive RulesConfuse : List PoRegRule → SpecialRegsState → Moves H → Prop
  | here {rule : PoRegRule} {rules : List PoRegRule} {state : SpecialRegsState} {m : Moves H} :
    RuleConfuses rule state m → RulesConfuse (rule :: rules) state m
  | later {rule : PoRegRule} {rules : List PoRegRule} {state : SpecialRegsState} {m m1 : Moves H}
      {assigns : List Assignment} :
    RuleAssigns process bins orig rule state m m1 assigns → RulesConfuse rules state m1 →
    RulesConfuse (rule :: rules) state m

/-- The assignments come to such an object. -/
inductive FdeConfuses : FDE → SpecialRegsState → Moves H → Prop
  | rules {fde : FDE} {state : SpecialRegsState} {m : Moves H} {st : RuleState} {cfaValue : UInt64} :
    rulesOf bins fde m.stateStack = .ok st → CfaIs bins state st.rules cfaValue →
    RulesConfuse (dictValues st.rules) { state with cfaValue } { m with stateStack := st.stateStack } →
    FdeConfuses fde state m

end

/-! ## The map -/

def movedFrom (map : SizeTMap UInt64) (old : UInt64) : Option UInt64 := (map.table.nodes.find? fun n => n.1 == old).map (·.2)

def VM.moves (vm : VM H) : Moves H := ⟨vm.stateStack, movedFrom vm.dataMoved, vm.target.heap⟩

section
variable {process : Process H} {bins : Binaries} {orig : Memory} {buckets : Nat}

theorem movedFrom_eq_some {map : SizeTMap UInt64} {old new : UInt64} :
    movedFrom map old = some new ↔ (old, new) ∈ map.table.nodes := by
  unfold movedFrom
  refine ⟨?_, ?_⟩
  · intro h
    obtain ⟨n, hn, rfl⟩ := Option.map_eq_some_iff.mp h
    have hkey : n.1 = old := by simpa using List.find?_some hn
    rw [← hkey]
    exact List.mem_of_find?_eq_some hn
  · intro h
    have hsome : (map.table.nodes.find? fun n => n.1 == old).isSome := List.find?_isSome.mpr ⟨_, h, beq_self_eq_true old⟩
    obtain ⟨n, hn⟩ := Option.isSome_iff_exists.mp hsome
    have hkey : n.1 = old := by simpa using List.find?_some hn
    have heq := Table.matches_unique (List.mem_of_find?_eq_some hn) h (hkey ▸ Matches.refl _)
    rw [hn, heq]
    rfl

theorem movedFrom_insert {map map' : SizeTMap UInt64} {old new : UInt64} (h : mapInsert map old new = .ok map') :
    movedFrom map' = Function.update (movedFrom map) old (some new) := by
  have hnone : ∀ value, (old, value) ∉ map.table.nodes := by
    unfold mapInsert at h
    split at h
    · rename_i hget
      exact fun value hmem => Table.get_eq_none_iff.mp hget _ hmem (.refl _)
    · cases h
  funext p
  refine Option.ext fun value => ?_
  rw [movedFrom_eq_some, mem_mapInsert h]
  by_cases hp : p = old
  · subst hp
    simp [hnone value, eq_comm]
  · simp [hp, movedFrom_eq_some]

/-- An object's own entry is the one it is found by. -/
theorem mapGet_of_movedFrom {map : SizeTMap UInt64} {old new : UInt64} (h : movedFrom map old = some new) :
    mapGet map old = some new := Table.get_of_mem (movedFrom_eq_some.mp h)

theorem movedFrom_of_mapGet {map : SizeTMap UInt64} {old : UInt64} (h : mapGet map old = none) :
    movedFrom map old = none ∧ ∀ other new, movedFrom map other = some new → ¬ Matches (sizeTKeying map.numBuckets) old other := by
  refine ⟨?_, fun other new hother => Table.get_eq_none_iff.mp h _ (movedFrom_eq_some.mp hother)⟩
  cases hmoved : movedFrom map old with
  | none => rfl
  | some new =>
    rw [mapGet_of_movedFrom hmoved] at h
    cases h

/-! ## Relocation -/

theorem newLocation_relocates {index old new : UInt64} {vm vm1 : VM H}
    (h : newLocation process bins index old vm = .ok new vm1) :
    Relocates process bins index old vm.target.heap new vm1.target.heap := by
  unfold newLocation at h
  split at h
  · rename_i hsym
    obtain ⟨hmoved, hvm⟩ := lift_ok.mp h
    rw [hvm]
    exact .patched hsym hmoved
  · rename_i hsym
    obtain ⟨size, hsize, h⟩ := lift_bind_ok.mp h
    rw [run_bind_of_ok (get_run vm)] at h
    obtain ⟨answer, hanswer, h⟩ := lift_bind_ok.mp h
    rw [run_bind_of_ok (modify_run _ _)] at h
    obtain ⟨hnew, hvm⟩ := pure_ok.mp h
    obtain ⟨heap, hmalloc, hzero, htarget⟩ := mallocTarget_answer hanswer
    have hheap : vm1.target.heap = heap := by
      rw [hvm]
      show answer.2.heap = heap
      rw [htarget]
    rw [hnew, hheap]
    exact .allocated (not_not.mp hsym) hsize hmalloc hzero

theorem Relocates.unique {index old new new' : UInt64} {heap heap1 heap2 : H}
    (h : Relocates process bins index old heap new heap1) (h' : Relocates process bins index old heap new' heap2) :
    new = new' ∧ heap1 = heap2 := by
  cases h with
  | patched hsym hmoved =>
    cases h' with
    | patched _ hmoved' => exact ⟨Except.ok.inj (hmoved.symm.trans hmoved'), rfl⟩
    | allocated hzero => exact absurd hzero hsym
  | allocated hzero hsize hmalloc _ =>
    cases h' with
    | patched hsym _ => exact absurd hzero hsym
    | allocated _ hsize' hmalloc' _ =>
      cases hsize.symm.trans hsize'
      cases hmalloc.symm.trans hmalloc'
      exact ⟨rfl, rfl⟩

theorem CfaIs.unique {state : SpecialRegsState} {rules : Dictionary PoRegRule} {cfaValue cfaValue' : UInt64}
    (h : CfaIs bins state rules cfaValue) (h' : CfaIs bins state rules cfaValue') : cfaValue = cfaValue' := by
  unfold CfaIs at h h'
  cases hget : dictGet rules "\x7bCFA\x7d" with
  | none =>
    rw [hget] at h h'
    exact h.trans h'.symm
  | some cfaRule =>
    rw [hget] at h h'
    obtain ⟨addr, haddr, rfl⟩ := h
    obtain ⟨addr', haddr', rfl⟩ := h'
    cases haddr.symm.trans haddr'
    rfl

/-! ## Lists that part -/

/-- Two lists go on differently after a common start. -/
def PartWays {α : Type} (l l' : List α) : Prop :=
  ∃ front x y rest rest', x ≠ y ∧ l = front ++ x :: rest ∧ l' = front ++ y :: rest'

section
variable {α : Type} {l l' : List α}

theorem PartWays.ne (h : PartWays l l') : l ≠ l' := by
  obtain ⟨front, x, y, rest, rest', hxy, rfl, rfl⟩ := h
  intro heq
  exact hxy (List.cons.inj (List.append_cancel_left heq)).1

theorem PartWays.append (h : PartWays l l') (more more' : List α) : PartWays (l ++ more) (l' ++ more') := by
  obtain ⟨front, x, y, rest, rest', hxy, rfl, rfl⟩ := h
  exact ⟨front, x, y, rest ++ more, rest' ++ more', hxy, by simp, by simp⟩

theorem PartWays.after (h : PartWays l l') (front : List α) : PartWays (front ++ l) (front ++ l') := by
  obtain ⟨front', x, y, rest, rest', hxy, rfl, rfl⟩ := h
  exact ⟨front ++ front', x, y, rest, rest', hxy, by simp, by simp⟩

theorem partWays_head {x y : α} (h : x ≠ y) : PartWays (x :: l) (y :: l') := ⟨[], x, y, l, l', h, rfl, rfl⟩

end

/-! ## What a run comes to -/

/-- What was written is what was to be assigned, and nothing else was; or an object was taken for another one, and then
where they lie apart it was not. -/
inductive Outcome (assigns : Moves H → List Assignment → Prop) (confuses apart : Prop) (m : Moves H)
    (written : List Assignment) : Prop
  | assigned : assigns m written → (∀ m' l, assigns m' l → m' = m ∧ l = written) → ¬ confuses →
    Outcome assigns confuses apart m written
  | confused : confuses → (apart → ∀ m' l, assigns m' l → PartWays written l) → Outcome assigns confuses apart m written

/-- A condition on the runs' states under which an object's new place is not that of another one with its key. -/
structure ToldApart (process : Process H) (bins : Binaries) (I : VM H → Prop) : Prop where
  stack : ∀ vm stateStack, I vm → I { vm with stateStack }
  move : ∀ vm vm1 index old new dataMoved log, I vm → newLocation process bins index old vm = .ok new vm1 →
    mapInsert vm1.dataMoved old new = .ok dataMoved → I { vm1 with dataMoved, log }
  apart : ∀ vm index old new heap other place, I vm → Relocates process bins index old vm.target.heap new heap →
    movedFrom vm.dataMoved old = none → movedFrom vm.dataMoved other = some place →
    Matches (sizeTKeying vm.dataMoved.numBuckets) old other → place ≠ new

variable {I : VM H → Prop}

/-- What stays as it is while patches are collected. -/
structure Collects (orig : Memory) (buckets : Nat) (I : VM H → Prop) (vm vm' : VM H) : Prop where
  bytes : vm'.target.bytes = orig
  buckets : vm'.dataMoved.numBuckets = buckets
  apart : I vm → I vm'

def Generates (process : Process H) (bins : Binaries) (orig : Memory) (buckets : Nat) (I : VM H → Prop)
    (recur : FDE → SpecialRegsState → VMM H (List PatchData)) : Prop :=
  ∀ {fde : FDE} {state : SpecialRegsState} {vm vm' : VM H} {patches : List PatchData}, vm.target.bytes = orig →
    vm.dataMoved.numBuckets = buckets → recur fde state vm = .ok patches vm' → Collects orig buckets I vm vm' ∧
    Outcome (FdeAssigns process bins orig fde state vm.moves) (FdeConfuses process bins orig buckets fde state vm.moves)
      (I vm) vm'.moves (patches.map PatchData.assignment)

/-- What a rule comes to. -/
def RuleOutcome (process : Process H) (bins : Binaries) (orig : Memory) (buckets : Nat) (I : VM H → Prop) (rule : PoRegRule)
    (state : SpecialRegsState) (vm vm' : VM H) (patches : List PatchData) : Prop :=
  Collects orig buckets I vm vm' ∧
    Outcome (RuleAssigns process bins orig rule state vm.moves) (RuleConfuses process bins orig buckets rule state vm.moves)
      (I vm) vm'.moves (patches.map PatchData.assignment)

variable {recur : FDE → SpecialRegsState → VMM H (List PatchData)} {rule : PoRegRule} {state : SpecialRegsState}
  {vm vm' : VM H} {patches : List PatchData} {dest : UInt64} {bytes : List UInt8}

/-- A rule that goes on into no FDE. -/
theorem RuleOutcome.simple (hvm : vm.target.bytes = orig) (hbuckets : vm.dataMoved.numBuckets = buckets)
    (hassigns : RuleAssigns process bins orig rule state vm.moves vm.moves (patches.map PatchData.assignment))
    (hunique : ∀ m l, RuleAssigns process bins orig rule state vm.moves m l →
      m = vm.moves ∧ l = patches.map PatchData.assignment)
    (hnot : ¬ RuleConfuses process bins orig buckets rule state vm.moves) :
    RuleOutcome process bins orig buckets I rule state vm vm patches :=
  ⟨⟨hvm, hbuckets, id⟩, .assigned hassigns hunique hnot⟩

theorem not_confuses (htype : rule.type ≠ .recurseFixup) (htype' : rule.type ≠ .recurseFixupPointer) {m : Moves H} :
    ¬ RuleConfuses process bins orig buckets rule state m := by
  intro h
  cases h with
  | pointer hpointer => exact htype' hpointer
  | behind hpointer => exact htype' hpointer
  | fixup hfixup => exact htype hfixup

theorem assignment_pointers (addr value : UInt64) :
    [PatchData.pointer addr value].map PatchData.assignment = [(addr, addrBytes value)] := by
  rw [List.map_singleton, assignment_pointer]

section Pointer
variable (htype : rule.type = .recurseFixupPointer) (hdest : registerAddress bins state rule.regLH = some dest)
  (hvalue : registerBytes bins orig state rule.regRH = some bytes)
include htype hdest hvalue

theorem nullPointer_outcome (hvm : vm.target.bytes = orig) (hbuckets : vm.dataMoved.numBuckets = buckets)
    (hnull : addrOfBytes bytes = 0) :
    RuleOutcome process bins orig buckets I rule state vm vm [.pointer dest 0] := by
  refine .simple hvm hbuckets ?_ ?_ ?_
  · rw [assignment_pointers]
    exact .nullPointer htype hdest hvalue hnull
  · intro m l h
    rw [assignment_pointers]
    cases h with
    | nullPointer _ hdest' =>
      cases hdest.symm.trans hdest'
      exact ⟨rfl, rfl⟩
    | movedPointer _ _ hvalue' hnonzero =>
      cases hvalue.symm.trans hvalue'
      exact absurd hnull hnonzero
    | movePointer _ _ hvalue' hnonzero =>
      cases hvalue.symm.trans hvalue'
      exact absurd hnull hnonzero
    | undef htype' => simp [htype] at htype'
    | offset htype' => simp [htype] at htype'
    | register htype' => simp [htype] at htype'
    | fixup htype' => simp [htype] at htype'
  · intro h
    cases h with
    | pointer _ hvalue' hnonzero =>
      cases hvalue.symm.trans hvalue'
      exact hnonzero hnull
    | behind _ hvalue' hnonzero =>
      cases hvalue.symm.trans hvalue'
      exact hnonzero hnull
    | fixup htype' => simp [htype] at htype'

/-- Any meaning of a pointer that is not NULL. -/
theorem pointer_inv (hnonzero : addrOfBytes bytes ≠ 0) {m m' : Moves H} {l : List Assignment}
    (h : RuleAssigns process bins orig rule state m m' l) :
    (∃ new, m.moved (addrOfBytes bytes) = some new ∧ m' = m ∧ l = [(dest, addrBytes new)]) ∨
    m.moved (addrOfBytes bytes) = none ∧ ∃ new heap fde assigns,
      Relocates process bins rule.index (addrOfBytes bytes) m.heap new heap ∧ patchFDE bins rule.index = .ok fde ∧
      FdeAssigns process bins orig fde { state with currAddrOld := addrOfBytes bytes, currAddrNew := new }
        (m.enter (addrOfBytes bytes) new heap) m' assigns ∧ l = (dest, addrBytes new) :: assigns := by
  cases h with
  | nullPointer _ _ hvalue' hnull =>
    cases hvalue.symm.trans hvalue'
    exact absurd hnull hnonzero
  | movedPointer _ hdest' hvalue' _ hmoved =>
    cases hvalue.symm.trans hvalue'
    cases hdest.symm.trans hdest'
    exact .inl ⟨_, hmoved, rfl, rfl⟩
  | movePointer _ hdest' hvalue' _ hmoved hnew hfde hassigns =>
    cases hvalue.symm.trans hvalue'
    cases hdest.symm.trans hdest'
    exact .inr ⟨hmoved, _, _, _, _, hnew, hfde, hassigns, rfl⟩
  | undef htype' => simp [htype] at htype'
  | offset htype' => simp [htype] at htype'
  | register htype' => simp [htype] at htype'
  | fixup htype' => simp [htype] at htype'

omit hdest in
theorem pointer_confuses_inv {m : Moves H} (h : RuleConfuses process bins orig buckets rule state m) :
    m.moved (addrOfBytes bytes) = none ∧
    ((∃ other new, m.moved other = some new ∧ Matches (sizeTKeying buckets) (addrOfBytes bytes) other) ∨
    ∃ new heap fde, Relocates process bins rule.index (addrOfBytes bytes) m.heap new heap ∧ patchFDE bins rule.index = .ok fde ∧
      FdeConfuses process bins orig buckets fde { state with currAddrOld := addrOfBytes bytes, currAddrNew := new }
        (m.enter (addrOfBytes bytes) new heap)) := by
  cases h with
  | pointer _ hvalue' _ hmoved hother hmatch =>
    cases hvalue.symm.trans hvalue'
    exact ⟨hmoved, .inl ⟨_, _, hother, hmatch⟩⟩
  | behind _ hvalue' _ hmoved hnew hfde hconfuses =>
    cases hvalue.symm.trans hvalue'
    exact ⟨hmoved, .inr ⟨_, _, _, hnew, hfde, hconfuses⟩⟩
  | fixup htype' => simp [htype] at htype'

variable (hvm : vm.target.bytes = orig) (hbuckets : vm.dataMoved.numBuckets = buckets) (hI : ToldApart process bins I)
  (hnonzero : addrOfBytes bytes ≠ 0)
include hvm hbuckets hI hnonzero

/-- The map has an entry: the object's own, or that of another one. -/
theorem foundPointer_outcome {new : UInt64} (hget : mapGet vm.dataMoved (addrOfBytes bytes) = some new) :
    RuleOutcome process bins orig buckets I rule state vm vm [.pointer dest new] := by
  cases hmoved : movedFrom vm.dataMoved (addrOfBytes bytes) with
  | some new' =>
    obtain rfl : new' = new := Option.some.inj ((mapGet_of_movedFrom hmoved).symm.trans hget)
    refine .simple hvm hbuckets ?_ ?_ ?_
    · rw [assignment_pointers]
      exact .movedPointer htype hdest hvalue hnonzero hmoved
    · intro m l h
      rw [assignment_pointers]
      rcases pointer_inv htype hdest hvalue hnonzero h with ⟨new, hnew, rfl, rfl⟩ | ⟨hnone, -⟩
      · cases hmoved.symm.trans hnew
        exact ⟨rfl, rfl⟩
      · cases hmoved.symm.trans hnone
    · intro h
      cases hmoved.symm.trans (pointer_confuses_inv htype hvalue h).1
  | none =>
    obtain ⟨n, hn, hmatch, hplace⟩ := Table.get_eq_some_iff.mp hget
    have hother : movedFrom vm.dataMoved n.1 = some new := movedFrom_eq_some.mpr (hplace ▸ hn)
    refine ⟨⟨hvm, hbuckets, id⟩, .confused (.pointer htype hvalue hnonzero hmoved hother (hbuckets ▸ hmatch)) ?_⟩
    intro hi m l h
    rw [assignment_pointers]
    rcases pointer_inv htype hdest hvalue hnonzero h with ⟨new', hnew, -⟩ | ⟨-, new', heap, fde, assigns, hnew, -, -, rfl⟩
    · cases hmoved.symm.trans hnew
    · have hne := hI.apart vm _ _ _ _ _ _ hi hnew hmoved hother hmatch
      refine partWays_head fun heq => hne ?_
      rw [← addrOfBytes_addrBytes new, (Prod.mk.inj heq).2, addrOfBytes_addrBytes]

/-- The map has none: the object is moved, and its FDE goes on. -/
theorem fixupPointer_outcome (hrec : Generates process bins orig buckets I recur)
    (hget : mapGet vm.dataMoved (addrOfBytes bytes) = none)
    (h : fixupPointer process bins recur rule.index (addrOfBytes bytes) dest state vm = .ok patches vm') :
    RuleOutcome process bins orig buckets I rule state vm vm' patches := by
  obtain ⟨hmoved, hnomatch⟩ := movedFrom_of_mapGet hget
  unfold fixupPointer at h
  rcases newLocation_cases process bins rule.index (addrOfBytes bytes) vm with ⟨f, hrun⟩ | ⟨new, heap, log, -, hrun⟩
  · rw [run_bind_of_error hrun] at h
    cases h
  · have hnew := newLocation_relocates hrun
    rw [run_bind_of_ok hrun, run_bind_of_ok (get_run _)] at h
    obtain ⟨dataMoved, hinsert, h⟩ := lift_bind_ok.mp h
    rw [run_bind_of_ok (modify_run _ _)] at h
    obtain ⟨fde, hfde, h⟩ := lift_bind_ok.mp h
    obtain ⟨nested, vm1, hnested, h⟩ := run_bind_ok.mp h
    obtain ⟨rfl, rfl⟩ := pure_ok.mp h
    have hentered : (VM.moves { vm with target := { vm.target with heap }, dataMoved, log := .fixedUp (addrOfBytes bytes) :: log }) =
        vm.moves.enter (addrOfBytes bytes) new heap := by
      unfold VM.moves Moves.enter
      dsimp only
      rw [movedFrom_insert hinsert]
    obtain ⟨hcollects, hnext⟩ := hrec (by exact hvm) ((numBuckets_mapInsert hinsert).trans hbuckets) hnested
    rw [hentered] at hnext
    refine ⟨⟨hcollects.bytes, hcollects.buckets, fun hi => hcollects.apart (hI.move vm _ _ _ _ _ _ hi hrun hinsert)⟩, ?_⟩
    rw [List.map_cons, assignment_pointer]
    cases hnext with
    | assigned hassigns hunique hnot =>
      refine .assigned (.movePointer htype hdest hvalue hnonzero hmoved hnew hfde hassigns) ?_ ?_
      · intro m l hl
        rcases pointer_inv htype hdest hvalue hnonzero hl with
          ⟨new', hold, -⟩ | ⟨-, new', heap', fde', assigns, hnew', hfde', hassigns', rfl⟩
        · cases hmoved.symm.trans hold
        · obtain ⟨rfl, rfl⟩ := hnew.unique hnew'
          cases hfde.symm.trans hfde'
          obtain ⟨rfl, rfl⟩ := hunique m assigns hassigns'
          exact ⟨rfl, rfl⟩
      · intro hconfuses
        obtain ⟨-, ⟨other, place, hother, hmatch⟩ | ⟨new', heap', fde', hnew', hfde', hbehind⟩⟩ :=
          pointer_confuses_inv htype hvalue hconfuses
        · exact hnomatch other place hother (hbuckets ▸ hmatch)
        · obtain ⟨rfl, rfl⟩ := hnew.unique hnew'
          cases hfde.symm.trans hfde'
          exact hnot hbehind
    | confused hconfuses hparts =>
      refine .confused (.behind htype hvalue hnonzero hmoved hnew hfde hconfuses) ?_
      intro hi m l hl
      rcases pointer_inv htype hdest hvalue hnonzero hl with
        ⟨new', hold, -⟩ | ⟨-, new', heap', fde', assigns, hnew', hfde', hassigns', rfl⟩
      · cases hmoved.symm.trans hold
      · obtain ⟨rfl, rfl⟩ := hnew.unique hnew'
        cases hfde.symm.trans hfde'
        exact (hparts (hI.move vm _ _ _ _ _ _ hi hrun hinsert) m assigns hassigns').after [(dest, addrBytes new)]

end Pointer

/-- A fixup by value is what its FDE is. -/
theorem fixup_outcome (hrec : Generates process bins orig buckets I recur) (hvm : vm.target.bytes = orig)
    (hbuckets : vm.dataMoved.numBuckets = buckets) (htype : rule.type = .recurseFixup)
    (hdest : registerAddress bins state rule.regLH = some dest) {old : UInt64} {fde : FDE}
    (hold : registerAddress bins state rule.regRH = some old) (hfde : patchFDE bins rule.index = .ok fde)
    (h : recur fde { state with currAddrOld := old, currAddrNew := dest } vm = .ok patches vm') :
    RuleOutcome process bins orig buckets I rule state vm vm' patches := by
  obtain ⟨hcollects, hnext⟩ := hrec hvm hbuckets h
  have hinv : ∀ m l, RuleAssigns process bins orig rule state vm.moves m l →
      FdeAssigns process bins orig fde { state with currAddrOld := old, currAddrNew := dest } vm.moves m l := by
    intro m l hl
    cases hl with
    | fixup _ hdest' hold' hfde' hassigns =>
      cases hdest.symm.trans hdest'
      cases hold.symm.trans hold'
      cases hfde.symm.trans hfde'
      exact hassigns
    | undef htype' => simp [htype] at htype'
    | offset htype' => simp [htype] at htype'
    | register htype' => simp [htype] at htype'
    | nullPointer htype' => simp [htype] at htype'
    | movedPointer htype' => simp [htype] at htype'
    | movePointer htype' => simp [htype] at htype'
  refine ⟨hcollects, ?_⟩
  cases hnext with
  | assigned hassigns hunique hnot =>
    refine .assigned (.fixup htype hdest hold hfde hassigns) (fun m l hl => hunique m l (hinv m l hl)) ?_
    intro hconfuses
    cases hconfuses with
    | fixup _ hdest' hold' hfde' hconfuses =>
      cases hdest.symm.trans hdest'
      cases hold.symm.trans hold'
      cases hfde.symm.trans hfde'
      exact hnot hconfuses
    | pointer htype' => simp [htype] at htype'
    | behind htype' => simp [htype] at htype'
  | confused hconfuses hparts =>
    exact .confused (.fixup htype hdest hold hfde hconfuses) fun hi m l hl => hparts hi m l (hinv m l hl)

theorem makePatchData_outcome (hI : ToldApart process bins I) (hrec : Generates process bins orig buckets I recur)
    (hvm : vm.target.bytes = orig) (hbuckets : vm.dataMoved.numBuckets = buckets)
    (h : makePatchData process bins recur rule state vm = .ok patches vm') :
    RuleOutcome process bins orig buckets I rule state vm vm' patches := by
  unfold makePatchData at h
  rw [run_bind_of_ok (get_run vm)] at h
  obtain ⟨dest, hdest, h⟩ := lift_bind_ok.mp h
  have hdest := resolveToAddress_address (by decide) hdest
  cases htype : rule.type with
  | undef =>
    rw [htype] at h
    cases h
    refine .simple hvm hbuckets (.undef htype) ?_ (not_confuses (by simp [htype]) (by simp [htype]))
    intro m l hl
    cases hl <;> simp_all
  | offset =>
    rw [htype] at h
    obtain ⟨read, hread, h⟩ := lift_bind_ok.mp h
    obtain ⟨pd, hpd, h⟩ := lift_bind_ok.mp h
    cases h
    have hassignment : pd.assignment = (dest, offsetBytes orig state rule dest) := by
      rw [← hvm]
      exact offset_assignment rfl hread hpd
    refine .simple hvm hbuckets ?_ ?_ (not_confuses (by simp [htype]) (by simp [htype]))
    · rw [List.map_singleton, hassignment]
      exact .offset htype hdest
    · intro m l hl
      cases hl <;> simp_all
  | register =>
    rw [htype] at h
    obtain ⟨data, hdata, h⟩ := lift_bind_ok.mp h
    obtain ⟨pd, hpd, h⟩ := lift_bind_ok.mp h
    cases h
    obtain ⟨haddr, rfl⟩ := ofBytes_ok hpd
    have hassignment : pd.assignment = (dest, pd.data) := by
      rw [assignment_of_small (resolveRegister_length hdata), haddr]
    have hvalue : registerBytes bins orig state rule.regRH = some pd.data := hvm ▸ resolveRegister_value hdata
    refine .simple hvm hbuckets ?_ ?_ (not_confuses (by simp [htype]) (by simp [htype]))
    · rw [List.map_singleton, hassignment]
      exact .register htype hdest hvalue
    · intro m l hl
      cases hl <;> simp_all
  | cfa =>
    rw [htype] at h
    cases h
  | expr =>
    rw [htype] at h
    cases h
  | recurseFixup =>
    rw [htype] at h
    obtain ⟨old, hold, h⟩ := lift_bind_ok.mp h
    obtain ⟨fde, hfde, h⟩ := lift_bind_ok.mp h
    exact fixup_outcome hrec hvm hbuckets htype hdest (resolveToAddress_address (by decide) hold) hfde h
  | recurseFixupPointer =>
    rw [htype] at h
    obtain ⟨old, hold, h⟩ := lift_bind_ok.mp h
    obtain ⟨bytes, hvalue, rfl⟩ := resolveToAddress_value hold
    rw [hvm] at hvalue
    split at h
    · rename_i hnull
      cases h
      exact nullPointer_outcome htype hdest hvalue hvm hbuckets hnull
    · rename_i hnonzero
      cases hget : mapGet vm.dataMoved (addrOfBytes bytes) with
      | some new =>
        rw [hget] at h
        cases h
        exact foundPointer_outcome htype hdest hvalue hvm hbuckets hI hnonzero hget
      | none =>
        rw [hget] at h
        exact fixupPointer_outcome htype hdest hvalue hvm hbuckets hI hnonzero hrec hget h
  | undefined =>
    rw [htype] at h
    cases h

/-- The rules that are left, behind what has been collected. -/
theorem patchLoop_outcome (hI : ToldApart process bins I) (hrec : Generates process bins orig buckets I recur)
    {rules : List PoRegRule} {done : List PatchData} (hvm : vm.target.bytes = orig)
    (hbuckets : vm.dataMoved.numBuckets = buckets)
    (h : patchLoop process bins recur state rules (done, lastNode done) vm = .ok patches vm') :
    ∃ later, patches = done ++ later ∧ Collects orig buckets I vm vm' ∧
      Outcome (RulesAssign process bins orig rules state vm.moves) (RulesConfuse process bins orig buckets rules state vm.moves)
        (I vm) vm'.moves (later.map PatchData.assignment) := by
  induction rules generalizing done vm with
  | nil =>
    cases h
    refine ⟨[], (List.append_nil _).symm, ⟨hvm, hbuckets, id⟩, .assigned .nil ?_ (fun h => by cases h)⟩
    intro m l hl
    cases hl
    exact ⟨rfl, rfl⟩
  | cons rule rules ih =>
    obtain ⟨patchList, vm1, hrule, h⟩ := run_bind_ok.mp h
    obtain ⟨hcollects, hfirst⟩ := makePatchData_outcome hI hrec hvm hbuckets hrule
    obtain ⟨acc, hconcat, h⟩ := lift_bind_ok.mp h
    rw [concatLists_append] at hconcat
    cases hconcat
    obtain ⟨later, rfl, hcollects', hrest⟩ := ih hcollects.bytes hcollects.buckets h
    refine ⟨patchList ++ later, List.append_assoc _ _ _,
      ⟨hcollects'.bytes, hcollects'.buckets, fun hi => hcollects'.apart (hcollects.apart hi)⟩, ?_⟩
    rw [List.map_append]
    cases hfirst with
    | confused hconfuses hparts =>
      refine .confused (.here hconfuses) ?_
      intro hi m l hl
      cases hl with
      | cons hrule' hrules' => exact (hparts hi _ _ hrule').append _ _
    | assigned hassigns hunique hnot =>
      cases hrest with
      | assigned hassigns' hunique' hnot' =>
        refine .assigned (.cons hassigns hassigns') ?_ ?_
        · intro m l hl
          cases hl with
          | cons hrule' hrules' =>
            obtain ⟨rfl, rfl⟩ := hunique _ _ hrule'
            obtain ⟨rfl, rfl⟩ := hunique' _ _ hrules'
            exact ⟨rfl, rfl⟩
        · intro hconfuses
          cases hconfuses with
          | here hhere => exact hnot hhere
          | later hrule' hlater =>
            obtain ⟨rfl, rfl⟩ := hunique _ _ hrule'
            exact hnot' hlater
      | confused hconfuses' hparts' =>
        refine .confused (.later hassigns hconfuses') ?_
        intro hi m l hl
        cases hl with
        | cons hrule' hrules' =>
          obtain ⟨rfl, rfl⟩ := hunique _ _ hrule'
          exact (hparts' (hcollects.apart hi) _ _ hrules').after _

/-- **The generated patches are the assignments of the FDE in the original memory**, each once and in order, unless an
object is taken for another one. -/
theorem generate_outcome (hI : ToldApart process bins I) (fuel : Nat) :
    Generates process bins orig buckets I (generatePatchesFromFDEAndState process bins fuel) := by
  induction fuel with
  | zero =>
    intro fde state vm vm' patches _ _ h
    cases h
  | succ fuel ih =>
    intro fde state vm vm' patches hvm hbuckets h
    unfold generatePatchesFromFDEAndState at h
    rw [run_bind_of_ok (get_run vm)] at h
    obtain ⟨st, hst, h⟩ := lift_bind_ok.mp h
    rw [run_bind_of_ok (modify_run _ _)] at h
    obtain ⟨cfaValue, hcfa, h⟩ := lift_bind_ok.mp h
    have hcfa := cfaValueOf_ok hcfa
    obtain ⟨later, rfl, hcollects, hrules⟩ := patchLoop_outcome hI ih (by exact hvm) (by exact hbuckets) h
    refine ⟨⟨hcollects.bytes, hcollects.buckets, fun hi => hcollects.apart (hI.stack vm st.stateStack hi)⟩, ?_⟩
    have hinv : ∀ m l, FdeAssigns process bins orig fde state vm.moves m l →
        RulesAssign process bins orig (dictValues st.rules) { state with cfaValue }
          { vm.moves with stateStack := st.stateStack } m l := by
      intro m l hl
      cases hl with
      | rules hst' hcfa' hrules' =>
        cases hst.symm.trans hst'
        rw [hcfa.unique hcfa']
        exact hrules'
    cases hrules with
    | assigned hassigns hunique hnot =>
      refine .assigned (.rules hst hcfa hassigns) (fun m l hl => hunique m l (hinv m l hl)) ?_
      intro hconfuses
      cases hconfuses with
      | rules hst' hcfa' hconfuses =>
        cases hst.symm.trans hst'
        rw [← hcfa.unique hcfa'] at hconfuses
        exact hnot hconfuses
    | confused hconfuses hparts =>
      exact .confused (.rules hst hcfa hconfuses) fun hi m l hl => hparts (hI.stack vm st.stateStack hi) m l (hinv m l hl)

/-! ## Where objects lie apart -/

/-- A variable of fewer than 2^32 bytes has no two addresses with the same low four bytes. -/
theorem same_of_variable {p q : UInt64} (hsmall : ∀ sym ∈ bins.oldSymtab, sym.stSize.toNat ≤ 2 ^ 32)
    (hp : findSymbolContainingAddress bins p ≠ 0)
    (hpq : findSymbolContainingAddress bins p = findSymbolContainingAddress bins q) (hlow : p.toUInt32 = q.toUInt32) : p = q := by
  have hfound : ∀ {r s}, findSymbolContainingAddress bins r = s + 1 → ∃ sym, (bins.oldSymtab.drop 1)[s]? = some sym ∧
      containsAddress r sym = true := by
    intro r s hr
    unfold findSymbolContainingAddress symbolContaining at hr
    split at hr
    · rename_i i hi
      obtain ⟨hlt, hcontains, -⟩ := List.findIdx?_eq_some_iff_getElem.mp hi
      cases hr
      exact ⟨_, List.getElem?_eq_getElem hlt, hcontains⟩
    · cases hr
  obtain ⟨s, hs⟩ := Nat.exists_eq_succ_of_ne_zero hp
  obtain ⟨sym, hsym, hcontains⟩ := hfound hs
  obtain ⟨sym', hsym', hcontains'⟩ := hfound (hpq.symm.trans hs)
  cases hsym.symm.trans hsym'
  have hsize := hsmall sym (List.mem_of_mem_drop (List.mem_of_getElem? hsym))
  have hbounds : ∀ {r : UInt64}, containsAddress r sym = true → sym.stValue.toNat ≤ r.toNat ∧
      (r.toNat < sym.stValue.toNat + 2 ^ 32) := by
    intro r hr
    have hr := (Bool.and_eq_true_iff.mp hr).2
    simp only [Bool.or_eq_true, beq_iff_eq, Bool.and_eq_true, decide_eq_true_eq, UInt64.le_iff_toNat_le, gt_iff_lt,
      UInt64.lt_iff_toNat_lt, UInt64.toNat_add] at hr
    have hlt := sym.stSize.toNat_lt
    have hvalue := sym.stValue.toNat_lt
    rcases hr with hr | ⟨hle, hless⟩
    · rw [hr]
      omega
    · omega
  have hp := hbounds hcontains
  have hq := hbounds hcontains'
  have hmod : p.toNat % 2 ^ 32 = q.toNat % 2 ^ 32 := by
    have hlow := congrArg UInt32.toNat hlow
    simpa using hlow
  exact UInt64.toNat_inj.mp (by omega)

variable {inUse : H → UInt64 → Prop}

theorem toldApart_liesApart {heap : H} (hsep : Separate process bins inUse heap)
    (hsmall : ∀ sym ∈ bins.oldSymtab, sym.stSize.toNat ≤ 2 ^ 32) : ToldApart process bins (LiesApart bins inUse) where
  stack := fun _ _ h => ⟨h.used, h.reserved, h.moved, h.allocated, h.apart⟩
  move := by
    intro vm vm1 index old new dataMoved log hplaced hnew hinsert
    have hmap : vm1.dataMoved = vm.dataMoved := by
      rcases newLocation_ok hnew with ⟨-, -, hvm1⟩ | ⟨-, len, heap, -, -, hmap, -⟩
      · rw [hvm1]
      · exact hmap
    rw [hmap] at hinsert
    have hnodes : ∀ n, n ∈ dataMoved.table.nodes ↔ n = (old, new) ∨ n ∈ vm.dataMoved.table.nodes := fun n =>
      mem_mapInsert hinsert
    rcases newLocation_ok hnew with ⟨hsym, hmoved, hvm1⟩ | ⟨hsym, len, heap, hmalloc, hzero, -, hheap⟩
    · exact hplaced.variable hsep.apart hsym hmoved (by rw [hvm1]) hnodes
    · obtain ⟨hfresh, hused, hkept⟩ := hsep.fresh _ _ _ _ hmalloc hzero
      exact hplaced.malloc hsym hfresh (hheap ▸ hused) (fun x hx => hheap ▸ hkept x hx) hnodes
  apart := by
    intro vm index old new heap other place hplaced hnew hold hother hmatch heq
    have hmem := movedFrom_eq_some.mp hother
    cases hnew with
    | patched hsym hmoved =>
      by_cases hzero : findSymbolContainingAddress bins other = 0
      · exact hplaced.allocated _ hmem hzero old (heq ▸ hmoved)
      · have hsame := hsep.apart other old place (hplaced.moved _ hmem hzero) (heq ▸ hmoved)
        have hequal := same_of_variable hsmall hsym hsame.symm (sizeTSame_iff.mp hmatch.2)
        rw [hequal, hother] at hold
        cases hold
    | allocated _ _ hmalloc hzero =>
      obtain ⟨hfresh, -, -⟩ := hsep.fresh _ _ _ _ hmalloc hzero
      exact hfresh (heq ▸ hplaced.used _ hmem)

theorem toldApart_never : ToldApart process bins fun _ => False :=
  ⟨fun _ _ h => h, fun _ _ _ _ _ _ _ h _ _ => h, fun _ _ _ _ _ _ _ h _ _ _ _ => h.elim⟩

/-- **A fixup is a parallel assignment, unless an object is taken for another one**: while the patches are collected nothing is
written, and the memory afterwards is the original one with the patches written; they are the assignments of the FDE with every
right-hand side taken from the original memory, exactly when no object that has not been moved has the key of one that has
(only so where objects lie apart and variables have at most 2^32 bytes). It ends when no FDE can come to nest itself. -/
theorem patchDataWithFDE_parallel (process : Process H) (bins : Binaries) (oldLocation newLocation : UInt64)
    (fde : FDE) (vm : VM H) :
    (∀ fuel, (after (generatePatchesFromFDEAndState process bins fuel fde ⟨oldLocation, newLocation, 0⟩) vm).target.bytes =
      vm.target.bytes) ∧
    (∀ fuel vm', patchDataWithFDE process bins fuel oldLocation newLocation fde vm = .ok ⟨⟩ vm' →
      ∃ patches vm1, generatePatchesFromFDEAndState process bins fuel fde ⟨oldLocation, newLocation, 0⟩ vm =
        .ok patches vm1 ∧
        vm' = { vm1 with target := { vm1.target with
          bytes := vm.target.bytes.writeAll (patches.map PatchData.assignment) } } ∧
        (¬ FdeConfuses process bins vm.target.bytes vm.dataMoved.numBuckets fde ⟨oldLocation, newLocation, 0⟩ vm.moves →
          FdeAssigns process bins vm.target.bytes fde ⟨oldLocation, newLocation, 0⟩ vm.moves vm1.moves
            (patches.map PatchData.assignment)) ∧
        ∀ inUse, Separate process bins inUse vm.target.heap → LiesApart bins inUse vm →
          (∀ sym ∈ bins.oldSymtab, sym.stSize.toNat ≤ 2 ^ 32) → ∀ m,
          FdeAssigns process bins vm.target.bytes fde ⟨oldLocation, newLocation, 0⟩ vm.moves m
            (patches.map PatchData.assignment) →
          ¬ FdeConfuses process bins vm.target.bytes vm.dataMoved.numBuckets fde ⟨oldLocation, newLocation, 0⟩ vm.moves) ∧
    (MayNestAcyclic bins fde vm.stateStack →
      ∃ fuel, ∀ more, fuel ≤ more → Ends .outOfFuel
        (patchDataWithFDE process bins more oldLocation newLocation fde) vm) := by
  refine ⟨fun fuel => (bytes_step fde vm.target.bytes).generate fuel fde _ (.inl rfl) vm rfl, ?_, ?_⟩
  · intro fuel vm' h
    obtain ⟨patches, vm1, hgen, h⟩ := run_bind_ok.mp h
    obtain ⟨hcollects, houtcome⟩ := generate_outcome toldApart_never fuel rfl rfl hgen
    refine ⟨patches, vm1, hgen, by rw [applyPatches_ok h, hcollects.bytes], ?_, ?_⟩
    · intro hnot
      cases houtcome with
      | assigned hassigns _ _ => exact hassigns
      | confused hconfuses _ => exact absurd hconfuses hnot
    · intro inUse hsep hplaced hsmall m hassigns
      obtain ⟨-, houtcome⟩ := generate_outcome (toldApart_liesApart hsep hsmall) fuel rfl rfl hgen
      cases houtcome with
      | assigned _ _ hnot => exact hnot
      | confused _ hparts => exact absurd rfl (hparts hplaced m _ hassigns).ne
  · intro hacyclic
    obtain ⟨fuel, hends⟩ := generate_ends process hacyclic (unvisited vm + 1) (.inl rfl) ⟨oldLocation, newLocation, 0⟩
      ⟨stackFrom_start, Nat.lt_succ_self _⟩
    exact ⟨fuel, fun more hle => ends_bind (hends.mono (generate_mono hle _ _)) fun patches vm1 _ =>
      applyPatches_ends patches vm1⟩

end

/-! ## A list of two nodes -/

theorem nodeRules : (rulesOf nodeBinaries nodeFDE []).map
    (fun st => (st.stateStack.length, dictValues st.rules)) = .ok (0, [pointerRule 8]) := by
  decide +kernel

/-- Each node is fixed up by its second word. -/
theorem node_confuses_inv {orig : Memory} {addrOld addrNew cfa : UInt64} {m : Moves UInt64} (hstack : m.stateStack = [])
    (h : FdeConfuses bumpProcess nodeBinaries orig 100 nodeFDE ⟨addrOld, addrNew, cfa⟩ m) (old : UInt64)
    (hold : addrOfBytes (orig.read (addrOld + 8) 8) = old) : m.moved old = none ∧
    ((∃ other new, m.moved other = some new ∧ Matches (sizeTKeying 100) old other) ∨
      ∃ new heap cfaValue, FdeConfuses bumpProcess nodeBinaries orig 100 nodeFDE ⟨old, new, cfaValue⟩ (m.enter old new heap)) := by
  cases h with
  | @rules _ _ _ st cfaValue hst _ hrules =>
    have hnode := nodeRules
    rw [hstack] at hst
    rw [hst] at hnode
    simp only [Except.map, Except.ok.injEq, Prod.mk.injEq, List.length_eq_zero_iff] at hnode
    obtain ⟨hleft, hvalues⟩ := hnode
    rw [hvalues, hleft, ← hstack] at hrules
    have hvalue : registerBytes nodeBinaries orig ⟨addrOld, addrNew, cfaValue⟩ (pointerRule 8).regRH =
        some (orig.read (addrOld + 8) 8) := rfl
    cases hrules with
    | later _ hrest => cases hrest
    | here hrule =>
      have hinv := pointer_confuses_inv rfl hvalue hrule
      rw [hold] at hinv
      obtain ⟨hnone, hmatch | ⟨new, heap, fde, -, hfde, hbehind⟩⟩ := hinv
      · exact ⟨hnone, .inl hmatch⟩
      · cases hfde
        exact ⟨hnone, .inr ⟨new, heap, cfaValue, hbehind⟩⟩

/-- No node is taken for the other one. -/
theorem cyclicList_told : ¬ FdeConfuses bumpProcess nodeBinaries cyclicList.target.bytes cyclicList.dataMoved.numBuckets nodeFDE
    ⟨0x1000, 0x3000, 0⟩ cyclicList.moves := by
  intro h
  obtain ⟨-, ⟨other, new, hother, -⟩ | ⟨new, heap, cfaValue, h⟩⟩ :=
    node_confuses_inv rfl h 0x2000 (by decide +kernel)
  · cases hother
  · obtain ⟨-, ⟨other, new', hother, hmatch⟩ | ⟨new', heap', cfaValue', h⟩⟩ :=
      node_confuses_inv rfl h 0x1000 (by decide +kernel)
    · by_cases hfirst : other = 0x2000
      · rw [hfirst] at hmatch
        exact absurd hmatch.2 (by decide)
      · have hother : Function.update cyclicList.moves.moved 0x2000 (some new) other = some new' := hother
        rw [Function.update_of_ne hfirst] at hother
        cases hother
    · obtain ⟨hnone, -⟩ := node_confuses_inv rfl h 0x2000 (by decide +kernel)
      have hnone : Function.update (Function.update cyclicList.moves.moved 0x2000 (some new)) 0x1000 (some new') 0x2000 = none :=
        hnone
      rw [Function.update_of_ne (by decide), Function.update_self] at hnone
      cases hnone

theorem cyclicList_parallel :
    ∃ vm', patchDataWithFDE bumpProcess nodeBinaries 3 0x1000 0x3000 nodeFDE cyclicList = .ok ⟨⟩ vm' ∧
      ∃ patches vm1, generatePatchesFromFDEAndState bumpProcess nodeBinaries 3 nodeFDE
        ⟨0x1000, 0x3000, 0⟩ cyclicList = .ok patches vm1 ∧
        vm' = { vm1 with target := { vm1.target with
          bytes := cyclicList.target.bytes.writeAll (patches.map PatchData.assignment) } } ∧
        FdeAssigns bumpProcess nodeBinaries cyclicList.target.bytes nodeFDE ⟨0x1000, 0x3000, 0⟩ cyclicList.moves vm1.moves
          (patches.map PatchData.assignment) := by
  have hprocessed : Processed (patchDataWithFDE bumpProcess nodeBinaries 3 0x1000 0x3000 nodeFDE) cyclicList = true := by
    decide +kernel
  obtain ⟨_, vm', hrun⟩ := processed_ok hprocessed
  obtain ⟨patches, vm1, hgen, hvm', hassigns, -⟩ :=
    (patchDataWithFDE_parallel bumpProcess nodeBinaries 0x1000 0x3000 nodeFDE cyclicList).2.1 3 vm' hrun
  exact ⟨vm', hrun, patches, vm1, hgen, hvm', hassigns cyclicList_told⟩

/-! ## Two objects with one key -/

def twoPointersFDE : FDE :=
  { nodeFDE with
    instructions := [
      { RegInstruction.blank .katanaFixupsPointer with
        arg1Reg := ⟨.currTargNew, 8, 0⟩, arg2Reg := ⟨.currTargOld, 8, 0⟩, arg3 := 2 },
      { RegInstruction.blank .katanaFixupsPointer with
        arg1Reg := ⟨.currTargNew, 8, 8⟩, arg2Reg := ⟨.currTargOld, 8, 8⟩, arg3 := 2 }] }

def copiedFDE : FDE :=
  { nodeFDE with
    instructions := [{ RegInstruction.blank .register with
      arg1Reg := ⟨.currTargNew, 8, 0⟩, arg2Reg := ⟨.currTargOld, 8, 0⟩ }] }

def twoPointersBinaries : Binaries :=
  { nodeBinaries with
    callFrameInfo := ⟨[twoPointersFDE, copiedFDE], [exampleCIE], false, 0, 0, 0, 0, none⟩, memSize := [16, 8] }

def twoPointersVM : VM Nat where
  stateStack := []
  dataMoved := sizeTMapCreate 100
  target := ⟨fun addr => if addr = 0x1001 ∨ addr = 0x1009 then 0x20 else if addr = 0x100c then 0x28 else 0, 0x10000, 1, 1⟩
  log := []

def copiedPointer (offset : Int32) : PoRegRule :=
  ⟨⟨.currTargNew, 8, offset⟩, .recurseFixupPointer, ⟨.currTargOld, 8, offset⟩, 0, 2⟩

def copiedWord : PoRegRule := ⟨⟨.currTargNew, 8, 0⟩, .register, ⟨.currTargOld, 8, 0⟩, 0, 0⟩

theorem twoPointers_rules : (rulesOf twoPointersBinaries twoPointersFDE []).map
    (fun st => (st.stateStack.length, dictValues st.rules, dictGet st.rules "\x7bCFA\x7d")) =
      .ok (0, [copiedPointer 0, copiedPointer 8], none) := by
  decide +kernel

theorem copied_rules : (rulesOf twoPointersBinaries copiedFDE []).map
    (fun st => (st.stateStack.length, dictValues st.rules, dictGet st.rules "\x7bCFA\x7d")) =
      .ok (0, [copiedWord], none) := by
  decide +kernel

theorem rules_of_map {bins : Binaries} {fde : FDE} {values : List PoRegRule}
    (h : (rulesOf bins fde []).map (fun st => (st.stateStack.length, dictValues st.rules, dictGet st.rules "\x7bCFA\x7d")) =
      .ok (0, values, none)) :
    ∃ st, rulesOf bins fde [] = .ok st ∧ st.stateStack = [] ∧ dictValues st.rules = values ∧
      ∀ state, CfaIs bins state st.rules 0 := by
  cases hst : rulesOf bins fde [] with
  | error f =>
    rw [hst] at h
    cases h
  | ok st =>
    rw [hst] at h
    simp only [Except.map, Except.ok.injEq, Prod.mk.injEq, List.length_eq_zero_iff] at h
    obtain ⟨hstack, hvalues, hcfa⟩ := h
    refine ⟨st, rfl, hstack, hvalues, fun state => ?_⟩
    unfold CfaIs
    rw [hcfa]

/-- The second object is taken for the first one. -/
theorem twoPointers_confuse : FdeConfuses growingProcess twoPointersBinaries twoPointersVM.target.bytes 100 twoPointersFDE
    ⟨0x1000, 0x4000, 0⟩ twoPointersVM.moves := by
  obtain ⟨st, hst, hstack, hvalues, hcfa⟩ := rules_of_map twoPointers_rules
  obtain ⟨st', hst', hstack', hvalues', hcfa'⟩ := rules_of_map copied_rules
  refine .rules hst (hcfa _) ?_
  rw [hvalues, hstack]
  have hfirst : FdeAssigns growingProcess twoPointersBinaries twoPointersVM.target.bytes copiedFDE ⟨0x2000, 0x10000, 0⟩
      (twoPointersVM.moves.enter 0x2000 0x10000 0x10018) _ _ :=
    .rules hst' (hcfa' _) (by rw [hvalues', hstack']; exact .cons (.register rfl rfl rfl) .nil)
  have hrelocates : Relocates growingProcess twoPointersBinaries 2 0x2000 twoPointersVM.moves.heap 0x10000 0x10018 :=
    .allocated (by decide) rfl rfl (by decide)
  refine .later (.movePointer rfl rfl rfl (by decide) rfl hrelocates rfl hfirst) (.here ?_)
  have hmoved : (twoPointersVM.moves.enter 0x2000 0x10000 0x10018).moved 0x2000 = some 0x10000 := rfl
  exact .pointer rfl rfl (by decide) rfl hmoved (by decide +kernel)

/-- What is behind the second pointer is not copied. -/
theorem not_parallel : ¬ ∀ (process : Process Nat) (bins : Binaries) (inUse : Nat → UInt64 → Prop) (vm vm' : VM Nat) (fde : FDE)
    (fuel : Nat) (oldLocation newLocation : UInt64), Separate process bins inUse vm.target.heap → LiesApart bins inUse vm →
    patchDataWithFDE process bins fuel oldLocation newLocation fde vm = .ok ⟨⟩ vm' →
    ∃ patches vm1 m, generatePatchesFromFDEAndState process bins fuel fde ⟨oldLocation, newLocation, 0⟩ vm =
        .ok patches vm1 ∧
      FdeAssigns process bins vm.target.bytes fde ⟨oldLocation, newLocation, 0⟩ vm.moves m
        (patches.map PatchData.assignment) := by
  intro h
  have hprocessed : Processed (patchDataWithFDE growingProcess twoPointersBinaries 3 0x1000 0x4000 twoPointersFDE)
      twoPointersVM = true := by
    decide +kernel
  obtain ⟨_, vm', hrun⟩ := processed_ok hprocessed
  have hsep : Separate growingProcess twoPointersBinaries (fun heap addr => addr.toNat < heap) twoPointersVM.target.heap := by
    refine ⟨growing_fresh, ?_, ?_⟩
    · intro p addr hmoved
      cases hmoved
    · intro p q addr hmoved
      cases hmoved
  have hplaced : LiesApart twoPointersBinaries (fun heap addr => addr.toNat < heap) twoPointersVM := by
    have hempty : ∀ n, n ∉ twoPointersVM.dataMoved.table.nodes := fun n hn => List.not_mem_nil hn
    exact ⟨fun n hn => absurd hn (hempty n), hsep.reserved, fun n hn => absurd hn (hempty n),
      fun n hn => absurd hn (hempty n), fun n hn => absurd hn (hempty n)⟩
  obtain ⟨patches, vm1, m, hgen, hassigns⟩ := h growingProcess twoPointersBinaries _ twoPointersVM vm' twoPointersFDE 3 0x1000
    0x4000 hsep hplaced hrun
  have hsmall : ∀ sym ∈ twoPointersBinaries.oldSymtab, sym.stSize.toNat ≤ 2 ^ 32 := fun sym hsym => by cases hsym
  obtain ⟨-, houtcome⟩ := generate_outcome (toldApart_liesApart hsep hsmall) 3 rfl rfl hgen
  cases houtcome with
  | assigned _ _ hnot => exact hnot twoPointers_confuse
  | confused _ hparts => exact (hparts hplaced m _ hassigns).ne rfl

end Katana

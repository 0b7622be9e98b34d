/-
  Katana.Aliasing — pointers that shared an object, and pointers that did not (dwarfvm.c, util/map.c).

  A run takes one pointer-valued field after the other through `makePatchData`, over one `dataMoved`; what the
  recursion comes to behind a pointer are the next fields. `malloc` is taken to give out memory that is in no
  use, and the new variables to lie apart.

  Proved, for every run:
  - `PointerRun.accounted`: every pointer is where the map says it is, and the map's objects lie apart but for
    those of one variable.
  - `keepsAliasing_iff`: old pointers are equal exactly when the new ones are, if and only if no two different
    ones have one key for the map or lie in one variable.
  - `generate_pointerRun`: what an FDE generates is such a run.
-/
import Katana.Assignment

namespace Katana

open Lib Lib.Run

structure Fixup where
  addrOld : UInt64
  addrNew : UInt64
  deriving DecidableEq, Repr

variable {H : Type} (process : Process H) (bins : Binaries)

/-- The objects behind a pointer are left to the next fields. -/
def nextFields : FDE → SpecialRegsState → VMM H (List PatchData) := fun _ _ => pure []

/-- The pointers that are fixed up one after the other, NULL apart, and what they become. Between two of them
anything may happen but to the moved objects and the heap. -/
inductive PointerRun (start : VM H) : List Fixup → VM H → Prop
  | start : PointerRun start [] start
  | between {fixups : List Fixup} {vm vm' : VM H} : PointerRun start fixups vm → vm'.dataMoved = vm.dataMoved →
    vm'.target.heap = vm.target.heap → PointerRun start fixups vm'
  | field {fixups : List Fixup} {vm vm' : VM H} {rule : PoRegRule} {state : SpecialRegsState}
      {addrOld addrNew resultAddr : UInt64} :
    PointerRun start fixups vm → rule.type = .recurseFixupPointer →
    resolveToAddress process bins vm.target rule.regRH state .dereference .assertion = .ok addrOld → addrOld ≠ 0 →
    makePatchData process bins nextFields rule state vm = .ok [.pointer resultAddr addrNew] vm' →
    PointerRun start (fixups ++ [⟨addrOld, addrNew⟩]) vm'

/-- Sharing is kept, and what was apart stays apart. -/
def KeepsAliasing (fixups : List Fixup) : Prop :=
  ∀ f ∈ fixups, ∀ g ∈ fixups, f.addrNew = g.addrNew ↔ f.addrOld = g.addrOld

/-- What the map and the symbol table take for one object. -/
def SameObject (p q : UInt64) : Prop :=
  Matches (sizeTKeying 100) p q ∨
    findSymbolContainingAddress bins p ≠ 0 ∧ findSymbolContainingAddress bins p = findSymbolContainingAddress bins q

/-- `malloc` gives out memory that is in no use, as that of the new variables is; these lie apart. -/
structure Separate (inUse : H → UInt64 → Prop) (heap : H) : Prop where
  fresh : ∀ heap len addr heap', process.malloc heap len = (addr, heap') → addr ≠ 0 →
    ¬ inUse heap addr ∧ inUse heap' addr ∧ ∀ x, inUse heap x → inUse heap' x
  reserved : ∀ p addr, movedSymbol bins (findSymbolContainingAddress bins p) = .ok addr → inUse heap addr
  apart : ∀ p q addr, movedSymbol bins (findSymbolContainingAddress bins p) = .ok addr →
    movedSymbol bins (findSymbolContainingAddress bins q) = .ok addr →
    findSymbolContainingAddress bins p = findSymbolContainingAddress bins q

/-! ## One field -/

section
variable {process : Process H} {bins : Binaries}

theorem mallocTarget_answer {t t' : Target H} {len addr : UInt64} (h : mallocTarget process t len = .ok (addr, t')) :
    ∃ heap, process.malloc t.heap len = (addr, heap) ∧ addr ≠ 0 ∧ t' = { t with heap } := by
  unfold mallocTarget at h
  split at h
  · cases h
  · split at h
    · cases h
    · dsimp only at h
      split at h
      · cases h
      · rename_i hzero
        cases h
        exact ⟨_, rfl, hzero, rfl⟩

/-- An object is moved to where the patch has its variable, or to memory from `malloc`. -/
theorem newLocation_ok {index addrOld addrNew : UInt64} {vm vm' : VM H}
    (h : newLocation process bins index addrOld vm = .ok addrNew vm') :
    (findSymbolContainingAddress bins addrOld ≠ 0 ∧
    movedSymbol bins (findSymbolContainingAddress bins addrOld) = .ok addrNew ∧
      vm' = vm) ∨
    (findSymbolContainingAddress bins addrOld = 0 ∧ ∃ len heap,
    process.malloc vm.target.heap len = (addrNew, heap) ∧ addrNew ≠ 0 ∧
      vm'.dataMoved = vm.dataMoved ∧ vm'.target.heap = heap) := by
  unfold newLocation at h
  split at h
  · rename_i hsym
    obtain ⟨hmoved, hvm⟩ := lift_ok.mp h
    exact .inl ⟨hsym, hmoved, hvm⟩
  · rename_i hsym
    obtain ⟨size, -, h⟩ := lift_bind_ok.mp h
    rw [run_bind_of_ok (get_run vm)] at h
    obtain ⟨answer, hanswer, h⟩ := lift_bind_ok.mp h
    rw [run_bind_of_ok (modify_run _ _)] at h
    obtain ⟨hnew, hvm⟩ := pure_ok.mp h
    obtain ⟨heap, hmalloc, hzero, htarget⟩ := mallocTarget_answer hanswer
    rw [hnew, hvm]
    refine .inr ⟨not_not.mp hsym, size, heap, hmalloc, hzero, rfl, ?_⟩
    show answer.2.heap = heap
    rw [htarget]

/-- A pointer that is not NULL: the map has its object, or the object is moved and entered. -/
theorem makePatchData_pointer {recur : FDE → SpecialRegsState → VMM H (List PatchData)} {rule : PoRegRule}
    {state : SpecialRegsState} {addrOld : UInt64} {patches : List PatchData} {vm vm' : VM H}
    (htype : rule.type = .recurseFixupPointer)
    (hold : resolveToAddress process bins vm.target rule.regRH state .dereference .assertion = .ok addrOld)
    (hnull : addrOld ≠ 0)
    (h : makePatchData process bins recur rule state vm = .ok patches vm') :
    ∃ resultAddr addrNew vm1,
      makePatchData process bins nextFields rule state vm = .ok [.pointer resultAddr addrNew] vm1 ∧
      ((patches = [.pointer resultAddr addrNew] ∧ vm' = vm1 ∧ vm1 = vm ∧ mapGet vm.dataMoved addrOld = some addrNew) ∨
        mapGet vm.dataMoved addrOld = none ∧
        (∃ vm2, newLocation process bins rule.index addrOld vm = .ok addrNew vm2 ∧
          mapInsert vm2.dataMoved addrOld addrNew = .ok vm1.dataMoved ∧ vm1.target = vm2.target) ∧
        ∃ fde state' nested, recur fde state' vm1 = .ok nested vm' ∧ patches = .pointer resultAddr addrNew :: nested) := by
  unfold makePatchData at h ⊢
  rw [run_bind_of_ok (get_run vm)] at h ⊢
  obtain ⟨resultAddr, hresult, h⟩ := lift_bind_ok.mp h
  rw [htype] at h
  obtain ⟨addrOld', hold', h⟩ := lift_bind_ok.mp h
  rw [hold] at hold'
  cases hold'
  rw [if_neg hnull] at h
  rw [run_bind_of_ok (lift_of_ok hresult), htype]
  dsimp only
  rw [run_bind_of_ok (lift_of_ok hold), if_neg hnull]
  cases hget : mapGet vm.dataMoved addrOld with
  | some existingDataMove =>
    rw [hget] at h
    obtain ⟨hpatches, hvm⟩ := pure_ok.mp h
    exact ⟨resultAddr, existingDataMove, vm, rfl, .inl ⟨hpatches, hvm, rfl, rfl⟩⟩
  | none =>
    rw [hget] at h
    dsimp only at h ⊢
    unfold fixupPointer at h ⊢
    obtain ⟨addrNew, vm2, hnew, h⟩ := run_bind_ok.mp h
    rw [run_bind_of_ok hnew, run_bind_of_ok (get_run _)]
    rw [run_bind_of_ok (get_run _)] at h
    obtain ⟨dataMoved, hinsert, h⟩ := lift_bind_ok.mp h
    rw [run_bind_of_ok (lift_of_ok hinsert), run_bind_of_ok (modify_run _ _)]
    rw [run_bind_of_ok (modify_run _ _)] at h
    obtain ⟨fde, hfde, h⟩ := lift_bind_ok.mp h
    obtain ⟨nested, vm3, hrec, h⟩ := run_bind_ok.mp h
    obtain ⟨hpatches, hvm⟩ := pure_ok.mp h
    rw [run_bind_of_ok (lift_of_ok hfde)]
    rw [← hvm] at hrec
    exact ⟨resultAddr, addrNew, _, rfl, .inr ⟨rfl, ⟨vm2, hnew, hinsert, rfl⟩, fde, _, nested, hrec, hpatches⟩⟩

theorem nextFields_ok {fde : FDE} {state : SpecialRegsState} {nested : List PatchData} {vm vm' : VM H}
    (h : (nextFields : FDE → SpecialRegsState → VMM H (List PatchData)) fde state vm = .ok nested vm') :
    nested = [] ∧ vm' = vm :=
  pure_ok.mp h

/-! ## The run -/

theorem mem_mapInsert {map map' : SizeTMap UInt64} {key value : UInt64} (h : mapInsert map key value = .ok map')
    {n : UInt64 × UInt64} : n ∈ map'.table.nodes ↔ n = (key, value) ∨ n ∈ map.table.nodes := by
  unfold mapInsert at h
  split at h
  · rename_i hnone
    cases h
    exact Table.mem_insert hnone
  · cases h

variable (bins) in
/-- Where the objects of the map are: in the memory that is in use, each variable where the patch has it and the
others nowhere near. -/
structure LiesApart (inUse : H → UInt64 → Prop) (vm : VM H) : Prop where
  used : ∀ n ∈ vm.dataMoved.table.nodes, inUse vm.target.heap n.2
  reserved : ∀ p addr, movedSymbol bins (findSymbolContainingAddress bins p) = .ok addr → inUse vm.target.heap addr
  moved : ∀ n ∈ vm.dataMoved.table.nodes, findSymbolContainingAddress bins n.1 ≠ 0 →
    movedSymbol bins (findSymbolContainingAddress bins n.1) = .ok n.2
  allocated : ∀ n ∈ vm.dataMoved.table.nodes, findSymbolContainingAddress bins n.1 = 0 →
    ∀ p, movedSymbol bins (findSymbolContainingAddress bins p) ≠ .ok n.2
  apart : ∀ n ∈ vm.dataMoved.table.nodes, ∀ n' ∈ vm.dataMoved.table.nodes, n.2 = n'.2 →
    n = n' ∨ findSymbolContainingAddress bins n.1 ≠ 0 ∧
      findSymbolContainingAddress bins n.1 = findSymbolContainingAddress bins n'.1

variable (bins) in
/-- The map of a run. -/
structure Accounted (inUse : H → UInt64 → Prop) (fixups : List Fixup) (vm : VM H) : Prop where
  buckets : vm.dataMoved.numBuckets = 100
  found : ∀ f ∈ fixups, mapGet vm.dataMoved f.addrOld = some f.addrNew
  entered : ∀ n ∈ vm.dataMoved.table.nodes, ⟨n.1, n.2⟩ ∈ fixups
  placed : LiesApart bins inUse vm

section
variable {inUse : H → UInt64 → Prop}

theorem pointer_inj {a b v w : UInt64} (h : PatchData.pointer a v = .pointer b w) : a = b ∧ v = w := by
  refine ⟨congrArg PatchData.addr h, ?_⟩
  have hdata : addrBytes v = addrBytes w := congrArg PatchData.data h
  rw [← addrOfBytes_addrBytes v, hdata, addrOfBytes_addrBytes]

/-- A variable is moved. -/
theorem LiesApart.variable {vm vm' : VM H} {addrOld addrNew : UInt64} (hplaced : LiesApart bins inUse vm)
    (hapart : ∀ p q addr, movedSymbol bins (findSymbolContainingAddress bins p) = .ok addr →
      movedSymbol bins (findSymbolContainingAddress bins q) = .ok addr →
      findSymbolContainingAddress bins p = findSymbolContainingAddress bins q)
    (hsym : findSymbolContainingAddress bins addrOld ≠ 0)
    (hmoved : movedSymbol bins (findSymbolContainingAddress bins addrOld) = .ok addrNew)
    (hheap : vm'.target.heap = vm.target.heap)
    (hnodes : ∀ n, n ∈ vm'.dataMoved.table.nodes ↔ n = (addrOld, addrNew) ∨ n ∈ vm.dataMoved.table.nodes) :
    LiesApart bins inUse vm' := by
  -- an object with the variable's new place is another part of the variable
  have hshared : ∀ n ∈ vm.dataMoved.table.nodes, n.2 = addrNew →
      findSymbolContainingAddress bins n.1 = findSymbolContainingAddress bins addrOld := by
    intro n hn heq
    by_cases hzero : findSymbolContainingAddress bins n.1 = 0
    · exact absurd (heq ▸ hmoved) (hplaced.allocated n hn hzero addrOld)
    · exact hapart _ _ _ (hplaced.moved n hn hzero) (heq ▸ hmoved)
  refine ⟨?_, ?_, ?_, ?_, ?_⟩
  · intro n hn
    rw [hheap]
    rcases (hnodes n).mp hn with hn | hn
    · rw [hn]
      exact hplaced.reserved addrOld addrNew hmoved
    · exact hplaced.used n hn
  · rw [hheap]
    exact hplaced.reserved
  · intro n hn hzero
    rcases (hnodes n).mp hn with hn | hn
    · rw [hn]
      exact hmoved
    · exact hplaced.moved n hn hzero
  · intro n hn hzero
    rcases (hnodes n).mp hn with hn | hn
    · rw [hn] at hzero
      exact absurd hzero hsym
    · exact hplaced.allocated n hn hzero
  · intro n hn n' hn' heq
    rcases (hnodes n).mp hn with hn | hn
    · rcases (hnodes n').mp hn' with hn' | hn'
      · exact .inl (hn.trans hn'.symm)
      · rw [hn] at heq ⊢
        exact .inr ⟨hsym, (hshared n' hn' heq.symm).symm⟩
    · rcases (hnodes n').mp hn' with hn' | hn'
      · rw [hn'] at heq ⊢
        have hsame := hshared n hn heq
        exact .inr ⟨hsame ▸ hsym, hsame⟩
      · exact hplaced.apart n hn n' hn' heq

/-- Memory is allocated. -/
theorem LiesApart.malloc {vm vm' : VM H} {addrOld addrNew : UInt64} (hplaced : LiesApart bins inUse vm)
    (hsym : findSymbolContainingAddress bins addrOld = 0) (hfresh : ¬ inUse vm.target.heap addrNew)
    (hnew : inUse vm'.target.heap addrNew) (hkept : ∀ x, inUse vm.target.heap x → inUse vm'.target.heap x)
    (hnodes : ∀ n, n ∈ vm'.dataMoved.table.nodes ↔ n = (addrOld, addrNew) ∨ n ∈ vm.dataMoved.table.nodes) :
    LiesApart bins inUse vm' := by
  have hother : ∀ n ∈ vm.dataMoved.table.nodes, n.2 ≠ addrNew := fun n hn heq => hfresh (heq ▸ hplaced.used n hn)
  refine ⟨?_, ?_, ?_, ?_, ?_⟩
  · intro n hn
    rcases (hnodes n).mp hn with hn | hn
    · rw [hn]
      exact hnew
    · exact hkept _ (hplaced.used n hn)
  · exact fun p addr hmoved => hkept _ (hplaced.reserved p addr hmoved)
  · intro n hn hzero
    rcases (hnodes n).mp hn with hn | hn
    · rw [hn] at hzero
      exact absurd hsym hzero
    · exact hplaced.moved n hn hzero
  · intro n hn hzero p hmoved
    rcases (hnodes n).mp hn with hn | hn
    · rw [hn] at hmoved
      exact hfresh (hplaced.reserved p addrNew hmoved)
    · exact hplaced.allocated n hn hzero p hmoved
  · intro n hn n' hn' heq
    rcases (hnodes n).mp hn with hn | hn
    · rcases (hnodes n').mp hn' with hn' | hn'
      · exact .inl (hn.trans hn'.symm)
      · rw [hn] at heq
        exact absurd heq.symm (hother n' hn')
    · rcases (hnodes n').mp hn' with hn' | hn'
      · rw [hn'] at heq
        exact absurd heq (hother n hn)
      · exact hplaced.apart n hn n' hn' heq

/-- What an accounted map makes of the pointers. -/
theorem aliasing_of_accounted {fixups : List Fixup} {vm : VM H} (hmap : Accounted bins inUse fixups vm) :
    KeepsAliasing fixups ↔ ∀ f ∈ fixups, ∀ g ∈ fixups, SameObject bins f.addrOld g.addrOld → f.addrOld = g.addrOld := by
  -- the entry a pointer was found by
  have hentry : ∀ f ∈ fixups, ∃ n ∈ vm.dataMoved.table.nodes, Matches (sizeTKeying 100) f.addrOld n.1 ∧ n.2 = f.addrNew := by
    intro f hf
    obtain ⟨n, hn, hmatch, hvalue⟩ := Table.get_eq_some_iff.mp (hmap.found f hf)
    rw [hmap.buckets] at hmatch
    exact ⟨n, hn, hmatch, hvalue⟩
  refine ⟨?_, ?_⟩
  · intro hkeeps f hf g hg hsame
    rcases hsame with hmatch | ⟨hsym, hsame⟩
    · rw [← hmap.buckets] at hmatch
      have hget : mapGet vm.dataMoved f.addrOld = mapGet vm.dataMoved g.addrOld := Table.get_congr hmatch
      rw [hmap.found f hf, hmap.found g hg] at hget
      exact (hkeeps f hf g hg).mp (Option.some.inj hget)
    · -- each was entered itself, for the entry it was found by has its new value
      have hown : ∀ f ∈ fixups, findSymbolContainingAddress bins f.addrOld ≠ 0 →
          movedSymbol bins (findSymbolContainingAddress bins f.addrOld) = .ok f.addrNew := by
        intro f hf hsym
        obtain ⟨n, hn, -, hvalue⟩ := hentry f hf
        have hold := (hkeeps _ (hmap.entered n hn) f hf).mp hvalue
        dsimp only at hold
        rw [← hold] at hsym ⊢
        rw [← hvalue]
        exact hmap.placed.moved n hn hsym
      have hf' := hown f hf hsym
      rw [hsame, hown g hg (hsame ▸ hsym)] at hf'
      exact (hkeeps f hf g hg).mp (Except.ok.inj hf').symm
  · intro hown f hf g hg
    have hself : ∀ f ∈ fixups, (f.addrOld, f.addrNew) ∈ vm.dataMoved.table.nodes := by
      intro f hf
      obtain ⟨n, hn, hmatch, hvalue⟩ := hentry f hf
      have hold := hown f hf _ (hmap.entered n hn) (.inl hmatch)
      rw [hold, ← hvalue]
      exact hn
    refine ⟨?_, ?_⟩
    · intro hnew
      rcases hmap.placed.apart _ (hself f hf) _ (hself g hg) hnew with heq | hsym
      · exact congrArg Prod.fst heq
      · exact hown f hf g hg (.inr hsym)
    · intro hold
      have hget := hmap.found f hf
      rw [hold, hmap.found g hg] at hget
      exact (Option.some.inj hget).symm

/-- **The map of a run has its pointers**, and its objects lie apart. -/
theorem PointerRun.accounted {start vm : VM H} {fixups : List Fixup} (hsep : Separate process bins inUse start.target.heap)
    (hstart : start.dataMoved = sizeTMapCreate 100) (hrun : PointerRun process bins start fixups vm) :
    Accounted bins inUse fixups vm := by
  induction hrun with
  | start =>
    have hempty : ∀ n, n ∉ start.dataMoved.table.nodes := by
      rw [hstart]
      exact fun n hn => List.not_mem_nil hn
    refine ⟨by rw [hstart]; rfl, fun f hf => absurd hf List.not_mem_nil, fun n hn => absurd hn (hempty n), ?_⟩
    exact ⟨fun n hn => absurd hn (hempty n), hsep.reserved, fun n hn => absurd hn (hempty n),
      fun n hn => absurd hn (hempty n),
      fun n hn => absurd hn (hempty n)⟩
  | between _ hmap hheap ih =>
    refine ⟨by rw [hmap]; exact ih.buckets, by rw [hmap]; exact ih.found, by rw [hmap]; exact ih.entered, ?_⟩
    exact ⟨by rw [hmap, hheap]; exact ih.placed.used, by rw [hheap]; exact ih.placed.reserved,
      by rw [hmap]; exact ih.placed.moved,
      by rw [hmap]; exact ih.placed.allocated, by rw [hmap]; exact ih.placed.apart⟩
  | field _ htype hold hnull hfield ih =>
    rename_i fixups vm vm' rule state addrOld addrNew resultAddr _
    obtain ⟨resultAddr', addrNew', vm1, -, hcase⟩ := makePatchData_pointer htype hold hnull hfield
    rcases hcase with ⟨hpatch, hvm', hvm1, hget⟩ |
      ⟨hget, ⟨vm2, hnew, hinsert, htarget⟩, fde, state', nested, hnested, hpatch⟩
    · -- the map has the object
      have hvalue := (pointer_inj (List.cons.inj hpatch).1).2
      rw [hvm', hvm1, hvalue]
      refine ⟨ih.buckets, ?_, fun n hn => List.mem_append_left _ (ih.entered n hn), ih.placed⟩
      intro f hf
      rcases List.mem_append.mp hf with hf | hf
      · exact ih.found f hf
      · rw [List.mem_singleton.mp hf]
        exact hget
    · obtain ⟨-, hvm'⟩ := nextFields_ok hnested
      have hvalue := (pointer_inj (List.cons.inj hpatch).1).2
      rw [hvm', hvalue]
      have hmap : vm2.dataMoved = vm.dataMoved := by
        rcases newLocation_ok hnew with ⟨-, -, hvm2⟩ | ⟨-, len, heap, -, -, hmap, -⟩
        · rw [hvm2]
        · exact hmap
      rw [hmap] at hinsert
      have hnodes : ∀ n, n ∈ vm1.dataMoved.table.nodes ↔ n = (addrOld, addrNew') ∨ n ∈ vm.dataMoved.table.nodes :=
        fun n => mem_mapInsert hinsert
      refine ⟨(numBuckets_mapInsert hinsert).trans ih.buckets, ?_, ?_, ?_⟩
      · intro f hf
        rw [mapGet_insert hinsert]
        rcases List.mem_append.mp hf with hf | hf
        · -- a pointer the map had before does not match the one it had not
          have hfound := ih.found f hf
          rw [if_neg]
          · exact hfound
          · intro hmatch
            have hnone : mapGet vm.dataMoved f.addrOld = none := (Table.get_congr hmatch).trans hget
            rw [hnone] at hfound
            cases hfound
        · rw [List.mem_singleton.mp hf, if_pos (Matches.refl _)]
      · intro n hn
        rcases (hnodes n).mp hn with hn | hn
        · rw [hn]
          exact List.mem_append_right _ (List.mem_singleton_self _)
        · exact List.mem_append_left _ (ih.entered n hn)
      · rcases newLocation_ok hnew with ⟨hsym, hmoved, hvm2⟩ | ⟨hsym, len, heap, hmalloc, hzero, -, hheap⟩
        · exact ih.placed.variable hsep.apart hsym hmoved (by rw [htarget, hvm2]) hnodes
        · obtain ⟨hfresh, hused, hkept⟩ := hsep.fresh _ _ _ _ hmalloc hzero
          have hheap1 : vm1.target.heap = heap := by rw [htarget, hheap]
          exact ih.placed.malloc hsym hfresh (hheap1 ▸ hused) (fun x hx => hheap1 ▸ hkept x hx) hnodes

/-- **Aliasing is kept exactly when different pointers are different objects to the map and the symbol table**:
every pointer is where the map has its key, one of a variable at the variable's new start. -/
theorem keepsAliasing_iff {start vm : VM H} {fixups : List Fixup} (hsep : Separate process bins inUse start.target.heap)
    (hstart : start.dataMoved = sizeTMapCreate 100) (hrun : PointerRun process bins start fixups vm) :
    KeepsAliasing fixups ↔ ∀ f ∈ fixups, ∀ g ∈ fixups, SameObject bins f.addrOld g.addrOld → f.addrOld = g.addrOld :=
  aliasing_of_accounted (hrun.accounted hsep hstart)

end

/-! ## What the recursion runs through -/

/-- The pointers that `more` patches fix up, behind those of the run before. -/
def Continues (process : Process H) (bins : Binaries) (start vm vm' : VM H) (more : List PatchData) : Prop :=
  ∀ fixups, PointerRun process bins start fixups vm → ∃ later, PointerRun process bins start (fixups ++ later) vm' ∧
    ∀ f ∈ later, ∃ resultAddr, PatchData.pointer resultAddr f.addrNew ∈ more

variable {start : VM H}

theorem Continues.still {vm vm' : VM H} {more : List PatchData} (hmap : vm'.dataMoved = vm.dataMoved)
    (hheap : vm'.target.heap = vm.target.heap) : Continues process bins start vm vm' more := by
  intro fixups hrun
  refine ⟨[], ?_, fun f hf => absurd hf List.not_mem_nil⟩
  rw [List.append_nil]
  exact hrun.between hmap hheap

theorem Continues.trans {vm vm1 vm' : VM H} {more more' : List PatchData} (h : Continues process bins start vm vm1 more)
    (h' : Continues process bins start vm1 vm' more') : Continues process bins start vm vm' (more ++ more') := by
  intro fixups hrun
  obtain ⟨later, hrun1, hlater⟩ := h fixups hrun
  obtain ⟨later', hrun', hlater'⟩ := h' (fixups ++ later) hrun1
  refine ⟨later ++ later', ?_, ?_⟩
  · rw [← List.append_assoc]
    exact hrun'
  · intro f hf
    rcases List.mem_append.mp hf with hf | hf
    · obtain ⟨resultAddr, hmem⟩ := hlater f hf
      exact ⟨resultAddr, List.mem_append_left _ hmem⟩
    · obtain ⟨resultAddr, hmem⟩ := hlater' f hf
      exact ⟨resultAddr, List.mem_append_right _ hmem⟩

variable {recur : FDE → SpecialRegsState → VMM H (List PatchData)}

theorem makePatchData_continues
    (hrec : ∀ fde state vm vm' patches, recur fde state vm = .ok patches vm' → Continues process bins start vm vm' patches)
    {rule : PoRegRule} {state : SpecialRegsState} {vm vm' : VM H} {patches : List PatchData}
    (h : makePatchData process bins recur rule state vm = .ok patches vm') :
    Continues process bins start vm vm' patches := by
  by_cases hpointer : rule.type = .recurseFixupPointer
  · have hrun := h
    unfold makePatchData at hrun
    rw [run_bind_of_ok (get_run vm)] at hrun
    obtain ⟨resultAddr, -, hrun⟩ := lift_bind_ok.mp hrun
    rw [hpointer] at hrun
    obtain ⟨addrOld, hold, hrun⟩ := lift_bind_ok.mp hrun
    by_cases hnull : addrOld = 0
    · rw [if_pos hnull] at hrun
      obtain ⟨-, hvm⟩ := pure_ok.mp hrun
      exact .still (by rw [hvm]) (by rw [hvm])
    · obtain ⟨resultAddr, addrNew, vm1, hfield, hcase⟩ := makePatchData_pointer hpointer hold hnull h
      have hfirst : Continues process bins start vm vm1 [.pointer resultAddr addrNew] := by
        intro fixups hrun
        refine ⟨[⟨addrOld, addrNew⟩], hrun.field hpointer hold hnull hfield, ?_⟩
        intro f hf
        rw [List.mem_singleton.mp hf]
        exact ⟨resultAddr, List.mem_singleton_self _⟩
      rcases hcase with ⟨hpatches, hvm', -, -⟩ | ⟨-, -, fde, state', nested, hnested, hpatches⟩
      · rw [hpatches, hvm']
        exact hfirst
      · rw [hpatches]
        exact hfirst.trans (hrec fde state' vm1 vm' nested hnested)
  · unfold makePatchData at h
    rw [run_bind_of_ok (get_run vm)] at h
    obtain ⟨resultAddr, -, h⟩ := lift_bind_ok.mp h
    cases htype : rule.type with
    | recurseFixupPointer => exact absurd htype hpointer
    | recurseFixup =>
      rw [htype] at h
      obtain ⟨currAddrOld, -, h⟩ := lift_bind_ok.mp h
      obtain ⟨fde, -, h⟩ := lift_bind_ok.mp h
      exact hrec fde _ vm vm' patches h
    | offset =>
      rw [htype] at h
      obtain ⟨read, -, h⟩ := lift_bind_ok.mp h
      obtain ⟨pd, -, h⟩ := lift_bind_ok.mp h
      cases h
      exact .still rfl rfl
    | register =>
      rw [htype] at h
      obtain ⟨data, -, h⟩ := lift_bind_ok.mp h
      obtain ⟨pd, -, h⟩ := lift_bind_ok.mp h
      cases h
      exact .still rfl rfl
    | undef =>
      rw [htype] at h
      cases h
      exact .still rfl rfl
    | _ =>
      rw [htype] at h
      cases h

theorem patchLoop_continues
    (hrec : ∀ fde state vm vm' patches, recur fde state vm = .ok patches vm' → Continues process bins start vm vm' patches)
    {state : SpecialRegsState} {rules : List PoRegRule} {vm vm' : VM H} {done patches : List PatchData}
    (h : patchLoop process bins recur state rules (done, lastNode done) vm = .ok patches vm') :
    ∃ later, patches = done ++ later ∧ Continues process bins start vm vm' later := by
  induction rules generalizing done vm with
  | nil =>
    obtain ⟨hpatches, hvm⟩ := pure_ok.mp h
    exact ⟨[], by rw [hpatches, List.append_nil], .still (by rw [hvm]) (by rw [hvm])⟩
  | cons rule rules ih =>
    obtain ⟨patchList, vm1, hrule, h⟩ := run_bind_ok.mp h
    obtain ⟨acc, hconcat, h⟩ := lift_bind_ok.mp h
    rw [concatLists_append] at hconcat
    cases hconcat
    obtain ⟨later, hpatches, hlater⟩ := ih h
    exact ⟨patchList ++ later, by rw [hpatches, List.append_assoc], (makePatchData_continues hrec hrule).trans hlater⟩

/-- **What an FDE generates is a run**: each of its pointers is among the patches. -/
theorem generate_pointerRun (fuel : Nat) (fde : FDE) (state : SpecialRegsState) (vm vm' : VM H) (patches : List PatchData)
    (h : generatePatchesFromFDEAndState process bins fuel fde state vm = .ok patches vm') :
    Continues process bins start vm vm' patches := by
  induction fuel generalizing fde state vm vm' patches with
  | zero => cases h
  | succ fuel ih =>
    unfold generatePatchesFromFDEAndState at h
    rw [run_bind_of_ok (get_run vm)] at h
    obtain ⟨st, -, h⟩ := lift_bind_ok.mp h
    rw [run_bind_of_ok (modify_run _ _)] at h
    obtain ⟨cfaValue, -, h⟩ := lift_bind_ok.mp h
    have hloop : patchLoop process bins (generatePatchesFromFDEAndState process bins fuel) { state with cfaValue }
      (dictValues st.rules)
        ([], lastNode ([] : List PatchData)) _ = .ok patches vm' := h
    obtain ⟨later, hpatches, hlater⟩ := patchLoop_continues ih hloop
    rw [hpatches, List.nil_append]
    intro fixups hrun
    exact hlater fixups (hrun.between rfl rfl)

def Processed {α : Type} (x : VMM H α) (vm : VM H) : Bool :=
  match x vm with
  | .ok _ _ => true
  | .error _ _ => false

theorem processed_ok {α : Type} {x : VMM H α} {vm : VM H} (h : Processed x vm = true) : ∃ a vm', x vm = .ok a vm' := by
  unfold Processed at h
  cases hx : x vm with
  | ok a vm' => exact ⟨a, vm', rfl⟩
  | error e vm' =>
    rw [hx] at h
    cases h

/-- A field that is processed is one more step. -/
theorem PointerRun.next {vm : VM H} {fixups : List Fixup} {rule : PoRegRule} {state : SpecialRegsState} {addrOld : UInt64}
    (hrun : PointerRun process bins start fixups vm) (htype : rule.type = .recurseFixupPointer)
    (hold : resolveToAddress process bins vm.target rule.regRH state .dereference .assertion = .ok addrOld)
    (hnull : addrOld ≠ 0)
    (hok : Processed (makePatchData process bins nextFields rule state) vm) :
    ∃ addrNew, PointerRun process bins start (fixups ++ [⟨addrOld, addrNew⟩])
      (after (makePatchData process bins nextFields rule state) vm) := by
  obtain ⟨patches, vm', hfield⟩ := processed_ok hok
  obtain ⟨resultAddr, addrNew, vm1, hfield, -⟩ := makePatchData_pointer htype hold hnull hfield
  refine ⟨addrNew, ?_⟩
  rw [after_of_ok hfield]
  exact hrun.field htype hold hnull hfield

end

/-! ## Two pointers -/

/-- Memory from `malloc` follows the last one's, with a header. -/
def growingProcess : Process Nat where
  mapped := fun _ _ => true
  malloc := fun heap len =>
    if 0 < heap ∧ heap + len.toNat + 16 < 2 ^ 64 then (UInt64.ofNat heap, heap + len.toNat + 16) else (0, heap)

theorem growing_fresh (heap : Nat) (len addr : UInt64) (heap' : Nat) (h : growingProcess.malloc heap len = (addr, heap'))
    (hzero : addr ≠ 0) : ¬ addr.toNat < heap ∧ addr.toNat < heap' ∧ ∀ x : UInt64, x.toNat < heap → x.toNat < heap' := by
  unfold growingProcess at h
  dsimp only at h
  split at h
  · cases h
    have hnat : (UInt64.ofNat heap).toNat = heap := UInt64.toNat_ofNat_of_lt' (by rw [UInt64.size]; omega)
    rw [hnat]
    refine ⟨by omega, by omega, fun x hx => by omega⟩
  · cases h
    exact absurd rfl hzero

def pointerRule (offset : Int32) :
    PoRegRule := ⟨⟨.currTargNew, 8, offset⟩, .recurseFixupPointer, ⟨.currTargOld, 8, offset⟩, 0, 1⟩

def pairState : SpecialRegsState := ⟨0x1000, 0x4000, 0⟩

def pairVM : VM Nat where
  stateStack := []
  dataMoved := sizeTMapCreate 100
  target := ⟨fun addr => if addr = 0x1001 ∨ addr = 0x1009 then 0x20 else if addr = 0x1008 then 0x08 else 0, 0x10000, 1, 1⟩
  log := []

def pairField (bins : Binaries) (offset : Int32) : VMM Nat (List PatchData) :=
  makePatchData growingProcess bins nextFields (pointerRule offset) pairState

theorem pair_pointerRun {bins : Binaries}
    (hfirst : resolveToAddress growingProcess bins pairVM.target
    (pointerRule 0).regRH pairState .dereference .assertion = .ok 0x2000)
    (hok : Processed (pairField bins 0) pairVM = true)
    (hsecond : resolveToAddress growingProcess bins (after (pairField bins 0) pairVM).target (pointerRule 8).regRH pairState
      .dereference .assertion = .ok 0x2008)
    (hok' : Processed (pairField bins 8) (after (pairField bins 0) pairVM) = true) :
    ∃ first second vm, PointerRun growingProcess bins pairVM [⟨0x2000, first⟩, ⟨0x2008, second⟩] vm := by
  have hstart : PointerRun growingProcess bins pairVM [] pairVM := .start
  obtain ⟨first, hrun⟩ := hstart.next rfl hfirst (by decide) hok
  obtain ⟨second, hrun⟩ := hrun.next rfl hsecond (by decide) hok'
  exact ⟨first, second, _, hrun⟩

/-- Two pointers into the heap. -/
theorem heapPointers_keepAliasing : ∃ first second vm,
    PointerRun growingProcess nodeBinaries pairVM [⟨0x2000, first⟩, ⟨0x2008, second⟩] vm ∧
    KeepsAliasing [⟨0x2000, first⟩, ⟨0x2008, second⟩] := by
  obtain ⟨first, second, vm, hrun⟩ := @pair_pointerRun nodeBinaries (by decide +kernel) (by decide +kernel)
    (by decide +kernel) (by decide +kernel)
  have hsep : Separate growingProcess nodeBinaries (fun heap addr => addr.toNat < heap) pairVM.target.heap := by
    refine ⟨growing_fresh, ?_, ?_⟩
    · intro p addr h
      cases h
    · intro p q addr h
      cases h
  refine ⟨first, second, vm, hrun, (keepsAliasing_iff hsep rfl hrun).mpr ?_⟩
  have hapart : ¬ SameObject nodeBinaries 0x2000 0x2008 := by
    intro h
    rcases h with hmatch | hsym
    · exact absurd hmatch.2 (by decide)
    · exact hsym.1 rfl
  have hapart' : ¬ SameObject nodeBinaries 0x2008 0x2000 := by
    intro h
    rcases h with hmatch | hsym
    · exact absurd hmatch.2 (by decide)
    · exact hsym.1 rfl
  simp [hapart, hapart']

def variableBinaries : Binaries where
  oldSymtab := [⟨0, 0, 0, 0⟩, ⟨0x2000, 16, 1, 3⟩]
  patchSymtab := [⟨0, 0, 0, 0⟩, ⟨0, 16, 1, 5⟩]
  reindexSymbol := id
  patchDataScn := 5
  dataNewAddr := some 0x9000
  callFrameInfo := nodeBinaries.callFrameInfo
  memSize := [16]

theorem variable_moved {s : Nat} {addr : UInt64} (h : movedSymbol variableBinaries s = .ok addr) :
    s = 1 ∧ addr = 0x9000 := by
  match s with
  | 0 => cases h
  | 1 =>
    refine ⟨rfl, ?_⟩
    cases h
    rfl
  | s + 2 => cases h

/-- Pointers to the two words of a variable become pointers to its first. -/
theorem not_keepsAliasing : ¬ ∀ (process : Process Nat) (bins : Binaries) (inUse : Nat → UInt64 → Prop) (start vm : VM Nat)
    (fixups : List Fixup), Separate process bins inUse start.target.heap → start.dataMoved = sizeTMapCreate 100 →
    PointerRun process bins start fixups vm → KeepsAliasing fixups := by
  intro h
  obtain ⟨first, second, vm, hrun⟩ := @pair_pointerRun variableBinaries (by decide +kernel) (by decide +kernel)
    (by decide +kernel) (by decide +kernel)
  have hsep : Separate growingProcess variableBinaries (fun heap addr => addr.toNat < heap) pairVM.target.heap := by
    refine ⟨growing_fresh, ?_, ?_⟩
    · intro p addr hmoved
      rw [(variable_moved hmoved).2]
      decide
    · intro p q addr hp hq
      rw [(variable_moved hp).1, (variable_moved hq).1]
  have hkeeps := h growingProcess variableBinaries _ pairVM vm _ hsep rfl hrun
  rw [aliasing_of_accounted (hrun.accounted hsep rfl)] at hkeeps
  have hsame : SameObject variableBinaries 0x2000 0x2008 := .inr ⟨by decide +kernel, by decide +kernel⟩
  have hequal : (0x2000 : UInt64) = 0x2008 := hkeeps _ List.mem_cons_self _ (List.mem_cons_of_mem _ List.mem_cons_self) hsame
  exact absurd hequal (by decide)

end Katana

/-
  Katana.LivePatching — a process that is patched again and again, each patch applied to the binary the last one wrote.

  The patches are of functions only: one that moves variables changes their symbols too, and no jump is for them. Before and
  behind the functions sections are copied in, each with a symbol. The jumps are inserted where the functions are at that
  time, so that a function that was patched twice is reached through two jumps. Between patches the process runs, and changes
  its memory but not the jumps.

  Proved, for every process and every run:
  - `LiveStep.sound` / `sound_run`: the jumps stand in every state reached, and the table of symbols is whole.
  - `LiveStep.leads`: what one step does to where a function is found.
  - `live_leads`: from where a function was found, the jumps lead to where it is found now.
-/
import Katana.FunctionSymbols
import Mathlib.Logic.Relation

namespace Katana

open Lib
open Nodes (CString)
open Relation (ReflTransGen)

/-- The binary as it was patched last, the target, and the jumps that were inserted. -/
structure LiveProcess (H : Type) where
  bin : PatchElf
  target : Target H
  jumps : List ByteRun

variable {H : Type} (process : Process H)

/-- A patch of functions that fits: its jumps agree with each other and with those that are there, and its functions of one
name have one address. Or the memory changes, but for the jumps: the process runs, or a section's bytes are written. -/
inductive LiveStep : LiveProcess H → LiveProcess H → Prop
  | patch {st : LiveProcess H} {place : PatchPlace} {funcs : List PatchFunction} {before later : List (UInt16 × UInt64)}
      {start bin : PatchElf} {s' : PatchState H} :
    place.targetBin = st.bin → addSectionSymbols st.bin before = .ok start → (∀ func ∈ funcs, func.name.bytes ≠ []) →
    place.RoomFor start funcs → (∀ f ∈ funcs, ∀ g ∈ funcs, f.name = g.name → place.newAddress f = place.newAddress g) →
    (∀ r ∈ st.jumps ++ place.jumps funcs, ∀ r' ∈ st.jumps ++ place.jumps funcs, r.Agree r') →
    applyFunctionPatches process place ⟨start, st.target⟩ funcs = .ok s' → addSectionSymbols s'.patchedBin later = .ok bin →
    LiveStep st ⟨bin, s'.target, st.jumps ++ place.jumps funcs⟩
  | runs {st : LiveProcess H} {target : Target H} :
    (∀ r ∈ st.jumps, r.Stands st.target.bytes → r.Stands target.bytes) → LiveStep st { st with target }

/-- A table that is whole, with a null symbol that has no name, and strings that begin with an empty one. -/
def WholeTable (e : PatchElf) : Prop :=
  ∃ names values, TableOf e names values ∧ names.head? = some [] ∧ e.strtab.stringAt 0 = some []

/-- The jumps stand, and functions can be looked up. -/
structure LiveProcess.Sound (st : LiveProcess H) : Prop where
  table : WholeTable st.bin
  stand : ∀ r ∈ st.jumps, r.Stands st.target.bytes

def LiveProcess.Hop (st : LiveProcess H) (a b : UInt64) : Prop := (a, trampoline b) ∈ st.jumps

/-- The processor's way from one address to another by jumps. -/
def LeadsTo (m : Memory) : UInt64 → UInt64 → Prop := ReflTransGen fun a b => jumpTarget m a = some b

section
variable {process} {st st' : LiveProcess H}

/-- A table stays whole when sections are copied in, and finds what it found. -/
theorem WholeTable.copiedIn {e e' : PatchElf} {sections : List (UInt16 × UInt64)} (h : WholeTable e)
    (hrun : addSectionSymbols e sections = .ok e') :
    WholeTable e' ∧ ∀ name addr, FoundAt e' name addr ↔ FoundAt e name addr := by
  obtain ⟨names, values, htable, hnull, hempty⟩ := h
  obtain ⟨htable', hstrtab⟩ := htable.copiedIn hempty hrun
  refine ⟨⟨_, _, htable', by rw [List.head?_append, hnull]; rfl, by rw [hstrtab]; exact hempty⟩, fun name addr => ?_⟩
  rw [foundAt_iff htable', foundAt_iff htable]
  have hmem : name.bytes ∈ names ++ sectionNames sections ↔ name.bytes ∈ names := by
    have hin : [] ∈ names := List.mem_of_mem_head? hnull
    rw [List.mem_append, sectionNames, List.mem_map]
    constructor
    · intro hor
      rcases hor with hin' | hmade
      · exact hin'
      · obtain ⟨sec, -, heq⟩ := hmade
        exact heq ▸ hin
    · exact .inl
  rw [hmem]
  apply and_congr_right
  intro hname
  have hlt : names.idxOf name.bytes < values.length := by
    rw [htable.length]
    exact List.idxOf_lt_length_iff.mpr hname
  rw [List.idxOf_append_of_mem hname, List.getElem?_append_left hlt]

/-- So it does when functions are patched. -/
theorem WholeTable.patched {place : PatchPlace} {start : PatchElf} {t : Target H} {before : List (UInt16 × UInt64)}
    {funcs : List PatchFunction} {s' : PatchState H} (h : WholeTable place.targetBin)
    (hbefore : addSectionSymbols place.targetBin before = .ok start) (hnames : ∀ func ∈ funcs, func.name.bytes ≠ [])
    (hroom : place.RoomFor start funcs) (hrun : applyFunctionPatches process place ⟨start, t⟩ funcs = .ok s') :
    WholeTable s'.patchedBin := by
  obtain ⟨base, values, htable, hnull, hempty⟩ := h
  have hbase : place.BaseTable base values := ⟨htable, hnull⟩
  have hstart : PatchPlace.TableOnWay place base start _ := hbase.copiedIn hempty hbefore
  have hfinal := patchedTable_ok hbase hnames hroom hstart hrun
  obtain ⟨more, hmore⟩ := hfinal.front
  exact ⟨_, _, hfinal.table, by rw [← hmore, List.head?_append, hnull]; rfl, hfinal.strings 0 [] hempty⟩

/-- A step keeps the jumps and the table. -/
theorem LiveStep.sound (hstep : LiveStep process st st') (h : st.Sound) : st'.Sound := by
  cases hstep with
  | patch hbin hbefore hnames hroom hsame hagree hrun hlater =>
    rw [← hbin] at hbefore
    have hwhole : WholeTable _ := hbin ▸ h.table
    constructor
    · exact ((hwhole.patched hbefore hnames hroom hrun).copiedIn hlater).1
    · rw [applyFunctionPatches_ok hrun]
      exact ByteRun.stands_writeAll (fun r => length_jumps) h.stand hagree
  | runs hkeep => exact ⟨h.table, fun r hr => hkeep r hr (h.stand r hr)⟩

theorem LiveStep.jumps_mono (hstep : LiveStep process st st') {a b : UInt64} (h : st.Hop a b) : st'.Hop a b := by
  cases hstep with
  | patch => exact List.mem_append_left _ h
  | runs => exact h

/-- A function is found where it was, or where a jump from there leads. -/
theorem LiveStep.leads (hstep : LiveStep process st st') (h : st.Sound) {name : CString} {a : UInt64}
    (hfound : FoundAt st.bin name a) : ∃ b, FoundAt st'.bin name b ∧ (b = a ∨ st'.Hop a b) := by
  cases hstep with
  | runs => exact ⟨a, hfound, .inl rfl⟩
  | @patch place funcs before later start bin s' hbin hbefore hnames hroom hsame hagree hrun hlater =>
    have hwhole : WholeTable place.targetBin := hbin ▸ h.table
    rw [← hbin] at hbefore hfound
    obtain ⟨base, values, htable, hnull, hempty⟩ := h.table
    rw [← hbin] at htable hempty
    have hbase : place.BaseTable base values := ⟨htable, hnull⟩
    have hright := symbolsRight_of_run hbase (hbase.copiedIn hempty hbefore) hnames hroom hrun hsame
    have hfinds := ((hwhole.patched hbefore hnames hroom hrun).copiedIn hlater).2
    by_cases hfunc : ∃ func ∈ funcs, func.name = name
    · obtain ⟨func, hmem, rfl⟩ := hfunc
      obtain ⟨idx, sym, hidx, hne, hsym, rfl⟩ := hfound
      have hold : place.Replaces func idx sym := ⟨hidx, hne, hsym⟩
      have hjump := List.mem_filterMap.mpr ⟨func, hmem, jumpOf_replaces hold⟩
      exact ⟨_, (hfinds _ _).mpr (hright.found func hmem), .inr (List.mem_append_right _ hjump)⟩
    · refine ⟨a, (hfinds name a).mpr ?_, .inl rfl⟩
      exact (hright.others name (fun func hmem heq => hfunc ⟨func, hmem, heq⟩) a).mpr hfound

theorem sound_run (hrun : ReflTransGen (LiveStep process) st st') (h : st.Sound) : st'.Sound := by
  induction hrun with
  | refl => exact h
  | tail _ hstep ih => exact hstep.sound ih

/-- The jumps of the run lead from where a function was to where it is. -/
theorem hops_run (hrun : ReflTransGen (LiveStep process) st st') (h : st.Sound) {name : CString} {a : UInt64}
    (hfound : FoundAt st.bin name a) : ∃ b, FoundAt st'.bin name b ∧ ReflTransGen st'.Hop a b := by
  induction hrun with
  | refl => exact ⟨a, hfound, .refl⟩
  | tail hrun hstep ih =>
    obtain ⟨b, hb, hhops⟩ := ih
    obtain ⟨c, hc, hlast⟩ := hstep.leads (sound_run hrun h) hb
    have hkept := ReflTransGen.mono (fun _ _ => hstep.jumps_mono) _ _ hhops
    rcases hlast with rfl | hlast
    · exact ⟨c, hc, hkept⟩
    · exact ⟨c, hc, hkept.tail hlast⟩

end

/-- **However often a process is patched, from where a function was found the processor comes to where it is found now.** -/
theorem live_leads {st st' : LiveProcess H} (h : st.Sound) (hrun : ReflTransGen (LiveStep process) st st') (name : CString)
    (a : UInt64) (hfound : FoundAt st.bin name a) :
    ∃ b, FoundAt st'.bin name b ∧ LeadsTo st'.target.bytes a b := by
  obtain ⟨b, hb, hhops⟩ := hops_run hrun h hfound
  have hstand := (sound_run hrun h).stand
  exact ⟨b, hb, ReflTransGen.mono (fun _ _ hhop => jumpTarget_trampoline (hstand _ hhop)) _ _ hhops⟩

/-- The binary with `.text.new` copied in and one function patched. -/
theorem patched_short : ∃ start s', addSectionSymbols shortBin [(9, 0x500000)] = .ok start ∧ shortPlace.RoomFor start [patchF] ∧
    applyFunctionPatches (mappedProcess keptHeap) shortPlace ⟨start, zeroTarget⟩ [patchF] = .ok s' ∧
      FoundAt s'.patchedBin patchF.name 0x500010 ∧ s'.patchedBin.strtab.dBuf.length < 2 ^ 31 ∧
      s'.patchedBin.symtabData.dBuf.length < 2 ^ 31 := by
  obtain ⟨start, hcopied, hstart, hstrings, hsymbols⟩ := copiedIn_short
  have hroom : shortPlace.RoomFor start [patchF] := ⟨by rw [hstrings]; decide, by rw [hsymbols]; decide⟩
  obtain ⟨s', hstep⟩ := (applyFunctionPatch_ends (s := ⟨start, zeroTarget⟩) hroom.new).mpr
    (patchable_short patchF List.mem_cons_self)
  have hrun : applyFunctionPatches (mappedProcess keptHeap) shortPlace ⟨start, zeroTarget⟩ [patchF] = .ok s' := by
    unfold applyFunctionPatches
    rw [List.foldlM_cons, hstep]
    rfl
  have hright := symbolsRight_of_run baseTable_short hstart (by decide) hroom hrun (by decide)
  have hleft := hroom.step hstep
  exact ⟨start, s', hcopied, hroom, hrun, hright.found patchF List.mem_cons_self, hleft.strings, hleft.symbols⟩

def shortJumps : List ByteRun := [(0x401000, trampoline 0x500010), (0x500010, trampoline 0x600010)]

theorem agree_shortJumps : ∀ r ∈ shortJumps, ∀ r' ∈ shortJumps, r.Agree r' := by
  have hfar : ∀ i < 14, ∀ j < 14, (0x401000 : UInt64) + UInt64.ofNat i ≠ 0x500010 + UInt64.ofNat j := by decide
  refine ByteRun.agree_of_pairwise_apart (by simp [shortJumps]) (List.pairwise_pair.mpr ?_)
  rw [length_trampoline, length_trampoline]
  exact hfar

/-- `f` is patched, and patched again where it is then. -/
theorem live_leads_short : ∃ st : LiveProcess Unit,
    ReflTransGen (LiveStep (mappedProcess keptHeap)) ⟨shortBin, zeroTarget, []⟩ st ∧
      (0x500010, trampoline 0x600010) ∈ st.jumps ∧
      ∃ b, FoundAt st.bin patchF.name b ∧ LeadsTo st.target.bytes 0x401000 b := by
  obtain ⟨start, s1, hcopied, hroom1, hrun1, hfound, hstrings, hsymbols⟩ := patched_short
  have hjumps1 : shortPlace.jumps [patchF] = [(0x401000, trampoline 0x500010)] := by decide
  -- the second patch, whose code is at 0x600000
  let place : PatchPlace := ⟨s1.patchedBin, 0x600000, 9⟩
  obtain ⟨idx, sym, hidx, hne, hsym, hvalue⟩ := hfound
  have hold : place.Replaces patchF idx sym := ⟨hidx, hne, hsym⟩
  have hnotnew : ¬ place.IsNew patchF := fun hnew => hne (Except.ok.inj (hidx.symm.trans hnew))
  have hnames : place.newNames [patchF] = [] := by
    rw [newNames_cons, if_neg hnotnew]
    rfl
  have hroom : place.RoomFor s1.patchedBin [patchF] := by
    constructor
    · rw [hnames]
      exact hstrings
    · rw [hnames]
      exact hsymbols
  have hends : (∃ s2, applyFunctionPatches (mappedProcess keptHeap) place ⟨s1.patchedBin, s1.target⟩ [patchF] = .ok s2) ↔
      ∀ func ∈ [patchF], place.Patchable (mappedProcess keptHeap) s1.target.heap func := applyFunctionPatches_ends hroom
  obtain ⟨s2, hrun2⟩ := hends.mpr fun func hfunc => by
    rw [List.mem_singleton.mp hfunc]
    exact .inr ⟨idx, sym, hold, fun w _ => wordMapped_mapped _ w⟩
  have hjumps2 : place.jumps [patchF] = [(0x500010, trampoline 0x600010)] := by
    have hjump : place.jumpOf patchF = some (0x500010, trampoline 0x600010) := by
      rw [jumpOf_replaces hold, hvalue]
      rfl
    exact List.filterMap_cons_some hjump
  have hnone : ∀ e, addSectionSymbols e [] = .ok e := fun _ => rfl
  have hstep1 : LiveStep (mappedProcess keptHeap) ⟨shortBin, zeroTarget, []⟩
      ⟨s1.patchedBin, s1.target, [] ++ shortPlace.jumps [patchF]⟩ :=
    .patch rfl hcopied (by decide) hroom1 (by decide) (by
      rw [hjumps1]
      exact fun r hr r' hr' => agree_shortJumps r (List.mem_append_left _ hr) r' (List.mem_append_left _ hr')) hrun1
      (hnone s1.patchedBin)
  have hstep2 : LiveStep (mappedProcess keptHeap) ⟨s1.patchedBin, s1.target, [] ++ shortPlace.jumps [patchF]⟩
      ⟨s2.patchedBin, s2.target, [] ++ shortPlace.jumps [patchF] ++ place.jumps [patchF]⟩ :=
    .patch rfl (hnone s1.patchedBin) (by decide) hroom (fun f hf g hg _ => by rw [List.mem_singleton.mp hf, List.mem_singleton.mp hg]) (by
      rw [hjumps1, hjumps2]
      exact agree_shortJumps) hrun2 (hnone s2.patchedBin)
  have hsteps := (ReflTransGen.single hstep1).tail hstep2
  refine ⟨_, hsteps, ?_, live_leads _ ⟨⟨_, _, baseTable_short.table, baseTable_short.null, by decide⟩, by simp⟩ hsteps patchF.name
    0x401000 ⟨1, .newFunction 1 1 0x401000, by decide, by decide, by decide, by decide⟩⟩
  rw [hjumps2]
  exact List.mem_append_right _ List.mem_cons_self

end Katana

/-
  Katana.Breakpoints — setting and removing breakpoints in the target (patcher/target.c).

  A breakpoint takes the place of the four bytes at its address, which are saved in a map. A removal puts
  the saved bytes back, and leaves them in the map.

  Proved, for every process and every sequence of operations:
  - `setBreakpoint_again`: an address whose breakpoint was removed cannot be set again.
  - `breakpoints_restore`: while every address is set once, and no breakpoint is removed before a later one
    that it overlaps, the text is what it was once all are removed.
-/
import Katana.Target
import Katana.Map

namespace Katana

open Lib

/-- The target under `ptrace`, its program counter, and the saved bytes. -/
structure Debugged (H : Type) where
  target : Target H
  ip : UInt64
  breakpointRestoreInfo : Option (SizeTMap (List UInt8))

variable {H : Type} (process : Process H)

def breakpointCode : List UInt8 := [0xcc, 0x90, 0x90, 0x90]

/-- The map is created with the first breakpoint. -/
def Debugged.restoreInfo (s : Debugged H) : SizeTMap (List UInt8) := s.breakpointRestoreInfo.getD (sizeTMapCreate 100)

/-- `map->size++` counts an int. -/
def setBreakpoint (s : Debugged H) (loc : UInt64) : Except Fault (Debugged H) := do
  let origCode ← memcpyFromTarget process s.target loc 4
  let map ← mapInsert s.restoreInfo loc origCode
  defined (map.size < 2 ^ 31)
  let target ← memcpyToTarget process s.target loc breakpointCode 4
  .ok { s with target := target, breakpointRestoreInfo := some map }

/-- `0x%x` of an address. -/
def hexOf (loc : UInt64) : String := String.ofList (Nat.toDigits 16 loc.toUInt32.toNat)

/-- A breakpoint that was just hit is stepped back over. -/
def removeBreakpoint (s : Debugged H) (loc : UInt64) : Except Fault (Debugged H) :=
  match s.breakpointRestoreInfo with
  | none => .error .assertion
  | some map =>
    match mapGet map loc with
    | none => .error (.death ("No breakpoint was set at address 0x" ++ hexOf loc ++ ", cannot remove it\n"))
    | some restore =>
      memcpyToTarget process s.target loc restore 4 >>= fun target =>
        .ok { s with target := target, ip := if s.ip = loc + 1 then loc else s.ip }

/-! ## One operation -/

section
variable {process} {s s' : Debugged H} {loc : UInt64}

def Debugged.written (s : Debugged H) (loc : UInt64) (data : List UInt8) : Target H :=
  { s.target with bytes := s.target.bytes.write loc data }

/-- **What setting a breakpoint does.** -/
theorem setBreakpoint_ok (h : setBreakpoint process s loc = .ok s') :
    ∃ map, mapInsert s.restoreInfo loc (s.target.bytes.read loc 4) = .ok map ∧
      s' = { s with target := s.written loc breakpointCode, breakpointRestoreInfo := some map } := by
  unfold setBreakpoint at h
  obtain ⟨origCode, hread, h⟩ := bind_eq_ok.mp h
  obtain ⟨map, hinsert, h⟩ := bind_eq_ok.mp h
  obtain ⟨-, -, h⟩ := bind_eq_ok.mp h
  obtain ⟨target, hwrite, h⟩ := bind_eq_ok.mp h
  cases h
  refine ⟨map, ?_, ?_⟩
  · rw [← hinsert, memcpyFromTarget_ok hread]
    rfl
  · rw [memcpyToTarget_four (by decide) hwrite]
    rfl

/-- **What removing a breakpoint does.** -/
theorem removeBreakpoint_ok {map : SizeTMap (List UInt8)} {restore : List UInt8} (hmap : s.breakpointRestoreInfo = some map)
    (hget : mapGet map loc = some restore) (hlen : restore.length = 4) (h : removeBreakpoint process s loc = .ok s') :
    s' = { s with target := s.written loc restore, ip := if s.ip = loc + 1 then loc else s.ip } := by
  unfold removeBreakpoint at h
  rw [hmap] at h
  dsimp only at h
  rw [hget] at h
  obtain ⟨target, hwrite, h⟩ := bind_eq_ok.mp h
  cases h
  have htake : restore.take 4 = restore := by
    rw [← hlen, List.take_length]
  rw [memcpyToTarget_four (Nat.le_of_eq hlen.symm) hwrite, htake, hmap]
  rfl

/-- A fresh address fails to be set only where it is not mapped. -/
theorem setBreakpoint_fails {e : Fault} (hfresh : mapGet s.restoreInfo loc = none) (hroom : s.restoreInfo.size + 1 < 2 ^ 31)
    (h : setBreakpoint process s loc = .error e) : e = ptraceFailed := by
  unfold setBreakpoint at h
  rcases bind_eq_error.mp h with h | ⟨origCode, -, h⟩
  · exact memcpyFromTarget_fails (by decide) h
  · obtain ⟨map, hinsert⟩ := mapInsert_total hfresh origCode
    rw [hinsert, bind_ok, defined_of (size_mapInsert hinsert ▸ hroom), bind_ok] at h
    rcases bind_eq_error.mp h with h | ⟨target, -, h⟩
    · exact memcpyToTarget_fails (by decide) (by decide) h
    · cases h

theorem removeBreakpoint_fails {e : Fault} {map : SizeTMap (List UInt8)} {restore : List UInt8}
    (hmap : s.breakpointRestoreInfo = some map) (hget : mapGet map loc = some restore)
    (h : removeBreakpoint process s loc = .error e) : e = ptraceFailed := by
  unfold removeBreakpoint at h
  rw [hmap] at h
  dsimp only at h
  rw [hget] at h
  rcases bind_eq_error.mp h with h | ⟨target, -, h⟩
  · exact memcpyToTarget_fails (by decide) (by decide) h
  · cases h

/-- **A saved address is not set again**: a removal leaves the saved bytes in the map. -/
theorem setBreakpoint_again {origCode : List UInt8} (hsaved : mapGet s.restoreInfo loc ≠ none)
    (hread : memcpyFromTarget process s.target loc 4 = .ok origCode) :
    setBreakpoint process s loc = .error .assertion := by
  have hinsert : mapInsert s.restoreInfo loc origCode = .error .assertion := dif_neg hsaved
  unfold setBreakpoint
  rw [hread, bind_ok, hinsert]
  rfl

end

/-! ## Runs -/

inductive DebugOp where
  | set (loc : UInt64)
  | remove (loc : UInt64)
  /-- The target runs to another instruction. -/
  | continue (ip : UInt64)

def Debugged.step (s : Debugged H) : DebugOp → Except Fault (Debugged H)
  | .set loc => setBreakpoint process s loc
  | .remove loc => removeBreakpoint process s loc
  | .continue ip => .ok { s with ip := ip }

/-- The breakpoints there are, the last one set first. -/
def placedBy (placed : List UInt64) : DebugOp → List UInt64
  | .set loc => loc :: placed
  | .remove loc => placed.erase loc
  | .continue _ => placed

/-- A breakpoint is set where there is none, and removed where there is one. -/
def Permitted (placed : List UInt64) : DebugOp → Prop
  | .set loc => loc ∉ placed
  | .remove loc => loc ∈ placed
  | .continue _ => True

/-- The states of a run from a target without breakpoints. -/
inductive DebugRun (condition : Debugged H → List UInt64 → DebugOp → Prop) (start : Debugged H) :
    Debugged H → List UInt64 → Prop
  | start : start.breakpointRestoreInfo = none → DebugRun condition start start []
  | step {s s' : Debugged H} {placed : List UInt64} {op : DebugOp} : DebugRun condition start s placed →
    Permitted placed op → condition s placed op → s.step process op = .ok s' →
    DebugRun condition start s' (placedBy placed op)

/-- Setting: no saved address is taken for this one. Removing: no later breakpoint overlaps this one. -/
def Restorable (s : Debugged H) (placed : List UInt64) : DebugOp → Prop
  | .set loc => mapGet s.restoreInfo loc = none ∧ s.restoreInfo.size + 1 < 2 ^ 31
  | .remove loc => ∀ later ∈ placed.takeWhile (· ≠ loc), Memory.Apart loc 4 later 4
  | .continue _ => True

/-- The breakpoints with their saved bytes, and the text that is there once they are undone. -/
structure Undoes (text : Memory) (s : Debugged H) (layers : List (UInt64 × List UInt8)) : Prop where
  undone : s.target.bytes.writeAll layers = text
  saved : ∀ b ∈ layers, mapGet s.restoreInfo b.1 = some b.2
  lengths : ∀ b ∈ layers, b.2.length = 4

section
variable {process} {text : Memory} {s s' : Debugged H} {layers : List (UInt64 × List UInt8)} {loc : UInt64}

/-- Where something is saved there is a map. -/
theorem restoreInfo_of_saved (h : mapGet s.restoreInfo loc ≠ none) : s.breakpointRestoreInfo = some s.restoreInfo := by
  unfold Debugged.restoreInfo at h ⊢
  cases hmap : s.breakpointRestoreInfo with
  | some map => rfl
  | none =>
    rw [hmap] at h
    exact absurd rfl h

theorem Undoes.set (hu : Undoes text s layers) (hfresh : mapGet s.restoreInfo loc = none)
    (h : setBreakpoint process s loc = .ok s') : Undoes text s' ((loc, s.target.bytes.read loc 4) :: layers) := by
  obtain ⟨map, hinsert, hs'⟩ := setBreakpoint_ok h
  subst hs'
  refine ⟨?_, ?_, ?_⟩
  · -- the saved bytes back over the code
    have hover : (s.target.bytes.write loc breakpointCode).write loc (s.target.bytes.read loc 4) = s.target.bytes := by
      rw [Memory.write_over _ _ (by simp [breakpointCode]) (by simp), Memory.write_read]
    show ((s.target.bytes.write loc breakpointCode).write loc (s.target.bytes.read loc 4)).writeAll layers = text
    rw [hover]
    exact hu.undone
  · intro b hb
    show mapGet map b.1 = some b.2
    rw [mapGet_insert hinsert]
    rcases List.mem_cons.mp hb with hb | hb
    · rw [hb]
      exact if_pos (.refl _)
    · -- a saved address is not taken for the new one
      rw [if_neg, hu.saved b hb]
      intro hmatch
      have hsame : mapGet s.restoreInfo b.1 = mapGet s.restoreInfo loc := Table.get_congr hmatch
      rw [hu.saved b hb, hfresh] at hsame
      cases hsame
  · intro b hb
    rcases List.mem_cons.mp hb with hb | hb
    · rw [hb, Memory.length_read]
    · exact hu.lengths b hb

/-- A breakpoint that no later one overlaps is undone first. -/
theorem Undoes.remove {later earlier : List (UInt64 × List UInt8)} {restore : List UInt8}
    (hu : Undoes text s (later ++ (loc, restore) :: earlier)) (hapart : ∀ b ∈ later, Memory.Apart loc 4 b.1 4)
    (h : removeBreakpoint process s loc = .ok s') : Undoes text s' (later ++ earlier) := by
  have hmem : (loc, restore) ∈ later ++ (loc, restore) :: earlier := List.mem_append_right _ List.mem_cons_self
  have hsaved : mapGet s.restoreInfo loc = some restore := hu.saved _ hmem
  have hlen : restore.length = 4 := hu.lengths _ hmem
  have hmap := restoreInfo_of_saved (hsaved ▸ Option.some_ne_none _)
  have hs' := removeBreakpoint_ok hmap hsaved hlen h
  subst hs'
  have hsub : ∀ b ∈ later ++ earlier, b ∈ later ++ (loc, restore) :: earlier := by
    intro b hb
    rcases List.mem_append.mp hb with hb | hb
    · exact List.mem_append_left _ hb
    · exact List.mem_append_right _ (List.mem_cons_of_mem _ hb)
  refine ⟨?_, fun b hb => hu.saved b (hsub b hb), fun b hb => hu.lengths b (hsub b hb)⟩
  have hcomm : (s.target.bytes.write loc restore).writeAll later = (s.target.bytes.writeAll later).write loc restore := by
    apply Memory.writeAll_write (by omega)
    intro b hb
    have hb4 := hu.lengths b (List.mem_append_left _ hb)
    rw [hlen, hb4]
    exact ⟨by decide, hapart b hb⟩
  rw [← hu.undone]
  unfold Memory.writeAll at hcomm ⊢
  rw [List.foldl_append, List.foldl_append, List.foldl_cons]
  exact congrArg (fun m => List.foldl _ m earlier) hcomm

/-- The breakpoint that is removed, the later ones and the earlier ones. -/
theorem placed_split (h : loc ∈ layers.map Prod.fst) : ∃ later restore earlier, layers = later ++ (loc, restore) :: earlier ∧
    (layers.map Prod.fst).takeWhile (· ≠ loc) = later.map Prod.fst ∧
    (layers.map Prod.fst).erase loc = (later ++ earlier).map Prod.fst := by
  obtain ⟨before, behind, hsplit, hfirst⟩ := List.eq_append_cons_of_mem h
  obtain ⟨later, rest, hlayers, hbefore, hrest⟩ := List.map_eq_append_iff.mp hsplit
  obtain ⟨b, earlier, hcons, hloc, hbehind⟩ := List.map_eq_cons_iff.mp hrest
  rcases b with ⟨loc', restore⟩
  have hloc' : loc' = loc := hloc
  subst hloc' hcons hlayers hbefore hbehind
  refine ⟨later, restore, earlier, rfl, ?_, ?_⟩
  · have hpos : ∀ a ∈ later.map Prod.fst, decide (a ≠ loc') = true := by
      intro a ha
      exact decide_eq_true fun heq => hfirst (heq ▸ ha)
    rw [hsplit, List.takeWhile_append_of_pos hpos]
    simp
  · rw [hsplit, List.erase_append_right _ hfirst, List.erase_cons_head, List.map_append]

/-- **What one operation preserves.** -/
theorem Undoes.step {op : DebugOp} (hu : Undoes text s layers) (hpermitted : Permitted (layers.map Prod.fst) op)
    (hrestorable : Restorable s (layers.map Prod.fst) op) (h : s.step process op = .ok s') :
    ∃ layers', placedBy (layers.map Prod.fst) op = layers'.map Prod.fst ∧ Undoes text s' layers' := by
  cases op with
  | set loc => exact ⟨_, rfl, hu.set hrestorable.1 h⟩
  | remove loc =>
    obtain ⟨later, restore, earlier, hlayers, hlater, herase⟩ := placed_split hpermitted
    refine ⟨later ++ earlier, herase, ?_⟩
    have hapart : ∀ b ∈ later, Memory.Apart loc 4 b.1 4 := by
      intro b hb
      apply hrestorable
      rw [hlater]
      exact List.mem_map_of_mem hb
    rw [hlayers] at hu
    exact hu.remove hapart h
  | «continue» ip =>
    cases h
    exact ⟨layers, rfl, hu.undone, hu.saved, hu.lengths⟩

/-- **What a run preserves.** -/
theorem DebugRun.undoes {start : Debugged H} {placed : List UInt64} (h : DebugRun process Restorable start s placed) :
    ∃ layers, placed = layers.map Prod.fst ∧ Undoes start.target.bytes s layers := by
  induction h with
  | start =>
    refine ⟨[], rfl, ⟨rfl, ?_, ?_⟩⟩
    · intro b hb
      cases hb
    · intro b hb
      cases hb
  | step _ hpermitted hrestorable hstep ih =>
    obtain ⟨layers, hplaced, hu⟩ := ih
    subst hplaced
    exact hu.step hpermitted hrestorable hstep

/-- No operation but one on an unmapped address fails. -/
theorem Undoes.fails {op : DebugOp} {e : Fault} (hu : Undoes text s layers) (hpermitted : Permitted (layers.map Prod.fst) op)
    (hrestorable : Restorable s (layers.map Prod.fst) op) (h : s.step process op = .error e) : e = ptraceFailed := by
  cases op with
  | set loc => exact setBreakpoint_fails hrestorable.1 hrestorable.2 h
  | remove loc =>
    obtain ⟨later, restore, earlier, hlayers, -, -⟩ := placed_split hpermitted
    have hsaved : mapGet s.restoreInfo loc = some restore := by
      apply hu.saved (loc, restore)
      rw [hlayers]
      exact List.mem_append_right _ List.mem_cons_self
    exact removeBreakpoint_fails (restoreInfo_of_saved (hsaved ▸ Option.some_ne_none _)) hsaved h
  | «continue» ip => cases h

end

/-- Once all breakpoints are removed the text is back, and the next operation that meets the condition fails no assertion. -/
def Restores (process : Process H) (condition : Debugged H → List UInt64 → DebugOp → Prop) (start s : Debugged H)
    (placed : List UInt64) : Prop :=
  (placed = [] → s.target.bytes = start.target.bytes) ∧
  ∀ op, Permitted placed op → condition s placed op → ∀ e, s.step process op = .error e → e = ptraceFailed

/-- **Breakpoints restore the text**, in every run whose operations are restorable. -/
theorem breakpoints_restore {process : Process H} {start s : Debugged H} {placed : List UInt64}
    (h : DebugRun process Restorable start s placed) : Restores process Restorable start s placed := by
  obtain ⟨layers, hplaced, hu⟩ := h.undoes
  subst hplaced
  refine ⟨?_, ?_⟩
  · intro hnone
    have hnil : layers = [] := List.map_eq_nil_iff.mp hnone
    subst hnil
    exact hu.undone
  · intro op hpermitted hrestorable e he
    exact hu.fails hpermitted hrestorable he

/-! ## With every word mapped -/

section
variable {malloc : H → UInt64 → UInt64 × H} {s : Debugged H} {loc : UInt64}

theorem setBreakpoint_total (hfresh : mapGet s.restoreInfo loc = none) (hroom : s.restoreInfo.size + 1 < 2 ^ 31) :
    ∃ s', setBreakpoint (mappedProcess malloc) s loc = .ok s' := by
  obtain ⟨map, hinsert⟩ := mapInsert_total hfresh (s.target.bytes.read loc 4)
  have hwrite : ∃ target, memcpyToTarget (mappedProcess malloc) s.target loc breakpointCode 4 = .ok target :=
    memcpyToTarget_total _ _ _ (by decide) (by decide)
  obtain ⟨target, hwrite⟩ := hwrite
  have hread : memcpyFromTarget (mappedProcess malloc) s.target loc 4 = .ok (s.target.bytes.read loc 4) :=
    memcpyFromTarget_total _ _ (by decide)
  unfold setBreakpoint
  rw [hread, bind_ok, hinsert, bind_ok, defined_of (size_mapInsert hinsert ▸ hroom), bind_ok, hwrite]
  exact ⟨_, rfl⟩

theorem removeBreakpoint_total {map : SizeTMap (List UInt8)} {restore : List UInt8}
    (hmap : s.breakpointRestoreInfo = some map)
    (hget : mapGet map loc = some restore) : ∃ s', removeBreakpoint (mappedProcess malloc) s loc = .ok s' := by
  have hwrite : ∃ target, memcpyToTarget (mappedProcess malloc) s.target loc restore 4 = .ok target :=
    memcpyToTarget_total _ _ _ (by decide) (by decide)
  obtain ⟨target, hwrite⟩ := hwrite
  unfold removeBreakpoint
  rw [hmap]
  dsimp only
  rw [hget]
  dsimp only
  rw [hwrite]
  exact ⟨_, rfl⟩

end

def zeros : Debugged Unit := ⟨zeroTarget, 0, none⟩

/-- A breakpoint is set and removed: the run that both the witness and the failing input start with. -/
theorem set_and_removed (condition : Debugged Unit → List UInt64 → DebugOp → Prop)
    (hset : condition zeros [] (.set 3)) (hremove : ∀ s, condition s [3] (.remove 3)) :
    ∃ s, DebugRun (mappedProcess keptHeap) condition zeros s [] ∧ mapGet s.restoreInfo 3 ≠ none := by
  obtain ⟨s, hs⟩ : ∃ s, setBreakpoint (mappedProcess keptHeap) zeros 3 = .ok s := setBreakpoint_total rfl (by decide)
  have hfresh : Permitted [] (.set 3) := List.not_mem_nil
  have hrun : DebugRun (mappedProcess keptHeap) condition zeros s [3] := .step (.start rfl) hfresh hset hs
  obtain ⟨map, hinsert, hs'⟩ := setBreakpoint_ok hs
  have hget : mapGet map 3 = some (zeros.target.bytes.read 3 4) := by
    rw [mapGet_insert hinsert]
    exact if_pos (.refl _)
  have hmap : s.breakpointRestoreInfo = some map := by
    rw [hs']
  obtain ⟨s', hremoved⟩ : ∃ s', removeBreakpoint (mappedProcess keptHeap) s 3 = .ok s' := removeBreakpoint_total hmap hget
  have hpermitted : Permitted [3] (.remove 3) := List.mem_cons_self
  refine ⟨s', hrun.step hpermitted (hremove s) hremoved, ?_⟩
  have hs'' := removeBreakpoint_ok hmap hget rfl hremoved
  have hsame : s'.restoreInfo = map := by
    rw [hs'']
    unfold Debugged.restoreInfo
    rw [hmap]
    rfl
  rw [hsame, hget]
  exact Option.some_ne_none _

/-- The zeros are back. -/
theorem set_and_removed_restores : ∃ s, DebugRun (mappedProcess keptHeap) Restorable zeros s [] ∧
    s.target.bytes = zeros.target.bytes := by
  have hset : Restorable zeros [] (.set 3) := ⟨rfl, by decide⟩
  have hremove : ∀ s : Debugged Unit, Restorable s [3] (.remove 3) := by
    intro s later hlater
    cases hlater
  obtain ⟨s, hrun, -⟩ := set_and_removed Restorable hset hremove
  exact ⟨s, hrun, (breakpoints_restore hrun).1 rfl⟩

/-- But the breakpoint cannot be set again. -/
theorem not_breakpoints_restore : ¬ ∀ (process : Process Unit) (start s : Debugged Unit) (placed : List UInt64),
    DebugRun process (fun _ _ _ => True) start s placed → Restores process (fun _ _ _ => True) start s placed := by
  intro h
  obtain ⟨s, hrun, hsaved⟩ := set_and_removed (fun _ _ _ => True) trivial fun _ => trivial
  have hread : memcpyFromTarget (mappedProcess keptHeap) s.target 3 4 = .ok (s.target.bytes.read 3 4) :=
    memcpyFromTarget_total _ _ (by decide)
  have hfault := (h _ _ _ _ hrun).2 (.set 3) List.not_mem_nil trivial _ (setBreakpoint_again hsaved hread)
  cases hfault

end Katana

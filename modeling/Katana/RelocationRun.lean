/-
  Katana.RelocationRun — a list of relocations applied to the target (applyRelocations of relocation.c, and the loop of
  patcher/patchapply.c over the relocations of `.rela.text.new`).

  Each relocation stores a word or half of one. Where a word is stored for a type of 32 bits, the next four bytes are
  stored too, and with them the field of a relocation that stands there.

  Proved, for every target whose memory is mapped and every list of relocations:
  - `applyRelocations_ok` / `applyRelocations_ends`: what the run stores, and when it comes to its end.
  - `relocationsApplied_iff`: every relocation's value is in its place, and nothing else is changed, exactly when each can be
    computed and any two agree where they overlap.
-/
import Katana.Relocation
import Katana.Lib.Standing

namespace Katana

open Lib

/-- A relocation with what is read for it: its symbol, the symbol's entry in the PLT, and the section it is in. -/
structure RelocItem (arch : Arch) where
  rel : RelocInfo arch
  sym : ElfSym
  plt : Option arch.Addr
  scn : RelocScn

variable {arch : Arch} {H : Type}

/-- With `IN_MEM`, as everywhere in the patcher. -/
def applyRelocations (process : Process H) (t : Target H) (items : List (RelocItem arch)) : Except Fault (Target H) :=
  items.foldlM (fun t item => do
    let (_, t) ← applyRelocation process item.rel item.sym item.plt item.scn t .inMem
    .ok t) t

namespace RelocItem

def value (item : RelocItem arch) : Except Fault (arch.Addr × Nat) := relocatedValue item.rel item.sym item.plt

def stored (item : RelocItem arch) : Option ByteRun :=
  if item.scn.alloc then
    match item.value with
    | .ok (value, n) => some (UInt64.ofNat item.rel.rOffset.toNat, storedBytes value n)
    | .error _ => none
  else none

def Computable (item : RelocItem arch) : Prop := item.scn.alloc = true → ∃ v, item.value = .ok v

end RelocItem

def storedRuns (items : List (RelocItem arch)) : List ByteRun := items.filterMap RelocItem.stored

/-- Every relocation's value is in its place, and nothing else in the target is changed. -/
structure RelocationsApplied (items : List (RelocItem arch)) (t t' : Target H) : Prop where
  placed : ∀ item ∈ items, item.scn.alloc = true → ∀ value n, item.value = .ok (value, n) →
    t'.bytes.read (UInt64.ofNat item.rel.rOffset.toNat) n = storedBytes value n
  others : ∀ x, (∀ r ∈ storedRuns items, ¬ r.Covers x) → t'.bytes x = t.bytes x
  rest : t' = { t with bytes := t'.bytes }

/-! ## One relocation -/

section
variable {malloc : H → UInt64 → UInt64 × H} {t t' : Target H} {item : RelocItem arch} {items : List (RelocItem arch)}

theorem RelocItem.value_width {value : arch.Addr} {n : Nat} (h : item.value = .ok (value, n)) : n = 4 ∨ n = arch.size := by
  unfold RelocItem.value at h
  obtain ⟨rel, sym, plt, scn⟩ := item
  cases arch with
  | x86 => exact .inl (relocatedValue_x86 h)
  | x86_64 =>
    rw [relocatedValue_x86_64 h]
    split
    · exact .inl rfl
    · exact .inr rfl

theorem RelocItem.stored_eq_some {r : ByteRun} : item.stored = some r ↔ item.scn.alloc = true ∧
    ∃ value n, item.value = .ok (value, n) ∧ r = (UInt64.ofNat item.rel.rOffset.toNat, storedBytes value n) := by
  unfold RelocItem.stored
  by_cases halloc : item.scn.alloc = true
  · rw [if_pos halloc]
    cases hvalue : item.value with
    | error e => simp
    | ok v =>
      obtain ⟨value, n⟩ := v
      constructor
      · intro h
        cases h
        exact ⟨halloc, value, n, rfl, rfl⟩
      · rintro ⟨-, value', n', heq, rfl⟩
        cases heq
        rfl
  · simp [halloc]

/-- What is stored is no longer than a word. -/
theorem RelocItem.length_stored {r : ByteRun} (h : item.stored = some r) : r.2.length ≤ 2 ^ 64 := by
  obtain ⟨-, value, n, hvalue, rfl⟩ := RelocItem.stored_eq_some.mp h
  have hn := RelocItem.value_width hvalue
  rw [length_storedBytes hn]
  exact (bytesInAddr_le hn).trans (by cases arch <;> decide)

/-- A relocation comes to its end exactly if its value can be computed; then it is stored. -/
theorem applyRelocation_run (malloc : H → UInt64 → UInt64 × H) (t : Target H) (item : RelocItem arch) :
    (item.Computable ∧
      applyRelocation (mappedProcess malloc) item.rel item.sym item.plt item.scn t .inMem =
        .ok (item.scn.data, { t with bytes := t.bytes.writeAll item.stored.toList })) ∨
    (¬ item.Computable ∧
      ∃ e, applyRelocation (mappedProcess malloc) item.rel item.sym item.plt item.scn t .inMem = .error e) := by
  by_cases halloc : item.scn.alloc = true
  · have hstored : ¬ (StorageType.inMem = .inMem ∧ item.scn.alloc = false) := by simp [halloc]
    cases hvalue : item.value with
    | error e =>
      refine .inr ⟨fun h => ?_, e, applyRelocation_fails hstored hvalue⟩
      obtain ⟨v, hv⟩ := h halloc
      rw [hvalue] at hv
      cases hv
    | ok v =>
      obtain ⟨value, n⟩ := v
      refine .inl ⟨fun _ => ⟨_, hvalue⟩, ?_⟩
      rw [applyRelocation_eq (RelocItem.value_width hvalue) hvalue hstored,
        RelocItem.stored_eq_some.mpr ⟨halloc, value, n, hvalue, rfl⟩, halloc]
      rfl
  · rw [Bool.not_eq_true] at halloc
    refine .inl ⟨fun h => ?_, ?_⟩
    · rw [halloc] at h
      cases h
    · have hnone : item.stored = none := by
        unfold RelocItem.stored
        rw [halloc]
        rfl
      rw [applyRelocation_early ⟨rfl, halloc⟩, hnone]
      rfl

/-! ## A list of them -/

theorem storedRuns_cons : storedRuns (item :: items) = item.stored.toList ++ storedRuns items := by
  unfold storedRuns
  cases h : item.stored with
  | none => rw [List.filterMap_cons_none h, Option.toList_none, List.nil_append]
  | some r => rw [List.filterMap_cons_some h, Option.toList_some, List.singleton_append]

theorem applyRelocations_ok (h : applyRelocations (mappedProcess malloc) t items = .ok t') :
    t' = { t with bytes := t.bytes.writeAll (storedRuns items) } := by
  induction items generalizing t with
  | nil =>
    cases h
    rfl
  | cons item items ih =>
    unfold applyRelocations at ih h
    rw [List.foldlM_cons] at h
    obtain ⟨t1, hstep, h⟩ := bind_eq_ok.mp h
    rcases applyRelocation_run malloc t item with ⟨-, hrun⟩ | ⟨-, e, hrun⟩
    · rw [hrun, bind_ok] at hstep
      cases hstep
      rw [ih h, storedRuns_cons, Memory.writeAll, Memory.writeAll, Memory.writeAll, List.foldl_append]
    · rw [hrun] at hstep
      cases hstep

theorem applyRelocations_ends :
    (∃ t', applyRelocations (mappedProcess malloc) t items = .ok t') ↔ ∀ item ∈ items, item.Computable := by
  induction items generalizing t with
  | nil => exact ⟨fun _ => by simp, fun _ => ⟨t, rfl⟩⟩
  | cons item items ih =>
    unfold applyRelocations at ih ⊢
    rw [List.foldlM_cons, List.forall_mem_cons]
    refine bind_ends ?_ fun t1 _ => ih
    rcases applyRelocation_run malloc t item with ⟨hcomp, hrun⟩ | ⟨hcomp, e, hrun⟩
    · rw [hrun, bind_ok]
      exact ⟨fun _ => hcomp, fun _ => ⟨_, rfl⟩⟩
    · rw [hrun]
      exact ⟨fun ⟨_, h⟩ => (by cases h), fun h => absurd h hcomp⟩

end

/-- **Every relocation of a list is in its place, and nothing else is changed, exactly when each can be computed and any two
agree where they overlap.** -/
theorem relocationsApplied_iff (malloc : H → UInt64 → UInt64 × H) (t : Target H) (items : List (RelocItem arch)) :
    (∃ t', applyRelocations (mappedProcess malloc) t items = .ok t' ∧ RelocationsApplied items t t') ↔
      (∀ item ∈ items, item.Computable) ∧ ∀ r ∈ storedRuns items, ∀ r' ∈ storedRuns items, r.Agree r' := by
  have hlen : ∀ r ∈ storedRuns items, r.2.length ≤ 2 ^ 64 := by
    intro r hr
    obtain ⟨item, -, hstored⟩ := List.mem_filterMap.mp hr
    exact RelocItem.length_stored hstored
  have hstands := ByteRun.stands_writeAll_iff (m := t.bytes) hlen
  constructor
  · rintro ⟨t', hrun, happlied⟩
    refine ⟨applyRelocations_ends.mp ⟨t', hrun⟩, hstands.mp fun r hr => ?_⟩
    obtain ⟨item, hitem, hstored⟩ := List.mem_filterMap.mp hr
    obtain ⟨halloc, value, n, hvalue, rfl⟩ := RelocItem.stored_eq_some.mp hstored
    have hplaced := happlied.placed item hitem halloc value n hvalue
    rw [applyRelocations_ok hrun] at hplaced
    unfold ByteRun.Stands
    rw [length_storedBytes (RelocItem.value_width hvalue)]
    exact hplaced
  · rintro ⟨hcomp, hagree⟩
    obtain ⟨t', hrun⟩ := applyRelocations_ends.mpr hcomp
    have hwhole := hstands.mpr hagree
    refine ⟨t', hrun, ?_⟩
    rw [applyRelocations_ok hrun]
    exact {
      placed := fun item hitem halloc value n hvalue => by
        have hstored := RelocItem.stored_eq_some.mpr ⟨halloc, value, n, hvalue, rfl⟩
        have hin := hwhole _ (List.mem_filterMap.mpr ⟨item, hitem, hstored⟩)
        unfold ByteRun.Stands at hin
        rw [length_storedBytes (RelocItem.value_width hvalue)] at hin
        exact hin
      others := fun x hx => ByteRun.writeAll_outside hlen hx
      rest := rfl }

end Katana

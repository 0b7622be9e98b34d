/-
  Katana.Lib.Standing — runs of bytes written one after the other that are all to stand at the end.

  Proved, for every memory and list of runs:
  - `stands_writeAll`: written over others that they agree with, all stand.
  - `stands_writeAll_iff`: all of them stand exactly when any two agree where they overlap.
  - `agree_of_pairwise_apart`: runs that are apart agree.
  - `writeAll_outside`: next to them nothing is written.
-/
import Katana.Lib.Memory
import Mathlib.Data.List.Pairwise

namespace Katana.Lib

/-- A run: its address and its bytes. -/
abbrev ByteRun := UInt64 × List UInt8

namespace ByteRun

def Covers (r : ByteRun) (x : UInt64) : Prop := ∃ i < r.2.length, x = r.1 + UInt64.ofNat i

def Stands (m : Memory) (r : ByteRun) : Prop := m.read r.1 r.2.length = r.2

/-- Two runs with the same byte wherever they overlap. -/
def Agree (r s : ByteRun) : Prop := ∀ i < r.2.length, ∀ j < s.2.length, r.1 + UInt64.ofNat i = s.1 + UInt64.ofNat j →
  r.2[i]? = s.2[j]?

variable {m : Memory} {r s : ByteRun} {runs : List ByteRun}

theorem stands_iff : Stands m r ↔ ∀ i < r.2.length, r.2[i]? = some (m (r.1 + UInt64.ofNat i)) := by
  unfold Stands
  constructor
  · intro h i hi
    rw [← Memory.getElem?_read m r.1 r.2.length i hi, h]
  · intro h
    apply List.ext_getElem?
    intro i
    by_cases hi : i < r.2.length
    · rw [Memory.getElem?_read _ _ _ _ hi, h i hi]
    · rw [List.getElem?_eq_none (by rw [Memory.length_read]; omega), List.getElem?_eq_none (by omega)]

/-- Runs that stand in one memory agree. -/
theorem Stands.agree (hr : Stands m r) (hs : Stands m s) : Agree r s := by
  intro i hi j hj heq
  rw [stands_iff.mp hr i hi, stands_iff.mp hs j hj, heq]

/-- Runs that are apart agree. -/
theorem agree_of_apart (h : Memory.Apart r.1 r.2.length s.1 s.2.length) : Agree r s :=
  fun i hi j hj heq => absurd heq (h i hi j hj)

instance : Std.Symm Agree := ⟨fun _ _ h i hi j hj heq => (h j hj i hi heq.symm).symm⟩

theorem agree_refl (h : r.2.length ≤ 2 ^ 64) : Agree r r := by
  intro i hi j hj heq
  have hij : UInt64.ofNat i = UInt64.ofNat j := by
    rw [← UInt64.add_sub_cancel (UInt64.ofNat i) r.1, UInt64.add_comm, heq, UInt64.add_comm, UInt64.add_sub_cancel]
  have hnat : i = j := by
    rw [← UInt64.toNat_ofNat_of_lt' (show i < 2 ^ 64 by omega), ← UInt64.toNat_ofNat_of_lt' (show j < 2 ^ 64 by omega), hij]
  rw [hnat]

theorem agree_of_pairwise_apart (hlen : ∀ r ∈ runs, r.2.length ≤ 2 ^ 64)
    (h : runs.Pairwise fun r s => Memory.Apart r.1 r.2.length s.1 s.2.length) : ∀ r ∈ runs, ∀ s ∈ runs, Agree r s :=
  fun _ hr _ hs => (h.imp agree_of_apart).forall_of_forall (fun r hr => agree_refl (hlen r hr)) hr hs

/-- A run that stands still stands after one that agrees with it. -/
theorem Stands.write (hr : Stands m r) (hlen : s.2.length ≤ 2 ^ 64) (h : Agree r s) : Stands (m.write s.1 s.2) r := by
  rw [stands_iff] at hr ⊢
  intro i hi
  by_cases hin : ∃ j < s.2.length, r.1 + UInt64.ofNat i = s.1 + UInt64.ofNat j
  · obtain ⟨j, hj, heq⟩ := hin
    rw [h i hi j hj heq, heq, Memory.write_inside m s.1 hlen (List.getElem?_eq_getElem hj), List.getElem?_eq_getElem hj]
  · rw [Memory.write_outside m s.1 hlen fun j hj heq => hin ⟨j, hj, heq⟩]
    exact hr i hi

/-- Runs that stand still stand after others, which then stand too, if all agree. -/
theorem stands_writeAll {done : List ByteRun} (hlen : ∀ r ∈ runs, r.2.length ≤ 2 ^ 64) (hdone : ∀ r ∈ done, Stands m r)
    (h : ∀ r ∈ done ++ runs, ∀ s ∈ done ++ runs, Agree r s) : ∀ r ∈ done ++ runs, Stands (m.writeAll runs) r := by
  induction runs generalizing m done with
  | nil =>
    rw [List.append_nil]
    exact hdone
  | cons s runs ih =>
    rw [List.append_cons] at h ⊢
    refine ih (fun r hr => hlen r (List.mem_cons_of_mem _ hr)) (fun r hr => ?_) h
    have hs : s.2.length ≤ 2 ^ 64 := hlen s List.mem_cons_self
    rcases List.mem_append.mp hr with hr | hr
    · exact (hdone r hr).write hs (h r (by simp [hr]) s (by simp))
    · rw [List.mem_singleton.mp hr]
      exact Memory.read_write m s.1 hs

/-- **Runs that are written one after the other all stand exactly when any two agree.** -/
theorem stands_writeAll_iff (hlen : ∀ r ∈ runs, r.2.length ≤ 2 ^ 64) :
    (∀ r ∈ runs, Stands (m.writeAll runs) r) ↔ ∀ r ∈ runs, ∀ s ∈ runs, Agree r s :=
  ⟨fun h r hr s hs => (h r hr).agree (h s hs), fun h => stands_writeAll hlen (List.forall_mem_nil _) h⟩

/-- Next to the runs nothing is written. -/
theorem writeAll_outside (hlen : ∀ r ∈ runs, r.2.length ≤ 2 ^ 64) {x : UInt64} (h : ∀ r ∈ runs, ¬ Covers r x) :
    m.writeAll runs x = m x := by
  induction runs generalizing m with
  | nil => rfl
  | cons r runs ih =>
    have hout : m.write r.1 r.2 x = m x :=
      Memory.write_outside m r.1 (hlen r List.mem_cons_self) fun i hi heq => h r List.mem_cons_self ⟨i, hi, heq⟩
    rw [← hout]
    exact ih (fun s hs => hlen s (List.mem_cons_of_mem _ hs)) fun s hs => h s (List.mem_cons_of_mem _ hs)

end ByteRun

end Katana.Lib

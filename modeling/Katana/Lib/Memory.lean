/-
  Katana.Lib.Memory — byte memories that are read and written in runs of bytes.

  Addresses are words and wrap around; a run is read and written byte by byte from its first address.

  Proved, for every memory, address and run:
  - `read_append` / `write_append`: a run is read and written in pieces.
  - `write_read`: writing back what is there changes nothing.
  - `write_around`: a run written together with its unchanged surroundings is the run written alone.
  - `write_apply`: what is at each address afterwards, `read_write`: what was written is read.
  - `write_over` / `writeAll_write`: a run written again, and one written before others that are apart from it.
-/
import Mathlib.Data.List.Basic
import Mathlib.Logic.Function.Basic
import Mathlib.Tactic.Ring

namespace Katana.Lib

/-- The byte at each address. -/
abbrev Memory := UInt64 → UInt8

namespace Memory

def read (m : Memory) : UInt64 → Nat → List UInt8
  | _, 0 => []
  | a, n + 1 => m a :: read m (a + 1) n

def write (m : Memory) (a : UInt64) : List UInt8 → Memory
  | [] => m
  | b :: data => write (Function.update m a b) (a + 1) data

/-- One run after the other, in the order of the list. -/
def writeAll (m : Memory) (runs : List (UInt64 × List UInt8)) : Memory := runs.foldl (fun m r => m.write r.1 r.2) m

variable (m : Memory) (a : UInt64)

theorem step_address (n : Nat) : a + 1 + UInt64.ofNat n = a + UInt64.ofNat (n + 1) := by
  rw [UInt64.add_assoc]
  congr 1
  rw [UInt64.add_comm]
  exact (UInt64.ofNat_add n 1).symm

@[simp] theorem length_read (n : Nat) : (m.read a n).length = n := by
  induction n generalizing a with
  | zero => rfl
  | succ n ih => simp [read, ih]

theorem read_append (n k : Nat) : m.read a (n + k) = m.read a n ++ m.read (a + UInt64.ofNat n) k := by
  induction n generalizing a with
  | zero => simp [read]
  | succ n ih =>
    rw [Nat.succ_add, read, read, ih, step_address]
    rfl

theorem read_take (n k : Nat) (h : k ≤ n) : (m.read a n).take k = m.read a k := by
  obtain ⟨j, rfl⟩ := Nat.exists_eq_add_of_le h
  rw [read_append, List.take_append_of_le_length (by simp), List.take_of_length_le (by simp)]

theorem read_drop (n k : Nat) (h : k ≤ n) : (m.read a n).drop k = m.read (a + UInt64.ofNat k) (n - k) := by
  obtain ⟨j, rfl⟩ := Nat.exists_eq_add_of_le h
  rw [read_append, List.drop_append_of_le_length (by simp), List.drop_of_length_le (by simp), List.nil_append,
    Nat.add_sub_cancel_left]

theorem write_append (data rest : List UInt8) :
    m.write a (data ++ rest) = (m.write a data).write (a + UInt64.ofNat data.length) rest := by
  induction data generalizing m a with
  | nil => simp [write]
  | cons b data ih =>
    rw [List.cons_append, write, write, ih, step_address]
    rfl

/-- Writing back what is there changes nothing. -/
theorem write_read (n : Nat) : m.write a (m.read a n) = m := by
  induction n generalizing a with
  | zero => rfl
  | succ n ih =>
    rw [read, write, Function.update_eq_self]
    exact ih (a + 1)

/-- What is at an address after a write. -/
theorem write_apply (data : List UInt8) (hlen : data.length ≤ 2 ^ 64) (x : UInt64) :
    m.write a data x = (data[(x - a).toNat]?).getD (m x) := by
  induction data generalizing m a with
  | nil => rfl
  | cons b data ih =>
    have hlt : data.length < 2 ^ 64 := by
      rw [List.length_cons] at hlen
      omega
    rw [write, ih _ _ (by omega)]
    by_cases hx : x = a
    · subst hx
      have hback : (x - (x + 1)).toNat = 2 ^ 64 - 1 := by
        rw [UInt64.toNat_sub, UInt64.toNat_add]
        have := x.toNat_lt
        simp only [UInt64.toNat_one]
        omega
      rw [hback, List.getElem?_eq_none (by omega)]
      simp
    · have hnext : (x - a).toNat = (x - (a + 1)).toNat + 1 := by
        have hne : x.toNat ≠ a.toNat := fun h => hx (UInt64.toNat_inj.mp h)
        have hltx := x.toNat_lt
        have hlta := a.toNat_lt
        rw [UInt64.toNat_sub, UInt64.toNat_sub, UInt64.toNat_add]
        simp only [UInt64.toNat_one]
        omega
      rw [hnext, List.getElem?_cons_succ, Function.update_of_ne hx]

/-- A write is not seen behind its end. -/
theorem read_after_write (data : List UInt8) (k : Nat) (h : data.length + k ≤ 2 ^ 64) :
    (m.write a data).read (a + UInt64.ofNat data.length) k = m.read (a + UInt64.ofNat data.length) k := by
  have hbyte : ∀ j, data.length ≤ j → j < 2 ^ 64 → m.write a data (a + UInt64.ofNat j) = m (a + UInt64.ofNat j) := by
    intro j hj hlt
    have hsub : a + UInt64.ofNat j - a = UInt64.ofNat j := by
      rw [UInt64.add_comm, UInt64.add_sub_cancel]
    rw [write_apply _ _ _ (by omega), hsub, UInt64.toNat_ofNat_of_lt' hlt, List.getElem?_eq_none hj]
    rfl
  have hrun : ∀ k j, data.length ≤ j → j + k ≤ 2 ^ 64 →
      (m.write a data).read (a + UInt64.ofNat j) k = m.read (a + UInt64.ofNat j) k := by
    intro k
    induction k with
    | zero => intro j _ _; rfl
    | succ k ih =>
      intro j hj hle
      have hnext : a + UInt64.ofNat j + 1 = a + UInt64.ofNat (j + 1) := by
        rw [UInt64.add_assoc]
        congr 1
        exact (UInt64.ofNat_add j 1).symm
      rw [read, read, hbyte j hj (by omega), hnext, ih (j + 1) (by omega) (by omega)]
  exact hrun k data.length (Nat.le_refl _) h

/-- A run written together with what stands behind it. -/
theorem write_before (data : List UInt8) (k : Nat) (h : data.length + k ≤ 2 ^ 64) :
    m.write a (data ++ m.read (a + UInt64.ofNat data.length) k) = m.write a data := by
  rw [write_append, ← read_after_write m a data k h, write_read]

/-- A run written together with what stands before and behind it. -/
theorem write_around (i : Nat) (data : List UInt8) (k : Nat) (h : data.length + k ≤ 2 ^ 64) :
    m.write a (m.read a i ++ data ++ m.read (a + UInt64.ofNat i + UInt64.ofNat data.length) k) =
      m.write (a + UInt64.ofNat i) data := by
  rw [List.append_assoc, write_append, write_read, length_read, write_before _ _ _ _ h]

theorem getElem?_read (n i : Nat) (h : i < n) : (m.read a n)[i]? = some (m (a + UInt64.ofNat i)) := by
  induction n generalizing a i with
  | zero => omega
  | succ n ih =>
    cases i with
    | zero => simp [read]
    | succ i =>
      rw [read, List.getElem?_cons_succ, ih _ _ (by omega), step_address]

/-- Memories that agree on a run. -/
theorem read_congr {m m' : Memory} {a : UInt64} {n : Nat} (h : ∀ i < n, m' (a + UInt64.ofNat i) = m (a + UInt64.ofNat i)) :
    m'.read a n = m.read a n := by
  apply List.ext_getElem?
  intro i
  by_cases hi : i < n
  · rw [getElem?_read _ _ _ _ hi, getElem?_read _ _ _ _ hi, h i hi]
  · rw [List.getElem?_eq_none (by simp; omega), List.getElem?_eq_none (by simp; omega)]

/-- A write is seen at its bytes. -/
theorem write_inside {data : List UInt8} (h : data.length ≤ 2 ^ 64) {i : Nat} {b : UInt8} (hi : data[i]? = some b) :
    m.write a data (a + UInt64.ofNat i) = b := by
  have hlt := (List.getElem?_eq_some_iff.mp hi).1
  have hsub : a + UInt64.ofNat i - a = UInt64.ofNat i := by
    rw [UInt64.add_comm, UInt64.add_sub_cancel]
  rw [write_apply _ _ _ h, hsub, UInt64.toNat_ofNat_of_lt' (by omega : i < 2 ^ 64), hi]
  rfl

/-- And not next to them. -/
theorem write_outside {data : List UInt8} (h : data.length ≤ 2 ^ 64) {x : UInt64}
    (hx : ∀ i < data.length, x ≠ a + UInt64.ofNat i) : m.write a data x = m x := by
  have hout : data.length ≤ (x - a).toNat := by
    apply Nat.le_of_not_lt
    intro hlt
    apply hx _ hlt
    rw [UInt64.ofNat_toNat, UInt64.add_comm, UInt64.sub_add_cancel]
  rw [write_apply _ _ _ h, List.getElem?_eq_none hout]
  rfl

theorem read_write {data : List UInt8} (h : data.length ≤ 2 ^ 64) : (m.write a data).read a data.length = data := by
  apply List.ext_getElem?
  intro i
  by_cases hi : i < data.length
  · rw [getElem?_read _ _ _ _ hi, write_inside m a h (List.getElem?_eq_getElem hi), List.getElem?_eq_getElem hi]
  · rw [List.getElem?_eq_none (by simp; omega), List.getElem?_eq_none (by omega)]

/-- A run written over another of its length. -/
theorem write_over {data data' : List UInt8} (hlen : data.length = data'.length) (h : data'.length ≤ 2 ^ 64) :
    (m.write a data).write a data' = m.write a data' := by
  funext x
  have h' : data.length ≤ 2 ^ 64 := by omega
  rw [write_apply _ _ _ h, write_apply _ _ _ h, write_apply _ _ _ h']
  by_cases hx : (x - a).toNat < data'.length
  · rw [List.getElem?_eq_getElem hx]
    rfl
  · rw [List.getElem?_eq_none (by omega), List.getElem?_eq_none (by omega)]
    rfl

/-- Runs of `n` bytes at `a` and of `k` bytes at `b` that have no address in common. -/
def Apart (a : UInt64) (n : Nat) (b : UInt64) (k : Nat) : Prop :=
  ∀ i < n, ∀ j < k, a + UInt64.ofNat i ≠ b + UInt64.ofNat j

variable {m a}

theorem write_comm {b : UInt64} {data data' : List UInt8} (hlen : data.length ≤ 2 ^ 64) (hlen' : data'.length ≤ 2 ^ 64)
    (h : Apart a data.length b data'.length) : (m.write a data).write b data' = (m.write b data').write a data := by
  funext x
  by_cases ha : ∃ i < data.length, x = a + UInt64.ofNat i
  · obtain ⟨i, hi, hx⟩ := ha
    subst hx
    rw [write_outside _ _ hlen' fun j hj => h i hi j hj, write_inside _ _ hlen (List.getElem?_eq_getElem hi),
      write_inside _ _ hlen (List.getElem?_eq_getElem hi)]
  · have hout : ∀ i < data.length, x ≠ a + UInt64.ofNat i := fun i hi hx => ha ⟨i, hi, hx⟩
    rw [write_outside _ _ hlen hout]
    by_cases hb : ∃ j < data'.length, x = b + UInt64.ofNat j
    · obtain ⟨j, hj, hx⟩ := hb
      subst hx
      rw [write_inside _ _ hlen' (List.getElem?_eq_getElem hj), write_inside _ _ hlen' (List.getElem?_eq_getElem hj)]
    · have hout' : ∀ j < data'.length, x ≠ b + UInt64.ofNat j := fun j hj hx => hb ⟨j, hj, hx⟩
      rw [write_outside _ _ hlen' hout', write_outside _ _ hlen' hout', write_outside _ _ hlen hout]

/-- A run written before others that are apart from it is written after them. -/
theorem writeAll_write {data : List UInt8} {runs : List (UInt64 × List UInt8)} (hlen : data.length ≤ 2 ^ 64)
    (h : ∀ r ∈ runs, r.2.length ≤ 2 ^ 64 ∧ Apart a data.length r.1 r.2.length) :
    (m.write a data).writeAll runs = (m.writeAll runs).write a data := by
  induction runs generalizing m with
  | nil => rfl
  | cons r runs ih =>
    obtain ⟨hr, hapart⟩ := h r List.mem_cons_self
    unfold writeAll at ih ⊢
    rw [List.foldl_cons, List.foldl_cons, write_comm hlen hr hapart]
    exact ih fun r' hr' => h r' (List.mem_cons_of_mem _ hr')

end Memory

end Katana.Lib

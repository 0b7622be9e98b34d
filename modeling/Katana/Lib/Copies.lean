/-
  Katana.Lib.Copies — runs of bytes that are all copied at once: what is written is read before anything is.

  The copies may overlap, in where they read and in where they write. They are written in the order of a list, so
  the last one that reaches an address decides.

  Proved, for every memory and list of copies:
  - `writeAll_copies`: each byte afterwards is the one that was at its source before.
  - `sourceOf_eq` / `sourceOf_none`: the source where all copies that reach the byte agree on it, and the byte itself
    where none reaches it.
  - `forall_byte_eq`: two addresses hold the same byte in every memory only if they are one.
-/
import Katana.Lib.Memory
import Mathlib.Data.List.Induction

namespace Katana.Lib

structure Copy where
  dest : UInt64
  src : UInt64
  len : Nat
  deriving DecidableEq, Repr

namespace Copy

/-- The address is among those that are written. -/
def Reaches (c : Copy) (x : UInt64) : Prop := (x - c.dest).toNat < c.len

instance (c : Copy) (x : UInt64) : Decidable (c.Reaches x) := inferInstanceAs (Decidable (_ < _))

def origin (c : Copy) (x : UInt64) : UInt64 := c.src + (x - c.dest)

theorem reaches_iff {c : Copy} (hlen : c.len ≤ 2 ^ 64) {x : UInt64} :
    c.Reaches x ↔ ∃ i < c.len, x = c.dest + UInt64.ofNat i := by
  constructor
  · intro h
    refine ⟨(x - c.dest).toNat, h, ?_⟩
    rw [UInt64.ofNat_toNat, UInt64.add_comm, UInt64.sub_add_cancel]
  · rintro ⟨i, hi, rfl⟩
    unfold Reaches
    rw [UInt64.add_comm, UInt64.add_sub_cancel, UInt64.toNat_ofNat_of_lt' (show i < 2 ^ 64 by omega)]
    exact hi

theorem origin_add (c : Copy) (i : Nat) : c.origin (c.dest + UInt64.ofNat i) = c.src + UInt64.ofNat i := by
  unfold origin
  rw [UInt64.add_comm c.dest, UInt64.add_sub_cancel]

end Copy

/-- Where the byte that is at an address afterwards was before. -/
def sourceOf (copies : List Copy) (x : UInt64) : UInt64 :=
  copies.foldl (fun source c => if c.Reaches x then c.origin x else source) x

@[simp] theorem sourceOf_nil (x : UInt64) : sourceOf [] x = x := rfl

theorem sourceOf_snoc (copies : List Copy) (c : Copy) (x : UInt64) :
    sourceOf (copies ++ [c]) x = if c.Reaches x then c.origin x else sourceOf copies x := by
  unfold sourceOf
  rw [List.foldl_append]
  rfl

/-- None reaches the byte. -/
theorem sourceOf_none {copies : List Copy} {x : UInt64} (h : ∀ c ∈ copies, ¬ c.Reaches x) : sourceOf copies x = x := by
  induction copies using List.reverseRecOn with
  | nil => rfl
  | append_singleton copies c ih =>
    rw [sourceOf_snoc, if_neg (h c (by simp))]
    exact ih fun c' hc' => h c' (by simp [hc'])

/-- Those that reach the byte agree where it comes from. -/
theorem sourceOf_eq {copies : List Copy} {x y : UInt64} (hreach : ∃ c ∈ copies, c.Reaches x)
    (hall : ∀ c ∈ copies, c.Reaches x → c.origin x = y) : sourceOf copies x = y := by
  induction copies using List.reverseRecOn with
  | nil =>
    obtain ⟨c, hc, -⟩ := hreach
    cases hc
  | append_singleton copies c ih =>
    rw [sourceOf_snoc]
    by_cases hc : c.Reaches x
    · rw [if_pos hc]
      exact hall c (by simp) hc
    · rw [if_neg hc]
      refine ih ?_ fun c' hc' => hall c' (by simp [hc'])
      obtain ⟨c', hc', hreaches⟩ := hreach
      rcases List.mem_append.mp hc' with hc' | hc'
      · exact ⟨c', hc', hreaches⟩
      · rw [List.mem_singleton.mp hc'] at hreaches
        exact absurd hreaches hc

def runsOf (m : Memory) (copies : List Copy) : List (UInt64 × List UInt8) :=
  copies.map fun c => (c.dest, m.read c.src c.len)

/-- **Each byte is the one that was at its source.** -/
theorem writeAll_copies {copies : List Copy} (hlen : ∀ c ∈ copies, c.len ≤ 2 ^ 64) (m : Memory) :
    m.writeAll (runsOf m copies) = fun x => m (sourceOf copies x) := by
  funext x
  induction copies using List.reverseRecOn with
  | nil => rfl
  | append_singleton copies c ih =>
    have hwrite : m.writeAll (runsOf m (copies ++ [c])) =
        (m.writeAll (runsOf m copies)).write c.dest (m.read c.src c.len) := by
      unfold Memory.writeAll runsOf
      rw [List.map_append, List.foldl_append]
      rfl
    have hc := hlen c (by simp)
    rw [hwrite, sourceOf_snoc, Memory.write_apply _ _ _ (by simpa using hc)]
    by_cases hreaches : c.Reaches x
    · rw [if_pos hreaches, Memory.getElem?_read _ _ _ _ hreaches, UInt64.ofNat_toNat]
      rfl
    · rw [if_neg hreaches, List.getElem?_eq_none (by simpa using Nat.le_of_not_lt hreaches)]
      exact ih fun c' hc' => hlen c' (by simp [hc'])

/-- Two addresses that hold the same byte in every memory. -/
theorem forall_byte_eq {x y : UInt64} : (∀ m : Memory, m x = m y) ↔ x = y := by
  constructor
  · intro h
    by_contra hne
    have hbyte := h fun z => if z = x then 1 else 0
    simp [Ne.symm hne] at hbyte
  · rintro rfl m
    rfl

end Katana.Lib

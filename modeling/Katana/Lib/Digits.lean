/-
  Katana.Lib.Digits — little-endian digit strings of a fixed length, over any base, and the byte
  strings of machine words.

  `fixed b k n` is the `k` lowest base-`b` digits of `n`, lowest first; `leNat` reads a byte string
  as a little-endian number and `toLE k n` writes the `k` low bytes of `n`.

  Proved, for every base, length and number:
  - `ofDigits_fixed`: the digits spell the number back.
  - `fixed_append`: a digit string is cut by dividing.
  - `leNat_toLE` / `toLE_leNat`: the round trip for bytes.
  - `leNat_take` / `leNat_drop`: cutting a byte string is `%` and `/`.
  - `toDigits_injective`: different numbers are different texts.
-/
import Mathlib.Data.Nat.Digits.Defs
import Mathlib.Data.Nat.Log
import Mathlib.Tactic.Ring
import Mathlib.Tactic.Linarith

namespace Katana.Lib

/-! ## Digits of a fixed length -/

/-- The `k` lowest base-`b` digits of `n`, lowest first. -/
def fixed (b : Nat) : Nat → Nat → List Nat
  | 0, _ => []
  | k + 1, n => n % b :: fixed b k (n / b)

variable {b : Nat}

@[simp] theorem length_fixed (b k n : Nat) : (fixed b k n).length = k := by
  induction k generalizing n with
  | zero => rfl
  | succ k ih => simp [fixed, ih]

theorem fixed_lt (hb : 0 < b) (k n : Nat) : ∀ d ∈ fixed b k n, d < b := by
  induction k generalizing n with
  | zero => simp [fixed]
  | succ k ih =>
    intro d hd
    simp only [fixed, List.mem_cons] at hd
    rcases hd with rfl | hd
    · exact Nat.mod_lt _ hb
    · exact ih _ d hd

theorem ofDigits_fixed (b k n : Nat) : Nat.ofDigits b (fixed b k n) = n % b ^ k := by
  induction k generalizing n with
  | zero => simp [fixed, Nat.mod_one]
  | succ k ih =>
    rw [fixed, Nat.ofDigits_cons, ih, pow_succ', Nat.mod_mul]

theorem fixed_append (b k j n : Nat) : fixed b (k + j) n = fixed b k n ++ fixed b j (n / b ^ k) := by
  induction k generalizing n with
  | zero => simp [fixed]
  | succ k ih =>
    rw [Nat.add_right_comm, fixed, fixed, ih, Nat.div_div_eq_div_mul, ← pow_succ', List.cons_append]

theorem fixed_mod (b k n : Nat) : fixed b k (n % b ^ k) = fixed b k n := by
  induction k generalizing n with
  | zero => rfl
  | succ k ih =>
    rw [fixed, fixed]
    congr 1
    · exact Nat.mod_mod_of_dvd _ (dvd_pow_self b (by omega))
    · rw [pow_succ', Nat.mod_mul_right_div_self, ih]

theorem getElem?_fixed {b k n i : Nat} (hi : i < k) : (fixed b k n)[i]? = some (n / b ^ i % b) := by
  induction k generalizing n i with
  | zero => omega
  | succ k ih =>
    cases i with
    | zero => simp [fixed]
    | succ i => rw [fixed, List.getElem?_cons_succ, ih (by omega), Nat.div_div_eq_div_mul, ← pow_succ']

theorem take_fixed {b k j n : Nat} (h : j ≤ k) : (fixed b k n).take j = fixed b j n := by
  obtain ⟨i, rfl⟩ := Nat.exists_eq_add_of_le h
  rw [fixed_append, List.take_left' (length_fixed _ _ _)]

/-! ## Bytes -/

/-- The number a little-endian byte string spells. -/
def leNat : List UInt8 → Nat
  | [] => 0
  | x :: l => x.toNat + 256 * leNat l

def toLE : Nat → Nat → List UInt8
  | 0, _ => []
  | k + 1, n => UInt8.ofNat n :: toLE k (n / 256)

@[simp] theorem leNat_nil : leNat [] = 0 := rfl

theorem leNat_cons (x : UInt8) (l : List UInt8) : leNat (x :: l) = x.toNat + 256 * leNat l := rfl

@[simp] theorem length_toLE (k n : Nat) : (toLE k n).length = k := by
  induction k generalizing n with
  | zero => rfl
  | succ k ih => simp [toLE, ih]

theorem leNat_lt (l : List UInt8) : leNat l < 256 ^ l.length := by
  induction l with
  | nil => simp
  | cons x l ih =>
    have hx : x.toNat < 256 := UInt8.toNat_lt x
    rw [leNat_cons, List.length_cons, pow_succ']
    omega

theorem leNat_append (l m : List UInt8) : leNat (l ++ m) = leNat l + 256 ^ l.length * leNat m := by
  induction l with
  | nil => simp
  | cons x l ih =>
    rw [List.cons_append, leNat_cons, leNat_cons, ih, List.length_cons, pow_succ']
    ring

theorem leNat_toLE (k n : Nat) : leNat (toLE k n) = n % 256 ^ k := by
  induction k generalizing n with
  | zero => simp [toLE, Nat.mod_one]
  | succ k ih =>
    rw [toLE, leNat_cons, ih, pow_succ', Nat.mod_mul, UInt8.toNat_ofNat']

theorem toLE_leNat (l : List UInt8) : toLE l.length (leNat l) = l := by
  induction l with
  | nil => rfl
  | cons x l ih =>
    have hx : x.toNat < 256 := UInt8.toNat_lt x
    rw [List.length_cons, toLE, leNat_cons]
    congr 1
    · apply UInt8.toNat_inj.mp
      rw [UInt8.toNat_ofNat']
      omega
    · rw [show (x.toNat + 256 * leNat l) / 256 = leNat l by omega, ih]

theorem leNat_inj {l m : List UInt8} (hlen : l.length = m.length) (h : leNat l = leNat m) : l = m := by
  rw [← toLE_leNat l, ← toLE_leNat m, h, hlen]

theorem leNat_drop (l : List UInt8) (k : Nat) : leNat (l.drop k) = leNat l / 256 ^ k := by
  induction k generalizing l with
  | zero => simp
  | succ k ih =>
    cases l with
    | nil => simp
    | cons x l =>
      have hx : x.toNat < 256 := UInt8.toNat_lt x
      rw [List.drop_succ_cons, ih, pow_succ', ← Nat.div_div_eq_div_mul, leNat_cons,
        show (x.toNat + 256 * leNat l) / 256 = leNat l by omega]

theorem leNat_take (l : List UInt8) (k : Nat) : leNat (l.take k) = leNat l % 256 ^ k := by
  induction k generalizing l with
  | zero => simp [Nat.mod_one]
  | succ k ih =>
    cases l with
    | nil => simp
    | cons x l =>
      have hx : x.toNat < 256 := UInt8.toNat_lt x
      rw [List.take_succ_cons, leNat_cons, ih, pow_succ', leNat_cons, Nat.mod_mul,
        show (x.toNat + 256 * leNat l) / 256 = leNat l by omega,
        show (x.toNat + 256 * leNat l) % 256 = x.toNat by omega]

theorem toLE_append (k j n : Nat) : toLE (k + j) n = toLE k n ++ toLE j (n / 256 ^ k) := by
  induction k generalizing n with
  | zero => simp [toLE]
  | succ k ih =>
    rw [Nat.add_right_comm, toLE, toLE, ih, Nat.div_div_eq_div_mul, ← pow_succ', List.cons_append]

theorem take_toLE {k j n : Nat} (h : j ≤ k) : (toLE k n).take j = toLE j n := by
  obtain ⟨i, rfl⟩ := Nat.exists_eq_add_of_le h
  rw [toLE_append, List.take_left' (length_toLE _ _)]

theorem toLE_mod (k n : Nat) : toLE k (n % 256 ^ k) = toLE k n := by
  apply leNat_inj (by simp)
  rw [leNat_toLE, leNat_toLE, Nat.mod_mod]

/-! ## Hexadecimal texts -/

theorem digitChar_injective {m n : Nat} (hm : m < 16) (hn : n < 16) (h : m.digitChar = n.digitChar) : m = n := by
  have hall : ∀ i j : Fin 16, (i : Nat).digitChar = (j : Nat).digitChar → i = j := by decide
  exact congrArg Fin.val (hall ⟨m, hm⟩ ⟨n, hn⟩ h)

theorem toDigits_injective {m n : Nat} (h : Nat.toDigits 16 m = Nat.toDigits 16 n) : m = n := by
  induction m using Nat.strongRecOn generalizing n with
  | ind m ih =>
    have hpos : ∀ k, 0 < (Nat.toDigits 16 k).length := fun k => Nat.length_toDigits_pos
    rw [Nat.toDigits_eq_if (by norm_num), Nat.toDigits_eq_if (b := 16) (n := n) (by norm_num)] at h
    split at h
    · rename_i hm
      split at h
      · rename_i hn
        exact digitChar_injective hm hn (List.singleton_inj.mp h)
      · have hlen := congrArg List.length h
        have hlong := hpos (n / 16)
        rw [List.length_append, List.length_singleton, List.length_singleton] at hlen
        omega
    · rename_i hm
      split at h
      · have hlen := congrArg List.length h
        have hlong := hpos (m / 16)
        rw [List.length_append, List.length_singleton, List.length_singleton] at hlen
        omega
      · obtain ⟨hhigh, hlow⟩ := List.append_inj' h rfl
        have hdiv := ih (m / 16) (by omega) hhigh
        have hmod := digitChar_injective (Nat.mod_lt m (by norm_num)) (Nat.mod_lt n (by norm_num)) (List.singleton_inj.mp hlow)
        omega

theorem toDigits_forall {base : Nat} (hbase : 1 < base) {P : Char → Prop} (h : ∀ d < base, P d.digitChar) (n : Nat) :
    ∀ c ∈ Nat.toDigits base n, P c := by
  induction n using Nat.strongRecOn with
  | ind n ih =>
    intro c hc
    rw [Nat.toDigits_eq_if hbase] at hc
    split at hc
    · rename_i hn
      rw [List.mem_singleton.mp hc]
      exact h n hn
    · rcases List.mem_append.mp hc with hhigh | hlow
      · exact ih (n / base) (Nat.div_lt_self (by omega) hbase) c hhigh
      · rw [List.mem_singleton.mp hlow]
        exact h _ (Nat.mod_lt _ (by omega))

theorem space_notMem_toDigits (n : Nat) : ' ' ∉ Nat.toDigits 16 n := fun hmem =>
  toDigits_forall (P := (· ≠ ' ')) (by norm_num) (by decide) n ' ' hmem rfl

/-- Two lists with one separator, up to its first place in both. -/
theorem append_cons_inj {α : Type} {a : α} {x y z w : List α} (hx : a ∉ x) (hy : a ∉ y)
    (h : x ++ a :: z = y ++ a :: w) : x = y ∧ z = w := by
  induction x generalizing y with
  | nil =>
    cases y with
    | nil => exact ⟨rfl, List.tail_eq_of_cons_eq h⟩
    | cons c y => exact absurd (List.head_eq_of_cons_eq h) (fun heq => hy (by rw [heq]; exact List.mem_cons_self))
  | cons b x ih =>
    cases y with
    | nil => exact absurd (List.head_eq_of_cons_eq h) (fun heq => hx (by rw [heq]; exact List.mem_cons_self))
    | cons c y =>
      obtain ⟨rfl, hrest⟩ := List.cons.inj h
      obtain ⟨rfl, hzw⟩ := ih (fun hmem => hx (List.mem_cons_of_mem _ hmem))
        (fun hmem => hy (List.mem_cons_of_mem _ hmem)) hrest
      exact ⟨rfl, hzw⟩

end Katana.Lib

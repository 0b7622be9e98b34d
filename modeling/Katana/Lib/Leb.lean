/-
  Katana.Lib.Leb — LEB128 numerals: base-128 digits, lowest first, with the top bit of every byte
  but the last set.

  `uleb n` and `sleb z` are the shortest unsigned and signed numerals; `ulebLen` and `slebLen` are
  their lengths.

  Proved, for every number:
  - `ulebLen_le_iff` / `slebLen_le_iff`: which numbers fit in `m` septets.
  - `ofDigits_ulebDigits` / `bmod_slebDigits`: the digits spell the number back.
  - `ulebLen_eq` / `slebLen_eq`: the shortest length is the one that fits and cannot shrink.
  - `readUleb_mark`: a numeral is read back, whatever follows it.
  - `fits_signedValue`: a signed numeral of any length spells a number in the range of its septets.
-/
import Katana.Lib.Digits

namespace Katana.Lib

/-! ## Continuation bits -/

/-- Digits as bytes, with the continuation bit on every one but the last. -/
def mark : List Nat → List UInt8
  | [] => []
  | [d] => [UInt8.ofNat d]
  | d :: e :: l => UInt8.ofNat (d + 128) :: mark (e :: l)

theorem mark_cons {d : Nat} {l : List Nat} (hl : l ≠ []) : mark (d :: l) = UInt8.ofNat (d + 128) :: mark l := by
  cases l with
  | nil => exact absurd rfl hl
  | cons e l => rfl

@[simp] theorem length_mark (l : List Nat) : (mark l).length = l.length := by
  induction l with
  | nil => rfl
  | cons d l ih =>
    cases l with
    | nil => rfl
    | cons e l => rw [mark_cons (by simp), List.length_cons, ih]; rfl

theorem mark_drop (l : List Nat) (k : Nat) : mark (l.drop k) = (mark l).drop k := by
  induction l generalizing k with
  | nil => simp [mark]
  | cons d l ih =>
    cases k with
    | zero => rfl
    | succ k =>
      cases l with
      | nil => simp [mark]
      | cons e l => rw [mark_cons (by simp), List.drop_succ_cons, List.drop_succ_cons, ih]

/-- Every byte of a numeral, with its continuation bit masked off, is its digit. -/
theorem mark_and_digits {l : List Nat} (hl : ∀ d ∈ l, d < 128) :
    (mark l).map (fun x => (x.toNat % 128)) = l := by
  induction l with
  | nil => rfl
  | cons d l ih =>
    have hd : d < 128 := hl d (by simp)
    have ih := ih fun x hx => hl x (by simp [hx])
    cases l with
    | nil => simp only [mark, List.map_cons, List.map_nil, UInt8.toNat_ofNat']; congr 1; omega
    | cons e l =>
      rw [mark_cons (by simp), List.map_cons, ih, UInt8.toNat_ofNat']
      congr 1; omega

/-! ## Unsigned numerals -/

/-- The number of septets of the shortest unsigned numeral. -/
def ulebLen (n : Nat) : Nat := Nat.log 128 n + 1

theorem ulebLen_pos (n : Nat) : 0 < ulebLen n := Nat.succ_pos _

theorem ulebLen_le_iff {n m : Nat} (hm : 0 < m) : ulebLen n ≤ m ↔ n < 128 ^ m := by
  rw [ulebLen, Nat.succ_le_iff]
  by_cases hn : n = 0
  · subst hn; simp [hm]
  · exact Nat.log_lt_iff_lt_pow (by omega) hn

theorem lt_pow_ulebLen (n : Nat) : n < 128 ^ ulebLen n := (ulebLen_le_iff (ulebLen_pos n)).mp le_rfl

/-- The length that fits the number and could not be one less is the shortest one. -/
theorem ulebLen_eq {n m : Nat} (hm : 0 < m) (hfit : n < 128 ^ m) (hmin : 1 < m → ¬ n < 128 ^ (m - 1)) :
    ulebLen n = m := by
  have hle : ulebLen n ≤ m := (ulebLen_le_iff hm).mpr hfit
  by_cases h1 : 1 < m
  · have hlow : ¬ ulebLen n ≤ m - 1 := fun h => hmin h1 ((ulebLen_le_iff (by omega)).mp h)
    omega
  · have := ulebLen_pos n; omega

def ulebDigits (n : Nat) : List Nat := fixed 128 (ulebLen n) n

theorem ulebDigits_lt (n : Nat) : ∀ d ∈ ulebDigits n, d < 128 := fixed_lt (by norm_num) _ _

def uleb (n : Nat) : List UInt8 := mark (ulebDigits n)

@[simp] theorem length_uleb (n : Nat) : (uleb n).length = ulebLen n := by simp [uleb, ulebDigits]

theorem ofDigits_ulebDigits (n : Nat) : Nat.ofDigits 128 (ulebDigits n) = n := by
  rw [ulebDigits, ofDigits_fixed, Nat.mod_eq_of_lt (lt_pow_ulebLen n)]

/-! ## Signed numerals -/

/-- `z` is in the range of `m` two's-complement septets. -/
def FitsSeptets (z : Int) (m : Nat) : Prop := -(128 ^ m : Int) ≤ 2 * z ∧ 2 * z < 128 ^ m

instance (z : Int) (m : Nat) : Decidable (FitsSeptets z m) := inferInstanceAs (Decidable (_ ∧ _))

/-- The number whose bits below the sign bit `z` spells. -/
def magnitude (z : Int) : Nat := if z < 0 then (-z - 1).toNat else z.toNat

/-- The number of septets of the shortest signed numeral. -/
def slebLen (z : Int) : Nat := Nat.log 128 (2 * magnitude z) + 1

theorem slebLen_pos (z : Int) : 0 < slebLen z := Nat.succ_pos _

theorem fitsSeptets_iff {z : Int} {m : Nat} (hm : 0 < m) : FitsSeptets z m ↔ 2 * magnitude z < 128 ^ m := by
  obtain ⟨k, hk⟩ : ∃ k, 128 ^ m = 2 * k := by
    obtain ⟨m, rfl⟩ := Nat.exists_eq_add_of_le' hm
    exact ⟨64 * 128 ^ m, by rw [pow_succ]; ring⟩
  have hz : (128 : Int) ^ m = 2 * k := by exact_mod_cast hk
  rw [FitsSeptets, hk, hz, magnitude]
  split <;> omega

theorem slebLen_le_iff {z : Int} {m : Nat} (hm : 0 < m) : slebLen z ≤ m ↔ FitsSeptets z m := by
  rw [fitsSeptets_iff hm, ← ulebLen_le_iff hm]; rfl

theorem fits_slebLen (z : Int) : FitsSeptets z (slebLen z) := (slebLen_le_iff (slebLen_pos z)).mp le_rfl

theorem slebLen_eq {z : Int} {m : Nat} (hm : 0 < m) (hfit : FitsSeptets z m)
    (hmin : 1 < m → ¬ FitsSeptets z (m - 1)) : slebLen z = m := by
  have hle : slebLen z ≤ m := (slebLen_le_iff hm).mpr hfit
  by_cases h1 : 1 < m
  · have hlow : ¬ slebLen z ≤ m - 1 := fun h => hmin h1 ((slebLen_le_iff (by omega)).mp h)
    omega
  · have := slebLen_pos z; omega

/-- The two's-complement number of `m` septets that stands for `z`. -/
def residue (z : Int) (m : Nat) : Nat := (z % 128 ^ m).toNat

theorem residue_lt (z : Int) (m : Nat) : residue z m < 128 ^ m := by
  have h := Int.emod_lt_of_pos z (show (0 : Int) < 128 ^ m by positivity)
  have h0 := Int.emod_nonneg z (show (128 : Int) ^ m ≠ 0 by positivity)
  have : ((128 ^ m : Nat) : Int) = 128 ^ m := by norm_cast
  rw [residue]
  omega

theorem bmod_residue {z : Int} {m : Nat} (h : FitsSeptets z m) :
    Int.bmod (residue z m) (128 ^ m) = z := by
  have h0 := Int.emod_nonneg z (show (128 : Int) ^ m ≠ 0 by positivity)
  have hc : ((128 ^ m : Nat) : Int) = 128 ^ m := by norm_cast
  rw [residue, Int.toNat_of_nonneg h0, ← hc, Int.emod_bmod]
  obtain ⟨h1, h2⟩ := h
  rw [← hc] at h1 h2
  exact Int.bmod_eq_of_le (by omega) (by omega)

def slebDigits (z : Int) : List Nat := fixed 128 (slebLen z) (residue z (slebLen z))

theorem slebDigits_lt (z : Int) : ∀ d ∈ slebDigits z, d < 128 := fixed_lt (by norm_num) _ _

def sleb (z : Int) : List UInt8 := mark (slebDigits z)

@[simp] theorem length_sleb (z : Int) : (sleb z).length = slebLen z := by simp [sleb, slebDigits]

theorem bmod_slebDigits (z : Int) :
    Int.bmod (Nat.ofDigits 128 (slebDigits z) : Nat) (128 ^ slebLen z) = z := by
  rw [slebDigits, ofDigits_fixed, Nat.mod_eq_of_lt (residue_lt _ _), bmod_residue (fits_slebLen z)]

/-! ## Reading a numeral -/

/-- The number of the unsigned numeral at the start of some bytes, and its length. -/
def readUleb : List UInt8 → Option (Nat × Nat)
  | [] => none
  | x :: bytes =>
    if x.toNat < 128 then some (x.toNat, 1)
    else (readUleb bytes).map fun r => (x.toNat % 128 + 128 * r.1, r.2 + 1)

theorem readUleb_mark {l : List Nat} {rest : List UInt8} (hne : l ≠ []) (hl : ∀ d ∈ l, d < 128) :
    readUleb (mark l ++ rest) = some (Nat.ofDigits 128 l, l.length) := by
  induction l with
  | nil => exact absurd rfl hne
  | cons d l ih =>
    have hd : d < 128 := hl d (by simp)
    cases l with
    | nil =>
      have hbyte : (UInt8.ofNat d).toNat = d := by rw [UInt8.toNat_ofNat']; omega
      simp [mark, readUleb, hbyte, hd]
    | cons e l =>
      have hbyte : (UInt8.ofNat (d + 128)).toNat = d + 128 := by rw [UInt8.toNat_ofNat']; omega
      have hdigit : (d + 128) % 128 = d := by omega
      have hvalue : Nat.ofDigits 128 (d :: e :: l) = d + 128 * Nat.ofDigits 128 (e :: l) := Nat.ofDigits_cons ..
      rw [mark_cons (by simp), List.cons_append, readUleb, hbyte, if_neg (by omega),
        ih (by simp) fun x hx => hl x (by simp [hx]), Option.map_some, hvalue, hdigit]
      rfl

theorem readUleb_uleb (n : Nat) (rest : List UInt8) : readUleb (uleb n ++ rest) = some (n, ulebLen n) := by
  have hne : ulebDigits n ≠ [] := by
    rw [← List.length_pos_iff, ulebDigits, length_fixed]
    exact ulebLen_pos n
  rw [uleb, readUleb_mark hne (ulebDigits_lt n), ofDigits_ulebDigits]
  simp [ulebDigits]

theorem readUleb_pos {bytes : List UInt8} {v k : Nat} (h : readUleb bytes = some (v, k)) : 0 < k := by
  cases bytes with
  | nil => cases h
  | cons x bytes =>
    rw [readUleb] at h
    split at h
    · cases h; omega
    · obtain ⟨r, -, hr⟩ := Option.map_eq_some_iff.mp h
      cases hr; omega

/-! ## Numerals of any length -/

/-- A numeral, the shortest one or one with padding. -/
structure Numeral where
  digits : List Nat
  digits_ne : digits ≠ []
  digits_lt : ∀ d ∈ digits, d < 128

namespace Numeral

def length (n : Numeral) : Nat := n.digits.length

def bytes (n : Numeral) : List UInt8 := mark n.digits

def value (n : Numeral) : Nat := Nat.ofDigits 128 n.digits

def signedValue (n : Numeral) : Int := Int.bmod n.value (128 ^ n.length : Nat)

@[simp] theorem length_bytes (n : Numeral) : n.bytes.length = n.length := length_mark n.digits

theorem length_pos (n : Numeral) : 0 < n.length := List.length_pos_iff.mpr n.digits_ne

theorem value_lt (n : Numeral) : n.value < 128 ^ n.length :=
  Nat.ofDigits_lt_base_pow_length (by norm_num) n.digits_lt

def dropTo (n : Numeral) (k : Nat) (hk : k < n.length) : Numeral where
  digits := n.digits.drop k
  digits_ne := by
    rw [ne_eq, List.drop_eq_nil_iff]
    exact Nat.not_le.mpr hk
  digits_lt := fun d hd => n.digits_lt d (List.mem_of_mem_drop hd)

@[simp] theorem length_dropTo (n : Numeral) (k : Nat) (hk : k < n.length) : (n.dropTo k hk).length = n.length - k :=
  List.length_drop

theorem bytes_dropTo (n : Numeral) (k : Nat) (hk : k < n.length) : (n.dropTo k hk).bytes = n.bytes.drop k :=
  mark_drop n.digits k

/-- A signed numeral's value is in the range of its septets. -/
theorem fits_signedValue (n : Numeral) : FitsSeptets n.signedValue n.length := by
  have hpos := n.length_pos
  obtain ⟨h, hh⟩ : ∃ h : Nat, 128 ^ n.length = 2 * h := by
    obtain ⟨m, hm⟩ := Nat.exists_eq_add_of_le' hpos
    exact ⟨64 * 128 ^ m, by rw [hm, pow_succ]; ring⟩
  have hlo : -(((128 ^ n.length : Nat) : Int) / 2) ≤ n.signedValue := Int.le_bmod (by positivity)
  have hhi : n.signedValue < (((128 ^ n.length : Nat) : Int) + 1) / 2 := Int.bmod_lt (by positivity)
  have hc : ((128 ^ n.length : Nat) : Int) = 128 ^ n.length := by norm_cast
  have hc2 : (128 : Int) ^ n.length = 2 * h := by rw [← hc, hh]; push_cast; rfl
  rw [hc, hc2] at hlo hhi
  unfold FitsSeptets
  rw [hc2]
  omega

def ofNat (v : Nat) : Numeral where
  digits := ulebDigits v
  digits_ne := by
    rw [← List.length_pos_iff, ulebDigits, length_fixed]
    exact ulebLen_pos v
  digits_lt := ulebDigits_lt v

@[simp] theorem length_ofNat (v : Nat) : (ofNat v).length = ulebLen v := length_fixed _ _ _

@[simp] theorem bytes_ofNat (v : Nat) : (ofNat v).bytes = uleb v := rfl

@[simp] theorem value_ofNat (v : Nat) : (ofNat v).value = v := ofDigits_ulebDigits v

def ofInt (z : Int) : Numeral where
  digits := slebDigits z
  digits_ne := by
    rw [← List.length_pos_iff, slebDigits, length_fixed]
    exact slebLen_pos z
  digits_lt := slebDigits_lt z

@[simp] theorem length_ofInt (z : Int) : (ofInt z).length = slebLen z := length_fixed _ _ _

@[simp] theorem bytes_ofInt (z : Int) : (ofInt z).bytes = sleb z := rfl

@[simp] theorem signedValue_ofInt (z : Int) : (ofInt z).signedValue = z := by
  unfold signedValue
  rw [length_ofInt]
  exact bmod_slebDigits z

end Numeral

end Katana.Lib

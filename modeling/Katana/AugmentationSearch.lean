/-
  Katana.AugmentationSearch — looking for an FDE's augmentation data in its record (readDebugFrame).

  The data is looked for by its content: its first byte with `memchr`, and then the others one by one.
  `memchr` may look past the record, but the data is there to be found before that.

  Proved, for every record and every place of the data in it:
  - `search_found`: the scan ends at the data when they are nowhere before it.
  - `search_le`: and at an earlier place, if at all, when they are.
  - `augDataOffset_iff`: exactly when the offset is that of the data.
-/
import Katana.DebugFrame

namespace Katana

/-! ## One candidate -/

section Scan
variable {fdeBytes augdata ptr : List UInt8} {j it : Nat}

/-- `memchr` stops at a byte that is there. -/
theorem memchr_found {c : UInt8} {p : Nat} (hp : fdeBytes[p]? = some c) (hit : it ≤ p) :
    ∃ i, memchr fdeBytes it c fdeBytes.length = .ok (some i) ∧ it ≤ i ∧ i ≤ p ∧ fdeBytes[i]? = some c := by
  obtain ⟨hlt, hc⟩ := List.getElem?_eq_some_iff.mp hp
  have htake : (fdeBytes.drop it).take fdeBytes.length = fdeBytes.drop it :=
    List.take_of_length_le (by rw [List.length_drop]; omega)
  unfold memchr
  rw [htake]
  cases hfind : (fdeBytes.drop it).findIdx? (· == c) with
  | none =>
    rw [List.findIdx?_eq_none_iff] at hfind
    have hmem : c ∈ fdeBytes.drop it := by
      refine List.mem_of_getElem? (i := p - it) ?_
      rw [List.getElem?_drop, show it + (p - it) = p by omega]
      exact hp
    have hno := hfind c hmem
    simp at hno
  | some i =>
    obtain ⟨hi, hget, hbefore⟩ := List.findIdx?_eq_some_iff_getElem.mp hfind
    refine ⟨it + i, rfl, by omega, ?_, ?_⟩
    · by_contra hgt
      have hno := hbefore (p - it) (by omega)
      rw [List.getElem_drop] at hno
      simp only [show it + (p - it) = p by omega, hc] at hno
      simp at hno
    · rw [List.getElem_drop] at hget
      rw [List.length_drop] at hi
      exact List.getElem?_eq_some_iff.mpr ⟨by omega, beq_iff_eq.mp hget⟩

/-- Where there are bytes enough, they are compared. -/
theorem sameBytes_eq (hlen : augdata.length ≤ ptr.length) (hint : j + augdata.length < 2 ^ 31) :
    sameBytes j augdata ptr = .ok (decide (augdata <+: ptr)) := by
  induction augdata generalizing j ptr with
  | nil =>
    unfold sameBytes
    simp
  | cons a augdata ih =>
    cases ptr with
    | nil => simp at hlen
    | cons b ptr =>
      rw [List.length_cons, List.length_cons] at hlen
      rw [List.length_cons] at hint
      unfold sameBytes
      by_cases hab : a = b
      · rw [if_neg (not_not_intro hab), defined_of (by omega), bind_ok, ih (by omega) (by omega), hab]
        simp
      · rw [if_pos hab]
        simp [hab]

theorem sameBytes_true (h : sameBytes j augdata ptr = .ok true) :
    augdata <+: ptr ∧ (augdata ≠ [] → j + augdata.length < 2 ^ 31) := by
  induction augdata generalizing j ptr with
  | nil => simp
  | cons a augdata ih =>
    cases ptr with
    | nil => cases h
    | cons b ptr =>
      unfold sameBytes at h
      by_cases hab : a = b
      · rw [if_neg (not_not_intro hab)] at h
        obtain ⟨_, hdef, h⟩ := bind_eq_ok.mp h
        have hj : j + 1 < 2 ^ 31 := by
          by_contra hno
          rw [defined_not hno] at hdef
          cases hdef
        obtain ⟨hpre, hshort⟩ := ih h
        refine ⟨by rw [hab, List.cons_prefix_cons]; exact ⟨rfl, hpre⟩, fun _ => ?_⟩
        rw [List.length_cons]
        rcases augdata with _ | ⟨a', augdata⟩
        · exact hj
        · have hlt := hshort (List.cons_ne_nil _ _)
          omega
      · rw [if_pos hab] at h
        cases h

theorem sameBytes_false (h : sameBytes j augdata ptr = .ok false) : ¬ augdata <+: ptr := by
  induction augdata generalizing j ptr with
  | nil => cases h
  | cons a augdata ih =>
    cases ptr with
    | nil => cases h
    | cons b ptr =>
      unfold sameBytes at h
      by_cases hab : a = b
      · rw [if_neg (not_not_intro hab)] at h
        obtain ⟨_, -, h⟩ := bind_eq_ok.mp h
        rw [List.cons_prefix_cons]
        exact fun hpre => ih h hpre.2
      · rw [List.cons_prefix_cons]
        exact fun hpre => hab hpre.1

/-- The data begins at a candidate when the rest follows there. -/
theorem prefix_at_iff {a : UInt8} {i : Nat} (hi : fdeBytes[i]? = some a) :
    a :: augdata <+: fdeBytes.drop i ↔ augdata <+: fdeBytes.drop (i + 1) := by
  obtain ⟨hlt, ha⟩ := List.getElem?_eq_some_iff.mp hi
  rw [List.drop_eq_getElem_cons hlt, ha, List.cons_prefix_cons]
  simp

theorem getElem?_of_begins {a : UInt8} {i : Nat} (h : a :: augdata <+: fdeBytes.drop i) : fdeBytes[i]? = some a := by
  obtain ⟨rest, hrest⟩ := h
  have hget := congrArg (·[0]?) hrest
  simpa [List.getElem?_drop] using hget.symm

end Scan

/-! ## The scan -/

/-- Where the augmentation data of an FDE lies in its record. -/
structure AugmentationAt (dfde : DwarfFde) (off : Nat) : Prop where
  nonempty : dfde.augdata ≠ []
  lies : dfde.augdata <+: dfde.fdeBytes.drop off
  size : dfde.fdeBytes.length < 2 ^ 64

/-- The same bytes are nowhere before the augmentation data; the positions of their first byte there, and the length
of the data, are ints. -/
structure FirstInRecord (dfde : DwarfFde) (off : Nat) : Prop where
  first : ∀ i < off, ¬ dfde.augdata <+: dfde.fdeBytes.drop i
  near : ∀ i < off, dfde.fdeBytes[i]? = dfde.augdata.head? → i + 1 < 2 ^ 31
  short : dfde.augdata.length < 2 ^ 31

section Search
variable {fdeBytes augdata : List UInt8} {a : UInt8} {off fuel it i r : Nat}

/-- One turn, where a candidate is left. -/
theorem search_step {p : Nat} (hp : fdeBytes[p]? = some a) (hit : it ≤ p) :
    ∃ i, it ≤ i ∧ i ≤ p ∧ fdeBytes[i]? = some a ∧ findAugmentation fdeBytes (a :: augdata) (fuel + 1) it =
      sameBytes 1 augdata (fdeBytes.drop (i + 1)) >>= fun isMatch =>
        if isMatch then .ok i else findAugmentation fdeBytes (a :: augdata) fuel (cInt (i + 1)) := by
  obtain ⟨i, hi, hle, hip, hget⟩ := memchr_found hp hit
  refine ⟨i, hle, hip, hget, ?_⟩
  conv_lhs => unfold findAugmentation
  rw [defined_of (by omega), bind_ok, Int.toNat_natCast, List.headD_cons, hi, bind_ok]
  rfl

theorem cInt_of_lt {n : Nat} (h : n < 2 ^ 31) : cInt n = n := by
  unfold cInt
  rw [Int.bmod_eq_of_le] <;> omega

/-- **The scan ends at the data** when they are nowhere before it. -/
theorem search_found (hlies : a :: augdata <+: fdeBytes.drop off) (hfirst : ∀ i < off, ¬ a :: augdata <+: fdeBytes.drop i)
    (hnear : ∀ i < off, fdeBytes[i]? = some a → i + 1 < 2 ^ 31) (hshort : (a :: augdata).length < 2 ^ 31)
    (hit : it ≤ off) (hfuel : off - it < fuel) : findAugmentation fdeBytes (a :: augdata) fuel it = .ok off := by
  induction fuel generalizing it with
  | zero => omega
  | succ fuel ih =>
    obtain ⟨i, hle, hio, hget, hstep⟩ := @search_step fdeBytes augdata a fuel it off (getElem?_of_begins hlies) hit
    have hroom : augdata.length ≤ (fdeBytes.drop (i + 1)).length := by
      have hlen := hlies.length_le
      rw [List.length_cons, List.length_drop] at hlen
      rw [List.length_drop]
      omega
    rw [List.length_cons] at hshort
    rw [hstep, sameBytes_eq hroom (by omega), bind_ok]
    rcases Nat.lt_or_eq_of_le hio with hlt | rfl
    · have hno : ¬ augdata <+: fdeBytes.drop (i + 1) := fun h => hfirst i hlt ((prefix_at_iff hget).mpr h)
      rw [decide_eq_false hno]
      have hnext : cInt (i + 1) = (i + 1 : Nat) := cInt_of_lt (hnear i hlt hget)
      simp only [Bool.false_eq_true, if_false]
      rw [hnext]
      exact ih (by omega) (by omega)
    · rw [decide_eq_true ((prefix_at_iff hget).mp hlies)]
      rfl

/-- A turn goes back, if it does not go on by one. -/
theorem cInt_succ_le {n : Nat} (h : 2 ^ 31 ≤ n + 1) : cInt (n + 1) ≤ n := by
  unfold cInt
  rw [Int.bmod_def]
  split <;> omega

/-- **It goes no further** than a place with the data, or a candidate whose position is too high for an int. -/
theorem search_le (hi : fdeBytes[i]? = some a) (hstop : a :: augdata <+: fdeBytes.drop i ∨ 2 ^ 31 ≤ i + 1) (hit : it ≤ i)
    (h : findAugmentation fdeBytes (a :: augdata) fuel it = .ok r) : r ≤ i := by
  induction fuel generalizing it with
  | zero => cases h
  | succ fuel ih =>
    obtain ⟨p, hle, hpi, hget, hstep⟩ := @search_step fdeBytes augdata a fuel it i hi hit
    rw [hstep] at h
    obtain ⟨isMatch, hsame, h⟩ := bind_eq_ok.mp h
    cases isMatch with
    | true =>
      cases h
      exact hpi
    | false =>
      simp only [Bool.false_eq_true, if_false] at h
      have hno : ¬ a :: augdata <+: fdeBytes.drop p := fun hpre => sameBytes_false hsame ((prefix_at_iff hget).mp hpre)
      have hback : cInt (p + 1) ≤ i := by
        by_cases hint : p + 1 < 2 ^ 31
        · have hnext : cInt (p + 1) = (p + 1 : Nat) := cInt_of_lt hint
          rcases Nat.lt_or_eq_of_le hpi with hlt | rfl
          · omega
          · rcases hstop with hstop | hstop
            · exact absurd hstop hno
            · omega
        · have hnext := cInt_succ_le (Nat.le_of_not_lt hint)
          omega
      have hpos : 0 ≤ cInt (p + 1) := by
        cases fuel with
        | zero => cases h
        | succ fuel =>
          unfold findAugmentation at h
          obtain ⟨_, hdef, -⟩ := bind_eq_ok.mp h
          by_contra hneg
          rw [defined_not hneg] at hdef
          cases hdef
      obtain ⟨n, hn⟩ := Int.eq_ofNat_of_zero_le hpos
      rw [hn] at h hback
      exact ih (by omega) h

/-- What is found is the data. -/
theorem search_same {start : Int} (h : findAugmentation fdeBytes (a :: augdata) fuel start = .ok r) :
    sameBytes 1 augdata (fdeBytes.drop (r + 1)) = .ok true := by
  induction fuel generalizing start with
  | zero => cases h
  | succ fuel ih =>
    unfold findAugmentation at h
    obtain ⟨_, -, h⟩ := bind_eq_ok.mp h
    obtain ⟨found, -, h⟩ := bind_eq_ok.mp h
    cases found with
    | none => cases h
    | some p =>
      obtain ⟨isMatch, hsame, h⟩ := bind_eq_ok.mp h
      cases isMatch with
      | true =>
        cases h
        exact hsame
      | false => exact ih h

end Search

/-- **The offset found is that of the data** exactly when the data come first in the record. -/
theorem augDataOffset_iff {dfde : DwarfFde} {off : Nat} (h : AugmentationAt dfde off) :
    augDataOffset dfde = .ok (dfde.fdeOffset + UInt64.ofNat off) ↔ FirstInRecord dfde off := by
  obtain ⟨a, augdata, haug⟩ := List.exists_cons_of_ne_nil h.nonempty
  have hlies := h.lies
  rw [haug] at hlies
  have hin : off < dfde.fdeBytes.length := (List.getElem?_eq_some_iff.mp (getElem?_of_begins hlies)).1
  have hsize := h.size
  constructor
  · intro hfound
    obtain ⟨r, hr, hoff⟩ := bind_eq_ok.mp hfound
    rw [haug] at hr
    have hrin : r ≤ off := search_le (getElem?_of_begins hlies) (.inl hlies) (Nat.zero_le _) hr
    have hroff : r = off := by
      have hadd : dfde.fdeOffset + UInt64.ofNat r = dfde.fdeOffset + UInt64.ofNat off := Except.ok.inj hoff
      have hoff64 : off < 2 ^ 64 := by omega
      have hr64 : r < 2 ^ 64 := by omega
      have hnat := congrArg UInt64.toNat (show UInt64.ofNat r = UInt64.ofNat off by grind)
      rwa [UInt64.toNat_ofNat_of_lt' hr64, UInt64.toNat_ofNat_of_lt' hoff64] at hnat
    subst hroff
    refine ⟨?_, ?_, ?_⟩
    · intro i hi hpre
      rw [haug] at hpre
      exact absurd (search_le (getElem?_of_begins hpre) (.inl hpre) (Nat.zero_le _) hr) (by omega)
    · intro i hi hget
      rw [haug, List.head?_cons] at hget
      by_contra hfar
      exact absurd (search_le hget (.inr (Nat.le_of_not_lt hfar)) (Nat.zero_le _) hr) (by omega)
    · obtain ⟨-, hshort⟩ := sameBytes_true (search_same hr)
      rw [haug, List.length_cons]
      rcases augdata with _ | ⟨b, augdata⟩
      · norm_num
      · have hlt := hshort (List.cons_ne_nil _ _)
        omega
  · intro hfirst
    have hnear := hfirst.near
    have hall := hfirst.first
    have hshort := hfirst.short
    rw [haug] at hnear hall hshort
    have hfound : findAugmentation dfde.fdeBytes (a :: augdata) (dfde.fdeBytes.length + 1) 0 = .ok off :=
      @search_found dfde.fdeBytes augdata a off _ 0 hlies hall (fun i hi hget => hnear i hi hget) hshort (Nat.zero_le _)
        (by omega)
    unfold augDataOffset
    rw [haug, hfound]
    rfl

/-- A record whose augmentation data, a pointer of four bytes, is the range of the FDE as well. -/
def rangeAgain : DwarfFde where
  cieIndex := 0
  instrs := [0, 0, 0]
  ilen := 3
  lowPC := 0x1000
  addrRange := 0x20
  fdeBytes := [24, 0, 0, 0, 28, 0, 0, 0, 0, 16, 0, 0, 32, 0, 0, 0, 4, 32, 0, 0, 0, 0, 0, 0]
  fdeOffset := 24
  augdata := [32, 0, 0, 0]

theorem rangeAgain_at : AugmentationAt rangeAgain 17 := ⟨by decide, by decide, by decide⟩

def pointerOnce : DwarfFde :=
  { rangeAgain with
    fdeBytes := [24, 0, 0, 0, 28, 0, 0, 0, 0, 16, 0, 0, 32, 0, 0, 0, 4, 0, 4, 64, 0, 0, 0, 0], augdata := [0, 4, 64, 0] }

theorem augDataOffset_pointerOnce : augDataOffset pointerOnce = .ok (pointerOnce.fdeOffset + UInt64.ofNat 17) := by
  have hat : AugmentationAt pointerOnce 17 := ⟨by decide, by decide, by decide⟩
  exact (augDataOffset_iff hat).mpr ⟨by decide, by decide, by decide⟩

/-- Not every FDE's augmentation data is found where it is. -/
theorem not_augDataOffset : ¬ ∀ (dfde : DwarfFde) (off : Nat), AugmentationAt dfde off →
    augDataOffset dfde = .ok (dfde.fdeOffset + UInt64.ofNat off) := by
  intro h
  have hfound := h _ _ rangeAgain_at
  have hrange : augDataOffset rangeAgain = .ok 36 := by decide
  rw [hrange] at hfound
  revert hfound
  decide

end Katana

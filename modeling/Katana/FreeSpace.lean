/-
  Katana.FreeSpace — space for patched sections in the target (patcher/hotpatch.c).

  `reserveFreeSpaceInTarget` maps pages unless what is left of the last mapping is enough, and
  `getFreeSpaceInTarget` takes its space from there. What is left when pages are mapped is given up.

  Proved, for every kernel that maps fresh regions and every run of the two calls:
  - `Sound.reserve` / `Sound.get`: what one call preserves.
  - `freeSpace_disjoint`: the regions handed out are disjoint and inside the mappings, and the space that
    is left never goes below zero. Before there is a mapping a request for nothing is answered with zero.
-/
import Katana.Target
import Katana.Lib.Region
import Mathlib.Tactic.Ring

namespace Katana

open Lib

/-- The target's kernel: `sysconf(_SC_PAGE_SIZE)`, `mmapTarget` of a size at a wished address, and the
regions it has mapped. -/
structure Kernel (K : Type) where
  pageBits : Fin 32
  mmapTarget : K → UInt64 → UInt64 → Except Fault (UInt64 × K)
  mapped : K → List Region

def regionAt (start : UInt64) (size : Nat) : Region := ⟨start.toNat, size⟩

/-- What is mapped has the size asked for and is disjoint from everything mapped before. -/
structure Kernel.Fresh {K : Type} (kernel : Kernel K) : Prop where
  mapped {k k' : K} {size desiredAddress answer : UInt64} : kernel.mmapTarget k size desiredAddress = .ok (answer, k') →
    kernel.mapped k' = regionAt answer size.toNat :: kernel.mapped k
  disjoint {k k' : K} {size desiredAddress answer : UInt64} : kernel.mmapTarget k size desiredAddress = .ok (answer, k') →
    ∀ q ∈ kernel.mapped k, Disjoint q.bytes (regionAt answer size.toNat).bytes
  fits {k k' : K} {size desiredAddress answer : UInt64} : kernel.mmapTarget k size desiredAddress = .ok (answer, k') →
    answer.toNat + size.toNat ≤ 2 ^ 64

structure FreeSpace (K : Type) where
  addrFreeSpace : UInt64
  freeSpaceLeft : UInt64
  target : K

variable {K : Type} (kernel : Kernel K)

def pageSize : Nat := 2 ^ kernel.pageBits.val

/-- The quotient of the doubles is exact, the page size being a power of two. -/
def numPages (howMuch : UInt32) : UInt32 := UInt32.ofNat ((howMuch.toNat + pageSize kernel - 1) / pageSize kernel)

/-- The product is one of longs. -/
def mappedSize (howMuch : UInt32) : UInt64 := (numPages kernel howMuch).toUInt64 * UInt64.ofNat (pageSize kernel)

def reserveFreeSpaceInTarget (s : FreeSpace K) (howMuch : UInt32) (desired : UInt64) : Except Fault (UInt64 × FreeSpace K) :=
  if howMuch.toUInt64 ≤ s.freeSpaceLeft ∧ (desired = 0 ∨ s.addrFreeSpace = desired) then .ok (s.addrFreeSpace, s)
  else
    kernel.mmapTarget s.target (mappedSize kernel howMuch) desired >>= fun answer =>
      .ok (answer.1, ⟨answer.1, mappedSize kernel howMuch, answer.2⟩)

/-- `freeSpaceLeft-=howMuch` and `addrFreeSpace+=howMuch`. -/
def FreeSpace.take (s : FreeSpace K) (howMuch : UInt32) : FreeSpace K :=
  { s with freeSpaceLeft := s.freeSpaceLeft - howMuch.toUInt64, addrFreeSpace := s.addrFreeSpace + howMuch.toUInt64 }

def getFreeSpaceInTarget (s : FreeSpace K) (howMuch : UInt32) : Except Fault (UInt64 × FreeSpace K) :=
  reserveFreeSpaceInTarget kernel s howMuch 0 >>= fun answer =>
    .ok (answer.2.addrFreeSpace, answer.2.take howMuch)

/-- The states of a run with the regions that were handed out. -/
inductive FreeSpaceReach : FreeSpace K → List Region → Prop
  | init (target : K) : FreeSpaceReach ⟨0, 0, target⟩ []
  | reserve {s s' : FreeSpace K} {given : List Region} {howMuch : UInt32} {desired answer : UInt64} :
      FreeSpaceReach s given →
    reserveFreeSpaceInTarget kernel s howMuch desired = .ok (answer, s') → FreeSpaceReach s' given
  | get {s s' : FreeSpace K} {given : List Region} {howMuch : UInt32} {answer : UInt64} : FreeSpaceReach s given →
    getFreeSpaceInTarget kernel s howMuch = .ok (answer, s') → FreeSpaceReach s' (regionAt answer howMuch.toNat :: given)

/-! ## The pages cover the request -/

theorem pageSize_pos : 0 < pageSize kernel := Nat.two_pow_pos _

theorem pageSize_lt : pageSize kernel < 2 ^ 32 := Nat.pow_lt_pow_right (by decide) kernel.pageBits.isLt

theorem numPages_toNat (howMuch : UInt32) :
    (numPages kernel howMuch).toNat = (howMuch.toNat + pageSize kernel - 1) / pageSize kernel := by
  have hpos := pageSize_pos kernel
  have hlt := howMuch.toNat_lt
  apply UInt32.toNat_ofNat_of_lt'
  rw [Nat.div_lt_iff_lt_mul hpos]
  show _ < 2 ^ 32 * pageSize kernel
  have hmul : pageSize kernel - 1 ≤ (2 ^ 32 - 1) * (pageSize kernel - 1) := Nat.le_mul_of_pos_left _ (by decide)
  have hsplit : 2 ^ 32 * pageSize kernel = (2 ^ 32 - 1) * (pageSize kernel - 1) + (2 ^ 32 - 1) + pageSize kernel := by
    obtain ⟨k, hk⟩ := Nat.exists_eq_add_of_le' hpos
    rw [hk]
    omega
  omega

theorem mappedSize_le (howMuch : UInt32) : howMuch.toNat ≤ (mappedSize kernel howMuch).toNat := by
  have hpos := pageSize_pos kernel
  have hsize := pageSize_lt kernel
  have hpages := numPages_toNat kernel howMuch
  have hpageslt := (numPages kernel howMuch).toNat_lt
  have hprod : (numPages kernel howMuch).toNat * pageSize kernel < 2 ^ 64 := by
    calc (numPages kernel howMuch).toNat * pageSize kernel < 2 ^ 32 * 2 ^ 32 := Nat.mul_lt_mul'' hpageslt hsize
      _ = 2 ^ 64 := by decide
  unfold mappedSize
  rw [UInt64.toNat_mul, UInt32.toNat_toUInt64, UInt64.toNat_ofNat_of_lt' (Nat.lt_trans hsize (by decide)),
    Nat.mod_eq_of_lt hprod, hpages]
  have hdiv := Nat.div_add_mod (howMuch.toNat + pageSize kernel - 1) (pageSize kernel)
  have hmod := Nat.mod_lt (howMuch.toNat + pageSize kernel - 1) hpos
  rw [Nat.mul_comm] at hdiv
  omega

/-! ## What the calls preserve -/

def FreeSpace.free (s : FreeSpace K) : Region := regionAt s.addrFreeSpace s.freeSpaceLeft.toNat

/-- Nothing is free, or it is the rest of a mapping. -/
def FreeInMapping (s : FreeSpace K) : Prop :=
  s.addrFreeSpace = 0 ∧ s.freeSpaceLeft = 0 ∨
    ∃ q ∈ kernel.mapped s.target, s.free.Inside q ∧ q.start + q.size ≤ 2 ^ 64

def GivenFrom (s : FreeSpace K) (r : Region) : Prop := r = ⟨0, 0⟩ ∨ ∃ q ∈ kernel.mapped s.target, r.Inside q

structure Sound (s : FreeSpace K) (given : List Region) : Prop where
  disjoint : given.Pairwise fun r q => Disjoint r.bytes q.bytes
  givenFrom : ∀ r ∈ given, GivenFrom kernel s r
  free : FreeInMapping kernel s
  fresh : ∀ r ∈ given, Disjoint r.bytes s.free.bytes

variable {kernel}

theorem take_left {s : FreeSpace K} {howMuch : UInt32} (hle : howMuch.toNat ≤ s.freeSpaceLeft.toNat) :
    (s.take howMuch).freeSpaceLeft.toNat = s.freeSpaceLeft.toNat - howMuch.toNat := by
  have hword : howMuch.toUInt64 ≤ s.freeSpaceLeft := by
    rw [UInt64.le_iff_toNat_le, UInt32.toNat_toUInt64]
    exact hle
  show (s.freeSpaceLeft - howMuch.toUInt64).toNat = _
  rw [UInt64.toNat_sub_of_le _ _ hword, UInt32.toNat_toUInt64]

/-- What is free after the front is taken is behind it; nothing is when the front ends where the addresses do. -/
theorem take_free {s : FreeSpace K} {howMuch : UInt32} (hend : s.addrFreeSpace.toNat + s.freeSpaceLeft.toNat ≤ 2 ^ 64)
    (hle : howMuch.toNat ≤ s.freeSpaceLeft.toNat) :
    (s.take howMuch).addrFreeSpace = 0 ∧ (s.take howMuch).freeSpaceLeft = 0 ∨
      (s.take howMuch).free = ⟨s.addrFreeSpace.toNat + howMuch.toNat, s.freeSpaceLeft.toNat - howMuch.toNat⟩ := by
  have haddr : (s.take howMuch).addrFreeSpace.toNat = (s.addrFreeSpace.toNat + howMuch.toNat) % 2 ^ 64 := by
    show (s.addrFreeSpace + howMuch.toUInt64).toNat = _
    rw [UInt64.toNat_add, UInt32.toNat_toUInt64]
  rcases Nat.lt_or_ge (s.addrFreeSpace.toNat + howMuch.toNat) (2 ^ 64) with hlt | hge
  · right
    unfold FreeSpace.free regionAt
    rw [take_left hle, haddr, Nat.mod_eq_of_lt hlt]
  · left
    have hall : s.addrFreeSpace.toNat + howMuch.toNat = 2 ^ 64 := by
      omega
    refine ⟨UInt64.toNat_inj.mp ?_, UInt64.toNat_inj.mp ?_⟩
    · rw [haddr, hall]
      rfl
    · rw [take_left hle]
      show _ = 0
      omega

theorem FreeInMapping.end_le {s : FreeSpace K} (h : FreeInMapping kernel s) :
    s.addrFreeSpace.toNat + s.freeSpaceLeft.toNat ≤ 2 ^ 64 := by
  rcases h with hzero | hin
  · rw [hzero.1, hzero.2]
    decide
  · obtain ⟨q, -, hin, hfits⟩ := hin
    exact Nat.le_trans hin.2 hfits

/-- A call keeps the space, which is then enough, or maps some that is. -/
theorem reserve_cases {s s' : FreeSpace K} {howMuch : UInt32} {desired answer : UInt64}
    (h : reserveFreeSpaceInTarget kernel s howMuch desired = .ok (answer, s')) :
    s' = s ∧ howMuch.toNat ≤ s.freeSpaceLeft.toNat ∨
      kernel.mmapTarget s.target (mappedSize kernel howMuch) desired = .ok (s'.addrFreeSpace, s'.target) ∧
        s'.freeSpaceLeft = mappedSize kernel howMuch := by
  unfold reserveFreeSpaceInTarget at h
  split at h
  · rename_i henough
    cases h
    have hle := UInt64.le_iff_toNat_le.mp henough.1
    rw [UInt32.toNat_toUInt64] at hle
    exact .inl ⟨rfl, hle⟩
  · obtain ⟨r, hr, h⟩ := bind_eq_ok.mp h
    cases h
    exact .inr ⟨hr, rfl⟩

theorem reserve_enough {s s' : FreeSpace K} {howMuch : UInt32} {desired answer : UInt64}
    (h : reserveFreeSpaceInTarget kernel s howMuch desired = .ok (answer, s')) :
    howMuch.toNat ≤ s'.freeSpaceLeft.toNat := by
  rcases reserve_cases h with hkept | hmapped
  · rw [hkept.1]
    exact hkept.2
  · rw [hmapped.2]
    exact mappedSize_le kernel howMuch

section
variable (hfresh : kernel.Fresh)
include hfresh

theorem Sound.reserve {s s' : FreeSpace K} {given : List Region} (hs : Sound kernel s given) {howMuch : UInt32}
    {desired answer : UInt64} (h : reserveFreeSpaceInTarget kernel s howMuch desired = .ok (answer, s')) :
    Sound kernel s' given := by
  rcases reserve_cases h with hkept | hmapped
  · rw [hkept.1]
    exact hs
  · obtain ⟨hmmap, hleft⟩ := hmapped
    have hnew := hfresh.mapped hmmap
    have hfree : s'.free = regionAt s'.addrFreeSpace (mappedSize kernel howMuch).toNat := by
      unfold FreeSpace.free
      rw [hleft]
    refine ⟨hs.disjoint, ?_, .inr ⟨s'.free, ?_, ⟨Nat.le_refl _, Nat.le_refl _⟩, ?_⟩, ?_⟩
    · intro r hr
      rcases hs.givenFrom r hr with hzero | hin
      · exact .inl hzero
      · obtain ⟨q, hq, hin⟩ := hin
        refine .inr ⟨q, ?_, hin⟩
        rw [hnew]
        exact List.mem_cons_of_mem _ hq
    · rw [hnew, hfree]
      exact List.mem_cons_self
    · rw [hfree]
      exact hfresh.fits hmmap
    · intro r hr
      rcases hs.givenFrom r hr with hzero | hin
      · rw [hzero]
        exact Region.empty_disjoint _ _
      · obtain ⟨q, hq, hin⟩ := hin
        rw [hfree]
        exact hin.disjoint (hfresh.disjoint hmmap q hq)

omit hfresh in
/-- The front of the free space is handed out. -/
theorem Sound.take {s : FreeSpace K} {given : List Region} (hs : Sound kernel s given) {howMuch : UInt32}
    (hle : howMuch.toNat ≤ s.freeSpaceLeft.toNat) :
    Sound kernel (s.take howMuch) (regionAt s.addrFreeSpace howMuch.toNat :: given) := by
  have hsplit : s.free = ⟨s.addrFreeSpace.toNat, howMuch.toNat + (s.freeSpaceLeft.toNat - howMuch.toNat)⟩ := by
    rw [Nat.add_sub_cancel' hle]
    rfl
  have hfront : (regionAt s.addrFreeSpace howMuch.toNat).Inside s.free := by
    rw [hsplit]
    exact Region.front_inside _ _ _
  have hrest := take_free hs.free.end_le hle
  refine ⟨List.pairwise_cons.mpr ⟨?_, hs.disjoint⟩, List.forall_mem_cons.mpr ⟨?_, hs.givenFrom⟩, ?_,
    List.forall_mem_cons.mpr ⟨?_, ?_⟩⟩
  · intro r hr
    exact hfront.disjoint (hs.fresh r hr).symm
  · rcases hs.free with hzero | hin
    · left
      rw [hzero.2] at hle
      rw [hzero.1, Nat.le_zero.mp hle]
      rfl
    · obtain ⟨q, hq, hin, -⟩ := hin
      exact .inr ⟨q, hq, hfront.trans hin⟩
  · rcases hrest with hnone | hrest
    · exact .inl hnone
    · rcases hs.free with hzero | hin
      · left
        rw [hzero.2] at hle
        have hnone : howMuch = 0 := UInt32.toNat_inj.mp (Nat.le_zero.mp hle)
        unfold FreeSpace.take
        rw [hzero.1, hzero.2, hnone]
        exact ⟨rfl, rfl⟩
      · obtain ⟨q, hq, hin, hfits⟩ := hin
        rw [hsplit] at hin
        refine .inr ⟨q, hq, ?_, hfits⟩
        rw [hrest]
        exact (Region.rest_inside _ _ _).trans hin
  · rcases hrest with hnone | hrest
    · unfold FreeSpace.free regionAt
      rw [hnone.2]
      exact (Region.empty_disjoint _ _).symm
    · rw [hrest]
      exact Region.front_disjoint_rest _ _ _
  · intro r hr
    rcases hrest with hnone | hrest
    · unfold FreeSpace.free regionAt
      rw [hnone.2]
      exact (Region.empty_disjoint _ _).symm
    · have hfree := hs.fresh r hr
      rw [hsplit] at hfree
      rw [hrest]
      exact ((Region.rest_inside _ _ _).disjoint hfree.symm).symm

theorem Sound.get {s s' : FreeSpace K} {given : List Region} (hs : Sound kernel s given) {howMuch : UInt32}
    {answer : UInt64} (h : getFreeSpaceInTarget kernel s howMuch = .ok (answer, s')) :
    Sound kernel s' (regionAt answer howMuch.toNat :: given) := by
  obtain ⟨r, hr, h⟩ := bind_eq_ok.mp h
  cases h
  exact (hs.reserve hfresh hr).take (reserve_enough hr)

theorem FreeSpaceReach.sound {s : FreeSpace K} {given : List Region} (h : FreeSpaceReach kernel s given) :
    Sound kernel s given := by
  induction h with
  | init target => exact ⟨.nil, by simp, .inl ⟨rfl, rfl⟩, by simp⟩
  | reserve _ hcall ih => exact ih.reserve hfresh hcall
  | get _ hcall ih => exact ih.get hfresh hcall

/-- **The regions handed out are disjoint and lie in mappings, and what is left never goes below zero.** -/
theorem freeSpace_disjoint {s : FreeSpace K} {given : List Region} (h : FreeSpaceReach kernel s given) :
    given.Pairwise (fun r q => Disjoint r.bytes q.bytes) ∧
    (∀ r ∈ given, r = ⟨0, 0⟩ ∨ ∃ q ∈ kernel.mapped s.target, r.Inside q) ∧
    ∀ howMuch answer s', reserveFreeSpaceInTarget kernel s howMuch 0 = .ok (answer, s') →
      howMuch.toNat ≤ s'.freeSpaceLeft.toNat :=
  ⟨(h.sound hfresh).disjoint, (h.sound hfresh).givenFrom, fun _ _ _ hcall => reserve_enough hcall⟩

end

def onePage : Kernel (Option Region) where
  pageBits := ⟨12, by decide⟩
  mmapTarget k size _ :=
    if k = none ∧ size.toNat ≤ 65536 then .ok (65536, some (regionAt 65536 size.toNat)) else .error ptraceFailed
  mapped k := k.toList

theorem onePage_mmap {k k' : Option Region} {size desired answer : UInt64}
    (h : onePage.mmapTarget k size desired = .ok (answer, k')) :
    k = none ∧ size.toNat ≤ 65536 ∧ answer = 65536 ∧ k' = some (regionAt 65536 size.toNat) := by
  by_cases hfirst : k = none ∧ size.toNat ≤ 65536
  · have hmap : onePage.mmapTarget k size desired = .ok (65536, some (regionAt 65536 size.toNat)) := if_pos hfirst
    rw [hmap] at h
    cases h
    exact ⟨hfirst.1, hfirst.2, rfl, rfl⟩
  · have hmap : onePage.mmapTarget k size desired = .error ptraceFailed := if_neg hfirst
    rw [hmap] at h
    cases h

theorem onePage_fresh : onePage.Fresh where
  mapped h := by
    obtain ⟨hk, -, ha, hk'⟩ := onePage_mmap h
    rw [hk, ha, hk']
    rfl
  disjoint h := by
    obtain ⟨hk, -, -, -⟩ := onePage_mmap h
    rw [hk]
    intro q hq
    cases hq
  fits h := by
    obtain ⟨-, hsize, ha, -⟩ := onePage_mmap h
    rw [ha]
    show 65536 + _ ≤ _
    omega

/-- Two requests out of two pages. -/
theorem twoRequests_reach :
    FreeSpaceReach onePage ⟨70636, 3092, some ⟨65536, 8192⟩⟩ [⟨65636, 5000⟩, ⟨65536, 100⟩] := by
  have hreserve : FreeSpaceReach onePage ⟨65536, 8192, some ⟨65536, 8192⟩⟩ [] :=
    .reserve (.init none) (show reserveFreeSpaceInTarget onePage ⟨0, 0, none⟩ 5100 0 = .ok (65536, _) from rfl)
  have hfirst : FreeSpaceReach onePage ⟨65636, 8092, some ⟨65536, 8192⟩⟩ [⟨65536, 100⟩] :=
    .get hreserve (show getFreeSpaceInTarget onePage _ 100 = .ok (65536, _) from rfl)
  exact .get hfirst (show getFreeSpaceInTarget onePage _ 5000 = .ok (65636, _) from rfl)

theorem twoRequests_disjoint :
    [Region.mk 65636 5000, ⟨65536, 100⟩].Pairwise (fun r q => Disjoint r.bytes q.bytes) ∧
    (∀ r ∈ [Region.mk 65636 5000, ⟨65536, 100⟩], r = ⟨0, 0⟩ ∨ ∃ q ∈ [Region.mk 65536 8192], r.Inside q) ∧
    ∀ howMuch answer s', reserveFreeSpaceInTarget onePage ⟨70636, 3092, some ⟨65536, 8192⟩⟩ howMuch 0 = .ok (answer, s') →
      howMuch.toNat ≤ s'.freeSpaceLeft.toNat :=
  freeSpace_disjoint onePage_fresh twoRequests_reach

/-- A request for nothing before anything is mapped. -/
theorem not_given_in_mapping : ¬ ∀ (K : Type) (kernel : Kernel K), kernel.Fresh → ∀ s given, FreeSpaceReach kernel s given →
    ∀ r ∈ given, ∃ q ∈ kernel.mapped s.target, r.Inside q := by
  intro h
  have hreach : FreeSpaceReach onePage ⟨0, 0, none⟩ [⟨0, 0⟩] :=
    .get (.init none) (show getFreeSpaceInTarget onePage ⟨0, 0, none⟩ 0 = .ok (0, _) from rfl)
  obtain ⟨q, hq, -⟩ := h _ _ onePage_fresh _ _ hreach _ List.mem_cons_self
  cases hq

end Katana

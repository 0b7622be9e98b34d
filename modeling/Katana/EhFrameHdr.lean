/-
  Katana.EhFrameHdr — the search table of `.eh_frame_hdr`.

  The comparator is a difference of C ints, so `qsort` is defined exactly when no two initial
  locations lie 2^31 or more apart; then the table is a sorted index of the FDEs.

  Proved:
  - `qsort_sorted` / `compare_of_qsort`: what `qsort` does with a comparator that is a difference.
  - `entry_indexes` / `entry_distance`: an entry leads from the header to its FDE, and two differ as the FDEs do.
  - `hdr_index_iff`: the table is a correct index exactly when no two FDEs start 2^31 or more apart.
-/
import Mathlib.Data.List.Forall2
import Katana.FrameLayout

namespace Katana

open Lib

/-! ## qsort -/

section Qsort
variable {α : Type} {cmp : α → α → Except Fault Int} {key : α → Int}

theorem insertSorted_spec {a : α} {l : List α} (h : ∀ b ∈ l, cmp a b = .ok (key a - key b))
    (hs : l.Pairwise fun x y => key x ≤ key y) :
    ∃ l', insertSorted cmp a l = .ok l' ∧ l'.Perm (a :: l) ∧ l'.Pairwise fun x y => key x ≤ key y := by
  induction l with
  | nil => exact ⟨[a], rfl, List.Perm.refl _, List.pairwise_singleton _ _⟩
  | cons b l ih =>
    have hb := h b (by simp)
    obtain ⟨hble, hl⟩ := List.pairwise_cons.mp hs
    unfold insertSorted
    rw [hb, bind_ok]
    by_cases hle : key a - key b ≤ 0
    · rw [if_pos hle]
      refine ⟨_, rfl, List.Perm.refl _, List.pairwise_cons.mpr ⟨?_, hs⟩⟩
      intro x hx
      rcases List.mem_cons.mp hx with rfl | hx
      · omega
      · have := hble x hx
        omega
    · rw [if_neg hle]
      obtain ⟨l', hl', hperm, hsorted⟩ := ih (fun x hx => h x (by simp [hx])) hl
      rw [hl', bind_ok]
      refine ⟨_, rfl, (hperm.cons b).trans (List.Perm.swap a b l), List.pairwise_cons.mpr ⟨?_, hsorted⟩⟩
      intro x hx
      rcases List.mem_cons.mp (hperm.mem_iff.mp hx) with rfl | hx
      · omega
      · exact hble x hx

theorem foldr_insertSorted {l : List α} (h : ∀ a ∈ l, ∀ b ∈ l, cmp a b = .ok (key a - key b)) :
    ∃ l', l.foldrM (insertSorted cmp) [] = .ok l' ∧ l'.Perm l ∧ l'.Pairwise fun x y => key x ≤ key y := by
  induction l with
  | nil => exact ⟨[], rfl, List.Perm.refl _, List.Pairwise.nil⟩
  | cons a l ih =>
    obtain ⟨m, hm, hperm, hs⟩ := ih fun x hx y hy => h x (by simp [hx]) y (by simp [hy])
    obtain ⟨m', hm', hperm', hs'⟩ := insertSorted_spec
      (fun b hb => h a (by simp) b (List.mem_cons_of_mem _ (hperm.mem_iff.mp hb))) hs
    rw [List.foldrM_cons, hm, bind_ok]
    exact ⟨m', hm', hperm'.trans (hperm.cons a), hs'⟩

/-- **A comparator that is a difference sorts.** -/
theorem qsort_sorted {l : List α} (h : ∀ a ∈ l, ∀ b ∈ l, cmp a b = .ok (key a - key b)) :
    ∃ l', qsort cmp l = .ok l' ∧ l'.Perm l ∧ l'.Pairwise fun x y => key x ≤ key y := by
  have hdef : ∀ a ∈ l, ∀ b ∈ l, (cmp a b).isOk := by
    intro a ha b hb
    rw [h a ha b hb]
    rfl
  unfold qsort
  rw [defined_of hdef, bind_ok]
  exact foldr_insertSorted h

/-- With a comparison that is not defined nothing is. -/
theorem compare_of_qsort {l l' : List α} (h : qsort cmp l = .ok l') : ∀ a ∈ l, ∀ b ∈ l, ∃ d, cmp a b = .ok d := by
  obtain ⟨⟨⟩, hdef, -⟩ := bind_eq_ok.mp h
  intro a ha b hb
  have hok := defined_ok hdef a ha b hb
  cases hcmp : cmp a b with
  | error e => rw [hcmp] at hok; cases hok
  | ok d => exact ⟨d, rfl⟩

end Qsort

/-! ## The entries -/

def FitsInt32 (x : UInt64) : Prop := -2 ^ 31 ≤ x.toInt64.toInt ∧ x.toInt64.toInt < 2 ^ 31

instance (x : UInt64) : Decidable (FitsInt32 x) := inferInstanceAs (Decidable (_ ∧ _))

/-- Cutting a word to 32 bits and widening it as a signed number gives it back if it fits. -/
theorem addrOfInt_toInt32 {x : UInt64} (h : FitsInt32 x) : addrOfInt x.toInt64.toInt32 = x := by
  obtain ⟨hlo, hhi⟩ := h
  have hint : x.toInt64.toInt32.toInt64 = x.toInt64 := by
    rw [← Int64.toInt_inj, Int32.toInt_toInt64, Int64.toInt_toInt32]
    exact Int.bmod_eq_of_le (by norm_num; omega) (by norm_num; omega)
  unfold addrOfInt
  rw [hint]
  rfl

theorem toInt_toInt32 {x : UInt64} (h : FitsInt32 x) : x.toInt64.toInt32.toInt = x.toInt64.toInt := by
  obtain ⟨hlo, hhi⟩ := h
  rw [Int64.toInt_toInt32]
  exact Int.bmod_eq_of_le (by norm_num; omega) (by norm_num; omega)

section Index
variable {config : ElfBitwidth} {cfi : CallFrameInfo} {fdeOffsets : List Nat}

/-- The distances from the header to an FDE's code and to its record fit 32 bits. -/
def Near (cfi : CallFrameInfo) (fde : FDE) (fdeOffset : Nat) : Prop :=
  FitsInt32 (addrOfInt fde.lowpc - cfi.ehHdrAddress) ∧
    FitsInt32 (cfi.ehAddress + UInt64.ofNat fdeOffset - cfi.ehHdrAddress)

instance (cfi : CallFrameInfo) (fde : FDE) (fdeOffset : Nat) : Decidable (Near cfi fde fdeOffset) :=
  inferInstanceAs (Decidable (_ ∧ _))

/-- Added to the header's address, an entry's fields give the FDE's code and its record. -/
def Indexes (cfi : CallFrameInfo) (entry : EhFrameHdrTableEntry) (fde : FDE × Nat) : Prop :=
  cfi.ehHdrAddress + addrOfInt entry.initialLocation = addrOfInt fde.1.lowpc ∧
    cfi.ehHdrAddress + addrOfInt entry.fdeAddress = cfi.ehAddress + UInt64.ofNat fde.2

theorem entry_indexes {fde : FDE} {fdeOffset : Nat} (h : Near cfi fde fdeOffset) :
    Indexes cfi (hdrTableEntry cfi fde fdeOffset) (fde, fdeOffset) := by
  unfold Indexes hdrTableEntry
  rw [addrOfInt_toInt32 h.1, addrOfInt_toInt32 h.2]
  constructor <;> grind

/-- The distance of two entries is that of the FDEs' code. -/
theorem entry_distance {f g : FDE} {i j : Nat} (hf : Near cfi f i) (hg : Near cfi g j) :
    (hdrTableEntry cfi f i).initialLocation.toInt - (hdrTableEntry cfi g j).initialLocation.toInt =
      f.lowpc.toInt - g.lowpc.toInt := by
  have hval : ∀ x : Int32, (addrOfInt x - cfi.ehHdrAddress).toInt64.toInt =
      (x.toInt - cfi.ehHdrAddress.toInt64.toInt).bmod (2 ^ 64) := by
    intro x
    have hsub : (addrOfInt x - cfi.ehHdrAddress).toInt64 = x.toInt64 - cfi.ehHdrAddress.toInt64 := rfl
    rw [hsub, Int64.toInt_sub, Int32.toInt_toInt64]
  obtain ⟨hf0, hf1⟩ := hf.1
  obtain ⟨hg0, hg1⟩ := hg.1
  unfold hdrTableEntry
  rw [toInt_toInt32 hf.1, toInt_toInt32 hg.1]
  rw [hval] at hf0 hf1 hg0 hg1 ⊢
  rw [hval]
  have h1 := f.lowpc.toInt_lt
  have h2 := f.lowpc.le_toInt
  have h3 := g.lowpc.toInt_lt
  have h4 := g.lowpc.le_toInt
  simp only [Int.bmod_def] at *
  norm_num at *
  omega

/-- No two FDEs start 2^31 or more apart. -/
def Comparable (fdes : List FDE) : Prop := ∀ f ∈ fdes, ∀ g ∈ fdes, f.lowpc.toInt - g.lowpc.toInt < 2 ^ 31

instance (fdes : List FDE) : Decidable (Comparable fdes) := by unfold Comparable; infer_instance

/-- The entries written after the header are those of the FDEs, each of them leading to its FDE, in
non-decreasing order of initial location. -/
def HdrIndex (config : ElfBitwidth) (cfi : CallFrameInfo) (fdeOffsets : List Nat) : Prop :=
  ∃ table fdes, qsort compareEhFrameHdrTableEntries (hdrTable cfi fdeOffsets) = .ok table ∧
    fdes.Perm (cfi.fdes.zip fdeOffsets) ∧ List.Forall₂ (Indexes cfi) table fdes ∧
    (table.Pairwise fun a b => a.initialLocation.toInt ≤ b.initialLocation.toInt) ∧
    ∀ hdr, buildEhFrameHdr config cfi fdeOffsets = .ok hdr →
      ∃ ehFramePtr, hdr = hdrHeader cfi ehFramePtr ++ table.flatMap hdrEntryBytes

theorem perm_of_perm_map {α β : Type} {f : α → β} {l : List β} {m : List α} (h : l.Perm (m.map f)) :
    ∃ m' : List α, m'.Perm m ∧ m'.map f = l := by
  induction l generalizing m with
  | nil =>
    have hm : m = [] := by simpa using h.length_eq.symm
    exact ⟨[], by rw [hm], rfl⟩
  | cons b l ih =>
    obtain ⟨a, ha, rfl⟩ := List.mem_map.mp (h.mem_iff.mp (List.mem_cons_self ..))
    obtain ⟨s, t, rfl⟩ := List.append_of_mem ha
    have hrest : l.Perm ((s ++ t).map f) := by
      refine (List.perm_cons (f a)).mp (h.trans ?_)
      simp only [List.map_append, List.map_cons]
      exact List.perm_middle
    obtain ⟨m', hm', rfl⟩ := ih hrest
    exact ⟨a :: m', (hm'.cons a).trans List.perm_middle.symm, rfl⟩

theorem hdrTable_eq (cfi : CallFrameInfo) (fdeOffsets : List Nat) :
    hdrTable cfi fdeOffsets = (cfi.fdes.zip fdeOffsets).map fun p => hdrTableEntry cfi p.1 p.2 := by
  unfold hdrTable
  rw [List.map_zip_eq_zipWith]
  rfl

theorem buildEhFrameHdr_ok {hdr : List UInt8} (h : buildEhFrameHdr config cfi fdeOffsets = .ok hdr) :
    ∃ table ehFramePtr, qsort compareEhFrameHdrTableEntries (hdrTable cfi fdeOffsets) = .ok table ∧
      hdr = hdrHeader cfi ehFramePtr ++ table.flatMap hdrEntryBytes := by
  obtain ⟨⟨ehFramePtr, n⟩, -, h⟩ := bind_eq_ok.mp h
  obtain ⟨⟨⟩, -, h⟩ := bind_eq_ok.mp h
  obtain ⟨buf, hbuf, h⟩ := bind_eq_ok.mp h
  obtain ⟨table, htable, h⟩ := bind_eq_ok.mp h
  obtain ⟨buf', hbuf', h⟩ := bind_eq_ok.mp h
  cases h
  refine ⟨table, ehFramePtr, htable, ?_⟩
  rw [writeAll_ok hbuf', addToGrowingBuffer_ok hbuf, List.flatMap_def]
  rfl

/-- A comparison of two entries is defined exactly when their FDEs are less than 2^31 apart. -/
theorem compare_entries {f g : FDE} {i j : Nat} (hf : Near cfi f i) (hg : Near cfi g j) :
    compareEhFrameHdrTableEntries (hdrTableEntry cfi f i) (hdrTableEntry cfi g j) =
      if -2 ^ 31 ≤ f.lowpc.toInt - g.lowpc.toInt ∧ f.lowpc.toInt - g.lowpc.toInt < 2 ^ 31 then
        .ok ((hdrTableEntry cfi f i).initialLocation.toInt - (hdrTableEntry cfi g j).initialLocation.toInt)
      else .error .undefined := by
  unfold compareEhFrameHdrTableEntries
  rw [entry_distance hf hg]
  dsimp only
  by_cases h : -2 ^ 31 ≤ f.lowpc.toInt - g.lowpc.toInt ∧ f.lowpc.toInt - g.lowpc.toInt < 2 ^ 31
  · rw [defined_of h, if_pos h]; rfl
  · rw [defined_not h, if_neg h]; rfl

/-- **The search table is a correct index exactly when no two FDEs start 2^31 or more apart.** -/
theorem hdr_index_iff {stale : Nat → UInt32} {lsdaPointers : List UInt64} {sec : FrameSection}
    (h : buildFrameSection config cfi stale lsdaPointers = .ok sec)
    (hnear : ∀ p ∈ cfi.fdes.zip sec.fdeOffsets, Near cfi p.1 p.2) :
    HdrIndex config cfi sec.fdeOffsets ↔ Comparable cfi.fdes := by
  have hcount := (buildFrameSection_framed h).fdeCount
  constructor
  · rintro ⟨table, fdes, hq, -⟩
    have hoff : ∀ f ∈ cfi.fdes, ∃ i, (f, i) ∈ cfi.fdes.zip sec.fdeOffsets := by
      intro f hf
      obtain ⟨k, hk, rfl⟩ := List.getElem_of_mem hf
      exact ⟨sec.fdeOffsets[k], List.mem_iff_getElem.mpr ⟨k, by simp [hcount, hk], by simp⟩⟩
    intro f hf g hg
    obtain ⟨i, hi⟩ := hoff f hf
    obtain ⟨j, hj⟩ := hoff g hg
    rw [hdrTable_eq] at hq
    obtain ⟨d, hd⟩ := compare_of_qsort hq _ (List.mem_map_of_mem hi) _ (List.mem_map_of_mem hj)
    rw [compare_entries (hnear _ hi) (hnear _ hj)] at hd
    split at hd
    · rename_i hfit; exact hfit.2
    · cases hd
  · intro hc
    have hcmp : ∀ a ∈ hdrTable cfi sec.fdeOffsets, ∀ b ∈ hdrTable cfi sec.fdeOffsets,
        compareEhFrameHdrTableEntries a b = .ok (a.initialLocation.toInt - b.initialLocation.toInt) := by
      rw [hdrTable_eq]
      intro a ha b hb
      obtain ⟨p, hp, rfl⟩ := List.mem_map.mp ha
      obtain ⟨q, hq, rfl⟩ := List.mem_map.mp hb
      have h1 := hc p.1 (List.of_mem_zip hp).1 q.1 (List.of_mem_zip hq).1
      have h2 := hc q.1 (List.of_mem_zip hq).1 p.1 (List.of_mem_zip hp).1
      rw [compare_entries (hnear p hp) (hnear q hq), if_pos ⟨by omega, h1⟩]
    obtain ⟨table, htable, hperm, hsorted⟩ := qsort_sorted hcmp
    rw [hdrTable_eq] at hperm
    obtain ⟨fdes, hfdes, hmap⟩ := perm_of_perm_map hperm
    refine ⟨table, fdes, htable, hfdes, ?_, hsorted, ?_⟩
    · rw [← hmap, List.forall₂_map_left_iff]
      refine List.forall₂_same.mpr fun p hp => ?_
      exact entry_indexes (hnear p (hfdes.mem_iff.mp hp))
    · intro hdr hhdr
      obtain ⟨table', ptr, htable', hbytes⟩ := buildEhFrameHdr_ok hhdr
      rw [htable] at htable'
      cases htable'
      exact ⟨ptr, hbytes⟩

end Index

theorem hdr_index_sampleFrame : ∃ sec, buildFrameSection .elf64 sampleFrame (fun _ => 0) [] = .ok sec ∧
    (HdrIndex .elf64 sampleFrame sec.fdeOffsets ↔ Comparable sampleFrame.fdes) := by
  have hbuilt : (buildFrameSection .elf64 sampleFrame (fun _ => 0) []).map FrameSection.fdeOffsets = .ok [20, 40] := by
    decide +kernel
  obtain ⟨sec, hsec, hoff⟩ := written_at hbuilt
  exact ⟨sec, hsec, hdr_index_iff hsec (by rw [hoff]; decide +kernel)⟩

/-- Code at 0x70000000 and at 0x90000000, which is negative as an int. -/
def farFrame : CallFrameInfo :=
  { sampleFrame with fdes := [⟨0, [], 0x70000000, 0x70000010, false, 0, 0⟩, ⟨0, [], -0x70000000, -0x6ffffff0, false, 0, 0⟩] }

theorem not_hdr_index_farFrame : ¬ ∀ (config : ElfBitwidth) (cfi : CallFrameInfo) (stale : Nat → UInt32)
    (lsdaPointers : List UInt64) (sec : FrameSection), buildFrameSection config cfi stale lsdaPointers = .ok sec →
    (∀ p ∈ cfi.fdes.zip sec.fdeOffsets, Near cfi p.1 p.2) → HdrIndex config cfi sec.fdeOffsets := by
  intro h
  have hbuilt : (buildFrameSection .elf64 farFrame (fun _ => 0) []).map FrameSection.fdeOffsets = .ok [20, 40] := by
    decide +kernel
  obtain ⟨sec, hsec, hoff⟩ := written_at hbuilt
  obtain ⟨table, fdes, hq, -⟩ := h _ _ _ _ _ hsec (by rw [hoff]; decide +kernel)
  rw [hoff] at hq
  have hbad : qsort compareEhFrameHdrTableEntries (hdrTable farFrame [20, 40]) = .error .undefined := by decide +kernel
  rw [hbad] at hq
  cases hq

end Katana

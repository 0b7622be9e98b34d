/-
  Katana.OffsetMap — the map from the offsets of FDEs to FDEs (readDebugFrame).

  The map holds the slots of the array. The array is sorted after that, also for a patch object, whose
  FDEs are to stay where they are.

  Proved, for every object that can be read:
  - `loadFDE_run`: before the sort the map leads from each offset to the FDE's own slot.
  - `Sorts.eq`: which arrays `qsort` leaves alone.
  - `indexedRight_iff`: exactly when the map and the array are right after the sort.
-/
import Katana.DebugFrame
import Katana.EhFrameHdr
import Mathlib.Data.List.Chain
import Mathlib.Data.List.Perm.Lattice

namespace Katana

open Lib

/-! ## The sort -/

/-- What `qsort` may leave of an array: elements that compare as equal come in any order. -/
structure Sorts {α : Type} (cmp : α → α → Except Fault Int) (l l' : List α) : Prop where
  perm : l'.Perm l
  sorted : l'.Pairwise fun a b => ∃ d, cmp a b = .ok d ∧ d ≤ 0

def fdeCmp (a b : LoadedFDE) : Except Fault Int :=
  defined (Nodes.fitsInt (a.lowpc.toInt - b.lowpc.toInt)) >>= fun _ => .ok (a.lowpc.toInt - b.lowpc.toInt)

/-- Any two FDEs can be compared. -/
def LowpcsComparable (fdes : List LoadedFDE) : Prop := ∀ a ∈ fdes, ∀ b ∈ fdes, (fdeCmp a b).isOk

section Sorting
variable {fdes fdes' : List LoadedFDE}

theorem fdeCmp_isOk {a b : LoadedFDE} : (fdeCmp a b).isOk ↔ Nodes.fitsInt (a.lowpc.toInt - b.lowpc.toInt) := by
  unfold fdeCmp
  by_cases h : Nodes.fitsInt (a.lowpc.toInt - b.lowpc.toInt)
  · rw [defined_of h]
    exact iff_of_true rfl h
  · rw [defined_not h]
    exact iff_of_false Bool.false_ne_true h

theorem fdeCmp_eq {a b : LoadedFDE} (h : (fdeCmp a b).isOk) : fdeCmp a b = .ok (a.lowpc.toInt - b.lowpc.toInt) := by
  unfold fdeCmp
  rw [defined_of (fdeCmp_isOk.mp h)]
  rfl

theorem sorts_iff (h : LowpcsComparable fdes) :
    Sorts fdeCmp fdes fdes' ↔ fdes'.Perm fdes ∧ fdes'.Pairwise fun a b => a.lowpc.toInt ≤ b.lowpc.toInt := by
  have hcmp (hperm : fdes'.Perm fdes) : ∀ a ∈ fdes', ∀ b ∈ fdes',
      (∃ d, fdeCmp a b = .ok d ∧ d ≤ 0) ↔ a.lowpc.toInt ≤ b.lowpc.toInt := by
    intro a ha b hb
    rw [fdeCmp_eq (h a (hperm.mem_iff.mp ha) b (hperm.mem_iff.mp hb))]
    constructor
    · intro hd
      obtain ⟨d, hd, hle⟩ := hd
      cases hd
      omega
    · exact fun hle => ⟨_, rfl, by omega⟩
  constructor
  · intro hs
    exact ⟨hs.perm, hs.sorted.imp_of_mem fun {a b} ha hb => (hcmp hs.perm a ha b hb).mp⟩
  · intro hs
    exact ⟨hs.1, hs.2.imp_of_mem fun {a b} ha hb => (hcmp hs.1 a ha b hb).mpr⟩

/-- A comparator that is defined leaves something. -/
theorem sorts_exists (h : LowpcsComparable fdes) : ∃ fdes', Sorts fdeCmp fdes fdes' := by
  obtain ⟨fdes', -, hperm, hsorted⟩ := @qsort_sorted LoadedFDE fdeCmp (fun fde => fde.lowpc.toInt) fdes
    fun a ha b hb => fdeCmp_eq (h a ha b hb)
  exact ⟨fdes', (sorts_iff h).mpr ⟨hperm, hsorted⟩⟩

/-- **An array in strictly ascending order is left alone.** -/
theorem Sorts.eq (h : LowpcsComparable fdes) (hasc : fdes.Pairwise fun a b => a.lowpc.toInt < b.lowpc.toInt)
    (hs : Sorts fdeCmp fdes fdes') : fdes' = fdes := by
  obtain ⟨hperm, hsorted⟩ := (sorts_iff h).mp hs
  refine hperm.eq_of_pairwise ?_ hsorted (hasc.imp Int.le_of_lt)
  intro a b ha hb hab hba
  by_contra hne
  obtain ⟨i, hi, rfl⟩ := List.mem_iff_getElem.mp (hperm.mem_iff.mp ha)
  obtain ⟨j, hj, rfl⟩ := List.mem_iff_getElem.mp hb
  have hlt := List.pairwise_iff_getElem.mp hasc
  rcases Nat.lt_trichotomy i j with hij | rfl | hij
  · have := hlt i j hi hj hij
    omega
  · exact hne rfl
  · have := hlt j i hj hi hij
    omega

/-- **Only such an array is**, if no two of its elements are the same. -/
theorem ascending_of_sorts (h : LowpcsComparable fdes) (hnodup : fdes.Nodup) (heq : ∀ fdes', Sorts fdeCmp fdes fdes' → fdes' = fdes) :
    fdes.Pairwise fun a b => a.lowpc.toInt < b.lowpc.toInt := by
  obtain ⟨fdes', hs⟩ := sorts_exists h
  have hself := heq fdes' hs
  subst hself
  have hsorted := ((sorts_iff h).mp hs).2
  have htrans : IsTrans LoadedFDE fun a b => a.lowpc.toInt < b.lowpc.toInt := ⟨fun _ _ _ => Int.lt_trans⟩
  rw [← List.isChain_iff_pairwise, List.isChain_iff_forall_rel_of_append_cons_cons]
  intro a b pre post hl
  subst hl
  have hab : a.lowpc.toInt ≤ b.lowpc.toInt := by
    have htail := (List.pairwise_append.mp hsorted).2.1
    exact (List.pairwise_cons.mp htail).1 b List.mem_cons_self
  by_contra hno
  have hkey : a.lowpc.toInt = b.lowpc.toInt := by omega
  -- the two exchanged are in order as well
  have hswap : Sorts fdeCmp (pre ++ a :: b :: post) (pre ++ b :: a :: post) := by
    refine (sorts_iff h).mpr ⟨(List.Perm.swap a b post).append_left pre, ?_⟩
    simp only [List.pairwise_append, List.pairwise_cons, List.mem_cons, forall_eq_or_imp] at hsorted ⊢
    grind
  have heq' := heq _ hswap
  have hba := List.append_cancel_left heq'
  injection hba with hba
  subst hba
  have := (List.nodup_append.mp hnodup).2.1
  simp at this

end Sorting

/-! ## The loop over the FDEs -/

def DwarfFde.lowpc (dfde : DwarfFde) : Int32 := dfde.lowPC.toUInt32.toInt32

/-- The map leads from the keys of the FDEs to their slots. -/
structure SlotsTracked (dfdes : List DwarfFde) (st : FrameRead) (l : Chain.Entries Int32 Nat) : Prop where
  holds : Chain.Holds Nodes.intKeys.hashing st.result.heap st.result.map (fun _ => True) l
  told : Chain.ToldApart Nodes.intKeys.hashing l
  hashed : ∀ n ∈ l, Nodes.intKeys.hashed n.2.key = .ok ()
  keys : (Chain.keysOf l).Nodup
  entries : (l.map fun n => (n.2.key, n.2.data)).Perm ((dfdes.map DwarfFde.key).zipIdx)
  offsets : st.fdes.map (·.offset) = dfdes.map DwarfFde.key
  lowpcs : st.fdes.map (fun fde => fde.lowpc) = dfdes.map DwarfFde.lowpc

theorem intKeys_same (key : Int32) : Nodes.intKeys.hashing.same key key = .ok true := by
  show (defined (Nodes.fitsInt (key.toInt - key.toInt)) >>= fun _ => _) = _
  rw [Int.sub_self, defined_of (by decide)]
  show Except.ok (decide (key - key = 0)) = _
  rw [Int32.sub_self]
  rfl

section Loop
variable {config : ElfBitwidth} {object : FrameObject} {cies : List LoadedCIE} {st st' : FrameRead} {dfde : DwarfFde}

/-- The augmentation data change neither offset nor address. -/
theorem readFDEAugmentation_kept {cie : CIE} {fde : LoadedFDE} {lsdaPointers : List UInt64}
    {r : LoadedFDE × List UInt64} (h : readFDEAugmentation config object cie dfde fde lsdaPointers = .ok r) :
    r.1.offset = fde.offset ∧ r.1.lowpc = fde.lowpc := by
  unfold readFDEAugmentation at h
  split at h
  · obtain ⟨off, -, h⟩ := bind_eq_ok.mp h
    unfold parseFDEAugmentationData at h
    split at h
    · obtain ⟨pointer, -, h⟩ := bind_eq_ok.mp h
      obtain ⟨found, -, h⟩ := bind_eq_ok.mp h
      cases h
      exact ⟨rfl, rfl⟩
    · cases h
      exact ⟨rfl, rfl⟩
  · cases h
    exact ⟨rfl, rfl⟩

/-- What one turn does to the array, the pointers and the map. -/
theorem loadFDE_eq_ok (h : loadFDE config object cies st dfde = .ok st') :
    ∃ loaded instrs fde lsdaPointers, cies[dfde.cieIndex]? = some loaded ∧
      readFDEAugmentation config object loaded.cie dfde (dfde.toFDE object.isPO st.fdes.length instrs) st.lsdaPointers =
        .ok (fde, lsdaPointers) ∧
      Nodes.mapInsert Nodes.intKeys st.result.heap st.result.map dfde.key st.fdes.length =
        .ok (st'.result.heap, st'.result.map) ∧
      st'.fdes = st.fdes ++ [fde] ∧ st'.lsdaPointers = lsdaPointers := by
  unfold loadFDE at h
  cases hcie : cies[dfde.cieIndex]? with
  | none =>
    rw [hcie] at h
    cases h
  | some loaded =>
    rw [hcie] at h
    obtain ⟨⟨instrs, rest⟩, -, h⟩ := bind_eq_ok.mp h
    obtain ⟨⟨fde, lsdaPointers⟩, hread, h⟩ := bind_eq_ok.mp h
    obtain ⟨⟨heap, map⟩, hins, h⟩ := bind_eq_ok.mp h
    cases h
    exact ⟨loaded, instrs, fde, lsdaPointers, rfl, hread, hins, rfl, rfl⟩

theorem SlotsTracked.step {dfdes : List DwarfFde} {l : Chain.Entries Int32 Nat} (ht : SlotsTracked dfdes st l)
    (h : loadFDE config object cies st dfde = .ok st') : ∃ l', SlotsTracked (dfdes ++ [dfde]) st' l' := by
  obtain ⟨loaded, instrs, fde, lsdaPointers, -, hread, hins, hfdes, -⟩ := loadFDE_eq_ok h
  obtain ⟨hoffset, hlowpc⟩ := readFDEAugmentation_kept hread
  obtain ⟨_, hhash, hins⟩ := bind_eq_ok.mp hins
  obtain ⟨r, hins, hret⟩ := bind_eq_ok.mp hins
  obtain ⟨_, -, hret⟩ := bind_eq_ok.mp hret
  cases hret
  obtain ⟨n, l', hn, hperm, hholds, htold, hnew⟩ := ht.holds.insert_told ht.told trivial hins
  have hlen : st.fdes.length = dfdes.length := by
    have h := congrArg List.length ht.offsets
    simpa using h
  refine ⟨l', hholds, htold, ?_, ?_, ?_, ?_, ?_⟩
  · intro m hm
    rcases List.mem_cons.mp (hperm.mem_iff.mp hm) with rfl | hm
    · rw [hn]
      exact hhash
    · exact ht.hashed m hm
  · have hnotin := ht.holds.notin_of_told (intKeys_same dfde.key) hnew
    have hkeys : (Chain.keysOf l').Perm (n.2.key :: Chain.keysOf l) := hperm.map _
    rw [hkeys.nodup_iff, List.nodup_cons, hn]
    exact ⟨hnotin, ht.keys⟩
  · have hentry : (n.2.key, n.2.data) = (dfde.key, dfdes.length) := by rw [hn, ← hlen]
    have hmap := hperm.map fun m => (m.2.key, m.2.data)
    rw [List.map_cons, hentry] at hmap
    refine hmap.trans ?_
    rw [List.map_append, List.zipIdx_append, List.length_map, Nat.zero_add]
    exact ((ht.entries.cons _).trans (List.perm_append_singleton _ _).symm)
  · rw [hfdes, List.map_append, List.map_append, ht.offsets]
    exact congrArg _ (congrArg (fun x => [x]) hoffset)
  · rw [hfdes, List.map_append, List.map_append, ht.lowpcs]
    exact congrArg _ (congrArg (fun x => [x]) hlowpc)

/-- **The map leads to the FDE's own slot** when all are read. -/
theorem loadFDE_run (h : object.fdes.foldlM (loadFDE config object cies) .start = .ok st) :
    ∃ l, SlotsTracked object.fdes st l := by
  refine foldlM_ok (P := fun dfdes st => ∃ l, SlotsTracked dfdes st l) h ?_ ?_
  · exact ⟨[], Chain.Holds.create _ _, fun _ => List.Pairwise.nil, by simp, List.nodup_nil, .nil, rfl, rfl⟩
  · intro dfdes dfde rest st st' _ ht hstep
    obtain ⟨l, ht⟩ := ht
    exact ht.step hstep

/-- The slot of an FDE. -/
theorem SlotsTracked.get {dfdes : List DwarfFde} {l : Chain.Entries Int32 Nat} (ht : SlotsTracked dfdes st l) {i : Nat}
    (hi : dfdes[i]? = some dfde) : Nodes.mapGet Nodes.intKeys st.result.heap st.result.map dfde.key = .ok (some i) := by
  have hmem : (dfde.key, i) ∈ (dfdes.map DwarfFde.key).zipIdx := by
    rw [List.mem_zipIdx_iff_getElem?, List.getElem?_map, hi]
    rfl
  obtain ⟨n, hn, hentry⟩ := List.mem_map.mp (ht.entries.mem_iff.mpr hmem)
  obtain ⟨hkey, hdata⟩ := Prod.mk.inj hentry
  unfold Nodes.mapGet
  rw [← hkey, ht.hashed n hn, bind_ok, ht.holds.get_told ht.told hn trivial (intKeys_same _), hdata]

/-- The offsets are all different. -/
theorem SlotsTracked.nodup {dfdes : List DwarfFde} {l : Chain.Entries Int32 Nat} (ht : SlotsTracked dfdes st l) :
    (dfdes.map DwarfFde.key).Nodup := by
  have hkeys := ht.entries.map Prod.fst
  rw [List.map_map, List.zipIdx_map_fst] at hkeys
  exact hkeys.nodup_iff.mp ht.keys

end Loop

/-! ## After the sort -/

/-- The map leads from the section offset of each FDE to an FDE with that offset. -/
def OffsetsResolve (dfdes : List DwarfFde) (result : Nodes.MapState Int32 Nat) (fdes : List LoadedFDE) : Prop :=
  ∀ dfde ∈ dfdes, ∃ slot fde, Nodes.mapGet Nodes.intKeys result.heap result.map dfde.key = .ok (some slot) ∧
    fdes[slot]? = some fde ∧ fde.offset.toInt = dfde.fdeOffset.toNat

/-- The sort is defined, and whatever it leaves, the map is right, and a patch object's FDEs are where they were. -/
structure IndexedRight (object : FrameObject) (frame : FrameRead) : Prop where
  comparable : LowpcsComparable frame.fdes
  resolve : ∀ fdes, Sorts fdeCmp frame.fdes fdes → OffsetsResolve object.fdes frame.result fdes
  fileOrder : object.isPO = true → ∀ fdes, Sorts fdeCmp frame.fdes fdes → fdes = frame.fdes

/-- The FDEs come in strictly ascending order of their addresses as ints, none too far from another, and their offsets
are ints. -/
structure AscendingFDEs (dfdes : List DwarfFde) : Prop where
  ascending : dfdes.Pairwise fun a b => a.lowpc.toInt < b.lowpc.toInt
  close : ∀ a ∈ dfdes, ∀ b ∈ dfdes, Nodes.fitsInt (a.lowpc.toInt - b.lowpc.toInt)
  offsets : ∀ a ∈ dfdes, a.fdeOffset.toNat < 2 ^ 31

section Index
variable {config : ElfBitwidth} {object : FrameObject} {st : FrameRead} {dfdes : List DwarfFde} {l : Chain.Entries Int32 Nat}

/-- What is said of the addresses read is said of those in the array. -/
theorem SlotsTracked.comparable_iff (ht : SlotsTracked dfdes st l) :
    LowpcsComparable st.fdes ↔ ∀ a ∈ dfdes, ∀ b ∈ dfdes, Nodes.fitsInt (a.lowpc.toInt - b.lowpc.toInt) := by
  have hall (P : Int32 → Prop) : (∀ fde ∈ st.fdes, P fde.lowpc) ↔ ∀ dfde ∈ dfdes, P dfde.lowpc := by
    have h1 := List.forall_mem_map (P := P) (f := fun fde : LoadedFDE => fde.lowpc) (l := st.fdes)
    have h2 := List.forall_mem_map (P := P) (f := DwarfFde.lowpc) (l := dfdes)
    rw [← h1, ← h2, ht.lowpcs]
  unfold LowpcsComparable
  simp only [fdeCmp_isOk]
  rw [hall fun x => ∀ fde ∈ st.fdes, Nodes.fitsInt (x.toInt - fde.lowpc.toInt)]
  exact forall₂_congr fun a _ => hall fun y => Nodes.fitsInt (a.lowpc.toInt - y.toInt)

theorem SlotsTracked.ascending_iff (ht : SlotsTracked dfdes st l) :
    (st.fdes.Pairwise fun a b => a.lowpc.toInt < b.lowpc.toInt) ↔
      dfdes.Pairwise fun a b => a.lowpc.toInt < b.lowpc.toInt := by
  have h1 := List.pairwise_map (f := fun fde : LoadedFDE => fde.lowpc) (R := fun a b => a.toInt < b.toInt) (l := st.fdes)
  have h2 := List.pairwise_map (f := DwarfFde.lowpc) (R := fun a b => a.toInt < b.toInt) (l := dfdes)
  rw [← h1, ← h2, ht.lowpcs]

/-- An offset is kept as it is exactly when it is an int. -/
theorem key_eq_iff (dfde : DwarfFde) : dfde.key.toInt = dfde.fdeOffset.toNat ↔ dfde.fdeOffset.toNat < 2 ^ 31 := by
  have hlt := dfde.fdeOffset.toNat_lt
  have hkey : dfde.key.toInt = Int.bmod (dfde.fdeOffset.toNat % 2 ^ 32 : Nat) (2 ^ 32) := by
    show dfde.fdeOffset.toUInt32.toBitVec.toInt = _
    rw [BitVec.toInt_eq_toNat_bmod]
    show Int.bmod (dfde.fdeOffset.toUInt32.toNat : Int) _ = _
    rw [UInt64.toNat_toUInt32]
  rw [hkey, Int.bmod_def]
  split <;> omega

/-- Where each FDE has its own slot, it is found there exactly when its offset is an int. -/
theorem SlotsTracked.resolve_iff (ht : SlotsTracked dfdes st l) {fdes : List LoadedFDE} (hlen : fdes.length = st.fdes.length) :
    OffsetsResolve dfdes st.result fdes ↔
      fdes.map (·.offset) = st.fdes.map (·.offset) ∧ ∀ dfde ∈ dfdes, dfde.fdeOffset.toNat < 2 ^ 31 := by
  constructor
  · intro h
    have hslot : ∀ (i : Nat) (dfde : DwarfFde), dfdes[i]? = some dfde →
        ∃ fde, fdes[i]? = some fde ∧ fde.offset.toInt = dfde.fdeOffset.toNat := by
      intro i dfde hi
      obtain ⟨slot, fde, hget, hfde, hoffset⟩ := h dfde (List.mem_of_getElem? hi)
      rw [ht.get hi] at hget
      cases hget
      exact ⟨fde, hfde, hoffset⟩
    have hint : ∀ dfde ∈ dfdes, dfde.fdeOffset.toNat < 2 ^ 31 := by
      intro dfde hmem
      obtain ⟨i, hi⟩ := List.mem_iff_getElem?.mp hmem
      obtain ⟨fde, -, hoffset⟩ := hslot i dfde hi
      have hle := fde.offset.toInt_lt
      omega
    refine ⟨?_, hint⟩
    rw [ht.offsets]
    have hlen' : st.fdes.length = dfdes.length := by
      have hmap := congrArg List.length ht.offsets
      simpa using hmap
    apply List.ext_getElem?
    intro i
    rw [List.getElem?_map, List.getElem?_map]
    cases hi : dfdes[i]? with
    | none =>
      rw [List.getElem?_eq_none_iff] at hi
      rw [List.getElem?_eq_none_iff.mpr (by omega)]
      rfl
    | some dfde =>
      obtain ⟨fde, hfde, hoffset⟩ := hslot i dfde hi
      rw [hfde]
      have hkey := (key_eq_iff dfde).mpr (hint dfde (List.mem_of_getElem? hi))
      exact congrArg some (Int32.toInt_inj.mp (hoffset.trans hkey.symm))
  · intro h dfde hmem
    obtain ⟨hoffsets, hint⟩ := h
    obtain ⟨i, hi⟩ := List.mem_iff_getElem?.mp hmem
    have hoff : (fdes.map (·.offset))[i]? = some dfde.key := by
      rw [hoffsets, ht.offsets, List.getElem?_map, hi]
      rfl
    rw [List.getElem?_map] at hoff
    obtain ⟨fde, hfde, hoffset⟩ := Option.map_eq_some_iff.mp hoff
    refine ⟨i, fde, ht.get hi, hfde, ?_⟩
    rw [hoffset]
    exact (key_eq_iff dfde).mpr (hint dfde hmem)

/-- The offsets tell the FDEs of the array apart. -/
theorem SlotsTracked.eq_of_offsets (ht : SlotsTracked dfdes st l) {fdes : List LoadedFDE} (hperm : fdes.Perm st.fdes)
    (h : fdes.map (·.offset) = st.fdes.map (·.offset)) : fdes = st.fdes := by
  have hnodup : (st.fdes.map (·.offset)).Nodup := by
    rw [ht.offsets]
    exact ht.nodup
  refine List.ext_getElem hperm.length_eq ?_
  intro i hi hi'
  have hoffset : fdes[i].offset = st.fdes[i].offset := by
    have hget := congrArg (·[i]?) h
    simpa [hi, hi'] using hget
  exact List.inj_on_of_nodup_map hnodup (hperm.mem_iff.mp (List.getElem_mem hi)) (List.getElem_mem hi') hoffset

end Index

/-- What the array and the map hold is right after the sort exactly when the FDEs come in strictly ascending order. -/
theorem SlotsTracked.right_iff_ascending {object : FrameObject} {frame : FrameRead} {l : Chain.Entries Int32 Nat}
    (ht : SlotsTracked object.fdes frame l) : IndexedRight object frame ↔ AscendingFDEs object.fdes := by
  have hnodup : frame.fdes.Nodup := by
    have hkeys := ht.nodup
    rw [← ht.offsets] at hkeys
    exact hkeys.of_map
  constructor
  · intro hright
    have hleft : ∀ fdes, Sorts fdeCmp frame.fdes fdes → fdes = frame.fdes := by
      intro fdes hs
      have hresolve := (ht.resolve_iff hs.perm.length_eq).mp (hright.resolve fdes hs)
      exact ht.eq_of_offsets hs.perm hresolve.1
    obtain ⟨fdes, hs⟩ := sorts_exists hright.comparable
    exact {
      ascending := ht.ascending_iff.mp (ascending_of_sorts hright.comparable hnodup hleft)
      close := ht.comparable_iff.mp hright.comparable
      offsets := ((ht.resolve_iff hs.perm.length_eq).mp (hright.resolve fdes hs)).2 }
  · intro hasc
    have hcmp := ht.comparable_iff.mpr hasc.close
    have hleft : ∀ fdes, Sorts fdeCmp frame.fdes fdes → fdes = frame.fdes :=
      fun fdes hs => hs.eq hcmp (ht.ascending_iff.mpr hasc.ascending)
    exact {
      comparable := hcmp
      resolve := fun fdes hs => by
        rw [hleft fdes hs]
        exact (ht.resolve_iff rfl).mpr ⟨rfl, hasc.offsets⟩
      fileOrder := fun _ => hleft }

/-- The FDEs of an object that was read, with their slots. -/
theorem readDebugFrame_tracked {config : ElfBitwidth} {object : FrameObject} {stateStack : List (Dictionary PoRegRule)}
    {contents : FrameContents} (h : readDebugFrame config object stateStack = .ok contents) :
    ∃ l, SlotsTracked object.fdes contents.frame l := by
  unfold readDebugFrame at h
  obtain ⟨hdr, -, h⟩ := bind_eq_ok.mp h
  obtain ⟨cies, -, h⟩ := bind_eq_ok.mp h
  obtain ⟨frame, hframe, h⟩ := bind_eq_ok.mp h
  obtain ⟨exceptTable, -, h⟩ := bind_eq_ok.mp h
  cases h
  exact loadFDE_run hframe

/-- **The map and the array are right after the sort** exactly when the file has its FDEs in strictly ascending order. -/
theorem indexedRight_iff {config : ElfBitwidth} {object : FrameObject} {stateStack : List (Dictionary PoRegRule)}
    {contents : FrameContents} (h : readDebugFrame config object stateStack = .ok contents) :
    IndexedRight object contents.frame ↔ AscendingFDEs object.fdes := by
  obtain ⟨l, ht⟩ := readDebugFrame_tracked h
  exact ht.right_iff_ascending

/-- A patch object with three FDEs. -/
def ascendingObject : FrameObject where
  isPO := true
  isEHFrame := false
  ehAddress := 0
  ehFrameHdr := none
  exceptTable := none
  cies := [⟨3, [], 1, -8, 16, [], 0, [], 0⟩]
  fdes := [⟨0, [], 0, 0x1000, 8, [], 16, []⟩, ⟨0, [], 0, 0x1800, 8, [], 40, []⟩, ⟨0, [], 0, 0x2000, 8, [], 64, []⟩]

theorem indexedRight_ascendingObject : ∃ contents, readDebugFrame .elf64 ascendingObject [] = .ok contents ∧
    IndexedRight ascendingObject contents.frame := by
  have hok : (readDebugFrame .elf64 ascendingObject []).isOk := by decide +kernel
  cases h : readDebugFrame .elf64 ascendingObject [] with
  | error e =>
    rw [h] at hok
    cases hok
  | ok contents => exact ⟨contents, rfl, (indexedRight_iff h).mpr ⟨by decide, by decide, by decide⟩⟩

/-- A patch object with two FDEs, the one with the higher address first. -/
def descendingObject : FrameObject where
  isPO := true
  isEHFrame := false
  ehAddress := 0
  ehFrameHdr := none
  exceptTable := none
  cies := [⟨3, [], 1, -8, 16, [], 0, [], 0⟩]
  fdes := [⟨0, [], 0, 0x2000, 8, [], 16, []⟩, ⟨0, [], 0, 0x1000, 8, [], 40, []⟩]

theorem descendingObject_read : ∃ contents, readDebugFrame .elf64 descendingObject [] = .ok contents := by
  have hok : (readDebugFrame .elf64 descendingObject []).isOk := by decide +kernel
  cases h : readDebugFrame .elf64 descendingObject [] with
  | error e =>
    rw [h] at hok
    cases hok
  | ok contents => exact ⟨contents, rfl⟩

/-- Not every object's FDEs are where the map leads to. -/
theorem not_indexedRight : ¬ ∀ (config : ElfBitwidth) (object : FrameObject) (stateStack : List (Dictionary PoRegRule))
    (contents : FrameContents), readDebugFrame config object stateStack = .ok contents →
      IndexedRight object contents.frame := by
  intro h
  obtain ⟨contents, hread⟩ := descendingObject_read
  obtain ⟨l, ht⟩ := readDebugFrame_tracked hread
  have hasc := (ht.right_iff_ascending.mp (h _ _ _ _ hread)).ascending
  revert hasc
  decide

end Katana

/-
  Katana.Lsda.Layout — where the action records lie and what they say.

  The writer's loop fills `actionIdxToOffset` as it goes. `Inv` is what holds between two records:
  each record written so far starts at its offset and links to the offset of its next action, the
  records do not overlap, and the action about to be written is promised the end of the buffer.

  Proved:
  - `Inv.finish` / `Inv.promise` / `Inv.follow`: what one record, or the promise of one, does to the invariant.
  - `chain_inv`: a chain keeps the invariant, and what was placed stays placed.
  - `writeActionTable_laid`: every action of a table that is written has its record, and no two overlap.
-/
import Katana.Lsda.Build

namespace Katana

open Lib

/-! ## Records -/

def ActionRecord.next (action : ActionRecord) : Option Nat :=
  if action.hasNextAction then some action.nextAction.toNat else none

/-- The displacement to the next record, from where it is written; zero for none. -/
def linkOf (o : Nat → Nat) (k : Nat) (action : ActionRecord) : Int :=
  match action.next with
  | some m => o m - (o k + ulebLen action.typeWord.toNat : Nat)
  | none => 0

def recordBytes (o : Nat → Nat) (k : Nat) (action : ActionRecord) : List UInt8 :=
  uleb action.typeWord.toNat ++ sleb (linkOf o k action)

def ActionState.offset (st : ActionState) (k : Nat) : Nat := st.actionIdxToOffset.getD k 0

theorem recordBytes_length (o : Nat → Nat) (k : Nat) (action : ActionRecord) :
    (recordBytes o k action).length = ulebLen action.typeWord.toNat + slebLen (linkOf o k action) := by
  simp [recordBytes]

theorem recordBytes_pos (o : Nat → Nat) (k : Nat) (action : ActionRecord) : 0 < (recordBytes o k action).length := by
  have := ulebLen_pos action.typeWord.toNat
  rw [recordBytes_length]; omega

theorem recordBytes_congr {o o' : Nat → Nat} {k : Nat} {action : ActionRecord} (hk : o k = o' k)
    (hnext : ∀ m, action.next = some m → o m = o' m) : recordBytes o k action = recordBytes o' k action := by
  unfold recordBytes linkOf
  cases hn : action.next with
  | none => rfl
  | some m => simp only [hk, hnext m hn]

/-- A zero offset means not written, except for the first action. -/
def Placed (o : Nat → Nat) (k : Nat) : Prop := k = 0 ∨ o k ≠ 0

/-! ## The invariant -/

/-- The records written so far, with `pend` the one that is promised the end of the buffer. -/
structure Inv (acts : List ActionRecord) (bytes : List UInt8) (o : Nat → Nat) (pend : Option Nat) : Prop where
  record : ∀ k a, acts[k]? = some a → Placed o k → pend ≠ some k → ∃ rest, bytes.drop (o k) = recordBytes o k a ++ rest
  closed : ∀ k a m, acts[k]? = some a → Placed o k → pend ≠ some k → a.next = some m → Placed o m ∧ m < acts.length
  apart : ∀ j k a, j < acts.length → acts[k]? = some a → Placed o j → Placed o k → pend ≠ some k →
    o j < o k + (recordBytes o k a).length → o j ≤ o k
  inj : ∀ j k, j < acts.length → k < acts.length → Placed o j → Placed o k → o j = o k → j = k
  pending : ∀ i, pend = some i → o i = bytes.length ∧ Placed o i ∧ i < acts.length
  last : pend = none → ∃ k a, acts[k]? = some a ∧ bytes.drop (o k) = recordBytes o k a
  small : ∀ k, k < acts.length → Placed o k → o k ≤ bytes.length

theorem lt_of_getElem? {α : Type} {l : List α} {k : Nat} {a : α} (h : l[k]? = some a) : k < l.length :=
  (List.getElem?_eq_some_iff.mp h).1

theorem getElem?_range {n i k : Nat} (h : (List.range n)[i]? = some k) : i = k ∧ k < n := by
  obtain ⟨hlt, hget⟩ := List.getElem?_eq_some_iff.mp h
  rw [List.getElem_range] at hget
  rw [List.length_range] at hlt
  exact ⟨hget, by omega⟩

/-- A record ends inside the buffer. -/
theorem record_end {bytes x rest : List UInt8} {n : Nat} (hpos : 0 < x.length) (h : bytes.drop n = x ++ rest) :
    n + x.length ≤ bytes.length := by
  have hlen := congrArg List.length h
  simp only [List.length_drop, List.length_append] at hlen
  omega

theorem drop_extend {bytes x y rest : List UInt8} {n : Nat} (hpos : 0 < x.length) (h : bytes.drop n = x ++ rest) :
    (bytes ++ y).drop n = x ++ (rest ++ y) := by
  have := record_end hpos h
  rw [List.drop_append_of_le_length (by omega), h, List.append_assoc]

section Extend
variable {acts : List ActionRecord} {bytes : List UInt8} {o o' : Nat → Nat} {i : Nat} {a : ActionRecord}

/-- Writing the pending record, the last of its chain. -/
theorem Inv.finish (hi : Inv acts bytes o (some i)) (ha : acts[i]? = some a)
    (hnext : ∀ m, a.next = some m → Placed o m ∧ m < acts.length) : Inv acts (bytes ++ recordBytes o i a) o none := by
  obtain ⟨hend, hplaced, hlt⟩ := hi.pending i rfl
  refine ⟨?_, ?_, ?_, hi.inj, nofun, ?_, ?_⟩
  · intro k b hb hk _
    by_cases hki : k = i
    · subst hki
      rw [ha] at hb
      cases hb
      exact ⟨[], by rw [hend, List.drop_left, List.append_nil]⟩
    · obtain ⟨rest, hrest⟩ := hi.record k b hb hk (by simpa using Ne.symm hki)
      exact ⟨_, drop_extend (recordBytes_pos _ _ _) hrest⟩
  · intro k b m hb hk _ hm
    by_cases hki : k = i
    · subst hki
      rw [ha] at hb
      cases hb
      exact hnext m hm
    · exact hi.closed k b m hb hk (by simpa using Ne.symm hki) hm
  · intro j k b hj hb hjp hkp _ hlt'
    by_cases hki : k = i
    · subst hki
      rw [hend]
      exact hi.small j hj hjp
    · exact hi.apart j k b hj hb hjp hkp (by simpa using Ne.symm hki) hlt'
  · intro _
    exact ⟨i, a, ha, by rw [hend, List.drop_left]⟩
  · intro k hk hkp
    have := hi.small k hk hkp
    rw [List.length_append]; omega

/-- What holds of the records already there when an action that is not placed yet gets an offset past them. -/
structure Fresh (acts : List ActionRecord) (bytes : List UInt8) (o o' : Nat → Nat) (pend : Option Nat) (m : Nat) : Prop where
  other : ∀ k, k ≠ m → o' k = o k
  placed : ∀ k, k ≠ m → (Placed o' k ↔ Placed o k)
  bytes_eq : ∀ k b, acts[k]? = some b → Placed o k → pend ≠ some k → recordBytes o' k b = recordBytes o k b
  record : ∀ k b, acts[k]? = some b → Placed o k → pend ≠ some k → k ≠ m →
    ∃ rest, bytes.drop (o' k) = recordBytes o' k b ++ rest
  closed : ∀ k b n, acts[k]? = some b → Placed o k → pend ≠ some k → b.next = some n → Placed o' n ∧ n < acts.length

theorem Inv.fresh {pend : Option Nat} {m v : Nat} (hi : Inv acts bytes o pend) (hnew : ¬ Placed o m)
    (ho : o' = Function.update o m v) : Fresh acts bytes o o' pend m := by
  have hne : ∀ k, k ≠ m → o' k = o k := fun k hk => by rw [ho, Function.update_of_ne hk]
  have hold : ∀ k, k ≠ m → (Placed o' k ↔ Placed o k) := fun k hk => by unfold Placed; rw [hne k hk]
  have hkm : ∀ k, Placed o k → k ≠ m := by rintro k hk rfl; exact hnew hk
  have hnm : ∀ k b n, acts[k]? = some b → Placed o k → pend ≠ some k → b.next = some n → n ≠ m :=
    fun k b n hb hk hp hn => hkm n (hi.closed k b n hb hk hp hn).1
  have hrec : ∀ k b, acts[k]? = some b → Placed o k → pend ≠ some k → recordBytes o' k b = recordBytes o k b :=
    fun k b hb hk hp => recordBytes_congr (hne k (hkm k hk)) fun n hn => hne n (hnm k b n hb hk hp hn)
  refine ⟨hne, hold, hrec, ?_, ?_⟩
  · intro k b hb hk hp hkm'
    rw [hrec k b hb hk hp, hne k hkm']
    exact hi.record k b hb hk hp
  · intro k b n hb hk hp hn
    obtain ⟨hpn, hlt⟩ := hi.closed k b n hb hk hp hn
    exact ⟨(hold n (hkm n hpn)).mpr hpn, hlt⟩

/-- Promising the end of the buffer to an action that is not placed yet. -/
theorem Inv.promise {m : Nat} (hi : Inv acts bytes o none) (hm : m < acts.length) (hnew : ¬ Placed o m)
    (ho : o' = Function.update o m bytes.length) : Inv acts bytes o' (some m) := by
  have hf := hi.fresh hnew ho
  have hom : o' m = bytes.length := by rw [ho, Function.update_self]
  -- an offset in use is inside the buffer
  have hused : ∀ k, k < acts.length → k ≠ m → Placed o' k → o' k < bytes.length := by
    intro k hk hkm hkp
    obtain ⟨rest, hrest⟩ := hi.record k _ (List.getElem?_eq_getElem hk) ((hf.placed k hkm).mp hkp) nofun
    have := record_end (recordBytes_pos _ _ _) hrest
    have := recordBytes_pos o k acts[k]
    rw [hf.other k hkm]; omega
  have hbytes : 0 < bytes.length := by
    obtain ⟨k, b, hb, hlast⟩ := hi.last rfl
    have := record_end (recordBytes_pos o k b) (hlast.trans (List.append_nil _).symm)
    have := recordBytes_pos o k b
    omega
  refine ⟨?_, ?_, ?_, ?_, ?_, nofun, ?_⟩
  · intro k b hb hk hkm
    have hkm' : k ≠ m := by simpa using Ne.symm hkm
    exact hf.record k b hb ((hf.placed k hkm').mp hk) nofun hkm'
  · intro k b n hb hk hkm hn
    have hkm' : k ≠ m := by simpa using Ne.symm hkm
    exact hf.closed k b n hb ((hf.placed k hkm').mp hk) nofun hn
  · intro j k b hj hb hjp hkp hkm hlt
    have hkm' : k ≠ m := by simpa using Ne.symm hkm
    have hk := (hf.placed k hkm').mp hkp
    by_cases hjm : j = m
    · obtain ⟨rest, hrest⟩ := hf.record k b hb hk nofun hkm'
      have := record_end (recordBytes_pos _ _ _) hrest
      rw [hjm, hom] at hlt
      omega
    · rw [hf.bytes_eq k b hb hk nofun, hf.other k hkm', hf.other j hjm] at hlt
      rw [hf.other k hkm', hf.other j hjm]
      exact hi.apart j k b hj hb ((hf.placed j hjm).mp hjp) hk nofun hlt
  · intro j k hj hk hjp hkp heq
    by_cases hjm : j = m
    · by_cases hkm : k = m
      · rw [hjm, hkm]
      · have := hused k hk hkm hkp
        rw [← heq, hjm, hom] at this
        omega
    · by_cases hkm : k = m
      · have := hused j hj hjm hjp
        rw [heq, hkm, hom] at this
        omega
      · rw [hf.other j hjm, hf.other k hkm] at heq
        exact hi.inj j k hj hk ((hf.placed j hjm).mp hjp) ((hf.placed k hkm).mp hkp) heq
  · intro n hn
    cases hn
    exact ⟨hom, .inr (by omega), hm⟩
  · intro k hk hkp
    by_cases hkm : k = m
    · rw [hkm, hom]
    · exact (hused k hk hkm hkp).le

/-- Writing the pending record with a link to an action that is not placed yet, which is promised the end of
the buffer after it. -/
theorem Inv.follow {m : Nat} (hi : Inv acts bytes o (some i)) (ha : acts[i]? = some a) (hn : a.next = some m)
    (hm : m < acts.length) (hnew : ¬ Placed o m)
    (ho : o' = Function.update o m (bytes ++ recordBytes o' i a).length) :
    Inv acts (bytes ++ recordBytes o' i a) o' (some m) := by
  obtain ⟨hend, hplaced, hlt⟩ := hi.pending i rfl
  have hf := hi.fresh hnew ho
  have him : i ≠ m := by rintro rfl; exact hnew hplaced
  have hom : o' m = bytes.length + (recordBytes o' i a).length := by
    rw [ho, Function.update_self, ← ho, List.length_append]
  have hoi : o' i = bytes.length := by rw [hf.other i him, hend]
  have hpos := recordBytes_pos o' i a
  have hmp : Placed o' m := .inr (by omega)
  have hall : ∀ k b, acts[k]? = some b → Placed o' k → k ≠ m →
      ∃ rest, (bytes ++ recordBytes o' i a).drop (o' k) = recordBytes o' k b ++ rest := by
    intro k b hb hk hkm
    by_cases hki : k = i
    · subst hki
      rw [ha] at hb
      cases hb
      exact ⟨[], by rw [hoi, List.drop_left, List.append_nil]⟩
    · obtain ⟨rest, hrest⟩ := hf.record k b hb ((hf.placed k hkm).mp hk) (by simpa using Ne.symm hki) hkm
      exact ⟨_, drop_extend (recordBytes_pos _ _ _) hrest⟩
  have hused : ∀ k, k < acts.length → k ≠ m → Placed o' k → o' k < (bytes ++ recordBytes o' i a).length := by
    intro k hk hkm hkp
    obtain ⟨rest, hrest⟩ := hall k _ (List.getElem?_eq_getElem hk) hkp hkm
    have := record_end (recordBytes_pos _ _ _) hrest
    have := recordBytes_pos o' k acts[k]
    omega
  have hsmall : ∀ k, k < acts.length → k ≠ m → Placed o' k → o' k ≤ bytes.length := by
    intro k hk hkm hkp
    rw [hf.other k hkm]
    exact hi.small k hk ((hf.placed k hkm).mp hkp)
  refine ⟨?_, ?_, ?_, ?_, ?_, nofun, ?_⟩
  · intro k b hb hk hkm
    exact hall k b hb hk (by simpa using Ne.symm hkm)
  · intro k b n hb hk hkm hbn
    have hkm' : k ≠ m := by simpa using Ne.symm hkm
    by_cases hki : k = i
    · subst hki
      rw [ha] at hb
      cases hb
      rw [hn] at hbn
      cases hbn
      exact ⟨hmp, hm⟩
    · exact hf.closed k b n hb ((hf.placed k hkm').mp hk) (by simpa using Ne.symm hki) hbn
  · intro j k b hj hb hjp hkp hkm hjk
    have hkm' : k ≠ m := by simpa using Ne.symm hkm
    by_cases hjm : j = m
    · obtain ⟨rest, hrest⟩ := hall k b hb hkp hkm'
      have := record_end (recordBytes_pos _ _ _) hrest
      rw [List.length_append] at this
      rw [hjm, hom] at hjk
      omega
    · by_cases hki : k = i
      · rw [hki, hoi]
        exact hsmall j hj hjm hjp
      · have hk := (hf.placed k hkm').mp hkp
        have hpk : some i ≠ some k := by simpa using Ne.symm hki
        rw [hf.bytes_eq k b hb hk hpk, hf.other k hkm', hf.other j hjm] at hjk
        rw [hf.other k hkm', hf.other j hjm]
        exact hi.apart j k b hj hb ((hf.placed j hjm).mp hjp) hk hpk hjk
  · intro j k hj hk hjp hkp heq
    by_cases hjm : j = m
    · by_cases hkm : k = m
      · rw [hjm, hkm]
      · have := hused k hk hkm hkp
        rw [← heq, hjm, hom, List.length_append] at this
        omega
    · by_cases hkm : k = m
      · have := hused j hj hjm hjp
        rw [heq, hkm, hom, List.length_append] at this
        omega
      · rw [hf.other j hjm, hf.other k hkm] at heq
        exact hi.inj j k hj hk ((hf.placed j hjm).mp hjp) ((hf.placed k hkm).mp hkp) heq
  · intro n hn'
    cases hn'
    exact ⟨by rw [hom, List.length_append], hmp, hm⟩
  · intro k hk hkp
    by_cases hkm : k = m
    · rw [hkm, hom, List.length_append]
    · exact (hused k hk hkm hkp).le

end Extend

/-! ## The writer's loops -/

theorem next_some {a : ActionRecord} {m : Nat} : a.next = some m ↔ a.hasNextAction = true ∧ a.nextAction.toNat = m := by
  unfold ActionRecord.next
  split <;> simp_all

theorem next_none {a : ActionRecord} : a.next = none ↔ a.hasNextAction = false := by
  unfold ActionRecord.next
  split <;> simp_all

theorem offset_set {st : ActionState} {idx : Nat} (buf : GrowingBuffer) (v : Nat) (h : idx < st.actionIdxToOffset.length) :
    ActionState.offset ⟨buf, st.actionIdxToOffset.set idx v⟩ = Function.update st.offset idx v := by
  funext k
  unfold ActionState.offset
  by_cases hk : k = idx
  · subst hk
    simp [h]
  · rw [Function.update_of_ne hk]
    simp [Ne.symm hk]

/-- What one record adds: the type index, then the link. -/
theorem data_record {buf buf1 buf2 : GrowingBuffer} {action : ActionRecord} (o : Nat → Nat) (idx : Nat)
    (h1 : addUlebToGrowingBuffer buf action.typeWord.toNat = .ok buf1)
    (h2 : buf2.data = buf1.data ++ sleb (linkOf o idx action)) : buf2.data = buf.data ++ recordBytes o idx action := by
  rw [h2, addUlebToGrowingBuffer_ok action.typeWord.toNat_lt h1, recordBytes, List.append_assoc]

/-- What is known of the offsets while the record of `idx` is written. -/
def ActionState.promised (st : ActionState) (idx : Nat) : Nat → Nat := Function.update st.offset idx st.buf.len

@[simp] theorem ActionState.promised_self (st : ActionState) (idx : Nat) :
  st.promised idx idx = st.buf.len := Function.update_self ..

theorem ActionState.promised_ne (st : ActionState) {idx k : Nat} (hk : k ≠ idx) : st.promised idx k = st.offset k :=
  Function.update_of_ne hk ..

/-- One record, and what follows it: nothing, an action that is written already, or one that is written next. -/
theorem writeChain_cases {acts : List ActionRecord} {fuel : Nat} {st st' : ActionState} {idx : Nat}
    (h : writeChain acts (fuel + 1) st idx = .ok st') (hlen : st.actionIdxToOffset.length = acts.length) :
    ∃ a buf1 buf2, acts[idx]? = some a ∧ addUlebToGrowingBuffer st.buf a.typeWord.toNat = .ok buf1 ∧
      ((a.next = none ∧ addToGrowingBuffer buf1 [0] = .ok buf2 ∧ st' = ⟨buf2, st.actionIdxToOffset.set idx st.buf.len⟩) ∨
        ∃ m, a.next = some m ∧ m < acts.length ∧
          ((Placed (st.promised idx) m ∧ addSlebToGrowingBuffer buf1
          (UInt64.ofInt (st.promised idx m - buf1.len)).toNat = .ok buf2 ∧
              st' = ⟨buf2, st.actionIdxToOffset.set idx st.buf.len⟩) ∨
            (¬ Placed (st.promised idx) m ∧ addToGrowingBuffer buf1 [1] = .ok buf2 ∧
              writeChain acts fuel ⟨buf2, st.actionIdxToOffset.set idx st.buf.len⟩ m = .ok st'))) := by
  unfold writeChain at h
  cases ha : acts[idx]? with
  | none =>
    rw [ha] at h
    cases h
  | some a =>
    rw [ha] at h
    dsimp only at h
    obtain ⟨⟨⟩, -, h⟩ := bind_eq_ok.mp h
    obtain ⟨buf1, h1, h⟩ := bind_eq_ok.mp h
    by_cases hnext : a.hasNextAction = true
    · rw [if_pos hnext] at h
      cases htarget : (st.actionIdxToOffset.set idx st.buf.len)[a.nextAction.toNat]? with
      | none =>
        rw [htarget] at h
        cases h
      | some target =>
        rw [htarget] at h
        dsimp only at h
        have hm : a.nextAction.toNat < acts.length := by
          have hlt := lt_of_getElem? htarget
          rw [List.length_set, hlen] at hlt
          exact hlt
        have hpromised : st.promised idx a.nextAction.toNat = target := by
          unfold ActionState.promised
          rw [← offset_set st.buf st.buf.len (show idx < st.actionIdxToOffset.length by rw [hlen]; exact lt_of_getElem? ha)]
          unfold ActionState.offset
          rw [List.getD_eq_getElem?_getD, htarget, Option.getD_some]
        have hplaced : (target ≠ 0 ∨ a.nextAction = 0) ↔ Placed (st.promised idx) a.nextAction.toNat := by
          unfold Placed
          rw [hpromised, or_comm]
          exact or_congr_left ⟨fun h0 => by rw [h0]; rfl, fun h0 => UInt64.toNat_inj.mp h0⟩
        rw [← hpromised] at h hplaced
        by_cases hwritten : Placed (st.promised idx) a.nextAction.toNat
        · rw [if_pos (hplaced.mpr hwritten)] at h
          obtain ⟨buf2, h2, h⟩ := bind_eq_ok.mp h
          cases h
          exact ⟨a, buf1, buf2, rfl, h1, .inr ⟨_, next_some.mpr ⟨hnext, rfl⟩, hm, .inl ⟨hwritten, h2, rfl⟩⟩⟩
        · rw [if_neg fun hnot => hwritten (hplaced.mp hnot)] at h
          obtain ⟨buf2, h2, h⟩ := bind_eq_ok.mp h
          exact ⟨a, buf1, buf2, rfl, h1, .inr ⟨_, next_some.mpr ⟨hnext, rfl⟩, hm, .inr ⟨hwritten, h2, h⟩⟩⟩
    · rw [if_neg hnext] at h
      obtain ⟨buf2, h2, h⟩ := bind_eq_ok.mp h
      cases h
      exact ⟨a, buf1, buf2, rfl, h1, .inl ⟨next_none.mpr (by simpa using hnext), h2, rfl⟩⟩

/-- Behind the type of a record. -/
theorem len_type {buf buf1 : GrowingBuffer} {a : ActionRecord} (h : addUlebToGrowingBuffer buf a.typeWord.toNat = .ok buf1) :
    buf1.len = buf.len + ulebLen a.typeWord.toNat := by
  unfold GrowingBuffer.len
  rw [addUlebToGrowingBuffer_ok a.typeWord.toNat_lt h, List.length_append, length_uleb]

/-- **A chain keeps the invariant**, and what was placed stays placed. -/
theorem chain_inv {acts : List ActionRecord} {fuel : Nat} {st st' : ActionState} {idx : Nat}
    (h : writeChain acts fuel st idx = .ok st') (hlen : st.actionIdxToOffset.length = acts.length)
    (hi : Inv acts st.buf.data (st.promised idx) (some idx)) :
    Inv acts st'.buf.data st'.offset none ∧ st'.actionIdxToOffset.length = acts.length ∧
      ∀ k, Placed (st.promised idx) k → Placed st'.offset k := by
  induction fuel generalizing st idx with
  | zero => cases h
  | succ fuel ih =>
    obtain ⟨hend, hself, hidx⟩ := hi.pending idx rfl
    have hoffset : ∀ buf, ActionState.offset ⟨buf, st.actionIdxToOffset.set idx st.buf.len⟩ = st.promised idx := fun buf =>
      offset_set buf _ (by omega)
    have hlength : (st.actionIdxToOffset.set idx st.buf.len).length = acts.length := by rw [List.length_set, hlen]
    have hstart : (st.buf.data.length : Nat) = st.buf.len := rfl
    obtain ⟨a, buf1, buf2, ha, h1, ⟨hnone, h2, hst'⟩ | ⟨m, hnext, hm, ⟨hplaced, h2, hst'⟩ | ⟨hnew, h2, hrest⟩⟩⟩ :=
      writeChain_cases h hlen
    · have hlink : linkOf (st.promised idx) idx a = 0 := by
        unfold linkOf
        rw [hnone]
      have hdata := data_record (st.promised idx) idx h1 (by rw [hlink, addToGrowingBuffer_ok h2]; rfl)
      rw [hst', hoffset]
      refine ⟨?_, hlength, fun k hk => hk⟩
      rw [hdata]
      refine hi.finish ha ?_
      intro m hm
      rw [hnone] at hm
      cases hm
    · have hlen1 := len_type h1
      have hsmall := hi.small _ hm hplaced
      have hb0 := st.buf.len_lt
      have hb1 := buf1.len_lt
      have hlink : linkOf (st.promised idx) idx a = (st.promised idx m : Int) - buf1.len := by
        unfold linkOf
        rw [hnext]
        dsimp only
        rw [hend, hlen1]
        rfl
      have hdata := data_record (st.promised idx) idx h1
        (by rw [hlink]; exact addSlebToGrowingBuffer_ok (by omega) (by omega) h2)
      rw [hst', hoffset]
      refine ⟨?_, hlength, fun k hk => hk⟩
      rw [hdata]
      refine hi.finish ha ?_
      intro m' hm'
      cases hnext.symm.trans hm'
      exact ⟨hplaced, hm⟩
    · have hlen1 := len_type h1
      have hd2 := addToGrowingBuffer_ok h2
      have hlen2 : buf2.len = buf1.len + 1 := by
        unfold GrowingBuffer.len
        rw [hd2, List.length_append]
        rfl
      set o' := Function.update (st.promised idx) m buf2.len with ho'
      have him : idx ≠ m := by
        intro heq
        rw [← heq] at hnew
        exact hnew hself
      have hlink : linkOf o' idx a = 1 := by
        unfold linkOf
        rw [hnext]
        dsimp only
        rw [ho', Function.update_self, Function.update_of_ne him, hend, hlen2, hlen1]
        push_cast
        omega
      have hdata : buf2.data = st.buf.data ++ recordBytes o' idx a := data_record o' idx h1 (by rw [hlink, hd2]; rfl)
      have hpromised : ActionState.promised ⟨buf2, st.actionIdxToOffset.set idx st.buf.len⟩ m = o' := by
        rw [ho', ← hoffset buf2]
        rfl
      have hi2 : Inv acts buf2.data o' (some m) := by
        rw [hdata]
        refine hi.follow ha hnext hm hnew ?_
        rw [← hdata]
        exact ho'
      rw [← hpromised] at hi2
      obtain ⟨hfin, hfinlen, hmono⟩ := ih hrest hlength hi2
      refine ⟨hfin, hfinlen, fun k hk => hmono k ?_⟩
      rw [hpromised, ho']
      have hkm : k ≠ m := by
        intro heq
        rw [heq] at hk
        exact hnew hk
      unfold Placed at hk ⊢
      rw [Function.update_of_ne hkm]
      exact hk

/-! ## The whole table -/

/-- Where every action's record lies, with the offset of the next action in it. -/
structure Laid (acts : List ActionRecord) (bytes : List UInt8) (o : Nat → Nat) : Prop where
  record : ∀ k a, acts[k]? = some a → ∃ rest, bytes.drop (o k) = recordBytes o k a ++ rest
  closed : ∀ (k : Nat) (a : ActionRecord) (m : Nat), acts[k]? = some a → a.next = some m → m < acts.length
  apart : ∀ j k a, j < acts.length → acts[k]? = some a → o j < o k + (recordBytes o k a).length → o j ≤ o k
  inj : ∀ j k, j < acts.length → k < acts.length → o j = o k → j = k
  last : acts ≠ [] → ∃ k a, acts[k]? = some a ∧ bytes.drop (o k) = recordBytes o k a
  empty : acts = [] → bytes = []

/-- The first action is promised the start of the buffer. -/
theorem inv_zero {acts : List ActionRecord} (hacts : 0 < acts.length) (o : Nat → Nat) (ho : ∀ k, o k = 0) :
    Inv acts [] o (some 0) := by
  have hfirst : ∀ k, Placed o k → k = 0 := by
    intro k hk
    rcases hk with hk | hk
    · exact hk
    · exact absurd (ho k) hk
  refine ⟨?_, ?_, ?_, ?_, ?_, nofun, ?_⟩
  · intro k a _ hk hne
    exact absurd (congrArg some (hfirst k hk).symm) hne
  · intro k a m _ hk hne
    exact absurd (congrArg some (hfirst k hk).symm) hne
  · intro j k a _ _ _ hk hne
    exact absurd (congrArg some (hfirst k hk).symm) hne
  · intro j k _ _ hj hk _
    rw [hfirst j hj, hfirst k hk]
  · intro i hi
    cases hi
    exact ⟨ho 0, .inl rfl, hacts⟩
  · intro k _ _
    rw [ho k]
    exact Nat.zero_le _

theorem offset_replicate (n : Nat) (buf : GrowingBuffer) (k : Nat) : ActionState.offset ⟨buf, List.replicate n 0⟩ k = 0 := by
  unfold ActionState.offset
  rw [List.getD_eq_getElem?_getD, List.getElem?_replicate]
  split <;> rfl

/-- The first turn of the outer loop. -/
theorem writeAction_first {acts : List ActionRecord} {st' : ActionState} (hacts : 0 < acts.length)
    (h : writeAction acts ⟨.zero, List.replicate acts.length 0⟩ 0 = .ok st') :
    Inv acts st'.buf.data st'.offset none ∧ st'.actionIdxToOffset.length = acts.length := by
  have hget : (List.replicate acts.length 0).getD 0 0 = 0 := offset_replicate acts.length .zero 0
  unfold writeAction at h
  rw [if_neg (not_not.mpr hget)] at h
  have hzeros : ∀ k, Function.update (ActionState.offset ⟨.zero, List.replicate acts.length 0⟩) 0 0 k = 0 := by
    intro k
    by_cases hk : k = 0
    · rw [hk, Function.update_self]
    · rw [Function.update_of_ne hk, offset_replicate]
  obtain ⟨hi, hlen, -⟩ := chain_inv h List.length_replicate (inv_zero hacts _ hzeros)
  exact ⟨hi, hlen⟩

/-- The turns after it. -/
theorem writeAction_inv {acts : List ActionRecord} {st st' : ActionState} {j : Nat} (h : writeAction acts st j = .ok st')
    (hlen : st.actionIdxToOffset.length = acts.length) (hi : Inv acts st.buf.data st.offset none)
    (hj : j < acts.length) (hpos : j ≠ 0) :
    Inv acts st'.buf.data st'.offset none ∧ st'.actionIdxToOffset.length = acts.length ∧ Placed st'.offset j ∧
      ∀ k, Placed st.offset k → Placed st'.offset k := by
  unfold writeAction at h
  by_cases hzero : st.actionIdxToOffset.getD j 0 ≠ 0
  · rw [if_pos hzero] at h
    cases h
    exact ⟨hi, hlen, .inr hzero, fun _ hk => hk⟩
  · rw [if_neg hzero] at h
    have hnew : ¬ Placed st.offset j := not_or.mpr ⟨hpos, hzero⟩
    obtain ⟨hi', hlen', hmono⟩ := chain_inv h hlen (hi.promise hj hnew rfl)
    refine ⟨hi', hlen', hmono j ?_, ?_⟩
    · obtain ⟨k, a, -, hlast⟩ := hi.last rfl
      have hend := record_end (recordBytes_pos st.offset k a) (hlast.trans (List.append_nil _).symm)
      have hrecord := recordBytes_pos st.offset k a
      refine .inr ?_
      rw [ActionState.promised_self]
      unfold GrowingBuffer.len
      omega
    · intro k hk
      refine hmono k ?_
      have hkj : k ≠ j := by
        intro heq
        rw [heq] at hk
        exact hnew hk
      unfold Placed at hk ⊢
      rw [st.promised_ne hkj]
      exact hk

/-- **Every action is written**, whatever the links are. -/
theorem writeActionTable_laid {acts : List ActionRecord} {st : ActionState} (h : writeActionTable acts = .ok st) :
    Laid acts st.buf.data st.offset ∧ st.actionIdxToOffset.length = acts.length := by
  by_cases hacts : acts = []
  · subst hacts
    cases h
    exact ⟨⟨nofun, nofun, nofun, nofun, fun hne => absurd rfl hne, fun _ => rfl⟩, rfl⟩
  · have hlength : 0 < acts.length := List.length_pos_iff.mpr hacts
    -- after the first turn the invariant holds, and every turn places its action
    have hall := foldlM_ok (P := fun (done : List Nat) st => st.actionIdxToOffset.length = acts.length ∧
        (done = [] → st = ⟨.zero, List.replicate acts.length 0⟩) ∧
        (done ≠ [] → Inv acts st.buf.data st.offset none ∧ ∀ k ∈ done, Placed st.offset k)) h
      ⟨List.length_replicate, fun _ => rfl, fun hne => absurd rfl hne⟩ ?_
    · obtain ⟨hlen, -, hdone⟩ := hall
      obtain ⟨hi, hplaced⟩ := hdone (by simp [hacts])
      have hplaced : ∀ k, k < acts.length → Placed st.offset k := fun k hk => hplaced k (List.mem_range.mpr hk)
      refine ⟨⟨?_, ?_, ?_, ?_, fun _ => hi.last rfl, fun hempty => absurd hempty hacts⟩, hlen⟩
      · intro k a ha
        exact hi.record k a ha (hplaced k (lt_of_getElem? ha)) nofun
      · intro k a m ha hm
        exact (hi.closed k a m ha (hplaced k (lt_of_getElem? ha)) nofun hm).2
      · intro j k a hj ha
        exact hi.apart j k a hj ha (hplaced j hj) (hplaced k (lt_of_getElem? ha)) nofun
      · intro j k hj hk
        exact hi.inj j k hj hk (hplaced j hj) (hplaced k hk)
    · intro done j rest st1 st2 hrange ⟨hlen, hfirst, hdone⟩ hstep
      have hj : (List.range acts.length)[done.length]? = some j := by
        rw [hrange]
        simp
      obtain ⟨hj, hlt⟩ := getElem?_range hj
      by_cases hempty : done = []
      · have hzero : j = 0 := by
          rw [← hj, hempty]
          rfl
        rw [hfirst hempty, hzero] at hstep
        obtain ⟨hi, hlen'⟩ := writeAction_first hlength hstep
        refine ⟨hlen', by simp, fun _ => ⟨hi, ?_⟩⟩
        intro k hk
        rw [hempty, List.nil_append, List.mem_singleton, hzero] at hk
        exact .inl hk
      · obtain ⟨hi, hplaced⟩ := hdone hempty
        have hpos : j ≠ 0 := by
          rw [← hj]
          exact fun hzero => hempty (List.length_eq_zero_iff.mp hzero)
        obtain ⟨hi', hlen', hplaced', hmono⟩ := writeAction_inv hstep hlen hi (by omega) hpos
        refine ⟨hlen', by simp, fun _ => ⟨hi', ?_⟩⟩
        intro k hk
        rcases List.mem_append.mp hk with hk | hk
        · exact hmono k (hplaced k hk)
        · rw [List.mem_singleton.mp hk]
          exact hplaced'

end Katana

/-
  Katana.Lsda.ActionTable — the call-site and action tables read back (readCallSiteTable and readActionTable in
exceptTable.c).

  The reader follows the chain of every call site and numbers the records as it meets them; it knows them by their
  offsets. A displacement is made relative to the start of its record before it is asked whether it is zero, so an action
  that follows itself comes back without a next one.

  Proved:
  - `followChain_reads`: what has been read of a chain is the actions it visits, in that order, each with its type and,
    but for one that follows itself, the place of the next one.
-/
import Mathlib.Data.Finset.Card
import Mathlib.Data.Finset.Range
import Katana.Lsda.TypeBase

namespace Katana

open Lib

/-! ## One record -/

/-- A displacement `leb128ToSWord` can read. -/
def LinkReadable (o : Nat → Nat) (k : Nat) (a : ActionRecord) : Prop :=
    slebLen (linkOf o k a) ≤ 4 ∨ slebLen (linkOf o k a) = 9

instance (o : Nat → Nat) (k : Nat) (a : ActionRecord) : Decidable (LinkReadable o k a) := inferInstanceAs (Decidable (_ ∨ _))

/-- The displacement from the start of the record. -/
def nextPtr (o : Nat → Nat) (k : Nat) (a : ActionRecord) : Int :=
  match a.next with
  | some m => o m - o k
  | none => 0

section Record
variable {acts : List ActionRecord} {bytes : List UInt8} {o : Nat → Nat} {k m : Nat} {a : ActionRecord}

theorem Laid.offset_lt (h : Laid acts bytes o) (hk : k < acts.length) : o k < bytes.length := by
  obtain ⟨rest, hrecord⟩ := h.record k _ (List.getElem?_eq_getElem hk)
  have hend := record_end (recordBytes_pos o k acts[k]) hrecord
  have hpos := recordBytes_pos o k acts[k]
  omega

/-- There are no more actions than bytes. -/
theorem Laid.length_le (h : Laid acts bytes o) : acts.length ≤ bytes.length := by
  have hcard := Finset.card_le_card_of_injOn o (s := Finset.range acts.length) (t := Finset.range bytes.length)
    (fun k hk => by simpa using h.offset_lt (by simpa using hk))
    (fun j hj k hk => h.inj j k (by simpa using hj) (by simpa using hk))
  simpa using hcard

/-- No record starts where the displacement of another does. -/
theorem Laid.link_ne (h : Laid acts bytes o) (ha : acts[k]? = some a) (hm : a.next = some m) : linkOf o k a ≠ 0 := by
  intro hzero
  have hlength := recordBytes_length o k a
  have htype := ulebLen_pos a.typeWord.toNat
  have hlink := slebLen_pos (linkOf o k a)
  unfold linkOf at hzero
  rw [hm] at hzero
  have hapart := h.apart m k a (h.closed k a m ha hm) ha (by push_cast at hzero; omega)
  push_cast at hzero
  omega

theorem linkOf_none (hm : a.next = none) : linkOf o k a = 0 := by
  unfold linkOf
  rw [hm]

theorem Laid.nextPtr_ne (h : Laid acts bytes o) (ha : acts[k]? = some a) (hm : a.next = some m) :
    nextPtr o k a ≠ 0 ↔ m ≠ k := by
  unfold nextPtr
  rw [hm]
  refine not_congr ⟨?_, ?_⟩
  · intro hzero
    exact h.inj m k (h.closed k a m ha hm) (lt_of_getElem? ha) (by dsimp only at hzero; omega)
  · intro heq
    rw [heq]
    exact Int.sub_self _

variable {data rest : List UInt8} {base : Nat}

/-- A record of a table that starts at `base`. -/
theorem Laid.readAction (h : Laid acts bytes o) (hdata : data.drop base = bytes ++ rest) (hsize : bytes.length < 2 ^ 31)
    (ha : acts[k]? = some a) :
    (LinkReadable o k a → Katana.readAction data (base + o k) =
    .ok (a.typeWord.toNat, nextPtr o k a, (recordBytes o k a).length)) ∧
      ((Katana.readAction data (base + o k)).isOk → LinkReadable o k a) := by
  obtain ⟨tail, hrecord⟩ := h.record k a ha
  have hlt := h.offset_lt (lt_of_getElem? ha)
  have hdrop : data.drop (base + o k) = uleb a.typeWord.toNat ++ (sleb (linkOf o k a) ++ (tail ++ rest)) := by
    rw [← List.drop_drop, hdata, List.drop_append_of_le_length hlt.le, hrecord, recordBytes]
    simp
  have hdrop' := drop_past hdrop
  rw [length_uleb] at hdrop'
  have hrange : -2 ^ 63 ≤ linkOf o k a ∧ linkOf o k a < 2 ^ 63 := by
    cases hm : a.next with
    | none =>
      rw [linkOf_none hm]
      norm_num
    | some m =>
      have hnext := h.offset_lt (h.closed k a m ha hm)
      have hword : ulebLen a.typeWord.toNat ≤ 10 :=
        (ulebLen_le_iff (by norm_num)).mpr (lt_of_lt_of_le a.typeWord.toNat_lt (by norm_num))
      unfold linkOf
      rw [hm]
      push_cast
      omega
  have hptr : (if linkOf o k a ≠ 0 then linkOf o k a + (ulebLen a.typeWord.toNat : Int) else linkOf o k a) =
    nextPtr o k a := by
    cases hm : a.next with
    | none =>
      rw [linkOf_none hm]
      simp [nextPtr, hm]
    | some m =>
      rw [if_pos (h.link_ne ha hm)]
      unfold linkOf nextPtr
      rw [hm]
      push_cast
      omega
  unfold Katana.readAction LinkReadable
  rw [hdrop, leb128ToUWord_uleb a.typeWord.toNat_lt, bind_ok]
  dsimp only
  rw [hdrop', leb128ToSWord_sleb hrange.1 hrange.2]
  refine ⟨?_, ?_⟩
  · intro hread
    rw [if_pos hread, bind_ok]
    dsimp only
    rw [hptr, recordBytes_length]
  · intro hok
    by_contra hnot
    rw [if_neg hnot] at hok
    split at hok
    · cases hok
    · cases hok

end Record

/-! ## The order of first visits -/

/-- The actions visited, after those before, when the chain from an action is followed up to one that was visited. -/
inductive Follows (acts : List ActionRecord) : List Nat → Nat → List Nat → Prop
  | seen {visited : List Nat} {k : Nat} : k ∈ visited → Follows acts visited k visited
  | last {visited : List Nat} {k : Nat} {a : ActionRecord} : k ∉ visited → acts[k]? = some a → a.next = none →
    Follows acts visited k (visited ++ [k])
  | next {visited visited' : List Nat} {k m : Nat} {a : ActionRecord} : k ∉ visited → acts[k]? = some a → a.next = some m →
    Follows acts (visited ++ [k]) m visited' → Follows acts visited k visited'

/-- The chains of call sites, in turn. -/
inductive FollowsAll (acts : List ActionRecord) : List Nat → List CallSiteRecord → List Nat → Prop
  | nil {visited : List Nat} : FollowsAll acts visited [] visited
  | action {visited visited' visited'' : List Nat} {callSite : CallSiteRecord} {callSites : List CallSiteRecord} :
    callSite.hasAction = true → Follows acts visited callSite.firstAction.toNat visited' →
    FollowsAll acts visited' callSites visited'' → FollowsAll acts visited (callSite :: callSites) visited''
  | noAction {visited visited' : List Nat} {callSite : CallSiteRecord} {callSites : List CallSiteRecord} :
    callSite.hasAction = false → FollowsAll acts visited callSites visited' →
      FollowsAll acts visited (callSite :: callSites) visited'

section Order
variable {acts : List ActionRecord} {visited visited' visited'' : List Nat} {k m : Nat} {callSites : List CallSiteRecord}

theorem Follows.unique (h : Follows acts visited k visited') (h' : Follows acts visited k visited'') :
    visited' = visited'' := by
  induction h with
  | seen hk =>
    cases h' with
    | seen _ => rfl
    | last hnot _ _ => exact absurd hk hnot
    | next hnot _ _ _ => exact absurd hk hnot
  | last hnot ha hnone =>
    cases h' with
    | seen hk => exact absurd hk hnot
    | last _ _ _ => rfl
    | next _ ha' hsome _ =>
      cases ha.symm.trans ha'
      rw [hnone] at hsome
      cases hsome
  | next hnot ha hsome _ ih =>
    cases h' with
    | seen hk => exact absurd hk hnot
    | last _ ha' hnone =>
      cases ha.symm.trans ha'
      rw [hnone] at hsome
      cases hsome
    | next _ ha' hsome' hrest =>
      cases ha.symm.trans ha'
      cases hsome.symm.trans hsome'
      exact ih hrest

theorem FollowsAll.unique (h : FollowsAll acts visited callSites visited')
    (h' : FollowsAll acts visited callSites visited'') :
    visited' = visited'' := by
  induction h with
  | nil =>
    cases h'
    rfl
  | action haction hfollows _ ih =>
    cases h' with
    | action _ hfollows' hrest =>
      cases hfollows.unique hfollows'
      exact ih hrest
    | noAction hno _ =>
      rw [haction] at hno
      cases hno
  | noAction hno _ ih =>
    cases h' with
    | action haction _ _ =>
      rw [haction] at hno
      cases hno
    | noAction _ hrest => exact ih hrest

theorem Follows.grows (h : Follows acts visited k visited') : visited <+: visited' := by
  induction h with
  | seen _ => exact List.prefix_refl _
  | last _ _ _ => exact List.prefix_append _ _
  | next _ _ _ _ ih => exact (List.prefix_append _ _).trans ih

theorem FollowsAll.grows (h : FollowsAll acts visited callSites visited') : visited <+: visited' := by
  induction h with
  | nil => exact List.prefix_refl _
  | action _ hfollows _ ih => exact hfollows.grows.trans ih
  | noAction _ _ ih => exact ih

theorem Follows.mem (h : Follows acts visited k visited') : k ∈ visited' := by
  cases h with
  | seen hk => exact hk
  | last _ _ _ => simp
  | next _ _ _ hrest => exact hrest.grows.subset (by simp)

end Order

/-! ## A chain -/

/-- What has been read when these actions were visited; the next actions of some have still to be linked. -/
structure ActionsRead (acts : List ActionRecord) (o : Nat → Nat) (visited : List Nat) (pending : Nat → Prop)
    (st : ReadActions) : Prop where
  nodup : visited.Nodup
  inRange : ∀ k ∈ visited, k < acts.length
  readable : ∀ (k : Nat) (a : ActionRecord), k ∈ visited → acts[k]? = some a → LinkReadable o k a
  offsets : st.actionOffsets = visited.map o
  length : st.actionTable.length = visited.length
  entry : ∀ (i k : Nat) (a : ActionRecord), visited[i]? = some k → acts[k]? = some a → ∃ r :
    ActionRecord, st.actionTable[i]? = some r ∧
    r.typeFilterIndex = (newAction a.typeWord.toNat 0).typeFilterIndex ∧ (r.hasNextAction = true ↔ nextPtr o k a ≠ 0) ∧
    ∀ m, a.next = some m → m ≠ k → ¬ pending i → visited[r.nextAction.toNat]? = some m
  past : ∀ (k : Nat) (a : ActionRecord), k ∈ visited → acts[k]? = some a →
    o k + (recordBytes o k a).length ≤ st.highestActionOffset
  highest : st.highestActionOffset = 0 ∨ ∃ (k : Nat) (a : ActionRecord), k ∈ visited ∧ acts[k]? = some a ∧
    st.highestActionOffset = o k + (recordBytes o k a).length

section Chain
variable {acts : List ActionRecord} {bytes : List UInt8} {o : Nat → Nat} {visited : List Nat} {pending : Nat → Prop}
  {st : ReadActions}
  {k i : Nat} {a : ActionRecord}

theorem actionsRead_nil : ActionsRead acts o [] (fun _ => False) ⟨[], [], 0⟩ where
  nodup := List.nodup_nil
  inRange := nofun
  readable := nofun
  offsets := rfl
  length := rfl
  entry := nofun
  past := nofun
  highest := .inl rfl

/-- One more record. -/
theorem ActionsRead.visit (h : ActionsRead acts o visited pending st) (hk : k ∉ visited) (ha : acts[k]? = some a)
    (hread : LinkReadable o k a) :
    ActionsRead acts o (visited ++ [k]) (fun i => pending i ∨ i = visited.length)
      ⟨st.actionTable ++ [newAction a.typeWord.toNat (nextPtr o k a)], st.actionOffsets ++ [o k],
        max st.highestActionOffset (o k + (recordBytes o k a).length)⟩ := by
  have hlast : ∀ {j : Nat} {b : ActionRecord}, j ∈ [k] → acts[j]? = some b → j = k ∧ b = a := by
    intro j b hj hb
    rw [List.mem_singleton.mp hj] at hb ⊢
    exact ⟨rfl, Option.some.inj (hb.symm.trans ha)⟩
  refine ⟨?_, ?_, ?_, by simp [h.offsets], by simp [h.length], ?_, ?_, ?_⟩
  · refine List.nodup_append.mpr ⟨h.nodup, by simp, ?_⟩
    intro x hx y hy heq
    rw [heq, List.mem_singleton.mp hy] at hx
    exact hk hx
  · intro j hj
    rcases List.mem_append.mp hj with hj | hj
    · exact h.inRange j hj
    · rw [List.mem_singleton.mp hj]
      exact lt_of_getElem? ha
  · intro j b hj hb
    rcases List.mem_append.mp hj with hj | hj
    · exact h.readable j b hj hb
    · obtain ⟨hjk, hba⟩ := hlast hj hb
      rw [hjk, hba]
      exact hread
  · intro i j b hi hb
    by_cases hlt : i < visited.length
    · rw [List.getElem?_append_left hlt] at hi
      obtain ⟨r, hr, htype, hnext, hlink⟩ := h.entry i j b hi hb
      have hrlt : i < st.actionTable.length := by
        rw [h.length]
        exact hlt
      refine ⟨r, by rw [List.getElem?_append_left hrlt]; exact hr, htype, hnext, ?_⟩
      intro m hm hmj hpending
      have hget := hlink m hm hmj (not_or.mp hpending).1
      rw [List.getElem?_append_left (lt_of_getElem? hget)]
      exact hget
    · have hlen := lt_of_getElem? hi
      rw [List.length_append, List.length_singleton] at hlen
      have hlen : i = visited.length := by omega
      rw [hlen, List.getElem?_concat_length] at hi
      obtain ⟨hjk, hba⟩ := hlast (by simpa using (Option.some.inj hi).symm) hb
      rw [hjk, hba, hlen, ← h.length]
      refine ⟨_, List.getElem?_concat_length, rfl, ?_, ?_⟩
      · simp [newAction]
      · intro m _ _ hpending
        exact absurd (Or.inr rfl) hpending
  · intro j b hj hb
    rcases List.mem_append.mp hj with hj | hj
    · exact le_max_of_le_left (h.past j b hj hb)
    · obtain ⟨hjk, hba⟩ := hlast hj hb
      rw [hjk, hba]
      exact le_max_right _ _
  · rcases le_total st.highestActionOffset (o k + (recordBytes o k a).length) with hle | hle
    · exact .inr ⟨k, a, by simp, ha, max_eq_right hle⟩
    · refine h.highest.imp (fun hzero => (max_eq_left hle).trans hzero) ?_
      intro ⟨j, b, hj, hb, hhigh⟩
      exact ⟨j, b, List.mem_append_left _ hj, hb, (max_eq_left hle).trans hhigh⟩

/-- A link to an action that has been visited. -/
theorem ActionsRead.linked (h : ActionsRead acts o visited pending st) {p j : Nat} (hp : visited[i]? = some p)
    (ha : acts[p]? = some a)
    (hnext : a.next = some k) (hj : visited[j]? = some k) (hsmall : visited.length < 2 ^ 64) :
    ActionsRead acts o visited (fun x => pending x ∧ x ≠ i) (st.link (some i) j) := by
  refine ⟨h.nodup, h.inRange, h.readable, h.offsets, ?_, ?_, h.past, h.highest⟩
  · rw [← h.length]
    exact List.length_modify _ _ _
  · intro x q b hx hb
    obtain ⟨r, hr, htype, hhas, hlink⟩ := h.entry x q b hx hb
    by_cases hxi : i = x
    · subst hxi
      cases hp.symm.trans hx
      cases ha.symm.trans hb
      refine ⟨{ r with nextAction := UInt64.ofNat j }, ?_, htype, hhas, ?_⟩
      · simp [ReadActions.link, hr]
      · intro m hm _ _
        cases hnext.symm.trans hm
        have hjlt := lt_of_getElem? hj
        rw [UInt64.toNat_ofNat_of_lt' (show j < 2 ^ 64 by omega)]
        exact hj
    · refine ⟨r, ?_, htype, hhas, ?_⟩
      · simp [ReadActions.link, hr, hxi]
      · intro m hm hmq hpending
        exact hlink m hm hmq fun hx => hpending ⟨hx, Ne.symm hxi⟩

theorem ActionsRead.weaken {pending' : Nat → Prop} (h : ActionsRead acts o visited pending st)
    (himp : ∀ i, pending i → pending' i) :
    ActionsRead acts o visited pending' st := by
  refine ⟨h.nodup, h.inRange, h.readable, h.offsets, h.length, ?_, h.past, h.highest⟩
  intro i k a hi ha
  obtain ⟨r, hr, htype, hnext, hlink⟩ := h.entry i k a hi ha
  exact ⟨r, hr, htype, hnext, fun m hm hmk hpending => hlink m hm hmk fun hi => hpending (himp i hi)⟩

/-- The previous action of the chain waits for `k`. -/
def Awaits (acts : List ActionRecord) (visited : List Nat) (prev : Option Nat) (k : Nat) : Prop :=
  ∀ i, prev = some i → ∃ (p : Nat) (a : ActionRecord), visited[i]? = some p ∧ acts[p]? = some a ∧ a.next = some k

theorem ActionsRead.linkPrevious {prev : Option Nat} {j : Nat}
    (h : ActionsRead acts o visited (fun i => prev = some i ∨ pending i) st)
    (hawaits : Awaits acts visited prev k) (hj : visited[j]? = some k) (hsmall : visited.length < 2 ^ 64) :
    ActionsRead acts o visited pending (st.link prev j) := by
  cases prev with
  | none =>
    refine h.weaken ?_
    intro i hi
    rcases hi with hi | hi
    · cases hi
    · exact hi
  | some i =>
    obtain ⟨p, a, hp, ha, hnext⟩ := hawaits i rfl
    refine (h.linked hp ha hnext hj hsmall).weaken ?_
    intro x hx
    rcases hx.1 with hi | hx'
    · exact absurd (Option.some.inj hi).symm hx.2
    · exact hx'

/-- The last action of a chain has nothing to be linked to. -/
theorem ActionsRead.settle (h : ActionsRead acts o (visited ++ [k]) (fun i => i = visited.length) st)
    (hlaid : Laid acts bytes o)
    (ha : acts[k]? = some a) (hlast : nextPtr o k a = 0) : ActionsRead acts o (visited ++ [k]) (fun _ => False) st := by
  refine ⟨h.nodup, h.inRange, h.readable, h.offsets, h.length, ?_, h.past, h.highest⟩
  intro i j b hi hb
  obtain ⟨r, hr, htype, hnext, hlink⟩ := h.entry i j b hi hb
  refine ⟨r, hr, htype, hnext, ?_⟩
  intro m hm hmj _
  by_cases hlen : i = visited.length
  · rw [hlen, List.getElem?_concat_length] at hi
    cases hi
    cases ha.symm.trans hb
    exact absurd hlast ((hlaid.nextPtr_ne ha hm).mpr hmj)
  · exact hlink m hm hmj hlen

section Followed
variable {data rest : List UInt8} {base fuel : Nat} {prev : Option Nat}

/-- What an action is stored as when it is met, the previous one linked to it. -/
def ReadActions.meet (st : ReadActions) (prev : Option Nat) (typeWord : Nat) (next : Int) (offset stop : Nat) :
    ReadActions :=
  ReadActions.link ⟨st.actionTable ++ [newAction typeWord next], st.actionOffsets ++ [offset],
    max st.highestActionOffset stop⟩ prev
    st.actionTable.length

theorem ActionsRead.seen (h : ActionsRead acts o visited pending st) (hlaid : Laid acts bytes o) (hk : k ∈ visited) :
    ∃ i, visited[i]? = some k ∧ followChain data base (fuel + 1) st (o k) prev = .ok (st.link prev i, i) := by
  unfold followChain
  rw [h.offsets]
  cases hfind : (visited.map o).findIdx? (· == o k) with
  | none =>
    have hnot := List.findIdx?_eq_none_iff.mp hfind (o k) (List.mem_map_of_mem hk)
    simp at hnot
  | some i =>
    obtain ⟨hlt, hi, -⟩ := List.findIdx?_eq_some_iff_getElem.mp hfind
    rw [List.length_map] at hlt
    rw [List.getElem_map, beq_iff_eq] at hi
    have heq := hlaid.inj _ k (h.inRange _ (List.getElem_mem hlt)) (h.inRange k hk) hi
    exact ⟨i, by rw [List.getElem?_eq_getElem hlt, heq], rfl⟩

theorem ActionsRead.unseen (h : ActionsRead acts o visited pending st) (hlaid : Laid acts bytes o) (hk : k ∉ visited)
    (hlt : k < acts.length) (hsmall : base + o k < 2 ^ 64) : followChain data base (fuel + 1) st (o k) prev = (do
      let (typeWord, next, n) ← readAction data (base + o k)
      let st := st.meet prev typeWord next (o k) (o k + n)
      if next = 0 then .ok (st, visited.length)
      else
        let (st, _) ← followChain data base fuel st (UInt64.ofInt (o k + next)).toNat (some visited.length)
        .ok (st, visited.length)) := by
  have hfind : (visited.map o).findIdx? (· == o k) = none := by
    refine List.findIdx?_eq_none_iff.mpr ?_
    intro x hx
    obtain ⟨j, hj, hjx⟩ := List.mem_map.mp hx
    by_contra hbeq
    have heq : o j = o k := by simpa [← hjx] using hbeq
    exact hk (hlaid.inj j k (h.inRange j hj) hlt heq ▸ hj)
  rw [followChain, h.offsets, hfind, Nat.mod_eq_of_lt hsmall, h.length]
  unfold ReadActions.meet
  rw [h.offsets, h.length]

theorem ActionsRead.meet (h : ActionsRead acts o visited (fun i => prev = some i) st) (hawaits : Awaits acts visited prev k)
    (hk : k ∉ visited) (ha : acts[k]? = some a) (hread : LinkReadable o k a) (hsmall : visited.length + 1 < 2 ^ 64) :
    ActionsRead acts o (visited ++ [k]) (fun i => i = visited.length)
      (st.meet prev a.typeWord.toNat (nextPtr o k a) (o k) (o k + (recordBytes o k a).length)) := by
  unfold ReadActions.meet
  rw [h.length]
  refine (h.visit hk ha hread).linkPrevious ?_ List.getElem?_concat_length (by simpa using hsmall)
  intro i hi
  obtain ⟨p, b, hp, hb, hnext⟩ := hawaits i hi
  exact ⟨p, b, by rw [List.getElem?_append_left (lt_of_getElem? hp)]; exact hp, hb, hnext⟩

theorem awaits_last {m : Nat} (ha : acts[k]? = some a) (hm : a.next = some m) : Awaits acts (visited ++ [k])
    (some visited.length) m := by
  intro i hi
  cases hi
  exact ⟨k, a, List.getElem?_concat_length, ha, hm⟩

/-- The offset that the chain goes on with. -/
theorem Laid.nextOffset (hlaid : Laid acts bytes o) (hsize : bytes.length < 2 ^ 31) (ha : acts[k]? = some a) {m : Nat}
    (hm : a.next = some m) : (UInt64.ofInt (o k + nextPtr o k a)).toNat = o m := by
  have hlt := hlaid.offset_lt (hlaid.closed k a m ha hm)
  have hsum : (o k : Int) + nextPtr o k a = (o m : Nat) := by
    unfold nextPtr
    rw [hm]
    dsimp only
    omega
  rw [hsum]
  unfold UInt64.ofInt
  rw [UInt64.toNat_ofNat']
  omega

theorem ActionsRead.length_le (h : ActionsRead acts o visited pending st) : visited.length ≤ acts.length := by
  have hsub := (List.subperm_of_subset h.nodup fun k hk => List.mem_range.mpr (h.inRange k hk)).length_le
  rw [List.length_range] at hsub
  exact hsub

variable (hlaid : Laid acts bytes o) (hdata : data.drop base = bytes ++ rest) (hsize : base + bytes.length < 2 ^ 31)
include hlaid hdata hsize

/-- **What has been read of a chain is what it visits**, and all of it could be read. -/
theorem followChain_reads {st' : ReadActions} (hrun : followChain data base fuel st (o k) prev = .ok (st', i))
    (hk : k < acts.length)
    (h : ActionsRead acts o visited (fun i => prev = some i) st) (hawaits : Awaits acts visited prev k) :
    ∃ visited', Follows acts visited k visited' ∧ ActionsRead acts o visited' (fun _ => False) st' ∧
      visited'[i]? = some k := by
  induction fuel generalizing st st' prev visited k i with
  | zero => cases hrun
  | succ fuel ih =>
    have hsmall : visited.length + 1 < 2 ^ 64 := by
      have hle := h.length_le
      have hbytes := hlaid.length_le
      omega
    by_cases hseen : k ∈ visited
    · obtain ⟨j, hj, hfollow⟩ := @ActionsRead.seen _ _ _ _ _ _ _ data base fuel prev h hlaid hseen
      rw [hrun] at hfollow
      cases hfollow
      exact ⟨visited, .seen hseen, (h.weaken fun _ => .inl).linkPrevious hawaits hj (by omega), hj⟩
    · have ha := List.getElem?_eq_getElem hk
      have hlt := hlaid.offset_lt hk
      obtain ⟨hok, hreadable⟩ := hlaid.readAction hdata (by omega) ha
      rw [h.unseen hlaid hseen hk (by omega)] at hrun
      obtain ⟨x, hx, hrun⟩ := bind_eq_ok.mp hrun
      have hread := hreadable (by rw [hx]; rfl)
      rw [hok hread] at hx
      cases hx
      dsimp only at hrun
      have hmeet := h.meet hawaits hseen ha hread hsmall
      by_cases hzero : nextPtr o k acts[k] = 0
      · rw [if_pos hzero] at hrun
        cases hrun
        refine ⟨visited ++ [k], ?_, hmeet.settle hlaid ha hzero, List.getElem?_concat_length⟩
        cases hm : acts[k].next with
        | none => exact .last hseen ha hm
        | some m =>
          have hself : m = k := not_not.mp fun hne => (hlaid.nextPtr_ne ha hm).mpr hne hzero
          exact .next hseen ha hm (.seen (by simp [hself]))
      · rw [if_neg hzero] at hrun
        cases hm : acts[k].next with
        | none => exact absurd (by simp [nextPtr, hm]) hzero
        | some m =>
          rw [hlaid.nextOffset (by omega) ha hm] at hrun
          obtain ⟨⟨st1, j⟩, hfollow, hrun⟩ := bind_eq_ok.mp hrun
          cases hrun
          obtain ⟨visited', hfollows, hdone, -⟩ :=
            ih hfollow (hlaid.closed k _ m ha hm) (hmeet.weaken fun x hx => by rw [hx]) (awaits_last ha hm)
          refine ⟨visited', .next hseen ha hm hfollows, hdone, ?_⟩
          obtain ⟨tail, htail⟩ := hfollows.grows
          rw [← htail, List.getElem?_append_left (by simp), List.getElem?_concat_length]

/-- With every displacement readable a chain is read to its end. -/
theorem followChain_total (hfuel : acts.length < fuel + visited.length)
    (hreadable : ∀ (k : Nat) (a : ActionRecord), acts[k]? = some a → LinkReadable o k a) (hk : k < acts.length)
    (h : ActionsRead acts o visited (fun i => prev = some i) st) (hawaits : Awaits acts visited prev k) :
    (followChain data base fuel st (o k) prev).isOk := by
  induction fuel generalizing st prev visited k with
  | zero =>
    have hle := h.length_le
    omega
  | succ fuel ih =>
    have hsmall : visited.length + 1 < 2 ^ 64 := by
      have hle := h.length_le
      have hbytes := hlaid.length_le
      omega
    by_cases hseen : k ∈ visited
    · obtain ⟨j, hj, hfollow⟩ := @ActionsRead.seen _ _ _ _ _ _ _ data base fuel prev h hlaid hseen
      rw [hfollow]
      rfl
    · have ha := List.getElem?_eq_getElem hk
      have hlt := hlaid.offset_lt hk
      have hread := hreadable k _ ha
      rw [h.unseen hlaid hseen hk (by omega), (hlaid.readAction hdata (by omega) ha).1 hread, bind_ok]
      dsimp only
      have hmeet := h.meet hawaits hseen ha hread hsmall
      by_cases hzero : nextPtr o k acts[k] = 0
      · rw [if_pos hzero]
        rfl
      · rw [if_neg hzero]
        cases hm : acts[k].next with
        | none => exact absurd (by simp [nextPtr, hm]) hzero
        | some m =>
          rw [hlaid.nextOffset (by omega) ha hm]
          have hrest := ih (by rw [List.length_append, List.length_singleton]; omega) (hlaid.closed k _ m ha hm)
            (hmeet.weaken fun x hx => by rw [hx]) (awaits_last ha hm)
          cases hfollow : followChain data base fuel _ (o m) (some visited.length) with
          | error f =>
            rw [hfollow] at hrest
            cases hrest
          | ok x => rfl

end Followed

end Chain

/-! ## The chains of the call sites -/

def rawCallSite (o : Nat → Nat) (callSite : CallSiteRecord) : CallSiteRecord :=
  { callSite with firstAction := (if callSite.hasAction then UInt64.ofNat (1 + o callSite.firstAction.toNat) else 0) - 1 }

/-- A call site that was read, its first action by the order of visits. -/
structure CallSiteRead (visited : List Nat) (callSite read : CallSiteRecord) : Prop where
  position : read.position = callSite.position
  length : read.length = callSite.length
  landingPadPosition : read.landingPadPosition = callSite.landingPadPosition
  hasAction : read.hasAction = callSite.hasAction
  firstAction : callSite.hasAction = true → visited[read.firstAction.toNat]? = some callSite.firstAction.toNat

section CallSites
variable {acts : List ActionRecord} {bytes : List UInt8} {o : Nat → Nat} {visited visited' : List Nat} {st st' : ReadActions}
  {callSite read : CallSiteRecord} {callSites done read' : List CallSiteRecord}

theorem CallSiteRead.mono (h : CallSiteRead visited callSite read) (hgrows : visited <+: visited') :
    CallSiteRead visited' callSite read := by
  refine ⟨h.position, h.length, h.landingPadPosition, h.hasAction, ?_⟩
  intro haction
  have hget := h.firstAction haction
  obtain ⟨tail, htail⟩ := hgrows
  rw [← htail, List.getElem?_append_left (lt_of_getElem? hget)]
  exact hget

theorem rawCallSite_offset (haction : callSite.hasAction = true) (hsmall : o callSite.firstAction.toNat < 2 ^ 32) :
    (rawCallSite o callSite).firstAction.toNat = o callSite.firstAction.toNat := by
  unfold rawCallSite
  rw [if_pos haction]
  have hbias : (UInt64.ofNat (1 + o callSite.firstAction.toNat) - 1) = UInt64.ofNat (o callSite.firstAction.toNat) := by
    rw [Nat.add_comm, UInt64.ofNat_add]
    exact UInt64.add_sub_cancel _ _
  show (UInt64.ofNat (1 + o callSite.firstAction.toNat) - 1).toNat = _
  rw [hbias, UInt64.toNat_ofNat_of_lt' (show o callSite.firstAction.toNat < 2 ^ 64 by omega)]

variable {data rest : List UInt8} {base : Nat}
variable (hlaid : Laid acts bytes o) (hdata : data.drop base = bytes ++ rest) (hsize : base + bytes.length < 2 ^ 31)
include hlaid hdata hsize

theorem readChains_reads (hfirst : ∀ callSite ∈ callSites, callSite.hasAction = true →
    callSite.firstAction.toNat < acts.length)
    (h : ActionsRead acts o visited (fun _ => False) st)
    (hrun : (callSites.map (rawCallSite o)).foldlM (readChain data base) (st, done) = .ok (st', read')) :
    ∃ visited' sites, FollowsAll acts visited callSites visited' ∧ ActionsRead acts o visited' (fun _ => False) st' ∧
      read' = done ++ sites ∧ List.Forall₂ (CallSiteRead visited') callSites sites := by
  induction callSites generalizing visited st done with
  | nil =>
    cases hrun
    exact ⟨visited, [], .nil, h, by simp, .nil⟩
  | cons callSite callSites ih =>
    rw [List.map_cons, List.foldlM_cons] at hrun
    obtain ⟨⟨st1, done1⟩, hchain, hrun⟩ := bind_eq_ok.mp hrun
    have hrestFirst : ∀ callSite ∈ callSites, callSite.hasAction = true → callSite.firstAction.toNat < acts.length :=
      fun site hsite => hfirst site (List.mem_cons_of_mem _ hsite)
    have hraw : (rawCallSite o callSite).hasAction = callSite.hasAction := rfl
    unfold readChain at hchain
    dsimp only at hchain
    rw [hraw] at hchain
    by_cases haction : callSite.hasAction = true
    · have hk := hfirst callSite List.mem_cons_self haction
      have hlt := hlaid.offset_lt hk
      rw [if_pos haction, rawCallSite_offset haction (by omega)] at hchain
      obtain ⟨⟨st2, i⟩, hfollow, hchain⟩ := bind_eq_ok.mp hchain
      cases hchain
      obtain ⟨visited1, hfollows, hread, hi⟩ := followChain_reads hlaid hdata hsize hfollow hk
        (h.weaken fun _ => False.elim) nofun
      obtain ⟨visited', sites, hall, hread', hsites, hforall⟩ := ih hrestFirst hread hrun
      have hsite : CallSiteRead visited1 callSite { rawCallSite o callSite with firstAction := UInt64.ofNat i } := by
        refine ⟨rfl, rfl, rfl, rfl, ?_⟩
        intro _
        have hilt := lt_of_getElem? hi
        have hle := hread.length_le
        have hbytes := hlaid.length_le
        show visited1[(UInt64.ofNat i).toNat]? = _
        rw [UInt64.toNat_ofNat_of_lt' (show i < 2 ^ 64 by omega)]
        exact hi
      refine ⟨visited', { rawCallSite o callSite with firstAction := UInt64.ofNat i } :: sites,
        .action haction hfollows hall, hread', ?_, ?_⟩
      · rw [hsites, List.append_assoc]
        rfl
      · exact .cons (hsite.mono hall.grows) hforall
    · rw [if_neg haction] at hchain
      cases hchain
      obtain ⟨visited', sites, hall, hread', hsites, hforall⟩ := ih hrestFirst h hrun
      refine ⟨visited', rawCallSite o callSite :: sites, .noAction (by simpa using haction) hall, hread',
        by simp [hsites], .cons ?_ hforall⟩
      exact ⟨rfl, rfl, rfl, rfl, fun hnot => absurd hnot haction⟩

theorem readChains_total (hfirst : ∀ callSite ∈ callSites, callSite.hasAction = true →
    callSite.firstAction.toNat < acts.length)
    (h : ActionsRead acts o visited (fun _ => False) st)
    (hreadable : ∀ (k : Nat) (a : ActionRecord), acts[k]? = some a → LinkReadable o k a) :
    ((callSites.map (rawCallSite o)).foldlM (readChain data base) (st, done)).isOk := by
  induction callSites generalizing visited st done with
  | nil => rfl
  | cons callSite callSites ih =>
    have hrestFirst : ∀ callSite ∈ callSites, callSite.hasAction = true → callSite.firstAction.toNat < acts.length :=
      fun site hsite => hfirst site (List.mem_cons_of_mem _ hsite)
    have hraw : (rawCallSite o callSite).hasAction = callSite.hasAction := rfl
    rw [List.map_cons, List.foldlM_cons]
    by_cases haction : callSite.hasAction = true
    · have hk := hfirst callSite List.mem_cons_self haction
      have hlt := hlaid.offset_lt hk
      have hfuel : acts.length < data.length + 1 + visited.length := by
        have hbytes := hlaid.length_le
        have hlen := congrArg List.length hdata
        rw [List.length_drop, List.length_append] at hlen
        omega
      have hawaits : Awaits acts visited none callSite.firstAction.toNat := nofun
      have hchain := followChain_total hlaid hdata hsize hfuel hreadable hk (h.weaken fun _ => False.elim) hawaits
      cases hfollow : followChain data base (data.length + 1) st (o callSite.firstAction.toNat) none with
      | error f =>
        rw [hfollow] at hchain
        cases hchain
      | ok x =>
        obtain ⟨st1, i⟩ := x
        obtain ⟨visited1, -, hread, -⟩ := followChain_reads hlaid hdata hsize hfollow hk (h.weaken fun _ => False.elim) nofun
        unfold readChain
        dsimp only
        rw [hraw, if_pos haction, rawCallSite_offset haction (by omega), hfollow, bind_ok]
        dsimp only
        rw [bind_ok]
        exact ih hrestFirst hread
    · unfold readChain
      dsimp only
      rw [hraw, if_neg haction, bind_ok]
      exact ih hrestFirst h

end CallSites

/-! ## The call-site table -/

def callSiteBytes (o : Nat → Nat) (callSite : CallSiteRecord) : List UInt8 :=
  uleb callSite.position.toNat ++ (uleb callSite.length.toNat ++ (uleb callSite.landingPadPosition.toNat ++
    uleb (if callSite.hasAction then 1 + o callSite.firstAction.toNat else 0)))

section CallSiteTable
variable {st : ActionState} {callSite : CallSiteRecord} {callSites : List CallSiteRecord} {o : Nat → Nat}

theorem writeCallSite_ok {buf buf' : GrowingBuffer} (h : writeCallSite st.actionIdxToOffset buf callSite = .ok buf')
    (hsmall : ∀ k, st.offset k < 2 ^ 63) : buf'.data = buf.data ++ callSiteBytes st.offset callSite ∧
      (callSite.hasAction = true → callSite.firstAction.toNat < st.actionIdxToOffset.length) := by
  unfold writeCallSite at h
  obtain ⟨buf1, h1, h⟩ := bind_eq_ok.mp h
  obtain ⟨buf2, h2, h⟩ := bind_eq_ok.mp h
  obtain ⟨buf3, h3, h⟩ := bind_eq_ok.mp h
  have hdata : buf3.data = buf.data ++ (uleb callSite.position.toNat ++
    (uleb callSite.length.toNat ++ uleb callSite.landingPadPosition.toNat)) := by
    rw [addUlebToGrowingBuffer_ok callSite.landingPadPosition.toNat_lt h3,
      addUlebToGrowingBuffer_ok callSite.length.toNat_lt h2,
      addUlebToGrowingBuffer_ok callSite.position.toNat_lt h1]
    simp
  unfold callSiteBytes
  by_cases haction : callSite.hasAction = true
  · rw [if_pos haction] at h ⊢
    cases hget : st.actionIdxToOffset[callSite.firstAction.toNat]? with
    | none =>
      rw [hget] at h
      cases h
    | some offset =>
      rw [hget] at h
      have hoffset : st.offset callSite.firstAction.toNat = offset := by
        unfold ActionState.offset
        rw [List.getD_eq_getElem?_getD, hget]
        rfl
      have hlt := hsmall callSite.firstAction.toNat
      rw [hoffset] at hlt ⊢
      refine ⟨?_, fun _ => lt_of_getElem? hget⟩
      rw [addUlebToGrowingBuffer_ok (show 1 + offset < 2 ^ 64 by omega) h, hdata]
      simp
  · rw [if_neg haction] at h ⊢
    refine ⟨?_, fun hnot => absurd hnot haction⟩
    have hzero : uleb 0 = [0] := by decide
    rw [addToGrowingBuffer_ok h, hdata, hzero]
    simp

theorem writeCallSiteTable_ok {buf : GrowingBuffer} (h : writeCallSiteTable st.actionIdxToOffset callSites = .ok buf)
    (hsmall : ∀ k, st.offset k < 2 ^ 63) : buf.data = (callSites.map (callSiteBytes st.offset)).flatten ∧
      ∀ callSite ∈ callSites, callSite.hasAction = true → callSite.firstAction.toNat < st.actionIdxToOffset.length := by
  refine foldlM_ok (P := fun (done : List CallSiteRecord) buf => buf.data = (done.map (callSiteBytes st.offset)).flatten ∧
    ∀ callSite ∈ done, callSite.hasAction = true → callSite.firstAction.toNat < st.actionIdxToOffset.length) h
      ⟨rfl, nofun⟩ ?_
  intro done callSite rest buf buf' _ ⟨hdata, hfirst⟩ hstep
  obtain ⟨hdata', hlt⟩ := writeCallSite_ok hstep hsmall
  refine ⟨by rw [hdata', hdata]; simp, ?_⟩
  intro site hsite
  rcases List.mem_append.mp hsite with hsite | hsite
  · exact hfirst site hsite
  · rw [List.mem_singleton.mp hsite]
    exact hlt

variable {config : ElfBitwidth} {data rest : List UInt8} {sectionAddress : UInt64} {offset : Nat}

theorem callSiteBytes_pos (o : Nat → Nat) (callSite : CallSiteRecord) : 0 < (callSiteBytes o callSite).length := by
  have hpos := ulebLen_pos callSite.position.toNat
  unfold callSiteBytes
  rw [List.length_append, length_uleb]
  omega

theorem readCallSite_written (hdata : data.drop offset = callSiteBytes o callSite ++ rest)
    (hsmall : callSite.hasAction = true → o callSite.firstAction.toNat < 2 ^ 63) :
    readCallSite config data sectionAddress 0x01 offset =
      .ok (rawCallSite o callSite, (callSiteBytes o callSite).length) := by
  have hinside := record_end (callSiteBytes_pos o callSite) hdata
  unfold callSiteBytes at hdata
  simp only [List.append_assoc] at hdata
  have hlength := drop_past hdata
  have hlandingPad := drop_past hlength
  have hfirst := drop_past hlandingPad
  simp only [length_uleb] at hlength hlandingPad hfirst
  have hlt : (if callSite.hasAction then 1 + o callSite.firstAction.toNat else 0) < 2 ^ 64 := by
    by_cases haction : callSite.hasAction = true
    · have hoffset := hsmall haction
      rw [if_pos haction]
      omega
    · rw [if_neg haction]
      norm_num
  have h1 := @decodeAt_uleb config _ _ sectionAddress _ _ callSite.position.toNat_lt hdata
  have h2 := @decodeAt_uleb config _ _ sectionAddress _ _ callSite.length.toNat_lt hlength
  have h3 := @decodeAt_uleb config _ _ sectionAddress _ _ callSite.landingPadPosition.toNat_lt hlandingPad
  have h4 := @decodeAt_uleb config _ _ sectionAddress _ _ hlt hfirst
  unfold readCallSite
  rw [if_neg (by omega), h1, bind_ok]
  dsimp only
  rw [h2, bind_ok]
  dsimp only
  rw [h3, bind_ok]
  dsimp only
  rw [h4, bind_ok]
  simp only [UInt64.ofNat_toNat, callSiteBytes, List.length_append, length_uleb, Nat.add_assoc]
  refine congrArg (fun read => Except.ok (read, _)) ?_
  unfold rawCallSite
  by_cases haction : callSite.hasAction = true
  · have hoffset := hsmall haction
    have hne : (UInt64.ofNat (1 + o callSite.firstAction.toNat) != 0) = true := by
      rw [bne_iff_ne]
      intro hzero
      have hnat := congrArg UInt64.toNat hzero
      rw [UInt64.toNat_ofNat_of_lt' (show 1 + o callSite.firstAction.toNat < 2 ^ 64 by omega)] at hnat
      simp at hnat
    simp only [haction, if_true, hne]
  · simp [haction]

theorem readCallSites_written {fuel : Nat} (hdata : data.drop offset = (callSites.map (callSiteBytes o)).flatten ++ rest)
    (hsmall : ∀ callSite ∈ callSites, callSite.hasAction = true → o callSite.firstAction.toNat < 2 ^ 63)
    (hfuel : callSites.length ≤ fuel) :
    readCallSites config data sectionAddress 0x01 fuel offset (callSites.map (callSiteBytes o)).flatten.length =
      .ok (callSites.map (rawCallSite o)) := by
  induction callSites generalizing fuel offset with
  | nil => cases fuel <;> rfl
  | cons callSite callSites ih =>
    obtain ⟨fuel, rfl⟩ := Nat.exists_eq_add_of_le' (show 1 ≤ fuel by simp at hfuel; omega)
    rw [List.map_cons, List.flatten_cons, List.append_assoc] at hdata
    have hpos := callSiteBytes_pos o callSite
    obtain ⟨n, hn⟩ := Nat.exists_eq_add_of_le' (show 1 ≤ (callSiteBytes o callSite).length +
      (callSites.map (callSiteBytes o)).flatten.length by omega)
    have hread := @readCallSite_written callSite o config data _ sectionAddress offset hdata
      (hsmall callSite List.mem_cons_self)
    have hrest := @ih (offset + (callSiteBytes o callSite).length) fuel (drop_past hdata)
      (fun site hsite => hsmall site (List.mem_cons_of_mem _ hsite)) (by simpa using hfuel)
    rw [List.map_cons, List.flatten_cons, List.length_append, hn]
    unfold readCallSites
    rw [hread, bind_ok]
    dsimp only
    rw [if_neg (by omega), show n + 1 - (callSiteBytes o callSite).length =
      (callSites.map (callSiteBytes o)).flatten.length by omega, hrest]
    rfl

end CallSiteTable

end Katana

/-
  Katana.Lsda.RoundTrip — the tables of an LSDA that is written and parsed again (exceptTable.c).

  Actions that are numbered in the order in which the chains of the call sites visit them come back with the numbers they
  had. Their records lie in that order too, so how far a link goes back is the length of the records in between.

  Proved:
  - `tablesReturn_iff`: the call sites and the actions come back exactly when no action follows itself and no link goes
    back too far to be read.
-/
import Katana.Leb.RoundTrip
import Katana.Lsda.ActionTable

namespace Katana

open Lib

/-! ## The lengths of the records -/

def recordLength (lengths : List Nat) (a : ActionRecord) : Nat :=
  let typeLength := ulebLen a.typeWord.toNat
  typeLength + match a.next with
    | some m => if m ≤ lengths.length then slebLen (-((lengths.drop m).sum + typeLength : Nat)) else 1
    | none => 1

def recordLengths (acts : List ActionRecord) : List Nat :=
    acts.foldl (fun lengths a => lengths ++ [recordLength lengths a]) []

/-- How far a link to `m` goes back, from behind the type of the record of `k`. -/
def linkBack (acts : List ActionRecord) (m k : Nat) (a : ActionRecord) : Nat :=
  (((recordLengths acts).take k).drop m).sum + ulebLen a.typeWord.toNat

theorem recordLengths_snoc (acts : List ActionRecord) (a : ActionRecord) :
    recordLengths (acts ++ [a]) = recordLengths acts ++ [recordLength (recordLengths acts) a] := by
  simp [recordLengths]

@[simp] theorem length_recordLengths (acts : List ActionRecord) : (recordLengths acts).length = acts.length := by
  induction acts using List.reverseRecOn with
  | nil => rfl
  | append_singleton acts a ih => simp [recordLengths_snoc, ih]

theorem recordLengths_append (acts rest : List ActionRecord) : recordLengths acts <+: recordLengths (acts ++ rest) := by
  induction rest using List.reverseRecOn with
  | nil => simp
  | append_singleton rest a ih =>
    rw [← List.append_assoc, recordLengths_snoc]
    exact ih.trans (List.prefix_append _ _)

section Lengths
variable {acts : List ActionRecord} {k m : Nat} {a : ActionRecord}

theorem getElem?_recordLengths (ha : acts[k]? = some a) :
    (recordLengths acts)[k]? = some (recordLength ((recordLengths acts).take k) a) := by
  obtain ⟨hlt, hget⟩ := List.getElem?_eq_some_iff.mp ha
  have hlength : (recordLengths (acts.take k)).length = k := by
    rw [length_recordLengths, List.length_take]
    omega
  have hsplit : acts = (acts.take k ++ [a]) ++ acts.drop (k + 1) := by
    rw [← hget, List.append_assoc, List.singleton_append, List.getElem_cons_drop, List.take_append_drop]
  obtain ⟨tail, htail⟩ := recordLengths_append (acts.take k ++ [a]) (acts.drop (k + 1))
  rw [← hsplit, recordLengths_snoc, List.append_assoc, List.singleton_append] at htail
  have htake : (recordLengths acts).take k = recordLengths (acts.take k) := by
    rw [← htail]
    exact List.take_left' hlength
  rw [htake, ← htail, List.getElem?_append_right hlength.le, hlength, Nat.sub_self]
  rfl

def recordOffset (acts : List ActionRecord) (k : Nat) : Nat := ((recordLengths acts).take k).sum

theorem recordOffset_succ (ha : acts[k]? = some a) :
    recordOffset acts (k + 1) = recordOffset acts k + recordLength ((recordLengths acts).take k) a := by
  unfold recordOffset
  rw [List.take_add_one, getElem?_recordLengths ha, List.sum_append]
  simp

theorem recordOffset_add (acts : List ActionRecord) (hm : m ≤ k) :
    recordOffset acts m + (((recordLengths acts).take k).drop m).sum = recordOffset acts k := by
  unfold recordOffset
  have hsplit := List.take_append_drop m ((recordLengths acts).take k)
  rw [List.take_take, Nat.min_eq_left hm] at hsplit
  rw [← List.sum_append, hsplit]

theorem recordOffset_le (hk : k ≤ acts.length) : k ≤ recordOffset acts k := by
  induction k with
  | zero => exact Nat.zero_le _
  | succ k ih =>
    have ha := List.getElem?_eq_getElem (show k < acts.length by omega)
    have hpos := ulebLen_pos acts[k].typeWord.toNat
    have hbefore := ih (by omega)
    rw [recordOffset_succ ha]
    unfold recordLength
    dsimp only
    omega

end Lengths

/-! ## Records in order -/

/-- The records before `k` have been written, one after the other. -/
structure InOrder (acts : List ActionRecord) (k : Nat) (st : ActionState) : Prop where
  len : st.buf.len = recordOffset acts k
  written : ∀ j, j < k → st.offset j = recordOffset acts j
  unwritten : ∀ j, k ≤ j → st.offset j = 0
  length : st.actionIdxToOffset.length = acts.length

section Writer
variable {acts : List ActionRecord} {k fuel : Nat} {st st' : ActionState}

theorem InOrder.step {buf : GrowingBuffer} {a : ActionRecord} (h : InOrder acts k st) (ha : acts[k]? = some a)
    (hlen : buf.len = st.buf.len + recordLength ((recordLengths acts).take k) a) :
    InOrder acts (k + 1) ⟨buf, st.actionIdxToOffset.set k st.buf.len⟩ := by
  have hoffset : ActionState.offset ⟨buf, st.actionIdxToOffset.set k st.buf.len⟩ = st.promised k :=
    offset_set buf _ (by rw [h.length]; exact lt_of_getElem? ha)
  refine ⟨by rw [hlen, recordOffset_succ ha, h.len], ?_, ?_, by rw [List.length_set, h.length]⟩
  · intro j hj
    rw [hoffset]
    by_cases hjk : j = k
    · rw [hjk, ActionState.promised_self, h.len]
    · rw [st.promised_ne hjk, h.written j (by omega)]
  · intro j hj
    rw [hoffset, st.promised_ne (by omega), h.unwritten j (by omega)]

/-- Links go back, or to the action that is written next. -/
theorem writeChain_inOrder (hnext : ∀ (k : Nat) (a : ActionRecord) (m : Nat), acts[k]? = some a →
    a.next = some m → m ≤ k + 1)
    (h : writeChain acts fuel st k = .ok st') (hst : InOrder acts k st) :
    ∃ k', k < k' ∧ k' ≤ acts.length ∧ InOrder acts k' st' := by
  induction fuel generalizing st k with
  | zero => cases h
  | succ fuel ih =>
    obtain ⟨a, buf1, buf2, ha, h1, hcases⟩ := writeChain_cases h hst.length
    have hk := lt_of_getElem? ha
    have hlen1 := len_type h1
    have hlength : ((recordLengths acts).take k).length = k := by
      rw [List.length_take, length_recordLengths]
      omega
    rcases hcases with ⟨hnone, h2, hst'⟩ | ⟨m, hm, -, ⟨hplaced, h2, hst'⟩ | ⟨hnew, h2, hrest⟩⟩
    · rw [hst']
      refine ⟨k + 1, by omega, hk, hst.step ha ?_⟩
      unfold recordLength GrowingBuffer.len at *
      rw [hnone, addToGrowingBuffer_ok h2, List.length_append, hlen1]
      rfl
    · have hle : m ≤ k := by
        by_contra hnot
        have hlate : st.promised k m = 0 := by
          rw [st.promised_ne (by omega), hst.unwritten m (by omega)]
        rcases hplaced with hzero | hne
        · omega
        · exact hne hlate
      have hoffset : st.promised k m = recordOffset acts m := by
        by_cases hmk : m = k
        · rw [hmk, ActionState.promised_self, hst.len]
        · rw [st.promised_ne hmk, hst.written m (by omega)]
      have hsum := recordOffset_add acts hle
      have hstart := hst.len
      have hb0 := st.buf.len_lt
      have hb1 := buf1.len_lt
      have hlink : (st.promised k m : Int) - buf1.len =
        -((((recordLengths acts).take k).drop m).sum + ulebLen a.typeWord.toNat : Nat) := by
        rw [hoffset, hlen1]
        omega
      rw [hst']
      refine ⟨k + 1, by omega, hk, hst.step ha ?_⟩
      have hdata := addSlebToGrowingBuffer_ok (by omega) (by omega) h2
      unfold GrowingBuffer.len at hlen1 ⊢
      unfold recordLength
      dsimp only
      rw [hdata, List.length_append, length_sleb, hlen1, hm]
      rw [hlink, hlength]
      dsimp only
      rw [if_pos hle]
      omega
    · have hmk : m = k + 1 := by
        by_contra hne
        have hle : m ≤ k := by
          have := hnext k a m ha hm
          omega
        refine hnew ?_
        by_cases hzero : m = 0
        · exact .inl hzero
        · have hpos := recordOffset_le (show m ≤ acts.length by omega)
          refine .inr ?_
          by_cases hmk : m = k
          · rw [hmk, ActionState.promised_self, hst.len, ← hmk]
            omega
          · rw [st.promised_ne hmk, hst.written m (by omega)]
            omega
      have hlen2 : buf2.len = st.buf.len + recordLength ((recordLengths acts).take k) a := by
        unfold recordLength GrowingBuffer.len at *
        rw [addToGrowingBuffer_ok h2, List.length_append, hlen1, hm, hlength]
        dsimp only
        rw [if_neg (by omega)]
        rfl
      rw [hmk] at hrest
      obtain ⟨k', hlt, hle, hdone⟩ := ih hrest (hst.step ha hlen2)
      exact ⟨k', by omega, hle, hdone⟩

/-- **The records of such a table lie in order.** -/
theorem writeActionTable_inOrder (hnext : ∀ (k : Nat) (a : ActionRecord) (m : Nat), acts[k]? = some a →
    a.next = some m → m ≤ k + 1)
    (h : writeActionTable acts = .ok st) : ∀ k, k < acts.length → st.offset k = recordOffset acts k := by
  have hall := foldlM_ok (P := fun (done : List Nat) st => ∃ k, done.length ≤ k ∧ k ≤ acts.length ∧ (done = [] → k = 0) ∧
    InOrder acts k st) h ⟨0, le_rfl, Nat.zero_le _, fun _ => rfl, rfl, nofun, fun j _ => offset_replicate _ _ j,
      List.length_replicate⟩ ?_
  · obtain ⟨k, hlen, hle, -, hst⟩ := hall
    rw [List.length_range] at hlen
    intro j hj
    exact hst.written j (by omega)
  · intro done j rest st1 st2 hrange ⟨k, hlen, hle, hfirst, hst⟩ hstep
    have hj : (List.range acts.length)[done.length]? = some j := by
      rw [hrange]
      simp
    obtain ⟨hj, hlt⟩ := getElem?_range hj
    rw [List.length_append, List.length_singleton]
    unfold writeAction at hstep
    by_cases hwritten : st1.actionIdxToOffset.getD j 0 ≠ 0
    · rw [if_pos hwritten] at hstep
      cases hstep
      refine ⟨k, ?_, hle, by simp, hst⟩
      by_contra hnot
      exact hwritten (hst.unwritten j (by omega))
    · rw [if_neg hwritten] at hstep
      -- only the first record is at offset zero
      by_cases hjk : j = k
      · rw [hjk] at hstep
        obtain ⟨k', hlt', hle', hst'⟩ := writeChain_inOrder hnext hstep hst
        exact ⟨k', by omega, hle', by simp, hst'⟩
      · exfalso
        have hoffset := hst.written j (by omega)
        have hpos := recordOffset_le (show j ≤ acts.length by omega)
        have hzero : st1.offset j = 0 := not_not.mp hwritten
        have hk := hfirst (List.length_eq_zero_iff.mp (by omega))
        omega

end Writer

/-! ## Numbers in the order of first visits -/

/-- The next action of one that was visited was visited before it, or right after it. -/
def NextVisited (acts : List ActionRecord) (visited : List Nat) : Prop :=
  ∀ (i p : Nat) (a : ActionRecord) (m : Nat), visited[i]? = some p → acts[p]? = some a → a.next = some m →
    m ∈ visited.take (i + 1) ∨ visited[i + 1]? = some m

section Order
variable {acts : List ActionRecord} {visited visited' : List Nat} {k : Nat} {callSites : List CallSiteRecord}

theorem NextVisited.snoc {p m : Nat} {i : Nat} (h : m ∈ visited.take (i + 1) ∨ visited[i + 1]? = some m)
    (hi : visited[i]? = some p) :
    m ∈ (visited ++ [k]).take (i + 1) ∨ (visited ++ [k])[i + 1]? = some m := by
  have hlt := lt_of_getElem? hi
  rcases h with hmem | hget
  · left
    rw [List.take_append_of_le_length (by omega)]
    exact hmem
  · right
    rw [List.getElem?_append_left (lt_of_getElem? hget)]
    exact hget

theorem Follows.nextVisited (h : Follows acts visited k visited')
    (hbefore : ∀ (i p : Nat) (a : ActionRecord) (m : Nat), visited[i]? = some p → acts[p]? = some a → a.next = some m →
      (m ∈ visited.take (i + 1) ∨ visited[i + 1]? = some m) ∨ (i + 1 = visited.length ∧ m = k)) :
      NextVisited acts visited' := by
  -- the last action visited is the only one that may wait for `k`
  have hsnoc : ∀ {visited : List Nat} {k i p m : Nat}, visited[i]? = some p →
      (m ∈ visited.take (i + 1) ∨ visited[i + 1]? = some m) ∨ (i + 1 = visited.length ∧ m = k) →
      m ∈ (visited ++ [k]).take (i + 1) ∨ (visited ++ [k])[i + 1]? = some m := by
    intro visited k i p m hi hm
    rcases hm with hm | ⟨hlen, hmk⟩
    · exact NextVisited.snoc hm hi
    · right
      rw [hlen, hmk]
      exact List.getElem?_concat_length
  have hnew : ∀ {visited : List Nat} {k i p : Nat}, (visited ++ [k])[i]? = some p → visited[i]? = some p ∨
    (i = visited.length ∧ p = k) := by
    intro visited k i p hi
    by_cases hlt : i < visited.length
    · rw [List.getElem?_append_left hlt] at hi
      exact .inl hi
    · have hlen := lt_of_getElem? hi
      rw [List.length_append, List.length_singleton] at hlen
      have hlen : i = visited.length := by omega
      rw [hlen, List.getElem?_concat_length] at hi
      exact .inr ⟨hlen, (Option.some.inj hi).symm⟩
  induction h with
  | seen hk =>
    intro i p a m hi ha hm
    rcases hbefore i p a m hi ha hm with hm | ⟨hlen, hmk⟩
    · exact hm
    · rw [hlen, List.take_length, hmk]
      exact .inl hk
  | last hnot ha hnone =>
    intro i p b m hi hb hm
    rcases hnew hi with hi | ⟨-, hpk⟩
    · exact hsnoc hi (hbefore i p b m hi hb hm)
    · rw [hpk, ha] at hb
      cases hb
      rw [hnone] at hm
      cases hm
  | next hnot ha hsome _ ih =>
    refine ih ?_
    intro i p b m hi hb hm
    rcases hnew hi with hi | ⟨hlen, hpk⟩
    · exact .inl (hsnoc hi (hbefore i p b m hi hb hm))
    · rw [hpk, ha] at hb
      cases hb
      cases hsome.symm.trans hm
      exact .inr ⟨by simp [hlen], rfl⟩

theorem FollowsAll.nextVisited (h : FollowsAll acts visited callSites visited') (hbefore : NextVisited acts visited) :
    NextVisited acts visited' := by
  induction h with
  | nil => exact hbefore
  | action _ hfollows _ ih => exact ih (hfollows.nextVisited fun i p a m hi ha hm => .inl (hbefore i p a m hi ha hm))
  | noAction _ _ ih => exact ih hbefore

/-- The actions are numbered as the chains of the call sites visit them. -/
def FirstVisitOrder (lsda : LSDA) : Prop := FollowsAll lsda.actionTable [] lsda.callSiteTable
    (List.range lsda.actionTable.length)

theorem FirstVisitOrder.next_le {lsda : LSDA} (h : FirstVisitOrder lsda) {a : ActionRecord} {m : Nat}
    (ha : lsda.actionTable[k]? = some a) (hm : a.next = some m) : m ≤ k + 1 := by
  have hk := lt_of_getElem? ha
  have hget : (List.range lsda.actionTable.length)[k]? = some k := List.getElem?_range hk
  rcases FollowsAll.nextVisited h nofun k k a m hget ha hm with hmem | hnext
  · have hlt := List.mem_range.mp (by rw [List.take_range] at hmem; exact hmem)
    omega
  · have hmk := (getElem?_range hnext).1
    omega

end Order

/-! ## An LSDA in its section -/

theorem LsdaWritten.laid {config : ElfBitwidth} {lsda : LSDA} {p : LsdaParts} (h : LsdaWritten config lsda p) :
    Laid lsda.actionTable p.actions.buf.data p.actions.offset ∧ ∀ k, p.actions.offset k < 2 ^ 31 := by
  obtain ⟨hlaid, hlength⟩ := writeActionTable_laid h.actions
  refine ⟨hlaid, ?_⟩
  intro k
  by_cases hk : k < lsda.actionTable.length
  · have hlt := hlaid.offset_lt hk
    have hsmall : p.actions.buf.data.length < 2 ^ 31 := p.actions.buf.len_lt
    omega
  · unfold ActionState.offset
    rw [List.getD_eq_default _ _ (by omega)]
    norm_num

section Parsing
variable {config : ElfBitwidth} {data rest : List UInt8} {sectionAddress : UInt64} {offset : Nat} {lsda : LSDA}
  {p : LsdaParts}

def LsdaParts.header (p : LsdaParts) (lsda : LSDA) (offset : Nat) : LsdaHeader :=
  ⟨lsda.lpStart, lsda.ttEncoding, p.ttBase lsda offset, 0x01, p.callSites.len, offset + p.headerLength lsda⟩

def LsdaParts.actionStart (p : LsdaParts) (lsda : LSDA) (offset : Nat) :
    Nat := offset + p.headerLength lsda + p.callSites.len

theorem LsdaParts.length_front (p : LsdaParts) (lsda : LSDA) :
    (p.front lsda).length = p.headerLength lsda + p.callSites.len + p.actions.buf.len := by
  have htables := length_tables p
  unfold LsdaParts.front LsdaParts.headerLength
  rw [List.length_append, List.length_append]
  split
  · omega
  · rw [List.length_nil]
    omega

theorem length_le_callSites (o : Nat → Nat) (callSites : List CallSiteRecord) :
    callSites.length ≤ (callSites.map (callSiteBytes o)).flatten.length := by
  induction callSites with
  | nil => simp
  | cons callSite callSites ih =>
    have hpos := callSiteBytes_pos o callSite
    rw [List.map_cons, List.flatten_cons, List.length_append, List.length_cons]
    omega

/-- The call sites and the actions lie behind the header. -/
theorem LsdaParts.drop_tables (hdata : data.drop offset = p.front lsda ++ rest) :
    data.drop (offset + p.headerLength lsda) = p.callSites.data ++ (p.actions.buf.data ++ rest) := by
  unfold LsdaParts.front LsdaParts.tables at hdata
  have hsplit : data.drop offset =
    (lsda.start ++ ((if lsda.ttEncoding ≠ ehPeOmit then p.base else []) ++ (0x01 :: uleb p.callSites.len))) ++
      (p.callSites.data ++ (p.actions.buf.data ++ rest)) := by
    rw [hdata]
    simp
  have hlength : (lsda.start ++ ((if lsda.ttEncoding ≠ ehPeOmit then p.base else []) ++
    (0x01 :: uleb p.callSites.len))).length =
      p.headerLength lsda := by
    unfold LsdaParts.headerLength
    rw [List.length_append, List.length_append, List.length_cons, length_uleb]
    split
    · omega
    · rw [List.length_nil]
      omega
  rw [← hlength]
  exact drop_past hsplit

/-- **What is left of parsing the tables is to read the actions.** -/
theorem parseTables_written (hw : LsdaWritten config lsda p) (hdata : data.drop offset = p.front lsda ++ rest)
    (hend : offset + (p.front lsda).length < 2 ^ 31) :
    parseTables config data sectionAddress offset = (do
      let (st, callSites) ← readActionTable data (p.actionStart lsda offset)
        (lsda.callSiteTable.map (rawCallSite p.actions.offset))
      .ok (p.header lsda offset, callSites, st.actionTable, p.actionStart lsda offset + st.highestActionOffset)) := by
  obtain ⟨-, hoffset⟩ := hw.laid
  obtain ⟨hsites, -⟩ := writeCallSiteTable_ok hw.callSites fun k => lt_trans (hoffset k) (by norm_num)
  have htables := LsdaParts.drop_tables hdata
  have hfront := p.length_front lsda
  have hinside : offset + (p.front lsda).length ≤ data.length := by
    refine record_end ?_ hdata
    rw [hfront]
    unfold LsdaParts.headerLength
    omega
  have hfuel : lsda.callSiteTable.length ≤ data.length + 1 := by
    have hcount := length_le_callSites p.actions.offset lsda.callSiteTable
    rw [← hsites] at hcount
    unfold GrowingBuffer.len at hfront
    omega
  rw [hsites] at htables
  have hread := @readCallSites_written _ p.actions.offset config data _ sectionAddress _ _ htables
    (fun callSite _ _ => lt_trans (hoffset _) (by norm_num)) hfuel
  rw [← hsites] at hread
  have hmisaligned := hw.base.small
  have hsmall := hw.small
  unfold parseTables
  rw [parseLsdaHeader_written hw hdata (by omega), bind_ok]
  unfold readCallSiteTable
  dsimp only
  unfold GrowingBuffer.len at hfront ⊢
  rw [hread, bind_ok, if_neg (by omega), bind_ok]
  rfl

end Parsing

/-! ## The section -/

/-- An LSDA of a section, at the address it was given. -/
def LsdaAt (config : ElfBitwidth) (exceptTableAddress : UInt64) (sec : ExceptSection) (i : Nat) (lsda : LSDA) : Prop :=
  ∃ buf buf' rest, writeLSDA config exceptTableAddress buf lsda = .ok buf' ∧ sec.buf.data = buf'.data ++ rest ∧
    sec.lsdaPointers[i]? = some (exceptTableAddress + UInt64.ofNat buf.len)

theorem writeAlignedLSDA_ok {config : ElfBitwidth} {exceptTableAddress : UInt64} {sec sec' : ExceptSection} {lsda : LSDA}
    (h : writeAlignedLSDA config exceptTableAddress sec lsda = .ok sec') :
    sec.buf.data <+: sec'.buf.data ∧ ∃ buf buf', writeLSDA config exceptTableAddress buf lsda = .ok buf' ∧ sec'.buf = buf' ∧
      sec'.lsdaPointers = sec.lsdaPointers ++ [exceptTableAddress + UInt64.ofNat buf.len] := by
  have hrest : ∀ buf : GrowingBuffer, sec.buf.data <+: buf.data → (do
      assert (buf.len % 4 = 0)
      let buf' ← writeLSDA config exceptTableAddress buf lsda
      .ok (⟨buf', sec.lsdaPointers ++ [exceptTableAddress + UInt64.ofNat buf.len]⟩ : ExceptSection)) = .ok sec' →
      sec.buf.data <+: sec'.buf.data ∧ ∃ buf buf', writeLSDA config exceptTableAddress buf lsda = .ok buf' ∧
        sec'.buf = buf' ∧
        sec'.lsdaPointers = sec.lsdaPointers ++ [exceptTableAddress + UInt64.ofNat buf.len] := by
    intro buf hpadded hrun
    obtain ⟨⟨⟩, -, hrun⟩ := bind_eq_ok.mp hrun
    obtain ⟨buf', hwrite, hrun⟩ := bind_eq_ok.mp hrun
    cases hrun
    obtain ⟨p, -, hdata⟩ := writeLSDA_ok hwrite
    refine ⟨hpadded.trans ?_, buf, buf', hwrite, rfl, rfl⟩
    rw [hdata]
    exact List.prefix_append _ _
  unfold writeAlignedLSDA at h
  dsimp only at h
  by_cases hmisaligned : sec.buf.len % 4 ≠ 0
  · rw [if_pos hmisaligned] at h
    obtain ⟨buf, hbuf, h⟩ := bind_eq_ok.mp h
    refine hrest buf ?_ h
    rw [addToGrowingBuffer_ok hbuf]
    exact List.prefix_append _ _
  · rw [if_neg hmisaligned, bind_ok] at h
    exact hrest sec.buf (List.prefix_refl _) h

theorem buildExceptTableRawData_ok {config : ElfBitwidth} {exceptTableAddress : UInt64} {lsdas : List LSDA}
    {sec : ExceptSection}
    (h : buildExceptTableRawData config exceptTableAddress lsdas = .ok sec) {i : Nat} {lsda : LSDA}
    (hi : lsdas[i]? = some lsda) :
    LsdaAt config exceptTableAddress sec i lsda := by
  have hall := foldlM_ok (P := fun (done : List LSDA) sec => sec.lsdaPointers.length = done.length ∧
    ∀ (i : Nat) (lsda : LSDA), done[i]? = some lsda → LsdaAt config exceptTableAddress sec i lsda) h ⟨rfl, nofun⟩ ?_
  · exact hall.2 i lsda hi
  · intro done lsda rest sec sec' _ ⟨hlength, hdone⟩ hstep
    obtain ⟨hgrows, buf, buf', hwrite, hbuf, hpointers⟩ := writeAlignedLSDA_ok hstep
    refine ⟨by simp [hpointers, hlength], ?_⟩
    intro j lsda' hj
    by_cases hlt : j < done.length
    · rw [List.getElem?_append_left hlt] at hj
      obtain ⟨bufj, bufj', restj, hwritej, hdataj, hpointer⟩ := hdone j lsda' hj
      obtain ⟨tail, htail⟩ := hgrows
      refine ⟨bufj, bufj', restj ++ tail, hwritej, by rw [← htail, hdataj, List.append_assoc], ?_⟩
      rw [hpointers, List.getElem?_append_left (by omega)]
      exact hpointer
    · have hlen := lt_of_getElem? hj
      rw [List.length_append, List.length_singleton] at hlen
      have hlen : j = done.length := by omega
      rw [hlen, List.getElem?_concat_length] at hj
      cases hj
      refine ⟨buf, buf', [], hwrite, by rw [hbuf, List.append_nil], ?_⟩
      rw [hlen, ← hlength, hpointers]
      exact List.getElem?_concat_length

def lsdaOffset (sectionAddress lsdaPointer : UInt64) : Nat := (lsdaPointer - sectionAddress).toNat

/-- Its parts, where the reader finds them. -/
theorem LsdaAt.parts {config : ElfBitwidth} {exceptTableAddress pointer : UInt64} {sec : ExceptSection}
    {i : Nat} {lsda : LSDA}
    (h : LsdaAt config exceptTableAddress sec i lsda) (hpointer : sec.lsdaPointers[i]? = some pointer) :
    ∃ (p : LsdaParts) (offset : Nat) (rest : List UInt8), offset = lsdaOffset exceptTableAddress pointer ∧
      LsdaWritten config lsda p ∧
      sec.buf.data.drop offset = p.front lsda ++ (p.back exceptTableAddress lsda (offset + (p.front lsda).length) ++ rest) ∧
      offset + (p.front lsda).length + (p.back exceptTableAddress lsda
        (offset + (p.front lsda).length)).length < 2 ^ 31 := by
  obtain ⟨buf, buf', rest, hwrite, hdata, hat⟩ := h
  obtain ⟨p, hw, hwritten⟩ := writeLSDA_ok hwrite
  have hsmall := buf'.len_lt
  have hoffset : buf.len = lsdaOffset exceptTableAddress pointer := by
    have hlt := buf.len_lt
    cases hpointer.symm.trans hat
    unfold lsdaOffset
    rw [UInt64.add_comm, UInt64.add_sub_cancel, UInt64.toNat_ofNat_of_lt' (show buf.len < 2 ^ 64 by omega)]
  refine ⟨p, buf.len, rest, hoffset, hw, ?_, ?_⟩
  · rw [hdata, hwritten]
    simp only [List.append_assoc]
    exact List.drop_left' rfl
  · have hlength := congrArg List.length hwritten
    rw [List.length_append, List.length_append] at hlength
    have hlen : buf'.len = buf.len + _ := hlength
    omega

/-! ## What comes back -/

/-- `firstAction` is only valid where there is one. -/
structure SameCallSite (callSite read : CallSiteRecord) : Prop where
  position : read.position = callSite.position
  length : read.length = callSite.length
  landingPadPosition : read.landingPadPosition = callSite.landingPadPosition
  hasAction : read.hasAction = callSite.hasAction
  firstAction : callSite.hasAction = true → read.firstAction = callSite.firstAction

/-- `nextAction` is only valid where there is one. -/
structure SameAction (action read : ActionRecord) : Prop where
  typeFilterIndex : read.typeFilterIndex = action.typeFilterIndex
  hasNextAction : read.hasNextAction = action.hasNextAction
  nextAction : action.hasNextAction = true → read.nextAction = action.nextAction

/-- The call sites and the actions of the LSDA at `offset` are parsed as they were. -/
def TablesReturn (config : ElfBitwidth) (data : List UInt8) (sectionAddress : UInt64) (offset : Nat) (lsda : LSDA) : Prop :=
  ∃ header callSites actions stop, parseTables config data sectionAddress offset = .ok (header, callSites, actions, stop) ∧
    List.Forall₂ SameCallSite lsda.callSiteTable callSites ∧ List.Forall₂ SameAction lsda.actionTable actions

/-- No action follows itself, and no link goes back too far for four septets. -/
def LinksReturn (acts : List ActionRecord) : Prop :=
  ∀ (k : Nat) (a : ActionRecord) (m : Nat), acts[k]? = some a → a.next = some m → m ≤ k → m ≠ k ∧
    linkBack acts m k a ≤ 2 ^ 27

theorem typeFilterIndex_returns {a : ActionRecord} (ha : -1 ≤ a.typeFilterIndex.toInt) (next : Int) :
    (newAction a.typeWord.toNat next).typeFilterIndex = a.typeFilterIndex := by
  have hhi := a.typeFilterIndex.toInt_lt
  have hword : (a.typeWord.toNat : Int) = a.typeFilterIndex.toInt + 1 := by
    unfold ActionRecord.typeWord UInt64.ofInt
    rw [UInt64.toNat_ofNat']
    omega
  unfold newAction
  by_cases hzero : a.typeWord.toNat = 0
  · have hall : a.typeFilterIndex.toInt = -1 := by omega
    simp only [hzero, if_true]
    exact Int32.toInt_inj.mp hall.symm
  · simp only [hzero, if_false]
    refine Int32.toInt_inj.mp ?_
    rw [Int32.toInt_ofNat_of_lt (by omega)]
    omega

section Returned
variable {acts : List ActionRecord} {o : Nat → Nat} {st : ReadActions} {k m : Nat} {a : ActionRecord}

/-- Read in order, an action is the one it was, unless it follows itself. -/
theorem ActionsRead.action (h : ActionsRead acts o (List.range acts.length) (fun _ => False) st) (ha : acts[k]? = some a)
    (htype : -1 ≤ a.typeFilterIndex.toInt) : ∃ r : ActionRecord, st.actionTable[k]? = some r ∧
      (r.hasNextAction = true ↔ nextPtr o k a ≠ 0) ∧
      ((∀ m, a.next = some m → m ≠ k ∧ nextPtr o k a ≠ 0) → SameAction a r) := by
  obtain ⟨r, hr, htype', hnext, hlink⟩ := h.entry k k a (List.getElem?_range (lt_of_getElem? ha)) ha
  refine ⟨r, hr, hnext, ?_⟩
  intro hother
  have hhas : r.hasNextAction = a.hasNextAction := by
    by_cases hhas : a.hasNextAction = true
    · rw [hhas]
      exact hnext.mpr (hother _ (next_some.mpr ⟨hhas, rfl⟩)).2
    · have hnone : a.next = none := next_none.mpr (by simpa using hhas)
      have hzero : nextPtr o k a = 0 := by simp [nextPtr, hnone]
      have hnot : ¬ r.hasNextAction = true := fun hr => hnext.mp hr hzero
      simp only [Bool.not_eq_true] at hnot hhas
      rw [hnot, hhas]
  refine ⟨htype'.trans (typeFilterIndex_returns htype 0), hhas, ?_⟩
  intro hhas
  have hm : a.next = some a.nextAction.toNat := next_some.mpr ⟨hhas, rfl⟩
  exact UInt64.toNat_inj.mp (getElem?_range (hlink _ hm (hother _ hm).1 (fun hnot => hnot))).1

/-- Which displacements can be read, where the records lie in order. -/
theorem linkReadable_iff (ho : ∀ k, k < acts.length → o k = recordOffset acts k) (hsmall : ∀ k, o k < 2 ^ 31)
    (hnext : ∀ m, a.next = some m → m < acts.length ∧ m ≤ k + 1) (ha : acts[k]? = some a) :
    LinkReadable o k a ↔ ∀ m, a.next = some m → m ≤ k → linkBack acts m k a ≤ 2 ^ 27 := by
  have hk := lt_of_getElem? ha
  have hlength : ((recordLengths acts).take k).length = k := by
    rw [List.length_take, length_recordLengths]
    omega
  unfold LinkReadable
  rw [slebLen_returns]
  cases hm : a.next with
  | none =>
    rw [linkOf_none hm]
    refine ⟨fun _ => nofun, fun _ => ?_⟩
    unfold ReturnsWord
    norm_num
  | some m =>
    obtain ⟨hlt, hle⟩ := hnext m hm
    by_cases hback : m ≤ k
    · have hsum := recordOffset_add acts hback
      have hlink : linkOf o k a = -(linkBack acts m k a : Int) := by
        unfold linkOf linkBack
        rw [hm]
        dsimp only
        rw [ho m hlt, ho k hk]
        omega
      have hword : ulebLen a.typeWord.toNat ≤ 10 :=
        (ulebLen_le_iff (by norm_num)).mpr (lt_of_lt_of_le a.typeWord.toNat_lt (by norm_num))
      have hbound : linkBack acts m k a ≤ 2 ^ 31 + 10 := by
        have hok := hsmall k
        rw [ho k hk] at hok
        unfold linkBack
        omega
      rw [hlink]
      refine ⟨?_, ?_⟩
      · intro hreturns m' hm' _
        cases hm'
        unfold ReturnsWord at hreturns
        norm_num at hreturns
        omega
      · intro hall
        have hle := hall m rfl hback
        unfold ReturnsWord
        left
        omega
    · have hmk : m = k + 1 := by omega
      have hlink : linkOf o k a = 1 := by
        unfold linkOf
        rw [hm]
        dsimp only
        rw [ho m hlt, ho k hk, hmk, recordOffset_succ ha]
        unfold recordLength
        rw [hm, hlength]
        dsimp only
        rw [if_neg hback]
        push_cast
        omega
      rw [hlink]
      refine ⟨?_, ?_⟩
      · intro _ m' hm' hback'
        cases hm'
        exact absurd hback' hback
      · intro _
        unfold ReturnsWord
        norm_num

end Returned

/-! ## Round trips -/

section RoundTrip
variable {config : ElfBitwidth} {data rest : List UInt8} {sectionAddress : UInt64} {offset : Nat} {lsda : LSDA}
  {p : LsdaParts}

/-- The action table, behind the header and the call sites. -/
theorem LsdaParts.drop_actions (hdata : data.drop offset = p.front lsda ++ rest) :
    data.drop (p.actionStart lsda offset) = p.actions.buf.data ++ rest := drop_past (LsdaParts.drop_tables hdata)

/-- What is read of the actions that the call sites lead to. -/
theorem LsdaWritten.reads (hw : LsdaWritten config lsda p) (hdata : data.drop offset = p.front lsda ++ rest)
    (hend : offset + (p.front lsda).length < 2 ^ 31) {st : ReadActions} {callSites : List CallSiteRecord}
    (hrun : readActionTable data (p.actionStart lsda offset)
    (lsda.callSiteTable.map (rawCallSite p.actions.offset)) = .ok (st, callSites)) :
    ∃ visited, FollowsAll lsda.actionTable [] lsda.callSiteTable visited ∧
      ActionsRead lsda.actionTable p.actions.offset visited (fun _ => False) st ∧
      List.Forall₂ (CallSiteRead visited) lsda.callSiteTable callSites := by
  obtain ⟨hlaid, hoffset⟩ := hw.laid
  obtain ⟨-, hfirst⟩ := writeCallSiteTable_ok hw.callSites fun k => lt_trans (hoffset k) (by norm_num)
  rw [(writeActionTable_laid hw.actions).2] at hfirst
  have hfront := p.length_front lsda
  have hsize : p.actionStart lsda offset + p.actions.buf.data.length < 2 ^ 31 := by
    unfold LsdaParts.actionStart
    unfold GrowingBuffer.len at *
    omega
  obtain ⟨visited, sites, hall, hread, hsites, hforall⟩ :=
    readChains_reads hlaid (LsdaParts.drop_actions hdata) hsize hfirst actionsRead_nil hrun
  rw [List.nil_append] at hsites
  rw [hsites]
  exact ⟨visited, hall, hread, hforall⟩

/-- With every displacement readable, the actions are read. -/
theorem LsdaWritten.reads_total (hw : LsdaWritten config lsda p) (hdata : data.drop offset = p.front lsda ++ rest)
    (hend : offset + (p.front lsda).length < 2 ^ 31)
    (hreadable : ∀ (k : Nat) (a : ActionRecord), lsda.actionTable[k]? = some a → LinkReadable p.actions.offset k a) :
    (readActionTable data (p.actionStart lsda offset) (lsda.callSiteTable.map (rawCallSite p.actions.offset))).isOk := by
  obtain ⟨hlaid, hoffset⟩ := hw.laid
  obtain ⟨-, hfirst⟩ := writeCallSiteTable_ok hw.callSites fun k => lt_trans (hoffset k) (by norm_num)
  rw [(writeActionTable_laid hw.actions).2] at hfirst
  have hfront := p.length_front lsda
  have hsize : p.actionStart lsda offset + p.actions.buf.data.length < 2 ^ 31 := by
    unfold LsdaParts.actionStart
    unfold GrowingBuffer.len at *
    omega
  exact readChains_total hlaid (LsdaParts.drop_actions hdata) hsize hfirst actionsRead_nil hreadable

/-- Numbered in the order of first visits, a displacement can be read unless it goes back too far. -/
theorem LsdaWritten.linkReadable (hw : LsdaWritten config lsda p) (horder : FirstVisitOrder lsda) {k : Nat}
    {a : ActionRecord}
    (ha : lsda.actionTable[k]? = some a) : LinkReadable p.actions.offset k a ↔
      ∀ m, a.next = some m → m ≤ k → linkBack lsda.actionTable m k a ≤ 2 ^ 27 := by
  obtain ⟨hlaid, hoffset⟩ := hw.laid
  have hinOrder := writeActionTable_inOrder (fun k a m ha hm => horder.next_le ha hm) hw.actions
  exact linkReadable_iff hinOrder hoffset (fun m hm => ⟨hlaid.closed _ _ m ha hm, horder.next_le ha hm⟩) ha

end RoundTrip

section Section
variable {config : ElfBitwidth} {exceptTableAddress pointer : UInt64} {lsdas : List LSDA} {sec : ExceptSection}
  {i : Nat} {lsda : LSDA}

/-- A link that is read back goes to another action, and not too far back. -/
theorem TablesReturn.links (h : buildExceptTableRawData config exceptTableAddress lsdas = .ok sec)
    (hi : lsdas[i]? = some lsda)
    (hpointer : sec.lsdaPointers[i]? = some pointer) (horder : FirstVisitOrder lsda)
    (htype : ∀ a ∈ lsda.actionTable, -1 ≤ a.typeFilterIndex.toInt)
    (hreturn : TablesReturn config sec.buf.data exceptTableAddress (lsdaOffset exceptTableAddress pointer) lsda) :
    LinksReturn lsda.actionTable := by
  obtain ⟨p, offset, rest, hoffset, hw, hdata, hsmall⟩ := (buildExceptTableRawData_ok h hi).parts hpointer
  have hend : offset + (p.front lsda).length < 2 ^ 31 := by omega
  obtain ⟨hlaid, -⟩ := hw.laid
  rw [← hoffset] at hreturn
  obtain ⟨header, callSites, actions, stop, hrun, -, hactions⟩ := hreturn
  rw [parseTables_written hw hdata hend] at hrun
  obtain ⟨⟨st, sites⟩, hread, hrun⟩ := bind_eq_ok.mp hrun
  cases hrun
  obtain ⟨visited, hall, hst, -⟩ := hw.reads hdata hend hread
  cases hall.unique horder
  intro k a m ha hm hback
  have hreadable := hst.readable k a (List.mem_range.mpr (lt_of_getElem? ha)) ha
  refine ⟨?_, (hw.linkReadable horder ha).mp hreadable m hm hback⟩
  obtain ⟨r, hr, hnext, -⟩ := hst.action ha (htype a (List.mem_of_getElem? ha))
  have hsame : SameAction a r := by
    obtain ⟨hlt, hget⟩ := List.getElem?_eq_some_iff.mp ha
    obtain ⟨hlt', hget'⟩ := List.getElem?_eq_some_iff.mp hr
    have hat := (List.forall₂_iff_get.mp hactions).2 k hlt hlt'
    rw [List.get_eq_getElem, List.get_eq_getElem, hget, hget'] at hat
    exact hat
  have hhas : r.hasNextAction = true := hsame.hasNextAction.trans (next_some.mp hm).1
  exact (hlaid.nextPtr_ne ha hm).mp (hnext.mp hhas)

/-- With such links only, the tables are read back. -/
theorem LinksReturn.tables (h : buildExceptTableRawData config exceptTableAddress lsdas = .ok sec)
    (hi : lsdas[i]? = some lsda)
    (hpointer : sec.lsdaPointers[i]? = some pointer) (horder : FirstVisitOrder lsda)
    (htype : ∀ a ∈ lsda.actionTable, -1 ≤ a.typeFilterIndex.toInt) (hlinks : LinksReturn lsda.actionTable) :
    TablesReturn config sec.buf.data exceptTableAddress (lsdaOffset exceptTableAddress pointer) lsda := by
  obtain ⟨p, offset, rest, hoffset, hw, hdata, hsmall⟩ := (buildExceptTableRawData_ok h hi).parts hpointer
  have hend : offset + (p.front lsda).length < 2 ^ 31 := by omega
  obtain ⟨hlaid, -⟩ := hw.laid
  rw [← hoffset]
  have htotal := hw.reads_total hdata hend fun k a ha =>
    (hw.linkReadable horder ha).mpr fun m hm hback => (hlinks k a m ha hm hback).2
  cases hread : readActionTable sec.buf.data (p.actionStart lsda offset)
    (lsda.callSiteTable.map (rawCallSite p.actions.offset)) with
  | error f =>
    rw [hread] at htotal
    cases htotal
  | ok x =>
    obtain ⟨st, callSites⟩ := x
    obtain ⟨visited, hall, hst, hsites⟩ := hw.reads hdata hend hread
    cases hall.unique horder
    refine ⟨_, callSites, st.actionTable, _, by rw [parseTables_written hw hdata hend, hread]; rfl, ?_, ?_⟩
    · refine hsites.imp ?_
      intro callSite read hsite
      refine ⟨hsite.position, hsite.length, hsite.landingPadPosition, hsite.hasAction, ?_⟩
      intro haction
      exact UInt64.toNat_inj.mp (getElem?_range (hsite.firstAction haction)).1
    · refine List.forall₂_iff_get.mpr ⟨by rw [hst.length, List.length_range], ?_⟩
      intro k hk hk'
      have ha := List.getElem?_eq_getElem hk
      obtain ⟨r, hr, -, hsame⟩ := hst.action ha (htype _ (List.getElem_mem hk))
      obtain ⟨hlt, hget⟩ := List.getElem?_eq_some_iff.mp hr
      rw [List.get_eq_getElem, List.get_eq_getElem, hget]
      refine hsame ?_
      intro m hm
      have hother : m ≠ k := by
        by_cases hback : m ≤ k
        · exact (hlinks k _ m ha hm hback).1
        · omega
      exact ⟨hother, (hlaid.nextPtr_ne ha hm).mpr hother⟩

/-- **The tables of an LSDA come back exactly when no action follows itself and no link goes back too far.** -/
theorem tablesReturn_iff (h : buildExceptTableRawData config exceptTableAddress lsdas = .ok sec) (hi : lsdas[i]? = some lsda)
    (hpointer : sec.lsdaPointers[i]? = some pointer) (horder : FirstVisitOrder lsda)
    (htype : ∀ a ∈ lsda.actionTable, -1 ≤ a.typeFilterIndex.toInt) :
    TablesReturn config sec.buf.data exceptTableAddress (lsdaOffset exceptTableAddress pointer) lsda ↔
      LinksReturn lsda.actionTable :=
  ⟨fun hreturn => hreturn.links h hi hpointer horder htype, fun hlinks => hlinks.tables h hi hpointer horder htype⟩

end Section

def actionsLsda (actions : List ActionRecord) : LSDA where
  lpStart := 0
  callSiteTable := [⟨0, 4, 0, 0, true⟩]
  actionTable := actions
  ttEncoding := 0x00
  typeTable := [0x601000]

def actionCycle : List ActionRecord := [⟨0, 1, true⟩, ⟨-1, 0, true⟩]

theorem actionCycle_returns : ∃ sec, buildExceptTableRawData .elf64 0x400000 [actionsLsda actionCycle] = .ok sec ∧
    TablesReturn .elf64 sec.buf.data 0x400000 (lsdaOffset 0x400000 0x400000) (actionsLsda actionCycle) := by
  have hbuilt : buildExceptTableRawData .elf64 0x400000 [actionsLsda actionCycle] = .ok _ := rfl
  refine ⟨_, hbuilt, (tablesReturn_iff (i := 0) hbuilt rfl rfl ?_ ?_).mpr ?_⟩
  · exact .action rfl (.next (by simp) rfl rfl (.next (by simp) rfl rfl (.seen (by decide)))) .nil
  · decide
  · intro k a m ha hm hback
    match k with
    | 0 =>
      cases ha
      cases hm
      cases hback
    | 1 =>
      cases ha
      cases hm
      decide
    | k + 2 => cases ha

def selfAction : List ActionRecord := [⟨0, 0, true⟩]

theorem not_tablesReturn : ¬ ∀ (config : ElfBitwidth) (exceptTableAddress pointer : UInt64) (lsdas : List LSDA)
    (sec : ExceptSection),
    buildExceptTableRawData config exceptTableAddress lsdas = .ok sec → ∀ (i : Nat) (lsda : LSDA), lsdas[i]? = some lsda →
    sec.lsdaPointers[i]? = some pointer → FirstVisitOrder lsda → (∀ a ∈ lsda.actionTable, -1 ≤ a.typeFilterIndex.toInt) →
    TablesReturn config sec.buf.data exceptTableAddress (lsdaOffset exceptTableAddress pointer) lsda := by
  intro hall
  have horder : FirstVisitOrder (actionsLsda selfAction) := .action rfl (.next (by simp) rfl rfl (.seen (by decide))) .nil
  have hbuilt : buildExceptTableRawData .elf64 0x400000 [actionsLsda selfAction] = .ok _ := rfl
  have hreturn := hall .elf64 0x400000 0x400000 _ _ hbuilt 0 _ rfl rfl horder (by decide)
  have hlinks := hreturn.links (i := 0) hbuilt rfl rfl horder (by decide)
  exact (hlinks 0 _ 0 rfl rfl le_rfl).1 rfl

end Katana

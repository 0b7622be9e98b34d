/-
  Katana.Lsda.TypeTable — the type table of an LSDA that is written and parsed again (exceptTable.c).

  The table is written from its last entry on and read by negative index from its end. The location a pc-relative entry
  is written for adds the entries before it a second time, so that all entries are written for the location of the first
  one. The end of the actions is written nowhere: the reader finds it where the last record that it reads ends.

  Proved:
  - `drop_typeBytes`: where an entry lies, and what it says.
  - `readTypeTable_written`: as many entries are read as were written.
  - `typesReturn_iff`: the types come back exactly when the actions can be read, no type but the first is pc-relative,
    and nothing in four bytes is to be sign-extended.
-/
import Katana.Lsda.RoundTrip

namespace Katana

open Lib

/-! ## The entries -/

def entryPosition (ttEntrySize start n j : Nat) : Nat := start + ttEntrySize * (n - 1 - j)

/-- What is written for the entry of index `j`, in a section loaded at `base`. -/
def entryWritten (base : UInt64) (ttEncoding : UInt8) (ttEntrySize start n j : Nat) (type : UInt64) : UInt64 :=
  storedPointer type (base + UInt64.ofNat (entryPosition ttEntrySize start n j) + UInt64.ofNat (j * ttEntrySize)) ttEncoding

def entryRead (base : UInt64) (ttEncoding : UInt8) (ttEntrySize start n j : Nat) (type : UInt64) : UInt64 :=
  UInt64.ofNat ((entryWritten base ttEncoding ttEntrySize start n j type).toNat % 256 ^ ttEntrySize) +
    pointerOrigin ttEncoding (base + UInt64.ofNat (entryPosition ttEntrySize start n j))

section Entries
variable {base : UInt64} {ttEncoding : UInt8} {k start n j : Nat} {type : UInt64} {types : List UInt64}

/-- An entry in its table, the first one last. -/
theorem drop_typeBytes (hj : types[j]? = some type) (first : Nat) :
    ∃ rest, (typeBytes base ttEncoding k start (types.zipIdx first)).drop (k * (types.length - 1 - j)) =
      toLE k (storedPointer type (base + UInt64.ofNat (entryPosition k start types.length j) +
        UInt64.ofNat ((first + j) * k)) ttEncoding).toNat ++ rest := by
  induction types generalizing j first with
  | nil => cases hj
  | cons t types ih =>
    have hlength := length_typeBytes base ttEncoding k start (types.zipIdx (first + 1))
    rw [List.length_zipIdx] at hlength
    rw [List.zipIdx_cons, typeBytes, List.length_cons, List.length_zipIdx]
    cases j with
    | zero =>
      cases hj
      refine ⟨[], ?_⟩
      rw [List.append_nil, List.drop_left' (by rw [hlength]; rfl)]
      rfl
    | succ j =>
      rw [List.getElem?_cons_succ] at hj
      have hlt := lt_of_getElem? hj
      obtain ⟨rest, hrest⟩ := ih hj (first + 1)
      have hle : k * (types.length - 1 - j) ≤ k * types.length := Nat.mul_le_mul_left k (by omega)
      have hindex : types.length + 1 - 1 - (j + 1) = types.length - 1 - j := by omega
      have hfirst : first + 1 + j = first + (j + 1) := by omega
      unfold entryPosition at hrest ⊢
      rw [hindex, List.drop_append_of_le_length (by omega), hrest, hfirst, List.append_assoc]
      exact ⟨_, rfl⟩

/-- A later pc-relative entry is written for the location of the first one and read for its own. -/
theorem entryRead_pcrel (hk : k = 4 ∨ k = 8) (hpcrel : peApplication ttEncoding = .pcrel) (hsmall : j * k < 2 ^ 31)
    (hread : entryRead base ttEncoding k start n j type = type) : j = 0 := by
  unfold entryRead pointerOrigin at hread
  rw [if_pos hpcrel] at hread
  have hwritten : UInt64.ofNat ((entryWritten base ttEncoding k start n j type).toNat % 256 ^ k) =
      entryWritten base ttEncoding k start n j type + UInt64.ofNat (j * k) := by
    have hsum : entryWritten base ttEncoding k start n j type + UInt64.ofNat (j * k) +
        (base + UInt64.ofNat (entryPosition k start n j)) = type := by
      unfold entryWritten storedPointer
      rw [if_pos hpcrel]
      grind
    grind
  have hnat := congrArg UInt64.toNat hwritten
  have hword := (entryWritten base ttEncoding k start n j type).toNat_lt
  rw [UInt64.toNat_add, UInt64.toNat_ofNat_of_lt' (show j * k < 2 ^ 64 by omega), UInt64.toNat_ofNat'] at hnat
  rcases hk with rfl | rfl
  · norm_num at hnat
    omega
  · norm_num at hnat
    omega

/-- **When an entry is read as it was**: it is not a later pc-relative one, and nothing is lost in its format. -/
theorem entryRead_iff (hk : k = 4 ∨ k = 8) (hsmall : j * k < 2 ^ 31)
    (hfits : FitsFormat ttEncoding k (storedPointer type (base + UInt64.ofNat (entryPosition k start n j)) ttEncoding)) :
    entryRead base ttEncoding k start n j type = type ↔ (peApplication ttEncoding = .pcrel → j = 0) ∧
      (k = 8 ∨ ((peFormat ttEncoding).signed →
        0 ≤ (storedPointer type (base + UInt64.ofNat (entryPosition k start n j)) ttEncoding).toInt64.toInt)) := by
  have hk8 : k ≤ 8 := by omega
  have hwritten : (peApplication ttEncoding = .pcrel → j = 0) → (entryRead base ttEncoding k start n j type = type ↔
      (storedPointer type (base + UInt64.ofNat (entryPosition k start n j)) ttEncoding).toNat < 256 ^ k) := by
    intro hfirst
    have hown : entryWritten base ttEncoding k start n j type =
        storedPointer type (base + UInt64.ofNat (entryPosition k start n j)) ttEncoding := by
      unfold entryWritten storedPointer
      by_cases hpcrel : peApplication ttEncoding = .pcrel
      · simp [hpcrel, hfirst hpcrel]
      · simp [hpcrel]
    unfold entryRead
    rw [hown, add_origin_eq, ofNat_mod_eq hk8]
  have hlt := hfits.lt_iff hk8
  refine ⟨?_, ?_⟩
  · intro hread
    have hfirst : peApplication ttEncoding = .pcrel → j = 0 := fun hpcrel => entryRead_pcrel hk hpcrel hsmall hread
    exact ⟨hfirst, hlt.mp ((hwritten hfirst).mp hread)⟩
  · intro ⟨hfirst, hnonneg⟩
    exact (hwritten hfirst).mpr (hlt.mpr hnonneg)

end Entries

/-! ## The table -/

def readTypeEntry (config : ElfBitwidth) (data : List UInt8) (sectionAddress : UInt64) (ttEncoding : UInt8)
    (ttEntrySize position : Nat) : Except Fault UInt64 := do
  let (type, _) ← decodeEHPointer config (data.drop position) ttEntrySize (sectionAddress + UInt64.ofNat position) ttEncoding
  .ok type

section Table
variable {config : ElfBitwidth} {data rest : List UInt8} {base : UInt64} {stop padding k : Nat} {ttEncoding : UInt8}
  {types : List UInt64}

/-- **As many entries are read as were written**, when the padding is shorter than an entry. -/
theorem readTypeTable_written (hsize : getPointerSizeFromEHPointerEncoding config ttEncoding = .ok k)
    (hs : Supported ttEncoding)
    (hdata : data.drop (stop + padding) = typeBytes base ttEncoding k (stop + padding) types.zipIdx ++ rest)
    (hpadding : padding < k) (hsmall : stop + padding + k * types.length < 2 ^ 31) :
    readTypeTable config data base stop (stop + padding + k * types.length) ttEncoding =
      .ok (types.mapIdx (entryRead base ttEncoding k (stop + padding) types.length)) := by
  have homit := not_omit_of_application hs
  have hk := pointerSize_le hsize
  have hoffset : Int.bmod ((stop + padding + k * types.length : Nat) - k - stop)
    (2 ^ 64) = (padding + k * types.length : Nat) - k := by
    rw [Int.bmod_eq_of_le (by omega) (by omega)]
    push_cast
    ring
  have hcount : (if 0 ≤ ((padding + k * types.length : Nat) : Int) - k then
      (((padding + k * types.length : Nat) : Int) - k).toNat / k + 1 else 0) = types.length := by
    cases hn : types.length with
    | zero => rw [if_neg (by omega)]
    | succ n =>
      have hfirst : (((padding + k * (n + 1) : Nat) : Int) - k).toNat = padding + k * n := by
        rw [Nat.mul_succ]
        omega
      rw [Nat.mul_succ, if_pos (by omega), ← Nat.mul_succ, hfirst, Nat.add_mul_div_left _ _ (by omega),
        Nat.div_eq_of_lt hpadding]
      omega
  have hentry : ∀ j ∈ List.range types.length, readTypeEntry config data base ttEncoding k
      (stop + ((((padding + k * types.length : Nat) : Int) - k).toNat - j * k)) =
        .ok (entryRead base ttEncoding k (stop + padding) types.length j (types.getD j 0)) := by
    intro j hj
    have hlt := List.mem_range.mp hj
    have hget := List.getElem?_eq_getElem hlt
    have hposition : stop + ((((padding + k * types.length : Nat) : Int) - k).toNat - j * k) =
        entryPosition k (stop + padding) types.length j := by
      obtain ⟨i, hi⟩ := Nat.exists_eq_add_of_lt hlt
      have hsum : k * types.length = k * i + j * k + k := by
        rw [hi]
        ring
      unfold entryPosition
      rw [hsum, show types.length - 1 - j = i by omega]
      omega
    obtain ⟨tail, hbytes⟩ := @drop_typeBytes base ttEncoding k (stop + padding) _ _ _ hget 0
    have hle : k * (types.length - 1 - j) ≤ k * types.length := Nat.mul_le_mul_left k (by omega)
    have hdrop : data.drop (entryPosition k (stop + padding) types.length j) =
        toLE k (entryWritten base ttEncoding k (stop + padding) types.length j types[j]).toNat ++ (tail ++ rest) := by
      unfold entryPosition
      rw [← List.drop_drop, hdata, List.drop_append_of_le_length
        (by rw [length_typeBytes, List.length_zipIdx]; exact hle), hbytes,
        Nat.zero_add, List.append_assoc]
      rfl
    have hread := @readEHPointer_toLE config ttEncoding k hsize homit
      (entryWritten base ttEncoding k (stop + padding) types.length j types[j]).toNat (tail ++ rest) k le_rfl
    unfold readTypeEntry
    rw [hposition, hdrop, decodeEHPointer_of hread hs, bind_ok, List.getD_eq_getElem _ _ hlt]
    rfl
  unfold readTypeTable
  rw [if_pos homit, hsize, bind_ok]
  dsimp only
  rw [hoffset, hcount]
  refine (mapM_ok hentry).trans ?_
  refine congrArg Except.ok (List.ext_getElem (by simp) ?_)
  intro j h1 h2
  rw [List.getElem_map, List.getElem_range, List.getElem_mapIdx, List.getD_eq_getElem _ _ (by simpa using h1)]

end Table

/-! ## Where the actions end -/

/-- The actions that some call site leads to. -/
inductive Reachable (lsda : LSDA) : Nat → Prop
  | first {callSite : CallSiteRecord} : callSite ∈ lsda.callSiteTable → callSite.hasAction = true →
    Reachable lsda callSite.firstAction.toNat
  | next {k m : Nat} {a : ActionRecord} : Reachable lsda k → lsda.actionTable[k]? = some a → a.next = some m →
      Reachable lsda m

/-- Every displacement of the table that is written can be read. -/
def LinksReadable (acts : List ActionRecord) : Prop :=
  ∀ st, writeActionTable acts = .ok st → ∀ (k : Nat) (a : ActionRecord), acts[k]? = some a → LinkReadable st.offset k a

section Actions
variable {acts : List ActionRecord} {bytes : List UInt8} {o : Nat → Nat} {visited visited' : List Nat} {pending : Nat → Prop}
  {st : ReadActions} {callSites : List CallSiteRecord} {lsda : LSDA} {k : Nat}

theorem FollowsAll.first_mem (h : FollowsAll acts visited callSites visited') :
    ∀ callSite ∈ callSites, callSite.hasAction = true → callSite.firstAction.toNat ∈ visited' := by
  induction h with
  | nil => nofun
  | action _ hfollows hrest ih =>
    intro callSite hmem haction
    rcases List.mem_cons.mp hmem with rfl | hmem
    · exact hrest.grows.subset hfollows.mem
    · exact ih callSite hmem haction
  | noAction hno _ ih =>
    intro callSite hmem haction
    rcases List.mem_cons.mp hmem with rfl | hmem
    · rw [hno] at haction
      cases haction
    · exact ih callSite hmem haction

/-- The reader visits what is reachable. -/
theorem Reachable.mem_visited (hk : Reachable lsda k)
    (h : FollowsAll lsda.actionTable [] lsda.callSiteTable visited) : k ∈ visited := by
  induction hk with
  | first hmem haction => exact h.first_mem _ hmem haction
  | next _ ha hm ih =>
    obtain ⟨i, hi⟩ := List.mem_iff_getElem?.mp ih
    rcases h.nextVisited nofun i _ _ _ hi ha hm with hbefore | hnext
    · exact List.mem_of_mem_take hbefore
    · exact List.mem_of_getElem? hnext

/-- When all records have been read, the last of them ends the table. -/
theorem ActionsRead.highest_eq (h : ActionsRead acts o visited pending st) (hlaid : Laid acts bytes o)
    (hall : ∀ k, k < acts.length → k ∈ visited) : st.highestActionOffset = bytes.length := by
  have hle : st.highestActionOffset ≤ bytes.length := by
    rcases h.highest with hzero | ⟨k, a, -, ha, hhigh⟩
    · omega
    · obtain ⟨rest, hrecord⟩ := hlaid.record k a ha
      have hend := record_end (recordBytes_pos o k a) hrecord
      omega
  by_cases hempty : acts = []
  · rw [hlaid.empty hempty] at hle ⊢
    simpa using hle
  · obtain ⟨k, a, ha, hlast⟩ := hlaid.last hempty
    have hpast := h.past k a (hall k (lt_of_getElem? ha)) ha
    have hlength := congrArg List.length hlast
    have hlt := hlaid.offset_lt (lt_of_getElem? ha)
    rw [List.length_drop] at hlength
    omega

end Actions

section Tables
variable {config : ElfBitwidth} {data rest : List UInt8} {sectionAddress : UInt64} {offset : Nat} {lsda : LSDA}
  {p : LsdaParts}

/-- With all actions reachable, the end of the actions is found. -/
theorem parseTables_ok {header : LsdaHeader} {callSites : List CallSiteRecord} {actions : List ActionRecord} {stop : Nat}
    (hw : LsdaWritten config lsda p) (hdata : data.drop offset = p.front lsda ++ rest)
    (hend : offset + (p.front lsda).length < 2 ^ 31)
    (hreach : ∀ k, k < lsda.actionTable.length → Reachable lsda k)
    (hrun : parseTables config data sectionAddress offset = .ok (header, callSites, actions, stop)) :
    header = p.header lsda offset ∧ stop = offset + (p.front lsda).length ∧ LinksReadable lsda.actionTable := by
  rw [parseTables_written hw hdata hend] at hrun
  obtain ⟨⟨st, sites⟩, hread, hrun⟩ := bind_eq_ok.mp hrun
  cases hrun
  obtain ⟨visited, hall, hst, -⟩ := hw.reads hdata hend hread
  have hvisited : ∀ k, k < lsda.actionTable.length → k ∈ visited := fun k hk => (hreach k hk).mem_visited hall
  refine ⟨rfl, ?_, ?_⟩
  · rw [hst.highest_eq hw.laid.1 hvisited, p.length_front]
    unfold LsdaParts.actionStart GrowingBuffer.len
    omega
  · intro written hwritten k a ha
    cases hw.actions.symm.trans hwritten
    exact hst.readable k a (hvisited k (lt_of_getElem? ha)) ha

/-- With every displacement readable, the tables are parsed. -/
theorem parseTables_isOk (hw : LsdaWritten config lsda p) (hdata : data.drop offset = p.front lsda ++ rest)
    (hend : offset + (p.front lsda).length < 2 ^ 31) (hlinks : LinksReadable lsda.actionTable) :
    (parseTables config data sectionAddress offset).isOk := by
  have htotal := hw.reads_total hdata hend (hlinks _ hw.actions)
  rw [parseTables_written hw hdata hend]
  cases hread : readActionTable data (p.actionStart lsda offset) (lsda.callSiteTable.map (rawCallSite p.actions.offset)) with
  | error f =>
    rw [hread] at htotal
    cases htotal
  | ok x => rfl

end Tables

/-! ## Round trips -/

/-- The types of the LSDA at a pointer are parsed as they were. -/
def TypesReturn (config : ElfBitwidth) (data : List UInt8) (sectionAddress lsdaPointer : UInt64) (lsda : LSDA) : Prop :=
  ∃ read, parseLSDA config data sectionAddress lsdaPointer = .ok read ∧ read.typeTable = lsda.typeTable

/-- What is to be stored for the type of index `j`, in a table that ends at `ttBase`. -/
def typeStored (sectionAddress : UInt64) (ttEncoding : UInt8) (ttEntrySize ttBase j : Nat) (type : UInt64) : UInt64 :=
  storedPointer type (sectionAddress + UInt64.ofNat (ttBase - (j + 1) * ttEntrySize)) ttEncoding

section RoundTrip
variable {config : ElfBitwidth} {data rest : List UInt8} {sectionAddress lsdaPointer : UInt64}
  {offset stop k : Nat} {lsda : LSDA}
  {p : LsdaParts} {header : LsdaHeader} {callSites : List CallSiteRecord} {actions : List ActionRecord}

/-- The types of an LSDA whose actions have been parsed. -/
theorem readTypes (hw : LsdaWritten config lsda p) (hs : Supported lsda.ttEncoding) (hk : k = 4 ∨ k = 8)
    (hsize : getPointerSizeFromEHPointerEncoding config lsda.ttEncoding = .ok k)
    (hdata : data.drop offset =
      p.front lsda ++ (p.back sectionAddress lsda (offset + (p.front lsda).length) ++ rest))
    (hend : offset + (p.front lsda).length + (p.back sectionAddress lsda (offset + (p.front lsda).length)).length < 2 ^ 31) :
    (p.header lsda offset).ttBase = offset + (p.front lsda).length + p.misalignment + k * lsda.typeTable.length ∧
      (p.header lsda offset).ttBase ≤ data.length ∧
      readTypeTable config data sectionAddress (offset + (p.front lsda).length)
        (p.header lsda offset).ttBase lsda.ttEncoding =
        .ok (lsda.typeTable.mapIdx (entryRead sectionAddress lsda.ttEncoding k
          (offset + (p.front lsda).length + p.misalignment)
          lsda.typeTable.length)) := by
  have homit := not_omit_of_application hs
  cases hw.ttEntrySize.symm.trans hsize
  have hback : p.back sectionAddress lsda (offset + (p.front lsda).length) = toLE p.misalignment 0 ++
      typeBytes sectionAddress lsda.ttEncoding p.ttEntrySize (offset + (p.front lsda).length + p.misalignment)
        lsda.typeTable.zipIdx := if_pos homit
  have hbase : (p.header lsda offset).ttBase =
      offset + (p.front lsda).length + p.misalignment + p.ttEntrySize * lsda.typeTable.length := if_pos homit
  have hpadding := hw.base.small
  have hfront := p.length_front lsda
  have hinside := congrArg List.length hdata
  have hlength : (p.back sectionAddress lsda (offset + (p.front lsda).length)).length =
      p.misalignment + p.ttEntrySize * lsda.typeTable.length := by
    rw [hback, List.length_append, length_toLE, length_typeBytes, List.length_zipIdx]
  rw [List.length_drop, List.length_append, List.length_append, hlength] at hinside
  rw [hlength] at hend
  have htable := drop_past hdata
  rw [hback, List.append_assoc] at htable
  have htable := drop_past htable
  rw [length_toLE] at htable
  refine ⟨hbase, ?_, ?_⟩
  · unfold LsdaParts.headerLength at hfront
    omega
  · rw [hbase]
    exact readTypeTable_written hsize hs htable (by omega) (by omega)

/-- With the actions parsed, what is left of parsing the LSDA is to read the types. -/
theorem parseLSDA_eq (hstop : stop ≤ data.length) (hpointer : lsdaOffset sectionAddress lsdaPointer ≤ data.length)
    (hrun : parseTables config data sectionAddress (lsdaOffset sectionAddress lsdaPointer) =
    .ok (header, callSites, actions, stop)) :
    parseLSDA config data sectionAddress lsdaPointer =
      (readTypeTable config data sectionAddress stop header.ttBase header.ttEncoding >>= fun types =>
        if header.ttEncoding ≠ ehPeOmit ∧ data.length < header.ttBase then .error
          (.death "Malformed LSDA in .gcc_except_table\n")
        else .ok ⟨header.lpStart, callSites, actions, header.ttEncoding, types⟩) := by
  unfold lsdaOffset at hpointer hrun
  unfold parseLSDA
  dsimp only
  rw [if_neg (by omega), hrun, bind_ok]
  dsimp only
  rw [if_neg (by omega)]

theorem parseLSDA_tables {read : LSDA} (hrun : parseLSDA config data sectionAddress lsdaPointer = .ok read) :
    (parseTables config data sectionAddress (lsdaOffset sectionAddress lsdaPointer)).isOk := by
  unfold parseLSDA at hrun
  dsimp only at hrun
  by_cases hshort : data.length < (lsdaPointer - sectionAddress).toNat
  · rw [if_pos hshort] at hrun
    cases hrun
  · rw [if_neg hshort] at hrun
    obtain ⟨x, hx, -⟩ := bind_eq_ok.mp hrun
    unfold lsdaOffset
    rw [hx]
    rfl

end RoundTrip

/-- When all entries are read as they were. -/
theorem mapIdx_entryRead {base : UInt64} {ttEncoding : UInt8} {k start : Nat} {types : List UInt64} (hk : k = 4 ∨ k = 8)
    (hsmall : k * types.length < 2 ^ 31)
    (hfits : ∀ j type, types[j]? = some type → FitsFormat ttEncoding k
    (typeStored base ttEncoding k (start + k * types.length) j type)) :
    types.mapIdx (entryRead base ttEncoding k start types.length) = types ↔
      (peApplication ttEncoding = .pcrel → types.length ≤ 1) ∧
      (k = 8 ∨ ((peFormat ttEncoding).signed → ∀ j type, types[j]? = some type →
        0 ≤ (typeStored base ttEncoding k (start + k * types.length) j type).toInt64.toInt)) := by
  have hentry : ∀ j type, types[j]? = some type → (entryRead base ttEncoding k start types.length j type = type ↔
      (peApplication ttEncoding = .pcrel → j = 0) ∧ (k = 8 ∨ ((peFormat ttEncoding).signed →
        0 ≤ (typeStored base ttEncoding k (start + k * types.length) j type).toInt64.toInt))) := by
    intro j type hj
    obtain ⟨i, hi⟩ := Nat.exists_eq_add_of_lt (lt_of_getElem? hj)
    have hsum : k * types.length = j * k + (k * i + k) := by
      rw [hi]
      ring
    have hposition : start + k * types.length - (j + 1) * k = entryPosition k start types.length j := by
      unfold entryPosition
      rw [hsum, Nat.succ_mul, show types.length - 1 - j = i by omega]
      omega
    have hfit := hfits j type hj
    unfold typeStored at hfit ⊢
    rw [hposition] at hfit ⊢
    exact entryRead_iff hk (by omega) hfit
  have hself : types.mapIdx (entryRead base ttEncoding k start types.length) = types ↔
      ∀ j type, types[j]? = some type → entryRead base ttEncoding k start types.length j type = type := by
    rw [List.mapIdx_eq_iff]
    refine forall_congr' fun j => ?_
    cases types[j]? with
    | none => simp
    | some type => simp [eq_comm]
  rw [hself]
  refine ⟨?_, ?_⟩
  · intro hread
    refine ⟨?_, ?_⟩
    · intro hpcrel
      by_contra hnot
      have hlast := List.getElem?_eq_getElem (show 1 < types.length by omega)
      have hfirst := ((hentry _ _ hlast).mp (hread _ _ hlast)).1 hpcrel
      omega
    · refine or_iff_not_imp_left.mpr ?_
      intro hne hsigned j type hj
      exact (((hentry j type hj).mp (hread j type hj)).2.resolve_left hne) hsigned
  · intro ⟨hpcrel, hnonneg⟩ j type hj
    refine (hentry j type hj).mpr ⟨?_, ?_⟩
    · intro happ
      have hlt := lt_of_getElem? hj
      have hlength := hpcrel happ
      omega
    · exact hnonneg.imp_right fun hall hsigned => hall hsigned j type hj

/-- What it takes for the types of an LSDA to come back, its table ending at `ttBase`. -/
structure TypesReadable (sectionAddress : UInt64) (k ttBase : Nat) (lsda : LSDA) : Prop where
  links : LinksReadable lsda.actionTable
  single : peApplication lsda.ttEncoding = .pcrel → lsda.typeTable.length ≤ 1
  nonneg : k = 8 ∨ ((peFormat lsda.ttEncoding).signed → ∀ j type, lsda.typeTable[j]? = some type →
    0 ≤ (typeStored sectionAddress lsda.ttEncoding k ttBase j type).toInt64.toInt)

section Written
variable {config : ElfBitwidth} {data rest : List UInt8} {sectionAddress lsdaPointer : UInt64} {offset k : Nat}
  {lsda : LSDA} {p : LsdaParts}

/-- Once its tables are parsed, the LSDA is parsed with the types that are read. -/
theorem LsdaWritten.typesParsed (hw : LsdaWritten config lsda p) (hs : Supported lsda.ttEncoding) (hk : k = 4 ∨ k = 8)
    (hsize : getPointerSizeFromEHPointerEncoding config lsda.ttEncoding = .ok k)
    (hdata : data.drop (lsdaOffset sectionAddress lsdaPointer) =
      p.front lsda ++ (p.back sectionAddress lsda (lsdaOffset sectionAddress lsdaPointer + (p.front lsda).length) ++ rest))
    (hend : lsdaOffset sectionAddress lsdaPointer + (p.front lsda).length +
      (p.back sectionAddress lsda (lsdaOffset sectionAddress lsdaPointer + (p.front lsda).length)).length < 2 ^ 31)
    (hreach : ∀ k, k < lsda.actionTable.length → Reachable lsda k)
    {x : LsdaHeader × List CallSiteRecord × List ActionRecord × Nat}
    (hrun : parseTables config data sectionAddress (lsdaOffset sectionAddress lsdaPointer) = .ok x) :
    LinksReadable lsda.actionTable ∧ (TypesReturn config data sectionAddress lsdaPointer lsda ↔
      lsda.typeTable.mapIdx (entryRead sectionAddress lsda.ttEncoding k
        (lsdaOffset sectionAddress lsdaPointer + (p.front lsda).length + p.misalignment) lsda.typeTable.length) =
        lsda.typeTable) := by
  obtain ⟨header, callSites, actions, stop⟩ := x
  obtain ⟨rfl, rfl, hlinks⟩ := parseTables_ok hw hdata (by omega) hreach hrun
  obtain ⟨hbase, hinside, hread⟩ := readTypes hw hs hk hsize hdata hend
  have hencoding : (p.header lsda (lsdaOffset sectionAddress lsdaPointer)).ttEncoding = lsda.ttEncoding := rfl
  have hstop : lsdaOffset sectionAddress lsdaPointer + (p.front lsda).length ≤ data.length := by omega
  have hparse := parseLSDA_eq hstop (by omega) hrun
  rw [hencoding, hread, bind_ok, if_neg (by omega)] at hparse
  refine ⟨hlinks, ?_⟩
  unfold TypesReturn
  rw [hparse]
  simp

/-- **The types of an LSDA, anywhere in some data.** -/
theorem LsdaWritten.types (hw : LsdaWritten config lsda p) (hs : Supported lsda.ttEncoding) (hk : k = 4 ∨ k = 8)
    (hsize : getPointerSizeFromEHPointerEncoding config lsda.ttEncoding = .ok k)
    (hdata : data.drop (lsdaOffset sectionAddress lsdaPointer) =
      p.front lsda ++ (p.back sectionAddress lsda (lsdaOffset sectionAddress lsdaPointer + (p.front lsda).length) ++ rest))
    (hend : lsdaOffset sectionAddress lsdaPointer + (p.front lsda).length +
      (p.back sectionAddress lsda (lsdaOffset sectionAddress lsdaPointer + (p.front lsda).length)).length < 2 ^ 31)
    (hlen : data.length < 2 ^ 31) (hreach : ∀ k, k < lsda.actionTable.length → Reachable lsda k)
    (hfits : ∀ j type, lsda.typeTable[j]? = some type → FitsFormat lsda.ttEncoding k
      (typeStored sectionAddress lsda.ttEncoding k (p.header lsda (lsdaOffset sectionAddress lsdaPointer)).ttBase j type)) :
    TypesReturn config data sectionAddress lsdaPointer lsda ↔
      TypesReadable sectionAddress k (p.header lsda (lsdaOffset sectionAddress lsdaPointer)).ttBase lsda := by
  obtain ⟨hbase, hinside, -⟩ := readTypes hw hs hk hsize hdata hend
  rw [hbase] at hfits ⊢
  have hiff := mapIdx_entryRead hk (by omega) hfits
  refine ⟨?_, ?_⟩
  · intro hreturn
    obtain ⟨read, hrun, htypes⟩ := hreturn
    have htables := parseLSDA_tables hrun
    cases hparse : parseTables config data sectionAddress (lsdaOffset sectionAddress lsdaPointer) with
    | error f =>
      rw [hparse] at htables
      cases htables
    | ok x =>
      obtain ⟨hlinks, hparsed⟩ := hw.typesParsed hs hk hsize hdata hend hreach hparse
      obtain ⟨hsingle, hnonneg⟩ := hiff.mp (hparsed.mp ⟨read, hrun, htypes⟩)
      exact ⟨hlinks, hsingle, hnonneg⟩
  · intro hreadable
    have htables := @parseTables_isOk config data _ sectionAddress _ lsda p hw hdata (by omega) hreadable.links
    cases hparse : parseTables config data sectionAddress (lsdaOffset sectionAddress lsdaPointer) with
    | error f =>
      rw [hparse] at htables
      cases htables
    | ok x =>
      obtain ⟨-, hparsed⟩ := hw.typesParsed hs hk hsize hdata hend hreach hparse
      exact hparsed.mpr (hiff.mpr ⟨hreadable.single, hreadable.nonneg⟩)

end Written

/-- **The types of an LSDA come back exactly when** its actions can be read, no type but the first is pc-relative,
and nothing
in four bytes is to be sign-extended. -/
theorem typesReturn_iff {config : ElfBitwidth} {exceptTableAddress pointer : UInt64} {lsdas : List LSDA}
    {sec : ExceptSection} {i k : Nat}
    {lsda : LSDA} {header : LsdaHeader} (h : buildExceptTableRawData config exceptTableAddress lsdas = .ok sec)
    (hi : lsdas[i]? = some lsda) (hpointer : sec.lsdaPointers[i]? = some pointer)
    (hreach : ∀ k, k < lsda.actionTable.length → Reachable lsda k) (hs : Supported lsda.ttEncoding)
    (hsize : getPointerSizeFromEHPointerEncoding config lsda.ttEncoding = .ok k) (hk : k = 4 ∨ k = 8)
    (hheader : parseLsdaHeader config sec.buf.data exceptTableAddress (lsdaOffset exceptTableAddress pointer) = .ok header)
    (hfits : ∀ j type, lsda.typeTable[j]? = some type →
      FitsFormat lsda.ttEncoding k (typeStored exceptTableAddress lsda.ttEncoding k header.ttBase j type)) :
    TypesReturn config sec.buf.data exceptTableAddress pointer lsda ↔
      TypesReadable exceptTableAddress k header.ttBase lsda := by
  obtain ⟨p, offset, rest, hoffset, hw, hdata, hend⟩ := (buildExceptTableRawData_ok h hi).parts hpointer
  subst hoffset
  have hlen : sec.buf.data.length < 2 ^ 31 := sec.buf.len_lt
  obtain ⟨hbase, hinside, -⟩ := readTypes hw hs hk hsize hdata hend
  have hwritten : header = p.header lsda (lsdaOffset exceptTableAddress pointer) := by
    cases hw.ttEntrySize.symm.trans hsize
    rw [parseLsdaHeader_written hw hdata (show _ + p.ttEntrySize * lsda.typeTable.length < _ by omega)] at hheader
    exact (Except.ok.inj hheader).symm
  rw [hwritten] at hfits ⊢
  exact hw.types hs hk hsize hdata hend hlen hreach hfits

def typesLsda (ttEncoding : UInt8) (types : List UInt64) : LSDA where
  lpStart := 0
  callSiteTable := [⟨0, 4, 0, 0, true⟩]
  actionTable := [⟨0, 1, true⟩, ⟨1, 0, false⟩]
  ttEncoding := ttEncoding
  typeTable := types

theorem typesLsda_reachable (ttEncoding : UInt8) (types : List UInt64) :
    ∀ k, k < (typesLsda ttEncoding types).actionTable.length → Reachable (typesLsda ttEncoding types) k := by
  have hfirst : Reachable (typesLsda ttEncoding types) 0 :=
    @Reachable.first (typesLsda ttEncoding types) ⟨0, 4, 0, 0, true⟩ List.mem_cons_self rfl
  intro k hk
  match k with
  | 0 => exact hfirst
  | 1 => exact hfirst.next rfl rfl

def absoluteTypes : LSDA := typesLsda 0x00 [0x601000, 0x601040]

def absoluteSection : ExceptSection where
  buf := ⟨[255, 0, 29, 1, 4, 0, 4, 0, 1, 1, 1, 2, 0, 0, 0, 0, 64, 16, 96, 0, 0, 0, 0, 0, 0, 16, 96, 0, 0, 0, 0, 0],
    48, by decide, by decide⟩
  lsdaPointers := [0x400000]

theorem absoluteTypes_return : buildExceptTableRawData .elf64 0x400000 [absoluteTypes] = .ok absoluteSection ∧
    TypesReturn .elf64 absoluteSection.buf.data 0x400000 0x400000 absoluteTypes := by
  refine ⟨rfl, (@typesReturn_iff .elf64 0x400000 0x400000 [absoluteTypes] absoluteSection 0 8 absoluteTypes
    ⟨0, 0x00, 32, 1, 4, 5⟩
    rfl rfl rfl (typesLsda_reachable _ _) (by decide) rfl (.inr rfl) rfl ?_).mpr ⟨?_, by decide, .inl rfl⟩⟩
  · intro j type _
    exact type.toNat_lt
  · intro st hst k a ha
    have hwritten : writeActionTable absoluteTypes.actionTable = .ok _ := rfl
    cases hwritten.symm.trans hst
    match k with
    | 0 =>
      cases ha
      decide
    | 1 =>
      cases ha
      decide
    | k + 2 => cases ha

def pcrelTypes : LSDA := typesLsda 0x1B [0x401000, 0x402000]

def pcrelSection : ExceptSection where
  buf := ⟨[255, 27, 21, 1, 4, 0, 4, 0, 1, 1, 1, 2, 0, 0, 0, 0, 236, 31, 0, 0, 236, 15, 0, 0], 40, by decide, by decide⟩
  lsdaPointers := [0x400000]

/-- The second of them comes back four bytes before where it was. -/
theorem not_typesReturn : ¬ ∀ (config : ElfBitwidth) (exceptTableAddress pointer : UInt64) (lsdas : List LSDA)
    (sec : ExceptSection),
    buildExceptTableRawData config exceptTableAddress lsdas = .ok sec → ∀ (i k : Nat) (lsda : LSDA) (header : LsdaHeader),
    lsdas[i]? = some lsda → sec.lsdaPointers[i]? = some pointer → (∀ k, k < lsda.actionTable.length → Reachable lsda k) →
    Supported lsda.ttEncoding → getPointerSizeFromEHPointerEncoding config lsda.ttEncoding = .ok k → k = 4 ∨ k = 8 →
    parseLsdaHeader config sec.buf.data exceptTableAddress (lsdaOffset exceptTableAddress pointer) = .ok header →
    (∀ j type, lsda.typeTable[j]? = some type →
      FitsFormat lsda.ttEncoding k (typeStored exceptTableAddress lsda.ttEncoding k header.ttBase j type)) →
    TypesReturn config sec.buf.data exceptTableAddress pointer lsda := by
  intro hall
  have hfits : ∀ j type, pcrelTypes.typeTable[j]? = some type →
    FitsFormat 0x1B 4 (typeStored 0x400000 0x1B 4 24 j type) := by
    intro j type hj
    match j with
    | 0 =>
      cases hj
      decide
    | 1 =>
      cases hj
      decide
    | j + 2 => cases hj
  obtain ⟨read, hrun, htypes⟩ := hall .elf64 0x400000 0x400000 [pcrelTypes] pcrelSection rfl 0 4 pcrelTypes
    ⟨0, 0x1B, 24, 1, 4, 5⟩
    rfl rfl (typesLsda_reachable _ _) (by decide) rfl (.inl rfl) rfl hfits
  have hread : parseLSDA .elf64 pcrelSection.buf.data 0x400000 0x400000 = .ok
      ⟨0, [⟨0, 4, 0, 0, true⟩], [⟨0, 1, true⟩, ⟨1, 0, false⟩], 0x1B, [0x401000, 0x401FFC]⟩ := by decide +kernel
  cases hread.symm.trans hrun
  revert htypes
  decide

end Katana

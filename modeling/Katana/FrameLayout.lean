/-
  Katana.FrameLayout — where the parts of a frame section lie.

  Each record is its own body with the body's length in front, whatever the version, the augmentation
  and the padding; so the sections are streams of records.

  Proved:
  - `buildCIE_ok` / `buildFDE_ok`: the bytes one record adds.
  - `buildFrameSection_records`: each CIE and each FDE was written at its recorded offset.
  - `section_framing`: walking the section by its length fields visits the CIEs and then the FDEs.
  - `cie_pointer_resolves`: an FDE's CIE pointer leads to the start of its CIE.
-/
import Mathlib.Data.List.Induction
import Katana.CallFrameInfo
import Katana.Lib.Framing

namespace Katana

open Lib

/-! ## One record -/

theorem writeAll_ok {parts : List (List UInt8)} {buf buf' : GrowingBuffer} (h : writeAll buf parts = .ok buf') :
    buf'.data = buf.data ++ parts.flatten := by
  induction parts generalizing buf with
  | nil => cases h; simp
  | cons part parts ih =>
    obtain ⟨b, hb, h⟩ := bind_eq_ok.mp h
    rw [ih h, addToGrowingBuffer_ok hb, List.flatten_cons, List.append_assoc]

def CIE.headParts (cie : CIE) : List UInt8 :=
  cString cie.augmentationString ++
    (if 4 ≤ cie.version.toNat then [cie.addressSize.toInt8.toUInt8, cie.segmentSize.toInt8.toUInt8] else []) ++
    cie.codeAlignLEB ++ cie.dataAlignLEB ++ cie.returnAddrRegLEB

def cieBody (isEHFrame : Bool) (cie : CIE) (data instrs : List UInt8) (pad : Nat) : List UInt8 :=
  toLE 4 (cieId isEHFrame) ++ [cie.version] ++ cie.headParts ++ augmentationLengthLEB cie.augmentationFlags data ++ data ++
    instrs ++ List.replicate pad 0

theorem length_cieBody (isEHFrame : Bool) (cie : CIE) (data instrs : List UInt8) (pad : Nat) :
    (cieBody isEHFrame cie data instrs pad).length = 5 + cie.headSizes + data.length +
      (augmentationLengthLEB cie.augmentationFlags data).length + instrs.length +
      (if 4 ≤ cie.version.toNat then 2 else 0) + pad := by
  unfold cieBody CIE.headParts CIE.headSizes
  split <;> simp <;> omega

theorem buildCIE_ok {config : ElfBitwidth} {cfi : CallFrameInfo} {stale : UInt32} {cie : CIE} {buf buf' : GrowingBuffer}
    (h : buildCIERawData config cfi stale cie buf = .ok buf') :
    ∃ data raw pad, cieData config cfi stale cie buf.len = .ok data ∧
      serializeDwarfRegInstructions cie.initialInstructions = .ok raw ∧
      paddingFor (cieBody cfi.isEHFrame cie data raw.instrs 0).length cie.addressSize = .ok pad ∧
      buf'.data = buf.data ++ framed (cieBody cfi.isEHFrame cie data raw.instrs pad) := by
  unfold buildCIERawData at h
  obtain ⟨⟨⟩, -, h⟩ := bind_eq_ok.mp h
  obtain ⟨⟨⟩, -, h⟩ := bind_eq_ok.mp h
  obtain ⟨data, hdata, h⟩ := bind_eq_ok.mp h
  obtain ⟨raw, hraw, h⟩ := bind_eq_ok.mp h
  obtain ⟨pad, hpad, h⟩ := bind_eq_ok.mp h
  refine ⟨data, raw, pad, hdata, hraw, ?_, ?_⟩
  · rw [length_cieBody, Nat.add_zero]
    exact hpad
  · rw [writeAll_ok h]
    congr 1
    unfold framed
    rw [length_cieBody]
    unfold cieBody CIE.headParts
    simp only [List.flatten_cons, List.flatten_nil, List.append_nil, List.append_assoc]

/-- The bytes after the CIE pointer of an FDE. -/
def fdeTail (cie : CIE) (location : List UInt8) (range : List UInt8) (data instrs : List UInt8) (pad : Nat) : List UInt8 :=
  location ++ range ++ augmentationLengthLEB cie.augmentationFlags data ++ data ++ instrs ++ List.replicate pad 0

def ciePointer (isEHFrame : Bool) (start cieOffset : Nat) : Nat := if isEHFrame then start - cieOffset + 4 else cieOffset

/-- What one FDE was written from. -/
structure FdeWritten (config : ElfBitwidth) (cfi : CallFrameInfo) (cieOffsets : List Nat) (lsdaPointers : List UInt64)
    (fde : FDE) (start : Nat) (cie : CIE) (cieOffset : Nat) (location : UInt64) (n m : Nat)
    (data instrs : List UInt8) : Prop where
  cie_eq : cfi.cies[fde.cie]? = some cie
  cieOffset_eq : cieOffsets[fde.cie]? = some cieOffset
  location_eq : fdeLocation config cfi cie fde (cfi.ehAddress + UInt64.ofNat start + 8) = .ok (location, n, m)
  data_eq : fdeAugmentationData config cie fde lsdaPointers
    (cfi.ehAddress + UInt64.ofNat start + 8 + UInt64.ofNat (n + m + 1)) = .ok data
  instrs_eq : ∃ raw, serializeDwarfRegInstructions fde.instructions = .ok raw ∧ instrs = raw.instrs
  range_int : -2 ^ 31 ≤ fde.highpc.toInt - fde.lowpc.toInt ∧ fde.highpc.toInt - fde.lowpc.toInt < 2 ^ 31

theorem length_fdeTail (cie : CIE) (location range data instrs : List UInt8) (pad : Nat) :
    (fdeTail cie location range data instrs pad).length = location.length + range.length +
      (augmentationLengthLEB cie.augmentationFlags data).length + data.length + instrs.length + pad := by
  unfold fdeTail
  simp
  omega

theorem buildFDE_ok {config : ElfBitwidth} {cfi : CallFrameInfo} {cieOffsets : List Nat} {lsdaPointers : List UInt64}
    {fde : FDE} {buf buf' : GrowingBuffer} (h : buildFDERawData config cfi cieOffsets lsdaPointers fde buf = .ok buf') :
    ∃ cie cieOffset location n m data instrs pad,
      FdeWritten config cfi cieOffsets lsdaPointers fde buf.len cie cieOffset location n m data instrs ∧
      paddingFor (4 + (fdeTail cie (toLE n location.toNat) (toLE m (UInt64.ofInt (fde.highpc.toInt - fde.lowpc.toInt)).toNat)
        data instrs 0).length) cie.addressSize = .ok pad ∧
      buf'.data = buf.data ++ framed (toLE 4 (ciePointer cfi.isEHFrame buf.len cieOffset) ++
        fdeTail cie (toLE n location.toNat) (toLE m (UInt64.ofInt (fde.highpc.toInt - fde.lowpc.toInt)).toNat) data instrs
          pad) := by
  unfold buildFDERawData at h
  cases hcie : cfi.cies[fde.cie]? with
  | none => rw [hcie] at h; cases h
  | some cie =>
    rw [hcie] at h
    obtain ⟨raw, hraw, h⟩ := bind_eq_ok.mp h
    cases hoff : cieOffsets[fde.cie]? with
    | none => rw [hoff] at h; cases h
    | some cieOffset =>
      rw [hoff] at h
      obtain ⟨⟨location, n, m⟩, hloc, h⟩ := bind_eq_ok.mp h
      obtain ⟨⟨⟩, hrange, h⟩ := bind_eq_ok.mp h
      obtain ⟨data, hdata, h⟩ := bind_eq_ok.mp h
      obtain ⟨pad, hpad, h⟩ := bind_eq_ok.mp h
      have hlength : ∀ pad : Nat, 4 + (fdeTail cie (toLE n location.toNat)
          (toLE m (UInt64.ofInt (fde.highpc.toInt - fde.lowpc.toInt)).toNat) data raw.instrs pad).length =
          4 + n + m + (augmentationLengthLEB cie.augmentationFlags data).length + data.length + raw.instrs.length + pad := by
        intro pad
        rw [length_fdeTail, length_toLE, length_toLE]
        omega
      refine ⟨cie, cieOffset, location, n, m, data, raw.instrs, pad,
        ⟨hcie, hoff, hloc, hdata, ⟨raw, hraw, rfl⟩, defined_ok hrange⟩, ?_, ?_⟩
      · rw [hlength, Nat.add_zero]
        exact hpad
      · rw [writeAll_ok h]
        congr 1
        unfold framed
        rw [List.length_append, length_toLE, hlength]
        unfold fdeTail ciePointer
        simp only [List.flatten_cons, List.flatten_nil, List.append_nil, List.append_assoc]

/-! ## The section -/

/-- Some records added after `data0`: their bodies, the offsets they got and how each was written. -/
structure Records (Wrote : Nat → GrowingBuffer → GrowingBuffer → Prop) (data0 data : List UInt8) (offsets : List Nat)
    (count : Nat) : Prop where
  bodies : ∃ bodies : List (List UInt8), data = data0 ++ (bodies.map framed).flatten ∧ offsets = starts data0.length bodies
  count_eq : offsets.length = count
  wrote : ∀ i, i < count → ∃ buf buf', offsets[i]? = some buf.len ∧ Wrote i buf buf' ∧ buf'.data <+: data

theorem Records.nil (Wrote : Nat → GrowingBuffer → GrowingBuffer → Prop) (data0 : List UInt8) :
    Records Wrote data0 data0 [] 0 :=
  ⟨⟨[], by simp, rfl⟩, rfl, fun i hi => absurd hi (Nat.not_lt_zero i)⟩

theorem Records.mono {Wrote Wrote' : Nat → GrowingBuffer → GrowingBuffer → Prop} {data0 data : List UInt8}
    {offsets : List Nat} {count : Nat} (hr : Records Wrote data0 data offsets count)
    (h : ∀ i buf buf', i < count → Wrote i buf buf' → Wrote' i buf buf') : Records Wrote' data0 data offsets count := by
  refine ⟨hr.bodies, hr.count_eq, fun i hi => ?_⟩
  obtain ⟨buf, buf', hoff, hw, hpre⟩ := hr.wrote i hi
  exact ⟨buf, buf', hoff, h i buf buf' hi hw, hpre⟩

/-- The step: one more record. -/
theorem Records.snoc {Wrote : Nat → GrowingBuffer → GrowingBuffer → Prop} {data0 body : List UInt8}
    {buf buf' : GrowingBuffer}
    {offsets : List Nat} {count : Nat} (hr : Records Wrote data0 buf.data offsets count)
    (hdata : buf'.data = buf.data ++ framed body) (hw : Wrote count buf buf') :
    Records Wrote data0 buf'.data (offsets ++ [buf.len]) (count + 1) := by
  obtain ⟨bodies, hb, hoff⟩ := hr.bodies
  have hcount := hr.count_eq
  refine ⟨⟨bodies ++ [body], ?_, ?_⟩, by simp [hcount], ?_⟩
  · rw [hdata, hb]; simp
  · have hlen : buf.len = data0.length + (bodies.map framed).flatten.length := by
      unfold GrowingBuffer.len
      rw [hb, List.length_append]
    rw [starts_append, ← hlen, hoff]
    rfl
  · intro i hi
    rcases Nat.lt_succ_iff_lt_or_eq.mp hi with hi | rfl
    · obtain ⟨b, b', hb1, hb2, hb3⟩ := hr.wrote i hi
      refine ⟨b, b', ?_, hb2, hb3.trans (by rw [hdata]; exact List.prefix_append _ _)⟩
      rw [List.getElem?_append_left (by omega)]
      exact hb1
    · exact ⟨buf, buf', by simp [← hcount], hw, List.prefix_rfl⟩

section Build
variable {config : ElfBitwidth} {cfi : CallFrameInfo} {stale : Nat → UInt32} {lsdaPointers : List UInt64}

def WroteCIE (config : ElfBitwidth) (cfi : CallFrameInfo) (stale : Nat → UInt32) (cies : List CIE) (i : Nat)
    (buf buf' : GrowingBuffer) : Prop :=
  ∃ cie, cies[i]? = some cie ∧ buildCIERawData config cfi (stale i) cie buf = .ok buf'

def WroteFDE (config : ElfBitwidth) (cfi : CallFrameInfo) (cieOffsets : List Nat) (lsdaPointers : List UInt64)
    (fdes : List FDE)
    (i : Nat) (buf buf' : GrowingBuffer) : Prop :=
  ∃ fde, fdes[i]? = some fde ∧ buildFDERawData config cfi cieOffsets lsdaPointers fde buf = .ok buf'

theorem cies_run {cies : List CIE} {sec : FrameSection} (h : cies.foldlM (addCIE config cfi stale) emptySection = .ok sec) :
    Records (WroteCIE config cfi stale cies) [] sec.buf.data sec.cieOffsets cies.length ∧ sec.fdeOffsets = [] := by
  induction cies using List.reverseRecOn generalizing sec with
  | nil => cases h; exact ⟨Records.nil _ _, rfl⟩
  | append_singleton cies cie ih =>
    rw [List.foldlM_append] at h
    obtain ⟨sec0, h0, h⟩ := bind_eq_ok.mp h
    rw [List.foldlM_cons] at h
    obtain ⟨sec1, h1, h⟩ := bind_eq_ok.mp h
    cases h
    obtain ⟨buf', hbuild, h1⟩ := bind_eq_ok.mp h1
    cases h1
    obtain ⟨hr, hfde⟩ := ih h0
    obtain ⟨data, raw, pad, -, -, -, hdata⟩ := buildCIE_ok hbuild
    have hcount := hr.count_eq
    have hold : Records (WroteCIE config cfi stale (cies ++ [cie])) [] sec0.buf.data sec0.cieOffsets cies.length := by
      refine hr.mono ?_
      rintro i buf b hi ⟨c, hc, hb⟩
      exact ⟨c, by rw [List.getElem?_append_left hi]; exact hc, hb⟩
    refine ⟨?_, hfde⟩
    rw [List.length_append, List.length_singleton]
    refine hold.snoc hdata ⟨cie, by simp, ?_⟩
    rw [← hcount]
    exact hbuild

theorem fdes_run {fdes : List FDE} {sec0 sec : FrameSection} (hnil : sec0.fdeOffsets = [])
    (h : fdes.foldlM (addFDE config cfi lsdaPointers) sec0 = .ok sec) :
    Records (WroteFDE config cfi sec0.cieOffsets lsdaPointers fdes) sec0.buf.data sec.buf.data sec.fdeOffsets fdes.length ∧
      sec.cieOffsets = sec0.cieOffsets := by
  induction fdes using List.reverseRecOn generalizing sec with
  | nil => cases h; rw [hnil]; exact ⟨Records.nil _ _, rfl⟩
  | append_singleton fdes fde ih =>
    rw [List.foldlM_append] at h
    obtain ⟨sec1, h1, h⟩ := bind_eq_ok.mp h
    rw [List.foldlM_cons] at h
    obtain ⟨sec2, h2, h⟩ := bind_eq_ok.mp h
    cases h
    obtain ⟨buf', hbuild, h2⟩ := bind_eq_ok.mp h2
    cases h2
    obtain ⟨hr, hcie⟩ := ih h1
    rw [hcie] at hbuild
    obtain ⟨cie, cieOffset, location, n, m, data, instrs, pad, -, -, hdata⟩ := buildFDE_ok hbuild
    have hold : Records (WroteFDE config cfi sec0.cieOffsets lsdaPointers (fdes ++ [fde])) sec0.buf.data sec1.buf.data
        sec1.fdeOffsets fdes.length := by
      refine hr.mono ?_
      rintro i buf b hi ⟨f, hf, hb⟩
      exact ⟨f, by rw [List.getElem?_append_left hi]; exact hf, hb⟩
    refine ⟨?_, hcie⟩
    rw [List.length_append, List.length_singleton]
    exact hold.snoc hdata ⟨fde, by simp, hbuild⟩

/-- **Each record was written at its recorded offset**, by its own builder. -/
theorem buildFrameSection_records {sec : FrameSection} (h : buildFrameSection config cfi stale lsdaPointers = .ok sec) :
    ∃ data1, Records (WroteCIE config cfi stale cfi.cies) [] data1 sec.cieOffsets cfi.cies.length ∧
      Records (WroteFDE config cfi sec.cieOffsets lsdaPointers cfi.fdes) data1 sec.buf.data sec.fdeOffsets cfi.fdes.length := by
  obtain ⟨sec0, h0, h⟩ := bind_eq_ok.mp h
  obtain ⟨hc, hnil⟩ := cies_run h0
  obtain ⟨hf, hoff⟩ := fdes_run hnil h
  rw [← hoff] at hc hf
  exact ⟨sec0.buf.data, hc, hf⟩

/-! ## Framing -/

/-- The bodies of a section are shorter than a length field can say. -/
theorem body_lt {data0 : List UInt8} {bodies : List (List UInt8)} {buf : GrowingBuffer}
    (h : buf.data = data0 ++ (bodies.map framed).flatten) : ∀ body ∈ bodies, body.length < 2 ^ 32 := by
  intro body hbody
  have hlen := buf.len_lt
  unfold GrowingBuffer.len at hlen
  have hmem : framed body ∈ bodies.map framed := List.mem_map_of_mem hbody
  have hsub := (List.sublist_flatten_of_mem hmem).length_le
  rw [h, List.length_append] at hlen
  rw [length_framed] at hsub
  omega

/-- The number of a CIE pointer read at `off`. -/
def resolvedCIE (isEHFrame : Bool) (data : List UInt8) (fdeOffset : Nat) : Int :=
  let value := leNat ((data.drop (fdeOffset + 4)).take 4)
  if isEHFrame then (fdeOffset + 4 : Nat) - (value : Int) else value

/-- What lies at a position of a section, from what was written up to there. -/
theorem read_prefix {data0 x data rest : List UInt8} {n k : Nat} (h : data0 ++ (x ++ rest) <+: data) (hn : data0.length = n)
    (hk : x.length = k) : (data.drop n).take k = x := by
  obtain ⟨t, rfl⟩ := h
  rw [List.append_assoc, List.drop_left' hn, List.append_assoc, List.take_left' hk]

/-- The step: the pointer an FDE was written with leads to the offset it was computed from. -/
theorem cie_pointer_resolves {cieOffset : Nat} {buf buf' : GrowingBuffer} {tail data : List UInt8}
    (hle : cieOffset ≤ buf.len)
    (hdata : buf'.data = buf.data ++ framed (toLE 4 (ciePointer cfi.isEHFrame buf.len cieOffset) ++ tail))
    (hpre : buf'.data <+: data) : resolvedCIE cfi.isEHFrame data buf.len = cieOffset := by
  have hlt := buf.len_lt
  have hread : (data.drop (buf.len + 4)).take 4 = toLE 4 (ciePointer cfi.isEHFrame buf.len cieOffset) := by
    have hlen : (buf.data ++ toLE 4 (toLE 4 (ciePointer cfi.isEHFrame buf.len cieOffset) ++ tail).length).length =
      buf.len + 4 := by
      simp [GrowingBuffer.len]
    rw [hdata, framed, ← List.append_assoc] at hpre
    exact read_prefix hpre hlen (length_toLE _ _)
  have hval : ciePointer cfi.isEHFrame buf.len cieOffset < 2 ^ 32 := by
    unfold ciePointer
    split <;> omega
  unfold resolvedCIE
  rw [hread, leNat_toLE, Nat.mod_eq_of_lt (by norm_num; omega)]
  unfold ciePointer
  cases cfi.isEHFrame
  · simp
  · simp; omega

/-- A CIE starts before any FDE does. -/
theorem cieOffset_le {data1 data : List UInt8} {cieOffsets fdeOffsets : List Nat} {cieOffset start n m : Nat}
    {Wrote : Nat → GrowingBuffer → GrowingBuffer → Prop}
    (hc : Records (WroteCIE config cfi stale cfi.cies) [] data1 cieOffsets n) (hf : Records Wrote data1 data fdeOffsets m)
    (hcie : cieOffset ∈ cieOffsets) (hfde : start ∈ fdeOffsets) : cieOffset ≤ start := by
  obtain ⟨i, hi, hget⟩ := List.getElem_of_mem hcie
  obtain ⟨buf, buf', hoff, ⟨cie, -, hbuild⟩, hpre⟩ := hc.wrote i (by rw [← hc.count_eq]; exact hi)
  obtain ⟨d, raw, pad, -, -, -, hdata⟩ := buildCIE_ok hbuild
  obtain ⟨bodies, -, hstarts⟩ := hf.bodies
  have h1 : data1.length ≤ start := le_of_mem_starts (hstarts ▸ hfde)
  have h2 := hpre.length_le
  have h3 : buf.len = cieOffset := by
    rw [List.getElem?_eq_getElem hi, hget] at hoff
    exact (Option.some.inj hoff).symm
  rw [hdata, List.length_append] at h2
  unfold GrowingBuffer.len at h3
  omega

/-- A section is the stream of the records its builders wrote, in order, and the CIE pointers of the FDEs lead
to their CIEs. -/
structure WellFramed (config : ElfBitwidth) (cfi : CallFrameInfo) (stale : Nat → UInt32) (lsdaPointers : List UInt64)
    (data : List UInt8) (cieOffsets fdeOffsets : List Nat) : Prop where
  walked : walk data.length 0 data = some (cieOffsets ++ fdeOffsets)
  cieCount : cieOffsets.length = cfi.cies.length
  fdeCount : fdeOffsets.length = cfi.fdes.length
  cies : ∀ (i : Nat) (cie : CIE), cfi.cies[i]? = some cie → ∃ buf buf', cieOffsets[i]? = some buf.len ∧
    buildCIERawData config cfi (stale i) cie buf = .ok buf' ∧ buf'.data <+: data
  fdes : ∀ (j : Nat) (fde : FDE), cfi.fdes[j]? = some fde → ∃ buf buf', fdeOffsets[j]? = some buf.len ∧
    buildFDERawData config cfi cieOffsets lsdaPointers fde buf = .ok buf' ∧ buf'.data <+: data
  pointers : ∀ (j : Nat) (fde : FDE) (fdeOffset : Nat), cfi.fdes[j]? = some fde → fdeOffsets[j]? = some fdeOffset →
    ∃ cieOffset : Nat, cieOffsets[fde.cie]? = some cieOffset ∧ resolvedCIE cfi.isEHFrame data fdeOffset = cieOffset

theorem buildFrameSection_framed {sec : FrameSection} (h : buildFrameSection config cfi stale lsdaPointers = .ok sec) :
    WellFramed config cfi stale lsdaPointers sec.buf.data sec.cieOffsets sec.fdeOffsets := by
  obtain ⟨data1, hc, hf⟩ := buildFrameSection_records h
  obtain ⟨bodies1, hd1, ho1⟩ := hc.bodies
  obtain ⟨bodies2, hd2, ho2⟩ := hf.bodies
  have hdata : sec.buf.data = ((bodies1 ++ bodies2).map framed).flatten := by
    rw [hd2, hd1, List.map_append, List.flatten_append, List.nil_append]
  have hcies : ∀ (i : Nat) (cie : CIE), cfi.cies[i]? = some cie → ∃ buf buf', sec.cieOffsets[i]? = some buf.len ∧
      buildCIERawData config cfi (stale i) cie buf = .ok buf' ∧ buf'.data <+: data1 := by
    intro i cie hi
    obtain ⟨buf, buf', hoff, ⟨cie', hcie', hbuild⟩, hpre⟩ := hc.wrote i (List.getElem?_eq_some_iff.mp hi).1
    rw [hi] at hcie'
    cases hcie'
    exact ⟨buf, buf', hoff, hbuild, hpre⟩
  have hfdes : ∀ (j : Nat) (fde : FDE), cfi.fdes[j]? = some fde → ∃ buf buf', sec.fdeOffsets[j]? = some buf.len ∧
      buildFDERawData config cfi sec.cieOffsets lsdaPointers fde buf = .ok buf' ∧ buf'.data <+: sec.buf.data := by
    intro j fde hj
    obtain ⟨buf, buf', hoff, ⟨fde', hfde', hbuild⟩, hpre⟩ := hf.wrote j (List.getElem?_eq_some_iff.mp hj).1
    rw [hj] at hfde'
    cases hfde'
    exact ⟨buf, buf', hoff, hbuild, hpre⟩
  refine ⟨?_, hc.count_eq, hf.count_eq, ?_, hfdes, ?_⟩
  · have hall := body_lt (show sec.buf.data = [] ++ ((bodies1 ++ bodies2).map framed).flatten from hdata)
    have hwalk : sec.cieOffsets ++ sec.fdeOffsets = starts 0 (bodies1 ++ bodies2) := by
      rw [starts_append, ho1, ho2, hd1]
      simp
    rw [hwalk, hdata]
    exact walk_framed hall (length_le_flatten _)
  · intro i cie hi
    obtain ⟨buf, buf', hoff, hbuild, hpre⟩ := hcies i cie hi
    exact ⟨buf, buf', hoff, hbuild, hpre.trans (by rw [hd2]; exact List.prefix_append _ _)⟩
  · intro j fde fdeOffset hj hoff
    obtain ⟨buf, buf', hoff', hbuild, hpre⟩ := hfdes j fde hj
    rw [hoff] at hoff'
    cases hoff'
    obtain ⟨cie, cieOffset, location, n, m, data, instrs, pad, hw, -, hbytes⟩ := buildFDE_ok hbuild
    refine ⟨cieOffset, hw.cieOffset_eq, ?_⟩
    have hle := cieOffset_le hc hf (List.mem_of_getElem? hw.cieOffset_eq) (List.mem_of_getElem? hoff)
    exact cie_pointer_resolves hle hbytes hpre

/-- **The emitted section is walked by its length fields from the CIEs to the FDEs and to its end**, and every
CIE pointer leads to the start of the FDE's own CIE. -/
theorem section_framing {out : CallFrameSectionData} (h : buildCallFrameSectionData config cfi stale = .ok out) :
    ∃ exceptTable sec, buildLsdaPointers config cfi = .ok exceptTable ∧
      buildFrameSection config cfi stale exceptTable.lsdaPointers = .ok sec ∧ out.ehData = sec.buf.data ∧
      WellFramed config cfi stale exceptTable.lsdaPointers out.ehData sec.cieOffsets sec.fdeOffsets := by
  obtain ⟨exceptTable, hex, h⟩ := bind_eq_ok.mp h
  obtain ⟨sec, hsec, h⟩ := bind_eq_ok.mp h
  have hdata : out.ehData = sec.buf.data := by
    split at h
    · obtain ⟨hdr, -, h⟩ := bind_eq_ok.mp h
      cases h; rfl
    · cases h; rfl
  exact ⟨exceptTable, sec, hex, hsec, hdata, by rw [hdata]; exact buildFrameSection_framed hsec⟩

end Build

/-- A section that is written, by the offsets of its FDEs. -/
theorem written_at {cfi : CallFrameInfo} {offsets : List Nat}
    (h : (buildFrameSection .elf64 cfi (fun _ => 0) []).map FrameSection.fdeOffsets = .ok offsets) :
    ∃ sec, buildFrameSection .elf64 cfi (fun _ => 0) [] = .ok sec ∧ sec.fdeOffsets = offsets := by
  cases hsec : buildFrameSection .elf64 cfi (fun _ => 0) [] with
  | error e => rw [hsec] at h; cases h
  | ok sec => rw [hsec] at h; cases h; exact ⟨sec, rfl, rfl⟩

/-- A CIE with augmentation `zR`, code alignment 1, data alignment -8 and return address register 16. -/
def sampleCIE : CIE where
  initialInstructions := [{ RegInstruction.blank .defCfa with arg1Reg := .basic 7, arg2 := 8 }]
  dataAlign := -8
  codeAlign := 1
  returnAddrRuleNum := 16
  version := 1
  addressSize := 8
  segmentSize := 0
  augmentationFlags := ⟨true, true, false, false⟩
  fdePointerEncoding := 0x1b
  fdeLSDAPointerEncoding := 0
  personalityPointerEncoding := 0
  personalityFunction := 0

def sampleFrame : CallFrameInfo where
  fdes := [⟨0, [{ RegInstruction.blank .advanceLoc with arg1 := 4 }], 0x2000, 0x2010, false, 0, 0⟩,
    ⟨0, [], 0x1000, 0x1800, false, 0, 0⟩]
  cies := [sampleCIE]
  isEHFrame := true
  ehAddress := 0x3000
  ehHdrAddress := 0x2f00
  exceptTableAddress := 0
  hdrTableEncoding := 0x3b
  exceptTable := none

def sampleSections : CallFrameSectionData where
  ehData := [16, 0, 0, 0, 0, 0, 0, 0, 1, 122, 82, 0, 1, 120, 16, 1, 27, 12, 7, 8, 16, 0, 0, 0, 24, 0, 0, 0,
    228, 239, 255, 255, 16, 0, 0, 0, 0, 68, 0, 0, 16, 0, 0, 0, 44, 0, 0, 0, 208, 223, 255, 255, 0, 8, 0, 0, 0, 0, 0, 0]
  ehHdrData := [1, 27, 3, 59, 252, 0, 0, 0, 2, 0, 0, 0, 0, 225, 255, 255, 40, 1, 0, 0, 0, 241, 255, 255, 20, 1, 0, 0]
  gccExceptTableData := []

theorem section_framing_sampleFrame :
    ∃ exceptTable sec, buildLsdaPointers .elf64 sampleFrame = .ok exceptTable ∧
      buildFrameSection .elf64 sampleFrame (fun _ => 0) exceptTable.lsdaPointers = .ok sec ∧
      sampleSections.ehData = sec.buf.data ∧
      WellFramed .elf64 sampleFrame (fun _ => 0) exceptTable.lsdaPointers sampleSections.ehData
        sec.cieOffsets sec.fdeOffsets :=
  section_framing (show buildCallFrameSectionData .elf64 sampleFrame (fun _ => 0) = .ok sampleSections by decide +kernel)

end Katana

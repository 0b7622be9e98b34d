/-
  Katana.PltCopy — the copy of `.plt` with its GOT and relocations (patcher/patchapply.c, relocation.c).

  `katanaPLT` as it is built for x86-64: the fields of the PLT are 32-bit displacements from the next
  instruction. Each field is written to the target and to the mirror of `.plt.katana`. The build for 32-bit
  x86, with absolute addresses in the fields and `.rel.plt`, is not modelled.

  Proved, for every target and wherever the copies are put:
  - `fixEntries_fields` / `fixEntries_before`: what the loop over the entries writes, and what it leaves.
  - `mirror_differs`: the mirror is never what the target has.
  - `keepsTargets_iff`: the slots are kept exactly when `.got` and the table of the PLT move together to one
    place and the displacements fit 32 bits.
-/
import Katana.Target
import Katana.EhFrameHdr

namespace Katana

open Lib

structure Section where
  addr : UInt64
  data : List UInt8

structure RelocEntry where
  rOffset : UInt64
  rInfo : UInt64
  rAddend : UInt64

def RelocEntry.bytes (rela : RelocEntry) : List UInt8 :=
    toLE 8 rela.rOffset.toNat ++ toLE 8 rela.rInfo.toNat ++ toLE 8 rela.rAddend.toNat

/-- The sections of the target that `katanaPLT` copies; `.plt` is one of the small and medium code models. -/
structure PltTarget where
  plt : Section
  pltEntsize : UInt32
  got : Section
  gotPlt : Option Section
  relaPlt : Option (List RelocEntry)
  small : plt.data.length < 2 ^ 31

/-- Where `getFreeSpaceInTarget` puts the copies. -/
structure Placement where
  plt : UInt64
  got : UInt64
  gotPlt : UInt64
  relaPlt : UInt64

variable {H : Type} (process : Process H)

structure PltMirror (H : Type) where
  target : Target H
  buffer : List UInt8

structure PatchedPlt (H : Type) extends PltMirror H where
  relaPlt : Option (List RelocEntry)

/-- A section without data is not copied; its size is cut to an int. -/
def copyInEntireSection (t : Target H) (addr : UInt64) (data : List UInt8) : Except Fault (Target H) :=
  if data.isEmpty then .ok t else memcpyToTarget process t addr data (Int32.ofNat data.length)

def copyInSections (t : Target H) (e : PltTarget) (place : Placement) : Except Fault (Target H) := do
  let t ← copyInEntireSection process t place.plt e.plt.data
  let t ← copyInEntireSection process t place.got e.got.data
  let t ← match e.gotPlt with
    | none => .ok t
    | some gotPlt => copyInEntireSection process t place.gotPlt gotPlt.data
  match e.relaPlt with
    | none => .ok t
    | some relaPlt => copyInEntireSection process t place.relaPlt (relaPlt.flatMap RelocEntry.bytes)

/-- The new entry for an old one; its type is read as a byte. -/
def relocated (oldAddress newAddress : UInt64) (rela : RelocEntry) : RelocEntry :=
  ⟨rela.rOffset - oldAddress + newAddress, (rela.rInfo >>> 32) <<< 32 + rela.rInfo.toUInt8.toUInt64, rela.rAddend⟩

/-- The entries refer to `.got.plt` if it exists; an address of zero stands for its absence. -/
def relocatedEntries (e : PltTarget) (place : Placement) : Option (List RelocEntry) :=
  let oldGOTPLTAddress := (e.gotPlt.map Section.addr).getD 0
  let newGOTPLTAddress := if e.gotPlt.isSome then place.gotPlt else 0
  e.relaPlt.map fun relaPlt =>
    if oldGOTPLTAddress = 0 then relaPlt.map (relocated e.got.addr place.got)
    else relaPlt.map (relocated oldGOTPLTAddress newGOTPLTAddress)

/-- `memcpy(pltData->d_buf+offset,..)`. -/
def memcpyMirror (buffer : List UInt8) (offset : Nat) (bytes : List UInt8) : Except Fault (List UInt8) :=
  defined (offset + bytes.length ≤ buffer.length) >>= fun _ =>
    .ok (buffer.take offset ++ bytes ++ buffer.drop (offset + bytes.length))

def fixPLT0 (place : Placement) (s : PltMirror H) : Except Fault (PltMirror H) := do
  let addr := (place.got - (place.plt + 6)).toUInt32 + 8
  let target ← memcpyToTarget process s.target (place.plt + 2) (toLE 4 addr.toNat) 4
  let buffer ← memcpyMirror s.buffer 2 (toLE 4 addr.toNat)
  let addr := (place.got - (place.plt + 12)).toUInt32 + 16
  let target ← memcpyToTarget process target (place.plt + 8) (toLE 4 addr.toNat) 4
  let buffer ← memcpyMirror buffer 2 (toLE 4 addr.toNat)
  .ok ⟨target, buffer⟩

/-- The new displacement of an entry, from its old one in the mirror. -/
def newDisplacement (e : PltTarget) (place : Placement) (buffer : List UInt8) (entryOffset : Nat) : UInt64 :=
  let oldAddr := UInt64.ofNat (leNat ((buffer.drop (entryOffset + 2)).take 4))
  let oldAddr := oldAddr + (e.plt.addr + UInt64.ofNat entryOffset + 6)
  let newAddr := oldAddr - e.got.addr + place.got
  newAddr - (place.plt + UInt64.ofNat entryOffset + 6)

/-- An entry from 1 on. -/
def fixEntry (e : PltTarget) (place : Placement) (i : Nat) (s : PltMirror H) : Except Fault (PltMirror H) := do
  let entryOffset := i * e.pltEntsize.toNat
  defined (entryOffset + 6 ≤ s.buffer.length)
  let newAddr := newDisplacement e place s.buffer entryOffset
  let target ← memcpyToTarget process s.target (place.plt + UInt64.ofNat entryOffset + 2) (toLE 8 newAddr.toNat) 4
  let buffer ← memcpyMirror s.buffer (entryOffset + 2) (toLE 4 newAddr.toNat)
  .ok ⟨target, buffer⟩

def fixEntries (e : PltTarget) (place : Placement) : Nat → Nat → PltMirror H → Except Fault (PltMirror H)
  | 0, _, s => .ok s
  | n + 1, i, s => fixEntry process e place i s >>= fixEntries e place n (i + 1)

def PltTarget.numPLTEntries (e : PltTarget) : Nat := e.plt.data.length / e.pltEntsize.toNat

def katanaPLT (t : Target H) (e : PltTarget) (place : Placement) : Except Fault (PatchedPlt H) := do
  let t ← copyInSections process t e place
  let s ← fixPLT0 process place ⟨t, e.plt.data⟩
  defined (e.pltEntsize ≠ 0)
  let s ← fixEntries process e place (e.numPLTEntries - 1) 1 s
  .ok ⟨s, relocatedEntries e place⟩

/-! ## What the fields are -/

section
variable {process} {e : PltTarget} {place : Placement} {s s' : PltMirror H}

theorem memcpyMirror_ok {buffer buffer' : List UInt8} {offset : Nat} {bytes : List UInt8}
    (h : memcpyMirror buffer offset bytes = .ok buffer') :
    offset + bytes.length ≤ buffer.length ∧ buffer' = buffer.take offset ++ bytes ++
      buffer.drop (offset + bytes.length) := by
  unfold memcpyMirror at h
  by_cases hle : offset + bytes.length ≤ buffer.length
  · rw [defined_of hle, bind_ok] at h
    cases h
    exact ⟨hle, rfl⟩
  · rw [defined_not hle] at h
    cases h

/-- What is left of a buffer that four bytes are copied into. -/
theorem getElem?_memcpyMirror {buffer buffer' : List UInt8} {offset : Nat} {bytes : List UInt8}
    (h : memcpyMirror buffer offset bytes = .ok buffer') (k : Nat) :
    buffer'[k]? = if k < offset then buffer[k]? else if k < offset + bytes.length then bytes[k - offset]? else buffer[k]? := by
  obtain ⟨hle, hbuffer⟩ := memcpyMirror_ok h
  subst hbuffer
  have htake : (buffer.take offset).length = offset := List.length_take_of_le (by omega)
  by_cases hlow : k < offset
  · rw [if_pos hlow, List.append_assoc, List.getElem?_append_left (by omega), List.getElem?_take_of_lt hlow]
  · rw [if_neg hlow, List.append_assoc, List.getElem?_append_right (by omega), htake]
    by_cases hin : k < offset + bytes.length
    · rw [if_pos hin, List.getElem?_append_left (by omega)]
    · rw [if_neg hin, List.getElem?_append_right (by omega), List.getElem?_drop]
      congr 1
      omega

theorem length_memcpyMirror {buffer buffer' : List UInt8} {offset : Nat} {bytes : List UInt8}
    (h : memcpyMirror buffer offset bytes = .ok buffer') : buffer'.length = buffer.length := by
  obtain ⟨hle, hbuffer⟩ := memcpyMirror_ok h
  subst hbuffer
  simp
  omega

theorem fixPLT0_ok (h : fixPLT0 process place s = .ok s') :
    ∃ buffer, memcpyMirror s.buffer 2 (toLE 4 ((place.got - (place.plt + 6)).toUInt32 + 8).toNat) = .ok buffer ∧
      memcpyMirror buffer 2 (toLE 4 ((place.got - (place.plt + 12)).toUInt32 + 16).toNat) = .ok s'.buffer ∧
      s'.target.bytes = (s.target.bytes.write (place.plt + 2)
        (toLE 4 ((place.got - (place.plt + 6)).toUInt32 + 8).toNat)).write
        (place.plt + 8) (toLE 4 ((place.got - (place.plt + 12)).toUInt32 + 16).toNat) := by
  unfold fixPLT0 at h
  obtain ⟨target, hpush, h⟩ := bind_eq_ok.mp h
  obtain ⟨buffer, hmirror, h⟩ := bind_eq_ok.mp h
  obtain ⟨target', hjump, h⟩ := bind_eq_ok.mp h
  obtain ⟨buffer', hmirror', h⟩ := bind_eq_ok.mp h
  cases h
  refine ⟨buffer, hmirror, hmirror', ?_⟩
  have htake : ∀ n, (toLE 4 n).take 4 = toLE 4 n := fun n => take_toLE (Nat.le_refl 4)
  rw [memcpyToTarget_four (by simp) hjump, memcpyToTarget_four (by simp) hpush, htake, htake]

theorem fixEntry_ok {i : Nat} (h : fixEntry process e place i s = .ok s') :
    i * e.pltEntsize.toNat + 6 ≤ s.buffer.length ∧
      memcpyMirror s.buffer (i * e.pltEntsize.toNat + 2)
        (toLE 4 (newDisplacement e place s.buffer (i * e.pltEntsize.toNat)).toNat) = .ok s'.buffer ∧
      s'.target.bytes = s.target.bytes.write (place.plt + UInt64.ofNat (i * e.pltEntsize.toNat + 2))
        (toLE 4 (newDisplacement e place s.buffer (i * e.pltEntsize.toNat)).toNat) := by
  unfold fixEntry at h
  obtain ⟨u, hdefined, h⟩ := bind_eq_ok.mp h
  obtain ⟨target, hwrite, h⟩ := bind_eq_ok.mp h
  obtain ⟨buffer, hmirror, h⟩ := bind_eq_ok.mp h
  cases h
  have hle : i * e.pltEntsize.toNat + 6 ≤ s.buffer.length := by
    by_contra hno
    rw [defined_not hno] at hdefined
    cases hdefined
  refine ⟨hle, hmirror, ?_⟩
  rw [memcpyToTarget_four (by simp) hwrite, take_toLE (by decide), UInt64.ofNat_add, ← UInt64.add_assoc]
  rfl

/-- Two offsets from one address. -/
theorem offset_ne (a : UInt64) {j k : Nat} (hj : j < 2 ^ 64) (hk : k < 2 ^ 64) (hne : j ≠ k) :
    a + UInt64.ofNat j ≠ a + UInt64.ofNat k := by
  intro heq
  have hsub := congrArg (· - a) heq
  simp only [UInt64.add_comm a, UInt64.add_sub_cancel] at hsub
  have hnat := congrArg UInt64.toNat hsub
  rw [UInt64.toNat_ofNat_of_lt' hj, UInt64.toNat_ofNat_of_lt' hk] at hnat
  exact hne hnat

/-- A field written at one offset is not seen at another. -/
theorem write_field_other {m : Memory} {a : UInt64} {offset : Nat} {bytes : List UInt8} {k : Nat}
    (hend : offset + bytes.length ≤ 2 ^ 64) (hk : k < 2 ^ 64) (hout : k < offset ∨ offset + bytes.length ≤ k) :
    m.write (a + UInt64.ofNat offset) bytes (a + UInt64.ofNat k) = m (a + UInt64.ofNat k) := by
  apply Memory.write_outside
  · omega
  · intro i hi
    rw [UInt64.add_assoc, ← UInt64.ofNat_add]
    exact offset_ne a hk (by omega) (by omega)

/-- The loop keeps what stands before its first field. -/
theorem fixEntries_before {n i : Nat} (hsmall : s.buffer.length < 2 ^ 31) (h : fixEntries process e place n i s = .ok s') :
    s'.buffer.length = s.buffer.length ∧ ∀ k < i * e.pltEntsize.toNat + 2, k < 2 ^ 64 →
      s'.buffer[k]? = s.buffer[k]? ∧ s'.target.bytes (place.plt + UInt64.ofNat k) =
        s.target.bytes (place.plt + UInt64.ofNat k) := by
  induction n generalizing i s with
  | zero =>
    cases h
    exact ⟨rfl, fun k _ _ => ⟨rfl, rfl⟩⟩
  | succ n ih =>
    obtain ⟨s1, h1, h⟩ := bind_eq_ok.mp h
    obtain ⟨hle, hmirror, hbytes⟩ := fixEntry_ok h1
    have hlen := length_memcpyMirror hmirror
    obtain ⟨hlen', hbefore⟩ := ih (hlen ▸ hsmall) h
    refine ⟨hlen'.trans hlen, ?_⟩
    intro k hk hk64
    have hnext : i * e.pltEntsize.toNat ≤ (i + 1) * e.pltEntsize.toNat := Nat.mul_le_mul_right _ (Nat.le_succ i)
    obtain ⟨hbuf, hmem⟩ := hbefore k (by omega) hk64
    refine ⟨?_, ?_⟩
    · rw [hbuf, getElem?_memcpyMirror hmirror, if_pos hk]
    · rw [hmem, hbytes]
      exact write_field_other (by rw [length_toLE]; omega) hk64 (.inl hk)

/-- What an entry's field is computed from. -/
theorem newDisplacement_congr {buffer buffer' : List UInt8} {entryOffset : Nat}
    (h : ∀ k, entryOffset + 2 ≤ k → k < entryOffset + 6 → buffer'[k]? = buffer[k]?) :
    newDisplacement e place buffer' entryOffset = newDisplacement e place buffer entryOffset := by
  have hfield : (buffer'.drop (entryOffset + 2)).take 4 = (buffer.drop (entryOffset + 2)).take 4 := by
    apply List.ext_getElem?
    intro j
    by_cases hj : j < 4
    · rw [List.getElem?_take_of_lt hj, List.getElem?_take_of_lt hj, List.getElem?_drop, List.getElem?_drop]
      exact h _ (by omega) (by omega)
    · rw [List.getElem?_eq_none, List.getElem?_eq_none] <;>
        exact Nat.le_trans (List.length_take_le _ _) (by omega)
  unfold newDisplacement
  rw [hfield]

/-- **What the loop writes**: each entry's field, computed from the entry as it was. -/
theorem fixEntries_fields {n i : Nat} (hsize : 4 ≤ e.pltEntsize.toNat) (hsmall : s.buffer.length < 2 ^ 31)
    (h : fixEntries process e place n i s = .ok s') {j : Nat} (hij : i ≤ j) (hjn : j < i + n) :
    s'.target.bytes.read (place.plt + UInt64.ofNat (j * e.pltEntsize.toNat + 2)) 4 =
      toLE 4 (newDisplacement e place s.buffer (j * e.pltEntsize.toNat)).toNat := by
  induction n generalizing i s with
  | zero => omega
  | succ n ih =>
    obtain ⟨s1, h1, h⟩ := bind_eq_ok.mp h
    obtain ⟨hle, hmirror, hbytes⟩ := fixEntry_ok h1
    have hlen := length_memcpyMirror hmirror
    have hnext : (i + 1) * e.pltEntsize.toNat = i * e.pltEntsize.toNat + e.pltEntsize.toNat := Nat.succ_mul _ _
    rcases Nat.eq_or_lt_of_le hij with heq | hlt
    · -- the first field, which the other entries leave
      subst heq
      obtain ⟨-, hbefore⟩ := fixEntries_before (hlen ▸ hsmall) h
      have hread := Memory.read_write s.target.bytes (place.plt + UInt64.ofNat (i * e.pltEntsize.toNat + 2))
        (show (toLE 4 (newDisplacement e place s.buffer (i * e.pltEntsize.toNat)).toNat).length ≤ 2 ^ 64 by simp)
      rw [length_toLE, ← hbytes] at hread
      refine Eq.trans ?_ hread
      apply Memory.read_congr
      intro k hk
      rw [UInt64.add_assoc, ← UInt64.ofNat_add]
      exact (hbefore _ (by omega) (by omega)).2
    · rw [ih (hlen ▸ hsmall) h hlt (by omega)]
      have hgap : i * e.pltEntsize.toNat + e.pltEntsize.toNat ≤ j * e.pltEntsize.toNat := by
        rw [← hnext]
        exact Nat.mul_le_mul_right _ hlt
      rw [newDisplacement_congr]
      intro k hk hk'
      rw [getElem?_memcpyMirror hmirror, if_neg (by omega), if_neg (by rw [length_toLE]; omega)]

/-- What is written to PLT0. -/
theorem fixPLT0_fields (h : fixPLT0 process place s = .ok s') :
    s'.target.bytes.read (place.plt + 2) 4 = toLE 4 ((place.got - (place.plt + 6)).toUInt32 + 8).toNat ∧
      s'.target.bytes.read (place.plt + 8) 4 = toLE 4 ((place.got - (place.plt + 12)).toUInt32 + 16).toNat := by
  obtain ⟨-, -, -, hbytes⟩ := fixPLT0_ok h
  have hshort : ∀ n, (toLE 4 n).length ≤ 2 ^ 64 := fun n => by simp
  generalize ((place.got - (place.plt + 6)).toUInt32 + 8).toNat = push at hbytes ⊢
  generalize ((place.got - (place.plt + 12)).toUInt32 + 16).toNat = jump at hbytes ⊢
  refine ⟨?_, ?_⟩
  · have hread := Memory.read_write s.target.bytes (place.plt + 2) (hshort push)
    rw [length_toLE] at hread
    refine Eq.trans ?_ hread
    rw [hbytes]
    apply Memory.read_congr
    intro i hi
    have htwo : place.plt + 2 + UInt64.ofNat i = place.plt + UInt64.ofNat (2 + i) := by
      rw [UInt64.ofNat_add, ← UInt64.add_assoc]
      rfl
    rw [htwo]
    have hother : ∀ m : Memory, m.write (place.plt + UInt64.ofNat 8) (toLE 4 jump) (place.plt + UInt64.ofNat (2 + i)) =
        m (place.plt + UInt64.ofNat (2 + i)) :=
      fun m => write_field_other (by rw [length_toLE]; decide) (by omega) (.inl (by omega))
    exact hother _
  · have hread := Memory.read_write (s.target.bytes.write (place.plt + 2) (toLE 4 push)) (place.plt + 8) (hshort jump)
    rw [length_toLE, ← hbytes] at hread
    exact hread

/-! ## The mirror -/

/-- The buffer has the bytes of the target. -/
def Mirrors (place : Placement) (s : PltMirror H) : Prop := s.target.bytes.read place.plt s.buffer.length = s.buffer

/-- The parts of a run. -/
theorem katanaPLT_ok {t : Target H} {r : PatchedPlt H} (h : katanaPLT process t e place = .ok r) :
    ∃ t1 s1, copyInSections process t e place = .ok t1 ∧ fixPLT0 process place ⟨t1, e.plt.data⟩ = .ok s1 ∧ e.pltEntsize ≠ 0 ∧
      fixEntries process e place (e.numPLTEntries - 1) 1 s1 = .ok r.toPltMirror ∧ r.relaPlt = relocatedEntries e place := by
  unfold katanaPLT at h
  obtain ⟨t1, hcopy, h⟩ := bind_eq_ok.mp h
  obtain ⟨s1, hplt0, h⟩ := bind_eq_ok.mp h
  obtain ⟨u, hdefined, h⟩ := bind_eq_ok.mp h
  obtain ⟨s2, hentries, h⟩ := bind_eq_ok.mp h
  cases h
  refine ⟨t1, s1, hcopy, hplt0, ?_, hentries, rfl⟩
  intro hzero
  rw [defined_not (not_not_intro hzero)] at hdefined
  cases hdefined

/-- The second displacement of PLT0 is not the first. -/
theorem displacements_differ (got plt : UInt64) :
    ((got - (plt + 12)).toUInt32 + 16).toNat % 256 ≠ ((got - (plt + 6)).toUInt32 + 8).toNat % 256 := by
  have hadd : (got - (plt + 12)).toUInt32 + 16 = ((got - (plt + 6)).toUInt32 + 8) + 2 := by
    have htwelve : UInt64.toUInt32 12 = 12 := rfl
    have hsix : UInt64.toUInt32 6 = 6 := rfl
    rw [UInt64.toUInt32_sub, UInt64.toUInt32_add, UInt64.toUInt32_sub, UInt64.toUInt32_add, htwelve, hsix]
    grind
  rw [hadd, UInt32.toNat_add]
  have htwo : (2 : UInt32).toNat = 2 := rfl
  omega

/-- The third byte of the mirror is of the second displacement, the target's of the first. -/
theorem third_byte_differs {t : Target H} {r : PatchedPlt H} (h : katanaPLT process t e place = .ok r) :
    ∃ b, r.buffer[2]? = some b ∧ b ≠ r.target.bytes (place.plt + UInt64.ofNat 2) := by
  obtain ⟨t1, s1, -, hplt0, hsize, hentries, -⟩ := katanaPLT_ok h
  obtain ⟨buffer, hfirst, hsecond, hbytes⟩ := fixPLT0_ok hplt0
  have hlen : s1.buffer.length = e.plt.data.length := (length_memcpyMirror hsecond).trans (length_memcpyMirror hfirst)
  have hpos : 0 < e.pltEntsize.toNat := Nat.pos_of_ne_zero fun hzero => hsize (UInt32.toNat_inj.mp hzero)
  -- the loop keeps the third byte of both
  obtain ⟨-, hbefore⟩ := fixEntries_before (hlen ▸ e.small) hentries
  obtain ⟨hbuf, hmem⟩ := hbefore 2 (by omega) (by decide)
  refine ⟨UInt8.ofNat ((place.got - (place.plt + 12)).toUInt32 + 16).toNat, ?_, ?_⟩
  · rw [hbuf, getElem?_memcpyMirror hsecond]
    rfl
  · have hread := (fixPLT0_fields hplt0).1
    have hhead := Memory.getElem?_read s1.target.bytes (place.plt + 2) 4 0 (by decide)
    have hzero : place.plt + 2 + UInt64.ofNat 0 = place.plt + UInt64.ofNat 2 := UInt64.add_zero _
    rw [hread, hzero] at hhead
    rw [hmem, ← Option.some.inj hhead]
    intro heq
    have hbyte := congrArg UInt8.toNat heq
    rw [UInt8.toNat_ofNat', UInt8.toNat_ofNat'] at hbyte
    exact displacements_differ place.got place.plt hbyte

theorem not_mirrors_of_byte {s : PltMirror H} {k : Nat} {b : UInt8} (hb : s.buffer[k]? = some b)
    (hne : b ≠ s.target.bytes (place.plt + UInt64.ofNat k)) : ¬ Mirrors place s := by
  intro h
  have hlt := (List.getElem?_eq_some_iff.mp hb).1
  have hread := Memory.getElem?_read s.target.bytes place.plt s.buffer.length k hlt
  unfold Mirrors at h
  rw [h, hb] at hread
  exact hne (Option.some.inj hread)

/-- **The mirror differs from the target.** -/
theorem mirror_differs {t : Target H} {r : PatchedPlt H} (h : katanaPLT process t e place = .ok r) :
    ¬ Mirrors place r.toPltMirror := by
  obtain ⟨b, hb, hne⟩ := third_byte_differs h
  exact not_mirrors_of_byte hb hne

end

def pltBytes : List UInt8 :=
  [0xff, 0x35, 0x02, 0x20, 0, 0, 0xff, 0x25, 0x04, 0x20, 0, 0, 0x0f, 0x1f, 0x40, 0,
   0xff, 0x25, 0x02, 0x20, 0, 0, 0x68, 0, 0, 0, 0, 0xe9, 0xe0, 0xff, 0xff, 0xff]

def jumpSlot : RelocEntry := ⟨0x3018, 0x100000007, 0⟩

def withoutGotPlt : PltTarget := ⟨⟨0x1000, pltBytes⟩, 16, ⟨0x3000, List.replicate 32 0⟩, none, some [jumpSlot], by decide⟩

def withGotPlt : PltTarget :=
  ⟨⟨0x1000, pltBytes⟩, 16, ⟨0x2ff0, List.replicate 16 0⟩, some ⟨0x3000, List.replicate 32 0⟩, some [jumpSlot], by decide⟩

def pages : Placement := ⟨0x8000, 0x9000, 0xa000, 0xb000⟩

theorem exists_ok_of_isOk {α : Type} {x : Except Fault α} (h : x.isOk = true) : ∃ a, x = .ok a := by
  cases x with
  | error f => cases h
  | ok a => exact ⟨a, rfl⟩

theorem withoutGotPlt_runs : ∃ r, katanaPLT (mappedProcess keptHeap) zeroTarget withoutGotPlt pages = .ok r :=
  exists_ok_of_isOk (by decide +kernel)

theorem withGotPlt_runs : ∃ r, katanaPLT (mappedProcess keptHeap) zeroTarget withGotPlt pages = .ok r :=
  exists_ok_of_isOk (by decide +kernel)

/-- So it does for a PLT of one entry. -/
theorem mirror_differs_once : ∃ r, katanaPLT (mappedProcess keptHeap) zeroTarget withoutGotPlt pages = .ok r ∧
    ¬ Mirrors pages r.toPltMirror := by
  obtain ⟨r, hr⟩ := withoutGotPlt_runs
  exact ⟨r, hr, mirror_differs hr⟩

/-- Whether the copies put the bytes of `.plt` where they should be. -/
def copiesPlt (e : PltTarget) : Bool :=
  match copyInSections (mappedProcess keptHeap) zeroTarget e pages with
  | .error _ => false
  | .ok t => t.bytes.read pages.plt e.plt.data.length = e.plt.data

/-- Even where the mirror is the target's when the section has been copied. -/
theorem not_mirrors : ¬ ∀ (t : Target Unit) (e : PltTarget) (place : Placement) (t1 : Target Unit) (r : PatchedPlt Unit),
    copyInSections (mappedProcess keptHeap) t e place = .ok t1 → Mirrors place ⟨t1, e.plt.data⟩ →
    katanaPLT (mappedProcess keptHeap) t e place = .ok r → Mirrors place r.toPltMirror := by
  intro h
  obtain ⟨r, hr⟩ := withoutGotPlt_runs
  obtain ⟨t1, s1, hcopy, -⟩ := katanaPLT_ok hr
  have hcopied : copiesPlt withoutGotPlt = true := by decide +kernel
  unfold copiesPlt at hcopied
  rw [hcopy] at hcopied
  have hbefore : Mirrors pages (⟨t1, withoutGotPlt.plt.data⟩ : PltMirror Unit) := by
    unfold Mirrors
    exact of_decide_eq_true hcopied
  obtain ⟨b, hb, hne⟩ := third_byte_differs hr
  exact not_mirrors_of_byte hb hne (h _ _ _ t1 r hcopy hbefore hr)

/-! ## The slots -/

def reaches (next : UInt64) (field : List UInt8) : UInt64 := next + addrOfInt (UInt32.ofNat (leNat field)).toInt32

namespace PltTarget
variable (e : PltTarget)

def entryOffset (i : Nat) : Nat := i * e.pltEntsize.toNat

def table : Section := e.gotPlt.getD e.got

def newTable (place : Placement) : UInt64 := if e.gotPlt.isSome then place.gotPlt else place.got

def oldPush : UInt64 := reaches (e.plt.addr + 6) ((e.plt.data.drop 2).take 4)

def oldJump : UInt64 := reaches (e.plt.addr + 12) ((e.plt.data.drop 8).take 4)

def oldSlot (i : Nat) : UInt64 :=
  reaches (e.plt.addr + UInt64.ofNat (e.entryOffset i) + 6) ((e.plt.data.drop (e.entryOffset i + 2)).take 4)

/-- PLT0 with its two instructions uses the table, and an entry's relocation is one of its slot. -/
structure WellFormed : Prop where
  size : 12 ≤ e.pltEntsize.toNat
  plt0 : e.pltEntsize.toNat ≤ e.plt.data.length
  push : e.oldPush = e.table.addr + 8
  jump : e.oldJump = e.table.addr + 16
  relocations : ∀ relaPlt, e.relaPlt = some relaPlt → ∀ (i : Nat) reloc, relaPlt[i]? = some reloc →
    i + 1 < e.numPLTEntries → reloc.rOffset = e.oldSlot (i + 1)
  placed : ∀ gotPlt, e.gotPlt = some gotPlt → gotPlt.addr ≠ 0

def movedSlot (place : Placement) (i : Nat) : UInt64 := e.oldSlot i - e.table.addr + e.newTable place

end PltTarget

section
variable {e : PltTarget} {place : Placement}

def newSlot (e : PltTarget) (place : Placement) (r : PatchedPlt H) (i : Nat) : UInt64 :=
  reaches (place.plt + UInt64.ofNat (e.entryOffset i) + 6)
    (r.target.bytes.read (place.plt + UInt64.ofNat (e.entryOffset i + 2)) 4)

/-- **The slots are kept**: the copy of the PLT uses the copy of its table as the PLT used the table. -/
structure KeepsTargets (e : PltTarget) (place : Placement) (r : PatchedPlt H) : Prop where
  slots : ∀ i, 1 ≤ i → i < e.numPLTEntries → newSlot e place r i = e.movedSlot place i
  relocations : ∀ relocs, r.relaPlt = some relocs → ∀ (i : Nat) reloc, relocs[i]? = some reloc → i + 1 < e.numPLTEntries →
    reloc.rOffset = newSlot e place r (i + 1)
  push : reaches (place.plt + 6) (r.target.bytes.read (place.plt + 2) 4) = e.newTable place + 8
  jump : reaches (place.plt + 12) (r.target.bytes.read (place.plt + 8) 4) = e.newTable place + 16

/-- `.got` and the table are at one place, before and after, as far as 32 bits tell, and the displacements fit. -/
structure MovesTogether (e : PltTarget) (place : Placement) : Prop where
  table : place.got.toUInt32 = (e.newTable place).toUInt32
  moved : 1 < e.numPLTEntries → e.got.addr.toUInt32 = e.table.addr.toUInt32
  push : FitsInt32 (e.newTable place + 8 - (place.plt + 6))
  jump : FitsInt32 (e.newTable place + 16 - (place.plt + 12))
  slots : ∀ i, 1 ≤ i → i < e.numPLTEntries →
    FitsInt32 (e.movedSlot place i - (place.plt + UInt64.ofNat (e.entryOffset i) + 6))

theorem low_addrOfInt (w : UInt32) : (addrOfInt w.toInt32).toUInt32 = w := by
  apply UInt32.eq_of_toBitVec_eq
  have hcut := congrArg Int32.toBitVec (Int32.toInt32_toInt64 w.toInt32)
  rw [Int64.toBitVec_toInt32, BitVec.signExtend_eq_setWidth_of_le _ (by decide)] at hcut
  rw [UInt64.toBitVec_toUInt32]
  exact hcut

theorem toInt32_low (x : UInt64) : x.toUInt32.toInt32 = x.toInt64.toInt32 := by
  apply Int32.toBitVec.inj
  rw [Int64.toBitVec_toInt32, BitVec.signExtend_eq_setWidth_of_le _ (by decide)]
  exact UInt64.toBitVec_toUInt32 x

theorem fits_addrOfInt (w : UInt32) : FitsInt32 (addrOfInt w.toInt32) := by
  have hint : (addrOfInt w.toInt32).toInt64.toInt = w.toInt32.toInt := Int32.toInt_toInt64 _
  unfold FitsInt32
  rw [hint]
  exact ⟨Int32.le_toInt _, Int32.toInt_lt _⟩

theorem ofNat_leNat (w : UInt32) : UInt32.ofNat (leNat (toLE 4 w.toNat)) = w := by
  have hmod : w.toNat % 256 ^ 4 = w.toNat := Nat.mod_eq_of_lt w.toNat_lt
  rw [leNat_toLE, hmod, UInt32.ofNat_toNat]

/-- **Where a field leads.** -/
theorem reaches_iff {next x : UInt64} {w : UInt32} :
    reaches next (toLE 4 w.toNat) = x ↔ w = (x - next).toUInt32 ∧ FitsInt32 (x - next) := by
  unfold reaches
  rw [ofNat_leNat]
  refine ⟨?_, ?_⟩
  · intro h
    have hsub : x - next = addrOfInt w.toInt32 := by
      rw [← h, UInt64.add_comm, UInt64.add_sub_cancel]
    rw [hsub]
    exact ⟨(low_addrOfInt w).symm, fits_addrOfInt w⟩
  · intro h
    have hback : addrOfInt w.toInt32 = x - next := by
      rw [h.1, toInt32_low, addrOfInt_toInt32 h.2]
    rw [hback, UInt64.add_comm, UInt64.sub_add_cancel]

/-- Four bytes of a word are those of its low half. -/
theorem toLE_low (d : UInt64) : toLE 4 d.toNat = toLE 4 d.toUInt32.toNat := by
  have hmod : toLE 4 (d.toNat % 2 ^ 32) = toLE 4 d.toNat := toLE_mod 4 d.toNat
  rw [UInt64.toNat_toUInt32, hmod]

/-- The low half of an entry's new displacement. -/
theorem low_newDisplacement (i : Nat) : (newDisplacement e place e.plt.data (e.entryOffset i)).toUInt32 =
    (e.oldSlot i - e.got.addr + place.got - (place.plt + UInt64.ofNat (e.entryOffset i) + 6)).toUInt32 := by
  unfold newDisplacement PltTarget.oldSlot reaches
  have hlow : (UInt64.ofNat (leNat ((e.plt.data.drop (e.entryOffset i + 2)).take 4))).toUInt32 =
      UInt32.ofNat (leNat ((e.plt.data.drop (e.entryOffset i + 2)).take 4)) := by
    apply UInt32.toNat_inj.mp
    rw [UInt64.toNat_toUInt32, UInt64.toNat_ofNat', UInt32.toNat_ofNat', Nat.mod_mod_of_dvd _ (by decide)]
  simp only [UInt64.toUInt32_sub, UInt64.toUInt32_add, hlow, low_addrOfInt]
  grind

section
variable {process : Process H} {t : Target H} {r : PatchedPlt H}

/-- What `.plt.katana` has in its fields. -/
theorem katanaPLT_fields (hwf : e.WellFormed) (h : katanaPLT process t e place = .ok r) :
    r.target.bytes.read (place.plt + 2) 4 = toLE 4 ((place.got - (place.plt + 6)).toUInt32 + 8).toNat ∧
    r.target.bytes.read (place.plt + 8) 4 = toLE 4 ((place.got - (place.plt + 12)).toUInt32 + 16).toNat ∧
    ∀ i, 1 ≤ i → i < e.numPLTEntries → r.target.bytes.read (place.plt + UInt64.ofNat (e.entryOffset i + 2)) 4 =
      toLE 4 (e.oldSlot i - e.got.addr + place.got - (place.plt + UInt64.ofNat (e.entryOffset i) + 6)).toUInt32.toNat := by
  obtain ⟨t1, s1, -, hplt0, -, hentries, -⟩ := katanaPLT_ok h
  obtain ⟨buffer, hfirst, hsecond, -⟩ := fixPLT0_ok hplt0
  obtain ⟨hpush, hjump⟩ := fixPLT0_fields hplt0
  have hlen : s1.buffer.length = e.plt.data.length := (length_memcpyMirror hsecond).trans (length_memcpyMirror hfirst)
  have hsmall : s1.buffer.length < 2 ^ 31 := hlen ▸ e.small
  have hsize := hwf.size
  obtain ⟨-, hbefore⟩ := fixEntries_before hsmall hentries
  -- the loop keeps the fields of PLT0
  have hkept : ∀ offset, offset + 4 ≤ e.pltEntsize.toNat + 2 → r.target.bytes.read (place.plt + UInt64.ofNat offset) 4 =
      s1.target.bytes.read (place.plt + UInt64.ofNat offset) 4 := by
    intro offset hoffset
    have hlt := e.pltEntsize.toNat_lt
    apply Memory.read_congr
    intro i hi
    rw [UInt64.add_assoc, ← UInt64.ofNat_add]
    exact (hbefore _ (by omega) (by omega)).2
  refine ⟨(hkept 2 (by omega)).trans hpush, (hkept 8 (by omega)).trans hjump, ?_⟩
  intro i hone hi
  -- and PLT0's fields are none of the others
  have hfirstEntry : e.pltEntsize.toNat ≤ i * e.pltEntsize.toNat := Nat.le_mul_of_pos_left _ hone
  have hsame : newDisplacement e place s1.buffer (i * e.pltEntsize.toNat) =
    newDisplacement e place e.plt.data (i * e.pltEntsize.toNat) := by
    apply newDisplacement_congr
    intro k hk _
    rw [getElem?_memcpyMirror hsecond, if_neg (by omega), if_neg (by rw [length_toLE]; omega),
      getElem?_memcpyMirror hfirst, if_neg (by omega), if_neg (by rw [length_toLE]; omega)]
  have hfield := fixEntries_fields (by omega) hsmall hentries hone (by omega)
  rw [hsame, toLE_low] at hfield
  rw [← low_newDisplacement]
  exact hfield

theorem relocatedEntries_eq (hwf : e.WellFormed) : relocatedEntries e place =
    e.relaPlt.map fun relaPlt => relaPlt.map (relocated e.table.addr (e.newTable place)) := by
  unfold relocatedEntries PltTarget.newTable PltTarget.table
  cases hgotPlt : e.gotPlt with
  | none => rfl
  | some gotPlt =>
    have hne : ¬ ((some gotPlt).map Section.addr).getD 0 = 0 := hwf.placed gotPlt hgotPlt
    simp only [hne, if_false]
    rfl

/-- A slot is kept when its displacement is. -/
theorem newSlot_iff (hwf : e.WellFormed) (h : katanaPLT process t e place = .ok r)
    (htable : place.got.toUInt32 = (e.newTable place).toUInt32) {i : Nat} (hone : 1 ≤ i) (hi : i < e.numPLTEntries) :
    newSlot e place r i = e.movedSlot place i ↔ e.got.addr.toUInt32 = e.table.addr.toUInt32 ∧
      FitsInt32 (e.movedSlot place i - (place.plt + UInt64.ofNat (e.entryOffset i) + 6)) := by
  unfold newSlot
  rw [(katanaPLT_fields hwf h).2.2 i hone hi, reaches_iff]
  unfold PltTarget.movedSlot
  simp only [UInt64.toUInt32_sub, UInt64.toUInt32_add, htable]
  apply and_congr_left'
  refine ⟨?_, ?_⟩
  · intro heq
    grind
  · intro heq
    rw [heq]

theorem push_iff (hwf : e.WellFormed) (h : katanaPLT process t e place = .ok r) :
    reaches (place.plt + 6) (r.target.bytes.read (place.plt + 2) 4) = e.newTable place + 8 ↔
      place.got.toUInt32 = (e.newTable place).toUInt32 ∧ FitsInt32 (e.newTable place + 8 - (place.plt + 6)) := by
  have height : UInt64.toUInt32 8 = 8 := rfl
  rw [(katanaPLT_fields hwf h).1, reaches_iff]
  apply and_congr_left'
  rw [UInt64.toUInt32_sub, UInt64.toUInt32_sub, UInt64.toUInt32_add (e.newTable place), height]
  refine ⟨?_, ?_⟩
  · intro heq
    grind
  · intro heq
    grind

theorem jump_iff (hwf : e.WellFormed) (h : katanaPLT process t e place = .ok r) :
    reaches (place.plt + 12) (r.target.bytes.read (place.plt + 8) 4) = e.newTable place + 16 ↔
      place.got.toUInt32 = (e.newTable place).toUInt32 ∧ FitsInt32 (e.newTable place + 16 - (place.plt + 12)) := by
  have hsixteen : UInt64.toUInt32 16 = 16 := rfl
  rw [(katanaPLT_fields hwf h).2.1, reaches_iff]
  apply and_congr_left'
  rw [UInt64.toUInt32_sub, UInt64.toUInt32_sub, UInt64.toUInt32_add (e.newTable place), hsixteen]
  refine ⟨?_, ?_⟩
  · intro heq
    grind
  · intro heq
    grind

/-- **When the slots are kept.** -/
theorem keepsTargets_iff (hwf : e.WellFormed) (h : katanaPLT process t e place = .ok r) :
    KeepsTargets e place r ↔ MovesTogether e place := by
  refine ⟨?_, ?_⟩
  · intro hkeeps
    obtain ⟨htable, hpush⟩ := (push_iff hwf h).mp hkeeps.push
    have hslots : ∀ i, 1 ≤ i → i < e.numPLTEntries → e.got.addr.toUInt32 = e.table.addr.toUInt32 ∧
        FitsInt32 (e.movedSlot place i - (place.plt + UInt64.ofNat (e.entryOffset i) + 6)) :=
      fun i hone hi => (newSlot_iff hwf h htable hone hi).mp (hkeeps.slots i hone hi)
    exact ⟨htable, fun hi => (hslots 1 (Nat.le_refl 1) hi).1, hpush, ((jump_iff hwf h).mp hkeeps.jump).2,
      fun i hone hi => (hslots i hone hi).2⟩
  · intro hmoves
    have hslots : ∀ i, 1 ≤ i → i < e.numPLTEntries → newSlot e place r i = e.movedSlot place i :=
      fun i hone hi => (newSlot_iff hwf h hmoves.table hone hi).mpr
        ⟨hmoves.moved (Nat.lt_of_le_of_lt hone hi), hmoves.slots i hone hi⟩
    refine ⟨hslots, ?_, (push_iff hwf h).mpr ⟨hmoves.table, hmoves.push⟩, (jump_iff hwf h).mpr ⟨hmoves.table, hmoves.jump⟩⟩
    intro relocs hrelocs i reloc hreloc hi
    obtain ⟨t1, s1, -, -, -, -, hrelaPlt⟩ := katanaPLT_ok h
    rw [hrelaPlt, relocatedEntries_eq hwf, Option.map_eq_some_iff] at hrelocs
    obtain ⟨relaPlt, hold, hmap⟩ := hrelocs
    rw [← hmap, List.getElem?_map, Option.map_eq_some_iff] at hreloc
    obtain ⟨rela, hrela, hreloc⟩ := hreloc
    rw [hslots (i + 1) (Nat.le_add_left 1 i) hi, ← hreloc]
    unfold relocated PltTarget.movedSlot
    rw [hwf.relocations relaPlt hold i rela hrela hi]

end

end

theorem wellFormed_one {e : PltTarget} (hsize : 12 ≤ e.pltEntsize.toNat) (hplt0 : e.pltEntsize.toNat ≤ e.plt.data.length)
    (hpush : e.oldPush = e.table.addr + 8) (hjump : e.oldJump = e.table.addr + 16) (hcount : e.numPLTEntries = 2)
    (hrela : e.relaPlt = some [jumpSlot]) (hslot : jumpSlot.rOffset = e.oldSlot 1)
    (hplaced : ∀ gotPlt, e.gotPlt = some gotPlt → gotPlt.addr ≠ 0) : e.WellFormed := by
  refine ⟨hsize, hplt0, hpush, hjump, ?_, hplaced⟩
  intro relaPlt hrelaPlt i reloc hreloc hi
  have hfirst : i = 0 := by omega
  subst hfirst
  rw [hrela] at hrelaPlt
  cases hrelaPlt
  cases hreloc
  exact hslot

theorem withoutGotPlt_wellFormed : withoutGotPlt.WellFormed := by
  refine wellFormed_one (by decide) (by decide) (by decide) (by decide) (by decide) rfl (by decide) ?_
  intro gotPlt h
  cases h

theorem withGotPlt_wellFormed : withGotPlt.WellFormed := by
  refine wellFormed_one (by decide) (by decide) (by decide) (by decide) (by decide) rfl (by decide) ?_
  intro gotPlt h
  cases h
  decide

/-- Without `.got.plt` the slots are kept. -/
theorem withoutGotPlt_keepsTargets : ∃ r, katanaPLT (mappedProcess keptHeap) zeroTarget withoutGotPlt pages = .ok r ∧
    KeepsTargets withoutGotPlt pages r := by
  obtain ⟨r, hr⟩ := withoutGotPlt_runs
  refine ⟨r, hr, (keepsTargets_iff withoutGotPlt_wellFormed hr).mpr ⟨rfl, fun _ => rfl, by decide, by decide, ?_⟩⟩
  intro i hone hi
  have hcount : withoutGotPlt.numPLTEntries = 2 := by decide
  have hfirst : i = 1 := by omega
  subst hfirst
  decide

/-- With it PLT0 pushes from the copy of `.got`. -/
theorem not_keepsTargets : ¬ ∀ (t : Target Unit) (e : PltTarget) (place : Placement) (r : PatchedPlt Unit), e.WellFormed →
    katanaPLT (mappedProcess keptHeap) t e place = .ok r → KeepsTargets e place r := by
  intro h
  obtain ⟨r, hr⟩ := withGotPlt_runs
  have hpush := (push_iff withGotPlt_wellFormed hr).mp (h _ _ _ r withGotPlt_wellFormed hr).push
  exact absurd hpush.1 (by decide)

end Katana

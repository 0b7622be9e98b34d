/-
  Katana.Assignment — what the rules of an FDE write, and from where (dwarfvm.c).

  A patch is taken for an assignment: an address and the bytes that go there. What a register stands for, as an address and
  as bytes of the memory, is said of the registers alone.

  Proved, for every target:
  - `resolveToAddress_address` / `resolveToAddress_value`: a register that resolves stands for what it resolves to.
  - `offset_assignment`: what an offset rule writes.
  - `applyPatches_ok`: the memory after the patches is the one before with their assignments written.
-/
import Katana.Traversal

namespace Katana

open Lib Lib.Run

abbrev Assignment := UInt64 × List UInt8

variable {H : Type} (process : Process H) (bins : Binaries) (orig : Memory)

def registerAddress (state : SpecialRegsState) (reg : PoReg) : Option UInt64 :=
  match reg.type with
  | .currTargNew => some (state.currAddrNew + addrOfInt reg.u)
  | .currTargOld => some (state.currAddrOld + addrOfInt reg.u)
  | .oldSymVal => (getSymAddress bins reg.u).toOption
  | _ => none

/-- The bytes a register stands for, in the original memory. -/
def registerBytes (state : SpecialRegsState) (reg : PoReg) : Option (List UInt8) :=
  match reg.type with
  | .currTargNew => some (orig.read (state.currAddrNew + addrOfInt reg.u) reg.size.toInt.toNat)
  | .currTargOld => some (orig.read (state.currAddrOld + addrOfInt reg.u) reg.size.toInt.toNat)
  | .oldSymVal => (getSymAddress bins reg.u).toOption.map addrBytes
  | _ => none

/-- The bytes of an offset rule, by the size of its left-hand side or one word; a negative size clears what is
left of the word. -/
def offsetBytes (state : SpecialRegsState) (rule : PoRegRule) (dest : UInt64) : List UInt8 :=
  let size := if rule.regLH.size ≠ 0 then rule.regLH.size else 8
  if 0 ≤ size.toInt then orig.read (state.cfaValue + addrOfInt rule.offset) size.toInt.toNat
  else List.replicate (writtenCount dest size) 0

/-- The CFA of the rules: its register and offset, or zero. -/
def CfaIs (state : SpecialRegsState) (rules : Dictionary PoRegRule) (cfaValue : UInt64) : Prop :=
  match dictGet rules "\x7bCFA\x7d" with
  | some cfaRule => ∃ addr, registerAddress bins state cfaRule.regRH = some addr ∧ cfaValue = addr + addrOfInt cfaRule.offset
  | none => cfaValue = 0

/-! ## Registers -/

section
variable {process : Process H} {bins : Binaries} {orig : Memory}

theorem addrOfBytes_addrBytes (addr : UInt64) : addrOfBytes (addrBytes addr) = addr := by
  unfold addrOfBytes addrBytes
  have hlt : addr.toNat < 256 ^ 8 := addr.toNat_lt
  rw [leNat_toLE, Nat.mod_eq_of_lt hlt, UInt64.ofNat_toNat]

theorem resolveAddress_address {t : Target H} {addr : UInt64} {size : Int32} {flag : ResolveFlag} {bytes : List UInt8}
    (hflag : flag ≠ .dereference) (h : resolveAddress process t addr size flag = .ok bytes) : bytes = addrBytes addr := by
  unfold resolveAddress at h
  split at h
  · cases h
  · cases h
    rfl

theorem resolveAddress_value {t : Target H} {addr : UInt64} {size : Int32} {bytes : List UInt8}
    (h : resolveAddress process t addr size .dereference = .ok bytes) : bytes = t.bytes.read addr size.toInt.toNat := by
  unfold resolveAddress at h
  split at h
  · cases h
  · split at h
    · contradiction
    · split at h
      · cases h
      · exact memcpyFromTarget_ok h

theorem resolveRegister_address {t : Target H} {reg : PoReg} {state : SpecialRegsState} {flag : ResolveFlag}
    {bytes : List UInt8}
    (hflag : flag ≠ .dereference) (h : resolveRegisterValue process bins t reg state flag = .ok bytes) :
    registerAddress bins state reg = some (addrOfBytes bytes) := by
  unfold resolveRegisterValue at h
  unfold registerAddress
  cases hreg : reg.type with
  | currTargNew =>
    rw [hreg] at h
    rw [resolveAddress_address hflag h, addrOfBytes_addrBytes]
  | currTargOld =>
    rw [hreg] at h
    dsimp only at h
    split at h
    · cases h
    · rw [resolveAddress_address hflag h, addrOfBytes_addrBytes]
  | oldSymVal =>
    rw [hreg] at h
    dsimp only at h
    split at h
    · cases h
    · obtain ⟨addr, haddr, h⟩ := bind_eq_ok.mp h
      cases h
      rw [haddr, addrOfBytes_addrBytes]
      rfl
  | _ =>
    rw [hreg] at h
    cases h

theorem resolveRegister_value {t : Target H} {reg : PoReg} {state : SpecialRegsState} {bytes : List UInt8}
    (h : resolveRegisterValue process bins t reg state .dereference = .ok bytes) :
    registerBytes bins t.bytes state reg = some bytes := by
  unfold resolveRegisterValue at h
  unfold registerBytes
  cases hreg : reg.type with
  | currTargNew =>
    rw [hreg] at h
    rw [resolveAddress_value h]
  | currTargOld =>
    rw [hreg] at h
    rw [resolveAddress_value h]
  | oldSymVal =>
    rw [hreg] at h
    obtain ⟨addr, haddr, h⟩ := bind_eq_ok.mp h
    cases h
    rw [haddr]
    rfl
  | _ =>
    rw [hreg] at h
    cases h

theorem resolveToAddress_address {t : Target H} {reg : PoReg} {state : SpecialRegsState} {flag : ResolveFlag} {f : Fault}
    {addr : UInt64} (hflag : flag ≠ .dereference) (h : resolveToAddress process bins t reg state flag f = .ok addr) :
    registerAddress bins state reg = some addr := by
  unfold resolveToAddress at h
  obtain ⟨bytes, hbytes, h⟩ := bind_eq_ok.mp h
  split at h
  · cases h
    exact resolveRegister_address hflag hbytes
  · cases h

theorem resolveToAddress_value {t : Target H} {reg : PoReg} {state : SpecialRegsState} {f : Fault} {addr : UInt64}
    (h : resolveToAddress process bins t reg state .dereference f = .ok addr) :
    ∃ bytes, registerBytes bins t.bytes state reg = some bytes ∧ addrOfBytes bytes = addr := by
  unfold resolveToAddress at h
  obtain ⟨bytes, hbytes, h⟩ := bind_eq_ok.mp h
  split at h
  · cases h
    exact ⟨bytes, resolveRegister_value hbytes, rfl⟩
  · cases h

theorem cfaValueOf_ok {t : Target H} {rules : Dictionary PoRegRule} {state : SpecialRegsState} {cfaValue : UInt64}
    (h : cfaValueOf process bins t rules state = .ok cfaValue) : CfaIs bins state rules cfaValue := by
  unfold cfaValueOf at h
  unfold CfaIs
  rw [show strForReg cfaReg = .ok "\x7bCFA\x7d" from rfl, bind_ok] at h
  cases hget : dictGet rules "\x7bCFA\x7d" with
  | some cfaRule =>
    simp only [hget] at h ⊢
    obtain ⟨addr, haddr, h⟩ := bind_eq_ok.mp h
    cases h
    exact ⟨addr, resolveToAddress_address (by decide) haddr, rfl⟩
  | none =>
    simp only [hget] at h ⊢
    cases h
    rfl

/-! ## The list of patches -/

/-- The end pointer of a list built from its items. -/
def lastNode {α : Type} (l : List α) : Option Nat := if l.isEmpty then none else some (l.length - 1)

/-- With the end of the first list at hand nothing of either list is lost. -/
theorem concatLists_append {α : Type} (l1 l2 : List α) :
    concatLists l1 (lastNode l1) l2 none = .ok (l1 ++ l2, lastNode (l1 ++ l2)) := by
  cases l1 with
  | nil =>
    cases l2 with
    | nil => rfl
    | cons b l2 => rfl
  | cons a l1 =>
    cases l2 with
    | nil => simp [concatLists, lastNode]
    | cons b l2 =>
      have hall : (a :: l1).take (l1.length + 1) = a :: l1 := List.take_of_length_le (Nat.le_refl _)
      have hend : l1.length + 1 + ((b :: l2).length - 1) = ((a :: l1) ++ (b :: l2)).length - 1 := by
        simp only [List.length_append, List.length_cons]
        omega
      show Except.ok ((a :: l1).take (l1.length + 1) ++ b :: l2, some (l1.length + 1 + ((b :: l2).length - 1))) = _
      rw [hall, hend]
      rfl

def PatchData.assignment (pd : PatchData) : Assignment := (pd.addr, pd.data.take (writtenCount pd.addr pd.len.toInt32))

theorem len_toInt (len : UInt32) : len.toInt32.toInt = if len.toNat < 2 ^ 31 then
    (len.toNat : Int) else len.toNat - 2 ^ 32 := by
  have hcond := BitVec.toInt_eq_toNat_cond len.toInt32.toBitVec
  have hnat : len.toInt32.toBitVec.toNat = len.toNat := rfl
  have hint : len.toInt32.toBitVec.toInt = len.toInt32.toInt := rfl
  rw [hnat, hint] at hcond
  rw [hcond]
  split <;> split <;> omega

theorem writtenCount_le (pd : PatchData) : writtenCount pd.addr pd.len.toInt32 ≤ pd.data.length := by
  have hlen := len_toInt pd.len
  rw [pd.size]
  unfold writtenCount
  split at hlen <;> split <;> omega

/-- A patch of fewer than 2^31 bytes is written as a whole. -/
theorem assignment_of_small {pd : PatchData} (h : pd.data.length < 2 ^ 31) : pd.assignment = (pd.addr, pd.data) := by
  have hlen := len_toInt pd.len
  rw [pd.size] at h
  unfold PatchData.assignment writtenCount
  rw [if_pos h] at hlen
  rw [if_pos (by omega), List.take_of_length_le (by rw [pd.size]; omega)]

theorem assignment_pointer (addr value : UInt64) : (PatchData.pointer addr value).assignment = (addr, addrBytes value) :=
  assignment_of_small (by
    rw [(PatchData.pointer addr value).size]
    show (8 : UInt32).toNat < 2 ^ 31
    decide)

theorem applyPatches_ok {patches : List PatchData} {vm vm' : VM H} (h : applyPatches process patches vm = .ok ⟨⟩ vm') :
    vm' = { vm with target := { vm.target with bytes := vm.target.bytes.writeAll (patches.map PatchData.assignment) } } := by
  induction patches generalizing vm with
  | nil =>
    cases h
    rfl
  | cons pd li ih =>
    unfold applyPatches at h
    rw [run_bind_of_ok (get_run vm)] at h
    obtain ⟨target, hwrite, h⟩ := lift_bind_ok.mp h
    rw [run_bind_of_ok (modify_run _ _)] at h
    rw [ih h, memcpyToTarget_ok (writtenCount_le pd) hwrite]
    rfl

theorem ofBytes_ok {addr : UInt64} {data : List UInt8} {pd : PatchData} (h : PatchData.ofBytes addr data = .ok pd) :
    pd.addr = addr ∧ pd.data = data := by
  unfold PatchData.ofBytes at h
  split at h
  · cases h
    exact ⟨rfl, rfl⟩
  · cases h

/-- The patch of an offset rule. -/
theorem offset_assignment {t : Target H} {rule : PoRegRule} {state : SpecialRegsState} {dest : UInt64} {len : UInt32}
    {read : List UInt8} {pd : PatchData} (hlen : len = if rule.regLH.size ≠ 0 then rule.regLH.size.toUInt32 else 8)
    (hread : memcpyFromTarget process t (state.cfaValue + addrOfInt rule.offset) len.toInt32 = .ok read)
    (hpd : PatchData.ofBytes dest (read ++ List.replicate (len.toNat - read.length) 0) = .ok pd) :
    pd.assignment = (dest, offsetBytes t.bytes state rule dest) := by
  generalize hsize : (if rule.regLH.size ≠ 0 then rule.regLH.size else 8 : Int32) = size
  have hint : len.toInt32 = size := by
    rw [hlen, ← hsize]
    split <;> rfl
  obtain ⟨haddr, hdata⟩ := ofBytes_ok hpd
  have hcount := writtenCount_le pd
  have hlong : len.toNat = size.toInt.toNat ∨ size.toInt < 0 := by
    have htoInt := len_toInt len
    have hlt := len.toNat_lt
    rw [hint] at htoInt
    split at htoInt
    · left
      omega
    · right
      omega
  rw [memcpyFromTarget_ok hread, hint, Memory.length_read] at hdata
  unfold offsetBytes
  simp only [hsize]
  split
  · rename_i hnonneg
    have hfull : len.toNat - size.toInt.toNat = 0 := by omega
    rw [hfull, List.replicate_zero, List.append_nil] at hdata
    have hsmall : pd.data.length < 2 ^ 31 := by
      have hlt := size.toInt_lt
      rw [hdata, Memory.length_read]
      omega
    rw [assignment_of_small hsmall, haddr, hdata]
  · rename_i hneg
    have hnone : size.toInt.toNat = 0 := by omega
    rw [hnone, Nat.sub_zero] at hdata
    have hzeros : pd.data = List.replicate len.toNat 0 := hdata
    have hpdlen : pd.len = len := by
      have hsame := pd.size
      rw [hzeros, List.length_replicate] at hsame
      exact (UInt32.toNat_inj.mp hsame).symm
    rw [haddr, hpdlen, hint, hzeros, List.length_replicate] at hcount
    unfold PatchData.assignment
    rw [haddr, hpdlen, hint, hzeros, List.take_replicate, Nat.min_eq_left hcount]

theorem resolveRegister_length {t : Target H} {reg : PoReg} {state : SpecialRegsState} {bytes : List UInt8}
    (h : resolveRegisterValue process bins t reg state .dereference = .ok bytes) : bytes.length < 2 ^ 31 := by
  have hlt := reg.size.toInt_lt
  have hvalue := resolveRegister_value h
  unfold registerBytes at hvalue
  split at hvalue
  · cases hvalue
    rw [Memory.length_read]
    omega
  · cases hvalue
    rw [Memory.length_read]
    omega
  · obtain ⟨addr, -, rfl⟩ := Option.map_eq_some_iff.mp hvalue
    rw [addrBytes, length_toLE]
    decide
  · cases hvalue

theorem bytes_step (root : FDE) (orig : Memory) : StepInvariant bins root fun vm : VM H => vm.target.bytes = orig where
  stack := fun _ _ _ hvm _ _ => hvm
  move := fun _ _ _ _ _ hvm _ _ _ _ => hvm

theorem applyPatches_ends (patches : List PatchData) (vm : VM H) : Ends .outOfFuel (applyPatches process patches) vm := by
  induction patches generalizing vm with
  | nil => exact ends_pure _ _
  | cons pd li ih =>
    exact ends_of_ok (get_run vm) (ends_bind (ends_lift _ _) fun target vm1 _ => ends_of_ok (modify_run _ vm1) (ih _))

end

end Katana

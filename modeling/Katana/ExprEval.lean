/-
  Katana.ExprEval — evaluating a DWARF expression (popDWVMStack, pushDWVMStack and evaluateDwarfExpression
  in dwarfvm.c).

  The stack is allocated for ten words more than it starts with. Where it is copied in and where it is
  grown, its size in words is taken for one in bytes. A word outside the allocation is undefined.

  Proved, for every starting stack and all operands:
  - `expressionLoop_plusUconsts` / `expressionLoop_padded`: the operands are added up, unless one of them is
    longer than any 64-bit numeral needs to be.
  - `evaluatesRight_iff`: the result is right exactly if the copy has the right top.
-/
import Katana.DwarfVm

namespace Katana

open Lib

/-! ## The stack -/

/-- `words` are the `stackLen` words from the bottom on; `allocatedBytes` is what was asked of the allocator. -/
structure DwvmStack where
  words : List UInt64
  stackAlloced : Nat
  allocatedBytes : Nat
  deriving DecidableEq, Repr

def popDWVMStack (st : DwvmStack) : Except Fault (UInt64 × DwvmStack) :=
  match st.words.getLast? with
  | none => .error (.death "Attempt to pop empty Dwarf stack\n")
  | some top => do
    defined (8 * st.words.length ≤ st.allocatedBytes)
    .ok (top, { st with words := st.words.dropLast })

/-- `realloc(stack,*stackAlloced)`, a number of words. -/
def DwvmStack.grow (st : DwvmStack) : Except Fault DwvmStack := do
  defined (2 * st.stackAlloced < 2 ^ 31)
  .ok { st with stackAlloced := max (2 * st.stackAlloced) 2, allocatedBytes := max (2 * st.stackAlloced) 2 }

def pushDWVMStack (st : DwvmStack) (value : UInt64) : Except Fault DwvmStack := do
  let st ← if st.words.length + 1 = st.stackAlloced then st.grow else .ok st
  defined (8 * (st.words.length + 1) ≤ st.allocatedBytes)
  .ok { st with words := st.words ++ [value] }

/-! ## evaluateDwarfExpression -/

/-- `memcpy(stack,startingStack,stackLen)` into words that are zero. -/
def copiedBytes (startingStack : List UInt64) : List UInt8 :=
  (startingStack.flatMap addrBytes).take startingStack.length ++ List.replicate (7 * startingStack.length) 0

def startWord (startingStack : List UInt64) (i : Nat) : UInt64 :=
  addrOfBytes (((copiedBytes startingStack).drop (8 * i)).take 8)

def startStack (startingStack : List UInt64) : DwvmStack where
  words := (List.range startingStack.length).map (startWord startingStack)
  stackAlloced := startingStack.length + 10
  allocatedBytes := 8 * (startingStack.length + 10)

/-- The loop from `cnt` on, with at most `fuel` bytes left. -/
def expressionLoop (bytes : List UInt8) : Nat → Nat → DwvmStack → Except Fault (Nat × DwvmStack)
  | 0, cnt, st => .ok (cnt, st)
  | fuel + 1, cnt, st =>
    match bytes.drop cnt with
    | [] => .ok (cnt, st)
    | op :: rest =>
      if op.toNat = DwOp.plusUconst.code then do
        let (top, st) ← popDWVMStack st
        let (uconst, bytesRead) ← leb128ToUWord rest
        let st ← pushDWVMStack st (top + UInt64.ofNat uconst)
        expressionLoop bytes fuel (cnt + 1 + bytesRead) st
      else .error (.death ("Dwarf expression operand " ++ toString op.toNat ++ " not supported yet\n"))

/-- Where the loop stops, and the stack it leaves. -/
def runDwarfExpression (bytes : List UInt8) (startingStack : List UInt64) : Except Fault (Nat × DwvmStack) := do
  defined (startingStack.length + 10 < 2 ^ 31)
  expressionLoop bytes bytes.length 0 (startStack startingStack)

def evaluateDwarfExpression (bytes : List UInt8) (startingStack : List UInt64) : Except Fault UInt64 := do
  let (_, st) ← runDwarfExpression bytes startingStack
  let (result, _) ← popDWVMStack st
  .ok result

/-! ## Additions -/

structure Uconst where
  numeral : Numeral
  value_lt : numeral.value < 2 ^ 64

namespace Uconst

def value (u : Uconst) : UInt64 := UInt64.ofNat u.numeral.value

def bytes (u : Uconst) : List UInt8 := UInt8.ofNat DwOp.plusUconst.code :: u.numeral.bytes

def total : List Uconst → UInt64
  | [] => 0
  | u :: operands => u.value + total operands

/-- No longer than a 64-bit numeral has to be. -/
def Short (u : Uconst) : Prop := u.numeral.length ≤ 10

instance (u : Uconst) : Decidable u.Short := inferInstanceAs (Decidable (_ ≤ _))

/-- A numeral of 64 bits is read as eight bytes unless it is padded past ten. -/
theorem unsignedBytes_le (u : Uconst) : unsignedBytes u.numeral.value u.numeral.length ≤ 8 ↔ u.Short := by
  have hpos := u.numeral.length_pos
  unfold unsignedBytes Short
  constructor
  · intro h
    split at h <;> omega
  · intro h
    have hcases : u.numeral.length ≤ 9 ∨ u.numeral.length = 10 := by omega
    rcases hcases with h9 | h10
    · split <;> omega
    · have hdiv : u.numeral.value / 256 ^ 8 = 0 := Nat.div_eq_of_lt u.value_lt
      rw [h10, if_pos (.inr ⟨hdiv, by norm_num⟩)]

theorem read_short {u : Uconst} (h : u.Short) (rest : List UInt8) :
    leb128ToUWord (u.numeral.bytes ++ rest) = .ok (u.numeral.value, u.numeral.length) := by
  rw [leb128ToUWord_numeral (lt_of_le_of_lt h (by norm_num)), if_pos (u.unsignedBytes_le.mpr h)]

/-- Past ten bytes the reading fails, or it comes back into the numeral. -/
theorem read_padded {u : Uconst} (h : ¬ u.Short) (rest : List UInt8) :
    (∃ e, leb128ToUWord (u.numeral.bytes ++ rest) = .error e) ∨
      ∃ v k, leb128ToUWord (u.numeral.bytes ++ rest) = .ok (v, k) ∧ k + 1 < u.numeral.length := by
  by_cases hlen : u.numeral.length < 65536
  · left
    rw [leb128ToUWord_numeral hlen, if_neg (mt u.unsignedBytes_le.mp h)]
    exact ⟨_, rfl⟩
  · cases hread : leb128ToUWord (u.numeral.bytes ++ rest) with
    | error e => exact .inl ⟨e, rfl⟩
    | ok r =>
      right
      refine ⟨r.1, r.2, rfl, ?_⟩
      rw [leb128ToUWord_length hread]
      unfold usint
      omega

end Uconst

def plusUconsts (operands : List Uconst) : List UInt8 := operands.flatMap Uconst.bytes

@[simp] theorem plusUconsts_nil : plusUconsts [] = [] := rfl

@[simp] theorem plusUconsts_cons (u : Uconst) (operands : List Uconst) :
    plusUconsts (u :: operands) = u.bytes ++ plusUconsts operands := rfl

@[simp] theorem length_uconst (u : Uconst) : u.bytes.length = u.numeral.length + 1 := by
  simp [Uconst.bytes]

/-- A byte of a numeral that is not its last one has its top bit set. -/
theorem marked_byte {n : Numeral} {k : Nat} (hk : k + 1 < n.length) (rest : List UInt8) :
    ∃ op tail, (n.bytes ++ rest).drop k = op :: tail ∧ 128 ≤ op.toNat := by
  have hlt : k < n.length := by omega
  have hdigits : (n.dropTo k hlt).digits.length = n.length - k := n.length_dropTo k hlt
  cases hl : (n.dropTo k hlt).digits with
  | nil => exact absurd hl (n.dropTo k hlt).digits_ne
  | cons d l =>
    have hne : l ≠ [] := by
      rintro rfl
      rw [hl] at hdigits
      simp at hdigits
      omega
    have hd : d < 128 := (n.dropTo k hlt).digits_lt d (by rw [hl]; exact List.mem_cons_self)
    have hbytes : n.bytes.drop k = UInt8.ofNat (d + 128) :: mark l := by
      rw [← n.bytes_dropTo k hlt, Numeral.bytes, hl, mark_cons hne]
    refine ⟨_, mark l ++ rest, by rw [List.drop_append_of_le_length (by rw [n.length_bytes]; omega), hbytes]; rfl, ?_⟩
    rw [UInt8.toNat_ofNat']
    omega

section Loop
variable {bytes : List UInt8}

theorem popDWVMStack_top {st : DwvmStack} {words : List UInt64} {top : UInt64} (hwords : st.words = words ++ [top])
    (halloc : 8 * st.words.length ≤ st.allocatedBytes) :
    popDWVMStack st = .ok (top, { st with words }) := by
  unfold popDWVMStack
  rw [hwords, List.getLast?_concat] at *
  dsimp only
  rw [defined_of halloc, bind_ok, List.dropLast_concat]

/-- While there is room, a push only adds the word. -/
theorem pushDWVMStack_room {st : DwvmStack} (hroom : st.words.length + 1 < st.stackAlloced)
    (halloc : 8 * st.stackAlloced ≤ st.allocatedBytes) (value : UInt64) :
    pushDWVMStack st value = .ok { st with words := st.words ++ [value] } := by
  unfold pushDWVMStack
  rw [if_neg (by omega), bind_ok]
  dsimp only
  rw [defined_of (by omega), bind_ok]

/-- The stack has a top, and room for another word. -/
structure Room (st : DwvmStack) (words : List UInt64) (top : UInt64) : Prop where
  words_eq : st.words = words ++ [top]
  room : st.words.length < st.stackAlloced
  alloc : 8 * st.stackAlloced ≤ st.allocatedBytes

theorem Room.replaced {st : DwvmStack} {words : List UInt64} {top : UInt64} (h : Room st words top) (value : UInt64) :
    Room { st with words := words ++ [value] } words value := by
  have hroom := h.room
  rw [h.words_eq, List.length_append] at hroom
  exact ⟨rfl, by simpa using hroom, h.alloc⟩

/-- At an addition the top is replaced, whatever is read for the operand. -/
theorem expressionLoop_uconst {st : DwvmStack} {words : List UInt64} {top : UInt64} (hst : Room st words top) {u : Uconst}
    {cnt fuel : Nat} {rest : List UInt8} (hbytes : bytes.drop cnt = u.bytes ++ rest) :
    expressionLoop bytes (fuel + 1) cnt st = (leb128ToUWord (u.numeral.bytes ++ rest) >>= fun r =>
      expressionLoop bytes fuel (cnt + 1 + r.2) { st with words := words ++ [top + UInt64.ofNat r.1] }) := by
  have hroom := hst.room
  have halloc := hst.alloc
  have hlen : words.length + 1 = st.words.length := by simp [hst.words_eq]
  have hpop := popDWVMStack_top hst.words_eq (by omega)
  have hcode : (UInt8.ofNat DwOp.plusUconst.code).toNat = DwOp.plusUconst.code := rfl
  rw [expressionLoop, hbytes, Uconst.bytes, List.cons_append]
  dsimp only
  rw [if_pos hcode, hpop, bind_ok]
  cases leb128ToUWord (u.numeral.bytes ++ rest) with
  | error e => rfl
  | ok r =>
    have hpush := @pushDWVMStack_room { st with words } (by dsimp only; omega) halloc (top + UInt64.ofNat r.1)
    rw [bind_ok, bind_ok]
    dsimp only
    rw [hpush, bind_ok]

/-- One addition of an operand that is short enough. -/
theorem expressionLoop_step {st : DwvmStack} {words : List UInt64} {top : UInt64} (hst : Room st words top) {u : Uconst}
    (hu : u.Short) {cnt fuel : Nat} {rest : List UInt8} (hbytes : bytes.drop cnt = u.bytes ++ rest) :
    expressionLoop bytes (fuel + 1) cnt st =
      expressionLoop bytes fuel (cnt + u.bytes.length) { st with words := words ++ [top + u.value] } := by
  rw [expressionLoop_uconst hst hbytes, Uconst.read_short hu, bind_ok, length_uconst, Nat.add_assoc, Nat.add_comm 1]
  rfl

theorem drop_behind {cnt : Nat} {l rest : List UInt8} (h : bytes.drop cnt = l ++ rest) :
    bytes.drop (cnt + l.length) = rest := by
  rw [← List.drop_drop, h, List.drop_left' rfl]

/-- **The operands are added up**, and the whole string is consumed. -/
theorem expressionLoop_plusUconsts {operands : List Uconst} (hshort : ∀ u ∈ operands, u.Short) {st : DwvmStack}
    {words : List UInt64} {top : UInt64} (hst : Room st words top) {cnt fuel : Nat}
    (hbytes : bytes.drop cnt = plusUconsts operands) (hfuel : (plusUconsts operands).length ≤ fuel) :
    expressionLoop bytes fuel cnt st = .ok (cnt + (plusUconsts operands).length,
      { st with words := words ++ [top + Uconst.total operands] }) := by
  induction operands generalizing st top cnt fuel with
  | nil =>
    have hsame : { st with words := words ++ [top + Uconst.total []] } = st := by
      rw [Uconst.total, UInt64.add_zero, ← hst.words_eq]
    rw [hsame]
    cases fuel with
    | zero => rfl
    | succ fuel => rw [expressionLoop, hbytes]; rfl
  | cons u operands ih =>
    rw [plusUconsts_cons] at hbytes hfuel ⊢
    rw [List.length_append, length_uconst] at hfuel
    obtain ⟨fuel, rfl⟩ : ∃ n, fuel = n + 1 := ⟨fuel - 1, by omega⟩
    rw [expressionLoop_step hst (hshort u List.mem_cons_self) hbytes,
      ih (fun v hv => hshort v (List.mem_cons_of_mem _ hv)) (hst.replaced _) (drop_behind hbytes) (by omega),
      Uconst.total, UInt64.add_assoc, List.length_append, Nat.add_assoc]

/-- A byte of no operation ends the loop. -/
theorem expressionLoop_marked {cnt fuel : Nat} {op : UInt8} {tail : List UInt8} (hbytes : bytes.drop cnt = op :: tail)
    (hop : 128 ≤ op.toNat) (st : DwvmStack) : ∃ e, expressionLoop bytes (fuel + 1) cnt st = .error e := by
  rw [expressionLoop, hbytes]
  dsimp only
  have hne : ¬ op.toNat = DwOp.plusUconst.code := by
    intro h
    rw [h] at hop
    exact absurd hop (by decide)
  rw [if_neg hne]
  exact ⟨_, rfl⟩

/-- One operand that is padded too far is never added. -/
theorem expressionLoop_padded {operands : List Uconst} (hpadded : ∃ u ∈ operands, ¬ u.Short) {st : DwvmStack}
    {words : List UInt64} {top : UInt64} (hst : Room st words top) {cnt fuel : Nat}
    (hbytes : bytes.drop cnt = plusUconsts operands) (hfuel : (plusUconsts operands).length ≤ fuel) :
    ∃ e, expressionLoop bytes fuel cnt st = .error e := by
  induction operands generalizing st top cnt fuel with
  | nil => simp at hpadded
  | cons u operands ih =>
    rw [plusUconsts_cons] at hbytes hfuel
    rw [List.length_append, length_uconst] at hfuel
    obtain ⟨fuel, rfl⟩ : ∃ n, fuel = n + 1 := ⟨fuel - 1, by omega⟩
    by_cases hu : u.Short
    · rw [expressionLoop_step hst hu hbytes]
      refine ih ?_ (hst.replaced _) (drop_behind hbytes) (by omega)
      obtain ⟨v, hv, hlong⟩ := hpadded
      rcases List.mem_cons.mp hv with rfl | hv
      · exact absurd hu hlong
      · exact ⟨v, hv, hlong⟩
    · rw [expressionLoop_uconst hst hbytes]
      rcases Uconst.read_padded hu (plusUconsts operands) with ⟨e, hread⟩ | ⟨v, k, hread, hk⟩
      · rw [hread, bind_error]
        exact ⟨e, rfl⟩
      · rw [hread, bind_ok]
        -- the next operation would be a byte of this numeral
        obtain ⟨op, tail, hdrop, hop⟩ := marked_byte hk (plusUconsts operands)
        obtain ⟨fuel, rfl⟩ : ∃ n, fuel = n + 1 := ⟨fuel - 1, by omega⟩
        have hinside : bytes.drop (cnt + 1 + k) = op :: tail := by
          rw [Nat.add_assoc, Nat.add_comm 1, ← List.drop_drop, hbytes, ← hdrop]
          rfl
        exact expressionLoop_marked hinside hop _

end Loop

/-! ## The starting stack -/

theorem leNat_zeros (k : Nat) : leNat (List.replicate k 0) = 0 := by
  induction k with
  | zero => rfl
  | succ k ih => rw [List.replicate_succ, leNat_cons, ih]; rfl

/-- The first byte of the first word is copied for one word, and none of the last word's for more. -/
theorem startWord_top (below : List UInt64) (top : UInt64) :
    startWord (below ++ [top]) below.length = if below = [] then UInt64.ofNat (top.toNat % 256) else 0 := by
  unfold startWord copiedBytes addrOfBytes
  by_cases hbelow : below = []
  · subst hbelow
    have hbytes : (addrBytes top).take 1 = toLE 1 top.toNat := take_toLE (by norm_num)
    rw [if_pos rfl]
    refine congrArg UInt64.ofNat ?_
    show leNat (((((addrBytes top) ++ []).take 1 ++ List.replicate 7 0).drop 0).take 8) = _
    rw [List.append_nil, hbytes, List.drop_zero, List.take_of_length_le (by simp), leNat_append, leNat_toLE]
    rfl
  · have hpos := List.length_pos_iff.mpr hbelow
    rw [if_neg hbelow]
    have hskip : (((below ++ [top]).flatMap addrBytes).take (below ++ [top]).length).length ≤ 8 * below.length := by
      simp
      omega
    rw [List.drop_append, List.drop_eq_nil_of_le hskip, List.nil_append, List.drop_replicate, List.take_replicate,
      leNat_zeros]
    rfl

theorem startStack_room (below : List UInt64) (top : UInt64) :
    Room (startStack (below ++ [top])) ((List.range below.length).map (startWord (below ++ [top])))
      (startWord (below ++ [top]) below.length) := by
  constructor
  · simp [startStack, List.range_succ]
  · simp [startStack]
  · exact le_rfl

/-! ## The result -/

/-- The whole string is consumed, and the result is the top with all operands added. No word outside the stack is
accessed on the way, which would be undefined. -/
def EvaluatesRight (below : List UInt64) (top : UInt64) (operands : List Uconst) : Prop :=
  (∃ st, runDwarfExpression (plusUconsts operands) (below ++ [top]) = .ok ((plusUconsts operands).length, st)) ∧
    evaluateDwarfExpression (plusUconsts operands) (below ++ [top]) = .ok (top + Uconst.total operands)

/-- The copy has the right top: a single word of a byte, or a zero on others. -/
def TopCopied (below : List UInt64) (top : UInt64) : Prop := if below = [] then top < 256 else top = 0

theorem topCopied_iff (below : List UInt64) (top : UInt64) :
    startWord (below ++ [top]) below.length = top ↔ TopCopied below top := by
  rw [startWord_top]
  unfold TopCopied
  split
  · rw [← UInt64.toNat_inj, UInt64.toNat_ofNat_of_lt' (lt_of_lt_of_le (Nat.mod_lt _ (by norm_num)) (by decide)),
      UInt64.lt_iff_toNat_lt]
    constructor
    · intro h
      show top.toNat < 256
      omega
    · intro h
      exact Nat.mod_eq_of_lt h
  · exact eq_comm

/-- **The result is right** exactly if the copy's top is, no operand is padded past ten bytes, and the stack's length
leaves room for ten words more in an int. -/
theorem evaluatesRight_iff (below : List UInt64) (top : UInt64) (operands : List Uconst) :
    EvaluatesRight below top operands ↔
      TopCopied below top ∧ (∀ u ∈ operands, u.Short) ∧ below.length + 11 < 2 ^ 31 := by
  have hroom := startStack_room below top
  have hwhole : (plusUconsts operands).drop 0 = plusUconsts operands := rfl
  have hlen : (below ++ [top]).length + 10 = below.length + 11 := by simp
  unfold EvaluatesRight evaluateDwarfExpression runDwarfExpression
  rw [hlen]
  by_cases hint : below.length + 11 < 2 ^ 31
  · rw [defined_of hint, bind_ok]
    by_cases hshort : ∀ u ∈ operands, u.Short
    · have hloop := expressionLoop_plusUconsts hshort hroom hwhole le_rfl
      rw [Nat.zero_add] at hloop
      have hpop := @popDWVMStack_top _ _ _ (hroom.replaced (startWord (below ++ [top]) below.length +
        Uconst.total operands)).words_eq
        ((Nat.mul_le_mul_left 8 (hroom.replaced _).room.le).trans hroom.alloc)
      rw [hloop, bind_ok]
      dsimp only
      rw [hpop, bind_ok, ← topCopied_iff]
      constructor
      · intro h
        refine ⟨?_, hshort, hint⟩
        exact (UInt64.add_left_inj _).mp (Except.ok.inj h.2)
      · intro h
        rw [h.1]
        exact ⟨⟨_, rfl⟩, rfl⟩
    · have hlong : ∃ u ∈ operands, ¬ u.Short := by
        simpa using hshort
      obtain ⟨e, hloop⟩ := expressionLoop_padded hlong hroom hwhole le_rfl
      rw [hloop, bind_error]
      refine iff_of_false ?_ (fun h => hshort h.2.1)
      intro h
      cases h.2
  · rw [defined_not hint, bind_error]
    refine iff_of_false ?_ (fun h => hint h.2.2)
    intro h
    cases h.2

/-- The offset of a field added to 256. -/
theorem not_evaluatesRight : ¬ ∀ (below : List UInt64) (top : UInt64) (operands : List Uconst),
    EvaluatesRight below top operands := by
  intro h
  have hresult := (h [] 256 []).2
  exact absurd hresult (by decide)

end Katana

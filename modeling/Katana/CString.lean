/-
  Katana.CString — C strings: the bytes before the first NUL of a buffer.
-/
import Mathlib.Data.List.TakeWhile

namespace Katana

/-- The string at the start of a buffer. -/
def stringOf (buf : List UInt8) : List UInt8 := buf.takeWhile (· ≠ 0)

section
variable {str : List UInt8}

theorem stringOf_append (h : 0 ∉ str) (rest : List UInt8) : stringOf (str ++ rest) = str ++ stringOf rest :=
  List.takeWhile_append_of_pos fun b hb => decide_eq_true fun hzero : b = 0 => h (hzero ▸ hb)

@[simp] theorem stringOf_nul (rest : List UInt8) : stringOf (0 :: rest) = [] := rfl

theorem stringOf_of (h : 0 ∉ str) : stringOf str = str := by
  have happend := stringOf_append h []
  rwa [List.append_nil, show stringOf [] = [] from rfl, List.append_nil] at happend

theorem stringOf_terminated (h : 0 ∉ str) (rest : List UInt8) : stringOf (str ++ 0 :: rest) = str := by
  rw [stringOf_append h, stringOf_nul, List.append_nil]

theorem mem_stringOf {b : UInt8} (h : b ∈ stringOf str) : b ≠ 0 ∧ b ∈ str :=
  ⟨of_decide_eq_true (List.mem_takeWhile_imp (p := fun b => decide (b ≠ 0)) h), (List.takeWhile_prefix _).subset h⟩

end

namespace Nodes

structure CString where
  bytes : List UInt8
  noNul : 0 ∉ bytes
  deriving DecidableEq

def strlen (str : CString) : Nat := str.bytes.length

/-- What is read up to the NUL. -/
theorem CString.takeWhile_nul (str : CString) (rest : List UInt8) :
    (str.bytes ++ 0 :: rest).takeWhile (· ≠ 0) = str.bytes := stringOf_terminated str.noNul rest

end Nodes

end Katana

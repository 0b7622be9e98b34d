/-
  Katana.Lib.Framing — records that start with their own length.

  A stream of records is walked by the length fields alone. `framed` puts the four-byte length in
  front of a body, `starts` is where each record of a list begins, and `walk` follows the lengths.

  Proved:
  - `walk_framed`: the walk over a list of records visits exactly their starts and ends with them.
-/
import Katana.Lib.Digits

namespace Katana.Lib

/-- A record: the length of its body in four bytes, and the body. -/
def framed (body : List UInt8) : List UInt8 := toLE 4 body.length ++ body

/-- Where the records of a list start, the first of them at `off`. -/
def starts (off : Nat) : List (List UInt8) → List Nat
  | [] => []
  | body :: bodies => off :: starts (off + 4 + body.length) bodies

/-- The positions visited from `off` on; none when a length goes past the end. -/
def walk : Nat → Nat → List UInt8 → Option (List Nat)
  | _, _, [] => some []
  | 0, _, _ :: _ => none
  | fuel + 1, off, b :: data =>
    let length := leNat ((b :: data).take 4)
    if 4 + length ≤ (b :: data).length then
      (walk fuel (off + 4 + length) ((b :: data).drop (4 + length))).map (off :: ·)
    else none

@[simp] theorem length_framed (body : List UInt8) : (framed body).length = 4 + body.length := by simp [framed]

@[simp] theorem length_starts (off : Nat) (bodies : List (List UInt8)) : (starts off bodies).length = bodies.length := by
  induction bodies generalizing off with
  | nil => rfl
  | cons body bodies ih => simp [starts, ih]

theorem le_of_mem_starts {off x : Nat} {bodies : List (List UInt8)} (h : x ∈ starts off bodies) : off ≤ x := by
  induction bodies generalizing off with
  | nil => cases h
  | cons body bodies ih =>
    rcases List.mem_cons.mp h with rfl | h
    · exact le_rfl
    · have := ih h
      omega

theorem starts_append (off : Nat) (l m : List (List UInt8)) :
    starts off (l ++ m) = starts off l ++ starts (off + (l.map framed).flatten.length) m := by
  induction l generalizing off with
  | nil => simp [starts]
  | cons body l ih =>
    rw [List.cons_append, starts, starts, ih, List.cons_append, List.map_cons, List.flatten_cons, List.length_append,
      length_framed, Nat.add_assoc off 4, Nat.add_assoc off]

/-- One step: a record is followed by what comes after it. -/
theorem walk_cons {fuel off : Nat} {body data : List UInt8} (hb : body.length < 2 ^ 32) :
    walk (fuel + 1) off (framed body ++ data) = (walk fuel (off + 4 + body.length) data).map (off :: ·) := by
  have hlen : leNat ((framed body ++ data).take 4) = body.length := by
    rw [framed, List.append_assoc, List.take_left' (length_toLE _ _), leNat_toLE, Nat.mod_eq_of_lt (by norm_num; omega)]
  have hdrop : (framed body ++ data).drop (4 + body.length) = data := List.drop_left' (length_framed body)
  have hfit : 4 + body.length ≤ (framed body ++ data).length := by simp
  cases h : framed body ++ data with
  | nil => rw [h] at hfit; simp at hfit
  | cons b rest =>
    rw [h] at hlen hdrop hfit
    rw [walk]
    simp only [hlen, hdrop, if_pos hfit]

/-- **A walk by the length fields visits exactly the records.** -/
theorem walk_framed {fuel off : Nat} {bodies : List (List UInt8)} (hb : ∀ body ∈ bodies, body.length < 2 ^ 32)
    (hfuel : bodies.length ≤ fuel) : walk fuel off (bodies.map framed).flatten = some (starts off bodies) := by
  induction bodies generalizing fuel off with
  | nil => cases fuel <;> rfl
  | cons body bodies ih =>
    obtain ⟨fuel, rfl⟩ := Nat.exists_eq_add_of_le' (show 1 ≤ fuel by simp at hfuel; omega)
    rw [List.map_cons, List.flatten_cons, walk_cons (hb body (by simp)),
      ih (fun x hx => hb x (by simp [hx])) (by simpa using hfuel)]
    rfl

/-- There are no more records than bytes. -/
theorem length_le_flatten (bodies : List (List UInt8)) : bodies.length ≤ (bodies.map framed).flatten.length := by
  induction bodies with
  | nil => simp
  | cons body bodies ih =>
    rw [List.map_cons, List.flatten_cons, List.length_append, length_framed, List.length_cons]
    omega

end Katana.Lib

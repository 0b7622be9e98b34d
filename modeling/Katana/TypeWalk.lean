/-
  Katana.TypeWalk — the order in which a comparison of types goes through them (patchwrite/typediff.c).

  Which types differ does not depend on the order, and whether a transformer is given up does: where a pointer field comes
  to point to another kind of type, the transformer stays if what it pointed to has come out as different by then. The walk
  is what the recursion does with the types, as far as that, without a status and without a transformer.

  Proved, for every graph:
  - `DiffWalk.unique`: a walk that comes to its end gives nothing up on the way.
-/
import Katana.TypeDiff
import Mathlib.Computability.StateTransition

namespace Katana

open StateTransition

variable {T : Type} (types : T → TypeInfo T)

/-! ## Types that differ -/

def SameKind (a b : T) : Prop := (types a).type = (types b).type

def HeaderSame (a b : T) : Prop :=
  (types a).name = (types b).name ∧ (types a).fields.length = (types b).fields.length ∧ (types a).length = (types b).length

instance (a b : T) : Decidable (HeaderSame types a b) := inferInstanceAs (Decidable (_ ∧ _))

def ContentsChanged (a b : T) : Prop :=
  match (types a).type with
  | .struct | .union => ¬ (HeaderSame types a b ∧ fieldsUnchanged types a b = true)
  | .array => ¬ HeaderSame types a b ∨ boundsUnchanged (types a).bounds (types b).bounds = .ok false
  | .pointer | .const | .base | .void | .enum => ¬ HeaderSame types a b
  | .subroutineType => False

/-- They do not come out the same. -/
inductive Differs : T → T → Prop
  | kind {a b : T} : ¬ SameKind types a b → Differs a b
  | contents {a b : T} : SameKind types a b → ContentsChanged types a b → Differs a b
  | pointed {a b x y : T} : SameKind types a b → LooksThrough types a → (types a).pointedType = some x →
    (types b).pointedType = some y → Differs x y → Differs a b

def newField (b : T) (field : TypeField T) : Option (TypeField T) :=
  (getIndexForField (types b) field.name).bind ((types b).fields[·]?)

def IsPointer (a : T) : Prop := (types a).type = .pointer ∨ (types a).type = .const

/-! ## The walk -/

/-- What is left to be done: two types are compared, their contents are, and what comes of that is concluded; for types that
differ each field is gone through, and for a pointer field, after what it points to, its own type. -/
inductive DiffTask (T : Type) where
  | compare (a b : T)
  | contents (a b : T)
  | conclude (a b : T)
  | field (b : T) (field : TypeField T)
  | through (old new x y : T)

/-- The types whose comparison has begun, and those that have come out as different. -/
structure DiffWalk (T : Type) where
  tasks : List (DiffTask T)
  begun : Set T
  changed : Set T

namespace DiffWalk

open Classical in
/-- One step; none where the comparison does not go on, and where it gives up. -/
noncomputable def next (w : DiffWalk T) : Option (DiffWalk T) :=
  match w.tasks with
  | [] => none
  | .compare a b :: tasks =>
    if SameKind types a b ∧ a ∉ w.begun then
      some { w with tasks := .contents a b :: .conclude a b :: tasks, begun := insert a w.begun }
    else some { w with tasks }
  | .contents a b :: tasks =>
    if LooksThrough types a then
      match (types a).pointedType, (types b).pointedType with
      | some x, some y => some { w with tasks := .compare x y :: tasks }
      | _, _ => none
    else some { w with tasks }
  | .conclude a b :: tasks =>
    if Differs types a b then
      some { w with tasks := (types a).fields.map (.field b) ++ tasks, changed := insert a w.changed }
    else some { w with tasks }
  | .field b field :: tasks =>
    match newField types b field with
    | none => none
    | some new =>
      if ¬ SameKind types field.type new.type then some { w with tasks }
      else
        match (types field.type).type with
        | .base | .enum => some { w with tasks }
        | .struct | .union => some { w with tasks := .compare field.type new.type :: tasks }
        | .pointer | .const =>
          match (types field.type).pointedType, (types new.type).pointedType with
          | some x, some y => some { w with tasks := .compare x y :: .through field.type new.type x y :: tasks }
          | _, _ => none
        | _ => none
  | .through old new x y :: tasks =>
    if ¬ Differs types x y then some { w with tasks }
    else if x ∈ w.changed then some { w with tasks := .compare old new :: tasks }
    else none

/-- A pointer or const field comes to point to another kind of type, and what it pointed to has not come out as
different. -/
def GivesUp (w : DiffWalk T) : Prop :=
  ∃ old new x y tasks, w.tasks = .through old new x y :: tasks ∧ ¬ SameKind types x y ∧ x ∉ w.changed

def start (pair : T × T) : DiffWalk T := ⟨[.compare pair.1 pair.2], ∅, ∅⟩

end DiffWalk

/-- The comparison comes to a field at which it gives up. -/
def GivenUp (pair : T × T) : Prop := ∃ w, Reaches (DiffWalk.next types) (.start pair) w ∧ w.GivesUp types

section
variable {types} {pair : T × T} {w : DiffWalk T} {tasks : List (DiffTask T)} {begun changed : Set T} {a b x y old new : T}

theorem DiffWalk.GivesUp.next_eq (h : w.GivesUp types) : w.next types = none := by
  obtain ⟨old, new, x, y, tasks, htasks, hkind, hchanged⟩ := h
  unfold next
  rw [htasks]
  dsimp only
  rw [if_neg (not_not.mpr (.kind hkind)), if_neg hchanged]

/-- A walk ends in one way. -/
theorem DiffWalk.unique {w' : DiffWalk T} (h : Reaches (DiffWalk.next types) (.start pair) w) (hend : w.next types = none)
    (h' : Reaches (DiffWalk.next types) (.start pair) w') (hend' : w'.next types = none) : w = w' := by
  have hstuck : ∀ {u v : DiffWalk T}, u.next types = none → Reaches (DiffWalk.next types) u v → u = v := by
    intro u v hnone hreaches
    rcases Relation.ReflTransGen.cases_head hreaches with heq | ⟨z, hz, -⟩
    · exact heq
    · rw [hnone] at hz
      cases hz
  rcases reaches_total h h' with hreaches | hreaches
  · exact hstuck hend hreaches
  · exact (hstuck hend' hreaches).symm

/-- One that has come to its end has given nothing up. -/
theorem not_givenUp (h : Reaches (DiffWalk.next types) (.start pair) ⟨[], begun, changed⟩) : ¬ GivenUp types pair := by
  rintro ⟨w, hw, hgives⟩
  have heq := DiffWalk.unique h rfl hw hgives.next_eq
  obtain ⟨_, _, _, _, _, htasks, -⟩ := hgives
  rw [← heq] at htasks
  cases htasks

/-! ### Single steps -/

theorem next_compare (hkind : SameKind types a b) (ha : a ∉ begun) :
    DiffWalk.next types ⟨.compare a b :: tasks, begun, changed⟩ =
      some ⟨.contents a b :: .conclude a b :: tasks, insert a begun, changed⟩ := by
  unfold DiffWalk.next
  dsimp only
  rw [if_pos ⟨hkind, ha⟩]

theorem next_compared (h : ¬ (SameKind types a b ∧ a ∉ begun)) :
    DiffWalk.next types ⟨.compare a b :: tasks, begun, changed⟩ = some ⟨tasks, begun, changed⟩ := by
  unfold DiffWalk.next
  dsimp only
  rw [if_neg h]

theorem next_contents (hthrough : ¬ LooksThrough types a) :
    DiffWalk.next types ⟨.contents a b :: tasks, begun, changed⟩ = some ⟨tasks, begun, changed⟩ := by
  unfold DiffWalk.next
  dsimp only
  rw [if_neg hthrough]

theorem next_pointed (hthrough : LooksThrough types a) (hx : (types a).pointedType = some x)
    (hy : (types b).pointedType = some y) :
    DiffWalk.next types ⟨.contents a b :: tasks, begun, changed⟩ = some ⟨.compare x y :: tasks, begun, changed⟩ := by
  unfold DiffWalk.next
  dsimp only
  rw [if_pos hthrough, hx, hy]

theorem next_same (hsame : ¬ Differs types a b) :
    DiffWalk.next types ⟨.conclude a b :: tasks, begun, changed⟩ = some ⟨tasks, begun, changed⟩ := by
  unfold DiffWalk.next
  dsimp only
  rw [if_neg hsame]

theorem next_differs (hdiffers : Differs types a b) :
    DiffWalk.next types ⟨.conclude a b :: tasks, begun, changed⟩ =
      some ⟨(types a).fields.map (.field b) ++ tasks, begun, insert a changed⟩ := by
  unfold DiffWalk.next
  dsimp only
  rw [if_pos hdiffers]

section Field
variable {field newf : TypeField T} (hfound : newField types b field = some newf)
include hfound

theorem next_deleted (hkind : ¬ SameKind types field.type newf.type) :
    DiffWalk.next types ⟨.field b field :: tasks, begun, changed⟩ = some ⟨tasks, begun, changed⟩ := by
  unfold DiffWalk.next
  dsimp only
  rw [hfound]
  dsimp only
  rw [if_pos hkind]

variable (hkind : SameKind types field.type newf.type)
include hkind

theorem next_based (hbase : (types field.type).type = .base ∨ (types field.type).type = .enum) :
    DiffWalk.next types ⟨.field b field :: tasks, begun, changed⟩ = some ⟨tasks, begun, changed⟩ := by
  unfold DiffWalk.next
  dsimp only
  rw [hfound]
  dsimp only
  rw [if_neg (not_not.mpr hkind)]
  rcases hbase with hbase | hbase
  · rw [hbase]
  · rw [hbase]

theorem next_nested (hstruct : (types field.type).type = .struct ∨ (types field.type).type = .union) :
    DiffWalk.next types ⟨.field b field :: tasks, begun, changed⟩ =
      some ⟨.compare field.type newf.type :: tasks, begun, changed⟩ := by
  unfold DiffWalk.next
  dsimp only
  rw [hfound]
  dsimp only
  rw [if_neg (not_not.mpr hkind)]
  rcases hstruct with hstruct | hstruct
  · rw [hstruct]
  · rw [hstruct]

theorem next_pointer (hpointer : IsPointer types field.type) (hx : (types field.type).pointedType = some x)
    (hy : (types newf.type).pointedType = some y) :
    DiffWalk.next types ⟨.field b field :: tasks, begun, changed⟩ =
      some ⟨.compare x y :: .through field.type newf.type x y :: tasks, begun, changed⟩ := by
  unfold DiffWalk.next
  dsimp only
  rw [hfound]
  dsimp only
  rw [if_neg (not_not.mpr hkind), hx, hy]
  rcases hpointer with hpointer | hpointer
  · rw [hpointer]
  · rw [hpointer]

end Field

theorem next_pointsToSame (hsame : ¬ Differs types x y) :
    DiffWalk.next types ⟨.through old new x y :: tasks, begun, changed⟩ = some ⟨tasks, begun, changed⟩ := by
  unfold DiffWalk.next
  dsimp only
  rw [if_pos hsame]

theorem next_pointsToChanged (hdiffers : Differs types x y) (hchanged : x ∈ changed) :
    DiffWalk.next types ⟨.through old new x y :: tasks, begun, changed⟩ =
      some ⟨.compare old new :: tasks, begun, changed⟩ := by
  unfold DiffWalk.next
  dsimp only
  rw [if_neg (not_not.mpr hdiffers), if_pos hchanged]

end

/-! ## The walk of a run -/

/-- Nothing that was compared was given up. -/
def NothingFreed (st : TypediffState T) : Prop := ∀ a t, st.transformer a = some t → t.freed = false

/-- Where the walk is in a state of the comparison. -/
def TypediffState.walk (st : TypediffState T) (tasks : List (DiffTask T)) : DiffWalk T :=
  ⟨tasks, { x | (st.diffAgainst x).isSome }, { x | (st.transformer x).isSome }⟩

/-- The comparison is where the walk is, or it has given up on the way. -/
def WalkAt (pair : T × T) (st : TypediffState T) (tasks : List (DiffTask T)) : Prop :=
  (¬ NothingFreed st ∧ GivenUp types pair) ∨
    (NothingFreed st ∧ Reaches (DiffWalk.next types) (.start pair) (st.walk tasks))

section
variable {types} {pair : T × T} {st st' : TypediffState T} {tasks tasks' : List (DiffTask T)}

theorem walkAt_fresh : WalkAt types pair .fresh [.compare pair.1 pair.2] := by
  refine .inr ⟨fun _ _ h => (Option.some_ne_none _ h.symm).elim, ?_⟩
  have hwalk : (TypediffState.fresh : TypediffState T).walk [.compare pair.1 pair.2] = .start pair := by
    simp [TypediffState.walk, TypediffState.fresh, DiffWalk.start]
  rw [hwalk]
  exact .refl

/-- Both go on: what is freed stays so. -/
theorem WalkAt.step (h : WalkAt types pair st tasks) (hnext : (st.walk tasks).next types = some (st'.walk tasks'))
    (hfreed : NothingFreed st' ↔ NothingFreed st) : WalkAt types pair st' tasks' := by
  rcases h with ⟨hgiven, hup⟩ | ⟨hnothing, hreaches⟩
  · exact .inl ⟨fun hnot => hgiven (hfreed.mp hnot), hup⟩
  · exact .inr ⟨hfreed.mpr hnothing, hreaches.tail hnext⟩

theorem WalkAt.here (h : WalkAt types pair st tasks) (hnext : (st.walk tasks).next types = some (st.walk tasks')) :
    WalkAt types pair st tasks' := h.step hnext .rfl

/-- A field at which it gives up. -/
theorem WalkAt.givenUp (h : WalkAt types pair st tasks) (hup : (st.walk tasks).GivesUp types) : GivenUp types pair := by
  rcases h with ⟨-, hgiven⟩ | ⟨-, hreaches⟩
  · exact hgiven
  · exact ⟨_, hreaches, hup⟩

theorem WalkAt.of_freed (h : WalkAt types pair st tasks) (hfreed : ¬ NothingFreed st) : GivenUp types pair := by
  rcases h with ⟨-, hgiven⟩ | ⟨hnothing, -⟩
  · exact hgiven
  · exact absurd hnothing hfreed

/-- At the end of both. -/
theorem WalkAt.nothingFreed_iff (h : WalkAt types pair st []) : NothingFreed st ↔ ¬ GivenUp types pair := by
  rcases h with ⟨hfreed, hgiven⟩ | ⟨hnothing, hreaches⟩
  · exact iff_of_false hfreed (not_not.mpr hgiven)
  · exact iff_of_true hnothing (not_givenUp hreaches)

end

end Katana

/-
  Katana.CompilationUnits — the loop over the compilation units of the old object (patchwrite/patchwrite.c).

  Each old unit is paired with the first unit of its name in the new object, and what changed between the
  two is written out. The loop ends at the first unit that has no partner.

  Proved, for every two lists of units and whatever is written for a pair:
  - `transformUnits_front`: what is written is that of the pairs before the first missing unit.
  - `noUnitSkipped_iff`: no pair is skipped exactly when the missing units are the last of the old object.
-/
import Katana.Fault
import Mathlib.Data.List.Basic

namespace Katana

/-- A unit with its variables, types and functions. `presentInOtherVersion`, which nothing reads, is left out. -/
structure CompilationUnit (D : Type) where
  name : Option String
  data : D

variable {D S : Type}

def sameName (cuOld cuNew : CompilationUnit D) : Bool := cuOld.name.isSome && cuOld.name == cuNew.name

def findUnit (compilationUnits : List (CompilationUnit D)) (cuOld : CompilationUnit D) : Option (CompilationUnit D) :=
  compilationUnits.find? (sameName cuOld)

def omittedWarning : String :=
  "WARNING: the patched version omits an entire compilation unit present in the original version.\n"

def missingWarning (cuOld : CompilationUnit D) : String :=
  match cuOld.name with
  | some name => "Missing cu is named \"" ++ name ++ "\"\n"
  | none => "The compilation unit in the patchee version does not have a name\n"

/-- The loop over the old units, with what it prints. `transform` is what its body does for a pair, from
`getTypeTransformationInfoForCU` to `writeFuncTransformationInfoForCU`. -/
def transformUnits (transform : CompilationUnit D → CompilationUnit D → S → Except Fault S)
    (patched : List (CompilationUnit D)) : List (CompilationUnit D) → S → Except Fault (S × List String)
  | [], s => .ok (s, [])
  | cuOld :: rest, s =>
    match findUnit patched cuOld with
    | none => .ok (s, [omittedWarning, missingWarning cuOld])
    | some cuNew => transform cuOld cuNew s >>= transformUnits transform patched rest

def writeTypeAndFuncTransformationInfo (transform : CompilationUnit D → CompilationUnit D → S → Except Fault S)
    (patchee patched : List (CompilationUnit D)) (s : S) : Except Fault S :=
  transformUnits transform patched patchee s >>= fun r => .ok r.1

def unitPairs (patchee patched : List (CompilationUnit D)) : List (CompilationUnit D × CompilationUnit D) :=
  patchee.filterMap fun cuOld => (findUnit patched cuOld).map (Prod.mk cuOld)

def transformPair (transform : CompilationUnit D → CompilationUnit D → S → Except Fault S) (s : S)
    (pair : CompilationUnit D × CompilationUnit D) : Except Fault S := transform pair.1 pair.2 s

/-- Whatever is written for a pair, it is written for each of them. -/
def NoUnitSkipped (patchee patched : List (CompilationUnit D)) : Prop :=
  ∀ (S : Type) (transform : CompilationUnit D → CompilationUnit D → S → Except Fault S) (s : S),
    writeTypeAndFuncTransformationInfo transform patchee patched s = (unitPairs patchee patched).foldlM
      (transformPair transform) s

section
variable {patchee patched : List (CompilationUnit D)}

def beforeMissing (patched patchee : List (CompilationUnit D)) : List (CompilationUnit D) :=
  patchee.takeWhile fun cuOld => (findUnit patched cuOld).isSome

theorem transformUnits_front (transform : CompilationUnit D → CompilationUnit D → S → Except Fault S)
    (patchee patched : List (CompilationUnit D)) (s : S) :
    writeTypeAndFuncTransformationInfo transform patchee patched s =
      (unitPairs (beforeMissing patched patchee) patched).foldlM (transformPair transform) s := by
  unfold writeTypeAndFuncTransformationInfo
  induction patchee generalizing s with
  | nil => rfl
  | cons cuOld patchee ih =>
    unfold transformUnits unitPairs beforeMissing
    rw [List.takeWhile_cons]
    cases hfind : findUnit patched cuOld with
    | none => rfl
    | some cuNew =>
      simp only [Option.isSome_some, if_true, List.filterMap_cons, hfind, Option.map_some, List.foldlM_cons]
      rw [bind_assoc]
      exact bind_congr ih

/-- The pairs themselves, as something to write. -/
theorem foldlM_record (pairs done : List (CompilationUnit D × CompilationUnit D)) :
    pairs.foldlM (transformPair fun cuOld cuNew done => .ok (done ++ [(cuOld, cuNew)])) done = .ok (done ++ pairs) := by
  induction pairs generalizing done with
  | nil => rw [List.append_nil]; rfl
  | cons pair pairs ih =>
    rw [List.foldlM_cons, transformPair, bind_ok, ih, List.append_assoc]
    rfl

theorem unitPairs_front_iff :
    unitPairs (beforeMissing patched patchee) patched = unitPairs patchee patched ↔
      patchee.Pairwise fun a b => (findUnit patched b).isSome → (findUnit patched a).isSome := by
  induction patchee with
  | nil => simp [beforeMissing]
  | cons cuOld patchee ih =>
    unfold unitPairs beforeMissing at ih ⊢
    rw [List.pairwise_cons, List.takeWhile_cons]
    cases hfind : findUnit patched cuOld with
    | none =>
      simp only [Option.isSome_none, Bool.false_eq_true, if_false, List.filterMap_nil, List.filterMap_cons, hfind,
        Option.map_none]
      refine ⟨?_, ?_⟩
      · intro h
        have hnone : ∀ b ∈ patchee, findUnit patched b = none := by
          intro b hb
          exact Option.map_eq_none_iff.mp (List.filterMap_eq_nil_iff.mp h.symm b hb)
        refine ⟨fun b hb hsome => ?_, List.pairwise_iff_forall_sublist.mpr fun hsub hsome => ?_⟩
        · rw [hnone b hb] at hsome
          cases hsome
        · rw [hnone _ (hsub.subset (List.mem_cons_of_mem _ List.mem_cons_self))] at hsome
          cases hsome
      · intro h
        symm
        apply List.filterMap_eq_nil_iff.mpr
        intro b hb
        cases hb' : findUnit patched b with
        | none => rfl
        | some unit =>
          have hno := h.1 b hb
          rw [hb'] at hno
          cases hno rfl
    | some cuNew =>
      simp [hfind, ih]

/-- **No pair is skipped exactly when no missing unit stands before one that has a partner.** -/
theorem noUnitSkipped_iff (patchee patched : List (CompilationUnit D)) :
    NoUnitSkipped patchee patched ↔
      patchee.Pairwise fun a b => (findUnit patched b).isSome → (findUnit patched a).isSome := by
  rw [← unitPairs_front_iff]
  refine ⟨?_, ?_⟩
  · intro h
    have hrecord := h _ (fun cuOld cuNew done => .ok (done ++ [(cuOld, cuNew)])) []
    rw [transformUnits_front, foldlM_record, foldlM_record] at hrecord
    exact Except.ok.inj hrecord
  · intro h S transform s
    rw [transformUnits_front, h]

end

/-- A unit is gone, and with it the one behind it. -/
theorem not_noUnitSkipped : ¬ ∀ patchee patched : List (CompilationUnit Unit), NoUnitSkipped patchee patched := by
  intro h
  have hrecord := h [⟨some "removed.c", ()⟩, ⟨some "main.c", ()⟩] [⟨some "main.c", ()⟩] _
    (fun cuOld cuNew done => .ok (done ++ [(cuOld, cuNew)])) []
  cases hrecord

end Katana

/-
  Katana.ListConcat — the nodes of two linked lists that are put together (concatLists of util/list.c).

  An end that is not passed is looked for. For the first list it is the second list's end that is moved, and the first
  node that is taken for the end.

  Proved, for every memory, two lists and ends:
  - `lastLink_ok`: from any node on a list's end is found.
  - `appendsLists_iff`: exactly when the first list is followed by the second, and the last node is given.
-/
import Katana.Fault
import Katana.Lib.Links

namespace Katana.Nodes

open Lib

variable {α : Type}

/-- `while(l2End->next) l2End=l2End->next`; there is fuel for each node. -/
def lastLink (links : Links α) : Nat → Option Nat → Except Fault (Option Nat)
  | 0, _ => .error .undefined
  | fuel + 1, li => do
    let node ← links.load .undefined li
    match node.next with
    | none => .ok li
    | some next => lastLink links fuel (some next)

/-- The end of the second list, if it is not passed. -/
def findEnd (fuel : Nat) (links : Links α) (l2Start l2End : Option Nat) : Except Fault (Option Nat) :=
  if l2Start ≠ none ∧ l2End = none then lastLink links fuel l2Start else .ok l2End

/-- `l1End` and `l2End` once they have been looked for. -/
def findEnds (fuel : Nat) (links : Links α) (l1Start l1End l2Start l2End : Option Nat) :
    Except Fault (Option Nat × Option Nat) :=
  if l1Start ≠ none ∧ l1End = none then do
    -- it is `l2End` that is moved
    let l2End ← lastLink links fuel l2End
    let l2End ← findEnd fuel links l2Start l2End
    .ok (l1Start, l2End)
  else do
    let l2End ← findEnd fuel links l2Start l2End
    .ok (l1End, l2End)

/-- Gives the memory, the head, and what `*endOut` is set to if `endOut` is given. -/
def concatLists (fuel : Nat) (links : Links α) (l1Start l1End l2Start l2End : Option Nat) (endOut : Bool) :
    Except Fault (Links α × Option Nat × Option (Option Nat)) :=
  let out (li : Option Nat) : Option (Option Nat) := if endOut then some li else none
  if l1Start = none ∧ l2Start = none then .ok (links, none, out none)
  else do
    let (l1End, l2End) ← findEnds fuel links l1Start l1End l2Start l2End
    if l1Start = none then .ok (links, l2Start, out l2End)
    else if l2Start = none then .ok (links, l1Start, out l1End)
    else do
      let links ← links.setNext .undefined l1End l2Start
      .ok (links, l1Start, out l2End)

/-- With fuel enough the first list followed by the second is returned, and its last node given, or null if there is
none. -/
def AppendsLists (links : Links α) (l1Start l1End l2Start l2End : Option Nat) (l1 l2 : List (Nat × α)) : Prop :=
  ∀ endOut, ∃ enough, ∀ fuel ≥ enough, ∃ links' head,
    concatLists fuel links l1Start l1End l2Start l2End endOut =
      .ok (links', head, if endOut then some (lastOf none (l1 ++ l2)) else none) ∧ Leads links' head (l1 ++ l2) none

/-- The lists share no node, and an end of the first one is passed if it has more than one node, or any node where none
of the second one is. -/
def EndsKnown (l1End l2End : Option Nat) (l1 l2 : List (Nat × α)) : Prop :=
  (addresses l1).Disjoint (addresses l2) ∧ (l1 = [] ∨ l1End ≠ none ∨ l1.length = 1 ∧ l2End ≠ none)

section
variable {links : Links α} {l1Start l1End l2Start l2End : Option Nat} {l1 l2 : List (Nat × α)}

theorem lastLink_ok {fuel : Nat} {p : Option Nat} {l : List (Nat × α)} (h : Leads links p l none) (hne : l ≠ [])
    (hfuel : l.length ≤ fuel) (before : Option Nat) : lastLink links fuel p = .ok (lastOf before l) := by
  induction l generalizing fuel p before with
  | nil => exact absurd rfl hne
  | cons n l ih =>
    rcases n with ⟨a, x⟩
    obtain ⟨next, hload, hrest⟩ := h.load
    have hp := h.1
    rw [List.length_cons] at hfuel
    obtain ⟨fuel, rfl⟩ : ∃ j, fuel = j + 1 := ⟨fuel - 1, by omega⟩
    rw [lastLink, hload, bind_ok]
    dsimp only
    cases l with
    | nil =>
      cases hrest
      rw [hp]
      rfl
    | cons m l =>
      have hnext := hrest.1
      rw [hnext] at hrest ⊢
      exact ih hrest (by simp) (by omega) (some a)

/-- From a null pointer on there is none. -/
theorem lastLink_null (fuel : Nat) : lastLink links fuel none = .error .undefined := by
  cases fuel with
  | zero => rfl
  | succ fuel => rfl

/-- From the last node on it is that node. -/
theorem lastLink_last {fuel : Nat} {p : Option Nat} {l : List (Nat × α)} (h : Leads links p l none) (hne : l ≠ [])
    (hfuel : 0 < fuel) : lastLink links fuel (lastOf none l) = .ok (lastOf none l) := by
  obtain ⟨front, ⟨a, x⟩, rfl⟩ := (List.eq_nil_or_concat' l).resolve_left hne
  obtain ⟨r, -, hr, hlast⟩ := leads_append.mp h
  rw [lastOf_append]
  have hend : Leads links (some a) [(a, x)] none := ⟨rfl, hlast⟩
  exact lastLink_ok hend (by simp) hfuel none

/-- An end that is passed is the last node. -/
def EndOf (li : Option Nat) (l : List (Nat × α)) : Prop := li = none ∨ li = lastOf none l

theorem EndOf.eq {li : Option Nat} {l : List (Nat × α)} (h : EndOf li l) (hpassed : l = [] ∨ li ≠ none) :
    li = lastOf none l := by
  rcases h with h | h
  · rcases hpassed with rfl | hpassed
    · exact h
    · exact absurd h hpassed
  · exact h

section
variable (h1 : Leads links l1Start l1 none) (h2 : Leads links l2Start l2 none) (hend1 : EndOf l1End l1)
  (hend2 : EndOf l2End l2) {fuel : Nat}

include h2 hend2 in
theorem findEnd_ok (hfuel : l2.length ≤ fuel) : findEnd fuel links l2Start l2End = .ok (lastOf none l2) := by
  unfold findEnd
  by_cases hlook : l2Start ≠ none ∧ l2End = none
  · rw [if_pos hlook]
    exact lastLink_ok h2 (fun hnil => hlook.1 (h2.start_none_iff.mpr hnil)) hfuel none
  · rw [if_neg hlook, hend2.eq]
    rw [not_and_or, not_not, h2.start_none_iff] at hlook
    exact hlook

include h1 h2 hend1 hend2 in
theorem findEnds_passed (hfuel : l2.length ≤ fuel) (hpassed : l1 = [] ∨ l1End ≠ none) :
    findEnds fuel links l1Start l1End l2Start l2End = .ok (lastOf none l1, lastOf none l2) := by
  have hlook : ¬ (l1Start ≠ none ∧ l1End = none) := by
    rw [not_and_or, not_not, h1.start_none_iff]
    exact hpassed
  unfold findEnds
  rw [if_neg hlook, findEnd_ok h2 hend2 hfuel, bind_ok, hend1.eq hpassed]

include h1 h2 hend2 in
/-- An end of the first list that is not passed. -/
theorem findEnds_missing (hfuel : l2.length < fuel) (hne : l1 ≠ []) (hend1 : l1End = none) :
    findEnds fuel links l1Start l1End l2Start l2End =
      if l2End = none then .error .undefined else .ok (l1Start, lastOf none l2) := by
  unfold findEnds
  rw [if_pos ⟨fun hnil => hne (h1.start_none_iff.mp hnil), hend1⟩]
  by_cases hpassed : l2End = none
  · rw [if_pos hpassed, hpassed, lastLink_null, bind_error]
  · have hlast := hend2.eq (.inr hpassed)
    have hne2 : l2 ≠ [] := fun hnil => hpassed (hlast.trans (lastOf_eq_none.mpr hnil))
    rw [if_neg hpassed, hlast, lastLink_last h2 hne2 (by omega), bind_ok, findEnd_ok h2 (.inr rfl) (by omega), bind_ok]

include h1 h2 in
/-- Where the ends are known. -/
theorem concatLists_ok (hends : findEnds fuel links l1Start l1End l2Start l2End = .ok (lastOf none l1, lastOf none l2))
    (hapart : (addresses l1).Disjoint (addresses l2)) (endOut : Bool) :
    ∃ links' head, concatLists fuel links l1Start l1End l2Start l2End endOut =
        .ok (links', head, if endOut then some (lastOf none (l1 ++ l2)) else none) ∧ Leads links' head (l1 ++ l2) none := by
  unfold concatLists
  dsimp only
  by_cases hnil1 : l1 = []
  · rw [hnil1] at h1 hends ⊢
    cases h1
    rw [List.nil_append]
    by_cases hnil2 : l2Start = none
    · rw [if_pos ⟨rfl, hnil2⟩, h2.start_none_iff.mp hnil2]
      exact ⟨links, none, rfl, rfl⟩
    · rw [if_neg fun h => hnil2 h.2, hends, bind_ok]
      exact ⟨links, l2Start, rfl, h2⟩
  · have hne1 : l1Start ≠ none := fun h => hnil1 (h1.start_none_iff.mp h)
    rw [if_neg fun h => hne1 h.1, hends, bind_ok]
    dsimp only
    rw [if_neg hne1]
    by_cases hnil2 : l2 = []
    · rw [if_pos (h2.start_none_iff.mpr hnil2), hnil2, List.append_nil]
      exact ⟨links, l1Start, rfl, h1⟩
    · obtain ⟨links', hset, hleads⟩ := @Leads.link _ _ _ Fault.undefined _ _ _ _ h1 h2 hnil1 hapart
      rw [if_neg fun h => hnil2 (h2.start_none_iff.mp h), hset, bind_ok, lastOf_append]
      refine ⟨links', l1Start, ?_, hleads⟩
      obtain ⟨front, n, rfl⟩ := (List.eq_nil_or_concat' l2).resolve_left hnil2
      rw [lastOf_append, lastOf_append]
      rfl

include h1 h2 in
/-- Where the first node is taken for the first list's end. -/
theorem concatLists_first {n : Nat × α} {rest : List (Nat × α)} {links' : Links α} {head : Option Nat}
    {out : Option (Option Nat)} (hl1 : l1 = n :: rest) (hne2 : l2 ≠ [])
    (hends : findEnds fuel links l1Start l1End l2Start l2End = .ok (l1Start, lastOf none l2))
    (hapart : (addresses l1).Disjoint (addresses l2)) {endOut : Bool}
    (hrun : concatLists fuel links l1Start l1End l2Start l2End endOut = .ok (links', head, out)) :
    Leads links' head (n :: l2) none := by
  rw [hl1] at h1 hapart
  obtain ⟨hstart, next, hnode, -⟩ := h1
  have hone : Leads links l1Start [n] next := ⟨hstart, next, hnode, rfl⟩
  obtain ⟨links'', hset, hleads, hsame⟩ := @Leads.relink _ _ _ Fault.undefined _ _ _ hone (by simp) (by simp [addresses]) l2Start
  have hset' : links.setNext Fault.undefined l1Start l2Start = .ok links'' := by
    rw [hstart]
    exact hset
  unfold concatLists at hrun
  dsimp only at hrun
  have hne1 : l1Start ≠ none := by
    rw [hstart]
    simp
  rw [if_neg fun h => hne1 h.1, hends, bind_ok] at hrun
  dsimp only at hrun
  rw [if_neg hne1, if_neg fun h => hne2 (h2.start_none_iff.mp h), hset', bind_ok] at hrun
  cases hrun
  refine leads_append.mpr ⟨l2Start, hleads, h2.frame fun a ha => hsame a fun hmem => ?_⟩
  rw [addresses_cons] at hapart
  rw [List.mem_singleton.mp hmem] at ha
  exact hapart List.mem_cons_self ha

end

/-- **Exactly when the first list is followed by the second**, and the last node is given. -/
theorem appendsLists_iff (h1 : Leads links l1Start l1 none) (h2 : Leads links l2Start l2 none) (hend1 : EndOf l1End l1)
    (hend2 : EndOf l2End l2) :
    AppendsLists links l1Start l1End l2Start l2End l1 l2 ↔ EndsKnown l1End l2End l1 l2 := by
  constructor
  · intro h
    obtain ⟨enough, hall⟩ := h false
    obtain ⟨links', head, hrun, hleads⟩ := hall (max enough (l2.length + 1)) (Nat.le_max_left ..)
    have hapart : (addresses l1).Disjoint (addresses l2) := by
      have hnodup := hleads.nodup
      rw [addresses_append, List.nodup_append] at hnodup
      exact fun a ha hmem => hnodup.2.2 a ha a hmem rfl
    refine ⟨hapart, ?_⟩
    by_contra hunknown
    rw [not_or, not_or, not_not, not_and_or, not_not] at hunknown
    obtain ⟨hne, hmissing, hlong⟩ := hunknown
    have hends := findEnds_missing h1 h2 hend2 (show l2.length < max enough (l2.length + 1) by omega) hne hmissing
    by_cases hpassed : l2End = none
    · rw [if_pos hpassed] at hends
      have hnotStart : ¬ (l1Start = none ∧ l2Start = none) := fun hstart => hne (h1.start_none_iff.mp hstart.1)
      unfold concatLists at hrun
      dsimp only at hrun
      rw [if_neg hnotStart, hends] at hrun
      cases hrun
    · rw [if_neg hpassed] at hends
      have hlast := hend2.eq (.inr hpassed)
      have hne2 : l2 ≠ [] := fun hnil => hpassed (hlast.trans (lastOf_eq_none.mpr hnil))
      obtain ⟨n, rest, hl1⟩ := List.exists_cons_of_ne_nil hne
      have hshort := congrArg List.length (hleads.unique (concatLists_first h1 h2 hl1 hne2 hends hapart hrun))
      rw [List.length_append, List.length_cons] at hshort
      exact (hlong.resolve_right hpassed) (by omega)
  · rintro ⟨hapart, hknown⟩ endOut
    refine ⟨l2.length + 1, fun fuel hfuel => concatLists_ok h1 h2 ?_ hapart endOut⟩
    by_cases hpassed : l1 = [] ∨ l1End ≠ none
    · exact findEnds_passed h1 h2 hend1 hend2 (by omega) hpassed
    · rw [not_or, not_not] at hpassed
      obtain ⟨hone, hpassed2⟩ := (hknown.resolve_left hpassed.1).resolve_left (not_not_intro hpassed.2)
      obtain ⟨⟨a, x⟩, hsingle⟩ := List.length_eq_one_iff.mp hone
      have hstart : l1Start = lastOf none l1 := by
        rw [hsingle] at h1 ⊢
        exact h1.1
      rw [findEnds_missing h1 h2 hend2 hfuel hpassed.1 hpassed.2, if_neg hpassed2, hstart]

def threeLinks : Links Nat := fun a => [⟨10, some 1⟩, ⟨11, none⟩, ⟨12, none⟩][a]?

/-- With its end passed the first list is followed by the second. -/
theorem three_appendsLists :
    AppendsLists threeLinks (some 0) (some 1) (some 2) none [(0, 10), (1, 11)] [(2, 12)] := by
  have hknown : EndsKnown (some 1) none [(0, 10), (1, 11)] [(2, 12)] :=
    ⟨by simp [addresses], .inr (.inl (Option.some_ne_none 1))⟩
  refine (appendsLists_iff ?_ ?_ (.inr rfl) (.inl rfl)).mpr hknown
  · exact ⟨rfl, _, rfl, rfl, _, rfl, rfl⟩
  · exact ⟨rfl, _, rfl, rfl⟩

/-- Without it the second node is lost. -/
theorem not_appendsLists :
    ¬ ∀ (links : Links Nat) (l1Start l1End l2Start l2End : Option Nat) (l1 l2 : List (Nat × Nat)),
      Leads links l1Start l1 none → Leads links l2Start l2 none → (addresses l1).Disjoint (addresses l2) →
      EndOf l1End l1 → EndOf l2End l2 → AppendsLists links l1Start l1End l2Start l2End l1 l2 := by
  intro h
  have happends := h threeLinks (some 0) none (some 2) (some 2) [(0, 10), (1, 11)] [(2, 12)]
    ⟨rfl, _, rfl, rfl, _, rfl, rfl⟩ ⟨rfl, _, rfl, rfl⟩ (by simp [addresses]) (.inl rfl) (.inr rfl)
  obtain ⟨enough, hall⟩ := happends false
  obtain ⟨links', head, hrun, -, next, hnode, hrest⟩ := hall (enough + 1) (Nat.le_succ enough)
  have hlost : concatLists (enough + 1) threeLinks (some 0) none (some 2) (some 2) false =
      .ok (Function.update threeLinks 0 (some ⟨10, some 2⟩), some 0, none) := rfl
  rw [hlost] at hrun
  cases hrun
  cases hnode
  cases hrest.1

end

end Katana.Nodes

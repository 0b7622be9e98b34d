/-
  Katana.SourceTree — the object files that differ between two source trees (patchwrite/sourcetree.c,
  `listAppend` of util/list.c).

  `scandir` leaves object files and directories, sorted by name. The loop over both listings looks at the
  entry of the old one to decide what the entry of the new one is, and the loop over what is left of the
  new one does not use its own index. Paths are the names on them.

  Proved, for every pair of trees and every result of `elfcmp`:
  - `mergeLoop_walk`: the head and the end of the list that is built stay its own.
  - `changedObjectFiles_iff`: the files that changed are returned, each once and nothing else, exactly when the
    trees are `Walkable`.
-/
import Katana.Assignment
import Katana.Lib.Enumerates
import Mathlib.Order.Defs.LinearOrder

namespace Katana

open Lib

/-- What `scandir` leaves of a tree. -/
inductive Node (N : Type) where
  | object
  | directory (entries : List (N × Node N))

variable {N : Type}

def scandir : Option (List N × Node N) → List (N × Node N)
  | some (_, .directory entries) => entries
  | _ => []

inductive ObjFileState where
  | modified
  | new
  deriving DecidableEq

structure ObjFileInfo (N : Type) where
  state : ObjFileState
  pathToOriginal : Option (List N)
  pathToModified : List N

/-- A list is its items and the index of its end. -/
def listAppend {α : Type} (list : List α × Option Nat) (li : α) : Except Fault (List α × Option Nat) :=
  match list with
  | ([], _) => .ok ([li], some 0)
  | (head, some tail) => .ok (head.take (tail + 1) ++ [li], some (tail + 1))
  | (_, none) => .error .undefined

section
variable (modSourceTree : List N) (numEntriesOrig : Nat) (dirEntriesMod : List (N × Node N))

/-- The file that the last loop reports, with the index of the other one; the entries that the main loop has
passed are freed. -/
def trailingEntry (freed : Nat) : Except Fault (ObjFileInfo N) :=
  if numEntriesOrig < freed then .error .undefined
  else
    match dirEntriesMod[numEntriesOrig]? with
    | none => .error .undefined
    | some entry => .ok ⟨.new, none, modSourceTree ++ [entry.1]⟩

def trailingLoop (freed : Nat) : List (N × Node N) → List (ObjFileInfo N) × Option Nat → Except Fault (List (ObjFileInfo N))
  | [], list => .ok list.1
  | _ :: ms, list => do
    let obj ← trailingEntry modSourceTree numEntriesOrig dirEntriesMod freed
    let list ← listAppend list obj
    trailingLoop freed ms list

variable [LinearOrder N] (elfcmp : List N → List N → Bool)
  (recur : Option (List N × Node N) → Option (List N × Node N) → Except Fault (List (ObjFileInfo N)))
  (origSourceTree : List N)

/-- The main loop, and the loops over what it leaves. -/
def mergeLoop (orig mod : List (N × Node N)) (list : List (ObjFileInfo N) × Option Nat) :
    Except Fault (List (ObjFileInfo N)) :=
  match orig, mod with
  | o :: os, m :: ms =>
    if o.1 = m.1 then
      match o.2, m.2 with
      | .directory _, .directory _ => do
        let found ← recur (some (origSourceTree ++ [o.1], o.2)) (some (modSourceTree ++ [m.1], m.2))
        let list ← concatLists list.1 list.2 found none
        mergeLoop os ms list
      | .object, .object =>
        if elfcmp (origSourceTree ++ [o.1]) (modSourceTree ++ [m.1]) then mergeLoop os ms list
        else do
          let list ← listAppend list ⟨.modified, some (origSourceTree ++ [o.1]), modSourceTree ++ [m.1]⟩
          mergeLoop os ms list
      | _, _ => .error (.death
          "Why are you giving one of your directories a .o extension? This parser isn't terribly smart, so it breaks!\n")
    else if o.1 < m.1 then
      match o.2 with
      | .directory _ => do
        let found ← recur (some (origSourceTree ++ [o.1], o.2)) none
        let list ← concatLists list.1 list.2 found none
        mergeLoop os (m :: ms) list
      | .object => mergeLoop os (m :: ms) list
    else
      match o.2 with
      | .directory _ => do
        let found ← recur none (some (modSourceTree ++ [m.1], m.2))
        let list ← concatLists list.1 list.2 found none
        mergeLoop (o :: os) ms list
      | .object => do
        let list ← listAppend list ⟨.new, none, modSourceTree ++ [m.1]⟩
        mergeLoop (o :: os) ms list
  | [], ms => trailingLoop modSourceTree numEntriesOrig dirEntriesMod (dirEntriesMod.length - ms.length) ms list
  | _ :: _, [] => .ok list.1
termination_by orig.length + mod.length

end

/-- A tree that is not there is NULL. The recursion into directories has fuel. -/
def getChangedObjectFilesInSourceTree [LinearOrder N] (elfcmp : List N → List N → Bool) :
    Nat → Option (List N × Node N) → Option (List N × Node N) → Except Fault (List (ObjFileInfo N))
  | 0, _, _ => .error .undefined
  | fuel + 1, orig, mod =>
    mergeLoop ((mod.map Prod.fst).getD []) (scandir orig).length (scandir mod) elfcmp
      (getChangedObjectFilesInSourceTree elfcmp fuel) ((orig.map Prod.fst).getD []) (scandir orig) (scandir mod) ([], none)

/-! ## The loop without its lists -/

section
variable (modSourceTree : List N) (numEntriesOrig : Nat) (dirEntriesMod : List (N × Node N))
  [LinearOrder N] (elfcmp : List N → List N → Bool)
  (recur : Option (List N × Node N) → Option (List N × Node N) → Except Fault (List (ObjFileInfo N)))
  (origSourceTree : List N)

/-- What a turn adds for two entries of one name. -/
def common (o m : N × Node N) : Except Fault (List (ObjFileInfo N)) :=
  match o.2, m.2 with
  | .directory _, .directory _ => recur (some (origSourceTree ++ [o.1], o.2)) (some (modSourceTree ++ [m.1], m.2))
  | .object, .object =>
    if elfcmp (origSourceTree ++ [o.1]) (modSourceTree ++ [m.1]) then .ok []
    else .ok [⟨.modified, some (origSourceTree ++ [o.1]), modSourceTree ++ [m.1]⟩]
  | _, _ => .error (.death
      "Why are you giving one of your directories a .o extension? This parser isn't terribly smart, so it breaks!\n")

def removed (o : N × Node N) : Except Fault (List (ObjFileInfo N)) :=
  match o.2 with
  | .directory _ => recur (some (origSourceTree ++ [o.1], o.2)) none
  | .object => .ok []

def added (o m : N × Node N) : Except Fault (List (ObjFileInfo N)) :=
  match o.2 with
  | .directory _ => recur none (some (modSourceTree ++ [m.1], m.2))
  | .object => .ok [⟨.new, none, modSourceTree ++ [m.1]⟩]

def trailing (ms : List (N × Node N)) : Except Fault (List (ObjFileInfo N)) :=
  if ms = [] then .ok []
  else
    trailingEntry modSourceTree numEntriesOrig dirEntriesMod (dirEntriesMod.length - ms.length) >>= fun obj =>
      .ok (List.replicate ms.length obj)

def walk (orig mod : List (N × Node N)) : Except Fault (List (ObjFileInfo N)) :=
  match orig, mod with
  | o :: os, m :: ms =>
    if o.1 = m.1 then
      common modSourceTree elfcmp recur origSourceTree o m >>= fun found => walk os ms >>= fun rest => .ok (found ++ rest)
    else if o.1 < m.1 then
      removed recur origSourceTree o >>= fun found => walk os (m :: ms) >>= fun rest => .ok (found ++ rest)
    else added modSourceTree recur o m >>= fun found => walk (o :: os) ms >>= fun rest => .ok (found ++ rest)
  | [], ms => trailing modSourceTree numEntriesOrig dirEntriesMod ms
  | _ :: _, [] => .ok []
termination_by orig.length + mod.length

end

theorem listAppend_lastNode {α : Type} (l : List α) (x : α) :
    listAppend (l, lastNode l) x = .ok (l ++ [x], lastNode (l ++ [x])) := by
  cases l with
  | nil => rfl
  | cons a l =>
    have hall : (a :: l).take (l.length + 1) = a :: l := List.take_of_length_le (Nat.le_refl _)
    have hend : l.length + 1 = ((a :: l) ++ [x]).length - 1 := by simp
    show Except.ok ((a :: l).take (l.length + 1) ++ [x], some (l.length + 1)) = _
    rw [hall, hend]
    rfl

section
variable {modSourceTree origSourceTree : List N} {numEntriesOrig : Nat} {dirEntriesMod : List (N × Node N)}

theorem trailingLoop_trailing (freed : Nat) (ms : List (N × Node N)) (l : List (ObjFileInfo N)) :
    trailingLoop modSourceTree numEntriesOrig dirEntriesMod freed ms (l, lastNode l) =
      if ms = [] then .ok l
      else trailingEntry modSourceTree numEntriesOrig dirEntriesMod freed >>= fun obj =>
        .ok (l ++ List.replicate ms.length obj) := by
  induction ms generalizing l with
  | nil => rfl
  | cons m ms ih =>
    unfold trailingLoop
    rw [if_neg (List.cons_ne_nil m ms)]
    cases hentry : trailingEntry modSourceTree numEntriesOrig dirEntriesMod freed with
    | error e => rfl
    | ok obj =>
      rw [bind_ok, listAppend_lastNode, bind_ok, ih, hentry, bind_ok, bind_ok]
      cases ms with
      | nil => rfl
      | cons m' ms => rw [if_neg (List.cons_ne_nil m' ms), List.append_assoc]; rfl

variable [LinearOrder N] {elfcmp : List N → List N → Bool}
  {recur : Option (List N × Node N) → Option (List N × Node N) → Except Fault (List (ObjFileInfo N))}

omit [LinearOrder N] in
/-- What was found is put behind what was there. -/
theorem concat_then {β : Type} (l : List (ObjFileInfo N)) (x : Except Fault (List (ObjFileInfo N)))
    (f : List (ObjFileInfo N) × Option Nat → Except Fault β) :
    (x >>= fun found => concatLists l (lastNode l) found none >>= f) = x >>= fun found =>
    f (l ++ found, lastNode (l ++ found)) := by
  congr 1
  funext found
  rw [concatLists_append]
  rfl

/-- **The loop keeps the end of its list**, and adds what it finds. -/
theorem mergeLoop_walk (os ms : List (N × Node N)) (l : List (ObjFileInfo N)) :
    mergeLoop modSourceTree numEntriesOrig dirEntriesMod elfcmp recur origSourceTree os ms (l, lastNode l) =
      walk modSourceTree numEntriesOrig dirEntriesMod elfcmp recur origSourceTree os ms >>= fun rest => .ok (l ++ rest) := by
  -- a turn that adds what the recursion finds, and one that adds what is known
  have hturn : ∀ (os' ms' : List (N × Node N)) (x : Except Fault (List (ObjFileInfo N))),
      (∀ l', mergeLoop modSourceTree numEntriesOrig dirEntriesMod elfcmp recur origSourceTree os' ms' (l', lastNode l') =
        walk modSourceTree numEntriesOrig dirEntriesMod elfcmp recur origSourceTree os' ms' >>= fun rest =>
          .ok (l' ++ rest)) →
      (x >>= fun found => mergeLoop modSourceTree numEntriesOrig dirEntriesMod elfcmp recur origSourceTree os' ms'
          (l ++ found, lastNode (l ++ found))) =
        (x >>= fun found => walk modSourceTree numEntriesOrig dirEntriesMod elfcmp recur origSourceTree os' ms' >>= fun rest =>
          .ok (found ++ rest)) >>= fun rest => .ok (l ++ rest) := by
    intro os' ms' x h
    rw [bind_assoc]
    congr 1
    funext found
    rw [h, bind_assoc]
    congr 1
    funext rest
    rw [bind_ok, List.append_assoc]
  match os, ms with
  | [], ms =>
    rw [mergeLoop, walk, trailingLoop_trailing]
    unfold trailing
    by_cases hms : ms = []
    · rw [if_pos hms, if_pos hms, bind_ok, List.append_nil]
    · rw [if_neg hms, if_neg hms, bind_assoc]
      rfl
  | o :: os, [] =>
    rw [mergeLoop, walk, bind_ok, List.append_nil]
  | o :: os, m :: ms =>
    rw [mergeLoop, walk]
    by_cases heq : o.1 = m.1
    · rw [if_pos heq, if_pos heq, ← hturn os ms _ (mergeLoop_walk os ms)]
      unfold common
      split
      · rw [concat_then]
      · split
        · rw [bind_ok, List.append_nil]
        · rw [listAppend_lastNode]
          rfl
      · rfl
    · rw [if_neg heq, if_neg heq]
      by_cases hlt : o.1 < m.1
      · rw [if_pos hlt, if_pos hlt, ← hturn os (m :: ms) _ (mergeLoop_walk os (m :: ms))]
        unfold removed
        split
        · rw [concat_then]
        · rw [bind_ok, List.append_nil]
      · rw [if_neg hlt, if_neg hlt, ← hturn (o :: os) ms _ (mergeLoop_walk (o :: os) ms)]
        unfold added
        split
        · rw [concat_then]
        · rw [listAppend_lastNode]
          rfl
termination_by os.length + ms.length

end

/-! ## The files that changed -/

def Node.entries : Node N → List (N × Node N)
  | .object => []
  | .directory entries => entries

/-- The object files of a tree, by the names on their paths. -/
def HasObject : List N → Node N → Prop
  | [], node => node = .object
  | n :: path, node => ∃ child, (n, child) ∈ node.entries ∧ HasObject path child

/-- **What is to be returned**: the files in both trees that differ, and those only in the new one. -/
inductive Changed (elfcmp : List N → List N → Bool) (origSourceTree modSourceTree : List N) (orig mod : Node N) :
    ObjFileInfo N → Prop
  | modified (path : List N) : HasObject path orig → HasObject path mod →
    elfcmp (origSourceTree ++ path) (modSourceTree ++ path) = false →
    Changed elfcmp origSourceTree modSourceTree orig mod ⟨.modified, some (origSourceTree ++ path), modSourceTree ++ path⟩
  | new (path : List N) : HasObject path mod → ¬ HasObject path orig →
    Changed elfcmp origSourceTree modSourceTree orig mod ⟨.new, none, modSourceTree ++ path⟩

theorem append_name (l : List N) (n : N) (path : List N) : l ++ n :: path = l ++ [n] ++ path := by
  rw [List.append_assoc]
  rfl

def Under (tree : List N) (x : ObjFileInfo N) : Prop := ∃ path, x.pathToModified = tree ++ path

theorem under_unique {b : List N} {n m : N} {x : ObjFileInfo N} (hn : Under (b ++ [n]) x)
    (hm : Under (b ++ [m]) x) : n = m := by
  obtain ⟨path, hpath⟩ := hn
  obtain ⟨path', hpath'⟩ := hm
  rw [hpath, List.append_assoc, List.append_assoc] at hpath'
  exact (List.cons.inj (List.append_cancel_left hpath')).1

theorem Under.weaken {b : List N} {n : N} {x : ObjFileInfo N} (h : Under (b ++ [n]) x) : Under b x := by
  obtain ⟨path, hpath⟩ := h
  exact ⟨n :: path, hpath.trans (append_name b n path).symm⟩

section
variable {elfcmp : List N → List N → Bool} {a b : List N} {os ms : List (N × Node N)} {o m : N × Node N} {x : ObjFileInfo N}

theorem not_hasObject_nil (l : List (N × Node N)) : ¬ HasObject [] (.directory l) := by
  intro h
  cases h

theorem hasObject_cons {n : N} {path : List N} :
    HasObject (n :: path) (.directory (m :: ms)) ↔ n = m.1 ∧ HasObject path m.2 ∨ HasObject (n :: path) (.directory ms) := by
  refine ⟨?_, ?_⟩
  · intro h
    obtain ⟨child, hmem, hchild⟩ := h
    rcases List.mem_cons.mp hmem with heq | hmem
    · left
      rw [← heq]
      exact ⟨rfl, hchild⟩
    · exact .inr ⟨child, hmem, hchild⟩
  · intro h
    rcases h with h | h
    · refine ⟨m.2, ?_, h.2⟩
      rw [h.1]
      exact List.mem_cons_self
    · obtain ⟨child, hmem, hchild⟩ := h
      exact ⟨child, List.mem_cons_of_mem _ hmem, hchild⟩

/-- An object file below a directory is below one of its entries. -/
theorem HasObject.name {n : N} {path : List N} (h : HasObject (n :: path) (.directory ms)) : ∃ e ∈ ms, e.1 = n := by
  obtain ⟨child, hmem, -⟩ := h
  exact ⟨(n, child), hmem, rfl⟩

/-- Entries of one name, and the others. -/
theorem changed_common (hname : o.1 = m.1) (hos : ∀ e ∈ os, e.1 ≠ m.1) (hms : ∀ e ∈ ms, e.1 ≠ m.1) :
    Changed elfcmp a b (.directory (o :: os)) (.directory (m :: ms)) x ↔
      Changed elfcmp (a ++ [m.1]) (b ++ [m.1]) o.2 m.2 x ∨ Changed elfcmp a b (.directory os) (.directory ms) x := by
  have hnotos : ∀ path, ¬ HasObject (m.1 :: path) (.directory os) := by
    intro path h
    obtain ⟨e, he, hen⟩ := h.name
    exact hos e he hen
  have hnotms : ∀ path, ¬ HasObject (m.1 :: path) (.directory ms) := by
    intro path h
    obtain ⟨e, he, hen⟩ := h.name
    exact hms e he hen
  refine ⟨?_, ?_⟩
  · intro h
    cases h with
    | modified path horig hmod hdiffer =>
      cases path with
      | nil => exact absurd hmod (not_hasObject_nil _)
      | cons n path =>
        rcases hasObject_cons.mp hmod with hm | hm
        · obtain ⟨hn, hm⟩ := hm
          subst hn
          have ho := (hasObject_cons.mp horig).resolve_right (hnotos path)
          rw [append_name a m.1 path, append_name b m.1 path] at hdiffer ⊢
          exact .inl (.modified path ho.2 hm hdiffer)
        · have hne : n ≠ m.1 := fun hn => hnotms path (hn ▸ hm)
          have ho := (hasObject_cons.mp horig).resolve_left fun ho => hne (ho.1.trans hname)
          exact .inr (.modified _ ho hm hdiffer)
    | new path hmod horig =>
      cases path with
      | nil => exact absurd hmod (not_hasObject_nil _)
      | cons n path =>
        rcases hasObject_cons.mp hmod with hm | hm
        · obtain ⟨hn, hm⟩ := hm
          subst hn
          rw [append_name b m.1 path]
          exact .inl (.new path hm fun ho => horig (hasObject_cons.mpr (.inl ⟨hname.symm, ho⟩)))
        · exact .inr (.new _ hm fun ho => horig (hasObject_cons.mpr (.inr ho)))
  · intro h
    rcases h with h | h
    · cases h with
      | modified path horig hmod hdiffer =>
        rw [← append_name a m.1 path, ← append_name b m.1 path] at hdiffer ⊢
        exact .modified _ (hasObject_cons.mpr (.inl ⟨hname.symm, horig⟩)) (hasObject_cons.mpr (.inl ⟨rfl, hmod⟩)) hdiffer
      | new path hmod horig =>
        rw [← append_name b m.1 path]
        refine .new _ (hasObject_cons.mpr (.inl ⟨rfl, hmod⟩)) ?_
        intro ho
        rcases hasObject_cons.mp ho with ho | ho
        · exact horig ho.2
        · exact hnotos path ho
    · cases h with
      | modified path horig hmod hdiffer =>
        cases path with
        | nil => exact absurd hmod (not_hasObject_nil _)
        | cons n path => exact .modified _ (hasObject_cons.mpr (.inr horig)) (hasObject_cons.mpr (.inr hmod)) hdiffer
      | new path hmod horig =>
        cases path with
        | nil => exact absurd hmod (not_hasObject_nil _)
        | cons n path =>
          refine .new _ (hasObject_cons.mpr (.inr hmod)) ?_
          intro ho
          rcases hasObject_cons.mp ho with ho | ho
          · obtain ⟨e, he, hen⟩ := hmod.name
            exact hms e he (hen.trans (ho.1.trans hname))
          · exact horig ho

/-- An old entry whose name no new one has. -/
theorem changed_removed (hms : ∀ e ∈ ms, e.1 ≠ o.1) :
    Changed elfcmp a b (.directory (o :: os)) (.directory ms) x ↔ Changed elfcmp a b (.directory os) (.directory ms) x := by
  have hsame : ∀ path, HasObject path (.directory ms) →
    (HasObject path (.directory (o :: os)) ↔ HasObject path (.directory os)) := by
    intro path hmod
    cases path with
    | nil => exact absurd hmod (not_hasObject_nil _)
    | cons n path =>
      rw [hasObject_cons]
      refine or_iff_right ?_
      intro ho
      obtain ⟨e, he, hen⟩ := hmod.name
      exact hms e he (hen.trans ho.1)
  refine ⟨?_, ?_⟩
  · intro h
    cases h with
    | modified path horig hmod hdiffer => exact .modified _ ((hsame path hmod).mp horig) hmod hdiffer
    | new path hmod horig => exact .new _ hmod fun ho => horig ((hsame path hmod).mpr ho)
  · intro h
    cases h with
    | modified path horig hmod hdiffer => exact .modified _ ((hsame path hmod).mpr horig) hmod hdiffer
    | new path hmod horig => exact .new _ hmod fun ho => horig ((hsame path hmod).mp ho)

theorem not_hasObject_empty (path : List N) : ¬ HasObject path (.directory []) := by
  intro h
  cases path with
  | nil => exact not_hasObject_nil _ h
  | cons n path =>
    obtain ⟨e, he, -⟩ := h.name
    cases he

/-- A new entry whose name no old one has. -/
theorem changed_added (a' : List N) (hos : ∀ e ∈ os, e.1 ≠ m.1) :
    Changed elfcmp a b (.directory os) (.directory (m :: ms)) x ↔
      Changed elfcmp a' (b ++ [m.1]) (.directory []) m.2 x ∨ Changed elfcmp a b (.directory os) (.directory ms) x := by
  have hnotos : ∀ path, ¬ HasObject (m.1 :: path) (.directory os) := by
    intro path h
    obtain ⟨e, he, hen⟩ := h.name
    exact hos e he hen
  refine ⟨?_, ?_⟩
  · intro h
    cases h with
    | modified path horig hmod hdiffer =>
      cases path with
      | nil => exact absurd hmod (not_hasObject_nil _)
      | cons n path =>
        rcases hasObject_cons.mp hmod with hm | hm
        · obtain ⟨hn, -⟩ := hm
          subst hn
          exact absurd horig (hnotos path)
        · exact .inr (.modified _ horig hm hdiffer)
    | new path hmod horig =>
      cases path with
      | nil => exact absurd hmod (not_hasObject_nil _)
      | cons n path =>
        rcases hasObject_cons.mp hmod with hm | hm
        · obtain ⟨hn, hm⟩ := hm
          subst hn
          rw [append_name b m.1 path]
          exact .inl (.new path hm (not_hasObject_empty path))
        · exact .inr (.new _ hm horig)
  · intro h
    rcases h with h | h
    · cases h with
      | modified path horig => exact absurd horig (not_hasObject_empty path)
      | new path hmod =>
        rw [← append_name b m.1 path]
        exact .new _ (hasObject_cons.mpr (.inl ⟨rfl, hmod⟩)) (hnotos path)
    · cases h with
      | modified path horig hmod hdiffer =>
        cases path with
        | nil => exact absurd hmod (not_hasObject_nil _)
        | cons n path => exact .modified _ horig (hasObject_cons.mpr (.inr hmod)) hdiffer
      | new path hmod horig =>
        cases path with
        | nil => exact absurd hmod (not_hasObject_nil _)
        | cons n path => exact .new _ (hasObject_cons.mpr (.inr hmod)) horig

/-- What changed in a directory is below one of its entries. -/
theorem Changed.below (h : Changed elfcmp a b (.directory os) (.directory ms) x) : ∃ m ∈ ms, Under (b ++ [m.1]) x := by
  have hbelow : ∀ path, HasObject path (.directory ms) → ∃ m ∈ ms, ∃ path', b ++ path = b ++ [m.1] ++ path' := by
    intro path hmod
    cases path with
    | nil => exact absurd hmod (not_hasObject_nil _)
    | cons n path =>
      obtain ⟨e, he, hen⟩ := hmod.name
      subst hen
      exact ⟨e, he, path, append_name b e.1 path⟩
  cases h with
  | modified path _ hmod => exact hbelow path hmod
  | new path hmod => exact hbelow path hmod

/-- What changed in a tree is in it. -/
theorem Changed.inside {orig mod : Node N} (h : Changed elfcmp a b orig mod x) : Under b x := by
  cases h with
  | modified path => exact ⟨path, rfl⟩
  | new path => exact ⟨path, rfl⟩

theorem hasObject_object {path : List N} : HasObject path .object ↔ path = [] := by
  cases path with
  | nil => exact ⟨fun _ => rfl, fun _ => rfl⟩
  | cons n path =>
    refine ⟨?_, fun h => absurd h (List.cons_ne_nil n path)⟩
    intro h
    obtain ⟨child, hmem, -⟩ := h
    cases hmem

/-- Two object files. -/
theorem changed_objects : Changed elfcmp a b .object .object x ↔ elfcmp a b = false ∧ x = ⟨.modified, some a, b⟩ := by
  refine ⟨?_, ?_⟩
  · intro h
    cases h with
    | modified path horig _ hdiffer =>
      cases hasObject_object.mp horig
      rw [List.append_nil, List.append_nil] at hdiffer ⊢
      exact ⟨hdiffer, rfl⟩
    | new path hmod horig => exact absurd hmod horig
  · intro h
    obtain ⟨hdiffer, hx⟩ := h
    have hmodified : elfcmp (a ++ []) (b ++ []) = false →
        Changed elfcmp a b .object .object ⟨.modified, some (a ++ []), b ++ []⟩ := .modified [] rfl rfl
    rw [List.append_nil, List.append_nil] at hmodified
    rw [hx]
    exact hmodified hdiffer

/-- An object file in the new tree only. -/
theorem changed_newObject : Changed elfcmp a b (.directory []) .object x ↔ x = ⟨.new, none, b⟩ := by
  refine ⟨?_, ?_⟩
  · intro h
    cases h with
    | modified path horig => exact absurd horig (not_hasObject_empty path)
    | new path hmod =>
      cases hasObject_object.mp hmod
      rw [List.append_nil]
  · intro h
    have hnew : Changed elfcmp a b (.directory []) .object ⟨.new, none, b ++ []⟩ := .new [] rfl (not_hasObject_nil [])
    rw [List.append_nil] at hnew
    rw [h]
    exact hnew

theorem not_changed_empty {orig : Node N} : ¬ Changed elfcmp a b orig (.directory []) x := by
  intro h
  cases h with
  | modified path _ hmod => exact not_hasObject_empty path hmod
  | new path hmod => exact not_hasObject_empty path hmod

/-- A directory is no object file. -/
theorem Changed.not_directory {orig : Node N} (h : Changed elfcmp a b orig (.directory ms) x) : x.pathToModified ≠ b := by
  intro hx
  cases h with
  | modified path _ hmod =>
    rw [List.append_right_eq_self.mp hx] at hmod
    exact not_hasObject_nil _ hmod
  | new path hmod =>
    rw [List.append_right_eq_self.mp hx] at hmod
    exact not_hasObject_nil _ hmod

end

/-! ## Where the paths lie -/

/-- What is found lies in the new tree that was given. -/
def KeepsInside (recur : Option (List N × Node N) → Option (List N × Node N) → Except Fault (List (ObjFileInfo N))) : Prop :=
  ∀ orig tree mod out, recur orig (some (tree, mod)) = .ok out → ∀ x ∈ out, Under tree x

section
variable {modSourceTree origSourceTree : List N} {numEntriesOrig : Nat} {dirEntriesMod : List (N × Node N)}

theorem trailing_under {pre ms : List (N × Node N)} {out : List (ObjFileInfo N)} (hms : dirEntriesMod = pre ++ ms)
    (h : trailing modSourceTree numEntriesOrig dirEntriesMod ms = .ok out) :
    ∀ x ∈ out, ∃ m ∈ ms, Under (modSourceTree ++ [m.1]) x := by
  unfold trailing at h
  split at h
  · cases h
    simp
  · obtain ⟨obj, hobj, h⟩ := bind_eq_ok.mp h
    cases h
    intro x hx
    rw [List.eq_of_mem_replicate hx]
    unfold trailingEntry at hobj
    split at hobj
    · cases hobj
    · next hfreed =>
      split at hobj
      · cases hobj
      · next entry hentry =>
        cases hobj
        have hle : pre.length ≤ numEntriesOrig := by
          rw [hms, List.length_append] at hfreed
          omega
        rw [hms, List.getElem?_append_right hle] at hentry
        exact ⟨entry, List.mem_of_getElem? hentry, [], (List.append_nil _).symm⟩

variable [LinearOrder N] {elfcmp : List N → List N → Bool}
  {recur : Option (List N × Node N) → Option (List N × Node N) → Except Fault (List (ObjFileInfo N))}

omit [LinearOrder N] in
theorem common_under (hrec : KeepsInside recur) {o m : N × Node N} {out : List (ObjFileInfo N)}
    (h : common modSourceTree elfcmp recur origSourceTree o m = .ok out) : ∀ x ∈ out, Under (modSourceTree ++ [m.1]) x := by
  unfold common at h
  split at h
  · exact hrec _ _ _ _ h
  · split at h
    · cases h
      simp
    · cases h
      intro x hx
      rw [List.mem_singleton.mp hx]
      exact ⟨[], (List.append_nil _).symm⟩
  · cases h

omit [LinearOrder N] in
theorem added_under (hrec : KeepsInside recur) {o m : N × Node N} {out : List (ObjFileInfo N)}
    (h : added modSourceTree recur o m = .ok out) : ∀ x ∈ out, Under (modSourceTree ++ [m.1]) x := by
  unfold added at h
  split at h
  · exact hrec _ _ _ _ h
  · cases h
    intro x hx
    rw [List.mem_singleton.mp hx]
    exact ⟨[], (List.append_nil _).symm⟩

def FindsNothing (recur : Option (List N × Node N) → Option (List N × Node N) →
    Except Fault (List (ObjFileInfo N))) : Prop :=
  ∀ orig out, recur orig none = .ok out → out = []

omit [LinearOrder N] in
theorem removed_empty (hrec : FindsNothing recur) {o : N × Node N} {out : List (ObjFileInfo N)}
    (h : removed recur origSourceTree o = .ok out) : out = [] := by
  unfold removed at h
  split at h
  · exact hrec _ _ h
  · cases h
    rfl

/-- What a walk finds lies below the new entries that it has yet to pass. -/
theorem walk_under (hrec : KeepsInside recur) (hnone : FindsNothing recur) (pre os ms : List (N × Node N))
    (hms : dirEntriesMod = pre ++ ms) (out : List (ObjFileInfo N))
    (h : walk modSourceTree numEntriesOrig dirEntriesMod elfcmp recur origSourceTree os ms = .ok out) :
    ∀ x ∈ out, ∃ m ∈ ms, Under (modSourceTree ++ [m.1]) x := by
  match os, ms with
  | [], ms =>
    rw [walk] at h
    exact trailing_under hms h
  | o :: os, [] =>
    rw [walk] at h
    cases h
    simp
  | o :: os, m :: ms =>
    have hms' : dirEntriesMod = (pre ++ [m]) ++ ms := by rw [hms, List.append_assoc]; rfl
    rw [walk] at h
    by_cases heq : o.1 = m.1
    · rw [if_pos heq] at h
      obtain ⟨found, hfound, h⟩ := bind_eq_ok.mp h
      obtain ⟨rest, hrest, h⟩ := bind_eq_ok.mp h
      cases h
      intro x hx
      rcases List.mem_append.mp hx with hx | hx
      · exact ⟨m, List.mem_cons_self, common_under hrec hfound x hx⟩
      · obtain ⟨m', hm', hx⟩ := walk_under hrec hnone (pre ++ [m]) os ms hms' rest hrest x hx
        exact ⟨m', List.mem_cons_of_mem _ hm', hx⟩
    · rw [if_neg heq] at h
      by_cases hlt : o.1 < m.1
      · rw [if_pos hlt] at h
        obtain ⟨found, hfound, h⟩ := bind_eq_ok.mp h
        obtain ⟨rest, hrest, h⟩ := bind_eq_ok.mp h
        cases h
        rw [removed_empty hnone hfound, List.nil_append]
        exact walk_under hrec hnone pre os (m :: ms) hms rest hrest
      · rw [if_neg hlt] at h
        obtain ⟨found, hfound, h⟩ := bind_eq_ok.mp h
        obtain ⟨rest, hrest, h⟩ := bind_eq_ok.mp h
        cases h
        intro x hx
        rcases List.mem_append.mp hx with hx | hx
        · exact ⟨m, List.mem_cons_self, added_under hrec hfound x hx⟩
        · obtain ⟨m', hm', hx⟩ := walk_under hrec hnone (pre ++ [m]) (o :: os) ms hms' rest hrest x hx
          exact ⟨m', List.mem_cons_of_mem _ hm', hx⟩
termination_by os.length + ms.length

end

/-- The recursion, by its walk. -/
theorem changedObjectFiles_walk [LinearOrder N] (elfcmp : List N → List N → Bool) (fuel : Nat)
    (orig mod : Option (List N × Node N)) :
    getChangedObjectFilesInSourceTree elfcmp (fuel + 1) orig mod =
      walk ((mod.map Prod.fst).getD []) (scandir orig).length (scandir mod) elfcmp
        (getChangedObjectFilesInSourceTree elfcmp fuel)
        ((orig.map Prod.fst).getD []) (scandir orig) (scandir mod) := by
  unfold getChangedObjectFilesInSourceTree
  exact (mergeLoop_walk (scandir orig) (scandir mod) []).trans (bind_pure _)

theorem findsNothing [LinearOrder N] (elfcmp : List N → List N → Bool) (fuel : Nat) :
    FindsNothing (getChangedObjectFilesInSourceTree elfcmp fuel) := by
  intro orig out h
  cases fuel with
  | zero => cases h
  | succ fuel =>
    rw [changedObjectFiles_walk] at h
    show out = []
    cases hscan : scandir orig with
    | nil =>
      rw [hscan] at h
      simp only [scandir] at h
      rw [walk] at h
      cases h
      rfl
    | cons o os =>
      rw [hscan] at h
      simp only [scandir] at h
      rw [walk] at h
      cases h
      rfl

theorem keepsInside [LinearOrder N] (elfcmp : List N → List N → Bool) (fuel : Nat) :
    KeepsInside (getChangedObjectFilesInSourceTree elfcmp fuel) := by
  induction fuel with
  | zero =>
    intro orig tree mod out h
    cases h
  | succ fuel ih =>
    intro orig tree mod out h x hx
    rw [changedObjectFiles_walk] at h
    obtain ⟨m, -, hunder⟩ := walk_under ih (findsNothing elfcmp fuel) [] _ _ rfl out h x hx
    exact hunder.weaken

/-! ## When the changes are found -/

/-- What the new entry is taken for: the old one that the loop looks at decides. -/
def TakenFor (o m : Node N) : Prop :=
  match o with
  | .object => m = .object
  | .directory _ => m = .directory [] ∨ ∃ n, m = .directory [(n, .object)]

section
variable [LinearOrder N]

/-- The old entry at which the main loop stands when it passes a new one: the least that is not below it. -/
def meets (os : List (N × Node N)) (n : N) : Option (N × Node N) := os.find? (n ≤ ·.1)

/-- The new entries that the main loop leaves. -/
def leftOver (os ms : List (N × Node N)) : List (N × Node N) := ms.filter fun m => (meets os m.1).isNone

/-- Trees for which the comparison is right. A new entry between old ones is what the old one above it lets it be
taken for; above all old entries there is nothing, or one object file in the place behind as many as the old tree has. -/
inductive Walkable : Node N → Node N → Prop
  | object : Walkable .object .object
  | directory {os ms : List (N × Node N)} :
    (∀ m ∈ ms, ∀ o, meets os m.1 = some o → o.1 = m.1 → Walkable o.2 m.2) →
    (∀ m ∈ ms, ∀ o, meets os m.1 = some o → o.1 ≠ m.1 → TakenFor o.2 m.2) →
    (leftOver os ms = [] ∨ (∃ n, leftOver os ms = [(n, .object)]) ∧ os.length + 1 = ms.length) →
    Walkable (.directory os) (.directory ms)

def MeetsWell (os : List (N × Node N)) (m : N × Node N) : Prop :=
  ∀ o, meets os m.1 = some o → (o.1 = m.1 → Walkable o.2 m.2) ∧ (o.1 ≠ m.1 → TakenFor o.2 m.2)

def WalkableFrom (inPlace : Prop) (os ms : List (N × Node N)) : Prop :=
  (∀ m ∈ ms, MeetsWell os m) ∧ (leftOver os ms = [] ∨ (∃ n, leftOver os ms = [(n, .object)]) ∧ inPlace)

variable {os ms : List (N × Node N)} {o m : N × Node N} {inPlace : Prop}

theorem walkable_directory :
    Walkable (.directory os) (.directory ms) ↔ WalkableFrom (os.length + 1 = ms.length) os ms := by
  refine ⟨?_, ?_⟩
  · intro h
    cases h with
    | directory hcommon hadded hleft => exact ⟨fun m hm o ho => ⟨hcommon m hm o ho, hadded m hm o ho⟩, hleft⟩
  · intro h
    exact .directory (fun m hm o ho => (h.1 m hm o ho).1) (fun m hm o ho => (h.1 m hm o ho).2) h.2

theorem meets_here {n : N} (h : n ≤ o.1) : meets (o :: os) n = some o := by simp [meets, h]

theorem meets_later {n : N} (h : o.1 < n) : meets (o :: os) n = meets os n := by simp [meets, h]

theorem meetsWell_later (h : o.1 < m.1) : MeetsWell (o :: os) m ↔ MeetsWell os m := by
  unfold MeetsWell
  rw [meets_later h]

theorem leftOver_later (h : ∀ m ∈ ms, o.1 < m.1) : leftOver (o :: os) ms = leftOver os ms := by
  refine List.filter_congr ?_
  intro m hm
  rw [meets_later (h m hm)]

theorem leftOver_here (h : m.1 ≤ o.1) : leftOver (o :: os) (m :: ms) = leftOver (o :: os) ms := by
  simp [leftOver, meets_here h]

theorem walkableFrom_nil : WalkableFrom inPlace [] ms ↔ ms = [] ∨ (∃ n, ms = [(n, .object)]) ∧ inPlace := by
  have hleft : leftOver [] ms = ms := List.filter_eq_self.mpr fun m _ => rfl
  have hmeets : ∀ m ∈ ms, MeetsWell [] m := by
    intro m _ o ho
    cases ho
  unfold WalkableFrom
  rw [hleft]
  exact and_iff_right hmeets

theorem walkableFrom_end : WalkableFrom inPlace os [] := ⟨fun _ hm => absurd hm List.not_mem_nil, .inl rfl⟩

theorem walkableFrom_common (hname : o.1 = m.1) (hms : ∀ e ∈ ms, m.1 < e.1) :
    WalkableFrom inPlace (o :: os) (m :: ms) ↔ Walkable o.2 m.2 ∧ WalkableFrom inPlace os ms := by
  have hbelow : ∀ e ∈ ms, o.1 < e.1 := fun e he => hname ▸ hms e he
  have hmeets : MeetsWell (o :: os) m ↔ Walkable o.2 m.2 := by
    unfold MeetsWell
    rw [meets_here hname.ge]
    simp [hname]
  have hrest : (∀ e ∈ ms, MeetsWell (o :: os) e) ↔ ∀ e ∈ ms, MeetsWell os e :=
    forall₂_congr fun e he => meetsWell_later (hbelow e he)
  unfold WalkableFrom
  rw [leftOver_here hname.ge, leftOver_later hbelow, List.forall_mem_cons, hmeets, hrest, and_assoc]

theorem walkableFrom_removed (hlt : o.1 < m.1) (hms : ∀ e ∈ ms, m.1 < e.1) :
    WalkableFrom inPlace (o :: os) (m :: ms) ↔ WalkableFrom inPlace os (m :: ms) := by
  have hbelow : ∀ e ∈ m :: ms, o.1 < e.1 := by
    intro e he
    rcases List.mem_cons.mp he with heq | he
    · rw [heq]
      exact hlt
    · exact hlt.trans (hms e he)
  have hrest : (∀ e ∈ m :: ms, MeetsWell (o :: os) e) ↔ ∀ e ∈ m :: ms, MeetsWell os e :=
    forall₂_congr fun e he => meetsWell_later (hbelow e he)
  unfold WalkableFrom
  rw [leftOver_later hbelow, hrest]

theorem walkableFrom_added (hlt : m.1 < o.1) :
    WalkableFrom inPlace (o :: os) (m :: ms) ↔ TakenFor o.2 m.2 ∧ WalkableFrom inPlace (o :: os) ms := by
  have hmeets : MeetsWell (o :: os) m ↔ TakenFor o.2 m.2 := by
    unfold MeetsWell
    rw [meets_here hlt.le]
    simp [hlt.ne']
  unfold WalkableFrom
  rw [leftOver_here hlt.le, List.forall_mem_cons, hmeets, and_assoc]

end

/-! ## What is returned -/

/-- The files of a set, each once and nothing else. -/
def Returns (x : Except Fault (List (ObjFileInfo N))) (P : ObjFileInfo N → Prop) :
    Prop := ∃ out, x = .ok out ∧ Enumerates out P

section
variable {P Q : ObjFileInfo N → Prop}

theorem returns_ok {out : List (ObjFileInfo N)} : Returns (.ok out) P ↔ Enumerates out P := by
  refine ⟨?_, fun h => ⟨out, rfl, h⟩⟩
  intro h
  obtain ⟨out', hout, h⟩ := h
  cases hout
  exact h

theorem returns_congr {x : Except Fault (List (ObjFileInfo N))} (h : ∀ e, P e ↔ Q e) : Returns x P ↔ Returns x Q :=
  exists_congr fun _ => and_congr_right' (enumerates_congr h)

/-- Two parts whose paths are told apart. -/
theorem returns_append {T : ObjFileInfo N → Prop} {x y : Except Fault (List (ObjFileInfo N))}
    (hx : ∀ out, x = .ok out → ∀ e ∈ out, T e) (hP : ∀ e, P e → T e) (hy : ∀ out, y = .ok out → ∀ e ∈ out, ¬ T e)
    (hQ : ∀ e, Q e → ¬ T e) :
    Returns (x >>= fun found => y >>= fun rest => .ok (found ++ rest)) (fun e => P e ∨ Q e) ↔ Returns x P ∧ Returns y Q := by
  refine ⟨?_, ?_⟩
  · intro h
    obtain ⟨out, hout, hall⟩ := h
    obtain ⟨found, hfound, hout⟩ := bind_eq_ok.mp hout
    obtain ⟨rest, hrest, hout⟩ := bind_eq_ok.mp hout
    cases hout
    have hparts := (enumerates_append (hx found hfound) hP (hy rest hrest) hQ).mp hall
    exact ⟨⟨found, hfound, hparts.1⟩, ⟨rest, hrest, hparts.2⟩⟩
  · intro h
    obtain ⟨⟨found, hfound, hP'⟩, ⟨rest, hrest, hQ'⟩⟩ := h
    refine ⟨found ++ rest, ?_, ?_⟩
    · rw [hfound, bind_ok, hrest, bind_ok]
    · exact (enumerates_append (hx found hfound) hP (hy rest hrest) hQ).mpr ⟨hP', hQ'⟩

end

section
variable {elfcmp : List N → List N → Bool} {modSourceTree origSourceTree : List N} {numEntriesOrig : Nat}
  {dirEntriesMod pre os ms : List (N × Node N)}

/-- What the last loop returns is right when it has nothing to report, or one object file under its own index. -/
theorem trailing_returns (hms : dirEntriesMod = pre ++ ms) :
    Returns (trailing modSourceTree numEntriesOrig dirEntriesMod ms)
        (Changed elfcmp origSourceTree modSourceTree (.directory []) (.directory ms)) ↔
      ms = [] ∨ (∃ n, ms = [(n, .object)]) ∧ numEntriesOrig + 1 = dirEntriesMod.length := by
  unfold trailing
  by_cases hnil : ms = []
  · rw [if_pos hnil, returns_ok, hnil]
    simp [enumerates_nil, not_changed_empty]
  rw [if_neg hnil, or_iff_right hnil]
  have hfreed : dirEntriesMod.length - ms.length = pre.length := by simp [hms]
  rw [hfreed]
  refine ⟨?_, ?_⟩
  · intro h
    obtain ⟨out, hout, hall⟩ := h
    obtain ⟨obj, hobj, hout⟩ := bind_eq_ok.mp hout
    cases hout
    have hone : ms.length = 1 := by
      have hpos := List.length_pos_iff.mpr hnil
      by_contra hmany
      exact not_enumerates_replicate (by omega) obj hall
    obtain ⟨m, hm⟩ := List.length_eq_one_iff.mp hone
    subst hm
    unfold trailingEntry at hobj
    split at hobj
    · cases hobj
    · next hle =>
      split at hobj
      · cases hobj
      · next entry hentry =>
        cases hobj
        have hlength : dirEntriesMod.length = pre.length + 1 := by simp [hms]
        have hindex : numEntriesOrig = pre.length := by
          have := (List.getElem?_eq_some_iff.mp hentry).1
          omega
        rw [hindex, hms, List.getElem?_append_right (Nat.le_refl _), Nat.sub_self] at hentry
        cases hentry
        refine ⟨⟨m.1, ?_⟩, by omega⟩
        have hchanged := (hall.2 _).mp (List.mem_singleton_self _)
        rw [changed_added origSourceTree (by simp)] at hchanged
        have hbelow := hchanged.resolve_right not_changed_empty
        cases hkind : m.2 with
        | object => rw [← hkind]
        | directory l =>
          rw [hkind] at hbelow
          exact absurd rfl hbelow.not_directory
  · intro h
    obtain ⟨⟨n, hn⟩, hplace⟩ := h
    subst hn
    have hindex : numEntriesOrig = pre.length := by
      rw [hms, List.length_append] at hplace
      exact Nat.succ_injective hplace
    have hentry : trailingEntry modSourceTree numEntriesOrig dirEntriesMod pre.length =
      .ok ⟨.new, none, modSourceTree ++ [n]⟩ := by
      unfold trailingEntry
      rw [if_neg (by omega), hindex, hms, List.getElem?_append_right (Nat.le_refl _), Nat.sub_self]
      rfl
    rw [hentry, bind_ok, returns_ok]
    show Enumerates [_] _
    rw [enumerates_singleton]
    intro x
    rw [changed_added origSourceTree (by simp), or_iff_left not_changed_empty]
    exact changed_newObject

variable [LinearOrder N]
  {recur : Option (List N × Node N) → Option (List N × Node N) → Except Fault (List (ObjFileInfo N))}

/-- **The walk**, from what each turn returns. -/
theorem walk_returns (hkeep : KeepsInside recur) (hnone : FindsNothing recur) (pre os ms : List (N × Node N))
    (hms : dirEntriesMod = pre ++ ms) (hossorted : os.Pairwise (·.1 < ·.1)) (hmssorted : ms.Pairwise (·.1 < ·.1))
    (hcommon : ∀ o ∈ os, ∀ m ∈ ms, o.1 = m.1 →
      (Returns (common modSourceTree elfcmp recur origSourceTree o m)
          (Changed elfcmp (origSourceTree ++ [m.1]) (modSourceTree ++ [m.1]) o.2 m.2) ↔
        Walkable o.2 m.2))
    (hremoved : ∀ o ∈ os, removed recur origSourceTree o = .ok [])
    (hadded : ∀ o ∈ os, ∀ m ∈ ms,
      (Returns (added modSourceTree recur o m) (Changed elfcmp origSourceTree (modSourceTree ++ [m.1]) (.directory []) m.2) ↔
        TakenFor o.2 m.2)) :
    Returns (walk modSourceTree numEntriesOrig dirEntriesMod elfcmp recur origSourceTree os ms)
        (Changed elfcmp origSourceTree modSourceTree (.directory os) (.directory ms)) ↔
      WalkableFrom (numEntriesOrig + 1 = dirEntriesMod.length) os ms := by
  match os, ms with
  | [], ms =>
    rw [walk, walkableFrom_nil]
    exact trailing_returns hms
  | o :: os, [] =>
    rw [walk, returns_ok, enumerates_nil]
    exact iff_of_true (fun _ => not_changed_empty) walkableFrom_end
  | o :: os, m :: ms =>
    have hms' : dirEntriesMod = (pre ++ [m]) ++ ms := by rw [hms, List.append_assoc]; rfl
    obtain ⟨hoslt, hossorted'⟩ := List.pairwise_cons.mp hossorted
    obtain ⟨hmslt, hmssorted'⟩ := List.pairwise_cons.mp hmssorted
    have hmsne : ∀ e ∈ ms, e.1 ≠ m.1 := fun e he => (hmslt e he).ne'
    -- what the rest finds has another entry's name on its path
    have hrest : ∀ e, (∃ m' ∈ ms, Under (modSourceTree ++ [m'.1]) e) → ¬ Under (modSourceTree ++ [m.1]) e := by
      intro e he hunder
      obtain ⟨m', hm', he⟩ := he
      exact hmsne m' hm' (under_unique he hunder)
    rw [walk]
    by_cases heq : o.1 = m.1
    · have hosne : ∀ e ∈ os, e.1 ≠ m.1 := fun e he => heq ▸ (hoslt e he).ne'
      have ih := walk_returns hkeep hnone (pre ++ [m]) os ms hms' hossorted' hmssorted'
        (fun o' ho' m' hm' => hcommon o' (List.mem_cons_of_mem o ho') m' (List.mem_cons_of_mem m hm'))
        (fun o' ho' => hremoved o' (List.mem_cons_of_mem o ho'))
        (fun o' ho' m' hm' => hadded o' (List.mem_cons_of_mem o ho') m' (List.mem_cons_of_mem m hm'))
      rw [if_pos heq, walkableFrom_common heq hmslt, ← hcommon o List.mem_cons_self m List.mem_cons_self heq, ← ih,
        returns_congr fun e => changed_common heq hosne hmsne]
      exact returns_append (fun out hout => common_under hkeep hout) (fun e he => he.inside)
        (fun out hout e he => hrest e (walk_under hkeep hnone (pre ++ [m]) os ms hms' out hout e he))
        (fun e he => hrest e he.below)
    · rw [if_neg heq]
      by_cases hlt : o.1 < m.1
      · have hne : ∀ e ∈ m :: ms, e.1 ≠ o.1 := by
          intro e he
          rcases List.mem_cons.mp he with he | he
          · rw [he]
            exact hlt.ne'
          · exact (hlt.trans (hmslt e he)).ne'
        have ih := walk_returns hkeep hnone pre os (m :: ms) hms hossorted' hmssorted
          (fun o' ho' m' hm' => hcommon o' (List.mem_cons_of_mem o ho') m' hm')
          (fun o' ho' => hremoved o' (List.mem_cons_of_mem o ho'))
          (fun o' ho' m' hm' => hadded o' (List.mem_cons_of_mem o ho') m' hm')
        rw [if_pos hlt, walkableFrom_removed hlt hmslt, ← ih, returns_congr fun e => changed_removed hne,
          hremoved o List.mem_cons_self, bind_ok]
        exact iff_of_eq (congrArg (Returns · _) (bind_pure _))
      · have hgt : m.1 < o.1 := lt_of_le_of_ne (not_lt.mp hlt) (Ne.symm heq)
        have hne : ∀ e ∈ o :: os, e.1 ≠ m.1 := by
          intro e he
          rcases List.mem_cons.mp he with he | he
          · rw [he]
            exact hgt.ne'
          · exact (hgt.trans (hoslt e he)).ne'
        have ih := walk_returns hkeep hnone (pre ++ [m]) (o :: os) ms hms' hossorted hmssorted'
          (fun o' ho' m' hm' => hcommon o' ho' m' (List.mem_cons_of_mem m hm')) hremoved
          (fun o' ho' m' hm' => hadded o' ho' m' (List.mem_cons_of_mem m hm'))
        rw [if_neg hlt, walkableFrom_added hgt, ← hadded o List.mem_cons_self m List.mem_cons_self, ← ih,
          returns_congr fun e => changed_added origSourceTree hne]
        exact returns_append (fun out hout => added_under hkeep hout) (fun e he => he.inside)
          (fun out hout e he => hrest e (walk_under hkeep hnone (pre ++ [m]) (o :: os) ms hms' out hout e he))
          (fun e he => hrest e he.below)
termination_by os.length + ms.length

end

/-! ## Whole trees -/

/-- `alphasort`. -/
inductive Node.Sorted [LinearOrder N] : Node N → Prop
  | object : Sorted .object
  | directory {entries : List (N × Node N)} : entries.Pairwise (·.1 < ·.1) → (∀ e ∈ entries, Sorted e.2) →
    Sorted (.directory entries)

/-- No directory has the name of an object file. -/
inductive SameKinds : Node N → Node N → Prop
  | object : SameKinds .object .object
  | directory {os ms : List (N × Node N)} : (∀ o ∈ os, ∀ m ∈ ms, o.1 = m.1 → SameKinds o.2 m.2) →
    SameKinds (.directory os) (.directory ms)

/-- The depth of a tree is no more than this. -/
def DepthAtMost : Nat → Node N → Prop
  | _, .object => True
  | 0, .directory _ => False
  | depth + 1, .directory entries => ∀ e ∈ entries, DepthAtMost depth e.2

theorem DepthAtMost.mono {depth depth' : Nat} (hle : depth ≤ depth') {node : Node N} (h : DepthAtMost depth node) :
    DepthAtMost depth' node := by
  induction depth' generalizing depth node with
  | zero =>
    rw [← Nat.le_zero.mp hle]
    exact h
  | succ depth' ih =>
    cases node with
    | object => exact trivial
    | directory entries =>
      cases depth with
      | zero => exact h.elim
      | succ depth => exact fun e he => ih (Nat.le_of_succ_le_succ hle) (h e he)

/-- Every tree has a depth. -/
theorem exists_depth : (node : Node N) → ∃ depth, DepthAtMost depth node
  | .object => ⟨0, trivial⟩
  | .directory entries => by
    have hbelow : ∀ e ∈ entries, ∃ depth, DepthAtMost depth e.2 := fun e _ => exists_depth e.2
    have hall : ∀ l : List (N × Node N), (∀ e ∈ l, ∃ depth, DepthAtMost depth e.2) → ∃ depth, ∀ e ∈ l,
      DepthAtMost depth e.2 := by
      intro l
      induction l with
      | nil => exact fun _ => ⟨0, by simp⟩
      | cons e l ih =>
        intro h
        obtain ⟨first, hfirst⟩ := h e List.mem_cons_self
        obtain ⟨rest, hrest⟩ := ih fun e' he' => h e' (List.mem_cons_of_mem e he')
        refine ⟨max first rest, ?_⟩
        intro e' he'
        rcases List.mem_cons.mp he' with heq | he'
        · rw [heq]
          exact hfirst.mono (Nat.le_max_left _ _)
        · exact (hrest e' he').mono (Nat.le_max_right _ _)
    obtain ⟨depth, hdepth⟩ := hall entries hbelow
    exact ⟨depth + 1, hdepth⟩
termination_by node => sizeOf node
decreasing_by
  have := List.sizeOf_lt_of_mem ‹_ ∈ entries›
  cases e
  simp_all
  omega

section
variable [LinearOrder N] {elfcmp : List N → List N → Bool} {a b : List N}

/-- A tree that only the new version has. -/
theorem newTree_returns (fuel : Nat) (mod : Node N) :
    Returns (getChangedObjectFilesInSourceTree elfcmp (fuel + 1) none (some (b, mod)))
      (Changed elfcmp a b (.directory []) mod) ↔
      mod = .directory [] ∨ ∃ n, mod = .directory [(n, .object)] := by
  rw [changedObjectFiles_walk]
  cases mod with
  | object =>
    have hwalk : walk b 0 ([] : List (N × Node N)) elfcmp (getChangedObjectFilesInSourceTree elfcmp fuel) [] []
      [] = .ok [] := by
      rw [walk]
      rfl
    refine iff_of_false ?_ (by simp)
    intro h
    have hnone := enumerates_nil.mp (returns_ok.mp ((congrArg (Returns · _) hwalk).mp h))
    exact hnone _ (changed_newObject.mpr rfl)
  | directory ms =>
    have hwalk : walk b 0 ms elfcmp (getChangedObjectFilesInSourceTree elfcmp fuel) []
      [] ms = trailing b 0 ms ms := by rw [walk]
    refine (iff_of_eq (congrArg (Returns · _) hwalk)).trans ((trailing_returns (List.nil_append ms).symm).trans ?_)
    refine ⟨?_, ?_⟩
    · intro h
      rcases h with h | h
      · exact .inl (congrArg _ h)
      · obtain ⟨⟨n, hn⟩, -⟩ := h
        exact .inr ⟨n, congrArg _ hn⟩
    · intro h
      rcases h with h | h
      · cases h
        exact .inl rfl
      · obtain ⟨n, hn⟩ := h
        cases hn
        exact .inr ⟨⟨n, rfl⟩, rfl⟩

/-- A tree that only the old version has. -/
theorem oldTree_returns (fuel : Nat) (orig : Option (List N × Node N)) :
    getChangedObjectFilesInSourceTree elfcmp (fuel + 1) orig none = .ok [] := by
  rw [changedObjectFiles_walk]
  cases hscan : scandir orig with
  | nil =>
    show walk _ _ _ _ _ _ _ [] = _
    rw [walk]
    rfl
  | cons o os =>
    show walk _ _ _ _ _ _ _ [] = _
    rw [walk]

/-- The turn for two entries of one kind. -/
theorem common_returns {fuel : Nat} {o m : N × Node N} (hname : o.1 = m.1) (hkinds : SameKinds o.2 m.2)
    (hrec : ∀ os ms, o.2 = .directory os → m.2 = .directory ms →
      (Returns (getChangedObjectFilesInSourceTree elfcmp fuel (some (a ++ [m.1], o.2)) (some (b ++ [m.1], m.2)))
          (Changed elfcmp (a ++ [m.1]) (b ++ [m.1]) o.2 m.2) ↔
        Walkable o.2 m.2)) :
    Returns (common b elfcmp (getChangedObjectFilesInSourceTree elfcmp fuel) a o m)
        (Changed elfcmp (a ++ [m.1]) (b ++ [m.1]) o.2 m.2) ↔
      Walkable o.2 m.2 := by
  unfold common
  rw [hname]
  cases ho : o.2 with
  | object =>
    cases hm : m.2 with
    | object =>
      refine iff_of_true ?_ .object
      cases helf : elfcmp (a ++ [m.1]) (b ++ [m.1]) with
      | true =>
        show Returns (.ok []) _
        simp [returns_ok, enumerates_nil, changed_objects, helf]
      | false =>
        show Returns (.ok [_]) _
        simp [returns_ok, enumerates_singleton, changed_objects, helf]
    | directory ms =>
      rw [ho, hm] at hkinds
      cases hkinds
  | directory os =>
    cases hm : m.2 with
    | object =>
      rw [ho, hm] at hkinds
      cases hkinds
    | directory ms =>
      have h := hrec os ms ho hm
      rw [ho, hm] at h
      exact h

/-- The turn for a new entry below an old one. -/
theorem added_returns {fuel : Nat} {o m : N × Node N} (hdepth : DepthAtMost fuel o.2) :
    Returns (added b (getChangedObjectFilesInSourceTree elfcmp fuel) o m)
      (Changed elfcmp a (b ++ [m.1]) (.directory []) m.2) ↔
      TakenFor o.2 m.2 := by
  unfold added
  cases ho : o.2 with
  | object =>
    show Returns (.ok [_]) _ ↔ m.2 = .object
    rw [returns_ok, enumerates_singleton]
    cases m.2 with
    | object => exact iff_of_true (fun x => changed_newObject) rfl
    | directory ms =>
      refine iff_of_false ?_ (by simp)
      intro h
      have hdirectory : Changed elfcmp a (b ++ [m.1]) (.directory []) (.directory ms)
        ⟨.new, none, b ++ [m.1]⟩ := (h _).mpr rfl
      exact hdirectory.not_directory rfl
  | directory os =>
    rw [ho] at hdepth
    cases fuel with
    | zero => exact hdepth.elim
    | succ fuel => exact newTree_returns fuel m.2

theorem removed_returns {fuel : Nat} {o : N × Node N} (hdepth : DepthAtMost fuel o.2) :
    removed (getChangedObjectFilesInSourceTree elfcmp fuel) a o = .ok [] := by
  unfold removed
  cases ho : o.2 with
  | object => rfl
  | directory os =>
    rw [ho] at hdepth
    cases fuel with
    | zero => exact hdepth.elim
    | succ fuel => exact oldTree_returns fuel _

/-- Two directories, with fuel for their depth. -/
theorem directories_return (fuel : Nat) {os ms : List (N × Node N)} (hos : (Node.directory os).Sorted)
    (hms : (Node.directory ms).Sorted) (hkinds : SameKinds (.directory os) (.directory ms))
    (hdepth : DepthAtMost fuel (.directory os)) :
    Returns (getChangedObjectFilesInSourceTree elfcmp fuel (some (a, .directory os)) (some (b, .directory ms)))
        (Changed elfcmp a b (.directory os) (.directory ms)) ↔
      Walkable (.directory os) (.directory ms) := by
  induction fuel generalizing a b os ms with
  | zero => exact hdepth.elim
  | succ fuel ih =>
    cases hos with
    | directory hossorted hosbelow =>
      cases hms with
      | directory hmssorted hmsbelow =>
        cases hkinds with
        | directory hkinds =>
          have hcommon : ∀ o ∈ os, ∀ m ∈ ms, o.1 = m.1 →
              (Returns (common b elfcmp (getChangedObjectFilesInSourceTree elfcmp fuel) a o m)
                  (Changed elfcmp (a ++ [m.1]) (b ++ [m.1]) o.2 m.2) ↔
                Walkable o.2 m.2) := by
            intro o ho m hm hname
            refine common_returns hname (hkinds o ho m hm hname) ?_
            intro os' ms' hos' hms'
            have hsorted := hosbelow o ho
            have hsorted' := hmsbelow m hm
            have hsame := hkinds o ho m hm hname
            have hdeep := hdepth o ho
            rw [hos'] at hsorted hsame hdeep ⊢
            rw [hms'] at hsorted' hsame ⊢
            exact ih hsorted hsorted' hsame hdeep
          rw [changedObjectFiles_walk, walkable_directory]
          exact walk_returns (keepsInside elfcmp fuel) (findsNothing elfcmp fuel) [] os ms rfl hossorted hmssorted hcommon
            (fun o ho => removed_returns (hdepth o ho)) (fun o ho m _ => added_returns (hdepth o ho))

/-- **What changed is returned exactly when the trees are walkable**, for sorted trees in which no directory has
the name of an object file, whatever `elfcmp` says. -/
theorem changedObjectFiles_iff (elfcmp : List N → List N → Bool) (origSourceTree modSourceTree : List N)
    (os ms : List (N × Node N)) (hos : (Node.directory os).Sorted) (hms : (Node.directory ms).Sorted)
    (hkinds : SameKinds (.directory os) (.directory ms)) :
    ∃ depth, ∀ fuel, depth ≤ fuel →
      (Returns (getChangedObjectFilesInSourceTree elfcmp fuel (some (origSourceTree, .directory os))
            (some (modSourceTree, .directory ms)))
          (Changed elfcmp origSourceTree modSourceTree (.directory os) (.directory ms)) ↔
        Walkable (.directory os) (.directory ms)) := by
  obtain ⟨depth, hdepth⟩ := exists_depth (Node.directory os)
  exact ⟨depth, fun fuel hle => directories_return fuel hos hms hkinds (hdepth.mono hle)⟩

end

/-- One object file in both trees, and one behind it in the new tree. -/
theorem oneNew_found :
    ∃ depth, ∀ fuel, depth ≤ fuel →
      Returns (getChangedObjectFilesInSourceTree (fun _ _ => false) fuel (some ([0], .directory [(3, .object)]))
          (some ([1], .directory [(3, .object), (4, .object)])))
        (Changed (fun _ _ => false) [0] [1] (.directory [(3, .object)]) (.directory [(3, .object), (4, .object)])) := by
  have hos : (Node.directory [((3 : Nat), .object)]).Sorted := by
    refine .directory (by simp) ?_
    simp [Node.Sorted.object]
  have hms : (Node.directory [((3 : Nat), .object), (4, .object)]).Sorted := by
    refine .directory (by simp) ?_
    simp [Node.Sorted.object]
  have hkinds : SameKinds (.directory [((3 : Nat), .object)]) (.directory [(3, .object), (4, .object)]) := by
    refine .directory ?_
    simp [SameKinds.object]
  have hwalkable : Walkable (.directory [((3 : Nat), .object)]) (.directory [(3, .object), (4, .object)]) := by
    rw [walkable_directory, walkableFrom_common rfl (by simp), walkableFrom_nil]
    exact ⟨.object, .inr ⟨⟨4, rfl⟩, rfl⟩⟩
  obtain ⟨depth, hdepth⟩ := changedObjectFiles_iff (fun _ _ => false) [0] [1] _ _ hos hms hkinds
  exact ⟨depth, fun fuel hle => (hdepth fuel hle).mpr hwalkable⟩

/-- Two new files in a directory that had none: the first of them is reported twice. -/
theorem not_changedObjectFiles :
    ¬ ∀ (elfcmp : List Nat → List Nat → Bool) (origSourceTree modSourceTree : List Nat) (os ms : List (Nat × Node Nat)),
      (Node.directory os).Sorted → (Node.directory ms).Sorted → SameKinds (.directory os) (.directory ms) →
      ∃ depth, ∀ fuel, depth ≤ fuel →
        Returns (getChangedObjectFilesInSourceTree elfcmp fuel (some (origSourceTree, .directory os))
            (some (modSourceTree, .directory ms)))
          (Changed elfcmp origSourceTree modSourceTree (.directory os) (.directory ms)) := by
  intro h
  have hos : (Node.directory ([] : List (Nat × Node Nat))).Sorted := .directory .nil (by simp)
  have hms : (Node.directory [((3 : Nat), .object), (4, .object)]).Sorted := by
    refine .directory (by simp) ?_
    simp [Node.Sorted.object]
  have hkinds : SameKinds (.directory []) (.directory [((3 : Nat), .object), (4, .object)]) := .directory (by simp)
  obtain ⟨depth, hdepth⟩ := h (fun _ _ => false) [0] [1] _ _ hos hms hkinds
  have hfound := hdepth (depth + 1) (Nat.le_succ depth)
  have hempty : DepthAtMost (depth + 1) (Node.directory ([] : List (Nat × Node Nat))) :=
    fun e he => absurd he List.not_mem_nil
  rw [directories_return (depth + 1) hos hms hkinds hempty, walkable_directory, walkableFrom_nil] at hfound
  simp at hfound

end Katana

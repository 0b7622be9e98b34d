/-
  Katana.RelativePath — a path relative to another one (makePathRelativeTo and getPathComponents of util/path.c).

  A path that the reference is a string prefix of is cut; of any other the components are compared. `realpath` gives
  no path of `PATH_MAX` bytes, so no int of the functions overflows.

  Proved, for every two canonical paths:
  - `getPathComponents_text`: the components of a path.
  - `sameCnt_ok` / `sameCnt_undefined`: where the components differ, and when one array is left before that.
  - `resolvesBack_iff`: exactly when the result is defined and leads from the reference back to the path.
-/
import Katana.CString
import Katana.Fault
import Mathlib.Data.List.Induction

namespace Katana.Paths

def slash : UInt8 := 47
def dot : UInt8 := 46
def backslash : UInt8 := 92

/-! ## The functions -/

/-- A turn of the loop over a path. The separators of the path are overwritten, and `components` are the indices at
which its components start. -/
def splitAt (i : Nat) (path : List UInt8) (components : List Nat) : List UInt8 × List Nat :=
  if path[i]? = some slash ∧ (i = 0 ∨ path[i - 1]? ≠ some backslash) then (path.set i 0, components ++ [i + 1])
  else if i = 0 then (path, components ++ [0])
  else (path, components)

def splitFrom : Nat → Nat → List UInt8 → List Nat → List UInt8 × List Nat
  | 0, _, path, components => (path, components)
  | left + 1, i, path, components =>
    splitFrom left (i + 1) (splitAt i path components).1 (splitAt i path components).2

/-- The strings the array points at; an empty path has no array. -/
def getPathComponents (path : List UInt8) : Option (List (List UInt8)) :=
  if path = [] then none
  else
    let (split, components) := splitFrom path.length 0 path []
    some (components.map fun start => stringOf (split.drop start))

/-- `for(;!strcmp(pathComponents[sameCnt],refComponents[sameCnt]);sameCnt++)`, where an array ends in a null pointer. -/
def sameCnt : List (List UInt8) → List (List UInt8) → Except Fault Nat
  | p :: path, r :: ref =>
    if p = r then do
      let cnt ← sameCnt path ref
      .ok (cnt + 1)
    else .ok 0
  | _, _ => .error .undefined

def up : List UInt8 := [dot, dot, slash]

def copyComponents : List (List UInt8) → List UInt8
  | [] => []
  | [p] => p
  | p :: path => p ++ slash :: copyComponents path

/-- The result for a path of `len` bytes that is not cut. -/
def walk (len : Nat) (pathComponents refComponents : List (List UInt8)) : Except Fault (List UInt8) := do
  let same ← sameCnt pathComponents refComponents
  let upCnt := (refComponents.drop same).length
  let result := (List.replicate upCnt up).flatten ++ copyComponents (pathComponents.drop same)
  -- what `zmalloc` gives for it
  defined (result.length < len + upCnt * 3 + 2)
  .ok result

def absPath (realpath : List UInt8 → Option (List UInt8)) (path : List UInt8) : Option (List UInt8) :=
  if path = [] then some [] else realpath path

/-- The result, or the null pointer. -/
def makePathRelativeTo (realpath : List UInt8 → Option (List UInt8)) (path ref : List UInt8) :
    Except Fault (Option (List UInt8)) :=
  match absPath realpath path, absPath realpath ref with
  | some path_, some ref_ =>
    if ref = [] then .ok (some path)
    else if path = [] then .ok (some path)
    else if ref_ <+: path_ then .ok (some (path_.drop ref_.length))
    else
      match getPathComponents path, getPathComponents ref with
      | some pathComponents, some refComponents => do
        let result ← walk path.length pathComponents refComponents
        .ok (some result)
      | _, _ => .error .undefined
  | _, _ => .ok none

/-! ## Canonical paths -/

structure Component (c : List UInt8) : Prop where
  nonempty : c ≠ []
  noSlash : slash ∉ c
  noBackslash : backslash ∉ c
  noNul : 0 ∉ c
  notHere : c ≠ [dot]
  notUp : c ≠ [dot, dot]

instance (c : List UInt8) : Decidable (Component c) :=
  decidable_of_iff (c ≠ [] ∧ slash ∉ c ∧ backslash ∉ c ∧ 0 ∉ c ∧ c ≠ [dot] ∧ c ≠ [dot, dot])
    ⟨fun h => ⟨h.1, h.2.1, h.2.2.1, h.2.2.2.1, h.2.2.2.2.1, h.2.2.2.2.2⟩,
      fun h => ⟨h.nonempty, h.noSlash, h.noBackslash, h.noNul, h.notHere, h.notUp⟩⟩

/-- A canonical absolute path. -/
structure Path where
  components : List (List UInt8)
  canonical : ∀ c ∈ components, Component c

/-- The components behind a path, each with a separator in front of it. -/
def below (components : List (List UInt8)) : List UInt8 := components.flatMap (slash :: ·)

/-- The root is a separator with nothing behind it. -/
def Path.parts (path : Path) : List (List UInt8) := if path.components = [] then [[]] else path.components

def Path.text (path : Path) : List UInt8 := below path.parts

/-- What a component of a path leads to, from the directory with the components `dir`. -/
def follow (dir : List (List UInt8)) (c : List UInt8) : List (List UInt8) :=
  if c = [] ∨ c = [dot] then dir
  else if c = [dot, dot] then dir.dropLast
  else dir ++ [c]

/-- Where a path leads from a directory. One that starts with a separator leads there from the root if it is read as
an absolute path (`rooted`), else from the directory too. -/
def resolve (rooted : Bool) (dir : List (List UInt8)) (path : List UInt8) : List (List UInt8) :=
  (path.splitOn slash).foldl follow (if rooted ∧ path.head? = some slash then [] else dir)

/-- The result is defined, and resolving it against the reference yields the path. -/
def ResolvesBack (realpath : List UInt8 → Option (List UInt8)) (rooted : Bool) (path ref : Path) : Prop :=
  ∃ result, makePathRelativeTo realpath path.text ref.text = .ok (some result) ∧
    resolve rooted ref.components result = path.components

/-- A path that is cut is the reference, or the reference is the root, or the path lies below it and the rest is not
read as an absolute path. Of another path the components do not end while they are the same. -/
def Fits (rooted : Bool) (path ref : Path) : Prop :=
  (ref.text <+: path.text →
    path.components = ref.components ∨ ref.components = [] ∨ rooted = false ∧ ref.components <+: path.components) ∧
  (¬ ref.text <+: path.text → path.components = [] ∨ ¬ path.components <+: ref.components)

section
variable {path ref : Path}

/-! ## The components -/

theorem below_cons (c : List UInt8) (components : List (List UInt8)) :
    below (c :: components) = slash :: (c ++ below components) := rfl

/-- Where the components start, if the first separator is at `i`. -/
def startsFrom : Nat → List (List UInt8) → List Nat
  | _, [] => []
  | i, c :: components => (i + 1) :: startsFrom (i + 1 + c.length) components

/-- The turns over a component do nothing. -/
theorem splitFrom_component {c : List UInt8} (hc : slash ∉ c) {front : List UInt8} (hfront : front ≠ []) (left : Nat)
    (rest : List UInt8) (starts : List Nat) :
    splitFrom (c.length + left) front.length (front ++ (c ++ rest)) starts =
      splitFrom left (front ++ c).length (front ++ (c ++ rest)) starts := by
  induction c generalizing front with
  | nil => rw [List.length_nil, Nat.zero_add, List.append_nil]
  | cons b c ih =>
    rw [List.mem_cons, not_or] at hc
    have hlen : front.length ≠ 0 := by simpa using hfront
    have hbyte : (front ++ (b :: c ++ rest))[front.length]? = some b := by simp
    have hturn : splitAt front.length (front ++ (b :: c ++ rest)) starts = (front ++ (b :: c ++ rest), starts) := by
      rw [splitAt, if_neg, if_neg hlen]
      rintro ⟨hslash, -⟩
      rw [hbyte] at hslash
      exact hc.1 (Option.some.inj hslash).symm
    have hrest := @ih hc.2 (front ++ [b]) (by simp)
    rw [List.length_append, List.length_singleton, List.append_assoc, List.append_assoc] at hrest
    rw [List.length_cons, Nat.add_right_comm, splitFrom, hturn]
    exact hrest

theorem splitFrom_below {components : List (List UInt8)} (h : ∀ c ∈ components, slash ∉ c ∧ backslash ∉ c)
    {front : List UInt8} (hfront : backslash ∉ front) (starts : List Nat) :
    splitFrom (below components).length front.length (front ++ below components) starts =
      (front ++ components.flatMap (0 :: ·), starts ++ startsFrom front.length components) := by
  induction components generalizing front starts with
  | nil => simp [below, splitFrom, startsFrom]
  | cons c components ih =>
    obtain ⟨hslash, hbackslash⟩ := h c List.mem_cons_self
    have hturn : splitAt front.length (front ++ slash :: (c ++ below components)) starts =
        (front ++ 0 :: (c ++ below components), starts ++ [front.length + 1]) := by
      have hplain : front.length = 0 ∨
          (front ++ slash :: (c ++ below components))[front.length - 1]? ≠ some backslash := by
        by_cases hlen : front.length = 0
        · exact .inl hlen
        · right
          intro hlast
          rw [List.getElem?_append_left (by omega)] at hlast
          exact hfront (List.mem_of_getElem? hlast)
      rw [splitAt, if_pos ⟨by simp, hplain⟩, List.set_append_right _ _ (Nat.le_refl _), Nat.sub_self]
      rfl
    have hover := @splitFrom_component c hslash (front ++ [0]) (by simp) (below components).length (below components)
      (starts ++ [front.length + 1])
    have hrest := @ih (fun c hc => h c (List.mem_cons_of_mem _ hc)) (front ++ [0] ++ c)
      (by simp [hfront, hbackslash, show backslash ≠ 0 by decide]) (starts ++ [front.length + 1])
    rw [below_cons, List.length_cons, List.length_append, splitFrom, hturn]
    rw [List.append_assoc _ c, hover.symm] at hrest
    simpa [startsFrom, Nat.add_assoc, Nat.add_comm 1] using hrest

theorem stringOf_starts {components : List (List UInt8)} (h : ∀ c ∈ components, 0 ∉ c) (front : List UInt8) :
    ((startsFrom front.length components).map fun start =>
      stringOf ((front ++ components.flatMap (0 :: ·)).drop start)) = components := by
  induction components generalizing front with
  | nil => rfl
  | cons c components ih =>
    have hend : stringOf (c ++ components.flatMap (0 :: ·)) = c := by
      rw [stringOf_append (h c List.mem_cons_self)]
      cases components with
      | nil => exact List.append_nil c
      | cons d components => exact List.append_nil c
    have hrest := ih (fun c hc => h c (List.mem_cons_of_mem _ hc)) (front ++ 0 :: c)
    rw [startsFrom, List.map_cons]
    congr 1
    · rw [← List.drop_drop, List.drop_left]
      exact hend
    · simpa [Nat.add_assoc, Nat.add_comm 1] using hrest

theorem Path.parts_ne_nil (path : Path) : path.parts ≠ [] := by
  unfold Path.parts
  by_cases hroot : path.components = []
  · simp [hroot]
  · rw [if_neg hroot]
    exact hroot

theorem Path.parts_plain (path : Path) : ∀ c ∈ path.parts, slash ∉ c ∧ backslash ∉ c ∧ 0 ∉ c := by
  unfold Path.parts
  by_cases hroot : path.components = []
  · simp [hroot]
  · rw [if_neg hroot]
    intro c hc
    have hcomponent := path.canonical c hc
    exact ⟨hcomponent.noSlash, hcomponent.noBackslash, hcomponent.noNul⟩

theorem Path.text_ne_nil (path : Path) : path.text ≠ [] := by
  obtain ⟨c, components, hparts⟩ := List.exists_cons_of_ne_nil path.parts_ne_nil
  rw [Path.text, hparts, below_cons]
  exact List.cons_ne_nil _ _

theorem getPathComponents_text (path : Path) : getPathComponents path.text = some path.parts := by
  have hplain : ∀ c ∈ path.parts, slash ∉ c ∧ backslash ∉ c := fun c hc =>
    ⟨(path.parts_plain c hc).1, (path.parts_plain c hc).2.1⟩
  have hsplit : splitFrom (below path.parts).length 0 (below path.parts) [] =
      (path.parts.flatMap (0 :: ·), startsFrom 0 path.parts) := @splitFrom_below path.parts hplain [] (by simp) []
  rw [getPathComponents, if_neg path.text_ne_nil, Path.text, hsplit]
  exact congrArg some (stringOf_starts (fun c hc => (path.parts_plain c hc).2.2) [])

/-! ## The walk over the components -/

theorem sameCnt_ok {p r : List UInt8} (h : p ≠ r) (common path ref : List (List UInt8)) :
    sameCnt (common ++ p :: path) (common ++ r :: ref) = .ok common.length := by
  induction common with
  | nil => exact if_neg h
  | cons c common ih =>
    rw [List.cons_append, List.cons_append, sameCnt, if_pos rfl, ih]
    rfl

/-- The end of the first array is not one of the second. -/
theorem sameCnt_undefined {path ref : List (List UInt8)} (h : path <+: ref) : sameCnt path ref = .error .undefined := by
  obtain ⟨rest, rfl⟩ := h
  induction path with
  | nil => rfl
  | cons c path ih =>
    rw [List.cons_append, sameCnt, if_pos rfl, ih]
    rfl

theorem exists_differ {path ref : List (List UInt8)} (hpath : ¬ path <+: ref) (href : ¬ ref <+: path) :
    ∃ common p path' r ref', path = common ++ p :: path' ∧ ref = common ++ r :: ref' ∧ p ≠ r := by
  induction path generalizing ref with
  | nil => exact absurd (List.nil_prefix) hpath
  | cons p path ih =>
    cases ref with
    | nil => exact absurd (List.nil_prefix) href
    | cons r ref =>
      by_cases hsame : p = r
      · subst hsame
        rw [List.prefix_cons_inj] at hpath href
        obtain ⟨common, p', path', r', ref', rfl, rfl, hne⟩ := ih hpath href
        exact ⟨p :: common, p', path', r', ref', rfl, rfl, hne⟩
      · exact ⟨[], p, path, r, ref, rfl, rfl, hsame⟩

theorem copyComponents_cons (c : List UInt8) (components : List (List UInt8)) :
    copyComponents (c :: components) = c ++ below components := by
  induction components generalizing c with
  | nil => exact (List.append_nil c).symm
  | cons d components ih =>
    rw [copyComponents, ih, below_cons]
    exact List.cons_ne_nil d components

/-! ## Resolving a path -/

theorem splitOn_below {c : List UInt8} (hc : slash ∉ c) {components : List (List UInt8)}
    (h : ∀ c ∈ components, slash ∉ c) : (c ++ below components).splitOn slash = c :: components := by
  induction components generalizing c with
  | nil =>
    rw [below, List.flatMap_nil, List.append_nil]
    exact List.splitOn_eq_singleton hc
  | cons d components ih =>
    rw [below_cons, List.splitOn_append_cons_self_of_not_mem hc,
      ih (h d List.mem_cons_self) fun c hc => h c (List.mem_cons_of_mem _ hc)]

theorem splitOn_up (n : Nat) (path : List UInt8) :
    ((List.replicate n up).flatten ++ path).splitOn slash = List.replicate n [dot, dot] ++ path.splitOn slash := by
  induction n with
  | zero => rfl
  | succ n ih =>
    have hup : (List.replicate (n + 1) up).flatten ++ path =
        [dot, dot] ++ slash :: ((List.replicate n up).flatten ++ path) := by
      rw [List.replicate_succ, List.flatten_cons, List.append_assoc]
      rfl
    rw [hup, List.splitOn_append_cons_self_of_not_mem (by decide), ih]
    rfl

theorem follow_up (common dirs : List (List UInt8)) :
    (List.replicate dirs.length [dot, dot]).foldl follow (common ++ dirs) = common := by
  induction dirs using List.reverseRecOn with
  | nil => exact List.append_nil common
  | append_singleton dirs d ih =>
    have hdrop : follow (common ++ (dirs ++ [d])) [dot, dot] = common ++ dirs := by
      rw [← List.append_assoc]
      exact List.dropLast_concat
    rw [List.length_append, List.length_singleton, List.replicate_succ, List.foldl_cons, hdrop]
    exact ih

theorem follow_component {c : List UInt8} (h : Component c) (dir : List (List UInt8)) : follow dir c = dir ++ [c] := by
  rw [follow, if_neg (not_or.mpr ⟨h.nonempty, h.notHere⟩), if_neg h.notUp]

theorem follow_components {components : List (List UInt8)} (h : ∀ c ∈ components, Component c)
    (dir : List (List UInt8)) : components.foldl follow dir = dir ++ components := by
  induction components generalizing dir with
  | nil => exact (List.append_nil dir).symm
  | cons c components ih =>
    rw [List.foldl_cons, follow_component (h c List.mem_cons_self), ih fun c hc => h c (List.mem_cons_of_mem _ hc),
      List.append_assoc, List.singleton_append]

/-- From every directory the parts of a path lead to its components. -/
theorem follow_parts (path : Path) (dir : List (List UInt8)) : path.parts.foldl follow dir = dir ++ path.components := by
  unfold Path.parts
  by_cases hroot : path.components = []
  · rw [if_pos hroot, hroot]
    exact (List.append_nil dir).symm
  · rw [if_neg hroot]
    exact follow_components path.canonical dir

/-! ## A path that is cut -/

theorem below_append (dir components : List (List UInt8)) : below (dir ++ components) = below dir ++ below components :=
  List.flatMap_append

theorem below_mono {dir components : List (List UInt8)} (h : dir <+: components) : below dir <+: below components := by
  obtain ⟨rest, rfl⟩ := h
  exact ⟨below rest, (below_append dir rest).symm⟩

/-- The first component is the same, or it is a string prefix of the other's and the last. -/
theorem first_of {c d : List UInt8} {dir components : List (List UInt8)} (hc : slash ∉ c) (hd : slash ∉ d)
    (h : c ++ below dir <+: d ++ below components) :
    c = d ∧ below dir <+: below components ∨ dir = [] ∧ ∃ more, more ≠ [] ∧ d = c ++ more := by
  induction c generalizing d with
  | nil =>
    cases d with
    | nil => exact .inl ⟨rfl, h⟩
    | cons b d =>
      cases dir with
      | nil => exact .inr ⟨rfl, b :: d, by simp, rfl⟩
      | cons e dir =>
        have hb := (List.cons_prefix_cons.mp h).1
        exact absurd (hb ▸ List.mem_cons_self) hd
  | cons a c ih =>
    cases d with
    | nil =>
      cases components with
      | nil => cases List.prefix_nil.mp h
      | cons e components =>
        have ha := (List.cons_prefix_cons.mp h).1
        exact absurd (ha ▸ List.mem_cons_self) hc
    | cons b d =>
      rw [List.mem_cons, not_or] at hc hd
      obtain ⟨rfl, hrest⟩ := List.cons_prefix_cons.mp h
      rcases ih hc.2 hd.2 hrest with ⟨rfl, hbelow⟩ | ⟨hlast, more, hmore, rfl⟩
      · exact .inl ⟨rfl, hbelow⟩
      · exact .inr ⟨hlast, more, hmore, rfl⟩

/-- A string prefix of a path ends with one of its components or inside one. -/
theorem prefix_below {dir components : List (List UInt8)} (hdir : ∀ c ∈ dir, slash ∉ c)
    (hcomponents : ∀ c ∈ components, slash ∉ c) (h : below dir <+: below components) :
    dir <+: components ∨ ∃ common c more rest,
      more ≠ [] ∧ dir = common ++ [c] ∧ components = common ++ (c ++ more) :: rest := by
  induction dir generalizing components with
  | nil => exact .inl List.nil_prefix
  | cons c dir ih =>
    cases components with
    | nil => cases List.prefix_nil.mp h
    | cons d components =>
      rw [below_cons, below_cons, List.prefix_cons_inj] at h
      rcases first_of (hdir c List.mem_cons_self) (hcomponents d List.mem_cons_self) h with
        ⟨rfl, hbelow⟩ | ⟨rfl, more, hmore, rfl⟩
      · have hrest := ih (fun c hc => hdir c (List.mem_cons_of_mem _ hc))
          (fun c hc => hcomponents c (List.mem_cons_of_mem _ hc)) hbelow
        rcases hrest with hprefix | ⟨common, e, more, rest, hmore, rfl, rfl⟩
        · exact .inl (List.prefix_cons_inj c |>.mpr hprefix)
        · exact .inr ⟨c :: common, e, more, rest, hmore, rfl, rfl⟩
      · exact .inr ⟨[], c, more, components, hmore, rfl, rfl⟩

theorem Path.components_plain (path : Path) : ∀ c ∈ path.components, slash ∉ c :=
  fun c hc => (path.canonical c hc).noSlash

theorem parts_of (h : path.components ≠ []) : path.parts = path.components := if_neg h

/-- From the root the rest of every path leads to the path. -/
theorem cut_root (rooted : Bool) (href : ref.components = []) :
    resolve rooted ref.components (path.text.drop ref.text.length) = path.components := by
  obtain ⟨c, components, hparts⟩ := List.exists_cons_of_ne_nil path.parts_ne_nil
  have hplain : ∀ d ∈ c :: components, slash ∉ d := fun d hd => (path.parts_plain d (hparts ▸ hd)).1
  have hrest : path.text.drop ref.text.length = c ++ below components := by
    rw [Path.text, Path.text, Path.parts, if_pos href, hparts]
    rfl
  have hstart : (if rooted = true ∧ (c ++ below components).head? = some slash then [] else ref.components) = [] := by
    rw [href, ite_self]
  rw [hrest, resolve, hstart, splitOn_below (hplain c List.mem_cons_self) fun d hd => hplain d (List.mem_cons_of_mem _ hd),
    ← hparts, follow_parts]
  rfl

/-- A path below the reference. -/
theorem cut_below (rooted : Bool) (href : ref.components ≠ []) {rest : List (List UInt8)}
    (hpath : path.components = ref.components ++ rest) :
    resolve rooted ref.components (path.text.drop ref.text.length) = path.components ↔ rest = [] ∨ rooted = false := by
  have hne : path.components ≠ [] := by
    rw [hpath]
    exact List.append_ne_nil_of_left_ne_nil href rest
  have hdrop : path.text.drop ref.text.length = below rest := by
    rw [Path.text, Path.text, parts_of hne, parts_of href, hpath, below_append]
    exact List.drop_left
  have hplain : ∀ c ∈ rest, Component c := fun c hc => path.canonical c (hpath ▸ List.mem_append_right _ hc)
  rw [hdrop]
  cases rest with
  | nil =>
    rw [hpath, List.append_nil]
    exact iff_of_true (by simp [resolve, below, follow]) (.inl rfl)
  | cons c rest =>
    have hsplit := @splitOn_below [] (by simp) (c :: rest) fun c hc => (hplain c hc).noSlash
    rw [List.nil_append] at hsplit
    rw [resolve, hsplit, List.foldl_cons, show ∀ dir, follow dir [] = dir from fun dir => rfl, follow_components hplain,
      hpath, List.append_left_inj]
    cases rooted with
    | true => exact iff_of_false (fun h => href h.symm) (by simp)
    | false => exact iff_of_true rfl (.inr rfl)

/-- A path with a component that starts with the reference's last. -/
theorem cut_inside (rooted : Bool) {common rest : List (List UInt8)} {c more : List UInt8} (hmore : more ≠ [])
    (href : ref.components = common ++ [c]) (hpath : path.components = common ++ (c ++ more) :: rest) :
    resolve rooted ref.components (path.text.drop ref.text.length) ≠ path.components := by
  have hrefNe : ref.components ≠ [] := by
    rw [href]
    simp
  have hpathNe : path.components ≠ [] := by
    rw [hpath]
    simp
  have hdrop : path.text.drop ref.text.length = more ++ below rest := by
    have htext : path.text = ref.text ++ (more ++ below rest) := by
      rw [Path.text, Path.text, parts_of hpathNe, parts_of hrefNe, href, hpath, below_append, below_append, below_cons,
        below_cons]
      simp [below]
    rw [htext]
    exact List.drop_left
  have hcanonical : ∀ d ∈ (c ++ more) :: rest, Component d := fun d hd =>
    path.canonical d (hpath ▸ List.mem_append_right _ hd)
  have hslash : slash ∉ more := fun h => (hcanonical _ List.mem_cons_self).noSlash (List.mem_append_right _ h)
  have hrest : ∀ d ∈ rest, Component d := fun d hd => hcanonical d (List.mem_cons_of_mem _ hd)
  have hhead : (more ++ below rest).head? ≠ some slash := by
    intro hhead
    obtain ⟨b, more, rfl⟩ := List.exists_cons_of_ne_nil hmore
    exact hslash (Option.some.inj hhead ▸ List.mem_cons_self)
  rw [hdrop, resolve, if_neg fun h => hhead h.2, splitOn_below hslash fun d hd => (hrest d hd).noSlash, List.foldl_cons,
    follow_components hrest, href, hpath, follow]
  intro h
  split at h
  · rw [List.append_assoc, List.append_cancel_left_eq] at h
    exact hmore (List.self_eq_append_right.mp (List.cons.inj h).1)
  · split at h
    · rw [List.dropLast_concat, List.append_cancel_left_eq] at h
      exact absurd (congrArg List.length h) (by simp)
    · exact absurd (congrArg List.length h) (by simp)

theorem cut_iff (rooted : Bool) (hcut : ref.text <+: path.text) :
    resolve rooted ref.components (path.text.drop ref.text.length) = path.components ↔
      path.components = ref.components ∨ ref.components = [] ∨
        rooted = false ∧ ref.components <+: path.components := by
  by_cases href : ref.components = []
  · exact iff_of_true (cut_root rooted href) (.inr (.inl href))
  · have hpath : path.components ≠ [] := by
      intro hroot
      obtain ⟨c, dir, hdir⟩ := List.exists_cons_of_ne_nil href
      have hc := List.length_pos_iff.mpr (ref.canonical c (hdir ▸ List.mem_cons_self)).nonempty
      rw [Path.text, Path.text, parts_of href, hdir, Path.parts, if_pos hroot, below_cons] at hcut
      have hlen : (slash :: (c ++ below dir)).length ≤ 1 := hcut.length_le
      rw [List.length_cons, List.length_append] at hlen
      omega
    rw [Path.text, Path.text, parts_of href, parts_of hpath] at hcut
    rcases prefix_below ref.components_plain path.components_plain hcut with
      ⟨rest, hrest⟩ | ⟨common, c, more, rest, hmore, hinside, hrest⟩
    · rw [cut_below rooted href hrest.symm, ← hrest, List.append_right_eq_self]
      simp [href]
    · refine iff_of_false (cut_inside rooted hmore hinside hrest) ?_
      have hlast : ¬ ref.components <+: path.components := by
        rw [hinside, hrest, List.prefix_append_right_inj, List.cons_prefix_cons]
        exact fun h => hmore (List.self_eq_append_right.mp h.1)
      rintro (hsame | hroot | ⟨-, hbelow⟩)
      · exact hlast (hsame ▸ List.prefix_rfl)
      · exact href hroot
      · exact hlast hbelow

/-! ## A path whose components are compared -/

/-- The buffer is long enough. -/
theorem walk_ok {common components dirs : List (List UInt8)} {p r : List UInt8} (h : p ≠ r) :
    walk (below (common ++ p :: components)).length (common ++ p :: components) (common ++ r :: dirs) =
      .ok ((List.replicate (r :: dirs).length up).flatten ++ (p ++ below components)) := by
  rw [walk, sameCnt_ok h, bind_ok]
  dsimp only
  rw [List.drop_left, List.drop_left, copyComponents_cons, defined_of, bind_ok]
  have hup : ∀ n, ((List.replicate n up).flatten).length = n * 3 := by simp [up]
  simp only [below_append, below_cons, List.length_append, List.length_cons, hup]
  omega

theorem walk_iff (rooted : Bool) (hcut : ¬ ref.text <+: path.text) :
    (∃ result, walk path.text.length path.parts ref.parts = .ok result ∧
      resolve rooted ref.components result = path.components) ↔
      path.components = [] ∨ ¬ path.components <+: ref.components := by
  have href : ref.components ≠ [] := by
    intro hroot
    obtain ⟨c, components, hparts⟩ := List.exists_cons_of_ne_nil path.parts_ne_nil
    refine hcut ⟨c ++ below components, ?_⟩
    rw [Path.text, Path.text, Path.parts, if_pos hroot, hparts]
    rfl
  have hnot : ¬ ref.parts <+: path.parts := fun h => hcut (below_mono h)
  by_cases hends : path.parts <+: ref.parts
  · refine iff_of_false ?_ ?_
    · rintro ⟨result, hrun, -⟩
      rw [walk, sameCnt_undefined hends] at hrun
      cases hrun
    · rw [not_or, not_not]
      have hpath : path.components ≠ [] := by
        intro hroot
        rw [Path.parts, if_pos hroot, parts_of href] at hends
        obtain ⟨dirs, hdirs⟩ := hends
        exact (ref.canonical [] (hdirs ▸ List.mem_cons_self)).nonempty rfl
      rw [parts_of hpath, parts_of href] at hends
      exact ⟨hpath, hends⟩
  · refine iff_of_true ?_ ?_
    · obtain ⟨common, p, components, r, dirs, hpath, hdir, hne⟩ := exists_differ hends hnot
      have hplain : ∀ c ∈ p :: components, slash ∉ c := fun c hc =>
        (path.parts_plain c (hpath ▸ List.mem_append_right _ hc)).1
      refine ⟨_, by rw [Path.text, hpath, hdir, walk_ok hne], ?_⟩
      have hhead : ((List.replicate (r :: dirs).length up).flatten ++ (p ++ below components)).head? = some dot := rfl
      have hsplit := splitOn_below (hplain p List.mem_cons_self) fun c hc => hplain c (List.mem_cons_of_mem _ hc)
      rw [resolve, if_neg (by rw [hhead]; simp [dot, slash]), splitOn_up, hsplit, List.foldl_append, ← parts_of href, hdir,
        follow_up]
      have hcommon : ∀ c ∈ common, Component c := by
        intro c hc
        refine ref.canonical c ?_
        rw [← parts_of href, hdir]
        exact List.mem_append_left _ hc
      have hparts := follow_parts path []
      rw [hpath, List.foldl_append, follow_components hcommon] at hparts
      exact hparts
    · rw [or_iff_not_imp_left]
      intro hpath
      rw [parts_of hpath, parts_of href] at hends
      exact hends

/-! ## Every two paths -/

/-- **Exactly when the result is defined and leads from the reference back to the path.** -/
theorem resolvesBack_iff {realpath : List UInt8 → Option (List UInt8)} (rooted : Bool)
    (hpath : absPath realpath path.text = some path.text) (href : absPath realpath ref.text = some ref.text) :
    ResolvesBack realpath rooted path ref ↔ Fits rooted path ref := by
  unfold ResolvesBack Fits
  rw [makePathRelativeTo, hpath, href]
  dsimp only
  rw [if_neg ref.text_ne_nil, if_neg path.text_ne_nil]
  by_cases hcut : ref.text <+: path.text
  · rw [if_pos hcut, ← cut_iff rooted hcut]
    constructor
    · rintro ⟨result, hrun, hresolve⟩
      cases hrun
      exact ⟨fun _ => hresolve, fun hnot => absurd hcut hnot⟩
    · rintro ⟨hresolve, -⟩
      exact ⟨_, rfl, hresolve hcut⟩
  · rw [if_neg hcut, getPathComponents_text, getPathComponents_text, ← walk_iff rooted hcut]
    dsimp only
    constructor
    · rintro ⟨result, hrun, hresolve⟩
      obtain ⟨result', hwalk, hrun⟩ := bind_eq_ok.mp hrun
      cases hrun
      exact ⟨fun h => absurd h hcut, fun _ => ⟨_, hwalk, hresolve⟩⟩
    · rintro ⟨-, hwalk⟩
      obtain ⟨result, hrun, hresolve⟩ := hwalk hcut
      rw [hrun]
      exact ⟨result, rfl, hresolve⟩

def dirPath : Path := ⟨[[97], [98]], by decide⟩

def nextPath : Path := ⟨[[97], [99]], by decide⟩

def longerPath : Path := ⟨[[97], [98, 99]], by decide⟩

/-- From `/a/b` the result `../c` leads to `/a/c`. -/
theorem next_resolvesBack : ResolvesBack some true nextPath dirPath := by
  have hfits : Fits true nextPath dirPath := ⟨fun h => absurd h (by decide), fun _ => .inr (by decide)⟩
  exact (resolvesBack_iff true rfl rfl).mpr hfits

/-- From `/a/b` the result for `/a/bc` is `c`, which leads to `/a/b/c`. -/
theorem not_resolvesBack :
    ¬ ∃ rooted, ∀ (realpath : List UInt8 → Option (List UInt8)) (path ref : Path),
      absPath realpath path.text = some path.text → absPath realpath ref.text = some ref.text →
      ResolvesBack realpath rooted path ref := by
  rintro ⟨rooted, h⟩
  obtain ⟨result, hrun, hresolve⟩ := h some longerPath dirPath rfl rfl
  have hcut : makePathRelativeTo some longerPath.text dirPath.text = .ok (some [99]) := by decide
  rw [hcut] at hrun
  cases hrun
  have hwrong : resolve rooted dirPath.components [99] = [[97], [98], [99]] := by
    cases rooted with
    | true => decide
    | false => decide
  rw [hwrong] at hresolve
  exact absurd hresolve (by decide)

end

end Katana.Paths

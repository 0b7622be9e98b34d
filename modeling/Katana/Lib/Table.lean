/-
  Katana.Lib.Table — hash tables over any comparison of keys.

  The nodes of a table are one list. A node's bucket is the nodes of its hash; a new node goes behind
  the last one of its bucket, or to the end. A lookup scans the bucket of the key for the first node
  that compares as the same. Two keys match when both their hashes and the comparison agree: the
  comparison need not be equality, so different keys can match.

  Proved, for every comparison that is an equivalence:
  - `get_insert` / `get_update`: the lookups after an insertion and after an update.
  - `get_eq_some_iff`: a lookup finds exactly the node whose key matches.
-/
import Mathlib.Data.List.Basic

namespace Katana.Lib

structure Keying (K : Type) where
  hash : K → Nat
  same : K → K → Bool
  equiv : Equivalence fun a b => same a b = true

section
variable {K V : Type} (κ : Keying K)

def Matches (a b : K) : Prop := κ.hash a = κ.hash b ∧ κ.same a b = true

instance (a b : K) : Decidable (Matches κ a b) := inferInstanceAs (Decidable (_ ∧ _))

/-- A node behind the last one of its bucket, or at the end. -/
def insertAt (n : K × V) : List (K × V) → List (K × V)
  | [] => [n]
  | m :: l =>
    if κ.hash m.1 = κ.hash n.1 ∧ ∀ x ∈ l, κ.hash x.1 ≠ κ.hash n.1 then m :: n :: l else m :: insertAt n l

variable {κ}

theorem Matches.refl (a : K) : Matches κ a a := ⟨rfl, κ.equiv.refl a⟩

theorem Matches.symm {a b : K} (h : Matches κ a b) : Matches κ b a := ⟨h.1.symm, κ.equiv.symm h.2⟩

theorem Matches.trans {a b c : K} (h : Matches κ a b) (h' : Matches κ b c) : Matches κ a c :=
  ⟨h.1.trans h'.1, κ.equiv.trans h.2 h'.2⟩

/-- Where a node goes is a matter of the keys. -/
theorem insertAt_map {W : Type} (f : V → W) (n : K × V) (l : List (K × V)) :
    (insertAt κ n l).map (fun m => (m.1, f m.2)) = insertAt κ (n.1, f n.2) (l.map fun m => (m.1, f m.2)) := by
  induction l with
  | nil => rfl
  | cons m l ih =>
    unfold insertAt
    rw [List.map_cons]
    simp only [List.forall_mem_map]
    split
    · rfl
    · rw [List.map_cons, ih]

theorem insertAt_perm (n : K × V) (l : List (K × V)) : (insertAt κ n l).Perm (n :: l) := by
  induction l with
  | nil => exact List.Perm.refl _
  | cons m l ih =>
    unfold insertAt
    split
    · exact List.Perm.swap n m l
    · exact (ih.cons m).trans (List.Perm.swap n m l)

end

/-- A table in which no two keys match. -/
structure Table {K : Type} (κ : Keying K) (V : Type) where
  nodes : List (K × V)
  fresh : nodes.Pairwise fun m n => ¬ Matches κ m.1 n.1

namespace Table
variable {K V : Type} {κ : Keying K}

def empty : Table κ V := ⟨[], .nil⟩

def get (t : Table κ V) (k : K) : Option V := (t.nodes.find? fun n => Matches κ k n.1).map (·.2)

def keys (t : Table κ V) : List K := t.nodes.map (·.1)

def values (t : Table κ V) : List V := t.nodes.map (·.2)

theorem get_eq_none_iff {t : Table κ V} {k : K} : t.get k = none ↔ ∀ n ∈ t.nodes, ¬ Matches κ k n.1 := by
  unfold get
  rw [Option.map_eq_none_iff, List.find?_eq_none]
  simp

def insert (t : Table κ V) (k : K) (v : V) (h : t.get k = none) : Table κ V where
  nodes := insertAt κ (k, v) t.nodes
  fresh := by
    have hsymm : ∀ {m n : K × V}, ¬ Matches κ m.1 n.1 → ¬ Matches κ n.1 m.1 := fun h h' => h h'.symm
    refine ((insertAt_perm (k, v) t.nodes).pairwise_iff hsymm).mpr ?_
    exact List.pairwise_cons.mpr ⟨get_eq_none_iff.mp h, t.fresh⟩

/-- The value at a key, changed where it is. -/
def update (t : Table κ V) (k : K) (f : V → V) : Table κ V where
  nodes := t.nodes.map fun n => if Matches κ k n.1 then (n.1, f n.2) else n
  fresh := by
    refine List.pairwise_map.mpr (t.fresh.imp fun {m n} h => ?_)
    split <;> split <;> exact h

/-- Every value changed, the keys where they are. -/
def map (t : Table κ V) (f : V → V) : Table κ V where
  nodes := t.nodes.map fun n => (n.1, f n.2)
  fresh := List.pairwise_map.mpr t.fresh

/-- Matching keys of a table are one key. -/
theorem matches_unique {t : Table κ V} {m n : K × V} (hm : m ∈ t.nodes) (hn : n ∈ t.nodes)
    (h : Matches κ m.1 n.1) : m = n := by
  by_contra hne
  rcases List.pairwise_iff_getElem.mp t.fresh with hfresh
  obtain ⟨i, hi, rfl⟩ := List.mem_iff_getElem.mp hm
  obtain ⟨j, hj, rfl⟩ := List.mem_iff_getElem.mp hn
  rcases Nat.lt_trichotomy i j with hij | rfl | hij
  · exact hfresh i j hi hj hij h
  · exact hne rfl
  · exact hfresh j i hj hi hij h.symm

theorem get_eq_some_iff {t : Table κ V} {k : K} {v : V} : t.get k = some v ↔ ∃ n ∈ t.nodes, Matches κ k n.1 ∧ n.2 = v := by
  unfold get
  rw [Option.map_eq_some_iff]
  constructor
  · intro h
    rcases h with ⟨n, hn, hv⟩
    exact ⟨n, List.mem_of_find?_eq_some hn, by simpa using List.find?_some hn, hv⟩
  · intro h
    rcases h with ⟨n, hn, hk, hv⟩
    cases hfind : t.nodes.find? fun n => Matches κ k n.1 with
    | none =>
      rw [List.find?_eq_none] at hfind
      exact absurd hk (by simpa using hfind n hn)
    | some m =>
      have hm : Matches κ k m.1 := by simpa using List.find?_some hfind
      exact ⟨n, by rw [matches_unique hn (List.mem_of_find?_eq_some hfind) (hk.symm.trans hm)], hv⟩

theorem get_of_mem {t : Table κ V} {n : K × V} (h : n ∈ t.nodes) : t.get n.1 = some n.2 :=
  get_eq_some_iff.mpr ⟨n, h, .refl _, rfl⟩

/-- Keys that match are looked up alike. -/
theorem get_congr {t : Table κ V} {a b : K} (h : Matches κ a b) : t.get a = t.get b := by
  apply Option.ext
  intro v
  rw [get_eq_some_iff, get_eq_some_iff]
  refine ⟨?_, ?_⟩
  · intro hn
    obtain ⟨n, hmem, hmatch, hv⟩ := hn
    exact ⟨n, hmem, h.symm.trans hmatch, hv⟩
  · intro hn
    obtain ⟨n, hmem, hmatch, hv⟩ := hn
    exact ⟨n, hmem, h.trans hmatch, hv⟩

@[simp] theorem get_empty (k : K) : (empty : Table κ V).get k = none := rfl

theorem mem_insert {t : Table κ V} {k : K} {v : V} (h : t.get k = none) {n : K × V} :
    n ∈ (t.insert k v h).nodes ↔ n = (k, v) ∨ n ∈ t.nodes :=
  (insertAt_perm (k, v) t.nodes).mem_iff.trans List.mem_cons

theorem get_insert {t : Table κ V} {k : K} {v : V} (h : t.get k = none) (k' : K) :
    (t.insert k v h).get k' = if Matches κ k' k then some v else t.get k' := by
  split
  · rename_i hk
    exact get_eq_some_iff.mpr ⟨(k, v), (mem_insert h).mpr (.inl rfl), hk, rfl⟩
  · rename_i hk
    cases hget : t.get k' with
    | none =>
      rw [get_eq_none_iff] at hget ⊢
      intro n hn
      rcases (mem_insert h).mp hn with rfl | hn
      · exact hk
      · exact hget n hn
    | some w =>
      obtain ⟨n, hn, hmatch, hw⟩ := get_eq_some_iff.mp hget
      exact get_eq_some_iff.mpr ⟨n, (mem_insert h).mpr (.inr hn), hmatch, hw⟩

theorem get_update (t : Table κ V) (k : K) (f : V → V) (k' : K) :
    (t.update k f).get k' = if Matches κ k k' then (t.get k').map f else t.get k' := by
  have hnodes : (t.update k f).nodes = t.nodes.map fun n => if Matches κ k n.1 then (n.1, f n.2) else n := rfl
  cases hget : t.get k' with
  | none =>
    rw [get_eq_none_iff] at hget
    have hnone : (t.update k f).get k' = none := by
      rw [get_eq_none_iff, hnodes]
      intro n hn
      obtain ⟨m, hm, rfl⟩ := List.mem_map.mp hn
      split
      · exact hget m hm
      · exact hget m hm
    simp [hnone]
  | some v =>
    obtain ⟨n, hn, hmatch, rfl⟩ := get_eq_some_iff.mp hget
    have hmem : (if Matches κ k n.1 then (n.1, f n.2) else n) ∈ (t.update k f).nodes :=
      hnodes ▸ List.mem_map.mpr ⟨n, hn, rfl⟩
    split
    · rename_i hk
      rw [if_pos (hk.trans hmatch)] at hmem
      exact get_eq_some_iff.mpr ⟨_, hmem, hmatch, rfl⟩
    · rename_i hk
      rw [if_neg fun h => hk (h.trans hmatch.symm)] at hmem
      exact get_eq_some_iff.mpr ⟨_, hmem, hmatch, rfl⟩

/-- An assignment to what has just been inserted. -/
theorem update_insert {t : Table κ V} {k : K} {v : V} (h : t.get k = none) (w : V) :
    ((t.insert k v h).update k fun _ => w).nodes = insertAt κ (k, w) t.nodes := by
  have hnot : ∀ n ∈ t.nodes, ¬ Matches κ k n.1 := get_eq_none_iff.mp h
  show (insertAt κ (k, v) t.nodes).map (fun n => if Matches κ k n.1 then (n.1, w) else n) = insertAt κ (k, w) t.nodes
  generalize t.nodes = nodes at hnot
  induction nodes with
  | nil => simp [insertAt, Matches.refl]
  | cons m l ih =>
    have hm : ¬ Matches κ k m.1 := hnot m List.mem_cons_self
    have hl : ∀ n ∈ l, ¬ Matches κ k n.1 := fun n hn => hnot n (List.mem_cons_of_mem _ hn)
    have hsame : (l.map fun n => if Matches κ k n.1 then (n.1, w) else n) = l :=
      (List.map_congr_left fun n hn => if_neg (hl n hn)).trans (List.map_id' l)
    unfold insertAt
    split
    · rw [List.map_cons, List.map_cons, if_neg hm, if_pos (Matches.refl k), hsame]
    · rw [List.map_cons, if_neg hm, ih hl]

theorem get_map (t : Table κ V) (f : V → V) (k : K) : (t.map f).get k = (t.get k).map f := by
  have hnodes : (t.map f).nodes = t.nodes.map fun n => (n.1, f n.2) := rfl
  cases hget : t.get k with
  | none =>
    rw [get_eq_none_iff] at hget
    rw [Option.map_none, get_eq_none_iff, hnodes]
    intro n hn
    obtain ⟨m, hm, rfl⟩ := List.mem_map.mp hn
    exact hget m hm
  | some v =>
    obtain ⟨n, hn, hmatch, rfl⟩ := get_eq_some_iff.mp hget
    exact get_eq_some_iff.mpr ⟨(n.1, f n.2), hnodes ▸ List.mem_map.mpr ⟨n, hn, rfl⟩, hmatch, rfl⟩

end Table

end Katana.Lib

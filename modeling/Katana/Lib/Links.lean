/-
  Katana.Lib.Links — singly linked lists in memory.

  Nodes are at addresses, and each has a pointer to the next one, or none. `Leads` says which nodes the pointers lead
  through, each with its address.

  Proved, for every memory:
  - `Leads.unique` / `Leads.nodup`: a pointer leads through one list to the end, and it comes to no node twice.
  - `leads_append` / `Leads.frame`: lists are put together, and depend on their own nodes only.
  - `Leads.relink` / `Leads.link`: the last node's pointer is set, and leads on to another list.
-/
import Katana.Lib.Thread

namespace Katana.Lib

structure Link (α : Type) where
  value : α
  next : Option Nat

abbrev Links (α : Type) := Nat → Option (Link α)

section
variable {α ε : Type}

/-- Through a null pointer, or one to no node, what happens is `undefined`. -/
def Links.load (undefined : ε) (links : Links α) (p : Option Nat) : Except ε (Link α) :=
  match p.bind links with
  | some node => .ok node
  | none => .error undefined

def Links.setNext (undefined : ε) (links : Links α) (p next : Option Nat) : Except ε (Links α) :=
  match p with
  | none => .error undefined
  | some a =>
    match links a with
    | some node => .ok (Function.update links a (some { node with next }))
    | none => .error undefined

/-- From `p` the pointers lead through the nodes of the list to `q`. -/
def Leads (links : Links α) : Option Nat → List (Nat × α) → Option Nat → Prop
  | p, [], q => p = q
  | p, (a, x) :: l, q => p = some a ∧ ∃ next, links a = some ⟨x, next⟩ ∧ Leads links next l q

variable {links links' : Links α} {undefined : ε} {p q r : Option Nat} {l m : List (Nat × α)} {a : Nat} {x : α}

theorem Leads.frame (h : Leads links p l q) (hsame : ∀ a ∈ addresses l, links' a = links a) : Leads links' p l q := by
  induction l generalizing p with
  | nil => exact h
  | cons n l ih =>
    rcases n with ⟨a, x⟩
    obtain ⟨hp, next, hnode, hrest⟩ := h
    refine ⟨hp, next, ?_, ih hrest fun b hb => hsame b (List.mem_cons_of_mem _ hb)⟩
    rw [hsame a List.mem_cons_self, hnode]

theorem leads_append : Leads links p (l ++ m) q ↔ ∃ r, Leads links p l r ∧ Leads links r m q := by
  induction l generalizing p with
  | nil =>
    refine ⟨fun h => ⟨p, rfl, h⟩, fun h => ?_⟩
    obtain ⟨r, hr, h⟩ := h
    cases hr
    exact h
  | cons n l ih =>
    rcases n with ⟨a, x⟩
    refine ⟨fun h => ?_, fun h => ?_⟩
    · obtain ⟨hp, next, hnode, hrest⟩ := h
      obtain ⟨r, hl, hm⟩ := ih.mp hrest
      exact ⟨r, ⟨hp, next, hnode, hl⟩, hm⟩
    · obtain ⟨r, ⟨hp, next, hnode, hl⟩, hm⟩ := h
      exact ⟨hp, next, hnode, ih.mpr ⟨r, hl, hm⟩⟩

/-- A pointer leads through one list to the end. -/
theorem Leads.unique (h : Leads links p l none) (h' : Leads links p m none) : l = m := by
  induction l generalizing p m with
  | nil =>
    cases h
    cases m with
    | nil => rfl
    | cons n m => cases h'.1
  | cons n l ih =>
    rcases n with ⟨a, x⟩
    obtain ⟨hp, next, hnode, hrest⟩ := h
    rw [hp] at h'
    cases m with
    | nil => cases h'
    | cons n' m =>
      rcases n' with ⟨a', x'⟩
      obtain ⟨hp', next', hnode', hrest'⟩ := h'
      cases hp'
      rw [hnode] at hnode'
      cases hnode'
      rw [ih hrest hrest']

/-- On the way to the end no node comes twice. -/
theorem Leads.nodup (h : Leads links p l none) : (addresses l).Nodup := by
  induction l generalizing p with
  | nil => exact List.nodup_nil
  | cons n l ih =>
    rcases n with ⟨a, x⟩
    have hrest := h
    obtain ⟨hp, next, hnode, htail⟩ := h
    refine List.nodup_cons.mpr ⟨fun hmem => ?_, ih htail⟩
    obtain ⟨⟨b, y⟩, hn, hb⟩ := List.mem_map.mp hmem
    obtain ⟨front, back, hl⟩ := List.append_of_mem hn
    -- from its second place on the node leads through less than from its first
    rw [hl] at htail
    obtain ⟨r, -, hback⟩ := leads_append.mp htail
    have hr := hback.1
    cases hb
    rw [hr, ← hp] at hback
    have hsame := congrArg List.length (hrest.unique hback)
    rw [hl] at hsame
    simp only [List.length_cons, List.length_append] at hsame
    omega

theorem Leads.load (h : Leads links p ((a, x) :: l) q) :
    ∃ next, links.load undefined p = .ok ⟨x, next⟩ ∧ Leads links next l q := by
  obtain ⟨rfl, next, hnode, hrest⟩ := h
  refine ⟨next, ?_, hrest⟩
  unfold Links.load
  rw [Option.bind_some, hnode]

theorem setNext_some {node : Link α} (hnode : links a = some node) (next : Option Nat) :
    links.setNext undefined (some a) next = .ok (Function.update links a (some { node with next })) := by
  unfold Links.setNext
  dsimp only
  rw [hnode]

/-- **The last node's pointer set.** -/
theorem Leads.relink (h : Leads links p l q) (hne : l ≠ []) (hnodup : (addresses l).Nodup) (r : Option Nat) :
    ∃ links', links.setNext undefined (lastOf none l) r = .ok links' ∧ Leads links' p l r ∧
      ∀ a ∉ addresses l, links' a = links a := by
  obtain ⟨front, ⟨a, x⟩, rfl⟩ := (List.eq_nil_or_concat' l).resolve_left hne
  obtain ⟨s, hfront, hs, next, hnode, hq⟩ := leads_append.mp h
  have ha : a ∉ addresses front := by
    rw [addresses_append, List.nodup_append] at hnodup
    exact fun hmem => hnodup.2.2 a hmem a List.mem_cons_self rfl
  rw [lastOf_append]
  refine ⟨_, setNext_some hnode r, ?_, ?_⟩
  · refine leads_append.mpr ⟨s, hfront.frame fun b hb => ?_, hs, r, Function.update_self .., rfl⟩
    exact Function.update_of_ne (ne_of_mem_of_not_mem hb ha) ..
  · intro b hb
    refine Function.update_of_ne (fun heq => hb ?_) ..
    rw [addresses_append, heq]
    exact List.mem_append_right _ List.mem_cons_self

/-- The first list's last node linked to the second list. -/
theorem Leads.link (h : Leads links p l none) (h' : Leads links q m none) (hne : l ≠ [])
    (hapart : (addresses l).Disjoint (addresses m)) :
    ∃ links', links.setNext undefined (lastOf none l) q = .ok links' ∧ Leads links' p (l ++ m) none := by
  obtain ⟨links', hset, hleads, hsame⟩ := @Leads.relink _ _ _ undefined _ _ _ h hne h.nodup q
  refine ⟨links', hset, leads_append.mpr ⟨q, hleads, h'.frame fun a ha => hsame a fun hmem => ?_⟩⟩
  exact hapart hmem ha

theorem Leads.start_none_iff (h : Leads links p l none) : p = none ↔ l = [] := by
  cases l with
  | nil => exact iff_of_true h rfl
  | cons n l =>
    refine iff_of_false (fun hp => ?_) (by simp)
    cases hp.symm.trans h.1

end

end Katana.Lib

import Mathlib.Data.List.Nodup
import Mathlib.Data.List.Perm.Subperm

/-! # Linked lists in a memory

Nodes at addresses, each with a value and a pointer to the next one. A chain goes from a pointer
over a sequence of nodes to another pointer. Reading a node that is not in the memory fails, and so
does a walk that does not end. -/

namespace ArgoBbs

structure Link (α : Type) where
  val : α
  next : Option Nat

/-- A memory of nodes. -/
abbrev Links (α : Type) := List (Option (Link α))

namespace Links
variable {α : Type}

/-- The node at an address, unless none was made there or it was freed. -/
def node (m : Links α) (p : Nat) : Option (Link α) := m[p]?.join

def put (m : Links α) (p : Nat) (n : Link α) : Links α := m.set p (some n)

def free (m : Links α) (p : Nat) : Links α := m.set p none

/-- A node at a new address, the last one of a list. -/
def alloc (m : Links α) (v : α) : Nat × Links α := (m.length, m ++ [some ⟨v, none⟩])

/-- The first node with the condition from a pointer on, with the node before it; `pre` is the node
before the pointer. -/
def find (m : Links α) (cond : α → Bool) :
    Nat → Option Nat → Option Nat → Option (Option Nat × Option Nat)
  | 0, _, _ => none
  | _ + 1, pre, none => some (pre, none)
  | fuel + 1, pre, some p => do
    let n ← m.node p
    if cond n.val then some (pre, some p) else find m cond fuel (some p) n.next

/-- The values of the nodes from a pointer on. -/
def vals (m : Links α) : Nat → Option Nat → Option (List α)
  | 0, _ => none
  | _ + 1, none => some []
  | fuel + 1, some p => do
    let n ← m.node p
    (vals m fuel n.next).map (n.val :: ·)

/-- Frees the nodes from a pointer on. -/
def freeFrom (m : Links α) : Nat → Option Nat → Option (Links α)
  | 0, _ => none
  | _ + 1, none => some m
  | fuel + 1, some p => do
    let n ← m.node p
    freeFrom (m.free p) fuel n.next

/-- A walk from a pointer on that ends needs no more fuel. -/
def fuel (m : Links α) : Nat := m.length + 1

section Memory
variable {m : Links α} {p q : Nat} {n n' : Link α}

theorem lt_of_node (h : m.node p = some n) : p < m.length := by
  rw [node, Option.join_eq_some_iff] at h
  exact (List.getElem?_eq_some_iff.mp h).1

theorem node_put_self (h : m.node p = some n) : (m.put p n').node p = some n' := by
  simp [node, put, lt_of_node h]

theorem node_put_ne (h : q ≠ p) : (m.put p n).node q = m.node q := by
  simp [node, put, h.symm]

theorem node_free_ne (h : q ≠ p) : (m.free p).node q = m.node q := by
  simp [node, free, h.symm]

theorem node_free_self : (m.free p).node p = none := by
  rw [node, free, List.getElem?_set_self']
  cases m[p]? <;> rfl

theorem node_alloc (m : Links α) (v : α) : (m.alloc v).2.node (m.alloc v).1 = some ⟨v, none⟩ := by
  simp [node, alloc]

theorem node_alloc_ne {v : α} (h : q ≠ (m.alloc v).1) : (m.alloc v).2.node q = m.node q := by
  rcases Nat.lt_or_gt_of_ne h with hlt | hgt
  · rw [node, node, alloc, List.getElem?_append_left hlt]
  · have hlt : m.length < q := hgt
    rw [node, node, alloc, List.getElem?_eq_none (by simp; omega),
      List.getElem?_eq_none (Nat.le_of_lt hlt)]

end Memory

/-- The memory has these addresses and values as the nodes from the first pointer to the second. -/
def Chain (m : Links α) : Option Nat → List (Nat × α) → Option Nat → Prop
  | p, [], q => p = q
  | p, (a, v) :: xs, q => p = some a ∧ ∃ next, m.node a = some ⟨v, next⟩ ∧ Chain m next xs q

section Chain
variable {m m' : Links α} {p q pre : Option Nat} {xs ys : List (Nat × α)} {a : Nat} {v : α}

theorem chain_append :
    Chain m p (xs ++ ys) q ↔ ∃ r, Chain m p xs r ∧ Chain m r ys q := by
  induction xs generalizing p with
  | nil => simp [Chain]
  | cons x xs ih =>
    simp only [List.cons_append, Chain, ih]
    constructor
    · rintro ⟨rfl, next, hnode, r, hxs, hys⟩
      exact ⟨r, ⟨rfl, next, hnode, hxs⟩, hys⟩
    · rintro ⟨r, ⟨rfl, next, hnode, hxs⟩, hys⟩
      exact ⟨rfl, next, hnode, r, hxs, hys⟩

theorem chain_singleton : Chain m p [(a, v)] q ↔ p = some a ∧ m.node a = some ⟨v, q⟩ := by
  simp [Chain]

theorem Chain.congr (h : Chain m p xs q) (hm : ∀ x ∈ xs, m'.node x.1 = m.node x.1) :
    Chain m' p xs q := by
  induction xs generalizing p with
  | nil => exact h
  | cons x xs ih =>
    obtain ⟨hp, next, hnode, hxs⟩ := h
    refine ⟨hp, next, (hm x List.mem_cons_self).trans hnode, ih hxs fun y hy => ?_⟩
    exact hm y (List.mem_cons_of_mem _ hy)

theorem Chain.node_of_mem (h : Chain m p xs q) (hx : a ∈ xs.map Prod.fst) :
    ∃ n, m.node a = some n := by
  induction xs generalizing p with
  | nil => cases hx
  | cons x xs ih =>
    obtain ⟨-, next, hnode, hxs⟩ := h
    rcases List.mem_cons.mp hx with rfl | hx
    · exact ⟨_, hnode⟩
    · exact ih hxs hx

/-- A chain of different nodes is no longer than the memory. -/
theorem Chain.length_lt_fuel (h : Chain m p xs q) (hnodup : (xs.map Prod.fst).Nodup) :
    xs.length < m.fuel := by
  have hsub : xs.map Prod.fst ⊆ List.range m.length := fun a ha => by
    obtain ⟨n, hn⟩ := h.node_of_mem ha
    exact List.mem_range.mpr (lt_of_node hn)
  have hle := (hnodup.subperm hsub).length_le
  rw [List.length_map, List.length_range] at hle
  exact Nat.lt_succ_of_le hle

/-! ## Walks -/

theorem Chain.vals {fuel : Nat} (h : Chain m p xs none) (hfuel : xs.length < fuel) :
    m.vals fuel p = some (xs.map Prod.snd) := by
  induction xs generalizing p fuel with
  | nil =>
    obtain ⟨fuel, rfl⟩ := Nat.exists_eq_add_of_le' hfuel
    obtain rfl : p = none := h
    rfl
  | cons x xs ih =>
    obtain ⟨fuel, rfl⟩ := Nat.exists_eq_add_of_le' (Nat.zero_lt_of_lt hfuel)
    obtain ⟨rfl, next, hnode, hxs⟩ := h
    simp only [Links.vals, hnode, Option.bind_eq_bind, Option.bind_some,
      ih hxs (Nat.lt_of_succ_lt_succ hfuel), Option.map_some, List.map_cons]

/-- The node with the condition is found behind nodes without it. -/
theorem Chain.find_some {fuel : Nat} {cond : α → Bool} (h : Chain m p (xs ++ (a, v) :: ys) none)
    (hfuel : (xs ++ (a, v) :: ys).length < fuel) (hbefore : ∀ x ∈ xs, cond x.2 = false)
    (hcond : cond v = true) :
    m.find cond fuel pre p = some ((xs.getLast?.map Prod.fst).or pre, some a) := by
  induction xs generalizing p pre fuel with
  | nil =>
    obtain ⟨fuel, rfl⟩ := Nat.exists_eq_add_of_le' (Nat.zero_lt_of_lt hfuel)
    obtain ⟨rfl, next, hnode, hxs⟩ := h
    simp only [Links.find, hnode, Option.bind_eq_bind, Option.bind_some, hcond, if_true]
    rfl
  | cons x xs ih =>
    obtain ⟨fuel, rfl⟩ := Nat.exists_eq_add_of_le' (Nat.zero_lt_of_lt hfuel)
    obtain ⟨rfl, next, hnode, hxs⟩ := h
    simp only [Links.find, hnode, Option.bind_eq_bind, Option.bind_some,
      hbefore x List.mem_cons_self, Bool.false_eq_true, if_false]
    rw [ih hxs (Nat.lt_of_succ_lt_succ hfuel) fun y hy => hbefore y (List.mem_cons_of_mem _ hy)]
    cases xs with
    | nil => rfl
    | cons y xs =>
      rw [List.getLast?_cons_cons, List.getLast?_eq_some_getLast (List.cons_ne_nil y xs)]
      rfl

theorem Chain.find_none {fuel : Nat} {cond : α → Bool} (h : Chain m p xs none)
    (hfuel : xs.length < fuel) (hall : ∀ x ∈ xs, cond x.2 = false) :
    ∃ last, m.find cond fuel pre p = some (last, none) := by
  induction xs generalizing p pre fuel with
  | nil =>
    obtain ⟨fuel, rfl⟩ := Nat.exists_eq_add_of_le' hfuel
    obtain rfl : p = none := h
    exact ⟨pre, rfl⟩
  | cons x xs ih =>
    obtain ⟨fuel, rfl⟩ := Nat.exists_eq_add_of_le' (Nat.zero_lt_of_lt hfuel)
    obtain ⟨rfl, next, hnode, hxs⟩ := h
    simp only [Links.find, hnode, Option.bind_eq_bind, Option.bind_some,
      hall x List.mem_cons_self, Bool.false_eq_true, if_false]
    exact ih hxs (Nat.lt_of_succ_lt_succ hfuel) fun y hy => hall y (List.mem_cons_of_mem _ hy)

/-- The walk frees the nodes of the chain and no others. -/
theorem Chain.freeFrom {fuel : Nat} (h : Chain m p xs none) (hfuel : xs.length < fuel)
    (hnodup : (xs.map Prod.fst).Nodup) : ∃ m', m.freeFrom fuel p = some m' ∧
      ∀ a, m'.node a = if a ∈ xs.map Prod.fst then none else m.node a := by
  induction xs generalizing p fuel m with
  | nil =>
    obtain ⟨fuel, rfl⟩ := Nat.exists_eq_add_of_le' hfuel
    obtain rfl : p = none := h
    exact ⟨m, rfl, fun a => by simp⟩
  | cons x xs ih =>
    obtain ⟨fuel, rfl⟩ := Nat.exists_eq_add_of_le' (Nat.zero_lt_of_lt hfuel)
    obtain ⟨rfl, next, hnode, hxs⟩ := h
    obtain ⟨hnew, hnodup⟩ := List.nodup_cons.mp hnodup
    have hxs : Chain (m.free x.1) next xs none := hxs.congr fun y hy =>
      node_free_ne fun heq => hnew (heq ▸ List.mem_map_of_mem hy)
    obtain ⟨m', hfree, hm'⟩ := ih hxs (Nat.lt_of_succ_lt_succ hfuel) hnodup
    refine ⟨m', ?_, fun a => ?_⟩
    · simp only [Links.freeFrom, hnode, Option.bind_eq_bind, Option.bind_some, hfree]
    · rw [hm']
      by_cases ha : a = x.1
      · subst ha
        simp [node_free_self]
      · simp only [List.map_cons, List.mem_cons, ha, false_or, node_free_ne ha]

end Chain

end Links

end ArgoBbs

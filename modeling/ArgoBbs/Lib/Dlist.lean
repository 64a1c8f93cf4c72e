import ArgoBbs.Lib.Loop
import Mathlib.Data.List.Nodup

/-! # Doubly linked lists in a memory

Nodes at addresses with pointers to the node before and the node behind. A list in the memory holds
a sequence of addresses and values; insertions behind a node and removals of a node are the
insertions and removals of the sequence, and leave every node outside of it as it is. Reading or
writing a node that is not in the memory fails. -/

namespace ArgoBbs

structure Node (α : Type) where
  prev : Option Nat
  next : Option Nat
  val : α

/-- A memory of nodes with the addresses of the first and the last one of a list. -/
structure Dlist (α : Type) where
  mem : List (Option (Node α))
  first : Option Nat
  last : Option Nat

namespace Dlist
variable {α : Type}

/-- The node at an address, unless none was made there or it was freed. -/
def node (d : Dlist α) (p : Nat) : Option (Node α) := d.mem[p]?.join

def put (d : Dlist α) (p : Nat) (n : Node α) : Dlist α := { d with mem := d.mem.set p (some n) }

def free (d : Dlist α) (p : Nat) : Dlist α := { d with mem := d.mem.set p none }

/-- A node at a new address, with no links. -/
def alloc (d : Dlist α) (v : α) : Nat × Dlist α :=
  (d.mem.length, { d with mem := d.mem ++ [some ⟨none, none, v⟩] })

def setPrev (d : Dlist α) (p : Nat) (q : Option Nat) : Option (Dlist α) := do
  let n ← d.node p
  d.put p { n with prev := q }

def setNext (d : Dlist α) (p : Nat) (q : Option Nat) : Option (Dlist α) := do
  let n ← d.node p
  d.put p { n with next := q }

def setVal (d : Dlist α) (p : Nat) (v : α) : Option (Dlist α) := do
  let n ← d.node p
  d.put p { n with val := v }

/-- The pointer back from a node, or from the end of the list where there is none. -/
def setBack (d : Dlist α) (r q : Option Nat) : Option (Dlist α) :=
  match r with
  | some r => d.setPrev r q
  | none => some { d with last := q }

/-- The pointer ahead from a node, or from the start of the list where there is none. -/
def setAhead (d : Dlist α) (q r : Option Nat) : Option (Dlist α) :=
  match q with
  | some q => d.setNext q r
  | none => some { d with first := r }

/-- Links the node `p` in behind the node `q`. -/
def insertAfter (d : Dlist α) (p q : Nat) : Option (Dlist α) := do
  let n ← d.node q
  let d ← d.setNext p n.next
  let d ← d.setBack n.next (some p)
  let d ← d.setNext q (some p)
  d.setPrev p (some q)

/-- Links the node `p` out and frees it. -/
def remove (d : Dlist α) (p : Nat) : Option (Dlist α) := do
  let n ← d.node p
  let d ← d.setBack n.next n.prev
  let d ← d.setAhead n.prev n.next
  some (d.free p)

/-- Goes over the list from a node on and gives every node a new value, with a state that is passed
on. -/
def mapFrom {σ : Type} (f : σ → Nat → α → σ × α) (d : Dlist α) (acc : σ) (p : Option Nat) :
    Option (σ × Dlist α) :=
  loop (fun (p, acc, d) =>
    match p with
    | none => some (.inr (acc, d))
    | some p => do
      let n ← d.node p
      let d ← d.setVal p (f acc p n.val).2
      some (.inl (n.next, (f acc p n.val).1, d)))
    (d.mem.length + 1) (p, acc, d)

section Memory
variable {d : Dlist α} {p q : Nat} {n : Node α}

theorem lt_of_node (h : d.node p = some n) : p < d.mem.length := by
  rw [node, Option.join_eq_some_iff] at h
  exact (List.getElem?_eq_some_iff.mp h).1

theorem node_put_self (h : d.node p = some m) : (d.put p n).node p = some n := by
  simp [node, put, lt_of_node h]

theorem node_put_ne (h : q ≠ p) : (d.put p n).node q = d.node q := by
  simp [node, put, h.symm]

theorem node_free_ne (h : q ≠ p) : (d.free p).node q = d.node q := by
  simp [node, free, h.symm]

theorem node_free_self : (d.free p).node p = none := by
  rw [node, free, List.getElem?_set_self']
  cases d.mem[p]? <;> rfl

theorem node_alloc (v : α) (h : d.node q = some n) : (d.alloc v).2.node q = some n := by
  rw [← h, node, node, alloc, List.getElem?_append_left (lt_of_node h)]

theorem setPrev_eq (h : d.node p = some n) (q : Option Nat) :
    d.setPrev p q = some (d.put p { n with prev := q }) := by
  rw [setPrev, h]
  rfl

theorem setNext_eq (h : d.node p = some n) (q : Option Nat) :
    d.setNext p q = some (d.put p { n with next := q }) := by
  rw [setNext, h]
  rfl

theorem setVal_eq (h : d.node p = some n) (v : α) :
    d.setVal p v = some (d.put p { n with val := v }) := by
  rw [setVal, h]
  rfl

@[simp] theorem first_put : (d.put p n).first = d.first := rfl
@[simp] theorem last_put : (d.put p n).last = d.last := rfl
@[simp] theorem first_free : (d.free p).first = d.first := rfl
@[simp] theorem last_free : (d.free p).last = d.last := rfl
@[simp] theorem node_first (x : Option Nat) : ({ d with first := x } : Dlist α).node p = d.node p := rfl
@[simp] theorem node_last (x : Option Nat) : ({ d with last := x } : Dlist α).node p = d.node p := rfl

end Memory

/-! ## Linked nodes -/

/-- The nodes are linked in this order, behind the node `a` and ahead of the node `b`. -/
def Linked (d : Dlist α) : Option Nat → List (Nat × α) → Option Nat → Prop
  | _, [], _ => True
  | a, (p, v) :: xs, b =>
    d.node p = some ⟨a, (xs.head?.map Prod.fst).or b, v⟩ ∧ Linked d (some p) xs b

section Linked
variable {d d' : Dlist α} {a b : Option Nat} {xs ys : List (Nat × α)}

theorem Linked.congr (h : Linked d a xs b) (hd : ∀ x ∈ xs, d'.node x.1 = d.node x.1) :
    Linked d' a xs b := by
  induction xs generalizing a with
  | nil => trivial
  | cons x xs ih =>
    obtain ⟨hx, hxs⟩ := h
    exact ⟨(hd x List.mem_cons_self).trans hx, ih hxs fun y hy => hd y (List.mem_cons_of_mem _ hy)⟩

theorem linked_append : Linked d a (xs ++ ys) b ↔
    Linked d a xs ((ys.head?.map Prod.fst).or b) ∧
      Linked d ((xs.getLast?.map Prod.fst).or a) ys b := by
  induction xs generalizing a with
  | nil => simp [Linked]
  | cons x xs ih =>
    obtain ⟨p, v⟩ := x
    rw [List.cons_append, Linked, ih, Linked, and_assoc]
    cases xs with
    | nil => simp
    | cons y xs =>
      rw [List.getLast?_cons_cons, List.getLast?_eq_some_getLast (List.cons_ne_nil y xs)]
      rfl

/-- The last node gets another one behind it. -/
theorem Linked.setLast {p : Nat} {v : α} {c : Option Nat} (h : Linked d a (xs ++ [(p, v)]) b)
    (hd : ∀ x ∈ xs, d'.node x.1 = d.node x.1)
    (hp : ∀ n, d.node p = some n → d'.node p = some { n with next := c }) :
    Linked d' a (xs ++ [(p, v)]) c := by
  rw [linked_append] at h ⊢
  exact ⟨h.1.congr hd, hp _ h.2.1, trivial⟩

/-- The first node gets another one ahead of it. -/
theorem Linked.setFirst {p : Nat} {v : α} {c : Option Nat} (h : Linked d a ((p, v) :: xs) b)
    (hd : ∀ x ∈ xs, d'.node x.1 = d.node x.1)
    (hp : ∀ n, d.node p = some n → d'.node p = some { n with prev := c }) :
    Linked d' c ((p, v) :: xs) b :=
  ⟨hp _ h.1, h.2.congr hd⟩

end Linked

/-! ## Lists -/

/-- The memory holds the sequence of addresses and values as its list, and the nodes of `F` outside
of it. -/
structure Holds (F : Nat → Option (Node α)) (d : Dlist α) (xs : List (Nat × α)) : Prop where
  nodup : (xs.map Prod.fst).Nodup
  linked : Linked d none xs none
  first : d.first = xs.head?.map Prod.fst
  last : d.last = xs.getLast?.map Prod.fst
  frame : ∀ q n, F q = some n → q ∉ xs.map Prod.fst ∧ d.node q = some n

/-- The address of the entry at an index. -/
def addr (xs : List (Nat × α)) (i : Nat) : Option Nat := xs[i]?.map Prod.fst

section Holds
variable {F : Nat → Option (Node α)} {d : Dlist α} {xs ys pre post : List (Nat × α)}
  {p q : Nat}
  {v w : α} {n : Node α}

theorem exists_split {i : Nat} {x : Nat × α} (h : xs[i]? = some x) :
    ∃ pre post, xs = pre ++ x :: post ∧ pre.length = i := by
  obtain ⟨hi, rfl⟩ := List.getElem?_eq_some_iff.mp h
  refine ⟨xs.take i, xs.drop (i + 1), ?_, List.length_take_of_le (Nat.le_of_lt hi)⟩
  rw [List.getElem_cons_drop, List.take_append_drop]

theorem Holds.node (h : Holds F d (pre ++ (p, v) :: post)) :
    d.node p = some ⟨pre.getLast?.map Prod.fst, post.head?.map Prod.fst, v⟩ := by
  have hp := (linked_append.mp h.linked).2.1
  simpa only [Option.or_none] using hp

theorem Holds.isSome (h : Holds F d xs) (hp : p ∈ xs.map Prod.fst) : ∃ n, d.node p = some n := by
  obtain ⟨x, hx, rfl⟩ := List.mem_map.mp hp
  obtain ⟨pre, post, rfl⟩ := List.append_of_mem hx
  exact ⟨_, h.node⟩

/-- The node at an index and its neighbours. -/
theorem Holds.getElem? (h : Holds F d xs) {i : Nat} (hi : xs[i]? = some (p, v)) :
    d.node p = some ⟨if i = 0 then none else addr xs (i - 1), addr xs (i + 1), v⟩ := by
  obtain ⟨pre, post, rfl, rfl⟩ := exists_split hi
  rw [h.node]
  congr 2
  · rcases pre.eq_nil_or_concat with rfl | ⟨pre, x, rfl⟩
    · rfl
    · simp [addr]
  · rw [addr, List.getElem?_append_right (by omega)]
    simp [List.head?_eq_getElem?]

theorem Holds.first_congr (h : Holds F d xs) (he : ys.map Prod.fst = xs.map Prod.fst) :
    d.first = ys.head?.map Prod.fst := by
  rw [h.first, ← List.head?_map, ← he, List.head?_map]

theorem Holds.last_congr (h : Holds F d xs) (he : ys.map Prod.fst = xs.map Prod.fst) :
    d.last = ys.getLast?.map Prod.fst := by
  rw [h.last, ← List.getLast?_map, ← he, List.getLast?_map]

/-- Another value at a node of the list. -/
theorem Holds.setVal (h : Holds F d (pre ++ (p, v) :: post)) (w : α) :
    ∃ d', d.setVal p w = some d' ∧ Holds F d' (pre ++ (p, w) :: post) := by
  have hp := h.node
  refine ⟨_, setVal_eq hp w, ?_⟩
  have hnodup := h.nodup
  simp only [List.map_append, List.map_cons, List.nodup_append, List.nodup_cons] at hnodup
  obtain ⟨-, ⟨hpost, -⟩, hpre⟩ := hnodup
  have hl := linked_append.mp h.linked
  have he : (pre ++ (p, w) :: post).map Prod.fst = (pre ++ (p, v) :: post).map Prod.fst := by simp
  refine ⟨he ▸ h.nodup, linked_append.mpr ⟨?_, ?_, ?_⟩, h.first_congr he, h.last_congr he, ?_⟩
  · exact hl.1.congr fun x hx => node_put_ne fun heq =>
      hpre x.1 (List.mem_map_of_mem hx) p List.mem_cons_self heq
  · rw [node_put_self hp]
    simp
  · exact hl.2.2.congr fun x hx => node_put_ne fun heq =>
      hpost (heq ▸ List.mem_map_of_mem hx)
  · intro q m hq
    obtain ⟨hmem, hnode⟩ := h.frame q m hq
    refine ⟨by simpa using hmem, ?_⟩
    rwa [node_put_ne fun heq => hmem (by simp [heq])]

/-- A new node is neither in the list nor in the frame. -/
theorem Holds.alloc (h : Holds F d xs) (v : α) :
    Holds F (d.alloc v).2 xs ∧ (d.alloc v).1 ∉ xs.map Prod.fst ∧ F (d.alloc v).1 = none := by
  have hfresh : ∀ {q n}, d.node q = some n → q ≠ (d.alloc v).1 := fun hq =>
    Nat.ne_of_lt (lt_of_node hq)
  refine ⟨⟨h.nodup, ?_, h.first, h.last, fun q n hq => ?_⟩, fun hmem => ?_, ?_⟩
  · refine h.linked.congr fun x hx => ?_
    obtain ⟨n, hn⟩ := h.isSome (List.mem_map_of_mem hx)
    rw [hn, node_alloc v hn]
  · exact ⟨(h.frame q n hq).1, node_alloc v (h.frame q n hq).2⟩
  · obtain ⟨n, hn⟩ := h.isSome hmem
    exact hfresh hn rfl
  · cases hF : F (d.alloc v).1 with
    | none => rfl
    | some n => exact absurd rfl (hfresh (h.frame _ n hF).2)

end Holds

/-! ## Insertion and removal -/

section Links
variable {d : Dlist α} {p q : Nat} {n m : Node α}

/-- What an insertion behind the last node writes. -/
theorem insertAfter_last (hp : d.node p = some n) (hq : d.node q = some m) (hqp : q ≠ p)
    (hnext : n.next = none) : ∃ d', d.insertAfter q p = some d' ∧ d'.first = d.first ∧
      d'.last = some q ∧ d'.node p = some { n with next := some q } ∧
      d'.node q = some ⟨some p, none, m.val⟩ ∧ ∀ x, x ≠ p → x ≠ q → d'.node x = d.node x := by
  have hp₁ : ({ d.put q { m with next := none } with last := some q } : Dlist α).node p = some n := by
    rw [node_last, node_put_ne hqp.symm, hp]
  have hq₁ : (({ d.put q { m with next := none } with last := some q } : Dlist α).put p
      { n with next := some q }).node q = some { m with next := none } := by
    rw [node_put_ne hqp, node_last, node_put_self hq]
  refine ⟨_, ?_, ?_, ?_, ?_, node_put_self hq₁, fun x hxp hxq => ?_⟩
  · simp only [insertAfter, hp, hnext, setBack, setNext_eq hq, setNext_eq hp₁, setPrev_eq hq₁,
      Option.bind_eq_bind, Option.bind_some]
  · rfl
  · rfl
  · rw [node_put_ne hqp.symm, node_put_self hp₁]
  · rw [node_put_ne hxq, node_put_ne hxp, node_last, node_put_ne hxq]

/-- What an insertion between two nodes writes. -/
theorem insertAfter_between {r : Nat} {k : Node α} (hp : d.node p = some n) (hq : d.node q = some m)
    (hr : d.node r = some k) (hqp : q ≠ p) (hrp : r ≠ p) (hrq : r ≠ q) (hnext : n.next = some r) :
    ∃ d', d.insertAfter q p = some d' ∧ d'.first = d.first ∧
      d'.last = d.last ∧ d'.node p = some { n with next := some q } ∧
      d'.node q = some ⟨some p, some r, m.val⟩ ∧ d'.node r = some { k with prev := some q } ∧
      ∀ x, x ≠ p → x ≠ q → x ≠ r → d'.node x = d.node x := by
  have hr₁ : (d.put q { m with next := some r }).node r = some k := by
    rw [node_put_ne hrq, hr]
  have hp₁ : ((d.put q { m with next := some r }).put r { k with prev := some q }).node p =
      some n := by
    rw [node_put_ne hrp.symm, node_put_ne hqp.symm, hp]
  have hq₁ : (((d.put q { m with next := some r }).put r { k with prev := some q }).put p
      { n with next := some q }).node q = some { m with next := some r } := by
    rw [node_put_ne hqp, node_put_ne hrq.symm, node_put_self hq]
  refine ⟨_, ?_, ?_, ?_, ?_, node_put_self hq₁, ?_, fun x hxp hxq hxr => ?_⟩
  · simp only [insertAfter, hp, hnext, setBack, setNext_eq hq, setPrev_eq hr₁, setNext_eq hp₁,
      setPrev_eq hq₁, Option.bind_eq_bind, Option.bind_some]
  · rfl
  · rfl
  · rw [node_put_ne hqp.symm, node_put_self hp₁]
  · rw [node_put_ne hrq, node_put_ne hrp, node_put_self hr₁]
  · rw [node_put_ne hxq, node_put_ne hxp, node_put_ne hxr, node_put_ne hxq]

/-- What a removal writes. -/
theorem remove_writes (hp : d.node p = some n)
    (hprev : ∀ q, n.prev = some q → q ≠ p ∧ n.next ≠ some q ∧ ∃ k, d.node q = some k)
    (hnext : ∀ r, n.next = some r → r ≠ p ∧ ∃ k, d.node r = some k) :
    ∃ d', d.remove p = some d' ∧ d'.node p = none ∧
      d'.first = (if n.prev.isSome then d.first else n.next) ∧
      d'.last = (if n.next.isSome then d.last else n.prev) ∧
      (∀ q k, n.prev = some q → d.node q = some k → d'.node q = some { k with next := n.next }) ∧
      (∀ r k, n.next = some r → d.node r = some k → d'.node r = some { k with prev := n.prev }) ∧
      ∀ x, x ≠ p → n.prev ≠ some x → n.next ≠ some x → d'.node x = d.node x := by
  obtain ⟨prev, next, val⟩ := n
  obtain ⟨d₁, hd₁, hfirst₁, hlast₁, hr₁, hother₁⟩ : ∃ d₁ : Dlist α,
      d.setBack next prev = some d₁ ∧ d₁.first = d.first ∧
      d₁.last = (if next.isSome then d.last else prev) ∧
      (∀ r k, next = some r → d.node r = some k → d₁.node r = some { k with prev := prev }) ∧
      ∀ x, next ≠ some x → d₁.node x = d.node x := by
    cases next with
    | none => exact ⟨_, rfl, rfl, rfl, (fun _ _ hr => nomatch hr), fun _ _ => rfl⟩
    | some r =>
      obtain ⟨-, k, hk⟩ := hnext r rfl
      refine ⟨_, setPrev_eq hk prev, rfl, rfl, ?_, fun x hx => ?_⟩
      · intro r' k' hr' hk'
        obtain rfl := Option.some.inj hr'
        rw [← Option.some.inj (hk.symm.trans hk'), node_put_self hk]
      · exact node_put_ne fun heq => hx (by rw [heq])
  obtain ⟨d₂, hd₂, hfirst₂, hlast₂, hq₂, hother₂⟩ : ∃ d₂ : Dlist α,
      d₁.setAhead prev next = some d₂ ∧ d₂.first = (if prev.isSome then d.first else next) ∧
        d₂.last = d₁.last ∧
      (∀ q k, prev = some q → d.node q = some k → d₂.node q = some { k with next := next }) ∧
      ∀ x, prev ≠ some x → d₂.node x = d₁.node x := by
    cases prev with
    | none => exact ⟨_, rfl, rfl, rfl, (fun _ _ hr => nomatch hr), fun _ _ => rfl⟩
    | some q =>
      obtain ⟨-, hqnext, k, hk⟩ := hprev q rfl
      have hk₁ : d₁.node q = some k := (hother₁ q hqnext).trans hk
      refine ⟨_, setNext_eq hk₁ next, hfirst₁, rfl, ?_, fun x hx => ?_⟩
      · intro q' k' hq' hk'
        obtain rfl := Option.some.inj hq'
        rw [← Option.some.inj (hk.symm.trans hk'), node_put_self hk₁]
      · exact node_put_ne fun heq => hx (by rw [heq])
  refine ⟨d₂.free p, ?_, node_free_self, hfirst₂, hlast₂.trans hlast₁, fun q k hq hk => ?_,
    fun r k hr hk => ?_, fun x hxp hxq hxr => ?_⟩
  · simp only [remove, hp, hd₁, hd₂, Option.bind_eq_bind, Option.bind_some]
  · rw [node_free_ne (hprev q hq).1, hq₂ q k hq hk]
  · have hne : prev ≠ some r := fun heq => (hprev r heq).2.1 hr
    rw [node_free_ne (hnext r hr).1, hother₂ r hne, hr₁ r k hr hk]
  · rw [node_free_ne hxp, hother₂ x hxq, hother₁ x hxr]

end Links

section Edits
variable {F : Nat → Option (Node α)} {d : Dlist α} {pre post : List (Nat × α)} {p q : Nat} {v : α}
  {n : Node α}

theorem ne_of_nodup (xs ys : List (Nat × α)) (h : ((xs ++ ys).map Prod.fst).Nodup) :
    ∀ x ∈ xs, ∀ y ∈ ys, x.1 ≠ y.1 := by
  rw [List.map_append, List.nodup_append] at h
  exact fun x hx y hy => h.2.2 _ (List.mem_map_of_mem hx) _ (List.mem_map_of_mem hy)

theorem nodup_insert (xs ys : List (Nat × α)) (x : Nat × α) (h : ((xs ++ ys).map Prod.fst).Nodup)
    (hx : x.1 ∉ (xs ++ ys).map Prod.fst) : ((xs ++ x :: ys).map Prod.fst).Nodup := by
  have hperm : ((xs ++ x :: ys).map Prod.fst).Perm (x.1 :: (xs ++ ys).map Prod.fst) :=
    (@List.perm_middle _ x xs ys).map Prod.fst
  exact hperm.nodup_iff.mpr (List.nodup_cons.mpr ⟨hx, h⟩)

/-- A node outside of the list and of its frame, linked in behind a node. -/
theorem Holds.insertAfter (h : Holds F d (pre ++ (p, v) :: post)) (hq : d.node q = some n)
    (hmem : q ∉ (pre ++ (p, v) :: post).map Prod.fst) (hF : F q = none) :
    ∃ d', d.insertAfter q p = some d' ∧ Holds F d' (pre ++ (p, v) :: (q, n.val) :: post) := by
  have hp := h.node
  have hne : ∀ x ∈ pre ++ (p, v) :: post, x.1 ≠ q := fun x hx heq =>
    hmem (heq ▸ List.mem_map_of_mem hx)
  have hpre := ne_of_nodup _ _ h.nodup
  have hnodup : ((pre ++ (p, v) :: (q, n.val) :: post).map Prod.fst).Nodup := by
    have := nodup_insert (pre ++ [(p, v)]) post (q, n.val)
      (by simpa using h.nodup) (by simpa using hmem)
    simpa using this
  have hqp : q ≠ p := (hne (p, v) (by simp)).symm
  have hFne : ∀ x m, F x = some m → x ≠ q := fun x m hx heq => by
    rw [heq, hF] at hx
    cases hx
  cases post with
  | nil =>
    obtain ⟨d', hd', hfirst, hlast, hp', hq', hother⟩ := insertAfter_last hp hq hqp rfl
    refine ⟨d', hd', hnodup, ?_, ?_, ?_, fun x m hx => ?_⟩
    · rw [← List.singleton_append, ← List.append_assoc, linked_append]
      refine ⟨h.linked.setLast (fun x hx => ?_) fun m hm => ?_, ?_, trivial⟩
      · exact hother _ (hpre x hx (p, v) (by simp)) (hne x (by simp [hx]))
      · rw [hp', ← Option.some.inj (hp.symm.trans hm)]
        rfl
      · rw [hq']
        simp
    · rw [hfirst, h.first]
      cases pre <;> simp
    · rw [hlast]
      simp
    · obtain ⟨hnot, hx'⟩ := h.frame x m hx
      have hxq := hFne x m hx
      exact ⟨by simpa [hxq] using hnot, (hother x (fun heq => hnot (by simp [heq])) hxq).trans hx'⟩
  | cons y post =>
    obtain ⟨r, u⟩ := y
    have hr : d.node r = some ⟨some p, post.head?.map Prod.fst, u⟩ := by
      have h' : Holds F d ((pre ++ [(p, v)]) ++ (r, u) :: post) := by simpa using h
      simpa using h'.node
    have hpost := ne_of_nodup (pre ++ [(p, v)]) ((r, u) :: post) (by simpa using h.nodup)
    have hrpost := ne_of_nodup (pre ++ [(p, v), (r, u)]) post (by simpa using h.nodup)
    have hrp : r ≠ p := (hpost (p, v) (by simp) (r, u) (by simp)).symm
    have hrq : r ≠ q := hne (r, u) (by simp)
    obtain ⟨d', hd', hfirst, hlast, hp', hq', hr', hother⟩ :=
      insertAfter_between hp hq hr hqp hrp hrq rfl
    have hsplit := linked_append.mp (show Linked d none ((pre ++ [(p, v)]) ++ (r, u) :: post) none by
      simpa using h.linked)
    refine ⟨d', hd', hnodup, ?_, ?_, ?_, fun x m hx => ?_⟩
    · have heq : pre ++ (p, v) :: (q, n.val) :: (r, u) :: post =
          (pre ++ [(p, v)]) ++ ([(q, n.val)] ++ (r, u) :: post) := by simp
      rw [heq]
      refine linked_append.mpr ⟨hsplit.1.setLast (fun x hx => ?_) fun m hm => ?_,
        linked_append.mpr ⟨⟨?_, trivial⟩, hsplit.2.setFirst (fun x hx => ?_) fun m hm => ?_⟩⟩
      · exact hother _ (hpre x hx (p, v) (by simp)) (hne x (by simp [hx]))
          (hpost x (by simp [hx]) (r, u) (by simp))
      · rw [hp', ← Option.some.inj (hp.symm.trans hm)]
        rfl
      · rw [hq']
        simp
      · exact hother _ (hpost (p, v) (by simp) x (by simp [hx])).symm (hne x (by simp [hx]))
          (hrpost (r, u) (by simp) x hx).symm
      · rw [hr', ← Option.some.inj (hr.symm.trans hm)]
        simp
    · rw [hfirst, h.first]
      cases pre <;> simp
    · rw [hlast, h.last]
      simp [List.getLast?_append, List.getLast?_cons]
    · obtain ⟨hnot, hx'⟩ := h.frame x m hx
      have hxq := hFne x m hx
      refine ⟨by simpa [hxq] using hnot, (hother x (fun heq => hnot ?_) hxq fun heq => hnot ?_).trans hx'⟩
      · simp [heq]
      · simp [heq]

/-- A node of the list, linked out and freed. -/
theorem Holds.remove (h : Holds F d (pre ++ (p, v) :: post)) :
    ∃ d', d.remove p = some d' ∧ Holds F d' (pre ++ post) ∧ d'.node p = none := by
  have hp := h.node
  have hpre := ne_of_nodup _ _ h.nodup
  have hpost := ne_of_nodup (pre ++ [(p, v)]) post (by simpa using h.nodup)
  have hlinks := linked_append.mp h.linked
  obtain ⟨d', hd', hfree, hfirst, hlast, hq', hr', hother⟩ := remove_writes hp
    (fun q hq => by
      obtain ⟨x, hx, rfl⟩ := Option.map_eq_some_iff.mp hq
      have hxpre := List.mem_of_getLast? hx
      refine ⟨hpre x hxpre (p, v) (by simp), fun hnext => ?_,
        h.isSome (by simp [List.mem_map_of_mem hxpre])⟩
      obtain ⟨y, hy, hyx⟩ := Option.map_eq_some_iff.mp hnext
      exact hpre x hxpre y (by simp [List.mem_of_mem_head? hy]) hyx.symm)
    (fun r hr => by
      obtain ⟨y, hy, rfl⟩ := Option.map_eq_some_iff.mp hr
      have hypost := List.mem_of_mem_head? hy
      exact ⟨(hpost (p, v) (by simp) y hypost).symm, h.isSome (by simp [List.mem_map_of_mem hypost])⟩)
  have hpre' : Linked d' none pre (post.head?.map Prod.fst) := by
    rcases pre.eq_nil_or_concat with hnil | ⟨init, ⟨q, u⟩, hconcat⟩
    · rw [hnil]
      trivial
    · rw [List.concat_eq_append] at hconcat
      have hinit := ne_of_nodup init ((q, u) :: (p, v) :: post) (by
        simpa [hconcat] using h.nodup)
      have hlast : pre.getLast?.map Prod.fst = some q := by simp [hconcat]
      have hpre := hlinks.1
      rw [hconcat] at hpre ⊢
      refine hpre.setLast (fun x hx => ?_) fun m hm => hq' q m hlast hm
      refine hother x.1 (hinit x hx (p, v) (by simp)) (fun heq => ?_) fun heq => ?_
      · exact hinit x hx (q, u) (by simp) (Option.some.inj (heq.symm.trans hlast))
      · obtain ⟨y, hy, hyx⟩ := Option.map_eq_some_iff.mp heq
        exact hinit x hx y (by simp [List.mem_of_mem_head? hy]) hyx.symm
  have hpost' : Linked d' (pre.getLast?.map Prod.fst) post none := by
    cases post with
    | nil => trivial
    | cons y post =>
      obtain ⟨r, u⟩ := y
      have hinit := ne_of_nodup (pre ++ [(p, v), (r, u)]) post (by
        simpa using h.nodup)
      refine Linked.setFirst hlinks.2.2 (fun x hx => ?_) fun m hm => hr' r m rfl hm
      refine hother x.1 (hinit (p, v) (by simp) x hx).symm (fun heq => ?_) fun heq => ?_
      · obtain ⟨y, hy, hyx⟩ := Option.map_eq_some_iff.mp heq
        exact hinit y (by simp [List.mem_of_getLast? hy]) x hx hyx
      · exact hinit (r, u) (by simp) x hx (Option.some.inj heq)
  refine ⟨d', hd', ⟨?_, ?_, ?_, ?_, fun x m hx => ?_⟩, hfree⟩
  · refine h.nodup.sublist (List.Sublist.map _ ?_)
    exact (List.sublist_cons_self _ _).append_left _
  · rw [linked_append, Option.or_none, Option.or_none]
    exact ⟨hpre', hpost'⟩
  · rw [hfirst, h.first]
    cases pre <;> simp
  · rw [hlast, h.last]
    cases post <;> simp [List.getLast?_append, List.getLast?_cons]
  · obtain ⟨hnot, hx'⟩ := h.frame x m hx
    simp only [List.map_append, List.map_cons, List.mem_append, List.mem_cons, not_or] at hnot
    refine ⟨by simp [hnot], (hother x hnot.2.1 (fun hq => ?_) fun hr => ?_).trans hx'⟩
    · obtain ⟨y, hy, rfl⟩ := Option.map_eq_some_iff.mp hq
      exact hnot.1 (List.mem_map_of_mem (List.mem_of_getLast? hy))
    · obtain ⟨y, hy, rfl⟩ := Option.map_eq_some_iff.mp hr
      exact hnot.2.2 (List.mem_map_of_mem (List.mem_of_mem_head? hy))

end Edits

end Dlist

end ArgoBbs

import Mathlib.Data.List.Basic

/-! # Depth-first listings

A node has a list of items, and an item may lead to a further node, also to one that has been passed
before. The listing of a node up to a depth goes through the items, behind each of them through the
listing of the node that it leads to. An entry of it is addressed by the numbers of the items on the
way; for each of them it is noted whether it is the last one of its node. -/

namespace ArgoBbs

variable {ν α : Type}

structure Entry (α : Type) where
  address : List Nat
  closes : List Bool
  item : α

/-- The entry from one node higher. -/
def Entry.under (i : Nat) (last : Bool) (e : Entry α) : Entry α :=
  ⟨i :: e.address, last :: e.closes, e.item⟩

/-- The items from a number on, each with its entries behind it. -/
def siblings (sub : α → List (Entry α)) : Nat → List α → List (Entry α)
  | _, [] => []
  | i, x :: xs =>
    ⟨[i], [xs.isEmpty], x⟩ :: (sub x).map (.under i xs.isEmpty) ++ siblings sub (i + 1) xs

/-- The entries below an item. -/
def below (listing : ν → List (Entry α)) (child : ν → α → Option ν) (v : ν) (x : α) :
    List (Entry α) :=
  match child v x with
  | some w => listing w
  | none => []

def preorder (items : ν → List α) (child : ν → α → Option ν) : Nat → ν → List (Entry α)
  | 0, _ => []
  | n + 1, v => siblings (below (preorder items child n) child v) 0 (items v)

/-- The item at an address. -/
def visit (items : ν → List α) (child : ν → α → Option ν) : ν → List Nat → Option (List Bool × α)
  | _, [] => none
  | v, [i] => (items v)[i]?.map fun x => ([decide (i + 1 = (items v).length)], x)
  | v, i :: j :: address =>
    (items v)[i]?.bind fun x => (child v x).bind fun w =>
      (visit items child w (j :: address)).map fun (closes, y) =>
        (decide (i + 1 = (items v).length) :: closes, y)

section
variable {items : ν → List α} {child : ν → α → Option ν} {sub : α → List (Entry α)} {i n : Nat}
  {v : ν} {x : α} {xs : List α} {e : Entry α}

theorem mem_siblings_iff : e ∈ siblings sub i xs ↔ ∃ j x, xs[j]? = some x ∧
    (e = ⟨[i + j], [decide (j + 1 = xs.length)], x⟩ ∨
      ∃ e' ∈ sub x, e = e'.under (i + j) (decide (j + 1 = xs.length))) := by
  induction xs generalizing i with
  | nil => simp [siblings]
  | cons x xs ih =>
    have hlast : xs.isEmpty = decide (0 + 1 = (x :: xs).length) := by
      cases xs <;> simp
    have hsucc (j : Nat) : decide (j + 1 + 1 = (x :: xs).length) = decide (j + 1 = xs.length) := by
      simp
    have hadd (j : Nat) : i + (j + 1) = i + 1 + j := by omega
    rw [siblings, List.cons_append, List.mem_cons, List.mem_append, List.mem_map, ih, hlast]
    constructor
    · rintro (rfl | ⟨e', he', rfl⟩ | ⟨j, y, hy, h⟩)
      · exact ⟨0, x, rfl, .inl rfl⟩
      · exact ⟨0, x, rfl, .inr ⟨e', he', rfl⟩⟩
      · refine ⟨j + 1, y, hy, ?_⟩
        rwa [hsucc, hadd]
    · rintro ⟨_ | j, y, hy, h⟩
      · cases hy
        obtain rfl | ⟨e', he', rfl⟩ := h
        · exact .inl rfl
        · exact .inr (.inl ⟨e', he', rfl⟩)
      · refine .inr (.inr ⟨j, y, hy, ?_⟩)
        rwa [hsucc, hadd] at h

theorem mem_below_iff {listing : ν → List (Entry α)} :
    e ∈ below listing child v x ↔ ∃ w, child v x = some w ∧ e ∈ listing w := by
  rw [below]
  cases child v x <;> simp

theorem visit_cons {address : List Nat} (h : address ≠ []) :
    visit items child v (i :: address) = (items v)[i]?.bind fun x => (child v x).bind fun w =>
      (visit items child w address).map fun (closes, y) =>
        (decide (i + 1 = (items v).length) :: closes, y) := by
  obtain ⟨j, address, rfl⟩ := List.exists_cons_of_ne_nil h
  rw [visit]

theorem address_ne_nil {y : List Bool × α} (h : visit items child v e.address = some y) :
    e.address ≠ [] := by
  intro hnil
  rw [hnil] at h
  cases h

/-- The listing has what is at an address of the depth. -/
theorem mem_preorder_iff : e ∈ preorder items child n v ↔
    e.address.length ≤ n ∧ visit items child v e.address = some (e.closes, e.item) := by
  induction n generalizing v e with
  | zero =>
    refine iff_of_false List.not_mem_nil fun h => ?_
    exact address_ne_nil h.2 (List.eq_nil_of_length_eq_zero (Nat.le_zero.mp h.1))
  | succ n ih =>
    rw [preorder, mem_siblings_iff]
    simp only [Nat.zero_add, mem_below_iff]
    constructor
    · rintro ⟨i, x, hx, rfl | ⟨e', ⟨w, hw, he'⟩, rfl⟩⟩
      · exact ⟨Nat.succ_le_succ (Nat.zero_le n), by rw [visit, hx]; rfl⟩
      · obtain ⟨hle, hvisit⟩ := ih.mp he'
        refine ⟨Nat.succ_le_succ hle, ?_⟩
        rw [Entry.under, visit_cons (address_ne_nil hvisit), hx, Option.bind_some, hw,
          Option.bind_some, hvisit]
        rfl
    · obtain ⟨address, closes, item⟩ := e
      rintro ⟨hle, hvisit⟩
      match address with
      | [] => cases hvisit
      | [i] =>
        obtain ⟨x, hx, heq⟩ := Option.map_eq_some_iff.mp hvisit
        cases heq
        exact ⟨i, item, hx, .inl rfl⟩
      | i :: j :: address =>
        obtain ⟨x, hx, hvisit⟩ := Option.bind_eq_some_iff.mp hvisit
        obtain ⟨w, hw, hvisit⟩ := Option.bind_eq_some_iff.mp hvisit
        obtain ⟨⟨closes', y⟩, hy, heq⟩ := Option.map_eq_some_iff.mp hvisit
        cases heq
        refine ⟨i, x, hx, .inr ⟨⟨j :: address, closes', item⟩, ⟨w, hw, ?_⟩, rfl⟩⟩
        exact ih.mpr ⟨Nat.le_of_succ_le_succ hle, hy⟩

/-- All entries of the items from a number on have it or a later one. -/
theorem address_of_mem_siblings (he : e ∈ siblings sub i xs) :
    ∃ k address, e.address = k :: address ∧ i ≤ k := by
  obtain ⟨j, x, -, rfl | ⟨e', -, rfl⟩⟩ := mem_siblings_iff.mp he
  · exact ⟨_, _, rfl, Nat.le_add_right i j⟩
  · exact ⟨_, _, rfl, Nat.le_add_right i j⟩

/-- The items come in the order of their addresses, each in front of those below it. -/
theorem siblings_sorted (hsub : ∀ x, (sub x).Pairwise (·.address < ·.address))
    (hne : ∀ x, ∀ e ∈ sub x, e.address ≠ []) (i : Nat) (xs : List α) :
    (siblings sub i xs).Pairwise (·.address < ·.address) := by
  induction xs generalizing i with
  | nil => exact .nil
  | cons x xs ih =>
    have hlater {e : Entry α} (he : e ∈ siblings sub (i + 1) xs) (address : List Nat) :
        i :: address < e.address := by
      obtain ⟨k, address', hadd, hk⟩ := address_of_mem_siblings he
      rw [hadd]
      exact .rel hk
    rw [siblings, List.cons_append]
    refine .cons (fun e he => ?_) (List.pairwise_append.mpr ⟨?_, ih (i + 1), ?_⟩)
    · obtain he | he := List.mem_append.mp he
      · obtain ⟨e', he', rfl⟩ := List.mem_map.mp he
        obtain ⟨j, address, hadd⟩ := List.exists_cons_of_ne_nil (hne x e' he')
        rw [Entry.under, hadd]
        exact .cons .nil
      · exact hlater he []
    · exact (hsub x).map _ fun e e' h => .cons h
    · intro e he e' he'
      obtain ⟨d, -, rfl⟩ := List.mem_map.mp he
      exact hlater he' d.address

theorem preorder_sorted (items : ν → List α) (child : ν → α → Option ν) (n : Nat) (v : ν) :
    (preorder items child n v).Pairwise (·.address < ·.address) := by
  induction n generalizing v with
  | zero => exact .nil
  | succ n ih =>
    refine siblings_sorted (fun x => ?_) (fun x e he => ?_) 0 (items v)
    · rw [below]
      split
      · exact ih _
      · exact .nil
    · obtain ⟨w, -, he⟩ := mem_below_iff.mp he
      exact address_ne_nil (mem_preorder_iff.mp he).2

end

end ArgoBbs

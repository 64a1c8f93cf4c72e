import Mathlib.Logic.Function.Basic
import Mathlib.Data.Option.Basic

/-! # Open addressing

A table whose places hold at most one entry each. A key has a sequence of places; an entry is put
into the first of them that is vacant and is looked for along the same sequence up to a vacant
place. Entries are never taken out. -/

namespace ArgoBbs.Probing
variable {π ε : Type} {table : π → Option ε} {probe : Nat → π} {older : ε → ε → Prop}
  {e x : ε} {n m : Nat} {q : π}

/-- The first vacant place of the sequence. -/
structure Vacant (table : π → Option ε) (probe : Nat → π) (n : Nat) : Prop where
  none : table (probe n) = none
  before : ∀ i < n, ∃ x, table (probe i) = some x

/-- An entry is in the sequence, and only older ones are before it. -/
def Placed (older : ε → ε → Prop) (table : π → Option ε) (probe : Nat → π) (e : ε) : Prop :=
  ∃ n, table (probe n) = some e ∧ ∀ i < n, ∃ x, table (probe i) = some x ∧ older x e

/-- The table with an entry more. -/
def put [DecidableEq π] (table : π → Option ε) (q : π) (e : ε) : π → Option ε :=
  Function.update table q (some e)

theorem put_self [DecidableEq π] : put table q e q = some e := Function.update_self ..

theorem put_of_some [DecidableEq π] (hq : table q = none) {p : π} (h : table p = some x) :
    put table q e p = some x := by
  rw [put, Function.update_of_ne, h]
  rintro rfl
  cases hq.symm.trans h

theorem some_of_put [DecidableEq π] {p : π} (h : put table q e p = some x) :
    p = q ∧ x = e ∨ table p = some x := by
  by_cases hp : p = q
  · subst hp
    exact .inl ⟨rfl, Option.some.inj (h.symm.trans put_self)⟩
  · rw [put, Function.update_of_ne hp] at h
    exact .inr h

/-- Nothing comes before an entry that is there already. -/
theorem Placed.put_old [DecidableEq π] (h : Placed older table probe x) (hq : table q = none) :
    Placed older (put table q e) probe x := by
  obtain ⟨n, hn, hbefore⟩ := h
  refine ⟨n, put_of_some hq hn, fun i hi => ?_⟩
  obtain ⟨y, hy, holder⟩ := hbefore i hi
  exact ⟨y, put_of_some hq hy, holder⟩

/-- What is put into the first vacant place has the older entries before it. -/
theorem Vacant.put_new [DecidableEq π] (h : Vacant table probe n)
    (hold : ∀ p x, table p = some x → older x e) :
    Placed older (put table (probe n) e) probe e := by
  refine ⟨n, put_self, fun i hi => ?_⟩
  obtain ⟨y, hy⟩ := h.before i hi
  exact ⟨y, put_of_some h.none hy, hold _ _ hy⟩

/-- A search that passes over the older entries, and not over this one, ends where it is. -/
theorem Placed.reached {pass : ε → Prop} (h : Placed older table probe e)
    (hbefore : ∀ i < n, ∃ x, table (probe i) = some x ∧ pass x)
    (hend : ∀ x, table (probe n) = some x → ¬pass x) (he : ¬pass e)
    (hold : ∀ i x, table (probe i) = some x → older x e → pass x) : table (probe n) = some e := by
  obtain ⟨m, hm, holder⟩ := h
  obtain hlt | rfl | hgt := Nat.lt_trichotomy n m
  · obtain ⟨x, hx, hxe⟩ := holder n hlt
    exact absurd (hold n x hx hxe) (hend x hx)
  · exact hm
  · obtain ⟨x, hx, hpass⟩ := hbefore m hgt
    cases hm.symm.trans hx
    exact absurd hpass he

/-- Vacant places are not passed over. -/
theorem Vacant.le (h : Vacant table probe n) (hm : table (probe m) = .none) : n ≤ m := by
  refine Nat.le_of_not_lt fun hlt => ?_
  obtain ⟨x, hx⟩ := h.before m hlt
  cases hm.symm.trans hx

end ArgoBbs.Probing

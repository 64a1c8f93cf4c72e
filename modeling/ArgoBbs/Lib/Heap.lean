import Mathlib.Data.List.Nodup

/-! # Allocated blocks

The blocks that `malloc` has given so far are numbered, and a pointer is the number of one. A block
that has been freed can neither be read nor be freed again. -/

namespace ArgoBbs

/-- What is in the blocks that have been given, `none` in a freed one. -/
abbrev Heap (α : Type) := List (Option α)

namespace Heap
variable {α : Type}

def read (m : Heap α) (p : Nat) : Option α := m[p]?.join

/-- The pointer to the new block, and the memory with it. -/
def alloc (m : Heap α) (v : α) : Nat × Heap α := (m.length, m ++ [some v])

/-- `free`, which does nothing for `NULL`. -/
def free (m : Heap α) : Option Nat → Option (Heap α)
  | none => some m
  | some p => if (m.read p).isSome then some (m.set p none) else none

variable {m : Heap α} {p q : Nat} {v w : α}

theorem lt_of_read (h : m.read p = some v) : p < m.length := by
  rw [read, Option.join_eq_some_iff] at h
  exact (List.getElem?_eq_some_iff.mp h).1

theorem read_alloc_self : (m.alloc v).2.read (m.alloc v).1 = some v := by simp [read, alloc]

theorem read_alloc_ne (h : q ≠ (m.alloc v).1) : (m.alloc v).2.read q = m.read q := by
  have h : q ≠ m.length := h
  rcases Nat.lt_or_gt_of_ne h with hlt | hgt
  · simp [read, alloc, List.getElem?_append_left hlt]
  · rw [read, read, alloc, List.getElem?_eq_none (by simp; omega),
      List.getElem?_eq_none (by omega)]

theorem ne_alloc (h : m.read p = some w) : p ≠ (m.alloc v).1 := Nat.ne_of_lt (lt_of_read h)

/-- A block that can be read can be freed, and the others stay. -/
theorem exists_free (h : m.read p = some v) : ∃ m', m.free (some p) = some m' ∧
    m'.read p = none ∧ ∀ q, q ≠ p → m'.read q = m.read q := by
  refine ⟨m.set p none, by simp [free, h], ?_, fun q hq => ?_⟩
  · simp [read, lt_of_read h]
  · simp [read, Ne.symm hq]

end Heap

end ArgoBbs

import Mathlib.Data.List.Basic

/-! # Counting in a table

A table has `n` slots; how many of them satisfy a condition changes with a change of one slot by
what changes there. -/

namespace ArgoBbs

variable {m n v : Nat} {p q : Nat → Bool}

/-- The number of slots with the condition. -/
def countSlots (n : Nat) (p : Nat → Bool) : Nat := (List.range n).countP p

theorem countSlots_succ : countSlots (n + 1) p = countSlots n p + (p n).toNat := by
  rw [countSlots, List.range_succ, List.countP_append, List.countP_singleton, countSlots]
  cases p n <;> rfl

theorem countSlots_congr (h : ∀ i < n, q i = p i) : countSlots n q = countSlots n p :=
  List.countP_congr fun i hi => by rw [h i (List.mem_range.mp hi)]

theorem countSlots_mono (h : ∀ i, q i = true → p i = true) : countSlots n q ≤ countSlots n p :=
  List.countP_mono_left fun i _ => h i

theorem countSlots_le (h : m ≤ n) : countSlots m p ≤ countSlots n p :=
  (List.range_sublist.mpr h).countP_le

/-- The conditions differ in the slot `v` at most. -/
theorem countSlots_update (hv : v < n) (h : ∀ i, i ≠ v → q i = p i) :
    countSlots n q + (p v).toNat = countSlots n p + (q v).toNat := by
  induction n with
  | zero => cases hv
  | succ n ih =>
    rw [countSlots_succ, countSlots_succ]
    by_cases hvn : v = n
    · subst hvn
      rw [countSlots_congr fun i hi => h i (Nat.ne_of_lt hi)]
      exact Nat.add_right_comm ..
    · have ih := ih (by omega)
      rw [h n (Ne.symm hvn)]
      omega

/-- No slot satisfies the condition. -/
theorem countSlots_zero (h : ∀ i < n, p i = false) : countSlots n p = 0 :=
  List.countP_eq_zero.mpr fun i hi => by simp [h i (List.mem_range.mp hi)]

theorem countSlots_pos (hv : v < n) (h : p v = true) : 0 < countSlots n p :=
  List.countP_pos_iff.mpr ⟨v, List.mem_range.mpr hv, h⟩

end ArgoBbs

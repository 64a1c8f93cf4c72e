import Mathlib.Data.List.Basic

/-! # Breaks of a text

A text is broken at places that are written down the last one first: where the part in front ends,
and where the next one starts. -/

namespace ArgoBbs

/-- Where the part behind the breaks starts. -/
def nextStart : List (Nat × Nat) → Nat
  | [] => 0
  | (_, p1) :: _ => p1

/-- What breaks at most once at each place has at the end the breaks that it had at a place, with
those behind the place. -/
theorem filter_breaks {b : Nat → List (Nat × Nat)} (hnil : b 0 = [])
    (hstep : ∀ q, b (q + 1) = b q ∨ ∃ next, b (q + 1) = (q, next) :: b q) {q n : Nat} (hle : q ≤ n) :
    (b n).filter (fun x => decide (x.1 < q)) = b q := by
  have hlt : ∀ n, ∀ x ∈ b n, x.1 < n := by
    intro n
    induction n with
    | zero =>
      rw [hnil]
      exact fun x hx => absurd hx List.not_mem_nil
    | succ n ih =>
      intro x hx
      rcases hstep n with h | ⟨next, h⟩
      · exact Nat.lt_succ_of_lt (ih x (h ▸ hx))
      · rw [h, List.mem_cons] at hx
        rcases hx with rfl | hx
        · exact Nat.lt_succ_self n
        · exact Nat.lt_succ_of_lt (ih x hx)
  induction n with
  | zero =>
    obtain rfl := Nat.le_zero.mp hle
    rw [hnil]
    rfl
  | succ n ih =>
    rcases Nat.le_or_eq_of_le_succ hle with hle | rfl
    · rcases hstep n with h | ⟨next, h⟩
      · rw [h, ih hle]
      · rw [h, List.filter_cons_of_neg (by simpa using hle), ih hle]
    · rw [List.filter_eq_self]
      exact fun x hx => decide_eq_true (hlt _ x hx)

end ArgoBbs

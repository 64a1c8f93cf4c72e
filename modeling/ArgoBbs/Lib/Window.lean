import Mathlib.Data.Nat.Find
import Mathlib.Logic.Function.Basic

/-! # Windows on a sequence

A sequence is made by a step from its first element, until there is no next one. A ring of cells
holds a window of it: some consecutive elements, each in the cell given by its number modulo the
size. -/

namespace ArgoBbs

variable {α : Type}

/-- The elements that a step makes one after the other. -/
def chain (first : Option α) (next : α → Option α) : Nat → Option α
  | 0 => first
  | n + 1 => (chain first next n).bind next

section
variable {first : Option α} {next : α → Option α} {m n : Nat}

theorem chain_none_of_le (h : chain first next m = none) (hle : m ≤ n) :
    chain first next n = none := by
  induction hle with
  | refl => exact h
  | step _ ih => rw [chain, ih, Option.bind_none]

/-- A sequence that ends has a length. -/
theorem exists_length (h : ∃ n, chain first next n = none) :
    ∃ L, ∀ n, (chain first next n).isSome ↔ n < L := by
  classical
  refine ⟨Nat.find h, fun n => ?_⟩
  rw [Option.isSome_iff_ne_none]
  constructor
  · intro hn
    exact Nat.lt_of_not_le fun hle => hn (chain_none_of_le (Nat.find_spec h) hle)
  · exact Nat.find_min h

end

/-- The cells hold the elements with the numbers from `start` on. -/
structure Window (size : Nat) (f : Nat → Option α) (ring : Nat → α) (start num : Nat) : Prop where
  num_le : num ≤ size
  cells : ∀ k, start ≤ k → k < start + num → f k = some (ring (k % size))

theorem mod_ne_mod {size k m : Nat} (hlt : k < m) (hm : m < k + size) : k % size ≠ m % size := by
  intro h
  have hdvd : size ∣ m - k := Nat.dvd_of_mod_eq_zero (Nat.sub_mod_eq_zero_of_mod_eq h.symm)
  have hle := Nat.le_of_dvd (by omega) hdvd
  omega

namespace Window
variable {size start num : Nat} {f : Nat → Option α} {ring : Nat → α} {x : α}

theorem empty (size : Nat) (f : Nat → Option α) (ring : Nat → α) (start : Nat) :
    Window size f ring start 0 :=
  ⟨Nat.zero_le _, fun k h h' => by omega⟩

/-- The cell behind a window that leaves one free is not one of its own. -/
theorem write (h : Window size f ring start num) (hlt : num < size) (x : α) :
    Window size f (Function.update ring ((start + num) % size) x) start num where
  num_le := h.num_le
  cells k hk hk' := by
    rw [Function.update_of_ne (mod_ne_mod hk' (by omega))]
    exact h.cells k hk hk'

theorem push (h : Window size f ring start num) (hlt : num < size) (hx : f (start + num) = some x) :
    Window size f (Function.update ring ((start + num) % size) x) start (num + 1) where
  num_le := hlt
  cells k hk hk' := by
    rcases Nat.lt_or_ge k (start + num) with hk'' | hge
    · exact (h.write hlt x).cells k hk hk''
    · obtain rfl : k = start + num := by omega
      rw [Function.update_self, hx]

theorem shrink (h : Window size f ring start num) : Window size f ring (start + 1) (num - 1) where
  num_le := Nat.le_trans (Nat.sub_le ..) h.num_le
  cells k hk hk' := h.cells k (by omega) (by omega)

end Window

end ArgoBbs

import Mathlib.Data.List.Infix

/-! # Words

Words in one list, with a separator between them. -/

namespace ArgoBbs

variable {α : Type} {sep : α} {w : List α} {ws : List (List α)}

/-- The words one behind the other, with the separator between them. -/
def joined (sep : α) (ws : List (List α)) : List α := [sep].intercalate ws

@[simp] theorem joined_nil : joined sep [] = [] := rfl

@[simp] theorem joined_singleton : joined sep [w] = w := List.intercalate_singleton

theorem joined_cons (hne : ws ≠ []) : joined sep (w :: ws) = w ++ sep :: joined sep ws := by
  rw [joined, joined, List.intercalate_cons_of_ne_nil hne, List.append_assoc, List.singleton_append]

theorem joined_concat (hne : ws ≠ []) (w : List α) :
    joined sep (ws ++ [w]) = joined sep ws ++ sep :: w := by
  induction ws with
  | nil => exact absurd rfl hne
  | cons v ws ih =>
    rcases eq_or_ne ws [] with rfl | hws
    · rw [List.singleton_append, joined_cons (List.cons_ne_nil w []), joined_singleton,
        joined_singleton]
    · rw [List.cons_append, joined_cons (List.append_ne_nil_of_left_ne_nil hws _), ih hws,
        joined_cons hws, List.append_assoc, List.cons_append]

theorem joined_eq_nil_iff (hws : ∀ w ∈ ws, w ≠ []) : joined sep ws = [] ↔ ws = [] := by
  cases ws with
  | nil => exact iff_of_true rfl rfl
  | cons w ws =>
    refine iff_of_false (fun h => ?_) (List.cons_ne_nil w ws)
    rcases eq_or_ne ws [] with rfl | hne
    · rw [joined_singleton] at h
      exact hws w List.mem_cons_self h
    · rw [joined_cons hne] at h
      exact List.append_ne_nil_of_right_ne_nil w (List.cons_ne_nil sep _) h

/-- There is one separator less than words. -/
theorem count_joined [DecidableEq α] (hws : ∀ w ∈ ws, sep ∉ w) (hne : ws ≠ []) :
    (joined sep ws).count sep + 1 = ws.length := by
  induction ws with
  | nil => exact absurd rfl hne
  | cons w ws ih =>
    obtain ⟨hw, hws⟩ := List.forall_mem_cons.mp hws
    rcases eq_or_ne ws [] with rfl | hne
    · rw [joined_singleton, List.count_eq_zero_of_not_mem hw, List.length_singleton]
    · rw [joined_cons hne, List.count_append, List.count_cons_self,
        List.count_eq_zero_of_not_mem hw, Nat.zero_add, ih hws hne, List.length_cons]

theorem length_joined_le {n : Nat} (hws : ∀ w ∈ ws, w.length ≤ n) :
    (joined sep ws).length ≤ ws.length * (n + 1) := by
  induction ws with
  | nil => exact Nat.zero_le _
  | cons w ws ih =>
    obtain ⟨hw, hws⟩ := List.forall_mem_cons.mp hws
    rw [List.length_cons, Nat.succ_mul]
    rcases eq_or_ne ws [] with rfl | hne
    · rw [joined_singleton]
      omega
    · have hrest := ih hws
      rw [joined_cons hne, List.length_append, List.length_cons]
      omega

/-- A list without the separator that stands at the start of words stands at that of the first one.
-/
theorem prefix_append_cons_iff {l : List α} (hl : sep ∉ l) (w rest : List α) :
    l <+: w ++ sep :: rest ↔ l <+: w := by
  constructor
  · intro h
    induction w generalizing l with
    | nil =>
      cases l with
      | nil => exact List.nil_prefix
      | cons c l =>
        obtain ⟨rfl, -⟩ := List.cons_prefix_cons.mp h
        exact absurd List.mem_cons_self hl
    | cons d w ih =>
      cases l with
      | nil => exact List.nil_prefix
      | cons c l =>
        obtain ⟨rfl, hrest⟩ := List.cons_prefix_cons.mp h
        exact List.cons_prefix_cons.mpr ⟨rfl, ih (List.not_mem_of_not_mem_cons hl) hrest⟩
  · intro h
    exact h.trans (List.prefix_append w _)

end ArgoBbs

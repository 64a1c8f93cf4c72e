import Mathlib.Data.List.Basic

/-! # Maps that look ahead

Each element of a stream is replaced by what it and the rest of the stream say. An element is
settled if no continuation of the stream changes what is said of it. -/

namespace ArgoBbs

variable {α β : Type}

def mapTail (f : α → List α → β) : List α → List β
  | [] => []
  | a :: l => f a l :: mapTail f l

/-- The first elements are settled. -/
def settled (d : α → List α → Bool) : Nat → List α → Bool
  | 0, _ => true
  | _ + 1, [] => true
  | n + 1, a :: l => d a l && settled d n l

section
variable (f : α → List α → β)

@[simp] theorem mapTail_nil : mapTail f [] = [] := rfl

@[simp] theorem length_mapTail (l : List α) : (mapTail f l).length = l.length := by
  induction l with
  | nil => rfl
  | cons a l ih => rw [mapTail, List.length_cons, ih, List.length_cons]

theorem mapTail_drop (n : Nat) (l : List α) : (mapTail f l).drop n = mapTail f (l.drop n) := by
  induction l generalizing n with
  | nil => simp
  | cons a l ih =>
    cases n with
    | zero => rfl
    | succ n => exact ih n
end

section
variable {f : α → List α → β} {d : α → List α → Bool}

theorem settled_cons {n : Nat} {a : α} {l : List α} :
    settled d (n + 1) (a :: l) = true ↔ d a l = true ∧ settled d n l = true := by
  rw [settled, Bool.and_eq_true]

theorem settled_add (n m : Nat) (l : List α) :
    settled d (n + m) l = true ↔ settled d n l = true ∧ settled d m (l.drop n) = true := by
  induction n generalizing l with
  | zero => simp [settled]
  | succ n ih =>
    cases l with
    | nil => cases m <;> simp [settled]
    | cons a l => rw [Nat.succ_add, settled_cons, settled_cons, ih, List.drop_succ_cons, and_assoc]

/-- What is settled stays so in every continuation. -/
theorem settled_append (hd : ∀ a l e, d a l = true → d a (l ++ e) = true) {n : Nat} {l : List α}
    (e : List α) (hn : n ≤ l.length) (h : settled d n l = true) :
    settled d n (l ++ e) = true := by
  induction l generalizing n with
  | nil =>
    cases Nat.le_zero.mp hn
    rfl
  | cons a l ih =>
    cases n with
    | zero => rfl
    | succ n =>
      rw [settled_cons] at h
      rw [List.cons_append, settled_cons]
      exact ⟨hd a l e h.1, ih (Nat.le_of_succ_le_succ hn) h.2⟩

/-- A continuation does not change what the settled elements are replaced by. -/
theorem take_mapTail_append (hf : ∀ a l e, d a l = true → f a (l ++ e) = f a l) {n : Nat}
    {l : List α} (e : List α) (hn : n ≤ l.length) (h : settled d n l = true) :
    (mapTail f (l ++ e)).take n = (mapTail f l).take n := by
  induction l generalizing n with
  | nil =>
    cases Nat.le_zero.mp hn
    rfl
  | cons a l ih =>
    cases n with
    | zero => rfl
    | succ n =>
      rw [settled_cons] at h
      rw [List.cons_append, mapTail, mapTail, List.take_succ_cons, List.take_succ_cons,
        hf a l e h.1, ih (Nat.le_of_succ_le_succ hn) h.2]
end

end ArgoBbs

import Mathlib.Data.List.Basic

/-! # Entries taken out by their numbers

The entries of a list have the numbers 1, 2, .... Taking entries out one after the other changes the
numbers of those behind; from the largest number to the smallest it takes out what the numbers stood
for at first. -/

namespace ArgoBbs

variable {α : Type*} {l l' : List α} {ids : List Nat} {id k : Nat}

/-- The entries that do not have one of the numbers; the first one has the number `k`. -/
def withoutFrom (k : Nat) (ids : List Nat) (l : List α) : List α :=
  ((l.zipIdx k).filter (·.2 ∉ ids)).map (·.1)

/-- The entries that do not have one of the numbers. -/
def withoutNumbers (ids : List Nat) (l : List α) : List α := withoutFrom 1 ids l

@[simp] theorem withoutFrom_nil : withoutFrom k ids ([] : List α) = [] := rfl

theorem withoutFrom_cons (x : α) :
    withoutFrom k ids (x :: l) =
      (if k ∈ ids then [] else [x]) ++ withoutFrom (k + 1) ids l := by
  rw [withoutFrom, List.zipIdx_cons, List.filter_cons]
  split <;> simp_all [withoutFrom]

theorem withoutFrom_append :
    withoutFrom k ids (l ++ l') = withoutFrom k ids l ++ withoutFrom (k + l.length) ids l' := by
  rw [withoutFrom, List.zipIdx_append, List.filter_append, List.map_append]
  rfl

/-- No entry has one of the numbers. -/
theorem withoutFrom_of_notMem (h : ∀ n ∈ ids, n < k ∨ k + l.length ≤ n) :
    withoutFrom k ids l = l := by
  induction l generalizing k with
  | nil => rfl
  | cons x l ih =>
    rw [withoutFrom_cons, if_neg fun hk => ?_, ih fun n hn => ?_, List.singleton_append]
    · have hn := h n hn
      rw [List.length_cons] at hn
      omega
    · have hn := h k hk
      rw [List.length_cons] at hn
      omega

/-- Other numbers than those of the entries do not matter. -/
theorem withoutFrom_congr {ids' : List Nat}
    (h : ∀ n, k ≤ n → n < k + l.length → (n ∈ ids ↔ n ∈ ids')) :
    withoutFrom k ids l = withoutFrom k ids' l := by
  induction l generalizing k with
  | nil => rfl
  | cons x l ih =>
    simp only [List.length_cons] at h
    have hhead := h k (Nat.le_refl _) (by omega)
    rw [withoutFrom_cons, withoutFrom_cons, ih fun n hle hlt => h n (by omega) (by omega)]
    simp only [hhead]

theorem withoutNumbers_nil : withoutNumbers [] l = l :=
  withoutFrom_of_notMem (List.forall_mem_nil _)

/-- The entries in front of all numbers stay. -/
theorem withoutNumbers_eq_take (hle : id ≤ l.length) (hids : ∀ n ∈ ids, id < n) :
    withoutNumbers ids l = l.take id ++ withoutFrom (id + 1) ids (l.drop id) := by
  have hlen : (l.take id).length = id := List.length_take_of_le hle
  conv_lhs => rw [← List.take_append_drop id l]
  rw [withoutNumbers, withoutFrom_append, hlen, Nat.add_comm 1 id,
    withoutFrom_of_notMem fun n hn => .inr (by have hn := hids n hn; omega)]

theorem le_length_withoutNumbers (hle : id ≤ l.length) (hids : ∀ n ∈ ids, id < n) :
    id ≤ (withoutNumbers ids l).length := by
  rw [withoutNumbers_eq_take hle hids, List.length_append, List.length_take_of_le hle]
  exact Nat.le_add_right ..

/-- One entry more is taken out, in front of all that have been: it still has its number. -/
theorem withoutNumbers_concat (hpos : 0 < id) (hle : id ≤ l.length) (hids : ∀ n ∈ ids, id < n) :
    (withoutNumbers ids l).take (id - 1) ++ (withoutNumbers ids l).drop id =
      withoutNumbers (ids ++ [id]) l := by
  have hlen : (l.take id).length = id := List.length_take_of_le hle
  have hback : withoutFrom (id + 1) (ids ++ [id]) (l.drop id) =
      withoutFrom (id + 1) ids (l.drop id) :=
    withoutFrom_congr fun n hn _ => by
      rw [List.mem_append, List.mem_singleton]
      exact or_iff_left (by omega)
  have hconcat : withoutNumbers (ids ++ [id]) l =
      l.take (id - 1) ++ withoutFrom (id + 1) ids (l.drop id) := by
    rw [withoutNumbers_eq_take (by omega : id - 1 ≤ l.length) fun n hn => ?_,
      List.drop_eq_getElem_cons (by omega : id - 1 < l.length), withoutFrom_cons,
      Nat.sub_add_cancel hpos, if_pos (List.mem_append_right _ List.mem_cons_self), List.nil_append,
      hback]
    rcases List.mem_append.mp hn with hn | hn
    · have hlt := hids n hn
      omega
    · rw [List.mem_singleton.mp hn]
      omega
  rw [hconcat, withoutNumbers_eq_take hle hids, List.drop_left' hlen,
    List.take_append_of_le_length (by omega), List.take_take, Nat.min_eq_left (Nat.sub_le ..)]

end ArgoBbs

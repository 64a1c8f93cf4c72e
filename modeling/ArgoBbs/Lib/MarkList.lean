import Mathlib.Data.List.Sort
import Mathlib.Data.List.TakeWhile

/-! # Bounded decreasing lists as sets of seen values

A strictly decreasing list of at most `cap` values stands for a set that is closed downwards from
its smallest value: a value counts as seen (`Seen`) when it is in the list or below all of it.
`insertMark` adds an unseen value at its place. When the list is full the smallest value is pushed
out and nothing is lost, since what is pushed out falls below the new minimum. -/

namespace ArgoBbs

variable {α : Type*} [LinearOrder α] {l : List α} {t u : α} {cap : Nat}

/-- `t` is marked, or older than everything that is marked. -/
def Seen (l : List α) (t : α) : Prop := t ∈ l ∨ ∀ x ∈ l, t < x

instance (l : List α) (t : α) : Decidable (Seen l t) := inferInstanceAs (Decidable (_ ∨ _))

/-- The number of values of `l` above `t`: the place of `t` in a decreasing list. -/
def rank (t : α) (l : List α) : Nat := (l.takeWhile (t < ·)).length

/-- Put `t` at its place and cut the list to `cap` values. -/
def insertMark (cap : Nat) (t : α) (l : List α) : List α :=
  (l.orderedInsert (· ≥ ·) t).take cap

/-! ## The place of a value -/

theorem rank_eq {c : Nat} (h1 : ∀ x ∈ l.take c, t < x) (h2 : ∀ x ∈ l[c]?, x ≤ t)
    (hc : c ≤ l.length) : rank t l = c := by
  have hhead : (l.drop c).takeWhile (t < ·) = [] := by
    cases hd : l.drop c with
    | nil => rfl
    | cons x xs =>
      have hx : l[c]? = some x := by rw [← List.head?_drop, hd]; rfl
      exact List.takeWhile_cons_of_neg (by simpa using h2 x hx)
  rw [rank, ← List.take_append_drop c l, List.takeWhile_append_of_pos (by simpa using h1), hhead]
  simpa using hc

theorem rank_le : rank t l ≤ l.length := (List.takeWhile_prefix _).length_le

theorem take_rank : l.take (rank t l) = l.takeWhile (t < ·) :=
  (List.prefix_iff_eq_take.mp (List.takeWhile_prefix _)).symm

theorem drop_rank : l.drop (rank t l) = l.dropWhile (t < ·) := by
  have h := List.take_append_drop (rank t l) l
  rw [take_rank] at h
  exact List.append_cancel_left (h.trans List.takeWhile_append_dropWhile.symm)

theorem insertMark_eq :
    insertMark cap t l = (l.take (rank t l) ++ t :: l.drop (rank t l)).take cap := by
  rw [insertMark, List.orderedInsert_eq_take_drop, take_rank, drop_rank]
  simp

/-- Only a value below the whole list has its place at the end. -/
theorem rank_lt_length (h : ¬ Seen l t) : rank t l < l.length := by
  refine lt_of_le_of_ne rank_le fun hr => h (.inr fun x hx => ?_)
  have htake : l.take (rank t l) = l := hr ▸ List.take_length
  rw [← htake, take_rank] at hx
  simpa using List.mem_takeWhile_imp hx

/-! ## Insertion -/

theorem mem_insertMark (h : u ∈ insertMark cap t l) : u = t ∨ u ∈ l :=
  (List.mem_orderedInsert _).mp (List.mem_of_mem_take h)

theorem sorted_orderedInsert (hl : l.Pairwise (· > ·)) (ht : t ∉ l) :
    (l.orderedInsert (· ≥ ·) t).Pairwise (· > ·) := by
  induction l with
  | nil => simp
  | cons x l ih =>
    obtain ⟨hx, hl⟩ := List.pairwise_cons.mp hl
    obtain ⟨hne, ht⟩ := not_or.mp (mt List.mem_cons.mpr ht)
    by_cases hle : t ≥ x
    · have htx : t > x := lt_of_le_of_ne hle (Ne.symm hne)
      simp only [List.orderedInsert, if_pos hle, List.pairwise_cons, List.mem_cons]
      exact ⟨fun y hy => hy.elim (· ▸ htx) fun hy => (hx y hy).trans htx, hx, hl⟩
    · simp only [List.orderedInsert, if_neg hle, List.pairwise_cons, List.mem_orderedInsert]
      exact ⟨fun y hy => hy.elim (· ▸ not_le.mp hle) (hx y), ih hl ht⟩

theorem sorted_insertMark (cap : Nat) (hl : l.Pairwise (· > ·)) (ht : t ∉ l) :
    (insertMark cap t l).Pairwise (· > ·) :=
  (sorted_orderedInsert hl ht).sublist (List.take_sublist ..)

/-- An unseen value is in the list after its insertion, also when the list was full. -/
theorem mem_insertMark_self (h : ¬ Seen l t) (hcap : l.length ≤ cap) : t ∈ insertMark cap t l := by
  have hr := rank_lt_length h
  rw [insertMark_eq, List.mem_take_iff_getElem]
  refine ⟨rank t l, by simp; omega, ?_⟩
  rw [List.getElem_append_right (by simp)]
  simp [min_eq_left rank_le]

/-- Insertion never turns a seen value into an unseen one. -/
theorem Seen.insertMark (hl : l.Pairwise (· > ·)) (ht : ¬ Seen l t) (h : Seen l u) :
    Seen (insertMark cap t l) u := by
  have hsorted := sorted_orderedInsert hl (fun hm => ht (.inl hm))
  obtain ⟨y, hy, hyt⟩ : ∃ y ∈ l, y < t := by
    obtain ⟨hmem, hall⟩ := not_or.mp ht
    obtain ⟨y, hy, hle⟩ : ∃ y ∈ l, y ≤ t := by simpa using hall
    exact ⟨y, hy, lt_of_le_of_ne hle fun he => hmem (he ▸ hy)⟩
  by_cases hu : u ∈ ArgoBbs.insertMark cap t l
  · exact .inl hu
  refine .inr fun x hx => ?_
  rcases h with h | h
  · -- `u` was pushed out by the cut, so it stood behind everything that is left
    rw [ArgoBbs.insertMark] at hx hu
    have hu' : u ∈ (l.orderedInsert (· ≥ ·) t).drop cap := by
      have : u ∈ l.orderedInsert (· ≥ ·) t := (List.mem_orderedInsert _).mpr (.inr h)
      rw [← List.take_append_drop cap (l.orderedInsert _ t), List.mem_append] at this
      exact this.resolve_left hu
    rw [← List.take_append_drop cap (l.orderedInsert _ t), List.pairwise_append] at hsorted
    exact hsorted.2.2 x hx u hu'
  · rcases mem_insertMark hx with rfl | hx
    · exact (h y hy).trans hyt
    · exact h x hx

end ArgoBbs

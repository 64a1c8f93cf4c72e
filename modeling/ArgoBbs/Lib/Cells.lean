import Mathlib.Data.List.Basic

/-! # Arrays of cells

A C array is the list of its cells. Every access carries its bound check: reading, writing and
moving fail (`none`) exactly when some cell they touch lies outside the array, so a computation
that returns a value has stayed inside it. -/

namespace ArgoBbs

/-- `a[i]`. -/
def cell (a : List α) (i : Int) : Option α := if i < 0 then none else a[i.toNat]?

/-- `a[i] = x`. -/
def setCell (a : List α) (i : Int) (x : α) : Option (List α) :=
  if 0 ≤ i ∧ i < a.length then some (a.set i.toNat x) else none

/-- Write the cells `xs` over `a` from position `i` on. -/
def overlay (a : List α) (i : Nat) (xs : List α) : List α :=
  a.take i ++ xs ++ a.drop (i + xs.length)

/-- `memmove(&a[dst], &a[src], n)`, counted in cells. -/
def memmove (a : List α) (dst src n : Int) : Option (List α) :=
  if 0 ≤ dst ∧ 0 ≤ src ∧ 0 ≤ n ∧ dst + n ≤ a.length ∧ src + n ≤ a.length then
    some (overlay a dst.toNat ((a.drop src.toNat).take n.toNat))
  else none

/-- Write the cells `xs` from position `i` on. -/
def store (a : List α) (i : Nat) (xs : List α) : Option (List α) :=
  if i + xs.length ≤ a.length then some (overlay a i xs) else none

theorem cell_nat (a : List α) (i : Nat) : cell a i = a[i]? := if_neg (by omega)

theorem cell_of_nonneg {a : List α} {i : Int} (h : 0 ≤ i) : cell a i = a[i.toNat]? :=
  if_neg (by omega)

theorem setCell_eq {a : List α} {i : Nat} (h : i < a.length) (x : α) :
    setCell a i x = some (a.set i x) := by
  simp [setCell, h]

/-- The cells before and behind a cell. -/
theorem exists_append_cons {a : List α} {n : Nat} (h : n < a.length) :
    ∃ before x behind, a = before ++ x :: behind ∧ before.length = n :=
  ⟨a.take n, a[n], a.drop (n + 1), by simp, by simp; omega⟩

theorem length_overlay {a : List α} {i : Nat} {xs : List α} (h : i + xs.length ≤ a.length) :
    (overlay a i xs).length = a.length := by
  simp only [overlay, List.length_append, List.length_take, List.length_drop]
  omega

theorem store_eq {a xs : List α} {i : Nat} (h : i + xs.length ≤ a.length) :
    store a i xs = some (overlay a i xs) := if_pos h

/-- The cells up to the end of the written ones. -/
theorem take_overlay_add {a : List α} {i : Nat} {xs : List α} (h : i ≤ a.length) :
    (overlay a i xs).take (i + xs.length) = a.take i ++ xs := by
  rw [overlay, List.take_left' (by simp; omega)]

/-- What stands behind the written cells stays. -/
theorem drop_overlay {a xs : List α} {i k : Nat} (hi : i ≤ a.length) (h : i + xs.length ≤ k) :
    (overlay a i xs).drop k = a.drop k := by
  have hfront : (a.take i ++ xs).length = i + xs.length := by
    rw [List.length_append, List.length_take, Nat.min_eq_left hi]
  rw [overlay, List.drop_append, hfront, List.drop_eq_nil_of_le (by rw [hfront]; exact h),
    List.nil_append, List.drop_drop, Nat.add_sub_cancel' h]

theorem drop_overlay_zero {a xs : List α} {k : Nat} (h : xs.length ≤ k) :
    (overlay a 0 xs).drop k = a.drop k := drop_overlay (Nat.zero_le _) (by omega)

theorem memmove_eq {a : List α} {dst src n : Nat} (hd : dst + n ≤ a.length)
    (hs : src + n ≤ a.length) :
    memmove a dst src n = some (overlay a dst ((a.drop src).take n)) := by
  rw [memmove, if_pos (by omega)]
  simp

/-- Moving the tail of the first `m` cells one up and writing `x` into the gap is an insertion
that pushes out the cell `m`. -/
theorem set_overlay_succ {a : List α} {i m : Nat} (hi : i ≤ m) (hm : m < a.length) (x : α) :
    (overlay a (i + 1) ((a.drop i).take (m - i))).set i x =
      a.take i ++ x :: (a.drop i).take (m - i) ++ a.drop (m + 1) := by
  have hlen : ((a.drop i).take (m - i)).length = m - i := by
    simp only [List.length_take, List.length_drop]; omega
  have htake : a.take (i + 1) = a.take i ++ [a[i]] := by
    rw [List.take_add_one, List.getElem?_eq_getElem (by omega)]; rfl
  have hpos : (a.take i).length = i := by simp only [List.length_take]; omega
  rw [overlay, hlen, htake, show i + 1 + (m - i) = m + 1 by omega]
  simp only [List.append_assoc, List.cons_append]
  rw [List.set_append_right _ _ (by omega), hpos, Nat.sub_self]
  rfl

end ArgoBbs

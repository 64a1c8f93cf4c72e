import Mathlib.Data.List.Sort

/-! # Selection by exchanges

An array is sorted in part: its first place is compared with all others in order and exchanged with
each that is larger, then its second place, and so on. After `n` rounds the `n` largest entries are
in front. -/

namespace ArgoBbs

variable {α β : Type*} [LinearOrder β] {key : α → β} {x y : α} {l : List α} {n : Nat}

/-- The first place against all others; the others with what has been put there. -/
def exchange (key : α → β) : α → List α → α × List α
  | x, [] => (x, [])
  | x, y :: rest =>
    if key x < key y then
      let r := exchange key y rest
      (r.1, x :: r.2)
    else
      let r := exchange key x rest
      (r.1, y :: r.2)

/-- The first `n` places. -/
def selectTop (key : α → β) : Nat → List α → List α
  | 0, l => l
  | _ + 1, [] => []
  | n + 1, x :: rest =>
    let r := exchange key x rest
    r.1 :: selectTop key n r.2

theorem exchange_perm : ((exchange key x l).1 :: (exchange key x l).2).Perm (x :: l) := by
  induction l generalizing x with
  | nil => exact .refl _
  | cons y l ih =>
    rw [exchange]
    split
    · exact (List.Perm.swap ..).trans (ih.cons x)
    · exact (List.Perm.swap ..).trans ((ih.cons y).trans (.swap ..))

theorem exchange_max : ∀ y ∈ x :: l, key y ≤ key (exchange key x l).1 := by
  induction l generalizing x with
  | nil => exact fun y hy => (List.mem_singleton.mp hy) ▸ le_refl _
  | cons z l ih =>
    rw [exchange]
    split
    case isTrue hlt =>
      have hz := ih (x := z)
      refine List.forall_mem_cons.mpr ⟨hlt.le.trans (hz z List.mem_cons_self), hz⟩
    case isFalse hge =>
      have hx := ih (x := x)
      obtain ⟨hfirst, hrest⟩ := List.forall_mem_cons.mp hx
      exact List.forall_mem_cons.mpr ⟨hfirst,
        List.forall_mem_cons.mpr ⟨(not_lt.mp hge).trans hfirst, hrest⟩⟩

theorem selectTop_perm : (selectTop key n l).Perm l := by
  induction n generalizing l with
  | zero => exact .refl _
  | succ n ih =>
    cases l with
    | nil => exact .refl _
    | cons x l => exact (ih.cons _).trans exchange_perm

/-- Those in front are sorted, and none behind them is larger than one of them. -/
theorem selectTop_sorted (key : α → β) (n : Nat) (l : List α) :
    ((selectTop key n l).take n).Pairwise (fun x y => key y ≤ key x) ∧
      ∀ x ∈ (selectTop key n l).take n, ∀ y ∈ (selectTop key n l).drop n, key y ≤ key x := by
  induction n generalizing l with
  | zero => exact ⟨.nil, fun x hx => absurd hx List.not_mem_nil⟩
  | succ n ih =>
    cases l with
    | nil => exact ⟨.nil, fun x hx => absurd hx List.not_mem_nil⟩
    | cons x l =>
      obtain ⟨hsorted, hbehind⟩ := ih (exchange key x l).2
      have hmax : ∀ y ∈ selectTop key n (exchange key x l).2, key y ≤ key (exchange key x l).1 := by
        intro y hy
        have hmem := List.mem_cons_of_mem (exchange key x l).1 (selectTop_perm.mem_iff.mp hy)
        exact exchange_max y (exchange_perm.mem_iff.mp hmem)
      rw [selectTop, List.take_succ_cons, List.drop_succ_cons]
      refine ⟨hsorted.cons fun y hy => hmax y (List.mem_of_mem_take hy), ?_⟩
      refine List.forall_mem_cons.mpr ⟨fun y hy => hmax y (List.mem_of_mem_drop hy), hbehind⟩

/-- The entries in front of which there is none without the property. -/
theorem takeWhile_eq_filter {p : α → Bool}
    (h : l.Pairwise fun x y => p y = true → p x = true) : l.takeWhile p = l.filter p := by
  induction l with
  | nil => rfl
  | cons x l ih =>
    obtain ⟨hx, hl⟩ := List.pairwise_cons.mp h
    cases hp : p x with
    | true => rw [List.takeWhile_cons_of_pos hp, List.filter_cons_of_pos hp, ih hl]
    | false =>
      rw [List.takeWhile_cons_of_neg (by simp [hp]), List.filter_cons_of_neg (by simp [hp])]
      refine (List.filter_eq_nil_iff.mpr fun y hy hpy => ?_).symm
      rw [hx y hy hpy] at hp
      cases hp

/-- A property that the larger entries have first is had by as many of those in front as can be. -/
theorem countP_take_selectTop (key : α → β) (n : Nat) (l : List α) {p : α → Bool}
    (hp : ∀ x y, key x ≤ key y → p x = true → p y = true) :
    ((selectTop key n l).take n).countP p = min n (l.countP p) := by
  obtain ⟨-, hbehind⟩ := selectTop_sorted key n l
  have hperm : (selectTop key n l).countP p = l.countP p := selectTop_perm.countP_eq p
  have hcount : (selectTop key n l).countP p =
      ((selectTop key n l).take n).countP p + ((selectTop key n l).drop n).countP p := by
    rw [← List.countP_append, List.take_append_drop]
  have hle := List.countP_le_length (p := p) (l := (selectTop key n l).take n)
  have hlength : ((selectTop key n l).take n).length = min n l.length := by
    rw [List.length_take, selectTop_perm.length_eq]
  have htotal := List.countP_le_length (p := p) (l := l)
  by_cases hall : ((selectTop key n l).take n).countP p = ((selectTop key n l).take n).length
  · by_cases hlen : n ≤ l.length
    · omega
    · have hdrop : (selectTop key n l).drop n = [] :=
        List.drop_of_length_le (by rw [selectTop_perm.length_eq]; omega)
      rw [hdrop, List.countP_nil] at hcount
      omega
  · obtain ⟨x, hx, hnot⟩ : ∃ x ∈ (selectTop key n l).take n, ¬p x = true := by
      by_contra hnone
      push Not at hnone
      exact hall (List.countP_eq_length.mpr hnone)
    have hzero : ((selectTop key n l).drop n).countP p = 0 :=
      List.countP_eq_zero.mpr fun y hy hpy => hnot (hp y x (hbehind x hx y hy) hpy)
    omega

end ArgoBbs

import Mathlib.Data.List.TakeWhile
import Mathlib.Data.List.Nodup

/-! # Decisions by a total that shrinks

A list is gone through in order. Each entry is kept or removed, by a rule about the entry and a
total that gets smaller by one with each removal. -/

namespace ArgoBbs.Dwindling

variable {α : Type*} {keeps : Int → α → Bool} {total : Int} {x : α} {l pre post : List α}

/-- The entries kept. -/
def kept (keeps : Int → α → Bool) : Int → List α → List α
  | _, [] => []
  | total, x :: rest =>
    if keeps total x then x :: kept keeps total rest else kept keeps (total - 1) rest

/-- The entries removed. -/
def removed (keeps : Int → α → Bool) : Int → List α → List α
  | _, [] => []
  | total, x :: rest =>
    if keeps total x then removed keeps total rest else x :: removed keeps (total - 1) rest

@[simp] theorem kept_nil : kept keeps total [] = [] := rfl
@[simp] theorem removed_nil : removed keeps total [] = [] := rfl

theorem kept_cons_of_pos (h : keeps total x = true) :
    kept keeps total (x :: l) = x :: kept keeps total l := if_pos h

theorem kept_cons_of_neg (h : keeps total x = false) :
    kept keeps total (x :: l) = kept keeps (total - 1) l := if_neg (Bool.eq_false_iff.mp h)

theorem removed_cons_of_pos (h : keeps total x = true) :
    removed keeps total (x :: l) = removed keeps total l := if_pos h

theorem removed_cons_of_neg (h : keeps total x = false) :
    removed keeps total (x :: l) = x :: removed keeps (total - 1) l :=
  if_neg (Bool.eq_false_iff.mp h)

theorem kept_sublist : (kept keeps total l).Sublist l := by
  induction l generalizing total with
  | nil => exact .slnil
  | cons x l ih =>
    cases h : keeps total x with
    | true => rw [kept_cons_of_pos h]; exact ih.cons_cons x
    | false => rw [kept_cons_of_neg h]; exact ih.cons x

theorem perm (keeps : Int → α → Bool) (total : Int) (l : List α) :
    (kept keeps total l ++ removed keeps total l).Perm l := by
  induction l generalizing total with
  | nil => exact .refl _
  | cons x l ih =>
    cases h : keeps total x with
    | true => rw [kept_cons_of_pos h, removed_cons_of_pos h]; exact (ih _).cons x
    | false =>
      rw [kept_cons_of_neg h, removed_cons_of_neg h]
      exact List.perm_middle.trans ((ih _).cons x)

theorem length_kept_add_length_removed (keeps : Int → α → Bool) (total : Int) (l : List α) :
    (kept keeps total l).length + (removed keeps total l).length = l.length := by
  rw [← List.length_append, (perm keeps total l).length_eq]

theorem kept_append : kept keeps total (pre ++ post) =
    kept keeps total pre ++ kept keeps (total - (removed keeps total pre).length) post := by
  induction pre generalizing total with
  | nil => simp
  | cons x pre ih =>
    rw [List.cons_append]
    cases h : keeps total x with
    | true => rw [kept_cons_of_pos h, kept_cons_of_pos h, removed_cons_of_pos h, ih]; rfl
    | false =>
      rw [kept_cons_of_neg h, kept_cons_of_neg h, removed_cons_of_neg h, ih, List.length_cons,
        Int.natCast_succ, Int.sub_sub, Int.add_comm 1]

/-- Nothing is removed if the rule keeps all entries at the first total. -/
theorem removed_eq_nil_iff : removed keeps total l = [] ↔ ∀ x ∈ l, keeps total x = true := by
  induction l with
  | nil => simp
  | cons x l ih =>
    rw [List.forall_mem_cons, ← ih]
    cases h : keeps total x with
    | true => rw [removed_cons_of_pos h]; exact ⟨fun h => ⟨rfl, h⟩, And.right⟩
    | false => rw [removed_cons_of_neg h]; simp

/-- An entry that the rule keeps at every total is kept. -/
theorem mem_kept_of_forall (hmem : x ∈ l) (h : ∀ total, keeps total x = true) :
    x ∈ kept keeps total l := by
  obtain ⟨pre, post, rfl⟩ := List.append_of_mem hmem
  rw [kept_append, kept_cons_of_pos (h _)]
  exact List.mem_append_right _ List.mem_cons_self

/-- An entry kept is one that the rule keeps at some total. -/
theorem exists_of_mem_kept (hmem : x ∈ kept keeps total l) :
    ∃ t, total - (removed keeps total l).length ≤ t ∧ t ≤ total ∧ keeps t x = true := by
  induction l generalizing total with
  | nil => cases hmem
  | cons y l ih =>
    cases h : keeps total y with
    | true =>
      rw [removed_cons_of_pos h]
      rw [kept_cons_of_pos h] at hmem
      cases hmem with
      | head => exact ⟨total, by omega, Int.le_refl _, h⟩
      | tail _ hmem => exact ih hmem
    | false =>
      rw [removed_cons_of_neg h, List.length_cons]
      rw [kept_cons_of_neg h] at hmem
      obtain ⟨t, hle, hle', ht⟩ := ih hmem
      exact ⟨t, by omega, by omega, ht⟩

section
variable (hnodup : l.Nodup)
include hnodup

theorem mem_removed_iff (hmem : x ∈ l) : x ∈ removed keeps total l ↔ x ∉ kept keeps total l := by
  have hdisjoint := (perm keeps total l).nodup_iff.mpr hnodup
  have hsplit := (perm keeps total l).mem_iff.mpr hmem
  constructor
  · exact fun hremoved hkept => (List.nodup_append.mp hdisjoint).2.2 x hkept x hremoved rfl
  · exact (List.mem_append.mp hsplit).resolve_left

/-- The decision about an entry, by the total when it is looked at. -/
theorem mem_kept_iff (hl : l = pre ++ x :: post) : x ∈ kept keeps total l ↔
    keeps (total - (removed keeps total pre).length) x = true := by
  subst hl
  obtain ⟨-, hnodup, hdisjoint⟩ := List.nodup_append.mp hnodup
  have hpre : x ∉ kept keeps total pre := fun h =>
    hdisjoint x (kept_sublist.subset h) x List.mem_cons_self rfl
  rw [kept_append, List.mem_append, or_iff_right hpre]
  cases h : keeps (total - (removed keeps total pre).length) x with
  | true => simp [kept_cons_of_pos h]
  | false =>
    rw [kept_cons_of_neg h]
    refine ⟨fun hmem => absurd (kept_sublist.subset hmem) (List.nodup_cons.mp hnodup).1, nofun⟩

/-- The entries kept of those in front, counted in the result. -/
theorem countP_mem_kept [BEq α] [LawfulBEq α] (hl : l = pre ++ post) :
    pre.countP (· ∈ kept keeps total l) = (kept keeps total pre).length := by
  subst hl
  have hdisjoint := (List.nodup_append.mp hnodup).2.2
  have hmem : ∀ y ∈ pre, y ∈ kept keeps total (pre ++ post) ↔ y ∈ kept keeps total pre := by
    intro y hy
    rw [kept_append, List.mem_append]
    exact or_iff_left fun h => hdisjoint y hy y (kept_sublist.subset h) rfl
  have hkept : ∀ y ∈ kept keeps total pre, decide (y ∈ kept keeps total (pre ++ post)) = true :=
    fun y hy => decide_eq_true ((hmem y (kept_sublist.subset hy)).mpr hy)
  have hremoved : ∀ y ∈ removed keeps total pre,
      ¬decide (y ∈ kept keeps total (pre ++ post)) = true := by
    intro y hy h
    have hy' : y ∈ pre := (perm keeps total pre).mem_iff.mp (List.mem_append_right _ hy)
    have hpre := (List.nodup_append.mp hnodup).1
    exact (mem_removed_iff hpre hy').mp hy ((hmem y hy').mp (of_decide_eq_true h))
  rw [← (perm keeps total pre).countP_eq, List.countP_append,
    List.countP_eq_length.mpr hkept, List.countP_eq_zero.mpr hremoved, Nat.add_zero]

end

/-- A statement about every place of a list, for the first one and for the others. -/
theorem forall_place_cons {P : List α → α → List α → Prop} :
    (∀ pre y post, x :: l = pre ++ y :: post → P pre y post) ↔
      P [] x l ∧ ∀ pre y post, l = pre ++ y :: post → P (x :: pre) y post := by
  constructor
  · exact fun h => ⟨h [] x l rfl, fun pre y post hl => h (x :: pre) y post (by rw [hl]; rfl)⟩
  · rintro ⟨hhead, htail⟩ pre y post hl
    cases pre with
    | nil =>
      obtain ⟨rfl, rfl⟩ := List.cons.inj hl
      exact hhead
    | cons z pre =>
      obtain ⟨rfl, htl⟩ := List.cons.inj hl
      exact htail pre y post htl

end ArgoBbs.Dwindling

import ArgoBbs.Lib.Characters

/-! # A line editor

A line with a cursor is what is in front of the cursor and what is behind it. The keys move elements
from one part to the other, add one or take some out. -/

namespace ArgoBbs

structure EditLine (α : Type) where
  front : List α
  behind : List α

namespace EditLine
variable {α : Type} (lead : α → Bool) (e : EditLine α)

def text : List α := e.front ++ e.behind

def left : EditLine α := ⟨e.front.dropLast, e.front.getLast?.toList ++ e.behind⟩

def right : EditLine α := ⟨e.front ++ e.behind.take 1, e.behind.drop 1⟩

def beginOfLine : EditLine α := ⟨[], e.text⟩

def endOfLine : EditLine α := ⟨e.text, []⟩

def insert (c : α) : EditLine α := ⟨e.front ++ [c], e.behind⟩

def delete : EditLine α := ⟨e.front, e.behind.drop 1⟩

def kill : EditLine α := ⟨e.front, []⟩

def backspace : EditLine α := ⟨e.front.dropLast, e.behind⟩

/-- The character of the element in front of the cursor is taken out, with its second element if
the cursor is in the middle of it. -/
def backspaceChar : EditLine α :=
  ⟨(chars lead e.front).dropLast.flatten,
    if endsOpen lead e.front then e.behind.drop 1 else e.behind⟩

variable {lead} {e}

@[simp] theorem text_left : e.left.text = e.text := by
  obtain ⟨front, behind⟩ := e
  rcases front.eq_nil_or_concat with rfl | ⟨init, c, rfl⟩
  · rfl
  · simp [left, text]

@[simp] theorem text_right : e.right.text = e.text := by
  rw [text, right, List.append_assoc, List.take_append_drop, text]

@[simp] theorem text_beginOfLine : e.beginOfLine.text = e.text := rfl

@[simp] theorem text_endOfLine : e.endOfLine.text = e.text := List.append_nil _

theorem front_le : e.front.length ≤ e.text.length := by
  simp [text]

theorem take_text : e.text.take e.front.length = e.front := List.take_left

theorem drop_text : e.text.drop e.front.length = e.behind := List.drop_left

theorem length_text : e.text.length = e.front.length + e.behind.length := List.length_append

end EditLine

/-! ## The last character of a text -/

section
variable {α : Type} {lead : α → Bool} {s : List α} {c d : α}

theorem endsOpen_concat : endsOpen lead (s ++ [c]) = (lead c && !endsOpen lead s) := by
  rw [endsOpen, openLead, List.foldl_append]
  simp [endsOpen, openLead]

theorem flatten_chars (s : List α) : (chars lead s).flatten = s := by
  induction s using chars_induction lead with
  | nil => rfl
  | last c _ => rfl
  | double c d s hc ih => rw [chars_of_lead hc, List.flatten_cons, ih]; rfl
  | single c s hc ih => rw [chars_of_single hc, List.flatten_cons, ih]; rfl

/-- Behind whole characters, an element is a character. -/
theorem dropLast_chars_concat (h : endsOpen lead s = false) :
    (chars lead (s ++ [c])).dropLast.flatten = s := by
  rw [chars_append h, chars, List.dropLast_concat, flatten_chars]

/-- Behind an element that starts a character, an element belongs to it. -/
theorem dropLast_chars_concat_of_open (h : endsOpen lead (s ++ [d]) = true) :
    (chars lead (s ++ [d] ++ [c])).dropLast.flatten = s := by
  rw [endsOpen_concat, Bool.and_eq_true, Bool.not_eq_true'] at h
  rw [List.append_assoc, chars_append h.2, List.singleton_append, chars_of_lead h.1, chars,
    List.dropLast_concat, flatten_chars]

end

namespace EditLine
variable {α : Type} {lead : α → Bool} {e : EditLine α} {double : Bool}

theorem backspace_of_nil (h : e.front = []) : e.backspace = e := by
  obtain ⟨front, behind⟩ := e
  obtain rfl : front = [] := h
  rfl

theorem backspaceChar_of_nil (h : e.front = []) : e.backspaceChar lead = e := by
  obtain ⟨front, behind⟩ := e
  obtain rfl : front = [] := h
  rfl

theorem delete_of_nil (h : e.behind = []) : e.delete = e := by
  obtain ⟨front, behind⟩ := e
  obtain rfl : behind = [] := h
  rfl

/-- How many elements of the line Backspace takes out in front of the cursor. -/
def erased (lead : α → Bool) (double : Bool) (front : List α) : Nat :=
  if double && endsOpen lead front.dropLast then 2 else 1

theorem erased_le (hne : e.front ≠ []) : erased lead double e.front ≤ e.front.length := by
  obtain ⟨init, c, hfront⟩ := (List.eq_nil_or_concat e.front).resolve_left hne
  rw [List.concat_eq_append] at hfront
  rw [erased, hfront, List.dropLast_concat, List.length_append]
  split
  case isTrue hopen =>
    cases init with
    | nil => simp [endsOpen, openLead] at hopen
    | cons d init => exact Nat.succ_le_succ (Nat.le_add_left _ _)
  case isFalse => exact Nat.le_add_left _ _

theorem backspaceChar_eq (hne : e.front ≠ [])
    (h : e.behind = [] ∨ endsOpen lead e.front = false) : e.backspaceChar lead =
      ⟨e.front.take (e.front.length - erased lead true e.front), e.behind⟩ := by
  have hbehind : (if endsOpen lead e.front then e.behind.drop 1 else e.behind) = e.behind := by
    rcases h with h | h
    · rw [h]
      split
      · rfl
      · rfl
    · rw [h, if_neg Bool.false_ne_true]
  rw [backspaceChar, hbehind]
  obtain ⟨init, c, hfront⟩ := (List.eq_nil_or_concat e.front).resolve_left hne
  rw [List.concat_eq_append] at hfront
  rw [erased, hfront, List.dropLast_concat, Bool.true_and]
  cases hinit : endsOpen lead init with
  | false =>
    rw [dropLast_chars_concat hinit, if_neg Bool.false_ne_true, List.length_append,
      List.length_singleton, Nat.add_sub_cancel, List.take_left]
  | true =>
    rcases List.eq_nil_or_concat init with rfl | ⟨init', d, rfl⟩
    · cases hinit
    · rw [List.concat_eq_append] at hinit ⊢
      rw [dropLast_chars_concat_of_open hinit, if_pos rfl, List.length_append, List.length_append,
        List.length_singleton, List.length_singleton, Nat.add_assoc, Nat.add_sub_cancel,
        List.append_assoc, List.take_left]

/-- Where the cursor is not in the middle of a character, Backspace takes out one or two elements in
front of it. -/
theorem backspace_eq (hne : e.front ≠ [])
    (h : double = true → e.behind = [] ∨ endsOpen lead e.front = false) :
    (if double then e.backspaceChar lead else e.backspace) =
      ⟨e.front.take (e.front.length - erased lead double e.front), e.behind⟩ := by
  cases double with
  | true => exact backspaceChar_eq hne (h rfl)
  | false =>
    rw [if_neg Bool.false_ne_true, backspace, List.dropLast_eq_take]
    rfl

end EditLine

end ArgoBbs

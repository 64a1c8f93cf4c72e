import Mathlib.Data.List.Basic

/-! # Lines of a stream

A reader collects the lines of a stream in a buffer of a fixed size. It drops one kind of element,
and what does not fit into the buffer. -/

namespace ArgoBbs

/-- The end of a line, the element that the reader drops, and the size of its buffer. -/
structure LineReader (α : Type) where
  sep : α
  skip : α
  limit : Nat

namespace LineReader
variable {α : Type} [DecidableEq α] (R : LineReader α)

/-- The buffer after an element that does not end the line. -/
def add (c : α) (buf : List α) : List α :=
  if c = R.skip then buf else if buf.length < R.limit then buf ++ [c] else buf

/-- The lines that end in the input, and what is then in the buffer. -/
def feed (buf : List α) : List α → List (List α) × List α
  | [] => ([], buf)
  | c :: input =>
    if c = R.sep then
      let (lines, rest) := feed [] input
      (buf :: lines, rest)
    else feed (R.add c buf) input

/-- What the buffer holds of a piece of the stream. -/
def clean (piece : List α) : List α := (piece.filter (· ≠ R.skip)).take R.limit

/-- The lines of a stream. -/
def lines (input : List α) : List (List α) := (input.splitOn R.sep).dropLast.map R.clean

/-- What stands behind the last line of a stream. -/
def rest (input : List α) : List α := ((input.splitOn R.sep).getLast?.map R.clean).getD []

theorem add_clean (piece : List α) (c : α) : R.add c (R.clean piece) = R.clean (piece ++ [c]) := by
  unfold add clean
  rw [List.filter_append]
  split
  case isTrue h => simp [h]
  case isFalse h =>
    have hone : [c].filter (· ≠ R.skip) = [c] := by simp [h]
    rw [hone, List.length_take]
    split
    case isTrue hlt =>
      have hshort : (piece.filter (· ≠ R.skip)).length < R.limit := by omega
      rw [List.take_of_length_le (Nat.le_of_lt hshort),
        List.take_of_length_le (by rw [List.length_append]; exact hshort)]
    case isFalse hge => rw [List.take_append_of_le_length (by omega)]

/-- Feeding the reader with two inputs one after the other. -/
theorem feed_append (buf input more : List α) :
    R.feed buf (input ++ more) =
      ((R.feed buf input).1 ++ (R.feed (R.feed buf input).2 more).1,
        (R.feed (R.feed buf input).2 more).2) := by
  induction input generalizing buf with
  | nil => rfl
  | cons c input ih =>
    rw [List.cons_append, feed, feed]
    split
    · rw [ih]
      rfl
    · exact ih _

theorem lines_append_sep {piece : List α} (h : R.sep ∉ piece) (input : List α) :
    R.lines (piece ++ R.sep :: input) = R.clean piece :: R.lines input := by
  have hne := List.splitOn_ne_nil R.sep input
  rw [lines, List.splitOn_append_cons_self_of_not_mem h, List.dropLast_cons_of_ne_nil hne]
  rfl

theorem rest_append_sep {piece : List α} (h : R.sep ∉ piece) (input : List α) :
    R.rest (piece ++ R.sep :: input) = R.rest input := by
  have hne := List.splitOn_ne_nil R.sep input
  rw [rest, List.splitOn_append_cons_self_of_not_mem h, List.getLast?_cons_of_ne_nil hne]
  rfl

/-- The reader whose buffer holds a piece of a line finds the lines of the piece and the input. -/
theorem feed_clean {piece : List α} (hpiece : R.sep ∉ piece) (input : List α) :
    R.feed (R.clean piece) input = (R.lines (piece ++ input), R.rest (piece ++ input)) := by
  induction input generalizing piece with
  | nil =>
    rw [List.append_nil, lines, rest, List.splitOn_eq_singleton hpiece]
    rfl
  | cons c input ih =>
    rw [feed]
    split
    case isTrue hc =>
      have hempty : R.feed [] input = (R.lines input, R.rest input) := by
        have h := @ih [] List.not_mem_nil
        rwa [List.nil_append, clean, List.filter_nil, List.take_nil] at h
      rw [hempty, hc, lines_append_sep R hpiece, rest_append_sep R hpiece]
    case isFalse hc =>
      have hmore : R.sep ∉ piece ++ [c] := by
        simp [hpiece, Ne.symm hc]
      rw [add_clean, ih hmore, List.append_assoc]
      rfl

/-- The reader that starts with an empty buffer finds the lines of its input. -/
theorem feed_nil (input : List α) : R.feed [] input = (R.lines input, R.rest input) := by
  have h := @feed_clean α _ R [] List.not_mem_nil input
  rwa [List.nil_append, clean, List.filter_nil, List.take_nil] at h

end LineReader

end ArgoBbs

import ArgoBbs.Lib.CString
import Mathlib.Data.List.TakeWhile

/-! # Reading a file with `fgets`

`fgets` reads a line with its newline, or as much of it as the buffer holds. -/

namespace ArgoBbs

/-- What `fgets` reads into a buffer one call after the other, behind what it has read so far. -/
def fgetsLoop (size : Nat) (line : Bytes) : Bytes → List Bytes
  | [] => if line = [] then [] else [line]
  | c :: content =>
    if c = 10 ∨ line.length + 2 = size then (line ++ [c]) :: fgetsLoop size [] content
    else fgetsLoop size (line ++ [c]) content

/-- The strings that `fgets` leaves in a buffer of 256 bytes. -/
def fgetsLines (content : Bytes) : List Bytes :=
  (fgetsLoop 256 [] content).map (·.takeWhile (· ≠ 0))

variable {size : Nat} {line piece content : Bytes}

/-- A newline is at the end only. -/
theorem newline_of_mem_fgetsLoop (hline : 10 ∉ line) (h : piece ∈ fgetsLoop size line content) :
    ∃ s : Bytes, 10 ∉ s ∧ (piece = s ∨ piece = s ++ [10]) := by
  induction content generalizing line with
  | nil =>
    unfold fgetsLoop at h
    split at h
    · cases h
    · exact ⟨line, hline, .inl (List.mem_singleton.mp h)⟩
  | cons c content ih =>
    unfold fgetsLoop at h
    split at h
    · rcases List.mem_cons.mp h with rfl | h
      · by_cases hc : c = 10
        · exact ⟨line, hline, .inr (by rw [hc])⟩
        · exact ⟨line ++ [c], by simp [hline, Ne.symm hc], .inl rfl⟩
      · exact ih (by simp) h
    · rename_i hc
      exact ih (by simp [hline, Ne.symm (not_or.mp hc).1]) h

/-- What is before the end of the string has no newline, and behind it is at most one. -/
theorem newline_of_mem_fgetsLines (h : piece ∈ fgetsLines content) :
    0 ∉ piece ∧ ∃ s : Bytes, 10 ∉ s ∧ (piece = s ∨ piece = s ++ [10]) := by
  obtain ⟨line, hline, rfl⟩ := List.mem_map.mp h
  refine ⟨fun hzero => by simpa using List.mem_takeWhile_imp hzero, ?_⟩
  obtain ⟨s, hs, rfl | rfl⟩ := newline_of_mem_fgetsLoop (by simp) hline
  · exact ⟨_, fun hmem => hs ((List.takeWhile_prefix _).subset hmem), .inl rfl⟩
  · rw [List.takeWhile_append]
    split
    · rename_i hall
      have hself : s.takeWhile (· ≠ 0) = s := (List.takeWhile_prefix _).eq_of_length hall
      exact ⟨s, hs, .inr rfl⟩
    · exact ⟨_, fun hmem => hs ((List.takeWhile_prefix _).subset hmem), .inl rfl⟩

theorem fgetsLoop_append (hs : 10 ∉ piece) (hfits : line.length + piece.length + 2 ≤ size) :
    fgetsLoop size line (piece ++ 10 :: content) =
      (line ++ piece ++ [10]) :: fgetsLoop size [] content := by
  induction piece generalizing line with
  | nil => simp [fgetsLoop]
  | cons c piece ih =>
    simp only [List.mem_cons, not_or] at hs
    simp only [List.length_cons] at hfits
    have hgo : ¬(c = 10 ∨ line.length + 2 = size) := by
      rintro (hc | hfull)
      · exact hs.1 hc.symm
      · omega
    rw [List.cons_append, fgetsLoop, if_neg hgo, ih hs.2 (by simp; omega)]
    simp

/-- The end of a file without a newline. -/
theorem fgetsLoop_end (hs : 10 ∉ piece) (hfits : line.length + piece.length + 2 ≤ size) :
    fgetsLoop size line piece = if line ++ piece = [] then [] else [line ++ piece] := by
  induction piece generalizing line with
  | nil => rw [fgetsLoop, List.append_nil]
  | cons c piece ih =>
    rw [List.length_cons] at hfits
    have hgo : ¬(c = 10 ∨ line.length + 2 = size) := by
      rintro (rfl | hfull)
      · exact hs List.mem_cons_self
      · omega
    have hmore : (line ++ [c]).length + piece.length + 2 ≤ size := by
      rw [List.length_append, List.length_singleton]
      omega
    rw [fgetsLoop, if_neg hgo, ih (fun h => hs (List.mem_cons_of_mem c h)) hmore,
      List.append_assoc]
    rfl

/-- A piece of a line that fills the buffer. -/
theorem fgetsLoop_full (hs : 10 ∉ piece) (hne : piece ≠ [])
    (hfull : line.length + piece.length + 1 = size) :
    fgetsLoop size line (piece ++ content) = (line ++ piece) :: fgetsLoop size [] content := by
  induction piece generalizing line with
  | nil => exact absurd rfl hne
  | cons c piece ih =>
    rw [List.length_cons] at hfull
    rw [List.cons_append, fgetsLoop]
    cases piece with
    | nil => exact if_pos (.inr hfull)
    | cons d piece =>
      rw [List.length_cons] at hfull
      have hgo : ¬(c = 10 ∨ line.length + 2 = size) := by
        rintro (rfl | hfull)
        · exact hs List.mem_cons_self
        · omega
      have hmore : (line ++ [c]).length + (d :: piece).length + 1 = size := by
        rw [List.length_append, List.length_singleton, List.length_cons]
        omega
      rw [if_neg hgo, ih (fun h => hs (List.mem_cons_of_mem c h)) (List.cons_ne_nil d piece) hmore,
        List.append_assoc]
      rfl

/-- What is read is the file. -/
theorem flatten_fgetsLoop (size : Nat) (line content : Bytes) :
    (fgetsLoop size line content).flatten = line ++ content := by
  induction content generalizing line with
  | nil =>
    rw [fgetsLoop]
    split
    case isTrue h => rw [h]; rfl
    case isFalse => rw [List.flatten_singleton, List.append_nil]
  | cons c content ih =>
    rw [fgetsLoop]
    split
    · rw [List.flatten_cons, ih, List.append_assoc]
      rfl
    · rw [ih, List.append_assoc]
      rfl

/-- A newline ends a piece, whatever is behind it. -/
theorem fgetsLoop_newline : fgetsLoop size line (piece ++ 10 :: content) =
    fgetsLoop size line (piece ++ [10]) ++ fgetsLoop size [] content := by
  induction piece generalizing line with
  | nil => simp [fgetsLoop]
  | cons c piece ih =>
    simp only [List.cons_append, fgetsLoop, ih]
    split <;> rfl

/-- The lines of a file, with their newlines. -/
def fileLines : Bytes → List Bytes
  | [] => []
  | c :: content =>
    if c = 10 then [c] :: fileLines content
    else
      match fileLines content with
      | [] => [[c]]
      | line :: rest => (c :: line) :: rest

/-- A line is not empty, and its newline is at the end. -/
theorem fileLines_line (content : Bytes) : ∀ line ∈ fileLines content, line ≠ [] ∧ 10 ∉ line.dropLast := by
  induction content with
  | nil => exact fun line h => absurd h List.not_mem_nil
  | cons c content ih =>
    rw [fileLines]
    split
    · intro line hline
      rcases List.mem_cons.mp hline with rfl | hline
      · exact ⟨List.cons_ne_nil _ _, List.not_mem_nil⟩
      · exact ih line hline
    case isFalse hc =>
      split
      · intro line hline
        obtain rfl := List.mem_singleton.mp hline
        exact ⟨List.cons_ne_nil _ _, List.not_mem_nil⟩
      case h_2 first rest hlines =>
        rw [hlines] at ih
        intro line hline
        rcases List.mem_cons.mp hline with rfl | hline
        · obtain ⟨hne, hfirst⟩ := ih first List.mem_cons_self
          rw [List.dropLast_cons_of_ne_nil hne]
          exact ⟨List.cons_ne_nil _ _, List.not_mem_cons_of_ne_of_not_mem (Ne.symm hc) hfirst⟩
        · exact ih line (List.mem_cons_of_mem _ hline)

theorem eq_nil_of_fileLines (h : fileLines content = []) : content = [] := by
  cases content with
  | nil => rfl
  | cons c content =>
    rw [fileLines] at h
    split at h
    · cases h
    · split at h
      · cases h
      · cases h

theorem fgetsLoop_first {first : Bytes} {rest : List Bytes} (h : fileLines content = first :: rest) :
    fgetsLoop size line content = fgetsLoop size line first ++ rest.flatMap (fgetsLoop size []) := by
  induction content generalizing line first rest with
  | nil => cases h
  | cons c content ih =>
    have hrest : fgetsLoop size [] content = (fileLines content).flatMap (fgetsLoop size []) := by
      cases hlines : fileLines content with
      | nil =>
        rw [eq_nil_of_fileLines hlines]
        rfl
      | cons first rest => exact ih hlines
    rw [fileLines] at h
    by_cases hc : c = 10
    · rw [if_pos hc] at h
      obtain ⟨rfl, rfl⟩ := List.cons.inj h
      rw [fgetsLoop, if_pos (.inl hc), fgetsLoop, if_pos (.inl hc), hrest]
      rfl
    · rw [if_neg hc] at h
      cases hlines : fileLines content with
      | nil =>
        rw [hlines] at h
        obtain ⟨rfl, rfl⟩ := List.cons.inj h
        rw [eq_nil_of_fileLines hlines, List.flatMap_nil, List.append_nil]
      | cons next rest' =>
        rw [hlines] at h
        obtain ⟨rfl, rfl⟩ := List.cons.inj h
        rw [fgetsLoop, fgetsLoop]
        split
        · rw [ih hlines]
          rfl
        · exact ih hlines

/-- The pieces of a file are those of its lines. -/
theorem fgetsLoop_fileLines (size : Nat) (content : Bytes) :
    fgetsLoop size [] content = (fileLines content).flatMap (fgetsLoop size []) := by
  cases hlines : fileLines content with
  | nil =>
    rw [eq_nil_of_fileLines hlines]
    rfl
  | cons first rest => exact fgetsLoop_first hlines

/-- A line that fits the buffer is read as one piece. -/
theorem fgetsLoop_line (hne : piece ≠ []) (hline : 10 ∉ piece.dropLast)
    (hfits : line.length + piece.length < size) : fgetsLoop size line piece = [line ++ piece] := by
  induction piece generalizing line with
  | nil => exact absurd rfl hne
  | cons c piece ih =>
    rw [fgetsLoop]
    cases piece with
    | nil =>
      split
      · rfl
      · rw [fgetsLoop, if_neg (by simp)]
    | cons d piece =>
      rw [List.dropLast_cons_of_ne_nil (List.cons_ne_nil _ _), List.mem_cons, not_or] at hline
      have hgo : ¬(c = 10 ∨ line.length + 2 = size) := by
        rintro (hc | hfull)
        · exact hline.1 hc.symm
        · rw [List.length_cons, List.length_cons] at hfits
          omega
      have hmore : (line ++ [c]).length + (d :: piece).length < size := by
        rw [List.length_append, List.length_singleton]
        rw [List.length_cons] at hfits
        omega
      rw [if_neg hgo, ih (List.cons_ne_nil _ _) hline.2 hmore, List.append_assoc]
      rfl

end ArgoBbs

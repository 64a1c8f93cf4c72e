import ArgoBbs.Lib.CString

/-! # A character terminal

A terminal of some rows and columns shows a byte in every cell. Text goes to the cell at the cursor;
behind the last column the cursor goes to the next row if the terminal has automatic margins, and
stays where it is otherwise. A line feed in the last row scrolls the picture. -/

namespace ArgoBbs

structure Terminal (rows cols : Nat) where
  row : Nat
  col : Nat
  cell : Nat → Nat → UInt8

namespace Terminal
variable {rows cols : Nat} {t : Terminal rows cols}

def blank : UInt8 := 32

def scrollUp (t : Terminal rows cols) : Terminal rows cols :=
  { t with cell := fun i c => if i + 1 < rows then t.cell (i + 1) c else blank }

def lineFeed (t : Terminal rows cols) : Terminal rows cols :=
  if t.row + 1 < rows then { t with row := t.row + 1 } else t.scrollUp

def carriageReturn (t : Terminal rows cols) : Terminal rows cols := { t with col := 0 }

def backspace (t : Terminal rows cols) : Terminal rows cols := { t with col := t.col - 1 }

/-- Absolute addressing, which stops at the last row and column. -/
def goto (t : Terminal rows cols) (col row : Nat) : Terminal rows cols :=
  { t with row := min row (rows - 1), col := min col (cols - 1) }

def clear (_ : Terminal rows cols) : Terminal rows cols := ⟨0, 0, fun _ _ => blank⟩

def clearToEol (t : Terminal rows cols) : Terminal rows cols :=
  { t with cell := fun i c => if i = t.row ∧ t.col ≤ c then blank else t.cell i c }

/-- Lines are inserted at the row of the cursor; the last ones are lost. -/
def insertLines (t : Terminal rows cols) (k : Nat) : Terminal rows cols :=
  { t with
    cell := fun i c =>
      if i < t.row then t.cell i c else if i < t.row + k then blank else t.cell (i - k) c }

/-- A byte of text. -/
def put (automargins : Bool) (t : Terminal rows cols) (b : UInt8) : Terminal rows cols :=
  let t' : Terminal rows cols :=
    { t with cell := fun i c => if i = t.row ∧ c = t.col then b else t.cell i c }
  if t.col + 1 < cols then { t' with col := t.col + 1 }
  else if automargins then t'.carriageReturn.lineFeed
  else t'

def write (automargins : Bool) (t : Terminal rows cols) (text : Bytes) : Terminal rows cols :=
  text.foldl (put automargins) t

/-- Line feeds in the last row. -/
def feed (t : Terminal rows cols) : Nat → Terminal rows cols
  | 0 => t
  | k + 1 => t.lineFeed.feed k

@[simp] theorem goto_cell (col row : Nat) : (t.goto col row).cell = t.cell := rfl

@[simp] theorem carriageReturn_cell : t.carriageReturn.cell = t.cell := rfl

@[simp] theorem backspace_cell : t.backspace.cell = t.cell := rfl

theorem lineFeed_of_lt (h : t.row + 1 < rows) : t.lineFeed = { t with row := t.row + 1 } :=
  if_pos h

/-- Line feeds in the last row shift the picture and leave the cursor in the row. -/
theorem feed_cell (h : rows ≤ t.row + 1) (k i c : Nat) (hi : i < rows) :
    (t.feed k).cell i c = if i + k < rows then t.cell (i + k) c else blank := by
  induction k generalizing t i with
  | zero => rw [feed, Nat.add_zero, if_pos hi]
  | succ k ih =>
    have hlf : t.lineFeed = t.scrollUp := if_neg (Nat.not_lt.mpr h)
    rw [feed, hlf, ih (t := t.scrollUp) h i hi]
    by_cases hk : i + k < rows
    · rw [if_pos hk]
      exact rfl
    · rw [if_neg hk, if_neg (by omega)]

/-- The picture with text written over it from a cell on. -/
def overlay (cell : Nat → Nat → UInt8) (row col : Nat) (text : Bytes) (i c : Nat) : UInt8 :=
  if i = row ∧ col ≤ c then text[c - col]?.getD (cell i c) else cell i c

theorem overlay_nil (cell : Nat → Nat → UInt8) (row col : Nat) : overlay cell row col [] = cell := by
  funext i c
  simp [overlay]

theorem overlay_cons (cell : Nat → Nat → UInt8) (row col : Nat) (b : UInt8) (text : Bytes) :
    overlay cell row col (b :: text) =
      overlay (fun i c => if i = row ∧ c = col then b else cell i c) row (col + 1) text := by
  funext i c
  rw [overlay, overlay]
  by_cases hi : i = row
  · rcases Nat.lt_trichotomy c col with hc | hc | hc
    · rw [if_neg (by omega), if_neg (by omega), if_neg (by omega)]
    · subst hc
      rw [if_pos ⟨hi, Nat.le_refl c⟩, if_neg (by omega), if_pos ⟨hi, rfl⟩, Nat.sub_self]
      exact rfl
    · have hsub : c - col = c - (col + 1) + 1 := by omega
      rw [if_pos ⟨hi, Nat.le_of_lt hc⟩, if_pos ⟨hi, hc⟩, if_neg (by omega), hsub,
        List.getElem?_cons_succ]
  · rw [if_neg (by omega), if_neg (by omega), if_neg (by omega)]

theorem overlay_of_ne {cell : Nat → Nat → UInt8} {row col : Nat} {text : Bytes} {i : Nat}
    (h : i ≠ row) (c : Nat) : overlay cell row col text i c = cell i c :=
  if_neg fun hc => h hc.1

/-- Text that stays left of the last column. -/
theorem write_of_lt (am : Bool) (text : Bytes) (h : t.col + text.length < cols) :
    t.write am text =
      ⟨t.row, t.col + text.length, overlay t.cell t.row t.col text⟩ := by
  induction text generalizing t with
  | nil => rw [overlay_nil]; rfl
  | cons b text ih =>
    rw [List.length_cons] at h
    have hput : t.put am b =
        ⟨t.row, t.col + 1, fun i c => if i = t.row ∧ c = t.col then b else t.cell i c⟩ := by
      rw [put, if_pos (by omega)]
    rw [write, List.foldl_cons, hput, overlay_cons]
    refine (ih (by dsimp only; omega)).trans ?_
    rw [List.length_cons, Nat.add_right_comm, Nat.add_assoc]

/-- Text up to the last column. -/
theorem write_of_eq (am : Bool) (text : Bytes) (h : t.col + text.length = cols)
    (htext : text ≠ []) (hrow : am = true → t.row + 1 < rows) :
    t.write am text =
      if am then ⟨t.row + 1, 0, overlay t.cell t.row t.col text⟩
      else ⟨t.row, cols - 1, overlay t.cell t.row t.col text⟩ := by
  induction text generalizing t with
  | nil => exact absurd rfl htext
  | cons b text ih =>
    rw [List.length_cons] at h
    rw [write, List.foldl_cons, overlay_cons]
    cases text with
    | nil =>
      have hlast : ¬t.col + 1 < cols := by
        rw [List.length_nil] at h
        omega
      rw [List.foldl_nil, overlay_nil, put, if_neg hlast]
      cases am with
      | false =>
        have hcol : t.col = cols - 1 := by
          rw [List.length_nil] at h
          omega
        rw [if_neg Bool.false_ne_true, if_neg Bool.false_ne_true, ← hcol]
      | true =>
        rw [if_pos rfl, if_pos rfl]
        exact lineFeed_of_lt (t := carriageReturn _) (hrow rfl)
    | cons b' text =>
      have hput : t.put am b =
          ⟨t.row, t.col + 1, fun i c => if i = t.row ∧ c = t.col then b else t.cell i c⟩ := by
        rw [put, if_pos (by rw [List.length_cons] at h; omega)]
      rw [hput]
      exact ih (by dsimp only; omega) (List.cons_ne_nil _ _) hrow

end Terminal

end ArgoBbs

import ArgoBbs.Lib.Breaks
import ArgoBbs.Lib.DoubleByte

/-! # Texts of several lines

`show_multiline` shows a text in lines of at most `maxcol` columns while it is typed, and
`make_multiline` stores it in such lines. Both break the text by themselves (`io.c`). -/

namespace ArgoBbs

/-- A byte does not fit on the line, or not with the second byte of its character. -/
def wraps (maxcol curcol : Nat) (dbchar : Bool) : Bool :=
  maxcol ≤ curcol || maxcol ≤ curcol + 1 && dbchar

/-! ## Showing -/

/-- The variables of the loop, what has been put out on the line, and on the lines before. With them
go the places where lines have been broken, the last one first: where the line ends, and where the
next one starts. -/
structure ShowRows where
  i : Nat
  curcol : Nat
  dbchar : Bool
  inEsc : Bool
  row : Bytes
  rows : List Bytes
  breaks : List (Nat × Nat)
  deriving DecidableEq

namespace ShowRows
variable (maxcol : Nat) (background : Option Bytes) (showansi : Bool) (s : ShowRows)

def start (col : Nat) : ShowRows := ⟨0, col, false, false, background.getD [], [], []⟩

/-- The output goes on in the next line. -/
def newline (next : Nat) : ShowRows :=
  { s with
    curcol := 0
    row := background.getD []
    rows := s.rows ++ [s.row]
    breaks := (s.i, next) :: s.breaks }

def put (c : UInt8) : ShowRows :=
  { s with
    i := s.i + 1
    row := s.row ++ [if c = 27 ∧ showansi = false then 42 else c]
    curcol := if s.inEsc && showansi then s.curcol else s.curcol + 1
    inEsc := s.inEsc && c ≠ 109 }

def step (c : UInt8) : ShowRows :=
  let s := { s with dbchar := !s.dbchar && isHigh c, inEsc := s.inEsc || c = 27 }
  if c = 13 then { s with i := s.i + 1 }
  else if !s.inEsc && c = 10 then
    let s := { s with row := s.row ++ List.replicate (maxcol - s.curcol) 32 }
    { s.newline background (s.i + 1) with i := s.i + 1 }
  else if !s.inEsc && wraps maxcol s.curcol s.dbchar then
    let s := { s with row := if s.curcol < maxcol then s.row ++ [32] else s.row }
    (s.newline background s.i).put showansi c
  else s.put showansi c

end ShowRows

/-- `show_multiline` of a text from the column on; it returns the number of lines, and `curcol`
through `offset`. -/
def showMultiline (col maxcol : Nat) (background : Option Bytes) (showansi : Bool) (text : Bytes) :
    ShowRows :=
  text.foldl (ShowRows.step maxcol background showansi) (ShowRows.start background col)

def ShowRows.count (s : ShowRows) : Nat := s.rows.length + 1

/-! ## Storing -/

def bufLen : Nat := 1024

/-- The variables of the loop, with the text in `dest` and in `tmp`, whose length is `writep`. -/
structure MakeRows where
  i : Nat
  dest : Bytes
  tmp : Bytes
  curcol : Nat
  dbchar : Bool
  inEsc : Bool
  breaks : List (Nat × Nat)
  deriving DecidableEq

/-- `tmp[writep] = c; tmp[++writep] = '\0'` -/
def putTmp (tmp : Bytes) (writep : Nat) (c : UInt8) : Option Bytes :=
  if writep + 1 < bufLen then some (tmp ++ [c]) else none

def padTmp : Nat → Bytes → Nat → Option Bytes
  | 0, tmp, _ => some tmp
  | n + 1, tmp, writep => do
    let tmp ← putTmp tmp writep 32
    padTmp n tmp (writep + 1)

/-- `if (background) strncat(dest, background, size)`, into the buffer of the size -/
def appendBackground (size : Nat) (background : Option Bytes) (dest : Bytes) : Option Bytes :=
  match background with
  | none => some dest
  | some b => if dest.length + min b.length size < size then some (dest ++ b.take size) else none

namespace MakeRows
variable (size maxcol : Nat) (background : Option Bytes) (s : MakeRows)

def start : Option MakeRows :=
  if 0 < size then some ⟨0, [], [], 0, false, false, []⟩ else none

/-- The line is stored. -/
def flush (next : Nat) : Option MakeRows := do
  let tmp ← padTmp (maxcol - s.curcol) s.tmp s.tmp.length
  let dest ← appendBackground size background s.dest
  some { s with
    dest := strlcat size (strlcat size dest tmp) [10]
    tmp := [], curcol := 0
    breaks := (s.i, next) :: s.breaks }

def put (c : UInt8) : Option MakeRows := do
  let tmp ← putTmp s.tmp s.tmp.length c
  some { s with
    i := s.i + 1, tmp
    curcol := if s.inEsc then s.curcol else s.curcol + 1
    inEsc := s.inEsc && c ≠ 109 }

def step (c : UInt8) : Option MakeRows :=
  let s := { s with dbchar := !s.dbchar && isHigh c, inEsc := s.inEsc || c = 27 }
  if c = 13 then some { s with i := s.i + 1 }
  else if c = 10 then do
    let s ← s.flush size maxcol background (s.i + 1)
    some { s with i := s.i + 1 }
  else if !s.inEsc && wraps maxcol s.curcol s.dbchar then do
    let s ← s.flush size maxcol background s.i
    s.put c
  else s.put c

/-- The last line, and the end of the colour. -/
def finish : Option MakeRows := do
  let dest ←
    if s.tmp = [] then some s.dest
    else do
      let tmp := strlcat bufLen s.tmp (background.getD [])
      let writep := s.tmp.length + (background.getD []).length
      let tmp ← padTmp (maxcol - s.curcol) tmp writep
      let dest ← appendBackground size background s.dest
      some (strlcat size (strlcat size dest tmp) [10])
  some { s with dest := strlcat size dest [27, 91, 109] }

end MakeRows

/-- `make_multiline` into a buffer of the size; it fails where it writes behind that or behind
`tmp`. -/
def makeMultiline (size maxcol : Nat) (background : Option Bytes) (text : Bytes) : Option MakeRows := do
  let s ← MakeRows.start size
  let s ← text.foldlM (MakeRows.step size maxcol background) s
  s.finish size maxcol background

/-! ## What the lines should be -/

/-- Whether a sequence is open behind a text, with a byte read. -/
def inSequence (esc : Bool) (c : UInt8) : Bool := (esc || c = 27) && c ≠ 109

def openSequence (text : Bytes) : Bool := text.foldl inSequence false

/-- The byte takes a column of its line. -/
def isVisible (text : Bytes) (i : Nat) : Bool :=
  text[i]?.any fun c => c ≠ 10 ∧ c ≠ 13 ∧ c ≠ 27 ∧ openSequence (text.take i) = false

/-- The columns of a part of the text. -/
def width (text : Bytes) (first upto : Nat) : Nat :=
  (List.range' first (upto - first)).countP (isVisible text)

/-- No line in front of the last break is wider than the maximum. -/
def EarlierFit (text : Bytes) (maxcol : Nat) : List (Nat × Nat) → Prop
  | [] => True
  | (stop, _) :: breaks =>
    width text (nextStart breaks) stop ≤ maxcol ∧ EarlierFit text maxcol breaks

/-- No line up to a place is wider than the maximum. -/
def LinesFit (text : Bytes) (maxcol : Nat) (breaks : List (Nat × Nat)) (upto : Nat) : Prop :=
  width text (nextStart breaks) upto ≤ maxcol ∧ EarlierFit text maxcol breaks

/-- Each line ends with a line feed or between two characters. -/
def WholeChars (text : Bytes) (breaks : List (Nat × Nat)) : Prop :=
  ∀ b ∈ breaks, b.2 = b.1 + 1 ∧ text[b.1]? = some 10 ∨
    b.2 = b.1 ∧ endsOpen isHigh (text.take b.1) = false

/-- A sequence that sets the colour. -/
def IsColour (b : Bytes) : Prop :=
  ∃ params : Bytes, b = 27 :: 91 :: params ++ [109] ∧ ∀ c ∈ params, isdigit c = true ∨ c = 59

/-- The text is stored, in the lines in which it is shown; they are not too wide, and no character is
split. -/
def SameLines (size col maxcol : Nat) (background : Option Bytes) (showansi : Bool) (text : Bytes) :
    Prop :=
  let s := showMultiline col maxcol background showansi text
  ∃ m, makeMultiline size maxcol background text = some m ∧
    m.breaks = s.breaks ∧ m.dest.count 10 = s.count ∧
    LinesFit text maxcol s.breaks text.length ∧ WholeChars text s.breaks

/-! ## Lines without buffers

The lines as `make_multiline` makes them where there is always room. -/

/-- The state of the line, its text so far and its columns, and those of the lines before. -/
structure Layout where
  i : Nat
  col : Nat
  dbchar : Bool
  inEsc : Bool
  row : Bytes
  rows : List (Bytes × Nat)
  breaks : List (Nat × Nat)

namespace Layout
variable (maxcol : Nat) (l : Layout)

def start : Layout := ⟨0, 0, false, false, [], [], []⟩

def newline (next : Nat) : Layout :=
  { l with col := 0, row := [], rows := l.rows ++ [(l.row, l.col)], breaks := (l.i, next) :: l.breaks }

def put (c : UInt8) : Layout :=
  { l with
    i := l.i + 1
    row := l.row ++ [c]
    col := if l.inEsc then l.col else l.col + 1
    inEsc := l.inEsc && c ≠ 109 }

/-- The state with the byte read. -/
def read (c : UInt8) : Layout :=
  { l with dbchar := !l.dbchar && isHigh c, inEsc := l.inEsc || c = 27 }

def step (c : UInt8) : Layout :=
  let l := l.read c
  if c = 13 then { l with i := l.i + 1 }
  else if c = 10 then { l.newline (l.i + 1) with i := l.i + 1 }
  else if !l.inEsc && wraps maxcol l.col l.dbchar then (l.newline l.i).put c
  else l.put c

/-- What is stored for a line. -/
def line (background : Bytes) (r : Bytes × Nat) : Bytes :=
  background ++ r.1 ++ List.replicate (maxcol - r.2) 32 ++ [10]

/-- What is stored for the lines before the last one. -/
def stored (background : Bytes) : Bytes := l.rows.flatMap (line maxcol background)

/-- What is stored for the last line, which has the colour behind it too. -/
def lastLine (background : Bytes) : Bytes :=
  line maxcol background (strlcat bufLen l.row background, l.col)

end Layout

def layout (maxcol : Nat) (text : Bytes) : Layout := text.foldl (Layout.step maxcol) Layout.start

/-- The buffers are large enough: `tmp` for each line, the last one with the colour behind it, and
`dest` for all of them, the last one being not empty. -/
structure Stores (size maxcol : Nat) (background : Bytes) (l : Layout) : Prop where
  ne : l.row ≠ []
  rows : ∀ r ∈ l.rows, r.1.length + (maxcol - r.2) < bufLen
  row : l.row.length < bufLen
  last : l.col < maxcol → l.row.length + background.length + (maxcol - l.col) < bufLen
  size : (l.stored maxcol background ++ l.lastLine maxcol background).length < size

/-- A line feed is not in a sequence, and a byte that does not fit on the line because of its columns
on the screen, which those of a prompt and of sequences as they are shown are among, does not fit in
without those either. -/
def ColumnsFit (maxcol : Nat) (s : ShowRows) (l : Layout) (c : UInt8) : Prop :=
  if c = 13 then True
  else if c = 10 then l.inEsc = false
  else l.inEsc = false → c ≠ 27 → wraps maxcol s.curcol (!l.dbchar && isHigh c) = true →
    wraps maxcol l.col (!l.dbchar && isHigh c) = true

section
variable {text : Bytes} {q a maxcol : Nat} {c : UInt8}

theorem foldl_take_succ {β : Type} {f : β → UInt8 → β} {b : β} (hc : text[q]? = some c) :
    (text.take (q + 1)).foldl f b = f ((text.take q).foldl f b) c := by
  rw [List.take_add_one, hc, List.foldl_append]
  rfl

theorem width_self : width text a a = 0 := by
  rw [width, Nat.sub_self]
  rfl

theorem width_succ (h : a ≤ q) :
    width text a (q + 1) = width text a q + if isVisible text q then 1 else 0 := by
  rw [width, Nat.succ_sub h, List.range'_1_concat, List.countP_append, Nat.add_sub_cancel' h,
    List.countP_singleton]
  rfl

theorem isVisible_eq (hc : text[q]? = some c) : isVisible text q =
    (decide (c ≠ 10) && decide (c ≠ 13) && !(openSequence (text.take q) || decide (c = 27))) := by
  rw [isVisible, hc, Option.any_some]
  cases openSequence (text.take q) with
  | true => simp
  | false => simp [Bool.and_assoc]

/-- What holds of the lines in front of a place. -/
structure Layout.Inv (text : Bytes) (maxcol q : Nat) (l : Layout) : Prop where
  i : l.i = q
  dbchar : l.dbchar = endsOpen isHigh (text.take q)
  inEsc : l.inEsc = openSequence (text.take q)
  start : nextStart l.breaks ≤ q
  col : l.col = width text (nextStart l.breaks) q
  fits : LinesFit text maxcol l.breaks q
  room : l.dbchar = true → l.inEsc = true ∨ l.col < maxcol
  whole : WholeChars text l.breaks
  rows : l.rows.length = l.breaks.length
  row : 10 ∉ l.row ∧ ∀ r ∈ l.rows, 10 ∉ r.1

namespace Layout
variable {l : Layout} {next : Nat}

theorem Inv.zero : Inv text maxcol 0 Layout.start where
  i := rfl
  dbchar := rfl
  inEsc := rfl
  start := Nat.le_refl 0
  col := width_self.symm
  fits := ⟨Nat.le_trans (Nat.le_of_eq width_self) (Nat.zero_le _), trivial⟩
  room h := Bool.noConfusion h
  whole := List.forall_mem_nil _
  rows := rfl
  row := ⟨List.not_mem_nil, List.forall_mem_nil _⟩

theorem Inv.le (I : Inv text maxcol q l) : l.col ≤ maxcol := I.col ▸ I.fits.1

theorem read_dbchar (I : Inv text maxcol q l) (hc : text[q]? = some c) :
    (l.read c).dbchar = endsOpen isHigh (text.take (q + 1)) := by
  rw [endsOpen_take_succ hc, Bool.and_comm, ← I.dbchar]
  rfl

theorem read_inEsc (I : Inv text maxcol q l) (hc : text[q]? = some c) :
    ((l.read c).inEsc && decide (c ≠ 109)) = openSequence (text.take (q + 1)) := by
  rw [openSequence, foldl_take_succ hc, ← openSequence, ← I.inEsc]
  rfl

/-- The end of a line. -/
theorem Inv.newline (I : Inv text maxcol q l)
    (hbreak : next = q + 1 ∧ text[q]? = some 10 ∨
      next = q ∧ endsOpen isHigh (text.take q) = false) :
    LinesFit text maxcol (l.newline next).breaks next ∧ WholeChars text (l.newline next).breaks ∧
      (l.newline next).rows.length = (l.newline next).breaks.length ∧
      10 ∉ (l.newline next).row ∧ ∀ r ∈ (l.newline next).rows, 10 ∉ r.1 := by
  rw [← I.i] at hbreak
  refine ⟨⟨Nat.le_trans (Nat.le_of_eq width_self) (Nat.zero_le _), ?_⟩,
    List.forall_mem_cons.mpr ⟨hbreak, I.whole⟩, ?_, List.not_mem_nil, ?_⟩
  · have hfits := I.fits
    rwa [← I.i] at hfits
  · change (l.rows ++ [(l.row, l.col)]).length = l.breaks.length + 1
    rw [List.length_append, I.rows]
    rfl
  · intro r hr
    rcases List.mem_append.mp hr with hr | hr
    · exact I.row.2 r hr
    · obtain rfl := List.mem_singleton.mp hr
      exact I.row.1

/-- A byte that is put on a line. -/
theorem Inv.put {l₀ : Layout} (I : Inv text maxcol q l₀) (hc : text[q]? = some c) (h10 : c ≠ 10)
    (h13 : c ≠ 13) (hi : l.i = q) (hdb : l.dbchar = (l₀.read c).dbchar)
    (hesc : l.inEsc = (l₀.read c).inEsc) (hstart : nextStart l.breaks ≤ q)
    (hcol : l.col = width text (nextStart l.breaks) q) (hearlier : EarlierFit text maxcol l.breaks)
    (hroom : l.inEsc = false → l.col < maxcol ∧ (l.dbchar = true → l.col + 1 < maxcol))
    (hle : l.col ≤ maxcol) (hwhole : WholeChars text l.breaks)
    (hrows : l.rows.length = l.breaks.length) (hrow : 10 ∉ l.row ∧ ∀ r ∈ l.rows, 10 ∉ r.1) :
    Inv text maxcol (q + 1) (l.put c) := by
  have hvisible : isVisible text q = !l.inEsc := by
    rw [isVisible_eq hc, decide_eq_true h10, decide_eq_true h13, hesc, ← I.inEsc]
    rfl
  have hcol' : (l.put c).col = width text (nextStart l.breaks) (q + 1) := by
    rw [width_succ hstart, hvisible, ← hcol, Layout.put]
    cases l.inEsc with
    | true => rfl
    | false => rfl
  refine ⟨congrArg (· + 1) hi, hdb.trans (read_dbchar I hc), ?_, Nat.le_succ_of_le hstart, hcol', ⟨?_,
    hearlier⟩, ?_, hwhole, hrows, ?_, hrow.2⟩
  · change (l.inEsc && decide (c ≠ 109)) = _
    rw [hesc, read_inEsc I hc]
  · change width text (nextStart l.breaks) (q + 1) ≤ maxcol
    rw [← hcol', Layout.put]
    cases hopen : l.inEsc with
    | true => exact hle
    | false => exact (hroom hopen).1
  · intro hopen
    change l.dbchar = true at hopen
    rw [Layout.put]
    cases hin : l.inEsc with
    | true =>
      refine .inl ?_
      have hhigh : isHigh c = true := by
        rw [hdb, Layout.read, Bool.and_eq_true] at hopen
        exact hopen.2
      rw [Bool.true_and, decide_eq_true_eq]
      rintro rfl
      cases hhigh
    | false => exact .inr ((hroom hin).2 hopen)
  · intro hmem
    rcases List.mem_append.mp hmem with hmem | hmem
    · exact hrow.1 hmem
    · exact h10 (List.mem_singleton.mp hmem).symm

/-- A carriage return has no place on a line. -/
theorem Inv.carriageReturn (I : Inv text maxcol q l) (hc : text[q]? = some 13) :
    Inv text maxcol (q + 1) { l.read 13 with i := (l.read 13).i + 1 } := by
  have hinvisible : isVisible text q = false := by
    rw [isVisible_eq hc]
    simp
  have hwidth : width text (nextStart l.breaks) (q + 1) = width text (nextStart l.breaks) q := by
    rw [width_succ I.start, hinvisible]
    rfl
  refine ⟨congrArg (· + 1) I.i, read_dbchar I hc, ?_, Nat.le_succ_of_le I.start,
    I.col.trans hwidth.symm, ⟨Nat.le_trans (Nat.le_of_eq hwidth) I.fits.1, I.fits.2⟩, ?_, I.whole, I.rows,
    I.row⟩
  · rw [← read_inEsc I hc]
    exact (Bool.and_true _).symm
  · intro hopen
    rw [Layout.read, Bool.and_eq_true] at hopen
    cases hopen.2

theorem Inv.lineFeed (I : Inv text maxcol q l) (hc : text[q]? = some 10) :
    Inv text maxcol (q + 1)
      { (l.read 10).newline ((l.read 10).i + 1) with i := (l.read 10).i + 1 } := by
  obtain ⟨hfits, hwhole, hrows, hrow⟩ := I.newline (.inl ⟨rfl, hc⟩)
  have hnext : (l.read 10).i + 1 = q + 1 := congrArg (· + 1) I.i
  rw [hnext]
  refine ⟨rfl, read_dbchar I hc, ?_, Nat.le_refl _, width_self.symm, hfits, ?_, hwhole, hrows, hrow⟩
  · rw [← read_inEsc I hc]
    exact (Bool.and_true _).symm
  · intro hopen
    change (l.read 10).dbchar = true at hopen
    rw [Layout.read, Bool.and_eq_true] at hopen
    cases hopen.2

/-- The first byte of a character goes on the next line if the second one has no room. -/
theorem Inv.closed_of_wraps (I : Inv text maxcol q l) (hesc : l.inEsc = false)
    (hwraps : wraps maxcol l.col (l.read c).dbchar = true) : endsOpen isHigh (text.take q) = false := by
  rw [← I.dbchar, Bool.eq_false_iff]
  intro hopen
  have hlt := (I.room hopen).resolve_left (by rw [hesc]; exact Bool.false_ne_true)
  rw [wraps, Layout.read, hopen, Bool.not_true, Bool.false_and, Bool.and_false, Bool.or_false,
    decide_eq_true_eq] at hwraps
  exact absurd hlt (Nat.not_lt.mpr hwraps)

theorem Inv.step (I : Inv text maxcol q l) (hmax : 2 ≤ maxcol) (hc : text[q]? = some c) :
    Inv text maxcol (q + 1) (l.step maxcol c) := by
  rw [Layout.step]
  by_cases h13 : c = 13
  · subst h13
    rw [if_pos rfl]
    exact I.carriageReturn hc
  · rw [if_neg h13]
    by_cases h10 : c = 10
    · subst h10
      rw [if_pos rfl]
      exact I.lineFeed hc
    · rw [if_neg h10]
      by_cases hwrap : (!(l.read c).inEsc && wraps maxcol (l.read c).col (l.read c).dbchar) = true
      · rw [if_pos hwrap]
        rw [Bool.and_eq_true, Bool.not_eq_true'] at hwrap
        have hclosed := I.closed_of_wraps (Bool.or_eq_false_iff.mp hwrap.1).1 hwrap.2
        obtain ⟨hfits, hwhole, hrows, hrow⟩ := I.newline (.inr ⟨rfl, hclosed⟩)
        have hi : (l.read c).i = q := I.i
        rw [hi]
        exact I.put hc h10 h13 hi rfl rfl (Nat.le_refl q) width_self.symm hfits.2
          (fun _ => ⟨by change 0 < maxcol; omega, fun _ => by change 0 + 1 < maxcol; omega⟩)
          (Nat.zero_le _) hwhole hrows hrow
      · rw [if_neg hwrap]
        refine I.put hc h10 h13 I.i rfl rfl I.start I.col I.fits.2 ?_ I.le I.whole I.rows I.row
        intro hin
        rw [hin, Bool.not_false, Bool.true_and, wraps, Bool.or_eq_true, decide_eq_true_eq,
          Bool.and_eq_true, decide_eq_true_eq, not_or, not_and] at hwrap
        exact ⟨Nat.lt_of_not_le hwrap.1, fun hopen => Nat.lt_of_not_le fun h => hwrap.2 h hopen⟩

theorem Inv.layout (hmax : 2 ≤ maxcol) (hq : q ≤ text.length) :
    Inv text maxcol q (layout maxcol (text.take q)) := by
  induction q with
  | zero => exact Inv.zero
  | succ q ih =>
    have hc : text[q]? = some text[q] := List.getElem?_eq_getElem hq
    rw [ArgoBbs.layout, foldl_take_succ hc]
    exact (ih (Nat.le_of_succ_le hq)).step hmax hc

end Layout

end

/-! ## Showing and storing -/

section
variable {text : Bytes} {q col maxcol : Nat} {c : UInt8} {background : Option Bytes} {showansi : Bool}
  {s : ShowRows} {l : Layout}

/-- The lines shown are those made, though the columns may be ahead. -/
structure Follows (s : ShowRows) (l : Layout) : Prop where
  i : s.i = l.i
  dbchar : s.dbchar = l.dbchar
  inEsc : s.inEsc = l.inEsc
  col : l.col ≤ s.curcol
  breaks : s.breaks = l.breaks
  rows : s.rows.length = l.rows.length

theorem wraps_mono {a b : Nat} {dbchar : Bool} (hle : a ≤ b) (h : wraps maxcol a dbchar = true) :
    wraps maxcol b dbchar = true := by
  simp only [wraps, Bool.or_eq_true, Bool.and_eq_true, decide_eq_true_eq] at h ⊢
  rcases h with h | ⟨h, hdb⟩
  · exact .inl (Nat.le_trans h hle)
  · exact .inr ⟨Nat.le_trans h (Nat.succ_le_succ hle), hdb⟩

namespace Follows

theorem put (F : Follows s l) : Follows (s.put showansi c) (l.put c) where
  i := congrArg (· + 1) F.i
  dbchar := F.dbchar
  inEsc := congrArg (· && decide (c ≠ 109)) F.inEsc
  col := by
    have hcol := F.col
    have hesc := F.inEsc
    rw [ShowRows.put, Layout.put, hesc]
    dsimp only
    cases l.inEsc with
    | true =>
      rw [if_pos rfl, Bool.true_and]
      split
      · exact hcol
      · exact Nat.le_succ_of_le hcol
    | false => exact Nat.succ_le_succ hcol
  breaks := F.breaks
  rows := F.rows

theorem newline (F : Follows s l) (row : Bytes) (next : Nat) :
    Follows (ShowRows.newline background { s with row } next) (l.newline next) where
  i := F.i
  dbchar := F.dbchar
  inEsc := F.inEsc
  col := Nat.le_refl 0
  breaks := by rw [ShowRows.newline, Layout.newline, F.breaks, F.i]
  rows := by
    rw [ShowRows.newline, Layout.newline, List.length_append, List.length_append, F.rows]
    rfl

theorem read (F : Follows s l) : Follows
    { s with dbchar := !s.dbchar && isHigh c, inEsc := s.inEsc || c = 27 } (l.read c) where
  i := F.i
  dbchar := congrArg (fun b => !b && isHigh c) F.dbchar
  inEsc := congrArg (· || decide (c = 27)) F.inEsc
  col := F.col
  breaks := F.breaks
  rows := F.rows

theorem step (F : Follows s l) (hfit : ColumnsFit maxcol s l c) :
    Follows (s.step maxcol background showansi c) (l.step maxcol c) := by
  have hread : Follows _ (l.read c) := F.read
  rw [ShowRows.step, Layout.step]
  rw [ColumnsFit] at hfit
  dsimp only
  by_cases h13 : c = 13
  · rw [if_pos h13, if_pos h13]
    exact ⟨congrArg (· + 1) F.i, hread.dbchar, hread.inEsc, F.col, F.breaks, F.rows⟩
  · rw [if_neg h13] at hfit
    rw [if_neg h13, if_neg h13]
    by_cases h10 : c = 10
    · subst h10
      rw [if_pos rfl] at hfit
      have hesc : s.inEsc = false := F.inEsc.trans hfit
      have hnew : Follows (ShowRows.newline background _ (s.i + 1)) ((l.read 10).newline (s.i + 1)) :=
        hread.newline (s.row ++ List.replicate (maxcol - s.curcol) 32) (s.i + 1)
      rw [if_pos rfl, if_pos (by rw [hesc]; rfl), show (l.read 10).i = s.i from F.i.symm]
      exact ⟨rfl, hnew.dbchar, hnew.inEsc, hnew.col, hnew.breaks, hnew.rows⟩
    · rw [if_neg h10] at hfit
      have hnot : ¬(!(s.inEsc || decide (c = 27)) && decide (c = 10)) = true := by
        rw [decide_eq_false h10, Bool.and_false]
        exact Bool.false_ne_true
      rw [if_neg h10, if_neg hnot]
      have hsame : (!(s.inEsc || decide (c = 27)) && wraps maxcol s.curcol (!s.dbchar && isHigh c)) =
          (!(l.read c).inEsc && wraps maxcol (l.read c).col (l.read c).dbchar) := by
        rw [show (s.inEsc || decide (c = 27)) = (l.read c).inEsc from hread.inEsc,
          show (!s.dbchar && isHigh c) = (l.read c).dbchar from hread.dbchar]
        cases hesc : (l.read c).inEsc with
        | true => rfl
        | false =>
          obtain ⟨hesc, h27⟩ := Bool.or_eq_false_iff.mp hesc
          exact Bool.eq_iff_iff.mpr
            ⟨hfit hesc (of_decide_eq_false h27), wraps_mono F.col⟩
      rw [hsame]
      split
      · rw [show (l.read c).i = s.i from F.i.symm]
        exact (hread.newline _ _).put
      · exact hread.put

end Follows

theorem ShowRows.step_breaks (s : ShowRows) (c : UInt8) :
    (s.step maxcol background showansi c).i = s.i + 1 ∧
      ((s.step maxcol background showansi c).breaks = s.breaks ∨
        ∃ next, (s.step maxcol background showansi c).breaks = (s.i, next) :: s.breaks) := by
  rw [ShowRows.step]
  dsimp only
  split
  · exact ⟨rfl, .inl rfl⟩
  · split
    · exact ⟨rfl, .inr ⟨_, rfl⟩⟩
    · split
      · exact ⟨rfl, .inr ⟨_, rfl⟩⟩
      · exact ⟨rfl, .inl rfl⟩

theorem Layout.step_breaks (l : Layout) (c : UInt8) :
    (l.step maxcol c).i = l.i + 1 ∧
      ((l.step maxcol c).breaks = l.breaks ∨
        ∃ next, (l.step maxcol c).breaks = (l.i, next) :: l.breaks) := by
  rw [Layout.step]
  dsimp only
  split
  · exact ⟨rfl, .inl rfl⟩
  · split
    · exact ⟨rfl, .inr ⟨_, rfl⟩⟩
    · split
      · exact ⟨rfl, .inr ⟨_, rfl⟩⟩
      · exact ⟨rfl, .inl rfl⟩

/-- The breaks at a place are those of all that are in front of it. -/
theorem filter_foldl {β : Type} {f : β → UInt8 → β} (b₀ : β) {i : β → Nat}
    {breaks : β → List (Nat × Nat)} (hi : i b₀ = 0) (hnil : breaks b₀ = [])
    (hstep : ∀ b c, i (f b c) = i b + 1 ∧
      (breaks (f b c) = breaks b ∨ ∃ next, breaks (f b c) = (i b, next) :: breaks b))
    (hq : q ≤ text.length) :
    (breaks (text.foldl f b₀)).filter (fun x => decide (x.1 < q)) =
      breaks ((text.take q).foldl f b₀) := by
  have hidx : ∀ q, q ≤ text.length → i ((text.take q).foldl f b₀) = q := by
    intro q hq
    induction q with
    | zero => exact hi
    | succ q ih =>
      rw [foldl_take_succ (List.getElem?_eq_getElem hq), (hstep _ _).1, ih (Nat.le_of_succ_le hq)]
  have h := filter_breaks (b := fun q => breaks ((text.take q).foldl f b₀)) hnil (fun q => ?_) hq
  · rwa [List.take_length] at h
  · cases hc : text[q]? with
    | none =>
      have hlen := List.getElem?_eq_none_iff.mp hc
      rw [List.take_of_length_le hlen, List.take_of_length_le (Nat.le_succ_of_le hlen)]
      exact .inl rfl
    | some c =>
      rw [foldl_take_succ hc]
      have h := (hstep ((text.take q).foldl f b₀) c).2
      rwa [hidx q (Nat.le_of_lt (List.getElem?_eq_some_iff.mp hc).1)] at h

/-- A byte at which both break the text alike. -/
theorem Follows.columnsFit (F : Follows s l)
    (h : (s.step maxcol background showansi c).breaks = (l.step maxcol c).breaks) :
    ColumnsFit maxcol s l c := by
  have hne : ∀ x : Nat × Nat, x :: l.breaks ≠ l.breaks := fun x => List.cons_ne_self x l.breaks
  rw [ColumnsFit]
  rw [ShowRows.step, Layout.step] at h
  dsimp only at h
  split
  · trivial
  case isFalse h13 =>
    rw [if_neg h13, if_neg h13] at h
    split
    case isTrue h10 =>
      subst h10
      rw [Bool.eq_false_iff]
      intro hesc
      rw [F.inEsc, hesc, if_pos rfl] at h
      exact hne _ (h.symm.trans F.breaks)
    case isFalse h10 =>
      intro hesc h27 hwrap
      by_contra hnot
      rw [Bool.not_eq_true] at hnot
      simp only [F.dbchar, F.inEsc, hesc, decide_eq_false h27, decide_eq_false h10, hwrap, hnot, if_neg h10,
        Layout.read, Bool.or_false, Bool.not_false, Bool.and_false, Bool.and_true,
        Bool.false_eq_true, if_true, if_false] at h
      exact hne (s.i, s.i) (F.breaks ▸ h)

/-- Where the columns fit at each place, both break the text alike. -/
theorem follows_of_columnsFit
    (hfit : ∀ q c, text[q]? = some c → ColumnsFit maxcol
      (showMultiline col maxcol background showansi (text.take q)) (layout maxcol (text.take q)) c)
    (hq : q ≤ text.length) : Follows (showMultiline col maxcol background showansi (text.take q))
      (layout maxcol (text.take q)) := by
  induction q with
  | zero => exact ⟨rfl, rfl, rfl, Nat.zero_le _, rfl, rfl⟩
  | succ q ih =>
    have hc : text[q]? = some text[q] := List.getElem?_eq_getElem hq
    rw [showMultiline, layout, foldl_take_succ hc, foldl_take_succ hc]
    exact (ih (Nat.le_of_succ_le hq)).step (hfit q _ hc)

/-- The columns are those of the lines made where sequences are shown as such, or there are none. -/
theorem Follows.step_col (F : Follows s l) (hcol : s.curcol = l.col)
    (hfit : ColumnsFit maxcol s l c) (hplain : showansi = true ∨ (l.read c).inEsc = false) :
    (s.step maxcol background showansi c).curcol = (l.step maxcol c).col := by
  have hesc : (s.inEsc || decide (c = 27)) = (l.read c).inEsc := (F.read).inEsc
  have hdb : (!s.dbchar && isHigh c) = (l.read c).dbchar := (F.read).dbchar
  have hput : ∀ a, (if ((l.read c).inEsc && showansi) = true then a else a + 1) =
      if (l.read c).inEsc = true then a else a + 1 := by
    intro a
    rcases hplain with rfl | hplain
    · rw [Bool.and_true]
    · rw [hplain]
      rfl
  rw [ShowRows.step, Layout.step]
  rw [ColumnsFit] at hfit
  dsimp only
  rw [hesc, hdb, hcol]
  by_cases h13 : c = 13
  · rw [if_pos h13, if_pos h13]
    rfl
  · rw [if_neg h13] at hfit ⊢
    rw [if_neg h13]
    by_cases h10 : c = 10
    · subst h10
      rw [if_pos rfl] at hfit ⊢
      have hopen : (l.read 10).inEsc = false := by
        rw [Layout.read, hfit]
        rfl
      rw [hopen]
      rfl
    · rw [if_neg h10, decide_eq_false h10, Bool.and_false, if_neg Bool.false_ne_true,
        show (l.read c).col = l.col from rfl]
      by_cases hwrap : (!(l.read c).inEsc && wraps maxcol l.col (l.read c).dbchar) = true
      · rw [if_pos hwrap, if_pos hwrap]
        exact hput 0
      · rw [if_neg hwrap, if_neg hwrap]
        exact hput l.col

/-- And conversely. -/
theorem columnsFit_of_breaks
    (h : (showMultiline col maxcol background showansi text).breaks = (layout maxcol text).breaks)
    (hc : text[q]? = some c) : ColumnsFit maxcol
      (showMultiline col maxcol background showansi (text.take q)) (layout maxcol (text.take q)) c := by
  have hbreaks : ∀ q, q ≤ text.length →
      (showMultiline col maxcol background showansi (text.take q)).breaks =
        (layout maxcol (text.take q)).breaks := by
    intro q hq
    have hs := filter_foldl (ShowRows.start background col) rfl rfl
      (fun s c => @ShowRows.step_breaks maxcol background showansi s c) hq
    have hl := filter_foldl Layout.start rfl rfl (fun l c => @Layout.step_breaks maxcol l c) hq
    rw [showMultiline, layout, ← hs, ← hl]
    exact congrArg _ h
  have hfit : ∀ q c, text[q]? = some c →
      Follows (showMultiline col maxcol background showansi (text.take q))
        (layout maxcol (text.take q)) → ColumnsFit maxcol
        (showMultiline col maxcol background showansi (text.take q)) (layout maxcol (text.take q)) c := by
    intro q c hc F
    have hnext := hbreaks (q + 1) (List.getElem?_eq_some_iff.mp hc).1
    rw [showMultiline, layout, foldl_take_succ hc, foldl_take_succ hc] at hnext
    exact F.columnsFit hnext
  have hfollows : ∀ q, q ≤ text.length →
      Follows (showMultiline col maxcol background showansi (text.take q))
        (layout maxcol (text.take q)) := by
    intro q hq
    induction q with
    | zero => exact ⟨rfl, rfl, rfl, Nat.zero_le _, rfl, rfl⟩
    | succ q ih =>
      have hc : text[q]? = some text[q] := List.getElem?_eq_getElem hq
      have F := ih (Nat.le_of_succ_le hq)
      rw [showMultiline, layout, foldl_take_succ hc, foldl_take_succ hc]
      exact F.step (hfit q _ hc F)
  exact hfit q c hc (hfollows q (Nat.le_of_lt (List.getElem?_eq_some_iff.mp hc).1))

theorem openSequence_of_not_mem (h27 : 27 ∉ text) (q : Nat) : openSequence (text.take q) = false := by
  induction q with
  | zero => rfl
  | succ q ih =>
    cases hc : text[q]? with
    | none => rwa [List.take_add_one, hc, Option.toList_none, List.append_nil]
    | some c =>
      have hne : c ≠ 27 := fun h => h27 (h ▸ List.mem_of_getElem? hc)
      rw [openSequence, foldl_take_succ hc, ← openSequence, ih, inSequence, decide_eq_false hne]
      rfl

/-- Without a prompt, and with sequences that are shown as such or none, only a line feed in a sequence
makes a difference. -/
theorem columnsFit_of_plain (hmax : 2 ≤ maxcol) (hplain : showansi = true ∨ 27 ∉ text)
    (hlf : ∀ q : Nat, text[q]? = some 10 → openSequence (text.take q) = false)
    (hc : text[q]? = some c) : ColumnsFit maxcol
      (showMultiline 0 maxcol background showansi (text.take q)) (layout maxcol (text.take q)) c := by
  have hfit : ∀ q c, text[q]? = some c → ∀ s : ShowRows, s.curcol = (layout maxcol (text.take q)).col →
      ColumnsFit maxcol s (layout maxcol (text.take q)) c := by
    intro q c hc s hcol
    have I := Layout.Inv.layout hmax (Nat.le_of_lt (List.getElem?_eq_some_iff.mp hc).1)
    rw [ColumnsFit, hcol]
    split
    · trivial
    · split
      case isTrue h10 => exact I.inEsc.trans (hlf q (h10 ▸ hc))
      case isFalse => exact fun _ _ h => h
  have hrun : ∀ q, q ≤ text.length →
      Follows (showMultiline 0 maxcol background showansi (text.take q)) (layout maxcol (text.take q)) ∧
        (showMultiline 0 maxcol background showansi (text.take q)).curcol =
          (layout maxcol (text.take q)).col := by
    intro q hq
    induction q with
    | zero => exact ⟨⟨rfl, rfl, rfl, Nat.zero_le _, rfl, rfl⟩, rfl⟩
    | succ q ih =>
      have hc : text[q]? = some text[q] := List.getElem?_eq_getElem hq
      obtain ⟨F, hcol⟩ := ih (Nat.le_of_succ_le hq)
      have hnext := hfit q _ hc _ hcol
      have I := Layout.Inv.layout hmax (Nat.le_of_succ_le hq)
      rw [showMultiline, layout, foldl_take_succ hc, foldl_take_succ hc]
      refine ⟨F.step hnext, F.step_col hcol hnext (hplain.imp_right fun h27 => ?_)⟩
      have hne : text[q] ≠ 27 := fun h => h27 (h ▸ List.getElem_mem hq)
      rw [Layout.read, I.inEsc, openSequence_of_not_mem h27 q, decide_eq_false hne]
      rfl
  exact hfit q c hc _ (hrun q (Nat.le_of_lt (List.getElem?_eq_some_iff.mp hc).1)).2

end

/-! ## The buffers -/

section
variable {size maxcol next : Nat} {c : UInt8} {background : Option Bytes} {tmp dest x b : Bytes}
  {m m' : MakeRows} {l : Layout}

theorem padTmp_eq (n writep : Nat) : padTmp n tmp writep =
    if n = 0 ∨ writep + n < bufLen then some (tmp ++ List.replicate n 32) else none := by
  induction n generalizing tmp writep with
  | zero => rw [if_pos (.inl rfl), List.replicate_zero, List.append_nil]; rfl
  | succ n ih =>
    rw [padTmp, putTmp]
    by_cases h : writep + 1 < bufLen
    · rw [if_pos h, Option.bind_eq_bind, Option.bind_some, ih, List.append_assoc, List.replicate_succ,
        List.singleton_append]
      exact if_congr (by omega) rfl rfl
    · rw [if_neg h, if_neg (by omega)]
      rfl

theorem appendBackground_eq (h : dest.length < size) : appendBackground size background dest =
    if dest.length + (background.getD []).length < size then some (dest ++ background.getD [])
    else none := by
  cases background with
  | none =>
    rw [Option.getD_none, List.append_nil]
    exact (if_pos h).symm
  | some b =>
    rw [appendBackground, Option.getD_some]
    by_cases hb : dest.length + b.length < size
    · rw [if_pos hb, if_pos (by omega), List.take_of_length_le (by omega)]
    · rw [if_neg hb, if_neg (by omega)]

theorem strlcat_take (n : Nat) (x t : Bytes) :
    strlcat (n + 1) (x.take n) t = (x ++ t).take n := by
  rw [strlcat, Nat.add_sub_cancel, List.take_append, List.length_take]
  congr 2
  omega

/-- What fits in behind a string that may have been cut off was not cut off. -/
theorem take_append_of_fits {n : Nat} (h : (x.take n).length + b.length ≤ n) :
    x.take n ++ b = (x ++ b).take n := by
  rw [List.length_take] at h
  rw [List.take_append]
  congr 1
  exact (List.take_of_length_le (by omega)).symm

/-- A line behind the stored ones. -/
theorem store_line {n : Nat} (h : (x.take n).length + b.length ≤ n) (t : Bytes) :
    strlcat (n + 1) (strlcat (n + 1) (x.take n ++ b) t) [10] = (x ++ (b ++ t ++ [10])).take n := by
  rw [take_append_of_fits h, strlcat_take, strlcat_take, List.append_assoc, List.append_assoc,
    List.append_assoc]

/-- The lines made are stored, as far as `dest` goes, and each has fitted into `tmp`. -/
structure Stored (size maxcol : Nat) (background : Option Bytes) (m : MakeRows) (l : Layout) :
    Prop where
  i : m.i = l.i
  col : m.curcol = l.col
  dbchar : m.dbchar = l.dbchar
  inEsc : m.inEsc = l.inEsc
  breaks : m.breaks = l.breaks
  tmp : m.tmp = l.row
  dest : m.dest = (l.stored maxcol (background.getD [])).take (size - 1)
  row : l.row.length < bufLen
  rows : ∀ r ∈ l.rows, r.1.length + (maxcol - r.2) < bufLen

/-- There is room for a line in both buffers. -/
def LineRoom (size maxcol : Nat) (background : Option Bytes) (m : MakeRows) (l : Layout) : Prop :=
  l.row.length + (maxcol - l.col) < bufLen ∧ m.dest.length + (background.getD []).length < size

/-- There is room for the lines in front of a place. -/
structure Layout.Room (size maxcol : Nat) (b : Bytes) (l : Layout) : Prop where
  row : l.row.length < bufLen
  rows : ∀ r ∈ l.rows, r.1.length + (maxcol - r.2) < bufLen
  stored : (l.stored maxcol b).length < size

namespace Stored

theorem lt_size (S : Stored size maxcol background m l) (hsize : 0 < size) : m.dest.length < size := by
  rw [S.dest, List.length_take]
  omega

theorem stored_newline (l : Layout) (maxcol next : Nat) (b : Bytes) :
    (l.newline next).stored maxcol b = l.stored maxcol b ++ Layout.line maxcol b (l.row, l.col) := by
  rw [Layout.stored, Layout.newline, List.flatMap_append, List.flatMap_singleton]
  rfl

theorem flush (S : Stored size maxcol background m l) (hsize : 0 < size)
    (hroom : LineRoom size maxcol background m l) (next : Nat) :
    ∃ m', m.flush size maxcol background next = some m' ∧
      Stored size maxcol background m' (l.newline next) := by
  obtain ⟨n, rfl⟩ := Nat.exists_eq_succ_of_ne_zero (Nat.ne_of_gt hsize)
  obtain ⟨hrow, hdest⟩ := hroom
  have hpad : padTmp (maxcol - m.curcol) m.tmp m.tmp.length =
      some (l.row ++ List.replicate (maxcol - l.col) 32) := by
    rw [padTmp_eq, S.tmp, S.col, if_pos (.inr hrow)]
  have happend := @appendBackground_eq _ background _ (S.lt_size hsize)
  rw [if_pos hdest] at happend
  have hflush : m.flush (n + 1) maxcol background next = some
      { m with
        dest := strlcat (n + 1) (strlcat (n + 1) (m.dest ++ background.getD [])
          (l.row ++ List.replicate (maxcol - l.col) 32)) [10]
        tmp := [], curcol := 0
        breaks := (m.i, next) :: m.breaks } := by
    rw [MakeRows.flush, hpad, Option.bind_eq_bind, Option.bind_some, happend]
    rfl
  refine ⟨_, hflush, S.i, rfl, S.dbchar, S.inEsc, ?_, rfl, ?_, Nat.succ_pos _, ?_⟩
  · rw [S.breaks, S.i]
    rfl
  · have hlen := Nat.le_of_lt_succ hdest
    rw [S.dest, Nat.succ_sub_one] at hlen
    dsimp only
    rw [S.dest, Nat.succ_sub_one, store_line hlen, stored_newline, Layout.line]
    simp only [List.append_assoc]
  · intro r hr
    rcases List.mem_append.mp hr with hr | hr
    · exact S.rows r hr
    · obtain rfl := List.mem_singleton.mp hr
      exact hrow

theorem room_of_flush (S : Stored size maxcol background m l) (hsize : 0 < size)
    (h : m.flush size maxcol background next = some m') : LineRoom size maxcol background m l := by
  rw [MakeRows.flush, padTmp_eq, S.tmp, S.col, appendBackground_eq (S.lt_size hsize)] at h
  obtain ⟨tmp, htmp, h⟩ := Option.bind_eq_some_iff.mp h
  obtain ⟨dest, hdest, -⟩ := Option.bind_eq_some_iff.mp h
  constructor
  · have hrow := S.row
    have := (Option.ite_none_right_eq_some.mp htmp).1
    omega
  · exact (Option.ite_none_right_eq_some.mp hdest).1

theorem put (S : Stored size maxcol background m l) (hroom : l.row.length + 1 < bufLen) (c : UInt8) :
    ∃ m', m.put c = some m' ∧ Stored size maxcol background m' (l.put c) := by
  have hput : putTmp m.tmp m.tmp.length c = some (l.row ++ [c]) := by
    rw [putTmp, S.tmp, if_pos hroom]
  have hm' : m.put c = some
      { m with
        i := m.i + 1
        tmp := l.row ++ [c]
        curcol := if m.inEsc then m.curcol else m.curcol + 1
        inEsc := m.inEsc && c ≠ 109 } := by
    rw [MakeRows.put, hput]
    rfl
  refine ⟨_, hm', congrArg (· + 1) S.i, ?_, S.dbchar, ?_, S.breaks, rfl, S.dest, ?_, S.rows⟩
  · rw [Layout.put, ← S.inEsc, ← S.col]
  · rw [Layout.put, ← S.inEsc]
  · change (l.row ++ [c]).length < bufLen
    rwa [List.length_append]

theorem room_of_put (S : Stored size maxcol background m l) (h : m.put c = some m') :
    l.row.length + 1 < bufLen := by
  rw [MakeRows.put, S.tmp] at h
  obtain ⟨tmp, htmp, -⟩ := Option.bind_eq_some_iff.mp h
  exact (Option.ite_none_right_eq_some.mp htmp).1

theorem read (S : Stored size maxcol background m l) (c : UInt8) : Stored size maxcol background
    { m with dbchar := !m.dbchar && isHigh c, inEsc := m.inEsc || c = 27 } (l.read c) :=
  { S with
    dbchar := congrArg (fun b => !b && isHigh c) S.dbchar
    inEsc := congrArg (· || decide (c = 27)) S.inEsc }

/-- What is made of a byte is stored, if it is stored at all. -/
theorem of_step (S : Stored size maxcol background m l) (hsize : 0 < size)
    (h : m.step size maxcol background c = some m') :
    Stored size maxcol background m' (l.step maxcol c) := by
  have hread := S.read c
  rw [MakeRows.step] at h
  dsimp only at h
  rw [Layout.step]
  split at h
  case isTrue h13 =>
    obtain rfl := Option.some.inj h
    rw [if_pos h13]
    exact { hread with i := congrArg (· + 1) S.i }
  case isFalse h13 =>
    rw [if_neg h13]
    split at h
    case isTrue h10 =>
      obtain ⟨m₁, hm₁, h⟩ := Option.bind_eq_some_iff.mp h
      obtain ⟨m₂, hm₂, hnew⟩ := hread.flush hsize (hread.room_of_flush hsize hm₁) (m.i + 1)
      obtain rfl := Option.some.inj (hm₁.symm.trans hm₂)
      obtain rfl := Option.some.inj h
      rw [if_pos h10, show (l.read c).i = m.i from S.i.symm]
      exact { hnew with i := congrArg (· + 1) (hnew.i.trans S.i.symm) }
    case isFalse h10 =>
      have hguard : (!(m.inEsc || decide (c = 27)) && wraps maxcol m.curcol (!m.dbchar && isHigh c)) =
          (!(l.read c).inEsc && wraps maxcol (l.read c).col (l.read c).dbchar) := by
        rw [← hread.inEsc, ← hread.col, ← hread.dbchar]
      rw [if_neg h10, ← hguard]
      split at h
      case isTrue hwrap =>
        obtain ⟨m₁, hm₁, h⟩ := Option.bind_eq_some_iff.mp h
        obtain ⟨m₂, hm₂, hnew⟩ := hread.flush hsize (hread.room_of_flush hsize hm₁) m.i
        obtain rfl := Option.some.inj (hm₁.symm.trans hm₂)
        obtain ⟨m₃, hm₃, hput⟩ := hnew.put (hnew.room_of_put h) c
        obtain rfl := Option.some.inj (h.symm.trans hm₃)
        rw [if_pos hwrap, show (l.read c).i = m.i from S.i.symm]
        exact hput
      case isFalse hwrap =>
        obtain ⟨m₁, hm₁, hput⟩ := hread.put (hread.room_of_put h) c
        obtain rfl := Option.some.inj (h.symm.trans hm₁)
        rw [if_neg hwrap]
        exact hput

/-- There is room for the end of a line in front of which there was. -/
theorem lineRoom (S : Stored size maxcol background m l)
    (hroom : (l.newline next).Room size maxcol (background.getD [])) :
    LineRoom size maxcol background m l := by
  have hlen := hroom.stored
  rw [stored_newline, List.length_append, Layout.line, List.length_append, List.length_append,
    List.length_append] at hlen
  refine ⟨hroom.rows _ (List.mem_append_right _ (List.mem_singleton.mpr rfl)), ?_⟩
  rw [S.dest, List.length_take]
  omega

theorem step (S : Stored size maxcol background m l) (hsize : 0 < size)
    (hroom : (l.step maxcol c).Room size maxcol (background.getD [])) :
    ∃ m', m.step size maxcol background c = some m' ∧
      Stored size maxcol background m' (l.step maxcol c) := by
  suffices ∃ m', m.step size maxcol background c = some m' by
    obtain ⟨m', hm'⟩ := this
    exact ⟨m', hm', S.of_step hsize hm'⟩
  have hread := S.read c
  rw [MakeRows.step]
  rw [Layout.step] at hroom
  dsimp only
  split
  · exact ⟨_, rfl⟩
  case isFalse h13 =>
    rw [if_neg h13] at hroom
    split
    case isTrue h10 =>
      rw [if_pos h10] at hroom
      have hroom : ((l.read c).newline ((l.read c).i + 1)).Room size maxcol (background.getD []) :=
        ⟨hroom.row, hroom.rows, hroom.stored⟩
      obtain ⟨m₁, hm₁, -⟩ := hread.flush hsize (hread.lineRoom hroom) (m.i + 1)
      rw [hm₁]
      exact ⟨_, rfl⟩
    case isFalse h10 =>
      have hguard : (!(m.inEsc || decide (c = 27)) && wraps maxcol m.curcol (!m.dbchar && isHigh c)) =
          (!(l.read c).inEsc && wraps maxcol (l.read c).col (l.read c).dbchar) := by
        rw [← hread.inEsc, ← hread.col, ← hread.dbchar]
      rw [if_neg h10, ← hguard] at hroom
      split
      case isTrue hwrap =>
        rw [if_pos hwrap] at hroom
        have hline : ((l.read c).newline (l.read c).i).Room size maxcol (background.getD []) :=
          ⟨Nat.succ_pos _, hroom.rows, hroom.stored⟩
        obtain ⟨m₁, hm₁, hnew⟩ := hread.flush hsize (hread.lineRoom hline) m.i
        obtain ⟨m₂, hm₂, -⟩ := hnew.put (show 0 + 1 < bufLen by decide) c
        rw [hm₁]
        exact ⟨m₂, hm₂⟩
      case isFalse hwrap =>
        rw [if_neg hwrap] at hroom
        have hrow := hroom.row
        rw [Layout.put, List.length_append] at hrow
        obtain ⟨m₁, hm₁, -⟩ := hread.put hrow c
        exact ⟨m₁, hm₁⟩

end Stored

theorem Layout.Room.of_newline {b : Bytes} (h : (l.newline next).Room size maxcol b) :
    l.Room size maxcol b := by
  have hlen := h.stored
  rw [Stored.stored_newline, List.length_append] at hlen
  refine ⟨?_, fun r hr => h.rows r (List.mem_append_left _ hr), by omega⟩
  have hrow := h.rows (l.row, l.col) (List.mem_append_right _ (List.mem_singleton.mpr rfl))
  exact Nat.lt_of_le_of_lt (Nat.le_add_right _ _) hrow

theorem Layout.Room.of_step {b : Bytes} (h : (l.step maxcol c).Room size maxcol b) :
    l.Room size maxcol b := by
  rw [Layout.step] at h
  dsimp only at h
  split at h
  · exact ⟨h.row, h.rows, h.stored⟩
  · split at h
    · have hnew : (l.newline ((l.read c).i + 1)).Room size maxcol b := ⟨h.row, h.rows, h.stored⟩
      exact hnew.of_newline
    · split at h
      · have hnew : (l.newline (l.read c).i).Room size maxcol b := ⟨Nat.succ_pos _, h.rows, h.stored⟩
        exact hnew.of_newline
      · have hrow := h.row
        rw [Layout.put, List.length_append] at hrow
        exact ⟨Nat.lt_of_le_of_lt (Nat.le_add_right _ _) hrow, h.rows, h.stored⟩

variable {text : Bytes}

theorem Stored.start : Stored size maxcol background ⟨0, [], [], 0, false, false, []⟩ Layout.start where
  i := rfl
  col := rfl
  dbchar := rfl
  inEsc := rfl
  breaks := rfl
  tmp := rfl
  dest := List.take_nil.symm
  row := Nat.succ_pos _
  rows := List.forall_mem_nil _

/-- The lines of a text are stored where there is room for them. -/
theorem stored_of_room (hsize : 0 < size)
    (hroom : (layout maxcol text).Room size maxcol (background.getD [])) :
    ∃ m, text.foldlM (MakeRows.step size maxcol background) ⟨0, [], [], 0, false, false, []⟩ =
        some m ∧ Stored size maxcol background m (layout maxcol text) := by
  induction text using List.reverseRecOn with
  | nil => exact ⟨_, rfl, Stored.start⟩
  | append_singleton text c ih =>
    rw [layout, List.foldl_append] at hroom ⊢
    obtain ⟨m, hm, S⟩ := ih hroom.of_step
    obtain ⟨m', hm', S'⟩ := S.step hsize hroom
    refine ⟨m', ?_, S'⟩
    rw [List.foldlM_append, hm]
    exact Option.bind_eq_some_iff.mpr ⟨m, rfl, Option.bind_eq_some_iff.mpr ⟨m', hm', rfl⟩⟩

/-- What is stored of the lines of a text is stored as it should be. -/
theorem stored_of_run (hsize : 0 < size) (h : text.foldlM (MakeRows.step size maxcol background)
    ⟨0, [], [], 0, false, false, []⟩ = some m) :
    Stored size maxcol background m (layout maxcol text) := by
  induction text using List.reverseRecOn generalizing m with
  | nil =>
    obtain rfl := Option.some.inj h
    exact Stored.start
  | append_singleton text c ih =>
    rw [List.foldlM_append] at h
    obtain ⟨m₁, hm₁, h⟩ := Option.bind_eq_some_iff.mp h
    rw [List.foldlM_cons] at h
    obtain ⟨m₂, hm₂, h⟩ := Option.bind_eq_some_iff.mp h
    obtain rfl := Option.some.inj h
    rw [layout, List.foldl_append]
    exact (ih hm₁).of_step hsize hm₂

/-! ### The last line -/

/-- What is stored of the text. -/
def Layout.all (maxcol : Nat) (b : Bytes) (l : Layout) : Bytes :=
  l.stored maxcol b ++ if l.row = [] then [] else l.lastLine maxcol b

/-- There is room for the last line in `tmp`, with the colour, and its colour in `dest`. -/
def LastRoom (size maxcol : Nat) (background : Option Bytes) (m : MakeRows) (l : Layout) : Prop :=
  (l.col < maxcol → l.row.length + (background.getD []).length + (maxcol - l.col) < bufLen) ∧
    m.dest.length + (background.getD []).length < size

theorem Stored.finish (S : Stored size maxcol background m l) (hsize : 0 < size)
    (hroom : l.row ≠ [] → LastRoom size maxcol background m l) :
    ∃ m', m.finish size maxcol background = some m' ∧ m'.breaks = l.breaks ∧
      m'.dest = (l.all maxcol (background.getD []) ++ [27, 91, 109]).take (size - 1) := by
  obtain ⟨n, rfl⟩ := Nat.exists_eq_succ_of_ne_zero (Nat.ne_of_gt hsize)
  have hdest := S.dest
  rw [Nat.succ_sub_one] at hdest ⊢
  rw [MakeRows.finish, S.tmp, Layout.all]
  by_cases hrow : l.row = []
  · rw [if_pos hrow, if_pos hrow, List.append_nil]
    refine ⟨_, rfl, S.breaks, ?_⟩
    dsimp only
    rw [hdest, strlcat_take]
  · obtain ⟨htmp, happend⟩ := hroom hrow
    have hpad := @padTmp_eq (strlcat bufLen l.row (background.getD [])) (maxcol - l.col)
      (l.row.length + (background.getD []).length)
    rw [if_pos (by omega)] at hpad
    have hback := @appendBackground_eq _ background _ (S.lt_size hsize)
    rw [if_pos happend] at hback
    have hlen := Nat.le_of_lt_succ happend
    rw [hdest] at hlen
    rw [if_neg hrow, if_neg hrow, S.col]
    dsimp only
    rw [hpad, Option.bind_eq_bind, Option.bind_some, hback]
    refine ⟨_, rfl, S.breaks, ?_⟩
    dsimp only
    rw [hdest, store_line hlen, strlcat_take, Layout.lastLine, Layout.line]
    simp only [List.append_assoc]

theorem Stored.room_of_finish (S : Stored size maxcol background m l) (hsize : 0 < size)
    (h : m.finish size maxcol background = some m') (hrow : l.row ≠ []) :
    LastRoom size maxcol background m l := by
  rw [MakeRows.finish, S.tmp, if_neg hrow] at h
  obtain ⟨tmp, htmp, h⟩ := Option.bind_eq_some_iff.mp h
  obtain ⟨dest, hback, -⟩ := Option.bind_eq_some_iff.mp h
  rw [padTmp_eq, S.col] at htmp
  rw [appendBackground_eq (S.lt_size hsize)] at hback
  have hfits := (Option.ite_none_right_eq_some.mp htmp).1
  exact ⟨fun hlt => by omega, (Option.ite_none_right_eq_some.mp hback).1⟩

/-! ### Counting lines -/

theorem count_line {r : Bytes × Nat} (hb : 10 ∉ b) (hr : 10 ∉ r.1) :
    (Layout.line maxcol b r).count 10 = 1 := by
  have hpad : 10 ∉ List.replicate (maxcol - r.2) (32 : UInt8) := fun h =>
    absurd (List.eq_of_mem_replicate h) (by decide)
  rw [Layout.line, List.count_append, List.count_append, List.count_append,
    List.count_eq_zero_of_not_mem hb, List.count_eq_zero_of_not_mem hr,
    List.count_eq_zero_of_not_mem hpad]
  rfl

theorem count_stored {rows : List (Bytes × Nat)} (hb : 10 ∉ b) (hrows : ∀ r ∈ rows, 10 ∉ r.1) :
    (rows.flatMap (Layout.line maxcol b)).count 10 = rows.length := by
  induction rows with
  | nil => rfl
  | cons r rows ih =>
    obtain ⟨hr, hrows⟩ := List.forall_mem_cons.mp hrows
    rw [List.flatMap_cons, List.count_append, count_line hb hr, ih hrows, List.length_cons, Nat.add_comm]

theorem strlcat_subset {n : Nat} {t : Bytes} (hx : 10 ∉ x) (ht : 10 ∉ t) : 10 ∉ strlcat n x t := by
  intro hmem
  rcases List.mem_append.mp hmem with hmem | hmem
  · exact hx hmem
  · exact ht (List.mem_of_mem_take hmem)

/-- A string that ends in a line feed has lost it where it has been cut off. -/
theorem count_take {n : Nat} {s t : Bytes} (hs : s = x ++ [10]) (ht : 10 ∉ t) :
    ((s ++ t).take n).count 10 = s.count 10 ↔ s.length ≤ n := by
  rcases Nat.lt_or_ge n s.length with hlt | hle
  · refine iff_of_false (Nat.ne_of_lt ?_) (Nat.not_le.mpr hlt)
    rw [List.take_append_of_le_length (Nat.le_of_lt hlt), hs, List.count_append, List.count_singleton_self]
    rw [hs, List.length_append, List.length_singleton] at hlt
    rw [List.take_append_of_le_length (Nat.le_of_lt_succ hlt)]
    exact Nat.lt_succ_of_le ((List.take_sublist n x).count_le 10)
  · refine iff_of_true ?_ hle
    rw [List.take_append, List.take_of_length_le hle, List.count_append,
      List.count_eq_zero_of_not_mem fun h => ht (List.mem_of_mem_take h)]
    rfl

theorem IsColour.not_mem (h : IsColour b) : 10 ∉ b := by
  obtain ⟨params, rfl, hparams⟩ := h
  intro hmem
  rcases List.mem_append.mp hmem with hmem | hmem
  · rcases List.mem_cons.mp hmem with h | hmem
    · cases h
    · rcases List.mem_cons.mp hmem with h | hmem
      · cases h
      · exact absurd (hparams 10 hmem) (by decide)
  · cases List.mem_singleton.mp hmem

theorem makeMultiline_eq_some : makeMultiline size maxcol background text = some m' ↔
    0 < size ∧ ∃ m, text.foldlM (MakeRows.step size maxcol background)
      ⟨0, [], [], 0, false, false, []⟩ = some m ∧ m.finish size maxcol background = some m' := by
  rw [makeMultiline, MakeRows.start]
  split
  case isTrue hsize =>
    rw [Option.bind_eq_bind, Option.bind_some]
    exact Option.bind_eq_some_iff.trans (and_iff_right hsize).symm
  case isFalse hsize => exact iff_of_false (fun h => by cases h) fun h => hsize h.1

/-- The end of what is stored of a text whose last line is not empty. -/
theorem all_eq (hrow : l.row ≠ []) : l.all maxcol b = l.stored maxcol b ++
      (b ++ strlcat bufLen l.row b ++ List.replicate (maxcol - l.col) 32) ++ [10] := by
  rw [Layout.all, if_neg hrow, Layout.lastLine, Layout.line]
  simp only [List.append_assoc]

/-- As many lines as were made are counted in `dest` exactly if the last one is not empty and all fit
in. -/
theorem count_all (hb : 10 ∉ b) (hrow : 10 ∉ l.row) (hrows : ∀ r ∈ l.rows, 10 ∉ r.1) (n : Nat) :
    ((l.all maxcol b ++ [27, 91, 109]).take n).count 10 = l.rows.length + 1 ↔
      l.row ≠ [] ∧ (l.all maxcol b).length ≤ n := by
  have hreset : (10 : UInt8) ∉ [27, 91, 109] := by decide
  by_cases hne : l.row = []
  · refine iff_of_false (Nat.ne_of_lt ?_) fun h => h.1 hne
    have hle := (List.take_sublist n (l.all maxcol b ++ [27, 91, 109])).count_le 10
    rw [List.count_append, List.count_eq_zero_of_not_mem hreset, Layout.all, if_pos hne, List.append_nil,
      Layout.stored, count_stored hb hrows] at hle
    rw [Layout.all, if_pos hne, List.append_nil]
    exact Nat.lt_succ_of_le hle
  · have hcount : (l.all maxcol b).count 10 = l.rows.length + 1 := by
      rw [Layout.all, if_neg hne, List.count_append, Layout.stored, count_stored hb hrows,
        Layout.lastLine, count_line hb (strlcat_subset hrow hb)]
    rw [← hcount, count_take (all_eq hne) hreset]
    exact (and_iff_right hne).symm

end

/-- Both functions make the same lines of a text exactly if the columns fit at each byte, and the
buffers are large enough. -/
theorem sameLines_iff (size col maxcol : Nat) (hmax : 2 ≤ maxcol) (background : Option Bytes)
    (hcolour : ∀ b, background = some b → IsColour b) (showansi : Bool) (text : Bytes) :
    SameLines size col maxcol background showansi text ↔
      (∀ q c, text[q]? = some c → ColumnsFit maxcol
        (showMultiline col maxcol background showansi (text.take q)) (layout maxcol (text.take q)) c) ∧
      Stores size maxcol (background.getD []) (layout maxcol text) := by
  have hb : 10 ∉ background.getD [] := by
    cases background with
    | none => exact List.not_mem_nil
    | some b => exact (hcolour b rfl).not_mem
  have I : (layout maxcol text).Inv text maxcol text.length := by
    have h := Layout.Inv.layout hmax (Nat.le_refl text.length)
    rwa [List.take_length] at h
  have hcount := @count_all maxcol _ _ hb I.row.1 I.row.2 (size - 1)
  have hfollows : (∀ q c, text[q]? = some c → ColumnsFit maxcol
        (showMultiline col maxcol background showansi (text.take q)) (layout maxcol (text.take q)) c) →
      Follows (showMultiline col maxcol background showansi text) (layout maxcol text) := by
    intro hfit
    have F := follows_of_columnsFit hfit (Nat.le_refl text.length)
    rwa [List.take_length] at F
  constructor
  · rintro ⟨m', hm', hbreaks, hlines, -, -⟩
    obtain ⟨hsize, m, hm, hfinish⟩ := makeMultiline_eq_some.mp hm'
    have S := stored_of_run hsize hm
    have hlast := fun hrow => S.room_of_finish hsize hfinish hrow
    obtain ⟨m₁, hm₁, hbreaks₁, hdest⟩ := S.finish hsize hlast
    obtain rfl := Option.some.inj (hm₁.symm.trans hfinish)
    have hfit := fun q c hc =>
      columnsFit_of_breaks (q := q) (c := c) (hbreaks.symm.trans hbreaks₁) hc
    refine ⟨hfit, ?_⟩
    rw [hdest, ShowRows.count, (hfollows hfit).rows] at hlines
    obtain ⟨hne, hall⟩ := hcount.mp hlines
    rw [Layout.all, if_neg hne] at hall
    exact ⟨hne, S.rows, S.row, (hlast hne).1, Nat.lt_of_le_pred hsize hall⟩
  · rintro ⟨hfit, hstores⟩
    have hlen := hstores.size
    rw [List.length_append] at hlen
    have hsize : 0 < size := Nat.lt_of_le_of_lt (Nat.zero_le _) hlen
    have hroom : (layout maxcol text).Room size maxcol (background.getD []) :=
      ⟨hstores.row, hstores.rows, by omega⟩
    obtain ⟨m, hm, S⟩ := stored_of_room hsize hroom
    have hlast : LastRoom size maxcol background m (layout maxcol text) := by
      refine ⟨hstores.last, ?_⟩
      rw [Layout.lastLine, Layout.line, List.length_append, List.length_append, List.length_append] at hlen
      rw [S.dest, List.length_take]
      omega
    obtain ⟨m', hm', hbreaks, hdest⟩ := S.finish hsize fun _ => hlast
    have F := hfollows hfit
    refine ⟨m', makeMultiline_eq_some.mpr ⟨hsize, m, hm, hm'⟩, hbreaks.trans F.breaks.symm, ?_, ?_, ?_⟩
    · rw [hdest, ShowRows.count, F.rows]
      refine hcount.mpr ⟨hstores.ne, ?_⟩
      rw [Layout.all, if_neg hstores.ne]
      exact Nat.le_pred_of_lt hstores.size
    · rw [F.breaks]
      exact I.fits
    · rw [F.breaks]
      exact I.whole

/-- Two lines without a prompt and without sequences. -/
theorem sameLines_iff_demo : SameLines 100 0 4 (some [27, 91, 109]) false [97, 98, 10, 0xB0, 0xA1] ↔
    (∀ q c, ([97, 98, 10, 0xB0, 0xA1] : Bytes)[q]? = some c → ColumnsFit 4
      (showMultiline 0 4 (some [27, 91, 109]) false (([97, 98, 10, 0xB0, 0xA1] : Bytes).take q))
      (layout 4 (([97, 98, 10, 0xB0, 0xA1] : Bytes).take q)) c) ∧
    Stores 100 4 [27, 91, 109] (layout 4 [97, 98, 10, 0xB0, 0xA1]) :=
  sameLines_iff 100 0 4 (by decide) (some [27, 91, 109])
    (fun b hb => ⟨[], (Option.some.inj hb).symm, List.forall_mem_nil _⟩) false _

/-- A line feed at the end starts a line that is shown but not stored. -/
theorem not_sameLines : ¬ ∀ (size col maxcol : Nat) (background : Option Bytes) (showansi : Bool)
    (text : Bytes), 2 ≤ maxcol → (∀ b, background = some b → IsColour b) → text.length < size →
    SameLines size col maxcol background showansi text := by
  intro h
  obtain ⟨m, hm, -, hcount, -⟩ := h 16 0 2 none true [97, 10] (by decide) (fun _ hb => by cases hb)
    (by decide)
  have hone : (makeMultiline 16 2 none [97, 10]).map (·.dest.count 10) = some 1 := by decide
  rw [hm, Option.map_some, hcount] at hone
  exact absurd hone (by decide)

end ArgoBbs

import ArgoBbs.Consts
import ArgoBbs.Lib.CString

/-! # The screen

`screen.c` keeps the picture that is to be shown as lines of bytes: the screen has the rows of the
terminal, `roll` says in which line row 0 is. Of a line there is a range of columns that have been
modified since they were shown, and the length it had when it was shown. Terminals are not dumb
here: they have cursor addressing. -/

namespace ArgoBbs

/-- `LINELEN` -/
def lineLen : Nat := 256

/-- Conversion to `unsigned char`. -/
def toUchar (x : Int) : Nat := (x % 256).toNat

theorem toUchar_lt (x : Int) : toUchar x < 256 := by
  rw [toUchar]
  omega

theorem toUchar_of_lt {x : Nat} (h : x + 1 < 256) : toUchar (x + 1) = x + 1 := by
  rw [toUchar]
  omega

/-- `struct screenline`; `modified` and `standout` are the bits of `mode`. -/
structure Screenline where
  oldlen : Nat
  len : Nat
  modified : Bool
  standout : Bool
  smod : Nat
  emod : Nat
  sso : Nat
  eso : Nat
  data : Nat → UInt8

namespace Screenline

/-- A line of `calloc`. -/
def zero : Screenline := ⟨0, 0, false, false, 0, 0, 0, 0, fun _ => 0⟩

/-- Blanks in the columns from one on and before another. -/
def fill (l : Screenline) (start stop : Nat) : Screenline :=
  { l with data := fun c => if start ≤ c ∧ c < stop then 32 else l.data c }

def setByte (l : Screenline) (col : Nat) (b : UInt8) : Screenline :=
  { l with data := fun c => if c = col then b else l.data c }

/-- The column becomes a modified one. -/
def mark (l : Screenline) (col : Nat) : Screenline :=
  { l with
    modified := true
    smod := if l.modified then min l.smod col else col
    emod := if l.modified then max l.emod col else col }

/-- The line ends at a column; blanks up to it are stored only if it has not been that long when it
was shown. -/
def clrtoeol (l : Screenline) (col : Nat) : Screenline :=
  let l := if col ≤ l.sso then { l with standout := false } else l
  let l := if l.oldlen < col ∧ l.len < col then l.fill l.len (col + 1) else l
  { l with len := col }

/-- The line ends at a column, where text in standout mode ends. -/
def newline (l : Screenline) (standing : Bool) (col : Nat) : Screenline :=
  let l := if standing ∧ l.eso < col then { l with eso := col } else l
  let l := if l.len < col then l.fill l.len (col + 1) else l
  { l with len := col }

/-- The line reaches up to the column, with blanks before it. -/
def extend (l : Screenline) (col : Nat) : Screenline :=
  if l.len ≤ col then { (l.fill l.len col).setByte col 0 with len := toUchar (col + 1) } else l

/-- A byte is stored in a column, which is modified if it has been another one. -/
def store (l : Screenline) (col : Nat) (c : UInt8) : Screenline :=
  let l := l.extend col
  let l := if l.data col ≠ c then l.mark col else l
  l.setByte col c

/-- The column is in the modified range. -/
def Marked (l : Screenline) (c : Nat) : Prop := l.modified = true ∧ l.smod ≤ c ∧ c ≤ l.emod

instance (l : Screenline) (c : Nat) : Decidable (l.Marked c) :=
  inferInstanceAs (Decidable (_ ∧ _ ∧ _))

/-- The column is marked, and what was marked up to it or to the end of the range. -/
theorem marked_mark {l : Screenline} {col c : Nat}
    (h : (l.modified = true ∧ l.smod ≤ c ∧ c ≤ max l.emod col) ∨ c = col) :
    (l.mark col).Marked c := by
  refine ⟨rfl, ?_, ?_⟩ <;> simp only [mark]
  · rcases h with ⟨hm, hle, -⟩ | rfl
    · rw [if_pos hm]
      omega
    · split <;> omega
  · rcases h with ⟨hm, -, hle⟩ | rfl
    · rwa [if_pos hm]
    · split <;> omega

theorem marked_mark_of_marked {l : Screenline} {col c : Nat} (h : l.Marked c) :
    (l.mark col).Marked c :=
  marked_mark (.inl ⟨h.1, h.2.1, Nat.le_trans h.2.2 (Nat.le_max_left ..)⟩)

end Screenline

/-- The variables of `screen.c`, and the settings that it looks at. -/
structure Screen (scrLns : Nat) where
  bigPicture : Nat → Screenline
  curLn : Nat
  curCol : Nat
  roll : Nat
  scrollcnt : Int
  docls : Bool
  standing : Bool
  inansi : Bool
  offsetln : Nat
  disableMove : Bool
  iscolor : Bool
  showansi : Bool

namespace Screen
variable {scrLns : Nat}

/-- The line of a row. -/
def lineOf (s : Screen scrLns) (row : Nat) : Nat := (row + s.roll) % scrLns

/-- The line of the cursor. -/
def slp (s : Screen scrLns) : Screenline := s.bigPicture (s.lineOf s.curLn)

def setLine (s : Screen scrLns) (j : Nat) (l : Screenline) : Screen scrLns :=
  { s with bigPicture := fun k => if k = j then l else s.bigPicture k }

/-- The line of the cursor is changed. -/
def setSlp (s : Screen scrLns) (l : Screenline) : Screen scrLns := s.setLine (s.lineOf s.curLn) l

/-- The cursor goes to the start of the next row. -/
def nextRow (s : Screen scrLns) : Screen scrLns :=
  { s with curCol := 0, curLn := if s.curLn < scrLns then s.curLn + 1 else s.curLn }

def move (s : Screen scrLns) (y x : Int) : Screen scrLns :=
  { s with curLn := toUchar y, curCol := toUchar x }

def clear (s : Screen scrLns) : Screen scrLns :=
  { s with
    roll := 0
    docls := true
    bigPicture := fun j =>
      if s.offsetln ≤ j then
        { s.bigPicture j with modified := false, standout := false, len := 0, oldlen := 0 }
      else s.bigPicture j }.move s.offsetln 0

def clrtoeol (s : Screen scrLns) : Screen scrLns :=
  { s with standing := false }.setSlp (s.slp.clrtoeol s.curCol)

def clrtobot (s : Screen scrLns) : Screen scrLns :=
  { s with
    bigPicture := fun j =>
      let slp := s.bigPicture j
      if ∃ i < scrLns, s.curLn ≤ i ∧ s.lineOf i = j then
        { slp with
          modified := false
          standout := false
          len := 0
          oldlen := if 0 < slp.oldlen then 255 else slp.oldlen }
      else slp }

/-- `outc` at a line feed or carriage return. -/
def newline (s : Screen scrLns) : Screen scrLns :=
  ({ s with standing := false }.setSlp (s.slp.newline s.standing s.curCol)).nextRow

/-- `outc` with the byte that is stored in the line. -/
def store (s : Screen scrLns) (c : UInt8) : Screen scrLns :=
  let slp := s.slp.store s.curCol c
  let regCol := toUchar (s.curCol + 1)
  if wrapMargin ≤ regCol then
    let ends : Bool := s.standing && slp.standout
    let slp := if ends ∧ slp.eso < regCol then { slp with eso := regCol } else slp
    ({ s with standing := s.standing && !ends }.setSlp slp).nextRow
  else { s.setSlp slp with curCol := regCol }

def outc (s : Screen scrLns) (c : UInt8) : Screen scrLns :=
  if s.inansi then if c = 109 then { s with inansi := false } else s
  else if c = 27 ∧ s.iscolor = false then { s with inansi := true }
  else if c = 10 ∨ c = 13 then s.newline
  else s.store (if isprint2 c = false ∧ (c ≠ 27 ∨ s.showansi = false) then 42 else c)

def scroll (s : Screen scrLns) : Screen scrLns :=
  let roll := s.roll + 1
  { s with
    scrollcnt := s.scrollcnt + 1
    roll := if scrLns ≤ roll then roll - scrLns else roll }.move (scrLns - 1) 0 |>.clrtoeol

def rscroll (s : Screen scrLns) : Screen scrLns :=
  { s with
    scrollcnt := s.scrollcnt - 1
    roll := if 0 < s.roll then s.roll - 1 else scrLns - 1 }.move 0 0 |>.clrtoeol

end Screen

end ArgoBbs

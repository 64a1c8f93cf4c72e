import ArgoBbs.Edit.Textline
import ArgoBbs.Lib.Dlist
import ArgoBbs.Lib.Loop

/-! # The editor

The text that is edited is a doubly linked list of lines (`firstline` and `lastline` are its ends),
and the editor holds five pointers into it. A function fails where it goes through a pointer that is
`NULL` or points to a line that was freed. Whether the screen has to be drawn again is left out. -/

namespace ArgoBbs

/-- What stays as it is while a text is edited: the lines of the terminal (`io.c` takes no sizes but
from 24 to 100), whether an article is being changed, and what `Origin` looks for in a line, which
has the names of the system in it. -/
structure Setting where
  tLines : Nat
  le_tLines : 24 ≤ tLines
  edit : Bool
  tag : Bytes

/-- `Origin` of a line: it says where the article was posted. -/
def Setting.isOrigin (cfg : Setting) (l : Textline) : Bool :=
  cfg.edit && strstr l.text cfg.tag && l.byte 0 ≠ 58

/-- `lastindent` is `none` for -1. -/
structure Editor where
  text : Dlist Textline
  currline : Option Nat
  topOfWin : Option Nat
  currpnt : Nat
  currWindowLine : Int
  currln : Int
  insertCharacter : Bool
  enabledbchar : Bool
  editansi : Bool
  markBegin : Option Nat
  markEnd : Option Nat
  markOn : Bool
  marknum : Nat
  firstMarkLine : Nat
  lastindent : Option Nat

namespace Editor
variable (cfg : Setting) (s : Editor)

def deref (p : Option Nat) : Option (Node Textline) := p.bind s.text.node

/-- `Origin`, which looks at a line only where an article is being changed. -/
def origin (p : Option Nat) : Option Bool :=
  match p with
  | none => some false
  | some p => if cfg.edit then (s.text.node p).map (cfg.isOrigin ·.val) else some false

/-! ## Moving over lines -/

/-- `forward_line`: the line reached and `moveln`. -/
def forwardLine (pos : Option Nat) (moveln : Nat) : Nat → Option (Option Nat × Nat)
  | 0 => some (pos, moveln)
  | num + 1 =>
    match pos with
    | none => forwardLine none moveln num
    | some p => do
      let n ← s.text.node p
      match n.next with
      | some q => forwardLine (some q) (moveln + 1) num
      | none => forwardLine (some p) moveln num

/-- `back_line` -/
def backLine (pos : Option Nat) (moveln : Nat) : Nat → Option (Option Nat × Nat)
  | 0 => some (pos, moveln)
  | num + 1 =>
    match pos with
    | none => backLine none moveln num
    | some p => do
      let n ← s.text.node p
      match n.prev with
      | some q => backLine (some q) (moveln + 1) num
      | none => backLine (some p) moveln num

/-- `countline`: how many lines are behind the first one. -/
def countline : Option Nat :=
  loop (fun (pos, moveln) =>
    if pos = s.text.last then some (.inr moveln)
    else do
      let n ← s.deref pos
      match n.next with
      | some q => some (.inl (some q, moveln + 1))
      | none => some (.inl (pos, moveln)))
    (s.text.mem.length + 1) (s.text.first, 0)

/-- `getlineno`: how many lines `currline` is below the top of the window. -/
def getlineno : Option Int :=
  loop (fun (p, cnt) =>
    if p = s.topOfWin then some (.inr cnt)
    else
      match p with
      | none => some (.inr cnt)
      | some p => do
        let n ← s.text.node p
        some (.inl (n.prev, cnt + 1)))
    (s.text.mem.length + 1) (s.currline, (0 : Int))

/-! ## Changing lines -/

/-- `ADJUST_MARK` -/
def adjustMark (mark : Option Nat) (line : Nat) (n : Node Textline) : Option Nat :=
  if mark = some line then n.next.or n.prev else mark

def deleteLine (line : Nat) : Option Editor := do
  let n ← s.text.node line
  if n.next = none ∧ n.prev = none then
    let text ← s.text.setVal line n.val.clear
    some { s with text, markOn := false, markBegin := none, markEnd := none }
  else
    let text ← s.text.remove line
    some { s with
      text
      markBegin := adjustMark s.markBegin line n
      markEnd := adjustMark s.markEnd line n }

def split (line pos : Nat) : Option Editor := do
  let n ← s.text.node line
  if n.val.len < pos then some s
  else
    let text ← (s.text.alloc (n.val.rest pos)).2.setVal line (n.val.truncate pos)
    let text ← text.insertAfter (s.text.alloc (n.val.rest pos)).1 line
    if s.currline = some line ∧ pos ≤ s.currpnt then
      some { s with
        text
        currline := some (s.text.alloc (n.val.rest pos)).1
        currpnt := s.currpnt - pos
        currWindowLine := s.currWindowLine + 1
        currln := s.currln + 1 }
    else some { s with text }

/-- The blank behind the line that `join` has left, unless there is one. -/
def blankBehind (p : Nat) : Option Editor := do
  let n ← s.text.node p
  if 1 ≤ n.val.len ∧ n.val.len + 1 < wrapMargin ∧ n.val.byte (n.val.len - 1) ≠ 32 then
    let text ← s.text.setVal p (n.val.append [32] 1)
    some { s with text }
  else some s

/-- `join` calls itself only for lines that fit on one, so it does so once. -/
def join (s : Editor) (line : Nat) : Nat → Option (Bool × Editor)
  | 0 => none
  | depth + 1 => do
    let n ← s.text.node line
    match n.next with
    | none => some (true, s)
    | some q =>
      let m ← s.text.node q
      if n.val.len + m.val.len < wrapMargin then
        let text ← s.text.setVal line (n.val.append m.val.text m.val.len)
        let s ← { s with text }.deleteLine q
        some (true, s)
      else
        -- what does not fit is behind the last word that does
        let k := m.val.lastBlank (wrapMargin - 1 - n.val.len)
        if k = 0 then some (true, s)
        else
          let s ← s.split q (k + 1)
          let n ← s.text.node line
          let m ← s.text.node q
          if wrapMargin ≤ n.val.len + m.val.len then some (true, s)
          else
            let (_, s) ← join s line depth
            let n ← s.text.node line
            let p ← n.next
            let s ← s.blankBehind p
            some (false, s)

/-- `while (!join(p)) p = p->next`, which must not come to the end of the text. -/
def joinLines (line : Nat) : Option Editor :=
  loop (fun (p, s) => do
    let (joined, s) ← join s p 2
    if joined then some (.inr s)
    else
      let n ← s.text.node p
      let q ← n.next
      some (.inl (q, s)))
    (s.text.mem.length + 1) (line, s)

/-! ## Typing -/

/-- The blank behind a line that was wrapped between words. -/
def padWrapped (q : Nat) (wordwrap : Bool) : Option Editor := do
  let n ← s.text.node q
  if wordwrap ∧ 1 ≤ n.val.len ∧ n.val.byte (n.val.len - 1) ≠ 32 then
    let text ← s.text.setVal q n.val.pad
    some { s with text }
  else some s

/-- What `insert_char` does with a line that has become too long. -/
def wrapLine (line : Nat) (l : Textline) : Option Editor := do
  let s ← s.split line l.wrapPoint.1
  let n ← s.text.node line
  let q ← n.next
  let s ← s.padWrapped q l.wrapPoint.2
  let atOrigin ← s.origin cfg s.currline
  if atOrigin then
    let m ← s.text.node q
    some { s with
      currline := m.prev, currWindowLine := s.currWindowLine - 1, currln := s.currln - 1 }
  else some s

def insertChar (ch : UInt8) : Option Editor := do
  let p ← s.currline
  let n ← s.text.node p
  if n.val.len < s.currpnt then some s
  else
    let l := if s.currpnt < n.val.len ∧ ¬s.insertCharacter then n.val.store s.currpnt ch
      else n.val.insertAt s.currpnt ch
    let text ← s.text.setVal p l
    let s := { s with text, currpnt := s.currpnt + 1 }
    if l.len < wrapMargin then some s else s.wrapLine cfg p l

def veInsertStr (str : Bytes) : Option Editor :=
  (str.takeWhile (· ≠ 0)).foldlM (fun s ch => s.insertChar cfg ch) s

/-- `do { insert_char(' '); } while (currpnt & 0x7)` -/
def insertTab : Option Editor :=
  loop (fun s => do
    let s ← s.insertChar cfg 32
    if s.currpnt % 8 ≠ 0 then some (.inl s) else some (.inr s))
    32 s

/-- `split(currline, currpnt)` -/
def newLine : Option Editor := do
  let p ← s.currline
  s.split p s.currpnt

def deleteChar : Option Editor := do
  let p ← s.currline
  let n ← s.text.node p
  if n.val.len = 0 ∨ n.val.len ≤ s.currpnt then some s
  else
    let text ← s.text.setVal p (n.val.deleteChar s.enabledbchar s.currpnt).1
    some { s with text, currpnt := (n.val.deleteChar s.enabledbchar s.currpnt).2 }

/-! ## Reading a text -/

/-- `vedit_init`: one empty line. The modes of typing are those of the last text. -/
def veditInit (insertCharacter enabledbchar : Bool) (lastindent : Option Nat) : Editor where
  text := ⟨[some ⟨none, none, .alloc⟩], some 0, some 0⟩
  currline := some 0
  topOfWin := some 0
  currpnt := 0
  currWindowLine := 0
  currln := 0
  insertCharacter := insertCharacter
  enabledbchar := enabledbchar
  editansi := false
  markBegin := none
  markEnd := none
  markOn := false
  marknum := 0
  firstMarkLine := 0
  lastindent := lastindent

/-- One byte of the file in `read_file`. -/
def readByte (ch : UInt8) : Option Editor :=
  if isprint2 ch ∨ ch = 27 then
    if s.currpnt < 254 then s.insertChar cfg ch
    else if s.currpnt < 255 then s.insertChar cfg 46
    else some s
  else if ch = 9 then s.insertTab cfg
  else if ch = 10 then s.newLine
  else some s

def readFile (file : Bytes) : Option Editor := file.foldlM (fun s ch => s.readByte cfg ch) s

end Editor

end ArgoBbs

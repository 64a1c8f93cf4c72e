import ArgoBbs.Edit.Buffer

/-! # The keys of the editor

The cases of `vedit_key`, the actions on marked lines and the jumps. A key may do what another key
does by calling `vedit_key` again; such calls are not nested more than three deep. -/

namespace ArgoBbs

/-- The keys by what `vedit_key` does for them. Those that only draw the screen again or show the
help are `other`. -/
inductive Key
  | print (ch : UInt8)
  | tab
  | newline
  | toggleDbchar
  | left
  | copyMark
  | setMark
  | right
  | up
  | down
  | pageUp
  | pageDown
  | beginOfLine
  | endOfLine
  | startOfFile
  | tailOfFile
  | toggleInsert
  | backspace
  | delete
  | deleteLine
  | killLine
  | other
  deriving DecidableEq

namespace Key

/-- `Ctrl('I')`, `'\r'` and so on, and the `KEY_` codes. -/
def table : List (Nat × Key) :=
  [(9, tab), (13, newline), (10, newline), (18, toggleDbchar), (0x104, left), (3, copyMark),
    (21, setMark), (22, right), (0x103, right), (16, up), (0x101, up), (14, down), (0x102, down),
    (2, pageUp), (0x205, pageUp), (6, pageDown), (0x206, pageDown), (1, beginOfLine),
    (0x201, beginOfLine), (5, endOfLine), (0x204, endOfLine), (19, startOfFile), (20, tailOfFile),
    (15, toggleInsert), (0x202, toggleInsert), (8, backspace), (0x7f, backspace), (4, delete),
    (0x203, delete), (25, deleteLine), (11, killLine)]

def ofCode (ch : Nat) : Key :=
  if ch < 0x100 ∧ isprint2 (UInt8.ofNat ch) then print (UInt8.ofNat ch)
  else (table.lookup ch).getD other

end Key

/-- The arguments of `process_MARK_action` from `'0'` on. -/
inductive MarkAction
  | cancel
  | markBegin
  | markEnd
  | copy
  | delete
  deriving DecidableEq

/-- What `raw_vedit` does with a key: `vedit_key`, and the commands of `ESC`. -/
inductive EditOp
  | key (ch : Nat)
  | mark (action : MarkAction)
  | goline (n : Int)
  | searchline (text : Bytes)
  | insertStr (str : Bytes)
  | readFile (file : Bytes)

namespace Editor
variable (cfg : Setting) (s : Editor)

/-- `a_lines` -/
def aLines : Nat := cfg.tLines - 2

/-! ## Jumps -/

/-- The window starts with a line that is `up` lines above the current one. -/
def showFrom (line : Option Nat) (up : Int) : Editor :=
  { s with currline := line, topOfWin := line, currWindowLine := 0, currln := s.currln - up }

/-- The cursor does not stay on the line below the origin. -/
def leaveBelow : Option Editor := do
  let n ← s.deref s.currline
  let below ← s.origin cfg n.prev
  if below then
    let m ← s.deref n.prev
    some (s.showFrom m.prev 2)
  else some s

def leaveOrigin : Option Editor := do
  let atOrigin ← s.origin cfg s.currline
  if atOrigin then
    let n ← s.deref s.currline
    (s.showFrom n.prev 1).leaveBelow cfg
  else s.leaveBelow cfg

/-- The loop of `goline`: the line reached, if there are so many, and `count`. -/
def walk (p : Option Nat) (count : Int) : Nat → Option (Option Nat × Int)
  | 0 => some (p, count)
  | n + 1 =>
    match p with
    | none => some (none, count)
    | some p => do
      let m ← s.text.node p
      walk m.next (count + 1) n

/-- A jump to a line, which is then the first one of the window. -/
def jumpTo (p : Option Nat) (currln : Int) : Option Editor :=
  { s with currline := p, topOfWin := p, currWindowLine := 0, currln }.leaveOrigin cfg

/-- The number of the line that `goline` goes to, where it goes to one. -/
def goline (n : Int) : Option Editor :=
  if n = 0 then some s
  else do
    let n := if n < 0 then 1 else n
    let (p, count) ← s.walk s.text.first 1 (n - 1).toNat
    match p with
    | some p => s.jumpTo cfg (some p) (n - 1)
    | none => s.jumpTo cfg s.text.last (count - 2)

/-- The loop of `searchline`: the line found, how many lines were looked at, and where in the line
the text found ends. -/
def search (text : Bytes) : Option (Option (Nat × Nat × Nat)) :=
  loop (fun (p, count) =>
    match p with
    | none => some (.inr none)
    | some p => do
      let n ← s.text.node p
      let tt := if count = 1 then s.currpnt else 0
      match strstrAt (n.val.textFrom tt) text with
      | some i => some (.inr (some (p, count, tt + i + text.length)))
      | none => some (.inl (n.next, count + 1)))
    (s.text.mem.length + 1) (s.currline, 1)

def searchline (text : Bytes) : Option Editor := do
  let found ← s.search text
  match found with
  | some (p, count, addr) => jumpTo cfg { s with currpnt := addr } (some p) (s.currln + count - 1)
  | none => do
    let s ← s.goline cfg (s.currln + 1)
    s.leaveOrigin cfg

/-! ## Marked lines -/

def setAttr (f : UInt8 → UInt8) (l : Textline) : Textline := { l with attr := f l.attr }

def markLine (p : Nat) : Option Editor := do
  let n ← s.text.node p
  let text ← s.text.setVal p (setAttr (· ||| Textline.mMark) n.val)
  some { s with text }

/-- The loop of `mark_block` at a line, with `pass_mark` and `first_mark_line`. -/
def markBetween (markBegin markEnd : Nat) (acc : Nat × Nat) (p : Nat) (l : Textline) :
    (Nat × Nat) × Textline :=
  if p = markBegin ∨ p = markEnd then
    ((acc.1 + 1, acc.2), setAttr (· ||| Textline.mMark) l)
  else
    let (first, l) := if acc.1 = 1 then (acc.2, setAttr (· ||| Textline.mMark) l)
      else (acc.2 + 1, setAttr (· &&& ~~~Textline.mMark) l)
    ((acc.1, if acc.1 = 2 then first - 1 else first), l)

/-- `mark_on = mark_block()` -/
def markBlock : Option Editor :=
  match s.markBegin, s.markEnd with
  | none, none => some { s with firstMarkLine := 0, markOn := false }
  | some p, none => { s with firstMarkLine := 0, markOn := true }.markLine p
  | none, some p => { s with firstMarkLine := 0, markOn := true }.markLine p
  | some p, some q =>
    if p = q then { s with firstMarkLine := 0, markOn := true }.markLine p
    else do
      let ((_, first), text) ← s.text.mapFrom (markBetween p q) (0, 0) s.text.first
      some { s with text, firstMarkLine := first, markOn := true }

def cancelMark : Option Editor := do
  let (_, text) ← s.text.mapFrom
    (fun (_ : Unit) _ l => ((), setAttr (· &&& ~~~Textline.mMark) l)) () s.text.first
  some { s with text, markOn := false, markBegin := none, markEnd := none }

/-- The loop of the copy action at a line. -/
def copyStep (st : Option Nat × Editor) : Option ((Option Nat × Editor) ⊕ Editor) :=
  let (p, s) := st
  match p with
  | none => some (.inr s)
  | some p => do
    let n ← s.text.node p
    if n.val.marked then
      let s ← s.veInsertStr cfg n.val.text
      let s ← s.newLine
      let n ← s.text.node p
      some (.inl (n.next, s))
    else some (.inl (n.next, s))

def copyFuel : Nat := 257 * (s.text.mem.length + 1)

def copyMark : Option Editor :=
  if s.markOn then do
    let n ← s.deref s.currline
    if n.val.marked then some s
    else loop (copyStep cfg) s.copyFuel (s.text.first, s)
  else some s

/-- The loop of the delete action at a line; `ctrlY` is `vedit_key(Ctrl('Y'))`. -/
def deleteStep (ctrlY : Editor → Option Editor) (st : Option Nat × Editor) :
    Option ((Option Nat × Editor) ⊕ Editor) :=
  let (p, s) := st
  match p with
  | none => some (.inr s)
  | some p => do
    let n ← s.text.node p
    if n.val.marked then
      let s ← ctrlY { s with currline := some p }
      let q ← s.currline
      let m ← s.text.node q
      let atOrigin ← s.origin cfg m.next
      if s.currline = s.text.first ∧ (m.next = none ∨ atOrigin) then
        let s ← if m.val.marked then ctrlY s else some s
        let m ← s.text.node q
        some (.inl (m.next, s))
      else some (.inl (some q, s))
    else some (.inl (n.next, s))

def deleteMark (ctrlY : Editor → Option Editor) : Option Editor :=
  if s.markOn then do
    let first := s.currline = s.text.first
    let s ← loop (deleteStep cfg ctrlY) (2 * s.text.mem.length + 1) (s.text.first, s)
    let s ← s.cancelMark
    let s := { s with marknum := 0 }
    if first then s.goline cfg 1
    else
      let s := { s with firstMarkLine := if s.firstMarkLine = 0 then 1 else s.firstMarkLine }
      s.goline cfg s.firstMarkLine
  else some s

/-- `process_MARK_action` -/
def processMark (ctrlY : Editor → Option Editor) : MarkAction → Option Editor
  | .cancel => s.cancelMark
  | .markBegin => { s with markBegin := s.currline }.markBlock
  | .markEnd => { s with markEnd := s.currline }.markBlock
  | .copy => s.copyMark cfg
  | .delete => s.deleteMark cfg ctrlY

/-! ## Keys -/

/-- `no_touch`: colour codes are not to be changed while they are shown as colours. -/
def noTouch : Option Bool :=
  if s.editansi then (s.deref s.currline).map (27 ∈ ·.val.text) else some false

/-- `NO_ANSI_MODIFY` -/
def unlessAnsi (f : Editor → Option Editor) : Option Editor := do
  let noTouch ← s.noTouch
  if noTouch then some s else f s

def backwardCharacter : Option Editor :=
  if 0 < s.currpnt then some { s with currpnt := s.currpnt - 1 }
  else do
    let n ← s.deref s.currline
    match n.prev with
    | none => some s
    | some p =>
      let m ← s.text.node p
      some { s with
        currWindowLine := s.currWindowLine - 1
        currln := s.currln - 1
        currline := some p
        currpnt := m.val.len }

def forwardCharacter : Option Editor := do
  let n ← s.deref s.currline
  if n.val.len ≠ s.currpnt then some { s with currpnt := s.currpnt + 1 }
  else
    match n.next with
    | none => some s
    | some p =>
      let atOrigin ← s.origin cfg (some p)
      if atOrigin then
        let m ← s.text.node p
        some { s with currpnt := 0, currline := m.prev }
      else some { s with
        currpnt := 0
        currWindowLine := s.currWindowLine + 1
        currln := s.currln + 1
        currline := some p }

/-- `(currline->len > lastindent) ? lastindent : currline->len` -/
def indented : Option Editor := do
  let n ← s.deref s.currline
  let indent := s.lastindent.getD 0
  some { s with currpnt := if indent < n.val.len then indent else n.val.len }

def previousLine : Option Editor := do
  let n ← s.deref s.currline
  match n.prev with
  | none => some s
  | some p => indented { s with
      currln := s.currln - 1, currWindowLine := s.currWindowLine - 1, currline := some p }

def nextLine : Option Editor := do
  let n ← s.deref s.currline
  match n.next with
  | none => some s
  | some p =>
    let atOrigin ← s.origin cfg (some p)
    if atOrigin then
      let m ← s.text.node p
      indented { s with currline := m.prev }
    else indented { s with
      currline := some p, currWindowLine := s.currWindowLine + 1, currln := s.currln + 1 }

/-- `if (currpnt > currline->len) currpnt = currline->len` after a move over pages, behind which the
row of the cursor is counted again. -/
def arriveAt (line : Option Nat) (currln : Int) : Option Editor := do
  let s := { s with currline := line, currln }
  let cnt ← s.getlineno
  let n ← s.deref s.currline
  some { s with
    currWindowLine := cnt
    currpnt := if n.val.len < s.currpnt then n.val.len else s.currpnt }

def previousPage : Option Editor := do
  let (top, _) ← s.backLine s.topOfWin 0 (aLines cfg)
  let (line, moveln) ← s.backLine s.currline 0 (aLines cfg)
  arriveAt { s with topOfWin := top } line (s.currln - moveln)

/-- The window starts two lines above the last one. -/
def showTail : Option Editor := do
  let n ← s.deref s.currline
  let m ← s.deref n.prev
  let l ← s.deref s.text.last
  let k ← s.deref l.prev
  some { s with
    currln := s.currln - 2, currWindowLine := 0, currline := m.prev, topOfWin := k.prev }

def stepOffOrigin : Option Editor := do
  let atOrigin ← s.origin cfg s.currline
  if atOrigin then
    let n ← s.deref s.currline
    some { s with
      currln := s.currln - 1, currWindowLine := s.currWindowLine - 1, currline := n.prev }
  else some s

/-- `forward_line2` always says that there are so many lines. -/
def nextPage : Option Editor := do
  let _ ← s.forwardLine s.topOfWin 0 (aLines cfg)
  let (line, moveln) ← s.forwardLine s.currline 0 (aLines cfg)
  let s ← s.arriveAt line (s.currln + moveln)
  let n ← s.deref s.currline
  let below ← s.origin cfg n.prev
  let s ← if below then s.showTail else some s
  s.stepOffOrigin cfg

def tailOfFile : Option Editor := do
  let (top, _) ← s.backLine s.text.last 0 (aLines cfg)
  let moveln ← s.countline
  let s := { s with topOfWin := top, currln := moveln, currline := s.text.last }
  let cnt ← s.getlineno
  let s := { s with currWindowLine := cnt, currpnt := 0 }
  let n ← s.deref s.currline
  let below ← s.origin cfg n.prev
  if below then
    let m ← s.deref n.prev
    some { s with
      currline := m.prev, currln := s.currln - 2, currWindowLine := s.currWindowLine - 2 }
  else some s

def backspace : Option Editor :=
  if s.currpnt = 0 then do
    let n ← s.deref s.currline
    match n.prev with
    | none => some s
    | some p =>
      let m ← s.text.node p
      let s := { s with
        currln := s.currln - 1
        currWindowLine := if s.currWindowLine - 1 < 0 then 0 else s.currWindowLine - 1
        currline := some p
        currpnt := m.val.len
        topOfWin := if s.currWindowLine - 1 < 0 then some p else s.topOfWin }
      let q ← m.next
      let k ← s.text.node q
      if k.val.isBlank then s.deleteLine q else s.joinLines p
  else { s with currpnt := s.currpnt - 1 }.deleteChar

/-- The line at the cursor is taken out, and the cursor goes to another one. -/
def removeLine (line next : Nat) : Option Editor := do
  let s := { s with topOfWin := if s.currline = s.topOfWin then some next else s.topOfWin }
  let s ← s.deleteLine line
  let s := { s with currline := some next }
  let atOrigin ← s.origin cfg s.currline
  if atOrigin then
    let n ← s.text.node next
    some { s with
      currline := n.prev, currWindowLine := s.currWindowLine - 1, currln := s.currln - 1 }
  else some s

def killEmpty (line : Nat) (n : Node Textline) : Option Editor :=
  match n.next with
  | some q => s.removeLine cfg line q
  | none =>
    match n.prev with
    | none => some s
    | some q => removeLine cfg { s with
        currWindowLine := if 0 < s.currWindowLine then s.currWindowLine - 1 else s.currWindowLine
        currln := s.currln - 1 } line q

/-- `again` is `vedit_key`. -/
def deleteCurrent (again : Key → Editor → Option Editor) : Option Editor := do
  let p ← s.currline
  let n ← s.text.node p
  let atOrigin ← s.origin cfg n.next
  if (atOrigin ∨ n.next = none) ∧ n.prev = none then
    let text ← s.text.setVal p n.val.clear
    some { s with text, currpnt := 0 }
  else
    let text ← s.text.setVal p { n.val with len := 0 }
    again .killLine { s with text, currpnt := 0 }

def killLine (again : Key → Editor → Option Editor) : Option Editor := do
  let p ← s.currline
  let n ← s.text.node p
  if n.prev = none ∧ n.next = none then
    let text ← s.text.setVal p (n.val.store 0 0)
    some { s with text, currpnt := 0 }
  else
    let atOrigin ← s.origin cfg n.next
    if atOrigin ∧ s.currpnt = n.val.len ∧ s.currpnt ≠ 0 then some s
    else if atOrigin ∧ n.prev = none then again .deleteLine s
    else if n.val.len = 0 then s.killEmpty cfg p n
    else if n.val.len = s.currpnt then s.joinLines p
    else
      let text ← s.text.setVal p (n.val.truncate s.currpnt)
      some { s with text }

def deleteCharacter (again : Key → Editor → Option Editor) : Option Editor := do
  let p ← s.currline
  let n ← s.text.node p
  if n.val.len = s.currpnt then
    let atOrigin ← s.origin cfg n.next
    if ¬atOrigin then s.joinLines p
    else if s.currpnt = 0 then again .killLine s
    else some s
  else s.deleteChar

/-- The cases of `vedit_key`. `process_MARK_action` does not call it for these. -/
def keyCase (again : Key → Editor → Option Editor) : Key → Option Editor
  | .print ch => s.unlessAnsi (·.insertChar cfg ch)
  | .tab => s.unlessAnsi (·.insertTab cfg)
  | .newline => s.unlessAnsi newLine
  | .toggleDbchar => some { s with enabledbchar := !s.enabledbchar }
  | .left => s.backwardCharacter
  | .copyMark => s.copyMark cfg
  | .setMark =>
    if s.marknum = 0 then { s with marknum := 1, markBegin := s.currline }.markBlock
    else { s with markEnd := s.currline }.markBlock
  | .right => s.forwardCharacter cfg
  | .up => s.previousLine
  | .down => s.nextLine cfg
  | .pageUp => s.previousPage cfg
  | .pageDown => s.nextPage cfg
  | .beginOfLine => some { s with currpnt := 0 }
  | .endOfLine => (s.deref s.currline).map fun n => { s with currpnt := n.val.len }
  | .startOfFile => some { s with
      topOfWin := s.text.first, currline := s.text.first, currpnt := 0, currWindowLine := 0
      currln := 0 }
  | .tailOfFile => s.tailOfFile cfg
  | .toggleInsert => some { s with insertCharacter := !s.insertCharacter }
  | .backspace => s.unlessAnsi backspace
  | .delete => s.unlessAnsi (·.deleteCharacter cfg again)
  | .deleteLine => s.deleteCurrent cfg again
  | .killLine => s.unlessAnsi (·.killLine cfg again)
  | .other => some s

/-- The window is moved up to a cursor above it. -/
def scrollUp : Option Editor :=
  if s.currWindowLine < 0 then do
    let n ← s.deref s.topOfWin
    match n.prev with
    | none => some { s with currWindowLine := 0 }
    | some p => some { s with currWindowLine := 0, topOfWin := some p }
  else some s

/-- The window is moved down, a line at a time. -/
def scrollDown (s : Editor) : Nat → Option Editor
  | 0 => some s
  | i + 1 => do
    let n ← s.deref s.topOfWin
    scrollDown { s with
      currWindowLine := s.currWindowLine - 1, topOfWin := n.next.or s.topOfWin } i

/-- What `vedit_key` does behind the cases: the cursor is in the window again, and its line is
shown. -/
def showCursor : Option Editor := do
  let s ← s.scrollUp
  let s ← s.scrollDown (s.currWindowLine - cfg.tLines + 2).toNat
  let _ ← s.deref s.currline
  some s

/-- The column that moves up and down come back to. -/
def keepIndent (key : Key) : Editor :=
  if key = .up ∨ key = .down then { s with lastindent := s.lastindent.or (some s.currpnt) }
  else { s with lastindent := none }

def veditKey : Nat → Key → Editor → Option Editor
  | 0, _, _ => none
  | depth + 1, key, s => do
    let s ← (s.keepIndent key).keyCase cfg (veditKey depth) key
    s.showCursor cfg

def step (s : Editor) : EditOp → Option Editor
  | .key ch => veditKey cfg 3 (Key.ofCode ch) s
  | .mark action => s.processMark cfg (veditKey cfg 3 .deleteLine) action
  | .goline n => s.goline cfg n
  | .searchline text => s.searchline cfg text
  | .insertStr str => s.veInsertStr cfg str
  | .readFile file => s.readFile cfg file

end Editor

end ArgoBbs

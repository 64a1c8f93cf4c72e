import ArgoBbs.Screen.Getdata
import ArgoBbs.Screen.Multiline

/-! # Input of a text of several lines

`multi_getdata` lets the user edit a text that is shown in several lines. Before each key it looks
for the column of the cursor and for the characters at the cursor and in front of it, and the keys
that move the cursor trust in what it has found (`io.c`). -/

namespace ArgoBbs

/-- `Ctrl('Q')` puts in a line feed. -/
def multiGetdataKeys : List (Nat × InputKey) :=
  [(10, .enter), (13, .enter), (18, .toggleDbchar), (0x7f, .backspace), (8, .backspace),
    (0x203, .delete), (1, .beginOfLine), (0x201, .beginOfLine), (5, .endOfLine), (0x204, .endOfLine),
    (0x101, .up), (0x102, .down), (0x104, .left), (0x103, .right), (17, .newline)]

def multiGetdataKey (k : KeyPress) : InputKey := KeyPress.decode multiGetdataKeys k.ch

/-- The arguments, `col` being the column behind the prompt. -/
structure MultiField where
  len : Nat
  col : Nat
  maxcol : Nat
  maxline : Nat
  clearlabel : Bool

/-- `if (len > BUFLEN) len = BUFLEN` -/
def MultiField.size (f : MultiField) : Nat := min f.len bufLen

/-! ## Looking for the cursor -/

/-- The variables of the loop over the text, and what it finds at the cursor. -/
structure CursorScan where
  dbchar : Bool
  j : Bool
  jj : Bool
  x : Nat
  curcol : Nat
  prevDbchar : Bool
  currDbchar : Bool

namespace CursorScan

def byte (maxcol curr : Nat) (t : CursorScan) (i : Nat) (c : UInt8) : CursorScan :=
  let dbchar := !t.dbchar && isHigh c
  let x := if wraps maxcol t.x dbchar then 0 else t.x
  let here := i = curr
  { dbchar
    j := dbchar
    jj := t.j
    x := if c = 10 ∨ c = 13 then 0 else x + 1
    curcol := if here then x else t.curcol
    prevDbchar := if here then t.jj else t.prevDbchar
    currDbchar := if here then dbchar else t.currDbchar }

def scan (col maxcol curr : Nat) (buf : Bytes) : Nat → Option CursorScan
  | 0 => some ⟨false, false, false, col, 0, false, false⟩
  | i + 1 => do
    let t ← scan col maxcol curr buf i
    let c ← buf[i]?
    some (t.byte maxcol curr i c)

end CursorScan

/-! ## The function -/

/-- The memory at `buf`, the variables of the loop when a key is read, and whether it has been left.
A cursor or a length below zero makes the function fail. -/
structure Multi where
  buf : Bytes
  clen : Nat
  curr : Nat
  enabledbchar : Bool
  totalLine : Nat
  curcol : Nat
  prevDbchar : Bool
  currDbchar : Bool
  canInsert : Bool
  ended : Bool
  deriving DecidableEq

/-- `a - n` of an `int` that must not be negative -/
def lower (a n : Nat) : Option Nat := if n ≤ a then some (a - n) else none

theorem lower_le {a b n : Nat} (h : lower a n = some b) : b ≤ a := by
  obtain ⟨-, h⟩ := Option.ite_none_right_eq_some.mp h
  exact Option.some.inj h ▸ Nat.sub_le a n

/-- `strlcat(buf, t, size)` in memory -/
def strlcatTo (size : Nat) (buf t : Bytes) : Option Bytes := do
  let s ← cstr buf
  if size ≤ s.length then some buf
  else some (overlay buf s.length (t.take (size - 1 - s.length) ++ [0]))

/-! The loops that move the cursor. -/

/-- `for (; curr > 0 && i > 0 && buf[curr] != '\n'; curr--) i--` -/
def walkBack (buf : Bytes) : (i curr : Nat) → Option (Nat × Nat)
  | i, 0 => some (i, 0)
  | 0, curr => some (0, curr)
  | i + 1, curr + 1 => do
    let c ← buf[curr + 1]?
    if c = 10 then some (i + 1, curr + 1) else walkBack buf i curr

/-- `for (; curr > 0 && buf[curr] != '\n'; curr--) i++`, from `i` on -/
def lineBack (buf : Bytes) : (i curr : Nat) → Option (Nat × Nat)
  | i, 0 => some (i, 0)
  | i, curr + 1 => do
    let c ← buf[curr + 1]?
    if c = 10 then some (i, curr + 1) else lineBack buf (i + 1) curr

/-- `for (; curr < clen && i > 0 && buf[curr] != '\n'; curr++) i--` -/
def walkOn (buf : Bytes) (clen : Nat) : (i curr : Nat) → Option (Nat × Nat)
  | 0, curr => some (0, curr)
  | i + 1, curr =>
    if clen ≤ curr then some (i + 1, curr)
    else do
      let c ← buf[curr]?
      if c = 10 then some (i + 1, curr) else walkOn buf clen i (curr + 1)

namespace Multi
variable (f : MultiField) (s : Multi)

/-- What is done in front of each key. -/
def look : Option Multi := do
  let t ← CursorScan.scan f.col f.maxcol s.curr s.buf s.clen
  let t := if s.clen ≤ s.curr then { t with curcol := t.x, prevDbchar := t.jj, currDbchar := false } else t
  let text ← cstr s.buf
  some { s with
    curcol := t.curcol, prevDbchar := t.prevDbchar, currDbchar := t.currDbchar
    canInsert := !(f.size - 1 ≤ s.clen || f.maxcol ≤ t.x + 2 && f.maxline ≤ s.totalLine)
    totalLine := (showMultiline f.col f.maxcol none false text).count }

def start (buf : Bytes) (enabledbchar : Bool) : Option Multi :=
  if f.clearlabel then do
    let buf ← putTo f.size buf 0 0
    look f ⟨buf, 0, 0, enabledbchar, 0, 0, false, false, false, false⟩
  else do
    let text ← cstr buf
    let clen := text.length
    let curr := if f.size ≤ clen then f.size - 1 else clen
    let buf ← putTo f.size buf curr 0
    look f ⟨buf, clen, curr, enabledbchar, 0, 0, false, false, false, false⟩

def finish : Option Multi := do
  let buf ← putTo f.size s.buf s.clen 0
  some { s with buf, ended := true }

def answer (c : UInt8) : Option Multi := do
  let buf ← putTo f.size s.buf 0 c
  finish f { s with buf, clen := 1 }

/-- `strlcpy(tmp, buf + from, n)` -/
def copyFrom («from» n : Nat) : Option Bytes := do
  let text ← cstr (s.buf.drop «from»)
  some (text.take (n - 1))

/-- The text from a place on is put where the cursor is. -/
def close (clen curr «from» : Nat) : Option Multi := do
  let tmp ← s.copyFrom «from» (bufLen - 1)
  let buf ← putTo f.size s.buf curr 0
  let buf ← strlcatTo f.size buf tmp
  some { s with buf, curr, clen }

def backspace : Option Multi :=
  if s.curr = 0 then some s
  else do
    let n := if s.enabledbchar && s.prevDbchar then 2 else 1
    let curr ← lower s.curr n
    let clen ← lower s.clen n
    s.close f clen curr s.curr

def delete : Option Multi :=
  if s.clen ≤ s.curr then some s
  else
    let n := if s.enabledbchar && s.currDbchar && 2 ≤ s.clen - s.curr then 2 else 1
    s.close f (s.clen - n) s.curr (s.curr + n)

/-- `if (curr > 0 && buf[curr] == '\n') curr--` -/
def fromFeed : Option Nat :=
  if s.curr = 0 then some 0
  else do
    let c ← s.buf[s.curr]?
    some (if c = 10 then s.curr - 1 else s.curr)

def beginOfLine : Option Multi := do
  let curr ← s.fromFeed
  let (_, curr) ← lineBack s.buf 0 curr
  let c ← s.buf[curr]?
  some { s with curr := if c = 10 then curr + 1 else curr }

def endOfLine : Option Multi := do
  let (_, curr) ← walkOn s.buf s.clen (s.clen - s.curr) s.curr
  some { s with curr }

def up : Option Multi := do
  let curr ← s.fromFeed
  let (i, curr) ← walkBack s.buf f.maxcol curr
  if i = 0 ∨ curr = 0 then some { s with curr }
  else do
    let (i, curr) ← lineBack s.buf 0 (curr - 1)
    let curr := if 0 < curr then curr + 1 else 0
    let lineOffset := if curr = 0 then s.curcol - f.col else s.curcol
    let (_, curr) ← walkOn s.buf s.clen (lineOffset + i / f.maxcol * f.maxcol) curr
    let c ← s.buf[curr]?
    let curr ← lower curr (if c = 10 then 1 else 0)
    some { s with curr }

def down : Option Multi := do
  let (i, curr) ← walkOn s.buf s.clen f.maxcol s.curr
  if i = 0 ∨ s.clen ≤ curr then some { s with curr }
  else do
    let (_, curr) ← walkOn s.buf s.clen s.curcol (curr + 1)
    let c ← s.buf[curr]?
    some { s with curr := if c = 10 then curr - 1 else curr }

def left : Option Multi :=
  if s.curr = 0 then some s
  else do
    let curr ← lower s.curr (if s.enabledbchar && s.prevDbchar then 2 else 1)
    some { s with curr }

def right : Option Multi :=
  if s.clen ≤ s.curr then some s
  else some { s with curr := s.curr + if s.enabledbchar && s.currDbchar then 2 else 1 }

def insert (c : UInt8) : Option Multi :=
  if s.canInsert then do
    let buf ←
      if s.curr = s.clen then do
        let buf ← putTo f.size s.buf s.curr c
        putTo f.size buf (s.curr + 1) 0
      else do
        let tmp ← s.copyFrom s.curr f.size
        let buf ← putTo f.size s.buf s.curr c
        let buf ← putTo f.size buf (s.curr + 1) 0
        strcatTo f.size buf tmp
    some { s with buf, curr := s.curr + 1, clen := s.clen + 1 }
  else some s

/-- What is done for a key that does not end the input. -/
def key : InputKey → Option Multi
  | .toggleDbchar => some { s with enabledbchar := !s.enabledbchar }
  | .backspace => s.backspace f
  | .delete => s.delete f
  | .beginOfLine => s.beginOfLine
  | .endOfLine => s.endOfLine
  | .up => s.up f
  | .down => s.down f
  | .left => s.left
  | .right => s.right
  | .newline => if s.canInsert && s.totalLine < f.maxline then s.insert f 10 else some s
  | .print c => s.insert f c
  | _ => some s

def step (k : KeyPress) : Option Multi :=
  if s.ended then some s
  else
    match k.answer with
    | some c => s.answer f c
    | none =>
      match multiGetdataKey k with
      | .enter => s.finish f
      | key => do
        let s ← s.key f key
        s.look f

end Multi

/-! ## What should hold -/

/-- The place is between the two bytes of a character; a line feed is not part of one. -/
def cutsChar (text : Bytes) (i : Nat) : Bool :=
  endsOpen isHigh (text.take i) && text[i]?.any (· ≠ 10)

/-- The last line feed up to a place, or the start of the text. -/
def lastFeed (text : Bytes) : Nat → Nat
  | 0 => 0
  | i + 1 => if text[i + 1]? = some 10 then i + 1 else lastFeed text i

/-- The first line feed from a place on, or the end of the text. -/
def lineEnd (text : Bytes) (i : Nat) : Nat := i + ((text.drop i).takeWhile (· ≠ 10)).length

namespace Multi

/-- The place `maxcol` bytes in front of the cursor, or else as many bytes into the line above as the
column of the cursor says; there is none in front of a line feed that starts the text. -/
def placeAbove (f : MultiField) (s : Multi) (text : Bytes) : Option Nat :=
  let curr := if text[s.curr]? = some 10 then s.curr - 1 else s.curr
  let feed := lastFeed text curr
  if f.maxcol ≤ curr - feed then some (curr - f.maxcol)
  else if feed = 0 then some 0
  else
    let feed' := lastFeed text (feed - 1)
    let first := if 0 < feed' then feed' + 1 else 0
    let offset := if first = 0 then s.curcol - f.col else s.curcol
    let place := min (first + (offset + (feed - 1 - feed') / f.maxcol * f.maxcol)) (lineEnd text first)
    lower place (if text[place]? = some 10 then 1 else 0)

/-- The place `maxcol` bytes behind the cursor, or else as many bytes into the line below as the column
of the cursor says. -/
def placeBelow (f : MultiField) (s : Multi) (text : Bytes) : Nat :=
  let stop := lineEnd text s.curr
  if f.maxcol ≤ stop - s.curr then s.curr + f.maxcol
  else if text.length ≤ stop then stop
  else
    let place := min (stop + 1 + s.curcol) (lineEnd text (stop + 1))
    if text[place]? = some 10 then place - 1 else place

/-- Nothing goes wrong with a key: the place above is there, the places above and below do not cut a
character, and the cursor does not move to the right over half a character at the end. -/
def Safe (f : MultiField) (s : Multi) (k : KeyPress) : Prop :=
  s.ended = false → k.answer = none → ∀ text, cstr s.buf = some text →
    match multiGetdataKey k with
    | .up => ∃ place, s.placeAbove f text = some place ∧
        (s.enabledbchar = true → cutsChar text place = false)
    | .down => s.enabledbchar = true → cutsChar text (s.placeBelow f text) = false
    | .right => s.enabledbchar = true → s.curr + 1 = s.clen →
        endsOpen isHigh (text.take s.clen) = false
    | _ => True

/-- The buffer holds a text of the length, with the cursor in it, and what has been found at the
cursor is right. -/
structure Sound (f : MultiField) (s : Multi) (text : Bytes) : Prop where
  size : f.size ≤ s.buf.length
  holds : cstr s.buf = some text
  clen : s.clen = text.length
  lt : s.clen + 1 ≤ f.size
  curr : s.ended = false → s.curr ≤ s.clen
  prev : s.ended = false → s.prevDbchar = endsOpen isHigh (text.take (s.curr - 1))
  current : s.ended = false → s.curr < s.clen →
    s.currDbchar = endsOpen isHigh (text.take (s.curr + 1))
  room : s.ended = false → s.canInsert = true → s.clen < f.size - 1

end Multi

/-- The keys that only move the cursor. -/
def InputKey.isMove : InputKey → Bool
  | .left | .right | .up | .down | .beginOfLine | .endOfLine => true
  | _ => false

/-! ## Lines of a text -/

section
variable {text buf : Bytes} {i k n curr : Nat} {c : UInt8}

theorem endsOpen_of_feed (h : text[i]? = some 10) : endsOpen isHigh (text.take (i + 1)) = false := by
  rw [endsOpen_take_succ h]
  rfl

theorem cutsChar_of_closed (h : endsOpen isHigh (text.take i) = false) : cutsChar text i = false := by
  rw [cutsChar, h, Bool.false_and]

theorem lastFeed_le (text : Bytes) (i : Nat) : lastFeed text i ≤ i := by
  induction i with
  | zero => exact Nat.le_refl 0
  | succ i ih =>
    rw [lastFeed]
    split
    · exact Nat.le_refl _
    · exact Nat.le_succ_of_le ih

theorem lastFeed_feed (h : 0 < lastFeed text i) : text[lastFeed text i]? = some 10 := by
  induction i with
  | zero => exact absurd h (Nat.lt_irrefl 0)
  | succ i ih =>
    rw [lastFeed] at h ⊢
    split
    · assumption
    case isFalse hnot =>
      rw [if_neg hnot] at h
      exact ih h

theorem lineEnd_of_feed (h : text[i]? = some 10) : lineEnd text i = i := by
  obtain ⟨hlt, hget⟩ := List.getElem?_eq_some_iff.mp h
  rw [lineEnd, List.drop_eq_getElem_cons hlt, hget]
  rfl

theorem lineEnd_of_ne (h : text[i]? = some c) (hc : c ≠ 10) : lineEnd text i = lineEnd text (i + 1) := by
  obtain ⟨hlt, hget⟩ := List.getElem?_eq_some_iff.mp h
  rw [lineEnd, List.drop_eq_getElem_cons hlt, hget,
    List.takeWhile_cons_of_pos (p := fun x => decide (x ≠ 10)) (decide_eq_true hc), List.length_cons,
    lineEnd]
  omega

theorem lineEnd_of_le (h : text.length ≤ i) : lineEnd text i = i := by
  rw [lineEnd, List.drop_eq_nil_of_le h]
  rfl

theorem le_lineEnd (text : Bytes) (i : Nat) : i ≤ lineEnd text i := Nat.le_add_right _ _

theorem lineEnd_le (h : i ≤ text.length) : lineEnd text i ≤ text.length := by
  have hle : ((text.drop i).takeWhile (· ≠ 10)).length ≤ (text.drop i).length :=
    (List.takeWhile_sublist _).length_le
  rw [List.length_drop] at hle
  rw [lineEnd]
  omega

/-- A line ends with a line feed or at the end of the text. -/
theorem cutsChar_lineEnd (text : Bytes) (i : Nat) : cutsChar text (lineEnd text i) = false := by
  induction hn : text.length - i generalizing i with
  | zero =>
    have hle : text.length ≤ i := by omega
    rw [lineEnd_of_le hle, cutsChar, List.getElem?_eq_none hle, Option.any_none, Bool.and_false]
  | succ n ih =>
    cases hc : text[i]? with
    | none =>
      have hle := List.getElem?_eq_none_iff.mp hc
      omega
    | some c =>
      by_cases h10 : c = 10
      · subst h10
        rw [lineEnd_of_feed hc, cutsChar, hc]
        exact Bool.and_false _
      · rw [lineEnd_of_ne hc h10]
        exact ih (i + 1) (by omega)

/-! ### The loops -/

/-- What is at a place of the memory up to the end of the text. -/
theorem exists_byte (h : cstr buf = some text) (hi : i ≤ text.length) :
    ∃ c, buf[i]? = some c ∧ (c = 10 ↔ text[i]? = some 10) := by
  rcases Nat.lt_or_eq_of_le hi with hlt | rfl
  · refine ⟨text[i], ?_, ?_⟩
    · rw [getElem?_of_cstr h hlt, List.getElem?_eq_getElem hlt]
    · rw [List.getElem?_eq_getElem hlt, Option.some_inj]
  · refine ⟨0, getElem?_length_of_cstr h, ?_⟩
    rw [List.getElem?_eq_none (Nat.le_refl _)]
    exact iff_of_false (by decide) fun h => by cases h

theorem lineBack_eq (h : cstr buf = some text) (hcurr : curr ≤ text.length) (i : Nat) :
    lineBack buf i curr = some (i + (curr - lastFeed text curr), lastFeed text curr) := by
  induction curr generalizing i with
  | zero => rfl
  | succ curr ih =>
    obtain ⟨c, hc, h10⟩ := exists_byte h hcurr
    rw [lineBack, hc, lastFeed, Option.bind_eq_bind, Option.bind_some]
    by_cases hfeed : c = 10
    · rw [if_pos hfeed, if_pos (h10.mp hfeed), Nat.sub_self]
      rfl
    · have hle := lastFeed_le text curr
      rw [if_neg hfeed, if_neg fun h => hfeed (h10.mpr h), ih (Nat.le_of_succ_le hcurr),
        Nat.succ_sub hle, Nat.add_right_comm]
      rfl

theorem walkBack_eq (h : cstr buf = some text) (hcurr : curr ≤ text.length) (i : Nat) :
    walkBack buf i curr = some (if i ≤ curr - lastFeed text curr then (0, curr - i)
      else (i - (curr - lastFeed text curr), lastFeed text curr)) := by
  induction curr generalizing i with
  | zero =>
    cases i with
    | zero => rfl
    | succ i => rfl
  | succ curr ih =>
    cases i with
    | zero => rfl
    | succ i =>
      obtain ⟨c, hc, h10⟩ := exists_byte h hcurr
      rw [walkBack, hc, lastFeed, Option.bind_eq_bind, Option.bind_some]
      by_cases hfeed : c = 10
      · rw [if_pos hfeed, if_pos (h10.mp hfeed), Nat.sub_self]
        rfl
      · have hle := lastFeed_le text curr
        rw [if_neg hfeed, if_neg fun h => hfeed (h10.mpr h), ih (Nat.le_of_succ_le hcurr),
          Nat.succ_sub hle, Nat.add_sub_add_right, Nat.add_sub_add_right]
        exact congrArg some (if_congr Nat.succ_le_succ_iff.symm rfl rfl)

theorem walkOn_eq (h : cstr buf = some text) (hcurr : curr ≤ text.length) (n : Nat) :
    walkOn buf text.length n curr = some (if n ≤ lineEnd text curr - curr then (0, curr + n)
      else (n - (lineEnd text curr - curr), lineEnd text curr)) := by
  induction n generalizing curr with
  | zero => rfl
  | succ n ih =>
    rw [walkOn]
    by_cases hend : text.length ≤ curr
    · rw [if_pos hend, lineEnd_of_le hend, Nat.sub_self]
      rfl
    · have hlt := Nat.lt_of_not_le hend
      obtain ⟨c, hc, h10⟩ := exists_byte h hcurr
      rw [if_neg hend, hc, Option.bind_eq_bind, Option.bind_some]
      by_cases hfeed : c = 10
      · rw [if_pos hfeed, lineEnd_of_feed (h10.mp hfeed), Nat.sub_self]
        rfl
      · have hget : text[curr]? = some c := by rw [← getElem?_of_cstr h hlt, hc]
        have hle := le_lineEnd text (curr + 1)
        rw [if_neg hfeed, ih hlt, lineEnd_of_ne hget hfeed]
        have hsub : lineEnd text (curr + 1) - curr = lineEnd text (curr + 1) - (curr + 1) + 1 := by omega
        rw [hsub, Nat.add_sub_add_right, show curr + (n + 1) = curr + 1 + n by omega]
        exact congrArg some (if_congr Nat.succ_le_succ_iff.symm rfl rfl)

/-- Where a walk of some bytes gets to on the line. -/
theorem walkOn_min (h : cstr buf = some text) (hcurr : curr ≤ text.length) (n : Nat) :
    ∃ i, walkOn buf text.length n curr = some (i, min (curr + n) (lineEnd text curr)) := by
  have hle := le_lineEnd text curr
  rw [walkOn_eq h hcurr n]
  split
  case isTrue hnear =>
    refine ⟨0, ?_⟩
    rw [Nat.min_eq_left (by omega)]
  case isFalse hfar =>
    refine ⟨n - (lineEnd text curr - curr), ?_⟩
    rw [Nat.min_eq_right (by omega)]

end

/-! ## Looking for the cursor, and the keys one by one -/

/-- What has been found in front of a place. -/
structure CursorScan.Right (text : Bytes) (curr i : Nat) (t : CursorScan) : Prop where
  dbchar : t.dbchar = endsOpen isHigh (text.take i)
  j : t.j = endsOpen isHigh (text.take i)
  jj : t.jj = endsOpen isHigh (text.take (i - 1))
  here : curr < i → t.prevDbchar = endsOpen isHigh (text.take (curr - 1)) ∧
    t.currDbchar = endsOpen isHigh (text.take (curr + 1))

section
variable {text buf : Bytes} {i n curr col maxcol : Nat} {c : UInt8}

theorem CursorScan.Right.byte {t : CursorScan} (R : t.Right text curr i) (hc : text[i]? = some c) :
    (t.byte maxcol curr i c).Right text curr (i + 1) := by
  have hdb : (!t.dbchar && isHigh c) = endsOpen isHigh (text.take (i + 1)) := by
    rw [endsOpen_take_succ hc, R.dbchar, Bool.and_comm]
  refine ⟨hdb, hdb, R.j, fun hlt => ?_⟩
  rw [CursorScan.byte]
  dsimp only
  rcases Nat.lt_or_eq_of_le (Nat.le_of_lt_succ hlt) with hlt | rfl
  · have hne : i ≠ curr := Nat.ne_of_gt hlt
    rw [if_neg hne, if_neg hne]
    exact R.here hlt
  · rw [if_pos rfl, if_pos rfl]
    exact ⟨R.jj, hdb⟩

theorem CursorScan.scan_spec (h : cstr buf = some text) (hi : i ≤ text.length) :
    ∃ t, CursorScan.scan col maxcol curr buf i = some t ∧ t.Right text curr i := by
  induction i with
  | zero => exact ⟨_, rfl, rfl, rfl, rfl, fun hlt => absurd hlt (Nat.not_lt_zero _)⟩
  | succ i ih =>
    obtain ⟨t, ht, R⟩ := ih (Nat.le_of_succ_le hi)
    have hc : text[i]? = some text[i] := List.getElem?_eq_getElem hi
    refine ⟨t.byte maxcol curr i text[i], ?_, R.byte hc⟩
    rw [CursorScan.scan, ht, getElem?_of_cstr h hi, hc]
    rfl

theorem strlcatTo_eq {size : Nat} {s t : Bytes} (h : cstr buf = some s)
    (hroom : s.length + t.length < size) : strlcatTo size buf t = strcatTo size buf t := by
  rw [strlcatTo, strcatTo, h]
  simp only [Option.bind_eq_bind, Option.bind_some]
  rw [if_neg (by omega), if_pos hroom, List.take_of_length_le (by omega)]

end

namespace Multi
variable {f : MultiField} {s s' : Multi} {text : Bytes} {k : KeyPress} {c : UInt8}

/-- The buffer holds a text of the length, with the cursor in it. -/
structure Contains (f : MultiField) (s : Multi) (text : Bytes) : Prop where
  size : f.size ≤ s.buf.length
  holds : cstr s.buf = some text
  clen : s.clen = text.length
  lt : s.clen + 1 ≤ f.size
  curr : s.curr ≤ s.clen

theorem Sound.contains (S : Sound f s text) (hended : s.ended = false) : Contains f s text :=
  ⟨S.size, S.holds, S.clen, S.lt, S.curr hended⟩

theorem Contains.look (C : Contains f s text) :
    ∃ s', s.look f = some s' ∧ s'.buf = s.buf ∧ s'.curr = s.curr ∧ Sound f s' text := by
  obtain ⟨t, ht, R⟩ := @CursorScan.scan_spec text s.buf s.clen s.curr f.col f.maxcol C.holds
    (Nat.le_of_eq C.clen)
  rw [Multi.look, ht, C.holds]
  refine ⟨_, rfl, rfl, rfl, C.size, C.holds, C.clen, C.lt, fun _ => C.curr, fun _ => ?_,
    fun _ hlt => ?_, fun _ hroom => ?_⟩
  · dsimp only
    split
    case isTrue hend =>
      dsimp only
      rw [R.jj, Nat.le_antisymm C.curr hend]
    case isFalse hnot => exact (R.here (Nat.lt_of_not_le hnot)).1
  · dsimp only at hlt ⊢
    rw [if_neg (Nat.not_le.mpr hlt)]
    exact (R.here hlt).2
  · dsimp only at hroom ⊢
    rw [Bool.not_eq_true', Bool.or_eq_false_iff, decide_eq_false_iff_not] at hroom
    exact Nat.lt_of_not_le hroom.1

namespace Contains

theorem move (C : Contains f s text) {place : Nat} (hle : place ≤ s.clen) :
    Contains f { s with curr := place } text :=
  ⟨C.size, C.holds, C.clen, C.lt, hle⟩

theorem copyFrom (C : Contains f s text) {i n : Nat} (hi : i ≤ s.clen) (hn : s.clen - i < n) :
    s.copyFrom i n = some (text.drop i) := by
  have hlen : (text.drop i).length ≤ n - 1 := by
    rw [List.length_drop, ← C.clen]
    omega
  rw [Multi.copyFrom, cstr_drop C.holds (C.clen ▸ hi), Option.bind_eq_bind, Option.bind_some,
    List.take_of_length_le hlen]

theorem close (C : Contains f s text) {i j : Nat} (hij : i ≤ j) (hj : j ≤ s.clen) (hpos : 0 < j) :
    ∃ s', s.close f (s.clen - (j - i)) i j = some s' ∧ s'.ended = s.ended ∧
      ∃ text', Contains f s' text' := by
  have hsize : f.size ≤ bufLen := Nat.min_le_right _ _
  have hclen := C.clen
  have hlt := C.lt
  obtain ⟨buf', hput, hcat, hholds, hlen⟩ := erase_spec C.holds hij (hclen ▸ hj) (hclen ▸ hlt) C.size
  have hcut := cstr_set_zero C.holds (Nat.le_trans hij (hclen ▸ hj))
  have hroom : (text.take i).length + (text.drop j).length < f.size := by
    rw [List.length_take, List.length_drop]
    omega
  have htmp := C.copyFrom hj (n := bufLen - 1) (by omega)
  rw [Multi.close, htmp, Option.bind_eq_bind, Option.bind_some, hput]
  simp only [Option.bind_some, strlcatTo_eq hcut hroom, hcat]
  refine ⟨_, rfl, rfl, _, hlen ▸ C.size, hholds, ?_, ?_, ?_⟩
  · dsimp only
    rw [List.length_append, List.length_take, List.length_drop]
    omega
  · dsimp only
    omega
  · dsimp only
    omega

end Contains

namespace Sound

theorem backspace (S : Sound f s text) (hended : s.ended = false) :
    ∃ s', s.backspace f = some s' ∧ s'.ended = s.ended ∧ ∃ text', Contains f s' text' := by
  have C := S.contains hended
  rw [Multi.backspace]
  by_cases hzero : s.curr = 0
  · rw [if_pos hzero]
    exact ⟨s, rfl, rfl, text, C⟩
  · rw [if_neg hzero]
    dsimp only
    have hn : (if (s.enabledbchar && s.prevDbchar) = true then 2 else 1) ≤ s.curr := by
      split
      case isTrue hopen =>
        rw [Bool.and_eq_true, S.prev hended] at hopen
        refine Nat.lt_of_le_of_ne (Nat.pos_of_ne_zero hzero) fun hone => ?_
        rw [← hone] at hopen
        cases hopen.2
      case isFalse => exact Nat.pos_of_ne_zero hzero
    generalize (if (s.enabledbchar && s.prevDbchar) = true then 2 else 1) = n at hn
    have hclose := C.close (Nat.sub_le s.curr n) C.curr (Nat.pos_of_ne_zero hzero)
    rw [Nat.sub_sub_self hn] at hclose
    have hcurr : lower s.curr n = some (s.curr - n) := if_pos hn
    have hclen : lower s.clen n = some (s.clen - n) := if_pos (Nat.le_trans hn C.curr)
    rw [hcurr, Option.bind_eq_bind, Option.bind_some, hclen]
    exact hclose

theorem delete (S : Sound f s text) (hended : s.ended = false) :
    ∃ s', s.delete f = some s' ∧ s'.ended = s.ended ∧ ∃ text', Contains f s' text' := by
  have C := S.contains hended
  rw [Multi.delete]
  by_cases hend : s.clen ≤ s.curr
  · rw [if_pos hend]
    exact ⟨s, rfl, rfl, text, C⟩
  · rw [if_neg hend]
    dsimp only
    have hn : s.curr + (if (s.enabledbchar && s.currDbchar && decide (2 ≤ s.clen - s.curr)) = true then 2
        else 1) ≤ s.clen ∧ 0 < (if (s.enabledbchar && s.currDbchar &&
          decide (2 ≤ s.clen - s.curr)) = true then 2 else 1) := by
      split
      case isTrue htwo =>
        rw [Bool.and_eq_true, decide_eq_true_eq] at htwo
        omega
      case isFalse => omega
    generalize (if (s.enabledbchar && s.currDbchar && decide (2 ≤ s.clen - s.curr)) = true then 2
      else 1) = n at hn
    have hclose := C.close (Nat.le_add_right s.curr n) hn.1 (Nat.lt_of_lt_of_le hn.2 (Nat.le_add_left _ _))
    rwa [Nat.add_sub_cancel_left] at hclose

theorem insert (S : Sound f s text) (hended : s.ended = false) (hc : c ≠ 0) :
    ∃ s', s.insert f c = some s' ∧ s'.ended = s.ended ∧ ∃ text', Contains f s' text' := by
  have C := S.contains hended
  rw [Multi.insert]
  by_cases hcan : s.canInsert = true
  · have hroom : s.clen + 1 < f.size := Nat.add_lt_of_lt_sub (S.room hended hcan)
    have hclen := C.clen
    rw [if_pos hcan]
    by_cases hend : s.curr = s.clen
    · have hlt : s.curr + 1 < f.size := hend ▸ hroom
      have hput : putTo f.size s.buf s.curr c = some (s.buf.set s.curr c) :=
        putTo_eq (Nat.lt_of_succ_lt hlt)
      have hput' : putTo f.size (s.buf.set s.curr c) (s.curr + 1) 0 =
          some ((s.buf.set s.curr c).set (s.curr + 1) 0) := putTo_eq hlt
      have hholds := cstr_set_set C.holds (Nat.le_of_eq (hend.trans hclen))
        (Nat.lt_of_lt_of_le hlt C.size) hc
      rw [if_pos hend, hput]
      simp only [Option.bind_eq_bind, Option.bind_some, hput']
      refine ⟨_, rfl, rfl, _, ?_, hholds, ?_, hroom, Nat.succ_le_succ C.curr⟩
      · rw [List.length_set, List.length_set]
        exact C.size
      · dsimp only
        rw [List.length_append, List.length_take, List.length_singleton]
        omega
    · have hle := C.curr
      obtain ⟨buf', hput, hput', hcat, hholds, hlen⟩ := insert_spec C.holds (hclen ▸ hle) hc
        (hclen ▸ hroom) C.size
      have htmp := C.copyFrom hle (n := f.size) (by omega)
      rw [if_neg hend, htmp]
      simp only [Option.bind_eq_bind, Option.bind_some, hput, hput', hcat]
      refine ⟨_, rfl, rfl, _, hlen ▸ C.size, hholds, ?_, hroom, Nat.succ_le_succ C.curr⟩
      dsimp only
      rw [List.length_append, List.length_append, List.length_take, List.length_drop,
        List.length_singleton]
      omega
  · rw [if_neg hcan]
    exact ⟨s, rfl, rfl, text, C⟩

/-! ### Moving the cursor -/

theorem fromFeed (S : Sound f s text) (hended : s.ended = false) :
    s.fromFeed = some (if text[s.curr]? = some 10 then s.curr - 1 else s.curr) := by
  rw [Multi.fromFeed]
  by_cases hzero : s.curr = 0
  · rw [if_pos hzero, hzero, ite_self]
  · obtain ⟨c, hc, h10⟩ := exists_byte S.holds (S.clen ▸ S.curr hended)
    rw [if_neg hzero, hc]
    exact congrArg some (if_congr h10 rfl rfl)

theorem fromFeed_le (s : Multi) (text : Bytes) :
    (if text[s.curr]? = some 10 then s.curr - 1 else s.curr) ≤ s.curr := by
  split
  · exact Nat.sub_le _ _
  · exact Nat.le_refl _

theorem beginOfLine (S : Sound f s text) (hended : s.ended = false) :
    ∃ place, s.beginOfLine = some { s with curr := place } ∧ place ≤ s.clen ∧
      cutsChar text place = false := by
  have hle := Nat.le_trans (fromFeed_le s text) (S.curr hended)
  rw [Multi.beginOfLine, S.fromFeed hended]
  generalize (if text[s.curr]? = some 10 then s.curr - 1 else s.curr) = curr at hle
  have hfeed := Nat.le_trans (lastFeed_le text curr) (S.clen ▸ hle)
  obtain ⟨c, hc, h10⟩ := exists_byte S.holds hfeed
  rw [Option.bind_eq_bind, Option.bind_some, lineBack_eq S.holds (S.clen ▸ hle)]
  simp only [Option.bind_eq_bind, Option.bind_some, hc]
  refine ⟨_, rfl, ?_⟩
  by_cases hten : c = 10
  · rw [if_pos hten]
    have hget := h10.mp hten
    refine ⟨?_, cutsChar_of_closed (endsOpen_of_feed hget)⟩
    rw [S.clen]
    exact (List.getElem?_eq_some_iff.mp hget).1
  · have hzero : lastFeed text curr = 0 := Nat.eq_zero_of_not_pos fun hpos =>
      hten (h10.mpr (lastFeed_feed hpos))
    rw [if_neg hten, hzero]
    exact ⟨Nat.zero_le _, rfl⟩

theorem endOfLine (S : Sound f s text) (hended : s.ended = false) :
    ∃ place, s.endOfLine = some { s with curr := place } ∧ place ≤ s.clen ∧
      cutsChar text place = false := by
  have hcurr := S.curr hended
  have hle : lineEnd text s.curr ≤ text.length := lineEnd_le (S.clen ▸ hcurr)
  have hge := le_lineEnd text s.curr
  have hclen := S.clen
  refine ⟨lineEnd text s.curr, ?_, hclen ▸ hle, cutsChar_lineEnd text s.curr⟩
  have hwalk := walkOn_eq S.holds (hclen ▸ hcurr) (s.clen - s.curr)
  rw [hclen] at hwalk
  rw [Multi.endOfLine, hclen, hwalk]
  simp only [Option.bind_eq_bind, Option.bind_some]
  split
  case isTrue hfar =>
    have heq : s.curr + (text.length - s.curr) = lineEnd text s.curr := by omega
    rw [heq]
  case isFalse => rfl

theorem left (S : Sound f s text) (hended : s.ended = false) :
    ∃ place, s.left = some { s with curr := place } ∧ place ≤ s.clen ∧
      (s.enabledbchar = true → cutsChar text place = false) := by
  have hcurr := S.curr hended
  have hprev := S.prev hended
  rw [Multi.left]
  by_cases hzero : s.curr = 0
  · rw [if_pos hzero]
    refine ⟨s.curr, rfl, hcurr, fun _ => ?_⟩
    rw [hzero]
    rfl
  · rw [if_neg hzero]
    obtain ⟨i, hi⟩ := Nat.exists_eq_succ_of_ne_zero hzero
    rw [hi, Nat.succ_sub_one] at hprev
    by_cases hopen : (s.enabledbchar && s.prevDbchar) = true
    · -- The character in front of the cursor has two bytes.
      rw [if_pos hopen]
      rw [Bool.and_eq_true, hprev] at hopen
      cases i with
      | zero => cases hopen.2
      | succ i =>
        have hlower : lower s.curr 2 = some i := by
          rw [hi]
          exact if_pos (Nat.le_add_left 2 i)
        have hlt : i < text.length := by
          rw [← S.clen]
          omega
        have hc : text[i]? = some text[i] := List.getElem?_eq_getElem hlt
        have hclosed := hopen.2
        rw [endsOpen_take_succ hc, Bool.and_eq_true, Bool.not_eq_true'] at hclosed
        rw [hlower]
        exact ⟨i, rfl, by omega, fun _ => cutsChar_of_closed hclosed.2⟩
    · have hlower : lower s.curr 1 = some i := by
        rw [hi]
        exact if_pos (Nat.le_add_left 1 i)
      rw [if_neg hopen, hlower]
      refine ⟨i, rfl, by omega, fun hdb => cutsChar_of_closed ?_⟩
      rw [hdb, Bool.true_and, hprev, Bool.not_eq_true] at hopen
      exact hopen

theorem right (S : Sound f s text) (hended : s.ended = false)
    (hsafe : s.enabledbchar = true → s.curr + 1 = s.clen → endsOpen isHigh (text.take s.clen) = false) :
    ∃ place, s.right = some { s with curr := place } ∧ place ≤ s.clen ∧
      (s.enabledbchar = true → cutsChar text place = false) := by
  have hcurr := S.curr hended
  have hclen := S.clen
  rw [Multi.right]
  by_cases hend : s.clen ≤ s.curr
  · rw [if_pos hend]
    refine ⟨s.curr, rfl, hcurr, fun _ => ?_⟩
    rw [cutsChar, List.getElem?_eq_none (hclen ▸ hend), Option.any_none, Bool.and_false]
  · have hlt := Nat.lt_of_not_le hend
    have hcurrent := S.current hended hlt
    rw [if_neg hend]
    by_cases hopen : (s.enabledbchar && s.currDbchar) = true
    · rw [if_pos hopen]
      rw [Bool.and_eq_true, hcurrent] at hopen
      have hne : s.curr + 1 ≠ s.clen := fun heq => by
        have hclosed := hsafe hopen.1 heq
        rw [← heq, hopen.2] at hclosed
        cases hclosed
      have hlt₁ : s.curr + 1 < text.length := by omega
      have hc : text[s.curr + 1]? = some text[s.curr + 1] := List.getElem?_eq_getElem hlt₁
      refine ⟨s.curr + 2, rfl, by omega, fun _ => cutsChar_of_closed ?_⟩
      rw [endsOpen_take_succ hc, hopen.2, Bool.not_true, Bool.and_false]
    · rw [if_neg hopen]
      refine ⟨s.curr + 1, rfl, hlt, fun hdb => cutsChar_of_closed ?_⟩
      rw [hdb, Bool.true_and, hcurrent, Bool.not_eq_true] at hopen
      exact hopen

theorem up_eq (S : Sound f s text) (hended : s.ended = false) :
    s.up f = (s.placeAbove f text).map fun place => { s with curr := place } := by
  have hclen := S.clen
  have hle := Nat.le_trans (fromFeed_le s text) (S.curr hended)
  rw [Multi.up, S.fromFeed hended, placeAbove]
  generalize (if text[s.curr]? = some 10 then s.curr - 1 else s.curr) = curr at hle
  have hfeed := lastFeed_le text curr
  rw [Option.bind_eq_bind, Option.bind_some, walkBack_eq S.holds (hclen ▸ hle)]
  simp only [Option.bind_eq_bind, Option.bind_some]
  generalize hk : lastFeed text curr = feed at hfeed
  by_cases hfar : f.maxcol ≤ curr - feed
  · rw [if_pos hfar, if_pos hfar]
    rfl
  · rw [if_neg hfar, if_neg hfar]
    dsimp only
    by_cases hzero : feed = 0
    · rw [if_pos (.inr hzero), if_pos hzero, hzero]
      rfl
    · have hnot : ¬(f.maxcol - (curr - feed) = 0 ∨ feed = 0) := by omega
      have hle' : feed - 1 ≤ text.length := by omega
      have hfeed' := lastFeed_le text (feed - 1)
      rw [if_neg hnot, if_neg hzero, lineBack_eq S.holds hle']
      simp only [Option.bind_some, Nat.zero_add]
      generalize lastFeed text (feed - 1) = feed' at hfeed'
      have hfirst : (if 0 < feed' then feed' + 1 else 0) ≤ text.length := by
        split
        · omega
        · exact Nat.zero_le _
      generalize (if 0 < feed' then feed' + 1 else 0) = first at hfirst
      obtain ⟨i, hwalk⟩ := walkOn_min S.holds hfirst ((if first = 0 then s.curcol - f.col else s.curcol) +
        (feed - 1 - feed') / f.maxcol * f.maxcol)
      have hplace : min (first + ((if first = 0 then s.curcol - f.col else s.curcol) +
          (feed - 1 - feed') / f.maxcol * f.maxcol)) (lineEnd text first) ≤ text.length :=
        Nat.le_trans (Nat.min_le_right _ _) (lineEnd_le hfirst)
      generalize min (first + ((if first = 0 then s.curcol - f.col else s.curcol) +
        (feed - 1 - feed') / f.maxcol * f.maxcol)) (lineEnd text first) = place at hwalk hplace
      obtain ⟨c, hc, h10⟩ := exists_byte S.holds hplace
      rw [hclen, hwalk]
      simp only [Option.bind_some, hc]
      rw [if_congr h10 rfl rfl]
      cases lower place (if text[place]? = some 10 then 1 else 0) with
      | none => rfl
      | some place => rfl

theorem placeAbove_le (S : Sound f s text) (hended : s.ended = false) {place : Nat}
    (h : s.placeAbove f text = some place) : place ≤ s.clen := by
  have hle := Nat.le_trans (fromFeed_le s text) (S.curr hended)
  rw [placeAbove] at h
  generalize (if text[s.curr]? = some 10 then s.curr - 1 else s.curr) = curr at hle h
  dsimp only at h
  have hfeed := lastFeed_le text curr
  split at h
  · obtain rfl := Option.some.inj h
    exact Nat.le_trans (Nat.sub_le _ _) hle
  · split at h
    · obtain rfl := Option.some.inj h
      exact Nat.zero_le _
    · have hfeed' := lastFeed_le text (lastFeed text curr - 1)
      have hfirst : (if 0 < lastFeed text (lastFeed text curr - 1) then
          lastFeed text (lastFeed text curr - 1) + 1 else 0) ≤ text.length := by
        rw [← S.clen]
        split
        · omega
        · exact Nat.zero_le _
      generalize (if 0 < lastFeed text (lastFeed text curr - 1) then
        lastFeed text (lastFeed text curr - 1) + 1 else 0) = first at hfirst h
      rw [S.clen]
      exact Nat.le_trans (lower_le h) (Nat.le_trans (Nat.min_le_right _ _) (lineEnd_le hfirst))

theorem down_eq (S : Sound f s text) (hended : s.ended = false) :
    s.down f = some { s with curr := s.placeBelow f text } ∧ s.placeBelow f text ≤ s.clen := by
  have hclen := S.clen
  have hcurr : s.curr ≤ text.length := hclen ▸ S.curr hended
  have hle := lineEnd_le hcurr
  have hge := le_lineEnd text s.curr
  rw [Multi.down, placeBelow, hclen, walkOn_eq S.holds hcurr]
  simp only [Option.bind_eq_bind, Option.bind_some]
  generalize lineEnd text s.curr = stop at hle hge
  by_cases hfar : f.maxcol ≤ stop - s.curr
  · rw [if_pos hfar, if_pos hfar]
    exact ⟨rfl, by omega⟩
  · rw [if_neg hfar, if_neg hfar]
    dsimp only
    by_cases hend : text.length ≤ stop
    · rw [if_pos (.inr hend), if_pos hend]
      exact ⟨rfl, hle⟩
    · have hnot : ¬(f.maxcol - (stop - s.curr) = 0 ∨ text.length ≤ stop) := by omega
      have hnext : stop + 1 ≤ text.length := Nat.lt_of_not_le hend
      obtain ⟨i, hwalk⟩ := walkOn_min S.holds hnext s.curcol
      have hplace : min (stop + 1 + s.curcol) (lineEnd text (stop + 1)) ≤ text.length :=
        Nat.le_trans (Nat.min_le_right _ _) (lineEnd_le hnext)
      generalize min (stop + 1 + s.curcol) (lineEnd text (stop + 1)) = place at hwalk hplace
      obtain ⟨c, hc, h10⟩ := exists_byte S.holds hplace
      rw [if_neg hnot, if_neg hend, hwalk]
      simp only [Option.bind_some, hc]
      rw [if_congr h10 rfl rfl]
      refine ⟨rfl, ?_⟩
      split
      · exact Nat.le_trans (Nat.sub_le _ _) hplace
      · exact hplace

/-! ### Steps -/

theorem of_ended (hended : s.ended = true) (hsize : f.size ≤ s.buf.length)
    (hholds : cstr s.buf = some text) (hclen : s.clen = text.length) (hlt : s.clen + 1 ≤ f.size) :
    Sound f s text where
  size := hsize
  holds := hholds
  clen := hclen
  lt := hlt
  curr h := by rw [hended] at h; cases h
  prev h := by rw [hended] at h; cases h
  current h := by rw [hended] at h; cases h
  room h := by rw [hended] at h; cases h

theorem finish (S : Sound f s text) : ∃ s' text', s.finish f = some s' ∧ Sound f s' text' := by
  have hput : putTo f.size s.buf s.clen 0 = some (s.buf.set s.clen 0) := putTo_eq S.lt
  have hholds := cstr_set_zero S.holds (Nat.le_of_eq S.clen)
  refine ⟨{ s with buf := s.buf.set s.clen 0, ended := true }, _, ?_, of_ended rfl ?_ hholds ?_ S.lt⟩
  · rw [Multi.finish, hput]
    rfl
  · rw [List.length_set]
    exact S.size
  · rw [List.length_take, S.clen, Nat.min_self]

theorem answer (S : Sound f s text) (hlen : 2 ≤ f.size) (hc : c ≠ 0) :
    ∃ s' text', s.answer f c = some s' ∧ Sound f s' text' := by
  have hput : putTo f.size s.buf 0 c = some (s.buf.set 0 c) :=
    putTo_eq (Nat.lt_of_lt_of_le (by decide) hlen)
  have hput' : putTo f.size (s.buf.set 0 c) 1 0 = some ((s.buf.set 0 c).set 1 0) := putTo_eq hlen
  have hholds := cstr_set_set S.holds (Nat.zero_le _) (Nat.lt_of_lt_of_le hlen S.size) hc
  refine ⟨{ s with buf := (s.buf.set 0 c).set 1 0, clen := 1, ended := true }, _, ?_,
    of_ended rfl ?_ hholds rfl hlen⟩
  · rw [Multi.answer, hput, Option.bind_eq_bind, Option.bind_some, Multi.finish]
    dsimp only
    rw [hput']
    rfl
  · rw [List.length_set, List.length_set]
    exact S.size

/-- A key that only moves the cursor. -/
theorem key_of_place (S : Sound f s text) (hended : s.ended = false) {place : Nat} {key : InputKey}
    (hkey : s.key f key = some { s with curr := place }) (hle : place ≤ s.clen)
    (hcut : s.enabledbchar = true → cutsChar text place = false) :
    ∃ s' text', s.key f key = some s' ∧ s'.ended = false ∧ Contains f s' text' ∧
      (key.isMove = true → s.enabledbchar = true → cutsChar text' s'.curr = false) :=
  ⟨_, text, hkey, hended, (S.contains hended).move hle, fun _ => hcut⟩

/-- A key that changes the text. -/
theorem key_of_change {key : InputKey} (hmove : key.isMove = false) (hended : s.ended = false)
    (h : ∃ s', s.key f key = some s' ∧ s'.ended = s.ended ∧ ∃ text', Contains f s' text') :
    ∃ s' text', s.key f key = some s' ∧ s'.ended = false ∧ Contains f s' text' ∧
      (key.isMove = true → s.enabledbchar = true → cutsChar text' s'.curr = false) := by
  obtain ⟨s', hs', hended', text', C⟩ := h
  refine ⟨s', text', hs', hended'.trans hended, C, fun h => ?_⟩
  rw [hmove] at h
  cases h

theorem key (S : Sound f s text) (hended : s.ended = false) (hanswer : k.answer = none)
    (hsafe : s.Safe f k) : ∃ s' text', s.key f (multiGetdataKey k) = some s' ∧ s'.ended = false ∧
      Contains f s' text' ∧ ((multiGetdataKey k).isMove = true → s.enabledbchar = true →
        cutsChar text' s'.curr = false) := by
  have hsafe := hsafe hended hanswer text S.holds
  have C := S.contains hended
  have hkeep : ∃ s', some s = some s' ∧ s'.ended = s.ended ∧ ∃ text', Contains f s' text' :=
    ⟨s, rfl, rfl, text, C⟩
  cases hkey : multiGetdataKey k with
  | toggleDbchar =>
    refine key_of_change rfl hended ⟨_, rfl, rfl, text, ?_⟩
    exact ⟨C.size, C.holds, C.clen, C.lt, C.curr⟩
  | backspace => exact key_of_change rfl hended (S.backspace hended)
  | delete => exact key_of_change rfl hended (S.delete hended)
  | newline =>
    refine key_of_change rfl hended ?_
    rw [Multi.key]
    split
    · exact S.insert hended (by decide)
    · exact hkeep
  | print c =>
    have hc : c ≠ 0 := KeyPress.ne_zero_of_decode (by simp [multiGetdataKeys]) hkey
    exact key_of_change rfl hended (S.insert hended hc)
  | beginOfLine =>
    obtain ⟨place, hplace, hle, hcut⟩ := S.beginOfLine hended
    exact S.key_of_place hended hplace hle fun _ => hcut
  | endOfLine =>
    obtain ⟨place, hplace, hle, hcut⟩ := S.endOfLine hended
    exact S.key_of_place hended hplace hle fun _ => hcut
  | left =>
    obtain ⟨place, hplace, hle, hcut⟩ := S.left hended
    exact S.key_of_place hended hplace hle hcut
  | right =>
    rw [hkey] at hsafe
    obtain ⟨place, hplace, hle, hcut⟩ := S.right hended hsafe
    exact S.key_of_place hended hplace hle hcut
  | up =>
    rw [hkey] at hsafe
    obtain ⟨place, hplace, hcut⟩ := hsafe
    have hup := S.up_eq hended
    rw [hplace] at hup
    exact S.key_of_place hended hup (S.placeAbove_le hended hplace) hcut
  | down =>
    rw [hkey] at hsafe
    obtain ⟨hdown, hle⟩ := S.down_eq hended
    exact S.key_of_place hended hdown hle hsafe
  | enter => exact key_of_change rfl hended hkeep
  | kill => exact key_of_change rfl hended hkeep
  | other => exact key_of_change rfl hended hkeep

theorem step (S : Sound f s text) (hlen : 2 ≤ f.size) (hsafe : s.Safe f k) :
    ∃ s' text', s.step f k = some s' ∧ Sound f s' text' ∧
      (s.ended = false → k.answer = none → (multiGetdataKey k).isMove = true → s.enabledbchar = true →
        cutsChar text' s'.curr = false) := by
  rw [Multi.step]
  cases hended : s.ended with
  | true =>
    refine ⟨s, text, rfl, S, fun h => ?_⟩
    cases h
  | false =>
    rw [if_neg Bool.false_ne_true]
    cases hanswer : k.answer with
    | some c =>
      obtain ⟨s', text', hs', S'⟩ := S.answer hlen (KeyPress.answer_ne_zero hanswer)
      refine ⟨s', text', hs', S', fun _ h => ?_⟩
      cases h
    | none =>
      obtain ⟨s₁, text₁, hs₁, -, C, hcut⟩ := S.key hended hanswer hsafe
      obtain ⟨s', hs', -, hcurr, S'⟩ := C.look
      by_cases henter : multiGetdataKey k = .enter
      · obtain ⟨s', text', hs', S'⟩ := S.finish
        rw [henter]
        exact ⟨s', text', hs', S', fun _ _ h => (by cases h)⟩
      · have hstep : (match multiGetdataKey k with
            | .enter => s.finish f
            | key => do
              let s ← s.key f key
              s.look f) = some s' := by
          split
          · exact absurd ‹_› henter
          · rw [hs₁]
            exact hs'
        refine ⟨s', text₁, hstep, S', fun _ _ hmove hdb => ?_⟩
        rw [hcurr]
        exact hcut hmove hdb

theorem start {buf : Bytes} {db : Bool} {s₀ : Multi} (hlen : 2 ≤ f.size) (hbuf : f.size ≤ buf.length)
    (hs₀ : Multi.start f buf db = some s₀)
    (hfits : f.clearlabel = false → ∀ text, cstr buf = some text → text.length < f.size) :
    ∃ text, Sound f s₀ text := by
  have hpos : 0 < f.size := Nat.lt_of_lt_of_le (by decide) hlen
  rw [Multi.start] at hs₀
  cases hclear : f.clearlabel with
  | true =>
    have hput : putTo f.size buf 0 0 = some (buf.set 0 0) := putTo_eq hpos
    rw [hclear, if_pos rfl, hput] at hs₀
    have hholds : cstr (buf.set 0 0) = some [] := by
      cases buf with
      | nil => exact absurd hbuf (Nat.not_le.mpr hpos)
      | cons b buf => rfl
    have C : Contains f ⟨buf.set 0 0, 0, 0, db, 0, 0, false, false, false, false⟩ [] :=
      ⟨hbuf.trans_eq List.length_set.symm, hholds, rfl, hpos, Nat.le_refl 0⟩
    obtain ⟨s', hs', -, -, S⟩ := C.look
    obtain rfl := Option.some.inj (hs₀.symm.trans hs')
    exact ⟨_, S⟩
  | false =>
    rw [hclear, if_neg Bool.false_ne_true] at hs₀
    obtain ⟨text, htext, hs₀⟩ := Option.bind_eq_some_iff.mp hs₀
    have hlt := hfits hclear text htext
    have hput : putTo f.size buf text.length 0 = some (buf.set text.length 0) := putTo_eq hlt
    dsimp only at hs₀
    rw [if_neg (Nat.not_le.mpr hlt), hput] at hs₀
    have hholds := cstr_set_zero htext (Nat.le_refl _)
    rw [List.take_length] at hholds
    have C : Contains f ⟨buf.set text.length 0, text.length, text.length, db, 0, 0, false, false, false,
        false⟩ text := ⟨hbuf.trans_eq List.length_set.symm, hholds, rfl, hlt, Nat.le_refl _⟩
    obtain ⟨s', hs', -, -, S⟩ := C.look
    obtain rfl := Option.some.inj (hs₀.symm.trans hs')
    exact ⟨_, S⟩

end Sound

end Multi

end ArgoBbs

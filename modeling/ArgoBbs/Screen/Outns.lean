import ArgoBbs.Lib.Reach
import ArgoBbs.Lib.Scan
import ArgoBbs.Screen.Picture

/-! # Text with escape sequences

`outns` writes a string to the screen and carries out the escape sequences in it. The string is in
memory with its terminating zero, and nothing behind that may be read; of a line of the screen only
the columns of the buffer may be read and written. -/

namespace ArgoBbs

/-- `str[i]`, up to the terminating zero. -/
def charAt (str : Bytes) (i : Nat) : Option UInt8 := (str ++ [0])[i]?

/-- A letter or the terminating zero. -/
def endsColour (c : UInt8) : Bool := isalpha c || c = 0

namespace Screenline

/-- `slp->data[k]` -/
def read (l : Screenline) (k : Nat) : Option UInt8 := if k < lineLen then some (l.data k) else none

/-- `slp->data[k] = b` -/
def write (l : Screenline) (k : Nat) (b : UInt8) : Option Screenline :=
  if k < lineLen then some (l.setByte k b) else none

/-- Text is not stored behind the columns of the screen. -/
def writeText (l : Screenline) (k : Nat) (b : UInt8) : Option Screenline :=
  if k < wrapMargin then l.write k b else some l

/-- A byte that is not text is stored if it has not been there. -/
def writeStar (l : Screenline) (k : Nat) (b : UInt8) : Option Screenline := do
  let old ← l.read k
  if old ≠ b then (l.write k b).map (·.mark k) else some l

/-- Blanks in the columns from one on, as many as given. -/
def blanks (l : Screenline) (k : Nat) : Nat → Option Screenline
  | 0 => some l
  | n + 1 => do
    let l ← l.write k 32
    l.blanks (k + 1) n

/-- The line is filled up to the column of the cursor. -/
def fillUp (l : Screenline) (col : Nat) : Option Screenline :=
  if l.len ≤ col then do
    let l' ← l.blanks l.len (col + 1 - l.len)
    some { l' with len := col }
  else some l

/-- Before text is stored from a column on. -/
def startMark (l : Screenline) (col : Nat) : Screenline :=
  if l.modified = false then { l with smod := col, emod := col }
  else if col < l.smod then { l with smod := col }
  else l

/-- After text has been stored up to a column. -/
def endMark (l : Screenline) (col : Nat) : Screenline :=
  { l with
    len := max l.len col
    emod := if l.emod + 1 < col then col - 1 else l.emod
    modified := true }

/-- The loop of the sequence for the position over the columns of a line: how many of the columns
before the `x`th visible one belong to colour sequences; `k` of them have been counted. -/
def skipColour (l : Screenline) : Nat → Nat → Nat → Option Nat
  | 0, _, t => some t
  | x + 1, k, t =>
    if l.len ≤ k + t then some t
    else do
      let c ← l.read (k + t)
      if c = 27 then
        let q ← scan l.read endsColour lineLen (k + t)
        l.skipColour x (k + 1) (q - k + 1)
      else l.skipColour x (k + 1) t

/-- The escape byte at or before a column; column 0 is followed by one outside of the line. -/
def escapeBefore (l : Screenline) : Nat → Option Nat
  | 0 => do
    let c ← l.read 0
    if c = 27 then some 0 else none
  | k + 1 => do
    let c ← l.read (k + 1)
    if c = 27 then some (k + 1) else l.escapeBefore k

/-- The loop of the sequence for a move to the left over the columns before `k`: the columns to go
with those of the colour sequences on the way. -/
def skipLeft (l : Screenline) (col : Nat) : Nat → Nat → Int → Option Int
  | 0, _, t => some t
  | _ + 1, 0, t => some t
  | fuel + 1, k + 1, t => do
    let c ← l.read k
    if c = 109 then
      let e ← l.escapeBefore k
      l.skipLeft col fuel e (if (col : Int) - k < t then t + k - e + 1 else t)
    else l.skipLeft col fuel k t

end Screenline

/-- Bytes are stored from a column on for as long as they are of a kind and before `limit`: where
the string has been read up to, the line and the column. -/
def storeRun (str : Bytes) (limit : Nat) (go : UInt8 → Bool) :
    Nat → Nat → Screenline → Nat → Option (Nat × Screenline × Nat)
  | 0, _, _, _ => none
  | fuel + 1, i, l, col => do
    let c ← charAt str i
    let l ← l.writeText col c
    let col := if col < wrapMargin then toUchar (col + 1) else col
    if i + 1 < limit then
      let c ← charAt str (i + 1)
      if go c then storeRun str limit go fuel (i + 1) l col else some (i + 1, l, col)
    else some (i + 1, l, col)

/-- The effect of `refresh` on the lines; it returns at once if there is typed input. -/
def Screen.refreshed {scrLns : Nat} (s : Screen scrLns) (typed : Bool) : Screen scrLns :=
  if typed then s
  else if s.docls = true ∨ (scrLns : Int) - 3 ≤ s.scrollcnt.natAbs then
    { s with
      docls := false
      scrollcnt := 0
      bigPicture := fun j =>
        if ∃ i ∈ List.range scrLns, s.lineOf i = j then (s.bigPicture j).redrawn
        else s.bigPicture j }
  else
    { s with
      scrollcnt := 0
      bigPicture := fun j =>
        if ∃ i ∈ List.range scrLns, s.lineOf i = j then (s.bigPicture j).refreshed
        else s.bigPicture j }

/-- That is what `refresh` does to the screen. -/
theorem Display.refresh_screen {tLines : Nat} (d : Display tLines) :
    d.refresh.screen = d.screen.refreshed (d.ibufsize < d.icurrchar) := by
  have hnd := List.nodup_range (n := tLines)
  have hrange : ∀ i ∈ List.range tLines, i < tLines := fun i hi => List.mem_range.mp hi
  rw [refresh, Screen.refreshed]
  by_cases htyped : d.ibufsize < d.icurrchar
  · rw [if_pos htyped, if_pos (decide_eq_true htyped)]
  rw [if_neg htyped, decide_eq_false htyped, if_neg Bool.false_ne_true]
  by_cases hall : d.Redraws
  · have hall' := hall
    rw [Redraws] at hall'
    rw [if_pos hall, if_pos hall', redoscr]
    dsimp only
    rw [goTo_screen, foldl_screen redoRow_screen _ _ hrange hnd]
  · have hall' := hall
    rw [Redraws] at hall'
    rw [if_neg hall, if_neg hall']
    dsimp only
    rw [goTo_screen, foldl_screen refreshRow_screen _ _ hrange hnd, showScroll_screen]
    rfl

/-- A call of `outns`: the screen, the position in the string, and `savey` and `savex` once they are
set. -/
structure Outns (scrLns : Nat) where
  screen : Screen scrLns
  i : Nat
  saved : Option (Nat × Nat)

/-- An escape sequence: its escape byte is at `i`, its last byte, `final`, `j` bytes behind. -/
structure EscapeSeq where
  str : Bytes
  i : Nat
  j : Nat
  final : UInt8

namespace EscapeSeq

/-- The sequence ends at a letter, or before the next escape byte or the end of the string. -/
def read (str : Bytes) (i : Nat) : Option EscapeSeq := do
  let k ← scan (charAt str) (fun c => isalpha c || c = 27 || c = 0) (str.length + 2) (i + 1)
  let final ← charAt str k
  some ⟨str, i, k - i, final⟩

/-- The first semicolon, or the last byte if there is none. -/
def semicolon (e : EscapeSeq) : Nat :=
  ((List.range e.j).find? fun k => charAt e.str (e.i + k) = some 59).getD e.j

/-- The bytes of the sequence between two places. -/
def bytesBetween (e : EscapeSeq) (start stop : Nat) : Bytes :=
  (e.str.drop (e.i + start)).take (stop - start)

/-- `s1` and `s2` have the sizes that are handled. -/
def hasPosition (e : EscapeSeq) : Bool :=
  e.semicolon < e.j && e.semicolon ≤ 4 && 3 ≤ e.semicolon && 2 ≤ e.j - e.semicolon &&
    e.j - e.semicolon ≤ 4

/-- `y`, a `char` -/
def posY (e : EscapeSeq) (offsetln : Nat) : Int :=
  (atoi (e.bytesBetween 2 e.semicolon) - 1 + offsetln).bmod 256

/-- `x`, a `char` -/
def posX (e : EscapeSeq) : Int := (atoi (e.bytesBetween (e.semicolon + 1) e.j) - 1).bmod 256

/-- The number of rows or columns to move by. -/
def count (e : EscapeSeq) : Int := if e.j = 2 then 1 else atoi (e.bytesBetween 2 e.j)

end EscapeSeq

namespace Outns
variable {scrLns : Nat}

/-- The line of the cursor when the iteration starts. -/
def line (st : Outns scrLns) : Nat := st.screen.lineOf st.screen.curLn

/-- The sequence for the position. -/
def position (st : Outns scrLns) (e : EscapeSeq) : Option (Screen scrLns) :=
  let s := st.screen
  if e.hasPosition then
    let y := e.posY s.offsetln
    let x := e.posX
    if 0 ≤ y ∧ y < scrLns ∧ 0 ≤ x ∧ x < wrapMargin then do
      let t ← (s.bigPicture (s.lineOf y.toNat)).skipColour x.toNat 0 0
      some { s with curCol := toUchar (x + t), curLn := y.toNat }
    else some s
  else if e.semicolon = e.j ∧ s.offsetln = 0 then some s.clear
  else some s

/-- The sequences for moves. -/
def moveBy (st : Outns scrLns) (e : EscapeSeq) : Option (Screen scrLns) :=
  let s := st.screen
  let t := e.count
  if s.disableMove then some s
  else if e.final = 65 then
    let row := toUchar (s.curLn - t)
    some { s with curLn := if row < s.offsetln then s.offsetln else row }
  else if e.final = 66 then
    let row := toUchar (s.curLn + t)
    some { s with curLn := if scrLns ≤ row then scrLns - 1 else row }
  else if e.final = 67 then
    let col := toUchar (s.curCol + t)
    some { s with curCol := if wrapMargin ≤ col then wrapMargin else col }
  else do
    let t ← s.slp.skipLeft s.curCol s.curCol s.curCol t
    some { s with curCol := if t < s.curCol then toUchar (s.curCol - t) else 0 }

/-- The sequence for a colour is stored in the line. -/
def colour (st : Outns scrLns) (e : EscapeSeq) (limit : Nat) : Option (Outns scrLns) := do
  let s := st.screen
  let (i, l, col) ← storeRun e.str limit (fun c => !isalpha c) (e.str.length + 2) e.i
    (s.slp.startMark s.curCol) s.curCol
  let c ← charAt e.str i
  let l ← l.write col c
  let col := toUchar (col + 1)
  some { st with screen := { s.setLine st.line (l.endMark col) with curCol := col }, i := i }

/-- A byte that is not text is stored in the line. -/
def star (st : Outns scrLns) (c : UInt8) : Option (Outns scrLns) := do
  let s := st.screen
  let tmp := if c ≠ 27 ∨ s.showansi = false then 42 else c
  let l ← s.slp.writeStar s.curCol tmp
  some { st with screen := { s.setLine st.line l with curCol := toUchar (s.curCol + 1) } }

/-- An escape sequence with colours on. -/
def escape (st : Outns scrLns) (e : EscapeSeq) (limit : Nat) (typed : Bool) :
    Option (Outns scrLns) :=
  let s := st.screen
  let skipped : Outns scrLns := { st with i := e.i + e.j }
  if e.final = 115 ∧ e.j = 2 then some { skipped with saved := some (s.curLn, s.curCol) }
  else if e.final = 117 ∧ e.j = 2 then
    match st.saved with
    | some (savey, savex) =>
      if s.disableMove then some skipped
      else some { skipped with screen := { s with curLn := savey, curCol := savex } }
    | none => some skipped
  else if e.final = 74 then
    some { skipped with screen := if s.disableMove then s else s.clear }
  else if e.final = 77 then
    -- `t` is kept only by the sequence without a number
    some { skipped with screen := if e.j = 2 then s.refreshed typed else s }
  else if e.final = 72 ∨ e.final = 102 then
    (st.position e).map fun s => { skipped with screen := s }
  else if (e.final = 65 ∨ e.final = 66 ∨ e.final = 67 ∨ e.final = 68) ∧ e.j ≤ 5 then
    (st.moveBy e).map fun s => { skipped with screen := s }
  else if e.final = 109 then st.colour e limit
  else if isalpha e.final then some skipped
  else st.star 27

/-- The body of the loop at a byte. -/
def body (str : Bytes) (limit : Nat) (typed : Bool) (st : Outns scrLns) (c : UInt8) :
    Option (Outns scrLns) := do
  let s := st.screen
  let slp ← s.slp.fillUp s.curCol
  let s := s.setLine st.line slp
  let st := { st with screen := s }
  if isprint2 c then
    let (i, l, col) ← storeRun str limit isprint2 (str.length + 2) st.i
      (slp.startMark s.curCol) s.curCol
    some { st with
      screen := { s.setLine st.line (l.endMark col) with curCol := col }
      i := i - 1 }
  else if c = 13 then some st
  else if c = 10 then
    let ends : Bool := s.standing && slp.standout
    let slp := if ends ∧ slp.eso < s.curCol then { slp with eso := s.curCol } else slp
    some { st with
      screen :=
        ({ s with standing := s.standing && !ends }.setLine st.line
          { slp with len := s.curCol }).nextRow }
  else if c = 27 ∧ s.showansi = true then do
    let c₁ ← charAt str (st.i + 1)
    if c₁ ≠ 91 then some st
    else if s.iscolor = false then do
      let i ← scan (charAt str) endsColour (str.length + 2) st.i
      some { st with i := i }
    else do
      let e ← EscapeSeq.read str st.i
      st.escape e limit typed
  else st.star c

/-- The test of the loop. -/
def more (str : Bytes) (limit : Nat) (st : Outns scrLns) : Option (Option UInt8) :=
  if st.i < limit then (charAt str st.i).map fun c => if c = 0 then none else some c
  else some none

def loop (str : Bytes) (limit : Nat) (typed : Bool) : Nat → Outns scrLns → Option (Outns scrLns)
  | 0, st => some st
  | fuel + 1, st => do
    match ← st.more str limit with
    | none => some st
    | some c =>
      let st ← st.body str limit typed c
      loop str limit typed fuel { st with i := st.i + 1 }

end Outns

/-- `outns(str, n)`; every iteration of its loop goes forward in the string. -/
def Screen.outns {scrLns : Nat} (s : Screen scrLns) (str : Bytes) (n : Nat) (typed : Bool) :
    Option (Screen scrLns) :=
  (Outns.loop str n typed n ⟨s, 0, none⟩).map (·.screen)

/-! ## When the accesses are in bounds -/

namespace Screenline

/-- The line when it has been filled up to the column of the cursor. -/
def filled (l : Screenline) (col : Nat) : Screenline :=
  if l.len ≤ col then { l.fill l.len (col + 1) with len := col } else l

/-- The column that is looked at when some visible ones have been counted. -/
def looked (l : Screenline) : Nat → Nat
  | 0 => 0
  | k + 1 =>
    let p := l.looked k
    if l.data p = 27 then (scan l.read endsColour lineLen p).getD lineLen + 2 else p + 1

/-- The colour sequences among the first visible columns of the line end in the buffer. -/
def Closed (l : Screenline) (x : Nat) : Prop :=
  ∀ k < x, (∀ k' ≤ k, l.looked k' < l.len) → l.data (l.looked k) = 27 →
    ∃ q < lineLen, l.looked k ≤ q ∧ endsColour (l.data q) = true

instance (l : Screenline) (x : Nat) : Decidable (l.Closed x) :=
  inferInstanceAs (Decidable (∀ k < x, _))

/-- An `m` left of the column has an escape byte before it. -/
def Opened (l : Screenline) (col : Nat) : Prop :=
  ∀ k < col, l.data k = 109 → ∃ k' ≤ k, l.data k' = 27

instance (l : Screenline) (col : Nat) : Decidable (l.Opened col) :=
  inferInstanceAs (Decidable (∀ k < col, _))

end Screenline

namespace Outns
variable {scrLns : Nat}

/-- The screen of an iteration, with the line of the cursor filled up. -/
def filled (st : Outns scrLns) : Screen scrLns :=
  st.screen.setLine st.line (st.screen.slp.filled st.screen.curCol)

/-- The sequence is carried out within the line buffers. -/
def SeqClean (s : Screen scrLns) (e : EscapeSeq) : Prop :=
  ((e.final = 72 ∨ e.final = 102) → e.hasPosition = true →
    0 ≤ e.posY s.offsetln → e.posY s.offsetln < scrLns → 0 ≤ e.posX → e.posX < wrapMargin →
      (s.bigPicture (s.lineOf (e.posY s.offsetln).toNat)).Closed e.posX.toNat) ∧
    (e.final = 68 → e.j ≤ 5 → s.disableMove = false → s.slp.Opened s.curCol)

instance (s : Screen scrLns) (e : EscapeSeq) : Decidable (SeqClean s e) :=
  inferInstanceAs (Decidable (_ ∧ _))

/-- There is a letter from the place on. -/
def LetterFrom (str : Bytes) (i : Nat) : Prop := ∃ k < str.length, i ≤ k ∧ (str[k]?).any isalpha

instance (str : Bytes) (i : Nat) : Decidable (LetterFrom str i) :=
  inferInstanceAs (Decidable (∃ k < str.length, _))

/-- An escape sequence with its `[` starts at the place of the iteration and is looked at. -/
def atSeq (str : Bytes) (limit : Nat) (st : Outns scrLns) : Bool :=
  st.i < limit && charAt str st.i = some 27 && st.screen.showansi &&
    charAt str (st.i + 1) = some 91

/-- With colours off a sequence is passed over that has a letter, or the call ends with the string;
with colours on it is carried out within the line buffers. -/
def Clean (str : Bytes) (limit : Nat) (st : Outns scrLns) : Prop :=
  st.atSeq str limit = true →
    if st.screen.iscolor = false then LetterFrom str st.i ∨ limit ≤ str.length + 1
    else (EscapeSeq.read str st.i).all fun e => SeqClean st.filled e

instance (str : Bytes) (limit : Nat) (st : Outns scrLns) : Decidable (Clean str limit st) :=
  inferInstanceAs (Decidable (_ → _))

/-- A sequence that moves the cursor up does not get it out of the screen. -/
def RowClean (str : Bytes) (limit : Nat) (st : Outns scrLns) : Prop :=
  st.atSeq str limit = true → st.screen.iscolor = true →
    (EscapeSeq.read str st.i).all fun e =>
      e.final = 65 → e.j ≤ 5 → st.screen.disableMove = false →
        toUchar (st.screen.curLn - e.count) ≤ scrLns

instance (str : Bytes) (limit : Nat) (st : Outns scrLns) : Decidable (RowClean str limit st) :=
  inferInstanceAs (Decidable (_ → _))

/-- An iteration of the loop. -/
def step (str : Bytes) (limit : Nat) (typed : Bool) (st : Outns scrLns) (_ : Unit) :
    Option (Outns scrLns) :=
  match st.more str limit with
  | some (some c) => (st.body str limit typed c).map fun st => { st with i := st.i + 1 }
  | _ => none

end Outns

/-! ## Reads and scans -/

theorem charAt_sized (str : Bytes) : Sized (charAt str) (str.length + 1) := by
  intro p
  rw [charAt, List.getElem?_eq_none_iff, List.length_append, List.length_singleton]

theorem charAt_of_lt {str : Bytes} {i : Nat} (h : i < str.length) : charAt str i = str[i]? :=
  List.getElem?_append_left h

/-- A byte that is not zero is not the terminating one. -/
theorem lt_of_charAt {str : Bytes} {i : Nat} {c : UInt8} (h : charAt str i = some c) (hc : c ≠ 0) :
    i < str.length := by
  have hlt := (charAt_sized str).lt_of_some h
  rcases Nat.lt_or_eq_of_le (Nat.le_of_lt_succ hlt) with hi | rfl
  · exact hi
  · rw [charAt, List.getElem?_append_right (Nat.le_refl _), Nat.sub_self] at h
    exact absurd (Option.some.inj h).symm hc

theorem charAt_length (str : Bytes) : charAt str str.length = some 0 := by
  rw [charAt, List.getElem?_append_right (Nat.le_refl _), Nat.sub_self]
  rfl

namespace Screenline
variable {l : Screenline} {col : Nat}

theorem read_sized (l : Screenline) : Sized l.read lineLen := by
  intro p
  rw [read]
  constructor
  · intro h
    split at h
    case isTrue => cases h
    case isFalse hp => exact Nat.le_of_not_lt hp
  · exact fun h => if_neg (Nat.not_lt.mpr h)

theorem read_of_lt {k : Nat} (h : k < lineLen) : l.read k = some (l.data k) := if_pos h

theorem write_of_lt {k : Nat} (h : k < lineLen) (b : UInt8) : l.write k b = some (l.setByte k b) :=
  if_pos h

theorem blanks_eq {k n : Nat} (h : k + n ≤ lineLen) : l.blanks k n = some (l.fill k (k + n)) := by
  induction n generalizing l k with
  | zero =>
    have hdata : (fun c => if k ≤ c ∧ c < k + 0 then 32 else l.data c) = l.data := by
      funext c
      rw [if_neg (by omega)]
    rw [blanks, fill, hdata]
  | succ n ih =>
    rw [blanks, write_of_lt (by omega), Option.bind_eq_bind, Option.bind_some, ih (by omega)]
    refine congrArg some ?_
    simp only [fill, setByte, mk.injEq, true_and]
    funext c
    by_cases hc : c = k
    · subst hc
      rw [if_neg (by omega), if_pos rfl, if_pos (by omega)]
    · rw [if_neg hc]
      exact if_congr (by omega) rfl rfl

theorem fillUp_eq (h : col < lineLen) : l.fillUp col = some (l.filled col) := by
  rw [fillUp, filled]
  split
  case isTrue hle =>
    rw [blanks_eq (by omega), show l.len + (col + 1 - l.len) = col + 1 by omega]
    rfl
  case isFalse => rfl

theorem startMark_len : (l.startMark col).len = l.len := by
  rw [startMark]
  split_ifs <;> rfl

theorem filled_len_le (h : l.len ≤ wrapMargin) (hcol : col ≤ wrapMargin) :
    (l.filled col).len ≤ wrapMargin := by
  rw [filled]
  split
  · exact hcol
  · exact h

/-- An escape byte in the column starts a sequence that ends in the buffer. -/
def Ends (l : Screenline) (p : Nat) : Prop :=
  l.data p = 27 → ∃ q < lineLen, p ≤ q ∧ endsColour (l.data q) = true

/-- The scan for the end of a sequence finds it if it is in the buffer. -/
theorem scan_end_iff {p : Nat} :
    (scan l.read endsColour lineLen p).isSome = true ↔
      ∃ q < lineLen, p ≤ q ∧ endsColour (l.data q) = true := by
  constructor
  · intro h
    obtain ⟨q, hq⟩ := Option.isSome_iff_exists.mp h
    obtain ⟨hle, ⟨c, hc, hstop⟩, -⟩ := scan_spec hq
    have hlt := l.read_sized.lt_of_some hc
    rw [read_of_lt hlt] at hc
    exact ⟨q, hlt, hle, Option.some.inj hc ▸ hstop⟩
  · rintro ⟨q, hlt, hle, hstop⟩
    obtain ⟨r, hr, -⟩ :=
      scan_isSome l.read_sized (Nat.le_add_left lineLen p) hle (read_of_lt hlt) hstop
    rw [hr]
    rfl

/-- `Closed` from a round on. -/
def ClosedFrom (l : Screenline) (x k : Nat) : Prop :=
  ∀ m < x, (∀ m' ≤ m, l.looked (k + m') < l.len) → l.Ends (l.looked (k + m))

theorem closedFrom_succ {x k : Nat} :
    l.ClosedFrom (x + 1) k ↔
      (l.looked k < l.len → l.Ends (l.looked k) ∧ l.ClosedFrom x (k + 1)) := by
  constructor
  · refine fun h hk => ⟨h 0 (Nat.succ_pos x) fun m' hm' => ?_, fun m hm hall => ?_⟩
    · rwa [Nat.le_zero.mp hm']
    · rw [Nat.add_assoc, Nat.add_comm 1]
      refine h (m + 1) (Nat.succ_lt_succ hm) fun m' hm' => ?_
      cases m' with
      | zero => exact hk
      | succ m' =>
        have hlt := hall m' (Nat.le_of_succ_le_succ hm')
        rwa [Nat.add_assoc, Nat.add_comm 1] at hlt
  · intro h m hm hall
    obtain ⟨hend, hrest⟩ := h (hall 0 (Nat.zero_le m))
    cases m with
    | zero => exact hend
    | succ m =>
      rw [Nat.add_comm m, ← Nat.add_assoc]
      refine hrest m (Nat.lt_of_succ_lt_succ hm) fun m' hm' => ?_
      rw [Nat.add_assoc, Nat.add_comm 1]
      exact hall (m' + 1) (Nat.succ_le_succ hm')

/-- The loop of the sequence for the position stays in the buffer if and only if the colour
sequences that it comes to end there. -/
theorem skipColour_isSome_iff (hlen : l.len ≤ lineLen) {x k t : Nat} (hk : k + t = l.looked k) :
    (l.skipColour x k t).isSome = true ↔ l.ClosedFrom x k := by
  induction x generalizing k t with
  | zero => exact ⟨fun _ m hm => absurd hm (Nat.not_lt_zero m), fun _ => rfl⟩
  | succ x ih =>
    rw [closedFrom_succ, skipColour]
    by_cases hlt : l.len ≤ k + t
    · rw [if_pos hlt]
      exact ⟨fun _ h => absurd h (by omega), fun _ => rfl⟩
    have hin : l.looked k < l.len := by omega
    rw [if_neg hlt, read_of_lt (by omega), hk]
    simp only [Option.bind_eq_bind, Option.bind_some, hin, forall_const]
    by_cases hesc : l.data (l.looked k) = 27
    · rw [if_pos hesc]
      cases hscan : scan l.read endsColour lineLen (l.looked k) with
      | none =>
        refine ⟨fun h => (by cases h), fun h => ?_⟩
        have hfound := scan_end_iff.mpr (h.1 hesc)
        rw [hscan] at hfound
        cases hfound
      | some q =>
        have hle := (scan_spec hscan).1
        have hnext : l.looked (k + 1) = q + 2 := by
          rw [looked, if_pos hesc, hscan]
          rfl
        have hends : l.Ends (l.looked k) := fun _ => scan_end_iff.mp (by rw [hscan]; rfl)
        rw [Option.bind_some, ih (by omega)]
        exact ⟨fun h => ⟨hends, h⟩, fun h => h.2⟩
    · have hnext : l.looked (k + 1) = l.looked k + 1 := if_neg hesc
      rw [if_neg hesc, ih (by omega)]
      exact ⟨fun h => ⟨fun h27 => absurd h27 hesc, h⟩, fun h => h.2⟩

theorem closed_iff (hlen : l.len ≤ lineLen) (x : Nat) :
    (l.skipColour x 0 0).isSome = true ↔ l.Closed x := by
  rw [skipColour_isSome_iff hlen rfl, ClosedFrom, Closed]
  simp only [Nat.zero_add]
  exact Iff.rfl

theorem escapeBefore_spec {k : Nat} (hk : k < lineLen) :
    (∃ e ≤ k, l.escapeBefore k = some e ∧ l.data e = 27) ∨
      l.escapeBefore k = none ∧ ∀ k' ≤ k, l.data k' ≠ 27 := by
  induction k with
  | zero =>
    rw [escapeBefore, read_of_lt hk, Option.bind_eq_bind, Option.bind_some]
    by_cases h : l.data 0 = 27
    · exact .inl ⟨0, Nat.le_refl 0, if_pos h, h⟩
    · refine .inr ⟨if_neg h, fun k' hk' => ?_⟩
      rwa [Nat.le_zero.mp hk']
  | succ k ih =>
    rw [escapeBefore, read_of_lt hk, Option.bind_eq_bind, Option.bind_some]
    by_cases h : l.data (k + 1) = 27
    · exact .inl ⟨k + 1, Nat.le_refl _, if_pos h, h⟩
    · rw [if_neg h]
      rcases ih (Nat.lt_of_succ_lt hk) with ⟨e, he, hfound⟩ | ⟨hnone, hbefore⟩
      · exact .inl ⟨e, Nat.le_succ_of_le he, hfound⟩
      · refine .inr ⟨hnone, fun k' hk' => ?_⟩
        rcases Nat.le_or_eq_of_le_succ hk' with hk' | rfl
        · exact hbefore k' hk'
        · exact h

/-- The loop of the sequence for a move to the left stays in the buffer if and only if every `m` has
an escape byte before it. -/
theorem skipLeft_isSome_iff {fuel k : Nat} (hk : k ≤ fuel) (hlen : k ≤ lineLen) (col : Nat)
    (t : Int) :
    (l.skipLeft col fuel k t).isSome = true ↔ l.Opened k := by
  induction fuel generalizing k t with
  | zero =>
    obtain rfl := Nat.le_zero.mp hk
    exact ⟨fun _ m hm => absurd hm (Nat.not_lt_zero m), fun _ => rfl⟩
  | succ fuel ih =>
    cases k with
    | zero => exact ⟨fun _ m hm => absurd hm (Nat.not_lt_zero m), fun _ => rfl⟩
    | succ k =>
      rw [skipLeft, read_of_lt hlen, Option.bind_eq_bind, Option.bind_some]
      by_cases hm : l.data k = 109
      · rw [if_pos hm]
        rcases escapeBefore_spec (l := l) (k := k) hlen with ⟨e, he, hfound, hesc⟩ | ⟨hnone, hno⟩
        · rw [hfound, Option.bind_eq_bind, Option.bind_some, ih (by omega) (by omega)]
          constructor
          · intro h k' hk' hm'
            by_cases hlt : k' < e
            · exact h k' hlt hm'
            · exact ⟨e, Nat.le_of_not_lt hlt, hesc⟩
          · exact fun h k' hk' => h k' (by omega)
        · rw [hnone, Option.bind_eq_bind, Option.bind_none]
          refine ⟨fun h => (by cases h), fun h => ?_⟩
          obtain ⟨k', hk', hesc⟩ := h k (Nat.lt_succ_self k) hm
          exact absurd hesc (hno k' hk')
      · rw [if_neg hm, ih (by omega) (by omega)]
        constructor
        · intro h k' hk' hm'
          rcases Nat.lt_succ_iff_lt_or_eq.mp hk' with hlt | rfl
          · exact h k' hlt hm'
          · exact absurd hm' hm
        · exact fun h k' hk' => h k' (Nat.lt_succ_of_lt hk')

end Screenline

/-- The bytes up to one that is not of the kind are stored, as far as the limit and the line allow.
-/
theorem storeRun_spec {str : Bytes} (limit : Nat) (go : UInt8 → Bool) (fuel : Nat)
    {i col k : Nat} {l : Screenline} {c : UInt8} (hcol : col < lineLen) (hi : i < k) (hk : charAt str k = some c)
    (hgo : go c = false) (hfuel : k ≤ i + fuel) :
    ∃ i' l' col', storeRun str limit go fuel i l col = some (i', l', col') ∧ i < i' ∧ i' ≤ k ∧
      l'.len = l.len ∧ col' < lineLen := by
  have hlt := (charAt_sized str).lt_of_some hk
  induction fuel generalizing i l col with
  | zero => omega
  | succ fuel ih =>
    obtain ⟨b, hb⟩ := (charAt_sized str).exists_of_lt (Nat.lt_trans hi hlt)
    obtain ⟨b', hb'⟩ := (charAt_sized str).exists_of_lt (Nat.lt_of_le_of_lt hi hlt)
    obtain ⟨l', hl', hlen⟩ : ∃ l', l.writeText col b = some l' ∧ l'.len = l.len := by
      rw [Screenline.writeText]
      split
      · exact ⟨_, Screenline.write_of_lt hcol b, rfl⟩
      · exact ⟨l, rfl, rfl⟩
    obtain ⟨col', hcol', hcol''⟩ :
        ∃ col', (if col < wrapMargin then toUchar (col + 1) else col) = col' ∧ col' < lineLen := by
      refine ⟨_, rfl, ?_⟩
      split
      · exact toUchar_lt _
      · exact hcol
    rw [storeRun, hb]
    simp only [Option.bind_eq_bind, Option.bind_some, hl', hcol', hb']
    by_cases hlimit : i + 1 < limit
    · rw [if_pos hlimit]
      by_cases hb'' : go b' = true
      · rw [if_pos hb'']
        have hne : i + 1 ≠ k := by
          rintro rfl
          rw [hk] at hb'
          rw [← Option.some.inj hb', hgo] at hb''
          cases hb''
        obtain ⟨i', l'', col'', hrun, hi', hik, hlen', hcol'''⟩ :=
          ih (i := i + 1) (l := l') hcol'' (by omega) (by omega)
        exact ⟨i', l'', col'', hrun, by omega, hik, hlen'.trans hlen, hcol'''⟩
      · rw [if_neg hb'']
        exact ⟨i + 1, l', col', rfl, by omega, hi, hlen, hcol''⟩
    · rw [if_neg hlimit]
      exact ⟨i + 1, l', col', rfl, by omega, hi, hlen, hcol''⟩

/-- A sequence is read up to its last byte, which is a letter if the string does not go on behind it
with another sequence or end. -/
theorem EscapeSeq.read_spec {str : Bytes} {i : Nat} (h : charAt str (i + 1) = some 91) :
    ∃ e, EscapeSeq.read str i = some e ∧ e.str = str ∧ e.i = i ∧ 2 ≤ e.j ∧
      charAt str (i + e.j) = some e.final ∧
      (isalpha e.final = true ∨ e.final = 27 ∨ e.final = 0) := by
  have hi := lt_of_charAt h (by decide)
  obtain ⟨k, hk, -⟩ : ∃ k, scan (charAt str) (fun c => isalpha c || c = 27 || c = 0)
      (str.length + 2) (i + 1) = some k ∧ k ≤ str.length :=
    scan_isSome (charAt_sized str) (by omega) (Nat.le_of_lt hi) (charAt_length str) (by decide)
  obtain ⟨hle, ⟨c, hc, hstop⟩, -⟩ := scan_spec hk
  have hne : k ≠ i + 1 := by
    rintro rfl
    rw [h] at hc
    obtain rfl := Option.some.inj hc
    exact absurd hstop (by decide)
  refine ⟨⟨str, i, k - i, c⟩, ?_, rfl, rfl, by dsimp only; omega, ?_, ?_⟩
  · rw [EscapeSeq.read, hk, Option.bind_eq_bind, Option.bind_some, hc]
    rfl
  · rwa [show i + (k - i) = k by omega]
  · simpa [or_assoc] using hstop

namespace Outns
variable {scrLns : Nat} {st : Outns scrLns}

/-! ## The accesses of an iteration -/

theorem toUchar_lt_lineLen (x : Int) : toUchar x < lineLen := toUchar_lt x

/-- The columns are those of a line buffer. -/
structure Ok (st : Outns scrLns) : Prop where
  curCol : st.screen.curCol < lineLen
  len : ∀ j, (st.screen.bigPicture j).len ≤ wrapMargin
  saved : ∀ y x, st.saved = some (y, x) → x < lineLen

theorem Ok.setLine (h : st.Ok) {j : Nat} {l : Screenline} (hl : l.len ≤ wrapMargin) :
    ∀ k, ((st.screen.setLine j l).bigPicture k).len ≤ wrapMargin := by
  intro k
  dsimp only [Screen.setLine]
  split
  · exact hl
  · exact h.len k

theorem Ok.clear (h : st.Ok) : ∀ k, (st.screen.clear.bigPicture k).len ≤ wrapMargin := by
  intro k
  dsimp only [Screen.clear, Screen.move]
  split
  · exact Nat.zero_le _
  · exact h.len k

theorem Ok.refreshed (h : st.Ok) (typed : Bool) :
    ∀ k, ((st.screen.refreshed typed).bigPicture k).len ≤ wrapMargin := by
  intro k
  rw [Screen.refreshed]
  split_ifs
  · exact h.len k
  · dsimp only
    split
    · rw [Screenline.redrawn_len]
      exact h.len k
    · exact h.len k
  · dsimp only
    split
    · rw [Screenline.refreshed_len]
      exact h.len k
    · exact h.len k

theorem refreshed_curCol (s : Screen scrLns) (typed : Bool) :
    (s.refreshed typed).curCol = s.curCol := by
  rw [Screen.refreshed]
  split_ifs <;> rfl

theorem Ok.filled (h : st.Ok) : ({ st with screen := st.filled } : Outns scrLns).Ok :=
  ⟨h.curCol, h.setLine (Screenline.filled_len_le (h.len _) (Nat.le_of_lt_succ h.curCol)), h.saved⟩

theorem Ok.at (h : st.Ok) (i : Nat) : ({ st with i := i } : Outns scrLns).Ok :=
  ⟨h.curCol, h.len, h.saved⟩

theorem position_isSome_iff (h : st.Ok) {e : EscapeSeq} :
    (st.position e).isSome = true ↔ (e.hasPosition = true →
      0 ≤ e.posY st.screen.offsetln → e.posY st.screen.offsetln < scrLns → 0 ≤ e.posX →
        e.posX < wrapMargin →
          (st.screen.bigPicture (st.screen.lineOf (e.posY st.screen.offsetln).toNat)).Closed
            e.posX.toNat) := by
  have hlen : ∀ j, (st.screen.bigPicture j).len ≤ lineLen := fun j =>
    Nat.le_trans (h.len j) (by decide)
  rw [position]
  by_cases hpos : e.hasPosition = true
  · rw [if_pos hpos]
    by_cases hin : 0 ≤ e.posY st.screen.offsetln ∧ e.posY st.screen.offsetln < scrLns ∧
        0 ≤ e.posX ∧ e.posX < wrapMargin
    · rw [if_pos hin, ← Screenline.closed_iff (hlen _)]
      obtain ⟨h₁, h₂, h₃, h₄⟩ := hin
      simp only [hpos, h₁, h₂, h₃, h₄, forall_const]
      cases (st.screen.bigPicture (st.screen.lineOf (e.posY st.screen.offsetln).toNat)).skipColour
          e.posX.toNat 0 0 with
      | none => exact Iff.rfl
      | some t => exact Iff.rfl
    · rw [if_neg hin]
      exact ⟨fun _ _ h₁ h₂ h₃ h₄ => absurd ⟨h₁, h₂, h₃, h₄⟩ hin, fun _ => rfl⟩
  · rw [if_neg hpos]
    refine ⟨fun _ h => absurd h hpos, fun _ => ?_⟩
    split <;> rfl

/-- The cursor is left in the line buffer, the lines are kept or emptied. -/
theorem position_ok (h : st.Ok) {e : EscapeSeq} {s : Screen scrLns} (hs : st.position e = some s)
    (i : Nat) : ({ st with screen := s, i := i } : Outns scrLns).Ok := by
  rw [position] at hs
  split at hs
  · dsimp only at hs
    split at hs
    · rw [Option.bind_eq_bind, Option.bind_eq_some_iff] at hs
      obtain ⟨t, -, hs⟩ := hs
      obtain rfl := Option.some.inj hs
      exact ⟨toUchar_lt_lineLen _, h.len, h.saved⟩
    · obtain rfl := Option.some.inj hs
      exact ⟨h.curCol, h.len, h.saved⟩
  · split at hs
    · obtain rfl := Option.some.inj hs
      exact ⟨Nat.zero_lt_succ _, h.clear, h.saved⟩
    · obtain rfl := Option.some.inj hs
      exact ⟨h.curCol, h.len, h.saved⟩

theorem moveBy_isSome_iff (h : st.Ok) {e : EscapeSeq}
    (hfinal : e.final = 65 ∨ e.final = 66 ∨ e.final = 67 ∨ e.final = 68) :
    (st.moveBy e).isSome = true ↔
      (e.final = 68 → st.screen.disableMove = false → st.screen.slp.Opened st.screen.curCol) := by
  rw [moveBy]
  cases hdis : st.screen.disableMove with
  | true => exact ⟨fun _ _ hf => (by cases hf), fun _ => rfl⟩
  | false =>
    rw [if_neg Bool.false_ne_true]
    rcases hfinal with hf | hf | hf | hf
    · simp [hf]
    · simp [hf]
    · simp [hf]
    · have hloop := Screenline.skipLeft_isSome_iff (l := st.screen.slp) (Nat.le_refl _)
        (Nat.le_of_lt h.curCol) st.screen.curCol e.count
      simp only [hf, forall_const, ← hloop]
      rw [if_neg (by decide), if_neg (by decide), if_neg (by decide)]
      cases st.screen.slp.skipLeft st.screen.curCol st.screen.curCol st.screen.curCol e.count with
      | none => exact Iff.rfl
      | some t => exact Iff.rfl

theorem moveBy_ok (h : st.Ok) {e : EscapeSeq} {s : Screen scrLns} (hs : st.moveBy e = some s)
    (i : Nat) : ({ st with screen := s, i := i } : Outns scrLns).Ok := by
  have hkeep : ∀ col row, col < lineLen →
      ({ st with
        screen := { st.screen with curCol := col, curLn := row }, i := i } : Outns scrLns).Ok :=
    fun col row hcol => ⟨hcol, h.len, h.saved⟩
  rw [moveBy] at hs
  split_ifs at hs
  · obtain rfl := Option.some.inj hs
    exact hkeep _ _ h.curCol
  · obtain rfl := Option.some.inj hs
    exact hkeep _ _ h.curCol
  · obtain rfl := Option.some.inj hs
    exact hkeep _ _ h.curCol
  · obtain rfl := Option.some.inj hs
    refine hkeep _ _ ?_
    split
    · decide
    · exact toUchar_lt _
  · rw [Option.bind_eq_bind, Option.bind_eq_some_iff] at hs
    obtain ⟨t, -, hs⟩ := hs
    obtain rfl := Option.some.inj hs
    refine hkeep _ _ ?_
    split
    · exact toUchar_lt _
    · decide

theorem colour_spec (h : st.Ok) {e : EscapeSeq} (limit : Nat) (hj : 2 ≤ e.j)
    (hfinal : charAt e.str (e.i + e.j) = some e.final) (halpha : isalpha e.final = true) :
    ∃ st', st.colour e limit = some st' ∧ st'.Ok ∧ e.i ≤ st'.i ∧ st'.i ≤ e.i + e.j := by
  have hlt := (charAt_sized e.str).lt_of_some hfinal
  obtain ⟨i', l', col', hrun, hi, hik, hlen, hcol⟩ := storeRun_spec limit
    (fun c => !isalpha c) (e.str.length + 2)
    (l := st.screen.slp.startMark st.screen.curCol) h.curCol (Nat.lt_add_of_pos_right (by omega))
    hfinal (by rw [halpha]; rfl) (by omega)
  obtain ⟨c, hc⟩ := (charAt_sized e.str).exists_of_lt (Nat.lt_of_le_of_lt hik hlt)
  have hcolour : st.colour e limit = some
      { st with
        screen :=
          { st.screen.setLine st.line ((l'.setByte col' c).endMark (toUchar (col' + 1))) with
            curCol := toUchar (col' + 1) }
        i := i' } := by
    rw [colour, hrun]
    simp only [Option.bind_eq_bind, Option.bind_some, hc, Screenline.write_of_lt hcol]
  refine ⟨_, hcolour, ⟨toUchar_lt_lineLen (col' + 1), h.setLine ?_, h.saved⟩, Nat.le_of_lt hi, hik⟩
  refine Nat.max_le.mpr ⟨?_, Nat.le_of_lt_succ (toUchar_lt _)⟩
  exact hlen.trans_le (Screenline.startMark_len.trans_le (h.len _))

theorem star_spec (h : st.Ok) (c : UInt8) :
    ∃ st', st.star c = some st' ∧ st'.Ok ∧ st'.i = st.i := by
  obtain ⟨l, hl, hlen⟩ : ∃ l, st.screen.slp.writeStar st.screen.curCol
      (if c ≠ 27 ∨ st.screen.showansi = false then 42 else c) = some l ∧
        l.len = st.screen.slp.len := by
    generalize (if c ≠ 27 ∨ st.screen.showansi = false then 42 else c) = tmp
    rw [Screenline.writeStar, Screenline.read_of_lt h.curCol, Screenline.write_of_lt h.curCol,
      Option.bind_eq_bind, Option.bind_some]
    split
    · exact ⟨_, rfl, rfl⟩
    · exact ⟨_, rfl, rfl⟩
  have hstar : st.star c = some
      { st with
        screen :=
          { st.screen.setLine st.line l with curCol := toUchar (st.screen.curCol + 1) } } := by
    rw [star, hl]
    rfl
  exact ⟨_, hstar, ⟨toUchar_lt_lineLen (st.screen.curCol + 1), h.setLine (hlen.trans_le (h.len _)),
    h.saved⟩, rfl⟩

/-- An iteration leaves the columns as they should be, and ends before the end of the string. -/
structure Fine (str : Bytes) (st st' : Outns scrLns) : Prop where
  ok : st'.Ok
  le : st.i ≤ st'.i
  lt : st'.i < str.length

/-- A sequence other than that for the position or for a move to the left. -/
theorem seqClean_of_ne {s : Screen scrLns} {e : EscapeSeq} (hpos : ¬(e.final = 72 ∨ e.final = 102))
    (hleft : e.final = 68 → ¬e.j ≤ 5) : SeqClean s e :=
  ⟨fun h => absurd h hpos, fun h hle => absurd hle (hleft h)⟩

/-- A state comes out, and it is `Fine`. -/
def Gives (str : Bytes) (st : Outns scrLns) (r : Option (Outns scrLns)) : Prop :=
  ∃ st', r = some st' ∧ Fine str st st'

def EscapeRight (st : Outns scrLns) (e : EscapeSeq) (r : Option (Outns scrLns)) : Prop :=
  (SeqClean st.screen e ∧ Gives e.str st r) ∨ (¬SeqClean st.screen e ∧ r = none)

/-- A sequence is carried out if and only if it stays in the line buffers. -/
theorem escape_spec (h : st.Ok) {e : EscapeSeq} (limit : Nat) (typed : Bool) (hi : e.i = st.i)
    (hlt : st.i < e.str.length) (hj : 2 ≤ e.j)
    (hfinal : charAt e.str (e.i + e.j) = some e.final) :
    EscapeRight st e (st.escape e limit typed) := by
  have hend : e.final ≠ 0 → e.i + e.j < e.str.length := lt_of_charAt hfinal
  have hle : st.i ≤ e.i + e.j := by omega
  have hskip : e.final ≠ 0 → Fine e.str st { st with i := e.i + e.j } := fun hne =>
    ⟨⟨h.curCol, h.len, h.saved⟩, hle, hend hne⟩
  have hscreen : ∀ s : Screen scrLns, e.final ≠ 0 →
      ({ st with screen := s, i := e.i + e.j } : Outns scrLns).Ok →
        Fine e.str st { st with screen := s, i := e.i + e.j } :=
    fun s hne hok => ⟨hok, hle, hend hne⟩
  have hother : ∀ v, e.final = v → v ≠ 72 → v ≠ 102 → v ≠ 68 → SeqClean st.screen e := by
    rintro v rfl h₁ h₂ h₃
    exact seqClean_of_ne (fun hpos => hpos.elim h₁ h₂) fun hleft => absurd hleft h₃
  rw [escape]
  dsimp only
  refine iteInduction (fun hs => ?_) fun _ => ?_
  · refine .inl ⟨hother 115 hs.1 (by decide) (by decide) (by decide), _, rfl,
      ⟨h.curCol, h.len, ?_⟩, hle, hend (by rw [hs.1]; decide)⟩
    rintro y x ⟨⟩
    exact h.curCol
  refine iteInduction (fun hs => ?_) fun _ => ?_
  · have hne : e.final ≠ 0 := by rw [hs.1]; decide
    refine .inl ⟨hother 117 hs.1 (by decide) (by decide) (by decide), ?_⟩
    split
    case h_1 y x hsaved =>
      split
      · exact ⟨_, rfl, hskip hne⟩
      · exact ⟨_, rfl, hscreen _ hne ⟨h.saved y x hsaved, h.len, h.saved⟩⟩
    case h_2 => exact ⟨_, rfl, hskip hne⟩
  refine iteInduction (fun hs => ?_) fun _ => ?_
  · refine .inl ⟨hother 74 hs (by decide) (by decide) (by decide), _, rfl,
      hscreen _ (by rw [hs]; decide) ?_⟩
    split
    · exact ⟨h.curCol, h.len, h.saved⟩
    · exact ⟨Nat.zero_lt_succ _, h.clear, h.saved⟩
  refine iteInduction (fun hs => ?_) fun _ => ?_
  · refine .inl ⟨hother 77 hs (by decide) (by decide) (by decide), _, rfl,
      hscreen _ (by rw [hs]; decide) ?_⟩
    split
    · exact ⟨(refreshed_curCol st.screen typed).trans_lt h.curCol, h.refreshed typed, h.saved⟩
    · exact ⟨h.curCol, h.len, h.saved⟩
  refine iteInduction (fun hs => ?_) fun hpos => ?_
  · have hne : e.final ≠ 0 := by rcases hs with hs | hs <;> rw [hs] <;> decide
    have hleft : e.final ≠ 68 := by rcases hs with hs | hs <;> rw [hs] <;> decide
    have hclean : SeqClean st.screen e ↔ (st.position e).isSome = true := by
      rw [position_isSome_iff h]
      exact ⟨fun hc => hc.1 hs, fun hc => ⟨fun _ => hc, fun hf => absurd hf hleft⟩⟩
    rw [EscapeRight, hclean]
    cases hpos : st.position e with
    | none => exact .inr ⟨Bool.false_ne_true, rfl⟩
    | some s => exact .inl ⟨rfl, _, rfl, hscreen s hne (position_ok h hpos _)⟩
  refine iteInduction (fun hs => ?_) fun hmove => ?_
  · have hne : e.final ≠ 0 := by rcases hs.1 with hs | hs | hs | hs <;> rw [hs] <;> decide
    have hclean : SeqClean st.screen e ↔ (st.moveBy e).isSome = true := by
      rw [moveBy_isSome_iff h hs.1]
      exact ⟨fun hc hf hd => hc.2 hf hs.2 hd,
        fun hc => ⟨fun hp => absurd hp hpos, fun hf _ => hc hf⟩⟩
    rw [EscapeRight, hclean]
    cases hmove : st.moveBy e with
    | none => exact .inr ⟨Bool.false_ne_true, rfl⟩
    | some s => exact .inl ⟨rfl, _, rfl, hscreen s hne (moveBy_ok h hmove _)⟩
  have hclean : SeqClean st.screen e :=
    seqClean_of_ne hpos fun hf hle5 => hmove ⟨.inr (.inr (.inr hf)), hle5⟩
  have hgives (r : Option (Outns scrLns)) (hr : Gives e.str st r) : EscapeRight st e r :=
    .inl ⟨hclean, hr⟩
  refine iteInduction (fun hs => hgives _ ?_) fun _ => ?_
  · obtain ⟨st', hst, hok, hi', hend'⟩ := colour_spec h limit hj hfinal
      (by rw [hs]; decide)
    exact ⟨st', hst, hok, hi ▸ hi', Nat.lt_of_le_of_lt hend' (hend (by rw [hs]; decide))⟩
  refine iteInduction (fun halpha => hgives _ ?_) fun _ => hgives _ ?_
  · refine ⟨_, rfl, hskip ?_⟩
    rintro h0
    rw [h0] at halpha
    exact absurd halpha (by decide)
  · obtain ⟨st', hst, hok, hi'⟩ := star_spec h 27
    exact ⟨st', hst, hok, hi'.ge, hi'.trans_lt hlt⟩

theorem atSeq_iff {str : Bytes} {limit : Nat} :
    st.atSeq str limit = true ↔ st.i < limit ∧ charAt str st.i = some 27 ∧
      st.screen.showansi = true ∧ charAt str (st.i + 1) = some 91 := by
  rw [atSeq, Bool.and_eq_true, Bool.and_eq_true, Bool.and_eq_true, decide_eq_true_iff,
    decide_eq_true_iff, decide_eq_true_iff, and_assoc, and_assoc]

theorem filled_eq (h : st.Ok) :
    st.screen.slp.fillUp st.screen.curCol = some (st.screen.slp.filled st.screen.curCol) :=
  Screenline.fillUp_eq h.curCol

/-- With colours off a sequence is passed over up to a letter or up to the terminating zero. -/
theorem scan_spec_off {str : Bytes} {i : Nat} (hi : i ≤ str.length) (h0 : 0 ∉ str) :
    ∃ q, scan (charAt str) endsColour (str.length + 2) i = some q ∧ i ≤ q ∧
      (q < str.length ∧ LetterFrom str i ∨ q = str.length ∧ ¬LetterFrom str i) := by
  obtain ⟨q, hq, hle⟩ : ∃ q, scan (charAt str) endsColour (str.length + 2) i = some q ∧
      q ≤ str.length :=
    scan_isSome (charAt_sized str) (by omega) hi (charAt_length str) (by decide)
  obtain ⟨hiq, ⟨c, hc, hstop⟩, hbefore⟩ := scan_spec hq
  refine ⟨q, hq, hiq, ?_⟩
  rcases Nat.lt_or_eq_of_le hle with hlt | rfl
  · -- the byte is in the string, so it is not zero
    have hget : str[q]? = some c := (charAt_of_lt hlt).symm.trans hc
    have halpha : isalpha c = true := by
      rw [endsColour, Bool.or_eq_true] at hstop
      refine hstop.resolve_right fun hzero => h0 ?_
      rw [← of_decide_eq_true hzero]
      exact List.mem_of_getElem? hget
    exact .inl ⟨hlt, q, hlt, hiq, by rw [hget]; exact halpha⟩
  · refine .inr ⟨rfl, ?_⟩
    rintro ⟨k, hk, hik, halpha⟩
    obtain ⟨c', hc', hno⟩ := hbefore k hik hk
    rw [← charAt_of_lt hk, hc', Option.any_some] at halpha
    rw [endsColour, halpha, Bool.true_or] at hno
    cases hno

/-- An iteration at a byte that is not a sequence. -/
theorem body_plain (h : st.Ok) {str : Bytes} {limit : Nat} {typed : Bool} {c : UInt8}
    (hc : charAt str st.i = some c) (hc0 : c ≠ 0) (hlimit : st.i < limit)
    (hseq : st.atSeq str limit = false) :
    Gives str st (st.body str limit typed c) := by
  have hi := lt_of_charAt hc hc0
  have hok := h.filled
  have hfilled := Screenline.filled_len_le (h.len (st.screen.lineOf st.screen.curLn))
    (Nat.le_of_lt_succ h.curCol)
  rw [body, filled_eq h, Option.bind_eq_bind, Option.bind_some]
  dsimp only
  refine iteInduction (fun hprint => ?_) fun _ => ?_
  · obtain ⟨i', l', col', hrun, hi', hle, hlen, hcol⟩ := storeRun_spec limit
      isprint2 (str.length + 2)
      (l := (st.screen.slp.filled st.screen.curCol).startMark st.screen.curCol) h.curCol hi
      (charAt_length str) (by decide) (by omega)
    have hrun' : storeRun str limit isprint2 (str.length + 2) st.i
        ((st.screen.slp.filled st.screen.curCol).startMark st.screen.curCol) st.screen.curCol =
          some (i', l', col') := hrun
    refine ⟨_, congrArg (Option.bind · _) hrun', ⟨hcol, hok.setLine ?_, h.saved⟩, ?_, ?_⟩
    · refine Nat.max_le.mpr ⟨?_, Nat.le_of_lt_succ hcol⟩
      exact hlen.trans_le (Screenline.startMark_len.trans_le hfilled)
    · dsimp only
      omega
    · dsimp only
      omega
  refine iteInduction (fun _ => ⟨_, rfl, hok, Nat.le_refl _, hi⟩) fun _ => ?_
  refine iteInduction (fun _ => ?_) fun _ => ?_
  · refine ⟨_, rfl, ⟨Nat.zero_lt_succ _, hok.setLine ?_, h.saved⟩, Nat.le_refl _, hi⟩
    exact Nat.le_of_lt_succ h.curCol
  refine iteInduction (fun hs => ?_) fun _ => ?_
  · obtain ⟨c₁, hc₁⟩ := (charAt_sized str).exists_of_lt (Nat.succ_lt_succ hi)
    have hne : c₁ ≠ 91 := by
      rintro rfl
      rw [← Bool.not_eq_true, atSeq_iff] at hseq
      exact hseq ⟨hlimit, hs.1 ▸ hc, hs.2, hc₁⟩
    rw [hc₁, Option.bind_eq_bind, Option.bind_some, if_pos hne]
    exact ⟨_, rfl, hok, Nat.le_refl _, hi⟩
  · obtain ⟨st', hst, hok', hi'⟩ := star_spec hok c
    exact ⟨st', hst, hok', hi'.ge, hi'.trans_lt hi⟩

/-- An iteration at a sequence. -/
theorem body_eq_of_atSeq (h : st.Ok) {str : Bytes} {limit : Nat} {typed : Bool}
    (hseq : st.atSeq str limit = true) :
    st.body str limit typed 27 =
      if st.screen.iscolor = false then
        (scan (charAt str) endsColour (str.length + 2) st.i).map fun i =>
          { st with screen := st.filled, i := i }
      else
        (EscapeSeq.read str st.i).bind fun e =>
          ({ st with screen := st.filled } : Outns scrLns).escape e limit typed := by
  obtain ⟨-, -, hansi, hc₁⟩ := atSeq_iff.mp hseq
  have hansi' : (27 : UInt8) = 27 ∧
      (st.screen.setLine st.line (st.screen.slp.filled st.screen.curCol)).showansi = true :=
    ⟨rfl, hansi⟩
  rw [body, filled_eq h, Option.bind_eq_bind, Option.bind_some]
  dsimp only
  rw [if_neg (by decide), if_neg (by decide), if_neg (by decide), if_pos hansi', hc₁,
    Option.bind_eq_bind, Option.bind_some, if_neg (by decide)]
  exact if_congr Iff.rfl (Option.map_eq_bind ..).symm rfl

/-- An iteration at a sequence stays in the line buffers and in the string if and only if it is
clean. -/
theorem body_seq (h : st.Ok) {str : Bytes} (h0 : 0 ∉ str) {limit : Nat} {typed : Bool}
    (hseq : st.atSeq str limit = true) :
    (Clean str limit st ∧ ∃ st', st.body str limit typed 27 = some st' ∧ st'.Ok ∧ st.i ≤ st'.i ∧
      (st'.i < str.length ∨ limit ≤ st'.i + 1)) ∨
    (¬Clean str limit st ∧ (st.body str limit typed 27 = none ∨
      ∃ st', st.body str limit typed 27 = some st' ∧ str.length ≤ st'.i ∧ st'.i + 1 < limit)) := by
  obtain ⟨hlimit, hc, hansi, hc₁⟩ := atSeq_iff.mp hseq
  have hi := lt_of_charAt hc (by decide)
  rw [body_eq_of_atSeq h hseq, Clean]
  simp only [hseq, forall_const]
  by_cases hcolor : st.screen.iscolor = false
  · rw [if_pos hcolor, if_pos hcolor]
    obtain ⟨q, hq, hiq, hend⟩ := scan_spec_off (Nat.le_of_lt hi) h0
    rw [hq, Option.map_some]
    rcases hend with ⟨hlt, hletter⟩ | ⟨rfl, hletter⟩
    · exact .inl ⟨.inl hletter, _, rfl, h.filled.at q, hiq, .inl hlt⟩
    · by_cases hend : limit ≤ str.length + 1
      · exact .inl ⟨.inr hend, _, rfl, h.filled.at _, hiq, .inr hend⟩
      · refine .inr ⟨not_or.mpr ⟨hletter, hend⟩, .inr ⟨_, rfl, Nat.le_refl _, ?_⟩⟩
        exact Nat.lt_of_not_le hend
  · rw [if_neg hcolor, if_neg hcolor]
    obtain ⟨e, he, rfl, hei, hj, hfinal, -⟩ := EscapeSeq.read_spec hc₁
    rw [he, Option.bind_some, Option.all_some, decide_eq_true_iff]
    rcases escape_spec h.filled limit typed hei hi hj (hei ▸ hfinal) with
      ⟨hclean, st', hst, hfine⟩ | ⟨hclean, hnone⟩
    · exact .inl ⟨hclean, st', hst, hfine.ok, hfine.le, .inl hfine.lt⟩
    · exact .inr ⟨hclean, .inl hnone⟩

/-! ## The row of the cursor -/

/-- The rows that the cursor can be put in are those of the screen and the one below it. -/
structure RowOk (st : Outns scrLns) : Prop where
  curLn : st.screen.curLn ≤ scrLns
  saved : ∀ y x, st.saved = some (y, x) → y ≤ scrLns
  offsetln : st.screen.offsetln ≤ scrLns

theorem clear_curLn {s : Screen scrLns} (hn : scrLns < 256) (h : s.offsetln ≤ scrLns) :
    s.clear.curLn ≤ scrLns := by
  have hrow : s.clear.curLn = toUchar s.offsetln := rfl
  rw [hrow, toUchar]
  omega

theorem nextRow_curLn {s : Screen scrLns} (h : s.curLn ≤ scrLns) : s.nextRow.curLn ≤ scrLns := by
  dsimp only [Screen.nextRow]
  split
  case isTrue hlt => exact hlt
  case isFalse => exact h

theorem position_row (hn : scrLns < 256) (h : st.RowOk) {e : EscapeSeq} {s : Screen scrLns}
    (hs : st.position e = some s) : s.curLn ≤ scrLns ∧ s.offsetln ≤ scrLns := by
  rw [position] at hs
  split at hs
  · dsimp only at hs
    split at hs
    case isTrue hin =>
      rw [Option.bind_eq_bind, Option.bind_eq_some_iff] at hs
      obtain ⟨t, -, hs⟩ := hs
      obtain rfl := Option.some.inj hs
      refine ⟨?_, h.offsetln⟩
      dsimp only
      omega
    case isFalse =>
      obtain rfl := Option.some.inj hs
      exact ⟨h.curLn, h.offsetln⟩
  · split at hs
    · obtain rfl := Option.some.inj hs
      exact ⟨clear_curLn hn h.offsetln, h.offsetln⟩
    · obtain rfl := Option.some.inj hs
      exact ⟨h.curLn, h.offsetln⟩

theorem moveBy_row (h : st.RowOk) {e : EscapeSeq}
    (hup : e.final = 65 → st.screen.disableMove = false →
      toUchar (st.screen.curLn - e.count) ≤ scrLns)
    {s : Screen scrLns} (hs : st.moveBy e = some s) :
    s.curLn ≤ scrLns ∧ s.offsetln ≤ scrLns := by
  rw [moveBy] at hs
  dsimp only at hs
  split at hs
  case isTrue =>
    obtain rfl := Option.some.inj hs
    exact ⟨h.curLn, h.offsetln⟩
  case isFalse hmove =>
  split at hs
  case isTrue hfinal =>
    obtain rfl := Option.some.inj hs
    refine ⟨?_, h.offsetln⟩
    dsimp only
    split
    · exact h.offsetln
    · exact hup hfinal (Bool.eq_false_iff.mpr hmove)
  case isFalse =>
  split at hs
  case isTrue =>
    obtain rfl := Option.some.inj hs
    refine ⟨?_, h.offsetln⟩
    dsimp only
    split <;> omega
  case isFalse =>
  split at hs
  case isTrue =>
    obtain rfl := Option.some.inj hs
    exact ⟨h.curLn, h.offsetln⟩
  case isFalse =>
    rw [Option.bind_eq_bind, Option.bind_eq_some_iff] at hs
    obtain ⟨t, -, hs⟩ := hs
    obtain rfl := Option.some.inj hs
    exact ⟨h.curLn, h.offsetln⟩

theorem colour_row (h : st.RowOk) {e : EscapeSeq} {limit : Nat} {st' : Outns scrLns}
    (hs : st.colour e limit = some st') : st'.RowOk := by
  rw [colour] at hs
  simp only [Option.bind_eq_bind, Option.bind_eq_some_iff] at hs
  obtain ⟨_, -, _, -, _, -, hs⟩ := hs
  obtain rfl := Option.some.inj hs
  exact ⟨h.curLn, h.saved, h.offsetln⟩

theorem star_row (h : st.RowOk) {c : UInt8} {st' : Outns scrLns} (hs : st.star c = some st') :
    st'.RowOk := by
  rw [star, Option.bind_eq_bind, Option.bind_eq_some_iff] at hs
  obtain ⟨_, -, hs⟩ := hs
  obtain rfl := Option.some.inj hs
  exact ⟨h.curLn, h.saved, h.offsetln⟩

theorem refreshed_row (h : st.RowOk) (typed : Bool) :
    (st.screen.refreshed typed).curLn ≤ scrLns ∧
      (st.screen.refreshed typed).offsetln ≤ scrLns := by
  rw [Screen.refreshed]
  split_ifs <;> exact ⟨h.curLn, h.offsetln⟩

def RowsOk (r : Option (Outns scrLns)) : Prop := ∀ st' : Outns scrLns, r = some st' → st'.RowOk

theorem RowsOk.some (h : st.RowOk) : RowsOk (some st) := fun _ hs => Option.some.inj hs ▸ h

theorem escape_row (hn : scrLns < 256) (h : st.RowOk) {e : EscapeSeq} {limit : Nat} {typed : Bool}
    (hup : e.final = 65 → e.j ≤ 5 → st.screen.disableMove = false →
      toUchar (st.screen.curLn - e.count) ≤ scrLns) :
    RowsOk (st.escape e limit typed) := by
  have hskipped : RowsOk (some { st with i := e.i + e.j }) := .some ⟨h.curLn, h.saved, h.offsetln⟩
  rw [escape]
  dsimp only
  refine iteInduction (fun _ => .some ⟨h.curLn, ?_, h.offsetln⟩) fun _ => ?_
  · rintro y x ⟨⟩
    exact h.curLn
  refine iteInduction (fun _ => ?_) fun _ => ?_
  · split
    case h_1 y x hsaved =>
      refine iteInduction (fun _ => hskipped) fun _ => .some ?_
      exact ⟨h.saved y x hsaved, h.saved, h.offsetln⟩
    case h_2 => exact hskipped
  refine iteInduction (fun _ => .some ?_) fun _ => ?_
  · split
    · exact ⟨h.curLn, h.saved, h.offsetln⟩
    · exact ⟨clear_curLn hn h.offsetln, h.saved, h.offsetln⟩
  refine iteInduction (fun _ => .some ?_) fun _ => ?_
  · have hrow := refreshed_row h typed
    split
    · exact ⟨hrow.1, h.saved, hrow.2⟩
    · exact ⟨h.curLn, h.saved, h.offsetln⟩
  refine iteInduction (fun _ st' hs => ?_) fun _ => ?_
  · obtain ⟨s, hpos, rfl⟩ := Option.map_eq_some_iff.mp hs
    have hrow := position_row hn h hpos
    exact ⟨hrow.1, h.saved, hrow.2⟩
  refine iteInduction (fun hkind st' hs => ?_) fun _ => ?_
  · obtain ⟨s, hmove, rfl⟩ := Option.map_eq_some_iff.mp hs
    have hrow := moveBy_row h (fun hfinal => hup hfinal hkind.2) hmove
    exact ⟨hrow.1, h.saved, hrow.2⟩
  refine iteInduction (fun _ _ hs => colour_row h hs) fun _ => ?_
  exact iteInduction (fun _ => hskipped) fun _ _ hs => star_row h hs

/-- The cursor gets out of the screen only by a move up. -/
theorem body_row (hn : scrLns < 256) (h : st.RowOk) (hok : st.Ok) {str : Bytes} {limit : Nat}
    {typed : Bool} {c : UInt8} (hc : charAt str st.i = some c) (hlimit : st.i < limit)
    (hC : RowClean str limit st) {st' : Outns scrLns} (hs : st.body str limit typed c = some st') :
    st'.RowOk := by
  have hfilled : ({ st with screen := st.filled } : Outns scrLns).RowOk :=
    ⟨h.curLn, h.saved, h.offsetln⟩
  by_cases hseq : st.atSeq str limit = true
  · obtain ⟨-, hc', -, -⟩ := atSeq_iff.mp hseq
    obtain rfl : c = 27 := Option.some.inj (hc.symm.trans hc')
    rw [body_eq_of_atSeq hok hseq] at hs
    split at hs
    · obtain ⟨i, -, rfl⟩ := Option.map_eq_some_iff.mp hs
      exact ⟨h.curLn, h.saved, h.offsetln⟩
    case isFalse hcolor =>
      obtain ⟨e, he, hs⟩ := Option.bind_eq_some_iff.mp hs
      have hup := hC hseq (Bool.not_eq_false _ ▸ hcolor)
      rw [he, Option.all_some, decide_eq_true_iff] at hup
      exact escape_row hn hfilled hup _ hs
  · revert st'
    rw [body, filled_eq hok, Option.bind_eq_bind, Option.bind_some]
    dsimp only
    change RowsOk _
    refine iteInduction (fun _ st' hs => ?_) fun _ => ?_
    · rw [Option.bind_eq_bind, Option.bind_eq_some_iff] at hs
      obtain ⟨_, -, hs⟩ := hs
      obtain rfl := Option.some.inj hs
      exact ⟨h.curLn, h.saved, h.offsetln⟩
    refine iteInduction (fun _ => .some hfilled) fun _ => ?_
    refine iteInduction (fun _ => .some ?_) fun _ => ?_
    · exact ⟨nextRow_curLn h.curLn, h.saved, h.offsetln⟩
    refine iteInduction (fun hesc st' hs => ?_) fun _ _ hs => star_row hfilled hs
    rw [Option.bind_eq_bind, Option.bind_eq_some_iff] at hs
    obtain ⟨c₁, hc₁, hs⟩ := hs
    have hne : c₁ ≠ 91 := by
      rintro rfl
      exact hseq (atSeq_iff.mpr ⟨hlimit, hesc.1 ▸ hc, hesc.2, hc₁⟩)
    rw [if_pos hne] at hs
    obtain rfl := Option.some.inj hs
    exact hfilled

/-! ## The whole string -/

theorem clean_of_not_atSeq {str : Bytes} {limit : Nat} (h : st.atSeq str limit = false) :
    Clean str limit st := fun hseq => by rw [h] at hseq; cases hseq

/-- An iteration at any byte. -/
theorem body_iff (h : st.Ok) {str : Bytes} (h0 : 0 ∉ str) {limit : Nat} (typed : Bool) {c : UInt8}
    (hc : charAt str st.i = some c) (hc0 : c ≠ 0) (hlimit : st.i < limit) :
    (Clean str limit st ∧ ∃ st', st.body str limit typed c = some st' ∧ st'.Ok ∧ st.i ≤ st'.i ∧
      (st'.i < str.length ∨ limit ≤ st'.i + 1)) ∨
    (¬Clean str limit st ∧ (st.body str limit typed c = none ∨
      ∃ st', st.body str limit typed c = some st' ∧ str.length ≤ st'.i ∧ st'.i + 1 < limit)) := by
  cases hseq : st.atSeq str limit with
  | false =>
    obtain ⟨st', hst, hfine⟩ := body_plain h hc hc0 hlimit hseq
    exact .inl ⟨clean_of_not_atSeq hseq, st', hst, hfine.ok, hfine.le, .inl hfine.lt⟩
  | true =>
    obtain ⟨-, hc', -, -⟩ := atSeq_iff.mp hseq
    obtain rfl : c = 27 := Option.some.inj (hc.symm.trans hc')
    exact body_seq h h0 hseq

theorem more_of_le {str : Bytes} {limit : Nat} (h : limit ≤ st.i) :
    st.more str limit = some none := if_neg (Nat.not_lt.mpr h)

theorem more_zero {str : Bytes} {limit : Nat} (hc : charAt str st.i = some 0) :
    st.more str limit = some none := by
  rw [more, hc]
  split <;> rfl

theorem more_some {str : Bytes} {limit : Nat} {c : UInt8} (h : st.i < limit)
    (hc : charAt str st.i = some c) (hc0 : c ≠ 0) : st.more str limit = some (some c) := by
  rw [more, if_pos h, hc, Option.map_some, if_neg hc0]

/-- The loop ends where it is. -/
theorem loop_end {str : Bytes} {limit : Nat} {typed : Bool} (h : st.more str limit = some none)
    (fuel : Nat) : loop str limit typed fuel st = some st := by
  cases fuel with
  | zero => rfl
  | succ fuel => rw [loop, h]; rfl

theorem loop_some {str : Bytes} {limit : Nat} {typed : Bool} {c : UInt8} (h : st.i < limit)
    (hc : charAt str st.i = some c) (hc0 : c ≠ 0) (fuel : Nat) :
    loop str limit typed (fuel + 1) st =
      (st.body str limit typed c).bind fun st =>
        loop str limit typed fuel { st with i := st.i + 1 } := by
  rw [loop, more_some h hc hc0]
  rfl

theorem step_some {str : Bytes} {limit : Nat} {typed : Bool} {c : UInt8} (h : st.i < limit)
    (hc : charAt str st.i = some c) (hc0 : c ≠ 0) :
    st.step str limit typed () =
      (st.body str limit typed c).map fun st => { st with i := st.i + 1 } := by
  rw [step, more_some h hc hc0]

theorem step_end {str : Bytes} {limit : Nat} {typed : Bool} (h : st.more str limit = some none) :
    st.step str limit typed () = none := by
  rw [step, h]

theorem atSeq_of_end {str : Bytes} {limit : Nat} (h : st.more str limit = some none) :
    st.atSeq str limit = false := by
  rw [← Bool.not_eq_true, atSeq_iff]
  rintro ⟨hlt, hc, -⟩
  rw [more_some hlt hc (by decide)] at h
  cases h

/-- The loop ends, or is at a byte of the string. -/
theorem more_cases {str : Bytes} {limit : Nat} (hpos : st.i ≤ str.length ∨ limit ≤ st.i) :
    st.more str limit = some none ∨ ∃ c, st.i < limit ∧ charAt str st.i = some c ∧ c ≠ 0 := by
  by_cases hlt : st.i < limit
  · obtain ⟨c, hc⟩ := (charAt_sized str).exists_of_lt (p := st.i) (by omega)
    by_cases hc0 : c = 0
    · exact .inl (more_zero (hc0 ▸ hc))
    · exact .inr ⟨c, hlt, hc, hc0⟩
  · exact .inl (more_of_le (Nat.le_of_not_lt hlt))

/-- The loop stays in the line buffers and in the string if and only if its iterations are clean. -/
theorem loop_isSome_iff {str : Bytes} (h0 : 0 ∉ str) (limit : Nat) (typed : Bool) {fuel : Nat}
    (h : st.Ok) (hpos : st.i ≤ str.length ∨ limit ≤ st.i) (hfuel : limit ≤ fuel + st.i) :
    (loop str limit typed fuel st).isSome = true ↔
      Reach.Along (step str limit typed) (fun st _ => Clean str limit st) st
        (List.replicate fuel ()) := by
  induction fuel generalizing st with
  | zero => exact ⟨fun _ => trivial, fun _ => rfl⟩
  | succ fuel ih =>
    rw [List.replicate_succ, Reach.Along]
    rcases more_cases hpos with hend | ⟨c, hlt, hc, hc0⟩
    · rw [loop_end hend, step_end hend]
      exact ⟨fun _ => ⟨clean_of_not_atSeq (atSeq_of_end hend), trivial⟩, fun _ => rfl⟩
    rw [loop_some hlt hc hc0, step_some hlt hc hc0]
    rcases body_iff h h0 typed hc hc0 hlt with
      ⟨hclean, st', hbody, hok, hle, hnext⟩ | ⟨hclean, hbody⟩
    · rw [hbody, Option.bind_some, Option.map_some, ih (hok.at _) (by dsimp only; omega)
        (by dsimp only; omega)]
      exact ⟨fun hrest => ⟨hclean, hrest⟩, fun hall => hall.2⟩
    · refine ⟨fun hsome => ?_, fun hall => absurd hall.1 hclean⟩
      rcases hbody with hnone | ⟨st', hbody, hlen, hlim⟩
      · rw [hnone] at hsome
        cases hsome
      · -- the test of the loop reads behind the terminating zero
        have hread : charAt str (st'.i + 1) = none := (charAt_sized str _).mpr (by omega)
        have hi := lt_of_charAt hc hc0
        obtain ⟨fuel, rfl⟩ : ∃ k, fuel = k + 1 := Nat.exists_eq_add_one_of_ne_zero (by omega)
        have hmore : ({ st' with i := st'.i + 1 } : Outns scrLns).more str limit = none := by
          rw [more, if_pos hlim, hread, Option.map_none]
        rw [hbody, Option.bind_some, loop, hmore] at hsome
        cases hsome

/-- The cursor stays in the screen if the moves up do. -/
theorem loop_row (hn : scrLns < 256) {str : Bytes} (h0 : 0 ∉ str) {limit : Nat} {typed : Bool}
    {fuel : Nat} (h : st.Ok) (hrow : st.RowOk) (hpos : st.i ≤ str.length ∨ limit ≤ st.i)
    (hC : Reach.Along (step str limit typed)
      (fun st _ => Clean str limit st ∧ RowClean str limit st) st (List.replicate fuel ()))
    {st' : Outns scrLns} (hst' : loop str limit typed fuel st = some st') :
    st'.Ok ∧ st'.RowOk := by
  induction fuel generalizing st with
  | zero =>
    obtain rfl := Option.some.inj hst'
    exact ⟨h, hrow⟩
  | succ fuel ih =>
    rw [List.replicate_succ, Reach.Along] at hC
    rcases more_cases hpos with hend | ⟨c, hlt, hc, hc0⟩
    · rw [loop_end hend] at hst'
      obtain rfl := Option.some.inj hst'
      exact ⟨h, hrow⟩
    rw [loop_some hlt hc hc0] at hst'
    rw [step_some hlt hc hc0] at hC
    obtain ⟨⟨hclean, hrowClean⟩, hrest⟩ := hC
    rcases body_iff h h0 typed hc hc0 hlt with
      ⟨-, st₁, hbody, hok, hle, hnext⟩ | ⟨hunclean, -⟩
    · rw [hbody, Option.bind_some] at hst'
      rw [hbody, Option.map_some] at hrest
      have hrow₁ := body_row hn hrow h hc hlt hrowClean hbody
      exact ih (hok.at (st₁.i + 1)) ⟨hrow₁.curLn, hrow₁.saved, hrow₁.offsetln⟩
        (by dsimp only; omega) hrest hst'
    · exact absurd hclean hunclean

end Outns

/-- `outns` accesses the lines in their columns and the string up to its terminating zero if and
only if its iterations are clean, and leaves the cursor in the screen if they also do not move it
out upwards. -/
theorem Screen.outns_safe {scrLns : Nat} (hn : scrLns < 256) {s : Screen scrLns}
    (hcol : s.curCol ≤ wrapMargin) (hln : s.curLn < scrLns)
    (hlen : ∀ j, (s.bigPicture j).len ≤ wrapMargin) (hoff : s.offsetln ≤ scrLns) {str : Bytes}
    (h0 : 0 ∉ str) (n : Nat) (typed : Bool) :
    ((s.outns str n typed).isSome = true ↔
      Reach.Along (Outns.step str n typed) (fun st _ => st.Clean str n) ⟨s, 0, none⟩
        (List.replicate n ())) ∧
    (Reach.Along (Outns.step str n typed) (fun st _ => st.Clean str n ∧ st.RowClean str n)
        ⟨s, 0, none⟩ (List.replicate n ()) →
      ∃ s', s.outns str n typed = some s' ∧ s'.curLn ≤ scrLns ∧ s'.curCol < lineLen) := by
  have hok : (⟨s, 0, none⟩ : Outns scrLns).Ok :=
    ⟨Nat.lt_succ_of_le hcol, hlen, fun _ _ hsaved => by cases hsaved⟩
  have hrow : (⟨s, 0, none⟩ : Outns scrLns).RowOk :=
    ⟨Nat.le_of_lt hln, fun _ _ hsaved => (by cases hsaved), hoff⟩
  have hiff := Outns.loop_isSome_iff h0 n typed hok
    (.inl (Nat.zero_le _)) (Nat.le_add_right n 0)
  refine ⟨?_, fun hC => ?_⟩
  · rw [Screen.outns, Option.isSome_map, hiff]
  · have hsome := hiff.mpr (Reach.along_mono (fun _ _ h => h.1) _ hC)
    obtain ⟨st', hst'⟩ := Option.isSome_iff_exists.mp hsome
    obtain ⟨hok', hrow'⟩ := Outns.loop_row hn h0 hok hrow (.inl (Nat.zero_le _)) hC hst'
    exact ⟨st'.screen, by rw [Screen.outns, hst', Option.map_some], hrow'.curLn, hok'.curCol⟩

/-- An empty screen, with colours and escape sequences on. -/
def demoScreen : Screen 24 :=
  { bigPicture := fun _ => .zero
    curLn := 0
    curCol := 0
    roll := 0
    scrollcnt := 0
    docls := false
    standing := false
    inansi := false
    offsetln := 0
    disableMove := false
    iscolor := true
    showansi := true }

/-- Text with colours, a position, moves, a saved position and a sequence without an end. -/
def demoText : Bytes :=
  bytes "ab" ++ 27 :: bytes "[1;31mc" ++ 27 :: bytes "[2;3Hx" ++ 27 :: bytes "[sy" ++
    27 :: bytes "[2D" ++ 27 :: bytes "[B" ++ 27 :: bytes "[Az" ++ 27 :: bytes "[uq" ++ 27 :: bytes "[5"

theorem Screen.outns_safe_demo : ∃ s', demoScreen.outns demoText 4096 false = some s' ∧
    s'.curLn ≤ 24 ∧ s'.curCol < lineLen :=
  (outns_safe (by decide) (by decide) (by decide) (fun _ => Nat.zero_le _) (by decide)
    (by decide +kernel) 4096 false).2 (by decide +kernel)

/-- A move to the left behind an `m`. -/
theorem Screen.outns_leaves_line : ¬∀ (s : Screen 24) (str : Bytes), s.curLn < 24 →
    s.curCol ≤ wrapMargin → s.roll < 24 → (∀ j, (s.bigPicture j).len ≤ wrapMargin) →
      s.offsetln = 0 → 0 ∉ str → ∃ s', s.outns str 4096 false = some s' ∧ s'.curLn ≤ 24 := by
  intro hclaim
  obtain ⟨s', hs', -⟩ := hclaim demoScreen (109 :: 27 :: bytes "[D") (by decide) (by decide)
    (by decide) (fun _ => Nat.zero_le _) rfl (by decide +kernel)
  have hnone : (demoScreen.outns (109 :: 27 :: bytes "[D") 4096 false).isNone = true := by
    decide +kernel
  rw [hs'] at hnone
  cases hnone

end ArgoBbs

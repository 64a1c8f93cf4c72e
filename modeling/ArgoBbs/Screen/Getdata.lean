import ArgoBbs.Consts
import ArgoBbs.Lib.DoubleByte
import ArgoBbs.Lib.LineEditor
import ArgoBbs.Lib.Reach
import ArgoBbs.Lib.StringBuffer

/-! # Input of a line

`getdata` lets the user edit a line in the caller's buffer of `len` bytes. The first key may replace
what is in it, and in double-byte mode Backspace takes out a character. On a dumb terminal or without
echo bytes are typed and taken back only (`io.c`). -/

namespace ArgoBbs

/-! ## Keys -/

/-- What the functions that let the user edit a text do for a key. -/
inductive InputKey
  | enter
  | toggleDbchar
  | backspace
  | delete
  | kill
  | left
  | right
  | up
  | down
  | beginOfLine
  | endOfLine
  | newline
  | print (ch : UInt8)
  | other
  deriving DecidableEq

/-- A key as `igetkey` gives it, whether `RMSG` is set and `msg_num` is zero then, and
`scr_cols`. -/
structure KeyPress where
  ch : Nat
  rmsg : Bool
  scrCols : Nat

namespace KeyPress

/-- A byte that is printed, or a key of the table. -/
def decode (table : List (Nat × InputKey)) (ch : Nat) : InputKey :=
  if ch < 0x100 ∧ isprint2 (UInt8.ofNat ch) then .print (UInt8.ofNat ch)
  else (table.lookup ch).getD .other

/-- The byte that stands for a key on which the input is left at once. -/
def answer (k : KeyPress) : Option UInt8 :=
  if k.rmsg then
    if k.ch = 26 ∨ k.ch = 0x101 then some 26
    else if k.ch = 1 ∨ k.ch = 0x102 then some 1
    else none
  else none

end KeyPress

def getdataKeys : List (Nat × InputKey) :=
  [(10, .enter), (13, .enter), (18, .toggleDbchar), (0x7f, .backspace), (8, .backspace),
    (4, .delete), (0x203, .delete), (11, .kill), (2, .left), (0x104, .left), (5, .endOfLine),
    (0x204, .endOfLine), (1, .beginOfLine), (0x201, .beginOfLine), (6, .right), (0x103, .right)]

def getdataKey (k : KeyPress) : InputKey := KeyPress.decode getdataKeys k.ch

/-! ## The function -/

/-- The arguments, `x` being the column of the text, and `hidden` that the terminal is dumb or
nothing is echoed. -/
structure Field where
  len : Nat
  x : Nat
  hidden : Bool
  clearlabel : Bool

/-- The memory at `buf`, the variables of the loop, and whether it has been left. -/
structure Getdata where
  buf : Bytes
  clen : Nat
  curr : Nat
  init : Bool
  enabledbchar : Bool
  ended : Bool
  deriving DecidableEq

namespace Getdata
variable (f : Field) (s : Getdata)

/-- What is done before the loop. -/
def start (buf : Bytes) (enabledbchar : Bool) : Option Getdata :=
  if f.clearlabel then
    if f.len ≤ buf.length then
      some ⟨overlay buf 0 (List.replicate f.len 0), 0, 0, true, enabledbchar, false⟩
    else none
  else do
    let text ← cstr buf
    let clen := text.length
    let curr := if f.len ≤ clen then f.len - 1 else clen
    let buf ← putTo f.len buf curr 0
    some ⟨buf, clen, curr, true, enabledbchar, false⟩

/-- What is done behind the loop. -/
def finish : Option Getdata := do
  let buf ← putTo f.len s.buf s.clen 0
  some { s with buf, ended := true }

def answer (c : UInt8) : Option Getdata := do
  let buf ← putTo f.len s.buf 0 c
  finish f { s with buf, clen := 1 }

/-- What is there is taken out if no key came yet. -/
def clear : Option Getdata :=
  if s.init then do
    let buf ← putTo f.len s.buf 0 0
    some { s with buf, init := false, curr := 0, clen := 0 }
  else some s

/-- `strcpy(tmp, &buf[from])` -/
def copyFrom («from» : Nat) : Option Bytes := do
  let tmp ← cstr (s.buf.drop «from»)
  if tmp.length < strLen then some tmp else none

def backspace : Option Getdata := do
  let s ← s.clear f
  if s.curr = 0 then some s
  else do
    let tmp ← s.copyFrom s.curr
    let n := if s.enabledbchar && endsOpen isHigh (s.buf.take (s.curr - 1)) then 2 else 1
    let buf ← putTo f.len s.buf (s.curr - n) 0
    let buf ← strcatTo f.len buf tmp
    some { s with buf, curr := s.curr - n, clen := s.clen - n }

def delete : Option Getdata := do
  let s ← s.clear f
  if s.clen ≤ s.curr then some { s with curr := s.clen }
  else do
    let tmp ← s.copyFrom (s.curr + 1)
    let buf ← putTo f.len s.buf s.curr 0
    let buf ← strcatTo f.len buf tmp
    some { s with buf, clen := s.clen - 1 }

def kill : Option Getdata := do
  let buf ← putTo f.len s.buf s.curr 0
  some { s with buf, init := false, clen := s.curr }

/-- A byte more fits on the line and in the buffer. -/
def hasRoom (k : KeyPress) (clen : Nat) : Bool := f.x + clen < k.scrCols && clen < f.len - 1

def print (k : KeyPress) (c : UInt8) : Option Getdata :=
  if hasRoom f k s.clen then do
    let s ← s.clear f
    let b ← s.buf[s.curr]?
    let buf ←
      if b = 0 then do
        let buf ← putTo f.len s.buf (s.curr + 1) 0
        putTo f.len buf s.curr c
      else if strLen < f.len then none   -- `strncpy` writes `len` bytes to `tmp`
      else do
        let tmp ← cstr (s.buf.drop s.curr)
        let buf ← putTo f.len s.buf s.curr c
        let buf ← putTo f.len buf (s.curr + 1) 0
        strcatTo f.len buf (tmp.take (f.len - s.curr))
    some { s with buf, curr := s.curr + 1, clen := s.clen + 1 }
  else some s

def key (k : KeyPress) : Option Getdata :=
  match getdataKey k with
  | .enter => s.finish f
  | .toggleDbchar => some { s with init := false, enabledbchar := !s.enabledbchar }
  | .backspace => s.backspace f
  | .delete => s.delete f
  | .kill => s.kill f
  | .left => some { s with init := false, curr := s.curr - 1 }
  | .endOfLine => some { s with init := false, curr := s.clen }
  | .beginOfLine => some { s with init := false, curr := 0 }
  | .right =>
    some { s with init := false, curr := if s.clen ≤ s.curr then s.clen else s.curr + 1 }
  | .print c => s.print f k c
  | _ => some { s with init := false }

/-- The loop on a dumb terminal and without echo. -/
def hiddenKey (k : KeyPress) : Option Getdata :=
  match getdataKey k with
  | .enter => s.finish f
  | .backspace => some { s with clen := s.clen - 1 }
  | .print c =>
    if f.len - 1 ≤ s.clen then some s
    else do
      let buf ← putTo f.len s.buf s.clen c
      some { s with buf, clen := s.clen + 1 }
  | _ => some s

def step (k : KeyPress) : Option Getdata :=
  if s.ended then some s
  else
    match k.answer with
    | some c => s.answer f c
    | none => if f.hidden then s.hiddenKey f k else s.key f k

end Getdata

/-! ## What the keys should do -/

/-- An editor of the line. The text may be selected, to be replaced by the first byte typed. -/
structure FieldEdit where
  line : EditLine UInt8
  selected : Bool
  double : Bool
  ended : Bool

namespace FieldEdit
variable (f : Field) (e : FieldEdit)

/-- The line with the selected text taken out. -/
def cleared : EditLine UInt8 := if e.selected then ⟨[], []⟩ else e.line

def key (k : KeyPress) : FieldEdit :=
  match getdataKey k with
  | .enter => { e with ended := true }
  | .toggleDbchar => { e with selected := false, double := !e.double }
  | .backspace =>
    { e with
      selected := false
      line := if e.double then e.cleared.backspaceChar isHigh else e.cleared.backspace }
  | .delete => { e with selected := false, line := e.cleared.delete }
  | .kill => { e with selected := false, line := e.line.kill }
  | .left => { e with selected := false, line := e.line.left }
  | .endOfLine => { e with selected := false, line := e.line.endOfLine }
  | .beginOfLine => { e with selected := false, line := e.line.beginOfLine }
  | .right => { e with selected := false, line := e.line.right }
  | .print c =>
    if Getdata.hasRoom f k e.cleared.text.length then
      { e with selected := false, line := e.cleared.insert c }
    else e
  | _ => { e with selected := false }

def hiddenKey (k : KeyPress) : FieldEdit :=
  match getdataKey k with
  | .enter => { e with ended := true }
  | .backspace =>
    { e with line := if e.double then e.line.backspaceChar isHigh else e.line.backspace }
  | .print c => if e.line.text.length < f.len - 1 then { e with line := e.line.insert c } else e
  | _ => e

def apply (k : KeyPress) : FieldEdit :=
  if e.ended then e
  else
    match k.answer with
    | some c => { e with line := ⟨[c], []⟩, ended := true }
    | none => if f.hidden then e.hiddenKey f k else e.key f k

/-- The text that is there before the first key, with the cursor behind it. -/
def start (buf : Bytes) (enabledbchar : Bool) : FieldEdit :=
  ⟨⟨if f.clearlabel then [] else (cstr buf).getD [], []⟩, true, enabledbchar, false⟩

end FieldEdit

/-- Nothing goes wrong with a key. Without echo, that is that nothing is taken back, and that typing
goes on in front of a zero byte; else that Backspace is not pressed in the middle of a character, and
that the first byte typed still fits in where the text would not be replaced. -/
def Getdata.Safe (f : Field) (s : Getdata) (k : KeyPress) : Prop :=
  s.ended = false → k.answer = none →
    match getdataKey k with
    | .backspace =>
      if f.hidden then s.clen = 0
      else s.init = false → s.enabledbchar = true → s.curr < s.clen →
        endsOpen isHigh (s.buf.take s.curr) = false
    | .print _ =>
      if f.hidden then s.clen < f.len - 1 → s.buf[s.clen + 1]? = some 0
      else s.init = true → Getdata.hasRoom f k 0 = true → Getdata.hasRoom f k s.clen = true
    | _ => True

/-- The text in the buffer is the one that the keys should make, its length and the cursor are
right, and the length is below that of the buffer. -/
structure Agrees (f : Field) (s : Getdata) (e : FieldEdit) : Prop where
  size : f.len ≤ s.buf.length
  text : cstr s.buf = some e.line.text
  clen : s.clen = e.line.text.length
  lt : s.clen + 1 ≤ f.len
  curr : s.ended = false → s.curr ≤ s.clen
  cursor : s.ended = false → if f.hidden then e.line.behind = [] else s.curr = e.line.front.length
  init : s.init = e.selected
  double : s.enabledbchar = e.double
  ended : s.ended = e.ended

/-! ## The keys one by one -/

namespace KeyPress
variable {k : KeyPress} {table : List (Nat × InputKey)} {c : UInt8}

theorem ne_zero_of_decode (htable : ∀ x ∈ table, ∀ c, x.2 ≠ .print c)
    (h : decode table k.ch = .print c) : c ≠ 0 := by
  rw [decode] at h
  split at h
  case isTrue hprint =>
    obtain rfl := InputKey.print.inj h
    rintro hzero
    rw [hzero] at hprint
    exact absurd hprint.2 (by decide)
  case isFalse =>
    cases hlookup : table.lookup k.ch with
    | none => rw [hlookup] at h; cases h
    | some key =>
      rw [hlookup] at h
      obtain ⟨l₁, l₂, rfl, -⟩ := List.lookup_eq_some_iff.mp hlookup
      exact absurd h (htable (k.ch, key) (by simp) c)

theorem answer_ne_zero (h : k.answer = some c) : c ≠ 0 := by
  rw [answer] at h
  split at h
  · split at h
    · cases h
      decide
    · split at h
      · cases h
        decide
      · cases h
  · cases h

end KeyPress

theorem ne_zero_of_getdataKey {k : KeyPress} {c : UInt8} (h : getdataKey k = .print c) : c ≠ 0 :=
  KeyPress.ne_zero_of_decode (by simp [getdataKeys]) h

namespace Agrees
variable {f : Field} {s s' : Getdata} {e e' : FieldEdit} {k : KeyPress} {c : UInt8}

theorem zero_not_mem (A : Agrees f s e) : 0 ∉ e.line.text := zero_not_mem_of_cstr A.text

/-- A text and a cursor of the loop with echo. -/
theorem of_line (hhidden : f.hidden = false) (hsize : f.len ≤ s'.buf.length)
    (htext : cstr s'.buf = some e'.line.text) (hclen : s'.clen = e'.line.text.length)
    (hlt : s'.clen + 1 ≤ f.len) (hcurr : s'.curr = e'.line.front.length)
    (hinit : s'.init = e'.selected) (hdouble : s'.enabledbchar = e'.double)
    (hended : s'.ended = e'.ended) : Agrees f s' e' where
  size := hsize
  text := htext
  clen := hclen
  lt := hlt
  curr _ := by
    rw [hcurr, hclen]
    exact EditLine.front_le
  cursor _ := by rw [hhidden]; exact hcurr
  init := hinit
  double := hdouble
  ended := hended

/-- A text when the loop has been left. -/
theorem of_ended (hsize : f.len ≤ s'.buf.length) (htext : cstr s'.buf = some e'.line.text)
    (hclen : s'.clen = e'.line.text.length) (hlt : s'.clen + 1 ≤ f.len) (hs : s'.ended = true)
    (he : e'.ended = true) (hinit : s'.init = e'.selected)
    (hdouble : s'.enabledbchar = e'.double) : Agrees f s' e' where
  size := hsize
  text := htext
  clen := hclen
  lt := hlt
  curr h := by rw [hs] at h; cases h
  cursor h := by rw [hs] at h; cases h
  init := hinit
  double := hdouble
  ended := hs.trans he.symm

theorem finish (A : Agrees f s e) :
    ∃ s', s.finish f = some s' ∧ Agrees f s' { e with ended := true } := by
  have htext := cstr_set_zero A.text (Nat.le_of_eq A.clen)
  rw [List.take_of_length_le (Nat.le_of_eq A.clen.symm)] at htext
  have hput : putTo f.len s.buf s.clen 0 = some (s.buf.set s.clen 0) := putTo_eq A.lt
  refine ⟨{ s with buf := s.buf.set s.clen 0, ended := true }, ?_, of_ended ?_ htext A.clen A.lt rfl rfl
    A.init A.double⟩
  · rw [Getdata.finish, hput]
    rfl
  · rw [List.length_set]
    exact A.size

theorem answer (A : Agrees f s e) (hlen : 2 ≤ f.len) (hc : c ≠ 0) :
    ∃ s', s.answer f c = some s' ∧ Agrees f s' { e with line := ⟨[c], []⟩, ended := true } := by
  have hput : putTo f.len s.buf 0 c = some (s.buf.set 0 c) :=
    putTo_eq (Nat.lt_of_lt_of_le (by decide) hlen)
  have hput' : putTo f.len (s.buf.set 0 c) 1 0 = some ((s.buf.set 0 c).set 1 0) := putTo_eq hlen
  have htext := cstr_set_set A.text (Nat.zero_le _) (Nat.lt_of_lt_of_le hlen A.size) hc
  refine ⟨{ s with buf := (s.buf.set 0 c).set 1 0, clen := 1, ended := true }, ?_,
    of_ended ?_ htext rfl hlen rfl rfl A.init A.double⟩
  · rw [Getdata.answer, hput, Option.bind_eq_bind, Option.bind_some, Getdata.finish]
    dsimp only
    rw [hput']
    rfl
  · rw [List.length_set, List.length_set]
    exact A.size

theorem curr_eq (A : Agrees f s e) (hhidden : f.hidden = false) (hended : s.ended = false) :
    s.curr = e.line.front.length := by
  have h := A.cursor hended
  rwa [hhidden, if_neg Bool.false_ne_true] at h

theorem move (A : Agrees f s e) (hhidden : f.hidden = false)
    (hs : s' = { s with init := false, curr := s'.curr })
    (he : e' = { e with selected := false, line := e'.line }) (htext : e'.line.text = e.line.text)
    (hcurr : s'.curr = e'.line.front.length) : Agrees f s' e' := by
  refine of_line hhidden ?_ ?_ ?_ ?_ hcurr ?_ ?_ ?_
  · rw [hs]
    exact A.size
  · rw [hs, htext]
    exact A.text
  · rw [hs, htext]
    exact A.clen
  · rw [hs]
    exact A.lt
  · rw [hs, he]
  · rw [hs, he]
    exact A.double
  · rw [hs, he]
    exact A.ended

theorem clear (A : Agrees f s e) (hhidden : f.hidden = false) (hended : s.ended = false) :
    ∃ s', s.clear f = some s' ∧ s'.ended = false ∧ s'.init = false ∧
      s'.enabledbchar = s.enabledbchar ∧
      Agrees f s' { e with selected := false, line := e.cleared } := by
  rw [Getdata.clear, FieldEdit.cleared, ← A.init]
  cases hinit : s.init with
  | false =>
    refine ⟨s, rfl, hended, hinit, rfl, ?_⟩
    rw [if_neg Bool.false_ne_true]
    exact of_line hhidden A.size A.text A.clen A.lt (A.curr_eq hhidden hended) hinit A.double A.ended
  | true =>
    have hpos : 0 < f.len := Nat.lt_of_lt_of_le (Nat.succ_pos _) A.lt
    have hput : putTo f.len s.buf 0 0 = some (s.buf.set 0 0) := putTo_eq hpos
    refine ⟨{ s with buf := s.buf.set 0 0, init := false, curr := 0, clen := 0 }, ?_, hended, rfl, rfl,
      ?_⟩
    · rw [if_pos rfl, hput]
      rfl
    · rw [if_pos rfl]
      refine of_line hhidden ?_ (cstr_set_zero A.text (Nat.zero_le _)) rfl hpos rfl rfl A.double A.ended
      rw [List.length_set]
      exact A.size

theorem copyFrom (A : Agrees f s e) (hlen : f.len ≤ strLen) {i : Nat} (hi : i ≤ s.clen) :
    s.copyFrom i = some (e.line.text.drop i) := by
  have hlt : (e.line.text.drop i).length < strLen := by
    have hclen := A.clen
    have hsize := A.lt
    rw [List.length_drop]
    omega
  rw [Getdata.copyFrom, cstr_drop A.text (A.clen ▸ hi)]
  exact if_pos hlt

/-- A cursor that is not in the middle of a character. -/
theorem closed (A : Agrees f s e) (hhidden : f.hidden = false) (hended : s.ended = false)
    (h : s.curr < s.clen → endsOpen isHigh (s.buf.take s.curr) = false) :
    e.line.behind = [] ∨ endsOpen isHigh e.line.front = false := by
  have hcurr := A.curr_eq hhidden hended
  have htotal := A.clen.trans EditLine.length_text
  cases hbehind : e.line.behind with
  | nil => exact .inl rfl
  | cons c rest =>
    rw [hbehind, List.length_cons] at htotal
    have hclosed := h (by omega)
    rw [take_of_cstr A.text (hcurr ▸ EditLine.front_le), hcurr, EditLine.take_text] at hclosed
    exact .inr hclosed

/-- When the text is still to be replaced, there is nothing behind the cursor. -/
theorem cleared_closed (A : Agrees f s e) (hhidden : f.hidden = false) (hended : s.ended = false)
    (h : s.init = false → s.curr < s.clen → endsOpen isHigh (s.buf.take s.curr) = false) :
    e.cleared.behind = [] ∨ endsOpen isHigh e.cleared.front = false := by
  cases hsel : e.selected with
  | true =>
    rw [FieldEdit.cleared, hsel, if_pos rfl]
    exact .inl rfl
  | false =>
    rw [FieldEdit.cleared, hsel, if_neg Bool.false_ne_true]
    exact A.closed hhidden hended (h (A.init.trans hsel))

theorem backspace (A : Agrees f s e) (hhidden : f.hidden = false) (hended : s.ended = false)
    (hlen : f.len ≤ strLen)
    (hsafe : s.init = false → s.enabledbchar = true → s.curr < s.clen →
      endsOpen isHigh (s.buf.take s.curr) = false) :
    ∃ s', s.backspace f = some s' ∧ Agrees f s'
      { e with
        selected := false
        line := if e.double then e.cleared.backspaceChar isHigh else e.cleared.backspace } := by
  obtain ⟨s₁, hs₁, hended₁, hinit₁, hdb₁, A₁⟩ := A.clear hhidden hended
  have hcurr := A₁.curr_eq hhidden hended₁
  dsimp only at hcurr
  rw [Getdata.backspace, hs₁, Option.bind_eq_bind, Option.bind_some]
  by_cases hne : e.cleared.front = []
  · rw [if_pos (by rw [hcurr, hne]; rfl), EditLine.backspaceChar_of_nil hne,
      EditLine.backspace_of_nil hne, ite_self]
    exact ⟨s₁, rfl, A₁⟩
  · have hpos : 0 < e.cleared.front.length := List.length_pos_iff.mpr hne
    have hlast : s₁.buf.take (s₁.curr - 1) = e.cleared.front.dropLast := by
      rw [take_of_cstr A₁.text (Nat.le_trans (Nat.sub_le _ _) (hcurr ▸ EditLine.front_le)), hcurr,
        EditLine.text, List.take_append_of_le_length (Nat.sub_le _ _), List.dropLast_eq_take]
    have hclosed : e.double = true →
        e.cleared.behind = [] ∨ endsOpen isHigh e.cleared.front = false :=
      fun hdouble => A.cleared_closed hhidden hended fun hinit => hsafe hinit (A.double.trans hdouble)
    have hn : (if (s₁.enabledbchar && endsOpen isHigh (s₁.buf.take (s₁.curr - 1))) = true then 2
        else 1) = EditLine.erased isHigh e.double e.cleared.front := by
      rw [hlast, hdb₁, A.double]
      rfl
    have hle : EditLine.erased isHigh e.double e.cleared.front ≤ e.cleared.front.length :=
      EditLine.erased_le hne
    rw [if_neg (by omega), A₁.copyFrom hlen (A₁.curr hended₁), hn, EditLine.backspace_eq hne hclosed]
    generalize EditLine.erased isHigh e.double e.cleared.front = n at hle
    have hclen : s₁.curr ≤ s₁.clen := A₁.curr hended₁
    have htotal := A₁.clen
    obtain ⟨buf', hput, hcat, htext, hsize⟩ := erase_spec (j := s₁.curr) A₁.text (Nat.sub_le s₁.curr n)
      (htotal ▸ hclen) (htotal ▸ A₁.lt) A₁.size
    simp only [Option.bind_eq_bind, Option.bind_some, hput, hcat]
    refine ⟨_, rfl, ?_⟩
    have hshort : (e.cleared.front.take (e.cleared.front.length - n)).length = s₁.curr - n := by
      rw [List.length_take, hcurr, Nat.min_eq_left (Nat.sub_le _ _)]
    have hnew : e.cleared.text.take (s₁.curr - n) ++ e.cleared.text.drop s₁.curr =
        e.cleared.front.take (e.cleared.front.length - n) ++ e.cleared.behind := by
      rw [hcurr, EditLine.drop_text, EditLine.text,
        List.take_append_of_le_length (Nat.sub_le _ _)]
    refine of_line hhidden (hsize ▸ A₁.size) (htext.trans (congrArg some hnew)) ?_ ?_ hshort.symm
      hinit₁ A₁.double A₁.ended
    · change s₁.clen - n = (EditLine.text _).length
      rw [EditLine.length_text, hshort, htotal, EditLine.length_text]
      change _ - n = s₁.curr - n + e.cleared.behind.length
      rw [hcurr]
      exact Nat.sub_add_comm hle
    · exact Nat.le_trans (Nat.succ_le_succ (Nat.sub_le _ _)) A₁.lt

theorem delete (A : Agrees f s e) (hhidden : f.hidden = false) (hended : s.ended = false)
    (hlen : f.len ≤ strLen) : ∃ s', s.delete f = some s' ∧
      Agrees f s' { e with selected := false, line := e.cleared.delete } := by
  obtain ⟨s₁, hs₁, hended₁, hinit₁, -, A₁⟩ := A.clear hhidden hended
  have hcurr := A₁.curr_eq hhidden hended₁
  have htotal := A₁.clen
  have hparts := htotal.trans EditLine.length_text
  dsimp only at hcurr hparts htotal
  rw [Getdata.delete, hs₁, Option.bind_eq_bind, Option.bind_some]
  cases hbehind : e.cleared.behind with
  | nil =>
    have hend : s₁.curr = s₁.clen := by
      rw [hparts, hcurr, hbehind]
      rfl
    rw [if_pos (Nat.le_of_eq hend.symm)]
    refine ⟨_, rfl, ?_⟩
    rw [EditLine.delete_of_nil hbehind]
    exact of_line hhidden A₁.size A₁.text A₁.clen A₁.lt (hend.symm.trans hcurr) hinit₁ A₁.double
      A₁.ended
  | cons c rest =>
    have hlt : s₁.curr < s₁.clen := by
      rw [hparts, hcurr, hbehind]
      exact Nat.lt_add_of_pos_right (Nat.succ_pos _)
    obtain ⟨buf', hput, hcat, htext, hsize⟩ := erase_spec (j := s₁.curr + 1) A₁.text
      (Nat.le_succ s₁.curr) (htotal ▸ hlt) (htotal ▸ A₁.lt) A₁.size
    rw [if_neg (Nat.not_le.mpr hlt), A₁.copyFrom hlen hlt]
    simp only [Option.bind_eq_bind, Option.bind_some, hput, hcat]
    refine ⟨_, rfl, ?_⟩
    have hnew : e.cleared.text.take s₁.curr ++ e.cleared.text.drop (s₁.curr + 1) =
        e.cleared.delete.text := by
      rw [hcurr, EditLine.take_text, ← List.drop_drop, EditLine.drop_text]
      rfl
    refine of_line hhidden (hsize ▸ A₁.size) (htext.trans (congrArg some hnew)) ?_ ?_ hcurr hinit₁
      A₁.double A₁.ended
    · change s₁.clen - 1 = e.cleared.delete.text.length
      rw [EditLine.length_text, EditLine.delete, hparts, hbehind]
      rfl
    · exact Nat.le_trans (Nat.succ_le_succ (Nat.sub_le _ _)) A₁.lt

theorem kill (A : Agrees f s e) (hhidden : f.hidden = false) (hended : s.ended = false) :
    ∃ s', s.kill f = some s' ∧ Agrees f s' { e with selected := false, line := e.line.kill } := by
  have hcurr := A.curr_eq hhidden hended
  have hle := A.curr hended
  have htext : cstr (s.buf.set s.curr 0) = some e.line.kill.text := by
    rw [cstr_set_zero A.text (A.clen ▸ hle), hcurr, EditLine.take_text, EditLine.kill,
      EditLine.text, List.append_nil]
  have hput : putTo f.len s.buf s.curr 0 = some (s.buf.set s.curr 0) :=
    putTo_eq (Nat.lt_of_le_of_lt hle A.lt)
  refine ⟨{ s with buf := s.buf.set s.curr 0, init := false, clen := s.curr }, ?_, ?_⟩
  · rw [Getdata.kill, hput]
    rfl
  · refine of_line hhidden ?_ htext ?_ ?_ hcurr rfl A.double A.ended
    · rw [List.length_set]
      exact A.size
    · rw [EditLine.length_text]
      exact hcurr
    · exact Nat.le_trans (Nat.succ_le_succ hle) A.lt

theorem cleared_lt (A : Agrees f s e) (hroom : Getdata.hasRoom f k s.clen = true) :
    e.cleared.text.length + 1 < f.len := by
  rw [Getdata.hasRoom, Bool.and_eq_true, decide_eq_true_eq, decide_eq_true_eq] at hroom
  rw [FieldEdit.cleared]
  split
  · change 0 + 1 < f.len
    omega
  · rw [← A.clen]
    omega

/-- A byte that fits in is typed where the cursor is. -/
theorem insert (A : Agrees f s e) (hhidden : f.hidden = false) (hended : s.ended = false)
    (hlen : f.len ≤ strLen) (hroom : Getdata.hasRoom f k s.clen = true) (hc : c ≠ 0) :
    ∃ s', s.print f k c = some s' ∧
      Agrees f s' { e with selected := false, line := e.cleared.insert c } := by
  obtain ⟨s₁, hs₁, hended₁, hinit₁, -, A₁⟩ := A.clear hhidden hended
  have hlt : s₁.clen + 1 < f.len := by
    rw [A₁.clen]
    exact A.cleared_lt hroom
  have hcurr := A₁.curr_eq hhidden hended₁
  have hle := A₁.curr hended₁
  have htotal := A₁.clen
  have hparts := htotal.trans EditLine.length_text
  dsimp only at hcurr hparts htotal
  have hnew : e.cleared.text.take s₁.curr ++ [c] ++ e.cleared.text.drop s₁.curr =
      (e.cleared.insert c).text := by
    rw [hcurr, EditLine.take_text, EditLine.drop_text]
    rfl
  have hagrees : ∀ buf', f.len ≤ buf'.length → cstr buf' = some (e.cleared.insert c).text →
      Agrees f { s₁ with buf := buf', curr := s₁.curr + 1, clen := s₁.clen + 1 }
        { e with selected := false, line := e.cleared.insert c } := by
    intro buf' hsize htext
    refine of_line hhidden hsize htext ?_ hlt ?_ hinit₁ A₁.double A₁.ended
    · rw [EditLine.length_text, EditLine.insert, List.length_append, List.length_singleton, hparts]
      exact Nat.add_right_comm _ _ _
    · rw [EditLine.insert, List.length_append, List.length_singleton, hcurr]
  rw [Getdata.print, if_pos hroom, hs₁, Option.bind_eq_bind, Option.bind_some]
  cases hbehind : e.cleared.behind with
  | nil =>
    have hend : s₁.curr = e.cleared.text.length := by
      rw [hcurr, EditLine.length_text, hbehind]
      rfl
    have hzero : s₁.buf[s₁.curr]? = some 0 := by
      rw [hend]
      exact getElem?_length_of_cstr A₁.text
    have hlt₁ : s₁.curr + 1 < f.len := Nat.lt_of_le_of_lt (Nat.succ_le_succ hle) hlt
    have hput : putTo f.len s₁.buf (s₁.curr + 1) 0 = some (s₁.buf.set (s₁.curr + 1) 0) :=
      putTo_eq hlt₁
    have hput' : putTo f.len (s₁.buf.set (s₁.curr + 1) 0) s₁.curr c =
        some ((s₁.buf.set (s₁.curr + 1) 0).set s₁.curr c) := putTo_eq (Nat.lt_of_succ_lt hlt₁)
    rw [hzero]
    simp only [Option.bind_eq_bind, Option.bind_some, if_true, hput, hput']
    refine ⟨_, rfl, hagrees _ ?_ ?_⟩
    · rw [List.length_set, List.length_set]
      exact A₁.size
    · rw [List.set_comm _ _ (Nat.succ_ne_self _), cstr_set_set A₁.text (Nat.le_of_eq hend)
        (Nat.lt_of_lt_of_le hlt₁ A₁.size) hc, ← hnew, hend, List.drop_length, List.append_nil]
  | cons d rest =>
    have hlt₁ : s₁.curr < e.cleared.text.length := by
      rw [hcurr, EditLine.length_text, hbehind]
      exact Nat.lt_add_of_pos_right (Nat.succ_pos _)
    have hd : s₁.buf[s₁.curr]? = some d := by
      rw [getElem?_of_cstr A₁.text hlt₁, hcurr, EditLine.text, hbehind,
        List.getElem?_append_right (Nat.le_refl _), Nat.sub_self]
      rfl
    have hd0 : d ≠ 0 := by
      rintro rfl
      refine A₁.zero_not_mem ?_
      rw [EditLine.text, hbehind]
      exact List.mem_append_right _ List.mem_cons_self
    obtain ⟨buf', hput, hput', hcat, htext, hsize⟩ := insert_spec A₁.text (Nat.le_of_lt hlt₁) hc
      (htotal ▸ hlt) A₁.size
    have htail : (e.cleared.text.drop s₁.curr).take (f.len - s₁.curr) = e.cleared.text.drop s₁.curr := by
      apply List.take_of_length_le
      rw [List.length_drop, ← htotal]
      omega
    rw [hd]
    simp only [Option.bind_eq_bind, Option.bind_some, if_neg hd0, if_neg (Nat.not_lt.mpr hlen),
      cstr_drop A₁.text (Nat.le_of_lt hlt₁), hput, hput', htail, hcat]
    exact ⟨_, rfl, hagrees _ (hsize ▸ A₁.size) (htext.trans (congrArg some hnew))⟩

theorem print (A : Agrees f s e) (hhidden : f.hidden = false) (hended : s.ended = false)
    (hlen : f.len ≤ strLen) (hc : c ≠ 0)
    (hsafe : s.init = true → Getdata.hasRoom f k 0 = true → Getdata.hasRoom f k s.clen = true) :
    ∃ s', s.print f k c = some s' ∧ Agrees f s'
      (if Getdata.hasRoom f k e.cleared.text.length then
        { e with selected := false, line := e.cleared.insert c }
      else e) := by
  have hsame : Getdata.hasRoom f k e.cleared.text.length = Getdata.hasRoom f k s.clen := by
    rw [FieldEdit.cleared, ← A.init]
    cases hinit : s.init with
    | false => rw [A.clen]; rfl
    | true =>
      have hmono : Getdata.hasRoom f k s.clen = true → Getdata.hasRoom f k 0 = true := by
        simp only [Getdata.hasRoom, Bool.and_eq_true, decide_eq_true_eq]
        omega
      exact Bool.eq_iff_iff.mpr ⟨hsafe hinit, hmono⟩
  cases hroom : Getdata.hasRoom f k s.clen with
  | true =>
    rw [hsame, hroom, if_pos rfl]
    exact A.insert hhidden hended hlen hroom hc
  | false =>
    rw [hsame, hroom, if_neg Bool.false_ne_true, Getdata.print, hroom, if_neg Bool.false_ne_true]
    exact ⟨s, rfl, A⟩

theorem key (A : Agrees f s e) (hhidden : f.hidden = false) (hended : s.ended = false)
    (hlen : f.len ≤ strLen) (hanswer : k.answer = none) (hsafe : s.Safe f k) :
    ∃ s', s.key f k = some s' ∧ Agrees f s' (e.key f k) := by
  have hsafe := hsafe hended hanswer
  have hcurr := A.curr_eq hhidden hended
  rw [Getdata.key, FieldEdit.key]
  cases hkey : getdataKey k with
  | enter => exact A.finish
  | toggleDbchar =>
    exact ⟨_, rfl, of_line hhidden A.size A.text A.clen A.lt hcurr rfl (congrArg Bool.not A.double)
      A.ended⟩
  | backspace =>
    rw [hkey] at hsafe
    dsimp only at hsafe
    rw [hhidden, if_neg Bool.false_ne_true] at hsafe
    exact A.backspace hhidden hended hlen hsafe
  | delete => exact A.delete hhidden hended hlen
  | kill => exact A.kill hhidden hended
  | left =>
    refine ⟨_, rfl, A.move hhidden rfl rfl EditLine.text_left ?_⟩
    change s.curr - 1 = e.line.front.dropLast.length
    rw [List.length_dropLast, hcurr]
  | right =>
    refine ⟨_, rfl, A.move hhidden rfl rfl EditLine.text_right ?_⟩
    have htotal := A.clen.trans EditLine.length_text
    change (if s.clen ≤ s.curr then s.clen else s.curr + 1) =
      (e.line.front ++ e.line.behind.take 1).length
    rw [List.length_append, List.length_take]
    split
    · omega
    · omega
  | beginOfLine => exact ⟨_, rfl, A.move hhidden rfl rfl EditLine.text_beginOfLine rfl⟩
  | endOfLine => exact ⟨_, rfl, A.move hhidden rfl rfl EditLine.text_endOfLine A.clen⟩
  | print c =>
    rw [hkey] at hsafe
    dsimp only at hsafe
    rw [hhidden, if_neg Bool.false_ne_true] at hsafe
    exact A.print hhidden hended hlen (ne_zero_of_getdataKey hkey) hsafe
  | up => exact ⟨_, rfl, A.move hhidden rfl rfl rfl hcurr⟩
  | down => exact ⟨_, rfl, A.move hhidden rfl rfl rfl hcurr⟩
  | newline => exact ⟨_, rfl, A.move hhidden rfl rfl rfl hcurr⟩
  | other => exact ⟨_, rfl, A.move hhidden rfl rfl rfl hcurr⟩

theorem hiddenKey (A : Agrees f s e) (hhidden : f.hidden = true) (hended : s.ended = false)
    (hanswer : k.answer = none) (hsafe : s.Safe f k) :
    ∃ s', s.hiddenKey f k = some s' ∧ Agrees f s' (e.hiddenKey f k) := by
  have hsafe := hsafe hended hanswer
  have hbehind : e.line.behind = [] := by
    have h := A.cursor hended
    rwa [hhidden, if_pos rfl] at h
  have htext : e.line.text = e.line.front := by rw [EditLine.text, hbehind, List.append_nil]
  rw [Getdata.hiddenKey, FieldEdit.hiddenKey]
  cases hkey : getdataKey k with
  | enter => exact A.finish
  | backspace =>
    rw [hkey] at hsafe
    dsimp only at hsafe
    rw [hhidden, if_pos rfl] at hsafe
    have hfront : e.line.front = [] := by
      rw [← List.length_eq_zero_iff, ← htext, ← A.clen, hsafe]
    have hzero : s.clen - 1 = s.clen := by rw [hsafe]
    dsimp only
    rw [EditLine.backspaceChar_of_nil hfront, EditLine.backspace_of_nil hfront, ite_self, hzero]
    exact ⟨s, rfl, A⟩
  | print c =>
    rw [hkey] at hsafe
    dsimp only at hsafe ⊢
    rw [hhidden, if_pos rfl] at hsafe
    rw [← A.clen]
    by_cases hroom : s.clen < f.len - 1
    · have hc := ne_zero_of_getdataKey hkey
      have hput : putTo f.len s.buf s.clen c = some (s.buf.set s.clen c) := putTo_eq A.lt
      have hset := cstr_set_length A.text (A.clen ▸ hsafe hroom) hc
      have hnew : e.line.text ++ [c] = (e.line.insert c).text := by
        rw [htext, EditLine.insert, EditLine.text, hbehind, List.append_nil]
      rw [if_neg (Nat.not_le.mpr hroom), if_pos hroom, hput]
      refine ⟨_, rfl, ?_, ?_, ?_, ?_, ?_, ?_, A.init, A.double, A.ended⟩
      · rw [List.length_set]
        exact A.size
      · rw [A.clen, hset, hnew]
      · rw [← hnew, List.length_append, List.length_singleton, A.clen]
      · exact Nat.add_lt_of_lt_sub hroom
      · exact fun _ => Nat.le_succ_of_le (A.curr hended)
      · intro _
        rw [hhidden, if_pos rfl]
        exact hbehind
    · rw [if_pos (Nat.le_of_not_lt hroom), if_neg hroom]
      exact ⟨s, rfl, A⟩
  | toggleDbchar => exact ⟨s, rfl, A⟩
  | delete => exact ⟨s, rfl, A⟩
  | kill => exact ⟨s, rfl, A⟩
  | left => exact ⟨s, rfl, A⟩
  | right => exact ⟨s, rfl, A⟩
  | up => exact ⟨s, rfl, A⟩
  | down => exact ⟨s, rfl, A⟩
  | beginOfLine => exact ⟨s, rfl, A⟩
  | endOfLine => exact ⟨s, rfl, A⟩
  | newline => exact ⟨s, rfl, A⟩
  | other => exact ⟨s, rfl, A⟩

theorem step (A : Agrees f s e) (hlen : 2 ≤ f.len) (hmax : f.len ≤ strLen) (hsafe : s.Safe f k) :
    ∃ s', s.step f k = some s' ∧ Agrees f s' (e.apply f k) := by
  rw [Getdata.step, FieldEdit.apply, ← A.ended]
  cases hended : s.ended with
  | true => exact ⟨s, rfl, A⟩
  | false =>
    rw [if_neg Bool.false_ne_true, if_neg Bool.false_ne_true]
    cases hanswer : k.answer with
    | some c => exact A.answer hlen (KeyPress.answer_ne_zero hanswer)
    | none =>
      cases hhidden : f.hidden with
      | true => exact A.hiddenKey hhidden hended hanswer hsafe
      | false => exact A.key hhidden hended hmax hanswer hsafe

theorem start {buf : Bytes} {db : Bool} {s₀ : Getdata} (hlen : 2 ≤ f.len)
    (hbuf : f.len ≤ buf.length) (hs₀ : Getdata.start f buf db = some s₀)
    (hfits : f.clearlabel = false → ∀ text, cstr buf = some text → text.length < f.len) :
    Agrees f s₀ (FieldEdit.start f buf db) := by
  have hpos : 0 < f.len := Nat.lt_of_lt_of_le (by decide) hlen
  rw [Getdata.start] at hs₀
  rw [FieldEdit.start]
  cases hclear : f.clearlabel with
  | true =>
    rw [hclear, if_pos rfl, if_pos hbuf] at hs₀
    obtain rfl := Option.some.inj hs₀
    have hzeros : cstr (overlay buf 0 (List.replicate f.len 0)) = some [] := by
      obtain ⟨n, hn⟩ := Nat.exists_eq_succ_of_ne_zero (Nat.ne_of_gt hpos)
      rw [overlay, hn, List.replicate_succ]
      rfl
    refine ⟨?_, hzeros, rfl, hpos, fun _ => Nat.le_refl 0, fun _ => ?_, rfl, rfl, rfl⟩
    · rw [length_overlay (by rw [List.length_replicate, Nat.zero_add]; exact hbuf)]
      exact hbuf
    · split
      · rfl
      · rfl
  | false =>
    rw [hclear, if_neg Bool.false_ne_true] at hs₀
    obtain ⟨text, htext, hs₀⟩ := Option.bind_eq_some_iff.mp hs₀
    have hlt := hfits hclear text htext
    dsimp only at hs₀
    rw [if_neg (Nat.not_le.mpr hlt), putTo_eq hlt] at hs₀
    obtain rfl := Option.some.inj hs₀
    have hset := cstr_set_zero htext (Nat.le_refl _)
    rw [List.take_length] at hset
    have hline : (⟨text, []⟩ : EditLine UInt8).text = text := List.append_nil text
    rw [htext, Option.getD_some]
    refine ⟨?_, hset.trans (congrArg some hline.symm), congrArg List.length hline.symm, hlt,
      fun _ => Nat.le_refl _, fun _ => ?_, rfl, rfl, rfl⟩
    · rw [List.length_set]
      exact hbuf
    · split
      · rfl
      · rfl

end Agrees

/-- Keys with which nothing goes wrong make the text that they should, within the buffer. -/
theorem agrees_of_along (f : Field) (hlen : 2 ≤ f.len) (hmax : f.len ≤ strLen) (buf : Bytes)
    (hbuf : f.len ≤ buf.length) (enabledbchar : Bool) (s₀ : Getdata)
    (hs₀ : Getdata.start f buf enabledbchar = some s₀)
    (hfits : f.clearlabel = false → ∀ text, cstr buf = some text → text.length < f.len)
    (keys : List KeyPress) (hsafe : Reach.Along (Getdata.step f) (Getdata.Safe f) s₀ keys) :
    ∃ s, keys.foldlM (Getdata.step f) s₀ = some s ∧
      Agrees f s (keys.foldl (FieldEdit.apply f) (FieldEdit.start f buf enabledbchar)) :=
  Reach.exists_run (Agrees f) (FieldEdit.apply f) (fun _ _ _ A hC => A.step hlen hmax hC) _ keys
    (Agrees.start hlen hbuf hs₀ hfits) hsafe

/-- A letter typed in front of another one. -/
theorem agrees_of_along_demo :
    ∃ s e, Agrees ⟨5, 0, false, false⟩ s e ∧ cstr s.buf = some [98, 97] ∧ e.line.text = [98, 97] := by
  obtain ⟨s, hrun, A⟩ := agrees_of_along ⟨5, 0, false, false⟩ (by decide) (by decide)
    [97, 0, 0, 0, 0] (by decide) true _ rfl
    (fun _ text htext => by rw [← Option.some.inj htext]; decide)
    [⟨0x104, false, 80⟩, ⟨98, false, 80⟩]
    ⟨fun _ _ => trivial, fun _ _ h => (by cases h), trivial⟩
  obtain rfl := Option.some.inj hrun
  exact ⟨_, _, A, rfl, rfl⟩

/-- In the middle of a character Backspace takes out half of it. -/
theorem not_agrees : ¬ ∀ (f : Field) (buf : Bytes) (enabledbchar : Bool) (s₀ : Getdata),
    2 ≤ f.len → f.len ≤ strLen → f.len ≤ buf.length → Getdata.start f buf enabledbchar = some s₀ →
    ∀ keys : List KeyPress, ∃ s, keys.foldlM (Getdata.step f) s₀ = some s ∧
      Agrees f s (keys.foldl (FieldEdit.apply f) (FieldEdit.start f buf enabledbchar)) := by
  intro h
  obtain ⟨s, hrun, A⟩ := h ⟨3, 0, false, false⟩ [0xB0, 0xA1, 0] true _ (by decide) (by decide)
    (by decide) rfl [⟨0x104, false, 80⟩, ⟨8, false, 80⟩]
  obtain rfl := Option.some.inj hrun
  exact absurd A.text (by decide)

end ArgoBbs

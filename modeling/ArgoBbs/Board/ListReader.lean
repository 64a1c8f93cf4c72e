import ArgoBbs.Board.ListPage
import ArgoBbs.Lib.Reach
import Mathlib.Logic.Function.Basic

/-! # The list reader

`i_read` shows a list and lets the user move in it and call the functions of a table of keys, which
may show another list by `i_read` in turn (`read.c`). The readers that are running share
`last_line`, `screen_len` and `previewmode`, and the positions that `getkeep` keeps for the
directories; each has its own `pnt`, which is allocated for the window as it is when the reader is
called. -/

namespace ArgoBbs

/-- The user states in which lists are read. -/
inductive CmdMode
  | reading
  | rmail
  | gmenu
  | digest
  | admin
  | digestrace
  deriving DecidableEq

/-- The keys, by what `i_read` and `i_read_key` make of them. -/
inductive ListKey
  | digit (d : Nat)
  /-- `Ctrl('H')`, `'\177'` -/
  | erase
  /-- `'\n'`, `'\r'` -/
  | enter
  /-- `KEY_RIGHT`, `'r'` -/
  | right
  | up
  | down
  | pageDown
  | pageUp
  | home
  | toEnd
  | left
  /-- `'q'` -/
  | quit
  /-- `'w'`, `'M'`, `'u'`, `'H'`, `'S'`: functions that are not given an entry -/
  | screen
  /-- `'l'` -/
  | mail
  /-- `'!'` -/
  | goodbye
  /-- `','` with `toggle_previewmode` -/
  | preview
  /-- another key of the table -/
  | command
  | other
  deriving DecidableEq

/-- The keys of the table that `i_read_key` calls with an entry. -/
def ListKey.isCommand : ListKey → Bool
  | .enter | .right | .command => true
  | _ => false

section
variable (δ : Type)

/-- What a reader has called; `m_read` is followed by the directory that was current before. -/
inductive ListCall
  | table
  | screen
  | mail (sdirect : δ)

/-- Where a reader is: at `egetch`, in a function, which it has called with this page, or behind it
with what it has returned. -/
inductive ListControl
  | waiting
  | running (ch : ListKey) (call : ListCall δ) (called : ListPage)
  | pending (ch : ListKey) (mode : ListMode)

def ListControl.isWaiting {δ : Type} : ListControl δ → Bool
  | .waiting => true
  | .running .. | .pending .. => false

def ListControl.isRunning {δ : Type} : ListControl δ → Bool
  | .running .. => true
  | .waiting | .pending .. => false

/-- A call of `i_read`. -/
structure ListReader where
  cmdmode : CmdMode
  src : RecordSource
  room : Int
  locmem : δ
  entries : Int
  recbase : Int
  lbuf : List Nat
  control : ListControl δ

/-- The readers, the innermost one first, with what they share; `records` says which directories
exist and how many records they have. -/
structure ListState where
  tLines : Int
  screenLen : Int
  lastLine : Int
  previewmode : Bool
  digestmode : Int
  currdirect : δ
  keeplist : δ → Option KeepLoc
  records : δ → Option Nat
  readers : List (ListReader δ)
  log : List ListPage.Access

/-- What a step depends on besides: `DEF_CIRCLE`, the directory of the board without a digest mode,
what `get_dir_index` finds there, and the number in `genbuf`. -/
structure ListInput where
  circle : Bool
  home : δ
  index : Int
  number : Int

inductive ListEvent
  | resize (lines : Int)
  | write (records : δ → Option Nat)
  | key (ch : ListKey) (input : ListInput δ)
  | talk
  | eof
  | ret (mode : ListMode)
  | turn (input : ListInput δ)
  | setkeep (d : δ) (pos : Int)
  | fixkeep (d : δ) (first : Int)
  | select (d : δ) (tmp : Int)
  | chdir (d : δ)
  | digest (mode : Int)
  | enter (cmdmode : CmdMode) (src : RecordSource) (direct : δ) (answered : δ → Option Nat)

end

def maxIreadDepth : Nat := 32

namespace ListState
variable {δ : Type} [DecidableEq δ]

def start (d : δ) (records : δ → Option Nat) : ListState δ :=
  ⟨24, 0, 0, false, 0, d, fun _ => none, records, [], []⟩

/-- The position that is kept for a directory. -/
def keep (s : ListState δ) (d : δ) : KeepLoc := (s.keeplist d).getD ⟨1, 1⟩

def putKeep (s : ListState δ) (d : δ) (k : KeepLoc) : ListState δ :=
  { s with keeplist := Function.update s.keeplist d (some k) }

/-- `getkeep` -/
def getkeep (s : ListState δ) (d : δ) (new : KeepLoc) : ListState δ :=
  if (s.keeplist d).isNone then s.putKeep d new
  else if (s.keep d).crsLine < 1 then s.putKeep d { s.keep d with crsLine := 1 }
  else s

/-- The list as a reader sees it. -/
def page (s : ListState δ) (r : ListReader δ) : ListPage :=
  { toKeepLoc := s.keep r.locmem
    lastLine := s.lastLine
    screenLen := s.screenLen
    previewmode := s.previewmode
    entries := r.entries
    recbase := r.recbase
    room := r.room }

/-- The innermost reader leaves the list so. -/
def leave (s : ListState δ) (r : ListReader δ) (p : ListPage) (control : ListControl δ)
    (accesses : List ListPage.Access) : ListState δ :=
  { s with
    keeplist := Function.update s.keeplist r.locmem (some p.toKeepLoc)
    lastLine := p.lastLine
    screenLen := p.screenLen
    previewmode := p.previewmode
    readers := { r with entries := p.entries, recbase := p.recbase, control := control } ::
      s.readers.tail
    log := s.log ++ accesses }

def goTo (s : ListState δ) (r : ListReader δ) (control : ListControl δ) : ListState δ :=
  { s with readers := { r with control := control } :: s.readers.tail }

def leaveList (s : ListState δ) : ListState δ := { s with readers := s.readers.tail }

/-- `acction_mode` when there is a digest mode -/
def leaveDigest (s : ListState δ) (home : δ) : ListState δ :=
  { s with digestmode := 0, currdirect := home }

end ListState

/-- The test on `digestmode` in `i_read_key` leaves these out. -/
def CmdMode.hasDigest : CmdMode → Bool
  | .rmail | .admin | .digest | .digestrace => false
  | .reading | .gmenu => true

namespace ListState
variable {δ : Type} [DecidableEq δ]

/-- A function of the table is called with the entry under the cursor. -/
def call (s : ListState δ) (r : ListReader δ) (ch : ListKey) : ListState δ :=
  s.leave r (s.page r) (.running ch .table (s.page r)) [.read (s.page r)]

def moved (s : ListState δ) (r : ListReader δ) (ch : ListKey) (res : ListPage × ListMode) :
    ListState δ :=
  s.leave r res.1 (.pending ch res.2) []

/-- `KEY_LEFT` -/
def left (s : ListState δ) (r : ListReader δ) (ch : ListKey) (input : ListInput δ) : ListState δ :=
  if s.digestmode ≠ 0 ∧ r.cmdmode.hasDigest then
    (s.leaveDigest input.home).goTo r (.pending ch .newDirect)
  else s.goTo r (.pending ch .doQuit)

/-- `toggle_previewmode` -/
def togglePreviewmode (s : ListState δ) : ListState δ :=
  { s with
    screenLen := if s.screenLen = s.tLines - 4 then (s.tLines - 4) / 2 else s.tLines - 4
    previewmode := !s.previewmode }

/-- `i_read_key` -/
def iReadKey (s : ListState δ) (r : ListReader δ) (ch : ListKey) (input : ListInput δ) :
    ListState δ :=
  let p := s.page r
  let reading := r.cmdmode = .reading
  match ch with
  | .quit =>
    if 0 < s.digestmode ∧ s.digestmode ≤ 7 ∧ r.cmdmode.hasDigest then
      let s := (s.leave r p (.pending ch .newDirect) [.read p]).leaveDigest input.home
      let s := s.getkeep input.home ⟨1, 1⟩
      s.putKeep input.home ((s.keep input.home).setkeep s.tLines (input.index + 1))
    else s.left r ch input
  | .left => s.left r ch input
  | .up =>
    if p.lastLine ≤ 0 then s.goTo r (.pending ch .doNothing)
    else s.moved r ch (p.goTo input.circle reading (p.crsLine - 1) (p.screenLen - 1))
  | .down =>
    if p.lastLine ≤ 0 then s.goTo r (.pending ch .doNothing)
    else s.moved r ch (p.goTo input.circle reading (p.crsLine + 1) 0)
  | .pageDown =>
    if p.lastLine ≤ 0 then s.goTo r (.pending ch .doNothing) else s.moved r ch (p.pageDown reading)
  | .pageUp =>
    if p.lastLine ≤ 0 then s.goTo r (.pending ch .doNothing) else s.moved r ch (p.pageUp reading)
  | .home =>
    if p.lastLine ≤ 0 then s.goTo r (.pending ch .doNothing) else s.moved r ch p.home
  | .toEnd =>
    if p.lastLine ≤ 0 then s.goTo r (.pending ch .doNothing) else s.moved r ch (p.toEnd reading)
  | .screen => s.goTo r (.running ch .screen p)
  | .mail =>
    if r.cmdmode = .rmail then s.goTo r (.pending ch .doNothing)
    else s.goTo r (.running ch (.mail s.currdirect) p)
  -- the process ends
  | .goodbye => { s with readers := [] }
  | .enter | .right =>
    if p.lastLine ≤ 0 then s.goTo r (.pending ch .doNothing) else s.call r ch
  | .command => s.call r ch
  | .preview =>
    if reading then
      (s.leave r p (.pending ch .modeChanged) [.read p]).togglePreviewmode
    else s.goTo r (.pending ch .doNothing)
  | .digit _ | .erase | .other => s.goTo r (.pending ch .doNothing)

/-- `atoi(lbuf)` -/
def lineNumber (lbuf : List Nat) : Int := lbuf.foldl (fun n d => 10 * n + d) 0

/-- A key in `i_read` -/
def key (s : ListState δ) (r : ListReader δ) (ch : ListKey) (input : ListInput δ) : ListState δ :=
  match ch with
  | .digit d =>
    s.goTo { r with lbuf := if r.lbuf.length < 9 then r.lbuf ++ [d % 10] else r.lbuf } .waiting
  | .erase =>
    if r.lbuf = [] then s.iReadKey r ch input
    else s.goTo { r with lbuf := r.lbuf.dropLast } .waiting
  | .enter =>
    if r.lbuf = [] then s.iReadKey r ch input
    else
      s.moved { r with lbuf := [] } ch
        ((s.page r).goTo input.circle (r.cmdmode = .reading) (lineNumber r.lbuf) 10)
  | _ => s.iReadKey { r with lbuf := [] } ch input

/-- `READ_NEXT` and `READ_PREV`: the key is looked up again for the entry that the cursor comes to.
-/
def readOn (s : ListState δ) (r : ListReader δ) (ch : ListKey) (next : Bool)
    (input : ListInput δ) : ListState δ :=
  let res := (s.page r).moveCursorLine next
  match res.2 with
  | .refused => s.leave r res.1 (.pending ch .fullUpdate) []
  | .inPage => (s.leave r res.1 .waiting []).iReadKey r ch input
  | .reload =>
    let file := s.records s.currdirect
    let p : ListPage := { res.1 with recbase := res.1.topLine }
    let q := p.load r.src file
    if q.entries ≤ 0 then
      s.leave r { q with lastLine := -1 } (.pending ch .doNothing) [p.loaded r.src file]
    else
      (s.leave r q .waiting [p.loaded r.src file]).iReadKey
        { r with entries := q.entries, recbase := q.recbase } ch input

/-- The position in a directory that has just been entered. -/
def openDirect (s : ListState δ) (r : ListReader δ) (new : KeepLoc) :
    ListState δ × ListReader δ :=
  (s.getkeep s.currdirect new, { r with locmem := s.currdirect })

/-- The records of a new or changed directory are counted; an empty one with a digest mode is left.
-/
def recountDirect (s : ListState δ) (input : ListInput δ) : ListState δ :=
  let s : ListState δ := { s with lastLine := numRecords (s.records s.currdirect) }
  if s.lastLine = 0 ∧ 0 < s.digestmode then s.leaveDigest input.home else s

/-- The cases of a new or changed directory, up to `FULLUPDATE` -/
def changeDirect (s : ListState δ) (r : ListReader δ) (ch : ListKey) (mode : ListMode)
    (input : ListInput δ) : ListState δ :=
  let s := s.recountDirect input
  match mode with
  | .dirChanged => s.leave r { s.page r with recbase := -1 } (.pending ch .fullUpdate) []
  | .newDirect2 =>
    let (s, r) := s.openDirect r ⟨if input.number < 1 then 1 else input.number, s.lastLine⟩
    s.leave r { ((s.page r).cursorPos input.circle input.number 1).1 with recbase := -1 }
      (.pending ch .fullUpdate) []
  | _ =>
    let num := s.lastLine - s.screenLen + 1
    let (s, r) := s.openDirect r ⟨if num < 1 then 1 else num, s.lastLine⟩
    s.leave r { s.page r with recbase := -1 } (.pending ch .fullUpdate) []

/-- The end of the loop: the reader waits for a key, or returns. -/
def loopEnd (s : ListState δ) (r : ListReader δ) (input : ListInput δ) : ListState δ :=
  if r.entries = 0 ∧ r.cmdmode ≠ .digest then
    if r.cmdmode = .reading ∧ s.digestmode ≠ 0 then (s.leaveDigest input.home).leaveList
    else s.leaveList
  else s.goTo r .waiting

def update (s : ListState δ) (r : ListReader δ) (res : ListPage × List ListPage.Access)
    (input : ListInput δ) : ListState δ :=
  (s.leave r res.1 .waiting res.2).loopEnd { r with entries := res.1.entries, recbase := res.1.recbase }
    input

/-- The rest of the loop for what `i_read_key` has returned -/
def turn (s : ListState δ) (r : ListReader δ) (ch : ListKey) (mode : ListMode)
    (input : ListInput δ) : ListState δ :=
  let p := s.page r
  let file := s.records s.currdirect
  let reading := r.cmdmode = .reading
  match mode with
  | .readNext => s.readOn r ch true input
  | .readPrev => s.readOn r ch false input
  | .doQuit => s.leaveList
  | .gotoNext => s.moved r ch ((p.cursorPos input.circle (p.crsLine + 1) 1).1, .partUpdate)
  | .newDirect | .newDirect2 | .dirChanged | .modeChanged => s.changeDirect r ch mode input
  | .fullUpdate => s.update r (p.fullUpdate r.src file reading s.tLines) input
  | .partUpdate => s.update r (p.partUpdate r.src file reading s.tLines) input
  | .preUpdate => s.update r (p, [.read p]) input
  | .doNothing => s.update r (p, []) input

/-- The page with which `i_read` starts in a directory that is not empty: in the digest the first
one, elsewhere that which has been kept, or the last one. -/
def firstPage (s : ListState δ) (cmdmode : CmdMode) : ListPage :=
  let screenLen :=
    if cmdmode = .reading && s.previewmode then (s.tLines - 4) / 2 else s.tLines - 4
  let num := s.lastLine - screenLen + 2
  let top := if cmdmode = .digest then 1 else if num < 1 then 1 else num
  let total := if cmdmode = .digest then 1 else s.lastLine
  let k := ((s.getkeep s.currdirect ⟨top, s.lastLine⟩).keep s.currdirect).modifyLocmem s.tLines
    screenLen total
  ⟨k, s.lastLine, screenLen, s.previewmode, 0, k.topLine, s.tLines - 4⟩

/-- `i_read` from `start` to the loop -/
def readList (s : ListState δ) (cmdmode : CmdMode) (src : RecordSource) : ListState δ :=
  let p := s.firstPage cmdmode
  let q := p.load src (s.records s.currdirect)
  let r : ListReader δ :=
    ⟨cmdmode, src, s.tLines - 4, s.currdirect, q.entries, q.recbase, [], .waiting⟩
  { s with readers := r :: s.readers }.leave r q .waiting
    (p.loaded src (s.records s.currdirect) :: q.drawEntry (decide (cmdmode = CmdMode.reading)))

/-- `i_read`, with the directories as they are after the questions about an empty list -/
def iRead (s : ListState δ) (cmdmode : CmdMode) (src : RecordSource) (direct : δ)
    (answered : δ → Option Nat) : ListState δ :=
  if s.readers.length = maxIreadDepth - 1 then s
  else
    let s : ListState δ := { s with
      screenLen := s.tLines - 4
      currdirect := direct
      lastLine := numRecords (s.records direct) }
    if s.lastLine = 0 then
      match cmdmode with
      | .digest =>
        let r : ListReader δ := ⟨cmdmode, src, s.tLines - 4, direct, 0, 0, [], .waiting⟩
        { s with readers := r :: s.readers }.getkeep direct ⟨1, 1⟩
      | .reading =>
        let s : ListState δ :=
          { s with records := answered, lastLine := numRecords (answered direct) }
        if 0 < s.lastLine then s.readList cmdmode src else s
      | _ => { s with records := answered }
    else s.readList cmdmode src

/-- The innermost reader at `egetch` -/
def waiting (s : ListState δ) : Option (ListReader δ) :=
  s.readers.head?.filter fun r => r.control.isWaiting

/-- The innermost reader in a function that it has called -/
def running (s : ListState δ) : Option (ListReader δ) :=
  s.readers.head?.filter fun r => r.control.isRunning

/-- The innermost reader behind a function -/
def pending (s : ListState δ) : Option (ListReader δ) :=
  s.readers.head?.filter fun r => !r.control.isWaiting && !r.control.isRunning

/-- A function that is called by the innermost reader, or by none, is running. -/
def calls (s : ListState δ) : Bool := s.readers.isEmpty || s.running.isSome

/-- What a function returns to `i_read_key` -/
def ret (s : ListState δ) (r : ListReader δ) (mode : ListMode) : ListState δ :=
  match r.control with
  | .running ch .table _ => s.goTo r (.pending ch mode)
  | .running ch .screen _ => s.goTo r (.pending ch .fullUpdate)
  | .running ch (.mail sdirect) _ =>
    { s with currdirect := sdirect }.goTo r (.pending ch .modeChanged)
  | _ => s

def goOn (s : ListState δ) (r : ListReader δ) (input : ListInput δ) : ListState δ :=
  match r.control with
  | .pending ch mode => s.turn r ch mode input
  | _ => s

/-- The window of a client has between 24 and 100 lines. -/
def step (s : ListState δ) : ListEvent δ → Option (ListState δ)
  | .resize lines => if 24 ≤ lines ∧ lines ≤ 100 then some { s with tLines := lines } else none
  | .write records => some { s with records := records }
  | .key ch input => s.waiting.map fun r => s.key r ch input
  | .talk => s.waiting.map fun r => s.goTo r (.pending .other .fullUpdate)
  | .eof => s.waiting.map fun _ => s.leaveList
  | .ret mode => s.running.map fun r => s.ret r mode
  | .turn input => s.pending.map fun r => s.goOn r input
  | .setkeep d pos =>
    if s.calls then
      let s := s.getkeep d ⟨1, 1⟩
      some (s.putKeep d ((s.keep d).setkeep s.tLines pos))
    else none
  | .fixkeep d first =>
    if s.calls then
      let s := s.getkeep d ⟨1, 1⟩
      some (s.putKeep d ((s.keep d).fixkeep s.tLines first))
    else none
  | .select d tmp => if s.calls then some (s.getkeep d (firstNew s.tLines tmp)) else none
  | .chdir d => if s.calls then some { s with currdirect := d } else none
  | .digest mode => if s.calls then some { s with digestmode := mode } else none
  | .enter cmdmode src direct answered =>
    if s.calls then some (s.iRead cmdmode src direct answered) else none

section
omit [DecidableEq δ]
variable {s : ListState δ} {r : ListReader δ}

theorem waiting_eq_some (h : s.waiting = some r) :
    (∃ rest, s.readers = r :: rest) ∧ r.control = .waiting := by
  obtain ⟨hr, hc⟩ := Option.filter_eq_some_iff.mp h
  refine ⟨List.head?_eq_some_iff.mp hr, ?_⟩
  cases h : r.control with
  | waiting => rfl
  | running | pending =>
    rw [h] at hc
    cases hc

theorem running_eq_some (h : s.running = some r) :
    (∃ rest, s.readers = r :: rest) ∧ ∃ ch call called, r.control = .running ch call called := by
  obtain ⟨hr, hc⟩ := Option.filter_eq_some_iff.mp h
  refine ⟨List.head?_eq_some_iff.mp hr, ?_⟩
  cases h : r.control with
  | running ch call called => exact ⟨ch, call, called, rfl⟩
  | waiting | pending =>
    rw [h] at hc
    cases hc

theorem pending_eq_some (h : s.pending = some r) :
    (∃ rest, s.readers = r :: rest) ∧ ∃ ch mode, r.control = .pending ch mode := by
  obtain ⟨hr, hc⟩ := Option.filter_eq_some_iff.mp h
  refine ⟨List.head?_eq_some_iff.mp hr, ?_⟩
  cases h : r.control with
  | pending ch mode => exact ⟨ch, mode, rfl⟩
  | waiting | running =>
    rw [h] at hc
    cases hc

end

end ListState

end ArgoBbs

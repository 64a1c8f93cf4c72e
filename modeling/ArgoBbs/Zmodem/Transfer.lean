import ArgoBbs.Lib.Reach
import ArgoBbs.Zmodem.Header

/-! # A transfer by ZMODEM

`zsendfile`, `zsendfdata` and `getinsync` of `lsz.c` send a file to `rzfile` of `lrz.c`. The two
programs share nothing but the line: headers and subpackets in one direction, headers in the other.
Whole frames stand here for what the modules below read and write; frames that no longer read as
such are noise, which may come up anywhere, and any wait may end without an answer. However the two
are interleaved and wherever they fall out of step, what is received is a beginning of the file. -/

namespace ArgoBbs.Zmodem

/-- What the sender puts on the line. -/
inductive Frame
  | zfile
  | zdata (pos : Nat)
  | zeof (pos : Nat)
  | znak
  | sub (data : Bytes) (frameend : UInt8)
  | noise
  deriving DecidableEq

/-- What the receiver puts on the line. -/
inductive Reply
  | zrinit
  | zrpos (pos : Nat)
  | zack (pos : Nat)
  | noise
  deriving DecidableEq

/-- A position as a header carries it. -/
def hdrPos (pos : Nat) : Nat := rclhdr (stohdr pos)

/-- What a search for a header, or a read of a subpacket, comes to. -/
inductive Got (α : Type)
  | frame (a : α)
  | error
  | timeout
  | can
  deriving DecidableEq

inductive Outcome
  | frame
  | error
  | timeout
  | can
  deriving DecidableEq

/-! ## The sender -/

inductive SendPhase
  /-- `zsendfile` has sent the name and waits. -/
  | naming
  /-- In the loop of `zsendfdata`. -/
  | data
  /-- At `waitack`. -/
  | waitack
  /-- Behind the `ZEOF`. -/
  | waiteof
  | ok
  | failed
  deriving DecidableEq

structure Sender where
  phase : SendPhase
  bytes_sent : Nat
  bytcnt : Nat
  /-- `rxpos - 1` wraps where it is zero, and is then no offset. -/
  Lastsync : Int
  eof_seen : Bool
  deriving DecidableEq

/-- One turn of the loop of `zsendfdata`. The subpacket that reaches the end of the file is the
last; the one at the place of the last complaint waits for an answer. -/
def Sender.send (file : Bytes) (blklen : Nat) (s : Sender) : Sender × List Frame :=
  let data := (file.drop s.bytes_sent).take blklen
  let eof_seen := s.eof_seen || file.length ≤ s.bytes_sent + blklen
  let e := if eof_seen then ZCRCE else if s.bytcnt = s.Lastsync then ZCRCW else ZCRCG
  let bytes_sent := s.bytes_sent + data.length
  let s := { s with bytes_sent, bytcnt := bytes_sent, eof_seen }
  if e = ZCRCW then ({ s with phase := .waitack }, [.sub data e])
  else if eof_seen then ({ s with phase := .waiteof }, [.sub data e, .zeof (hdrPos bytes_sent)])
  else (s, [.sub data e])

/-- From the label `somemore`. -/
def Sender.somemore (s : Sender) : Sender × List Frame :=
  ({ s with phase := .data }, [.zdata (hdrPos s.bytes_sent)])

/-- What `zsendfile` makes of an answer. Behind a `ZRINIT` it sends the name again, unless another
header follows at once. -/
def Sender.named (resend : Bool) (s : Sender) : Got Reply → Sender × List Frame
  | .frame (.zrpos pos) =>
    { s with bytes_sent := pos, bytcnt := pos, Lastsync := (pos : Int) - 1 }.somemore
  | .frame .zrinit => (s, if resend then [.zfile, .sub [] ZCRCW] else [])
  | .frame (.zack _) | .frame .noise | .error => (s, [.zfile, .sub [] ZCRCW])
  | .timeout | .can => ({ s with phase := .failed }, [])

/-- What `getinsync` makes of an answer, with what its callers do then. -/
def Sender.getinsync (s : Sender) : Got Reply → Sender × List Frame
  | .frame (.zrpos pos) =>
    { s with eof_seen := false, bytes_sent := pos, bytcnt := pos, Lastsync := pos }.somemore
  | .frame (.zack pos) =>
    if s.bytes_sent = pos then
      if s.phase = .waiteof then (s, [.zeof (hdrPos s.bytes_sent)]) else s.somemore
    else (s, [])
  | .frame .zrinit => ({ s with phase := .ok }, [])
  | .frame .noise | .error => (s, [.znak])
  | .timeout | .can => ({ s with phase := .failed }, [])

/-! ## The receiver -/

inductive ReceivePhase
  /-- At `skip_oosb`. -/
  | header
  /-- At `nxthdr`. -/
  | nxthdr
  /-- `zrdata` reads what is thrown away. -/
  | ignore
  /-- `zrdata` reads a block that is out of its place. -/
  | outOfSync (pos : Nat)
  /-- At `moredata`. -/
  | moredata
  | closed
  | failed
  deriving DecidableEq

structure Receiver where
  phase : ReceivePhase
  n : Nat
  bytes_received : Nat
  written : Bytes
  anker : List (Nat × Bytes)
  deriving DecidableEq

namespace Receiver

/-- The top of the loop. -/
def again (r : Receiver) : Receiver × List Reply :=
  ({ r with phase := .header }, [.zrpos (hdrPos r.bytes_received)])

/-- `if (--n < 0) return ERROR;` -/
def retry (r : Receiver) (next : Receiver → Receiver × List Reply) : Receiver × List Reply :=
  if r.n = 0 then ({ r with phase := .failed }, []) else next { r with n := r.n - 1 }

/-- What `rzfile` makes of a header. -/
def gotHeader (r : Receiver) : Got Frame → Receiver × List Reply
  | .frame .znak | .timeout => r.retry fun r => ({ r with phase := .ignore }, [])
  | .frame .zfile => ({ r with phase := .ignore }, [])
  | .frame (.zeof pos) =>
    if pos ≠ r.bytes_received then ({ r with phase := .nxthdr }, [])
    else ({ r with phase := .closed }, [])
  | .frame (.zdata pos) =>
    if pos ≠ r.bytes_received then r.retry fun r => ({ r with phase := .outOfSync pos }, [])
    else ({ r with phase := .moredata }, [])
  | .frame (.sub ..) | .frame .noise | .error => r.retry again
  | .can => ({ r with phase := .failed }, [])

/-- A subpacket in its place. -/
def putsec (r : Receiver) (data : Bytes) : Receiver :=
  { r with bytes_received := r.bytes_received + data.length, written := r.written ++ data }

/-- What `rzfile` makes of what `zrdata` returned. -/
def gotData (r : Receiver) (got : Got (Bytes × UInt8)) : Receiver × List Reply :=
  match r.phase with
  | .outOfSync pos =>
    match got with
    | .frame (data, _) =>
      if pos > r.bytes_received then { r with anker := (pos, data) :: r.anker }.again else r.again
    | _ => r.again
  | .moredata =>
    match got with
    | .frame (data, e) =>
      let r := { r with n := 20 }.putsec data
      if e = ZCRCW then ({ r with phase := .nxthdr }, [.zack (hdrPos r.bytes_received)])
      else if e = ZCRCQ then (r, [.zack (hdrPos r.bytes_received)])
      else if e = ZCRCG then (r, [])
      else ({ r with phase := .nxthdr }, [])
    | .can => ({ r with phase := .failed }, [])
    | .error | .timeout => r.retry again
  | _ => r.again

/-- The blocks that were saved, up to one that fits: those that lie behind are freed. -/
def fits (received : Nat) : List (Nat × Bytes) → Option Bytes × List (Nat × Bytes)
  | [] => (none, [])
  | (pos, data) :: anker =>
    if pos = received then (some data, (pos, data) :: anker)
    else
      let (found, rest) := fits received anker
      (found, if pos < received then rest else (pos, data) :: rest)

/-- One pass at `nxthdr`. -/
def saved (r : Receiver) : Receiver :=
  match fits r.bytes_received r.anker with
  | (some data, anker) => { r with anker }.putsec data
  | (none, anker) => { r with anker, phase := .header }

end Receiver

/-! ## The line -/

/-- A search for a header passes over some frames that are none. -/
def gethdr {α : Type} [DecidableEq α] (garbage : α → Bool) (noise : α) (skip : Nat) (o : Outcome)
    (q : List α) : Option (Got α × List α) :=
  if (q.take skip).all garbage then
    match o, q.drop skip with
    | .frame, a :: q => if garbage a then none else some (.frame a, q)
    | .error, a :: q => if garbage a then some (.error, q) else none
    | .can, a :: q => if a = noise then some (.can, q) else none
    | .timeout, q => some (.timeout, q)
    | _, [] => none
  else none

def Frame.isGarbage : Frame → Bool
  | sub .. | noise => true
  | _ => false

/-- A read of a subpacket: whatever else there is, is an error. -/
def getdata : Outcome → List Frame → Option (Got (Bytes × UInt8) × List Frame)
  | .frame, .sub data e :: q => some (.frame (data, e), q)
  | .error, a :: q => if a.isGarbage && a ≠ .noise then none else some (.error, q)
  | .can, .noise :: q => some (.can, q)
  | .timeout, q => some (.timeout, q)
  | _, _ => none

/-- `count` frames from a place on are noise, in some number of pieces. -/
def damage {α : Type} (noise : α) (place count pieces : Nat) (q : List α) : Option (List α) :=
  if 0 < count ∧ place + count ≤ q.length then
    some (q.take place ++ (List.replicate (pieces + 1) noise ++ q.drop (place + count)))
  else none

structure Line where
  sender : Sender
  receiver : Receiver
  forward : List Frame
  back : List Reply
  deriving DecidableEq

inductive Event
  | send (blklen : Nat)
  | reply (skip : Nat) (o : Outcome) (resend : Bool)
  | header (skip : Nat) (o : Outcome)
  | data (o : Outcome)
  | saved
  | tryz
  | damage (place count pieces : Nat)
  | damageBack (place count pieces : Nat)
  deriving DecidableEq

def Line.fromSender (l : Line) (p : Sender × List Frame) : Line :=
  { l with sender := p.1, forward := l.forward ++ p.2 }

def Line.fromReceiver (l : Line) (p : Receiver × List Reply) : Line :=
  { l with receiver := p.1, back := l.back ++ p.2 }

/-- A receiver that has closed the file announces itself again; what it reads then is the next
file's. -/
def Line.step (file : Bytes) (l : Line) : Event → Option Line
  | .send blklen =>
    if l.sender.phase = .data ∧ 0 < blklen then some (l.fromSender (l.sender.send file blklen))
    else none
  | .reply skip o resend => do
    let (got, back) ← gethdr (· = .noise) .noise skip o l.back
    let l := { l with back }
    match l.sender.phase with
    | .naming => some (l.fromSender (l.sender.named resend got))
    | .waitack | .waiteof => some (l.fromSender (l.sender.getinsync got))
    | _ => none
  | .header skip o => do
    let (got, forward) ← gethdr Frame.isGarbage .noise skip o l.forward
    if l.receiver.phase = .header then
      some ({ l with forward }.fromReceiver (l.receiver.gotHeader got))
    else none
  | .data o => do
    let (got, forward) ← getdata o l.forward
    match l.receiver.phase with
    | .ignore | .outOfSync _ | .moredata =>
      some ({ l with forward }.fromReceiver (l.receiver.gotData got))
    | _ => none
  | .saved =>
    if l.receiver.phase = .nxthdr then some { l with receiver := l.receiver.saved } else none
  | .tryz =>
    if l.receiver.phase = .closed then some { l with back := l.back ++ [.zrinit] } else none
  | .damage place count pieces => do
    let forward ← Zmodem.damage .noise place count pieces l.forward
    return { l with forward }
  | .damageBack place count pieces => do
    let back ← Zmodem.damage .noise place count pieces l.back
    return { l with back }

/-- The receiver has read the name of the file and asks for its first byte, behind some headers that
announced it; some names that it was sent meanwhile are still on the line. -/
def Line.start (inits names : Nat) : Line where
  sender := ⟨.naming, 0, 0, 0, false⟩
  receiver := ⟨.header, 20, 0, [], []⟩
  forward := (List.replicate names [Frame.zfile, .sub [] ZCRCW]).flatten
  back := List.replicate inits .zrinit ++ [.zrpos (hdrPos 0)]

/-! ## What the line carries -/

/-- The subpacket does not end its frame. -/
def continues (e : UInt8) : Bool := e = ZCRCG || e = ZCRCQ

/-- The place in the file of the next subpacket, where the sender is within a frame of data. -/
def Sender.place (s : Sender) : Option Nat := if s.phase = .data then some s.bytes_sent else none

/-- Behind a header of data, and behind each subpacket that continues the frame, stands the piece of
the file that belongs there, up to where the sender is or to some noise. The first argument is the
place of the sender, the second the place at the beginning of the line. -/
def Follows (file : Bytes) (o : Option Nat) : Option Nat → List Frame → Prop
  | p, [] => ∀ n ∈ p, o = some n
  | _, .zdata pos :: q => Follows file o (some pos) q
  | some p, .sub data e :: q => data <+: file.drop p ∧
      Follows file o (if continues e then some (p + data.length) else none) q
  | _, _ :: q => Follows file o none q

section
variable {file : Bytes} {o : Option Nat} {p : Option Nat} {q : List Frame}

theorem Follows.outside (h : Follows file o p q) : Follows file o none q := by
  induction q generalizing p with
  | nil => exact nofun
  | cons a q ih =>
    cases a with
    | zdata pos => cases p <;> exact h
    | sub data e =>
      cases p with
      | none => exact h
      | some p => exact ih h.2
    | zfile | zeof | znak | noise => cases p <;> exact h

theorem Follows.tail {a : Frame} (h : Follows file o p (a :: q)) : Follows file o none q := by
  cases a with
  | zdata pos => cases p <;> exact Follows.outside (p := some pos) h
  | sub data e =>
    cases p with
    | none => exact h
    | some p => exact h.2.outside
  | zfile | zeof | znak | noise => cases p <;> exact h

theorem Follows.drop {a : List Frame} (h : Follows file o p (a ++ q)) : Follows file o none q := by
  induction a generalizing p with
  | nil => exact h.outside
  | cons x a ih => exact ih h.tail

/-- What is sent next is put behind what is on the line. -/
theorem Follows.append {o' : Option Nat} {q' : List Frame} (h : Follows file o p q)
    (hnext : ∀ p', (∀ n ∈ p', o = some n) → Follows file o' p' q') :
    Follows file o' p (q ++ q') := by
  induction q generalizing p with
  | nil => exact hnext p h
  | cons a q ih =>
    cases a with
    | zdata pos => cases p <;> exact ih (p := some pos) h
    | sub data e =>
      cases p with
      | none => exact ih (p := none) h
      | some p => exact ⟨h.1, ih h.2⟩
    | zfile | zeof | znak | noise => cases p <;> exact ih (p := none) h

/-- Noise ends whatever it falls into. -/
theorem Follows.noise {b c : List Frame} (h : Follows file o p (b ++ c)) (k : Nat) :
    Follows file o p (List.replicate (k + 1) .noise ++ c) := by
  have hnone : ∀ k, Follows file o none (List.replicate k .noise ++ c) := by
    intro k
    induction k with
    | zero => exact h.drop
    | succ k ih => exact ih
  cases p <;> exact hnone k

theorem Follows.damage {a b c : List Frame} (h : Follows file o p (a ++ (b ++ c))) (k : Nat) :
    Follows file o p (a ++ (List.replicate (k + 1) .noise ++ c)) := by
  induction a generalizing p with
  | nil => exact Follows.noise (b := b) h k
  | cons x a ih =>
    cases x with
    | zdata pos => cases p <;> exact ih (p := some pos) h
    | sub data e =>
      cases p with
      | none => exact ih (p := none) h
      | some p => exact ⟨h.1, ih h.2⟩
    | zfile | zeof | znak | noise => cases p <;> exact ih (p := none) h

/-- Frames that are no header of data say nothing of a place. -/
theorem Follows.of_quiet (h : ∀ pos, .zdata pos ∉ q) : Follows file o none q := by
  induction q with
  | nil => exact nofun
  | cons a q ih =>
    have hrest := ih fun pos hpos => h pos (List.mem_cons_of_mem _ hpos)
    cases a with
    | zdata pos => exact absurd List.mem_cons_self (h pos)
    | zfile | zeof | znak | sub | noise => exact hrest

end

/-- What a search for a header leaves on the line. -/
theorem gethdr_spec {α : Type} [DecidableEq α] {garbage : α → Bool} {noise : α} {skip : Nat}
    {o : Outcome} {q q' : List α} {got : Got α}
    (h : gethdr garbage noise skip o q = some (got, q')) : ∃ front, match got with
      | .frame a => q = front ++ a :: q' ∧ garbage a = false
      | .timeout => q = front ++ q'
      | .error | .can => ∃ a, q = front ++ a :: q' := by
  rw [gethdr.eq_def] at h
  split at h
  · have hq := List.take_append_drop skip q
    refine ⟨q.take skip, ?_⟩
    cases o with
    | timeout =>
      obtain ⟨rfl, rfl⟩ := Prod.mk.inj (Option.some.inj h)
      exact hq.symm
    | frame | error | can =>
      cases htail : q.drop skip with
      | nil => rw [htail] at h; cases h
      | cons a tail =>
        rw [htail] at h hq
        simp only [Option.ite_none_left_eq_some, Option.ite_none_right_eq_some,
          Option.some.injEq, Prod.mk.injEq] at h
        obtain ⟨hgarbage, rfl, rfl⟩ := h
        first
          | exact ⟨hq.symm, Bool.eq_false_iff.mpr hgarbage⟩
          | exact ⟨a, hq.symm⟩
  · cases h

theorem gethdr_suffix {α : Type} [DecidableEq α] {garbage : α → Bool} {noise : α} {skip : Nat}
    {o : Outcome} {q q' : List α} {got : Got α}
    (h : gethdr garbage noise skip o q = some (got, q')) : q' <:+ q := by
  obtain ⟨front, h⟩ := gethdr_spec h
  cases got with
  | frame a => exact ⟨front ++ [a], by rw [h.1, List.append_assoc]; rfl⟩
  | timeout => exact ⟨front, h.symm⟩
  | error | can =>
    obtain ⟨a, rfl⟩ := h
    exact ⟨front ++ [a], by rw [List.append_assoc]; rfl⟩

/-- What a read of a subpacket leaves on the line. -/
theorem getdata_spec {o : Outcome} {q q' : List Frame} {got : Got (Bytes × UInt8)}
    (h : getdata o q = some (got, q')) :
    match got with
    | .frame (data, e) => q = .sub data e :: q'
    | .timeout => q = q'
    | .error | .can => ∃ a, q = a :: q' := by
  rw [getdata.eq_def] at h
  split at h
  · cases h; rfl
  · split at h
    · cases h
    · cases h; exact ⟨_, rfl⟩
  · cases h; exact ⟨_, rfl⟩
  · cases h; rfl
  · cases h

/-- Whatever is on the line besides noise was there before. -/
theorem damage_filter {α : Type} [DecidableEq α] {noise : α} {place count pieces : Nat}
    {q q' : List α} (h : damage noise place count pieces q = some q') :
    (q'.filter (· ≠ noise)).Sublist q := by
  rw [damage] at h
  split at h
  · cases h
    have hnoise : (List.replicate (pieces + 1) noise).filter (· ≠ noise) = [] := by simp
    rw [List.filter_append, List.filter_append, hnoise, List.nil_append]
    have hdrop : (q.drop (place + count)).Sublist (q.drop place) := by
      rw [← List.drop_drop]
      exact List.drop_sublist ..
    have happ := (List.filter_sublist (p := (· ≠ noise)) (l := q.take place)).append
      ((List.filter_sublist (p := (· ≠ noise)) (l := q.drop (place + count))).trans hdrop)
    rwa [List.take_append_drop] at happ
  · cases h

theorem damage_follows {file : Bytes} {o p : Option Nat} {place count pieces : Nat}
    {q q' : List Frame} (h : damage .noise place count pieces q = some q')
    (hq : Follows file o p q) : Follows file o p q' := by
  rw [damage] at h
  split at h
  · cases h
    rw [← List.take_append_drop place q, ← List.take_append_drop count (q.drop place),
      List.drop_drop] at hq
    exact hq.damage pieces
  · cases h

theorem hdrPos_of_le {file : Bytes} {pos : Nat} (hfile : file.length < 2 ^ 32)
    (h : pos ≤ file.length) : hdrPos pos = pos := by
  rw [hdrPos, rclhdr_stohdr]
  exact Nat.mod_eq_of_lt (Nat.lt_of_le_of_lt h hfile)

/-! ## The sender keeps to the file -/

structure Sender.Fits (file : Bytes) (s : Sender) : Prop where
  sent_le : s.bytes_sent ≤ file.length
  all_sent : s.phase = .waiteof → s.bytes_sent = file.length
  eof_seen : s.phase = .naming ∨ s.phase = .data ∨ s.phase = .waitack → s.eof_seen = false

/-- What the sender has become and puts behind a line on which it was at place `o`. -/
structure Sent (file : Bytes) (o : Option Nat) (p : Sender × List Frame) : Prop where
  fits : p.1.Fits file
  follows : ∀ p', (∀ n ∈ p', o = some n) → Follows file p.1.place p' p.2
  zeof : ∀ pos, .zeof pos ∈ p.2 → pos = file.length

/-- The three ends that a turn of the loop has. -/
theorem Sender.send_eq {s : Sender} (heof : s.eof_seen = false) (file : Bytes) (blklen : Nat) :
    s.send file blklen =
      let data := (file.drop s.bytes_sent).take blklen
      let sent := s.bytes_sent + data.length
      if file.length ≤ s.bytes_sent + blklen then
        (⟨.waiteof, sent, sent, s.Lastsync, true⟩, [.sub data ZCRCE, .zeof (hdrPos sent)])
      else if s.bytcnt = s.Lastsync then
        (⟨.waitack, sent, sent, s.Lastsync, false⟩, [.sub data ZCRCW])
      else (⟨s.phase, sent, sent, s.Lastsync, false⟩, [.sub data ZCRCG]) := by
  rw [Sender.send, heof, Bool.false_or]
  dsimp only
  by_cases hend : file.length ≤ s.bytes_sent + blklen
  · rw [if_pos hend, decide_eq_true hend, if_pos rfl, if_neg (by decide), if_pos rfl]
  · have hno : ¬false = true := nofun
    rw [if_neg hend, decide_eq_false hend]
    simp only [if_neg hno]
    by_cases hsync : s.bytcnt = s.Lastsync
    · rw [if_pos hsync, if_pos hsync, if_pos rfl]
    · rw [if_neg hsync, if_neg hsync, if_neg (by decide)]

section
variable {file : Bytes} (hfile : file.length < 2 ^ 32) {s : Sender}
include hfile

theorem Sender.send_sent (hphase : s.phase = .data) (hs : s.Fits file) (blklen : Nat) :
    Sent file s.place (s.send file blklen) := by
  have hplace : s.place = some s.bytes_sent := if_pos hphase
  have hlen := hs.sent_le
  -- What the subpacket carries belongs to the place of the sender.
  have hnext {o : Option Nat} {e : UInt8} {q : List Frame} (hout : Follows file o none q)
      (hin : Follows file o (if continues e then some (s.bytes_sent +
        ((file.drop s.bytes_sent).take blklen).length) else none) q) :
      ∀ p', (∀ n ∈ p', s.place = some n) →
        Follows file o p' (.sub ((file.drop s.bytes_sent).take blklen) e :: q) := by
    rintro (_ | n) hn
    · exact hout
    · obtain rfl : s.bytes_sent = n := Option.some.inj (hplace.symm.trans (hn n rfl))
      exact ⟨List.take_prefix .., hin⟩
  have hzeof (e : UInt8) (pos : Nat) (h : .zeof pos ∈ [Frame.sub
      ((file.drop s.bytes_sent).take blklen) e]) : pos = file.length := by
    cases List.mem_singleton.mp h
  have hadd : s.bytes_sent + ((file.drop s.bytes_sent).take blklen).length ≤ file.length := by
    rw [List.length_take, List.length_drop]
    omega
  rw [Sender.send_eq (hs.eof_seen (.inr (.inl hphase)))]
  dsimp only
  split
  · next hend =>
    have hall : s.bytes_sent + ((file.drop s.bytes_sent).take blklen).length = file.length := by
      rw [List.length_take, List.length_drop]
      omega
    refine ⟨⟨hadd, fun _ => hall, nofun⟩, hnext nofun nofun, fun pos h => ?_⟩
    obtain h | h := List.mem_cons.mp h
    · cases h
    · cases List.mem_singleton.mp h
      exact (hdrPos_of_le hfile hadd).trans hall
  split
  · exact ⟨⟨hadd, nofun, fun _ => rfl⟩, hnext nofun nofun, hzeof _⟩
  · refine ⟨⟨hadd, fun h => absurd (hphase.symm.trans h) nofun, fun _ => rfl⟩,
      hnext nofun fun n hn => ?_, hzeof _⟩
    rw [if_pos (by decide)] at hn
    exact (if_pos hphase).trans hn

theorem Sender.somemore_sent (hle : s.bytes_sent ≤ file.length) (heof : s.eof_seen = false)
    (o : Option Nat) : Sent file o s.somemore := by
  refine ⟨⟨hle, nofun, fun _ => heof⟩, fun p' _ => ?_, fun pos h => ?_⟩
  · have hnext : Follows file (some s.bytes_sent) (some (hdrPos s.bytes_sent)) [] := by
      rw [hdrPos_of_le hfile hle]
      exact fun n hn => hn
    cases p' <;> exact hnext
  · cases List.mem_singleton.mp h

omit hfile in
theorem Sent.of_quiet {q : List Frame} (hs : s.Fits file) {o : Option Nat} (ho : o = none)
    (hdata : ∀ pos, .zdata pos ∉ q)
    (hzeof : ∀ pos, .zeof pos ∈ q → pos = file.length) : Sent file o (s, q) := by
  refine ⟨hs, fun p' hp' => ?_, hzeof⟩
  cases p' with
  | none => exact .of_quiet hdata
  | some n => exact absurd (ho.symm.trans (hp' n rfl)) nofun

/-- An answer that the receiver could give. -/
def Got.Sound (file : Bytes) (got : Got Reply) : Prop :=
  ∀ pos, got = .frame (.zrpos pos) → pos ≤ file.length

theorem Sender.named_sent (hphase : s.phase = .naming) (hs : s.Fits file) (resend : Bool)
    {got : Got Reply} (hgot : got.Sound file) : Sent file s.place (s.named resend got) := by
  have hplace : s.place = none := if_neg (by rw [hphase]; decide)
  have hname : Sent file s.place (s, [.zfile, .sub [] ZCRCW]) :=
    .of_quiet hs hplace (by simp) (by simp)
  have hnothing : Sent file s.place (s, []) := .of_quiet hs hplace (by simp) (by simp)
  have hfailed : Sent file s.place ({ s with phase := .failed }, []) :=
    .of_quiet (s := { s with phase := .failed }) ⟨hs.sent_le, by simp, by simp⟩ hplace (by simp)
      (by simp)
  cases got with
  | frame a =>
    cases a with
    | zrpos pos =>
      exact Sender.somemore_sent hfile (s := ⟨s.phase, pos, pos, _, s.eof_seen⟩) (hgot pos rfl)
        (hs.eof_seen (.inl hphase)) _
    | zrinit =>
      rw [Sender.named]
      split
      · exact hname
      · exact hnothing
    | zack | noise => exact hname
  | error => exact hname
  | timeout | can => exact hfailed

theorem Sender.getinsync_sent (hphase : s.phase = .waitack ∨ s.phase = .waiteof)
    (hs : s.Fits file) {got : Got Reply} (hgot : got.Sound file) :
    Sent file s.place (s.getinsync got) := by
  have hplace : s.place = none := if_neg (by rcases hphase with h | h <;> rw [h] <;> decide)
  have hnak : Sent file s.place (s, [.znak]) := .of_quiet hs hplace (by simp) (by simp)
  have hfinal (phase : SendPhase) (h : phase = .ok ∨ phase = .failed) :
      Sent file s.place ({ s with phase }, []) := by
    refine .of_quiet (s := { s with phase }) ⟨hs.sent_le, ?_, ?_⟩ hplace (by simp) (by simp)
    all_goals rcases h with rfl | rfl <;> simp
  cases got with
  | frame a =>
    cases a with
    | zrpos pos => exact Sender.somemore_sent hfile (hgot pos rfl) rfl _
    | zrinit => exact hfinal _ (.inl rfl)
    | zack pos =>
      rw [Sender.getinsync]
      split
      · split
        · next heof =>
          refine .of_quiet hs hplace (by simp) fun pos h => ?_
          cases List.mem_singleton.mp h
          rw [hdrPos_of_le hfile hs.sent_le, hs.all_sent heof]
        · next heof =>
          exact Sender.somemore_sent hfile hs.sent_le
            (hs.eof_seen (.inr (.inr (hphase.resolve_right heof)))) _
      · exact .of_quiet hs hplace (by simp) (by simp)
    | noise => exact hnak
  | error => exact hnak
  | timeout | can => exact hfinal _ (.inr rfl)

end

/-! ## The receiver keeps to the file -/

/-- The place in the file of what the receiver reads next as data. -/
def Receiver.place (r : Receiver) : Option Nat :=
  match r.phase with
  | .moredata => some r.bytes_received
  | .outOfSync pos => some pos
  | _ => none

structure Receiver.Fits (file : Bytes) (r : Receiver) : Prop where
  written : r.written = file.take r.bytes_received
  received_le : r.bytes_received ≤ file.length
  saved : ∀ b ∈ r.anker, b.2 <+: file.drop b.1
  closed : r.phase = .closed → r.bytes_received = file.length

/-- What the receiver has become in front of a line, and answers. -/
structure Answered (file : Bytes) (o : Option Nat) (q : List Frame) (p : Receiver × List Reply) :
    Prop where
  fits : p.1.Fits file
  follows : Follows file o p.1.place q
  zrpos : ∀ pos, .zrpos pos ∈ p.2 → pos ≤ file.length
  zrinit : .zrinit ∉ p.2

theorem Receiver.Fits.of_phase {file : Bytes} {r : Receiver} (hr : r.Fits file) (n : Nat)
    {p : ReceivePhase} (hphase : p = .closed → r.bytes_received = file.length) :
    { r with n, phase := p : Receiver }.Fits file :=
  ⟨hr.written, hr.received_le, hr.saved, hphase⟩

/-- A piece of the file that belongs where the receiver stands. -/
theorem Receiver.Fits.putsec {file data : Bytes} {r : Receiver} (hr : r.Fits file)
    (hdata : data <+: file.drop r.bytes_received) (hphase : r.phase ≠ .closed) :
    (r.putsec data).Fits file := by
  obtain ⟨tail, htail⟩ := hdata
  have hlen := congrArg List.length htail
  rw [List.length_append, List.length_drop] at hlen
  have hle := hr.received_le
  refine ⟨?_, ?_, hr.saved, fun h => absurd h hphase⟩
  · show r.written ++ data = file.take (r.bytes_received + data.length)
    rw [hr.written, List.take_add, ← htail, List.take_left]
  · show r.bytes_received + data.length ≤ file.length
    omega

section
variable {file : Bytes} (hfile : file.length < 2 ^ 32) {o : Option Nat} {q : List Frame}
  {r : Receiver}
include hfile

theorem Receiver.again_answered (hr : r.Fits file) (hq : Follows file o none q) :
    Answered file o q r.again := by
  refine ⟨hr.of_phase r.n nofun, hq, fun pos h => ?_, by simp [Receiver.again]⟩
  cases List.mem_singleton.mp h
  rw [hdrPos_of_le hfile hr.received_le]
  exact hr.received_le

omit hfile in
/-- A step that answers nothing. -/
theorem Answered.quiet (hr : r.Fits file) (hq : Follows file o r.place q) :
    Answered file o q (r, []) := ⟨hr, hq, by simp, by simp⟩

omit hfile in
theorem Receiver.retry_answered (hr : r.Fits file) (hq : Follows file o none q)
    {next : Receiver → Receiver × List Reply}
    (hnext : Answered file o q (next { r with n := r.n - 1 })) :
    Answered file o q (r.retry next) := by
  rw [Receiver.retry]
  split
  · exact .quiet (hr.of_phase r.n nofun) hq
  · exact hnext

omit hfile in
theorem Answered.zack {pos : Nat} (hr : r.Fits file) (hq : Follows file o r.place q) :
    Answered file o q (r, [.zack pos]) := ⟨hr, hq, by simp, by simp⟩

theorem Receiver.gotHeader_answered (hphase : r.phase = .header) (hr : r.Fits file)
    {got : Got Frame} (hq : Follows file o none q) (hzdata : ∀ pos, got = .frame (.zdata pos) →
      Follows file o (some pos) q)
    (hzeof : ∀ pos, got = .frame (.zeof pos) → pos = file.length) :
    Answered file o q (r.gotHeader got) := by
  have hquiet (n : Nat) (phase : ReceivePhase) (hphase : phase ≠ .closed)
      (hq : Follows file o { r with n, phase : Receiver }.place q) :
      Answered file o q ({ r with n, phase }, []) :=
    .quiet (hr.of_phase n fun h => absurd h hphase) hq
  have hagain := Receiver.again_answered hfile (hr.of_phase (r.n - 1) (p := r.phase)
    (by rw [hphase]; nofun)) hq
  cases got with
  | frame a =>
    cases a with
    | zfile => exact hquiet r.n .ignore nofun hq
    | znak =>
      rw [Receiver.gotHeader]
      exact Receiver.retry_answered hr hq (hquiet (r.n - 1) .ignore nofun hq)
    | zdata pos =>
      rw [Receiver.gotHeader]
      split
      · exact Receiver.retry_answered hr hq
          (hquiet (r.n - 1) (.outOfSync pos) nofun (hzdata pos rfl))
      · next heq =>
        obtain rfl : pos = r.bytes_received := not_not.mp heq
        exact hquiet r.n .moredata nofun (hzdata _ rfl)
    | zeof pos =>
      rw [Receiver.gotHeader]
      split
      · exact hquiet r.n .nxthdr nofun hq
      · next heq =>
        obtain rfl : pos = r.bytes_received := not_not.mp heq
        exact .quiet (hr.of_phase r.n fun _ => hzeof _ rfl) hq
    | sub | noise => exact Receiver.retry_answered hr hq hagain
  | error => exact Receiver.retry_answered hr hq hagain
  | timeout =>
    rw [Receiver.gotHeader]
    exact Receiver.retry_answered hr hq (hquiet (r.n - 1) .ignore nofun hq)
  | can => exact hquiet r.n .failed nofun hq

theorem Receiver.gotData_answered (hphase : r.phase = .ignore ∨ r.phase = .moredata ∨
      ∃ pos, r.phase = .outOfSync pos) (hr : r.Fits file) {got : Got (Bytes × UInt8)}
    (hq : Follows file o none q)
    (hsub : ∀ data e, got = .frame (data, e) → Follows file o r.place (.sub data e :: q)) :
    Answered file o q (r.gotData got) := by
  have hagain := Receiver.again_answered hfile hr hq
  obtain ⟨phase, n, received, written, anker⟩ := r
  obtain hphase | hphase | ⟨pos, hphase⟩ := hphase
  all_goals
    dsimp only at hphase
    subst hphase
  · exact hagain
  · cases got with
    | error | timeout =>
      exact Receiver.retry_answered hr hq (Receiver.again_answered hfile
        (hr.of_phase (n - 1) (p := .moredata) nofun) hq)
    | can => exact .quiet (hr.of_phase n nofun) hq
    | frame d =>
      obtain ⟨data, e⟩ := d
      obtain ⟨hdata, hnext⟩ := hsub data e rfl
      have hput := Receiver.Fits.putsec (hr.of_phase 20 (p := .moredata) nofun) hdata nofun
      rw [Receiver.gotData]
      dsimp only
      split
      · next he =>
        rw [he, if_neg (by decide)] at hnext
        exact .zack (hput.of_phase _ nofun) hnext
      split
      · next he =>
        rw [he, if_pos (by decide)] at hnext
        exact .zack hput hnext
      split
      · next he =>
        rw [he, if_pos (by decide)] at hnext
        exact .quiet hput hnext
      · next hcrcq hcrcg =>
        rw [if_neg (by simp [continues, hcrcq, hcrcg])] at hnext
        exact .quiet (hput.of_phase _ nofun) hnext
  · cases got with
    | error | timeout | can => exact hagain
    | frame d =>
      obtain ⟨data, e⟩ := d
      obtain ⟨hdata, hnext⟩ := hsub data e rfl
      rw [Receiver.gotData]
      dsimp only
      split
      · apply Receiver.again_answered hfile _ hq
        exact ⟨hr.written, hr.received_le, List.forall_mem_cons.mpr ⟨hdata, hr.saved⟩, nofun⟩
      · exact hagain

end

theorem Receiver.fits_spec (received : Nat) (anker : List (Nat × Bytes)) :
    (∀ b ∈ (fits received anker).2, b ∈ anker) ∧
      ∀ data, (fits received anker).1 = some data → (received, data) ∈ anker := by
  induction anker with
  | nil => exact ⟨nofun, nofun⟩
  | cons b anker ih =>
    obtain ⟨pos, data⟩ := b
    rw [fits]
    split
    · next heq =>
      refine ⟨fun b hb => hb, fun data' h => ?_⟩
      rw [← Option.some.inj h, heq]
      exact List.mem_cons_self
    · refine ⟨fun b hb => ?_, fun data' h => List.mem_cons_of_mem _ (ih.2 data' h)⟩
      dsimp only at hb
      split at hb
      · exact List.mem_cons_of_mem _ (ih.1 b hb)
      · obtain rfl | hb := List.mem_cons.mp hb
        · exact List.mem_cons_self
        · exact List.mem_cons_of_mem _ (ih.1 b hb)

theorem Receiver.Fits.saved_fits {file : Bytes} {r : Receiver} (hr : r.Fits file)
    (hphase : r.phase = .nxthdr) : r.saved.Fits file ∧ r.saved.place = none ∧
      r.saved.phase ≠ .closed := by
  obtain ⟨hkept, hfound⟩ := Receiver.fits_spec r.bytes_received r.anker
  rw [Receiver.saved]
  cases hcase : Receiver.fits r.bytes_received r.anker with
  | mk found anker =>
    rw [hcase] at hkept hfound
    have hsaved (b : Nat × Bytes) (hb : b ∈ anker) := hr.saved b (hkept b hb)
    cases found with
    | none => exact ⟨⟨hr.written, hr.received_le, hsaved, nofun⟩, rfl, nofun⟩
    | some data =>
      have hopen : ({ r with anker } : Receiver).phase ≠ .closed := by
        rw [show ({ r with anker } : Receiver).phase = .nxthdr from hphase]
        nofun
      refine ⟨Receiver.Fits.putsec (r := { r with anker })
        ⟨hr.written, hr.received_le, hsaved, hr.closed⟩ (hr.saved _ (hfound data rfl)) hopen, ?_,
        hopen⟩
      rw [Receiver.place,
        show (({ r with anker } : Receiver).putsec data).phase = .nxthdr from hphase]

/-! ## Every run keeps to the file -/

/-- The sender has read a request for data and is at work on it. -/
def Sender.asked (s : Sender) : Prop := s.phase ≠ .naming ∧ s.phase ≠ .failed

structure Line.Inv (file : Bytes) (l : Line) : Prop where
  sender : l.sender.Fits file
  receiver : l.receiver.Fits file
  follows : Follows file l.sender.place l.receiver.place l.forward
  zeof : ∀ pos, .zeof pos ∈ l.forward → pos = file.length
  zrpos : ∀ pos, .zrpos pos ∈ l.back → pos ≤ file.length
  /-- Behind a request for data the receiver announces itself only when it has the file. -/
  ahead : ∀ pos, [.zrpos pos, .zrinit].Sublist l.back → l.receiver.phase = .closed
  zrinit : l.sender.asked → .zrinit ∈ l.back → l.receiver.phase = .closed
  ok : l.sender.phase = .ok → l.receiver.phase = .closed

section
variable {file : Bytes} {l : Line}

/-- The sender's side of a step. -/
theorem Line.Inv.fromSender (h : l.Inv file) {p : Sender × List Frame}
    (hp : Sent file l.sender.place p)
    (hinit : p.1.asked → .zrinit ∈ l.back → l.receiver.phase = .closed)
    (hok : p.1.phase = .ok → l.receiver.phase = .closed) : (l.fromSender p).Inv file where
  sender := hp.fits
  receiver := h.receiver
  follows := h.follows.append hp.follows
  zeof pos hpos := (List.mem_append.mp hpos).elim (h.zeof pos) (hp.zeof pos)
  zrpos := h.zrpos
  ahead := h.ahead
  zrinit := hinit
  ok := hok

/-- The receiver's side of a step. -/
theorem Line.Inv.fromReceiver (h : l.Inv file) (hopen : l.receiver.phase ≠ .closed)
    {forward : List Frame} (hsuffix : forward <:+ l.forward) {p : Receiver × List Reply}
    (hp : Answered file l.sender.place forward p) :
    ({ l with forward }.fromReceiver p).Inv file where
  sender := h.sender
  receiver := hp.fits
  follows := hp.follows
  zeof pos hpos := h.zeof pos (hsuffix.mem hpos)
  zrpos pos hpos := (List.mem_append.mp hpos).elim (h.zrpos pos) (hp.zrpos pos)
  ahead pos hpos := by
    refine absurd (h.ahead pos ?_) hopen
    obtain ⟨a, b, hab, ha, hb⟩ := List.sublist_append_iff.mp hpos
    -- The answers hold no announcement, so both stood on the line before.
    obtain rfl | ⟨b, x, rfl⟩ := b.eq_nil_or_concat
    · rw [List.append_nil] at hab
      exact hab ▸ ha
    · rw [List.concat_eq_append, ← List.append_assoc] at hab
      have hlast := congrArg List.getLast? hab
      rw [List.getLast?_concat] at hlast
      obtain rfl : .zrinit = x := Option.some.inj hlast
      exact absurd (hb.subset (by simp)) hp.zrinit
  zrinit hphase hmem := by
    refine absurd (h.zrinit hphase ?_) hopen
    exact (List.mem_append.mp hmem).resolve_right hp.zrinit
  ok hphase := absurd (h.ok hphase) hopen

/-- What stands on the way back may get lost. -/
theorem Line.Inv.withBack (h : l.Inv file) {back : List Reply}
    (hback : (back.filter (· ≠ .noise)).Sublist l.back) : { l with back : Line }.Inv file where
  sender := h.sender
  receiver := h.receiver
  follows := h.follows
  zeof := h.zeof
  zrpos pos hpos := h.zrpos pos (hback.subset (List.mem_filter.mpr ⟨hpos, rfl⟩))
  ahead pos hpos := h.ahead pos ((List.Sublist.filter (· ≠ Reply.noise) hpos).trans hback)
  zrinit hphase hmem := h.zrinit hphase (hback.subset (List.mem_filter.mpr ⟨hmem, rfl⟩))
  ok := h.ok

theorem Line.Inv.reply (hfile : file.length < 2 ^ 32) (h : l.Inv file) {skip : Nat} {o : Outcome}
    {resend : Bool} {l' : Line} (hstep : l.step file (.reply skip o resend) = some l') :
    l'.Inv file := by
  obtain ⟨⟨got, back⟩, hread, hstep⟩ := Option.bind_eq_some_iff.mp hstep
  have hsuffix := gethdr_suffix hread
  have hback : { l with back : Line }.Inv file :=
    h.withBack (List.filter_sublist.trans hsuffix.sublist)
  obtain ⟨front, hspec⟩ := gethdr_spec hread
  have hgot : got.Sound file := by
    rintro pos rfl
    exact h.zrpos pos (by rw [hspec.1]; simp)
  -- Where the sender reads an announcement, or has read a request, the receiver has the file.
  have hinit (hphase : l.sender.asked) (heq : got = .frame .zrinit) :
      l.receiver.phase = .closed := by
    subst heq
    exact h.zrinit hphase (by rw [hspec.1]; simp)
  have hahead (pos : Nat) (heq : got = .frame (.zrpos pos)) (hmem : .zrinit ∈ back) :
      l.receiver.phase = .closed := by
    subst heq
    apply h.ahead pos
    rw [hspec.1]
    exact (List.Sublist.cons_cons _ (List.singleton_sublist.mpr hmem)).trans
      (List.sublist_append_right _ _)
  have hgetinsync (hphase : l.sender.phase = .waitack ∨ l.sender.phase = .waiteof) :
      ({ l with back }.fromSender (l.sender.getinsync got)).Inv file := by
    have hasked : l.sender.asked := by rcases hphase with h | h <;> simp [Sender.asked, h]
    have hrest (hmem : .zrinit ∈ back) := h.zrinit hasked (hsuffix.mem hmem)
    refine hback.fromSender (Sender.getinsync_sent hfile hphase h.sender hgot) (fun _ => hrest) ?_
    have hok : l.sender.phase ≠ .ok := by rcases hphase with h | h <;> simp [h]
    cases got with
    | frame a =>
      cases a with
      | zrinit => exact fun _ => hinit hasked rfl
      | zrpos => exact nofun
      | zack pos =>
        rw [Sender.getinsync]
        intro h
        split at h
        · split at h
          · exact absurd h hok
          · cases h
        · exact absurd h hok
      | noise => exact fun h => absurd h hok
    | error => exact fun h => absurd h hok
    | timeout | can => exact nofun
  dsimp only at hstep
  split at hstep
  · next hphase =>
    cases hstep
    refine hback.fromSender (Sender.named_sent hfile hphase h.sender resend hgot) ?_ ?_
    all_goals
      cases got with
      | frame a =>
        cases a with
        | zrpos pos =>
          first
            | exact fun _ => hahead pos rfl
            | nofun
        | zrinit | zack | noise => simp [Sender.named, Sender.asked, hphase]
      | error | timeout | can => simp [Sender.named, Sender.asked, hphase]
  · next hphase =>
    cases hstep
    exact hgetinsync (.inl hphase)
  · next hphase =>
    cases hstep
    exact hgetinsync (.inr hphase)
  · cases hstep

theorem Line.Inv.header (hfile : file.length < 2 ^ 32) (h : l.Inv file) {skip : Nat} {o : Outcome}
    {l' : Line} (hstep : l.step file (.header skip o) = some l') : l'.Inv file := by
  obtain ⟨⟨got, forward⟩, hread, hstep⟩ := Option.bind_eq_some_iff.mp hstep
  obtain ⟨hphase, hstep⟩ := Option.ite_none_right_eq_some.mp hstep
  cases hstep
  obtain ⟨front, hspec⟩ := gethdr_spec hread
  have hfollows := h.follows
  refine h.fromReceiver (by rw [hphase]; nofun) (gethdr_suffix hread)
    (Receiver.gotHeader_answered hfile hphase h.receiver ?_ ?_ ?_)
  · cases got with
    | frame a =>
      rw [hspec.1] at hfollows
      exact hfollows.drop.tail
    | timeout =>
      rw [hspec] at hfollows
      exact hfollows.drop
    | error | can =>
      obtain ⟨a, hspec⟩ := hspec
      rw [hspec] at hfollows
      exact hfollows.drop.tail
  · rintro pos rfl
    rw [hspec.1] at hfollows
    exact hfollows.drop
  · rintro pos rfl
    exact h.zeof pos (by rw [hspec.1]; simp)

theorem Line.Inv.data (hfile : file.length < 2 ^ 32) (h : l.Inv file) {o : Outcome} {l' : Line}
    (hstep : l.step file (.data o) = some l') : l'.Inv file := by
  obtain ⟨⟨got, forward⟩, hread, hstep⟩ := Option.bind_eq_some_iff.mp hstep
  have hspec := getdata_spec hread
  have hfollows := h.follows
  have hsuffix : forward <:+ l.forward := by
    cases got with
    | frame d => exact hspec ▸ List.suffix_cons ..
    | timeout => exact hspec ▸ List.suffix_refl _
    | error | can =>
      obtain ⟨a, hspec⟩ := hspec
      exact hspec ▸ List.suffix_cons ..
  have hq : Follows file l.sender.place none forward := by
    obtain ⟨front, hfront⟩ := hsuffix
    rw [← hfront] at hfollows
    exact hfollows.drop
  have hanswered (hphase : l.receiver.phase = .ignore ∨ l.receiver.phase = .moredata ∨
      ∃ pos, l.receiver.phase = .outOfSync pos) :
      ({ l with forward }.fromReceiver (l.receiver.gotData got)).Inv file := by
    refine h.fromReceiver ?_ hsuffix
      (Receiver.gotData_answered hfile hphase h.receiver hq fun data e heq => ?_)
    · rcases hphase with h | h | ⟨pos, h⟩ <;> rw [h] <;> nofun
    · subst heq
      exact hspec ▸ hfollows
  dsimp only at hstep
  split at hstep
  · next hphase => cases hstep; exact hanswered (.inl hphase)
  · next pos hphase => cases hstep; exact hanswered (.inr (.inr ⟨pos, hphase⟩))
  · next hphase => cases hstep; exact hanswered (.inr (.inl hphase))
  · cases hstep

theorem Line.Inv.step (hfile : file.length < 2 ^ 32) (h : l.Inv file) {e : Event} {l' : Line}
    (hstep : l.step file e = some l') : l'.Inv file := by
  cases e with
  | send blklen =>
    obtain ⟨⟨hphase, -⟩, hstep⟩ := Option.ite_none_right_eq_some.mp hstep
    cases hstep
    have hasked : l.sender.asked := by simp [Sender.asked, hphase]
    refine h.fromSender (Sender.send_sent hfile hphase h.sender blklen)
      (fun _ => h.zrinit hasked) fun hok => ?_
    rw [Sender.send_eq (h.sender.eof_seen (.inr (.inl hphase)))] at hok
    dsimp only at hok
    split at hok
    · cases hok
    split at hok
    · cases hok
    · exact absurd (hphase.symm.trans hok) nofun
  | reply skip o resend => exact h.reply hfile hstep
  | header skip o => exact h.header hfile hstep
  | data o => exact h.data hfile hstep
  | saved =>
    obtain ⟨hphase, hstep⟩ := Option.ite_none_right_eq_some.mp hstep
    cases hstep
    obtain ⟨hfits, hplace, hopen⟩ := h.receiver.saved_fits hphase
    have hnot : l.receiver.phase ≠ .closed := by rw [hphase]; nofun
    exact ⟨h.sender, hfits, hplace ▸ h.follows.outside, h.zeof, h.zrpos,
      fun pos hpos => absurd (h.ahead pos hpos) hnot,
      fun hasked hmem => absurd (h.zrinit hasked hmem) hnot, fun hok => absurd (h.ok hok) hnot⟩
  | tryz =>
    obtain ⟨hphase, hstep⟩ := Option.ite_none_right_eq_some.mp hstep
    cases hstep
    refine ⟨h.sender, h.receiver, h.follows, h.zeof, fun pos hpos => ?_, fun _ _ => hphase,
      fun _ _ => hphase, h.ok⟩
    obtain hpos | hpos := List.mem_append.mp hpos
    · exact h.zrpos pos hpos
    · cases List.mem_singleton.mp hpos
  | damage place count pieces =>
    obtain ⟨forward, hdamage, hstep⟩ := Option.bind_eq_some_iff.mp hstep
    cases hstep
    exact ⟨h.sender, h.receiver, damage_follows hdamage h.follows, fun pos hpos => h.zeof pos
      ((damage_filter hdamage).subset (List.mem_filter.mpr ⟨hpos, rfl⟩)), h.zrpos, h.ahead,
      h.zrinit, h.ok⟩
  | damageBack place count pieces =>
    obtain ⟨back, hdamage, hstep⟩ := Option.bind_eq_some_iff.mp hstep
    cases hstep
    exact h.withBack (damage_filter hdamage)

end

theorem Line.Inv.start (file : Bytes) (inits names : Nat) : (Line.start inits names).Inv file := by
  have hnames (a : Frame) (ha : a ∈ (Line.start inits names).forward) :
      a = .zfile ∨ a = .sub [] ZCRCW := by
    obtain ⟨x, hx, ha⟩ := List.mem_flatten.mp ha
    rw [List.eq_of_mem_replicate hx] at ha
    simpa using ha
  have hback (pos : Nat) (h : .zrpos pos ∈ (Line.start inits names).back) : pos = 0 := by
    obtain h | h := List.mem_append.mp h
    · exact absurd (List.eq_of_mem_replicate h) nofun
    · exact (Reply.zrpos.inj (List.mem_singleton.mp h)).trans (rclhdr_stohdr 0)
  refine ⟨⟨Nat.zero_le _, nofun, fun _ => rfl⟩, ⟨rfl, Nat.zero_le _, nofun, nofun⟩,
    .of_quiet fun pos h => ?_, fun pos h => ?_, fun pos h => ?_, fun pos h => ?_,
    fun h => absurd rfl h.1, nofun⟩
  · rcases hnames _ h with h | h <;> cases h
  · rcases hnames _ h with h | h <;> cases h
  · rw [hback pos h]
    exact Nat.zero_le _
  · -- The request stands behind all announcements.
    obtain ⟨a, b, hab, ha, hb⟩ := List.sublist_append_iff.mp h
    cases a with
    | nil =>
      rw [List.nil_append] at hab
      have hlen := hb.length_le
      rw [← hab] at hlen
      exact absurd hlen (by simp)
    | cons x a =>
      have hx := List.eq_of_mem_replicate (ha.subset List.mem_cons_self)
      rw [hx] at hab
      exact absurd (List.cons.inj hab).1 nofun

/-- A transfer in which a subpacket is damaged and asked for again. -/
def damagedRun : List Event :=
  [.reply 0 .frame false, .reply 0 .frame false, .send 2, .send 2, .damage 2 1 0, .header 0 .frame,
    .data .frame, .data .error, .header 0 .frame, .saved, .reply 0 .frame false, .send 2,
    .header 0 .frame, .data .frame, .saved, .header 0 .frame, .tryz, .reply 0 .frame false]

/-- Both ends stand at the same place of the file, and nothing is on the line. -/
def Line.inStep (file : Bytes) (pos : Nat) (Lastsync : Int) : Line where
  sender := ⟨.data, pos, pos, Lastsync, false⟩
  receiver := ⟨.moredata, 20, pos, file.take pos, []⟩
  forward := []
  back := []

/-- The transfer has succeeded. -/
def Line.Complete (file : Bytes) (l : Line) : Prop :=
  l.sender.phase = .ok ∧ l.receiver.phase = .closed ∧ l.receiver.written = file

section
variable {file : Bytes} {blklen pos : Nat} {Lastsync : Int}

theorem putsec_take {n : Nat} (hle : pos ≤ file.length) :
    Receiver.putsec ⟨.moredata, n, pos, file.take pos, []⟩ ((file.drop pos).take blklen) =
      ⟨.moredata, n, min (pos + blklen) file.length, file.take (pos + blklen), []⟩ := by
  have hlen : pos + ((file.drop pos).take blklen).length = min (pos + blklen) file.length := by
    rw [List.length_take, List.length_drop]
    omega
  rw [Receiver.putsec, hlen, List.take_add]

/-- A block that is not the last one. -/
theorem inStep_block (hlt : pos + blklen < file.length) (hblklen : 0 < blklen)
    (hsync : (pos : Int) ≠ Lastsync) :
    [Event.send blklen, .data .frame].foldlM (Line.step file) (.inStep file pos Lastsync) =
      some (.inStep file (pos + blklen) Lastsync) := by
  have hle : pos ≤ file.length := Nat.le_trans (Nat.le_add_right _ _) (Nat.le_of_lt hlt)
  have hlen : ((file.drop pos).take blklen).length = blklen := by
    rw [List.length_take, List.length_drop]
    omega
  have hsend : (Line.inStep file pos Lastsync).step file (.send blklen) =
      some ⟨⟨.data, pos + blklen, pos + blklen, Lastsync, false⟩,
        ⟨.moredata, 20, pos, file.take pos, []⟩,
        [.sub ((file.drop pos).take blklen) ZCRCG], []⟩ := by
    rw [Line.step, if_pos ⟨rfl, hblklen⟩, Line.fromSender, Sender.send_eq rfl]
    simp only [Line.inStep, hlen, if_neg (Nat.not_le.mpr hlt), if_neg hsync, List.nil_append]
  rw [List.foldlM_cons, hsend, Option.bind_eq_bind, Option.bind_some, List.foldlM_cons, Line.step]
  simp only [getdata, Option.bind_eq_bind, Option.bind_some, Receiver.gotData, putsec_take hle,
    Nat.min_eq_left (Nat.le_of_lt hlt)]
  rfl

/-- The last block, and what the two ends then say to each other. -/
theorem inStep_last (hfile : file.length < 2 ^ 32) (hle : pos ≤ file.length)
    (hend : file.length ≤ pos + blklen) (hblklen : 0 < blklen) :
    ∃ l, [Event.send blklen, .data .frame, .saved, .header 0 .frame, .tryz,
      .reply 0 .frame false].foldlM (Line.step file) (.inStep file pos Lastsync) = some l ∧
      l.Complete file := by
  have hlen : pos + ((file.drop pos).take blklen).length = file.length := by
    rw [List.length_take, List.length_drop]
    omega
  let sent : Sender := ⟨.waiteof, file.length, file.length, Lastsync, true⟩
  have hsend : (Line.inStep file pos Lastsync).step file (.send blklen) =
      some ⟨sent, ⟨.moredata, 20, pos, file.take pos, []⟩,
        [.sub ((file.drop pos).take blklen) ZCRCE, .zeof file.length], []⟩ := by
    rw [Line.step, if_pos ⟨rfl, hblklen⟩, Line.fromSender, Sender.send_eq rfl]
    simp only [Line.inStep, hlen, if_pos hend, hdrPos_of_le hfile (Nat.le_refl _), List.nil_append,
      sent]
  have hdata : Line.step file ⟨sent, ⟨.moredata, 20, pos, file.take pos, []⟩,
      [.sub ((file.drop pos).take blklen) ZCRCE, .zeof file.length], []⟩ (.data .frame) =
      some ⟨sent, ⟨.nxthdr, 20, file.length, file, []⟩, [.zeof file.length], []⟩ := by
    rw [Line.step]
    simp only [getdata, Option.bind_eq_bind, Option.bind_some, Receiver.gotData, putsec_take hle,
      Nat.min_eq_right hend, List.take_of_length_le hend]
    rfl
  have hzeof : Line.step file ⟨sent, ⟨.header, 20, file.length, file, []⟩, [.zeof file.length], []⟩
      (.header 0 .frame) = some ⟨sent, ⟨.closed, 20, file.length, file, []⟩, [], []⟩ := by
    show some (Line.fromReceiver _ (Receiver.gotHeader _ _)) = _
    rw [Receiver.gotHeader, if_neg (not_not.mpr rfl)]
    rfl
  refine ⟨⟨{ sent with phase := .ok }, ⟨.closed, 20, file.length, file, []⟩, [], []⟩, ?_, rfl, rfl,
    rfl⟩
  have hsaved : Line.step file ⟨sent, ⟨.nxthdr, 20, file.length, file, []⟩, [.zeof file.length], []⟩
      .saved = some ⟨sent, ⟨.header, 20, file.length, file, []⟩, [.zeof file.length], []⟩ := rfl
  simp only [List.foldlM_cons, hsend, hdata, hsaved, hzeof, Option.bind_eq_bind, Option.bind_some]
  rfl

/-- From a place where both ends are in step they come to the end of the file. -/
theorem inStep_completes (hfile : file.length < 2 ^ 32) {blklen : Nat → Nat}
    (hblklen : ∀ pos, 0 < blklen pos) (hle : pos ≤ file.length) (hsync : Lastsync < pos) :
    ∃ (events : List Event) (l : Line),
      events.foldlM (Line.step file) (.inStep file pos Lastsync) = some l ∧ l.Complete file := by
  induction hn : file.length - pos using Nat.strongRecOn generalizing pos with
  | ind n ih =>
    have hpos := hblklen pos
    by_cases hend : file.length ≤ pos + blklen pos
    · exact ⟨_, inStep_last hfile hle hend hpos⟩
    · have hlt := Nat.lt_of_not_le hend
      obtain ⟨events, l, hrun, hdone⟩ := ih (file.length - (pos + blklen pos)) (by omega)
        (Nat.le_of_lt hlt) (by omega) rfl
      refine ⟨[.send (blklen pos), .data .frame] ++ events, l, ?_, hdone⟩
      rw [List.foldlM_append, inStep_block hlt hpos (Int.ne_of_gt hsync)]
      exact hrun

end

end ArgoBbs.Zmodem

import ArgoBbs.Lib.CString

/-! # Channels of the secure shell

`nchan.c` keeps the state of a channel for each direction, `channels.c` moves data between the
socket and the packets of the connection (protocol 1.5). A channel is open at both ends here, and is
taken down when the socket at an end has no more data or takes no more. -/

namespace ArgoBbs.Nchan

inductive InputState
  | CHAN_INPUT_OPEN
  | CHAN_INPUT_WAIT_DRAIN
  | CHAN_INPUT_WAIT_OCLOSE
  | CHAN_INPUT_CLOSED
  deriving DecidableEq

inductive OutputState
  | CHAN_OUTPUT_OPEN
  | CHAN_OUTPUT_WAIT_DRAIN
  | CHAN_OUTPUT_WAIT_IEOF
  | CHAN_OUTPUT_CLOSED
  deriving DecidableEq

open InputState OutputState

/-- The packets about a channel. -/
inductive Packet
  | SSH_MSG_CHANNEL_DATA (data : Bytes)
  | SSH_MSG_CHANNEL_INPUT_EOF
  | SSH_MSG_CHANNEL_OUTPUT_CLOSE
  deriving DecidableEq

open Packet

/-- What should not happen; a packet for a free channel ends the connection. -/
inductive Report
  /-- `protocol error: chan_rcvd_oclose %d for istate %d` -/
  | chan_rcvd_oclose (istate : InputState)
  /-- `internal error: we do not read, but chan_read_failed %d for istate %d` -/
  | chan_read_failed (istate : InputState)
  /-- `internal error: chan_ibuf_empty %d for non empty buffer` -/
  | ibuf_not_empty
  /-- `internal error: chan_ibuf_empty %d for istate %d` -/
  | chan_ibuf_empty (istate : InputState)
  /-- `protocol error: chan_rcvd_ieof %d for ostate %d` -/
  | chan_rcvd_ieof (ostate : OutputState)
  /-- `internal error: chan_write_failed %d for ostate %d` -/
  | chan_write_failed (ostate : OutputState)
  /-- `internal error: chan_obuf_empty %d for non empty buffer` -/
  | obuf_not_empty
  /-- `internal error: chan_obuf_empty %d for ostate %d` -/
  | chan_obuf_empty (ostate : OutputState)
  /-- `internal error: channel %d: cannot send IEOF for istate %d` -/
  | cannot_send_ieof (istate : InputState)
  /-- `internal error: channel %d: cannot send OCLOSE for ostate %d`, with the other state -/
  | cannot_send_oclose (istate : InputState)
  /-- `channel free: bad local channel %d` -/
  | bad_local_channel
  /-- `Received data for free channel %d.` -/
  | data_for_free_channel
  /-- `Received data for nonexistent channel %d.`, of an end -/
  | close_for_free_channel
  deriving DecidableEq

/-- A channel with its socket and the packets that have been sent for it and are under way. -/
structure Channel where
  istate : InputState
  ostate : OutputState
  input : Bytes
  output : Bytes
  /-- The type is `SSH_CHANNEL_FREE`, else it is `SSH_CHANNEL_OPEN`. -/
  free : Bool
  /-- `shutdown` of the socket for reading and for writing -/
  shut_rd : Bool
  shut_wr : Bool
  /-- A write to the socket has failed. -/
  broken : Bool
  /-- What the socket has given. -/
  taken : Bytes
  /-- What the socket has been given. -/
  given : Bytes
  sent : List Packet
  reports : List Report
  deriving DecidableEq

/-- `channel_allocate` with `chan_init_iostates`, when the other end has answered. -/
def Channel.start : Channel where
  istate := CHAN_INPUT_OPEN
  ostate := CHAN_OUTPUT_OPEN
  input := []
  output := []
  free := false
  shut_rd := false
  shut_wr := false
  broken := false
  taken := []
  given := []
  sent := []
  reports := []

variable (c : Channel)

def packet_send (p : Packet) : Channel := { c with sent := c.sent ++ [p] }

def error (r : Report) : Channel := { c with reports := c.reports ++ [r] }

def channel_free : Channel :=
  if c.free then error c .bad_local_channel else { c with input := [], output := [], free := true }

/-! ## Actions -/

def chan_shutdown_write : Channel := { c with shut_wr := true }

def chan_shutdown_read : Channel := { c with shut_rd := true }

def chan_send_ieof : Channel :=
  match c.istate with
  | CHAN_INPUT_OPEN | CHAN_INPUT_WAIT_DRAIN => packet_send c SSH_MSG_CHANNEL_INPUT_EOF
  | istate => error c (.cannot_send_ieof istate)

def chan_send_oclose : Channel :=
  match c.ostate with
  | CHAN_OUTPUT_OPEN | CHAN_OUTPUT_WAIT_DRAIN =>
    packet_send { chan_shutdown_write c with output := [] } SSH_MSG_CHANNEL_OUTPUT_CLOSE
  | _ => error c (.cannot_send_oclose c.istate)

def chan_delete_if_full_closed : Channel :=
  if c.istate = CHAN_INPUT_CLOSED ∧ c.ostate = CHAN_OUTPUT_CLOSED then channel_free c else c

/-! ## Events of the input -/

def chan_rcvd_oclose : Channel :=
  match c.istate with
  | CHAN_INPUT_WAIT_OCLOSE => chan_delete_if_full_closed { c with istate := CHAN_INPUT_CLOSED }
  | CHAN_INPUT_OPEN =>
    chan_delete_if_full_closed
      { chan_send_ieof (chan_shutdown_read c) with istate := CHAN_INPUT_CLOSED }
  | CHAN_INPUT_WAIT_DRAIN =>
    chan_delete_if_full_closed { chan_send_ieof c with istate := CHAN_INPUT_CLOSED }
  | istate => error c (.chan_rcvd_oclose istate)

def chan_read_failed : Channel :=
  match c.istate with
  | CHAN_INPUT_OPEN => { chan_shutdown_read c with istate := CHAN_INPUT_WAIT_DRAIN }
  | istate => error c (.chan_read_failed istate)

def chan_ibuf_empty : Channel :=
  if c.input ≠ [] then error c .ibuf_not_empty
  else
    match c.istate with
    | CHAN_INPUT_WAIT_DRAIN => { chan_send_ieof c with istate := CHAN_INPUT_WAIT_OCLOSE }
    | istate => error c (.chan_ibuf_empty istate)

/-! ## Events of the output -/

def chan_rcvd_ieof : Channel :=
  match c.ostate with
  | CHAN_OUTPUT_OPEN => { c with ostate := CHAN_OUTPUT_WAIT_DRAIN }
  | CHAN_OUTPUT_WAIT_IEOF => chan_delete_if_full_closed { c with ostate := CHAN_OUTPUT_CLOSED }
  | ostate => error c (.chan_rcvd_ieof ostate)

def chan_write_failed : Channel :=
  match c.ostate with
  | CHAN_OUTPUT_OPEN => { chan_send_oclose c with ostate := CHAN_OUTPUT_WAIT_IEOF }
  | CHAN_OUTPUT_WAIT_DRAIN =>
    chan_delete_if_full_closed { chan_send_oclose c with ostate := CHAN_OUTPUT_CLOSED }
  | ostate => error c (.chan_write_failed ostate)

def chan_obuf_empty : Channel :=
  if c.output ≠ [] then error c .obuf_not_empty
  else
    match c.ostate with
    | CHAN_OUTPUT_WAIT_DRAIN =>
      chan_delete_if_full_closed { chan_send_oclose c with ostate := CHAN_OUTPUT_CLOSED }
    | ostate => error c (.chan_obuf_empty ostate)

/-! ## The socket and the connection -/

/-- The channel, and whether it is waited for that its socket can be read and written. -/
def channel_prepare_select (maxsize : Nat) : Channel × Bool × Bool :=
  if c.free then (c, false, false)
  else
    let readset := c.istate = CHAN_INPUT_OPEN ∧ c.input.length < maxsize
    if c.ostate = CHAN_OUTPUT_OPEN ∨ c.ostate = CHAN_OUTPUT_WAIT_DRAIN then
      if 0 < c.output.length then (c, readset, true)
      else if c.ostate = CHAN_OUTPUT_WAIT_DRAIN then (chan_obuf_empty c, readset, false)
      else (c, readset, false)
    else (c, readset, false)

def read_socket (buf : Bytes) : Channel :=
  { c with input := c.input ++ buf, taken := c.taken ++ buf }

def write_socket (len : Nat) : Channel :=
  { c with given := c.given ++ c.output.take len, output := c.output.drop len }

/-- What `read` gives, if the socket can be read, and how much `write` takes, if it can be written;
where that is nothing they have failed. -/
def channel_after_select (rd : Option Bytes) (wr : Option Nat) : Channel :=
  if c.free then c
  else if rd = some [] then chan_read_failed c
  else
    let c := read_socket c (rd.getD [])
    match wr with
    | none => c
    | some len =>
      if c.output = [] then c
      else if len = 0 then chan_write_failed { c with broken := true }
      else write_socket c len

/-- A turn of the loop waits for the socket. -/
def select (maxsize : Nat) (rd : Option Bytes) (wr : Option Nat) : Channel :=
  let (c, readset, writeset) := channel_prepare_select c maxsize
  channel_after_select c (if readset then rd else none) (if writeset then wr else none)

def channel_output_poll (interactive : Bool) (maxsize : Nat) : Channel :=
  if c.free then c
  else if c.istate ≠ CHAN_INPUT_OPEN ∧ c.istate ≠ CHAN_INPUT_WAIT_DRAIN then c
  else if 0 < c.input.length then
    let len :=
      if interactive then (if 1024 < c.input.length then 512 else c.input.length)
      else min c.input.length (maxsize / 2)
    packet_send { c with input := c.input.drop len } (SSH_MSG_CHANNEL_DATA (c.input.take len))
  else if c.istate = CHAN_INPUT_WAIT_DRAIN then chan_ibuf_empty c
  else c

def channel_input_data (data : Bytes) : Channel :=
  if c.free then error c .data_for_free_channel
  else if c.ostate ≠ CHAN_OUTPUT_OPEN then c
  else { c with output := c.output ++ data }

def channel_input_close : Channel :=
  if c.free then error c .close_for_free_channel else chan_rcvd_ieof c

/-- The channel may be free here. -/
def channel_input_close_confirmation : Channel := chan_rcvd_oclose c

def channel_input (p : Packet) : Channel :=
  match p with
  | SSH_MSG_CHANNEL_DATA data => channel_input_data c data
  | SSH_MSG_CHANNEL_INPUT_EOF => channel_input_close c
  | SSH_MSG_CHANNEL_OUTPUT_CLOSE => channel_input_close_confirmation c

/-! ## The two ends -/

/-- A channel at one end of a connection and the one at the other end. -/
structure Ends where
  here : Channel
  there : Channel
  deriving DecidableEq

/-- What happens at one end. -/
inductive Event
  | select (rd : Option Bytes) (wr : Option Nat)
  | output_poll (interactive : Bool)
  /-- The next packet comes. -/
  | input
  deriving DecidableEq

def Ends.flip (s : Ends) : Ends := ⟨s.there, s.here⟩

def Ends.start : Ends := ⟨.start, .start⟩

def Ends.exec (maxsize : Nat) (s : Ends) : Event → Ends
  | .select rd wr => { s with here := select s.here maxsize rd wr }
  | .output_poll interactive => { s with here := channel_output_poll s.here interactive maxsize }
  | .input =>
    match s.there.sent with
    | [] => s
    | p :: sent => ⟨channel_input s.here p, { s.there with sent }⟩

/-- An event at this end or at the other one. -/
def Ends.step (maxsize : Nat) (s : Ends) : Bool × Event → Ends
  | (false, e) => s.exec maxsize e
  | (true, e) => (s.flip.exec maxsize e).flip

def Ends.run (maxsize : Nat) (s : Ends) (es : List (Bool × Event)) : Ends :=
  es.foldl (Ends.step maxsize) s

end ArgoBbs.Nchan

import ArgoBbs.Lib.HalfClose
import ArgoBbs.Ssh.Nchan

/-! # How channels are taken down

The two directions of a channel are streams that either end may close, and what is done for one of
them leaves the other one as it is. So nothing that should not happen does, in whatever order things
happen at the two ends, and a channel is free at an end only when no packet for it can come any more
(`nchan.h`: both sides have to close the channel). -/

namespace ArgoBbs.Nchan
open HalfClose InputState OutputState Packet

def InputState.source : InputState → Source
  | CHAN_INPUT_OPEN => .flowing
  | CHAN_INPUT_WAIT_DRAIN => .draining
  | CHAN_INPUT_WAIT_OCLOSE => .ended
  | CHAN_INPUT_CLOSED => .closed

def OutputState.sink : OutputState → Sink
  | CHAN_OUTPUT_OPEN => .flowing
  | CHAN_OUTPUT_WAIT_DRAIN => .draining
  | CHAN_OUTPUT_WAIT_IEOF => .refused
  | CHAN_OUTPUT_CLOSED => .closed

theorem source_injective (a b : InputState) (h : a.source = b.source) : a = b := by
  cases a <;> cases b <;> first | rfl | cases h

theorem sink_injective (a b : OutputState) (h : a.sink = b.sink) : a = b := by
  cases a <;> cases b <;> first | rfl | cases h

/-- Buffers of ends that are closed do not count. -/
def InputState.buffer : InputState → Bytes → Bytes
  | CHAN_INPUT_CLOSED, _ => []
  | CHAN_INPUT_OPEN, buf | CHAN_INPUT_WAIT_DRAIN, buf | CHAN_INPUT_WAIT_OCLOSE, buf => buf

def OutputState.buffer : OutputState → Bytes → Bytes
  | CHAN_OUTPUT_WAIT_IEOF, _ | CHAN_OUTPUT_CLOSED, _ => []
  | CHAN_OUTPUT_OPEN, buf | CHAN_OUTPUT_WAIT_DRAIN, buf => buf

/-- A packet for the direction in which it goes. -/
def Packet.forward : Packet → Option (Option Bytes)
  | SSH_MSG_CHANNEL_DATA data => some (some data)
  | SSH_MSG_CHANNEL_INPUT_EOF => some none
  | SSH_MSG_CHANNEL_OUTPUT_CLOSE => none

/-- The direction away from this end. -/
def Ends.stream (s : Ends) : Stream UInt8 where
  source := s.here.istate.source
  input := s.here.istate.buffer s.here.input
  taken := s.here.taken
  sink := s.there.ostate.sink
  output := s.there.ostate.buffer s.there.output
  given := s.there.given
  forward := s.here.sent.filterMap Packet.forward
  back := s.there.sent.count SSH_MSG_CHANNEL_OUTPUT_CLOSE
  broken := s.there.broken

/-- One of the directions makes a step. -/
def Moves (s s' : Ends) : Prop :=
  Step s.stream s'.stream ∧ s'.flip.stream = s.flip.stream ∨
    s'.stream = s.stream ∧ Step s.flip.stream s'.flip.stream

/-- There is nothing to complain of, and the socket is shut down as far as it is not used. -/
structure Tidy (c : Channel) : Prop where
  reports : c.reports = []
  shut_rd : c.shut_rd = decide (c.istate ≠ CHAN_INPUT_OPEN)
  shut_wr : c.shut_wr = c.ostate.sink.refuses

structure Ok (c : Channel) : Prop extends Tidy c where
  free : c.free = true ↔ c.istate = CHAN_INPUT_CLOSED ∧ c.ostate = CHAN_OUTPUT_CLOSED

variable {c d : Channel} {s s' : Ends} {maxsize : Nat}

theorem Ok.not_free_of_istate (h : Ok c) (hi : c.istate ≠ CHAN_INPUT_CLOSED) : c.free = false :=
  Bool.eq_false_iff.mpr fun hfree => hi (h.free.mp hfree).1

theorem Ok.not_free_of_ostate (h : Ok c) (ho : c.ostate ≠ CHAN_OUTPUT_CLOSED) : c.free = false :=
  Bool.eq_false_iff.mpr fun hfree => ho (h.free.mp hfree).2

theorem Tidy.ok (h : Tidy c) (hfree : c.free = false)
    (hopen : ¬(c.istate = CHAN_INPUT_CLOSED ∧ c.ostate = CHAN_OUTPUT_CLOSED)) : Ok c :=
  ⟨h, iff_of_false (Bool.eq_false_iff.mp hfree) hopen⟩

theorem Tidy.delete (h : Tidy c) (hfree : c.free = false) : Ok (chan_delete_if_full_closed c) := by
  rw [chan_delete_if_full_closed]
  split
  case isTrue hclosed =>
    rw [channel_free, hfree]
    exact ⟨⟨h.reports, h.shut_rd, h.shut_wr⟩, iff_of_true rfl hclosed⟩
  case isFalse hopen => exact h.ok hfree hopen

/-- Freeing a channel changes neither direction. -/
theorem stream_delete (c d : Channel) :
    Ends.stream ⟨chan_delete_if_full_closed c, d⟩ = Ends.stream ⟨c, d⟩ ∧
      Ends.stream ⟨d, chan_delete_if_full_closed c⟩ = Ends.stream ⟨d, c⟩ := by
  rw [chan_delete_if_full_closed]
  split
  case isTrue hclosed =>
    rw [channel_free]
    split
    · exact ⟨rfl, rfl⟩
    · simp only [Ends.stream, hclosed.1, hclosed.2]
      exact ⟨rfl, rfl⟩
  case isFalse => exact ⟨rfl, rfl⟩

theorem istate_delete (c : Channel) : (chan_delete_if_full_closed c).istate = c.istate := by
  rw [chan_delete_if_full_closed]
  split
  · rw [channel_free]
    split <;> rfl
  · rfl

theorem Moves.delete (h : Moves s ⟨c, d⟩) : Moves s ⟨chan_delete_if_full_closed c, d⟩ := by
  obtain ⟨hhere, hthere⟩ := stream_delete c d
  obtain ⟨hstep, hsame⟩ | ⟨hsame, hstep⟩ := h
  · exact .inl ⟨hhere ▸ hstep, hthere.trans hsame⟩
  · exact .inr ⟨hhere.trans hsame, (congrArg _ hthere).mpr hstep⟩

/-! ## Events of the input -/

theorem chan_read_failed_spec (h : Ok c) (hi : c.istate = CHAN_INPUT_OPEN) (d : Channel) :
    Ok (chan_read_failed c) ∧ Moves ⟨c, d⟩ ⟨chan_read_failed c, d⟩ := by
  have hfree := h.not_free_of_istate (by rw [hi]; exact nofun)
  obtain ⟨istate, ostate, input, output, free, rd, wr, broken, taken, given, sent, reports⟩ := c
  cases hi
  exact ⟨Tidy.ok ⟨h.reports, rfl, h.shut_wr⟩ hfree (fun h => nomatch h.1),
    .inl ⟨.exhaust rfl, rfl⟩⟩

theorem read_socket_spec (h : Ok c) (hi : c.istate = CHAN_INPUT_OPEN) {buf : Bytes}
    (hbuf : buf ≠ []) (d : Channel) :
    Ok (read_socket c buf) ∧ Moves ⟨c, d⟩ ⟨read_socket c buf, d⟩ := by
  refine ⟨⟨⟨h.reports, h.shut_rd, h.shut_wr⟩, h.free⟩, ?_⟩
  obtain ⟨istate, ostate, input, output, free, rd, wr, broken, taken, given, sent, reports⟩ := c
  cases hi
  exact .inl ⟨.take rfl buf hbuf, rfl⟩

theorem forward_append (sent : List Packet) (p : Packet) :
    (sent ++ [p]).filterMap Packet.forward = sent.filterMap Packet.forward ++ p.forward.toList := by
  rw [List.filterMap_append]
  cases p <;> rfl

/-- What is sent in a direction stands behind what is under way there, and a refusal is one more. -/
theorem stream_packet_send (c d : Channel) (p : Packet) :
    Ends.stream ⟨packet_send c p, d⟩ =
        { Ends.stream ⟨c, d⟩ with
          forward := (Ends.stream ⟨c, d⟩).forward ++ p.forward.toList } ∧
      Ends.stream ⟨d, packet_send c p⟩ =
        { Ends.stream ⟨d, c⟩ with
          back := (Ends.stream ⟨d, c⟩).back +
            if p = SSH_MSG_CHANNEL_OUTPUT_CLOSE then 1 else 0 } := by
  constructor
  · simp only [Ends.stream, packet_send, forward_append]
  · simp only [Ends.stream, packet_send, List.count_append, List.count_singleton, beq_iff_eq]

/-- What comes in a direction stood first there. -/
theorem stream_sent {p : Packet} {rest : List Packet} (hd : d.sent = p :: rest) (c : Channel) :
    (Ends.stream ⟨d, c⟩).forward =
        p.forward.toList ++ (Ends.stream ⟨{ d with sent := rest }, c⟩).forward ∧
      (Ends.stream ⟨c, d⟩).back = (Ends.stream ⟨c, { d with sent := rest }⟩).back +
        if p = SSH_MSG_CHANNEL_OUTPUT_CLOSE then 1 else 0 := by
  constructor
  · simp only [Ends.stream, hd]
    cases p <;> rfl
  · simp only [Ends.stream, hd, List.count_cons, beq_iff_eq]

theorem chan_ibuf_empty_spec (h : Ok c) (hi : c.istate = CHAN_INPUT_WAIT_DRAIN)
    (hempty : c.input = []) (d : Channel) :
    Ok (chan_ibuf_empty c) ∧ Moves ⟨c, d⟩ ⟨chan_ibuf_empty c, d⟩ := by
  have hfree := h.not_free_of_istate (by rw [hi]; exact nofun)
  have hf : chan_ibuf_empty c =
      packet_send { c with istate := CHAN_INPUT_WAIT_OCLOSE } SSH_MSG_CHANNEL_INPUT_EOF := by
    rw [chan_ibuf_empty, if_neg (not_not.mpr hempty), hi]
    simp only [chan_send_ieof, hi]
    rfl
  obtain ⟨hhere, hthere⟩ := stream_packet_send { c with istate := CHAN_INPUT_WAIT_OCLOSE } d
    SSH_MSG_CHANNEL_INPUT_EOF
  rw [hf, Moves]
  refine ⟨Tidy.ok ⟨h.reports, ?_, h.shut_wr⟩ hfree (fun h => nomatch h.1), .inl ⟨?_, hthere⟩⟩
  · exact h.shut_rd.trans (by rw [hi]; rfl)
  · rw [hhere]
    obtain ⟨istate, ostate, input, output, free, rd, wr, broken, taken, given, sent, reports⟩ := c
    cases hi
    exact .finish rfl hempty

/-- A packet goes on with a piece of the buffer. -/
theorem send_spec (h : Ok c) (hi : c.istate = CHAN_INPUT_OPEN ∨ c.istate = CHAN_INPUT_WAIT_DRAIN)
    (len : Nat) (hlen : c.input.take len ≠ []) (d : Channel) :
    Ok (packet_send { c with input := c.input.drop len }
        (SSH_MSG_CHANNEL_DATA (c.input.take len))) ∧
      Moves ⟨c, d⟩ ⟨packet_send { c with input := c.input.drop len }
        (SSH_MSG_CHANNEL_DATA (c.input.take len)), d⟩ := by
  obtain ⟨hhere, hthere⟩ := stream_packet_send { c with input := c.input.drop len } d
    (SSH_MSG_CHANNEL_DATA (c.input.take len))
  rw [Moves]
  refine ⟨⟨⟨h.reports, h.shut_rd, h.shut_wr⟩, h.free⟩, .inl ⟨?_, hthere⟩⟩
  rw [hhere]
  obtain ⟨istate, ostate, input, output, free, rd, wr, broken, taken, given, sent, reports⟩ := c
  obtain hi | hi := hi
  all_goals
    cases hi
    exact .send rfl _ _ (List.take_append_drop len input).symm hlen

theorem channel_output_poll_spec (h : Ok c) (interactive : Bool) (hmax : 2 ≤ maxsize)
    (d : Channel) :
    channel_output_poll c interactive maxsize = c ∨
      Ok (channel_output_poll c interactive maxsize) ∧
        Moves ⟨c, d⟩ ⟨channel_output_poll c interactive maxsize, d⟩ := by
  rw [channel_output_poll]
  split
  case isTrue => exact .inl rfl
  case isFalse =>
    split
    case isTrue => exact .inl rfl
    case isFalse hstate =>
      have hi : c.istate = CHAN_INPUT_OPEN ∨ c.istate = CHAN_INPUT_WAIT_DRAIN := by
        rw [← not_ne_iff, ← not_ne_iff, ← not_and_or]
        exact hstate
      split
      case isTrue hpos =>
        refine .inr (send_spec h hi _ ?_ d)
        rw [← List.length_pos_iff, List.length_take]
        cases interactive with
        | true =>
          rw [if_pos rfl]
          split <;> omega
        | false =>
          rw [if_neg Bool.false_ne_true]
          omega
      case isFalse hpos =>
        split
        case isTrue hdrain =>
          exact .inr (chan_ibuf_empty_spec h hdrain
            (List.length_eq_zero_iff.mp (Nat.eq_zero_of_not_pos hpos)) d)
        case isFalse => exact .inl rfl

theorem chan_rcvd_oclose_spec (h : Ok c) (hi : c.istate ≠ CHAN_INPUT_CLOSED) {rest : List Packet}
    (hd : d.sent = SSH_MSG_CHANNEL_OUTPUT_CLOSE :: rest) :
    Ok (chan_rcvd_oclose c) ∧
      Moves ⟨c, d⟩ ⟨chan_rcvd_oclose c, { d with sent := rest }⟩ := by
  have hfree := h.not_free_of_istate hi
  obtain ⟨-, hback⟩ := stream_sent hd c
  have hflip : Ends.stream ⟨{ d with sent := rest }, c⟩ = Ends.stream ⟨d, c⟩ := by
    simp only [Ends.stream, hd]
    rfl
  obtain ⟨istate, ostate, input, output, free, rd, wr, broken, taken, given, sent, reports⟩ := c
  cases istate with
  | CHAN_INPUT_CLOSED => exact absurd rfl hi
  | CHAN_INPUT_WAIT_OCLOSE =>
    exact ⟨Tidy.delete ⟨h.reports, h.shut_rd, h.shut_wr⟩ hfree,
      Moves.delete (.inl ⟨.acknowledge rfl _ hback, hflip⟩)⟩
  | CHAN_INPUT_OPEN | CHAN_INPUT_WAIT_DRAIN =>
    obtain ⟨hhere, hthere⟩ := stream_packet_send
      ⟨CHAN_INPUT_CLOSED, ostate, input, output, free, rd, wr, broken, taken, given, sent, reports⟩
      { d with sent := rest } SSH_MSG_CHANNEL_INPUT_EOF
    refine ⟨Tidy.delete ⟨h.reports, ?_, h.shut_wr⟩ hfree,
      Moves.delete (.inl ⟨?_, hthere.trans hflip⟩)⟩
    · first
        | rfl
        | exact h.shut_rd
    · exact (congrArg (Step _) hhere).mpr (.abandon rfl _ hback)

/-! ## Events of the output -/

theorem chan_write_failed_spec (h : Ok c)
    (ho : c.ostate = CHAN_OUTPUT_OPEN ∨ c.ostate = CHAN_OUTPUT_WAIT_DRAIN) (d : Channel) :
    Ok (chan_write_failed { c with broken := true }) ∧
      Moves ⟨c, d⟩ ⟨chan_write_failed { c with broken := true }, d⟩ := by
  have hfree := h.not_free_of_ostate (by obtain ho | ho := ho <;> rw [ho] <;> exact nofun)
  obtain ⟨istate, ostate, input, output, free, rd, wr, broken, taken, given, sent, reports⟩ := c
  obtain ho | ho := ho
  · cases ho
    obtain ⟨hhere, hthere⟩ := stream_packet_send
      ⟨istate, CHAN_OUTPUT_WAIT_IEOF, input, [], free, rd, true, true, taken, given, sent, reports⟩
      d SSH_MSG_CHANNEL_OUTPUT_CLOSE
    refine ⟨Tidy.ok ⟨h.reports, h.shut_rd, rfl⟩ hfree (fun h => nomatch h.2), .inr ⟨?_, ?_⟩⟩
    · exact hhere.trans (congrArg (Stream.mk _ _ _ _ _ _ · _ _) (List.append_nil _))
    · exact hthere ▸ .refuse rfl
  · cases ho
    obtain ⟨hhere, hthere⟩ := stream_packet_send
      ⟨istate, CHAN_OUTPUT_CLOSED, input, [], free, rd, true, true, taken, given, sent, reports⟩ d
      SSH_MSG_CHANNEL_OUTPUT_CLOSE
    refine ⟨Tidy.delete ⟨h.reports, h.shut_rd, rfl⟩ hfree, Moves.delete (.inr ⟨?_, ?_⟩)⟩
    · exact hhere.trans (congrArg (Stream.mk _ _ _ _ _ _ · _ _) (List.append_nil _))
    · exact hthere ▸ .break_ rfl

theorem chan_obuf_empty_spec (h : Ok c) (ho : c.ostate = CHAN_OUTPUT_WAIT_DRAIN)
    (hempty : c.output = []) (d : Channel) :
    Ok (chan_obuf_empty c) ∧ Moves ⟨c, d⟩ ⟨chan_obuf_empty c, d⟩ ∧
      (chan_obuf_empty c).istate = c.istate := by
  have hfree := h.not_free_of_ostate (by rw [ho]; exact nofun)
  obtain ⟨istate, ostate, input, output, free, rd, wr, broken, taken, given, sent, reports⟩ := c
  cases ho
  cases hempty
  obtain ⟨hhere, hthere⟩ := stream_packet_send
    ⟨istate, CHAN_OUTPUT_CLOSED, input, [], free, rd, true, broken, taken, given, sent, reports⟩ d
    SSH_MSG_CHANNEL_OUTPUT_CLOSE
  refine ⟨Tidy.delete ⟨h.reports, h.shut_rd, rfl⟩ hfree, Moves.delete (.inr ⟨?_, ?_⟩),
    istate_delete _⟩
  · exact hhere.trans (congrArg (Stream.mk _ _ _ _ _ _ · _ _) (List.append_nil _))
  · exact hthere ▸ .complete rfl rfl

theorem write_socket_spec (h : Ok c)
    (ho : c.ostate = CHAN_OUTPUT_OPEN ∨ c.ostate = CHAN_OUTPUT_WAIT_DRAIN)
    (len : Nat) (hlen : c.output.take len ≠ []) (d : Channel) :
    Ok (write_socket c len) ∧ Moves ⟨c, d⟩ ⟨write_socket c len, d⟩ := by
  refine ⟨⟨⟨h.reports, h.shut_rd, h.shut_wr⟩, h.free⟩, ?_⟩
  obtain ⟨istate, ostate, input, output, free, rd, wr, broken, taken, given, sent, reports⟩ := c
  obtain ho | ho := ho
  all_goals
    cases ho
    exact .inr ⟨rfl, .give rfl _ _ (List.take_append_drop len output).symm hlen⟩

theorem channel_input_close_spec (h : Ok c)
    (ho : c.ostate = CHAN_OUTPUT_OPEN ∨ c.ostate = CHAN_OUTPUT_WAIT_IEOF) {rest : List Packet}
    (hd : d.sent = SSH_MSG_CHANNEL_INPUT_EOF :: rest) :
    Ok (channel_input_close c) ∧
      Moves ⟨c, d⟩ ⟨channel_input_close c, { d with sent := rest }⟩ := by
  have hfree := h.not_free_of_ostate (by obtain ho | ho := ho <;> rw [ho] <;> exact nofun)
  rw [channel_input_close, if_neg (Bool.eq_false_iff.mp hfree)]
  obtain ⟨hforward, hback⟩ := stream_sent hd c
  have hsame : Ends.stream ⟨c, { d with sent := rest }⟩ = Ends.stream ⟨c, d⟩ :=
    congrArg (Stream.mk _ _ _ _ _ _ _ · _) hback.symm
  obtain ⟨istate, ostate, input, output, free, rd, wr, broken, taken, given, sent, reports⟩ := c
  obtain ho | ho := ho
  · cases ho
    exact ⟨Tidy.ok ⟨h.reports, h.shut_rd, h.shut_wr⟩ hfree (fun h => nomatch h.2),
      .inr ⟨hsame, .drain rfl _ hforward⟩⟩
  · cases ho
    exact ⟨Tidy.delete ⟨h.reports, h.shut_rd, h.shut_wr⟩ hfree,
      Moves.delete (.inr ⟨hsame, .release rfl _ hforward⟩)⟩

theorem channel_input_data_spec (h : Ok c) (hfree : c.free = false) {data : Bytes}
    {rest : List Packet} (hd : d.sent = SSH_MSG_CHANNEL_DATA data :: rest) :
    Ok (channel_input_data c data) ∧
      Moves ⟨c, d⟩ ⟨channel_input_data c data, { d with sent := rest }⟩ := by
  rw [channel_input_data, if_neg (Bool.eq_false_iff.mp hfree)]
  obtain ⟨hforward, hback⟩ := stream_sent hd c
  have hsame : Ends.stream ⟨c, { d with sent := rest }⟩ = Ends.stream ⟨c, d⟩ :=
    congrArg (Stream.mk _ _ _ _ _ _ _ · _) hback.symm
  obtain ⟨istate, ostate, input, output, free, rd, wr, broken, taken, given, sent, reports⟩ := c
  cases ostate with
  | CHAN_OUTPUT_OPEN =>
    exact ⟨⟨⟨h.reports, h.shut_rd, h.shut_wr⟩, h.free⟩, .inr ⟨hsame, .receive rfl data _ hforward⟩⟩
  | CHAN_OUTPUT_WAIT_DRAIN | CHAN_OUTPUT_WAIT_IEOF | CHAN_OUTPUT_CLOSED =>
    exact ⟨h, .inr ⟨hsame, .drop (by rintro ⟨⟩) data _ hforward⟩⟩

/-! ## Runs -/

/-- Something has been done in the two directions, or nothing at all. -/
def Advances (s s' : Ends) : Prop := s' = s ∨ Relation.TransGen Moves s s'

theorem Advances.trans {s'' : Ends} (h : Advances s s') (h' : Advances s' s'') :
    Advances s s'' := by
  obtain rfl | h := h
  · exact h'
  · obtain rfl | h' := h'
    · exact .inr h
    · exact .inr (h.trans h')

theorem Moves.advances (h : Moves s s') : Advances s s' := .inr (.single h)

theorem channel_after_select_spec (h : Ok c) {rd : Option Bytes} {wr : Option Nat}
    (hrd : ∀ buf ∈ rd, c.istate = CHAN_INPUT_OPEN)
    (hwr : ∀ len ∈ wr, c.output ≠ [] →
      c.ostate = CHAN_OUTPUT_OPEN ∨ c.ostate = CHAN_OUTPUT_WAIT_DRAIN) (d : Channel) :
    Ok (channel_after_select c rd wr) ∧ Advances ⟨c, d⟩ ⟨channel_after_select c rd wr, d⟩ := by
  rw [channel_after_select]
  split
  case isTrue => exact ⟨h, .inl rfl⟩
  case isFalse =>
    split
    case isTrue hfail =>
      obtain ⟨hok, hmoves⟩ := chan_read_failed_spec h (hrd [] hfail) d
      exact ⟨hok, hmoves.advances⟩
    case isFalse hfail =>
      -- what was read is taken before anything is written
      obtain ⟨hok, htake⟩ : Ok (read_socket c (rd.getD [])) ∧
          Advances ⟨c, d⟩ ⟨read_socket c (rd.getD []), d⟩ := by
        cases rd with
        | none =>
          simp only [read_socket, Option.getD_none, List.append_nil]
          exact ⟨h, .inl rfl⟩
        | some buf =>
          have hbuf : buf ≠ [] := fun hnil => hfail (hnil ▸ rfl)
          obtain ⟨hok, hmoves⟩ := read_socket_spec h (hrd buf rfl) hbuf d
          exact ⟨hok, hmoves.advances⟩
      cases wr with
      | none => exact ⟨hok, htake⟩
      | some len =>
        simp only
        split
        case isTrue => exact ⟨hok, htake⟩
        case isFalse houtput =>
          split
          case isTrue =>
            obtain ⟨hok', hmoves⟩ := chan_write_failed_spec hok (hwr len rfl houtput) d
            exact ⟨hok', htake.trans hmoves.advances⟩
          case isFalse hlen =>
            have hgiven : c.output.take len ≠ [] := by
              rw [ne_eq, List.take_eq_nil_iff, not_or]
              exact ⟨hlen, houtput⟩
            obtain ⟨hok', hmoves⟩ := write_socket_spec hok (hwr len rfl houtput) len hgiven d
            exact ⟨hok', htake.trans hmoves.advances⟩

/-- The socket is waited for only in states in which it is used. -/
theorem channel_prepare_select_spec (h : Ok c) (maxsize : Nat) (d : Channel) :
    Ok (channel_prepare_select c maxsize).1 ∧
      Advances ⟨c, d⟩ ⟨(channel_prepare_select c maxsize).1, d⟩ ∧
      ((channel_prepare_select c maxsize).2.1 = true →
        (channel_prepare_select c maxsize).1.istate = CHAN_INPUT_OPEN) ∧
      ((channel_prepare_select c maxsize).2.2 = true →
        (channel_prepare_select c maxsize).1.ostate = CHAN_OUTPUT_OPEN ∨
          (channel_prepare_select c maxsize).1.ostate = CHAN_OUTPUT_WAIT_DRAIN) := by
  have hread : decide (c.istate = CHAN_INPUT_OPEN ∧ c.input.length < maxsize) = true →
      c.istate = CHAN_INPUT_OPEN := fun h => (of_decide_eq_true h).1
  rw [channel_prepare_select]
  split
  case isTrue => exact ⟨h, .inl rfl, nofun, nofun⟩
  case isFalse =>
    simp only
    split
    case isFalse => exact ⟨h, .inl rfl, hread, nofun⟩
    case isTrue ho =>
      split
      case isTrue => exact ⟨h, .inl rfl, hread, fun _ => ho⟩
      case isFalse hempty =>
        split
        case isFalse => exact ⟨h, .inl rfl, hread, nofun⟩
        case isTrue hdrain =>
          have hnil := List.length_eq_zero_iff.mp (Nat.eq_zero_of_not_pos hempty)
          obtain ⟨hok, hmoves, hi⟩ := chan_obuf_empty_spec h hdrain hnil d
          exact ⟨hok, hmoves.advances, fun hr => hi.trans (hread hr), nofun⟩

theorem select_spec (h : Ok c) (maxsize : Nat) (rd : Option Bytes) (wr : Option Nat) (d : Channel) :
    Ok (select c maxsize rd wr) ∧ Advances ⟨c, d⟩ ⟨select c maxsize rd wr, d⟩ := by
  obtain ⟨hok, hprepare, hread, hwrite⟩ := channel_prepare_select_spec h maxsize d
  rw [select]
  generalize channel_prepare_select c maxsize = prepared at *
  obtain ⟨c', readset, writeset⟩ := prepared
  obtain ⟨hok', hafter⟩ := @channel_after_select_spec c' hok (if readset then rd else none)
    (if writeset then wr else none)
    (fun buf hbuf => hread (by
      cases readset
      · cases hbuf
      · rfl))
    (fun len hlen _ => hwrite (by
      cases writeset
      · cases hlen
      · rfl)) d
  exact ⟨hok', hprepare.trans hafter⟩

/-- The directions are in order, and so are the channels. -/
structure Inv (s : Ends) : Prop where
  away : HalfClose.Inv s.stream
  back : HalfClose.Inv s.flip.stream
  here : Ok s.here
  there : Ok s.there

theorem Inv.flip (h : Inv s) : Inv s.flip := ⟨h.back, h.away, h.there, h.here⟩

theorem Inv.start : Inv .start := by
  have hok : Ok .start := ⟨⟨rfl, rfl, rfl⟩, iff_of_false nofun nofun⟩
  exact ⟨HalfClose.Inv.start, HalfClose.Inv.start, hok, hok⟩

theorem Moves.inv (h : Moves s s')
    (hinv : HalfClose.Inv s.stream ∧ HalfClose.Inv s.flip.stream) :
    HalfClose.Inv s'.stream ∧ HalfClose.Inv s'.flip.stream := by
  obtain ⟨hstep, hsame⟩ | ⟨hsame, hstep⟩ := h
  · exact ⟨hinv.1.step hstep, hsame ▸ hinv.2⟩
  · exact ⟨hsame ▸ hinv.1, hinv.2.step hstep⟩

theorem Inv.advances (h : Inv s) (hadv : Advances s s') (hhere : Ok s'.here)
    (hthere : Ok s'.there) : Inv s' := by
  have hstreams : HalfClose.Inv s'.stream ∧ HalfClose.Inv s'.flip.stream := by
    clear hhere hthere
    obtain rfl | hadv := hadv
    · exact ⟨h.away, h.back⟩
    · induction hadv with
      | single hmoves => exact hmoves.inv ⟨h.away, h.back⟩
      | tail _ hmoves ih => exact hmoves.inv ih
  exact ⟨hstreams.1, hstreams.2, hhere, hthere⟩

/-- A packet that comes is one that is waited for. -/
theorem Inv.channel_input (h : Inv s) {p : Packet} {rest : List Packet}
    (hsent : s.there.sent = p :: rest) :
    Ok (channel_input s.here p) ∧
      Moves s ⟨channel_input s.here p, { s.there with sent := rest }⟩ := by
  obtain ⟨hforward, hback⟩ := stream_sent hsent s.here
  have hopen : p.forward ≠ none → s.here.ostate.sink.sawEnd = false := fun hp =>
    Bool.eq_false_iff.mpr fun hsaw => by
      have hnil := hforward.symm.trans (h.back.forward_eq_nil hsaw)
      cases hpf : p.forward with
      | none => exact hp hpf
      | some x =>
        rw [hpf] at hnil
        cases hnil
  cases p with
  | SSH_MSG_CHANNEL_DATA data =>
    refine channel_input_data_spec h.here ?_ hsent
    refine h.here.not_free_of_ostate fun hclosed => ?_
    have hsaw := hopen nofun
    rw [hclosed] at hsaw
    cases hsaw
  | SSH_MSG_CHANNEL_INPUT_EOF =>
    refine channel_input_close_spec h.here ?_ hsent
    have hsaw := hopen nofun
    cases hostate : s.here.ostate with
    | CHAN_OUTPUT_OPEN => exact .inl rfl
    | CHAN_OUTPUT_WAIT_IEOF => exact .inr rfl
    | CHAN_OUTPUT_WAIT_DRAIN | CHAN_OUTPUT_CLOSED =>
      rw [hostate] at hsaw
      cases hsaw
  | SSH_MSG_CHANNEL_OUTPUT_CLOSE =>
    refine chan_rcvd_oclose_spec h.here (fun hclosed => ?_) hsent
    have hsource : s.stream.source = .closed := congrArg InputState.source hclosed
    cases (h.away.back_eq_zero hsource).symm.trans hback

/-- An event is a few steps of the two directions, or it is none. -/
theorem Inv.exec (h : Inv s) (hmax : 2 ≤ maxsize) (e : Event) :
    Inv (s.exec maxsize e) ∧ Advances s (s.exec maxsize e) := by
  cases e with
  | select rd wr =>
    obtain ⟨hok, hadv⟩ := select_spec h.here maxsize rd wr s.there
    exact ⟨h.advances hadv hok h.there, hadv⟩
  | output_poll interactive =>
    obtain hsame | ⟨hok, hmoves⟩ := channel_output_poll_spec h.here interactive hmax s.there
    · have hs : s.exec maxsize (.output_poll interactive) = s := by
        rw [Ends.exec, hsame]
      rw [hs]
      exact ⟨h, .inl rfl⟩
    · exact ⟨h.advances hmoves.advances hok h.there, hmoves.advances⟩
  | input =>
    rw [Ends.exec]
    split
    · exact ⟨h, .inl rfl⟩
    · rename_i p rest hsent
      obtain ⟨hok, hmoves⟩ := h.channel_input hsent
      refine ⟨h.advances hmoves.advances hok ?_, hmoves.advances⟩
      exact ⟨⟨h.there.reports, h.there.shut_rd, h.there.shut_wr⟩, h.there.free⟩

theorem Moves.flip (h : Moves s s') : Moves s.flip s'.flip :=
  h.symm.imp And.symm And.symm

theorem Advances.flip (h : Advances s s') : Advances s.flip s'.flip := by
  obtain rfl | h := h
  · exact .inl rfl
  · exact .inr (h.lift Ends.flip fun _ _ => Moves.flip)

theorem Inv.step (h : Inv s) (hmax : 2 ≤ maxsize) (e : Bool × Event) :
    Inv (s.step maxsize e) ∧ Advances s (s.step maxsize e) := by
  obtain ⟨side, e⟩ := e
  cases side with
  | false => exact h.exec hmax e
  | true =>
    obtain ⟨hinv, hadv⟩ := h.flip.exec hmax e
    exact ⟨hinv.flip, hadv.flip⟩

theorem Inv.run (h : Inv s) (hmax : 2 ≤ maxsize) (es : List (Bool × Event)) :
    Inv (s.run maxsize es) := by
  induction es generalizing s with
  | nil => exact h
  | cons e es ih => exact ih (h.step hmax e).1

/-! ## Nothing out of order -/

theorem sent_eq_nil {sent : List Packet} (hforward : sent.filterMap Packet.forward = [])
    (hback : sent.count SSH_MSG_CHANNEL_OUTPUT_CLOSE = 0) : sent = [] := by
  cases sent with
  | nil => rfl
  | cons p sent =>
    cases p with
    | SSH_MSG_CHANNEL_DATA | SSH_MSG_CHANNEL_INPUT_EOF => cases hforward
    | SSH_MSG_CHANNEL_OUTPUT_CLOSE =>
      rw [List.count_cons_self] at hback
      cases hback

theorem Inv.sent_of_free (h : Inv s) (hfree : s.here.free = true) : s.there.sent = [] := by
  obtain ⟨hi, ho⟩ := h.here.free.mp hfree
  have hforward : s.flip.stream.forward = [] := by
    refine h.back.forward_eq_nil ?_
    change s.here.ostate.sink.sawEnd = true
    rw [ho]
    rfl
  exact sent_eq_nil hforward (h.away.back_eq_zero (congrArg InputState.source hi))

theorem select_free (h : c.free = true) (maxsize : Nat) (rd : Option Bytes) (wr : Option Nat) :
    select c maxsize rd wr = c := by
  simp only [select, channel_prepare_select, channel_after_select, h, if_true]

/-- A channel that is free stays so. -/
theorem Inv.free_step (h : Inv s) (hfree : s.here.free = true) (e : Bool × Event) :
    (s.step maxsize e).here.free = true := by
  obtain ⟨side, e⟩ := e
  cases side with
  | false =>
    cases e with
    | select rd wr =>
      change (select s.here maxsize rd wr).free = true
      rw [select_free hfree, hfree]
    | output_poll interactive =>
      change (channel_output_poll s.here interactive maxsize).free = true
      rw [channel_output_poll, if_pos hfree, hfree]
    | input =>
      rw [Ends.step, Ends.exec, h.sent_of_free hfree]
      exact hfree
  | true =>
    cases e with
    | select | output_poll => exact hfree
    | input =>
      change (s.flip.exec maxsize .input).flip.here.free = true
      rw [Ends.exec]
      split <;> exact hfree

theorem Inv.free_run (h : Inv s) (hmax : 2 ≤ maxsize) (hfree : s.here.free = true)
    (es : List (Bool × Event)) : (s.run maxsize es).there.sent = [] := by
  induction es generalizing s with
  | nil => exact h.sent_of_free hfree
  | cons e es ih => exact ih (h.step hmax e).1 (h.free_step hfree e)

/-- The run as it is seen from the other end. -/
theorem run_flip (s : Ends) (es : List (Bool × Event)) :
    s.flip.run maxsize (es.map fun e => (!e.1, e.2)) = (s.run maxsize es).flip := by
  induction es generalizing s with
  | nil => rfl
  | cons e es ih =>
    obtain ⟨side, e⟩ := e
    cases side with
    | false => exact ih (s.step maxsize (false, e))
    | true => exact ih (s.step maxsize (true, e))

/-- Neither end ever finds anything wrong, and when an end has freed the channel no packet for it is
or comes under way any more, whatever happens. -/
theorem run_in_order (hmax : 2 ≤ maxsize) (es es' : List (Bool × Event)) :
    (Ends.start.run maxsize es).here.reports = [] ∧
      (Ends.start.run maxsize es).there.reports = [] ∧
      ((Ends.start.run maxsize es).here.free = true →
        ((Ends.start.run maxsize es).run maxsize es').there.sent = []) ∧
      ((Ends.start.run maxsize es).there.free = true →
        ((Ends.start.run maxsize es).run maxsize es').here.sent = []) := by
  have hinv := Inv.start.run hmax es
  refine ⟨hinv.here.reports, hinv.there.reports, fun hfree => hinv.free_run hmax hfree es',
    fun hfree => ?_⟩
  have hflip := hinv.flip.free_run hmax hfree (es'.map fun e => (!e.1, e.2))
  rw [run_flip] at hflip
  exact hflip

theorem run_in_order_closing :
    let s := Ends.start.run 32768 [(false, .select (some []) none), (false, .output_poll false)]
    s.here.reports = [] ∧ s.there.reports = [] ∧
      (s.here.free = true → (s.run 32768 [(true, .input)]).there.sent = []) ∧
      (s.there.free = true → (s.run 32768 [(true, .input)]).here.sent = []) :=
  run_in_order (by decide) _ _

/-- A socket is given a beginning of what the one at the other end has given, and all of it if the
channel is closed without a write that failed. -/
theorem run_delivers (hmax : 2 ≤ maxsize) (es : List (Bool × Event)) :
    (Ends.start.run maxsize es).there.given <+: (Ends.start.run maxsize es).here.taken ∧
      (Ends.start.run maxsize es).here.given <+: (Ends.start.run maxsize es).there.taken ∧
      ((Ends.start.run maxsize es).there.ostate = CHAN_OUTPUT_CLOSED →
        (Ends.start.run maxsize es).there.broken = false →
        (Ends.start.run maxsize es).there.given = (Ends.start.run maxsize es).here.taken) ∧
      ((Ends.start.run maxsize es).here.ostate = CHAN_OUTPUT_CLOSED →
        (Ends.start.run maxsize es).here.broken = false →
        (Ends.start.run maxsize es).here.given = (Ends.start.run maxsize es).there.taken) := by
  have hinv := Inv.start.run hmax es
  exact ⟨hinv.away.pre, hinv.back.pre, fun ho => hinv.away.whole (congrArg OutputState.sink ho),
    fun ho => hinv.back.whole (congrArg OutputState.sink ho)⟩

theorem run_delivers_closing :
    let s := Ends.start.run 32768 [(false, .select (some [7]) none), (true, .select none (some 0))]
    s.there.given <+: s.here.taken ∧ s.here.given <+: s.there.taken ∧
      (s.there.ostate = CHAN_OUTPUT_CLOSED → s.there.broken = false →
        s.there.given = s.here.taken) ∧
      (s.here.ostate = CHAN_OUTPUT_CLOSED → s.here.broken = false →
        s.here.given = s.there.taken) :=
  run_delivers (by decide) _

/-! ## The end -/

def Ends.weight (s : Ends) : Nat := s.stream.weight + s.flip.stream.weight

/-- The sockets have no more data. -/
def Ends.Exhausted (s : Ends) : Prop :=
  s.here.istate ≠ CHAN_INPUT_OPEN ∧ s.there.istate ≠ CHAN_INPUT_OPEN

theorem source_ne_flowing_iff {istate : InputState} :
    istate.source ≠ .flowing ↔ istate ≠ CHAN_INPUT_OPEN :=
  not_congr ⟨source_injective istate CHAN_INPUT_OPEN, congrArg InputState.source⟩

theorem Moves.weight_lt (h : Moves s s') (hs : s.Exhausted) :
    s'.weight < s.weight ∧ s'.Exhausted := by
  have haway : s.stream.source ≠ .flowing := source_ne_flowing_iff.mpr hs.1
  have hback : s.flip.stream.source ≠ .flowing := source_ne_flowing_iff.mpr hs.2
  obtain ⟨hstep, hsame⟩ | ⟨hsame, hstep⟩ := h
  · have hstill : s'.flip.stream.source ≠ .flowing := hsame.symm ▸ hback
    refine ⟨?_, source_ne_flowing_iff.mp (hstep.source_ne_flowing haway),
      source_ne_flowing_iff.mp hstill⟩
    rw [Ends.weight, hsame]
    exact Nat.add_lt_add_right (hstep.weight_lt haway) _
  · have hstill : s'.stream.source ≠ .flowing := hsame.symm ▸ haway
    refine ⟨?_, source_ne_flowing_iff.mp hstill,
      source_ne_flowing_iff.mp (hstep.source_ne_flowing hback)⟩
    rw [Ends.weight, hsame]
    exact Nat.add_lt_add_left (hstep.weight_lt hback) _

theorem Advances.weight_lt (h : Advances s s') (hs : s.Exhausted) :
    (s' = s ∨ s'.weight < s.weight) ∧ s'.Exhausted := by
  obtain rfl | h := h
  · exact ⟨.inl rfl, hs⟩
  · induction h with
    | single hmoves =>
      obtain ⟨hlt, hs'⟩ := hmoves.weight_lt hs
      exact ⟨.inr hlt, hs'⟩
    | tail _ hmoves ih =>
      obtain ⟨hlt, hs'⟩ := hmoves.weight_lt ih.2
      refine ⟨.inr ?_, hs'⟩
      obtain rfl | hlt' := ih.1
      · exact hlt
      · exact Nat.lt_trans hlt hlt'

/-- An end of a channel that can be written to can do something with what it has, and without. -/
theorem exists_moves_of_draining (h : Ok c) (ho : c.ostate = CHAN_OUTPUT_WAIT_DRAIN)
    (maxsize : Nat) (d : Channel) :
    ∃ wr, Moves ⟨c, d⟩ ⟨select c maxsize none wr, d⟩ := by
  have hfree := h.not_free_of_ostate (by rw [ho]; exact nofun)
  have hread : ∀ c : Channel, read_socket c [] = c := fun c => by
    simp only [read_socket, List.append_nil]
  by_cases hempty : c.output = []
  · obtain ⟨hok, hmoves, -⟩ := chan_obuf_empty_spec h ho hempty d
    refine ⟨none, ?_⟩
    have hselect : select c maxsize none none = chan_obuf_empty c := by
      simp only [select, channel_prepare_select, hfree, Bool.false_eq_true, if_false, ho, or_true,
        if_true, hempty, List.length_nil, Nat.lt_irrefl]
      simp only [channel_after_select, hread, reduceCtorEq, if_false, ite_self, Option.getD_none]
    rw [hselect]
    exact hmoves
  · have hlen : c.output.take 1 ≠ [] := by
      rw [ne_eq, List.take_eq_nil_iff, not_or]
      exact ⟨Nat.one_ne_zero, hempty⟩
    obtain ⟨-, hmoves⟩ := write_socket_spec h (.inr ho) 1 hlen d
    refine ⟨some 1, ?_⟩
    have hselect : select c maxsize none (some 1) = write_socket c 1 := by
      simp only [select, channel_prepare_select, hfree, Bool.false_eq_true, if_false, ho, or_true,
        if_true, List.length_pos_iff.mpr hempty]
      simp only [channel_after_select, hread, reduceCtorEq, if_false, ite_self, Option.getD_none,
        hfree, Bool.false_eq_true, hempty, Nat.one_ne_zero]
    rw [hselect]
    exact hmoves

/-- An end that is to send the end of its data can do so, or send some of it. -/
theorem moves_output_poll_of_draining (h : Ok c) (hi : c.istate = CHAN_INPUT_WAIT_DRAIN)
    (hmax : 2 ≤ maxsize) (d : Channel) :
    Moves ⟨c, d⟩ ⟨channel_output_poll c false maxsize, d⟩ := by
  have hfree := h.not_free_of_istate (by rw [hi]; exact nofun)
  by_cases hempty : c.input = []
  · have hpoll : channel_output_poll c false maxsize = chan_ibuf_empty c := by
      simp only [channel_output_poll, hfree, Bool.false_eq_true, if_false, hi, ne_eq, not_true,
        and_false, hempty, List.length_nil, Nat.lt_irrefl, if_true]
    rw [hpoll]
    exact (chan_ibuf_empty_spec h hi hempty d).2
  · have hpos := List.length_pos_iff.mpr hempty
    have hlen : c.input.take (min c.input.length (maxsize / 2)) ≠ [] := by
      rw [ne_eq, List.take_eq_nil_iff, not_or]
      exact ⟨by omega, hempty⟩
    have hpoll : channel_output_poll c false maxsize =
        packet_send { c with input := c.input.drop (min c.input.length (maxsize / 2)) }
          (SSH_MSG_CHANNEL_DATA (c.input.take (min c.input.length (maxsize / 2)))) := by
      simp only [channel_output_poll, hfree, Bool.false_eq_true, if_false, hi, ne_eq, not_true,
        and_false, hpos, if_true]
    rw [hpoll]
    exact (send_spec h (.inr hi) _ hlen d).2

/-- What changes nothing here, whatever happens, waits for nothing but its packets. -/
theorem Inv.idle (h : Inv s) (hmax : 2 ≤ maxsize) (hs : s.Exhausted)
    (hidle : ∀ e, s.exec maxsize e = s) :
    s.there.sent = [] ∧ s.here.istate ≠ CHAN_INPUT_WAIT_DRAIN ∧
      s.here.ostate ≠ CHAN_OUTPUT_WAIT_DRAIN := by
  have hstill : ¬Moves s s := fun hmoves => Nat.lt_irrefl _ (hmoves.weight_lt hs).1
  refine ⟨?_, fun hi => ?_, fun ho => ?_⟩
  · cases hsent : s.there.sent with
    | nil => rfl
    | cons p rest =>
      have hmoves := (h.channel_input hsent).2
      have hinput := hidle .input
      rw [Ends.exec, hsent] at hinput
      simp only at hinput
      rw [hinput] at hmoves
      exact absurd hmoves hstill
  · have hmoves := moves_output_poll_of_draining h.here hi hmax s.there
    rw [show (⟨channel_output_poll s.here false maxsize, s.there⟩ : Ends) = s from
      hidle (.output_poll false)] at hmoves
    exact hstill hmoves
  · obtain ⟨wr, hmoves⟩ := exists_moves_of_draining h.here ho maxsize s.there
    rw [show (⟨select s.here maxsize none wr, s.there⟩ : Ends) = s from
      hidle (.select none wr)] at hmoves
    exact hstill hmoves

/-- Ends that wait for nothing but each other do not wait at all. -/
theorem Inv.closed_of_quiet (h : Inv s) (hs : s.Exhausted) (hcome : s.there.sent = [])
    (hsent : s.here.sent = []) (hi : s.here.istate ≠ CHAN_INPUT_WAIT_DRAIN)
    (ho : s.there.ostate ≠ CHAN_OUTPUT_WAIT_DRAIN) :
    s.here.istate = CHAN_INPUT_CLOSED ∧ s.there.ostate = CHAN_OUTPUT_CLOSED := by
  have hsource : s.stream.source ≠ .draining := fun heq => hi (source_injective _ _ heq)
  have hsink : s.stream.sink ≠ .draining := fun heq => ho (sink_injective _ _ heq)
  obtain ⟨hi, ho⟩ := h.away.closed_of_quiet (by rw [Ends.stream, hsent]; rfl)
    (by rw [Ends.stream, hcome]; rfl) (source_ne_flowing_iff.mpr hs.1) hsource hsink
  exact ⟨source_injective _ CHAN_INPUT_CLOSED hi, sink_injective _ CHAN_OUTPUT_CLOSED ho⟩

/-- Each event changes something. -/
def Ends.Effective (maxsize : Nat) : Ends → List (Bool × Event) → Prop
  | _, [] => True
  | s, e :: es => s.step maxsize e ≠ s ∧ Effective maxsize (s.step maxsize e) es

/-- When the sockets at both ends have no more data, the channel is taken down: only so much can
happen any more, and when nothing can it is free at both ends. -/
theorem run_takes_down (hmax : 2 ≤ maxsize) (es es' : List (Bool × Event))
    (hs : (Ends.start.run maxsize es).Exhausted)
    (heffective : (Ends.start.run maxsize es).Effective maxsize es') :
    es'.length ≤ (Ends.start.run maxsize es).weight ∧
      ((∀ e, ((Ends.start.run maxsize es).run maxsize es').step maxsize e =
          (Ends.start.run maxsize es).run maxsize es') →
        ((Ends.start.run maxsize es).run maxsize es').here.free = true ∧
          ((Ends.start.run maxsize es).run maxsize es').there.free = true) := by
  have hinv := Inv.start.run hmax es
  generalize Ends.start.run maxsize es = s at *
  induction es' generalizing s with
  | nil =>
    refine ⟨Nat.zero_le _, fun hstuck => ?_⟩
    obtain ⟨hcome, hi, ho⟩ := hinv.idle hmax hs fun e => hstuck (false, e)
    obtain ⟨hsent, hi', ho'⟩ := hinv.flip.idle hmax hs.symm fun e =>
      congrArg Ends.flip (hstuck (true, e))
    obtain ⟨hclosed, hclosed'⟩ := hinv.closed_of_quiet hs hcome hsent hi ho'
    obtain ⟨hback, hback'⟩ := hinv.flip.closed_of_quiet hs.symm hsent hcome hi' ho
    exact ⟨hinv.here.free.mpr ⟨hclosed, hback'⟩, hinv.there.free.mpr ⟨hback, hclosed'⟩⟩
  | cons e es' ih =>
    obtain ⟨hne, heffective⟩ := heffective
    obtain ⟨hinv', hadv⟩ := hinv.step hmax e
    obtain ⟨hlt, hs'⟩ := hadv.weight_lt hs
    obtain ⟨hlen, hfree⟩ := ih _ hs' heffective hinv'
    have hlt' := hlt.resolve_left hne
    exact ⟨Nat.lt_of_le_of_lt hlen hlt', hfree⟩

theorem run_takes_down_both :
    let s := Ends.start.run 32768 [(false, .select (some []) none), (true, .select (some []) none)]
    let es : List (Bool × Event) := [(false, .output_poll false), (true, .output_poll false)]
    es.length ≤ s.weight ∧
      ((∀ e, (s.run 32768 es).step 32768 e = s.run 32768 es) →
        (s.run 32768 es).here.free = true ∧ (s.run 32768 es).there.free = true) :=
  run_takes_down (by decide) _ _ ⟨by decide, by decide⟩ ⟨by decide, by decide, trivial⟩

end ArgoBbs.Nchan

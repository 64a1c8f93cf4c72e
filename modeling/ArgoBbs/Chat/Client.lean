import ArgoBbs.Lib.CString
import ArgoBbs.Lib.Reach
import ArgoBbs.Lib.Terminated

/-! # The chat client

The server sends every text with its zero byte. `chat_recv` receives into a static buffer, handles
the messages that are complete there and keeps the rest for its next call (`chat.c`). -/

namespace ArgoBbs

/-- What the messages of the server set: the chat id, the name of the room, its topic, and the lines
printed since the screen was cleared. -/
structure ChatScreen where
  chatid : Bytes
  chatname : Bytes
  buftopic : Bytes
  lines : List Bytes

/-- What `chat_recv` does with a message. -/
def handle (screen : ChatScreen) : Bytes → ChatScreen
  | 47 :: 99 :: _ => { screen with lines := [] }
  | 47 :: 110 :: chatid => { screen with chatid := chatid.take 8 }
  | 47 :: 114 :: name => { screen with chatname := name.take (12 - 1) }
  | 47 :: 116 :: topic => { screen with buftopic := topic.take 42 }
  | 47 :: _ => screen
  | line => { screen with lines := screen.lines ++ [line] }

/-- The static variables of `chat_recv`, the screen, and the messages handled so far. -/
structure ChatClient where
  buf : Bytes
  bufstart : Nat
  screen : ChatScreen
  handled : List Bytes

def ChatClient.start (screen : ChatScreen) : ChatClient where
  buf := List.replicate 512 0
  bufstart := 0
  screen := screen
  handled := []

/-- The loop over the messages in the buffer: what it handles, how many bytes are left (where the
count of `chat_recv` falls below zero, none are), and where they start. It fails where `strlen`
leaves the buffer; as many rounds as there are bytes are enough. -/
def recvLoop (buf : Bytes) : (fuel c bptr : Nat) → Option (List Bytes × Nat × Nat)
  | _, 0, bptr => some ([], 0, bptr)
  | 0, _, _ => none
  | fuel + 1, c, bptr => do
    let text ← cstr (buf.drop bptr)
    let len := text.length + 1
    if len > c ∧ len < 512 / 2 then
      some ([], c, bptr)
    else
      let (texts, c, bptr) ← recvLoop buf fuel (c - len) (bptr + len)
      some (text :: texts, c, bptr)

/-- `chat_recv` once `recv` has returned the bytes. -/
def chatRecv (client : ChatClient) (data : Bytes) : Option ChatClient := do
  let buf ← store client.buf client.bufstart data
  let c := client.bufstart + data.length
  let (texts, c, bptr) ← recvLoop buf c c 0
  let screen := texts.foldl handle client.screen
  let handled := client.handled ++ texts
  if 0 < c then
    let text ← cstr (buf.drop bptr)
    let buf ← store buf 0 (text.take 511 ++ [0])
    some { buf, bufstart := text.length, screen, handled }
  else
    some { buf, bufstart := 0, screen, handled }

namespace ChatClient

/-- What `recv` returns: some bytes, at most as many as `chat_recv` has asked for. -/
def RecvReturns (client : ChatClient) (data : Bytes) : Prop :=
  data ≠ [] ∧ data.length ≤ 512 - client.bufstart - 1

/-- The unfinished message that is kept in the buffer. -/
def stored (client : ChatClient) : Bytes := client.buf.take client.bufstart

/-- What `strlen` finds behind the received bytes. -/
def stale (client : ChatClient) (data : Bytes) : Bytes :=
  (client.buf.drop (client.bufstart + data.length)).takeWhile (· ≠ 0)

/-- The received bytes end with a message; or the piece of a message at their end is shorter than
255 bytes, and the byte of the buffer behind it is zero. -/
def CutsCleanly (client : ChatClient) (data : Bytes) : Prop :=
  let rest := unfinished 0 (client.stored ++ data)
  rest = [] ∨ rest.length < 255 ∧ client.buf.getD (client.bufstart + data.length) 0 = 0

instance (client : ChatClient) (data : Bytes) : Decidable (client.RecvReturns data) :=
  inferInstanceAs (Decidable (_ ∧ _))

instance (client : ChatClient) (data : Bytes) : Decidable (client.CutsCleanly data) :=
  inferInstanceAs (Decidable (_ ∨ _))

/-- The buffer ends with a zero byte, and so does what is kept of a message. -/
structure Ok (client : ChatClient) : Prop where
  length : client.buf.length = 512
  last : client.buf.drop 511 = [0]
  bufstart : client.bufstart < 255
  stored : 0 ∉ client.stored

theorem ok_start (screen : ChatScreen) : (ChatClient.start screen).Ok :=
  ⟨List.length_replicate, List.drop_replicate, Nat.zero_lt_succ _, List.not_mem_nil⟩

end ChatClient

/-! ## One call -/

/-- What a piece of a message and the bytes behind it become: a message that is handled too early,
and what is kept. -/
def keep (rest stale : Bytes) : List Bytes × Bytes :=
  if rest = [] then ([], [])
  else if (rest ++ stale).length < 255 then ([], rest ++ stale)
  else ([rest ++ stale], [])

theorem keep_short {rest stale : Bytes} (h : rest ≠ []) (hlen : (rest ++ stale).length < 255) :
    keep rest stale = ([], rest ++ stale) := by rw [keep, if_neg h, if_pos hlen]

theorem keep_long {rest stale : Bytes} (h : rest ≠ []) (hlen : ¬(rest ++ stale).length < 255) :
    keep rest stale = ([rest ++ stale], []) := by rw [keep, if_neg h, if_neg hlen]

/-- The loop handles the complete messages; of the piece behind them it finds everything up to the
next zero byte. -/
theorem recvLoop_packed {buf : Bytes} {msgs : List Bytes} {rest stale more : Bytes}
    (hmsgs : ∀ msg ∈ msgs, 0 ∉ msg) (htext : 0 ∉ rest ++ stale) {fuel c bptr : Nat}
    (hbuf : buf.drop bptr = packed 0 msgs ++ (rest ++ stale ++ 0 :: more))
    (hc : c = (packed 0 msgs).length + rest.length) (hfuel : c ≤ fuel) :
    ∃ c' bptr', recvLoop buf fuel c bptr = some (msgs ++ (keep rest stale).1, c', bptr') ∧
      (0 < c' ↔ (keep rest stale).2 ≠ []) ∧
      (0 < c' → buf.drop bptr' = rest ++ stale ++ 0 :: more) := by
  induction msgs generalizing fuel c bptr with
  | nil =>
    simp only [packed_nil, List.nil_append, List.length_nil, Nat.zero_add] at hbuf hc
    cases rest with
    | nil =>
      subst hc
      exact ⟨0, bptr, by rw [recvLoop.eq_def]; rfl, by simp [keep], by simp⟩
    | cons b rest =>
      obtain ⟨fuel, rfl⟩ : ∃ n, fuel = n + 1 := ⟨fuel - 1, by simp at hc; omega⟩
      obtain ⟨n, hn⟩ : ∃ n, c = n + 1 := ⟨rest.length, hc⟩
      have hread : cstr (buf.drop bptr) = some (b :: rest ++ stale) := by
        rw [hbuf]
        exact cstr_append htext
      have hlen : (b :: rest ++ stale).length + 1 > c := by
        rw [hc, List.length_append]
        omega
      rw [hn, recvLoop, ← hn, hread]
      · simp only [Option.bind_eq_bind, Option.bind_some]
        by_cases hshort : (b :: rest ++ stale).length < 255
        · rw [if_pos ⟨hlen, by omega⟩, keep_short (List.cons_ne_nil _ _) hshort]
          exact ⟨c, bptr, rfl, by simp [hn], fun _ => hbuf⟩
        · rw [if_neg (fun h => hshort (by omega)), Nat.sub_eq_zero_of_le (Nat.le_of_lt hlen),
            keep_long (List.cons_ne_nil _ _) hshort]
          refine ⟨0, bptr + ((b :: rest ++ stale).length + 1), ?_, by simp, by simp⟩
          rw [recvLoop.eq_def]
          rfl
      · simp
  | cons msg msgs ih =>
    have hfree : 0 ∉ msg := hmsgs msg List.mem_cons_self
    simp only [packed_cons, List.length_append, List.length_cons] at hc
    obtain ⟨fuel, rfl⟩ : ∃ n, fuel = n + 1 := ⟨fuel - 1, by omega⟩
    obtain ⟨n, hn⟩ : ∃ n, c = n + 1 := ⟨c - 1, by omega⟩
    have hread : cstr (buf.drop bptr) = some msg := by
      rw [hbuf, packed_cons, List.append_assoc, List.cons_append]
      exact cstr_append hfree
    have hrest : buf.drop (bptr + (msg.length + 1)) =
        packed 0 msgs ++ (rest ++ stale ++ 0 :: more) := by
      rw [← List.drop_drop, hbuf, packed_cons, List.append_assoc, List.cons_append,
        ← List.singleton_append, ← List.append_assoc, List.drop_left' (by simp)]
    obtain ⟨c', bptr', hloop, hleft, hat⟩ := @ih (fun m hm => hmsgs m (List.mem_cons_of_mem _ hm))
      fuel (c - (msg.length + 1)) _ hrest (by omega) (by omega)
    refine ⟨c', bptr', ?_, hleft, hat⟩
    rw [hn, recvLoop, ← hn, hread]
    · simp only [Option.bind_eq_bind, Option.bind_some]
      rw [if_neg (by omega), hloop]
      rfl
    · simp

/-- What a call does with the messages and the piece of a message that it finds. -/
structure Received (client : ChatClient) (data : Bytes) (client' : ChatClient) (msgs : List Bytes)
    (rest : Bytes) : Prop where
  input : client.stored ++ data = packed 0 msgs ++ rest
  msgs_free : ∀ msg ∈ msgs, 0 ∉ msg
  rest_free : 0 ∉ rest
  handled : client'.handled = client.handled ++ (msgs ++ (keep rest (client.stale data)).1)
  screen : client'.screen = (msgs ++ (keep rest (client.stale data)).1).foldl handle client.screen
  stored : client'.stored = (keep rest (client.stale data)).2
  bufstart : client'.bufstart = (keep rest (client.stale data)).2.length
  ok : client'.Ok

theorem keep_free {rest stale : Bytes} (h : 0 ∉ rest ++ stale) :
    ∀ msg ∈ (keep rest stale).1, 0 ∉ msg := by
  intro msg hmsg
  rw [keep] at hmsg
  split at hmsg
  · cases hmsg
  · split at hmsg
    · cases hmsg
    · rwa [List.mem_singleton.mp hmsg]

theorem stored_stale_free {client : ChatClient} {data rest : Bytes} (hrest : 0 ∉ rest) :
    0 ∉ rest ++ client.stale data := by
  intro h
  rcases List.mem_append.mp h with h | h
  · exact hrest h
  · have hne := List.mem_takeWhile_imp (p := fun c => decide (c ≠ 0)) h
    exact absurd rfl (of_decide_eq_true hne)

/-- A call stays inside the buffer, and what it does depends on the bytes of the buffer behind the
received ones. -/
theorem chatRecv_spec {client : ChatClient} {data : Bytes} (hok : client.Ok)
    (hdata : client.RecvReturns data) :
    ∃ client' msgs rest, chatRecv client data = some client' ∧
      Received client data client' msgs rest := by
  obtain ⟨msgs, rest, hinput, hmsgs, hrest⟩ := exists_packed 0 (client.stored ++ data)
  have htext := @stored_stale_free client data _ hrest
  have hroom : client.bufstart + data.length ≤ 511 := by
    have := hdata.2
    have := hok.bufstart
    omega
  obtain ⟨more, hmore⟩ : ∃ more,
      client.buf.drop (client.bufstart + data.length) = client.stale data ++ 0 :: more := by
    apply exists_terminated
    apply List.mem_of_mem_drop (i := 511 - (client.bufstart + data.length))
    rw [List.drop_drop, Nat.add_sub_cancel' hroom, hok.last]
    exact List.mem_singleton_self 0
  have hbuf : (overlay client.buf client.bufstart data).drop 0 =
      packed 0 msgs ++ (rest ++ client.stale data ++ 0 :: more) := by
    have hover : overlay client.buf client.bufstart data =
        client.stored ++ data ++ client.buf.drop (client.bufstart + data.length) := rfl
    rw [List.drop_zero, hover, hinput, hmore]
    simp only [List.append_assoc]
  have hcount : client.bufstart + data.length = (packed 0 msgs).length + rest.length := by
    have hlen := congrArg List.length hinput
    simp only [List.length_append, ChatClient.stored, List.length_take, hok.length] at hlen
    have := hok.bufstart
    omega
  obtain ⟨c, bptr, hloop, hleft, hat⟩ := recvLoop_packed hmsgs htext hbuf hcount (Nat.le_refl _)
  have hlength : (overlay client.buf client.bufstart data).length = 512 :=
    (length_overlay (by rw [hok.length]; omega)).trans hok.length
  have hlast : (overlay client.buf client.bufstart data).drop 511 = [0] :=
    (drop_overlay (by have := hok.bufstart; rw [hok.length]; omega) hroom).trans hok.last
  unfold chatRecv
  rw [store_eq (by rw [hok.length]; omega)]
  simp only [Option.bind_eq_bind, Option.bind_some, hloop]
  by_cases hkept : (keep rest (client.stale data)).2 = []
  · have hnone : ¬0 < c := fun h => hleft.mp h hkept
    rw [if_neg hnone]
    refine ⟨_, msgs, rest, rfl, hinput, hmsgs, hrest, rfl, rfl, ?_, ?_, ?_⟩
    · rw [hkept]
      rfl
    · rw [hkept]
      rfl
    · exact ⟨hlength, hlast, Nat.zero_lt_succ _, List.not_mem_nil⟩
  · have hsome : 0 < c := hleft.mpr hkept
    have hrest_ne : rest ≠ [] := by
      rintro rfl
      exact hkept rfl
    have hlt : (rest ++ client.stale data).length < 255 := by
      by_contra hlong
      rw [keep_long hrest_ne hlong] at hkept
      exact hkept rfl
    obtain ⟨text, htext'⟩ : ∃ text, text = rest ++ client.stale data := ⟨_, rfl⟩
    have hkeep : (keep rest (client.stale data)).2 = text := by
      rw [keep_short hrest_ne hlt, htext']
    rw [← htext'] at hat hlt htext
    rw [if_pos hsome, hat hsome, cstr_append htext]
    have hfit : 0 + (text ++ [0]).length ≤
        (overlay client.buf client.bufstart data).length := by
      rw [hlength, List.length_append, List.length_singleton]
      omega
    have hwhole : text.take 511 = text := List.take_of_length_le (by omega)
    simp only [Option.bind_some, hwhole, store_eq hfit]
    have hstored : (overlay (overlay client.buf client.bufstart data) 0 (text ++ [0])).take
        text.length = text := by
      rw [overlay, List.take_zero, List.nil_append, List.append_assoc, List.take_left]
    refine ⟨_, msgs, rest, rfl, hinput, hmsgs, hrest, rfl, rfl, ?_, ?_, ?_⟩
    · exact hstored.trans hkeep.symm
    · rw [hkeep]
    · refine ⟨?_, ?_, hlt, ?_⟩
      · exact (length_overlay hfit).trans hlength
      · rw [drop_overlay_zero (by rw [List.length_append, List.length_singleton]; omega)]
        exact hlast
      · rw [ChatClient.stored, hstored]
        exact htext

/-! ## Counting bytes

A call keeps account of the bytes received: with the piece of a message that it keeps, the messages
it has handled take at least as many bytes as it has received, and more if it takes bytes of the
buffer for received ones. -/

/-- The bytes of the messages handled and of the piece kept. -/
def ChatClient.weight (client : ChatClient) : Nat :=
  (packed 0 client.handled).length + client.bufstart

theorem keep_length (rest stale : Bytes) :
    rest.length ≤ (packed 0 (keep rest stale).1).length + (keep rest stale).2.length := by
  rw [keep]
  split
  case isTrue h => simp [h]
  case isFalse =>
    split
    · simp
    · simp only [packed_cons, packed_nil, List.length_append, List.length_cons]
      omega

theorem keep_length_iff (rest stale : Bytes) :
    (packed 0 (keep rest stale).1).length + (keep rest stale).2.length = rest.length ↔
      rest = [] ∨ rest.length < 255 ∧ stale = [] := by
  rw [keep]
  split
  case isTrue h => simp [h]
  case isFalse h =>
    split
    case isTrue hlt =>
      rw [List.length_append] at hlt
      simp [h]
      intro hstale
      rw [hstale] at hlt
      exact hlt
    case isFalse hlong =>
      simp [h]
      rintro hlt rfl
      exact hlong (by simpa using hlt)

theorem keep_clean {rest stale : Bytes} (h : rest = [] ∨ rest.length < 255 ∧ stale = []) :
    keep rest stale = ([], rest) := by
  by_cases hrest : rest = []
  · rw [hrest]
    rfl
  · obtain ⟨hlt, rfl⟩ := h.resolve_left hrest
    rw [keep_short hrest (by simpa using hlt), List.append_nil]

theorem stale_eq_nil_iff {client : ChatClient} {data : Bytes} :
    client.stale data = [] ↔ client.buf.getD (client.bufstart + data.length) 0 = 0 := by
  rw [ChatClient.stale, List.getD_eq_getElem?_getD, ← List.head?_drop]
  cases client.buf.drop (client.bufstart + data.length) with
  | nil => simp
  | cons c more => simp [List.takeWhile_cons]

namespace Received
variable {client client' : ChatClient} {data rest : Bytes} {msgs : List Bytes}
  (h : Received client data client' msgs rest)
include h

theorem cutsCleanly_iff :
    client.CutsCleanly data ↔ rest = [] ∨ rest.length < 255 ∧ client.stale data = [] := by
  rw [ChatClient.CutsCleanly, h.input, unfinished_packed h.rest_free, stale_eq_nil_iff]

theorem length_input (hok : client.Ok) :
    client.bufstart + data.length = (packed 0 msgs).length + rest.length := by
  have hlen := congrArg List.length h.input
  simp only [List.length_append, ChatClient.stored, List.length_take, hok.length] at hlen
  have := hok.bufstart
  omega

theorem weight_eq (hok : client.Ok) :
    client'.weight + rest.length = client.weight + data.length +
      ((packed 0 (keep rest (client.stale data)).1).length +
        (keep rest (client.stale data)).2.length) := by
  have hinput := h.length_input hok
  simp only [ChatClient.weight, h.handled, h.bufstart, packed_append, List.length_append]
  omega

theorem weight_le (hok : client.Ok) : client.weight + data.length ≤ client'.weight := by
  have := h.weight_eq hok
  have := keep_length rest (client.stale data)
  omega

theorem weight_iff (hok : client.Ok) :
    client'.weight = client.weight + data.length ↔ client.CutsCleanly data := by
  rw [h.cutsCleanly_iff, ← keep_length_iff]
  have := h.weight_eq hok
  omega

/-- After a clean cut the messages handled and the piece kept are what has been received. -/
theorem packed_clean (hclean : client.CutsCleanly data) :
    packed 0 client'.handled ++ client'.stored =
      packed 0 client.handled ++ client.stored ++ data := by
  have hkeep := keep_clean (h.cutsCleanly_iff.mp hclean)
  rw [h.handled, h.stored, hkeep, List.append_nil, packed_append, List.append_assoc, ← h.input,
    List.append_assoc]

/-- Nothing is kept of bytes that end with a message. -/
theorem bufstart_of_last (hlast : data.getLast? = some 0) : client'.bufstart = 0 := by
  have hrest : rest = [] := by
    by_contra hne
    have hend := congrArg List.getLast? h.input
    rw [List.getLast?_append, List.getLast?_append, hlast, List.getLast?_eq_getLast_of_ne_nil hne]
      at hend
    apply h.rest_free
    rw [Option.some_or, Option.some_or] at hend
    rw [Option.some.inj hend]
    exact List.getLast_mem hne
  rw [h.bufstart, hrest]
  rfl

end Received

/-! ## A whole stream -/

/-- The calls of `chat_recv` with the chunks, one after the other. -/
inductive ReceivedAll : ChatClient → List Bytes → ChatClient → Prop
  | nil : ReceivedAll client [] client
  | cons : client.Ok → client.RecvReturns data → chatRecv client data = some client₁ →
    Received client data client₁ msgs rest → ReceivedAll client₁ chunks client' →
    ReceivedAll client (data :: chunks) client'

/-- Every run of calls stays inside the buffer. -/
theorem chatRecv_run {client : ChatClient} {chunks : List Bytes} (hok : client.Ok)
    (hrecv : Reach.Along chatRecv ChatClient.RecvReturns client chunks) :
    ∃ client', chunks.foldlM chatRecv client = some client' ∧ client'.Ok ∧
      ReceivedAll client chunks client' := by
  induction chunks generalizing client with
  | nil => exact ⟨client, rfl, hok, .nil⟩
  | cons data chunks ih =>
    obtain ⟨hdata, hmore⟩ := hrecv
    obtain ⟨client₁, msgs, rest, hstep, hrec⟩ := chatRecv_spec hok hdata
    rw [hstep] at hmore
    obtain ⟨client', hrun, hok', hall⟩ := ih hrec.ok hmore
    refine ⟨client', ?_, hok', .cons hok hdata hstep hrec hall⟩
    rw [List.foldlM_cons, hstep]
    exact hrun

namespace ReceivedAll
variable {client client' : ChatClient} {chunks : List Bytes}
  (h : ReceivedAll client chunks client')
include h

theorem weight_le : client.weight + chunks.flatten.length ≤ client'.weight := by
  induction h with
  | nil => exact Nat.le_refl _
  | cons hok _ _ hrec _ ih =>
    have := hrec.weight_le hok
    rw [List.flatten_cons, List.length_append]
    omega

theorem weight_iff :
    client'.weight = client.weight + chunks.flatten.length ↔
      Reach.Along chatRecv ChatClient.CutsCleanly client chunks := by
  induction h with
  | nil => simp [Reach.Along]
  | cons hok _ hstep hrec hmore ih =>
    have hle := hrec.weight_le hok
    have hle' := hmore.weight_le
    rw [List.flatten_cons, List.length_append, Reach.Along, hstep, ← hrec.weight_iff hok]
    dsimp only
    rw [← ih]
    omega

theorem packed_clean (hclean : Reach.Along chatRecv ChatClient.CutsCleanly client chunks) :
    packed 0 client'.handled ++ client'.stored =
      packed 0 client.handled ++ client.stored ++ chunks.flatten := by
  induction h with
  | nil => simp
  | cons _ _ hstep hrec _ ih =>
    obtain ⟨hdata, hmore⟩ := hclean
    rw [hstep] at hmore
    rw [ih hmore, hrec.packed_clean hdata, List.flatten_cons, List.append_assoc _ _ (List.flatten _)]

theorem handled_free (hfree : ∀ msg ∈ client.handled, 0 ∉ msg) :
    ∀ msg ∈ client'.handled, 0 ∉ msg := by
  induction h with
  | nil => exact hfree
  | cons _ _ _ hrec _ ih =>
    apply ih
    intro msg hmsg
    rw [hrec.handled, List.mem_append, List.mem_append] at hmsg
    rcases hmsg with hmsg | hmsg | hmsg
    · exact hfree msg hmsg
    · exact hrec.msgs_free msg hmsg
    · exact keep_free (stored_stale_free hrec.rest_free) msg hmsg

theorem flatten_eq_nil (hnil : chunks.flatten = []) : chunks = [] := by
  cases h with
  | nil => rfl
  | cons _ hdata _ _ _ => exact absurd (List.append_eq_nil_iff.mp hnil).1 hdata.1

theorem bufstart_of_last (hlast : chunks.flatten.getLast? = some 0) : client'.bufstart = 0 := by
  induction h with
  | nil => cases hlast
  | @cons client data client₁ msgs rest chunks client' _ _ _ hrec hmore ih =>
    rw [List.flatten_cons, List.getLast?_append] at hlast
    cases hend : chunks.flatten.getLast? with
    | none =>
      rw [hend] at hlast
      cases hmore.flatten_eq_nil (List.getLast?_eq_none_iff.mp hend)
      cases hmore
      exact hrec.bufstart_of_last hlast
    | some c =>
      rw [hend] at hlast ih
      exact ih hlast

end ReceivedAll

/-- Whatever the earlier conversations of the process have left in the buffer: `chat_recv` stays
inside it, and handles the messages of a stream, each once and complete, if and only if nothing of
an earlier message is kept at the start and every chunk is cut cleanly. -/
theorem chat_recv_frames (screen : ChatScreen) (earlier chunks : List Bytes)
    (hrecv : Reach.Along chatRecv ChatClient.RecvReturns (.start screen) (earlier ++ chunks)) :
    ∃ client client', earlier.foldlM chatRecv (.start screen) = some client ∧
      chunks.foldlM chatRecv client = some client' ∧
      ∀ msgs, (∀ msg ∈ msgs, 0 ∉ msg ∧ msg.length < 256) → chunks.flatten = packed 0 msgs →
        (client'.handled = client.handled ++ msgs ↔
          (chunks = [] ∨ client.bufstart = 0) ∧
            Reach.Along chatRecv ChatClient.CutsCleanly client chunks) := by
  obtain ⟨hearlier, hmore⟩ := Reach.along_append earlier chunks hrecv
  obtain ⟨client, hrun, hok, hall⟩ := chatRecv_run (ChatClient.ok_start screen) hearlier
  obtain ⟨client', hrun', hok', hall'⟩ := chatRecv_run hok (hmore client hrun)
  refine ⟨client, client', hrun, hrun', fun msgs hmsgs hflat => ?_⟩
  have hfree : ∀ msg ∈ client.handled, 0 ∉ msg :=
    hall.handled_free fun _ h => absurd h List.not_mem_nil
  constructor
  · intro hhandled
    rcases packed_eq_nil_or 0 msgs with rfl | ⟨pre, hpre⟩
    · have hnil := hall'.flatten_eq_nil hflat
      rw [hnil]
      exact ⟨.inl rfl, trivial⟩
    · have hend : client'.bufstart = 0 :=
        hall'.bufstart_of_last (by rw [hflat, hpre, List.getLast?_concat])
      have hle := hall'.weight_le
      have hweight : client'.weight = (packed 0 client.handled).length + chunks.flatten.length := by
        rw [ChatClient.weight, hend, hhandled, packed_append, List.length_append, hflat,
          Nat.add_zero]
      rw [hweight, ChatClient.weight] at hle
      have hstart : client.bufstart = 0 := by omega
      refine ⟨.inr hstart, hall'.weight_iff.mp ?_⟩
      rw [hweight, ChatClient.weight, hstart, Nat.add_zero]
  · rintro ⟨hstart, hclean⟩
    rcases hstart with rfl | hstart
    · have hnil : msgs = [] := by
        rcases packed_eq_nil_or 0 msgs with h | ⟨pre, hpre⟩
        · exact h
        · simp [hpre] at hflat
      rw [← Option.some.inj hrun', hnil, List.append_nil]
    · have hpacked := hall'.packed_clean hclean
      have hstored : client.stored = [] := by rw [ChatClient.stored, hstart, List.take_zero]
      rw [hstored, List.append_nil, hflat, ← packed_append, ← List.append_nil (packed 0 (_ ++ _))]
        at hpacked
      refine (packed_inj (hall'.handled_free hfree) ?_ hok'.stored List.not_mem_nil hpacked).1
      intro msg hmsg
      rcases List.mem_append.mp hmsg with hmsg | hmsg
      · exact hfree msg hmsg
      · exact (hmsgs msg hmsg).1

/-- The client's screen before the first message. -/
def blankScreen : ChatScreen := ⟨[], [], [], []⟩

theorem chat_recv_frames_cut :
    let chunks := [bytes "hel", bytes "lo\x00/rma", bytes "in\x00"]
    (chunks.foldlM chatRecv (.start blankScreen)).map (·.handled) =
      some [bytes "hello", bytes "/rmain"] := by
  intro chunks
  obtain ⟨client, client', hstart, hrun, hframes⟩ :=
    chat_recv_frames blankScreen [] chunks (by decide +kernel)
  cases hstart
  rw [hrun]
  have hclean : Reach.Along chatRecv ChatClient.CutsCleanly (.start blankScreen) chunks := by
    decide +kernel
  exact congrArg some ((hframes [bytes "hello", bytes "/rmain"] (by decide +kernel)
    (by decide +kernel)).mpr ⟨.inr rfl, hclean⟩)

/-- A short piece of a message comes after a longer message: what is left of that message becomes
part of the new one. -/
theorem chat_recv_frames_stale :
    let chunks := [bytes "hello world\x00", bytes "ab", bytes "c\x00"]
    Reach.Along chatRecv ChatClient.RecvReturns (.start blankScreen) chunks ∧
      chunks.flatten = packed 0 [bytes "hello world", bytes "abc"] ∧
      (chunks.foldlM chatRecv (.start blankScreen)).map (·.handled) =
        some [bytes "hello world", bytes "abllo worldc"] := by
  decide +kernel

end ArgoBbs

import ArgoBbs.Chat.Commands
import ArgoBbs.Lib.Reach

/-! # The chat server

`process_chat_command` reads what a client has sent into `chatbuf`, the buffer in which the commands
print what they send, and executes a line at every newline. `main` takes connections and logs
clients out (`station.c`). -/

namespace ArgoBbs

/-- A line that is executed: the state it is executed in, with the line in the input buffer, and how
many bytes of the chunk have been read and are left. -/
structure Execution where
  chat : Chat
  read : Nat
  left : Nat

/-- What the texts that a line prints leave of `chatbuf`. -/
def printReplies (chatbuf : Bytes) (replies : List Reply) : Bytes :=
  replies.foldl (fun buf r => if r.printed then overlay buf 0 (r.text ++ [0]) else buf) chatbuf

/-- Nothing is in the input buffer. -/
def ChatUser.clear (u : ChatUser) : ChatUser := { u with ibuf := [] }

/-- A byte is added to the input buffer unless it is full. -/
def ChatUser.add (c : UInt8) (u : ChatUser) : ChatUser :=
  if u.ibuf.length < 127 then { u with ibuf := u.ibuf ++ [c] } else u

/-- What `process_chat_command` leaves: the tables, `chatbuf`, what it returns, and the lines that
it has executed. -/
structure Processed where
  chat : Chat
  chatbuf : Bytes
  rc : Int
  executions : List Execution

variable (cfg : ChatConfig)

/-- The loop over the bytes of `chatbuf` from `i` on, of which `left` are left. The input buffer of
the slot is used after every line. -/
def processChatLoop (unum : Nat) : (left i : Nat) → Chat → Bytes → Processed
  | 0, _, s, chatbuf => ⟨s, chatbuf, 0, []⟩
  | left + 1, i, s, chatbuf =>
    let c := chatbuf.getD i 0
    if c = 13 then processChatLoop unum left (i + 1) s chatbuf
    else if c = 10 then
      let (s', rc) := commandExecute cfg { s with replies := [] } unum
      let chatbuf := printReplies chatbuf s'.replies
      let p :=
        if rc = -1 then ⟨s', chatbuf, -1, []⟩
        else processChatLoop unum left (i + 1) ((s'.use unum).setUser unum ChatUser.clear) chatbuf
      { p with executions := ⟨s, i + 1, left⟩ :: p.executions }
    else processChatLoop unum left (i + 1) ((s.use unum).setUser unum (ChatUser.add c)) chatbuf

/-- `process_chat_command` once `recv` has returned the chunk. -/
def processChatCommand (s : Chat) (chatbuf : Bytes) (unum : Nat) (chunk : Bytes) : Processed :=
  processChatLoop cfg unum chunk.length 0 s (overlay chatbuf 0 chunk)

/-- What the server waits for: a connection from a host, a chunk that a client has sent, and the
end of a connection. -/
inductive ChatEvent
  | accept (fd : Nat) (host : Bytes)
  | recv (unum : Nat) (chunk : Bytes)
  | hangup (unum : Nat)

/-- The tables and `chatbuf`, and of every slot what its client has sent and which lines have been
executed for it since it connected. -/
structure ChatServer where
  chat : Chat
  chatbuf : Bytes
  used : Nat → Bool
  sent : Nat → Bytes
  executed : Nat → List Bytes

def Hall.start (cfg : ChatConfig) : Hall where
  users := fun _ => ChatUser.unused
  rooms := fun r => if r = 0 then ⟨mainroom, 0, 0, fun _ => false, cfg.maintopic⟩
    else ⟨[], 0, 0, fun _ => false, []⟩
  numConns := 0

def ChatServer.start : ChatServer where
  chat := { Hall.start cfg with replies := [], stale := false }
  chatbuf := List.replicate 256 0
  used := fun _ => false
  sent := fun _ => []
  executed := fun _ => []

/-- The name that the server keeps of the host. -/
def hostName (host : Bytes) : Bytes :=
  if cfg.isLocal || host = bytes "127.0.0.1" || host = bytes "::" then bytes "localhost"
  else host.take 29

/-- The slot of a new connection. -/
def ChatUser.connect (fd : Nat) (host : Bytes) (u : ChatUser) : ChatUser :=
  { u with host, sockfd := fd, room := -1 }

def Chat.accept (s : Chat) (i fd : Nat) (host : Bytes) : Chat :=
  let s := s.setUser i (ChatUser.connect fd (hostName cfg host))
  { s with numConns := s.numConns + 1 }

def freeSlot (s : Hall) : Option Nat := (List.range cfg.maxActive).find? fun i => !s.connected i

def ChatServer.step (s : ChatServer) : ChatEvent → Option ChatServer
  | .accept fd host =>
    match freeSlot cfg s.chat.toHall with
    | none => some s
    | some i => some
      { s with
        chat := s.chat.accept cfg i fd host
        used := Function.update s.used i true
        sent := Function.update s.sent i []
        executed := Function.update s.executed i [] }
  | .recv unum chunk =>
    if unum < cfg.maxActive ∧ s.chat.connected unum ∧ chunk ≠ [] ∧ chunk.length ≤ 256 then
      let p := processChatCommand cfg s.chat s.chatbuf unum chunk
      let lines := p.executions.map fun e => (e.chat.users unum).ibuf
      some
        { s with
          chat := if p.rc = -1 then logoutUser p.chat unum else p.chat
          chatbuf := p.chatbuf
          sent := Function.update s.sent unum (s.sent unum ++ chunk)
          executed := Function.update s.executed unum (s.executed unum ++ lines) }
    else none
  | .hangup unum =>
    if unum < cfg.maxActive ∧ s.chat.connected unum then
      let chat := exitRoom cfg { s.chat with replies := [] } unum .lostconn none
      some { s with chat := logoutUser chat unum, chatbuf := printReplies s.chatbuf chat.replies }
    else none

/-- A rule for the loop: `P` holds of the tables and the lines executed so far while the bytes are
read, and `Q` if a line makes the server close the connection. Of the lines it is known that they
satisfy `Ok` where they are executed. -/
theorem processChatLoop_trace_rule {cfg : ChatConfig} {unum : Nat}
    {P Q : Chat → List Execution → Prop} {Ok : Chat → Prop}
    (hadd : ∀ s es c, P s es → P ((s.use unum).setUser unum (ChatUser.add c)) es)
    (hline : ∀ s es e, P s es → e.chat = s → Ok s →
      ∀ s', s' = commandExecute cfg { s with replies := [] } unum →
        if s'.2 = -1 then Q s'.1 (es ++ [e])
        else P ((s'.1.use unum).setUser unum ChatUser.clear) (es ++ [e]))
    {left i : Nat} {s : Chat} {chatbuf : Bytes} {es : List Execution} (hs : P s es)
    (hok : ∀ e ∈ (processChatLoop cfg unum left i s chatbuf).executions, Ok e.chat) :
    let p := processChatLoop cfg unum left i s chatbuf
    if p.rc = -1 then Q p.chat (es ++ p.executions) else P p.chat (es ++ p.executions) := by
  induction left generalizing i s chatbuf es with
  | zero =>
    rw [processChatLoop]
    dsimp only
    rw [List.append_nil]
    exact hs
  | succ left ih =>
    unfold processChatLoop at hok ⊢
    dsimp only at hok ⊢
    by_cases hcr : chatbuf.getD i 0 = 13
    · rw [if_pos hcr] at hok ⊢
      exact ih hs hok
    · rw [if_neg hcr] at hok ⊢
      by_cases hnl : chatbuf.getD i 0 = 10
      · rw [if_pos hnl] at hok ⊢
        have hs' := hline s es ⟨s, i + 1, left⟩ hs rfl (hok _ List.mem_cons_self) _ rfl
        by_cases hrc : (commandExecute cfg { s with replies := [] } unum).2 = -1
        · rw [if_pos hrc] at hs' ⊢
          exact hs'
        · rw [if_neg hrc] at hs' hok ⊢
          have hrest := ih hs' fun e he => hok e (List.mem_cons_of_mem _ he)
          simp only [List.append_assoc] at hrest
          exact hrest
      · rw [if_neg hnl] at hok ⊢
        exact ih (hadd s es _ hs) hok

/-- The rule for what does not depend on the lines executed. -/
theorem processChatLoop_rule {cfg : ChatConfig} {unum : Nat} {P Q Ok : Chat → Prop}
    (hadd : ∀ s c, P s → P ((s.use unum).setUser unum (ChatUser.add c)))
    (hline : ∀ s, P s → Ok s → ∀ s', s' = commandExecute cfg { s with replies := [] } unum →
      if s'.2 = -1 then Q s'.1 else P ((s'.1.use unum).setUser unum ChatUser.clear))
    {left i : Nat} {s : Chat} {chatbuf : Bytes} (hs : P s)
    (hok : ∀ e ∈ (processChatLoop cfg unum left i s chatbuf).executions, Ok e.chat) :
    if (processChatLoop cfg unum left i s chatbuf).rc = -1 then
      Q (processChatLoop cfg unum left i s chatbuf).chat
    else P (processChatLoop cfg unum left i s chatbuf).chat :=
  @processChatLoop_trace_rule cfg unum (fun s _ => P s) (fun s _ => Q s) Ok
    (fun s _ c => hadd s c) (fun s _ _ hs _ hok s' hs' => hline s hs hok s' hs') _ _ _ _ [] hs hok

/-- A small server for examples. -/
def demoConfig : ChatConfig where
  maxActive := 40
  bbsName := bytes "bbs"
  chatname := bytes "talk"
  maintopic := bytes "topic"
  isLocal := true
  partyData := []
  speakData := []
  conditionData := []

end ArgoBbs

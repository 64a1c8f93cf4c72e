import ArgoBbs.Chat.Occupancy
import ArgoBbs.Lib.Lines

/-! # The lines of a client

`chatbuf` is both where the bytes of a client are received and where the replies are printed. The
server with a buffer for each, which reads its clients byte by byte, executes exactly the lines of
its clients (`readBytes_lines`), and `process_chat_command` does what that server does unless a line
prints over the bytes behind it (`processChatLoop_readBytes`). -/

namespace ArgoBbs

/-- How the lines of a client are read. -/
def lineReader : LineReader UInt8 := ⟨10, 13, 127⟩

/-- The lines of what a client has sent: the bytes up to each newline, without the carriage returns,
cut to 127 bytes. -/
def clientLines (input : Bytes) : List Bytes :=
  (input.splitOn 10).dropLast.map fun line => (line.filter (· ≠ 13)).take 127

variable (cfg : ChatConfig)

/-- What one byte of a client does, and `-1` if the server closes the connection. -/
def readByte (unum : Nat) (s : Chat) (c : UInt8) : Chat × Int :=
  if c = 13 then (s, 0)
  else if c = 10 then
    let (s', rc) := commandExecute cfg { s with replies := [] } unum
    if rc = -1 then (s', -1) else ((s'.use unum).setUser unum ChatUser.clear, 0)
  else ((s.use unum).setUser unum (ChatUser.add c), 0)

/-- What the bytes of a client do: the tables, whether the server closes the connection, and the
lines executed. -/
def readBytes (unum : Nat) : Bytes → Chat → Chat × Int × List Bytes
  | [], s => (s, 0, [])
  | c :: rest, s =>
    let (s', rc) := readByte cfg unum s c
    let line := if c = 10 then [(s.users unum).ibuf] else []
    if rc = -1 then (s', -1, line)
    else
      let (s', rc, lines) := readBytes unum rest s'
      (s', rc, line ++ lines)

/-- What the line in the input buffer prints, with its zero byte, takes at most `size` bytes. -/
def Chat.PrintsWithin (s : Chat) (unum size : Nat) : Prop :=
  ∀ r ∈ (commandExecute cfg { s with replies := [] } unum).1.replies,
    r.printed = true → r.text.length < size

/-- No line with bytes behind it in the chunk prints more than has been read of the chunk, or logs
its own user out. -/
def Undisturbed (unum : Nat) : Bytes → Nat → Chat → Prop
  | [], _, _ => True
  | c :: rest, read, s =>
    (readByte cfg unum s c).2 ≠ -1 →
      (c = 10 → rest ≠ [] → s.PrintsWithin cfg unum (read + 1) ∧ ¬ s.KicksItself cfg unum) ∧
      Undisturbed unum rest (read + 1) (readByte cfg unum s c).1

instance (s : Chat) (unum size : Nat) : Decidable (s.PrintsWithin cfg unum size) :=
  inferInstanceAs (Decidable (∀ r ∈ _, _))

instance decidableUndisturbed (unum : Nat) : (bytes : Bytes) → (read : Nat) → (s : Chat) →
    Decidable (Undisturbed cfg unum bytes read s)
  | [], _, _ => isTrue trivial
  | c :: rest, read, s =>
    have := decidableUndisturbed unum rest (read + 1) (readByte cfg unum s c).1
    inferInstanceAs (Decidable (_ → _ ∧ _))

/-- Every chunk is received undisturbed. -/
def Framed (s : ChatServer) : ChatEvent → Prop
  | .recv unum chunk => Undisturbed cfg unum chunk 0 s.chat
  | _ => True

instance (s : ChatServer) : (e : ChatEvent) → Decidable (Framed cfg s e)
  | .recv unum chunk => inferInstanceAs (Decidable (Undisturbed cfg unum chunk 0 s.chat))
  | .accept .. | .hangup _ => isTrue trivial

/-! ## The shared buffer -/

section
variable {cfg : ChatConfig} {u : Nat} {s : Chat}

/-- What is printed leaves the bytes behind it alone. -/
theorem drop_printReplies {chatbuf : Bytes} {replies : List Reply} {k : Nat}
    (h : ∀ r ∈ replies, r.printed = true → r.text.length < k) :
    (printReplies chatbuf replies).drop k = chatbuf.drop k := by
  induction replies generalizing chatbuf with
  | nil => rfl
  | cons r replies ih =>
    rw [printReplies, List.foldl_cons]
    refine (ih fun r' hr' => h r' (List.mem_cons_of_mem _ hr')).trans ?_
    split
    case isTrue hr =>
      have hlen : (r.text ++ [0]).length ≤ k := by
        rw [List.length_append]
        exact h r List.mem_cons_self hr
      exact drop_overlay_zero hlen
    case isFalse => rfl

theorem readByte_lf : readByte cfg u s 10 =
    let r := commandExecute cfg { s with replies := [] } u
    if r.2 = -1 then (r.1, -1) else ((r.1.use u).setUser u ChatUser.clear, 0) := rfl

theorem readByte_other {c : UInt8} (hcr : c ≠ 13) (hnl : c ≠ 10) :
    readByte cfg u s c = ((s.use u).setUser u (ChatUser.add c), 0) :=
  (if_neg hcr).trans (if_neg hnl)

/-- Only a newline can make the server close the connection. -/
theorem readByte_open {c : UInt8} (hnl : c ≠ 10) : (readByte cfg u s c).2 ≠ -1 := by
  rw [readByte, if_neg hnl]
  split <;> exact (by decide : (0 : Int) ≠ -1)

theorem readBytes_other {c : UInt8} (hnl : c ≠ 10) (rest : Bytes) :
    readBytes cfg u (c :: rest) s = readBytes cfg u rest (readByte cfg u s c).1 := by
  rw [readBytes, if_neg hnl]
  exact if_neg (readByte_open hnl)

theorem readBytes_lf (rest : Bytes) : readBytes cfg u (10 :: rest) s =
    let r := commandExecute cfg { s with replies := [] } u
    let q := readBytes cfg u rest ((r.1.use u).setUser u ChatUser.clear)
    if r.2 = -1 then (r.1, -1, [(s.users u).ibuf])
    else (q.1, q.2.1, (s.users u).ibuf :: q.2.2) := by
  rw [readBytes, readByte_lf]
  dsimp only
  by_cases hrc : (commandExecute cfg { s with replies := [] } u).2 = -1
  · simp only [if_pos hrc]
    rfl
  · simp only [if_neg hrc]
    rfl

/-- What `process_chat_command` has done with the bytes of the user. -/
def Processed.reads (p : Processed) (u : Nat) : Chat × Int × List Bytes :=
  (p.chat, p.rc, p.executions.map fun e => (e.chat.users u).ibuf)

/-- `process_chat_command` does with the rest of a chunk what the server with a buffer for each
direction does. -/
theorem processChatLoop_readBytes {rest tail chatbuf : Bytes} {i : Nat}
    (hbuf : chatbuf.drop i = rest ++ tail) (h : Undisturbed cfg u rest i s) :
    (processChatLoop cfg u rest.length i s chatbuf).reads u = readBytes cfg u rest s := by
  induction rest generalizing i s chatbuf tail with
  | nil => rfl
  | cons c rest ih =>
    have hc : chatbuf.getD i 0 = c := by
      rw [List.getD_eq_getElem?_getD, ← Nat.add_zero i, ← List.getElem?_drop, hbuf]
      rfl
    have hnext : chatbuf.drop (i + 1) = rest ++ tail := by
      rw [← List.drop_drop, hbuf]
      rfl
    rw [Undisturbed] at h
    by_cases hnl : c = 10
    · subst hnl
      obtain ⟨r, hr⟩ : ∃ r, r = commandExecute cfg { s with replies := [] } u := ⟨_, rfl⟩
      rw [readByte_lf, ← hr] at h
      rw [List.length_cons, processChatLoop, readBytes_lf, ← hr]
      dsimp only at h ⊢
      rw [hc, if_neg (by decide), if_pos rfl]
      by_cases hrc : r.2 = -1
      · rw [if_pos hrc, if_pos hrc]
        rfl
      · rw [if_neg hrc] at h ⊢
        rw [if_neg hrc]
        obtain ⟨hprints, hrest⟩ := h (by decide : (0 : Int) ≠ -1)
        have hbuf' : ∃ tail', (printReplies chatbuf r.1.replies).drop (i + 1) = rest ++ tail' := by
          by_cases hlast : rest = []
          · exact ⟨_, by rw [hlast, List.nil_append]⟩
          · exact ⟨tail, (drop_printReplies (hr ▸ (hprints rfl hlast).1)).trans hnext⟩
        obtain ⟨tail', hbuf'⟩ := hbuf'
        rw [← ih hbuf' hrest]
        rfl
    · rw [readBytes_other hnl, List.length_cons, processChatLoop]
      dsimp only
      rw [hc, if_neg hnl, ← ih hnext (h (readByte_open hnl)).2, readByte, if_neg hnl]
      split <;> rfl

/-! ## The lines executed -/

/-- A line of one user leaves the input buffers of the others alone. -/
theorem LineEffect.ibuf {s s' : Hall} {w : Nat} (h : LineEffect cfg s u s') (hw : w ≠ u)
    (hconn : s'.connected w = true) :
    s.connected w = true ∧ (s'.users w).ibuf = (s.users w).ibuf := by
  obtain ⟨hbefore, hsame | ⟨hself, -⟩⟩ :=
    @LineEffect.field _ _ _ _ _ ChatUser.ibuf _ (fun _ _ _ => rfl) h hconn
  · exact ⟨hbefore, hsame⟩
  · exact absurd hself hw

/-- What reading the bytes of a user keeps and does: the lines executed are those of the bytes, all
of them unless the server closes the connection, and the buffers of the other users stay. -/
structure Served (cfg : ChatConfig) (used : Nat → Bool) (u : Nat) (s : Chat) (input : Bytes)
    (r : Chat × Int × List Bytes) : Prop where
  hall : HallInv cfg used r.1.toHall
  closed : r.2.1 = -1 → r.1.connected u = true ∧ (r.1.users u).room = -1
  lines : r.2.2 <+: (lineReader.feed (s.users u).ibuf input).1
  all : r.2.1 ≠ -1 → r.2.2 = (lineReader.feed (s.users u).ibuf input).1 ∧
    (r.1.connected u = true → (r.1.users u).ibuf = (lineReader.feed (s.users u).ibuf input).2)
  others : ∀ w, w ≠ u → r.1.connected w = true →
    s.connected w = true ∧ (r.1.users w).ibuf = (s.users w).ibuf

/-- Nothing is left to clear in a slot that has been logged out. -/
theorem setUser_clear_gone {s : Hall} (h : s.users u = .gone) :
    s.setUser u ChatUser.clear = s := by
  have hsame : ChatUser.clear (s.users u) = s.users u := by
    rw [h]
    rfl
  unfold Hall.setUser
  rw [hsame, Function.update_eq_self]

/-- One line is read and executed, and its user stays. -/
theorem HallInv.served_line {used : Nat → Bool} (H : HallInv cfg used s.toHall)
    (hlt : u < cfg.maxActive) (hu : s.connected u = true) {rest : Bytes}
    (ih : (readByte cfg u s 10).2 ≠ -1 → (rest ≠ [] → ¬ s.KicksItself cfg u) ∧
      (HallInv cfg used (readByte cfg u s 10).1.toHall →
        (readByte cfg u s 10).1.connected u = true →
        Served cfg used u (readByte cfg u s 10).1 rest (readBytes cfg u rest (readByte cfg u s 10).1))) :
    Served cfg used u s (10 :: rest) (readBytes cfg u (10 :: rest) s) := by
  obtain ⟨r, hr⟩ : ∃ r, r = commandExecute cfg { s with replies := [] } u := ⟨_, rfl⟩
  obtain ⟨heffect, hhall, -, hclosed⟩ := H.execute hlt hu
  rw [readByte_lf] at ih
  rw [readBytes_lf]
  dsimp only at ih ⊢
  rw [← hr] at heffect hhall hclosed ih ⊢
  have hfeed : lineReader.feed (s.users u).ibuf (10 :: rest) =
    ((s.users u).ibuf :: (lineReader.feed [] rest).1, (lineReader.feed [] rest).2) := rfl
  by_cases hrc : r.2 = -1
  · rw [if_pos hrc]
    obtain ⟨hroom, hsame⟩ := hclosed hrc
    refine ⟨hhall, fun _ => ?_, ?_, fun h => absurd rfl h, fun w _ hw => ?_⟩
    · dsimp only
      rw [hsame]
      exact ⟨hu, hroom⟩
    · rw [hfeed]
      exact ⟨_, rfl⟩
    · dsimp only at hw ⊢
      rw [hsame] at hw ⊢
      exact ⟨hw, rfl⟩
  · rw [if_neg hrc] at ih ⊢
    obtain ⟨hkick, ih⟩ := ih (by decide : (0 : Int) ≠ -1)
    have hothers : ∀ w, w ≠ u → ((r.1.use u).setUser u ChatUser.clear).connected w = true →
        s.connected w = true ∧
          (((r.1.use u).setUser u ChatUser.clear).users w).ibuf = (s.users w).ibuf := by
      intro w hw hconn
      have hclear : r.1.connected w = true :=
        (Hall.connected_setUser ChatUser.clear fun _ => rfl).symm.trans hconn
      obtain ⟨hbefore, hibuf⟩ := heffect.ibuf hw hclear
      exact ⟨hbefore, (congrArg ChatUser.ibuf (Hall.users_setUser_ne _ _ hw)).trans hibuf⟩
    by_cases hleft : r.1.connected u = true
    · have hserved := ih (hhall.setUser hleft rfl rfl)
        ((Hall.connected_setUser ChatUser.clear fun _ => rfl).trans hleft)
      have hempty : (((r.1.use u).setUser u ChatUser.clear).users u).ibuf = [] :=
        congrArg ChatUser.ibuf (Hall.users_setUser ..)
      obtain ⟨hhall', hclosed', hlines, hall, hothers'⟩ := hserved
      rw [hempty] at hlines hall
      refine ⟨hhall', hclosed', ?_, fun h => ?_, fun w hw hconn => ?_⟩
      · rw [hfeed]
        exact List.cons_prefix_cons.mpr ⟨rfl, hlines⟩
      · rw [hfeed]
        obtain ⟨hall, hibuf⟩ := hall h
        exact ⟨congrArg _ hall, hibuf⟩
      · obtain ⟨hconn', hibuf⟩ := hothers' w hw hconn
        obtain ⟨hbefore, hibuf'⟩ := hothers w hw hconn'
        exact ⟨hbefore, hibuf.trans hibuf'⟩
    · -- the user has kicked himself out, with the last byte of the chunk
      rcases heffect.connected u with hsame | ⟨hgone, -, hself⟩
      · exact absurd (hsame.trans hu) hleft
      · have hlast : rest = [] := by
          by_contra hrest
          exact hkick hrest (hself rfl)
        subst hlast
        refine ⟨?_, fun h => absurd (show (0 : Int) = -1 from h) (by decide), ?_,
          fun _ => ⟨?_, fun hconn => ?_⟩, hothers⟩
        · change HallInv cfg used (r.1.toHall.setUser u ChatUser.clear)
          rw [setUser_clear_gone hgone]
          exact hhall
        · exact List.prefix_rfl
        · rfl
        · exact congrArg ChatUser.ibuf (Hall.users_setUser ..)

theorem ChatUser.ibuf_add {c : UInt8} (hcr : c ≠ 13) (w : ChatUser) :
    (ChatUser.add c w).ibuf = lineReader.add c w.ibuf := by
  rw [LineReader.add, if_neg (show ¬ c = lineReader.skip from hcr)]
  unfold ChatUser.add
  change _ = if w.ibuf.length < 127 then _ else _
  split <;> rfl

/-- A byte that is not the end of a line goes into the buffer. -/
theorem HallInv.served_byte {used : Nat → Bool} (H : HallInv cfg used s.toHall)
    (hu : s.connected u = true) {c : UInt8} (hcr : c ≠ 13) (hnl : c ≠ 10) {rest : Bytes}
    (ih : HallInv cfg used (readByte cfg u s c).1.toHall → (readByte cfg u s c).1.connected u = true →
      Served cfg used u (readByte cfg u s c).1 rest (readBytes cfg u rest (readByte cfg u s c).1)) :
    Served cfg used u s (c :: rest) (readBytes cfg u (c :: rest) s) := by
  obtain ⟨s', hs'⟩ : ∃ s', s' = (s.use u).setUser u (ChatUser.add c) := ⟨_, rfl⟩
  rw [readByte_other hcr hnl, ← hs'] at ih
  rw [readBytes_other hnl, readByte_other hcr hnl, ← hs']
  have hkeep : ∀ w, (ChatUser.add c w).sockfd = w.sockfd ∧ (ChatUser.add c w).room = w.room := by
    intro w
    unfold ChatUser.add
    split <;> exact ⟨rfl, rfl⟩
  have hconn : ∀ w, s'.connected w = s.connected w := by
    intro w
    rw [hs']
    exact Hall.connected_setUser (ChatUser.add c) fun w => (hkeep w).1
  have hhall : HallInv cfg used s'.toHall := by
    rw [hs']
    exact H.setUser hu (hkeep _).1 (hkeep _).2
  have hfeed : lineReader.feed (s.users u).ibuf (c :: rest) =
      lineReader.feed (s'.users u).ibuf rest := by
    rw [LineReader.feed, if_neg (show ¬ c = lineReader.sep from hnl), ← ChatUser.ibuf_add hcr, hs']
    exact congrArg (fun w : ChatUser => lineReader.feed w.ibuf rest) (Hall.users_setUser ..).symm
  obtain ⟨hhall, hclosed, hlines, hall, hothers⟩ := ih hhall ((hconn u).trans hu)
  rw [← hfeed] at hlines hall
  refine ⟨hhall, hclosed, hlines, hall, fun w hw hafter => ?_⟩
  obtain ⟨hbefore, hibuf⟩ := hothers w hw hafter
  refine ⟨(hconn w).symm.trans hbefore, hibuf.trans ?_⟩
  rw [hs']
  exact congrArg ChatUser.ibuf (Hall.users_setUser_ne _ _ hw)

/-- The server with a buffer for each direction executes the lines that it is sent. -/
theorem readBytes_lines {used : Nat → Bool} {rest : Bytes} {k : Nat}
    (H : HallInv cfg used s.toHall) (hlt : u < cfg.maxActive) (hu : s.connected u = true)
    (h : Undisturbed cfg u rest k s) : Served cfg used u s rest (readBytes cfg u rest s) := by
  induction rest generalizing s k with
  | nil => exact ⟨H, nofun, List.prefix_rfl, fun _ => ⟨rfl, fun _ => rfl⟩, fun w _ hw => ⟨hw, rfl⟩⟩
  | cons c rest ih =>
    by_cases hnl : c = 10
    · subst hnl
      refine H.served_line hlt hu fun hopen => ?_
      obtain ⟨hkick, hrest⟩ := h hopen
      exact ⟨fun hne => (hkick rfl hne).2, fun hhall hconn => ih hhall hconn hrest⟩
    · have hrest := (h (readByte_open hnl)).2
      by_cases hcr : c = 13
      · subst hcr
        obtain ⟨hhall, hclosed, hlines, hall, hothers⟩ := ih H hu hrest
        exact ⟨hhall, hclosed, hlines, hall, hothers⟩
      · exact H.served_byte hu hcr hnl fun hhall hconn => ih hhall hconn hrest

end

/-! ## Runs of the server -/

/-- The lines executed for the client of a slot are lines of what it has sent, and as long as it is
connected they are all of them, and the rest is in the input buffer. -/
structure FramingInv (cfg : ChatConfig) (s : ChatServer) : Prop where
  hall : HallInv cfg s.used s.chat.toHall
  executed : ∀ u, s.executed u <+: clientLines (s.sent u)
  here : ∀ u, s.chat.connected u = true →
    lineReader.feed [] (s.sent u) = (s.executed u, (s.chat.users u).ibuf)

section
variable {cfg : ChatConfig} {s s' : ChatServer} {e : ChatEvent} {u : Nat}

theorem lines_lineReader (input : Bytes) : (lineReader.feed [] input).1 = clientLines input := by
  rw [LineReader.feed_nil]
  rfl

theorem framingInv_start : FramingInv cfg (.start cfg) :=
  ⟨serverInv_start.hall, fun _ => List.nil_prefix, nofun⟩

/-- A new connection starts with an empty buffer. -/
theorem FramingInv.accept (H : FramingInv cfg s) {i : Nat} (hlt : i < cfg.maxActive)
    (hi : s.chat.connected i = false) (fd : Nat) (host : Bytes) :
    FramingInv cfg
      { s with
        chat := s.chat.accept cfg i fd host
        used := Function.update s.used i true
        sent := Function.update s.sent i []
        executed := Function.update s.executed i [] } := by
  refine ⟨H.hall.accept hlt hi fd _, fun u => ?_, fun u hu => ?_⟩
  · dsimp only
    by_cases h : u = i
    · rw [h, Function.update_self]
      exact List.nil_prefix
    · rw [Function.update_of_ne h, Function.update_of_ne h]
      exact H.executed u
  · dsimp only
    by_cases h : u = i
    · have hempty : (s.chat.users i).ibuf = [] := by
        rw [H.hall.gone i hi]
        split <;> rfl
      rw [h, Function.update_self, Function.update_self]
      exact congrArg (Prod.mk _) (((congrArg ChatUser.ibuf (Hall.users_setUser ..)).trans hempty).symm)
    · have hsame : (s.chat.accept cfg i fd host).users u = s.chat.users u :=
        Hall.users_setUser_ne _ _ h
      have hconn : s.chat.connected u = true := by
        rw [Hall.connected, ← hsame]
        exact hu
      rw [Function.update_of_ne h, Function.update_of_ne h, hsame]
      exact H.here u hconn

/-- What is left of a slot and of the others when its connection ends. -/
theorem FramingInv.logout {t : ChatServer} {c : Chat} (hc : HallInv cfg t.used c.toHall)
    (hlt : u < cfg.maxActive) (hu : c.connected u = true) (hroom : (c.users u).room = -1)
    (hexecuted : ∀ w, t.executed w <+: clientLines (t.sent w))
    (hothers : ∀ w, w ≠ u → c.connected w = true →
      lineReader.feed [] (t.sent w) = (t.executed w, (c.users w).ibuf))
    (hchat : t.chat = logoutUser c u) : FramingInv cfg t := by
  refine ⟨?_, hexecuted, fun w hw => ?_⟩
  · rw [hchat]
    exact hc.logout hlt hu hroom
  · rw [hchat] at hw ⊢
    by_cases h : w = u
    · subst h
      rw [Hall.connected, show (logoutUser c w).users w = .gone from Function.update_self ..] at hw
      cases hw
    · have hsame : (logoutUser c u).users w = c.users w := Function.update_of_ne h ..
      rw [Hall.connected, hsame] at hw
      rw [hsame]
      exact hothers w h hw

/-- A chunk. -/
theorem FramingInv.recv (H : FramingInv cfg s) {chunk : Bytes} (hlt : u < cfg.maxActive)
    (hu : s.chat.connected u = true) (hok : Undisturbed cfg u chunk 0 s.chat) {p : Processed}
    (hp : p = processChatCommand cfg s.chat s.chatbuf u chunk) :
    FramingInv cfg
      { s with
        chat := if p.rc = -1 then logoutUser p.chat u else p.chat
        chatbuf := p.chatbuf
        sent := Function.update s.sent u (s.sent u ++ chunk)
        executed := Function.update s.executed u
          (s.executed u ++ p.executions.map fun e => (e.chat.users u).ibuf) } := by
  have hreads : p.reads u = readBytes cfg u chunk s.chat := by
    rw [hp]
    exact @processChatLoop_readBytes cfg u s.chat chunk (s.chatbuf.drop (0 + chunk.length)) _ 0 rfl hok
  have hserved := readBytes_lines H.hall hlt hu hok
  rw [← hreads] at hserved
  have hnow := H.here u hu
  -- the lines of what has been sent with the chunk
  have hfeed : lineReader.feed [] (s.sent u ++ chunk) =
      (s.executed u ++ (lineReader.feed (s.chat.users u).ibuf chunk).1,
        (lineReader.feed (s.chat.users u).ibuf chunk).2) := by
    rw [LineReader.feed_append, hnow]
  have hexecuted : ∀ w, Function.update s.executed u
      (s.executed u ++ p.executions.map fun e => (e.chat.users u).ibuf) w <+:
        clientLines (Function.update s.sent u (s.sent u ++ chunk) w) := by
    intro w
    by_cases h : w = u
    · rw [h, Function.update_self, Function.update_self, ← lines_lineReader, hfeed]
      exact (List.prefix_append_right_inj _).mpr hserved.lines
    · rw [Function.update_of_ne h, Function.update_of_ne h]
      exact H.executed w
  have hothers : ∀ w, w ≠ u → p.chat.connected w = true →
      lineReader.feed [] (Function.update s.sent u (s.sent u ++ chunk) w) =
        (Function.update s.executed u
          (s.executed u ++ p.executions.map fun e => (e.chat.users u).ibuf) w,
            (p.chat.users w).ibuf) := by
    intro w h hw
    obtain ⟨hbefore, hibuf⟩ := hserved.others w h hw
    rw [Function.update_of_ne h, Function.update_of_ne h]
    exact (H.here w hbefore).trans (congrArg (Prod.mk _) hibuf.symm)
  by_cases hrc : p.rc = -1
  · obtain ⟨hconn, hroom⟩ := hserved.closed hrc
    exact FramingInv.logout hserved.hall hlt hconn hroom hexecuted hothers (if_pos hrc)
  · rw [if_neg hrc]
    refine ⟨hserved.hall, hexecuted, fun w hw => ?_⟩
    by_cases h : w = u
    · obtain ⟨hall, hibuf⟩ := hserved.all hrc
      subst h
      dsimp only
      rw [Function.update_self, Function.update_self, hfeed, ← hall, ← hibuf hw]
      rfl
    · exact hothers w h hw

theorem FramingInv.step (H : FramingInv cfg s) (hok : Framed cfg s e) (h : s.step cfg e = some s') :
    FramingInv cfg s' := by
  cases e with
  | accept fd host =>
    unfold ChatServer.step at h
    dsimp only at h
    split at h
    case h_1 => cases h; exact H
    case h_2 i hi =>
      cases h
      have hfree := List.find?_some hi
      have hlt := List.mem_range.mp (List.mem_of_find?_eq_some hi)
      exact H.accept hlt (by simpa using hfree) fd host
  | recv unum chunk =>
    unfold ChatServer.step at h
    dsimp only at h
    split at h
    case isTrue hrecv =>
      cases h
      exact H.recv hrecv.1 hrecv.2.1 hok rfl
    case isFalse => cases h
  | hangup unum =>
    unfold ChatServer.step at h
    dsimp only at h
    split at h
    case isTrue hlost =>
      cases h
      have hleave : (exitRoom cfg { s.chat with replies := [] } unum .lostconn none).toHall =
          s.chat.toHall.leave unum := exitRoom_toHall
      refine @FramingInv.logout cfg unum _
        (exitRoom cfg { s.chat with replies := [] } unum .lostconn none)
        ?_ hlost.1 ?_ ?_ H.executed ?_ rfl
      · rw [hleave]
        exact H.hall.leave hlost.1 hlost.2
      · rw [hleave]
        exact Hall.connected_leave.trans hlost.2
      · rw [hleave, Hall.users_leave]
        rfl
      · intro w hw hconn
        rw [hleave] at hconn ⊢
        rw [Hall.users_leave_ne _ _ hw]
        exact H.here w (Hall.connected_leave.symm.trans hconn)
    case isFalse => cases h

/-- In every run of the server whose chunks are received undisturbed, after each event: the lines
executed for the client of a slot are, in order, lines that it has sent, and as long as the client
is connected they are all its lines. -/
theorem chat_lines (h : Reach (ChatServer.step cfg) (Framed cfg) (.start cfg) s) (u : Nat) :
    s.executed u <+: clientLines (s.sent u) ∧
      (s.chat.connected u = true → s.executed u = clientLines (s.sent u)) := by
  have H : FramingInv cfg s :=
    h.invariant (FramingInv cfg) framingInv_start fun _ _ _ H hok hstep => H.step hok hstep
  refine ⟨H.executed u, fun hu => ?_⟩
  rw [← lines_lineReader, H.here u hu]

/-- A user logs in and sends three lines, the second of which is cut into two chunks and prints
nothing. -/
def cutLineRun : List ChatEvent :=
  [.accept 5 [], .recv 0 (bytes "/!1 2 alice al 0\r\n"), .recv 0 (bytes "hello\r\n"),
    .recv 0 (bytes "/a"), .recv 0 (bytes "ct\r\n/who\r\n")]

theorem chat_lines_cut : ∃ s : ChatServer,
    s.executed 0 = clientLines (s.sent 0) ∧ (s.executed 0).length = 4 := by
  obtain ⟨s, hs, hreach⟩ :=
    @Reach.of_meets _ _ (ChatServer.step demoConfig) (Framed demoConfig) (.start demoConfig)
      cutLineRun (by decide +kernel)
  have hend : (cutLineRun.foldlM (ChatServer.step demoConfig) (.start demoConfig)).map
      (fun s => (s.chat.connected 0, (s.executed 0).length)) = some (true, 4) := by decide +kernel
  rw [hs] at hend
  obtain ⟨hconn, hlen⟩ := Prod.mk.inj (Option.some.inj hend)
  exact ⟨s, (chat_lines hreach 0).2 hconn, hlen⟩

/-- A user sends an unknown command and a greeting in one chunk. -/
def lostLineRun : List ChatEvent :=
  [.accept 5 [], .recv 0 (bytes "/!1 2 alice al 0\n"), .recv 0 (bytes "/zzz\nhello\n")]

/-- The answer to the command has been printed over the greeting, which is not executed. -/
theorem chat_lines_lost : ∃ s : ChatServer,
    Reach (ChatServer.step demoConfig) (fun _ _ => True) (.start demoConfig) s ∧
      s.chat.connected 0 = true ∧
      clientLines (s.sent 0) = [bytes "/!1 2 alice al 0", bytes "/zzz", bytes "hello"] ∧
      s.executed 0 = [bytes "/!1 2 alice al 0", bytes "/zzz"] := by
  obtain ⟨s, hs, hreach⟩ :=
    @Reach.of_meets _ _ (ChatServer.step demoConfig) (fun _ _ => True) (.start demoConfig)
      lostLineRun (by decide +kernel)
  have hend : (lostLineRun.foldlM (ChatServer.step demoConfig) (.start demoConfig)).map
      (fun s => (s.chat.connected 0, clientLines (s.sent 0), s.executed 0)) =
        some (true, [bytes "/!1 2 alice al 0", bytes "/zzz", bytes "hello"],
          [bytes "/!1 2 alice al 0", bytes "/zzz"]) := by decide +kernel
  rw [hs] at hend
  obtain ⟨hconn, hend⟩ := Prod.mk.inj (Option.some.inj hend)
  obtain ⟨hsent, hexecuted⟩ := Prod.mk.inj hend
  exact ⟨s, hreach, hconn, hsent, hexecuted⟩

end

end ArgoBbs

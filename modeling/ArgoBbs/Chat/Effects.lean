import ArgoBbs.Chat.Server

/-! # What a line can do

Every line of a user does to the tables of the server one of the things that `LineEffect` lists
(`commandExecute_effect`). What holds of the rooms and of the rights of users is proved from these,
and no later proof looks at the commands again. -/

namespace ArgoBbs

namespace Hall
variable (s : Hall) (u v : Nat) (r : Int)

/-- `exit_room`. -/
def leave : Hall :=
  (if (s.users v).room ≠ -1 then s.setRoom (s.users v).room ChatRoom.left else s).setUser v
    ChatUser.outside

/-- The user is seated in the room, as its operator if `op`. -/
def seat (op : Bool) : Hall :=
  (s.setUser v (ChatUser.inside r op)).setRoom r (ChatRoom.entered v)

/-- The room is locked for the user. -/
def barred : Bool := !s.sysop v && (s.locked r && !(s.rooms r).invites v)

/-- `enter_room` once the room has been found. -/
def tryEnter (op : Bool) : Hall := if s.barred v r then s else (s.leave v).seat v r op

/-- `logout_user`. -/
def logout : Hall where
  users := Function.update s.users v ChatUser.gone
  rooms := fun r => { s.rooms r with invites := Function.update (s.rooms r).invites v false }
  numConns := s.numConns - 1

@[simp] theorem users_leave : (s.leave v).users v = (s.users v).outside := by
  unfold leave
  split <;> exact users_setUser ..

theorem users_leave_ne {w : Nat} (h : w ≠ v) : (s.leave v).users w = s.users w := by
  unfold leave
  split <;> exact users_setUser_ne _ _ h

theorem rooms_leave : (s.leave v).rooms r =
    if r = (s.users v).room ∧ r ≠ -1 then (s.rooms r).left else s.rooms r := by
  unfold leave
  split
  case isTrue hroom =>
    by_cases hr : r = (s.users v).room
    · rw [if_pos ⟨hr, hr ▸ hroom⟩, hr]
      exact rooms_setRoom ..
    · rw [if_neg fun h => hr h.1]
      exact rooms_setRoom_ne _ _ hr
  case isFalse hroom =>
    have hr : ¬ (r = (s.users v).room ∧ r ≠ -1) := fun h => hroom (h.1 ▸ h.2)
    rw [if_neg hr]
    rfl

@[simp] theorem users_seat {op : Bool} : (s.seat v r op).users v = (s.users v).inside r op :=
  users_setUser ..

theorem users_seat_ne {op : Bool} {w : Nat} (h : w ≠ v) : (s.seat v r op).users w = s.users w :=
  users_setUser_ne _ _ h

@[simp] theorem rooms_seat {op : Bool} : (s.seat v r op).rooms r = (s.rooms r).entered v :=
  rooms_setRoom ..

theorem rooms_seat_ne {op : Bool} {r' : Int} (h : r' ≠ r) : (s.seat v r op).rooms r' = s.rooms r' :=
  rooms_setRoom_ne _ _ h

/-- The line in the input buffer of the user is the command with a name as its first word, and the
name is that of `v`. -/
def Names (cfg : ChatConfig) (command : ChatCmd) : Prop :=
  ∃ msg, parseLine (s.users u).line = .command command msg ∧
    chatidToIndx cfg s u (nextword msg).1 = some v

end Hall

instance (s : Hall) (u v : Nat) (cfg : ChatConfig) (command : ChatCmd) :
    Decidable (s.Names u v cfg command) :=
  match h : parseLine (s.users u).line with
  | .command c msg =>
    if hc : c = command ∧ chatidToIndx cfg s u (nextword msg).1 = some v then
      isTrue ⟨msg, hc.1 ▸ h, hc.2⟩
    else isFalse fun ⟨msg', h', hv⟩ => by
      rw [h] at h'
      cases h'
      exact hc ⟨rfl, hv⟩
  | .say _ => isFalse fun ⟨_, h', _⟩ => by rw [h] at h'; cases h'
  | .social _ _ => isFalse fun ⟨_, h', _⟩ => by rw [h] at h'; cases h'
  | .unknown _ => isFalse fun ⟨_, h', _⟩ => by rw [h] at h'; cases h'

/-- A change of the user's own fields that concerns neither the connection nor the room nor rights
in rooms. -/
structure KeepsSeat (w w' : ChatUser) : Prop where
  sockfd : w'.sockfd = w.sockfd
  room : w'.room = w.room
  flags : w'.flags = w.flags ∨ w'.flags = w.flags ^^^ permMessage

/-- A change of the topic or the flags of a room. -/
structure KeepsUsers (r r' : ChatRoom) : Prop where
  name : r'.name = r.name
  occupants : r'.occupants = r.occupants
  invites : r'.invites = r.invites

/-- The user keeps his chat id, or takes one that `chat_nick` accepts. -/
def NameAccepted (cfg : ChatConfig) (s : Hall) (u : Nat) (chatid : Bytes) : Prop :=
  chatid = (s.users u).chatid ∨
    ∃ msg, parseLine (s.users u).line = .command .nick msg ∧
      chatid = (nextword msg).1.take (chatIdLen - 1) ∧ isValidChatid chatid = true ∧
      (chatidToIndx cfg s 0 chatid = none ∨ chatidToIndx cfg s 0 chatid = some u)

/-- What a line of the user `u` can do to the tables. -/
inductive LineEffect (cfg : ChatConfig) (s : Hall) (u : Nat) : Hall → Prop
  | nothing : LineEffect cfg s u s
  | own {f : ChatUser → ChatUser} : KeepsSeat (s.users u) (f (s.users u)) →
    NameAccepted cfg s u (f (s.users u)).chatid → LineEffect cfg s u (s.setUser u f)
  | rule {f : ChatRoom → ChatRoom} : s.mayRule u →
    KeepsUsers (s.rooms (s.users u).room) (f (s.rooms (s.users u).room)) →
    LineEffect cfg s u (s.setRoom (s.users u).room f)
  | talk {v : Nat} : s.mayRule u → s.Names u v cfg .talk → u ≠ v →
    LineEffect cfg s u (s.setUser v (ChatUser.toggle permTalk))
  | operator {v : Nat} : s.mayRule u → s.Names u v cfg .operator → u ≠ v →
    (s.users u).room = (s.users v).room →
    LineEffect cfg s u ((s.setUser u ChatUser.dropOp).setUser v ChatUser.takeOp)
  | invite {v : Nat} : s.mayRule u → s.Names u v cfg .invite →
    LineEffect cfg s u (s.setRoom (s.users u).room (ChatRoom.invite v))
  | bye : LineEffect cfg s u (s.leave u)
  | join {r : Nat} : r < maxRoom → r = 0 ∨ (s.rooms r).occupants ≠ 0 →
    LineEffect cfg s u (s.tryEnter u r false)
  | create {r : Nat} {room msg : Bytes} : 0 < r → r < maxRoom → (s.rooms r).occupants = 0 →
    parseLine (s.users u).line = .command .join msg → room = (nextword msg).1 →
    s.restricted u = false → isValidChatid room = true → s.outsider u = false →
    roomidToIndx s room = none →
      LineEffect cfg s u ((s.setRoom r (ChatRoom.create cfg room)).tryEnter u r true)
  | kick {v : Nat} : s.mayRule u → s.Names u v cfg .kick → (s.users u).room = (s.users v).room →
    (s.users u).room ≠ 0 → LineEffect cfg s u ((s.leave v).tryEnter v 0 false)
  | kickOut {v : Nat} : s.mayRule u → s.Names u v cfg .kick → (s.users u).room = 0 →
    (s.users v).room = 0 → LineEffect cfg s u ((s.leave v).logout v)
  | login {flags : BitVec 32} {cloak utent : Int} {userid chatid msg : Bytes} :
    (s.users u).room = -1 → (s.users u).line = 47 :: 33 :: msg →
    loginAnswer cfg s u msg = .ok flags cloak utent userid chatid →
    LineEffect cfg s u
      ((s.setUser u (ChatUser.loggedIn flags cloak utent userid chatid)).tryEnter u 0 false)

section
variable {cfg : ChatConfig} {s : Hall} {u v : Nat}

theorem chatidToIndx_spec {chatid : Bytes} (h : chatidToIndx cfg s u chatid = some v) :
    v < cfg.maxActive ∧ s.connected v = true := by
  have hp := List.find?_some h
  simp only [Bool.and_eq_true] at hp
  exact ⟨List.mem_range.mp (List.mem_of_find?_eq_some h), hp.1.1⟩

theorem Hall.Names.spec {command : ChatCmd} (h : s.Names u v cfg command) :
    v < cfg.maxActive ∧ s.connected v = true := by
  obtain ⟨msg, -, hv⟩ := h
  exact chatidToIndx_spec hv

theorem roomidToIndx_spec {roomid : Bytes} {r : Nat} (h : roomidToIndx s roomid = some r) :
    r < maxRoom ∧ (r = 0 ∨ (s.rooms r).occupants ≠ 0) := by
  have hp := List.find?_some h
  simp only [Bool.and_eq_true, Bool.or_eq_true, decide_eq_true_eq] at hp
  exact ⟨List.mem_range.mp (List.mem_of_find?_eq_some h), hp.1⟩

theorem freeRoom_spec {r : Nat} (h : freeRoom s = some r) :
    0 < r ∧ r < maxRoom ∧ (s.rooms r).occupants = 0 := by
  have hp := List.find?_some h
  simp only [Bool.and_eq_true, decide_eq_true_eq] at hp
  exact ⟨Nat.pos_of_ne_zero hp.1, List.mem_range.mp (List.mem_of_find?_eq_some h), hp.2⟩

/-- The main room is found by its name. -/
theorem roomidToIndx_main (h : (s.rooms 0).name = mainroom) :
    roomidToIndx s mainroom = some 0 := by
  have hname : strcasecmpEq mainroom (s.rooms 0).name = true := by
    rw [h]
    rfl
  rw [roomidToIndx, show List.range maxRoom = 0 :: (List.range 31).map (· + 1) from rfl,
    List.find?_cons_of_pos]
  simpa using hname

end

/-! ## Sending leaves the tables alone -/

section
variable {cfg : ChatConfig} {s : Hall} {u v : Nat} {r r' : Int}

theorem Hall.connected_setUser (f : ChatUser → ChatUser) (hf : ∀ w, (f w).sockfd = w.sockfd) :
    (s.setUser v f).connected u = s.connected u := by
  unfold connected
  by_cases h : u = v
  · rw [h, users_setUser, hf]
  · rw [users_setUser_ne _ _ h]

theorem Hall.connected_leave : (s.leave v).connected u = s.connected u := by
  unfold leave
  split
  · exact connected_setUser ChatUser.outside fun _ => rfl
  · exact connected_setUser ChatUser.outside fun _ => rfl

theorem Hall.connected_seat {op : Bool} : (s.seat v r op).connected u = s.connected u :=
  connected_setUser (ChatUser.inside r op) fun _ => rfl

theorem Hall.name_setRoom (f : ChatRoom → ChatRoom) (hf : ∀ r, (f r).name = r.name) :
    ((s.setRoom r f).rooms r').name = (s.rooms r').name := by
  by_cases h : r' = r
  · rw [h, rooms_setRoom, hf]
  · rw [rooms_setRoom_ne _ _ h]

theorem Hall.name_leave : ((s.leave v).rooms r).name = (s.rooms r).name := by
  unfold leave
  split
  · exact name_setRoom ChatRoom.left fun _ => rfl
  · rfl

theorem Hall.setRoom_setRoom (f g : ChatRoom → ChatRoom) :
    (s.setRoom r f).setRoom r g = s.setRoom r (g ∘ f) := by
  simp [setRoom, Function.update_idem]

theorem Hall.setUser_setUser (f g : ChatUser → ChatUser) :
    (s.setUser v f).setUser v g = s.setUser v (g ∘ f) := by
  simp [setUser, Function.update_idem]

end

/-- Only texts have been sent, to slots with a connection. -/
structure Quiet (s s' : Chat) : Prop where
  toHall : s'.toHall = s.toHall
  stale : s'.stale = s.stale

namespace Quiet
variable {cfg : ChatConfig} {s s' s'' : Chat} {v : Nat}

theorem refl : Quiet s s := ⟨rfl, rfl⟩

theorem trans (h : Quiet s s') (h' : Quiet s' s'') : Quiet s s'' :=
  ⟨h'.toHall.trans h.toHall, h'.stale.trans h.stale⟩

theorem use (h : Quiet s s') (hv : s.connected v = true) : Quiet s (s'.use v) := by
  refine ⟨h.toHall, ?_⟩
  rw [Chat.use, h.toHall, hv]
  exact (Bool.or_false _).trans h.stale

theorem sendToUnum (h : Quiet s s') (hv : s.connected v = true) (text : Bytes) :
    Quiet s (s'.sendToUnum v text) := ⟨h.toHall, (h.use hv).stale⟩

theorem printToUnum (h : Quiet s s') (hv : s.connected v = true) (text : Bytes) :
    Quiet s (s'.printToUnum v text) := ⟨h.toHall, (h.use hv).stale⟩

theorem printToRoom (h : Quiet s s') (room : Int) (text : Bytes) :
    Quiet s (s'.printToRoom cfg room text) := ⟨h.toHall, h.stale⟩

theorem format (h : Quiet s s') (text : Bytes) : Quiet s (s'.format text) := ⟨h.toHall, h.stale⟩

theorem foldl {α : Type} {f : Chat → α → Chat} {as : List α} (h : Quiet s s')
    (hf : ∀ a ∈ as, ∀ s', Quiet s s' → Quiet s (f s' a)) : Quiet s (as.foldl f s') := by
  induction as generalizing s' with
  | nil => exact h
  | cons a as ih =>
    exact ih (hf a List.mem_cons_self s' h) fun b hb => hf b (List.mem_cons_of_mem a hb)

theorem printAll (h : Quiet s s') (hv : s.connected v = true) (texts : List Bytes) :
    Quiet s (s'.printAll v texts) :=
  h.foldl fun text _ _ h => h.printToUnum hv text

end Quiet

/-- What has been done for a line: it is one of the effects, and every slot used had a
connection. -/
structure Does (cfg : ChatConfig) (u : Nat) (s s' : Chat) : Prop where
  effect : LineEffect cfg s.toHall u s'.toHall
  stale : s'.stale = s.stale

section
variable {cfg : ChatConfig} {s s' s'' : Chat} {u : Nat}

theorem Quiet.does (h : Quiet s s') : Does cfg u s s' := ⟨h.toHall ▸ .nothing, h.stale⟩

theorem Does.andThen (h : Does cfg u s s') (h' : Quiet s' s'') : Does cfg u s s'' :=
  ⟨h'.toHall ▸ h.effect, h'.stale.trans h.stale⟩

end

/-! ## Rooms -/

section
variable {cfg : ChatConfig} {s : Chat} {u v : Nat} {disp : ExitDisp} {msg : Option Bytes} {r : Int}
  {op : Bool} {room : Bytes}

theorem exitRoom_toHall : (exitRoom cfg s v disp msg).toHall = s.toHall.leave v := by
  unfold exitRoom Hall.leave
  dsimp only
  split
  · split
    · split <;> rfl
    · rfl
  · rfl

theorem exitRoom_stale : (exitRoom cfg s v disp msg).stale = s.stale := by
  unfold exitRoom
  dsimp only
  split
  · split
    · split <;> rfl
    · rfl
  · rfl

theorem announceEntry_quiet (hv : s.connected v = true) : Quiet s (announceEntry cfg s v r room) := by
  unfold announceEntry
  dsimp only
  split
  · exact ((Quiet.refl.printToRoom _ _).printToUnum hv _).printToUnum hv _
  · exact (Quiet.refl.printToUnum hv _).printToUnum hv _

/-- What `enter_room` does once the room has been found. -/
theorem enterFound_spec (hv : s.connected v = true) :
    (enterFound cfg s v r op room msg).toHall = s.toHall.tryEnter v r op ∧
      (enterFound cfg s v r op room msg).stale = s.stale := by
  unfold enterFound Hall.tryEnter
  change (if s.barred v r then _ else _ : Chat).toHall = _ ∧
    (if s.barred v r then _ else _ : Chat).stale = _
  split
  · exact ⟨rfl, (Quiet.refl.sendToUnum hv _).stale⟩
  · dsimp only
    have hseat : ((exitRoom cfg s v .logout msg).setUser v (ChatUser.inside r op)).setRoom r
        (ChatRoom.entered v) =
          { exitRoom cfg s v .logout msg with toHall := (s.toHall.leave v).seat v r op } := by
      rw [← @exitRoom_toHall cfg s v .logout msg]
      rfl
    have hconn : ((s.toHall.leave v).seat v r op).connected v = true := by
      rw [Hall.connected_seat, Hall.connected_leave, hv]
    rw [hseat]
    obtain ⟨htoHall, hstale⟩ := @announceEntry_quiet cfg
      { exitRoom cfg s v .logout msg with toHall := (s.toHall.leave v).seat v r op } v r room hconn
    exact ⟨htoHall, hstale.trans exitRoom_stale⟩

/-- Entering the main room, which exists. -/
theorem enterRoom_main_spec (hv : s.connected v = true) (hmain : (s.rooms 0).name = mainroom) :
    (enterRoom cfg s v mainroom msg).toHall = s.toHall.tryEnter v 0 false ∧
      (enterRoom cfg s v mainroom msg).stale = s.stale := by
  rw [enterRoom, roomidToIndx_main hmain]
  exact enterFound_spec hv

theorem enterRoom_does (hu : s.connected u = true) {line : Bytes}
    (hline : parseLine (s.users u).line = .command .join line) (hroom : room = (nextword line).1)
    (hrestricted : s.restricted u = false) (hvalid : isValidChatid room = true) :
    Does cfg u s (enterRoom cfg s u room msg) := by
  unfold enterRoom
  split
  case h_1 r hr =>
    obtain ⟨hlt, hr⟩ := roomidToIndx_spec hr
    obtain ⟨htoHall, hstale⟩ := @enterFound_spec cfg s u msg r false room hu
    exact ⟨htoHall ▸ .join hlt hr, hstale⟩
  case h_2 hnew =>
    split
    · exact (Quiet.refl.sendToUnum hu _).does
    case isFalse houtsider =>
      split
      case h_1 r hr =>
        obtain ⟨hpos, hlt, hr⟩ := freeRoom_spec hr
        obtain ⟨htoHall, hstale⟩ :=
          @enterFound_spec cfg (s.setRoom r (ChatRoom.create cfg room)) u msg r true room hu
        exact ⟨htoHall ▸ .create hpos hlt hr hline hroom hrestricted hvalid
          (Bool.eq_false_iff.mpr houtsider) hnew, hstale⟩
      case h_2 => exact (Quiet.refl.sendToUnum hu _).does

theorem logoutUser_spec (hv : s.connected v = true) :
    (logoutUser s v).toHall = s.toHall.logout v ∧ (logoutUser s v).stale = s.stale :=
  ⟨rfl, (Quiet.refl.use hv).stale⟩

end

/-! ## The commands -/

section
variable {cfg : ChatConfig} {s : Chat} {u : Nat} {msg : Bytes}

theorem Does.own {f : ChatUser → ChatUser} (h : KeepsSeat (s.users u) (f (s.users u)))
    (hname : NameAccepted cfg s.toHall u (f (s.users u)).chatid) : Does cfg u s (s.setUser u f) :=
  ⟨.own h hname, rfl⟩

theorem mayRule_of_not (h : ¬ (!s.mayRule u) = true) : s.mayRule u = true := by
  simpa using h

theorem chatDoUserList_quiet (hu : s.connected u = true) (whichroom : Int) :
    Quiet s (chatDoUserList cfg s u msg whichroom) :=
  (Quiet.refl.sendToUnum hu _).printAll hu _

theorem chatMapChatids_quiet (hu : s.connected u = true) (whichroom : Int) :
    Quiet s (chatMapChatids cfg s u whichroom) :=
  (Quiet.refl.sendToUnum hu _).printAll hu _

theorem chatListRooms_quiet (hu : s.connected u = true) : Quiet s (chatListRooms s u) := by
  unfold chatListRooms
  split
  · exact Quiet.refl.sendToUnum hu _
  · exact (Quiet.refl.sendToUnum hu _).printAll hu _

theorem chatListByRoom_quiet (hu : s.connected u = true) : Quiet s (chatListByRoom cfg s u msg) := by
  unfold chatListByRoom
  dsimp only
  split
  · exact chatDoUserList_quiet hu _
  · split
    · exact Quiet.refl.printToUnum hu _
    · split
      · exact Quiet.refl.sendToUnum hu _
      · exact chatDoUserList_quiet hu _

theorem chatRename_quiet (hu : s.connected u = true) : Quiet s (chatRename cfg s u msg) := by
  unfold chatRename
  split
  · exact Quiet.refl.sendToUnum hu _
  · split
    · exact Quiet.refl.sendToUnum hu _
    · exact (Quiet.refl.printToRoom _ _).printToRoom _ _

theorem chatTopic_does (hu : s.connected u = true) : Does cfg u s (chatTopic cfg s u msg) := by
  unfold chatTopic
  split
  · exact (Quiet.refl.sendToUnum hu _).does
  case isFalse hrule =>
    split
    · exact (Quiet.refl.sendToUnum hu _).does
    · have hset : Does cfg u s (s.setRoom (s.users u).room (ChatRoom.setTopic (msg.take 42))) :=
        ⟨.rule (mayRule_of_not hrule) ⟨rfl, rfl, rfl⟩, rfl⟩
      exact hset.andThen ((Quiet.refl.printToRoom _ _).printToRoom _ _)

/-- The state comes from `s` by changes of the topic and the flags of the user's room. -/
def Ruled (u : Nat) (s s' : Chat) : Prop :=
  ∃ f, s'.toHall = s.toHall.setRoom (s.users u).room f ∧ ∀ r, KeepsUsers r (f r)

theorem Ruled.does {s' : Chat} (h : Ruled u s s') (hrule : s.mayRule u = true)
    (hstale : s'.stale = s.stale) : Does cfg u s s' := by
  obtain ⟨f, hs', hf⟩ := h
  exact ⟨hs' ▸ .rule hrule (hf _), hstale⟩

theorem Ruled.toggle {s' : Chat} (h : Ruled u s s') (flag : BitVec 16) :
    Ruled u s (s'.setRoom (s.users u).room (ChatRoom.toggle flag)) := by
  obtain ⟨f, hs', hf⟩ := h
  refine ⟨ChatRoom.toggle flag ∘ f, ?_, fun r => ⟨(hf r).name, (hf r).occupants, (hf r).invites⟩⟩
  rw [← Hall.setRoom_setRoom, ← hs']
  rfl

theorem setroomLoop_does {sign : Bool} {modestr : Bytes} {s' : Chat} (hu : s.connected u = true)
    (hrule : s.mayRule u = true) (h : Ruled u s s') (hstale : s'.stale = s.stale) :
    Does cfg u s (setroomLoop cfg u (s.users u).room sign modestr s') := by
  induction modestr generalizing s' with
  | nil => exact h.does hrule hstale
  | cons c modestr ih =>
    unfold setroomLoop
    cases roomMode c with
    | none =>
      have hconn : s'.connected u = true := by
        obtain ⟨f, hs', -⟩ := h
        rw [hs']
        exact hu
      exact (h.does hrule hstale).andThen (Quiet.refl.printToUnum hconn _)
    | some mode =>
      dsimp only
      by_cases hflip : (s'.rooms (s.users u).room).flags &&& mode.1 ≠ (if sign then mode.1 else 0)
      · rw [if_pos hflip]
        exact ih (h.toggle mode.1) hstale
      · rw [if_neg hflip]
        exact ih h hstale

theorem chatSetroom_does (hu : s.connected u = true) : Does cfg u s (chatSetroom cfg s u msg) := by
  have hsame : Ruled u s s := ⟨id, by simp [Hall.setRoom], fun _ => ⟨rfl, rfl, rfl⟩⟩
  unfold chatSetroom
  split
  · exact (Quiet.refl.sendToUnum hu _).does
  case isFalse hrule =>
    dsimp only
    split
    · exact (Quiet.refl.sendToUnum hu _).does
    · exact setroomLoop_does hu (mayRule_of_not hrule) hsame rfl

theorem cutHost_keepsSeat (pos : Nat) (w : ChatUser) : KeepsSeat w (w.cutHost pos) := by
  unfold ChatUser.cutHost
  split
  · exact ⟨rfl, rfl, .inl rfl⟩
  · exact ⟨rfl, rfl, .inl rfl⟩

theorem cutHost_chatid (pos : Nat) (w : ChatUser) : (w.cutHost pos).chatid = w.chatid := by
  unfold ChatUser.cutHost
  split <;> rfl

/-- Finding a user by his chat id depends on the connections, the chat ids, the cloaks and the
rights of the one who asks. -/
theorem chatidToIndx_congr {s s' : Hall} {u : Nat} {chatid : Bytes}
    (husers : ∀ w, s'.connected w = s.connected w ∧ (s'.users w).chatid = (s.users w).chatid ∧
      (s'.users w).cloak = (s.users w).cloak) (hcloak : s'.cloak u = s.cloak u) :
    chatidToIndx cfg s' u chatid = chatidToIndx cfg s u chatid := by
  unfold chatidToIndx
  congr 1
  funext i
  rw [(husers i).1, (husers i).2.1, (husers i).2.2, hcloak]

theorem chatidToIndx_cutHost {s : Hall} {u v pos : Nat} {chatid : Bytes} :
    chatidToIndx cfg (s.setUser v (ChatUser.cutHost pos)) u chatid = chatidToIndx cfg s u chatid := by
  have hsame : ∀ w : ChatUser, (w.cutHost pos).cloak = w.cloak ∧ (w.cutHost pos).flags = w.flags := by
    intro w
    unfold ChatUser.cutHost
    split <;> exact ⟨rfl, rfl⟩
  have husers : ∀ w, ((s.setUser v (ChatUser.cutHost pos)).users w).chatid = (s.users w).chatid ∧
      ((s.setUser v (ChatUser.cutHost pos)).users w).cloak = (s.users w).cloak ∧
      ((s.setUser v (ChatUser.cutHost pos)).users w).flags = (s.users w).flags := by
    intro w
    by_cases hw : w = v
    · rw [hw, Hall.users_setUser]
      exact ⟨cutHost_chatid _ _, hsame _⟩
    · rw [Hall.users_setUser_ne _ _ hw]
      exact ⟨rfl, rfl, rfl⟩
  refine chatidToIndx_congr (fun w => ⟨?_, (husers w).1, (husers w).2.1⟩) ?_
  · exact Hall.connected_setUser _ fun w => (cutHost_keepsSeat pos w).sockfd
  · rw [Hall.cloak, Hall.has, (husers u).2.2, Hall.cloak, Hall.has]

theorem chatNick_does (hu : s.connected u = true)
    (hline : parseLine (s.users u).line = .command .nick msg) :
    Does cfg u s (chatNick cfg s u msg) := by
  unfold chatNick
  dsimp only
  obtain ⟨pos, hpos⟩ : ∃ pos, pos = (s.users u).line.length - (msg.dropWhile isspace).length :=
    ⟨_, rfl⟩
  rw [← hpos]
  have hcut : Does cfg u s (s.setUser u (ChatUser.cutHost pos)) :=
    .own (cutHost_keepsSeat pos _) (.inl (cutHost_chatid pos _))
  have hconn : (s.setUser u (ChatUser.cutHost pos)).connected u = true :=
    (Hall.connected_setUser _ fun w => (cutHost_keepsSeat pos w).sockfd).trans hu
  split
  · exact hcut.andThen (Quiet.refl.sendToUnum hconn _)
  case isFalse hvalid =>
    split
    · exact hcut.andThen (Quiet.refl.sendToUnum hconn _)
    case isFalse hfree =>
      have hname : NameAccepted cfg s.toHall u ((nextword msg).1.take (chatIdLen - 1)) := by
        refine .inr ⟨msg, hline, rfl, by simpa using hvalid, ?_⟩
        rw [not_and_or, not_not, not_not] at hfree
        exact hfree.imp (fun h => chatidToIndx_cutHost.symm.trans h)
          fun h => chatidToIndx_cutHost.symm.trans h
      refine Does.andThen ?_ (Quiet.refl.printToUnum ?_ _)
      · refine ⟨?_, rfl⟩
        change LineEffect cfg s.toHall u ((s.toHall.setUser u _).setUser u _)
        rw [Hall.setUser_setUser]
        have hkeep := cutHost_keepsSeat pos (s.users u)
        exact .own ⟨hkeep.sockfd, hkeep.room, hkeep.flags⟩ hname
      · exact (Hall.connected_setUser (ChatUser.rename _) fun _ => rfl).trans hconn

theorem fuzzyLoop_connected {s : Hall} {chatid : Bytes} {i : Nat} (is : List Nat) (indx : Option Nat)
    (hindx : ∀ j, indx = some j → s.connected j = true) (h : fuzzyLoop s chatid is indx = .found i) :
    s.connected i = true := by
  induction is generalizing indx with
  | nil =>
    cases indx with
    | none => cases h
    | some j =>
      cases h
      exact hindx i rfl
  | cons j rest ih =>
    unfold fuzzyLoop at h
    dsimp only at h
    split at h
    case isTrue hj =>
      rw [Bool.and_eq_true] at hj
      split at h
      · cases h
        exact hj.1
      · cases indx with
        | none => exact ih (some j) (fun k hk => Option.some.inj hk ▸ hj.1) h
        | some _ => cases h
    case isFalse => exact ih indx hindx h

theorem fuzzyChatidToIndx_connected {s : Hall} {chatid : Bytes} {i : Nat}
    (h : fuzzyChatidToIndx cfg s u chatid = .found i) : s.connected i = true := by
  unfold fuzzyChatidToIndx at h
  split at h
  case h_1 j hj =>
    split at h
    · cases h
      exact fuzzyLoop_connected _ none nofun hj
    · cases h
  case h_2 hother => exact absurd h (hother i)

theorem chatPrivate_quiet (hu : s.connected u = true) : Quiet s (chatPrivate cfg s u msg) := by
  unfold chatPrivate
  dsimp only
  split
  · exact Quiet.refl.printToUnum hu _
  · exact Quiet.refl.printToUnum hu _
  case h_3 recunum hrec =>
    split
    · exact Quiet.refl.printToUnum hu _
    · split
      · exact (Quiet.refl.printToUnum (fuzzyChatidToIndx_connected hrec) _).printToUnum hu _
      · exact Quiet.refl.printToUnum hu _

theorem chatAllmsg_quiet : Quiet s (chatAllmsg cfg s u msg) := by
  unfold chatAllmsg
  split
  · exact Quiet.refl.printToRoom _ _
  · exact .refl

theorem chatAct_quiet (hu : s.connected u = true) : Quiet s (chatAct cfg s u msg) := by
  unfold chatAct
  split
  · exact Quiet.refl.sendToUnum hu _
  · split
    · exact Quiet.refl.printToRoom _ _
    · exact .refl

theorem chatCloak_does (hu : s.connected u = true) : Does cfg u s (chatCloak s u) := by
  unfold chatCloak
  split
  · have hconn : (s.setUser u ChatUser.toggleCloak).connected u = true :=
      (Hall.connected_setUser ChatUser.toggleCloak fun _ => rfl).trans hu
    exact (Does.own ⟨rfl, rfl, .inl rfl⟩ (.inl rfl)).andThen (Quiet.refl.printToUnum hconn _)
  · exact Quiet.refl.does

theorem chatPaper_does (hu : s.connected u = true) : Does cfg u s (chatPaper s u) := by
  have hconn : (s.setUser u (ChatUser.toggle permMessage)).connected u = true :=
    (Hall.connected_setUser (ChatUser.toggle permMessage) fun _ => rfl).trans hu
  exact (Does.own ⟨rfl, rfl, .inr rfl⟩ (.inl rfl)).andThen (Quiet.refl.printToUnum hconn _)

theorem chatJoin_does (hu : s.connected u = true)
    (hline : parseLine (s.users u).line = .command .join msg) :
    Does cfg u s (chatJoin cfg s u msg) := by
  unfold chatJoin
  dsimp only
  split
  · exact (Quiet.refl.sendToUnum hu _).does
  case isFalse hrestricted =>
    split
    · exact (Quiet.refl.sendToUnum hu _).does
    · split
      · exact (Quiet.refl.sendToUnum hu _).does
      case isFalse hvalid =>
        exact enterRoom_does hu hline rfl (Bool.eq_false_iff.mpr hrestricted) (by simpa using hvalid)

theorem chatKick_does (hu : s.connected u = true) (hmain : (s.rooms 0).name = mainroom)
    (hline : parseLine (s.users u).line = .command .kick msg) :
    Does cfg u s (chatKick cfg s u msg) := by
  unfold chatKick
  dsimp only
  split
  · exact (Quiet.refl.sendToUnum hu _).does
  case isFalse hrule =>
    split
    · exact (Quiet.refl.printToUnum hu _).does
    case h_2 v hv =>
      have hname : s.toHall.Names u v cfg .kick := ⟨msg, hline, hv⟩
      have hleft : (exitRoom cfg s v .kick none).connected v = true := by
        rw [exitRoom_toHall, Hall.connected_leave, hname.spec.2]
      split
      · exact (Quiet.refl.printToUnum hu _).does
      case isFalse hroom =>
        have hroom := not_not.mp hroom
        split
        case isTrue hzero =>
          obtain ⟨htoHall, hstale⟩ := logoutUser_spec hleft
          rw [exitRoom_toHall] at htoHall
          exact ⟨htoHall ▸ .kickOut (mayRule_of_not hrule) hname hzero (hroom ▸ hzero),
            hstale.trans exitRoom_stale⟩
        case isFalse hzero =>
          have hmain : ((exitRoom cfg s v .kick none).rooms 0).name = mainroom := by
            rw [exitRoom_toHall, Hall.name_leave, hmain]
          obtain ⟨htoHall, hstale⟩ := @enterRoom_main_spec cfg _ v none hleft hmain
          rw [exitRoom_toHall] at htoHall
          exact ⟨htoHall ▸ .kick (mayRule_of_not hrule) hname hroom hzero,
            hstale.trans exitRoom_stale⟩

theorem chatMakeop_does (hu : s.connected u = true)
    (hline : parseLine (s.users u).line = .command .operator msg) :
    Does cfg u s (chatMakeop cfg s u msg) := by
  unfold chatMakeop
  dsimp only
  split
  · exact (Quiet.refl.sendToUnum hu _).does
  case isFalse hrule =>
    split
    · exact (Quiet.refl.printToUnum hu _).does
    case h_2 v hv =>
      split
      · exact (Quiet.refl.printToUnum hu _).does
      case isFalse hne =>
        split
        · exact (Quiet.refl.printToUnum hu _).does
        case isFalse hroom =>
          have hop : Does cfg u s ((s.setUser u ChatUser.dropOp).setUser v ChatUser.takeOp) :=
            ⟨.operator (mayRule_of_not hrule) ⟨msg, hline, hv⟩ hne (not_not.mp hroom), rfl⟩
          exact hop.andThen (Quiet.refl.printToRoom _ _)

theorem chatInvite_does (hu : s.connected u = true)
    (hline : parseLine (s.users u).line = .command .invite msg) :
    Does cfg u s (chatInvite cfg s u msg) := by
  unfold chatInvite
  dsimp only
  split
  · exact (Quiet.refl.sendToUnum hu _).does
  case isFalse hrule =>
    split
    · exact (Quiet.refl.printToUnum hu _).does
    case h_2 v hv =>
      have hname : s.toHall.Names u v cfg .invite := ⟨msg, hline, hv⟩
      split
      · exact (Quiet.refl.printToUnum hu _).does
      · have hinvite : Does cfg u s (s.setRoom (s.users u).room (ChatRoom.invite v)) :=
          ⟨.invite (mayRule_of_not hrule) hname, rfl⟩
        have hv : (s.setRoom (s.users u).room (ChatRoom.invite v)).connected v = true := hname.spec.2
        exact hinvite.andThen ((Quiet.refl.printToUnum hv _).printToUnum hu _)

theorem chatMaketalk_does (hu : s.connected u = true)
    (hline : parseLine (s.users u).line = .command .talk msg) :
    Does cfg u s (chatMaketalk cfg s u msg) := by
  unfold chatMaketalk
  dsimp only
  split
  · exact (Quiet.refl.sendToUnum hu _).does
  case isFalse hrule =>
    split
    · exact (Quiet.refl.printToUnum hu _).does
    case h_2 v hv =>
      split
      · exact (Quiet.refl.printToUnum hu _).does
      case isFalse hne =>
        have htalk : Does cfg u s (s.setUser v (ChatUser.toggle permTalk)) :=
          ⟨.talk (mayRule_of_not hrule) ⟨msg, hline, hv⟩ hne, rfl⟩
        exact htalk.andThen (Quiet.refl.printToRoom _ _)

theorem chatBroadcast_quiet (hu : s.connected u = true) : Quiet s (chatBroadcast cfg s u msg) := by
  unfold chatBroadcast
  split
  · exact Quiet.refl.sendToUnum hu _
  · split
    · exact Quiet.refl.sendToUnum hu _
    · exact (Quiet.refl.printToRoom _ _).printToRoom _ _

/-- Only users with rights are told, and slots without a connection have none. -/
theorem chatHand_quiet (hu : s.connected u = true)
    (hgone : ∀ i, s.connected i = false → (s.users i).flags = 0) : Quiet s (chatHand cfg s u) := by
  have hrulers : ∀ i ∈ (List.range cfg.maxActive).filter fun i => s.sysop i || s.roomop i,
      s.connected i = true := by
    intro i hi
    by_contra hc
    have hflags := hgone i (Bool.eq_false_iff.mpr hc)
    have hi := (List.mem_filter.mp hi).2
    simp [Hall.sysop, Hall.roomop, Hall.has, hflags] at hi
  unfold chatHand
  split
  · exact Quiet.refl.sendToUnum hu _
  · exact (Quiet.refl.foldl fun i hi _ h => h.printToUnum (hrulers i hi) _).printToUnum hu _

/-! ## Social commands -/

theorem perform_quiet (hu : s.connected u = true) (self : Bool) (text : Bytes) :
    Quiet s (s.perform cfg u self text) := by
  unfold Chat.perform
  split
  · exact ((Quiet.refl.sendToUnum hu _).printToUnum hu _).sendToUnum hu _
  · exact Quiet.refl.printToRoom _ _

theorem partyAction_quiet (hu : s.connected u = true) (cmd party : Bytes) (self : Bool) :
    Quiet s (partyAction cfg s u cmd party self).1 := by
  unfold partyAction
  split
  · exact .refl
  · dsimp only
    split
    · exact perform_quiet hu _ _
    · split
      · exact Quiet.refl.printToUnum hu _
      · exact Quiet.refl.printToUnum hu _
      · exact perform_quiet hu _ _

theorem speakAction_quiet (hu : s.connected u = true) (cmd msg : Bytes) (self : Bool) :
    Quiet s (speakAction cfg s u cmd msg self).1 := by
  unfold speakAction
  split
  · exact .refl
  · exact perform_quiet hu _ _

theorem conditionAction_quiet (hu : s.connected u = true) (cmd : Bytes) (self : Bool) :
    Quiet s (conditionAction cfg s u cmd self).1 := by
  unfold conditionAction
  split
  · exact .refl
  · exact perform_quiet hu _ _

/-- The connection is there after texts have been sent. -/
theorem Quiet.connected {s' : Chat} (h : Quiet s s') (hu : s.connected u = true) :
    s'.connected u = true := by
  rw [h.toHall]
  exact hu

theorem listVerbs_quiet (hu : s.connected u = true) (dscrb : Bytes) (verbs : List Bytes) :
    Quiet s (listVerbs s u dscrb verbs) := by
  have hhead : Quiet s ((s.format []).sendToUnum u dscrb) := (Quiet.refl.format _).sendToUnum hu _
  have hrows := hhead.foldl fun row (_ : row ∈ (verbRows verbs).1) s' h =>
    (h.printToUnum hu row).format []
  unfold listVerbs
  dsimp only
  split
  · exact (hrows.printToUnum hu _).sendToUnum hu _
  · exact (hrows.format _).sendToUnum hu _

theorem viewActionVerb_quiet (hu : s.connected u = true) (id : Bytes) :
    Quiet s (viewActionVerb cfg s u id) := by
  unfold viewActionVerb
  dsimp only
  split
  · exact listVerbs_quiet hu _ _
  · have hparty := @partyAction_quiet cfg s u hu id [] true
    have hspeak := hparty.trans
      (@speakAction_quiet cfg _ u (hparty.connected hu) id msgSpeakExample true)
    have hcondition := hspeak.trans (@conditionAction_quiet cfg _ u (hspeak.connected hu) id true)
    split
    · exact hparty
    · split
      · exact hspeak
      · split
        · exact hcondition
        · have htold := (hcondition.sendToUnum hu msgActionHelp).sendToUnum hu (bytes "  ")
          exact (htold.printAll hu _).sendToUnum hu _

theorem socialCommand_quiet (hu : s.connected u = true) (cmd msg : Bytes) :
    Quiet s (socialCommand cfg s u cmd msg).1 := by
  have hparty := @partyAction_quiet cfg s u hu cmd msg false
  have hspeak := hparty.trans (@speakAction_quiet cfg _ u (hparty.connected hu) cmd msg false)
  have hcondition := hspeak.trans (@conditionAction_quiet cfg _ u (hspeak.connected hu) cmd false)
  unfold socialCommand
  split
  · exact viewActionVerb_quiet hu _
  · split
    · exact Quiet.refl.sendToUnum hu _
    · dsimp only
      split
      · exact hparty
      · split
        · exact hspeak
        · exact hcondition

/-! ## Lines -/

theorem run_does (hu : s.connected u = true) (hmain : (s.rooms 0).name = mainroom)
    (hgone : ∀ i, s.connected i = false → (s.users i).flags = 0) {command : ChatCmd}
    (hline : parseLine (s.users u).line = .command command msg) :
    Does cfg u s (command.run cfg s u msg) := by
  cases command with
  | act => exact (chatAct_quiet hu).does
  | bye => exact ⟨exitRoom_toHall ▸ .bye, exitRoom_stale⟩
  | flags => exact chatSetroom_does hu
  | invite => exact chatInvite_does hu hline
  | join => exact chatJoin_does hu hline
  | kick => exact chatKick_does hu hmain hline
  | msg => exact (chatPrivate_quiet hu).does
  | nick => exact chatNick_does hu hline
  | operator => exact chatMakeop_does hu hline
  | talk => exact chatMaketalk_does hu hline
  | rooms => exact (chatListRooms_quiet hu).does
  | whoin => exact (chatListByRoom_quiet hu).does
  | wall => exact (chatBroadcast_quiet hu).does
  | cloak => exact chatCloak_does hu
  | who => exact (chatMapChatids_quiet hu _).does
  | list => exact (chatDoUserList_quiet hu _).does
  | topic => exact chatTopic_does hu
  | hand => exact (chatHand_quiet hu hgone).does
  | rname => exact (chatRename_quiet hu).does
  | paper => exact chatPaper_does hu

/-- A login seats the user in the main room, or changes nothing. -/
theorem loginUser_spec (hu : s.connected u = true) (hmain : (s.rooms 0).name = mainroom) :
    (loginUser cfg s u msg).1.stale = s.stale ∧
      ((loginUser cfg s u msg).1.toHall = s.toHall ∨
        (loginUser cfg s u msg).2 ≠ -1 ∧ ∃ flags cloak utent userid chatid,
          loginAnswer cfg s.toHall u msg = .ok flags cloak utent userid chatid ∧
            (loginUser cfg s u msg).1.toHall =
              (s.toHall.setUser u (ChatUser.loggedIn flags cloak utent userid chatid)).tryEnter u 0
                false) := by
  unfold loginUser
  split
  · exact ⟨(Quiet.refl.sendToUnum hu _).stale, .inl rfl⟩
  · exact ⟨(Quiet.refl.sendToUnum hu _).stale, .inl rfl⟩
  · exact ⟨(Quiet.refl.sendToUnum hu _).stale, .inl rfl⟩
  case h_4 flags cloak utent userid chatid hans =>
    dsimp only
    obtain ⟨s', hs'⟩ :
        ∃ s', s' = s.setUser u (ChatUser.loggedIn flags cloak utent userid chatid) := ⟨_, rfl⟩
    have hconn : s'.connected u = true := by
      rw [hs']
      exact (Hall.connected_setUser (ChatUser.loggedIn _ _ _ _ _) fun _ => rfl).trans hu
    rw [← hs']
    have hgreet : Quiet s' (printUserCounts cfg (s'.sendToUnum u chatLoginOk) u) :=
      (Quiet.refl.sendToUnum hconn _).printAll hconn _
    have hname : ((printUserCounts cfg (s'.sendToUnum u chatLoginOk) u).rooms 0).name = mainroom := by
      rw [hgreet.toHall, hs']
      exact hmain
    obtain ⟨htoHall, hstale⟩ := @enterRoom_main_spec cfg _ u none (hgreet.connected hconn) hname
    have hsame : s'.stale = s.stale := by
      rw [hs']
      rfl
    rw [hgreet.toHall] at htoHall
    have hseated : s'.toHall.tryEnter u 0 false =
        (s.toHall.setUser u (ChatUser.loggedIn flags cloak utent userid chatid)).tryEnter u 0 false := by
      rw [hs']
      rfl
    exact ⟨hstale.trans (hgreet.stale.trans hsame),
      .inr ⟨by decide, flags, cloak, utent, userid, chatid, hans, htoHall.trans hseated⟩⟩

theorem loginUser_does (hu : s.connected u = true) (hmain : (s.rooms 0).name = mainroom)
    (hroom : (s.users u).room = -1) (hline : (s.users u).line = 47 :: 33 :: msg) :
    Does cfg u s (loginUser cfg s u msg).1 ∧
      ((loginUser cfg s u msg).2 = -1 → (loginUser cfg s u msg).1.toHall = s.toHall) := by
  obtain ⟨hstale, hsame | ⟨hrc, flags, cloak, utent, userid, chatid, hans, htoHall⟩⟩ :=
    @loginUser_spec cfg s u msg hu hmain
  · exact ⟨⟨hsame ▸ .nothing, hstale⟩, fun _ => hsame⟩
  · exact ⟨⟨htoHall ▸ .login hroom hline hans, hstale⟩, fun h => absurd h hrc⟩

/-- A user without a room can only log in. -/
theorem commandExecute_outside (hu : s.connected u = true) (hmain : (s.rooms 0).name = mainroom)
    (hroom : (s.users u).room = -1) :
    (commandExecute cfg s u).1.toHall = s.toHall ∨
      ∃ msg flags cloak utent userid chatid, (s.users u).line = 47 :: 33 :: msg ∧
        loginAnswer cfg s.toHall u msg = .ok flags cloak utent userid chatid ∧
          (commandExecute cfg s u).1.toHall =
            (s.toHall.setUser u (ChatUser.loggedIn flags cloak utent userid chatid)).tryEnter u 0
              false := by
  unfold commandExecute
  dsimp only
  rw [if_pos hroom]
  split
  case h_1 msg hline =>
    obtain ⟨-, hsame | ⟨-, flags, cloak, utent, userid, chatid, hans, htoHall⟩⟩ :=
      @loginUser_spec cfg s u msg hu hmain
    · exact .inl hsame
    · exact .inr ⟨msg, flags, cloak, utent, userid, chatid, hline, hans, htoHall⟩
  case h_2 => exact .inl rfl

/-- What a line does, whoever sends it, and that a line that the server answers by closing the
connection comes from a user without a room and changes nothing. -/
theorem commandExecute_spec (hu : s.connected u = true) (hmain : (s.rooms 0).name = mainroom)
    (hgone : ∀ i, s.connected i = false → (s.users i).flags = 0) :
    Does cfg u s (commandExecute cfg s u).1 ∧ ((commandExecute cfg s u).2 = -1 →
      (s.users u).room = -1 ∧ (commandExecute cfg s u).1.toHall = s.toHall) := by
  unfold commandExecute
  dsimp only
  split
  case isTrue hroom =>
    split
    case h_1 msg hline =>
      obtain ⟨hdoes, hclosed⟩ := @loginUser_does cfg s u msg hu hmain hroom hline
      exact ⟨hdoes, fun h => ⟨hroom, hclosed h⟩⟩
    case h_2 => exact ⟨Quiet.refl.does, fun _ => ⟨hroom, rfl⟩⟩
  case isFalse =>
    split
    · split
      · exact ⟨(Quiet.refl.printToUnum hu _).does, nofun⟩
      · exact ⟨chatAllmsg_quiet.does, nofun⟩
    case h_2 cmd msg _ =>
      have hsocial := @socialCommand_quiet cfg s u hu cmd msg
      split
      · exact ⟨hsocial.does, nofun⟩
      · exact ⟨(hsocial.printToUnum hu _).does, nofun⟩
    case h_3 command msg hline => exact ⟨run_does hu hmain hgone hline, nofun⟩
    · exact ⟨(Quiet.refl.printToUnum hu _).does, nofun⟩

end

end ArgoBbs

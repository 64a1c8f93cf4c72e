import ArgoBbs.Chat.Lookup
import ArgoBbs.Chat.Occupancy

/-! # Cloaked users

What a user is sent when he lists or names users, while a cloaked user is on the server and while he
is not (`station.c`). -/

namespace ArgoBbs

/-- The texts that come to a socket. -/
def Chat.seenBy (s : Chat) (fd : Int) : List Bytes :=
  (s.replies.filter fun r => fd ∈ r.fds).map (·.text)

/-- The room without the user `c` and with `n` users less. -/
structure ChatRoom.Lacks (c : Nat) (n : Int) (r r' : ChatRoom) : Prop where
  name : r'.name = r.name
  flags : r'.flags = r.flags
  topic : r'.topic = r.topic
  invites : ∀ v, v ≠ c → r'.invites v = r.invites v
  occupants : r.occupants = r'.occupants + n

/-- The tables differ only by the cloaked user `c`, who is in the first. -/
structure Hall.Lacks (c : Nat) (s s' : Hall) : Prop where
  here : s.connected c = true
  cloak : (s.users c).cloak = 1
  gone : s'.connected c = false
  users : ∀ v, v ≠ c → s'.users v = s.users v
  rooms : ∀ r, ChatRoom.Lacks c (if (s.users c).room = r then 1 else 0) (s.rooms r) (s'.rooms r)

namespace Hall.Lacks
variable {c v : Nat} {s s' : Hall} {f : ChatUser → ChatUser} {g : ChatRoom → ChatRoom} {r : Int}

theorem ne (h : s.Lacks c s') (hv : s'.connected v = true) : v ≠ c := by
  rintro rfl
  cases h.gone.symm.trans hv

theorem connected (h : s.Lacks c s') (hv : v ≠ c) : s'.connected v = s.connected v := by
  rw [Hall.connected, h.users v hv]
  rfl

theorem has (h : s.Lacks c s') (hv : v ≠ c) (perm : BitVec 32) : s'.has v perm = s.has v perm := by
  rw [Hall.has, h.users v hv]
  rfl

theorem roomHas (h : s.Lacks c s') (r : Int) (flag : BitVec 16) :
    s'.roomHas r flag = s.roomHas r flag := by
  rw [Hall.roomHas, (h.rooms r).flags]
  rfl

theorem setUser (h : s.Lacks c s') (hv : v ≠ c) :
    (s.setUser v f).Lacks c (s'.setUser v f) := by
  have hc : (s.setUser v f).users c = s.users c := users_setUser_ne _ _ hv.symm
  refine ⟨?_, by rw [hc, h.cloak], ?_, fun w hw => ?_, fun r => by rw [hc]; exact h.rooms r⟩
  · rw [Hall.connected, hc]
    exact h.here
  · rw [Hall.connected, users_setUser_ne _ _ hv.symm]
    exact h.gone
  · rcases eq_or_ne w v with rfl | hwv
    · rw [users_setUser, users_setUser, h.users w hv]
    · rw [users_setUser_ne _ _ hwv, users_setUser_ne _ _ hwv, h.users w hw]

theorem setRoom (h : s.Lacks c s')
    (hg : ∀ n r r', ChatRoom.Lacks c n r r' → ChatRoom.Lacks c n (g r) (g r')) :
    (s.setRoom r g).Lacks c (s'.setRoom r g) := by
  refine ⟨h.here, h.cloak, h.gone, h.users, fun r' => ?_⟩
  rcases eq_or_ne r' r with rfl | hr
  · rw [rooms_setRoom, rooms_setRoom]
    exact hg _ _ _ (h.rooms r')
  · rw [rooms_setRoom_ne _ _ hr, rooms_setRoom_ne _ _ hr]
    exact h.rooms r'

end Hall.Lacks

/-- The tables differ by `c`, and what comes to the socket, which is not that of `c`, by the texts
`pre` at the start. -/
structure Chat.Alike (c : Nat) (fd : Int) (pre : List Bytes) (s s' : Chat) : Prop where
  hall : s.toHall.Lacks c s'.toHall
  socket : (s.users c).sockfd ≠ fd
  seen : s.seenBy fd = pre ++ s'.seenBy fd

section
variable {s : Chat} {fd : Int} {v : Nat} {p : Bool} {fds : List Int} {text : Bytes}

theorem seenBy_reply : (s.reply p fds text).seenBy fd =
    s.seenBy fd ++ if fd ∈ fds then [text] else [] := by
  rw [Chat.seenBy, Chat.reply, List.filter_append, List.map_append]
  congr 1
  by_cases h : fd ∈ fds <;> simp [h]

theorem seenBy_printToUnum_ne (h : (s.users v).sockfd ≠ fd) :
    (s.printToUnum v text).seenBy fd = s.seenBy fd := by
  rw [Chat.printToUnum, seenBy_reply, if_neg (by simpa using h.symm), List.append_nil]
  rfl

theorem seenBy_printToUnum (h : (s.users v).sockfd = fd) :
    (s.printToUnum v text).seenBy fd = s.seenBy fd ++ [text.take 255] := by
  rw [Chat.printToUnum, seenBy_reply, if_pos (by simp [h])]
  rfl

theorem seenBy_sendToUnum_ne (h : (s.users v).sockfd ≠ fd) :
    (s.sendToUnum v text).seenBy fd = s.seenBy fd := by
  rw [Chat.sendToUnum, seenBy_reply, if_neg (by simpa using h.symm), List.append_nil]
  rfl

theorem seenBy_sendToUnum (h : (s.users v).sockfd = fd) :
    (s.sendToUnum v text).seenBy fd = s.seenBy fd ++ [text] := by
  rw [Chat.sendToUnum, seenBy_reply, if_pos (by simp [h])]
  rfl

theorem seenBy_printAll (h : (s.users v).sockfd = fd) (texts : List Bytes) :
    (s.printAll v texts).seenBy fd = s.seenBy fd ++ texts.map (·.take 255) := by
  induction texts generalizing s with
  | nil => exact (List.append_nil _).symm
  | cons text texts ih =>
    change ((s.printToUnum v text).printAll v texts).seenBy fd = _
    rw [ih (s := s.printToUnum v text) h, seenBy_printToUnum h, List.append_assoc]
    rfl

end

namespace Chat.Alike
variable {cfg : ChatConfig} {c v : Nat} {fd : Int} {pre : List Bytes} {s s' : Chat} {r : Int}
  {text : Bytes}

theorem use (h : Alike c fd pre s s') (v : Nat) : Alike c fd pre (s.use v) (s'.use v) :=
  ⟨h.hall, h.socket, h.seen⟩

theorem reply (h : Alike c fd pre s s') {p : Bool} {fds fds' : List Int}
    (hfds : fd ∈ fds ↔ fd ∈ fds') : Alike c fd pre (s.reply p fds text) (s'.reply p fds' text) := by
  refine ⟨h.hall, h.socket, ?_⟩
  rw [seenBy_reply, seenBy_reply, h.seen, List.append_assoc]
  simp only [hfds]

theorem sendToUnum (h : Alike c fd pre s s') (hv : v ≠ c) (text : Bytes) :
    Alike c fd pre (s.sendToUnum v text) (s'.sendToUnum v text) := by
  rw [Chat.sendToUnum, Chat.sendToUnum, h.hall.users v hv]
  exact (h.use v).reply .rfl

theorem printToUnum (h : Alike c fd pre s s') (hv : v ≠ c) (text : Bytes) :
    Alike c fd pre (s.printToUnum v text) (s'.printToUnum v text) := by
  rw [Chat.printToUnum, Chat.printToUnum, h.hall.users v hv]
  exact (h.use v).reply .rfl

theorem printAll (h : Alike c fd pre s s') (hv : v ≠ c) (texts : List Bytes) :
    Alike c fd pre (s.printAll v texts) (s'.printAll v texts) := by
  induction texts generalizing s s' with
  | nil => exact h
  | cons text texts ih => exact ih (h.printToUnum hv text)

/-- The socket of `c` is not the one looked at. -/
theorem mem_roomSockets (h : Alike c fd pre s s') (room : Int) :
    fd ∈ roomSockets cfg s.toHall room ↔ fd ∈ roomSockets cfg s'.toHall room := by
  simp only [roomSockets, List.mem_map, List.mem_filter, Bool.and_eq_true]
  constructor
  · rintro ⟨v, ⟨hlt, hv, hroom⟩, hfd⟩
    have hne : v ≠ c := by
      rintro rfl
      exact h.socket hfd
    rw [← h.hall.connected hne] at hv
    rw [← h.hall.users v hne] at hroom hfd
    exact ⟨v, ⟨hlt, hv, hroom⟩, hfd⟩
  · rintro ⟨v, ⟨hlt, hv, hroom⟩, hfd⟩
    have hne := h.hall.ne hv
    rw [h.hall.connected hne] at hv
    rw [h.hall.users v hne] at hroom hfd
    exact ⟨v, ⟨hlt, hv, hroom⟩, hfd⟩

theorem printToRoom (h : Alike c fd pre s s') (room : Int) (text : Bytes) :
    Alike c fd pre (s.printToRoom cfg room text) (s'.printToRoom cfg room text) :=
  h.reply (h.mem_roomSockets room)

theorem format (h : Alike c fd pre s s') (text : Bytes) :
    Alike c fd pre (s.format text) (s'.format text) := h.reply .rfl

theorem setUser (h : Alike c fd pre s s') (hv : v ≠ c) (f : ChatUser → ChatUser) :
    Alike c fd pre (s.setUser v f) (s'.setUser v f) := by
  refine ⟨h.hall.setUser hv, ?_, h.seen⟩
  change ((s.toHall.setUser v f).users c).sockfd ≠ fd
  rw [Hall.users_setUser_ne _ _ hv.symm]
  exact h.socket

theorem setRoom (h : Alike c fd pre s s') {g : ChatRoom → ChatRoom}
    (hg : ∀ n r r', ChatRoom.Lacks c n r r' → ChatRoom.Lacks c n (g r) (g r')) :
    Alike c fd pre (s.setRoom r g) (s'.setRoom r g) :=
  ⟨h.hall.setRoom hg, h.socket, h.seen⟩

end Chat.Alike

/-! ## Leaving and entering rooms -/

namespace ChatRoom.Lacks
variable {c v : Nat} {n : Int} {r r' : ChatRoom}

theorem left (h : Lacks c n r r') : Lacks c n r.left r'.left := by
  refine ⟨h.name, h.flags, h.topic, h.invites, ?_⟩
  have hocc := h.occupants
  change r.occupants - 1 = r'.occupants - 1 + n
  omega

theorem setInvite (h : Lacks c n r r') (v : Nat) (b : Bool) :
    Lacks c n { r with invites := Function.update r.invites v b }
      { r' with invites := Function.update r'.invites v b } := by
  refine ⟨h.name, h.flags, h.topic, fun w hw => ?_, h.occupants⟩
  change Function.update r'.invites v b w = Function.update r.invites v b w
  rcases eq_or_ne w v with rfl | hwv
  · rw [Function.update_self, Function.update_self]
  · rw [Function.update_of_ne hwv, Function.update_of_ne hwv, h.invites w hw]

theorem entered (h : Lacks c n r r') (v : Nat) : Lacks c n (r.entered v) (r'.entered v) := by
  obtain ⟨hname, hflags, htopic, hinvites, -⟩ := h.setInvite v false
  refine ⟨hname, hflags, htopic, hinvites, ?_⟩
  have hocc := h.occupants
  change r.occupants + 1 = r'.occupants + 1 + n
  omega

end ChatRoom.Lacks

namespace Hall.Lacks
variable {c v : Nat} {s s' : Hall}

theorem leave (h : s.Lacks c s') (hv : v ≠ c) : (s.leave v).Lacks c (s'.leave v) := by
  unfold Hall.leave
  rw [h.users v hv]
  split
  · exact (h.setRoom fun _ _ _ => ChatRoom.Lacks.left).setUser hv
  · exact h.setUser hv

theorem logout (h : s.Lacks c s') (hv : v ≠ c) : (s.logout v).Lacks c (s'.logout v) := by
  obtain ⟨hhere, hcloak, hgone, husers, -⟩ := h.setUser (f := fun _ => ChatUser.gone) hv
  refine ⟨hhere, hcloak, hgone, husers, fun r => ?_⟩
  have hc : (s.logout v).users c = s.users c := Function.update_of_ne hv.symm ..
  rw [hc]
  exact (h.rooms r).setInvite v false

theorem barred (h : s.Lacks c s') (hv : v ≠ c) (r : Int) : s'.barred v r = s.barred v r := by
  rw [Hall.barred, Hall.barred, Hall.sysop, Hall.sysop, Hall.locked, Hall.locked, h.has hv,
    h.roomHas, (h.rooms r).invites v hv]

end Hall.Lacks

section
variable {cfg : ChatConfig} {s : Chat} {fd r : Int} {v : Nat} {disp : ExitDisp} {msg : Option Bytes}
  {text room : Bytes}

theorem seenBy_format : (s.format text).seenBy fd = s.seenBy fd := by
  rw [Chat.format, seenBy_reply, if_neg (by exact nofun), List.append_nil]

theorem seenBy_printToRoom : (s.printToRoom cfg r text).seenBy fd =
    s.seenBy fd ++ if fd ∈ Chat.roomSockets cfg s.toHall r then [text.take 255] else [] :=
  seenBy_reply

/-- The leaving of a user whom all can see is told in his room if he is not its only occupant. -/
theorem seenBy_exitRoom : (exitRoom cfg s v disp msg).seenBy fd = s.seenBy fd ++
    if (s.users v).room ≠ -1 ∧ (s.users v).cloak = 0 ∧
        (s.rooms (s.users v).room).occupants ≠ 1 ∧
        fd ∈ Chat.roomSockets cfg s.toHall (s.users v).room then
      [(exitText disp (s.users v).chatid msg).take 255]
    else [] := by
  have hocc : ((s.setRoom (s.users v).room ChatRoom.left).rooms (s.users v).room).occupants ≠ 0 ↔
      (s.rooms (s.users v).room).occupants ≠ 1 := by
    change ((s.toHall.setRoom _ _).rooms _).occupants ≠ 0 ↔ _
    rw [Hall.rooms_setRoom]
    change (s.rooms (s.users v).room).occupants - 1 ≠ 0 ↔ _
    omega
  rw [exitRoom]
  dsimp only
  split
  case isFalse hroom =>
    rw [if_neg fun h => hroom h.1]
    exact (List.append_nil _).symm
  case isTrue hroom =>
    split
    case isFalse hfew =>
      rw [if_neg fun h => hfew (hocc.mpr h.2.2.1)]
      exact (List.append_nil _).symm
    case isTrue hmany =>
      rw [hocc] at hmany
      split
      case isFalse hcloak =>
        rw [if_neg fun h => hcloak h.2.1, List.append_nil]
        exact seenBy_format
      case isTrue hcloak =>
        simp only [hroom, hcloak, hmany, ne_eq, not_false_eq_true, true_and]
        exact seenBy_printToRoom

/-- What is sent of the entry of a cloaked user goes to himself. -/
theorem seenBy_enterFound_cloaked (hout : (s.users v).room = -1) (hcloak : (s.users v).cloak ≠ 0)
    (hfd : (s.users v).sockfd ≠ fd) :
    (enterFound cfg s v r false room msg).seenBy fd = s.seenBy fd := by
  rw [enterFound]
  dsimp only
  split
  · exact seenBy_sendToUnum_ne hfd
  · have hexit : (exitRoom cfg s v .logout msg).seenBy fd = s.seenBy fd := by
      rw [seenBy_exitRoom, if_neg fun h => h.1 hout, List.append_nil]
    have huser : (((exitRoom cfg s v .logout msg).setUser v (ChatUser.inside r false)).setRoom r
        (ChatRoom.entered v)).users v = (s.users v).outside.inside r false := by
      change (((exitRoom cfg s v .logout msg).toHall.setUser v _)).users v = _
      rw [Hall.users_setUser, exitRoom_toHall, Hall.users_leave]
    rw [announceEntry, if_neg (by rw [huser]; exact hcloak), seenBy_printToUnum_ne,
      seenBy_printToUnum_ne]
    · exact hexit
    · rw [huser]
      exact hfd
    · change ((Chat.setRoom _ _ _).users v).sockfd ≠ fd
      rw [huser]
      exact hfd

end

namespace Chat.Alike
variable {cfg : ChatConfig} {c v : Nat} {fd : Int} {pre : List Bytes} {s s' : Chat} {r : Int}
  {text room : Bytes} {disp : ExitDisp} {msg : Option Bytes}

theorem of_hall (h : Alike c fd pre s s') {t t' : Chat} (hall : t.toHall.Lacks c t'.toHall)
    (hc : t.users c = s.users c) {pre' : List Bytes} (hseen : t.seenBy fd = pre' ++ t'.seenBy fd) :
    Alike c fd pre' t t' := ⟨hall, hc ▸ h.socket, hseen⟩

/-- A user leaves his room: his leaving is told to the others, if there are any. -/
theorem exitRoom (h : Alike c fd pre s s') (hv : v ≠ c)
    (hothers : (s.users v).room ≠ -1 → (s.users v).cloak = 0 →
      fd ∈ roomSockets cfg s.toHall (s.users v).room →
      ((s.rooms (s.users v).room).occupants ≠ 1 ↔ (s'.rooms (s.users v).room).occupants ≠ 1)) :
    Alike c fd pre (exitRoom cfg s v disp msg) (exitRoom cfg s' v disp msg) := by
  refine h.of_hall ?_ ?_ ?_
  · rw [exitRoom_toHall, exitRoom_toHall]
    exact h.hall.leave hv
  · rw [exitRoom_toHall, Hall.users_leave_ne _ _ hv.symm]
  · rw [seenBy_exitRoom, seenBy_exitRoom, h.seen, h.hall.users v hv, List.append_assoc]
    congr 2
    refine if_congr ?_ rfl rfl
    rw [← h.mem_roomSockets]
    refine and_congr_right fun hroom => and_congr_right fun hcloak => and_congr_left fun hfd => ?_
    exact hothers hroom hcloak hfd

theorem printToUnum_of_eq (h : Alike c fd pre s s') (hv : v ≠ c) {text' : Bytes}
    (htext : text' = text) : Alike c fd pre (s.printToUnum v text) (s'.printToUnum v text') := by
  rw [htext]
  exact h.printToUnum hv text

theorem printToRoom_of_eq (h : Alike c fd pre s s') (r : Int) {text' : Bytes}
    (htext : text' = text) :
    Alike c fd pre (s.printToRoom cfg r text) (s'.printToRoom cfg r text') := by
  rw [htext]
  exact h.printToRoom r text

theorem announceEntry (h : Alike c fd pre s s') (hv : v ≠ c) :
    Alike c fd pre (announceEntry cfg s v r room) (announceEntry cfg s' v r room) := by
  have htopic : bytes "/t" ++ (s'.rooms r).topic = bytes "/t" ++ (s.rooms r).topic :=
    congrArg _ (h.hall.rooms r).topic
  unfold ArgoBbs.announceEntry
  dsimp only
  rw [h.hall.users v hv, (h.hall.rooms r).name]
  split
  · exact ((h.printToRoom r _).printToUnum hv _).printToUnum_of_eq hv htopic
  · exact (h.printToUnum hv _).printToUnum_of_eq hv htopic

/-- A user who is in no room comes into a room. -/
theorem enterFound (h : Alike c fd pre s s') (hv : v ≠ c) (hout : (s.users v).room = -1) :
    Alike c fd pre (enterFound cfg s v r false room msg)
      (enterFound cfg s' v r false room msg) := by
  unfold ArgoBbs.enterFound
  change Alike c fd pre (if s.barred v r = true then _ else _)
    (if s'.barred v r = true then _ else _)
  rw [h.hall.barred hv]
  split
  · exact h.sendToUnum hv _
  · have hexit : Alike c fd pre (ArgoBbs.exitRoom cfg s v .logout msg)
        (ArgoBbs.exitRoom cfg s' v .logout msg) := h.exitRoom hv fun hroom => absurd hout hroom
    exact ((hexit.setUser hv _).setRoom fun _ _ _ hr => hr.entered v).announceEntry hv

/-- A user who is in no room comes into the main room. -/
theorem enterMain (h : Alike c fd pre s s') (hv : v ≠ c) (hout : (s.users v).room = -1)
    (hmain : (s.rooms 0).name = mainroom) : Alike c fd pre (enterRoom cfg s v mainroom msg)
      (enterRoom cfg s' v mainroom msg) := by
  have hmain' : (s'.rooms 0).name = mainroom := (h.hall.rooms 0).name.trans hmain
  rw [enterRoom, enterRoom, roomidToIndx_main hmain, roomidToIndx_main hmain']
  exact h.enterFound hv hout

theorem logoutUser (h : Alike c fd pre s s') (hv : v ≠ c) :
    Alike c fd pre (logoutUser s v) (logoutUser s' v) :=
  h.of_hall (h.hall.logout hv) (Function.update_of_ne hv.symm ..) h.seen

end Chat.Alike

/-! ## Lists -/

section
variable {cfg : ChatConfig} {c u : Nat} {s s' : Hall}

/-- The lists leave `c` out. -/
theorem listed_eq (h : s.Lacks c s') (hu : u ≠ c) (hcloak : s.cloak u = false) (whichroom : Int) :
    listed s' u whichroom = listed s u whichroom := by
  have hcloak' : s'.cloak u = false := (h.has hu _).trans hcloak
  funext i
  simp only [listed, Hall.restricted, Hall.secret, Hall.sysop, h.users u hu, h.has hu, h.roomHas,
    hcloak, hcloak']
  rcases eq_or_ne i c with rfl | hi
  · simp [h.gone, h.cloak]
  · rw [h.users i hi, h.connected hi]

theorem ne_of_listed (h : s.Lacks c s') (hcloak : s.cloak u = false) {whichroom : Int} {i : Nat}
    (hi : listed s u whichroom i = true) : i ≠ c := by
  rintro rfl
  simp [listed, h.cloak, hcloak] at hi

theorem userRow_eq (h : s.Lacks c s') {i : Nat} (hi : i ≠ c) : userRow s' i = userRow s i := by
  have houtsider : s'.outsider i = s.outsider i := h.has hi _
  have hroomop : s'.roomop i = s.roomop i := h.has hi _
  simp only [userRow, houtsider, hroomop, h.users i hi, (h.rooms _).name]

theorem mapCell_eq (h : s.Lacks c s') {i : Nat} (hi : i ≠ c) (last : Bool) :
    mapCell s' i last = mapCell s i last := by
  have houtsider : s'.outsider i = s.outsider i := h.has hi _
  have hroomop : s'.roomop i = s.roomop i := h.has hi _
  simp only [mapCell, houtsider, hroomop, h.users i hi]

theorem mapRows_eq (h : s.Lacks c s') : ∀ {l : List Nat}, (∀ i ∈ l, i ≠ c) →
    mapRows s' l = mapRows s l
  | [], _ => rfl
  | [i], hl => by
    rw [mapRows, mapRows, mapCell_eq h (hl i (by simp))]
  | [i, j], hl => by
    rw [mapRows, mapRows, mapCell_eq h (hl i (by simp)), mapCell_eq h (hl j (by simp))]
  | i :: j :: k :: rest, hl => by
    rw [mapRows, mapRows, mapCell_eq h (hl i (by simp)), mapCell_eq h (hl j (by simp)),
      mapCell_eq h (hl k (by simp)), mapRows_eq h fun l hmem => hl l (by simp [hmem])]

end

namespace Chat.Alike
variable {cfg : ChatConfig} {c u : Nat} {fd : Int} {pre : List Bytes} {s s' : Chat} {msg : Bytes}

theorem chatDoUserList (h : Alike c fd pre s s') (hu : u ≠ c) (hcloak : s.cloak u = false)
    (whichroom : Int) : Alike c fd pre (chatDoUserList cfg s u msg whichroom)
      (chatDoUserList cfg s' u msg whichroom) := by
  have hrows : ((List.range cfg.maxActive).filter (listed s'.toHall u whichroom)).map
      (userRow s'.toHall) = ((List.range cfg.maxActive).filter (listed s.toHall u whichroom)).map
        (userRow s.toHall) := by
    rw [listed_eq h.hall hu hcloak]
    refine List.map_congr_left fun i hi => userRow_eq h.hall ?_
    exact ne_of_listed h.hall hcloak (List.mem_filter.mp hi).2
  unfold ArgoBbs.chatDoUserList
  dsimp only [Chat.sendToUnum, Chat.reply, Chat.use]
  rw [hrows]
  exact (h.sendToUnum hu msgUsersHead).printAll hu _

theorem chatMapChatids (h : Alike c fd pre s s') (hu : u ≠ c) (hcloak : s.cloak u = false)
    (whichroom : Int) : Alike c fd pre (chatMapChatids cfg s u whichroom)
      (chatMapChatids cfg s' u whichroom) := by
  have hrows : mapRows s'.toHall
      ((List.range cfg.maxActive).filter (listed s'.toHall u whichroom)) =
        mapRows s.toHall ((List.range cfg.maxActive).filter (listed s.toHall u whichroom)) := by
    rw [listed_eq h.hall hu hcloak]
    refine mapRows_eq h.hall fun i hi => ?_
    exact ne_of_listed h.hall hcloak (List.mem_filter.mp hi).2
  unfold ArgoBbs.chatMapChatids
  dsimp only [Chat.sendToUnum, Chat.reply, Chat.use]
  rw [hrows]
  exact (h.sendToUnum hu msgMapHead).printAll hu _

end Chat.Alike

/-! ## Users found by a word -/

namespace Hall.Lacks
variable {cfg : ChatConfig} {c u i : Nat} {s s' : Hall} {chatid : Bytes}

theorem names (h : s.Lacks c s') (chatid : Bytes) (i : Nat) :
    s'.names chatid i = (decide (i ≠ c) && s.names chatid i) := by
  rcases eq_or_ne i c with rfl | hi
  · simp [Hall.names, h.gone]
  · simp [Hall.names, h.connected hi, h.users i hi, hi]

theorem fits (h : s.Lacks c s') (chatid : Bytes) (i : Nat) :
    s'.fits chatid i = (decide (i ≠ c) && s.fits chatid i) := by
  rcases eq_or_ne i c with rfl | hi
  · simp [Hall.fits, h.gone]
  · simp [Hall.fits, h.connected hi, h.users i hi, hi]

theorem firstNamed (h : s.Lacks c s') (hne : firstNamed cfg s chatid ≠ some c) :
    firstNamed cfg s' chatid = firstNamed cfg s chatid := by
  refine find?_eq_of_imp (fun i _ hi => ?_) fun i hi => ?_
  · rw [h.names, Bool.and_eq_true] at hi
    exact hi.2
  · rw [h.names, List.find?_some hi, Bool.and_true, decide_eq_true_eq]
    rintro rfl
    exact hne hi

theorem fitting (h : s.Lacks c s') :
    fitting cfg s' chatid = (fitting cfg s chatid).filter (· ≠ c) := by
  rw [ArgoBbs.fitting, ArgoBbs.fitting, List.filter_filter]
  exact congrArg (List.filter · _) (funext fun i => h.fits chatid i)

theorem cloak_eq (h : s.Lacks c s') (hu : u ≠ c) : s'.cloak u = s.cloak u := h.has hu _

/-- The search without `c`, in terms of the users that the word fits with `c`. -/
theorem fuzzy (h : s.Lacks c s') (hu : u ≠ c) : fuzzyChatidToIndx cfg s' u chatid =
    (fuzzyPick (s.fitsWhole chatid) ((ArgoBbs.fitting cfg s chatid).filter (· ≠ c))).shown
      (s.hides u) := by
  rw [fuzzyChatidToIndx_eq, h.fitting]
  have hne : ∀ i ∈ (ArgoBbs.fitting cfg s chatid).filter (· ≠ c), s'.users i = s.users i :=
    fun i hi => h.users i (of_decide_eq_true (List.mem_filter.mp hi).2)
  refine shown_congr (fun i hi => ?_) fun i hi => ?_
  · rw [fitsWhole, fitsWhole, hne i hi]
  · rw [hides, hides, hne i hi, h.cloak_eq hu]

theorem hides_self (h : s.Lacks c s') (hcloak : s.cloak u = false) : s.hides u c = true := by
  simp [hides, h.cloak, hcloak]

theorem nodup_fitting : (ArgoBbs.fitting cfg s chatid).Nodup := List.nodup_range.filter _

theorem fuzzy_iff (h : s.Lacks c s') (hu : u ≠ c) (hcloak : s.cloak u = false) :
    fuzzyChatidToIndx cfg s u chatid = fuzzyChatidToIndx cfg s' u chatid ↔
      Unnoticed (s.fitsWhole chatid) (s.hides u) c (ArgoBbs.fitting cfg s chatid) := by
  rw [h.fuzzy hu, fuzzyChatidToIndx_eq]
  exact unnoticed_iff nodup_fitting (h.hides_self hcloak)

theorem fuzzy_found (h : s.Lacks c s') (hu : u ≠ c) (hcloak : s.cloak u = false)
    (hi : fuzzyChatidToIndx cfg s u chatid = .found i) :
    fuzzyChatidToIndx cfg s' u chatid = .found i := by
  rw [h.fuzzy hu]
  rw [fuzzyChatidToIndx_eq] at hi
  exact shown_found nodup_fitting (h.hides_self hcloak) hi

theorem ne_of_fuzzy (h : s.Lacks c s') (hi : fuzzyChatidToIndx cfg s' u chatid = .found i) :
    i ≠ c := h.ne (fuzzyChatidToIndx_connected hi)

theorem mayRule (h : s.Lacks c s') (hu : u ≠ c) : s'.mayRule u = s.mayRule u := by
  have hroomop : s'.roomop u = s.roomop u := h.has hu _
  have hsysop : s'.sysop u = s.sysop u := h.has hu _
  rw [Hall.mayRule, Hall.mayRule, hroomop, hsysop]

end Hall.Lacks

namespace Chat.Alike
variable {cfg : ChatConfig} {c u : Nat} {fd : Int} {pre : List Bytes} {s s' : Chat} {msg : Bytes}

theorem chatPrivate (h : Alike c fd pre s s') (hu : u ≠ c)
    (hsame : fuzzyChatidToIndx cfg s.toHall u (nextword msg).1 =
      fuzzyChatidToIndx cfg s'.toHall u (nextword msg).1) :
    Alike c fd pre (chatPrivate cfg s u msg) (chatPrivate cfg s' u msg) := by
  rw [ArgoBbs.chatPrivate, ArgoBbs.chatPrivate]
  dsimp only
  rw [hsame]
  cases hfound : fuzzyChatidToIndx cfg s'.toHall u (nextword msg).1 with
  | nobody => exact h.printToUnum hu _
  | ambiguous => exact h.printToUnum hu _
  | found i =>
    have hi := h.hall.ne_of_fuzzy hfound
    have hmesg : s'.mesg i = s.mesg i := h.hall.has hi _
    dsimp only
    rw [hmesg, h.hall.users u hu]
    split
    · exact h.printToUnum hu _
    · split
      · refine (h.printToUnum hi _).printToUnum_of_eq hu ?_
        change msgPaperTo (s'.users i).chatid ++ _ = msgPaperTo (s.users i).chatid ++ _
        rw [h.hall.users i hi]
      · exact h.printToUnum hu _

theorem partyAction (h : Alike c fd pre s s') (hu : u ≠ c) {cmd party : Bytes}
    (hsame : party ≠ [] → fuzzyChatidToIndx cfg s.toHall u party =
      fuzzyChatidToIndx cfg s'.toHall u party) :
    Alike c fd pre (partyAction cfg s u cmd party false).1
      (partyAction cfg s' u cmd party false).1 := by
  rw [ArgoBbs.partyAction, ArgoBbs.partyAction]
  cases cfg.partyData.find? fun a => a.verb = cmd with
  | none => exact h
  | some a =>
    dsimp only [Chat.perform]
    rw [if_neg Bool.false_ne_true, h.hall.users u hu]
    split
    · exact h.printToRoom _ _
    · rename_i hparty
      rw [hsame hparty]
      cases hfound : fuzzyChatidToIndx cfg s'.toHall u party with
      | nobody => exact h.printToUnum hu _
      | ambiguous => exact h.printToUnum hu _
      | found i =>
        dsimp only
        rw [if_neg Bool.false_ne_true, h.hall.users i (h.hall.ne_of_fuzzy hfound)]
        exact h.printToRoom _ _

/-- The first user whose chat id the word is, if he is not `c`, is the same. -/
theorem chatidToIndx (h : Alike c fd pre s s') (hu : u ≠ c) (hcloak : s.cloak u = false)
    {chatid : Bytes} (hne : firstNamed cfg s.toHall chatid ≠ some c) :
    chatidToIndx cfg s'.toHall u chatid = chatidToIndx cfg s.toHall u chatid ∧
      ∀ i, ArgoBbs.chatidToIndx cfg s.toHall u chatid = some i → i ≠ c := by
  rw [chatidToIndx_eq hcloak, chatidToIndx_eq ((h.hall.cloak_eq hu).trans hcloak),
    h.hall.firstNamed hne]
  refine ⟨rfl, fun i hi => ?_⟩
  rintro rfl
  exact hne hi

theorem chatInvite (h : Alike c fd pre s s') (hu : u ≠ c) (hcloak : s.cloak u = false)
    (hne : s.mayRule u = true → firstNamed cfg s.toHall (nextword msg).1 ≠ some c) :
    Alike c fd pre (chatInvite cfg s u msg) (chatInvite cfg s' u msg) := by
  rw [ArgoBbs.chatInvite, ArgoBbs.chatInvite]
  dsimp only
  rw [h.hall.mayRule hu, h.hall.users u hu]
  split
  · exact h.sendToUnum hu _
  · rename_i hrule
    obtain ⟨hsame, hother⟩ := h.chatidToIndx hu hcloak (hne (mayRule_of_not hrule))
    rw [hsame]
    cases hfound : ArgoBbs.chatidToIndx cfg s.toHall u (nextword msg).1 with
    | none => exact h.printToUnum hu _
    | some i =>
      have hi := hother i hfound
      have hchatid : (s'.users i).chatid = (s.users i).chatid := by rw [h.hall.users i hi]
      have hname : (s'.rooms (s.users u).room).name = (s.rooms (s.users u).room).name :=
        (h.hall.rooms _).name
      dsimp only
      rw [(h.hall.rooms _).invites i hi, hchatid]
      split
      · exact h.printToUnum hu _
      · have hinvite := h.setRoom (r := (s.users u).room) (g := ChatRoom.invite i)
          fun _ _ _ hr => hr.setInvite i true
        refine (hinvite.printToUnum_of_eq hi ?_).printToUnum_of_eq hu ?_
        · exact congrArg₂ msgInvites (congrArg _ (h.hall.users u hu)) (hinvite.hall.rooms _).name
        · exact congrArg msgComesSoon hchatid

theorem chatMakeop (h : Alike c fd pre s s') (hu : u ≠ c) (hcloak : s.cloak u = false)
    (hne : s.mayRule u = true → firstNamed cfg s.toHall (nextword msg).1 ≠ some c) :
    Alike c fd pre (chatMakeop cfg s u msg) (chatMakeop cfg s' u msg) := by
  rw [ArgoBbs.chatMakeop, ArgoBbs.chatMakeop]
  dsimp only
  rw [h.hall.mayRule hu, h.hall.users u hu]
  split
  · exact h.sendToUnum hu _
  · rename_i hrule
    obtain ⟨hsame, hother⟩ := h.chatidToIndx hu hcloak (hne (mayRule_of_not hrule))
    rw [hsame]
    cases hfound : ArgoBbs.chatidToIndx cfg s.toHall u (nextword msg).1 with
    | none => exact h.printToUnum hu _
    | some i =>
      have hi := hother i hfound
      dsimp only
      rw [h.hall.users i hi]
      split
      · exact h.printToUnum hu _
      · split
        · exact h.printToUnum hu _
        · have hop := (h.setUser hu ChatUser.dropOp).setUser hi ChatUser.takeOp
          refine hop.printToRoom_of_eq _ (congrArg₂ msgMakesOp ?_ ?_)
          · exact congrArg _ (hop.hall.users u hu)
          · exact congrArg _ (hop.hall.users i hi)

theorem chatMaketalk (h : Alike c fd pre s s') (hu : u ≠ c) (hcloak : s.cloak u = false)
    (hne : s.mayRule u = true → firstNamed cfg s.toHall (nextword msg).1 ≠ some c) :
    Alike c fd pre (chatMaketalk cfg s u msg) (chatMaketalk cfg s' u msg) := by
  rw [ArgoBbs.chatMaketalk, ArgoBbs.chatMaketalk]
  dsimp only
  rw [h.hall.mayRule hu]
  split
  · exact h.sendToUnum hu _
  · rename_i hrule
    obtain ⟨hsame, hother⟩ := h.chatidToIndx hu hcloak (hne (mayRule_of_not hrule))
    rw [hsame]
    cases hfound : ArgoBbs.chatidToIndx cfg s.toHall u (nextword msg).1 with
    | none => exact h.printToUnum hu _
    | some i =>
      have hi := hother i hfound
      dsimp only
      split
      · exact h.printToUnum hu _
      · have htalk := h.setUser hi (ChatUser.toggle permTalk)
        have hcantalk : (s'.setUser i (ChatUser.toggle permTalk)).cantalk i =
            (s.setUser i (ChatUser.toggle permTalk)).cantalk i := htalk.hall.has hi _
        have hi' := htalk.hall.users i hi
        have hu' := htalk.hall.users u hu
        rw [hcantalk, hi', hu']
        exact htalk.printToRoom _ _

/-- What `chat_kick` does with a user who has left the room. -/
theorem kicked (cfg : ChatConfig) {v : Nat} (h : Alike c fd pre s s') (hv : v ≠ c)
    (hout : (s.users v).room = -1)
    (hmain : (s.rooms 0).name = mainroom) (r : Int) : Alike c fd pre
      (if r = 0 then ArgoBbs.logoutUser s v else enterRoom cfg s v mainroom none)
      (if r = 0 then ArgoBbs.logoutUser s' v else enterRoom cfg s' v mainroom none) := by
  split
  · exact h.logoutUser hv
  · exact h.enterMain hv hout hmain

theorem chatKick (h : Alike c fd pre s s') (hu : u ≠ c) (hcloak : s.cloak u = false)
    (hmain : (s.rooms 0).name = mainroom)
    (hne : s.mayRule u = true → firstNamed cfg s.toHall (nextword msg).1 ≠ some c)
    (hmany : s.mayRule u = true → ∀ i, firstNamed cfg s.toHall (nextword msg).1 = some i →
      (s.users i).room = (s.users u).room → (s.users i).cloak = 0 →
      (s.users c).room = (s.users u).room → 2 < (s.rooms (s.users u).room).occupants) :
    Alike c fd pre (chatKick cfg s u msg) (chatKick cfg s' u msg) := by
  rw [ArgoBbs.chatKick, ArgoBbs.chatKick]
  dsimp only
  rw [h.hall.mayRule hu, h.hall.users u hu]
  split
  · exact h.sendToUnum hu _
  · rename_i hrule
    have hrule := mayRule_of_not hrule
    obtain ⟨hsame, hother⟩ := h.chatidToIndx hu hcloak (hne hrule)
    rw [hsame]
    cases hfound : ArgoBbs.chatidToIndx cfg s.toHall u (nextword msg).1 with
    | none => exact h.printToUnum hu _
    | some i =>
      have hi := hother i hfound
      dsimp only
      rw [h.hall.users i hi]
      split
      · exact h.printToUnum hu _
      · rename_i hroom
        rw [ne_eq, not_not] at hroom
        have hexit : Alike c fd pre (ArgoBbs.exitRoom cfg s i .kick none)
            (ArgoBbs.exitRoom cfg s' i .kick none) := h.exitRoom hi fun _ hvisible _ => by
            have hocc := (h.hall.rooms (s.users i).room).occupants
            rw [← hroom] at hocc ⊢
            split at hocc
            · rename_i hc
              have hfew := hmany hrule i (by rw [← chatidToIndx_eq hcloak, hfound]) hroom.symm
                hvisible hc
              omega
            · rw [hocc, Int.add_zero]
        refine hexit.kicked cfg hi ?_ ?_ _
        · rw [exitRoom_toHall, Hall.users_leave]
          rfl
        · rw [exitRoom_toHall, Hall.name_leave, hmain]

end Chat.Alike

/-- The tables agree with each other in what the lists need of the main room and of the numbers of
users in the rooms. -/
structure Hall.Counted (cfg : ChatConfig) (s : Hall) : Prop where
  main : (s.rooms 0).name = mainroom
  occupants : ∀ r : Nat, r < maxRoom → 0 ≤ (s.rooms r).occupants
  user : ∀ v, v < cfg.maxActive → s.connected v = true → (s.users v).room ≠ -1 →
    0 < (s.rooms (s.users v).room).occupants

theorem HallInv.counted {cfg : ChatConfig} {used : Nat → Bool} {s : Hall}
    (H : HallInv cfg used s) : s.Counted cfg := by
  refine ⟨H.main, fun r hr => ?_, fun v hlt hv hroom => ?_⟩
  · rw [H.occupants r hr]
    exact Int.natCast_nonneg _
  · obtain ⟨r, hr, hvr⟩ := (H.room v hv).resolve_left hroom
    rw [hvr, H.occupants r hr, Int.natCast_pos]
    exact countSlots_pos hlt (by rw [hv, hvr]; simp)

/-- The user is the only one in the room. -/
def Hall.AloneIn (s : Hall) (c : Nat) (r : Int) : Prop :=
  (s.users c).room = r ∧ (s.rooms r).occupants = 1

namespace Chat.Alike
variable {cfg : ChatConfig} {c u : Nat} {fd : Int} {pre : List Bytes} {s s' : Chat} {msg : Bytes}

/-- A room that is found is found without `c` if `c` is not the only user in it. -/
theorem roomidToIndx (h : Alike c fd pre s s') (hcount : s'.Counted cfg) {roomid : Bytes}
    (halone : ∀ r : Nat, roomidToIndx s.toHall roomid = some r → r ≠ 0 → ¬s.AloneIn c r) :
    roomidToIndx s'.toHall roomid = roomidToIndx s.toHall roomid := by
  refine find?_eq_of_imp (fun r hr hfound => ?_) fun r hfound => ?_
  · have hocc := (h.hall.rooms r).occupants
    have hnonneg := hcount.occupants r (List.mem_range.mp hr)
    simp only [Bool.and_eq_true, Bool.or_eq_true, decide_eq_true_eq, (h.hall.rooms r).name]
      at hfound ⊢
    refine ⟨hfound.1.imp_right fun hne => ?_, hfound.2⟩
    split at hocc <;> omega
  · have hocc := (h.hall.rooms r).occupants
    have hother := halone r hfound
    have hp := List.find?_some hfound
    simp only [Bool.and_eq_true, Bool.or_eq_true, decide_eq_true_eq, (h.hall.rooms r).name]
      at hp ⊢
    refine ⟨?_, hp.2⟩
    rcases Nat.eq_zero_or_pos r with hzero | hpos
    · exact .inl hzero
    · refine .inr fun hempty => ?_
      split at hocc
      · rename_i hc
        exact hother (by omega) ⟨hc, by omega⟩
      · exact (hp.1.resolve_left (by omega)) (by omega)

theorem chatListByRoom (h : Alike c fd pre s s') (hu : u ≠ c) (hcloak : s.cloak u = false)
    (hsame : (nextword msg).1 ≠ [] → ArgoBbs.roomidToIndx s'.toHall (nextword msg).1 =
      ArgoBbs.roomidToIndx s.toHall (nextword msg).1) :
    Alike c fd pre (chatListByRoom cfg s u msg) (chatListByRoom cfg s' u msg) := by
  have hsysop : s'.sysop u = s.sysop u := h.hall.has hu _
  rw [ArgoBbs.chatListByRoom, ArgoBbs.chatListByRoom]
  dsimp only
  split
  · rw [h.hall.users u hu]
    exact h.chatDoUserList hu hcloak _
  · rename_i hroom
    rw [hsame hroom]
    cases ArgoBbs.roomidToIndx s.toHall (nextword msg).1 with
    | none => exact h.printToUnum hu _
    | some r =>
      have hsecret : s'.secret r = s.secret r := h.hall.roomHas _ _
      dsimp only
      rw [hsecret, hsysop]
      split
      · exact h.sendToUnum hu _
      · exact h.chatDoUserList hu hcloak _

end Chat.Alike

end ArgoBbs

import ArgoBbs.Chat.State
import ArgoBbs.Chat.Messages

/-! # Rooms

Leaving and entering a room, logging a user in and out (`station.c`). -/

namespace ArgoBbs

def mainroom : Bytes := bytes "main"

def chatLoginOk : Bytes := bytes "OK"
def chatLoginExists : Bytes := bytes "EX"
def chatLoginInvalid : Bytes := bytes "IN"
def chatLoginBogus : Bytes := bytes "BG"

/-- How a user leaves a room. -/
inductive ExitDisp
  | logout
  | lostconn
  | kick

/-- What is printed to `chatbuf` when a user leaves; `msg` is `none` for `NULL`. -/
def exitText (disp : ExitDisp) (chatid : Bytes) (msg : Option Bytes) : Bytes :=
  match disp with
  | .logout =>
    match msg with
    | some (c :: msg) => (msgLeaves chatid).take 255 ++ bytes ": " ++ (c :: msg).take 80
    | _ => msgLeaves chatid
  | .lostconn => msgLostConn chatid
  | .kick => msgKicked chatid

/-- A room loses a user. -/
def ChatRoom.left (r : ChatRoom) : ChatRoom := { r with occupants := r.occupants - 1 }

/-- A user loses the flag of the operator and the room. -/
def ChatUser.outside (u : ChatUser) : ChatUser :=
  { u with flags := u.flags &&& ~~~permChatroom, room := -1 }

variable (cfg : ChatConfig)

def exitRoom (s : Chat) (unum : Nat) (disp : ExitDisp) (msg : Option Bytes) : Chat :=
  let u := s.users unum
  let s :=
    if u.room ≠ -1 then
      let s := s.setRoom u.room ChatRoom.left
      if (s.rooms u.room).occupants ≠ 0 then
        let text := exitText disp u.chatid msg
        if u.cloak = 0 then s.printToRoom cfg u.room text else s.format text
      else s
    else s
  s.setUser unum ChatUser.outside

/-- A user comes into a room, as its operator if `op`. -/
def ChatUser.inside (r : Int) (op : Bool) (u : ChatUser) : ChatUser :=
  { u with room := r, flags := if op then u.flags ||| permChatroom else u.flags }

/-- A new room with the name, cut to the size of the field. -/
def ChatRoom.create (room : Bytes) (r : ChatRoom) : ChatRoom :=
  { r with
    invites := fun _ => false, topic := cfg.maintopic, name := room.take (idLen - 1), flags := 0 }

/-- A room gains a user, whose invitation is used up. -/
def ChatRoom.entered (unum : Nat) (r : ChatRoom) : ChatRoom :=
  { r with occupants := r.occupants + 1, invites := Function.update r.invites unum false }

/-- The first room from 1 on without users. -/
def freeRoom (s : Hall) : Option Nat :=
  (List.range maxRoom).find? fun i => i ≠ 0 && (s.rooms i).occupants = 0

/-- What `enter_room` prints once the user is in the room. -/
def announceEntry (s : Chat) (unum : Nat) (rnum : Int) (room : Bytes) : Chat :=
  let s :=
    if (s.users unum).cloak = 0 then
      s.printToRoom cfg rnum (msgEnters (s.users unum).chatid (s.rooms rnum).name)
    else s
  let s := s.printToUnum unum (bytes "/r" ++ room)
  s.printToUnum unum (bytes "/t" ++ (s.rooms rnum).topic)

/-- The part of `enter_room` behind the search for the room; `op` if the room is new. -/
def enterFound (s : Chat) (unum : Nat) (rnum : Int) (op : Bool) (room : Bytes)
    (msg : Option Bytes) : Chat :=
  if !s.sysop unum && (s.locked rnum && !(s.rooms rnum).invites unum) then
    s.sendToUnum unum msgRoomLocked
  else
    let s := exitRoom cfg s unum .logout msg
    let s := s.setUser unum (ChatUser.inside rnum op)
    let s := s.setRoom rnum (ChatRoom.entered unum)
    announceEntry cfg s unum rnum room

def enterRoom (s : Chat) (unum : Nat) (room : Bytes) (msg : Option Bytes) : Chat :=
  match roomidToIndx s.toHall room with
  | some rnum => enterFound cfg s unum rnum false room msg
  | none =>
    if s.outsider unum then s.sendToUnum unum msgNoNewRoom
    else match freeRoom s.toHall with
      | some i => enterFound cfg (s.setRoom i (ChatRoom.create cfg room)) unum i true room msg
      | none => s.sendToUnum unum msgRoomsFull

def logoutUser (s : Chat) (unum : Nat) : Chat :=
  let s := (s.use unum).setUser unum fun _ => ChatUser.gone
  { s with
    rooms := fun r => { s.rooms r with invites := Function.update (s.rooms r).invites unum false }
    numConns := s.numConns - 1 }

/-- The loop of `print_user_counts`, which counts the rooms other than the main room and, among the
first `MAXROOM` slots, the users. -/
def userCounts (s : Hall) (unum : Nat) : Nat × Nat × Nat :=
  let indices := List.range maxRoom
  let visible := fun i : Nat => s.connected i && (s.users i).room ≠ -1 && (s.users i).cloak = 0
  let hidden := fun r : Int => s.secret r && !s.sysop unum
  (indices.countP fun i => i ≠ 0 && 0 < (s.rooms i).occupants && !hidden i,
    indices.countP fun i => visible i && !hidden (s.users i).room,
    indices.countP fun i => visible i && hidden (s.users i).room)

def printUserCounts (s : Chat) (unum : Nat) : Chat :=
  let (roomc, userc, suserc) := userCounts s.toHall unum
  let secrets := if suserc ≠ 0 then (msgSecretCount suserc).take 39 else []
  s.printAll unum
    [msgWelcome cfg.bbsName cfg.chatname, msgRoomCount (roomc + 1),
      ((msgUserCount (userc + 1)).take 255 ++ secrets).take 255 ++ msgCountEnd]

/-- The fields that `login_user` sets. A `userid` longer than its field runs on into the fields
behind it, of which `chatid` is then written again. -/
def ChatUser.loggedIn (flags : BitVec 32) (cloak utent : Int) (userid chatid : Bytes)
    (u : ChatUser) : ChatUser :=
  { u with
    flags, cloak, utent
    userid := userid.take (idLen + 2), chatid := chatid.take (chatIdLen - 1) }

/-- The client is on the same host as the server. -/
def ChatUser.isLocal (u : ChatUser) : Bool := strncasecmpEq (bytes "localhost") u.host 30

/-- What `login_user` answers. -/
inductive LoginAnswer
  | bogus
  | invalid
  | exists
  | ok (flags : BitVec 32) (cloak utent : Int) (userid chatid : Bytes)

def loginAnswer (s : Hall) (unum : Nat) (msg : Bytes) : LoginAnswer :=
  let (utentstr, msg) := nextword msg
  let (level, msg) := nextword msg
  let (userid, msg) := nextword msg
  let (chatid, msg) := nextword msg
  let (cloak, _) := nextword msg
  let utent := atoi utentstr
  let perms := BitVec.ofInt 32 (atoi level)
  if (List.range cfg.maxActive).any fun i => s.connected i && (s.users i).utent = utent then .bogus
  else if !isValidChatid chatid then .invalid
  else if (chatidToIndx cfg s 0 chatid).isSome then .exists
  else if (s.users unum).isLocal then
    .ok (perms &&& ~~~permDenypost) ((atoi cloak).bmod 256) utent userid chatid
  else if perms &&& permLoginok = 0 && strncasecmpEq chatid (bytes "guest") 8 then .invalid
  else .ok permDenypost 0 utent userid chatid

/-- `login_user`, which returns `-1` if the entry is in use. -/
def loginUser (s : Chat) (unum : Nat) (msg : Bytes) : Chat × Int :=
  match loginAnswer cfg s.toHall unum msg with
  | .bogus => (s.sendToUnum unum chatLoginBogus, -1)
  | .invalid => (s.sendToUnum unum chatLoginInvalid, 0)
  | .exists => (s.sendToUnum unum chatLoginExists, 0)
  | .ok flags cloak utent userid chatid =>
    let s := s.setUser unum (ChatUser.loggedIn flags cloak utent userid chatid)
    let s := s.sendToUnum unum chatLoginOk
    let s := printUserCounts cfg s unum
    (enterRoom cfg s unum mainroom none, 0)

end ArgoBbs

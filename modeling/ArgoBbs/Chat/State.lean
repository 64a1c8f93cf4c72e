import ArgoBbs.Consts
import ArgoBbs.Lib.CString
import ArgoBbs.Permissions
import Mathlib.Logic.Function.Basic

/-! # The state of the chat server

The tables `users` and `rooms` of `station.c`, what the server sends, and the functions that find
users and rooms by their names. -/

namespace ArgoBbs

/-- A verb of the social commands with its texts. -/
structure ChatAction where
  verb : Bytes
  part1Msg : Bytes
  part2Msg : Bytes

/-- What the server is built and started with: the number `MAXACTIVE` of slots, the name of the
site, the name and the topic of this chat room, whether it accepts local connections only, and the
tables of verbs. -/
structure ChatConfig where
  maxActive : Nat
  bbsName : Bytes
  chatname : Bytes
  maintopic : Bytes
  isLocal : Bool
  partyData : List ChatAction
  speakData : List ChatAction
  conditionData : List ChatAction

def maxRoom : Nat := 32
def chatIdLen : Nat := 9

def permChatroom : BitVec 32 := permChat
def permTalk : BitVec 32 := permNozap

def roomLocked : BitVec 16 := 1
def roomSecret : BitVec 16 := 2
def roomNoemote : BitVec 16 := 4
def roomSchool : BitVec 16 := 8

/-- `ROOM_ALL`. -/
def roomAll : Int := -2

/-- A slot. `ibuf` are the first `ibufsize` bytes of the input buffer; `userid` are at most 14
bytes, and a longer name runs on into `chatid`. -/
structure ChatUser where
  sockfd : Int
  utent : Int
  room : Int
  flags : BitVec 32
  cloak : Int
  userid : Bytes
  chatid : Bytes
  ibuf : Bytes
  host : Bytes

structure ChatRoom where
  name : Bytes
  occupants : Int
  flags : BitVec 16
  invites : Nat → Bool
  topic : Bytes

/-- A slot as `logout_user` leaves it: zeros, and `-1` for the socket, the entry and the room. -/
def ChatUser.gone : ChatUser := ⟨-1, -1, -1, 0, 0, [], [], [], []⟩

/-- A slot at the start: `main` does not set the room. -/
def ChatUser.unused : ChatUser := { ChatUser.gone with room := 0 }

def ChatUser.useridString (u : ChatUser) : Bytes :=
  if u.userid.length < idLen + 2 then u.userid else u.userid ++ u.chatid

/-- The string that the input buffer holds. -/
def ChatUser.line (u : ChatUser) : Bytes := u.ibuf.takeWhile (· ≠ 0)

/-- The tables of the server. -/
structure Hall where
  users : Nat → ChatUser
  rooms : Int → ChatRoom
  numConns : Int

/-- A text that the server sends to sockets; `printed` if it has been written to `chatbuf` first. -/
structure Reply where
  printed : Bool
  fds : List Int
  text : Bytes

/-- The tables, what the current line has made the server send, and whether a slot without a
connection has been used. -/
structure Chat extends Hall where
  replies : List Reply
  stale : Bool

namespace Hall
variable (s : Hall) (u : Nat) (r : Int)

def setUser (f : ChatUser → ChatUser) : Hall :=
  { s with users := Function.update s.users u (f (s.users u)) }

def setRoom (f : ChatRoom → ChatRoom) : Hall :=
  { s with rooms := Function.update s.rooms r (f (s.rooms r)) }

/-- The slot has a connection. -/
def connected : Bool := (s.users u).sockfd ≠ -1

def has (perm : BitVec 32) : Bool := (s.users u).flags &&& perm ≠ 0

def restricted : Bool := (s.users u).flags = 0
def sysop : Bool := s.has u (permAchatroom ||| permSysop)
def cloak : Bool := s.has u permChatcloak
def roomop : Bool := s.has u permChatroom
def outsider : Bool := s.has u permDenypost
def cantalk : Bool := s.has u permTalk
def mesg : Bool := s.has u permMessage

@[simp] theorem users_setUser (f : ChatUser → ChatUser) :
    (s.setUser u f).users u = f (s.users u) := Function.update_self ..

theorem users_setUser_ne {f : ChatUser → ChatUser} {v : Nat} (h : v ≠ u) :
    (s.setUser u f).users v = s.users v := Function.update_of_ne h ..

@[simp] theorem rooms_setRoom (f : ChatRoom → ChatRoom) :
    (s.setRoom r f).rooms r = f (s.rooms r) := Function.update_self ..

theorem rooms_setRoom_ne {f : ChatRoom → ChatRoom} {r' : Int} (h : r' ≠ r) :
    (s.setRoom r f).rooms r' = s.rooms r' := Function.update_of_ne h ..

def roomHas (flag : BitVec 16) : Bool := (s.rooms r).flags &&& flag ≠ 0

def locked : Bool := s.roomHas r roomLocked
def secret : Bool := s.roomHas r roomSecret
def noemote : Bool := s.roomHas r roomNoemote
def notalk : Bool := s.roomHas r roomSchool

end Hall

/-! ## Names -/

/-- The characters `BADCIDCHARS`. -/
def badCidChars : Bytes := bytes " *:/%"

def isValidChatid (id : Bytes) : Bool :=
  id ≠ [] && (id.take chatIdLen).all fun c => !badCidChars.contains c

/-- The next word of the string, and the string behind it and one more byte. -/
def nextword (str : Bytes) : Bytes × Bytes :=
  let str := str.dropWhile isspace
  (str.takeWhile (!isspace ·), (str.dropWhile (!isspace ·)).drop 1)

variable (cfg : ChatConfig)

def chatidToIndx (s : Hall) (unum : Nat) (chatid : Bytes) : Option Nat :=
  (List.range cfg.maxActive).find? fun i =>
    s.connected i && strcasecmpEq chatid (s.users i).chatid && ((s.users i).cloak = 0 || !s.cloak unum)

/-- What `fuzzy_chatid_to_indx` finds: a user, nobody (`-1`), or several users (`-2`). -/
inductive FuzzyIndx
  | found (i : Nat)
  | nobody
  | ambiguous
  deriving DecidableEq, Repr

def fuzzyLoop (s : Hall) (chatid : Bytes) : List Nat → Option Nat → FuzzyIndx
  | [], indx => indx.elim .nobody .found
  | i :: rest, indx =>
    let u := s.users i
    let len := chatid.length
    if s.connected i && (strncasecmpEq chatid u.chatid len ||
        strncasecmpEq chatid u.useridString len) then
      if len = u.chatid.length || len = u.useridString.length then .found i
      else match indx with
        | none => fuzzyLoop s chatid rest (some i)
        | some _ => .ambiguous
    else fuzzyLoop s chatid rest indx

def fuzzyChatidToIndx (s : Hall) (unum : Nat) (chatid : Bytes) : FuzzyIndx :=
  match fuzzyLoop s chatid (List.range cfg.maxActive) none with
  | .found i => if (s.users i).cloak = 0 || s.cloak unum then .found i else .nobody
  | other => other

def roomidToIndx (s : Hall) (roomid : Bytes) : Option Nat :=
  (List.range maxRoom).find? fun i =>
    (i = 0 || (s.rooms i).occupants ≠ 0) && strcasecmpEq roomid (s.rooms i).name

/-! ## Sending -/

namespace Chat
variable (s : Chat)

def setUser (u : Nat) (f : ChatUser → ChatUser) : Chat := { s with toHall := s.toHall.setUser u f }

def setRoom (r : Int) (f : ChatRoom → ChatRoom) : Chat := { s with toHall := s.toHall.setRoom r f }

/-- Something is done with a slot that should have a connection. -/
def use (u : Nat) : Chat := { s with stale := s.stale || !s.connected u }

def reply (printed : Bool) (fds : List Int) (text : Bytes) : Chat :=
  { s with replies := s.replies ++ [⟨printed, fds, text⟩] }

/-- `snprintf(chatbuf, sizeof(chatbuf), ..)`. -/
def format (text : Bytes) : Chat := s.reply true [] (text.take 255)

/-- `send_to_unum` of a text that is not in `chatbuf`. -/
def sendToUnum (unum : Nat) (text : Bytes) : Chat :=
  (s.use unum).reply false [(s.users unum).sockfd] text

/-- `send_to_unum(unum, chatbuf)` after the text has been printed to `chatbuf`. -/
def printToUnum (unum : Nat) (text : Bytes) : Chat :=
  (s.use unum).reply true [(s.users unum).sockfd] (text.take 255)

/-- The sockets of the users in the room. -/
def roomSockets (s : Hall) (room : Int) : List Int :=
  ((List.range cfg.maxActive).filter fun i =>
    s.connected i && (room = roomAll || room = (s.users i).room)).map fun i => (s.users i).sockfd

/-- `send_to_room(room, chatbuf)` after the text has been printed to `chatbuf`. -/
def printToRoom (room : Int) (text : Bytes) : Chat :=
  s.reply true (roomSockets cfg s.toHall room) (text.take 255)

/-- The texts one after the other. -/
def printAll (unum : Nat) (texts : List Bytes) : Chat := texts.foldl (fun s => s.printToUnum unum) s

end Chat

end ArgoBbs

import ArgoBbs.Chat.Rooms

/-! # The commands of the chat server

What a line of a user does (`command_execute` and the functions of `chatcmdlist` in `station.c`).
Each takes the slot `unum` of the user and the rest `msg` of the line. -/

namespace ArgoBbs

variable (cfg : ChatConfig)

/-- The user may change the room. -/
def Hall.mayRule (s : Hall) (unum : Nat) : Bool := s.roomop unum || s.sysop unum

def chatRename (s : Chat) (unum : Nat) (msg : Bytes) : Chat :=
  let rnum := (s.users unum).room
  if !s.mayRule unum then s.sendToUnum unum msgNotOp
  else if msg = [] then s.sendToUnum unum msgWhichName
  else
    -- `strncpy(rooms[rnum].name, msg, IDLE)` copies nothing: `IDLE` is the mode 0
    let s := s.printToRoom cfg rnum (bytes "/r" ++ msg.take 11)
    s.printToRoom cfg rnum (msgRenames (s.users unum).chatid msg)

def ChatRoom.setTopic (topic : Bytes) (r : ChatRoom) : ChatRoom := { r with topic }

def chatTopic (s : Chat) (unum : Nat) (msg : Bytes) : Chat :=
  let rnum := (s.users unum).room
  if !s.mayRule unum then s.sendToUnum unum msgNotOp
  else if msg = [] then s.sendToUnum unum msgWhichTopic
  else
    let s := s.setRoom rnum (ChatRoom.setTopic (msg.take 42))
    let s := s.printToRoom cfg rnum (bytes "/t" ++ msg.take 42)
    s.printToRoom cfg rnum (msgSetsTopic (s.users unum).chatid msg)

/-! ## Lists -/

def roomMarks (flags : BitVec 16) : Bytes :=
  (if flags &&& roomLocked ≠ 0 then markLocked else []) ++
    (if flags &&& roomSecret ≠ 0 then markSecret else []) ++
    (if flags &&& roomNoemote ≠ 0 then markNoemote else []) ++
    (if flags &&& roomSchool ≠ 0 then markSchool else [])

/-- The rooms that the user sees. -/
def roomRows (s : Hall) (unum : Nat) : List Bytes :=
  (List.range maxRoom).filterMap fun i : Nat =>
    let room := s.rooms i
    if 0 < room.occupants && (s.sysop unum || !(s.secret i && (s.users unum).room ≠ i)) then
      some ((msgRoomRow room.name room.occupants.toNat room.topic).take 255 ++ roomMarks room.flags)
    else none

def chatListRooms (s : Chat) (unum : Nat) : Chat :=
  if s.restricted unum then s.sendToUnum unum msgNoRoomList
  else
    let s := s.sendToUnum unum msgRoomsHead
    s.printAll unum (roomRows s.toHall unum)

/-- The user `unum` sees the user `i` in a list of the room `whichroom`, or of all rooms (`-1`). -/
def listed (s : Hall) (unum : Nat) (whichroom : Int) (i : Nat) : Bool :=
  let rnum := (s.users i).room
  s.connected i && rnum ≠ -1 && !((s.users i).cloak = 1 && !s.cloak unum) &&
    (whichroom = -1 || whichroom = rnum) &&
    ((s.users unum).room = rnum || !s.restricted unum && !(s.secret rnum && !s.sysop unum))

def userRow (s : Hall) (i : Nat) : Bytes :=
  let u := s.users i
  msgUserRow (if u.cloak = 1 then 67 else 32) u.chatid
    (if s.outsider i then colourOutsider else colourUser) u.useridString (s.rooms u.room).name
    (if s.roomop i then textOp else textNoOp) u.host

/-- Of the listed users those from number `start` to number `stop`, or to the end if `stop` is 0. -/
def rangeOf (start stop : Int) (rows : List Bytes) : List Bytes :=
  let rows := if stop = 0 then rows else rows.take (max 0 stop).toNat
  rows.drop (max 0 (start - 1)).toNat

def chatDoUserList (s : Chat) (unum : Nat) (msg : Bytes) (whichroom : Int) : Chat :=
  let msg := msg.dropWhile isspace
  let start := atoi msg
  let msg := (msg.dropWhile isdigit).dropWhile (!isdigit ·)
  let stop := atoi msg
  let s := s.sendToUnum unum msgUsersHead
  let rows := ((List.range cfg.maxActive).filter (listed s.toHall unum whichroom)).map (userRow s.toHall)
  s.printAll unum (rangeOf start stop rows)

def chatListByRoom (s : Chat) (unum : Nat) (msg : Bytes) : Chat :=
  let (roomstr, msg) := nextword msg
  if roomstr = [] then chatDoUserList cfg s unum msg (s.users unum).room
  else match roomidToIndx s.toHall roomstr with
    | none => s.printToUnum unum (msgNoSuchRoom roomstr)
    | some whichroom =>
      if s.secret whichroom && !s.sysop unum then s.sendToUnum unum msgSecretRoom
      else chatDoUserList cfg s unum msg whichroom

def chatListUsers (s : Chat) (unum : Nat) (msg : Bytes) : Chat := chatDoUserList cfg s unum msg (-1)

def mapCell (s : Hall) (i : Nat) (last : Bool) : Bytes :=
  let u := s.users i
  msgMapCell (if u.cloak = 1 then 67 else 32) u.chatid (if s.roomop i then 42 else 32)
    (if s.outsider i then colourOutsider else colourUser) u.useridString
    (if last then barRow else barCell)

/-- The cells in rows of three. Each is printed 50 bytes behind the one before it. -/
def mapRows (s : Hall) : List Nat → List Bytes
  | i :: j :: k :: rest =>
    ((mapCell s i false).take 50 ++ (mapCell s j false).take 50 ++ (mapCell s k true).take 155) ::
      mapRows s rest
  | [i, j] => [(mapCell s i false).take 50 ++ (mapCell s j false).take 205]
  | [i] => [mapCell s i false]
  | [] => []

def chatMapChatids (s : Chat) (unum : Nat) (whichroom : Int) : Chat :=
  let s := s.sendToUnum unum msgMapHead
  s.printAll unum
    (mapRows s.toHall ((List.range cfg.maxActive).filter (listed s.toHall unum whichroom)))

def chatMapChatidsThisroom (s : Chat) (unum : Nat) : Chat :=
  chatMapChatids cfg s unum (s.users unum).room

/-! ## The room -/

/-- The flag that a letter says, and its text. -/
def roomMode (c : UInt8) : Option (BitVec 16 × Bytes) :=
  if c = 108 ∨ c = 76 then some (roomLocked, textLocked)
  else if c = 115 ∨ c = 83 then some (roomSecret, textSecret)
  else if c = 101 ∨ c = 69 then some (roomNoemote, textNoemote)
  else if c = 97 ∨ c = 65 then some (roomSchool, textSchool)
  else none

def ChatRoom.toggle (flag : BitVec 16) (r : ChatRoom) : ChatRoom :=
  { r with flags := r.flags ^^^ flag }

def setroomLoop (unum : Nat) (rnum : Int) (sign : Bool) : Bytes → Chat → Chat
  | [], s => s
  | c :: modestr, s =>
    match roomMode c with
    | none => s.printToUnum unum (msgNoMode c)
    | some (flag, fstr) =>
      if (s.rooms rnum).flags &&& flag ≠ (if sign then flag else 0) then
        let s := s.setRoom rnum (ChatRoom.toggle flag)
        let s := s.printToRoom cfg rnum
          (msgModeSet (s.users unum).chatid (if sign then textSet else textUnset) fstr)
        setroomLoop unum rnum sign modestr s
      else setroomLoop unum rnum sign modestr s

/-- Whether the flags are to be set, and their letters. -/
def modeSign : Bytes → Bool × Bytes
  | 43 :: modestr => (true, modestr)
  | 45 :: modestr => (false, modestr)
  | modestr => (true, modestr)

def chatSetroom (s : Chat) (unum : Nat) (msg : Bytes) : Chat :=
  let modestr := (nextword msg).1
  let rnum := (s.users unum).room
  if !s.mayRule unum then s.sendToUnum unum msgNotOp
  else
    let (sign, modestr) := modeSign modestr
    if modestr = [] then s.sendToUnum unum msgWhichMode
    else setroomLoop cfg unum rnum sign modestr s

/-- `chatid[CHAT_IDLEN - 1] = '\0'` in `chat_nick`: the word starts `pos` bytes into `ibuf`, and
from byte 132 on this is a byte of `host`. -/
def ChatUser.cutHost (pos : Nat) (u : ChatUser) : ChatUser :=
  if 132 ≤ pos + (chatIdLen - 1) then { u with host := u.host.take (pos + (chatIdLen - 1) - 132) }
  else u

def ChatUser.rename (chatid : Bytes) (u : ChatUser) : ChatUser := { u with chatid }

def chatNick (s : Chat) (unum : Nat) (msg : Bytes) : Chat :=
  let pos := (s.users unum).line.length - (msg.dropWhile isspace).length
  let s := s.setUser unum (ChatUser.cutHost pos)
  let chatid := (nextword msg).1.take (chatIdLen - 1)
  if !isValidChatid chatid then s.sendToUnum unum msgBadNick
  else
    let othernum := chatidToIndx cfg s.toHall 0 chatid
    if othernum ≠ none ∧ othernum ≠ some unum then s.sendToUnum unum msgNickTaken
    else
      let s := s.printToRoom cfg (s.users unum).room (msgNewNick (s.users unum).chatid chatid)
      let s := s.setUser unum (ChatUser.rename chatid)
      s.printToUnum unum (bytes "/n" ++ chatid)

def chatPrivate (s : Chat) (unum : Nat) (msg : Bytes) : Chat :=
  let (recipient, msg) := nextword msg
  match fuzzyChatidToIndx cfg s.toHall unum recipient with
  | .nobody => s.printToUnum unum (msgNoSuchId recipient)
  | .ambiguous => s.printToUnum unum msgAmbiguous
  | .found recunum =>
    if !s.mesg recunum then s.printToUnum unum msgPaperClosed
    else if msg ≠ [] then
      let s := s.printToUnum recunum (msgPaperFrom (s.users unum).chatid ++ msg)
      s.printToUnum unum (msgPaperTo (s.users recunum).chatid ++ msg)
    else s.printToUnum unum msgPaperEmpty

/-- `put_chatid`: the name and a colon in ten columns. -/
def putChatid (chatid : Bytes) : Bytes := padRight 10 (chatid ++ [58])

def chatAllmsg (s : Chat) (unum : Nat) (msg : Bytes) : Chat :=
  if msg ≠ [] then s.printToRoom cfg (s.users unum).room (putChatid (s.users unum).chatid ++ msg)
  else s

def chatAct (s : Chat) (unum : Nat) (msg : Bytes) : Chat :=
  if s.noemote (s.users unum).room then s.sendToUnum unum msgNoEmote
  else if msg ≠ [] then s.printToRoom cfg (s.users unum).room (msgAct (s.users unum).chatid msg)
  else s

def ChatUser.toggleCloak (u : ChatUser) : ChatUser :=
  { u with cloak := if u.cloak = 1 then 0 else 1 }

def chatCloak (s : Chat) (unum : Nat) : Chat :=
  if s.cloak unum then
    let s := s.setUser unum ChatUser.toggleCloak
    s.printToUnum unum (msgCloak (s.users unum).chatid
      (if (s.users unum).cloak = 1 then textCloakOn else textCloakOff))
  else s

def chatJoin (s : Chat) (unum : Nat) (msg : Bytes) : Chat :=
  let (roomid, msg) := nextword msg
  if s.restricted unum then s.sendToUnum unum msgStayHere
  else if roomid = [] then s.sendToUnum unum msgWhichRoom
  else if !isValidChatid roomid then s.sendToUnum unum msgBadRoomName
  else enterRoom cfg s unum roomid (some msg)

def chatKick (s : Chat) (unum : Nat) (msg : Bytes) : Chat :=
  let rnum := (s.users unum).room
  let twit := (nextword msg).1
  if !s.mayRule unum then s.sendToUnum unum msgNotOp
  else match chatidToIndx cfg s.toHall unum twit with
    | none => s.printToUnum unum (msgNoSuchId twit)
    | some recunum =>
      if rnum ≠ (s.users recunum).room then
        s.printToUnum unum (msgNotHere (s.users recunum).chatid)
      else
        let s := exitRoom cfg s recunum .kick none
        if rnum = 0 then logoutUser s recunum else enterRoom cfg s recunum mainroom none

def ChatUser.dropOp (u : ChatUser) : ChatUser := { u with flags := u.flags &&& ~~~permChatroom }

def ChatUser.takeOp (u : ChatUser) : ChatUser := { u with flags := u.flags ||| permChatroom }

def chatMakeop (s : Chat) (unum : Nat) (msg : Bytes) : Chat :=
  let newop := (nextword msg).1
  let rnum := (s.users unum).room
  if !s.mayRule unum then s.sendToUnum unum msgNotOp
  else match chatidToIndx cfg s.toHall unum newop with
    | none => s.printToUnum unum (msgNoSuchId newop)
    | some recunum =>
      if unum = recunum then s.printToUnum unum msgAlreadyOp
      else if rnum ≠ (s.users recunum).room then
        s.printToUnum unum (msgNotHere (s.users recunum).chatid)
      else
        let s := (s.setUser unum ChatUser.dropOp).setUser recunum ChatUser.takeOp
        s.printToRoom cfg rnum (msgMakesOp (s.users unum).chatid (s.users recunum).chatid)

def ChatRoom.invite (v : Nat) (r : ChatRoom) : ChatRoom :=
  { r with invites := Function.update r.invites v true }

def chatInvite (s : Chat) (unum : Nat) (msg : Bytes) : Chat :=
  let invitee := (nextword msg).1
  let rnum := (s.users unum).room
  if !s.mayRule unum then s.sendToUnum unum msgNotOp
  else match chatidToIndx cfg s.toHall unum invitee with
    | none => s.printToUnum unum (msgNotHere invitee)
    | some recunum =>
      if (s.rooms rnum).invites recunum then
        s.printToUnum unum (msgComesSoon (s.users recunum).chatid)
      else
        let s := s.setRoom rnum (ChatRoom.invite recunum)
        let s := s.printToUnum recunum (msgInvites (s.users unum).chatid (s.rooms rnum).name)
        s.printToUnum unum (msgComesSoon (s.users recunum).chatid)

def chatBroadcast (s : Chat) (unum : Nat) (msg : Bytes) : Chat :=
  if !s.sysop unum then s.sendToUnum unum msgNoWall
  else if msg = [] then s.sendToUnum unum msgWallEmpty
  else
    let s := s.printToRoom cfg roomAll (msgWallFrom (s.users unum).chatid)
    s.printToRoom cfg roomAll (msgWall msg)

def chatGoodbye (s : Chat) (unum : Nat) (msg : Bytes) : Chat := exitRoom cfg s unum .logout (some msg)

def ChatUser.toggle (perm : BitVec 32) (u : ChatUser) : ChatUser :=
  { u with flags := u.flags ^^^ perm }

/-- Any user on the server can be named, in whatever room. -/
def chatMaketalk (s : Chat) (unum : Nat) (msg : Bytes) : Chat :=
  let newop := (nextword msg).1
  if !s.mayRule unum then s.sendToUnum unum msgNotOp
  else match chatidToIndx cfg s.toHall unum newop with
    | none => s.printToUnum unum (msgNoSuchId newop)
    | some recunum =>
      if unum = recunum then s.printToUnum unum msgJustTalk
      else
        let s := s.setUser recunum (ChatUser.toggle permTalk)
        let text := if s.cantalk recunum then msgGivesTalk else msgTakesTalk
        s.printToRoom cfg (s.users recunum).room
          (text (s.users unum).chatid (s.users recunum).chatid)

def chatHand (s : Chat) (unum : Nat) : Chat :=
  if !s.notalk (s.users unum).room then s.sendToUnum unum msgNoNeedToAsk
  else
    let rulers := (List.range cfg.maxActive).filter fun i => s.sysop i || s.roomop i
    let s := rulers.foldl (fun s i => s.printToUnum i (msgHandUp (s.users unum).chatid)) s
    s.printToUnum unum (msgHandShown (s.users unum).chatid)

def chatPaper (s : Chat) (unum : Nat) : Chat :=
  let s := s.setUser unum (ChatUser.toggle permMessage)
  s.printToUnum unum (msgPaperState (if s.mesg unum then textOpen else textClosed))

/-! ## Social commands -/

/-- A text of the social commands: a demonstration for the user alone, or for the room. -/
def Chat.perform (s : Chat) (unum : Nat) (self : Bool) (text : Bytes) : Chat :=
  if self then ((s.sendToUnum unum msgDemonstration).printToUnum unum text).sendToUnum unum []
  else s.printToRoom cfg (s.users unum).room text

/-- `party_action`, and whether the verb was one of its table. -/
def partyAction (s : Chat) (unum : Nat) (cmd party : Bytes) (self : Bool) : Chat × Bool :=
  match cfg.partyData.find? fun a => a.verb = cmd with
  | none => (s, false)
  | some a =>
    let act := fun party =>
      s.perform cfg unum self (msgParty (s.users unum).chatid a.part1Msg party a.part2Msg)
    if party = [] then (act msgEverybody, true)
    else match fuzzyChatidToIndx cfg s.toHall unum party with
      | .nobody => (s.printToUnum unum (msgNoSuchId party), true)
      | .ambiguous => (s.printToUnum unum msgWhichRoomAction, true)
      | .found recunum => (act (s.users recunum).chatid, true)

def speakAction (s : Chat) (unum : Nat) (cmd msg : Bytes) (self : Bool) : Chat × Bool :=
  match cfg.speakData.find? fun a => a.verb = cmd with
  | none => (s, false)
  | some a => (s.perform cfg unum self (msgSpeak (s.users unum).chatid a.part1Msg msg), true)

def conditionAction (s : Chat) (unum : Nat) (cmd : Bytes) (self : Bool) : Chat × Bool :=
  match cfg.conditionData.find? fun a => a.verb = cmd with
  | none => (s, false)
  | some a => (s.perform cfg unum self (msgCondition (s.users unum).chatid a.part1Msg), true)

/-- The columns of a list of verbs: `strncat` adds at most the eight spaces of its text. -/
def verbColumn (verb : Bytes) : Bytes :=
  verb ++ List.replicate (if verb.length ≤ 10 then min 8 (10 - verb.length) else 8) 32

/-- Eight verbs to a row, and what stands in `chatbuf` behind the last full row. -/
def verbRows : List Bytes → List Bytes × Bytes
  | a :: b :: c :: d :: e :: f :: g :: h :: rest =>
    let (rows, last) := verbRows rest
    (([a, b, c, d, e, f, g].flatMap verbColumn ++ h) :: rows, last)
  | verbs => ([], verbs.flatMap verbColumn)

def listVerbs (s : Chat) (unum : Nat) (dscrb : Bytes) (verbs : List Bytes) : Chat :=
  let (rows, last) := verbRows verbs
  let s := (s.format []).sendToUnum unum dscrb
  let s := rows.foldl (fun s row => (s.printToUnum unum row).format []) s
  let s := if (verbs.length + 1) % 8 ≠ 0 then s.printToUnum unum last else s.format last
  s.sendToUnum unum (bytes " ")

def viewActionVerb (s : Chat) (unum : Nat) (id : Bytes) : Chat :=
  let verbs := [cfg.partyData, cfg.speakData, cfg.conditionData]
  let i := atoi id - 1
  if 0 ≤ i ∧ i ≤ 2 then
    listVerbs s unum (dscrb.getD i.toNat []) ((verbs.getD i.toNat []).map (·.verb))
  else
    let (s, done) := partyAction cfg s unum id [] true
    if done then s else
    let (s, done) := speakAction cfg s unum id msgSpeakExample true
    if done then s else
    let (s, done) := conditionAction cfg s unum id true
    if done then s else
    let s := (s.sendToUnum unum msgActionHelp).sendToUnum unum (bytes "  ")
    let s := s.printAll unum (dscrb.zipIdx.map fun (text, i) => msgHelpRow (i + 1) text)
    s.sendToUnum unum (bytes " ")

/-! ## Lines -/

/-- The commands in the order of `chatcmdlist`. -/
inductive ChatCmd
  | act | bye | flags | invite | join | kick | msg | nick | operator | talk | rooms | whoin | wall
  | cloak | who | list | topic | hand | rname | paper
  deriving DecidableEq, Repr

/-- `chatcmdlist`: the name of each command, and whether it must be written out. -/
def chatcmdlist : List (Bytes × ChatCmd × Bool) :=
  [(bytes "act", .act, false), (bytes "bye", .bye, false), (bytes "flags", .flags, false),
    (bytes "invite", .invite, false), (bytes "join", .join, false), (bytes "kick", .kick, false),
    (bytes "msg", .msg, false), (bytes "nick", .nick, false), (bytes "operator", .operator, false),
    (bytes "talk", .talk, false), (bytes "rooms", .rooms, false), (bytes "whoin", .whoin, true),
    (bytes "wall", .wall, true), (bytes "cloak", .cloak, true), (bytes "who", .who, false),
    (bytes "list", .list, false), (bytes "topic", .topic, false), (bytes "hand", .hand, false),
    (bytes "rname", .rname, false), (bytes "paper", .paper, false)]

def findCmd (cmd : Bytes) : Option ChatCmd :=
  (chatcmdlist.find? fun (cmdstr, _, exact) =>
    if exact then strcasecmpEq cmd cmdstr else strncasecmpEq cmd cmdstr cmd.length).map (·.2.1)

def ChatCmd.run (s : Chat) (unum : Nat) (msg : Bytes) : ChatCmd → Chat
  | .act => chatAct cfg s unum msg
  | .bye => chatGoodbye cfg s unum msg
  | .flags => chatSetroom cfg s unum msg
  | .invite => chatInvite cfg s unum msg
  | .join => chatJoin cfg s unum msg
  | .kick => chatKick cfg s unum msg
  | .msg => chatPrivate cfg s unum msg
  | .nick => chatNick cfg s unum msg
  | .operator => chatMakeop cfg s unum msg
  | .talk => chatMaketalk cfg s unum msg
  | .rooms => chatListRooms s unum
  | .whoin => chatListByRoom cfg s unum msg
  | .wall => chatBroadcast cfg s unum msg
  | .cloak => chatCloak s unum
  | .who => chatMapChatidsThisroom cfg s unum
  | .list => chatListUsers cfg s unum msg
  | .topic => chatTopic cfg s unum msg
  | .hand => chatHand cfg s unum
  | .rname => chatRename cfg s unum msg
  | .paper => chatPaper s unum

/-- A line that starts with two slashes: `cmd` is its first word without them. -/
def socialCommand (s : Chat) (unum : Nat) (cmd msg : Bytes) : Chat × Bool :=
  if cmd = bytes "help" ∨ cmd = [] then (viewActionVerb cfg s unum (nextword msg).1, true)
  else if s.noemote (s.users unum).room then (s.sendToUnum unum msgNoEmote, true)
  else
    let (s, done) := partyAction cfg s unum cmd msg false
    if done then (s, true) else
    let (s, done) := speakAction cfg s unum cmd msg false
    if done then (s, true) else
    conditionAction cfg s unum cmd false

/-- How `command_execute` reads a line of a user who is in a room. -/
inductive ChatLine
  | say (msg : Bytes)
  | social (cmd msg : Bytes)
  | command (command : ChatCmd) (msg : Bytes)
  | unknown (cmd : Bytes)

def parseLine : Bytes → ChatLine
  | 47 :: msg =>
    let (cmd, msg) := nextword msg
    match cmd with
    | 47 :: cmd => .social cmd msg
    | cmd => match findCmd cmd with
      | some command => .command command msg
      | none => .unknown cmd
  | msg => .say msg

def commandExecute (s : Chat) (unum : Nat) : Chat × Int :=
  let u := s.users unum
  if u.room = -1 then
    match u.line with
    | 47 :: 33 :: msg => loginUser cfg s unum msg
    | _ => (s, -1)
  else match parseLine u.line with
    | .say msg =>
      if s.notalk u.room && !s.sysop unum && !s.roomop unum && !s.cantalk unum then
        (s.printToUnum unum msgNoTalk, 0)
      else (chatAllmsg cfg s unum msg, 0)
    | .social cmd msg =>
      let (s, done) := socialCommand cfg s unum cmd msg
      if done then (s, 0) else (s.printToUnum unum (msgNoSuchCommand (47 :: cmd)), 0)
    | .command command msg => (command.run cfg s unum msg, 0)
    | .unknown cmd => (s.printToUnum unum (msgNoSuchCommand cmd), 0)

end ArgoBbs

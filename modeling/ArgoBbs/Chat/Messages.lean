import ArgoBbs.Lib.CString

/-! # The texts of the chat server

The texts that `station.c` sends or prints, in its encoding, as functions of what `snprintf` puts
into them. -/

namespace ArgoBbs

def msgNotOp : Bytes :=
  bytes "\x1b[1;37m\xa1\xef\x1b[32m\xc4\xfa\xb2\xbb\xca\xc7\xd5\xe2\xcf\xe1\xb7\xbf" ++
    bytes "\xb5\xc4\xc0\xcf\xb4\xf3\x1b[37m \xa1\xef\x1b[m"

def msgNoSuchId (id : Bytes) : Bytes :=
  bytes "\x1b[1;37m\xa1\xef\x1b[32m [\x1b[36m" ++ id ++
    bytes "\x1b[32m] \xb2\xbb\xd4\xda\xd5\xe2\xbc\xe4\xcf\xe1\xb7\xbf\xc0\xef\x1b[37m " ++
    bytes "\xa1\xef\x1b[m"

def msgNotHere (id : Bytes) : Bytes :=
  bytes "\x1b[1;37m\xa1\xef \x1b[32m[\x1b[36m" ++ id ++
    bytes "\x1b[32m] \xb2\xa2\xc3\xbb\xd3\xd0\xc7\xb0\xc0\xb4\xb1\xbe\xbb\xe1\xd2\xe9" ++
    bytes "\xcc\xfc\x1b[37m \xa1\xef\x1b[m"

def msgLeaves (chatid : Bytes) : Bytes :=
  bytes "\x1b[1;37m\xa1\xef \x1b[32m[\x1b[36m" ++ chatid ++
    bytes "\x1b[32m] \xc2\xfd\xc2\xfd\xc0\xeb\xbf\xaa\xc1\xcb \x1b[37m\xa1\xef\x1b[m"

def msgLostConn (chatid : Bytes) : Bytes :=
  bytes "\x1b[1;37m\xa1\xef \x1b[32m[\x1b[36m" ++ chatid ++
    bytes "\x1b[32m] \xcf\xf1\xb6\xcf\xc1\xcb\xcf\xdf\xb5\xc4\xb7\xe7\xf3\xdd ... \x1b[37m" ++
    bytes "\xa1\xef\x1b[m"

def msgKicked (chatid : Bytes) : Bytes :=
  bytes "\x1b[1;37m\xa1\xef \x1b[32m[\x1b[36m" ++ chatid ++
    bytes "\x1b[32m] \xb1\xbb\xc0\xcf\xb4\xf3\xb8\xcf\xb3\xf6\xc8\xa5\xc1\xcb \x1b[37m" ++
    bytes "\xa1\xef\x1b[m"

def msgWhichName : Bytes :=
  bytes "\x1b[1;31m\xa1\xf2 \x1b[37m\xc7\xeb\xd6\xb8\xb6\xa8\xd0\xc2\xb5\xc4\xc1\xc4" ++
    bytes "\xcc\xec\xca\xd2\xc3\xfb\xb3\xc6 \x1b[31m\xa1\xf2\x1b[m"

def msgRenames (chatid name : Bytes) : Bytes :=
  bytes "\x1b[1;37m\xa1\xef \x1b[32m[\x1b[36m" ++ chatid ++
    bytes "\x1b[32m] \xbd\xab\xc1\xc4\xcc\xec\xca\xd2\xc3\xfb\xb3\xc6\xb8\xc4\xce\xaa " ++
    bytes "\x1b[1;33m" ++ name.take 11 ++ bytes " \x1b[37m\xa1\xef\x1b[m"

def msgWhichTopic : Bytes :=
  bytes "\x1b[1;31m\xa1\xf2 \x1b[37m\xc7\xeb\xd6\xb8\xb6\xa8\xbb\xb0\xcc\xe2 \x1b[31m" ++
    bytes "\xa1\xf2\x1b[m"

def msgSetsTopic (chatid topic : Bytes) : Bytes :=
  bytes "\x1b[1;37m\xa1\xef \x1b[32m[\x1b[36m" ++ chatid ++
    bytes "\x1b[32m] \xbd\xab\xbb\xb0\xcc\xe2\xb8\xc4\xce\xaa \x1b[1;33m" ++
    padLeft 42 (topic.take 42) ++ bytes " \x1b[37m\xa1\xef\x1b[m"

def msgNoNewRoom : Bytes :=
  bytes "\x1b[1;31m\xa1\xf2 \x1b[37m\xb1\xa7\xc7\xb8\xa3\xac\xc4\xfa\xb2\xbb\xc4\xdc" ++
    bytes "\xbf\xaa\xd0\xc2\xb0\xfc\xcf\xe1 \x1b[31m\xa1\xf2\x1b[m"

def msgRoomsFull : Bytes :=
  bytes "\x1b[1;31m\xa1\xf2 \x1b[37m\xce\xd2\xc3\xc7\xb5\xc4\xb7\xbf\xbc\xe4\xc2\xfa" ++
    bytes "\xc1\xcb\xe0\xb8 \x1b[31m\xa1\xf2\x1b[m"

def msgRoomLocked : Bytes :=
  bytes "\x1b[1;31m\xa1\xf2 \x1b[37m\xb1\xbe\xb7\xbf\xc9\xcc\xcc\xd6\xbb\xfa\xc3\xdc" ++
    bytes "\xd6\xd0\xa3\xac\xb7\xc7\xc7\xeb\xce\xf0\xc8\xeb \x1b[31m\xa1\xf2\x1b[m"

def msgEnters (chatid name : Bytes) : Bytes :=
  bytes "\x1b[1;31m\xa1\xf5 \x1b[37m[\x1b[36;1m" ++ chatid ++
    bytes "\x1b[37m] \xbd\xf8\xc8\xeb \x1b[35m" ++ name ++
    bytes " \x1b[37m\xb0\xfc\xcf\xe1 \x1b[31m\xa1\xf5\x1b[m"

def msgWelcome (bbsName chatname : Bytes) : Bytes :=
  bytes "\x1b[1;31m\xa1\xf5\x1b[37m \xbb\xb6\xd3\xad\xb9\xe2\xc1\xd9\xa1\xba\x1b[32m" ++ bbsName ++
    bytes "\x1b[37m\xa1\xbb\xb5\xc4\xa1\xbe\x1b[36m" ++ chatname ++
    bytes "\x1b[37m\xa1\xbf\x1b[31m\xa1\xf5\x1b[m"

def msgRoomCount (n : Nat) : Bytes :=
  bytes "\x1b[1;31m\xa1\xf5\x1b[37m \xc4\xbf\xc7\xb0\xd2\xd1\xbe\xad\xd3\xd0 \x1b[1;33m" ++
    decimal n ++
    bytes " \x1b[37m\xbc\xe4\xbb\xe1\xd2\xe9\xca\xd2\xd3\xd0\xbf\xcd\xc8\xcb \x1b[31m" ++
    bytes "\xa1\xf5\x1b[m"

def msgUserCount (n : Nat) : Bytes :=
  bytes "\x1b[1;31m\xa1\xf5 \x1b[37m\xb1\xbe\xbb\xe1\xd2\xe9\xcc\xfc\xc4\xda\xb9\xb2" ++
    bytes "\xd3\xd0 \x1b[36m" ++ decimal n ++ bytes "\x1b[37m \xc8\xcb "

def msgSecretCount (n : Nat) : Bytes :=
  bytes "[\x1b[36m" ++ decimal n ++
    bytes "\x1b[37m \xc8\xcb\xd4\xda\xb8\xdf\xbb\xfa\xc3\xdc\xcc\xd6\xc2\xdb\xca\xd2]"

def msgCountEnd : Bytes :=
  bytes "\x1b[31m\xa1\xf5\x1b[m"

def msgNoRoomList : Bytes :=
  bytes "\x1b[1;31m\xa1\xf2 \x1b[37m\xb1\xa7\xc7\xb8\xa3\xa1\xc0\xcf\xb4\xf3\xb2\xbb" ++
    bytes "\xc8\xc3\xc4\xe3\xbf\xb4\xd3\xd0\xc4\xc4\xd0\xa9\xb7\xbf\xbc\xe4\xd3\xd0\xbf\xcd" ++
    bytes "\xc8\xcb \x1b[31m\xa1\xf2\x1b[m"

def msgRoomsHead : Bytes :=
  bytes "\x1b[1;33;44m \xcc\xb8\xcc\xec\xca\xd2\xc3\xfb\xb3\xc6  \xa9\xa6\xc8\xcb\xca\xfd" ++
    bytes "\xa9\xa6\xbb\xb0\xcc\xe2            \x1b[m"

def msgRoomRow (name : Bytes) (occupants : Nat) (topic : Bytes) : Bytes :=
  bytes " \x1b[1;32m" ++ padRight 12 name ++ bytes "\x1b[37m\xa9\xa6\x1b[36m" ++
    padLeft 4 (decimal occupants) ++ bytes "\x1b[37m\xa9\xa6\x1b[33m" ++ topic ++ bytes "\x1b[m"

def msgUsersHead : Bytes :=
  bytes "\x1b[1;33;44m \xc1\xc4\xcc\xec\xb4\xfa\xba\xc5\xa9\xa6\xca\xb9\xd3\xc3\xd5\xdf" ++
    bytes "\xb4\xfa\xba\xc5  \xa9\xa6\xc1\xc4    \xcc\xec    \xca\xd2\xa1\xf5Op\xa1\xf5" ++
    bytes "\xc0\xb4\xd7\xd4                          \x1b[m"

def msgUserRow (mark : UInt8) (chatid colour userid name op host : Bytes) : Bytes :=
  bytes "\x1b[1;5m" ++ [mark] ++ bytes "\x1b[0;1;37m" ++ padRight 8 chatid ++
    bytes "\xa9\xa6\x1b[31m" ++ colour ++ padRight 12 userid ++ bytes "\x1b[37m\xa9\xa6\x1b[32m" ++
    padRight 14 name ++ bytes "\x1b[37m\xa1\xf5\x1b[34m" ++ padRight 2 op ++
    bytes "\x1b[37m\xa1\xf5\x1b[35m" ++ padRight 30 host ++ bytes "\x1b[m"

def msgNoSuchRoom (room : Bytes) : Bytes :=
  bytes "\x1b[1;31m\xa1\xf2 \x1b[37m\xc3\xbb " ++ room ++
    bytes " \xd5\xe2\xb8\xf6\xb7\xbf\xbc\xe4\xe0\xb8 \x1b[31m\xa1\xf2\x1b[m"

def msgSecretRoom : Bytes :=
  bytes "\x1b[1;31m\xa1\xf2 \x1b[37m\xb1\xbe\xbb\xe1\xd2\xe9\xcc\xfc\xb5\xc4\xb7\xbf" ++
    bytes "\xbc\xe4\xbd\xd4\xb9\xab\xbf\xaa\xb5\xc4\xa3\xac\xc3\xbb\xd3\xd0\xc3\xd8\xc3\xdc " ++
    bytes "\x1b[31m\xa1\xf2\x1b[m"

def msgMapHead : Bytes :=
  bytes "\x1b[1;33;44m \xc1\xc4\xcc\xec\xb4\xfa\xba\xc5 \xca\xb9\xd3\xc3\xd5\xdf\xb4\xfa" ++
    bytes "\xba\xc5  \xa9\xa6 \xc1\xc4\xcc\xec\xb4\xfa\xba\xc5 \xca\xb9\xd3\xc3\xd5\xdf" ++
    bytes "\xb4\xfa\xba\xc5  \xa9\xa6 \xc1\xc4\xcc\xec\xb4\xfa\xba\xc5 \xca\xb9\xd3\xc3" ++
    bytes "\xd5\xdf\xb4\xfa\xba\xc5 \x1b[m"

def msgMapCell (mark : UInt8) (chatid : Bytes) (op : UInt8) (colour userid bar : Bytes) : Bytes :=
  bytes "\x1b[1;34;5m" ++ [mark] ++ bytes "\x1b[m\x1b[1m" ++ padRight 8 chatid ++ [op] ++ colour ++
    padRight 12 userid ++ bar ++ bytes "\x1b[m"

def msgWhichMode : Bytes :=
  bytes "\x1b[1;31m\xa1\xd1 \x1b[37m\xc7\xeb\xb8\xe6\xcb\xdf\xb9\xf1\xcc\xa8\xc4\xfa" ++
    bytes "\xd2\xaa\xb5\xc4\xb7\xbf\xbc\xe4\xca\xc7: \x7b[\x1b[32m+\x1b[37m(\xc9\xe8\xb6\xa8)" ++
    bytes "][\x1b[32m-\x1b[37m(\xc8\xa1\xcf\xfb)]\x7d\x7b[\x1b[32ml\x1b[37m(\xcb\xf8\xd7\xa1)" ++
    bytes "][\x1b[32ms\x1b[37m(\xc3\xd8\xc3\xdc)]\x7d\x1b[m"

def msgNoMode (c : UInt8) : Bytes :=
  bytes "\x1b[1;31m\xa1\xf2 \x1b[37m\xb1\xa7\xc7\xb8\xa3\xac\xbf\xb4\xb2\xbb\xb6\xae" ++
    bytes "\xc4\xe3\xb5\xc4\xd2\xe2\xcb\xbc\xa3\xba[\x1b[36m" ++ [c] ++
    bytes "\x1b[37m] \x1b[31m\xa1\xf2\x1b[m"

def msgModeSet (chatid sign mode : Bytes) : Bytes :=
  bytes "\x1b[1;37m\xa1\xef\x1b[32m \xd5\xe2\xb7\xbf\xbc\xe4\xb1\xbb " ++ chatid ++ bytes " " ++
    sign ++ mode ++ bytes "\xb5\xc4\xd0\xce\xca\xbd \x1b[37m\xa1\xef\x1b[m"

def msgBadNick : Bytes :=
  bytes "\x1b[1;31m\xa1\xf2 \x1b[37m\xc4\xfa\xb5\xc4\xc3\xfb\xd7\xd6\xca\xc7\xb2\xbb" ++
    bytes "\xca\xc7\xd0\xb4\xb4\xed\xc1\xcb\x1b[31m \xa1\xf2\x1b[m"

def msgNickTaken : Bytes :=
  bytes "\x1b[1;31m\xa1\xf2 \x1b[37m\xb1\xa7\xc7\xb8\xa3\xa1\xd3\xd0\xc8\xcb\xb8\xfa" ++
    bytes "\xc4\xe3\xcd\xac\xc3\xfb\xa3\xac\xcb\xf9\xd2\xd4\xc4\xe3\xb2\xbb\xc4\xdc\xbd\xf8" ++
    bytes "\xc0\xb4 \x1b[31m\xa1\xf2\x1b[m"

def msgNewNick (chatid nick : Bytes) : Bytes :=
  bytes "\x1b[1;31m\xa1\xf2 \x1b[36m" ++ chatid ++
    bytes " \x1b[0;37m\xd2\xd1\xbe\xad\xb8\xc4\xc3\xfb\xce\xaa \x1b[1;33m" ++ nick ++
    bytes " \x1b[31m\xa1\xf2\x1b[m"

def msgAmbiguous : Bytes :=
  bytes "\x1b[1;31m \xa1\xf2\x1b[37m \xc4\xc7\xce\xbb\xb2\xce\xd3\xeb\xd5\xdf\xbd\xd0" ++
    bytes "\xca\xb2\xc3\xb4\xc3\xfb\xd7\xd6 \x1b[31m\xa1\xf2\x1b[m"

def msgPaperClosed : Bytes :=
  bytes "\x1b[1;31m \xa1\xf2\x1b[37m \xb6\xd4\xb7\xbd\xb9\xd8\xb1\xd5\xc1\xcb\xb1\xe3" ++
    bytes "\xbc\xe3\xcf\xe4 \x1b[31m\xa1\xf2\x1b[m"

def msgPaperFrom (chatid : Bytes) : Bytes :=
  bytes "\x1b[1;32m \xa1\xf9 \x1b[36m" ++ chatid ++
    bytes " \x1b[37m\xb4\xab\xd6\xbd\xcc\xf5\xd0\xa1\xc3\xd8\xca\xe9\xc0\xb4\xb5\xbd\x1b[m:" ++
    bytes " "

def msgPaperTo (chatid : Bytes) : Bytes :=
  bytes "\x1b[1;32m \xa1\xf9 \x1b[37m\xd6\xbd\xcc\xf5\xd2\xd1\xbe\xad\xbd\xbb\xb8\xf8" ++
    bytes "\xc1\xcb \x1b[36m" ++ chatid ++ bytes "\x1b[m: "

def msgPaperEmpty : Bytes :=
  bytes "\x1b[1;31m \xa1\xf2\x1b[37m \xc4\xe3\xd2\xaa\xb8\xfa\xb6\xd4\xb7\xbd\xcb\xb5" ++
    bytes "\xd0\xa9\xca\xb2\xc3\xb4\xd1\xbd\xa3\xbf\x1b[31m\xa1\xf2\x1b[m"

def msgNoEmote : Bytes :=
  bytes "\xb1\xbe\xc1\xc4\xcc\xec\xca\xd2\xbd\xfb\xd6\xb9\xb6\xaf\xd7\xf7"

def msgAct (chatid msg : Bytes) : Bytes :=
  bytes "\x1b[1;36m" ++ chatid ++ bytes " \x1b[37m" ++ msg ++ bytes "\x1b[m"

def msgCloak (chatid state : Bytes) : Bytes :=
  bytes "\x1b[1;36m" ++ chatid ++ bytes " \x1b[37m" ++ state ++
    bytes " \xd2\xfe\xc9\xed\xd7\xb4\xcc\xac...\x1b[m"

def msgStayHere : Bytes :=
  bytes "\x1b[1;31m\xa1\xf2 \x1b[37m\xc4\xe3\xd6\xbb\xc4\xdc\xd4\xda\xd5\xe2\xc0\xef" ++
    bytes "\xc1\xc4\xcc\xec \x1b[31m\xa1\xf2\x1b[m"

def msgWhichRoom : Bytes :=
  bytes "\x1b[1;31m\xa1\xf2 \x1b[37m\xc7\xeb\xce\xca\xc4\xc4\xb8\xf6\xb7\xbf\xbc\xe4 " ++
    bytes "\x1b[31m\xa1\xf2\x1b[m"

def msgBadRoomName : Bytes :=
  bytes "\x1b[1;31m\xa1\xf2\x1b[37m\xb7\xbf\xbc\xe4\xc3\xfb\xd6\xd0\xb2\xbb\xc4\xdc" ++
    bytes "\xd3\xd0\xa1\xbe*:/%\xa1\xbf\xb5\xc8\xb2\xbb\xba\xcf\xb7\xa8\xd7\xd6\xb7\xfb" ++
    bytes "\x1b[31m\xa1\xf2\x1b[37m"

def msgAlreadyOp : Bytes :=
  bytes "\x1b[1;37m\xa1\xef \x1b[32m\xc4\xe3\xcd\xfc\xc1\xcb\xc4\xe3\xb1\xbe\xc0\xb4" ++
    bytes "\xbe\xcd\xca\xc7\xc0\xcf\xb4\xf3\xe0\xb8 \x1b[37m\xa1\xef\x1b[m"

def msgMakesOp (chatid newop : Bytes) : Bytes :=
  bytes "\x1b[1;37m\xa1\xef \x1b[36m " ++ chatid ++
    bytes "\x1b[32m\xbe\xf6\xb6\xa8\xc8\xc3 \x1b[35m" ++ newop ++
    bytes " \x1b[32m\xb5\xb1\xc0\xcf\xb4\xf3 \x1b[37m\xa1\xef\x1b[m"

def msgComesSoon (chatid : Bytes) : Bytes :=
  bytes "\x1b[1;37m\xa1\xef \x1b[36m" ++ chatid ++
    bytes " \x1b[32m\xb5\xc8\xd2\xbb\xcf\xc2\xbe\xcd\xc0\xb4 \x1b[37m\xa1\xef\x1b[m"

def msgInvites (chatid name : Bytes) : Bytes :=
  bytes "\x1b[1;37m\xa1\xef \x1b[36m" ++ chatid ++
    bytes " \x1b[32m\xd1\xfb\xc7\xeb\xc4\xfa\xb5\xbd [\x1b[33m" ++ name ++
    bytes "\x1b[32m] \xb7\xbf\xbc\xe4\xc1\xc4\xcc\xec\x1b[37m \xa1\xef\x1b[m"

def msgNoWall : Bytes :=
  bytes "\x1b[1;31m\xa1\xf2 \x1b[37m\xc4\xe3\xb2\xbb\xbf\xc9\xd2\xd4\xd4\xda\xbb\xe1" ++
    bytes "\xd2\xe9\xcc\xfc\xc4\xda\xb4\xf3\xc9\xf9\xd0\xfa\xbb\xa9 \x1b[31m\xa1\xf2\x1b[m"

def msgWallEmpty : Bytes :=
  bytes "\x1b[1;37m\xa1\xef \x1b[32m\xb9\xe3\xb2\xa5\xc4\xda\xc8\xdd\xca\xc7\xca\xb2" ++
    bytes "\xc3\xb4 \x1b[37m\xa1\xef\x1b[m"

def msgWallFrom (chatid : Bytes) : Bytes :=
  bytes "\x1b[1m Ding Dong!! \xb4\xab\xb4\xef\xca\xd2\xb1\xa8\xb8\xe6\xa3\xba \x1b[36m" ++ chatid ++
    bytes "\x1b[37m \xd3\xd0\xbb\xb0\xb6\xd4\xb4\xf3\xbc\xd2\xd0\xfb\xb2\xbc\xa3\xba\x1b[m"

def msgWall (msg : Bytes) : Bytes :=
  bytes "\x1b[1;34m\xa1\xbe\x1b[33m" ++ msg ++ bytes "\x1b[34m\xa1\xbf\x1b[m"

def msgEverybody : Bytes :=
  bytes "\xb4\xf3\xbc\xd2"

def msgWhichRoomAction : Bytes :=
  bytes "\x1b[1;31m\xa1\xf2 \x1b[37m\xc7\xeb\xce\xca\xc4\xc4\xbc\xe4\xb7\xbf\xbc\xe4 " ++
    bytes "\x1b[31m\xa1\xf2\x1b[m"

def msgParty (chatid part1 party part2 : Bytes) : Bytes :=
  bytes "\x1b[1;36m" ++ chatid ++ bytes " \x1b[32m" ++ part1 ++ bytes "\x1b[33m " ++ party ++
    bytes " \x1b[32m" ++ part2 ++ bytes "\x1b[37;0m"

def msgDemonstration : Bytes :=
  bytes "\x1b[1;37m\xb6\xaf\xd7\xf7\xd1\xdd\xca\xbe\xa3\xba\x1b[m"

def msgSpeak (chatid part1 msg : Bytes) : Bytes :=
  bytes "\x1b[1;36m" ++ chatid ++ bytes " \x1b[32m" ++ part1 ++ bytes "\xa3\xba\x1b[33m " ++ msg ++
    bytes "\x1b[37;0m"

def msgCondition (chatid part1 : Bytes) : Bytes :=
  bytes "\x1b[1;36m" ++ chatid ++ bytes " \x1b[33m" ++ part1 ++ bytes "\x1b[37;0m"

def msgSpeakExample : Bytes :=
  bytes "\xc4\xe3\xb0\xae\xce\xd2\xc0\xb4\xce\xd2\xb0\xae\xc4\xe3"

def msgActionHelp : Bytes :=
  bytes "\x1b[1;37m\xd3\xc3 //help [\xb1\xe0\xba\xc5] \xbb\xf1\xb5\xc3\xb6\xaf\xd7\xf7" ++
    bytes "\xc1\xd0\xb1\xed\xa3\xac\xd3\xc3 //help [\xb6\xaf\xd7\xf7] \xb9\xdb\xbf\xb4" ++
    bytes "\xb6\xaf\xd7\xf7\xca\xbe\xb7\xb6\x1b[m"

def msgHelpRow (i : Nat) (dscrb : Bytes) : Bytes :=
  decimal i ++ bytes ". " ++ dscrb

def msgJustTalk : Bytes :=
  bytes "\x1b[1;37m\xa1\xef \x1b[32m\xc4\xe3\xca\xc7\xc0\xcf\xb4\xf3\xb0\xa1\xa3\xac" ++
    bytes "\xd3\xd0\xbb\xb0\xd6\xb1\xbd\xd3\xcb\xb5\xbe\xcd\xd0\xd0\xc1\xcb \x1b[37m\xa1\xef" ++
    bytes "\x1b[m"

def msgGivesTalk (chatid other : Bytes) : Bytes :=
  bytes "\x1b[1;37m\xa1\xef \x1b[36m" ++ chatid ++
    bytes " \x1b[32m\xbe\xf6\xb6\xa8\xb0\xd1\xc2\xf3\xbf\xcb\xb7\xe7\xbd\xbb\xb8\xf8 " ++
    bytes "\x1b[35m" ++ other ++ bytes " \x1b[32m \x1b[37m\xa1\xef\x1b[m"

def msgTakesTalk (chatid other : Bytes) : Bytes :=
  bytes "\x1b[1;37m\xa1\xef \x1b[36m" ++ chatid ++
    bytes " \x1b[32m\xbe\xf6\xb6\xa8\xc3\xbb\xca\xd5 \x1b[35m" ++ other ++
    bytes " \x1b[32m\xb5\xc4\xc2\xf3\xbf\xcb\xb7\xe7  \x1b[37m\xa1\xef\x1b[m"

def msgNoNeedToAsk : Bytes :=
  bytes "\x1b[1;31m \xa1\xf2\x1b[37m \xc7\xeb\xc4\xe3\xb3\xa9\xcb\xf9\xd3\xfb\xd1\xd4" ++
    bytes "\xa3\xac\xce\xde\xd0\xe8\xbe\xd9\xca\xd6 \x1b[31m\xa1\xf2\x1b[m"

def msgHandUp (chatid : Bytes) : Bytes :=
  bytes "\x1b[1;37m\xa1\xef \x1b[36m" ++ chatid ++
    bytes " \x1b[32m\xbe\xd9\xc6\xf0\xc1\xcb\xca\xd6\xa3\xac\xba\xc3\xcf\xf1\xcf\xeb" ++
    bytes "\xcb\xb5\xca\xb2\xc3\xb4\xb5\xc4\xd1\xf9\xd7\xd3 \x1b[37m\xa1\xef\x1b[m"

def msgHandShown (chatid : Bytes) : Bytes :=
  bytes "\x1b[1;37m\xa1\xef \x1b[36m" ++ chatid ++
    bytes " \x1b[32m\xcf\xf2\xc0\xcf\xb4\xf3\xc3\xc7\xbe\xd9\xca\xd6\xca\xbe\xd2\xe2 " ++
    bytes "\x1b[37m\xa1\xef\x1b[m"

def msgPaperState (state : Bytes) : Bytes :=
  bytes "\x1b[1;31m\xa1\xf2 \x1b[37m\xc4\xfa\xb5\xc4\xb1\xe3\xbc\xe3\xcf\xe4\xb5\xc4" ++
    bytes "\xd7\xb4\xcc\xac\xc7\xd0\xbb\xbb\xce\xaa [" ++ state ++ bytes "] \x1b[31m\xa1\xf2\x1b[m"

def msgNoTalk : Bytes :=
  bytes "\x1b[1;31m \xa1\xf2\x1b[37m \xc4\xe3\xcf\xd6\xd4\xda\xc3\xbb\xd3\xd0\xc2\xf3" ++
    bytes "\xbf\xcb\xb7\xe7\xa3\xac\xce\xde\xb7\xa8\xcb\xb5\xbb\xb0 \x1b[31m\xa1\xf2\x1b[m"

def msgNoSuchCommand (cmd : Bytes) : Bytes :=
  bytes "\x1b[1;32m \xa1\xf2 \x1b[37m\xb1\xa7\xc7\xb8\xa3\xac\xbf\xb4\xb2\xbb\xb6\xae" ++
    bytes "\xc4\xe3\xb5\xc4\xd2\xe2\xcb\xbc\xa3\xba\x1b[36m/" ++ cmd ++
    bytes " \x1b[31m\xa1\xf2\x1b[m"

def markLocked : Bytes := bytes " [\xcb\xf8\xd7\xa1]"

def markSecret : Bytes := bytes " [\xbb\xfa\xc3\xdc]"

def markNoemote : Bytes := bytes " [\xbd\xfb\xd6\xb9\xb6\xaf\xd7\xf7]"

def markSchool : Bytes := bytes " [\xd2\xbb\xc8\xcb\xcc\xe1\xce\xca]"

def textLocked : Bytes := bytes "\xcb\xf8\xd7\xa1"

def textSecret : Bytes := bytes "\xbb\xfa\xc3\xdc"

def textNoemote : Bytes := bytes "\xbd\xfb\xd6\xb9\xb6\xaf\xd7\xf7"

def textSchool : Bytes := bytes "\xd2\xbb\xc8\xcb\xcc\xe1\xce\xca"

def textSet : Bytes := bytes "\xc9\xe8\xb6\xa8\xce\xaa"

def textUnset : Bytes := bytes "\xc8\xa1\xcf\xfb"

def colourOutsider : Bytes := bytes "\x1b[1;35m"

def colourUser : Bytes := bytes "\x1b[1;36m"

def textOp : Bytes := bytes "\xca\xc7"

def textNoOp : Bytes := bytes "\xb7\xf1"

def barCell : Bytes := bytes "\xa9\xa6"

def barRow : Bytes := bytes "  "

def textCloakOn : Bytes := bytes "\xbd\xf8\xc8\xeb"

def textCloakOff : Bytes := bytes "\xcd\xa3\xd6\xb9"

def textOpen : Bytes := bytes "\xbf\xaa\xc6\xf4"

def textClosed : Bytes := bytes "\xb9\xd8\xb1\xd5"

def dscrb : List Bytes :=
  [bytes "\x1b[1m\xa1\xbe Verb + Nick\xa3\xba   \xb6\xaf\xb4\xca + \xb6\xd4" ++
      bytes "\xb7\xbd\xc3\xfb\xd7\xd6 \xa1\xbf\x1b[m",
    bytes "\x1b[1m\xa1\xbe Verb + Message\xa3\xba\xb6\xaf\xb4\xca + \xd2\xaa" ++
      bytes "\xcb\xb5\xb5\xc4\xbb\xb0 \xa1\xbf\x1b[m",
    bytes "\x1b[1m\xa1\xbe Verb\xa3\xba\xb6\xaf\xb4\xca \xa1\xbf\x1b[m"]

end ArgoBbs

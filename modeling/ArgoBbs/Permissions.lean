/-! # Permissions

The permissions of users and the levels of boards (`permissions.h`). -/

namespace ArgoBbs

def permBasic : BitVec 32 := 0o1
def permChat : BitVec 32 := 0o2
def permPage : BitVec 32 := 0o4
def permPost : BitVec 32 := 0o10
def permLoginok : BitVec 32 := 0o20
def permDenypost : BitVec 32 := 0o40
def permWelcome : BitVec 32 := 0o1000
def permBoards : BitVec 32 := 0o2000
def permChatcloak : BitVec 32 := 0o10000
def permSysop : BitVec 32 := 0o40000
def permPostmask : BitVec 32 := 0o100000
def permOboards : BitVec 32 := 0o400000
def permAcboard : BitVec 32 := 0o1000000
def permNozap : BitVec 32 := 0o2000000
def permMessage : BitVec 32 := 0o20000000
def permSendmail : BitVec 32 := 0o40000000
def permInternal : BitVec 32 := 0o200000000
def permAchatroom : BitVec 32 := 0o2000000000
def permSuicide : BitVec 32 := 0o4000000000

def permReadmail : BitVec 32 := permBasic

def permLargemail : BitVec 32 := permOboards ||| permAcboard

def permDefault : BitVec 32 :=
  permBasic ||| permChat ||| permPage ||| permPost ||| permLoginok ||| permMessage ||| permSendmail

def permBlevels : BitVec 32 := permSysop ||| permOboards

end ArgoBbs

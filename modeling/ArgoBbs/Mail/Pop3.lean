import ArgoBbs.Lib.CString
import ArgoBbs.Lib.Fgets
import ArgoBbs.Lib.Reach
import Mathlib.Algebra.GroupWithZero.Nat

/-! # The mail server for remote readers

`bbspop3d.c` serves the mailboxes of the users by the protocol POP3. A connection names a user,
gives a password, and then reads a snapshot of the mailbox; messages deleted in it are taken out of
the mailbox at the end of the session, while new mail may have arrived in the meantime. -/

namespace ArgoBbs.Pop3

def FILE_MARKED : BitVec 32 := 0x08
def FILE_DIGEST : BitVec 32 := 0x10

/-- The fields of a `struct userec` that the server looks at. -/
structure Account where
  userid : Bytes
  passwd : Bytes
  numlogins : Int
  deriving DecidableEq

/-- The fields of a `struct fileheader` that the server looks at. -/
structure Mail where
  owner : Bytes
  title : Bytes
  filename : Bytes
  flag : BitVec 32
  deriving DecidableEq

/-- In a snapshot `FILE_DIGEST` marks what the reader has deleted. -/
def isDeleted (flag : BitVec 32) : Bool := flag &&& FILE_DIGEST ≠ 0

/-- What the server is compiled with, what it asks the system for, and the check of a password.
`freed` are the flags that are read from a snapshot after it was given back. -/
structure Config where
  BBSHOST : Bytes
  hostname : Bytes
  checkpasswd2 : Bytes → Account → Bool
  freed : List Mail → Nat → BitVec 32

/-- The accounts in `.PASSWDS`, and the mailboxes: their `.DIR`, what a server has left of
`pop3.DIR`, and the files of the messages. -/
structure Site where
  passwds : List Account
  dir : Bytes → Option (List Mail)
  pop3 : Bytes → List Mail
  file : Bytes → Bytes → Option Bytes

/-- The variables of the process that serves a connection; `login` is `State == S_LOGIN`. -/
structure Session where
  login : Bool
  LowUserid : Bytes
  currentuser : Account
  fcache : List Mail
  postlen : List Nat
  totalbyte : Nat
  markdel : Nat

structure World where
  site : Site
  session : Session
  closed : Bool
  /-- The lines sent so far, without what ends them. -/
  sent : List Bytes

/-! ## Commands -/

def Isspace (c : UInt8) : Bool := c = 32 || c = 9 || c = 10 || c = 13

/-- A word, and what is behind the character that ends it. -/
def nextword (s : Bytes) : Bytes × Bytes :=
  let s := s.dropWhile Isspace
  (s.takeWhile (!Isspace ·), (s.dropWhile (!Isspace ·)).tail)

def nextwordlower (s : Bytes) : Bytes × Bytes :=
  let (word, rest) := nextword s
  (word.map tolower, rest)

/-- The functions of `cmdlists`, with the argument that each takes from the line. -/
inductive Command
  | Retr (arg : Bytes)
  | Dele (arg : Bytes)
  | User (arg : Bytes)
  | Pass (arg : Bytes)
  | Stat
  | List (arg : Bytes)
  | Uidl (arg : Bytes)
  | Quit
  | Rset
  | Last
  | Noop
  | unknown (cmd : Bytes)
  deriving DecidableEq

/-- The end of the line that `fgets` read is cut off: its last character, and a carriage return. -/
def chop (inbuf : Bytes) : Bytes :=
  let s := inbuf.dropLast
  if s.getLast? = some 13 then s.dropLast else s

/-- The command of a line, if it has one. -/
def command? (inbuf : Bytes) : Option Command :=
  let (cmd, msg) := nextwordlower (chop inbuf)
  if cmd = [] then none
  else if cmd = bytes "retr" then some (.Retr (nextword msg).1)
  else if cmd = bytes "dele" then some (.Dele (nextword msg).1)
  else if cmd = bytes "user" then some (.User (nextwordlower msg).1)
  else if cmd = bytes "pass" then some (.Pass (nextword msg).1)
  else if cmd = bytes "stat" then some .Stat
  else if cmd = bytes "list" then some (.List (nextword msg).1)
  else if cmd = bytes "uidl" then some (.Uidl (nextword msg).1)
  else if cmd = bytes "quit" then some .Quit
  else if cmd = bytes "rset" then some .Rset
  else if cmd = bytes "last" then some .Last
  else if cmd = bytes "noop" then some .Noop
  else some (.unknown cmd)

/-! ## Answers -/

/-- `outs` cuts what does not fit its buffer. -/
def outs (str : Bytes) : Bytes := str.take 1021

/-- `filter` drops the control sequences of a terminal from a line. -/
def filter : Bool → Bytes → Bytes
  | _, [] => []
  | stat, c :: line =>
    let stat := stat || c = 0x1b
    let out := if stat then [] else [c]
    let letter := (97 < c ∧ c < 122) ∨ (65 < c ∧ c < 90) ∨ c = 64
    out ++ filter (stat && !decide letter) line

/-- One line of a message. -/
def outline (piece : Bytes) : Bytes :=
  let line := filter false piece.dropLast
  if line = bytes "." then bytes ".." else line

/-- The lines sent for a file, which a dot ends. -/
def outfile (linenum : Nat) (content : Option Bytes) : List Bytes :=
  ((content.elim [] fgetsLines).take linenum).map outline ++ [bytes "."]

def unknownCommand (name : String) : Bytes :=
  bytes "-ERR Unknown command: \"" ++ bytes name ++ bytes "\"."

def tooFew (name : String) : Bytes :=
  bytes "-ERR Too few arguments for the " ++ bytes name ++ bytes " command."

def messageText (n : Int) (text : String) : Bytes :=
  bytes "-ERR Message " ++ printInt n ++ bytes text

namespace Session

def totalnum (s : Session) : Nat := s.fcache.length

/-- The message that an argument names: its place, or the answer that there is none. -/
def find (s : Session) (arg : Bytes) (deleted : String) : Except Bytes Nat :=
  let num := atoi arg
  if num ≤ 0 ∨ (s.totalnum : Int) < num then .error (messageText num " does not exist.")
  else if (s.fcache[num.toNat - 1]?).any (isDeleted ·.flag) then .error (messageText num deleted)
  else .ok (num.toNat - 1)

end Session

/-- `get_userdata` reads one account after the other over `currentuser`, up to the one it looks for.
-/
def get_userdata (user : Bytes) : List Account → Account → Account × Bool
  | [], currentuser => (currentuser, false)
  | a :: rest, _ =>
    if a.numlogins ≤ 0 then get_userdata user rest a
    else if strcasecmpEq user a.userid then (a, true)
    else get_userdata user rest a

/-- The owner of a message as an address. -/
def address (cfg : Config) (owner : Bytes) : Bytes :=
  if 64 ∈ owner then owner
  else owner.takeWhile (· ≠ 32) ++ bytes ".bbs@" ++ cfg.BBSHOST

/-- `Login_init` takes the snapshot of the mailbox. -/
def Login_init (cfg : Config) (site : Site) (s : Session) : Session :=
  let fcache := ((site.dir s.LowUserid).getD []).map fun m =>
    { m with owner := address cfg m.owner }
  let postlen := fcache.map fun m =>
    ((site.file s.LowUserid m.filename).elim 0 List.length) + m.owner.length + 10 +
      m.title.length + 10 + 40
  { s with fcache, postlen, totalbyte := postlen.sum }

/-- The commands of the state `S_LOGIN`, but for `QUIT`. -/
def Session.exec (cfg : Config) (site : Site) (s : Session) : Command → Session × List Bytes
  | .Retr arg =>
    if arg = [] then (s, [tooFew "retr"])
    else
      match s.find arg " has been deleted." with
      | .error text => (s, [text])
      | .ok num =>
        let m := s.fcache.getD num ⟨[], [], [], 0⟩
        (s, [bytes "+OK " ++ decimal (s.postlen.getD num 0) ++ bytes " octets",
          bytes "From: " ++ m.owner,
          bytes "To: " ++ s.currentuser.userid ++ bytes ".bbs@" ++ cfg.BBSHOST,
          bytes "Subject: " ++ m.title, []] ++ outfile 99999 (site.file s.LowUserid m.filename))
  | .Dele arg =>
    if arg = [] then (s, [tooFew "dele"])
    else
      match s.find arg " has already been deleted." with
      | .error text => (s, [text])
      | .ok num =>
        let m := s.fcache.getD num ⟨[], [], [], 0⟩
        let flag := m.flag ||| FILE_DIGEST
        ({ s with fcache := s.fcache.set num { m with flag }, markdel := s.markdel + 1 },
          [bytes "+OK Message " ++ decimal num ++ bytes " has been deleted." ++
            (Nat.toDigits 16 flag.toNat).map fun c => UInt8.ofNat c.toNat])
  | .User _ => (s, [unknownCommand "user"])
  | .Pass _ => (s, [unknownCommand "pass"])
  | .Stat => (s, [bytes "+OK " ++ decimal s.totalnum ++ bytes " " ++ decimal s.totalbyte])
  | .List arg =>
    if arg = [] then
      (s, [bytes "+OK " ++ decimal s.totalnum ++ bytes " messages (" ++ decimal s.totalbyte ++
          bytes " octets)"] ++
        ((s.fcache.zipIdx.filter (!isDeleted ·.1.flag)).map fun p =>
          decimal (p.2 + 1) ++ bytes " " ++ decimal (s.postlen.getD p.2 0)) ++ [bytes "."])
    else
      match s.find arg " has been deleted." with
      | .error text => (s, [text])
      | .ok num => (s, [bytes "+OK " ++ decimal (num + 1) ++ bytes " " ++
          decimal (s.postlen.getD num 0)])
  | .Uidl arg =>
    if arg = [] then
      (s, [bytes "+OK"] ++
        ((s.fcache.zipIdx.filter (!isDeleted ·.1.flag)).map fun p =>
          decimal (p.2 + 1) ++ bytes " " ++ p.1.filename) ++ [bytes "."])
    else
      match s.find arg " has been deleted." with
      | .error text => (s, [text])
      | .ok num => (s, [bytes "+OK " ++ decimal (num + 1) ++ bytes " " ++
          (s.fcache.getD num ⟨[], [], [], 0⟩).filename])
  | .Rset =>
    ({ s with fcache := s.fcache.map fun m => { m with flag := m.flag &&& ~~~FILE_DIGEST },
              markdel := 0 },
      [bytes "+OK Maildrop has " ++ decimal s.totalnum ++ bytes " messages (" ++
        decimal s.totalbyte ++ bytes " octets)"])
  | .Last => (s, [bytes "+OK " ++ decimal s.totalnum ++ bytes " is the last message seen."])
  | .Noop => (s, [bytes "+OK"])
  | .unknown cmd => (s, [bytes "-ERR Unknown command: \"" ++ cmd ++ bytes "\"."])
  | .Quit => (s, [])

/-- The commands of the state `S_CONNECT`, but for `QUIT`. -/
def Session.enter (cfg : Config) (site : Site) (s : Session) : Command → Session × List Bytes
  | .User arg =>
    if arg = [] then (s, [tooFew "user"])
    else
      let arg := if strstr arg (bytes ".bbs") then arg.takeWhile (· ≠ 46) else arg
      let (currentuser, found) := get_userdata arg site.passwds s.currentuser
      if found then
        ({ s with currentuser, LowUserid := currentuser.userid },
          [bytes "+OK Password required for " ++ currentuser.userid ++ bytes ".bbs."])
      else ({ s with currentuser }, [bytes "-ERR Unknown user: \"" ++ arg ++ bytes "\"."])
  | .Pass arg =>
    if arg = [] then (s, [tooFew "pass"])
    else if s.LowUserid = [] then (s, [bytes "-ERR need a USER"])
    else if !cfg.checkpasswd2 arg s.currentuser then
      ({ s with LowUserid := [] },
        [bytes "-ERR Password supplied for \"" ++ s.LowUserid ++ bytes ".bbs\" is incorrect."])
    else
      let s := Login_init cfg site { s with login := true }
      (s, [bytes "+OK " ++ s.LowUserid ++ bytes " has " ++ decimal s.totalnum ++
        bytes " message(s) (" ++ decimal s.totalbyte ++ bytes " octets)."])
  | .Retr _ => (s, [unknownCommand "retr"])
  | .Dele _ => (s, [unknownCommand "dele"])
  | .Stat => (s, [unknownCommand "stat"])
  | .List _ => (s, [unknownCommand "list"])
  | .Uidl _ => (s, [unknownCommand "uidl"])
  | .Rset => (s, [unknownCommand "rset"])
  | .Last => (s, [unknownCommand "last"])
  | .Noop => (s, [bytes "+OK"])
  | .unknown cmd => (s, [bytes "-ERR Unknown command: \"" ++ cmd ++ bytes "\"."])
  | .Quit => (s, [])

/-! ## The end of a session -/

/-- A record at a place of the mailbox stays there. -/
def stays (totalnum : Nat) (flag : Nat → BitVec 32) (i : Nat) : Bool :=
  totalnum ≤ i || !isDeleted (flag i) || flag i &&& FILE_MARKED ≠ 0

/-- The loop of `do_delete`: what it writes, and what it unlinks. -/
def sweep (stays : Nat → Bool) : Nat → List Mail → List Mail × List Mail
  | _, [] => ([], [])
  | i, m :: dir =>
    let (kept, gone) := sweep stays (i + 1) dir
    if stays i then (m :: kept, gone) else (kept, m :: gone)

/-- `pop3.DIR` is not cut when it is opened, so that what a server has left there stays behind what
this one writes. -/
def do_delete (totalnum : Nat) (flag : Nat → BitVec 32) (user : Bytes) (site : Site) : Site :=
  match site.dir user with
  | none => site
  | some dir =>
    let (kept, gone) := sweep (stays totalnum flag) 0 dir
    let written := if kept = [] then none else some (kept ++ (site.pop3 user).drop kept.length)
    { site with
      dir := fun u => if u = user then written else site.dir u
      pop3 := fun u => if u = user then [] else site.pop3 u
      file := fun u name =>
        if u = user ∧ ∃ m ∈ gone, m.filename = name then none else site.file u name }

inductive Event
  /-- `fgets` reads a line from the connection. -/
  | line (inbuf : Bytes)
  /-- A message is put at the end of a mailbox. -/
  | arrive (user : Bytes) (m : Mail) (content : Bytes)

def Site.arrive (site : Site) (user : Bytes) (m : Mail) (content : Bytes) : Site :=
  { site with
    dir := fun u => if u = user then some ((site.dir u).getD [] ++ [m]) else site.dir u
    file := fun u name =>
      if u = user ∧ name = m.filename then some content else site.file u name }

/-- `Quit` gives the snapshot back before `do_delete` reads it. -/
def World.step (cfg : Config) (w : World) : Event → Option World
  | .arrive user m content => some { w with site := w.site.arrive user m content }
  | .line inbuf =>
    if w.closed then none
    else
      match command? inbuf with
      | none => some w
      | some .Quit =>
        let site := if w.session.login && w.session.markdel ≠ 0 then
            do_delete w.session.totalnum (cfg.freed w.session.fcache) w.session.LowUserid w.site
          else w.site
        some { w with
          site, closed := true, sent := w.sent ++ [outs
            (bytes "+OK InternetBBS Pop server at " ++ cfg.hostname ++ bytes " signing off.")] }
      | some cmd =>
        let (session, text) :=
          if w.session.login then w.session.exec cfg w.site cmd
          else w.session.enter cfg w.site cmd
        some { w with session, sent := w.sent ++ text.map outs }

/-- A new connection. -/
def World.start (cfg : Config) (site : Site) : World where
  site := site
  session := ⟨false, [], ⟨[], [], 0⟩, [], [], 0, 0⟩
  closed := false
  sent := [outs (bytes "+OK InternetBBS Pop server at " ++ cfg.hostname ++ bytes " starting.")]

section
variable {cfg : Config} {site : Site} {s : Session} {w w' : World} {e : Event} {cmd : Command}

/-! ## What the steps change -/

/-- A command of a logged in session changes the marks only. -/
theorem exec_session (cfg : Config) (site : Site) (s : Session) (cmd : Command) :
    (s.exec cfg site cmd).1 =
      { s with fcache := (s.exec cfg site cmd).1.fcache
               markdel := (s.exec cfg site cmd).1.markdel } := by
  cases cmd with
  | Retr arg | Dele arg | List arg | Uidl arg =>
    simp only [Session.exec]
    repeat' split
    all_goals rfl
  | _ => rfl

/-- What a step does to a world: a message arrives, or an open connection reads a line that is
empty, ends the session, or has a command for it. -/
theorem step_cases (h : w.step cfg e = some w') :
    (∃ user m content, e = .arrive user m content ∧
      w' = { w with site := w.site.arrive user m content }) ∨
    ∃ inbuf, e = .line inbuf ∧ w.closed = false ∧
      ((command? inbuf = none ∧ w' = w) ∨
        (command? inbuf = some .Quit ∧ w'.closed = true ∧ w'.session = w.session ∧
          w'.site = if w.session.login && w.session.markdel ≠ 0 then
            do_delete w.session.totalnum (cfg.freed w.session.fcache) w.session.LowUserid w.site
          else w.site) ∨
        ∃ cmd, command? inbuf = some cmd ∧ cmd ≠ .Quit ∧
          w' = { w with
            session := (if w.session.login then w.session.exec cfg w.site cmd
              else w.session.enter cfg w.site cmd).1
            sent := w.sent ++ (if w.session.login then w.session.exec cfg w.site cmd
              else w.session.enter cfg w.site cmd).2.map outs }) := by
  cases e with
  | arrive user m content => exact .inl ⟨user, m, content, rfl, (Option.some.inj h).symm⟩
  | line inbuf =>
    rw [World.step] at h
    split at h
    case isTrue => cases h
    case isFalse hopen =>
      refine .inr ⟨inbuf, rfl, by simpa using hopen, ?_⟩
      split at h
      · rename_i hcmd
        exact .inl ⟨hcmd, (Option.some.inj h).symm⟩
      · rename_i hcmd
        have := Option.some.inj h
        subst this
        exact .inr (.inl ⟨hcmd, rfl, rfl, rfl⟩)
      · rename_i cmd hquit hcmd
        exact .inr (.inr ⟨cmd, hcmd, hquit, (Option.some.inj h).symm⟩)

theorem do_delete_passwds (totalnum : Nat) (flag : Nat → BitVec 32) (user : Bytes) (site : Site) :
    (do_delete totalnum flag user site).passwds = site.passwds := by
  unfold do_delete
  split <;> rfl

/-- The accounts are not changed. -/
theorem step_passwds (h : w.step cfg e = some w') : w'.site.passwds = w.site.passwds := by
  obtain ⟨user, m, content, rfl, rfl⟩ | ⟨inbuf, rfl, -, ⟨-, rfl⟩ | ⟨-, -, -, hsite⟩ |
    ⟨cmd, -, -, rfl⟩⟩ := step_cases h
  · rfl
  · rfl
  · rw [hsite]
    split
    · exact do_delete_passwds ..
    · rfl
  · rfl

/-! ## Whose password was checked -/

theorem get_userdata_found {user : Bytes} {accounts : List Account} {currentuser a : Account}
    (h : get_userdata user accounts currentuser = (a, true)) : a ∈ accounts := by
  induction accounts generalizing currentuser with
  | nil => cases h
  | cons b accounts ih =>
    rw [get_userdata] at h
    repeat' split at h
    · exact List.mem_cons_of_mem b (ih h)
    · cases h
      exact List.mem_cons_self
    · exact List.mem_cons_of_mem b (ih h)

/-- A search that fails leaves the last account behind. -/
theorem get_userdata_lost {user : Bytes} {accounts : List Account} {currentuser a : Account}
    (h : get_userdata user accounts currentuser = (a, false)) :
    accounts.getLast? = some a ∨ accounts = [] ∧ a = currentuser := by
  induction accounts generalizing currentuser with
  | nil =>
    cases h
    exact .inr ⟨rfl, rfl⟩
  | cons b accounts ih =>
    rw [get_userdata] at h
    have hgo : ∀ h : get_userdata user accounts b = (a, false),
        (b :: accounts).getLast? = some a := fun h => by
      obtain hlast | ⟨rfl, rfl⟩ := ih h
      · rw [List.getLast?_cons, hlast]
        rfl
      · rfl
    repeat' split at h
    · exact .inl (hgo h)
    · cases h
    · exact .inl (hgo h)

/-- The name of a session is one of an account. The account whose password is looked at has this
name, or it is the last one, which a search that failed left behind. -/
structure Checked (cfg : Config) (passwds : List Account) (s : Session) : Prop where
  named : s.LowUserid ≠ [] → ∃ a ∈ passwds, a.userid = s.LowUserid
  account : s.LowUserid ≠ [] →
    s.currentuser ∈ passwds ∧ s.currentuser.userid = s.LowUserid ∨
      passwds.getLast? = some s.currentuser
  entered : s.login = true →
    s.LowUserid ≠ [] ∧ ∃ password, cfg.checkpasswd2 password s.currentuser = true

theorem Checked.enter (hlogin : s.login = false) (h : Checked cfg site.passwds s) :
    Checked cfg site.passwds (s.enter cfg site cmd).1 := by
  cases cmd with
  | User arg =>
    simp only [Session.enter]
    split
    · exact h
    · generalize (if strstr arg (bytes ".bbs") then arg.takeWhile (· ≠ 46) else arg) = name
      rcases hsearch : get_userdata name site.passwds s.currentuser with ⟨a, _ | _⟩
      · refine ⟨h.named, fun hne => ?_, fun hin => by simp [hlogin] at hin⟩
        obtain hlast | ⟨hnil, -⟩ := get_userdata_lost hsearch
        · exact .inr hlast
        · obtain ⟨b, hb, -⟩ := h.named hne
          rw [hnil] at hb
          cases hb
      · have hmem := get_userdata_found hsearch
        exact ⟨fun _ => ⟨a, hmem, rfl⟩, fun _ => .inl ⟨hmem, rfl⟩, fun hin => by
          simp [hlogin] at hin⟩
  | Pass arg =>
    simp only [Session.enter]
    split
    · exact h
    · split
      · exact h
      · rename_i hne
        split
        · exact ⟨fun hne => absurd rfl hne, fun hne => absurd rfl hne, fun hin => by
            simp [hlogin] at hin⟩
        · rename_i hcheck
          have hcheck : cfg.checkpasswd2 arg s.currentuser = true := by simpa using hcheck
          exact ⟨h.named, h.account, fun _ => ⟨hne, arg, hcheck⟩⟩
  | _ => exact h

theorem Checked.step (h : Checked cfg w.site.passwds w.session) (hstep : w.step cfg e = some w') :
    Checked cfg w'.site.passwds w'.session := by
  rw [step_passwds hstep]
  obtain ⟨user, m, content, rfl, rfl⟩ | ⟨inbuf, rfl, -, ⟨-, rfl⟩ | ⟨-, -, hsession, -⟩ |
    ⟨cmd, -, -, rfl⟩⟩ := step_cases hstep
  · exact h
  · exact h
  · rw [hsession]
    exact h
  · cases hlogin : w.session.login with
    | true =>
      simp only [if_true]
      rw [exec_session]
      exact ⟨h.named, h.account, h.entered⟩
    | false => exact h.enter hlogin

/-- What a reader makes of the lines of a message: a line that is a dot ends it, and of one that
begins with a dot the dot is taken off. -/
def unstuff : List Bytes → Option (List Bytes)
  | [] => none
  | line :: lines =>
    if line = bytes "." then some []
    else (unstuff lines).map ((if line.head? = some 46 then line.tail else line) :: ·)

/-- The lines of a message that are sent, as they are meant. -/
def messageLines (content : Option Bytes) : List Bytes :=
  ((content.elim [] fgetsLines).take 99999).map fun piece => filter false piece.dropLast

theorem filter_length_le (stat : Bool) (line : Bytes) :
    (filter stat line).length ≤ line.length := by
  induction line generalizing stat with
  | nil => exact Nat.le_refl _
  | cons c line ih =>
    rw [filter, List.length_append, List.length_cons]
    have htail := ih ((stat || decide (c = 0x1b)) &&
      !decide ((97 < c ∧ c < 122) ∨ (65 < c ∧ c < 90) ∨ c = 64))
    split
    · rw [List.length_nil]
      omega
    · rw [List.length_singleton]
      omega

theorem fgetsLoop_length {size : Nat} {line piece content : Bytes}
    (hline : line.length + 2 ≤ size) (h : piece ∈ fgetsLoop size line content) :
    piece.length + 1 ≤ size := by
  induction content generalizing line with
  | nil =>
    rw [fgetsLoop] at h
    split at h
    · cases h
    · rw [List.mem_singleton.mp h]
      omega
  | cons c content ih =>
    rw [fgetsLoop] at h
    split at h
    · obtain rfl | hrest := List.mem_cons.mp h
      · rw [List.length_append, List.length_singleton]
        omega
      · exact ih (by rw [List.length_nil]; omega) hrest
    · rename_i hgo
      refine ih ?_ h
      rw [List.length_append, List.length_singleton]
      omega

/-- `outs` cuts nothing off a line of a message. -/
theorem outs_outfile (content : Option Bytes) :
    (outfile 99999 content).map outs = outfile 99999 content := by
  refine List.map_congr_left (fun line hline => ?_) |>.trans (List.map_id _)
  refine List.take_of_length_le ?_
  rw [outfile, List.mem_append] at hline
  obtain hline | hdot := hline
  · obtain ⟨piece, hpiece, rfl⟩ := List.mem_map.mp hline
    have hpiece := List.mem_of_mem_take hpiece
    cases content with
    | none => cases hpiece
    | some content =>
      obtain ⟨raw, hraw, rfl⟩ := List.mem_map.mp hpiece
      have hshort := fgetsLoop_length (by decide) hraw
      have hcut := (List.takeWhile_prefix (l := raw) (· ≠ 0)).length_le
      have hfilter := filter_length_le false (raw.takeWhile (· ≠ 0)).dropLast
      rw [List.length_dropLast] at hfilter
      rw [outline]
      split
      · decide
      · omega
  · rw [List.mem_singleton.mp hdot]
    decide

/-- A line as it is sent, and as it is read. -/
def stuff (line : Bytes) : Bytes := if line = bytes "." then bytes ".." else line

def undotted (line : Bytes) : Bytes :=
  if line.head? = some 46 ∧ line ≠ bytes "." then line.tail else line

theorem unstuff_stuff (lines : List Bytes) :
    unstuff (lines.map stuff ++ [bytes "."]) = some (lines.map undotted) := by
  induction lines with
  | nil => rfl
  | cons line lines ih =>
    rw [List.map_cons, List.cons_append, unstuff, ih, List.map_cons]
    by_cases hdot : line = bytes "."
    · rw [hdot]
      rfl
    · rw [stuff, if_neg hdot, if_neg hdot, undotted]
      simp [hdot]

theorem undotted_eq_iff {line : Bytes} :
    undotted line = line ↔ (line.head? = some 46 → line = bytes ".") := by
  rw [undotted]
  split
  case isTrue h =>
    refine iff_of_false (fun heq => ?_) fun himp => h.2 (himp h.1)
    cases line with
    | nil => cases h.1
    | cons c line => exact absurd (congrArg List.length heq) (by simp)
  case isFalse h =>
    exact iff_of_true rfl fun hhead => Decidable.byContradiction fun hne => h ⟨hhead, hne⟩

theorem map_undotted_eq_iff {lines : List Bytes} :
    lines.map undotted = lines ↔ ∀ line ∈ lines, line.head? = some 46 → line = bytes "." := by
  induction lines with
  | nil => exact iff_of_true rfl (by simp)
  | cons line lines ih =>
    rw [List.map_cons, List.cons.injEq, ih, undotted_eq_iff, List.forall_mem_cons]

theorem outfile_eq (content : Option Bytes) :
    outfile 99999 content = (messageLines content).map stuff ++ [bytes "."] := by
  rw [outfile, messageLines, List.map_map]
  rfl

theorem find_ok {arg : Bytes} {text : String} {num : Nat} (h : s.find arg text = .ok num) :
    num < s.totalnum ∧ atoi arg = num + 1 ∧ ∀ m ∈ s.fcache[num]?, isDeleted m.flag = false := by
  rw [Session.find] at h
  split at h
  case isTrue => cases h
  case isFalse hrange =>
    rw [not_or] at hrange
    split at h
    case isTrue => cases h
    case isFalse hkept =>
      cases h
      refine ⟨by omega, by omega, fun m hm => ?_⟩
      rw [Option.mem_def.mp hm] at hkept
      simpa using hkept

end

end ArgoBbs.Pop3

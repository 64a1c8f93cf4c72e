import ArgoBbs.Consts
import ArgoBbs.Lib.CString
import ArgoBbs.Lib.Tokens

/-! # Addresses on a command line

`bbs_sendmail` pastes the receiver into the command line of `sendmail` that `popen` gives to the
shell. The address is typed in, typed in earlier, the name of a user, or cut out of the owner of a
mail header, which a gateway may have written; `invalidaddr` is called by some of the callers
(`mail.c`). -/

namespace ArgoBbs

def invalidaddr (addr : Bytes) : Bool :=
  addr = [] || !addr.contains 64 || !addr.all fun c => isalnum c || (bytes ".!@:-_").contains c

/-- The field `owner` of a header, a string in `IDLEN + 2` bytes. -/
structure MailOwner where
  text : Bytes
  length_le : text.length ≤ idLen + 1

def isAngle (c : UInt8) : Bool := c = 60 || c = 62

/-- The receiver that `mail_reply` cuts out of the owner. If the owner has only angle brackets, then
`invalidaddr` is given `NULL` and the session ends with a fault. -/
def replyUid (owner : MailOwner) : Option Bytes :=
  let uid := strlcpy strLen owner.text
  let uid :=
    if uid.getLast? = some 62 ∧ uid.contains 60 then
      match strtok isAngle uid with
      | none => none
      | some (t, rest) =>
        if invalidaddr t then (strtok isAngle rest).map (·.1) else some t
    else some uid
  uid.map (·.takeWhile (· ≠ 32))

/-- The name of the host, the user, and how the calls on the way to `popen` turn out: the mailbox is
full, `PERM_SENDMAIL`, the header of the mail is not cancelled, nor the mail in the editor, the
question is answered with yes, and the file of the mail is opened. -/
structure SendContext where
  host : Bytes
  userid : Bytes
  maxmail : Bool
  sendmail : Bool
  header : Bool
  edited : Bool
  confirmed : Bool
  opened : Bool

namespace SendContext
variable (x : SendContext)

/-- The command line for a receiver. -/
def commandLine (receiver : Bytes) : Bytes :=
  bytes "/usr/sbin/sendmail -f " ++ x.userid ++ bytes ".bbs@" ++ x.host ++ bytes " " ++ receiver

/-- The functions below return the command line that is given to the shell, if one is. -/
def bbsSendmail (receiver : Bytes) : Option Bytes :=
  if x.opened then some (x.commandLine receiver) else none

/-- A mail to an address without `@` is put into a mailbox. -/
def doSend (userid : Bytes) (checkPermission : Bool) : Option Bytes :=
  if checkPermission && !x.sendmail then none
  else if !userid.contains 64 then none
  else if !x.header || !x.edited || !x.confirmed then none
  else x.bbsSendmail userid

def mInternet (receiver : Bytes) : Option Bytes :=
  if x.maxmail then none
  else if strstr (receiver.map tolower) (bytes ".bbs@" ++ x.host) ||
      strstr (receiver.map tolower) (bytes ".bbs@localhost") then none
  else if invalidaddr receiver then none
  else x.doSend receiver true

/-- `userid` is the argument if it is not `NULL`, `inList` whether the mode is one of those in which
the argument counts, and `completed` what `usercomplete` gives otherwise. -/
def mSend (userid : Option Bytes) (inList : Bool) (completed : Bytes) : Option Bytes :=
  if x.maxmail then none
  else
    match userid, inList with
    | some uid, true => x.doSend uid true
    | _, _ => if completed = [] then none else x.doSend completed true

def mailReply (owner : MailOwner) : Option Bytes :=
  if strstr owner.text (bytes "MAILER-DAEMON@" ++ x.host) then none
  else if x.maxmail then none
  else (replyUid owner).bind fun uid => x.doSend uid true

/-- The address that `doforward` comes to: `address` is what the last call has left in the static
variable, `email` the address of the user, and `receiver` what is typed in. -/
def forwardAddress (address email receiver : Bytes) : Bytes :=
  let address := if address = [] then email else address
  let address := if receiver = [] then address else receiver
  if strstr address (bytes ".bbs@" ++ x.host) || strstr address (bytes ".bbs@localhost") then
    address.takeWhile (· ≠ 46)
  else address

/-- `hasTitle` is whether the article has a title. What is not for an address on the internet is put
into a mailbox. -/
def doforward (inMail : Bool) (address email : Bytes) (hasTitle : Bool) (receiver : Bytes) :
    Option Bytes :=
  let address := x.forwardAddress address email receiver
  let internetMail := address.contains 64 || address.contains 46
  if inMail && x.maxmail then none
  else if !hasTitle || !x.confirmed then none
  else if invalidaddr address && internetMail then none
  else if !x.edited then none
  else if !internetMail then none
  else x.bbsSendmail address

end SendContext

/-- The ways to `bbs_sendmail`, with what they take from the user and from files. -/
inductive MailRequest
  | mInternet (receiver : Bytes)
  | mSend (userid : Option Bytes) (inList : Bool) (completed : Bytes)
  | mailReply (owner : MailOwner)
  | doforward (inMail : Bool) (address email : Bytes) (hasTitle : Bool) (receiver : Bytes)

def MailRequest.command (x : SendContext) : MailRequest → Option Bytes
  | .mInternet receiver => x.mInternet receiver
  | .mSend userid inList completed => x.mSend userid inList completed
  | .mailReply owner => x.mailReply owner
  | .doforward inMail address email hasTitle receiver =>
    x.doforward inMail address email hasTitle receiver

/-- What is given to the shell is the command line for an address that `invalidaddr` accepts. -/
def SendContext.ShellSafe (x : SendContext) (command : Option Bytes) : Prop :=
  ∀ c ∈ command, ∃ receiver, c = x.commandLine receiver ∧ invalidaddr receiver = false

/-- The text is not taken for an address, or it is one. -/
def PlainOrValid (text : Bytes) : Prop := 64 ∈ text → invalidaddr text = false

/-- The parts of an owner in which a receiver is looked for are harmless: up to the first blank if
the owner does not end with an angle bracket; and otherwise of the parts between angle brackets the
first one is an address, or the second one is harmless up to its first blank. -/
def CleanOwner (owner : Bytes) : Prop :=
  if owner.getLast? = some 62 ∧ 60 ∈ owner then
    match tokens isAngle owner with
    | [] => True
    | first :: rest => invalidaddr first = false ∨
      ∀ second ∈ rest.head?, PlainOrValid (second.takeWhile (· ≠ 32))
  else PlainOrValid (owner.takeWhile (· ≠ 32))

/-- Nothing on the way to `popen` makes the mail be given up. -/
structure SendContext.Sends (x : SendContext) : Prop where
  maxmail : x.maxmail = false
  sendmail : x.sendmail = true
  header : x.header = true
  edited : x.edited = true
  confirmed : x.confirmed = true
  opened : x.opened = true

/-- The name of a user or the owner of the mail is harmless, if the mail is sent. -/
def MailRequest.Clean (x : SendContext) : MailRequest → Prop
  | .mInternet _ | .doforward .. => True
  | .mSend (some uid) true _ => x.Sends → PlainOrValid uid
  | .mSend _ _ completed => x.Sends → PlainOrValid completed
  | .mailReply owner => x.Sends →
    strstr owner.text (bytes "MAILER-DAEMON@" ++ x.host) = false → CleanOwner owner.text

section
variable {x : SendContext} {owner : MailOwner} {uid receiver : Bytes} {c : Bytes}

theorem invalidaddr_false_iff : invalidaddr uid = false ↔ 64 ∈ uid ∧
    ∀ c ∈ uid, isalnum c = true ∨ c ∈ bytes ".!@:-_" := by
  unfold invalidaddr
  constructor
  · intro h
    simp only [Bool.or_eq_false_iff, Bool.not_eq_eq_eq_not, Bool.not_false, List.all_eq_true,
      Bool.or_eq_true, List.contains_iff_mem] at h
    exact ⟨h.1.2, h.2⟩
  · rintro ⟨hat, hall⟩
    simp only [Bool.or_eq_false_iff, Bool.not_eq_eq_eq_not, Bool.not_false, List.all_eq_true,
      Bool.or_eq_true, List.contains_iff_mem, decide_eq_false_iff_not]
    exact ⟨⟨List.ne_nil_of_mem hat, hat⟩, hall⟩

/-- An address has no blank. -/
theorem takeWhile_blank_of_valid (h : invalidaddr uid = false) : uid.takeWhile (· ≠ 32) = uid := by
  obtain ⟨-, hall⟩ := invalidaddr_false_iff.mp h
  refine List.takeWhile_eq_self_iff.mpr fun c hc => decide_eq_true ?_
  rintro rfl
  exact absurd (hall 32 hc) (by decide)

theorem strlcpy_of_lt {size : Nat} (h : uid.length < size) : strlcpy size uid = uid :=
  List.take_of_length_le (by omega)

namespace SendContext

theorem shellSafe_none : x.ShellSafe none := nofun

theorem shellSafe_commandLine :
    x.ShellSafe (some (x.commandLine receiver)) ↔ invalidaddr receiver = false := by
  constructor
  · intro h
    obtain ⟨r, heq, hr⟩ := h _ rfl
    rwa [List.append_cancel_left heq]
  · rintro h _ ⟨⟩
    exact ⟨receiver, rfl, h⟩

/-- The mails to addresses that reach `popen`. -/
theorem doSend_eq_some : x.doSend uid true = some c ↔ x.sendmail = true ∧ 64 ∈ uid ∧
    x.header = true ∧ x.edited = true ∧ x.confirmed = true ∧ x.opened = true ∧
      x.commandLine uid = c := by
  unfold doSend bbsSendmail
  cases x.sendmail <;> cases x.header <;> cases x.edited <;> cases x.confirmed <;> cases x.opened <;>
    simp

theorem doSend_safe_iff (hmax : x.maxmail = false) :
    x.ShellSafe (x.doSend uid true) ↔ (x.Sends → PlainOrValid uid) := by
  constructor
  · intro h hs hat
    have hsend : x.doSend uid true = some (x.commandLine uid) :=
      doSend_eq_some.mpr ⟨hs.sendmail, hat, hs.header, hs.edited, hs.confirmed, hs.opened, rfl⟩
    rw [hsend] at h
    exact shellSafe_commandLine.mp h
  · intro h c hc
    obtain ⟨hperm, hat, hheader, hedited, hconfirmed, hopened, rfl⟩ := doSend_eq_some.mp hc
    exact ⟨uid, rfl, h ⟨hmax, hperm, hheader, hedited, hconfirmed, hopened⟩ hat⟩

/-- Nothing is sent with a full mailbox. -/
theorem sends_of_maxmail (hmax : x.maxmail = true) : ¬x.Sends := fun hs => by
  cases hmax.symm.trans hs.maxmail

theorem mInternet_safe (receiver : Bytes) : x.ShellSafe (x.mInternet receiver) := by
  unfold mInternet
  split
  · exact shellSafe_none
  · rename_i hmax
    split
    · exact shellSafe_none
    · split
      · exact shellSafe_none
      · rename_i hvalid
        exact (doSend_safe_iff (eq_false_of_ne_true hmax)).mpr fun _ _ =>
          eq_false_of_ne_true hvalid

theorem doforward_safe (inMail : Bool) (address email : Bytes) (hasTitle : Bool) (receiver : Bytes) :
    x.ShellSafe (x.doforward inMail address email hasTitle receiver) := by
  unfold doforward
  dsimp only
  generalize x.forwardAddress address email receiver = addr
  split
  · exact shellSafe_none
  · split
    · exact shellSafe_none
    · split
      · exact shellSafe_none
      · rename_i hvalid
        split
        · exact shellSafe_none
        · split
          · exact shellSafe_none
          · rename_i hinternet
            unfold bbsSendmail
            split
            · refine shellSafe_commandLine.mpr ?_
              simp only [Bool.not_eq_true', Bool.not_eq_false] at hinternet
              rw [hinternet, Bool.and_true] at hvalid
              exact eq_false_of_ne_true hvalid
            · exact shellSafe_none

/-- The parts in which a receiver is looked for are those that `strtok` gives. -/
theorem replyUid_clean (owner : MailOwner) :
    (∀ uid ∈ replyUid owner, PlainOrValid uid) ↔ CleanOwner owner.text := by
  have hcopy : strlcpy strLen owner.text = owner.text :=
    strlcpy_of_lt (Nat.lt_of_le_of_lt owner.length_le (by decide))
  unfold replyUid CleanOwner
  rw [hcopy]
  dsimp only
  simp only [List.contains_iff_mem]
  split
  · cases hfirst : strtok isAngle owner.text with
    | none =>
      rw [strtok_none hfirst]
      exact iff_of_true nofun trivial
    | some part =>
      obtain ⟨first, rest⟩ := part
      rw [strtok_some hfirst]
      dsimp only
      cases hvalid : invalidaddr first with
      | false =>
        refine iff_of_true (fun uid huid _ => ?_) (.inl rfl)
        have heq : first.takeWhile (· ≠ 32) = uid := Option.some.inj huid
        rwa [← heq, takeWhile_blank_of_valid hvalid]
      | true =>
        cases hsecond : strtok isAngle rest with
        | none =>
          rw [strtok_none hsecond]
          exact iff_of_true nofun (.inr nofun)
        | some part =>
          obtain ⟨second, rest'⟩ := part
          rw [strtok_some hsecond]
          simp
  · simp

theorem mailReply_safe_iff (owner : MailOwner) : x.ShellSafe (x.mailReply owner) ↔ (x.Sends →
    strstr owner.text (bytes "MAILER-DAEMON@" ++ x.host) = false → CleanOwner owner.text) := by
  rw [← replyUid_clean]
  unfold mailReply
  split
  · rename_i hdaemon
    exact iff_of_true shellSafe_none fun _ h => by cases hdaemon.symm.trans h
  · rename_i hdaemon
    split
    · rename_i hmax
      exact iff_of_true shellSafe_none fun h => absurd h (sends_of_maxmail hmax)
    · rename_i hmax
      cases huid : replyUid owner with
      | none => exact iff_of_true shellSafe_none nofun
      | some uid =>
        rw [Option.bind_some, doSend_safe_iff (eq_false_of_ne_true hmax)]
        constructor
        · rintro h hs - _ ⟨⟩
          exact h hs
        · intro h hs
          exact h hs (eq_false_of_ne_true hdaemon) uid rfl

theorem mSend_completed (hmax : x.maxmail = false) (completed : Bytes) :
    x.ShellSafe (if completed = [] then none else x.doSend completed true) ↔
      (x.Sends → PlainOrValid completed) := by
  split
  · rename_i hempty
    refine iff_of_true shellSafe_none fun _ hat => ?_
    rw [hempty] at hat
    cases hat
  · exact doSend_safe_iff hmax

theorem mSend_safe_iff (userid : Option Bytes) (inList : Bool) (completed : Bytes) :
    x.ShellSafe (x.mSend userid inList completed) ↔
      (MailRequest.mSend userid inList completed).Clean x := by
  unfold mSend
  split
  · rename_i hmax
    refine iff_of_true shellSafe_none ?_
    unfold MailRequest.Clean
    split <;> first | exact fun h => absurd h (sends_of_maxmail hmax) | trivial
  · rename_i hmax
    have hmax := eq_false_of_ne_true hmax
    cases userid with
    | none => exact mSend_completed hmax completed
    | some uid =>
      cases inList with
      | false => exact mSend_completed hmax completed
      | true => exact doSend_safe_iff hmax

end SendContext

/-- On every way to `bbs_sendmail`, for every header and whatever is typed in: what is given to the
shell is the command line for an address that `invalidaddr` accepts just if the name of the user or
the owner of the mail that is answered is harmless, or the mail is given up. -/
theorem receiver_accepted_iff (x : SendContext) (req : MailRequest) :
    x.ShellSafe (req.command x) ↔ req.Clean x := by
  cases req with
  | mInternet receiver => exact iff_of_true (SendContext.mInternet_safe receiver) trivial
  | mSend userid inList completed => exact SendContext.mSend_safe_iff userid inList completed
  | mailReply owner => exact SendContext.mailReply_safe_iff owner
  | doforward inMail address email hasTitle receiver =>
    exact
      iff_of_true (SendContext.doforward_safe inMail address email hasTitle receiver) trivial

/-- A user who sends a mail. -/
def demoSend : SendContext where
  host := bytes "bbs.edu"
  userid := bytes "guest"
  maxmail := false
  sendmail := true
  header := true
  edited := true
  confirmed := true
  opened := true

/-- A mail from a gateway is answered. -/
theorem receiver_not_accepted : ¬∀ (x : SendContext) (req : MailRequest),
    x.ShellSafe (req.command x) := by
  intro hclaim
  have hsafe := hclaim demoSend (.mailReply ⟨bytes "x@y;reboot", by decide⟩)
  have hcommand : (MailRequest.mailReply ⟨bytes "x@y;reboot", by decide⟩).command demoSend =
      some (demoSend.commandLine (bytes "x@y;reboot")) := by decide +kernel
  rw [hcommand, SendContext.shellSafe_commandLine] at hsafe
  exact absurd hsafe (by decide)

end

end ArgoBbs

import ArgoBbs.Board.Digest
import ArgoBbs.Permissions

/-! # The size of a mailbox

`.DIR` in a user's directory of mails has in every header the size of the mail, 0 as long as nobody
has asked for it: `getmailsize` looks it up and stores it. The sessions (`mail.c`) and the programs
that deliver mails (`post.c` of the library) each have a function of that name, and one for the
size that the user is allowed to have. -/

namespace ArgoBbs

/-- A header with the size that has been stored. -/
structure MailHeader extends ArticleHeader where
  size : BitVec 32
  deriving DecidableEq

/-- The directory of a user's mails: the file `.DIR`, and what `stat` says of the length of the
other files. -/
structure MailTree where
  dir : Option (List MailHeader)
  length : Bytes → Option Nat

def setmailpath (userid : Bytes) : Bytes :=
  bytes "mail/" ++ [toupper (userid.headD 0)] ++ bytes "/" ++ userid

def setmaildir (userid : Bytes) : Bytes :=
  bytes "mail/" ++ [toupper (userid.headD 0)] ++ bytes "/" ++ userid ++ bytes "/.DIR"

namespace MailTree
variable (t : MailTree)

/-- `open` for reading and writing, which fails for the directory itself. -/
def openDir (userid path : Bytes) : Option (List MailHeader) :=
  if path = setmaildir userid then t.dir else none

/-- The length of a mail. A file that is empty or missing counts as one byte. -/
def mailLength (filename : Bytes) : Nat := max 1 ((t.length filename).getD 0)

/-- The header with its size stored. -/
def sized (h : MailHeader) : MailHeader :=
  if h.size = 0 then { h with size := .ofNat 32 (t.mailLength h.filename) } else h

end MailTree

/-- The sum of the stored sizes, an `int`. -/
def sizeTotal (headers : List MailHeader) : BitVec 32 :=
  headers.foldl (fun total h => total + h.size) 0

def getmailboxsize (userlevel : BitVec 32) : Int :=
  if userlevel &&& permSysop ≠ 0 then 5000
  else if userlevel &&& permLargemail ≠ 0 then 3600
  else if userlevel &&& (permBoards ||| permInternal) ≠ 0 then 3600
  else if userlevel &&& permLoginok ≠ 0 then 1200
  else 5

/-- The size in K, and the directory with the sizes stored. -/
def getmailsize (userid : Bytes) (t : MailTree) : Int × MailTree :=
  match t.openDir userid (setmaildir userid) with
  | some headers =>
    let headers := headers.map t.sized
    ((sizeTotal headers).toInt.tdiv 1024 + 1, { t with dir := some headers })
  | none => (1, t)

/-- The sender of a mail. -/
structure Sender where
  userid : Bytes
  userlevel : BitVec 32

/-- What a delivery looks up of the receiver: his record and the list `maildeny`. -/
structure Receiver where
  userid : Bytes
  userlevel : BitVec 32
  maildeny : List Bytes

/-- The code with which `do_send` refuses a mail inside, 0 if it goes on. -/
def doSendRefusal (sender : Sender) (checkPermission : Bool) (lookup : Option Receiver)
    (t : MailTree) : Int :=
  if checkPermission && sender.userlevel &&& permSendmail = 0 then -7
  else
    match lookup with
    | none => -1
    | some r =>
      if r.userlevel &&& permReadmail = 0 then -3
      else if r.userlevel &&& permSuicide ≠ 0 ∧ sender.userlevel &&& permSysop = 0 then -6
      else if r.userid ≠ sender.userid ∧ sender.userid ∈ r.maildeny then -5
      else if getmailboxsize r.userlevel * 2 < (getmailsize r.userid t).1 then -4
      else 0

/-! ## The library -/

namespace LibBBS

def getmailboxsize (userlevel : BitVec 32) : Int :=
  if userlevel &&& permSysop ≠ 0 then 5000
  else if userlevel &&& permLargemail ≠ 0 then 3600
  else if userlevel &&& permBoards ≠ 0 then 2400
  else if userlevel &&& permLoginok ≠ 0 then 1200
  else 5

/-- The sum of the sizes. For a size that is not positive as an `int` the path of the mail is
printed over a string literal, which ends the process with a fault. -/
def sizeLoop : List MailHeader → Option (BitVec 32)
  | [] => some 0
  | h :: headers => if h.size.toInt ≤ 0 then none else (sizeLoop headers).map (h.size + ·)

/-- The path that is opened is that of the directory. -/
def getmailsize (userid : Bytes) (t : MailTree) : Option (Int × MailTree) :=
  match t.openDir userid (setmailpath userid) with
  | some headers => (sizeLoop headers).map fun total => (total.toInt.tdiv 1024 + 1, t)
  | none => some (1, t)

/-- The code with which `postmail` refuses a mail, 0 if it goes on. -/
def postmailRefusal (owner : Bytes) (checkPermission : Bool) (lookup : Option Receiver)
    (t : MailTree) : Option Int :=
  if checkPermission then
    match lookup with
    | none => some 1
    | some r =>
      if r.userlevel &&& permReadmail = 0 then some 3
      else if r.userlevel &&& permSuicide ≠ 0 then some 6
      else if r.userid ≠ owner ∧ owner ∈ r.maildeny then some 5
      else
        (getmailsize r.userid t).map fun (mailsize, _) =>
          if getmailboxsize r.userlevel * 2 < mailsize then 4 else 0
  else some 0

end LibBBS

/-! ## The two compared -/

/-- The lengths of the mails together. -/
def MailTree.mailBytes (t : MailTree) : List MailHeader → Nat
  | [] => 0
  | h :: headers => t.mailLength h.filename + t.mailBytes headers

/-- The two ways to deliver a mail apply the same quota to a receiver. -/
structure SameQuota (r : Receiver) (t : MailTree) : Prop where
  mailboxsize : LibBBS.getmailboxsize r.userlevel = getmailboxsize r.userlevel
  mailsize : LibBBS.getmailsize r.userid t = some (getmailsize r.userid t)
  counted : (getmailsize r.userid t).1 = t.mailBytes (t.dir.getD []) / 1024 + 1
  refused : ∀ sender checkPermission,
    LibBBS.postmailRefusal sender.userid true (some r) t = some 4 ↔
      doSendRefusal sender checkPermission (some r) t = -4

/-- The receiver's permissions have the same size in both tables, and his mails, all with their
sizes stored, have less than 1 K. -/
structure SmallMailbox (r : Receiver) (t : MailTree) : Prop where
  level : r.userlevel &&& permSysop ≠ 0 ∨ r.userlevel &&& permLargemail ≠ 0 ∨
    r.userlevel &&& (permBoards ||| permInternal) = 0
  stored : ∀ h ∈ t.dir.getD [], h.size ≠ 0
  total : (sizeTotal (t.dir.getD [])).toInt.natAbs < 1024
  bytes : t.mailBytes (t.dir.getD []) < 1024

section
variable {r : Receiver} {t : MailTree} {userid : Bytes} {userlevel : BitVec 32}

theorem setmailpath_ne (userid : Bytes) : setmailpath userid ≠ setmaildir userid := by
  intro h
  have hlen := congrArg List.length h
  simp [setmailpath, setmaildir, bytes] at hlen

/-- The library counts no mail. -/
theorem LibBBS.getmailsize_eq (userid : Bytes) (t : MailTree) :
    LibBBS.getmailsize userid t = some (1, t) := by
  have hnone : t.openDir userid (setmailpath userid) = none := if_neg (setmailpath_ne userid)
  delta LibBBS.getmailsize
  rw [hnone]

theorem getmailsize_of_dir {headers : List MailHeader} (h : t.dir = some headers) :
    getmailsize userid t = ((sizeTotal (headers.map t.sized)).toInt.tdiv 1024 + 1,
      { t with dir := some (headers.map t.sized) }) := by
  have hopen : t.openDir userid (setmaildir userid) = some headers := (if_pos rfl).trans h
  delta getmailsize
  rw [hopen]

theorem getmailsize_of_none (h : t.dir = none) : getmailsize userid t = (1, t) := by
  have hopen : t.openDir userid (setmaildir userid) = none := (if_pos rfl).trans h
  delta getmailsize
  rw [hopen]

theorem le_getmailboxsize (userlevel : BitVec 32) : 5 ≤ getmailboxsize userlevel := by
  unfold getmailboxsize
  repeat' split
  all_goals decide

theorem LibBBS.le_getmailboxsize (userlevel : BitVec 32) :
    5 ≤ LibBBS.getmailboxsize userlevel := by
  unfold LibBBS.getmailboxsize
  repeat' split
  all_goals decide

theorem getmailboxsize_eq_iff :
    LibBBS.getmailboxsize userlevel = getmailboxsize userlevel ↔
      userlevel &&& permSysop ≠ 0 ∨ userlevel &&& permLargemail ≠ 0 ∨
        userlevel &&& (permBoards ||| permInternal) = 0 := by
  have hor := @and_or_eq_zero 32 userlevel permBoards permInternal
  unfold LibBBS.getmailboxsize getmailboxsize
  split
  case isTrue hsysop => exact iff_of_true rfl (.inl hsysop)
  case isFalse hsysop =>
    split
    case isTrue hlarge => exact iff_of_true rfl (.inr (.inl hlarge))
    case isFalse hlarge =>
      rw [or_iff_right hsysop, or_iff_right hlarge]
      by_cases hmanager : userlevel &&& (permBoards ||| permInternal) = 0
      · rw [if_neg (not_not_intro hmanager), if_neg (not_not_intro (hor.mp hmanager).1)]
        exact iff_of_true rfl hmanager
      · rw [if_pos hmanager]
        refine iff_of_false ?_ hmanager
        repeat' split
        all_goals decide

theorem mailLength_le {h : MailHeader} {headers : List MailHeader} (hmem : h ∈ headers) :
    t.mailLength h.filename ≤ t.mailBytes headers := by
  induction headers with
  | nil => cases hmem
  | cons x headers ih =>
    rw [MailTree.mailBytes]
    rcases List.mem_cons.mp hmem with rfl | hmem
    · exact Nat.le_add_right ..
    · exact (ih hmem).trans (Nat.le_add_left ..)

theorem sized_of_ne {h : MailHeader} (hsize : h.size ≠ 0) : t.sized h = h := if_neg hsize

theorem map_sized_eq_iff {headers : List MailHeader} :
    headers.map t.sized = headers ↔ ∀ h ∈ headers, t.sized h = h := by
  have hid := @List.map_inj_left _ _ headers t.sized id
  rwa [List.map_id] at hid

/-- A mail of less than 4 G has a size as soon as it is stored. -/
theorem size_sized_ne {h : MailHeader} (hlt : t.mailLength h.filename < 2 ^ 32) :
    (t.sized h).size ≠ 0 := by
  unfold MailTree.sized
  split
  case isFalse hsize => exact hsize
  case isTrue =>
    intro hzero
    have hpos : 1 ≤ t.mailLength h.filename := Nat.le_max_left ..
    have hnat : (BitVec.ofNat 32 (t.mailLength h.filename)).toNat = 0 :=
      congrArg BitVec.toNat hzero
    rw [BitVec.toNat_ofNat, Nat.mod_eq_of_lt hlt] at hnat
    omega

theorem tdiv_eq_zero_iff {x : Int} : x.tdiv 1024 = 0 ↔ x.natAbs < 1024 := by
  rw [← Int.natAbs_eq_zero, Int.natAbs_tdiv]
  exact Nat.div_eq_zero_iff.trans (or_iff_right (by decide))

/-- The sessions count as little as the library if nothing is to be stored and the mails are small.
-/
theorem getmailsize_eq_one_iff : getmailsize userid t = (1, t) ↔
    (∀ h ∈ t.dir.getD [], t.sized h = h) ∧
      (sizeTotal (t.dir.getD [])).toInt.natAbs < 1024 := by
  cases hdir : t.dir with
  | none => exact iff_of_true (getmailsize_of_none hdir) ⟨nofun, by decide⟩
  | some headers =>
    rw [getmailsize_of_dir hdir, Prod.mk.injEq, Option.getD_some, ← map_sized_eq_iff,
      ← tdiv_eq_zero_iff]
    constructor
    · rintro ⟨htotal, htree⟩
      have hmap : headers.map t.sized = headers := by
        have heq := congrArg MailTree.dir htree
        rw [hdir] at heq
        exact Option.some.inj heq
      rw [hmap] at htotal
      exact ⟨hmap, by omega⟩
    · rintro ⟨hmap, htotal⟩
      rw [hmap, htotal, ← hdir]
      exact ⟨rfl, rfl⟩

/-- Neither of the two refuses a mail to a mailbox that counts as empty. -/
theorem not_refused (hsize : (getmailsize r.userid t).1 = 1) (sender : Sender)
    (checkPermission : Bool) :
    LibBBS.postmailRefusal sender.userid true (some r) t ≠ some 4 ∧
      doSendRefusal sender checkPermission (some r) t ≠ -4 := by
  have hlib := LibBBS.le_getmailboxsize r.userlevel
  have hbbs := le_getmailboxsize r.userlevel
  constructor
  · unfold LibBBS.postmailRefusal
    simp only [if_true, LibBBS.getmailsize_eq, Option.map_some]
    rw [if_neg (show ¬LibBBS.getmailboxsize r.userlevel * 2 < 1 by omega)]
    repeat' split
    all_goals decide
  · unfold doSendRefusal
    simp only [hsize]
    rw [if_neg (show ¬getmailboxsize r.userlevel * 2 < 1 by omega)]
    repeat' split
    all_goals decide

end

/-- The two ways to deliver a mail apply the same quota just to the receivers with few, small mails
all counted, and permissions for which the two tables agree. -/
theorem same_quota_iff (r : Receiver) (t : MailTree) : SameQuota r t ↔ SmallMailbox r t := by
  constructor
  · intro h
    have hsize : getmailsize r.userid t = (1, t) := by
      have hlib := LibBBS.getmailsize_eq r.userid t
      rw [h.mailsize] at hlib
      exact Option.some.inj hlib
    have hcounted := h.counted
    rw [hsize] at hcounted
    have hbytes : t.mailBytes (t.dir.getD []) < 1024 := by omega
    obtain ⟨hstored, htotal⟩ := getmailsize_eq_one_iff.mp hsize
    refine ⟨getmailboxsize_eq_iff.mp h.mailboxsize, fun x hx => ?_, htotal, hbytes⟩
    have hlt : t.mailLength x.filename < 2 ^ 32 :=
      ((mailLength_le hx).trans_lt hbytes).trans (by decide)
    exact hstored x hx ▸ size_sized_ne hlt
  · intro h
    have hsize : getmailsize r.userid t = (1, t) :=
      getmailsize_eq_one_iff.mpr ⟨fun x hx => sized_of_ne (h.stored x hx), h.total⟩
    constructor
    case mailboxsize => exact getmailboxsize_eq_iff.mpr h.level
    case mailsize => rw [hsize, LibBBS.getmailsize_eq]
    case counted =>
      have hbytes := h.bytes
      rw [hsize]
      omega
    case refused =>
      intro sender checkPermission
      obtain ⟨hlib, hbbs⟩ := not_refused (by rw [hsize]) sender checkPermission
      exact iff_of_false hlib hbbs

/-- A user with one mail of 3 M, whose size is stored. -/
def demoReceiver : Receiver := ⟨bytes "guest", permDefault, []⟩

def demoMails : MailTree where
  dir := some [⟨⟨⟨bytes "M.1.A", 1⟩, 0⟩, 3000000⟩]
  length _ := some 3000000

/-- A session refuses a mail to the user, the library does not. -/
theorem quota_differs : ¬∀ (r : Receiver) (t : MailTree), SameQuota r t := by
  intro hclaim
  have hrefused := (hclaim demoReceiver demoMails).refused ⟨bytes "sysop", permDefault⟩ true
  have hlib : LibBBS.postmailRefusal (bytes "sysop") true (some demoReceiver) demoMails = some 0 := by
    decide +kernel
  have hbbs : doSendRefusal ⟨bytes "sysop", permDefault⟩ true (some demoReceiver) demoMails = -4 := by
    decide +kernel
  rw [hlib, hbbs] at hrefused
  exact absurd (hrefused.mpr rfl) (by decide)

end ArgoBbs

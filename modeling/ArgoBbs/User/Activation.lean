import ArgoBbs.Consts
import ArgoBbs.Lib.Fgets
import ArgoBbs.User.Netid

/-! # The address for the activation code

`get_code` asks for the name of a user at one of the mail hosts of the university, again as long as
`invalid_email` rejects the address, stores the address in the account and sends the code to it
(`register.c`). -/

namespace ArgoBbs

/-- What `strtok(s, "\n")` leaves in the buffer. -/
def strtokNewline (s : Bytes) : Bytes :=
  let token := (s.dropWhile (· = 10)).takeWhile (· ≠ 10)
  if token = [] then s else s.takeWhile (· = 10) ++ token

/-- `invalid_email`, with the file `etc/bad_email`. -/
def invalidEmail (badEmail : Option Bytes) (addr : Bytes) : Bool :=
  if addr.length < 3 then true
  else if (strchr addr 64).all fun p => p + 1 = addr.length then true
  else
    let tmp2 := addr.map tolower
    if strstr tmp2 (bytes "bbs") then true
    else
      match badEmail with
      | none => false
      | some content => (fgetsLoop strLen [] content).any fun temp =>
        let genbuf := (strtokNewline (temp.takeWhile (· ≠ 0))).map tolower
        strstr tmp2 genbuf || strstr genbuf tmp2

/-- The static `mail` of `get_code`. -/
def mailHosts : List Bytes :=
  [bytes "mail.sysu.edu.cn", bytes "mail2.sysu.edu.cn", bytes "mail3.sysu.edu.cn",
    bytes "student.sysu.edu.cn"]

def maxMail : Nat := 3

/-- `sprintf(email, "%s@%s", username, mail[ch])` -/
def emailAt (host username : Bytes) : Bytes := username ++ 64 :: host

/-- The host with the number typed in. -/
def chosenHost (ans : Bytes) : Option Bytes :=
  let ch := atoi ans
  if !isdigit (ans.headD 0) ∨ ch ≤ 0 ∨ mailHosts.length < ch then none
  else mailHosts[ch.toNat - 1]?

/-- The loop of `get_code`: the name with which it ends. The condition is the first byte of the name
and the result of `invalid_email`, bit by bit. -/
def askUsername (badEmail : Option Bytes) (host : Bytes) : List Bytes → Option Bytes
  | [] => none
  | username :: usernames =>
    let invalid : UInt8 := if invalidEmail badEmail (emailAt host username) then 1 else 0
    if username.headD 0 &&& invalid ≠ 0 then askUsername badEmail host usernames
    else some username

/-- What is typed in: the number of the host, the names, each shorter than `NAMELEN`, and whether the
code shall be sent; and whether the account can be written. -/
structure CodeRequest where
  ans : Bytes
  usernames : List Bytes
  short : ∀ username ∈ usernames, username.length < nameLen
  confirms : Bool
  stores : Bool

/-- The address that is stored in the account, the one that the code is sent to, and what `get_code`
returns. -/
structure CodeResult where
  stored : Option Bytes
  sent : Option Bytes
  ret : Int
  deriving DecidableEq

/-- `get_code`, unless it is still asking for a name. -/
def getCode (badEmail : Option Bytes) (passfile : Option (List Registration)) (q : CodeRequest) :
    Option CodeResult :=
  match chosenHost q.ans with
  | none => some ⟨none, none, -1⟩
  | some host => (askUsername badEmail host q.usernames).map fun username =>
    -- `strlcpy(trec->email, email, sizeof(email))`
    let email := strlcpy (strLen - 12) (emailAt host username)
    if username = [] then ⟨none, none, 0⟩
    else if !q.confirms then ⟨none, none, 0⟩
    else if !q.stores then ⟨none, none, -1⟩
    else if maxMail ≤ (multiNetidCheck passfile username 0).2 then ⟨some email, none, 0⟩
    else ⟨some email, some email, 1⟩

/-- The loop ends only with an empty name or an address that passes `invalid_email`, and no other
address is stored or sent the code. -/
def AddressPasses (badEmail : Option Bytes) (passfile : Option (List Registration))
    (q : CodeRequest) : Prop :=
  (∀ host, chosenHost q.ans = some host → ∀ username,
    askUsername badEmail host q.usernames = some username →
      username = [] ∨ invalidEmail badEmail (emailAt host username) = false) ∧
    ∀ r, getCode badEmail passfile q = some r → ∀ email, r.stored = some email ∨ r.sent = some email →
      invalidEmail badEmail email = false

/-- The name is not empty and `invalid_email` rejects the address. -/
def rejects (badEmail : Option Bytes) (host username : Bytes) : Bool :=
  username ≠ [] ∧ invalidEmail badEmail (emailAt host username)

/-- The names that are rejected, up to the first one that is not, begin with an odd byte. -/
def RejectsOdd (badEmail : Option Bytes) (q : CodeRequest) : Prop :=
  ∀ host, chosenHost q.ans = some host →
    ∀ username ∈ q.usernames.takeWhile (rejects badEmail host), username.headD 0 &&& 1 ≠ 0

section
variable {badEmail : Option Bytes} {passfile : Option (List Registration)} {host username : Bytes}
  {usernames : List Bytes} {q : CodeRequest}

theorem rejects_iff : rejects badEmail host username = true ↔
    username ≠ [] ∧ invalidEmail badEmail (emailAt host username) = true := decide_eq_true_iff

/-- A name that is not rejected ends the loop. -/
theorem askUsername_accepted (h : rejects badEmail host username = false) :
    askUsername badEmail host (username :: usernames) = some username := by
  rw [askUsername]
  apply if_neg
  apply not_not_intro
  cases username with
  | nil => exact UInt8.zero_and
  | cons c username =>
    cases hinvalid : invalidEmail badEmail (emailAt host (c :: username)) with
    | false => exact UInt8.and_zero
    | true =>
      have hrejects := rejects_iff.mpr ⟨List.cons_ne_nil c username, hinvalid⟩
      rw [h] at hrejects
      cases hrejects

/-- A name that is rejected is asked for again only if its first byte is odd. -/
theorem askUsername_rejected (h : rejects badEmail host username = true) :
    askUsername badEmail host (username :: usernames) =
      if username.headD 0 &&& 1 ≠ 0 then askUsername badEmail host usernames
      else some username := by
  rw [askUsername, (rejects_iff.mp h).2]
  rfl

theorem askUsername_iff (host : Bytes) :
    (∀ username, askUsername badEmail host usernames = some username →
      username = [] ∨ invalidEmail badEmail (emailAt host username) = false) ↔
      ∀ username ∈ usernames.takeWhile (rejects badEmail host), username.headD 0 &&& 1 ≠ 0 := by
  induction usernames with
  | nil => exact iff_of_true nofun nofun
  | cons username usernames ih =>
    cases hrejects : rejects badEmail host username with
    | false =>
      rw [askUsername_accepted hrejects, List.takeWhile_cons_of_neg (by rw [hrejects]; decide)]
      refine iff_of_true (fun u hu => ?_) nofun
      rw [← Option.some.inj hu, ← Bool.not_eq_true]
      by_contra hnot
      obtain ⟨hnil, hinvalid⟩ := not_or.mp hnot
      rw [rejects_iff.mpr ⟨hnil, Classical.not_not.mp hinvalid⟩] at hrejects
      cases hrejects
    | true =>
      rw [askUsername_rejected hrejects, List.takeWhile_cons_of_pos hrejects, List.forall_mem_cons]
      split
      case isTrue hodd => rw [and_iff_right hodd, ih]
      case isFalse heven =>
        refine iff_of_false (fun h => ?_) fun h => heven h.1
        obtain ⟨hnil, hinvalid⟩ := rejects_iff.mp hrejects
        obtain hempty | hvalid := h username rfl
        · exact hnil hempty
        · rw [hinvalid] at hvalid
          cases hvalid

theorem mem_of_askUsername (h : askUsername badEmail host usernames = some username) :
    username ∈ usernames := by
  induction usernames with
  | nil => cases h
  | cons first usernames ih =>
    cases hrejects : rejects badEmail host first with
    | false =>
      rw [askUsername_accepted hrejects] at h
      exact Option.some.inj h ▸ List.mem_cons_self
    | true =>
      rw [askUsername_rejected hrejects] at h
      split at h
      · exact List.mem_cons_of_mem first (ih h)
      · exact Option.some.inj h ▸ List.mem_cons_self

/-- The address fits into the account. -/
theorem strlcpy_emailAt {ans : Bytes} (hhost : chosenHost ans = some host)
    (h : username.length < nameLen) :
    strlcpy (strLen - 12) (emailAt host username) = emailAt host username := by
  have hmem : host ∈ mailHosts := by
    rw [chosenHost] at hhost
    split at hhost
    · cases hhost
    · exact List.mem_of_getElem? hhost
  have hhosts : ∀ host ∈ mailHosts, host.length ≤ 19 := by decide +kernel
  have hlen := hhosts host hmem
  rw [nameLen] at h
  rw [strlcpy, List.take_of_length_le]
  rw [emailAt, List.length_append, List.length_cons, strLen]
  omega

/-- What is stored or sent the code is the address of the name with which the loop ends. -/
theorem getCode_address {r : CodeResult} {email : Bytes} (h : getCode badEmail passfile q = some r)
    (hemail : r.stored = some email ∨ r.sent = some email) :
    ∃ host username, chosenHost q.ans = some host ∧
      askUsername badEmail host q.usernames = some username ∧ username ≠ [] ∧
        email = emailAt host username := by
  rw [getCode] at h
  cases hhost : chosenHost q.ans with
  | none =>
    rw [hhost] at h
    cases h
    obtain h | h := hemail <;> cases h
  | some host =>
    rw [hhost] at h
    obtain ⟨username, husername, rfl⟩ := Option.map_eq_some_iff.mp h
    refine ⟨host, username, rfl, husername, ?_⟩
    have hshort := q.short username (mem_of_askUsername husername)
    dsimp only at hemail
    rw [strlcpy_emailAt hhost hshort] at hemail
    repeat' split at hemail
    all_goals obtain heq | heq := hemail
    all_goals cases heq
    all_goals exact ⟨‹_›, rfl⟩

/-- The address passes `invalid_email` just if every name that is rejected begins with an odd byte,
up to the first name that is empty or accepted. -/
theorem get_code_iff (badEmail : Option Bytes) (passfile : Option (List Registration))
    (q : CodeRequest) : AddressPasses badEmail passfile q ↔ RejectsOdd badEmail q := by
  rw [RejectsOdd, ← forall₂_congr fun host _ => askUsername_iff host]
  constructor
  · exact fun h => h.1
  · refine fun h => ⟨h, fun r hr email hemail => ?_⟩
    obtain ⟨host, username, hhost, husername, hnil, rfl⟩ := getCode_address hr hemail
    exact (h host hhost username husername).resolve_left hnil

/-- The code is sent to an address that is refused, since `b` is even. -/
theorem get_code_even :
    ¬AddressPasses none none ⟨bytes "1", [bytes "bbs"], by decide, true, true⟩ := by
  intro h
  have hinvalid := h.2 ⟨some (bytes "bbs@mail.sysu.edu.cn"), some (bytes "bbs@mail.sysu.edu.cn"), 1⟩
    (by decide +kernel) _ (.inr rfl)
  exact absurd hinvalid (by decide +kernel)

end

end ArgoBbs

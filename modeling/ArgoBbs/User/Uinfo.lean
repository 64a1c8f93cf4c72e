import ArgoBbs.Lib.Reach
import ArgoBbs.Mail.Sendmail
import ArgoBbs.User.Activation

/-! # Changing the data of a user

Item 1 of `uinfo_query` asks for one field after the other, most of them until the answer will do,
and writes the record if that is confirmed (`userinfo.c`, `register.c`). -/

namespace ArgoBbs

def nickNameLen : Nat := 20

/-- The year counts from 1900. -/
def validDay (year month day : Nat) : Bool :=
  if day < 1 then false
  else if month = 2 ∧ (year % 4 ≠ 0 ∨ year % 400 ≠ 0 ∧ year % 100 = 0) ∧ 29 ≤ day then false
  else if month = 2 ∧ ¬(year % 4 ≠ 0 ∨ year % 400 ≠ 0 ∧ year % 100 = 0) ∧ 29 < day then false
  else if month < 8 ∧ month % 2 = 1 ∨ 8 ≤ month ∧ month % 2 = 0 then decide (day ≤ 31)
  else decide (day < 31)

/-- The fields that are asked for. -/
structure UinfoFields where
  username : Bytes
  realname : Bytes
  address : Bytes
  email : Bytes
  termtype : Bytes
  birthyear : UInt8
  birthmonth : UInt8
  birthday : UInt8
  gender : UInt8
  numlogins : UInt32
  numposts : UInt32

inductive UinfoPrompt
  | username | realname | address | email | termtype | birthyear | birthmonth | birthday | gender
  | numlogins | numposts | confirm | done
  deriving DecidableEq

/-- The order in which the fields are asked for. -/
def UinfoPrompt.place : UinfoPrompt → Nat
  | username => 0 | realname => 1 | address => 2 | email => 3 | termtype => 4 | birthyear => 5
  | birthmonth => 6 | birthday => 7 | gender => 8 | numlogins => 9 | numposts => 10
  | confirm => 11 | done => 12

/-- What does not change: the record, whether it is looked at by an administrator, whether it is the
editor's own, and what decides about addresses. -/
structure Uinfo where
  u : UinfoFields
  real : Bool
  own : Bool
  sysop : Bool
  badEmail : Option Bytes
  bbshost : Bytes

structure UinfoState where
  prompt : UinfoPrompt
  newinfo : UinfoFields
  mailchanged : Bool
  /-- The record that has been written to `PASSFILE`. -/
  written : Option UinfoFields

namespace Uinfo
variable (e : Uinfo)

def start : UinfoState := ⟨.username, e.u, false, none⟩

/-- What `getdata` leaves of an answer in a buffer of the size. -/
def getdata (size : Nat) (typed : Bytes) : Bytes := (typed.takeWhile (· ≠ 0)).take (size - 1)

def invalidEmail (addr : Bytes) : Bool := ArgoBbs.invalidEmail e.badEmail addr

/-- A changed address to which a letter for the registration is sent. -/
def regmailAddr (addr : Bytes) : Bool :=
  !invalidaddr addr && !e.invalidEmail addr && !strstr addr e.bbshost &&
    (strstr addr (bytes "@student.sysu.edu.cn") || strstr addr (bytes "@mail.sysu.edu.cn") ||
      strstr addr (bytes "@mail2.sysu.edu.cn") || strstr addr (bytes "@mail3.sysu.edu.cn"))

/-- The answer `buf` to the prompt for the address is not accepted, `buf[0] & invalid_email(buf)`. -/
def emailAgain (buf : Bytes) : Bool := buf.headD 0 &&& (if e.invalidEmail buf then 1 else 0) ≠ 0

def step (s : UinfoState) (typed : Bytes) : UinfoState :=
  let newinfo := s.newinfo
  match s.prompt with
  | .username =>
    let buf := getdata nickNameLen typed
    if buf ≠ [] ∧ buf.length < 2 then s
    else
      { s with
        prompt := .realname
        newinfo := if buf = [] then newinfo else { newinfo with username := buf } }
  | .realname =>
    let buf := getdata nameLen typed
    { s with
      prompt := .address
      newinfo := if buf = [] then newinfo else { newinfo with realname := buf } }
  | .address =>
    let buf := getdata (strLen - 10) typed
    if buf ≠ [] ∧ buf.length < 10 then s
    else
      { s with
        prompt := .email
        newinfo := if buf = [] then newinfo else { newinfo with address := buf } }
  | .email =>
    let buf := getdata 48 typed
    if e.emailAgain buf then s
    else
      { s with
        prompt := .termtype
        mailchanged := s.mailchanged || buf ≠ [] && e.own
        newinfo := if buf = [] then newinfo else { newinfo with email := buf } }
  | .termtype =>
    let buf := getdata 16 typed
    { s with
      prompt := .birthyear
      newinfo := if buf = [] then newinfo else { newinfo with termtype := buf } }
  | .birthyear =>
    let buf := getdata 5 typed
    if buf ≠ [] ∧ (atoi buf ≤ 1920 ∨ 1998 ≤ atoi buf) then s
    else
      { s with
        prompt := .birthmonth
        newinfo :=
          if buf = [] then newinfo
          else { newinfo with birthyear := UInt8.ofInt (atoi buf - 1900) } }
  | .birthmonth =>
    let buf := getdata 3 typed
    if buf ≠ [] ∧ (atoi buf < 1 ∨ 12 < atoi buf) then s
    else
      { s with
        prompt := .birthday
        newinfo :=
          if buf = [] then newinfo else { newinfo with birthmonth := UInt8.ofInt (atoi buf) } }
  | .birthday =>
    let buf := getdata 3 typed
    -- it is the day of the record that the loop tests
    if validDay newinfo.birthyear.toNat newinfo.birthmonth.toNat newinfo.birthday.toNat = false then s
    else
      { s with
        prompt := .gender
        newinfo := if buf = [] then newinfo else { newinfo with birthday := UInt8.ofInt (atoi buf) } }
  | .gender =>
    let buf := getdata 2 typed
    let next := if e.real then UinfoPrompt.numlogins else .confirm
    if buf = [77] ∨ buf = [109] then
      { s with prompt := next, newinfo := { newinfo with gender := 77 } }
    else if buf = [70] ∨ buf = [102] then
      { s with prompt := next, newinfo := { newinfo with gender := 70 } }
    else if buf ≠ [] then s
    else { s with prompt := next }
  | .numlogins =>
    let buf := getdata 10 typed
    { s with
      prompt := .numposts
      newinfo :=
        if buf ≠ [] ∧ 0 ≤ atoi buf then { newinfo with numlogins := UInt32.ofInt (atoi buf) }
        else newinfo }
  | .numposts =>
    let buf := getdata 10 typed
    { s with
      prompt := .confirm
      newinfo :=
        if buf ≠ [] ∧ 0 ≤ atoi buf then { newinfo with numposts := UInt32.ofInt (atoi buf) }
        else newinfo }
  | .confirm =>
    let ans := getdata 2 typed
    if ans = [89] ∨ ans = [121] then
      if s.mailchanged && !e.sysop && !e.regmailAddr newinfo.email then { s with prompt := .done }
      else { s with prompt := .done, written := some newinfo }
    else { s with prompt := .done }
  | .done => s

/-! ## What is written -/

def ValidBirth (u : UinfoFields) : Prop :=
  (1 ≤ u.birthmonth.toNat ∧ u.birthmonth.toNat ≤ 12) ∧
    validDay u.birthyear.toNat u.birthmonth.toNat u.birthday.toNat = true

def EmailOk (addr : Bytes) : Prop := addr = [] ∨ e.invalidEmail addr = false

instance (addr : Bytes) : Decidable (e.EmailOk addr) := inferInstanceAs (Decidable (_ ∨ _))

structure Good (s : UinfoState) : Prop where
  birth : ∀ u, s.written = some u → ValidBirth u
  email : ∀ u, s.written = some u → e.EmailOk u.email
  leaves : s.prompt ≠ .done → ∃ typed, (e.step s typed).prompt ≠ s.prompt

/-- An answer for the address that is not accepted starts with an odd byte or cannot be written, and the
address that is kept is accepted; the day of the record exists in the month that is chosen; the day
that is chosen exists. -/
def MayAnswer (s : UinfoState) (typed : Bytes) : Prop :=
  (s.prompt = .email →
    if getdata 48 typed = [] then e.EmailOk s.newinfo.email
    else e.invalidEmail (getdata 48 typed) = true →
      (getdata 48 typed).headD 0 &&& 1 = 1 ∨ e.own = true ∧ e.sysop = false) ∧
  (s.prompt = .birthmonth →
    if getdata 3 typed = [] then
      validDay s.newinfo.birthyear.toNat s.newinfo.birthmonth.toNat s.newinfo.birthday.toNat = true
    else 1 ≤ atoi (getdata 3 typed) → atoi (getdata 3 typed) ≤ 12 →
      validDay s.newinfo.birthyear.toNat (atoi (getdata 3 typed)).toNat
        s.newinfo.birthday.toNat = true) ∧
  (s.prompt = .birthday → getdata 3 typed ≠ [] →
    validDay s.newinfo.birthyear.toNat s.newinfo.birthmonth.toNat
      (atoi (getdata 3 typed)).toNat = true)

instance (s : UinfoState) (typed : Bytes) : Decidable (e.MayAnswer s typed) :=
  inferInstanceAs (Decidable ((_ → _) ∧ (_ → _) ∧ (_ → _ → _)))

/-- What holds at a prompt of what has been answered so far. -/
structure Inv (s : UinfoState) : Prop where
  month : 1 ≤ s.newinfo.birthmonth.toNat ∧ s.newinfo.birthmonth.toNat ≤ 12
  day : UinfoPrompt.birthmonth.place < s.prompt.place →
    validDay s.newinfo.birthyear.toNat s.newinfo.birthmonth.toNat s.newinfo.birthday.toNat = true
  email : UinfoPrompt.email.place < s.prompt.place →
    e.EmailOk s.newinfo.email ∨ s.mailchanged = true ∧ e.sysop = false
  written : ∀ u, s.written = some u → ValidBirth u ∧ e.EmailOk u.email

variable {e} {s s' : UinfoState} {year month day : Nat} {typed : Bytes}

theorem le_of_validDay (hday : validDay year month day = true) : 1 ≤ day ∧ day ≤ 31 := by
  rw [validDay] at hday
  split_ifs at hday
  · have := of_decide_eq_true hday
    omega
  · have := of_decide_eq_true hday
    omega

/-- In the years that users may have been born in, a day is valid just if it is in the calendar. -/
theorem validDay_calendar (hmin : 20 ≤ year) (hmax : year ≤ 98) :
    validDay (1900 + year) month day = validDay year month day := by
  have hleap : ((1900 + year) % 4 ≠ 0 ∨ (1900 + year) % 400 ≠ 0 ∧ (1900 + year) % 100 = 0) ↔
      (year % 4 ≠ 0 ∨ year % 400 ≠ 0 ∧ year % 100 = 0) := by omega
  rw [validDay, validDay]
  simp only [hleap]

theorem toNat_ofInt {n : Int} (hmin : 0 ≤ n) (hmax : n < 256) : (UInt8.ofInt n).toNat = n.toNat := by
  rw [UInt8.ofInt, UInt8.toNat_ofNat']
  omega

theorem start_inv (hbirth : ValidBirth e.u) : e.Inv e.start where
  month := hbirth.1
  day _ := hbirth.2
  email h := by cases h
  written u h := by cases h

/-- The date of birth and the address are the same. -/
structure SameBirth (u u' : UinfoFields) : Prop where
  birthyear : u'.birthyear = u.birthyear
  birthmonth : u'.birthmonth = u.birthmonth
  birthday : u'.birthday = u.birthday
  email : u'.email = u.email

theorem SameBirth.ite {u a b : UinfoFields} (c : Prop) [Decidable c] (ha : SameBirth u a)
    (hb : SameBirth u b) : SameBirth u (if c then a else b) := by
  split
  · exact ha
  · exact hb

/-- An answer to another prompt. -/
theorem Inv.next {p : UinfoPrompt} {u : UinfoFields} (I : e.Inv s) (hsame : SameBirth s.newinfo u)
    (hplace : ∀ q ∈ [UinfoPrompt.birthmonth, .email], q.place < p.place →
      q.place < s.prompt.place) : e.Inv { s with prompt := p, newinfo := u } := by
  obtain ⟨hbirth, haddr⟩ := List.forall_mem_cons.mp hplace
  refine ⟨?_, fun h => ?_, fun h => ?_, I.written⟩
  · rw [hsame.birthmonth]
    exact I.month
  · rw [hsame.birthyear, hsame.birthmonth, hsame.birthday]
    exact I.day (hbirth h)
  · rw [hsame.email]
    exact I.email (haddr _ (List.mem_singleton_self _) h)

/-- The address that an answer leaves is accepted, or cannot be written. -/
theorem emailOk_of_mayAnswer {buf : Bytes}
    (hC : if buf = [] then e.EmailOk s.newinfo.email
      else e.invalidEmail buf = true → buf.headD 0 &&& 1 = 1 ∨ e.own = true ∧ e.sysop = false)
    (hleft : e.emailAgain buf = false) :
    e.EmailOk (if buf = [] then s.newinfo else { s.newinfo with email := buf }).email ∨
      (s.mailchanged || buf ≠ [] && e.own) = true ∧ e.sysop = false := by
  by_cases hbuf : buf = []
  · rw [if_pos hbuf] at hC ⊢
    exact .inl hC
  · rw [if_neg hbuf] at hC ⊢
    cases hinvalid : e.invalidEmail buf with
    | false => exact .inl (.inr hinvalid)
    | true =>
      rw [emailAgain, hinvalid, if_pos rfl, decide_eq_false_iff_not, not_not] at hleft
      rcases hC hinvalid with hodd | ⟨hown, hsysop⟩
      · rw [hodd] at hleft
        cases hleft
      · rw [hown, decide_eq_true hbuf, Bool.and_self, Bool.or_true]
        exact .inr ⟨rfl, hsysop⟩

theorem emailOk_of_regmailAddr {addr : Bytes} (haddr : e.regmailAddr addr = true) :
    e.EmailOk addr := by
  rw [regmailAddr, Bool.and_eq_true, Bool.and_eq_true, Bool.and_eq_true] at haddr
  exact .inr (by simpa using haddr.1.1.2)

/-- A prompt for another field. -/
theorem Inv.field {p q : UinfoPrompt} {a b : UinfoFields} (c : Prop) [Decidable c] (I : e.Inv s)
    (hprompt : s.prompt = q) (ha : SameBirth s.newinfo a) (hb : SameBirth s.newinfo b)
    (hplace : ∀ r ∈ [UinfoPrompt.birthmonth, .email], r.place < p.place → r.place < q.place) :
    e.Inv { s with prompt := p, newinfo := if c then a else b } :=
  I.next (.ite c ha hb) (hprompt ▸ hplace)

theorem Inv.step_email (I : e.Inv s) (hC : e.MayAnswer s typed) (hprompt : s.prompt = .email) :
    e.Inv (e.step s typed) := by
  rw [Uinfo.step, hprompt]
  dsimp only
  cases hagain : e.emailAgain (getdata 48 typed) with
  | true => exact I
  | false =>
    have hsame : ∀ buf : Bytes, (if buf = [] then s.newinfo
        else { s.newinfo with email := buf }).birthmonth = s.newinfo.birthmonth := by
      intro buf
      split
      · rfl
      · rfl
    rw [if_neg Bool.false_ne_true]
    refine ⟨?_, fun h => ?_, fun _ => emailOk_of_mayAnswer (hC.1 hprompt) hagain, I.written⟩
    · rw [hsame]
      exact I.month
    · have hplace : UinfoPrompt.birthmonth.place < UinfoPrompt.termtype.place := h
      exact absurd hplace (by decide)

theorem Inv.step_birthyear (I : e.Inv s) (hprompt : s.prompt = .birthyear) :
    e.Inv (e.step s typed) := by
  rw [Uinfo.step, hprompt]
  dsimp only
  have hemail := I.email (by rw [hprompt]; decide)
  split
  · exact I
  · refine ⟨?_, fun h => ?_, fun _ => ?_, I.written⟩
    · dsimp only
      split
      · exact I.month
      · exact I.month
    · have hplace : UinfoPrompt.birthmonth.place < UinfoPrompt.birthmonth.place := h
      exact absurd hplace (by decide)
    · dsimp only
      split
      · exact hemail
      · exact hemail

theorem Inv.step_birthmonth (I : e.Inv s) (hC : e.MayAnswer s typed)
    (hprompt : s.prompt = .birthmonth) : e.Inv (e.step s typed) := by
  have hC := hC.2.1 hprompt
  rw [Uinfo.step, hprompt]
  dsimp only
  have hemail := I.email (by rw [hprompt]; decide)
  split
  · exact I
  case isFalse hleft =>
    by_cases hbuf : getdata 3 typed = []
    · rw [if_pos hbuf] at hC ⊢
      exact ⟨I.month, fun _ => hC, fun _ => hemail, I.written⟩
    · obtain ⟨hmin, hmax⟩ : 1 ≤ atoi (getdata 3 typed) ∧ atoi (getdata 3 typed) ≤ 12 := by
        have h := mt (And.intro hbuf) hleft
        omega
      have hmonth :=
        toNat_ofInt (Int.le_trans (by decide) hmin) (Int.lt_of_le_of_lt hmax (by decide))
      rw [if_neg hbuf] at hC ⊢
      refine ⟨?_, fun _ => ?_, fun _ => hemail, I.written⟩
      · dsimp only
        rw [hmonth]
        omega
      · dsimp only
        rw [hmonth]
        exact hC hmin hmax

theorem Inv.step_birthday (I : e.Inv s) (hC : e.MayAnswer s typed) (hprompt : s.prompt = .birthday) :
    e.Inv (e.step s typed) := by
  have hC := hC.2.2 hprompt
  rw [Uinfo.step, hprompt]
  dsimp only
  have hemail := I.email (by rw [hprompt]; decide)
  have hday := I.day (by rw [hprompt]; decide)
  rw [hday, if_neg (by decide)]
  by_cases hbuf : getdata 3 typed = []
  · rw [if_pos hbuf]
    exact ⟨I.month, fun _ => hday, fun _ => hemail, I.written⟩
  · obtain ⟨hmin, hmax⟩ := le_of_validDay (hC hbuf)
    have htyped := toNat_ofInt (n := atoi (getdata 3 typed)) (by omega) (by omega)
    rw [if_neg hbuf]
    refine ⟨I.month, fun _ => ?_, fun _ => hemail, I.written⟩
    dsimp only
    rw [htyped]
    exact hC hbuf

theorem Inv.step_gender (I : e.Inv s) (hprompt : s.prompt = .gender) : e.Inv (e.step s typed) := by
  have hplace : ∀ q ∈ [UinfoPrompt.birthmonth, .email],
      q.place < (if e.real then UinfoPrompt.numlogins else .confirm).place →
        q.place < UinfoPrompt.gender.place := by
    cases e.real with
    | false => decide
    | true => decide
  rw [Uinfo.step, hprompt]
  dsimp only
  split
  · exact I.next ⟨rfl, rfl, rfl, rfl⟩ (hprompt ▸ hplace)
  split
  · exact I.next ⟨rfl, rfl, rfl, rfl⟩ (hprompt ▸ hplace)
  split
  · exact I
  · exact I.next ⟨rfl, rfl, rfl, rfl⟩ (hprompt ▸ hplace)

/-- What is written if the changes are confirmed. -/
theorem Inv.step_confirm (I : e.Inv s) (hprompt : s.prompt = .confirm) :
    e.Inv (e.step s typed) := by
  have hday := I.day (by rw [hprompt]; decide)
  have hemail := I.email (by rw [hprompt]; decide)
  have hplace : ∀ q ∈ [UinfoPrompt.birthmonth, .email],
      q.place < UinfoPrompt.done.place → q.place < s.prompt.place := by
    rw [hprompt]
    decide
  rw [Uinfo.step, hprompt]
  dsimp only
  split
  · split
    · exact I.next ⟨rfl, rfl, rfl, rfl⟩ hplace
    case isFalse hsent =>
      refine ⟨I.month, fun _ => hday, fun _ => hemail, fun u hu => ?_⟩
      obtain rfl := Option.some.inj hu
      refine ⟨⟨I.month, hday⟩, ?_⟩
      rcases hemail with hok | ⟨hchanged, hsysop⟩
      · exact hok
      · rw [hchanged, hsysop, Bool.not_false, Bool.and_self, Bool.true_and] at hsent
        exact emailOk_of_regmailAddr (by simpa using hsent)
  · exact I.next ⟨rfl, rfl, rfl, rfl⟩ hplace

theorem Inv.step (I : e.Inv s) (hC : e.MayAnswer s typed) : e.Inv (e.step s typed) := by
  cases hprompt : s.prompt with
  | username =>
    rw [Uinfo.step, hprompt]
    dsimp only
    split
    · exact I
    · exact I.field _ hprompt ⟨rfl, rfl, rfl, rfl⟩ ⟨rfl, rfl, rfl, rfl⟩ (by decide)
  | address =>
    rw [Uinfo.step, hprompt]
    dsimp only
    split
    · exact I
    · exact I.field _ hprompt ⟨rfl, rfl, rfl, rfl⟩ ⟨rfl, rfl, rfl, rfl⟩ (by decide)
  | email => exact I.step_email hC hprompt
  | birthyear => exact I.step_birthyear hprompt
  | birthmonth => exact I.step_birthmonth hC hprompt
  | birthday => exact I.step_birthday hC hprompt
  | gender => exact I.step_gender hprompt
  | confirm => exact I.step_confirm hprompt
  | done =>
    rw [Uinfo.step, hprompt]
    exact I
  | _ =>
    rw [Uinfo.step, hprompt]
    exact I.field _ hprompt ⟨rfl, rfl, rfl, rfl⟩ ⟨rfl, rfl, rfl, rfl⟩ (by decide)

/-- Every prompt but one is left with an empty answer, the one for the day if the day of the record
exists. -/
theorem Inv.leaves (I : e.Inv s) (hdone : s.prompt ≠ .done) : (e.step s []).prompt ≠ s.prompt := by
  rw [Uinfo.step]
  cases hprompt : s.prompt with
  | birthday =>
    have hday := I.day (by rw [hprompt]; decide)
    dsimp only
    rw [hday]
    exact UinfoPrompt.noConfusion
  | gender =>
    dsimp only
    cases e.real with
    | false => exact UinfoPrompt.noConfusion
    | true => exact UinfoPrompt.noConfusion
  | done => exact absurd hprompt hdone
  | email =>
    have hempty : e.emailAgain (getdata 48 []) = false := by
      have hinvalid : e.invalidEmail (getdata 48 []) = true := rfl
      rw [emailAgain, hinvalid]
      rfl
    dsimp only
    rw [hempty]
    exact UinfoPrompt.noConfusion
  | _ => exact UinfoPrompt.noConfusion

/-- No answer leaves the prompt for the day if the day of the record does not exist. -/
theorem step_birthday (hprompt : s.prompt = .birthday)
    (hday : validDay s.newinfo.birthyear.toNat s.newinfo.birthmonth.toNat
      s.newinfo.birthday.toNat = false) (typed : Bytes) : e.step s typed = s := by
  rw [Uinfo.step, hprompt]
  exact if_pos hday

end Uinfo

open Uinfo in
/-- Whatever is written, as long as every answer may be given, is a date that exists and an address
that is accepted, and no prompt is asked for ever. -/
theorem uinfo_good_of_reach (e : Uinfo) (hbirth : ValidBirth e.u) {s : UinfoState}
    (h : Reach (fun s typed => some (e.step s typed)) e.MayAnswer e.start s) : e.Good s := by
  have I : e.Inv s := by
    refine h.invariant e.Inv (start_inv hbirth) fun s typed s' I hC hstep => ?_
    obtain rfl := Option.some.inj hstep
    exact I.step hC
  exact ⟨fun u hu => (I.written u hu).1, fun u hu => (I.written u hu).2,
    fun hdone => ⟨[], I.leaves hdone⟩⟩

def uinfoDemo : Uinfo where
  u := ⟨bytes "nick", bytes "name", bytes "some address", bytes "ab@sysu.edu", bytes "vt100",
    80, 1, 31, 77, 0, 0⟩
  real := true
  own := false
  sysop := true
  badEmail := none
  bbshost := bytes "bbs.sysu.edu"

/-- The answers to the thirteen prompts, of which the ones for the month and for the day are given. -/
def uinfoAnswers (month day : Bytes) : List Bytes :=
  [[], [], [], [], [], [], month, day, [], [], [], bytes "Y"]

open Uinfo in
theorem uinfo_good_of_reach_march : ∃ s, (uinfoAnswers (bytes "3") (bytes "15")).foldlM
    (fun s typed => some (uinfoDemo.step s typed)) uinfoDemo.start = some s ∧ uinfoDemo.Good s := by
  have hmeets : Reach.Meets (fun s typed => some (uinfoDemo.step s typed)) uinfoDemo.MayAnswer
    uinfoDemo.start (uinfoAnswers (bytes "3") (bytes "15")) := by decide +kernel
  obtain ⟨s, hs, h⟩ := Reach.of_meets _ hmeets
  exact ⟨s, hs, uinfo_good_of_reach uinfoDemo ⟨by decide, by decide⟩ h⟩

open Uinfo in
/-- The 99th is accepted as the day of birth. -/
theorem not_uinfo_good : ¬∀ (e : Uinfo), ValidBirth e.u → ∀ s : UinfoState,
    Reach (fun s typed => some (e.step s typed)) (fun _ _ => True) e.start s → e.Good s := by
  intro hall
  have hmeets : Reach.Meets (fun s typed => some (uinfoDemo.step s typed)) (fun _ _ => True)
    uinfoDemo.start (uinfoAnswers (bytes "3") (bytes "99")) := by decide +kernel
  obtain ⟨s, hs, h⟩ := Reach.of_meets _ hmeets
  have hwritten : ((uinfoAnswers (bytes "3") (bytes "99")).foldlM
      (fun s typed => some (uinfoDemo.step s typed)) uinfoDemo.start).map
        (fun s => s.written.map (·.birthday)) = some (some 99) := by decide +kernel
  rw [hs, Option.map_some] at hwritten
  obtain ⟨u, hu, hday⟩ := Option.map_eq_some_iff.mp (Option.some.inj hwritten)
  have hvalid := ((hall uinfoDemo ⟨by decide, by decide⟩ s h).birth u hu).2
  rw [hday] at hvalid
  exact absurd (le_of_validDay hvalid).2 (by decide)

end ArgoBbs

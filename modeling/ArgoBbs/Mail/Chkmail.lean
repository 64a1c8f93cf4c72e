import ArgoBbs.Lib.Reach
import ArgoBbs.Mail.Mailbox
import ArgoBbs.Permissions

/-! # Looking for new mail

`chkmail` answers from a copy of its last answer for as long as `.DIR` has not been changed after
the second of that check. The calls of `stat`, of `time` and of `check_query_mail` are steps of
their own, between which the mailbox can be changed. -/

namespace ArgoBbs

/-- Whether the last mail of the directory is new. -/
def checkQueryMail (dir : Option (List ArticleHeader)) : Bool :=
  match dir with
  | some headers =>
    match headers.getLast? with
    | some fh => !fh.has fileRead
    | none => false
  | none => false

/-- Where `chkmail` is: outside, behind its `stat` when that has shown a change, and behind its
`time`. `delay` is its argument. -/
inductive ChkmailPc
  | idle
  | changed (delay : Bool)
  | timed (delay : Bool)
  deriving DecidableEq

/-- The directory with the time of its last change, the clock, and of the session the two static
variables. `answers` are the answers of all calls `chkmail(NA)`, each with the one that
`check_query_mail` would have given then. -/
structure MailCheck where
  dir : Option (List ArticleHeader)
  mtime : Int
  clock : Int
  lasttime : Int
  ismail : Bool
  pc : ChkmailPc
  answers : List (Bool × Bool)

/-- A change is a delivery, the write of a header or a deletion. -/
inductive CheckEvent
  | tick (seconds : Nat)
  | change (headers : List ArticleHeader)
  | chkmail (delay : Bool)
  | time
  | read

namespace MailCheck

/-- A session that has just been started. -/
def start (dir : Option (List ArticleHeader)) (mtime clock : Int) : MailCheck :=
  ⟨dir, mtime, clock, 0, false, .idle, []⟩

def answer (s : MailCheck) (delay value : Bool) : MailCheck :=
  { s with
    pc := .idle
    answers := if delay then s.answers else s.answers ++ [(value, checkQueryMail s.dir)] }

def step (userlevel : BitVec 32) (s : MailCheck) : CheckEvent → Option MailCheck
  | .tick seconds => some { s with clock := s.clock + seconds }
  | .change headers => some { s with dir := some headers, mtime := s.clock }
  | .chkmail delay =>
    if s.pc ≠ .idle then none
    else if userlevel &&& permBasic = 0 then some (s.answer delay false)
    else if delay ∧ s.clock - s.lasttime < 10 then some (s.answer delay s.ismail)
    else if s.dir = none then some ({ s with ismail := false }.answer delay false)
    else if s.mtime ≤ s.lasttime then some (s.answer delay s.ismail)
    else some { s with pc := .changed delay }
  | .time =>
    match s.pc with
    | .changed delay => some { s with lasttime := s.clock, pc := .timed delay }
    | _ => none
  | .read =>
    match s.pc with
    | .timed delay =>
      let ismail := checkQueryMail s.dir
      some ({ s with ismail }.answer delay ismail)
    | _ => none

/-- Outside of `chkmail` the directory is changed in the second of the last check only if the answer
stays the same. The user may read mails, or has no new one. -/
def MayStep (userlevel : BitVec 32) (s : MailCheck) : CheckEvent → Prop
  | .change headers =>
    s.pc = .idle → s.lasttime < s.clock ∨ checkQueryMail (some headers) = s.ismail
  | .chkmail false => userlevel &&& permBasic ≠ 0 ∨ checkQueryMail s.dir = false
  | .chkmail true | .tick _ | .time | .read => True

instance (userlevel : BitVec 32) (s : MailCheck) :
    (e : CheckEvent) → Decidable (s.MayStep userlevel e)
  | .change headers => inferInstanceAs (Decidable
    (s.pc = .idle → s.lasttime < s.clock ∨ checkQueryMail (some headers) = s.ismail))
  | .chkmail false =>
    inferInstanceAs (Decidable (userlevel &&& permBasic ≠ 0 ∨ checkQueryMail s.dir = false))
  | .chkmail true | .tick _ | .time | .read => isTrue trivial

/-- The copy of the answer is right wherever `chkmail` would return it, and all answers so far were.
-/
structure Current (s : MailCheck) : Prop where
  cached : s.pc = .idle → s.dir ≠ none → s.mtime ≤ s.lasttime → s.ismail = checkQueryMail s.dir
  answers : ∀ a ∈ s.answers, a.1 = a.2

section
variable {userlevel : BitVec 32} {s s' : MailCheck} {e : CheckEvent}

/-- What holds of the copy behind an answer. -/
theorem Current.answer (hs : ∀ a ∈ s.answers, a.1 = a.2)
    (hcached : s.dir ≠ none → s.mtime ≤ s.lasttime → s.ismail = checkQueryMail s.dir)
    {delay value : Bool} (hvalue : delay = false → value = checkQueryMail s.dir) :
    (s.answer delay value).Current where
  cached _ := hcached
  answers := by
    cases delay with
    | true => exact hs
    | false => exact List.forall_mem_append.mpr ⟨hs, List.forall_mem_singleton.mpr (hvalue rfl)⟩

theorem Current.chkmail (hs : s.Current) {delay : Bool} (hmay : s.MayStep userlevel (.chkmail delay))
    (hstep : s.step userlevel (.chkmail delay) = some s') : s'.Current := by
  rw [MailCheck.step] at hstep
  split at hstep
  case isTrue => cases hstep
  case isFalse hidle =>
    have hcached := hs.cached (not_not.mp hidle)
    split at hstep
    case isTrue hbasic =>
      cases hstep
      refine .answer hs.answers hcached fun hdelay => ?_
      subst hdelay
      exact (hmay.resolve_left (not_not_intro hbasic)).symm
    case isFalse =>
      split at hstep
      case isTrue hsoon =>
        cases hstep
        exact .answer hs.answers hcached fun hdelay => absurd hsoon.1 (hdelay ▸ Bool.false_ne_true)
      case isFalse =>
        split at hstep
        case isTrue hdir =>
          cases hstep
          refine .answer (s := { s with ismail := false }) hs.answers
            (fun hne => absurd hdir hne) fun _ => ?_
          rw [hdir]
          rfl
        case isFalse hdir =>
          split at hstep
          case isTrue htime =>
            cases hstep
            exact .answer hs.answers hcached fun _ => hcached hdir htime
          case isFalse =>
            cases hstep
            exact ⟨nofun, hs.answers⟩

theorem Current.step (hs : s.Current) (hmay : s.MayStep userlevel e)
    (hstep : s.step userlevel e = some s') : s'.Current := by
  cases e with
  | tick seconds =>
    cases hstep
    exact ⟨hs.cached, hs.answers⟩
  | change headers =>
    cases hstep
    refine ⟨fun hidle _ htime => ?_, hs.answers⟩
    rcases hmay hidle with hlater | hsame
    · exact absurd htime (not_le.mpr hlater)
    · exact hsame.symm
  | chkmail delay => exact hs.chkmail hmay hstep
  | time =>
    rw [MailCheck.step] at hstep
    split at hstep
    case h_1 =>
      cases hstep
      exact ⟨nofun, hs.answers⟩
    case h_2 => cases hstep
  | read =>
    rw [MailCheck.step] at hstep
    split at hstep
    case h_1 =>
      cases hstep
      exact .answer (s := { s with ismail := checkQueryMail s.dir }) hs.answers
        (fun _ _ => rfl) fun _ => rfl
    case h_2 => cases hstep

/-- The next change in a later second than the last check ends it that a mail is hidden. -/
theorem current_change (hs : ∀ a ∈ s.answers, a.1 = a.2) (hlater : s.lasttime < s.clock)
    (headers : List ArticleHeader) :
    ({ s with dir := some headers, mtime := s.clock } : MailCheck).Current :=
  ⟨fun _ _ htime => absurd htime (not_le.mpr hlater), hs⟩

/-- A change in the second of the last check that changes the answer hides it from the next call. -/
theorem hidden_of_change {headers : List ArticleHeader} (hidle : s.pc = .idle)
    (hbasic : userlevel &&& permBasic ≠ 0) (hsecond : s.clock ≤ s.lasttime)
    (hother : checkQueryMail (some headers) ≠ s.ismail) :
    ∃ s', [CheckEvent.change headers, .chkmail false].foldlM (step userlevel) s = some s' ∧
      ∃ a ∈ s'.answers, a.1 ≠ a.2 := by
  refine ⟨({ s with dir := some headers, mtime := s.clock } : MailCheck).answer false s.ismail, ?_,
    (s.ismail, checkQueryMail (some headers)), ?_, hother.symm⟩
  · have hbasic : ¬userlevel &&& permBasic = 0#32 := hbasic
    simp [step, hidle, hbasic, hsecond]
  · exact List.mem_append_right _ (List.mem_singleton_self _)

theorem current_start {dir : Option (List ArticleHeader)} {mtime clock : Int} (hpos : 0 < mtime) :
    (start dir mtime clock).Current :=
  ⟨fun _ _ htime => absurd htime (not_le.mpr hpos), nofun⟩

end

/-- Every `chkmail(NA)` answers what `check_query_mail` would, from the start of the session or any
other state in which its copy is right, as long as no change within the second of a check changes
the answer. -/
theorem chkmail_current {userlevel : BitVec 32} {start s : MailCheck} (hstart : start.Current)
    (h : Reach (step userlevel) (MayStep userlevel) start s) : ∀ a ∈ s.answers, a.1 = a.2 :=
  (h.invariant Current hstart fun _ _ _ hs hmay hstep => hs.step hmay hstep).answers

/-- A mail arrives in a later second than the check; the next check finds it, and another one that
arrives while it runs. -/
def demoCheck : List CheckEvent :=
  [.chkmail false, .time, .read, .tick 1, .change [⟨⟨bytes "M.7.A", 7⟩, 0⟩], .chkmail false, .time,
    .change [⟨⟨bytes "M.7.A", 7⟩, 0⟩, ⟨⟨bytes "M.8.A", 7⟩, 0⟩], .read, .chkmail false]

theorem chkmail_current_demo : ∃ s : MailCheck,
    s.answers.map (·.2) = [false, true, true] ∧ ∀ a ∈ s.answers, a.1 = a.2 := by
  have hrun : Reach.Meets (step permDefault) (MayStep permDefault) (start (some []) 5 6)
      demoCheck := by decide +kernel
  obtain ⟨s, hs, h⟩ := Reach.of_meets _ hrun
  have hend : (demoCheck.foldlM (step permDefault) (start (some []) 5 6)).map
      (fun s => s.answers.map (·.2)) = some [false, true, true] := by decide +kernel
  rw [hs] at hend
  exact ⟨s, Option.some.inj hend, chkmail_current (current_start (by decide)) h⟩

/-- Two mails arrive in the second of a check; there is another check an hour later. -/
def demoHidden : List CheckEvent :=
  [.chkmail false, .time, .read, .change [⟨⟨bytes "M.6.A", 6⟩, 0⟩],
    .change [⟨⟨bytes "M.6.A", 6⟩, 0⟩, ⟨⟨bytes "M.7.A", 6⟩, 0⟩], .tick 3600, .chkmail false]

theorem chkmail_hides : ¬∀ s : MailCheck,
    Reach (step permDefault) (fun _ _ => True) (start (some []) 5 6) s →
      ∀ a ∈ s.answers, a.1 = a.2 := by
  intro hclaim
  have hrun : Reach.Meets (step permDefault) (fun _ _ => True) (start (some []) 5 6)
      demoHidden := by decide +kernel
  obtain ⟨s, hs, h⟩ := Reach.of_meets _ hrun
  have hend : (demoHidden.foldlM (step permDefault) (start (some []) 5 6)).map (·.answers) =
      some [(false, false), (false, true)] := by decide +kernel
  rw [hs] at hend
  have hanswers : s.answers = [(false, false), (false, true)] := Option.some.inj hend
  have hmem : (false, true) ∈ s.answers := by
    rw [hanswers]
    exact List.mem_cons_of_mem _ (List.mem_singleton_self _)
  exact Bool.false_ne_true (hclaim s h _ hmem)

end MailCheck

end ArgoBbs

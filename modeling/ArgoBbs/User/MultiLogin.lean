import ArgoBbs.Lib.Reach
import ArgoBbs.Lib.Slots
import ArgoBbs.Permissions
import Mathlib.Data.Finset.Max
import Mathlib.Logic.Function.Basic

/-! # Logins of one account

A login counts the entries of its account in the table of the active users, asks whether to kick one
of them, takes an entry and counts again (`multi_user_check`, `u_enter` and `user_login` in
`main.c`, `getnewutmpent` and `search_ulist` in `ucache.c`, `count_self` in `stat.c`). Only the
taking and the giving up of an entry are under the lock of `ULIST`; the counts read one entry after
the other. -/

namespace ArgoBbs

def multiLogins : Nat := 2
def maxguest : Nat := 256
def permMultilog : BitVec 32 := permSysop

/-- The size that the site is built for, and what is known of a user number. -/
structure Site where
  maxactive : Nat
  userlevel : Nat → BitVec 32
  guestuser : Nat → Bool

namespace Site

def ushmSize (site : Site) : Nat := site.maxactive + 10

def hasPerm (site : Site) (usernum : Nat) (perm : BitVec 32) : Bool :=
  site.userlevel usernum &&& perm != 0

def loginLimit (site : Site) (usernum : Nat) : Nat :=
  multiLogins + if site.hasPerm usernum permOboards then 1 else 0

end Site

/-- An entry of the table. -/
structure UserInfo where
  active : Bool
  uid : Nat
  pid : Nat
  idleTime : Nat
  deactiveTime : Nat

/-- What `count_self` adds for an entry that `apply_ulist` shows it. -/
def UserInfo.countMulti (entry : UserInfo) (usernum : Nat) : Nat :=
  if !entry.active || entry.pid == 0 then 0 else if entry.uid = usernum then 1 else 0

def UserInfo.cmpuids2 (entry : UserInfo) (unum getpid : Nat) : Bool :=
  unum == entry.uid && entry.pid != getpid

/-- How far a process is: before `multi_user_check`; in its `count_self`, at an entry, with the
number so far; at the question whether to kick; in `search_ulist`, at an entry; behind
`multi_user_check`; in the `count_self` of `user_login`, with its own entry; logged in. -/
inductive LoginStage
  | begun
  | counting (i count : Nat)
  | asked
  | searching (i : Nat)
  | checked
  | recounting (utmpent i count : Nat)
  | online (utmpent : Nat)
  deriving DecidableEq

/-- The entry of a process that has got through `u_enter`. -/
def LoginStage.utmpent : LoginStage → Option Nat
  | .recounting utmpent .. | .online utmpent => some utmpent
  | _ => none

/-- A process that serves a user; `hup` says that a `SIGHUP` waits for it. -/
structure LoginProc where
  usernum : Nat
  stage : LoginStage
  hup : Bool

/-- The table in shared memory and the processes. -/
structure Utmp where
  uinfo : Nat → UserInfo
  uptime : Nat
  proc : Nat → Option LoginProc

namespace Utmp

/-- After a start of the machine. -/
def boot : Utmp := ⟨fun _ => ⟨false, 0, 0, 0, 0⟩, 0, fun _ => none⟩

/-- `kill(pid, 0) == 0` -/
def alive (s : Utmp) (pid : Nat) : Bool := pid == 0 || (s.proc pid).isSome

def goTo (s : Utmp) (pid : Nat) (P : LoginProc) (stage : LoginStage) : Utmp :=
  { s with proc := Function.update s.proc pid (some { P with stage }) }

def gone (s : Utmp) (pid : Nat) : Utmp := { s with proc := Function.update s.proc pid none }

/-- `safe_kill`: the signal waits until the process takes it. -/
def safeKill (s : Utmp) (pid : Nat) : Utmp :=
  match s.proc pid with
  | some P =>
    if 0 < pid then { s with proc := Function.update s.proc pid (some { P with hup := true }) } else s
  | none => s

/-- What `getnewutmpent` does with an entry from time to time. -/
def sweep (s : Utmp) (now : Nat) (entry : UserInfo) : UserInfo :=
  if entry.active &&
      if entry.pid = 1 then now > entry.idleTime + 15 * 60 else !s.alive entry.pid then
    { entry with active := false, deactiveTime := now, pid := 0 }
  else entry

/-- `getnewutmpent`; no entry may be free. -/
def getnewutmpent (site : Site) (s : Utmp) (now : Nat) (up : UserInfo) : Option (Nat × Utmp) :=
  match (List.range site.ushmSize).find? fun i =>
      (!(s.uinfo i).active || (s.uinfo i).pid == 0) && (s.uinfo i).deactiveTime + 60 < now with
  | none => none
  | some i =>
    let uinfo := Function.update s.uinfo i up
    some (i, if now > s.uptime + 60 then { s with uinfo := fun n => s.sweep now (uinfo n), uptime := now }
      else { s with uinfo })

/-- What `u_exit` does to the table. -/
def uExit (s : Utmp) (P : LoginProc) (utmpent now : Nat) : Utmp :=
  { s with
    uinfo := Function.update s.uinfo utmpent
      { s.uinfo utmpent with active := false, uid := P.usernum, pid := 0, deactiveTime := now } }

/-- `abort_bbs`; a process without an entry has not `started`. -/
def abortBbs (s : Utmp) (pid : Nat) (P : LoginProc) (now : Nat) : Utmp :=
  match P.stage.utmpent with
  | some utmpent => (s.uExit P utmpent now).gone pid
  | none => s.gone pid

end Utmp

/-- What a process does next: `multi_user_check` begins; `count_self` looks at an entry; it has
counted; the answer to the question is `genbuf[0]`; `search_ulist` looks at an entry; `u_enter`;
`user_login` has counted; the process ends (a logout, a refusal, a broken connection), takes the
`SIGHUP`, or dies without `u_exit`. -/
inductive LoginAct
  | check
  | count
  | counted (heavyload : Bool)
  | answer (key : UInt8)
  | search
  | enter (now : Nat)
  | recounted (now : Nat)
  | quit (now : Nat)
  | hangup (now : Nat)
  | die

/-- A user has given name and password to a new process; a process takes a step. -/
inductive LoginEvent
  | connect (pid usernum : Nat)
  | run (pid : Nat) (act : LoginAct)

namespace Utmp

/-- `multi_user_check` with the number of the logins. -/
def checkLogins (site : Site) (s : Utmp) (pid : Nat) (P : LoginProc) (logins : Nat)
    (heavyload : Bool) : Utmp :=
  if site.guestuser P.usernum then
    if logins > maxguest then s.gone pid else s.goTo pid P .checked
  else if heavyload && logins != 0 then s.goTo pid P .asked
  else if logins ≥ site.loginLimit P.usernum then s.goTo pid P .asked
  else s.goTo pid P .checked

/-- `search_ulist` at an entry, and what `multi_user_check` does with the entry found. -/
def searchEntry (site : Site) (s : Utmp) (pid : Nat) (P : LoginProc) (i : Nat) : Utmp :=
  let uin := s.uinfo i
  if i ≥ site.ushmSize then s.goTo pid P .checked
  else if uin.cmpuids2 P.usernum pid then
    if !uin.active || uin.pid != 0 && !s.alive uin.pid then s.goTo pid P .checked
    else (s.goTo pid P .checked).safeKill uin.pid
  else s.goTo pid P (.searching (i + 1))

def act (site : Site) (s : Utmp) (pid : Nat) (P : LoginProc) : LoginAct → Option Utmp
  | .check =>
    match P.stage with
    | .begun =>
      some (s.goTo pid P (if site.hasPerm P.usernum permMultilog then .checked else .counting 0 0))
    | _ => none
  | .count =>
    -- `apply_ulist` ends before the last entry
    match P.stage with
    | .counting i count =>
      if i < site.ushmSize - 1 then
        some (s.goTo pid P (.counting (i + 1) (count + (s.uinfo i).countMulti P.usernum)))
      else none
    | .recounting utmpent i count =>
      if i < site.ushmSize - 1 then
        some (s.goTo pid P
          (.recounting utmpent (i + 1) (count + (s.uinfo i).countMulti P.usernum)))
      else none
    | _ => none
  | .counted heavyload =>
    match P.stage with
    | .counting i logins =>
      if i < site.ushmSize - 1 then none else some (s.checkLogins site pid P logins heavyload)
    | _ => none
  | .answer key =>
    match P.stage with
    | .asked =>
      some (if key = 78 ∨ key = 110 ∨ key = 0 then s.gone pid else s.goTo pid P (.searching 0))
    | _ => none
  | .search =>
    match P.stage with
    | .searching i => some (s.searchEntry site pid P i)
    | _ => none
  | .enter now =>
    match P.stage with
    | .checked =>
      match s.getnewutmpent site now ⟨true, P.usernum, pid, now, 0⟩ with
      | some (i, s) =>
        some (s.goTo pid P
          (if site.hasPerm P.usernum (permMultilog ||| permSysop) then .online i
          else .recounting i 0 0))
      | none => some s
    | _ => none
  | .recounted now =>
    match P.stage with
    | .recounting utmpent i count =>
      if i < site.ushmSize - 1 then none
      else some (if count > site.loginLimit P.usernum && !site.guestuser P.usernum then
        s.abortBbs pid P now
      else s.goTo pid P (.online utmpent))
    | _ => none
  | .quit now => some (s.abortBbs pid P now)
  | .hangup now => if P.hup then some (s.abortBbs pid P now) else none
  | .die => some (s.gone pid)

def step (site : Site) (s : Utmp) : LoginEvent → Option Utmp
  | .connect pid usernum =>
    if 1 < pid ∧ s.proc pid = none then
      some { s with proc := Function.update s.proc pid (some ⟨usernum, .begun, false⟩) }
    else none
  | .run pid act =>
    match s.proc pid with
    | some P => s.act site pid P act
    | none => none

end Utmp

namespace Utmp

/-- What runs reach from the start of the machine. -/
abbrev Reached (site : Site) : Utmp → Prop := Reach (step site) (fun _ _ => True) boot

/-- The entry `j` belongs to a process that runs for the user. -/
def live (s : Utmp) (usernum j : Nat) : Bool :=
  match s.proc (s.uinfo j).pid with
  | some P => P.usernum == usernum && P.stage.utmpent == some j
  | none => false

/-- The process that the entry `j` belongs to is logged in as the user. -/
def online (s : Utmp) (usernum j : Nat) : Bool :=
  match s.proc (s.uinfo j).pid with
  | some P => P.usernum == usernum && P.stage == .online j
  | none => false

/-- The processes have their own entries. -/
structure Held (site : Site) (s : Utmp) : Prop where
  pid : ∀ pid P, s.proc pid = some P → 1 < pid
  entry : ∀ pid P j, s.proc pid = some P → P.stage.utmpent = some j →
    j < site.ushmSize ∧ (s.uinfo j).active = true ∧ (s.uinfo j).pid = pid ∧
      (s.uinfo j).uid = P.usernum

/-- The entries before `i` that belong to the user and were taken not later than at `r`. -/
def older (s : Utmp) (usernum : Nat) (rank : Nat → Nat) (r i : Nat) : Nat :=
  countSlots i fun j => s.live usernum j && decide (rank j ≤ r)

/-- The entries are ranked in the order they were taken in. A process that counts after `u_enter`
has counted at least the entries behind it that are not younger than its own, so the limit holds for
the entries that are not younger than that of a process logged in. -/
structure Ranked (site : Site) (usernum : Nat) (s : Utmp) (rank : Nat → Nat) (top : Nat) :
    Prop where
  below : ∀ j, rank j < top
  recounting : ∀ pid P j i count, s.proc pid = some P → P.usernum = usernum →
    P.stage = .recounting j i count → s.older usernum rank (rank j) i ≤ count
  online : ∀ pid P j, s.proc pid = some P → P.usernum = usernum → P.stage = .online j →
    s.older usernum rank (rank j) (site.ushmSize - 1) ≤ site.loginLimit usernum

variable {site : Site} {s s' : Utmp} {pid usernum j : Nat} {P : LoginProc} {rank : Nat → Nat}

theorem goTo_self (s : Utmp) (pid : Nat) (P : LoginProc) (stage : LoginStage) :
    (s.goTo pid P stage).proc pid = some { P with stage } := Function.update_self ..

theorem live_iff : s.live usernum j = true ↔
    ∃ P, s.proc (s.uinfo j).pid = some P ∧ P.usernum = usernum ∧ P.stage.utmpent = some j := by
  unfold live
  split <;> simp_all

theorem online_iff : s.online usernum j = true ↔
    ∃ P, s.proc (s.uinfo j).pid = some P ∧ P.usernum = usernum ∧ P.stage = .online j := by
  unfold online
  split <;> simp_all

/-- The step takes no entry, and a process with an entry goes on as it was. -/
structure Keeps (s s' : Utmp) : Prop where
  pid : ∀ pid P', s'.proc pid = some P' → 1 < pid
  proc : ∀ pid P' j, s'.proc pid = some P' → P'.stage.utmpent = some j →
    s'.uinfo j = s.uinfo j ∧
      ∃ P, s.proc pid = some P ∧ P.usernum = P'.usernum ∧ P.stage = P'.stage
  uinfo : ∀ j, (s'.uinfo j).pid = (s.uinfo j).pid ∨ (s'.uinfo j).pid = 0

namespace Keeps

theorem held (K : Keeps s s') (H : Held site s) : Held site s' := by
  refine ⟨K.pid, fun pid P' j hP' hj => ?_⟩
  obtain ⟨hentry, P, hP, huser, hstage⟩ := K.proc pid P' j hP' hj
  rw [hentry, ← huser]
  exact H.entry pid P j hP (hstage ▸ hj)

theorem live (K : Keeps s s') (h : s'.live usernum j = true) : s.live usernum j = true := by
  obtain ⟨P', hP', huser', hj⟩ := live_iff.mp h
  obtain ⟨-, P, hP, huser, hstage⟩ := K.proc _ P' j hP' hj
  obtain hpid | hpid := K.uinfo j
  · exact live_iff.mpr ⟨P, hpid ▸ hP, huser.trans huser', hstage ▸ hj⟩
  · have := K.pid _ P' hP'
    omega

theorem ranked (K : Keeps s s') (R : Ranked site usernum s rank top) :
    Ranked site usernum s' rank top := by
  have holder (r i : Nat) : s'.older usernum rank r i ≤ s.older usernum rank r i := by
    refine countSlots_mono fun j hj => ?_
    rw [Bool.and_eq_true] at hj ⊢
    exact ⟨K.live hj.1, hj.2⟩
  refine ⟨R.below, fun pid P' j i count hP' huser hstage => ?_, fun pid P' j hP' huser hstage => ?_⟩
  · obtain ⟨-, P, hP, huser', hstage'⟩ := K.proc pid P' j hP' (by rw [hstage]; rfl)
    exact (holder ..).trans
      (R.recounting pid P j i count hP (huser'.trans huser) (hstage'.trans hstage))
  · obtain ⟨-, P, hP, huser', hstage'⟩ := K.proc pid P' j hP' (by rw [hstage]; rfl)
    exact (holder ..).trans (R.online pid P j hP (huser'.trans huser) (hstage'.trans hstage))

theorem refl (H : Held site s) : Keeps s s :=
  ⟨H.pid, fun _ P _ hP _ => ⟨rfl, P, hP, rfl, rfl⟩, fun _ => .inl rfl⟩

theorem trans (K : Keeps s s') (K' : Keeps s' s'') : Keeps s s'' := by
  refine ⟨K'.pid, fun pid P'' j hP'' hj => ?_, fun j => ?_⟩
  · obtain ⟨hentry', P', hP', huser', hstage'⟩ := K'.proc pid P'' j hP'' hj
    obtain ⟨hentry, P, hP, huser, hstage⟩ := K.proc pid P' j hP' (hstage' ▸ hj)
    exact ⟨hentry'.trans hentry, P, hP, huser.trans huser', hstage.trans hstage'⟩
  · obtain hpid' | hpid' := K'.uinfo j
    · rw [hpid']
      exact K.uinfo j
    · exact .inr hpid'

/-- A process changes, without an entry or without a change of its stage. -/
theorem update (H : Held site s) {x : Option LoginProc} (hx : ∀ P', x = some P' → 1 < pid ∧
      ∀ j, P'.stage.utmpent = some j →
        ∃ P, s.proc pid = some P ∧ P.usernum = P'.usernum ∧ P.stage = P'.stage) :
    Keeps s { s with proc := Function.update s.proc pid x } := by
  refine ⟨fun q P' hP' => ?_, fun q P' j hP' hj => ?_, fun j => .inl rfl⟩
  all_goals
    simp only [Function.update_apply] at hP'
    split at hP'
  · rename_i hq
    exact hq ▸ (hx P' hP').1
  · exact H.pid q P' hP'
  · rename_i hq
    exact ⟨rfl, hq ▸ (hx P' hP').2 j hj⟩
  · exact ⟨rfl, P', hP', rfl, rfl⟩

theorem goTo (H : Held site s) (hP : s.proc pid = some P) {stage : LoginStage}
    (hstage : stage.utmpent = none) : Keeps s (s.goTo pid P stage) := by
  refine update H fun P' hP' => ?_
  cases hP'
  exact ⟨H.pid pid P hP, fun j hj => by cases hstage.symm.trans hj⟩

theorem gone (H : Held site s) : Keeps s (s.gone pid) := update H nofun

theorem safeKill (H : Held site s) (q : Nat) : Keeps s (s.safeKill q) := by
  unfold Utmp.safeKill
  split
  · rename_i P hP
    split
    · refine update H fun P' hP' => ?_
      cases hP'
      exact ⟨H.pid q P hP, fun j hj => ⟨P, hP, rfl, rfl⟩⟩
    · exact .refl H
  · exact .refl H

theorem abortBbs (H : Held site s) (hP : s.proc pid = some P) (now : Nat) :
    Keeps s (s.abortBbs pid P now) := by
  unfold Utmp.abortBbs
  split
  · rename_i i hi
    obtain ⟨-, -, hipid, -⟩ := H.entry pid P i hP hi
    refine ⟨fun q P' hP' => ?_, fun q P' j hP' hj => ?_, fun j => ?_⟩
    · simp only [Utmp.gone, Utmp.uExit, Function.update_apply] at hP'
      split at hP'
      · cases hP'
      · exact H.pid q P' hP'
    · simp only [Utmp.gone, Utmp.uExit, Function.update_apply] at hP' ⊢
      split at hP'
      · cases hP'
      · rename_i hq
        obtain ⟨-, -, hjpid, -⟩ := H.entry q P' j hP' hj
        have hji : j ≠ i := by
          rintro rfl
          exact hq (hjpid.symm.trans hipid)
        exact ⟨if_neg hji, P', hP', rfl, rfl⟩
    · simp only [Utmp.gone, Utmp.uExit, Function.update_apply]
      split
      · exact .inr rfl
      · exact .inl rfl
  · exact gone H

end Keeps

/-- What a step does: it keeps the entries, counts one, finishes the second count, or takes an
entry. -/
inductive Effect (site : Site) (s : Utmp) (pid : Nat) (P : LoginProc) : Utmp → Prop
  | keeps {t : Utmp} : Keeps s t → Effect site s pid P t
  | counts {k : Nat} : P.stage = .recounting k i count → i < site.ushmSize - 1 →
    Effect site s pid P (s.goTo pid P
      (.recounting k (i + 1) (count + (s.uinfo i).countMulti P.usernum)))
  | online {k : Nat} : P.stage = .recounting k i count → ¬i < site.ushmSize - 1 →
    ¬(count > site.loginLimit P.usernum && !site.guestuser P.usernum) = true →
    Effect site s pid P (s.goTo pid P (.online k))
  | enters {t : Utmp} : P.stage = .checked →
    s.getnewutmpent site now ⟨true, P.usernum, pid, now, 0⟩ = some (i, t) →
    Effect site s pid P (t.goTo pid P
      (if site.hasPerm P.usernum (permMultilog ||| permSysop) then .online i
      else .recounting i 0 0))

theorem Held.effect (H : Held site s) (hP : s.proc pid = some P)
    (h : s.act site pid P a = some s') : Effect site s pid P s' := by
  cases a with
  | check =>
    simp only [act] at h
    split at h
    · rw [← Option.some.inj h]
      refine .keeps (.goTo H hP ?_)
      split <;> rfl
    · cases h
  | count =>
    simp only [act] at h
    split at h
    · split at h
      · exact Option.some.inj h ▸ .keeps (.goTo H hP rfl)
      · cases h
    · split at h
      · exact Option.some.inj h ▸ .counts ‹_› ‹_›
      · cases h
    · cases h
  | counted heavyload =>
    simp only [act] at h
    split at h
    · split at h
      · cases h
      · rw [← Option.some.inj h]
        refine .keeps ?_
        unfold checkLogins
        split
        · split
          · exact .gone H
          · exact .goTo H hP rfl
        · split
          · exact .goTo H hP rfl
          · split
            · exact .goTo H hP rfl
            · exact .goTo H hP rfl
    · cases h
  | answer key =>
    simp only [act] at h
    split at h
    · rw [← Option.some.inj h]
      split
      · exact .keeps (.gone H)
      · exact .keeps (.goTo H hP rfl)
    · cases h
  | search =>
    simp only [act] at h
    split at h
    · rw [← Option.some.inj h]
      refine .keeps ?_
      dsimp only [searchEntry]
      have hchecked : Keeps s (s.goTo pid P .checked) := .goTo H hP rfl
      split
      · exact hchecked
      · split
        · split
          · exact hchecked
          · exact hchecked.trans (.safeKill (hchecked.held H) _)
        · exact .goTo H hP rfl
    · cases h
  | enter now =>
    simp only [act] at h
    split at h
    · split at h
      · exact Option.some.inj h ▸ .enters ‹_› ‹_›
      · exact Option.some.inj h ▸ .keeps (.refl H)
    · cases h
  | recounted now =>
    simp only [act] at h
    split at h
    · split at h
      · cases h
      · rw [← Option.some.inj h]
        split
        · exact .keeps (.abortBbs H hP now)
        · exact .online ‹_› ‹_› ‹_›
    · cases h
  | quit now => exact Option.some.inj h ▸ .keeps (.abortBbs H hP now)
  | hangup now =>
    simp only [act] at h
    split at h
    · exact Option.some.inj h ▸ .keeps (.abortBbs H hP now)
    · cases h
  | die => exact Option.some.inj h ▸ .keeps (.gone H)

theorem sweep_cases (s : Utmp) (now : Nat) (entry : UserInfo) : s.sweep now entry = entry ∨
    (s.sweep now entry).pid = 0 ∧ (entry.pid = 1 ∨ s.alive entry.pid = false) := by
  by_cases hpid : entry.pid = 1
  · rw [sweep, if_pos hpid]
    split
    · exact .inr ⟨rfl, .inl hpid⟩
    · exact .inl rfl
  · rw [sweep, if_neg hpid]
    split
    · rename_i hdead
      rw [Bool.and_eq_true, Bool.not_eq_true'] at hdead
      exact .inr ⟨rfl, .inr hdead.2⟩
    · exact .inl rfl

/-- The entry that `getnewutmpent` takes is not in use; it gives up no entry of a process. -/
theorem getnewutmpent_some {up : UserInfo}
    (h : s.getnewutmpent site now up = some (i, s')) :
    i < site.ushmSize ∧ ((s.uinfo i).active = false ∨ (s.uinfo i).pid = 0) ∧ s'.proc = s.proc ∧
      ∀ j, s'.uinfo j = Function.update s.uinfo i up j ∨
        (s'.uinfo j).pid = 0 ∧ ((Function.update s.uinfo i up j).pid = 1 ∨
          s.alive (Function.update s.uinfo i up j).pid = false) := by
  unfold getnewutmpent at h
  split at h
  · cases h
  · rename_i k hfind
    obtain ⟨rfl, rfl⟩ : k = i ∧ _ := by simpa using h
    have hmem := List.mem_range.mp (List.mem_of_find?_eq_some hfind)
    have hfree := List.find?_some hfind
    simp only [Bool.and_eq_true, Bool.or_eq_true, Bool.not_eq_true', beq_iff_eq] at hfree
    refine ⟨hmem, hfree.1, ?_, fun j => ?_⟩
    · split <;> rfl
    · split
      · exact sweep_cases ..
      · exact .inl rfl

/-- A process has taken the entry `i`. -/
structure Enters (site : Site) (s : Utmp) (pid : Nat) (P : LoginProc) (i : Nat) (s' : Utmp) :
    Prop where
  held : Held site s'
  proc : ∀ q P' j, s'.proc q = some P' → P'.stage.utmpent = some j → q ≠ pid →
    j ≠ i ∧ s.proc q = some P'
  live : ∀ usernum j, s'.live usernum j = true → j ≠ i → s.live usernum j = true

theorem Held.enters (H : Held site s) (hP : s.proc pid = some P) (stage : LoginStage)
    (hstage : stage.utmpent = some i)
    (h : s.getnewutmpent site now ⟨true, P.usernum, pid, now, 0⟩ = some (i, s')) :
    Enters site s pid P i (s'.goTo pid P stage) := by
  obtain ⟨hi, hfree, hproc, huinfo⟩ := getnewutmpent_some h
  have hgoTo : (s'.goTo pid P stage).proc =
      Function.update s.proc pid (some { P with stage }) := by rw [goTo, hproc]
  have hpos : ∀ q P', (s'.goTo pid P stage).proc q = some P' → 1 < q := by
    intro q P' hP'
    rw [hgoTo, Function.update_apply] at hP'
    split at hP'
    · exact ‹q = pid› ▸ H.pid pid P hP
    · exact H.pid q P' hP'
  have hother : ∀ q P' j, (s'.goTo pid P stage).proc q = some P' → P'.stage.utmpent = some j →
      q ≠ pid → j ≠ i ∧ s.proc q = some P' := by
    intro q P' j hP' hj hq
    rw [hgoTo, Function.update_of_ne hq] at hP'
    refine ⟨?_, hP'⟩
    rintro rfl
    obtain ⟨-, hactive, hpid, -⟩ := H.entry q P' j hP' hj
    have hq := H.pid q P' hP'
    rcases hfree with hfree | hfree
    · cases hfree.symm.trans hactive
    · omega
  have hkept : ∀ q P' j, s.proc q = some P' → (Function.update s.uinfo i
      ⟨true, P.usernum, pid, now, 0⟩ j).pid = q →
      s'.uinfo j = Function.update s.uinfo i ⟨true, P.usernum, pid, now, 0⟩ j := by
    intro q P' j hP' hq
    rcases huinfo j with h | ⟨-, h | h⟩
    · exact h
    · have := H.pid q P' hP'
      omega
    · simp [hq, alive, hP'] at h
  refine ⟨⟨hpos, fun q P' j hP' hj => ?_⟩, hother, fun usernum j hlive hji => ?_⟩
  · by_cases hq : q = pid
    · subst hq
      rw [hgoTo, Function.update_self] at hP'
      cases hP'
      obtain rfl : i = j := Option.some.inj (hstage.symm.trans hj)
      have hentry := hkept q P i hP (by rw [Function.update_self])
      rw [Function.update_self] at hentry
      exact ⟨hi, by rw [goTo, hentry], by rw [goTo, hentry], by rw [goTo, hentry]⟩
    · obtain ⟨hji, hP'⟩ := hother q P' j hP' hj hq
      obtain ⟨hjs, hactive, hpid, huid⟩ := H.entry q P' j hP' hj
      have hentry := hkept q P' j hP' (by rw [Function.update_of_ne hji]; exact hpid)
      rw [Function.update_of_ne hji] at hentry
      exact ⟨hjs, by rw [goTo, hentry, hactive], by rw [goTo, hentry, hpid],
        by rw [goTo, hentry, huid]⟩
  · obtain ⟨P', hP', huser, hj⟩ := live_iff.mp hlive
    have hpid : (s'.uinfo j).pid = (s.uinfo j).pid := by
      rcases huinfo j with h | ⟨h, -⟩
      · rw [h, Function.update_of_ne hji]
      · have := hpos _ P' hP'
        have : ((s'.goTo pid P stage).uinfo j).pid = 0 := h
        omega
    refine live_iff.mpr ⟨P', ?_, huser, hj⟩
    rw [← hpid]
    refine (hother _ P' j hP' hj ?_).2
    intro hq
    rw [hq, hgoTo, Function.update_self] at hP'
    cases hP'
    exact hji (Option.some.inj (hj.symm.trans hstage))

/-- A process with an entry takes a step and keeps the entry. -/
theorem Held.goTo (H : Held site s) (hP : s.proc pid = some P) {stage : LoginStage}
    (hstage : stage.utmpent = P.stage.utmpent) : Held site (s.goTo pid P stage) := by
  refine ⟨fun q P' hP' => ?_, fun q P' j hP' hj => ?_⟩
  all_goals
    simp only [Utmp.goTo, Function.update_apply] at hP'
    split at hP'
  · exact ‹q = pid› ▸ H.pid pid P hP
  · exact H.pid q P' hP'
  · cases hP'
    exact ‹q = pid› ▸ H.entry pid P j hP (hstage ▸ hj)
  · exact H.entry q P' j hP' hj

theorem live_goTo (hP : s.proc pid = some P) {stage : LoginStage}
    (hstage : stage.utmpent = P.stage.utmpent) :
    (s.goTo pid P stage).live usernum j = s.live usernum j := by
  by_cases hj : (s.uinfo j).pid = pid
  · simp only [live, goTo, hj, Function.update_self, hP, hstage]
  · simp only [live, goTo, Function.update_of_ne hj]

/-- An entry in use is one more in the count. -/
theorem Held.countMulti (H : Held site s) (h : s.live usernum j = true) :
    (s.uinfo j).countMulti usernum = 1 := by
  obtain ⟨P, hP, huser, hj⟩ := live_iff.mp h
  obtain ⟨-, hactive, -, huid⟩ := H.entry _ P j hP hj
  have hpid := H.pid _ P hP
  have hpid : (s.uinfo j).pid ≠ 0 := by omega
  simp [UserInfo.countMulti, hactive, hpid, huid, huser]

namespace Ranked

theorem counts (R : Ranked site usernum s rank top) (H : Held site s) (hP : s.proc pid = some P)
    (hstage : P.stage = .recounting k i count) :
    Ranked site usernum (s.goTo pid P
      (.recounting k (i + 1) (count + (s.uinfo i).countMulti P.usernum))) rank top := by
  have holder (r n : Nat) : (s.goTo pid P (.recounting k (i + 1)
      (count + (s.uinfo i).countMulti P.usernum))).older usernum rank r n =
      s.older usernum rank r n :=
    countSlots_congr fun j _ => by rw [live_goTo hP (by rw [hstage]; rfl)]
  refine ⟨R.below, fun q P' j i' n hP' huser hj => ?_, fun q P' j hP' huser hj => ?_⟩
  all_goals
    rw [holder]
    simp only [goTo, Function.update_apply] at hP'
    split at hP'
  · cases hP'
    cases hj
    obtain rfl : P.usernum = usernum := huser
    have hcount := R.recounting pid P k i count hP rfl hstage
    rw [older, countSlots_succ]
    cases hlive : s.live P.usernum i with
    | true =>
      have := H.countMulti hlive
      have hle := Bool.toNat_le (true && decide (rank i ≤ rank k))
      rw [older] at hcount
      omega
    | false =>
      rw [Bool.false_and, Bool.toNat_false]
      exact hcount.trans (Nat.le_add_right ..)
  · exact R.recounting q P' j i' n hP' huser hj
  · cases hP'
    cases hj
  · exact R.online q P' j hP' huser hj

theorem online_of_counted (R : Ranked site usernum s rank top) (hguest : site.guestuser usernum = false)
    (hP : s.proc pid = some P) (hstage : P.stage = .recounting k i count)
    (hi : ¬i < site.ushmSize - 1)
    (hcount : ¬(count > site.loginLimit P.usernum && !site.guestuser P.usernum) = true) :
    Ranked site usernum (s.goTo pid P (.online k)) rank top := by
  have holder (r n : Nat) : (s.goTo pid P (.online k)).older usernum rank r n =
      s.older usernum rank r n :=
    countSlots_congr fun j _ => by rw [live_goTo hP (by rw [hstage]; rfl)]
  refine ⟨R.below, fun q P' j i' n hP' huser hj => ?_, fun q P' j hP' huser hj => ?_⟩
  all_goals
    rw [holder]
    simp only [goTo, Function.update_apply] at hP'
    split at hP'
  · cases hP'
    cases hj
  · exact R.recounting q P' j i' n hP' huser hj
  · cases hP'
    cases hj
    have huser : P.usernum = usernum := huser
    rw [huser, hguest] at hcount
    have hle := R.recounting pid P k i count hP huser hstage
    have hmono : s.older usernum rank (rank k) (site.ushmSize - 1) ≤
        s.older usernum rank (rank k) i := countSlots_le (by omega)
    simp only [Bool.not_false, Bool.and_true, decide_eq_true_eq] at hcount
    omega
  · exact R.online q P' j hP' huser hj

theorem enters (R : Ranked site usernum s rank top) (E : Enters site s pid P i s')
    (hpid : ∀ P', s'.proc pid = some P' → P'.usernum = usernum → P'.stage = .recounting i 0 0) :
    Ranked site usernum s' (Function.update rank i top) (top + 1) := by
  have holder (r n : Nat) (hr : r < top) :
      s'.older usernum (Function.update rank i top) r n ≤ s.older usernum rank r n := by
    refine countSlots_mono fun j hj => ?_
    simp only [Bool.and_eq_true, decide_eq_true_eq, Function.update_apply] at hj ⊢
    by_cases hji : j = i
    · rw [if_pos hji] at hj
      omega
    · rw [if_neg hji] at hj
      exact ⟨E.live usernum j hj.1 hji, hj.2⟩
  refine ⟨fun j => ?_, fun q P' j i' n hP' huser hj => ?_, fun q P' j hP' huser hj => ?_⟩
  · rw [Function.update_apply]
    have := R.below j
    split <;> omega
  · by_cases hq : q = pid
    · subst hq
      cases hj.symm.trans (hpid P' hP' huser)
      exact Nat.le_refl 0
    · obtain ⟨hji, hP⟩ := E.proc q P' j hP' (by rw [hj]; rfl) hq
      rw [Function.update_of_ne hji]
      exact (holder _ _ (R.below j)).trans (R.recounting q P' j i' n hP huser hj)
  · by_cases hq : q = pid
    · subst hq
      cases hj.symm.trans (hpid P' hP' huser)
    · obtain ⟨hji, hP⟩ := E.proc q P' j hP' (by rw [hj]; rfl) hq
      rw [Function.update_of_ne hji]
      exact (holder _ _ (R.below j)).trans (R.online q P' j hP huser hj)

end Ranked

/-- The processes have their entries, and these are ranked. -/
structure Ordered (site : Site) (usernum : Nat) (s : Utmp) : Prop where
  held : Held site s
  ranked : ∃ rank top, Ranked site usernum s rank top

theorem Ordered.boot : Ordered site usernum boot :=
  ⟨⟨nofun, nofun⟩, fun _ => 0, 1, fun _ => Nat.one_pos, nofun, nofun⟩

theorem Ordered.step (hmulti : site.hasPerm usernum permMultilog = false)
    (hguest : site.guestuser usernum = false) (O : Ordered site usernum s)
    (h : s.step site e = some s') : Ordered site usernum s' := by
  obtain ⟨H, rank, top, R⟩ := O
  cases e with
  | connect pid u =>
    simp only [Utmp.step] at h
    split at h
    · rename_i hpid
      obtain rfl := Option.some.inj h
      have K : Keeps s _ := .update H (x := some ⟨u, .begun, false⟩) fun P' hP' => by
        cases hP'
        exact ⟨hpid.1, nofun⟩
      exact ⟨K.held H, rank, top, K.ranked R⟩
    · cases h
  | run pid a =>
    simp only [Utmp.step] at h
    split at h
    · rename_i P hP
      cases H.effect hP h with
      | keeps K => exact ⟨K.held H, rank, top, K.ranked R⟩
      | counts hstage hi =>
        exact ⟨H.goTo hP (by rw [hstage]; rfl), rank, top, R.counts H hP hstage⟩
      | online hstage hi hcount =>
        exact ⟨H.goTo hP (by rw [hstage]; rfl), rank, top,
          R.online_of_counted hguest hP hstage hi hcount⟩
      | @enters now i t hstage hnew =>
        have E := H.enters hP (if site.hasPerm P.usernum (permMultilog ||| permSysop) then .online i
          else .recounting i 0 0) (by split <;> rfl) hnew
        refine ⟨E.held, _, _, R.enters E fun P' hP' huser => ?_⟩
        cases (goTo_self ..).symm.trans hP'
        have hmulti : site.hasPerm P.usernum (permMultilog ||| permSysop) = false := by
          rw [show P.usernum = usernum from huser]
          exact hmulti
        exact if_neg (by rw [hmulti]; decide)
    · cases h

/-- The processes that are logged in as the user, with entries that `apply_ulist` visits. -/
def sessions (site : Site) (s : Utmp) (usernum : Nat) : Nat :=
  countSlots (site.ushmSize - 1) (s.online usernum)

/-- The processes that run for the user and have an entry. -/
def active (site : Site) (s : Utmp) (usernum : Nat) : Nat :=
  countSlots site.ushmSize (s.live usernum)

/-- Of the entries of processes logged in as the user, the youngest has the limit behind it. -/
theorem Ordered.sessions_le (O : Ordered site usernum s) :
    s.sessions site usernum ≤ site.loginLimit usernum := by
  obtain ⟨-, rank, top, R⟩ := O
  let online := (Finset.range (site.ushmSize - 1)).filter fun j => s.online usernum j = true
  rcases online.eq_empty_or_nonempty with hempty | hne
  · refine (countSlots_zero fun j hj => ?_).trans_le (Nat.zero_le _)
    have hj' : j ∉ online := hempty ▸ Finset.notMem_empty j
    simpa [online, hj] using hj'
  · obtain ⟨k, hk, hyoungest⟩ := online.exists_max_image rank hne
    obtain ⟨P, hP, huser, hstage⟩ := online_iff.mp (Finset.mem_filter.mp hk).2
    refine Nat.le_trans ?_ (R.online _ P k hP huser hstage)
    rw [sessions, older, countSlots, countSlots]
    refine List.countP_mono_left fun j hj hlogin => ?_
    have hmem : j ∈ online :=
      Finset.mem_filter.mpr ⟨Finset.mem_range.mpr (List.mem_range.mp hj), hlogin⟩
    obtain ⟨P', hP', huser', hstage'⟩ := online_iff.mp hlogin
    rw [Bool.and_eq_true, decide_eq_true_eq]
    exact ⟨live_iff.mpr ⟨P', hP', huser', by rw [hstage']; rfl⟩, hyoungest j hmem⟩

/-- However the logins of an account run side by side, those that have come through the second count
are never more than the limit. -/
theorem multi_logins (hmulti : site.hasPerm usernum permMultilog = false)
    (hguest : site.guestuser usernum = false) (h : Reached site s) :
    s.sessions site usernum ≤ site.loginLimit usernum :=
  (h.invariant (Ordered site usernum) .boot
    fun _ _ _ O _ hs => O.step hmulti hguest hs).sessions_le

/-- A small site where nobody has a permission. -/
def demoSite : Site := ⟨4, fun _ => 0, fun _ => false⟩

/-- A login up to the end of `multi_user_check`. -/
def demoCheck (pid : Nat) : List LoginEvent :=
  [.connect pid 1, .run pid .check] ++ List.replicate 13 (.run pid .count) ++
    [.run pid (.counted false)]

/-- The rest of it. -/
def demoEnter (pid : Nat) : List LoginEvent :=
  [.run pid (.enter 100)] ++ List.replicate 13 (.run pid .count) ++ [.run pid (.recounted 100)]

def demoTwice : List LoginEvent := demoCheck 2 ++ demoEnter 2 ++ demoCheck 3 ++ demoEnter 3

theorem multi_logins_two : ∃ s, Reached demoSite s ∧ s.sessions demoSite 1 = 2 ∧
    s.sessions demoSite 1 ≤ demoSite.loginLimit 1 := by
  have hrun : Reach.Meets (step demoSite) (fun _ _ => True) boot demoTwice := by decide +kernel
  obtain ⟨s, hs, h⟩ := Reach.of_meets _ hrun
  have htwo : (demoTwice.foldlM (step demoSite) boot).map (sessions demoSite · 1) = some 2 := by
    decide +kernel
  rw [hs] at htwo
  exact ⟨s, h, Option.some.inj htwo, multi_logins (by decide) rfl h⟩

def demoRace : List LoginEvent := demoCheck 2 ++ demoCheck 3 ++ demoCheck 4 ++
  [.run 2 (.enter 100), .run 3 (.enter 100), .run 4 (.enter 100)]

/-- Three logins count one after the other and then take their entries: for a while all three are in
the table. -/
theorem multi_logins_race : ¬∀ (site : Site) (usernum : Nat) (s : Utmp),
    site.hasPerm usernum permMultilog = false → site.guestuser usernum = false → Reached site s →
    s.active site usernum ≤ site.loginLimit usernum := by
  intro hclaim
  have hrun : Reach.Meets (step demoSite) (fun _ _ => True) boot demoRace := by decide +kernel
  obtain ⟨s, hs, h⟩ := Reach.of_meets _ hrun
  have hthree : (demoRace.foldlM (step demoSite) boot).map (active demoSite · 1) = some 3 := by
    decide +kernel
  rw [hs] at hthree
  have hthree : s.active demoSite 1 = 3 := Option.some.inj hthree
  have hle := hclaim demoSite 1 s (by decide) rfl h
  rw [hthree] at hle
  exact absurd hle (by decide)

end Utmp

end ArgoBbs

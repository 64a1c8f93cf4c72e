import ArgoBbs.User.MultiLogin

/-! # The slots of the online table

A session takes a slot of the table in shared memory under the lock of `ULIST` (`getnewutmpent` of
`ucache.c`) and remembers its number in `utmpent`; with that alone it copies its `user_info` over
the slot, without the lock (`update_utmp`), until `u_exit` of `main.c` gives the slot up. Under the
lock a login also gives up the slots of processes that are dead and of those without a process,
which have the process number 1. A slot that has been given up waits for a minute. -/

namespace ArgoBbs

/-- `getnewutmpent` takes the entry. -/
def UserInfo.free (entry : UserInfo) (now : Nat) : Bool :=
  (!entry.active || entry.pid == 0) && entry.deactiveTime + 60 < now

/-- Where a session is: not started; in `u_enter` before the lock; in `getnewutmpent` at a slot,
with a free one, and in the pass over the table at a slot and before it gives one up; with its slot;
in `u_exit` before the lock and before `update_utmp`; behind it; ended. `utmpent` counts from 0. -/
inductive SlotPc
  | fresh
  | entering
  | scanning (now i : Nat)
  | found (now i : Nat)
  | reaping (now utmpent n : Nat)
  | marking (now utmpent n : Nat)
  | online (utmpent : Nat)
  | leaving (utmpent : Nat)
  | parting (utmpent : Nat)
  | offline
  | gone

namespace SlotPc

/-- The slot that the session has. -/
def slot? : SlotPc → Option Nat
  | .reaping _ utmpent _ | .marking _ utmpent _ | .online utmpent | .leaving utmpent
  | .parting utmpent => some utmpent
  | .fresh | .entering | .scanning .. | .found .. | .offline | .gone => none

/-- The session is in `getnewutmpent` behind the lock. -/
def locked : SlotPc → Bool
  | .scanning .. | .found .. | .reaping .. | .marking .. => true
  | _ => false

/-- The slot that a session in `getnewutmpent` is about to write to. -/
def spare? : SlotPc → Option Nat
  | .found _ n | .marking _ _ n => some n
  | _ => none

theorem locked_of_spare {pc : SlotPc} {n : Nat} (h : pc.spare? = some n) : pc.locked = true := by
  cases pc with
  | found | marking => rfl
  | _ => cases h

/-- The session's `user_info` is that of an active user. -/
def entered : SlotPc → Bool
  | .entering | .scanning .. | .found .. | .reaping .. | .marking .. | .online _ => true
  | _ => false

end SlotPc

/-- A slot that has been given up and is given to another session: the time that was noted in it,
the time when it was given up, and now. -/
structure Reuse where
  noted : Nat
  freed : Nat
  time : Nat
  deriving DecidableEq

/-- The table and the sessions; `pids` are the processes of sessions. Of every slot `freed` says
when it was given up, if no session has got it since, with the time noted in it, and `given` which
session has got it last. -/
structure OnlineTable (ι : Type) where
  slots : Nat → UserInfo
  uptime : Nat
  clock : Nat
  lock : Option ι
  procs : ι → SlotPc
  uinfo : ι → UserInfo
  pids : Nat → Option ι
  freed : Nat → Option (Nat × Nat)
  given : Nat → Option ι
  reuses : List Reuse

/-- What happens next; `other` says that `kill` finds a process that is no session. -/
inductive SlotEvent (ι : Type)
  | tick (seconds : Nat)
  | start (i : ι) (uid pid : Nat)
  | lock (i : ι)
  | openFails (i : ι)
  | scan (i : ι)
  | enter (i : ι)
  | reap (i : ι) (other : Bool)
  | mark (i : ι)
  | touch (i : ι)
  | update (i : ι)
  | leave (i : ι)
  | exit (i : ι)
  | die (i : ι)

namespace OnlineTable
variable {ι : Type}

def start (slots : Nat → UserInfo) (uptime clock : Nat) : OnlineTable ι :=
  ⟨slots, uptime, clock, none, fun _ => .fresh, fun _ => ⟨false, 0, 0, 0, 0⟩, fun _ => none,
    fun _ => none, fun _ => none, []⟩

/-- The process of the entry is dead, or it has none and has been idle for 15 minutes. -/
def reaps (s : OnlineTable ι) (now : Nat) (other : Bool) (entry : UserInfo) : Bool :=
  entry.active &&
    if entry.pid = 1 then now > entry.idleTime + 15 * 60
    else entry.pid != 0 && (s.pids entry.pid).isNone && !other

section
variable [DecidableEq ι]

def goTo (s : OnlineTable ι) (i : ι) (pc : SlotPc) : OnlineTable ι :=
  { s with procs := Function.update s.procs i pc }

def unlock (s : OnlineTable ι) (i : ι) : OnlineTable ι :=
  { s with lock := if s.lock = some i then none else s.lock }

/-- `update_utmp` -/
def updateUtmp (s : OnlineTable ι) (i : ι) (utmpent : Nat) : OnlineTable ι :=
  { s with slots := Function.update s.slots utmpent (s.uinfo i) }

/-- The slot is given to the session. -/
def give (s : OnlineTable ι) (i : ι) (n : Nat) : OnlineTable ι :=
  { s.updateUtmp i n with
    freed := Function.update s.freed n none
    given := Function.update s.given n (some i)
    reuses := match s.freed n with
      | some (noted, freed) => s.reuses ++ [⟨noted, freed, s.clock⟩]
      | none => s.reuses }

/-- The slot is given up with what is noted in it. -/
def giveUp (s : OnlineTable ι) (n : Nat) (entry : UserInfo) : OnlineTable ι :=
  { s with
    slots := Function.update s.slots n entry
    freed := Function.update s.freed n (some (entry.deactiveTime, s.clock)) }

def step (site : Site) (s : OnlineTable ι) : SlotEvent ι → Option (OnlineTable ι)
  | .tick seconds => some { s with clock := s.clock + seconds }
  | .start i uid pid =>
    match s.procs i with
    | .fresh =>
      if 1 < pid ∧ (s.pids pid).isNone then
        some { s.goTo i .entering with
          uinfo := Function.update s.uinfo i ⟨true, uid, pid, s.clock, 0⟩
          pids := Function.update s.pids pid (some i) }
      else none
    | _ => none
  | .lock i =>
    if s.lock.isSome then none
    else
      match s.procs i with
      | .entering => some { s.goTo i (.scanning s.clock 0) with lock := some i }
      | .leaving utmpent => some { s.goTo i (.parting utmpent) with lock := some i }
      | _ => none
  | .openFails i =>
    match s.procs i with
    | .entering => some (s.goTo i .offline)
    | .leaving utmpent => some (s.goTo i (.parting utmpent))
    | _ => none
  | .scan i =>
    match s.procs i with
    | .scanning now n =>
      -- all slots are taken: `u_enter` tries again
      if site.ushmSize ≤ n then some ((s.goTo i .entering).unlock i)
      else if (s.slots n).free now then some (s.goTo i (.found now n))
      else some (s.goTo i (.scanning now (n + 1)))
    | _ => none
  | .enter i =>
    match s.procs i with
    | .found now n =>
      let s := s.give i n
      some (if now > s.uptime + 60 then { s.goTo i (.reaping now n 0) with uptime := now }
        else (s.goTo i (.online n)).unlock i)
    | _ => none
  | .reap i other =>
    match s.procs i with
    | .reaping now utmpent n =>
      if site.ushmSize ≤ n then some ((s.goTo i (.online utmpent)).unlock i)
      else if s.reaps now other (s.slots n) then some (s.goTo i (.marking now utmpent n))
      else some (s.goTo i (.reaping now utmpent (n + 1)))
    | _ => none
  | .mark i =>
    match s.procs i with
    | .marking now utmpent n =>
      let entry := { s.slots n with active := false, deactiveTime := now, pid := 0 }
      some ((s.giveUp n entry).goTo i (.reaping now utmpent (n + 1)))
    | _ => none
  | .touch i =>
    match s.procs i with
    | .online _ => some { s with
        uinfo := Function.update s.uinfo i { s.uinfo i with idleTime := s.clock } }
    | _ => none
  | .update i =>
    match s.procs i with
    | .online utmpent => some (s.updateUtmp i utmpent)
    | _ => none
  | .leave i =>
    match s.procs i with
    | .online utmpent => some { s.goTo i (.leaving utmpent) with
        uinfo := Function.update s.uinfo i
          { s.uinfo i with active := false, pid := 0, deactiveTime := s.clock } }
    | _ => none
  | .exit i =>
    match s.procs i with
    | .parting utmpent => some (((s.giveUp utmpent (s.uinfo i)).goTo i .offline).unlock i)
    | _ => none
  | .die i =>
    match s.procs i with
    | .fresh | .gone => none
    | _ => some { (s.goTo i .gone).unlock i with
        pids := fun pid => if s.pids pid = some i then none else s.pids pid }

end

/-- No two sessions have one slot, every session has the slot that it was the last one to get, and
the slots that were given to a session after another one had been given up more than 60 seconds
after the time noted in them. -/
structure SlotsSafe (s : OnlineTable ι) : Prop where
  owner : ∀ i j n, (s.procs i).slot? = some n → (s.procs j).slot? = some n → i = j
  given : ∀ i n, (s.procs i).slot? = some n → s.given n = some i
  reuses : ∀ r ∈ s.reuses, r.noted + 60 < r.time

section
variable {s s' : OnlineTable ι} {i : ι} {pc : SlotPc} {n now : Nat}

/-- A session that has a slot has its process in it and is the last one that got it; nobody has a
slot that a session is about to write to under the lock. -/
structure SlotInv (s : OnlineTable ι) : Prop where
  slot : ∀ i n, (s.procs i).slot? = some n → (s.slots n).active = true ∧
    s.pids (s.slots n).pid = some i ∧ s.freed n = none ∧ s.given n = some i
  uinfo : ∀ i, (s.procs i).entered = true →
    (s.uinfo i).active = true ∧ s.pids (s.uinfo i).pid = some i
  lock : ∀ i, (s.procs i).locked = true → s.lock = some i
  spare : ∀ i n, (s.procs i).spare? = some n → ∀ j, (s.procs j).slot? ≠ some n
  began : ∀ i now n, s.procs i = .scanning now n → now ≤ s.clock
  due : ∀ i now n, s.procs i = .found now n →
    (s.slots n).deactiveTime + 60 < now ∧ now ≤ s.clock
  freed : ∀ n p, s.freed n = some p → (s.slots n).deactiveTime = p.1
  reuses : ∀ r ∈ s.reuses, r.noted + 60 < r.time
  system : s.pids 0 = none ∧ s.pids 1 = none

/-- A slot belongs to one session. -/
theorem SlotInv.owner (I : SlotInv s) {j : ι} (hi : (s.procs i).slot? = some n)
    (hj : (s.procs j).slot? = some n) : i = j := by
  have hgiven := (I.slot i n hi).2.2.2
  rw [(I.slot j n hj).2.2.2] at hgiven
  exact (Option.some.inj hgiven).symm

theorem SlotInv.safe (I : SlotInv s) : SlotsSafe s where
  owner _ _ _ := I.owner
  given i n hi := (I.slot i n hi).2.2.2
  reuses := I.reuses

/-- A free slot belongs to nobody. -/
theorem SlotInv.not_free (I : SlotInv s) (hi : (s.procs i).slot? = some n) :
    (s.slots n).free now = false := by
  obtain ⟨hactive, hpid, -⟩ := I.slot i n hi
  have hpos : (s.slots n).pid ≠ 0 := by
    intro hzero
    rw [hzero, I.system.1] at hpid
    cases hpid
  simp [UserInfo.free, hactive, hpos]

/-- The slot of a session is not given up by others. -/
theorem SlotInv.not_reaps (I : SlotInv s) (hi : (s.procs i).slot? = some n) (other : Bool) :
    s.reaps now other (s.slots n) = false := by
  obtain ⟨hactive, hpid, -⟩ := I.slot i n hi
  have hone : (s.slots n).pid ≠ 1 := by
    intro hone
    rw [hone, I.system.2] at hpid
    cases hpid
  simp [reaps, hone, hpid]

theorem slotInv_start (slots : Nat → UserInfo) (uptime clock : Nat) :
    SlotInv (start slots uptime clock : OnlineTable ι) where
  slot := nofun
  uinfo := nofun
  lock := nofun
  spare := nofun
  began := nofun
  due := nofun
  freed := nofun
  reuses := nofun
  system := ⟨rfl, rfl⟩

/-- A slot that nobody has and no session has found is given up. -/
theorem SlotInv.giveUp (I : SlotInv s) (hnone : ∀ j, (s.procs j).slot? ≠ some n)
    (hfound : ∀ j now, s.procs j ≠ .found now n) (entry : UserInfo) :
    SlotInv (s.giveUp n entry) := by
  have hne : ∀ j m, (s.procs j).slot? = some m → m ≠ n := by
    rintro j m hj rfl
    exact hnone j hj
  constructor
  case slot =>
    intro j m hj
    obtain ⟨hactive, hpid, hfreed, hgiven⟩ := I.slot j m hj
    have hsame : (s.giveUp n entry).slots m = s.slots m := Function.update_of_ne (hne j m hj) ..
    rw [hsame]
    exact ⟨hactive, hpid, (Function.update_of_ne (hne j m hj) ..).trans hfreed, hgiven⟩
  case uinfo => exact I.uinfo
  case lock => exact I.lock
  case spare => exact I.spare
  case began => exact I.began
  case due =>
    intro j now m hj
    have hsame : (s.giveUp n entry).slots m = s.slots m := by
      refine Function.update_of_ne ?_ ..
      rintro rfl
      exact hfound j now hj
    rw [hsame]
    exact I.due j now m hj
  case freed =>
    intro m p hp
    rcases eq_or_ne m n with rfl | hmn
    · have hnew : some (entry.deactiveTime, s.clock) = some p :=
        (Function.update_self m _ s.freed).symm.trans hp
      rw [← Option.some.inj hnew]
      exact congrArg UserInfo.deactiveTime (Function.update_self ..)
    · have hsame : (s.giveUp n entry).slots m = s.slots m := Function.update_of_ne hmn ..
      rw [hsame]
      exact I.freed m p ((Function.update_of_ne hmn ..).symm.trans hp)
  case reuses => exact I.reuses
  case system => exact I.system

/-- A session copies its `user_info` over its slot. -/
theorem SlotInv.update (I : SlotInv s) (hi : (s.procs i).slot? = some n)
    (hentered : (s.procs i).entered = true) : SlotInv (s.updateUtmp i n) := by
  obtain ⟨hactive, hpid⟩ := I.uinfo i hentered
  obtain ⟨-, -, hfreed, hgiven⟩ := I.slot i n hi
  constructor
  case slot =>
    intro j m hj
    rcases eq_or_ne m n with rfl | hmn
    · have hsame : (s.updateUtmp i m).slots m = s.uinfo i := Function.update_self ..
      rw [hsame, ← I.owner hi hj]
      exact ⟨hactive, hpid, hfreed, hgiven⟩
    · have hsame : (s.updateUtmp i n).slots m = s.slots m := Function.update_of_ne hmn ..
      rw [hsame]
      exact I.slot j m hj
  case uinfo => exact I.uinfo
  case lock => exact I.lock
  case spare => exact I.spare
  case began => exact I.began
  case due =>
    intro j now m hj
    have hsame : (s.updateUtmp i n).slots m = s.slots m := by
      refine Function.update_of_ne ?_ ..
      rintro rfl
      exact I.spare j m (congrArg SlotPc.spare? hj) i hi
    rw [hsame]
    exact I.due j now m hj
  case freed =>
    intro m p hp
    have hsame : (s.updateUtmp i n).slots m = s.slots m := by
      refine Function.update_of_ne ?_ ..
      rintro rfl
      exact nomatch hfreed.symm.trans hp
    rw [hsame]
    exact I.freed m p hp
  case reuses => exact I.reuses
  case system => exact I.system

/-- Processes of sessions begin or end, but not those of sessions that have or look for a slot. -/
theorem SlotInv.setPids (I : SlotInv s) {pids : Nat → Option ι}
    (hkept : ∀ j, (s.procs j).slot? ≠ none ∨ (s.procs j).entered = true →
      ∀ pid, s.pids pid = some j → pids pid = some j)
    (hsystem : pids 0 = none ∧ pids 1 = none) : SlotInv { s with pids } := by
  constructor
  case slot =>
    intro j m hj
    obtain ⟨hactive, hpid, hrest⟩ := I.slot j m hj
    exact ⟨hactive, hkept j (.inl fun hnone => nomatch hnone.symm.trans hj) _ hpid, hrest⟩
  case uinfo =>
    intro j hj
    obtain ⟨hactive, hpid⟩ := I.uinfo j hj
    exact ⟨hactive, hkept j (.inr hj) _ hpid⟩
  case lock => exact I.lock
  case spare => exact I.spare
  case began => exact I.began
  case due => exact I.due
  case freed => exact I.freed
  case reuses => exact I.reuses
  case system => exact hsystem

variable [DecidableEq ι]

theorem procs_goTo_self : (s.goTo i pc).procs i = pc := Function.update_self ..

theorem procs_goTo_ne {j : ι} (h : j ≠ i) : (s.goTo i pc).procs j = s.procs j :=
  Function.update_of_ne h ..

/-- A session goes to another place and takes or leaves the lock. -/
theorem SlotInv.move (I : SlotInv s) {lock : Option ι}
    (hslot : ∀ n, pc.slot? = some n → (s.procs i).slot? = some n)
    (hentered : pc.entered = true → (s.uinfo i).active = true ∧ s.pids (s.uinfo i).pid = some i)
    (hlocked : pc.locked = true → lock = some i)
    (hothers : ∀ j, j ≠ i → s.lock = some j → lock = some j)
    (hspare : ∀ n, pc.spare? = some n → ∀ j, (s.procs j).slot? ≠ some n)
    (hbegan : ∀ now n, pc = .scanning now n → now ≤ s.clock)
    (hdue : ∀ now n, pc = .found now n →
      (s.slots n).deactiveTime + 60 < now ∧ now ≤ s.clock) :
    SlotInv { s.goTo i pc with lock } := by
  have hfrom : ∀ j n, ((s.goTo i pc).procs j).slot? = some n → (s.procs j).slot? = some n := by
    intro j n hj
    rcases eq_or_ne j i with rfl | hne
    · rw [procs_goTo_self] at hj
      exact hslot n hj
    · rwa [procs_goTo_ne hne] at hj
  constructor
  case slot => exact fun j n hj => I.slot j n (hfrom j n hj)
  case uinfo =>
    intro j hj
    rcases eq_or_ne j i with rfl | hne
    · exact hentered ((congrArg SlotPc.entered procs_goTo_self).symm.trans hj)
    · exact I.uinfo j ((congrArg SlotPc.entered (procs_goTo_ne hne)).symm.trans hj)
  case lock =>
    intro j hj
    rcases eq_or_ne j i with rfl | hne
    · exact hlocked ((congrArg SlotPc.locked procs_goTo_self).symm.trans hj)
    · exact hothers j hne (I.lock j ((congrArg SlotPc.locked (procs_goTo_ne hne)).symm.trans hj))
  case spare =>
    intro j n hj k hk
    rcases eq_or_ne j i with rfl | hne
    · exact hspare n ((congrArg SlotPc.spare? procs_goTo_self).symm.trans hj) k (hfrom k n hk)
    · exact I.spare j n ((congrArg SlotPc.spare? (procs_goTo_ne hne)).symm.trans hj) k (hfrom k n hk)
  case began =>
    intro j now n hj
    rcases eq_or_ne j i with rfl | hne
    · exact hbegan now n (procs_goTo_self.symm.trans hj)
    · exact I.began j now n ((procs_goTo_ne hne).symm.trans hj)
  case due =>
    intro j now n hj
    rcases eq_or_ne j i with rfl | hne
    · exact hdue now n (procs_goTo_self.symm.trans hj)
    · exact I.due j now n ((procs_goTo_ne hne).symm.trans hj)
  case freed => exact I.freed
  case reuses => exact I.reuses
  case system => exact I.system

/-- The session under the lock gets the slot that it has found. -/
theorem SlotInv.give (I : SlotInv s) (hi : s.procs i = .found now n) {lock : Option ι}
    {uptime : Nat} (hslot : pc.slot? = some n) (hspare : pc.spare? = none)
    (hlocked : pc.locked = true → lock = some i)
    (hpc : ∀ now n, pc ≠ .scanning now n ∧ pc ≠ .found now n) :
    SlotInv { (s.give i n).goTo i pc with lock, uptime } := by
  have hholder := I.lock i (congrArg SlotPc.locked hi)
  obtain ⟨hactive, hpid⟩ := I.uinfo i (congrArg SlotPc.entered hi)
  obtain ⟨hdue, hnow⟩ := I.due i now n hi
  have hfree := I.spare i n (congrArg SlotPc.spare? hi)
  have hself : ((s.give i n).goTo i pc).procs i = pc := procs_goTo_self
  have hother : ∀ j, j ≠ i → ((s.give i n).goTo i pc).procs j = s.procs j := fun j => procs_goTo_ne
  have hsole : ∀ j, j ≠ i → (s.procs j).locked = false := by
    intro j hne
    rw [← Bool.not_eq_true]
    intro hj
    exact hne (Option.some.inj ((I.lock j hj).symm.trans hholder))
  constructor
  case slot =>
    intro j m hj
    rcases eq_or_ne j i with rfl | hne
    · have hm : n = m := by
        have hj := (congrArg SlotPc.slot? hself).symm.trans hj
        rw [hslot] at hj
        exact Option.some.inj hj
      subst hm
      have hnew : (s.give j n).slots n = s.uinfo j := Function.update_self ..
      show ((s.give j n).slots n).active = true ∧ s.pids ((s.give j n).slots n).pid = some j ∧ _
      rw [hnew]
      exact ⟨hactive, hpid, Function.update_self .., Function.update_self ..⟩
    · have hold : (s.procs j).slot? = some m :=
        (congrArg SlotPc.slot? (hother j hne)).symm.trans hj
      have hmn : m ≠ n := by
        rintro rfl
        exact hfree j hold
      obtain ⟨hactive, hpid, hfreed, hgiven⟩ := I.slot j m hold
      have hsame : (s.give i n).slots m = s.slots m := Function.update_of_ne hmn ..
      show ((s.give i n).slots m).active = true ∧ s.pids ((s.give i n).slots m).pid = some j ∧ _
      rw [hsame]
      exact ⟨hactive, hpid, (Function.update_of_ne hmn ..).trans hfreed,
        (Function.update_of_ne hmn ..).trans hgiven⟩
  case uinfo =>
    intro j hj
    rcases eq_or_ne j i with rfl | hne
    · exact ⟨hactive, hpid⟩
    · exact I.uinfo j ((congrArg SlotPc.entered (hother j hne)).symm.trans hj)
  case lock =>
    intro j hj
    rcases eq_or_ne j i with rfl | hne
    · exact hlocked ((congrArg SlotPc.locked hself).symm.trans hj)
    · have hj := (congrArg SlotPc.locked (hother j hne)).symm.trans hj
      exact absurd hj (Bool.eq_false_iff.mp (hsole j hne))
  case spare =>
    intro j m hj
    rcases eq_or_ne j i with rfl | hne
    · exact nomatch hspare.symm.trans ((congrArg SlotPc.spare? hself).symm.trans hj)
    · have hj := (congrArg SlotPc.spare? (hother j hne)).symm.trans hj
      exact absurd (SlotPc.locked_of_spare hj) (Bool.eq_false_iff.mp (hsole j hne))
  case began =>
    intro j t m hj
    rcases eq_or_ne j i with rfl | hne
    · exact absurd (hself.symm.trans hj) (hpc t m).1
    · exact I.began j t m ((hother j hne).symm.trans hj)
  case due =>
    intro j t m hj
    rcases eq_or_ne j i with rfl | hne
    · exact absurd (hself.symm.trans hj) (hpc t m).2
    · have hj := congrArg SlotPc.locked ((hother j hne).symm.trans hj)
      exact absurd hj (Bool.eq_false_iff.mp (hsole j hne))
  case freed =>
    intro m p hp
    rcases eq_or_ne m n with rfl | hmn
    · have hp : (s.give i m).freed m = some p := hp
      rw [show (s.give i m).freed m = none from Function.update_self ..] at hp
      cases hp
    · have hsame : (s.give i n).slots m = s.slots m := Function.update_of_ne hmn ..
      show ((s.give i n).slots m).deactiveTime = p.1
      rw [hsame]
      exact I.freed m p ((Function.update_of_ne hmn ..).symm.trans hp)
  case reuses =>
    show ∀ r ∈ (s.give i n).reuses, r.noted + 60 < r.time
    unfold OnlineTable.give
    dsimp only
    cases hfreed : s.freed n with
    | none => exact I.reuses
    | some p =>
      refine List.forall_mem_append.mpr ⟨I.reuses, List.forall_mem_singleton.mpr ?_⟩
      have hnoted := I.freed n p hfreed
      show p.1 + 60 < s.clock
      omega
  case system => exact I.system

/-- A session changes its `user_info`. -/
theorem SlotInv.setUinfo (I : SlotInv s) (i : ι) (info : UserInfo)
    (h : (s.procs i).entered = true → info.active = true ∧ s.pids info.pid = some i) :
    SlotInv { s with uinfo := Function.update s.uinfo i info } := by
  constructor
  case uinfo =>
    intro j hj
    dsimp only
    rcases eq_or_ne j i with rfl | hne
    · rw [Function.update_self]
      exact h hj
    · rw [Function.update_of_ne hne]
      exact I.uinfo j hj
  case slot => exact I.slot
  case lock => exact I.lock
  case spare => exact I.spare
  case began => exact I.began
  case due => exact I.due
  case freed => exact I.freed
  case reuses => exact I.reuses
  case system => exact I.system

/-- A session goes to a place where it has no slot to write to under the lock, and keeps the lock as
it is. -/
theorem SlotInv.goTo (I : SlotInv s)
    (hslot : ∀ n, pc.slot? = some n → (s.procs i).slot? = some n)
    (hentered : pc.entered = true → (s.uinfo i).active = true ∧ s.pids (s.uinfo i).pid = some i)
    (hlocked : pc.locked = false) : SlotInv (s.goTo i pc) := by
  refine I.move hslot hentered (fun h => ?_) (fun _ _ h => h) (fun n h => ?_) (fun t n h => ?_)
    fun t n h => ?_
  · exact nomatch hlocked.symm.trans h
  · exact nomatch hlocked.symm.trans (SlotPc.locked_of_spare h)
  · exact nomatch hlocked.symm.trans (congrArg SlotPc.locked h)
  · exact nomatch hlocked.symm.trans (congrArg SlotPc.locked h)

theorem SlotInv.unlock (I : SlotInv s) (hlocked : (s.procs i).locked = false) :
    SlotInv (s.unlock i) := by
  constructor
  case lock =>
    intro j hj
    have hlock := I.lock j hj
    show (if s.lock = some i then none else s.lock) = some j
    rw [hlock, if_neg]
    intro hsame
    cases hsame
    exact nomatch hlocked.symm.trans hj
  case slot => exact I.slot
  case uinfo => exact I.uinfo
  case spare => exact I.spare
  case began => exact I.began
  case due => exact I.due
  case freed => exact I.freed
  case reuses => exact I.reuses
  case system => exact I.system

/-- A session takes the free lock. -/
theorem SlotInv.takeLock (I : SlotInv s) (hlock : s.lock = none)
    (hslot : ∀ n, pc.slot? = some n → (s.procs i).slot? = some n)
    (hentered : pc.entered = true → (s.uinfo i).active = true ∧ s.pids (s.uinfo i).pid = some i)
    (hspare : pc.spare? = none)
    (hbegan : ∀ now n, pc = .scanning now n → now ≤ s.clock) :
    SlotInv { s.goTo i pc with lock := some i } := by
  refine I.move hslot hentered (fun _ => rfl) (fun j _ hj => ?_) (fun n h => ?_) hbegan
    fun t n h => ?_
  · exact nomatch hlock.symm.trans hj
  · exact nomatch hspare.symm.trans h
  · exact nomatch hspare.symm.trans (congrArg SlotPc.spare? h)

theorem SlotInv.start (I : SlotInv s) {uid pid : Nat} (hpid : 1 < pid)
    (hnew : s.pids pid = none) : SlotInv { s.goTo i .entering with
      uinfo := Function.update s.uinfo i ⟨true, uid, pid, s.clock, 0⟩
      pids := Function.update s.pids pid (some i) } := by
  have hpids : SlotInv { s with pids := Function.update s.pids pid (some i) } := by
    refine I.setPids (fun j _ p hp => ?_) ⟨?_, ?_⟩
    · rw [Function.update_of_ne]
      · exact hp
      · rintro rfl
        exact nomatch hnew.symm.trans hp
    · exact (Function.update_of_ne (by omega) ..).trans I.system.1
    · exact (Function.update_of_ne (by omega) ..).trans I.system.2
  have huinfo := hpids.setUinfo i ⟨true, uid, pid, s.clock, 0⟩ fun _ =>
    ⟨rfl, Function.update_self ..⟩
  refine huinfo.goTo nofun (fun _ => ?_) rfl
  dsimp only
  rw [Function.update_self]
  exact ⟨rfl, Function.update_self ..⟩

/-- The process of a session ends. -/
theorem SlotInv.die (I : SlotInv s) : SlotInv { (s.goTo i .gone).unlock i with
    pids := fun pid => if s.pids pid = some i then none else s.pids pid } := by
  have hgone : (s.goTo i .gone).procs i = .gone := procs_goTo_self
  have Igone : SlotInv (s.goTo i .gone) := I.goTo nofun nofun rfl
  have I' := Igone.unlock (congrArg SlotPc.locked hgone)
  refine I'.setPids (fun j hj pid hpid => ?_) ⟨?_, ?_⟩
  · have hne : j ≠ i := by
      rintro rfl
      rcases hj with hj | hj
      · exact hj (congrArg SlotPc.slot? hgone)
      · exact nomatch (congrArg SlotPc.entered hgone).symm.trans hj
    have hpid : s.pids pid = some j := hpid
    rw [if_neg, hpid]
    intro hsame
    exact hne (Option.some.inj (hpid.symm.trans hsame))
  · show (if s.pids 0 = some i then none else s.pids 0) = none
    rw [I.system.1, if_neg (Option.some_ne_none i).symm]
  · show (if s.pids 1 = some i then none else s.pids 1) = none
    rw [I.system.2, if_neg (Option.some_ne_none i).symm]

theorem SlotInv.step {site : Site} {e : SlotEvent ι} (I : SlotInv s)
    (hstep : s.step site e = some s') : SlotInv s' := by
  cases e with
  | tick seconds =>
    cases hstep
    refine ⟨I.slot, I.uinfo, I.lock, I.spare, fun j t n h => ?_, fun j t n h => ?_, I.freed,
      I.reuses, I.system⟩
    · exact (I.began j t n h).trans (Nat.le_add_right ..)
    · exact ⟨(I.due j t n h).1, (I.due j t n h).2.trans (Nat.le_add_right ..)⟩
  | start i uid pid =>
    rw [OnlineTable.step] at hstep
    split at hstep
    case h_2 => cases hstep
    case h_1 hpc =>
      split at hstep
      case isFalse => cases hstep
      case isTrue hpid =>
        cases hstep
        exact I.start hpid.1 (Option.isNone_iff_eq_none.mp hpid.2)
  | lock i =>
    rw [OnlineTable.step] at hstep
    split at hstep
    case isTrue => cases hstep
    case isFalse hfree =>
      have hlock := Option.not_isSome_iff_eq_none.mp hfree
      split at hstep
      case h_1 hpc =>
        cases hstep
        refine I.takeLock hlock nofun (fun _ => I.uinfo i (congrArg SlotPc.entered hpc)) rfl
          fun t n h => ?_
        cases h
        exact Nat.le_refl _
      case h_2 utmpent hpc =>
        cases hstep
        exact I.takeLock hlock (fun n h => by rwa [hpc]) nofun rfl nofun
      case h_3 => cases hstep
  | openFails i =>
    rw [OnlineTable.step] at hstep
    split at hstep
    case h_1 hpc =>
      cases hstep
      exact I.goTo nofun nofun rfl
    case h_2 utmpent hpc =>
      cases hstep
      exact I.goTo (fun n h => by rwa [hpc]) nofun rfl
    case h_3 => cases hstep
  | scan i =>
    rw [OnlineTable.step] at hstep
    split at hstep
    case h_2 => cases hstep
    case h_1 now n hpc =>
      have hentered := I.uinfo i (congrArg SlotPc.entered hpc)
      have hlock := I.lock i (congrArg SlotPc.locked hpc)
      have hnow := I.began i now n hpc
      split at hstep
      case isTrue =>
        cases hstep
        have I' : SlotInv (s.goTo i .entering) := I.goTo nofun (fun _ => hentered) rfl
        exact I'.unlock (congrArg SlotPc.locked procs_goTo_self)
      case isFalse =>
        split at hstep
        case isTrue hfree =>
          cases hstep
          refine I.move nofun (fun _ => hentered) (fun _ => hlock) (fun _ _ h => h) ?_ nofun ?_
          · intro m hm j hj
            cases hm
            exact nomatch hfree.symm.trans (I.not_free hj)
          · intro t m hm
            cases hm
            have hdue := (Bool.and_eq_true_iff.mp hfree).2
            exact ⟨of_decide_eq_true hdue, hnow⟩
        case isFalse =>
          cases hstep
          refine I.move nofun (fun _ => hentered) (fun _ => hlock) (fun _ _ h => h) nofun ?_ nofun
          intro t m hm
          cases hm
          exact hnow
  | enter i =>
    rw [OnlineTable.step] at hstep
    split at hstep
    case h_2 => cases hstep
    case h_1 now n hpc =>
      have hlock := I.lock i (congrArg SlotPc.locked hpc)
      dsimp only at hstep
      split at hstep
      case isTrue =>
        cases hstep
        exact I.give hpc rfl rfl (fun _ => hlock) fun _ _ => ⟨nofun, nofun⟩
      case isFalse =>
        cases hstep
        exact I.give hpc rfl rfl nofun fun _ _ => ⟨nofun, nofun⟩
  | reap i other =>
    rw [OnlineTable.step] at hstep
    split at hstep
    case h_2 => cases hstep
    case h_1 now utmpent n hpc =>
      have hentered := I.uinfo i (congrArg SlotPc.entered hpc)
      have hlock := I.lock i (congrArg SlotPc.locked hpc)
      have hslot : (s.procs i).slot? = some utmpent := congrArg SlotPc.slot? hpc
      split at hstep
      case isTrue =>
        cases hstep
        have I' : SlotInv (s.goTo i (.online utmpent)) :=
          I.goTo (fun n h => hslot.trans h) (fun _ => hentered) rfl
        exact I'.unlock (congrArg SlotPc.locked procs_goTo_self)
      case isFalse =>
        split at hstep
        case isTrue hreaps =>
          cases hstep
          refine I.move (fun n h => hslot.trans h) (fun _ => hentered) (fun _ => hlock)
            (fun _ _ h => h) ?_ nofun nofun
          intro m hm j hj
          cases hm
          exact nomatch hreaps.symm.trans (I.not_reaps hj other)
        case isFalse =>
          cases hstep
          exact I.move (fun n h => hslot.trans h) (fun _ => hentered) (fun _ => hlock)
            (fun _ _ h => h) nofun nofun nofun
  | mark i =>
    rw [OnlineTable.step] at hstep
    split at hstep
    case h_2 => cases hstep
    case h_1 now utmpent n hpc =>
      have hentered := I.uinfo i (congrArg SlotPc.entered hpc)
      have hlock := I.lock i (congrArg SlotPc.locked hpc)
      have hslot : (s.procs i).slot? = some utmpent := congrArg SlotPc.slot? hpc
      have hnone := I.spare i n (congrArg SlotPc.spare? hpc)
      cases hstep
      -- no other session can be at a found slot while this one has the lock
      refine SlotInv.move (I.giveUp hnone ?_ _) (fun n h => hslot.trans h) (fun _ => hentered)
        (fun _ => hlock) (fun _ _ h => h) nofun nofun nofun
      intro j t hj
      have hsame := Option.some.inj (hlock.symm.trans (I.lock j (congrArg SlotPc.locked hj)))
      subst hsame
      cases hpc.symm.trans hj
  | touch i =>
    rw [OnlineTable.step] at hstep
    split at hstep
    case h_2 => cases hstep
    case h_1 =>
      cases hstep
      exact I.setUinfo _ _ fun hentered => I.uinfo i hentered
  | update i =>
    rw [OnlineTable.step] at hstep
    split at hstep
    case h_2 => cases hstep
    case h_1 utmpent hpc =>
      cases hstep
      exact I.update (congrArg SlotPc.slot? hpc) (congrArg SlotPc.entered hpc)
  | leave i =>
    rw [OnlineTable.step] at hstep
    split at hstep
    case h_2 => cases hstep
    case h_1 utmpent hpc =>
      cases hstep
      have hleft : (s.goTo i (.leaving utmpent)).procs i = .leaving utmpent := procs_goTo_self
      have I' : SlotInv (s.goTo i (.leaving utmpent)) :=
        I.goTo (fun n h => by rwa [hpc]) nofun rfl
      refine I'.setUinfo _ _ fun hentered => ?_
      exact nomatch (congrArg SlotPc.entered hleft).symm.trans hentered
  | exit i =>
    rw [OnlineTable.step] at hstep
    split at hstep
    case h_2 => cases hstep
    case h_1 utmpent hpc =>
      cases hstep
      have hslot : (s.procs i).slot? = some utmpent := congrArg SlotPc.slot? hpc
      have I' : SlotInv ((s.goTo i .offline).giveUp utmpent (s.uinfo i)) := by
        have Ioff : SlotInv (s.goTo i .offline) := I.goTo nofun nofun rfl
        refine Ioff.giveUp (fun j hj => ?_)
          (fun j t hj => ?_) _
        · rcases eq_or_ne j i with rfl | hne
          · cases (congrArg SlotPc.slot? procs_goTo_self).symm.trans hj
          · have hj := (congrArg SlotPc.slot? (procs_goTo_ne hne)).symm.trans hj
            exact hne (I.owner hj hslot)
        · rcases eq_or_ne j i with rfl | hne
          · cases procs_goTo_self.symm.trans hj
          · have hj := congrArg SlotPc.spare? ((procs_goTo_ne hne).symm.trans hj)
            exact I.spare j utmpent hj i hslot
      exact I'.unlock (congrArg SlotPc.locked procs_goTo_self)
  | die i =>
    rw [OnlineTable.step] at hstep
    split at hstep
    case h_1 | h_2 => cases hstep
    case h_3 =>
      cases hstep
      exact I.die

/-- Whatever sessions begin, update, leave and die, no slot belongs to two of them, nobody writes
over the slot of another one, and a slot that has been given up is given to another session only
when more than 60 seconds have passed since the time that was noted. -/
theorem slots_safe {site : Site} {slots : Nat → UserInfo} {uptime clock : Nat}
    (h : Reach (step site) (fun _ _ => True) (OnlineTable.start slots uptime clock) s) :
    SlotsSafe s :=
  (h.invariant SlotInv (slotInv_start slots uptime clock) fun _ _ _ I _ hstep => I.step hstep).safe

end

def demoSite : Site := ⟨2, fun _ => permDefault, fun _ => false⟩

/-- A table in which no slot has been given up for long. -/
def demoTable {κ : Type} : OnlineTable κ := start (fun _ => ⟨false, 0, 0, 0, 0⟩) 100 100

/-- A session takes the first slot, updates it and begins to leave; two seconds later it writes to
the slot, and 59 seconds after that another session gets it. -/
def demoReuse {κ : Type} (i j : κ) : List (SlotEvent κ) :=
  [.start i 7 1000, .lock i, .scan i, .enter i, .update i, .leave i, .tick 2, .lock i, .exit i,
    .tick 59, .start j 8 1001, .lock j, .scan j, .enter j]

theorem slots_safe_demo : ∃ s : OnlineTable (Fin 2),
    s.reuses = [⟨100, 102, 161⟩] ∧ SlotsSafe s := by
  have hrun : Reach.Meets (step demoSite) (fun _ _ => True) demoTable
      (demoReuse (0 : Fin 2) 1) := by decide +kernel
  obtain ⟨s, hs, h⟩ := Reach.of_meets _ hrun
  have hend : ((demoReuse (0 : Fin 2) 1).foldlM (step demoSite) demoTable).map (·.reuses) =
      some [⟨100, 102, 161⟩] := by decide +kernel
  rw [hs] at hend
  exact ⟨s, Option.some.inj hend, slots_safe h⟩

/-- The slot has been given up for 59 seconds when it gets another session. -/
theorem slot_reused_early : ¬∀ s : OnlineTable (Fin 2),
    Reach (step demoSite) (fun _ _ => True) demoTable s →
      SlotsSafe s ∧ ∀ r ∈ s.reuses, r.freed + 60 < r.time := by
  intro hclaim
  have hrun : Reach.Meets (step demoSite) (fun _ _ => True) demoTable
      (demoReuse (0 : Fin 2) 1) := by decide +kernel
  obtain ⟨s, hs, h⟩ := Reach.of_meets _ hrun
  have hend : ((demoReuse (0 : Fin 2) 1).foldlM (step demoSite) demoTable).map (·.reuses) =
      some [⟨100, 102, 161⟩] := by decide +kernel
  rw [hs] at hend
  have hreuses : s.reuses = [⟨100, 102, 161⟩] := Option.some.inj hend
  have hlate := (hclaim s h).2 ⟨100, 102, 161⟩ (hreuses ▸ List.mem_singleton_self _)
  exact absurd hlate (by decide)

end OnlineTable

end ArgoBbs

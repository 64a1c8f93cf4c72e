import ArgoBbs.Consts
import ArgoBbs.Lib.CString
import ArgoBbs.Lib.Reach
import Mathlib.Data.Fintype.Basic
import Mathlib.Logic.Function.Basic

/-! # Registering accounts

Any number of sessions run `new_register` (`register.c`), and processes read the table of names in
shared memory again from `PASSFILE` (`resolve_ucache` in `ucache.c`).

A session checks a name under `ucache.lock`, which it gives up before it looks for a slot; the slot
is found and marked with the name `new` under a lock on `PASSFILE`; the record with the name is
written after the password has been entered. The lock on `PASSFILE` is one of `fcntl`: a process
that closes the file anywhere has given it up. `resolve_ucache` does so in `apply_record`.

Slots are counted from 0. -/

namespace ArgoBbs

def idWithNonalphabet (userid : Bytes) : Bool :=
  userid.any fun c => !(65 ≤ c && c ≤ 90 || 97 ≤ c && c ≤ 122)

/-- The name of a slot that is being registered. -/
def newId : Bytes := bytes "new"

/-- `MAXUSERS`, and whether a pattern of `etc/bad_id` fits a name. -/
structure RegConfig where
  maxUsers : Nat
  badUserId : Bytes → Bool

def RegConfig.accepts (cfg : RegConfig) (userid : Bytes) : Bool :=
  !userid.isEmpty && userid.length ≤ idLen && !idWithNonalphabet userid && 2 ≤ userid.length &&
    !cfg.badUserId userid

/-- Where a session is in `new_register`: `searchuser` looks at a cell; it has found the name; the
name is free; `getnewuserid` has the lock; it looks at a cell of the first `num`; it has found a
slot; the record `new` is written; the password is entered; the record is written; the account
exists. -/
inductive RegPc
  | idle
  | checking (userid : Bytes) (i : Nat)
  | matched (userid : Bytes) (slot : Nat)
  | told (userid : Bytes)
  | locked (userid : Bytes)
  | searching (userid : Bytes) (num i : Nat)
  | found (userid : Bytes) (slot : Nat)
  | placed (userid : Bytes) (slot : Nat)
  | allocated (userid : Bytes) (slot : Nat)
  | substituted (userid : Bytes) (slot : Nat)
  | registered (userid : Bytes) (slot : Nat)
  | gone

/-- Where a process is in `resolve_ucache`: the table is old; the process has the lock; of the
mapped records the first `usernumber` are copied; the name of the next one is read. -/
inductive ReloadPc
  | idle
  | tested
  | locked
  | copying (size usernumber : Nat)
  | read (size usernumber : Nat) (userid : Bytes)

namespace RegPc

/-- The name that the session has entered. -/
def userid? : RegPc → Option Bytes
  | .checking u _ | .matched u _ | .told u | .locked u | .searching u .. | .found u _ | .placed u _
  | .allocated u _ | .substituted u _ | .registered u _ => some u
  | .idle | .gone => none

/-- The name that the session has been told to be free. -/
def told? : RegPc → Option Bytes
  | .told u | .locked u | .searching u .. | .found u _ | .placed u _ | .allocated u _
  | .substituted u _ | .registered u _ => some u
  | .idle | .checking .. | .matched .. | .gone => none

/-- The slot of the session, with the name that its record has. -/
def account? : RegPc → Option (Nat × Bytes)
  | .placed _ slot | .allocated _ slot => some (slot, newId)
  | .substituted u slot | .registered u slot => some (slot, u)
  | _ => none

/-- The account that the session has got. -/
def registered? : RegPc → Option (Nat × Bytes)
  | .substituted u slot | .registered u slot => some (slot, u)
  | _ => none

/-- A slot is found, and `getnewuserid` has not given up its lock. -/
def holds : RegPc → Bool
  | .found .. | .placed .. => true
  | _ => false

/-- `resolve_ucache` is called before the cells are looked at, and by sessions that do not register.
-/
def mayReload : RegPc → Bool
  | .idle | .checking _ 0 | .locked _ | .substituted .. | .registered .. => true
  | _ => false

end RegPc

/-- The names in `PASSFILE` and the number of its records, `uidshm`, the time, the locks, the
sessions, and to how many accounts a slot has been given. -/
structure Registry (ι : Type) where
  file : Nat → Bytes
  size : Nat
  names : Nat → Bytes
  number : Nat
  updating : Bool
  uptime : Int
  clock : Int
  ucacheLock : Option ι
  passLock : Option ι
  procs : ι → RegPc
  reloads : ι → ReloadPc
  given : Nat → Nat

/-- What a session or a reload does next. -/
inductive RegEvent (ι : Type)
  | tick (now : Int)
  | reload (i : ι)
  | lockCache (i : ι)
  | map (i : ι)
  | read (i : ι)
  | store (i : ι)
  | finish (i : ι)
  | enter (i : ι) (userid : Bytes)
  | scan (i : ι)
  | lookup (i : ι)
  | lockPass (i : ι)
  | search (i : ι)
  | scanSlot (i : ι)
  | writeNew (i : ι)
  | setNew (i : ι)
  | substitute (i : ι)
  | setUserid (i : ι)
  | breakOff (i : ι)

namespace Registry

section
variable {ι : Type} [DecidableEq ι]

/-- No session has begun; the table has not been read, or only in part. -/
def start (ι : Type) (file : Nat → Bytes) (size : Nat) (names : Nat → Bytes) (number : Nat)
    (uptime clock : Int) : Registry ι where
  file := file
  size := size
  names := names
  number := number
  updating := false
  uptime := uptime
  clock := clock
  ucacheLock := none
  passLock := none
  procs _ := .idle
  reloads _ := .idle
  given slot := if file slot = [] then 0 else 1

def goTo (s : Registry ι) (i : ι) (pc : RegPc) : Registry ι :=
  { s with procs := Function.update s.procs i pc }

def reloadTo (s : Registry ι) (i : ι) (pc : ReloadPc) : Registry ι :=
  { s with reloads := Function.update s.reloads i pc }

/-- The process gives up `ucache.lock`, the lock on `PASSFILE`. -/
def unlockCache (s : Registry ι) (i : ι) : Registry ι :=
  { s with ucacheLock := if s.ucacheLock = some i then none else s.ucacheLock }

def unlockPass (s : Registry ι) (i : ι) : Registry ι :=
  { s with passLock := if s.passLock = some i then none else s.passLock }

/-- The name in the record of the slot is written. -/
def writeRecord (s : Registry ι) (slot : Nat) (userid : Bytes) : Registry ι :=
  { s with file := Function.update s.file slot userid, size := max s.size (slot + 1) }

def setuserid (cfg : RegConfig) (s : Registry ι) (slot : Nat) (userid : Bytes) : Registry ι :=
  if slot < cfg.maxUsers then
    { s with
      number := max s.number (slot + 1)
      names := Function.update s.names slot (userid.take (idLen + 1)) }
  else s

/-- The steps of `resolve_ucache`. -/
def reloadStep (cfg : RegConfig) (s : Registry ι) (i : ι) : RegEvent ι → Option (Registry ι)
  | .reload _ =>
    match s.reloads i with
    | .idle =>
      if (s.procs i).mayReload && !s.updating && s.uptime + 86400 < s.clock then
        some (s.reloadTo i .tested)
      else none
    | _ => none
  | .lockCache _ =>
    match s.reloads i with
    | .tested =>
      if s.ucacheLock = none then
        some { s.reloadTo i .locked with ucacheLock := some i, updating := true }
      else some (s.reloadTo i .idle)
    | _ => none
  | .map _ =>
    match s.reloads i with
    | .locked => some ((s.reloadTo i (.copying s.size 0)).unlockPass i)
    | _ => none
  | .read _ =>
    match s.reloads i with
    | .copying size n =>
      if n < min size cfg.maxUsers then some (s.reloadTo i (.read size n (s.file n))) else none
    | _ => none
  | .store _ =>
    match s.reloads i with
    | .read size n userid =>
      some { s.reloadTo i (.copying size (n + 1)) with
        names := Function.update s.names n (userid.take (idLen + 1)) }
    | _ => none
  | .finish _ =>
    match s.reloads i with
    | .copying size n =>
      if n = min size cfg.maxUsers then
        some { (s.reloadTo i .idle).unlockCache i with
          number := n, uptime := s.clock, updating := false }
      else none
    | _ => none
  | _ => none

/-- The steps of `new_register`, while the session is not in `resolve_ucache`. -/
def registerStep (cfg : RegConfig) (s : Registry ι) (i : ι) : RegEvent ι → Option (Registry ι)
  | .enter _ userid =>
    match s.procs i with
    | .idle =>
      if cfg.accepts userid ∧ s.ucacheLock = none then
        some { s.goTo i (.checking userid 0) with ucacheLock := some i }
      else none
    | _ => none
  | .scan _ =>
    match s.procs i with
    | .checking u k =>
      if k < s.number then
        if strncasecmpEq u (s.names k) (idLen + 1) then some (s.goTo i (.matched u k))
        else some (s.goTo i (.checking u (k + 1)))
      else some ((s.goTo i (.told u)).unlockCache i)
    | _ => none
  | .lookup _ =>
    match s.procs i with
    | .matched u slot =>
      if s.file slot = [] then some ((s.goTo i (.told u)).unlockCache i)
      else some ((s.goTo i .idle).unlockCache i)
    | _ => none
  | .lockPass _ =>
    match s.procs i with
    | .told u =>
      if s.passLock = none then some { s.goTo i (.locked u) with passLock := some i } else none
    | _ => none
  | .search _ =>
    match s.procs i with
    | .locked u => some (s.goTo i (.searching u s.number 0))
    | _ => none
  | .scanSlot _ =>
    match s.procs i with
    | .searching u num k =>
      if k < num ∧ s.names k ≠ [] then some (s.goTo i (.searching u num (k + 1)))
      else if k < cfg.maxUsers then some (s.goTo i (.found u k))
      else some ((s.goTo i .gone).unlockPass i)
    | _ => none
  | .writeNew _ =>
    match s.procs i with
    | .found u slot =>
      some { (s.goTo i (.placed u slot)).writeRecord slot newId with
        given := Function.update s.given slot (s.given slot + 1) }
    | _ => none
  | .setNew _ =>
    match s.procs i with
    | .placed u slot =>
      some (((s.goTo i (.allocated u slot)).setuserid cfg slot newId).unlockPass i)
    | _ => none
  | .substitute _ =>
    match s.procs i with
    | .allocated u slot =>
      if s.passLock = none then some ((s.goTo i (.substituted u slot)).writeRecord slot u) else none
    | _ => none
  | .setUserid _ =>
    match s.procs i with
    | .substituted u slot => some ((s.goTo i (.registered u slot)).setuserid cfg slot u)
    | _ => none
  | _ => none

def step (cfg : RegConfig) (s : Registry ι) (e : RegEvent ι) : Option (Registry ι) :=
  match e with
  | .tick now => if s.clock ≤ now then some { s with clock := now } else none
  | .reload i | .lockCache i | .map i | .read i | .store i | .finish i => s.reloadStep cfg i e
  | .enter i _ | .scan i | .lookup i | .lockPass i | .search i | .scanSlot i | .writeNew i
  | .setNew i | .substitute i | .setUserid i =>
    match s.reloads i with
    | .idle => s.registerStep cfg i e
    | _ => none
  | .breakOff i => some ((((s.goTo i .gone).reloadTo i .idle).unlockCache i).unlockPass i)

end

/-! ## Steps that go well -/

variable {ι : Type}

/-- The name is not `new`; no account has it, in `PASSFILE` or in the table; no other session has
been told that it is free. -/
def IsFree (cfg : RegConfig) (s : Registry ι) (i : ι) (u : Bytes) : Prop :=
  strcasecmpEq u newId = false ∧
    (∀ k < cfg.maxUsers, strcasecmpEq (s.file k) u = false ∧ strcasecmpEq (s.names k) u = false) ∧
    ∀ j, j ≠ i → (s.procs j).told?.all (!strcasecmpEq u ·) = true

/-- Every account of `PASSFILE` is in the table. -/
def Covers (cfg : RegConfig) (s : Registry ι) : Prop :=
  ∀ k < cfg.maxUsers, s.file k ≠ [] → k < s.number ∧ s.names k ≠ []

/-- A session is told only of a free name; `getnewuserid` ends its search only with its lock, in a
table of the size that it began with and with all accounts; a reload stores only the name that the
record still has. -/
def MayStep (cfg : RegConfig) (s : Registry ι) : RegEvent ι → Prop
  | .scan i | .lookup i =>
    match s.procs i with
    | .checking u k => k < s.number ∨ s.IsFree cfg i u
    | .matched u slot => s.file slot ≠ [] ∨ s.IsFree cfg i u
    | _ => True
  | .scanSlot i =>
    match s.procs i with
    | .searching _ num k =>
      (k < num ∧ s.names k ≠ []) ∨ s.passLock = some i ∧ s.number = num ∧ s.Covers cfg
    | _ => True
  | .store i =>
    match s.reloads i with
    | .read _ n u => s.file n = u
    | _ => True
  | _ => True

/-- A cell of the table gets the name `new` only when no other cell has it. -/
def OneNew (cfg : RegConfig) (s : Registry ι) : RegEvent ι → Prop
  | .setNew i =>
    match s.procs i with
    | .placed _ slot => ∀ k < cfg.maxUsers, k ≠ slot → strcasecmpEq (s.names k) newId = false
    | _ => True
  | .store i =>
    match s.reloads i with
    | .read _ n u =>
      strcasecmpEq u newId = true →
        ∀ k < cfg.maxUsers, k ≠ n → strcasecmpEq (s.names k) newId = false
    | _ => True
  | _ => True

section
variable [Fintype ι] [DecidableEq ι] (cfg : RegConfig) (s : Registry ι)

instance (i : ι) (u : Bytes) : Decidable (s.IsFree cfg i u) := by
  unfold IsFree
  infer_instance

instance : Decidable (s.Covers cfg) :=
  inferInstanceAs (Decidable (∀ k < cfg.maxUsers, s.file k ≠ [] → k < s.number ∧ s.names k ≠ []))

instance (e : RegEvent ι) : Decidable (s.MayStep cfg e) := by
  unfold MayStep
  split
  · split <;> infer_instance
  · split <;> infer_instance
  · split <;> infer_instance
  · split <;> infer_instance
  · infer_instance

instance (e : RegEvent ι) : Decidable (s.OneNew cfg e) := by
  unfold OneNew
  split
  · split <;> infer_instance
  · split <;> infer_instance
  · infer_instance

end

/-- Two names that are equal up to case, and not empty. -/
def Clash (a b : Bytes) : Prop := a ≠ [] ∧ strcasecmpEq a b = true

/-- What holds in every state of a run that goes well. -/
structure RegInv (cfg : RegConfig) (s : Registry ι) : Prop where
  given : ∀ k, s.given k ≤ if s.file k = [] then 0 else 1
  short : ∀ k, (s.file k).length ≤ idLen + 1
  lock : ∀ i, (s.procs i).holds = true → s.passLock = some i
  found : ∀ i u k, s.procs i = .found u k → s.file k = [] ∧ k < cfg.maxUsers
  account : ∀ i k u, (s.procs i).account? = some (k, u) → s.file k = u ∧ k < cfg.maxUsers
  owner : ∀ i j k u v, (s.procs i).account? = some (k, u) → (s.procs j).account? = some (k, v) → i = j
  userid : ∀ i u, (s.procs i).userid? = some u → u ≠ [] ∧ u.length ≤ idLen
  told : ∀ i u, (s.procs i).told? = some u → strcasecmpEq u newId = false
  toldOnce : ∀ i j u v, i ≠ j → (s.procs i).told? = some u → (s.procs j).told? = some v →
    strcasecmpEq u v = false
  toldOwn : ∀ i u k, k < cfg.maxUsers → (s.procs i).told? = some u →
    strcasecmpEq (s.file k) u = true ∨ strcasecmpEq (s.names k) u = true →
    ∃ v, (s.procs i).account? = some (k, v)
  file : ∀ a b, a < cfg.maxUsers → b < cfg.maxUsers → a ≠ b → Clash (s.file a) (s.file b) →
    strcasecmpEq (s.file a) newId = true
  mixed : ∀ a b, a < cfg.maxUsers → b < cfg.maxUsers → a ≠ b → Clash (s.names a) (s.file b) →
    strcasecmpEq (s.names a) newId = true
  names : ∀ a b, a < cfg.maxUsers → b < cfg.maxUsers → a ≠ b → Clash (s.names a) (s.names b) →
    strcasecmpEq (s.names a) newId = true

variable {cfg : RegConfig} {s s' : Registry ι} {i j : ι} {pc : RegPc} {u v : Bytes} {k : Nat}

theorem RegPc.userid_of_told {pc : RegPc} (h : pc.told? = some u) : pc.userid? = some u := by
  cases pc <;> first | exact h | cases h

theorem RegPc.told_of_account {pc : RegPc} (h : pc.account? = some (k, u)) :
    ∃ v, pc.told? = some v := by
  cases pc <;> first | exact ⟨_, rfl⟩ | cases h

theorem Clash.symm {a b : Bytes} (h : Clash a b) : Clash b a := by
  refine ⟨?_, strcasecmpEq_symm h.2⟩
  rintro rfl
  have hmap := strcasecmpEq_iff.mp h.2
  exact h.1 (List.map_eq_nil_iff.mp hmap)

namespace RegInv

theorem account_ne (I : RegInv cfg s) (h : (s.procs i).account? = some (k, u)) : u ≠ [] := by
  obtain ⟨v, hv⟩ := RegPc.told_of_account h
  have hne := (I.userid i v (RegPc.userid_of_told hv)).1
  cases hpc : s.procs i with
  | placed | allocated =>
    rw [hpc] at h
    cases h
    decide
  | substituted | registered =>
    rw [hpc] at h hv
    cases h
    cases hv
    exact hne
  | _ =>
    rw [hpc] at h
    cases h

/-- A cell of the table gets the name that the record of the slot has. -/
theorem cell (I : RegInv cfg s) (hfile : s'.file = s.file)
    (hnames : s'.names = Function.update s.names k (s.file k)) (hgiven : s'.given = s.given)
    (hprocs : s'.procs = s.procs) (hlock : s'.passLock = s.passLock) : RegInv cfg s' := by
  have hk : s'.names k = s.file k := by rw [hnames, Function.update_self]
  have hother : ∀ a, a ≠ k → s'.names a = s.names a :=
    fun a ha => by rw [hnames, Function.update_of_ne ha]
  refine ⟨?_, ?_, ?_, ?_, ?_, ?_, ?_, ?_, ?_, ?_, ?_, ?_, ?_⟩
  · rw [hgiven, hfile]
    exact I.given
  · rw [hfile]
    exact I.short
  · rw [hprocs, hlock]
    exact I.lock
  · rw [hprocs, hfile]
    exact I.found
  · rw [hprocs, hfile]
    exact I.account
  · rw [hprocs]
    exact I.owner
  · rw [hprocs]
    exact I.userid
  · rw [hprocs]
    exact I.told
  · rw [hprocs]
    exact I.toldOnce
  · intro j v a ha hj h
    rw [hprocs] at hj ⊢
    rw [hfile] at h
    by_cases hak : a = k
    · subst hak
      rw [hk, or_self] at h
      exact I.toldOwn j v a ha hj (.inl h)
    · rw [hother a hak] at h
      exact I.toldOwn j v a ha hj h
  · rw [hfile]
    exact I.file
  · intro a b ha hb hab h
    rw [hfile] at h
    by_cases hak : a = k
    · subst hak
      rw [hk] at h ⊢
      exact I.file a b ha hb hab h
    · rw [hother a hak] at h ⊢
      exact I.mixed a b ha hb hab h
  · intro a b ha hb hab h
    by_cases hak : a = k
    · subst hak
      rw [hk] at h ⊢
      rw [hother b (Ne.symm hab)] at h
      have hb' := I.mixed b a hb ha (Ne.symm hab) h.symm
      exact strcasecmpEq_trans h.2 hb'
    · rw [hother a hak] at h ⊢
      by_cases hbk : b = k
      · subst hbk
        rw [hk] at h
        exact I.mixed a b ha hb hab h
      · rw [hother b hbk] at h
        exact I.names a b ha hb hab h

/-- A process that has not found a slot goes on in `resolve_ucache`. -/
theorem reload (I : RegInv cfg s) (hfile : s'.file = s.file) (hnames : s'.names = s.names)
    (hgiven : s'.given = s.given) (hprocs : s'.procs = s.procs)
    (hlock : ∀ j, (s.procs j).holds = true → s'.passLock = some j) : RegInv cfg s' := by
  refine ⟨?_, ?_, ?_, ?_, ?_, ?_, ?_, ?_, ?_, ?_, ?_, ?_, ?_⟩
  all_goals simp only [hfile, hnames, hgiven, hprocs]
  · exact I.given
  · exact I.short
  · exact hlock
  · exact I.found
  · exact I.account
  · exact I.owner
  · exact I.userid
  · exact I.told
  · exact I.toldOnce
  · exact I.toldOwn
  · exact I.file
  · exact I.mixed
  · exact I.names

theorem setuserid (I : RegInv cfg s) (h : (s.procs i).account? = some (k, u)) :
    RegInv cfg (s.setuserid cfg k u) := by
  obtain ⟨hfile, hslot⟩ := I.account i k u h
  have hlen := I.short k
  rw [hfile] at hlen
  rw [Registry.setuserid, if_pos hslot, List.take_of_length_le hlen, ← hfile]
  exact I.cell rfl rfl rfl rfl rfl

variable [DecidableEq ι]

theorem update_procs (hprocs : s'.procs = Function.update s.procs i pc) :
    s'.procs i = pc ∧ ∀ j, j ≠ i → s'.procs j = s.procs j :=
  ⟨by rw [hprocs, Function.update_self], fun j hj => by rw [hprocs, Function.update_of_ne hj]⟩

/-- What a session keeps when it goes on is the same for every session. -/
theorem update_field {β : Type} (field : RegPc → β)
    (hprocs : s'.procs = Function.update s.procs i pc) (h : field pc = field (s.procs i)) (j : ι) :
    field (s'.procs j) = field (s.procs j) := by
  obtain ⟨hi, hne⟩ := update_procs hprocs
  by_cases hj : j = i
  · subst hj
    rw [hi, h]
  · rw [hne j hj]

/-- Slots have one owner each when a session goes on with a slot of its own. -/
theorem owner_update (I : RegInv cfg s) (hi : ∀ a v, (s'.procs i).account? = some (a, v) → a = k)
    (haccount : ∀ j, j ≠ i → ∀ a v, (s'.procs j).account? = some (a, v) →
      (s.procs j).account? = some (a, v) ∧ a ≠ k) (j j' : ι) (a : Nat) (v w : Bytes)
    (hj : (s'.procs j).account? = some (a, v)) (hj' : (s'.procs j').account? = some (a, w)) :
    j = j' := by
  by_cases hji : j = i
  · by_cases hji' : j' = i
    · rw [hji, hji']
    · exact absurd (hi a v (hji ▸ hj)) (haccount j' hji' a w hj').2
  · obtain ⟨hj, ha⟩ := haccount j hji a v hj
    by_cases hji' : j' = i
    · exact absurd (hi a w (hji' ▸ hj')) ha
    · exact I.owner j j' a v w hj (haccount j' hji' a w hj').1

/-- A session goes on, without a new name, a new slot or a slot found, or it is gone. -/
theorem move (I : RegInv cfg s) (hfile : s'.file = s.file) (hnames : s'.names = s.names)
    (hgiven : s'.given = s.given) (hprocs : s'.procs = Function.update s.procs i pc)
    (hlock : ∀ j, j ≠ i → s.passLock = some j → s'.passLock = some j)
    (hholds : pc.holds = true → s'.passLock = some i)
    (hfound : ∀ u k, pc = .found u k → s.file k = [] ∧ k < cfg.maxUsers)
    (huserid : ∀ u, pc.userid? = some u → u ≠ [] ∧ u.length ≤ idLen)
    (htold : (pc.told? = (s.procs i).told? ∧ pc.account? = (s.procs i).account?) ∨
      pc.told? = none) : RegInv cfg s' := by
  obtain ⟨hi, hne⟩ := update_procs hprocs
  have htold' : ∀ j u, (s'.procs j).told? = some u →
      (s.procs j).told? = some u ∧ (s'.procs j).account? = (s.procs j).account? := by
    intro j u h
    by_cases hj : j = i
    · subst hj
      rw [hi] at h ⊢
      rcases htold with ⟨ht, ha⟩ | ht
      · exact ⟨ht ▸ h, ha⟩
      · rw [ht] at h
        cases h
    · rw [hne j hj] at h ⊢
      exact ⟨h, rfl⟩
  have haccount : ∀ j k u, (s'.procs j).account? = some (k, u) →
      (s.procs j).account? = some (k, u) := by
    intro j k u h
    obtain ⟨v, hv⟩ := RegPc.told_of_account h
    rw [← (htold' j v hv).2]
    exact h
  refine ⟨?_, ?_, ?_, ?_, ?_, ?_, ?_, ?_, ?_, ?_, ?_, ?_, ?_⟩
  · rw [hgiven, hfile]
    exact I.given
  · rw [hfile]
    exact I.short
  · intro j hj
    by_cases hji : j = i
    · subst hji
      exact hholds (hi ▸ hj)
    · exact hlock j hji (I.lock j (hne j hji ▸ hj))
  · intro j u k hj
    rw [hfile]
    by_cases hji : j = i
    · subst hji
      exact hfound u k (hi.symm.trans hj)
    · exact I.found j u k ((hne j hji).symm.trans hj)
  · intro j k u hj
    rw [hfile]
    exact I.account j k u (haccount j k u hj)
  · intro j j' k u v hj hj'
    exact I.owner j j' k u v (haccount j k u hj) (haccount j' k v hj')
  · intro j u hj
    by_cases hji : j = i
    · subst hji
      exact huserid u (hi ▸ hj)
    · exact I.userid j u (hne j hji ▸ hj)
  · intro j u hj
    exact I.told j u (htold' j u hj).1
  · intro j j' u v hjj hj hj'
    exact I.toldOnce j j' u v hjj (htold' j u hj).1 (htold' j' v hj').1
  · intro j u k hk hj h
    rw [hfile, hnames] at h
    rw [(htold' j u hj).2]
    exact I.toldOwn j u k hk (htold' j u hj).1 h
  · rw [hfile]
    exact I.file
  · rw [hfile, hnames]
    exact I.mixed
  · rw [hnames]
    exact I.names

/-- A session is told of a free name. -/
theorem tell (I : RegInv cfg s) (hfile : s'.file = s.file) (hnames : s'.names = s.names)
    (hgiven : s'.given = s.given) (hprocs : s'.procs = Function.update s.procs i (.told u))
    (hlock : s'.passLock = s.passLock) (huserid : (s.procs i).userid? = some u)
    (hfree : s.IsFree cfg i u) : RegInv cfg s' := by
  obtain ⟨hi, hne⟩ := update_procs hprocs
  obtain ⟨hnew, hcells, hothers⟩ := hfree
  have hfresh : ∀ j v, j ≠ i → (s.procs j).told? = some v → strcasecmpEq u v = false := by
    intro j v hj hv
    have h := hothers j hj
    rw [hv] at h
    simpa using h
  have haccount : ∀ j k v, (s'.procs j).account? = some (k, v) →
      (s.procs j).account? = some (k, v) := by
    intro j k v h
    by_cases hj : j = i
    · subst hj
      rw [hi] at h
      cases h
    · rwa [hne j hj] at h
  refine ⟨?_, ?_, ?_, ?_, ?_, ?_, ?_, ?_, ?_, ?_, ?_, ?_, ?_⟩
  · rw [hgiven, hfile]
    exact I.given
  · rw [hfile]
    exact I.short
  · intro j hj
    by_cases hji : j = i
    · subst hji
      rw [hi] at hj
      cases hj
    · rw [hlock]
      exact I.lock j (hne j hji ▸ hj)
  · intro j v k hj
    rw [hfile]
    by_cases hji : j = i
    · subst hji
      rw [hi] at hj
      cases hj
    · exact I.found j v k ((hne j hji).symm.trans hj)
  · intro j k v hj
    rw [hfile]
    exact I.account j k v (haccount j k v hj)
  · intro j j' k v w hj hj'
    exact I.owner j j' k v w (haccount j k v hj) (haccount j' k w hj')
  · intro j v hj
    by_cases hji : j = i
    · subst hji
      rw [hi] at hj
      cases hj
      exact I.userid j u huserid
    · exact I.userid j v (hne j hji ▸ hj)
  · intro j v hj
    by_cases hji : j = i
    · subst hji
      rw [hi] at hj
      cases hj
      exact hnew
    · exact I.told j v (hne j hji ▸ hj)
  · intro j j' v w hjj hj hj'
    by_cases hji : j = i
    · subst hji
      rw [hi] at hj
      cases hj
      rw [hne j' (Ne.symm hjj)] at hj'
      exact hfresh j' w (Ne.symm hjj) hj'
    · rw [hne j hji] at hj
      by_cases hji' : j' = i
      · subst hji'
        rw [hi] at hj'
        cases hj'
        have h := hfresh j v hji hj
        rw [Bool.eq_false_iff] at h ⊢
        exact fun heq => h (strcasecmpEq_symm heq)
      · rw [hne j' hji'] at hj'
        exact I.toldOnce j j' v w hjj hj hj'
  · intro j v k hk hj h
    rw [hfile, hnames] at h
    by_cases hji : j = i
    · subst hji
      rw [hi] at hj
      cases hj
      rcases h with h | h
      · exact absurd h (by rw [(hcells k hk).1]; exact Bool.false_ne_true)
      · exact absurd h (by rw [(hcells k hk).2]; exact Bool.false_ne_true)
    · rw [hne j hji] at hj ⊢
      exact I.toldOwn j v k hk hj h
  · rw [hfile]
    exact I.file
  · rw [hfile, hnames]
    exact I.mixed
  · rw [hnames]
    exact I.names

/-- The record `new` is written into the slot that has been found. -/
theorem place (I : RegInv cfg s) (hpc : s.procs i = .found u k)
    (hfile : s'.file = Function.update s.file k newId) (hnames : s'.names = s.names)
    (hgiven : s'.given = Function.update s.given k (s.given k + 1))
    (hprocs : s'.procs = Function.update s.procs i (.placed u k))
    (hlock : s'.passLock = s.passLock) : RegInv cfg s' := by
  obtain ⟨hi, hne⟩ := update_procs hprocs
  obtain ⟨hempty, hslot⟩ := I.found i u k hpc
  have hk : s'.file k = newId := by rw [hfile, Function.update_self]
  have hother : ∀ a, a ≠ k → s'.file a = s.file a :=
    fun a ha => by rw [hfile, Function.update_of_ne ha]
  have hunowned : ∀ j v, (s.procs j).account? ≠ some (k, v) := by
    intro j v h
    exact I.account_ne h ((I.account j k v h).1.symm.trans hempty)
  have hmine : s.passLock = some i := I.lock i (by rw [hpc]; rfl)
  have htold : ∀ j v, (s'.procs j).told? = some v → (s.procs j).told? = some v :=
    fun j v h => (update_field RegPc.told? hprocs (by rw [hpc]; rfl) j).symm.trans h
  have hholder : ∀ j, j ≠ i → (s'.procs j).holds = false := by
    intro j hj
    rw [hne j hj]
    cases hh : (s.procs j).holds with
    | false => rfl
    | true => exact absurd (Option.some.inj ((I.lock j hh).symm.trans hmine)) hj
  have haccount : ∀ j, j ≠ i → ∀ a v, (s'.procs j).account? = some (a, v) →
      (s.procs j).account? = some (a, v) ∧ a ≠ k := by
    intro j hj a v h
    rw [hne j hj] at h
    refine ⟨h, ?_⟩
    rintro rfl
    exact hunowned j v h
  refine ⟨?_, ?_, ?_, ?_, ?_, ?_, ?_, ?_, ?_, ?_, ?_, ?_, ?_⟩
  · intro a
    by_cases ha : a = k
    · subst ha
      have hle := I.given a
      rw [if_pos hempty] at hle
      rw [hgiven, Function.update_self, hk, if_neg (by decide)]
      omega
    · rw [hgiven, Function.update_of_ne ha, hother a ha]
      exact I.given a
  · intro a
    by_cases ha : a = k
    · subst ha
      rw [hk]
      decide
    · rw [hother a ha]
      exact I.short a
  · intro j hj
    by_cases hji : j = i
    · subst hji
      rw [hlock]
      exact hmine
    · rw [hholder j hji] at hj
      cases hj
  · intro j v a hj
    by_cases hji : j = i
    · subst hji
      rw [hi] at hj
      cases hj
    · have hh := hholder j hji
      rw [hj] at hh
      cases hh
  · intro j a v hj
    by_cases hji : j = i
    · subst hji
      rw [hi] at hj
      cases hj
      exact ⟨hk, hslot⟩
    · obtain ⟨hj, ha⟩ := haccount j hji a v hj
      rw [hother a ha]
      exact I.account j a v hj
  · apply I.owner_update _ haccount
    intro a v hj
    rw [hi] at hj
    cases hj
    rfl
  · intro j v hj
    exact I.userid j v ((update_field RegPc.userid? hprocs (by rw [hpc]; rfl) j).symm.trans hj)
  · intro j v hj
    exact I.told j v (htold j v hj)
  · intro j j' v w hjj hj hj'
    exact I.toldOnce j j' v w hjj (htold j v hj) (htold j' w hj')
  · intro j v a ha hj h
    have hj := htold j v hj
    have hold : strcasecmpEq (s.file a) v = true ∨ strcasecmpEq (s.names a) v = true := by
      rw [hnames] at h
      by_cases hak : a = k
      · subst hak
        rw [hk] at h
        rcases h with h | h
        · have hv := I.told j v hj
          rw [strcasecmpEq_symm h] at hv
          cases hv
        · exact .inr h
      · rwa [hother a hak] at h
    obtain ⟨w, hw⟩ := I.toldOwn j v a ha hj hold
    by_cases hji : j = i
    · subst hji
      rw [hpc] at hw
      cases hw
    · exact ⟨w, by rw [hne j hji, hw]⟩
  · intro a b ha hb hab h
    by_cases hak : a = k
    · subst hak
      rw [hk]
      decide
    · rw [hother a hak] at h ⊢
      by_cases hbk : b = k
      · subst hbk
        rw [hk] at h
        exact h.2
      · rw [hother b hbk] at h
        exact I.file a b ha hb hab h
  · intro a b ha hb hab h
    rw [hnames] at h ⊢
    by_cases hbk : b = k
    · subst hbk
      rw [hk] at h
      exact h.2
    · rw [hother b hbk] at h
      exact I.mixed a b ha hb hab h
  · rw [hnames]
    exact I.names

/-- The record of the slot gets the name that the session has been told to be free. -/
theorem substitute (I : RegInv cfg s) (hpc : s.procs i = .allocated u k)
    (hfile : s'.file = Function.update s.file k u) (hnames : s'.names = s.names)
    (hgiven : s'.given = s.given)
    (hprocs : s'.procs = Function.update s.procs i (.substituted u k))
    (hlock : s'.passLock = s.passLock) : RegInv cfg s' := by
  obtain ⟨hi, hne⟩ := update_procs hprocs
  have haccount₀ : (s.procs i).account? = some (k, newId) := by rw [hpc]; rfl
  have htold₀ : (s.procs i).told? = some u := by rw [hpc]; rfl
  obtain ⟨hold, hslot⟩ := I.account i k newId haccount₀
  obtain ⟨hnil, hlen⟩ := I.userid i u (RegPc.userid_of_told htold₀)
  have hk : s'.file k = u := by rw [hfile, Function.update_self]
  have hother : ∀ a, a ≠ k → s'.file a = s.file a :=
    fun a ha => by rw [hfile, Function.update_of_ne ha]
  have htold : ∀ j v, (s'.procs j).told? = some v → (s.procs j).told? = some v :=
    fun j v h => (update_field RegPc.told? hprocs (by rw [hpc]; rfl) j).symm.trans h
  have hmine : ∀ j v, (s.procs j).account? = some (k, v) → j = i :=
    fun j v h => I.owner j i k v newId h haccount₀
  have haccount : ∀ j, j ≠ i → ∀ a v, (s'.procs j).account? = some (a, v) →
      (s.procs j).account? = some (a, v) ∧ a ≠ k := by
    intro j hj a v h
    rw [hne j hj] at h
    refine ⟨h, ?_⟩
    rintro rfl
    exact hj (hmine j v h)
  -- no other slot has the name, in the file or in the table
  have hfree : ∀ a, a < cfg.maxUsers → a ≠ k →
      ¬(strcasecmpEq (s.file a) u = true ∨ strcasecmpEq (s.names a) u = true) := by
    intro a ha hak h
    obtain ⟨w, hw⟩ := I.toldOwn i u a ha htold₀ h
    rw [haccount₀] at hw
    cases hw
    exact hak rfl
  refine ⟨?_, ?_, ?_, ?_, ?_, ?_, ?_, ?_, ?_, ?_, ?_, ?_, ?_⟩
  · intro a
    rw [hgiven]
    by_cases ha : a = k
    · subst ha
      have hle := I.given a
      rw [hold, if_neg (by decide)] at hle
      rwa [hk, if_neg hnil]
    · rw [hother a ha]
      exact I.given a
  · intro a
    by_cases ha : a = k
    · subst ha
      rw [hk]
      exact Nat.le_succ_of_le hlen
    · rw [hother a ha]
      exact I.short a
  · intro j hj
    rw [hlock]
    by_cases hji : j = i
    · subst hji
      rw [hi] at hj
      cases hj
    · exact I.lock j (hne j hji ▸ hj)
  · intro j v a hj
    by_cases hji : j = i
    · subst hji
      rw [hi] at hj
      cases hj
    · obtain ⟨hempty, ha⟩ := I.found j v a ((hne j hji).symm.trans hj)
      have hak : a ≠ k := by
        rintro rfl
        rw [hold] at hempty
        cases hempty
      rw [hother a hak]
      exact ⟨hempty, ha⟩
  · intro j a v hj
    by_cases hji : j = i
    · subst hji
      rw [hi] at hj
      cases hj
      exact ⟨hk, hslot⟩
    · obtain ⟨hj, ha⟩ := haccount j hji a v hj
      rw [hother a ha]
      exact I.account j a v hj
  · apply I.owner_update _ haccount
    intro a v hj
    rw [hi] at hj
    cases hj
    rfl
  · intro j v hj
    exact I.userid j v ((update_field RegPc.userid? hprocs (by rw [hpc]; rfl) j).symm.trans hj)
  · intro j v hj
    exact I.told j v (htold j v hj)
  · intro j j' v w hjj hj hj'
    exact I.toldOnce j j' v w hjj (htold j v hj) (htold j' w hj')
  · intro j v a ha hj h
    have hj := htold j v hj
    rw [hnames] at h
    by_cases hji : j = i
    · subst hji
      rw [htold₀] at hj
      cases hj
      by_cases hak : a = k
      · exact ⟨u, by rw [hi, hak]; rfl⟩
      · rw [hother a hak] at h
        exact absurd h (hfree a ha hak)
    · have hdiffer := I.toldOnce i j u v (Ne.symm hji) htold₀ hj
      have hold' : strcasecmpEq (s.file a) v = true ∨ strcasecmpEq (s.names a) v = true := by
        by_cases hak : a = k
        · subst hak
          rw [hk] at h
          rcases h with h | h
          · rw [h] at hdiffer
            cases hdiffer
          · exact .inr h
        · rwa [hother a hak] at h
      obtain ⟨w, hw⟩ := I.toldOwn j v a ha hj hold'
      exact ⟨w, by rw [hne j hji, hw]⟩
  · intro a b ha hb hab h
    by_cases hak : a = k
    · subst hak
      rw [hk, hother b (Ne.symm hab)] at h
      exact absurd (.inl (strcasecmpEq_symm h.2)) (hfree b hb (Ne.symm hab))
    · rw [hother a hak] at h ⊢
      by_cases hbk : b = k
      · subst hbk
        rw [hk] at h
        exact absurd (.inl h.2) (hfree a ha hak)
      · rw [hother b hbk] at h
        exact I.file a b ha hb hab h
  · intro a b ha hb hab h
    rw [hnames] at h ⊢
    by_cases hbk : b = k
    · subst hbk
      rw [hk] at h
      exact absurd (.inr h.2) (hfree a ha hab)
    · rw [hother b hbk] at h
      exact I.mixed a b ha hb hab h
  · rw [hnames]
    exact I.names

theorem lock_of_ne {lock : Option ι} {j : ι} (hj : j ≠ i) (h : lock = some j) :
    (if lock = some i then none else lock) = some j := by
  rw [if_neg, h]
  rw [h]
  exact fun heq => hj (Option.some.inj heq)

/-- The steps of a session leave the other sessions and the reloads alone. -/
theorem registerStep_others {e : RegEvent ι} (h : s.registerStep cfg i e = some s') :
    s'.reloads = s.reloads ∧ ∀ j, j ≠ i → s'.procs j = s.procs j := by
  have hgoTo : ∀ pc j, j ≠ i → (s.goTo i pc).procs j = s.procs j :=
    fun pc j hj => Function.update_of_ne hj ..
  unfold registerStep at h
  split at h <;> (try split at h) <;> (try split at h) <;> (try split at h)
  all_goals first
    | (cases h; done)
    | (rw [← Option.some.inj h]; exact ⟨rfl, hgoTo _⟩)
    | (rw [← Option.some.inj h, Registry.setuserid]; split <;> exact ⟨rfl, hgoTo _⟩)

/-- A step of `new_register`. -/
theorem register (I : RegInv cfg s) {e : RegEvent ι}
    (hscan : ∀ j, e = .scan j → s.MayStep cfg (.scan i))
    (hlookup : ∀ j, e = .lookup j → s.MayStep cfg (.lookup i))
    (hslot : ∀ j, e = .scanSlot j → s.MayStep cfg (.scanSlot i)) (h : s.registerStep cfg i e = some s') :
    RegInv cfg s' := by
  have hmoved (j : ι) (hj : j ≠ i) (hl : s.passLock = some j) : s.passLock = some j := hl
  cases e with
  | enter j u =>
    simp only [registerStep] at h
    split at h
    · split at h
      · rename_i hpc haccepts
        have hu := haccepts.1
        simp only [RegConfig.accepts, Bool.and_eq_true, decide_eq_true_eq] at hu
        rw [← Option.some.inj h]
        refine I.move rfl rfl rfl rfl hmoved nofun nofun (fun v hv => ?_) (.inr rfl)
        cases hv
        exact ⟨by simpa using hu.1.1.1.1, hu.1.1.1.2⟩
      · cases h
    · cases h
  | scan j =>
    simp only [registerStep] at h
    split at h
    · rename_i u k hpc
      have huserid : (s.procs i).userid? = some u := by rw [hpc]; rfl
      have hsame (v : Bytes) (hv : some u = some v) : v ≠ [] ∧ v.length ≤ idLen :=
        I.userid i v (huserid.trans hv)
      split at h
      · split at h
        · exact Option.some.inj h ▸ I.move rfl rfl rfl rfl hmoved nofun nofun hsame (.inr rfl)
        · exact Option.some.inj h ▸ I.move rfl rfl rfl rfl hmoved nofun nofun hsame (.inr rfl)
      · rename_i hend
        have hok := hscan j rfl
        rw [MayStep, hpc] at hok
        exact Option.some.inj h ▸ I.tell rfl rfl rfl rfl rfl huserid (hok.resolve_left hend)
    · cases h
  | lookup j =>
    simp only [registerStep] at h
    split at h
    · rename_i u slot hpc
      have huserid : (s.procs i).userid? = some u := by rw [hpc]; rfl
      split at h
      · rename_i hempty
        have hok := hlookup j rfl
        rw [MayStep, hpc] at hok
        exact Option.some.inj h ▸
          I.tell rfl rfl rfl rfl rfl huserid (hok.resolve_left fun hne => hne hempty)
      · exact Option.some.inj h ▸ I.move rfl rfl rfl rfl hmoved nofun nofun nofun (.inr rfl)
    · cases h
  | lockPass j =>
    simp only [registerStep] at h
    split at h
    · rename_i u hpc
      split at h
      · rename_i hfree
        have huserid : (s.procs i).userid? = some u := by rw [hpc]; rfl
        rw [← Option.some.inj h]
        refine I.move rfl rfl rfl rfl (fun j hj hl => ?_) nofun nofun
          (fun v hv => I.userid i v (huserid.trans hv)) (.inl ⟨by rw [hpc]; rfl, by rw [hpc]; rfl⟩)
        rw [hfree] at hl
        cases hl
      · cases h
    · cases h
  | search j =>
    simp only [registerStep] at h
    split at h
    · rename_i u hpc
      have huserid : (s.procs i).userid? = some u := by rw [hpc]; rfl
      exact Option.some.inj h ▸ I.move rfl rfl rfl rfl hmoved nofun nofun
        (fun v hv => I.userid i v (huserid.trans hv)) (.inl ⟨by rw [hpc]; rfl, by rw [hpc]; rfl⟩)
    · cases h
  | scanSlot j =>
    simp only [registerStep] at h
    split at h
    · rename_i u num k hpc
      have huserid : (s.procs i).userid? = some u := by rw [hpc]; rfl
      have hsame (v : Bytes) (hv : some u = some v) : v ≠ [] ∧ v.length ≤ idLen :=
        I.userid i v (huserid.trans hv)
      split at h
      · exact Option.some.inj h ▸ I.move rfl rfl rfl rfl hmoved nofun nofun hsame
          (.inl ⟨by rw [hpc]; rfl, by rw [hpc]; rfl⟩)
      · rename_i hend
        split at h
        · rename_i hmax
          have hok := hslot j rfl
          rw [MayStep, hpc] at hok
          obtain ⟨hlock, hnumber, hcovers⟩ := hok.resolve_left hend
          -- the slot has no account, since the table has all of them
          have hempty : s.file k = [] := by
            by_contra hne
            exact hend (hnumber ▸ hcovers k hmax hne)
          rw [← Option.some.inj h]
          refine I.move rfl rfl rfl rfl hmoved (fun _ => hlock) (fun v l heq => ?_) hsame
            (.inl ⟨by rw [hpc]; rfl, by rw [hpc]; rfl⟩)
          cases heq
          exact ⟨hempty, hmax⟩
        · exact Option.some.inj h ▸ I.move rfl rfl rfl rfl
            (fun j hj hl => lock_of_ne hj hl) nofun nofun nofun (.inr rfl)
    · cases h
  | writeNew j =>
    simp only [registerStep] at h
    split at h
    · rename_i u slot hpc
      exact Option.some.inj h ▸ I.place hpc rfl rfl rfl rfl rfl
    · cases h
  | setNew j =>
    simp only [registerStep] at h
    split at h
    · rename_i u slot hpc
      have haccount : (s.procs i).account? = some (slot, newId) := by rw [hpc]; rfl
      have huserid : (s.procs i).userid? = some u := by rw [hpc]; rfl
      have I' := I.setuserid haccount
      rw [← Option.some.inj h]
      rw [Registry.setuserid, if_pos (I.account i slot newId haccount).2] at I' ⊢
      exact I'.move rfl rfl rfl rfl (fun j hj hl => lock_of_ne hj hl) nofun nofun
        (fun v hv => I.userid i v (huserid.trans hv)) (.inl ⟨by rw [hpc]; rfl, by rw [hpc]; rfl⟩)
    · cases h
  | substitute j =>
    simp only [registerStep] at h
    split at h
    · rename_i u slot hpc
      split at h
      · exact Option.some.inj h ▸ I.substitute hpc rfl rfl rfl rfl rfl
      · cases h
    · cases h
  | setUserid j =>
    simp only [registerStep] at h
    split at h
    · rename_i u slot hpc
      have haccount : (s.procs i).account? = some (slot, u) := by rw [hpc]; rfl
      have huserid : (s.procs i).userid? = some u := by rw [hpc]; rfl
      have I' := I.setuserid haccount
      rw [← Option.some.inj h]
      rw [Registry.setuserid, if_pos (I.account i slot u haccount).2] at I' ⊢
      exact I'.move rfl rfl rfl rfl hmoved nofun nofun
        (fun v hv => I.userid i v (huserid.trans hv)) (.inl ⟨by rw [hpc]; rfl, by rw [hpc]; rfl⟩)
    · cases h
  | _ => cases h

end RegInv

/-- What holds in every state of a run that goes well; no process reads the table again while it has
found a slot. -/
structure Steady (cfg : RegConfig) (s : Registry ι) : Prop where
  inv : RegInv cfg s
  reloading : ∀ i, s.reloads i = .idle ∨ (s.procs i).holds = false

namespace Steady

/-- No slot has an account, and no session has begun; the table is right as far as it is filled. -/
theorem start {file names : Nat → Bytes} {size number : Nat} {uptime clock : Int}
    (hshort : ∀ k, (file k).length ≤ idLen + 1)
    (hfile : ∀ a b, a < cfg.maxUsers → b < cfg.maxUsers → a ≠ b → ¬Clash (file a) (file b))
    (hnames : ∀ k, names k = file k ∨ names k = []) :
    Steady cfg (start ι file size names number uptime clock) := by
  have hclash : ∀ k x, Clash (names k) x → names k = file k := by
    intro k x h
    exact (hnames k).resolve_right h.1
  refine ⟨⟨fun k => ?_, hshort, nofun, nofun, nofun, nofun, nofun, nofun, nofun, nofun, ?_, ?_, ?_⟩,
    fun _ => .inl rfl⟩
  · exact Nat.le_refl _
  · intro a b ha hb hab h
    exact absurd h (hfile a b ha hb hab)
  · intro a b ha hb hab h
    rw [show (Registry.start ι file size names number uptime clock).names a = file a from
      hclash a _ h] at h
    exact absurd h (hfile a b ha hb hab)
  · intro a b ha hb hab h
    rw [show (Registry.start ι file size names number uptime clock).names a = file a from
      hclash a _ h, show (Registry.start ι file size names number uptime clock).names b = file b from
      hclash b _ h.symm] at h
    exact absurd h (hfile a b ha hb hab)

variable [DecidableEq ι]

/-- A step of a process in `resolve_ucache`. -/
theorem reload (S : Steady cfg s) (inv : RegInv cfg s') (hprocs : s'.procs = s.procs)
    (hreloads : ∀ j, j ≠ i → s'.reloads j = s.reloads j)
    (hi : s.reloads i ≠ .idle ∨ (s.procs i).mayReload = true) : Steady cfg s' := by
  refine ⟨inv, fun j => ?_⟩
  rw [hprocs]
  by_cases hj : j = i
  · subst hj
    right
    rcases hi with hi | hi
    · exact (S.reloading j).resolve_left hi
    · cases hpc : s.procs j <;> first | rfl | (rw [hpc] at hi; cases hi)
  · rw [hreloads j hj]
    exact S.reloading j

theorem register (S : Steady cfg s) (inv : RegInv cfg s') (hi : s.reloads i = .idle) {e : RegEvent ι}
    (h : s.registerStep cfg i e = some s') : Steady cfg s' := by
  obtain ⟨hreloads, hprocs⟩ := RegInv.registerStep_others h
  refine ⟨inv, fun j => ?_⟩
  rw [hreloads]
  by_cases hj : j = i
  · exact .inl (hj ▸ hi)
  · rw [hprocs j hj]
    exact S.reloading j

theorem step (S : Steady cfg s) {e : RegEvent ι} (hok : s.MayStep cfg e)
    (h : s.step cfg e = some s') : Steady cfg s' := by
  have hregister : ∀ i (e : RegEvent ι), (match s.reloads i with
      | .idle => s.registerStep cfg i e
      | _ => none) = some s' → (∀ j, e = .scan j → s.MayStep cfg (.scan i)) →
      (∀ j, e = .lookup j → s.MayStep cfg (.lookup i)) →
      (∀ j, e = .scanSlot j → s.MayStep cfg (.scanSlot i)) → Steady cfg s' := by
    intro i e h hscan hlookup hslot
    split at h
    · rename_i hi
      exact S.register (S.inv.register hscan hlookup hslot h) hi h
    · cases h
  have hreloadTo : ∀ i pc j, j ≠ i → (s.reloadTo i pc).reloads j = s.reloads j :=
    fun i pc j hj => Function.update_of_ne hj ..
  cases e with
  | tick now =>
    simp only [Registry.step] at h
    split at h
    · rw [← Option.some.inj h]
      exact ⟨S.inv.reload rfl rfl rfl rfl S.inv.lock, S.reloading⟩
    · cases h
  | reload i =>
    simp only [Registry.step, reloadStep] at h
    split at h
    · split at h
      · rename_i hmay
        rw [Bool.and_eq_true, Bool.and_eq_true] at hmay
        exact Option.some.inj h ▸
          S.reload (S.inv.reload rfl rfl rfl rfl S.inv.lock) rfl (hreloadTo i _) (.inr hmay.1.1)
      · cases h
    · cases h
  | lockCache i =>
    simp only [Registry.step, reloadStep] at h
    split at h
    · rename_i hpc
      have hi : s.reloads i ≠ .idle := by rw [hpc]; nofun
      split at h
      · exact Option.some.inj h ▸
          S.reload (S.inv.reload rfl rfl rfl rfl S.inv.lock) rfl (hreloadTo i _) (.inl hi)
      · exact Option.some.inj h ▸
          S.reload (S.inv.reload rfl rfl rfl rfl S.inv.lock) rfl (hreloadTo i _) (.inl hi)
    · cases h
  | map i =>
    simp only [Registry.step, reloadStep] at h
    split at h
    · rename_i hpc
      have hi : s.reloads i ≠ .idle := by rw [hpc]; nofun
      -- closing the mapped file gives up the lock of this process only
      have hlock : ∀ j, (s.procs j).holds = true →
          (if s.passLock = some i then none else s.passLock) = some j := by
        intro j hj
        refine RegInv.lock_of_ne ?_ (S.inv.lock j hj)
        rintro rfl
        rw [(S.reloading j).resolve_left hi] at hj
        cases hj
      exact Option.some.inj h ▸
        S.reload (S.inv.reload rfl rfl rfl rfl hlock) rfl (hreloadTo i _) (.inl hi)
    · cases h
  | read i =>
    simp only [Registry.step, reloadStep] at h
    split at h
    · rename_i hpc
      have hi : s.reloads i ≠ .idle := by rw [hpc]; nofun
      split at h
      · exact Option.some.inj h ▸
          S.reload (S.inv.reload rfl rfl rfl rfl S.inv.lock) rfl (hreloadTo i _) (.inl hi)
      · cases h
    · cases h
  | store i =>
    simp only [Registry.step, reloadStep] at h
    split at h
    · rename_i size n v hpc
      have hi : s.reloads i ≠ .idle := by rw [hpc]; nofun
      rw [MayStep, hpc] at hok
      rw [← show s.file n = v from hok, List.take_of_length_le (S.inv.short n)] at h
      exact Option.some.inj h ▸
        S.reload (S.inv.cell (k := n) rfl rfl rfl rfl rfl) rfl (hreloadTo i _) (.inl hi)
    · cases h
  | finish i =>
    simp only [Registry.step, reloadStep] at h
    split at h
    · rename_i hpc
      have hi : s.reloads i ≠ .idle := by rw [hpc]; nofun
      split at h
      · exact Option.some.inj h ▸
          S.reload (S.inv.reload rfl rfl rfl rfl S.inv.lock) rfl (hreloadTo i _) (.inl hi)
      · cases h
    · cases h
  | scan i => exact hregister i _ h (fun _ _ => hok) nofun nofun
  | lookup i => exact hregister i _ h nofun (fun _ _ => hok) nofun
  | scanSlot i => exact hregister i _ h nofun nofun (fun _ _ => hok)
  | enter i | lockPass i | search i | writeNew i | setNew i | substitute i | setUserid i =>
    exact hregister i _ h nofun nofun nofun
  | breakOff i =>
    rw [Registry.step] at h
    rw [← Option.some.inj h]
    refine ⟨S.inv.move rfl rfl rfl rfl (fun j hj hl => RegInv.lock_of_ne hj hl) nofun nofun nofun
      (.inr rfl), fun j => ?_⟩
    by_cases hj : j = i
    · subst hj
      exact .inl (Function.update_self ..)
    · rcases S.reloading j with hr | hr
      · exact .inl ((Function.update_of_ne hj ..).trans hr)
      · right
        rwa [show (((((s.goTo i .gone).reloadTo i .idle).unlockCache i).unlockPass i).procs j) =
          s.procs j from Function.update_of_ne hj ..]

end Steady

section

theorem names_of_setuserid (s : Registry ι) (cfg : RegConfig) (k : Nat) (u : Bytes) :
    (s.setuserid cfg k u).names = s.names ∨
      (s.setuserid cfg k u).names = Function.update s.names k (u.take (idLen + 1)) := by
  unfold setuserid
  split
  · exact .inr rfl
  · exact .inl rfl

variable [DecidableEq ι]

/-- What a step does to the table: a cell gets the name `new`, the name of an account, or what a
reload has read. -/
theorem names_of_step {e : RegEvent ι} (h : s.step cfg e = some s') : s'.names = s.names ∨
    ∃ k x, s'.names = Function.update s.names k (x.take (idLen + 1)) ∧
      ((∃ i u, e = .setNew i ∧ s.procs i = .placed u k ∧ x = newId) ∨
        (∃ i, e = .setUserid i ∧ s.procs i = .substituted x k) ∨
        ∃ i size, e = .store i ∧ s.reloads i = .read size k x) := by
  cases e with
  | store i =>
    simp only [step, reloadStep] at h
    split at h
    · rename_i size n v hpc
      exact .inr ⟨n, v, Option.some.inj h ▸ rfl, .inr (.inr ⟨i, size, rfl, hpc⟩)⟩
    · cases h
  | setNew i =>
    simp only [step, registerStep] at h
    split at h
    · split at h
      · rename_i u slot hpc
        rw [← Option.some.inj h]
        rcases s.goTo i (.allocated u slot) |>.names_of_setuserid cfg slot newId with hs | hs
        · exact .inl hs
        · exact .inr ⟨slot, newId, hs, .inl ⟨i, u, rfl, hpc, rfl⟩⟩
      · cases h
    · cases h
  | setUserid i =>
    simp only [step, registerStep] at h
    split at h
    · split at h
      · rename_i u slot hpc
        rw [← Option.some.inj h]
        rcases s.goTo i (.registered u slot) |>.names_of_setuserid cfg slot u with hs | hs
        · exact .inl hs
        · exact .inr ⟨slot, u, hs, .inr (.inl ⟨i, rfl, hpc⟩)⟩
      · cases h
    · cases h
  | tick | breakOff =>
    simp only [step] at h
    (try split at h)
    all_goals first
      | (cases h; done)
      | exact .inl (Option.some.inj h ▸ rfl)
  | reload | lockCache | map | read | finish =>
    simp only [step, reloadStep] at h
    split at h <;> (try split at h)
    all_goals first
      | (cases h; done)
      | exact .inl (Option.some.inj h ▸ rfl)
  | enter | scan | lookup | lockPass | search | scanSlot | writeNew | substitute =>
    simp only [step, registerStep] at h
    split at h <;> (try split at h) <;> (try split at h) <;> (try split at h)
    all_goals first
      | (cases h; done)
      | exact .inl (Option.some.inj h ▸ rfl)

/-- A run that goes well, in which in addition only one cell at a time has the name `new`. -/
structure OneName (cfg : RegConfig) (s : Registry ι) : Prop where
  steady : Steady cfg s
  oneNew : ∀ a b, a < cfg.maxUsers → b < cfg.maxUsers → a ≠ b →
    strcasecmpEq (s.names a) newId = true → strcasecmpEq (s.names b) newId = false

theorem OneName.step (N : OneName cfg s) {e : RegEvent ι} (hok : s.MayStep cfg e ∧ s.OneNew cfg e)
    (h : s.step cfg e = some s') : OneName cfg s' := by
  refine ⟨N.steady.step hok.1 h, ?_⟩
  rcases names_of_step h with hsame | ⟨k, x, hset, hkind⟩
  · rw [hsame]
    exact N.oneNew
  -- if the cell gets the name `new`, no other cell has it
  have hnew : strcasecmpEq (x.take (idLen + 1)) newId = true →
      ∀ a < cfg.maxUsers, a ≠ k → strcasecmpEq (s.names a) newId = false := by
    intro hx
    rcases hkind with ⟨i, u, rfl, hpc, rfl⟩ | ⟨i, rfl, hpc⟩ | ⟨i, size, rfl, hpc⟩
    · have hone := hok.2
      rw [OneNew, hpc] at hone
      exact hone
    · have htold : (s.procs i).told? = some x := by rw [hpc]; rfl
      have hlen := (N.steady.inv.userid i x (RegPc.userid_of_told htold)).2
      rw [List.take_of_length_le (Nat.le_succ_of_le hlen), N.steady.inv.told i x htold] at hx
      cases hx
    · obtain ⟨hmay, hone⟩ := hok
      rw [MayStep, hpc] at hmay
      rw [OneNew, hpc] at hone
      have hlen := N.steady.inv.short k
      rw [show s.file k = x from hmay] at hlen
      rw [List.take_of_length_le hlen] at hx
      exact hone hx
  intro a b ha hb hab haNew
  rw [hset] at haNew ⊢
  by_cases hak : a = k
  · subst hak
    rw [Function.update_self] at haNew
    rw [Function.update_of_ne (Ne.symm hab)]
    exact hnew haNew b hb (Ne.symm hab)
  · rw [Function.update_of_ne hak] at haNew
    by_cases hbk : b = k
    · subst hbk
      rw [Function.update_self, Bool.eq_false_iff]
      intro hbNew
      rw [hnew hbNew a ha hak] at haNew
      cases haNew
    · rw [Function.update_of_ne hbk]
      exact N.oneNew a b ha hb hab haNew

/-- In every run that goes well, of any number of sessions that register and of reloads: a slot is
given to one account only; the cells of the table have different names, up to case, unless they are
the `new` of slots that are being registered; no session gets an account with a name that another
one has been told to be free. -/
theorem accounts_distinct_but_new {file names : Nat → Bytes} {size number : Nat}
    {uptime clock : Int} (hshort : ∀ k, (file k).length ≤ idLen + 1)
    (hfile : ∀ a b, a < cfg.maxUsers → b < cfg.maxUsers → a ≠ b → ¬Clash (file a) (file b))
    (hnames : ∀ k, names k = file k ∨ names k = [])
    (h : Reach (step cfg) (MayStep cfg) (start ι file size names number uptime clock) s) :
    (∀ k, s.given k ≤ 1) ∧
      (∀ a b, a < cfg.maxUsers → b < cfg.maxUsers → a ≠ b → Clash (s.names a) (s.names b) →
        strcasecmpEq (s.names a) newId = true) ∧
      ∀ i j u v, i ≠ j → (s.procs i).told? = some u → (s.procs j).told? = some v →
        strcasecmpEq u v = false := by
  have hsteady : Steady cfg s :=
    h.invariant _ (.start hshort hfile hnames) fun _ _ _ S hok hs => S.step hok hs
  refine ⟨fun k => (hsteady.inv.given k).trans ?_, hsteady.inv.names, hsteady.inv.toldOnce⟩
  split <;> decide

/-- Four slots, and a list of names that are refused. -/
def demoConfig : RegConfig := ⟨4, fun u => strcasecmpEq u newId⟩

/-- One account; the table is empty and old. -/
def demoStart : Registry (Fin 2) :=
  start (Fin 2) (fun k => if k = 0 then bytes "SYSOP" else []) 1 (fun _ => []) 0 0 100000

def demoReload {ι : Type} (i : ι) : List (RegEvent ι) :=
  [.reload i, .lockCache i, .map i, .read i, .store i, .finish i]

/-- The table has `n` cells: the name is checked; the slot is taken and the account is written. -/
def demoCheck {ι : Type} (i : ι) (n : Nat) (userid : Bytes) : List (RegEvent ι) :=
  .enter i userid :: List.replicate (n + 1) (.scan i)

def demoTake {ι : Type} (i : ι) (n : Nat) : List (RegEvent ι) :=
  [.lockPass i, .search i] ++ List.replicate (n + 1) (.scanSlot i) ++
    [.writeNew i, .setNew i, .substitute i, .setUserid i]

/-- Two users register one after the other. -/
def demoRegister {ι : Type} (i j : ι) : List (RegEvent ι) :=
  demoReload i ++ demoCheck i 1 (bytes "Ann") ++ demoTake i 1 ++ demoCheck j 2 (bytes "Bob") ++
    demoTake j 2

/-- Two users are told that a name is free before one of them has a slot. -/
def demoSameName {ι : Type} (i j : ι) : List (RegEvent ι) :=
  demoReload i ++ demoCheck i 1 (bytes "Ann") ++ demoCheck j 1 (bytes "ann") ++ demoTake i 1 ++
    demoTake j 2

end

end Registry

end ArgoBbs

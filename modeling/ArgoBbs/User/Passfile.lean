import ArgoBbs.Lib.CString
import ArgoBbs.Lib.Merge
import ArgoBbs.Lib.Reach
import ArgoBbs.Permissions
import Mathlib.Logic.Function.Basic

/-! # The records of the users

An operation reads a whole record of `PASSFILE`, waits for input, and writes the whole record back
(`u_exit` in `main.c`, `uinfo_query` in `userinfo.c`, `x_level`, `m_ordainBM`, `m_retireBM`,
`press_register_now` and `d_user` in `maintain.c`). `substitute_record` takes a lock for the write
alone. A session reads some of the fields again before it writes (`set_safe_record` in `stuff.c`).
-/

namespace ArgoBbs

inductive FieldKind
  | bit
  | flags
  | number
  | text

def FieldKind.Value : FieldKind → Type
  | .bit => Bool
  | .flags => BitVec 8
  | .number => Int
  | .text => Bytes

instance : (k : FieldKind) → DecidableEq k.Value
  | .bit => inferInstanceAs (DecidableEq Bool)
  | .flags => inferInstanceAs (DecidableEq (BitVec 8))
  | .number => inferInstanceAs (DecidableEq Int)
  | .text => inferInstanceAs (DecidableEq Bytes)

/-- The fields of `struct userec`; those of `userlevel` are its bits. -/
inductive UserField
  | userid
  | firstlogin
  | lasthost
  | numlogins
  | numposts
  | flags
  | passwd
  | username
  | ident
  | termtype
  | reginfo
  | perm (bit : Fin 32)
  | usertitle
  | lastlogin
  | lastlogout
  | stay
  | realname
  | address
  | email
  | nummails
  | lastjustify
  | gender
  | birthyear
  | birthmonth
  | birthday
  | signature
  | userdefine
  | notedate
  | noteline
  deriving DecidableEq

namespace UserField

def kind : UserField → FieldKind
  | .perm _ => .bit
  | .flags => .flags
  | .userid | .lasthost | .passwd | .username | .ident | .termtype | .reginfo | .realname
  | .address | .email | .gender => .text
  | _ => .number

def isPerm : UserField → Bool
  | .perm _ => true
  | _ => false

/-- What `set_safe_record` reads again. -/
def isSafe : UserField → Bool
  | .numposts | .perm _ | .numlogins | .stay | .usertitle | .reginfo => true
  | _ => false

/-- What `uinfo_query` takes over from `currentuser` after `set_safe_record`. -/
def isTakenOver : UserField → Bool
  | .numposts | .perm _ | .numlogins | .stay | .usertitle => true
  | _ => false

/-- What a user can change in `uinfo_query`. -/
def isAsked : UserField → Bool
  | .username | .realname | .address | .email | .termtype | .birthyear | .birthmonth | .birthday
  | .gender | .passwd | .signature => true
  | _ => false

end UserField

/-- `struct userec` -/
abbrev Userec := (f : UserField) → f.kind.Value

namespace Userec

/-- `memset(&user, 0, sizeof(user))` -/
def zero : Userec := fun f =>
  match f.kind with
  | .bit => false
  | .flags => (0 : BitVec 8)
  | .number => (0 : Int)
  | .text => ([] : Bytes)

def name (u : Userec) : Bytes := u .userid

def flags (u : Userec) : BitVec 8 := u .flags

def stay (u : Userec) : Int := u .stay

def userlevel (u : Userec) (i : Fin 32) : Bool := u (.perm i)

def hasPerm (u : Userec) (mask : BitVec 32) : Bool :=
  (List.finRange 32).any fun i => mask.getLsbD i && u.userlevel i

def setLevel (u : Userec) (level : Fin 32 → Bool) : Userec
  | .perm i => level i
  | f => u f

theorem setLevel_of_not_perm {u : Userec} {level : Fin 32 → Bool} {f : UserField}
    (h : f.isPerm = false) : u.setLevel level f = u f := by
  cases f with
  | perm i => cases h
  | _ => rfl

/-- The bits of `mask` are set. -/
def grant (u : Userec) (mask : BitVec 32) : Userec :=
  u.setLevel fun i => u.userlevel i || mask.getLsbD i

/-- The bits of `mask` are cleared. -/
def revoke (u : Userec) (mask : BitVec 32) : Userec :=
  u.setLevel fun i => u.userlevel i && !mask.getLsbD i

end Userec

/-- An administrator's operation on the record of a user, with what else it depends on: the level
chosen in `setperms` and whether the administrator is a sysop; the number of the user's boards; the
time, whether `AUTHHOST` is defined and whether the user is in `boards/.DENYLIST`. -/
inductive AdminOp
  | xLevel (newlevel : BitVec 32) (sysop : Bool)
  | ordainBM
  | retireBM (bmCount : Nat)
  | pressRegisterNow (now : Int) (authhost denied : Bool)
  | dUser

namespace AdminOp

/-- The record that the operation writes after it has read `u`, if it writes one. -/
def apply (u : Userec) : AdminOp → Option Userec
  | .xLevel newlevel sysop =>
    let level (i : Fin 32) := newlevel.getLsbD i && (sysop || !permSysop.getLsbD i)
    if ∀ i, level i = u.userlevel i then none else some (u.setLevel level)
  | .ordainBM => if u.hasPerm permBoards then none else some (u.grant permBoards)
  | .retireBM bmCount =>
    if bmCount = 0 ∧ !u.hasPerm permOboards ∧ !u.hasPerm permSysop then some (u.revoke permBoards)
    else none
  | .pressRegisterNow now authhost denied =>
    let u : Userec := Function.update u .lastjustify now
    let u := u.grant permDefault
    let u := if authhost then u.grant permWelcome else u
    some (if denied then u.revoke permPost else u)
  | .dUser => some fun
    | .perm _ => false
    | .address | .username | .realname | .termtype | .userid => []
    | f => u f

/-- The operation writes no other field than `userlevel`. -/
def isLevelOnly : AdminOp → Bool
  | .xLevel .. | .ordainBM | .retireBM _ => true
  | _ => false

theorem apply_of_levelOnly {u v : Userec} {op : AdminOp} {f : UserField}
    (hop : op.isLevelOnly = true) (h : op.apply u = some v) (hf : f.isPerm = false) :
    v f = u f := by
  cases op with
  | xLevel newlevel sysop =>
    simp only [apply] at h
    split at h
    · cases h
    · rw [← Option.some.inj h, Userec.setLevel_of_not_perm hf]
  | ordainBM =>
    simp only [apply] at h
    split at h
    · cases h
    · rw [← Option.some.inj h, Userec.grant, Userec.setLevel_of_not_perm hf]
  | retireBM bmCount =>
    simp only [apply] at h
    split at h
    · rw [← Option.some.inj h, Userec.revoke, Userec.setLevel_of_not_perm hf]
    · cases h
  | pressRegisterNow | dUser => cases hop

end AdminOp

/-- The copy of a record that an operation has: what it has read from the slot and what it would
write. The numbers are those of the slot when it was read: of the writes (of those before the last
`set_safe_record`, if there was one), of the writes that are not only to `userlevel`, and how often
the slot has been given to a new user. -/
structure UserCopy where
  slot : Nat
  read : Userec
  now : Userec
  writes : Nat
  others : Nat
  given : Nat

/-- How far an operation is: a session with `currentuser`; in `uinfo_query`, with `newinfo`; there,
behind `set_safe_record`; in `u_exit`, behind `set_safe_record`; an administrator's operation that
has read the record; `new_register`, with its slot. -/
inductive UserProc
  | idle
  | session (currentuser : UserCopy)
  | query (currentuser newinfo : UserCopy)
  | queried (currentuser newinfo : UserCopy)
  | leaving (currentuser : UserCopy)
  | admin (lookupuser : UserCopy)
  | registering (newuser : UserCopy)

/-- The copy that is written next. -/
def UserProc.copy : UserProc → Option UserCopy
  | .idle => none
  | .session c | .query _ c | .queried _ c | .leaving c | .admin c | .registering c => some c

/-- `PASSFILE`, the names in `uidshm`, and the operations. `meant` is what the file would be if
every operation had written only the fields that it changed, and only while the slot belonged to the
same user. -/
structure Passfile (ι : Type) where
  file : Nat → Userec
  names : Nat → Bytes
  meant : Nat → Userec
  writes : Nat → Nat
  others : Nat → Nat
  given : Nat → Nat
  proc : ι → UserProc

/-- A user logs in; the session changes a field of `currentuser`; `uinfo_query` begins, gets an
answer, is given up, is confirmed, writes; `u_exit` reads again what is safe, writes; an
administrator names a user; the operation is done; `getnewuserid` takes a slot; `new_register`
writes the record; an operation is broken off. -/
inductive PassEvent (ι : Type)
  | login (i : ι) (slot : Nat)
  | edit (i : ι) (f : UserField) (value : f.kind.Value)
  | query (i : ι)
  | answer (i : ι) (f : UserField) (value : f.kind.Value)
  | cancel (i : ι)
  | confirm (i : ι)
  | writeQuery (i : ι)
  | exit (i : ι) (pager cloak : Bool) (stay now : Int) (lastlogin : Option Int)
  | writeExit (i : ι)
  | adminRead (i : ι) (slot : Nat)
  | adminWrite (i : ι) (op : AdminOp)
  | alloc (i : ι) (slot : Nat) (now : Int)
  | register (i : ι) (newuser : Userec)
  | breakOff (i : ι)

namespace UserCopy

def set (c : UserCopy) (f : UserField) (value : f.kind.Value) : UserCopy :=
  { c with now := Function.update c.now f value }

/-- What `u_exit` changes; `setflags` is for the pager (bit 0) and the cloak (bit 1). -/
def leave (c : UserCopy) (pager cloak : Bool) (stay now : Int) (lastlogin : Option Int) : UserCopy :=
  let flags : BitVec 8 := (c.now.flags &&& 0xfc) |||
    ((if pager then 1 else 0) ||| (if cloak then 2 else 0))
  let c := c.set .flags flags
  let c := c.set .stay (c.now.stay + stay)
  let c := c.set .lastlogout now
  match lastlogin with
  | some lastlogin => c.set .lastlogin lastlogin
  | none => c

end UserCopy

namespace Passfile
variable {ι : Type}

def start (ι : Type) (file : Nat → Userec) (names : Nat → Bytes) : Passfile ι :=
  ⟨file, names, file, fun _ => 0, fun _ => 0, fun _ => 0, fun _ => .idle⟩

def goTo [DecidableEq ι] (s : Passfile ι) (i : ι) (p : UserProc) : Passfile ι :=
  { s with proc := Function.update s.proc i p }

/-- `get_record` -/
def load (s : Passfile ι) (slot : Nat) : UserCopy :=
  ⟨slot, s.file slot, s.file slot, s.writes slot, s.others slot, s.given slot⟩

/-- Fields are read again. -/
def reread (s : Passfile ι) (c : UserCopy) (fields : UserField → Bool) : UserCopy :=
  { c with
    read := fun f => if fields f then s.file c.slot f else c.read f
    now := fun f => if fields f then s.file c.slot f else c.now f
    writes := s.writes c.slot }

/-- `substitute_record` of `record` for the slot of the copy. -/
def substitute (s : Passfile ι) (c : UserCopy) (record : Userec) (levelOnly : Bool) : Passfile ι :=
  { s with
    file := Function.update s.file c.slot record
    meant := Function.update s.meant c.slot
      (if c.given = s.given c.slot then merge c.read record (s.meant c.slot) else s.meant c.slot)
    writes := Function.update s.writes c.slot (s.writes c.slot + 1)
    others := Function.update s.others c.slot (s.others c.slot + (!levelOnly).toNat) }

def setuserid (s : Passfile ι) (slot : Nat) (userid : Bytes) : Passfile ι :=
  { s with names := Function.update s.names slot userid }

/-- `getnewuserid` writes a record with the name `new`. -/
def give (s : Passfile ι) (slot : Nat) (now : Int) : Passfile ι :=
  let record : Userec :=
    Function.update (Function.update Userec.zero .userid (bytes "new")) .lastlogin now
  { s with
    file := Function.update s.file slot record
    names := Function.update s.names slot (bytes "new")
    meant := Function.update s.meant slot record
    writes := Function.update s.writes slot (s.writes slot + 1)
    others := Function.update s.others slot (s.others slot + 1)
    given := Function.update s.given slot (s.given slot + 1) }

def step [DecidableEq ι] (s : Passfile ι) : PassEvent ι → Option (Passfile ι)
  | .login i slot =>
    match s.proc i with
    | .idle =>
      if (s.file slot).name = [] then none else some (s.goTo i (.session (s.load slot)))
    | _ => none
  | .edit i f value =>
    match s.proc i with
    | .session c => some (s.goTo i (.session (c.set f value)))
    | _ => none
  | .query i =>
    match s.proc i with
    | .session c => some (s.goTo i (.query c c))
    | _ => none
  | .answer i f value =>
    match s.proc i with
    | .query c newinfo =>
      if f.isAsked then some (s.goTo i (.query c (newinfo.set f value))) else none
    | _ => none
  | .cancel i =>
    match s.proc i with
    | .query c _ => some (s.goTo i (.session c))
    | _ => none
  | .confirm i =>
    match s.proc i with
    | .query _ newinfo =>
      -- `memcpy(u, &newinfo)`, `set_safe_record` on `currentuser`, then not all of it to `newinfo`
      some (s.goTo i (.queried (s.reread newinfo (·.isSafe)) (s.reread newinfo (·.isTakenOver))))
    | _ => none
  | .writeQuery i =>
    match s.proc i with
    | .queried c newinfo =>
      let s := s.substitute newinfo newinfo.now false
      some (s.goTo i (.session { s.load newinfo.slot with now := c.now, given := newinfo.given }))
    | _ => none
  | .exit i pager cloak stay now lastlogin =>
    match s.proc i with
    | .session c | .query c _ =>
      some (s.goTo i (.leaving ((s.reread c (·.isSafe)).leave pager cloak stay now lastlogin)))
    | _ => none
  | .writeExit i =>
    match s.proc i with
    | .leaving c => some ((s.substitute c c.now false).goTo i .idle)
    | _ => none
  | .adminRead i slot =>
    match s.proc i with
    | .idle => if (s.file slot).name = [] then none else some (s.goTo i (.admin (s.load slot)))
    | _ => none
  | .adminWrite i op =>
    match s.proc i with
    | .admin c =>
      match op.apply c.read with
      | some record =>
        let s := (s.substitute c record op.isLevelOnly).goTo i .idle
        some (match op with
          | .dUser => s.setuserid c.slot []
          | _ => s)
      | none => some (s.goTo i .idle)
    | _ => none
  | .alloc i slot now =>
    match s.proc i with
    | .idle =>
      if s.names slot = [] then
        let s := s.give slot now
        some (s.goTo i (.registering (s.load slot)))
      else none
    | _ => none
  | .register i newuser =>
    match s.proc i with
    | .registering c =>
      some (((s.substitute c newuser false).setuserid c.slot newuser.name).goTo i .idle)
    | _ => none
  | .breakOff i => some (s.goTo i .idle)

/-- No write has come in between since the copy was read, or read again; and since it was read, none
but to `userlevel`. -/
def undisturbed (s : Passfile ι) (c : UserCopy) : Bool :=
  c.writes == s.writes c.slot && c.others == s.others c.slot

/-- An operation writes only an undisturbed copy. -/
def MayWrite (s : Passfile ι) : PassEvent ι → Prop
  | .writeQuery i | .writeExit i | .adminWrite i _ | .register i _ =>
    (s.proc i).copy.all s.undisturbed
  | _ => True

instance (s : Passfile ι) : (e : PassEvent ι) → Decidable (s.MayWrite e)
  | .writeQuery _ | .writeExit _ | .adminWrite .. | .register .. =>
    inferInstanceAs (Decidable (_ = true))
  | .login .. | .edit .. | .query _ | .answer .. | .cancel _ | .confirm _ | .exit .. | .adminRead ..
  | .alloc .. | .breakOff _ => isTrue trivial

/-- What the numbers of a copy say about it. -/
structure Tracks (s : Passfile ι) (c : UserCopy) : Prop where
  writes_le : c.writes ≤ s.writes c.slot
  others_le : c.others ≤ s.others c.slot
  level : c.writes = s.writes c.slot → ∀ f : UserField, f.isPerm = true → s.file c.slot f = c.read f
  rest : c.others = s.others c.slot →
    c.given = s.given c.slot ∧ ∀ f : UserField, f.isPerm = false → s.file c.slot f = c.read f

variable {s s' : Passfile ι} {i : ι} {c d : UserCopy} {record : Userec} {levelOnly : Bool}

theorem Tracks.read_eq (T : s.Tracks c) (h : s.undisturbed c = true) :
    c.given = s.given c.slot ∧ s.file c.slot = c.read := by
  simp only [undisturbed, Bool.and_eq_true, beq_iff_eq] at h
  obtain ⟨hgiven, hrest⟩ := T.rest h.2
  refine ⟨hgiven, funext fun f => ?_⟩
  cases hf : f.isPerm with
  | true => exact T.level h.1 f hf
  | false => exact hrest f hf

theorem tracks_load (s : Passfile ι) (slot : Nat) : s.Tracks (s.load slot) :=
  ⟨Nat.le_refl _, Nat.le_refl _, fun _ _ _ => rfl, fun _ => ⟨rfl, fun _ _ => rfl⟩⟩

/-- What an operation would write does not matter. -/
theorem Tracks.of_read (T : s.Tracks c) (now : Userec) : s.Tracks { c with now } :=
  ⟨T.writes_le, T.others_le, T.level, T.rest⟩

theorem Tracks.setuserid (T : s.Tracks c) (slot : Nat) (userid : Bytes) :
    (s.setuserid slot userid).Tracks c :=
  ⟨T.writes_le, T.others_le, T.level, T.rest⟩

theorem Tracks.goTo [DecidableEq ι] (T : s.Tracks c) (i : ι) (p : UserProc) : (s.goTo i p).Tracks c :=
  ⟨T.writes_le, T.others_le, T.level, T.rest⟩

theorem Tracks.leave (T : s.Tracks c) (pager cloak : Bool) (stay now : Int)
    (lastlogin : Option Int) : s.Tracks (c.leave pager cloak stay now lastlogin) := by
  cases lastlogin with
  | none => exact T.of_read _
  | some lastlogin => exact T.of_read _

theorem Tracks.reread (T : s.Tracks c) {fields : UserField → Bool}
    (hperm : ∀ i, fields (.perm i) = true) : s.Tracks (s.reread c fields) := by
  refine ⟨Nat.le_refl _, T.others_le, fun _ f hf => ?_, fun h => ⟨(T.rest h).1, fun f hf => ?_⟩⟩
  · cases f with
    | perm i => exact (if_pos (hperm i)).symm
    | _ => cases hf
  · change _ = if _ then _ else _
    split
    · rfl
    · exact (T.rest h).2 f hf

/-- A write to the slot of another operation is noticed by the numbers. -/
theorem Tracks.substitute (T : s.Tracks d) (hfile : s.file c.slot = c.read)
    (hlevel : levelOnly = true → ∀ f : UserField, f.isPerm = false → record f = c.read f) :
    (s.substitute c record levelOnly).Tracks d := by
  by_cases hslot : d.slot = c.slot
  · have hnewFile : (s.substitute c record levelOnly).file d.slot = record := by
      rw [hslot]
      exact Function.update_self ..
    have hnewWrites : (s.substitute c record levelOnly).writes d.slot = s.writes d.slot + 1 := by
      rw [hslot]
      exact Function.update_self ..
    have hnewOthers : (s.substitute c record levelOnly).others d.slot =
        s.others d.slot + (!levelOnly).toNat := by
      rw [hslot]
      exact Function.update_self ..
    have hwrites := T.writes_le
    have hothers := T.others_le
    refine ⟨by omega, by omega, fun h => by omega, fun h => ?_⟩
    cases levelOnly with
    | true =>
      obtain ⟨hgiven, hrest⟩ := T.rest (h.trans hnewOthers)
      refine ⟨hgiven, fun f hf => ?_⟩
      rw [hnewFile, hlevel rfl f hf, ← hfile, ← hslot]
      exact hrest f hf
    | false =>
      rw [Bool.not_false, Bool.toNat_true] at hnewOthers
      omega
  · refine ⟨?_, ?_, ?_, ?_⟩
    all_goals
      simp only [Passfile.substitute, Function.update_of_ne hslot]
    · exact T.writes_le
    · exact T.others_le
    · exact T.level
    · exact T.rest

theorem Tracks.give (T : s.Tracks d) (slot : Nat) (now : Int) : (s.give slot now).Tracks d := by
  by_cases hslot : d.slot = slot
  · have hnewWrites : (s.give slot now).writes d.slot = s.writes d.slot + 1 := by
      rw [hslot]
      exact Function.update_self ..
    have hnewOthers : (s.give slot now).others d.slot = s.others d.slot + 1 := by
      rw [hslot]
      exact Function.update_self ..
    have hwrites := T.writes_le
    have hothers := T.others_le
    exact ⟨by omega, by omega, fun h => by omega, fun h => by omega⟩
  · refine ⟨?_, ?_, ?_, ?_⟩
    all_goals
      simp only [Passfile.give, Function.update_of_ne hslot]
    · exact T.writes_le
    · exact T.others_le
    · exact T.level
    · exact T.rest

end Passfile

/-- The copies from which an operation may go on. -/
def UserProc.copies : UserProc → List UserCopy
  | .idle => []
  | .query c newinfo => [c, newinfo]
  | .session c | .queried _ c | .leaving c | .admin c | .registering c => [c]

namespace Passfile
variable {ι : Type} {s s' : Passfile ι} {i : ι} {c d : UserCopy} {p : UserProc}

theorem goTo_self [DecidableEq ι] : (s.goTo i p).proc i = p := Function.update_self ..

theorem goTo_of_ne [DecidableEq ι] {j : ι} (h : j ≠ i) : (s.goTo i p).proc j = s.proc j :=
  Function.update_of_ne h ..

theorem undisturbed_of_copy (h : (s.proc i).copy.all s.undisturbed = true) (hp : s.proc i = p)
    (hc : p.copy = some c) : s.undisturbed c = true := by
  rwa [hp, hc] at h

structure PassInv (s : Passfile ι) : Prop where
  meant : s.file = s.meant
  tracks : ∀ i, ∀ c ∈ (s.proc i).copies, s.Tracks c

namespace PassInv

theorem goTo [DecidableEq ι] (I : PassInv s) (hp : ∀ c ∈ p.copies, s.Tracks c) :
    PassInv (s.goTo i p) := by
  refine ⟨I.meant, fun j c hc => ?_⟩
  by_cases hj : j = i
  · subst hj
    rw [goTo_self] at hc
    exact (hp c hc).goTo j p
  · rw [goTo_of_ne hj] at hc
    exact (I.tracks j c hc).goTo i p

theorem setuserid (I : PassInv s) (slot : Nat) (userid : Bytes) :
    PassInv (s.setuserid slot userid) :=
  ⟨I.meant, fun j c hc => (I.tracks j c hc).setuserid slot userid⟩

theorem give (I : PassInv s) (slot : Nat) (now : Int) : PassInv (s.give slot now) := by
  refine ⟨?_, fun j c hc => (I.tracks j c hc).give slot now⟩
  simp only [Passfile.give, I.meant]

/-- An operation writes a copy that is undisturbed. -/
theorem substitute (I : PassInv s) (record : Userec) (levelOnly : Bool) (T : s.Tracks c)
    (h : s.undisturbed c = true)
    (hlevel : levelOnly = true → ∀ f : UserField, f.isPerm = false → record f = c.read f) :
    PassInv (s.substitute c record levelOnly) := by
  obtain ⟨hgiven, hfile⟩ := T.read_eq h
  refine ⟨?_, fun j d hd => (I.tracks j d hd).substitute hfile hlevel⟩
  simp only [Passfile.substitute, if_pos hgiven, ← I.meant, hfile, merge_self]

/-- The copies of an operation are tracked. -/
theorem of_proc (I : PassInv s) (hp : s.proc i = p) : ∀ c ∈ p.copies, s.Tracks c := hp ▸ I.tracks i

theorem step [DecidableEq ι] (I : PassInv s) (hC : s.MayWrite e) (h : s.step e = some s') :
    PassInv s' := by
  cases e with
  | login i slot | adminRead i slot =>
    simp only [Passfile.step] at h
    split at h
    · split at h
      · cases h
      · rw [← Option.some.inj h]
        refine I.goTo fun c hc => ?_
        rw [List.mem_singleton.mp hc]
        exact s.tracks_load slot
    · cases h
  | edit i f value =>
    simp only [Passfile.step] at h
    split at h
    · rename_i c hproc
      have T := I.of_proc hproc c (List.mem_singleton.mpr rfl)
      rw [← Option.some.inj h]
      refine I.goTo fun d hd => ?_
      rw [List.mem_singleton.mp hd]
      exact T.of_read _
    · cases h
  | query i =>
    simp only [Passfile.step] at h
    split at h
    · rename_i c hproc
      have T := I.of_proc hproc c (List.mem_singleton.mpr rfl)
      rw [← Option.some.inj h]
      refine I.goTo fun d hd => ?_
      rcases List.mem_pair.mp hd with rfl | rfl <;> exact T
    · cases h
  | answer i f value =>
    simp only [Passfile.step] at h
    split at h
    · rename_i c newinfo hproc
      have T := I.of_proc hproc
      split at h
      · rw [← Option.some.inj h]
        refine I.goTo fun d hd => ?_
        rcases List.mem_pair.mp hd with rfl | rfl
        · exact T d (List.mem_pair.mpr (.inl rfl))
        · exact (T newinfo (List.mem_pair.mpr (.inr rfl))).of_read _
      · cases h
    · cases h
  | cancel i =>
    simp only [Passfile.step] at h
    split at h
    · rename_i c newinfo hproc
      rw [← Option.some.inj h]
      refine I.goTo fun d hd => ?_
      rw [List.mem_singleton.mp hd]
      exact I.of_proc hproc c (List.mem_pair.mpr (.inl rfl))
    · cases h
  | confirm i =>
    simp only [Passfile.step] at h
    split at h
    · rename_i c newinfo hproc
      have T := I.of_proc hproc newinfo (List.mem_pair.mpr (.inr rfl))
      rw [← Option.some.inj h]
      refine I.goTo fun d hd => ?_
      rw [List.mem_singleton.mp hd]
      exact T.reread fun _ => rfl
    · cases h
  | writeQuery i =>
    simp only [Passfile.step] at h
    split at h
    · rename_i c newinfo hproc
      have T := I.of_proc hproc newinfo (List.mem_singleton.mpr rfl)
      have hundisturbed : s.undisturbed newinfo = true := undisturbed_of_copy hC hproc rfl
      have I' := I.substitute newinfo.now false T hundisturbed nofun
      have hgiven := (T.read_eq hundisturbed).1
      rw [← Option.some.inj h]
      refine I'.goTo fun d hd => ?_
      rw [List.mem_singleton.mp hd]
      exact ⟨Nat.le_refl _, Nat.le_refl _, fun _ _ _ => rfl, fun _ => ⟨hgiven, fun _ _ => rfl⟩⟩
    · cases h
  | exit i pager cloak stay now lastlogin =>
    have hleave (c : UserCopy) (T : s.Tracks c) : PassInv (s.goTo i
        (.leaving ((s.reread c (·.isSafe)).leave pager cloak stay now lastlogin))) := by
      refine I.goTo fun d hd => ?_
      rw [List.mem_singleton.mp hd]
      exact (T.reread fun _ => rfl).leave ..
    simp only [Passfile.step] at h
    split at h
    · rename_i c hproc
      exact Option.some.inj h ▸ hleave c (I.of_proc hproc c (List.mem_singleton.mpr rfl))
    · rename_i c newinfo hproc
      exact Option.some.inj h ▸ hleave c (I.of_proc hproc c (List.mem_pair.mpr (.inl rfl)))
    · cases h
  | writeExit i =>
    simp only [Passfile.step] at h
    split at h
    · rename_i c hproc
      have T := I.of_proc hproc c (List.mem_singleton.mpr rfl)
      have I' := I.substitute c.now false T
        (undisturbed_of_copy hC hproc rfl) nofun
      exact Option.some.inj h ▸ I'.goTo nofun
    · cases h
  | adminWrite i op =>
    simp only [Passfile.step] at h
    split at h
    · rename_i c hproc
      split at h
      · rename_i record hrecord
        have T := I.of_proc hproc c (List.mem_singleton.mpr rfl)
        have I' := I.substitute record op.isLevelOnly T
          (undisturbed_of_copy hC hproc rfl)
          fun hop f hf => AdminOp.apply_of_levelOnly hop hrecord hf
        have I' := I'.goTo (i := i) (p := .idle) nofun
        rw [← Option.some.inj h]
        split
        · exact I'.setuserid ..
        · exact I'
      · exact Option.some.inj h ▸ I.goTo nofun
    · cases h
  | alloc i slot now =>
    simp only [Passfile.step] at h
    split at h
    · split at h
      · rw [← Option.some.inj h]
        refine (I.give slot now).goTo fun c hc => ?_
        rw [List.mem_singleton.mp hc]
        exact tracks_load _ slot
      · cases h
    · cases h
  | register i newuser =>
    simp only [Passfile.step] at h
    split at h
    · rename_i c hproc
      have T := I.of_proc hproc c (List.mem_singleton.mpr rfl)
      have I' := I.substitute newuser false T
        (undisturbed_of_copy hC hproc rfl) nofun
      exact Option.some.inj h ▸ (I'.setuserid ..).goTo nofun
    · cases h
  | breakOff i => exact Option.some.inj h ▸ I.goTo nofun

end PassInv

/-- In every run in which only undisturbed copies are written, `PASSFILE` is what the operations
meant: each has written the fields that it changed and no others, into the record of its user. -/
theorem records_as_meant [DecidableEq ι] (file : Nat → Userec) (names : Nat → Bytes)
    (h : Reach step MayWrite (start ι file names) s) : s.file = s.meant := by
  refine (h.invariant PassInv ⟨rfl, fun _ _ hc => ?_⟩ fun _ e _ I hC he => I.step hC he).meant
  cases hc

/-- A user with the permission to post. -/
def demoUser : Userec := Userec.grant (Function.update Userec.zero .userid (bytes "Ann")) permPost

/-- A session; meanwhile an administrator takes all permissions away. -/
def demoSession {ι : Type} (i j : ι) : List (PassEvent ι) :=
  [.login i 1, .adminRead j 1, .adminWrite j (.xLevel 0 true), .exit i true false 60 100 none,
    .writeExit i]

theorem records_as_meant_session : ∃ s : Passfile (Fin 2),
    (s.file 1).hasPerm permPost = false ∧ (s.file 1).stay = 60 ∧ s.file = s.meant := by
  have hrun : Reach.Meets step MayWrite (start (Fin 2) (fun _ => demoUser) fun _ => [])
      (demoSession 0 1) := by decide +kernel
  obtain ⟨s, hs, h⟩ := Reach.of_meets _ hrun
  have hend : ((demoSession 0 1).foldlM step (start (Fin 2) (fun _ => demoUser) fun _ => [])).map
      (fun s => ((s.file 1).hasPerm permPost, (s.file 1).stay)) = some (false, 60) := by
    decide +kernel
  rw [hs] at hend
  have hend := Prod.mk.inj (Option.some.inj hend)
  exact ⟨s, hend.1, hend.2, records_as_meant _ _ h⟩

/-- One administrator appoints the user, another takes all permissions away in the meantime. -/
def demoAdmins {ι : Type} (i j : ι) : List (PassEvent ι) :=
  [.adminRead i 1, .adminRead j 1, .adminWrite j (.xLevel 0 true), .adminWrite i .ordainBM]

/-- The permission to post comes back. -/
theorem records_not_as_meant : ¬∀ (file : Nat → Userec) (names : Nat → Bytes)
    (s : Passfile (Fin 2)), Reach step (fun _ _ => True) (start (Fin 2) file names) s →
    s.file = s.meant := by
  intro hclaim
  have hrun : Reach.Meets step (fun _ _ => True) (start (Fin 2) (fun _ => demoUser) fun _ => [])
      (demoAdmins 0 1) := by decide +kernel
  obtain ⟨s, hs, h⟩ := Reach.of_meets _ hrun
  have hend : ((demoAdmins 0 1).foldlM step (start (Fin 2) (fun _ => demoUser) fun _ => [])).map
      (fun s => ((s.file 1).hasPerm permPost, (s.meant 1).hasPerm permPost)) =
      some (true, false) := by decide +kernel
  rw [hs] at hend
  have hend := Prod.mk.inj (Option.some.inj hend)
  rw [hclaim _ _ s h] at hend
  cases hend.1.symm.trans hend.2

end Passfile

end ArgoBbs

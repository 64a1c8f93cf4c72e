import ArgoBbs.Consts
import ArgoBbs.Lib.Directories
import Mathlib.Data.List.DropRight

/-! # Another id for a user

Item 3 of `uinfo_query` asks an administrator for another id of a user, and with his consent renames
the directories of the user, and writes the id to the cache and to the record (`userinfo.c`,
`ucache.c`). Others may have changed something since the id was found to be free. -/

namespace ArgoBbs

/-- Where the id of a user is kept: the cells of the cache, the records, and the paths. -/
structure IdStores where
  number : Nat
  cache : Nat → Bytes
  passfile : Nat → Bytes
  dirs : Directories

/-- What can fail. -/
structure RenameOutcome where
  mailFails : Bool
  homeFails : Bool
  writeFails : Bool

/-- The administrator and the user; `u` is the id of the record `unum`. -/
structure IdQuestion where
  own : Bool
  online : Bool
  u : Bytes
  unum : Nat

def mailPath (userid : Bytes) : Bytes := bytes "mail/" ++ [toupper (userid.headD 0), 47] ++ userid
def homePath (userid : Bytes) : Bytes := bytes "home/" ++ [toupper (userid.headD 0), 47] ++ userid

def killwordsp (s : Bytes) : Bytes := (s.dropWhile (· = 32)).rdropWhile (· = 32)

def IdStores.searchuser (s : IdStores) (userid : Bytes) : Option Nat :=
  ((List.range s.number).find? fun i => strncasecmpEq userid (s.cache i) (idLen + 1)).map (· + 1)

def setuserid (maxUsers num : Nat) (userid : Bytes) (s : IdStores) : IdStores :=
  if 0 < num ∧ num ≤ maxUsers then
    { s with
      number := if s.number < num then num else s.number
      cache := Function.update s.cache (num - 1) (strlcpy (idLen + 2) userid) }
  else s

namespace IdQuestion
variable (q : IdQuestion)

/-- The id that is asked for, unless it is refused. -/
def newId (typed : Bytes) (s : IdStores) : Option Bytes :=
  if q.own then none
  else if q.online then none
  else if q.u = bytes "SYSOP" then none
  else
    let genbuf := killwordsp ((typed.takeWhile (· ≠ 0)).take idLen)
    if genbuf ≠ [] ∧ genbuf ≠ q.u then
      if !strcasecmpEq genbuf q.u && (s.searchuser genbuf).isSome then none
      else some (strlcpy (idLen + 2) genbuf)
    else none

/-- The changes once they are confirmed. -/
def changeId (maxUsers : Nat) (outcome : RenameOutcome) (new : Bytes) (s : IdStores) : IdStores :=
  let dirs := s.dirs.rename outcome.mailFails (mailPath q.u) (mailPath new)
  let dirs := dirs.rename outcome.homeFails (homePath q.u) (homePath new)
  -- in the directory of the old id, which has been renamed
  let dirs := dirs.unlink (homePath q.u) (bytes "register")
  let dirs := dirs.unlink (homePath q.u) (bytes "register.old")
  let s := setuserid maxUsers q.unum new { s with dirs }
  if outcome.writeFails then s
  else { s with passfile := Function.update s.passfile (q.unum - 1) new }

/-- Item 3: the state when the id is asked for, and the state when the change is confirmed. -/
def item3 (maxUsers : Nat) (typed : Bytes) (confirmed : Bool) (outcome : RenameOutcome)
    (asked s : IdStores) : IdStores :=
  match q.newId typed asked with
  | none => s
  | some new => if confirmed then q.changeId maxUsers outcome new s else s

/-- Everything belongs to the id, with these directories. -/
structure Belongs (s : IdStores) (userid : Bytes) (mail home : Option Directory) : Prop where
  cache : s.cache (q.unum - 1) = userid
  record : s.passfile (q.unum - 1) = userid
  mail : s.dirs (mailPath userid) = mail
  home : s.dirs (homePath userid) = home

/-- Everything belongs to the new id, or everything as before to the old one; the directories of the
other users are the same; cache and records agree where they did. -/
structure Atomic (new : Bytes) (s s' : IdStores) : Prop where
  one : q.Belongs s' new (s.dirs (mailPath q.u)) (s.dirs (homePath q.u)) ∧
      s'.dirs (mailPath q.u) = none ∧ s'.dirs (homePath q.u) = none ∨
    q.Belongs s' q.u (s.dirs (mailPath q.u)) (s.dirs (homePath q.u))
  others : ∀ i ≠ q.unum - 1, s.cache i ≠ [] →
    s'.dirs (mailPath (s.cache i)) = s.dirs (mailPath (s.cache i)) ∧
      s'.dirs (homePath (s.cache i)) = s.dirs (homePath (s.cache i))
  agree : ∀ i, s.cache i = s.passfile i → s'.cache i = s'.passfile i

/-- The directory can be renamed, or there is none for either id. -/
def Renames (dirs : Directories) (fails : Bool) (src dst : Bytes) : Prop :=
  if dirs src = none then dirs dst = none else fails = false ∧ dirs.free dst = true

/-- Both directories can be renamed, the record can be written, and nobody else has one of the ids,
or there are no directories. -/
structure Changes (outcome : RenameOutcome) (new : Bytes) (s : IdStores) : Prop where
  mail : Renames s.dirs outcome.mailFails (mailPath q.u) (mailPath new)
  home : Renames s.dirs outcome.homeFails (homePath q.u) (homePath new)
  write : outcome.writeFails = false
  old : ∀ i ≠ q.unum - 1, s.cache i ≠ [] → s.cache i = q.u →
    s.dirs (mailPath q.u) = none ∧ s.dirs (homePath q.u) = none
  new : ∀ i ≠ q.unum - 1, s.cache i ≠ [] → s.cache i = new →
    s.dirs (mailPath new) = s.dirs (mailPath q.u) ∧ s.dirs (homePath new) = s.dirs (homePath q.u)

variable {q} {maxUsers : Nat} {outcome : RenameOutcome} {a b new : Bytes} {s : IdStores}

/-- Below one directory the path tells the id. -/
theorem eq_of_path (dir : Bytes) (h : dir ++ [toupper (a.headD 0), 47] ++ a =
    dir ++ [toupper (b.headD 0), 47] ++ b) : a = b := by
  refine List.append_inj_right h ?_
  rw [List.length_append, List.length_append]
  rfl

theorem mailPath_inj : mailPath a = mailPath b ↔ a = b := ⟨eq_of_path _, congrArg mailPath⟩

theorem homePath_inj : homePath a = homePath b ↔ a = b := ⟨eq_of_path _, congrArg homePath⟩

theorem mailPath_ne_homePath : mailPath a ≠ homePath b := by
  intro h
  have hhead : some (109 : UInt8) = some 104 := congrArg List.head? h
  cases hhead

theorem newId_some {typed : Bytes} (h : q.newId typed s = some new) :
    new ≠ q.u ∧ strlcpy (idLen + 2) new = new := by
  have hshort : ∀ t : Bytes, (killwordsp ((t.takeWhile (· ≠ 0)).take idLen)).length ≤ idLen := by
    intro t
    have hwords : ∀ l : Bytes, (killwordsp l).length ≤ l.length := fun l =>
      (List.rdropWhile_prefix _ _).length_le.trans (List.dropWhile_suffix _).length_le
    exact (hwords _).trans (List.length_take_le _ _)
  rw [newId] at h
  split at h
  · cases h
  split at h
  · cases h
  split at h
  · cases h
  dsimp only at h
  split at h
  case isTrue hgenbuf =>
    split at h
    · cases h
    · have hcopy : strlcpy (idLen + 2) (killwordsp ((typed.takeWhile (· ≠ 0)).take idLen)) =
          killwordsp ((typed.takeWhile (· ≠ 0)).take idLen) :=
        List.take_of_length_le (Nat.le_succ_of_le (hshort typed))
      rw [hcopy] at h
      obtain rfl := Option.some.inj h
      exact ⟨hgenbuf.2, hcopy⟩
  case isFalse => cases h

/-! ## What is changed -/

/-- `setuserid` leaves the directories and the records alone. -/
theorem setuserid_others (maxUsers num : Nat) (userid : Bytes) (s : IdStores) :
    (setuserid maxUsers num userid s).dirs = s.dirs ∧
      (setuserid maxUsers num userid s).passfile = s.passfile := by
  rw [setuserid]
  split
  · exact ⟨rfl, rfl⟩
  · exact ⟨rfl, rfl⟩

theorem changeId_dirs : (q.changeId maxUsers outcome new s).dirs =
    (((s.dirs.rename outcome.mailFails (mailPath q.u) (mailPath new)).rename outcome.homeFails
      (homePath q.u) (homePath new)).unlink (homePath q.u) (bytes "register")).unlink (homePath q.u)
        (bytes "register.old") := by
  rw [changeId]
  split
  · exact (setuserid_others ..).1
  · exact (setuserid_others ..).1

theorem changeId_cache (hunum : 0 < q.unum ∧ q.unum ≤ maxUsers)
    (hcopy : strlcpy (idLen + 2) new = new) : (q.changeId maxUsers outcome new s).cache =
      Function.update s.cache (q.unum - 1) new := by
  rw [changeId, setuserid, if_pos hunum, hcopy]
  dsimp only
  split
  · rfl
  · rfl

theorem changeId_passfile : (q.changeId maxUsers outcome new s).passfile =
    if outcome.writeFails then s.passfile else Function.update s.passfile (q.unum - 1) new := by
  rw [changeId]
  split
  · exact (setuserid_others ..).2
  · rw [(setuserid_others ..).2]

theorem changeId_mail (a : Bytes) : (q.changeId maxUsers outcome new s).dirs (mailPath a) =
    s.dirs.rename outcome.mailFails (mailPath q.u) (mailPath new) (mailPath a) := by
  rw [changeId_dirs, Directories.unlink_of_ne mailPath_ne_homePath,
    Directories.unlink_of_ne mailPath_ne_homePath,
    Directories.rename_of_ne mailPath_ne_homePath mailPath_ne_homePath]

/-- The mail directories are renamed apart from the home directories. -/
theorem rename_home (a : Bytes) :
    (s.dirs.rename outcome.mailFails (mailPath q.u) (mailPath new)).rename outcome.homeFails
      (homePath q.u) (homePath new) (homePath a) =
        s.dirs.rename outcome.homeFails (homePath q.u) (homePath new) (homePath a) := by
  have hmail : ∀ b : Bytes, s.dirs.rename outcome.mailFails (mailPath q.u) (mailPath new)
      (homePath b) = s.dirs (homePath b) := fun b =>
    Directories.rename_of_ne mailPath_ne_homePath.symm mailPath_ne_homePath.symm
  exact Directories.rename_congr (hmail _) (hmail _) (hmail _)

theorem changeId_home (hne : a ≠ q.u) : (q.changeId maxUsers outcome new s).dirs (homePath a) =
    s.dirs.rename outcome.homeFails (homePath q.u) (homePath new) (homePath a) := by
  have hpath : homePath a ≠ homePath q.u := mt homePath_inj.mp hne
  rw [changeId_dirs, Directories.unlink_of_ne hpath, Directories.unlink_of_ne hpath, rename_home]

theorem changeId_home_none_iff : (q.changeId maxUsers outcome new s).dirs (homePath q.u) = none ↔
    s.dirs.rename outcome.homeFails (homePath q.u) (homePath new) (homePath q.u) = none := by
  rw [changeId_dirs, Directories.unlink_eq_none_iff, Directories.unlink_eq_none_iff, rename_home]

/-- The directories are at the paths of the new id just if they can be renamed. -/
theorem changeId_moved_iff (hne : new ≠ q.u) :
    (((q.changeId maxUsers outcome new s).dirs (mailPath new) = s.dirs (mailPath q.u) ∧
          (q.changeId maxUsers outcome new s).dirs (mailPath q.u) = none) ∧
        (q.changeId maxUsers outcome new s).dirs (homePath new) = s.dirs (homePath q.u) ∧
          (q.changeId maxUsers outcome new s).dirs (homePath q.u) = none) ↔
      Renames s.dirs outcome.mailFails (mailPath q.u) (mailPath new) ∧
        Renames s.dirs outcome.homeFails (homePath q.u) (homePath new) := by
  rw [changeId_mail, changeId_mail, changeId_home hne, changeId_home_none_iff, Renames, Renames,
    ← Directories.moved_rename_iff (mt mailPath_inj.mp hne.symm),
    ← Directories.moved_rename_iff (mt homePath_inj.mp hne.symm)]
  exact and_congr and_comm and_comm

theorem Changes.atomic (h : q.Changes outcome new s) (hunum : 0 < q.unum ∧ q.unum ≤ maxUsers)
    (hne : new ≠ q.u) (hcopy : strlcpy (idLen + 2) new = new) :
    q.Atomic new s (q.changeId maxUsers outcome new s) := by
  have hcache : (q.changeId maxUsers outcome new s).cache =
      Function.update s.cache (q.unum - 1) new := changeId_cache hunum hcopy
  have hpassfile : (q.changeId maxUsers outcome new s).passfile =
      if outcome.writeFails then s.passfile else Function.update s.passfile (q.unum - 1) new :=
    changeId_passfile
  rw [h.write, if_neg Bool.false_ne_true] at hpassfile
  obtain ⟨⟨hmail, hmail'⟩, hhome, hhome'⟩ := (changeId_moved_iff hne).mpr ⟨h.mail, h.home⟩
  refine ⟨.inl ⟨⟨?_, ?_, hmail, hhome⟩, hmail', hhome'⟩, fun i hi hused => ?_, fun i hi => ?_⟩
  · rw [hcache, Function.update_self]
  · rw [hpassfile, Function.update_self]
  · by_cases hold : s.cache i = q.u
    · obtain ⟨hmailNone, hhomeNone⟩ := h.old i hi hused hold
      rw [hold, hmail', hhome', hmailNone, hhomeNone]
      exact ⟨rfl, rfl⟩
    by_cases hnew : s.cache i = new
    · obtain ⟨hmailSame, hhomeSame⟩ := h.new i hi hused hnew
      rw [hnew, hmail, hhome, hmailSame, hhomeSame]
      exact ⟨rfl, rfl⟩
    · rw [changeId_mail, changeId_home hold,
        Directories.rename_of_ne (mt mailPath_inj.mp hold) (mt mailPath_inj.mp hnew),
        Directories.rename_of_ne (mt homePath_inj.mp hold) (mt homePath_inj.mp hnew)]
      exact ⟨rfl, rfl⟩
  · rw [hcache, hpassfile]
    rcases eq_or_ne i (q.unum - 1) with rfl | hother
    · rw [Function.update_self, Function.update_self]
    · rw [Function.update_of_ne hother, Function.update_of_ne hother, hi]

theorem changes_of_atomic (hunum : 0 < q.unum ∧ q.unum ≤ maxUsers) (hne : new ≠ q.u)
    (hcopy : strlcpy (idLen + 2) new = new) (hrecord : s.passfile (q.unum - 1) = q.u)
    (h : q.Atomic new s (q.changeId maxUsers outcome new s)) : q.Changes outcome new s := by
  have hcache : (q.changeId maxUsers outcome new s).cache =
      Function.update s.cache (q.unum - 1) new := changeId_cache hunum hcopy
  have hpassfile : (q.changeId maxUsers outcome new s).passfile =
      if outcome.writeFails then s.passfile else Function.update s.passfile (q.unum - 1) new :=
    changeId_passfile
  obtain ⟨hbelongs, hmail', hhome'⟩ := h.one.resolve_right fun hold => by
    have hkept := hold.cache
    rw [hcache, Function.update_self] at hkept
    exact hne hkept
  obtain ⟨hmail, hhome⟩ := (changeId_moved_iff hne).mp
    ⟨⟨hbelongs.mail, hmail'⟩, hbelongs.home, hhome'⟩
  refine ⟨hmail, hhome, ?_, fun i hi hused hold => ?_, fun i hi hused hnew => ?_⟩
  · by_contra hfails
    have hkept := hbelongs.record
    rw [hpassfile, if_pos (by simpa using hfails), hrecord] at hkept
    exact hne hkept.symm
  · obtain ⟨hmailSame, hhomeSame⟩ := h.others i hi hused
    rw [hold] at hmailSame hhomeSame
    exact ⟨hmailSame.symm.trans hmail', hhomeSame.symm.trans hhome'⟩
  · obtain ⟨hmailSame, hhomeSame⟩ := h.others i hi hused
    rw [hnew] at hmailSame hhomeSame
    exact ⟨hmailSame.symm.trans hbelongs.mail, hhomeSame.symm.trans hbelongs.home⟩

end IdQuestion

open IdQuestion in
/-- Item 3 changes everything or nothing, and nothing of another user, just if a change that is
confirmed can be made as a whole. -/
theorem item3_atomic_iff (q : IdQuestion) (maxUsers : Nat) (typed new : Bytes) (confirmed : Bool)
    (outcome : RenameOutcome) (asked s : IdStores) (hunum : 0 < q.unum ∧ q.unum ≤ maxUsers)
    (hcache : s.cache (q.unum - 1) = q.u) (hrecord : s.passfile (q.unum - 1) = q.u)
    (hnew : q.newId typed asked = some new) :
    q.Atomic new s (q.item3 maxUsers typed confirmed outcome asked s) ↔
      (confirmed = true → q.Changes outcome new s) := by
  obtain ⟨hne, hcopy⟩ := newId_some hnew
  rw [item3, hnew]
  cases confirmed with
  | false =>
    refine iff_of_true ⟨.inr ⟨hcache, hrecord, rfl, rfl⟩, fun _ _ _ => ⟨rfl, rfl⟩, fun _ hi => hi⟩ ?_
    intro h
    cases h
  | true =>
    dsimp only
    rw [if_pos rfl, forall_prop_of_true rfl]
    constructor
    · exact changes_of_atomic hunum hne hcopy hrecord
    · intro h
      exact h.atomic hunum hne hcopy

/-- One user with a mail directory and a home directory, and what may be at the mail path of another
id. -/
def oldUser (left : Option Directory) : IdStores :=
  { number := 1
    cache := fun i => if i = 0 then bytes "old" else []
    passfile := fun i => if i = 0 then bytes "old" else []
    dirs := fun path =>
      if path = mailPath (bytes "old") then some ⟨1, [bytes ".DIR"]⟩
      else if path = homePath (bytes "old") then some ⟨2, [bytes "register"]⟩
      else if path = mailPath (bytes "new") then left
      else none }

def oldQuestion : IdQuestion := { own := false, online := false, u := bytes "old", unum := 1 }

def nothingFails : RenameOutcome := { mailFails := false, homeFails := false, writeFails := false }

theorem item3_atomic_iff_old :
    oldQuestion.Atomic (bytes "new") (oldUser none)
        (oldQuestion.item3 10 (bytes " new") true nothingFails (oldUser none) (oldUser none)) ↔
      (true = true → oldQuestion.Changes nothingFails (bytes "new") (oldUser none)) :=
  item3_atomic_iff oldQuestion 10 (bytes " new") (bytes "new") true nothingFails (oldUser none)
    (oldUser none) (by decide) (by decide) (by decide) (by decide +kernel)

/-- The mail directory of a deleted user is left over at the path of the new id. -/
theorem not_item3_atomic : ¬∀ (q : IdQuestion) (maxUsers : Nat) (typed new : Bytes)
    (confirmed : Bool) (outcome : RenameOutcome) (asked s : IdStores),
    0 < q.unum ∧ q.unum ≤ maxUsers → s.cache (q.unum - 1) = q.u → s.passfile (q.unum - 1) = q.u →
      q.newId typed asked = some new →
        q.Atomic new s (q.item3 maxUsers typed confirmed outcome asked s) := by
  intro hclaim
  have hnew : oldQuestion.newId (bytes "new") (oldUser none) = some (bytes "new") := by
    decide +kernel
  have hatomic := hclaim oldQuestion 10 (bytes "new") (bytes "new") true nothingFails (oldUser none)
    (oldUser (some ⟨3, [bytes ".DIR"]⟩)) (by decide) (by decide) (by decide) hnew
  rw [IdQuestion.item3, hnew] at hatomic
  dsimp only at hatomic
  rw [if_pos rfl] at hatomic
  have hmail := (IdQuestion.changes_of_atomic (by decide) (by decide) (by decide) (by decide)
    hatomic).mail
  rw [IdQuestion.Renames, if_neg (by decide)] at hmail
  exact absurd hmail.2 (by decide)

end ArgoBbs

import ArgoBbs.Consts
import ArgoBbs.Lib.CString
import ArgoBbs.Permissions
import ArgoBbs.Record.Access
import Mathlib.Data.List.Chain

/-! # Deciding the registration forms

`enable_register_all` goes through the forms of `new_register.rec` by their numbers, and decides those
that carry a mark; a form that has been decided is deleted (`maintain.c`). Nobody else changes the
file, and the files can be written. -/

namespace ArgoBbs

/-- A form. The fields that only go to the file `auth` of the user are the answers. -/
structure RegForm where
  userid : Bytes
  mark : UInt8
  answers : List Bytes
  mark_valid : mark = 32 ∨ mark = 89 ∨ mark = 68 ∨ 48 ≤ mark ∧ mark ≤ 57

/-- What the decision needs of a record of `PASSFILE`. -/
structure RegUser where
  userid : Bytes
  userlevel : BitVec 32
  address : Bytes
  lastjustify : Int

/-- What is written besides the two files of records. -/
inductive RegEffect
  | auth (usernum : Nat) (reg : RegForm)
  | mail (file userid title : Bytes)
  | unlinkMailcheck (userid : Bytes)
  | securityReport (text : Bytes) (lookupuser : RegUser)

/-- The records of `PASSFILE`, the names in `boards/.DENYLIST`, and what has been written. -/
structure RegWorld where
  users : List RegUser
  denied : List Bytes
  now : Int
  effects : List RegEffect

def failReasons : List Bytes :=
  [bytes "\xc7\xeb\xcc\xee\xd0\xb4\xd5\xe6\xca\xb5\xd0\xd5\xc3\xfb.",
    bytes "\xc7\xeb\xc8\xe7\xca\xb5\xcc\xee\xd0\xb4\xb1\xcf\xd2\xb5\xc4\xea\xb7\xdd.",
    bytes "\xc7\xeb\xc8\xe7\xca\xb5\xcc\xee\xd0\xb4\xd7\xa8\xd2\xb5.",
    bytes "\xc7\xeb\xc8\xe7\xca\xb5\xcc\xee\xd0\xb4\xcf\xea\xcf\xb8\xb3\xf6\xc9\xfa\xc8\xd5\xc6\xda.",
    bytes "\xc7\xeb\xcc\xee\xd0\xb4\xcd\xea\xd5\xfb\xb5\xc4\xd7\xa1\xd6\xb7\xd7\xca\xc1\xcf.",
    bytes "\xc7\xeb\xc8\xe7\xca\xb5\xcc\xee\xd0\xb4\xd1\xa7\xba\xc5.",
    bytes "\xc7\xeb\xc8\xe7\xca\xb5\xcc\xee\xd0\xb4\xd7\xa2\xb2\xe1\xc9\xea\xc7\xeb\xb1\xed.",
    bytes "\xc7\xeb\xd3\xc3\xd6\xd0\xce\xc4\xcc\xee\xd0\xb4\xd7\xa2\xb2\xe1\xb5\xa5.",
    bytes "\xc7\xeb\xd3\xc3\xbb\xf1\xc8\xa1\xbc\xa4\xbb\xee\xc2\xeb\xb7\xbd\xca\xbd\xd7\xa2\xb2\xe1",
    bytes "\xc6\xe4\xcb\xfc\xbe\xdf\xcc\xe5\xd4\xad\xd2\xf2."]

def msgRegFailed : Bytes := bytes "<\xd7\xa2\xb2\xe1\xca\xa7\xb0\xdc> "

def msgForeUser : Bytes :=
  bytes "\xb9\xa7\xcf\xb2\xa3\xac\xbd\xf1\xba\xf3\xc4\xfa\xbf\xc9\xd4\xda\xb8\xf7\xb5\xd8" ++
    bytes "\xb3\xa9\xd3\xceArgo"

def msgNewUser : Bytes := bytes "\xbb\xb6\xd3\xad\xbc\xd3\xc8\xeb\xb1\xbe\xd5\xbe\xd0\xd0\xc1\xd0"

/-- `getuser`, when the names of the cache are those of the records. -/
def RegWorld.getuser (w : RegWorld) (userid : Bytes) : Option (Nat × RegUser) :=
  match searchRecord (fun u => strncasecmpEq userid u.userid (idLen + 1)) w.users with
  | some (usernum, u) => if u.userid = [] then none else some (usernum, u)
  | none => none

/-- The approval in `press_register_now`, of a user that has been found. -/
def approveUser (reg : RegForm) (usernum : Nat) (lookupuser : RegUser) (w : RegWorld) : RegWorld :=
  let foreUser := lookupuser.userlevel ≠ permBasic
  let userlevel := lookupuser.userlevel ||| permDefault ||| permWelcome
  let userlevel := if w.denied.contains lookupuser.userid then userlevel &&& ~~~permPost else userlevel
  let lookupuser := { lookupuser with lastjustify := w.now, userlevel }
  let mail :=
    if foreUser then .mail (bytes "etc/Activa_fore_users") lookupuser.userid msgForeUser
    else .mail (bytes "etc/smail") lookupuser.userid msgNewUser
  let report := bytes "\xc8\xc3 " ++ lookupuser.userid ++
    bytes " \xcd\xa8\xb9\xfd\xc9\xed\xb7\xd6\xc8\xb7\xc8\xcf."
  { w with
    users := w.users.set (usernum - 1) lookupuser
    effects := w.effects ++ [.auth usernum reg, mail, .unlinkMailcheck lookupuser.userid,
      .securityReport report lookupuser] }

/-- The refusal in `fail_register`; the administrator is asked for a reason if the mark is `9`. -/
def refuseUser (reasonBuf : RegForm → Bytes) (reg : RegForm) (usernum : Nat) (lookupuser : RegUser)
    (w : RegWorld) : RegWorld :=
  let reason :=
    if reg.mark = 57 then (reasonBuf reg).take 19
    else failReasons.getD (reg.mark.toNat - 48) []
  let lookupuser := { lookupuser with address := (msgRegFailed ++ reason).take 79 }
  { w with
    users := w.users.set (usernum - 1) lookupuser
    effects := w.effects ++ [.mail (bytes "etc/f_fill") lookupuser.userid lookupuser.address] }

/-! ## The commands -/

/-- The loop of `del_register_now` and `update_reg`: the last number up to `i` with a form of the user,
or 0. -/
def lookBackForm (userid : Bytes) (file : List RegForm) : (i : Nat) → Nat
  | 0 => 0
  | i + 1 =>
    match getRecord (i + 1 : Nat) file with
    | some tmp => if userid = tmp.userid then i + 1 else lookBackForm userid file i
    | none => lookBackForm userid file i

def delRegisterNow (ent : Nat) (reg : RegForm) (file : List RegForm) : List RegForm :=
  let i := lookBackForm reg.userid file ent
  if i = 0 then file
  else
    match deleteRecord i file with
    | some (kept, _) => kept
    | none => file

section
variable (reasonBuf : RegForm → Bytes)

/-- The file of the forms, and the rest. -/
abbrev RegState := List RegForm × RegWorld

def pressRegisterNow (ent : Nat) (reg : RegForm) (s : RegState) : RegState :=
  match s.2.getuser reg.userid with
  | none => (delRegisterNow ent reg s.1, s.2)
  | some (usernum, lookupuser) =>
    (delRegisterNow ent reg s.1, approveUser reg usernum lookupuser s.2)

def failRegister (ent : Nat) (reg : RegForm) (s : RegState) : RegState :=
  match s.2.getuser reg.userid with
  | none => (delRegisterNow ent reg s.1, s.2)
  | some (usernum, lookupuser) =>
    if reg.mark < 48 ∨ 57 < reg.mark then s
    else (delRegisterNow ent reg s.1, refuseUser reasonBuf reg usernum lookupuser s.2)

def enableRegister (ent : Nat) (reg : RegForm) (s : RegState) : RegState :=
  if reg.mark = 89 then pressRegisterNow ent reg s
  else if reg.mark = 68 then (delRegisterNow ent reg s.1, s.2)
  else if reg.mark = 32 then s
  else failRegister reasonBuf ent reg s

/-- The loop of `enable_register_all`, with the number that is next and the rounds that are left. -/
def enableLoop : (rounds i : Nat) → RegState → RegState
  | 0, _, s => s
  | rounds + 1, i, s =>
    match getRecord i s.1 with
    | some tmp => enableLoop rounds (i + 1) (enableRegister reasonBuf i tmp s)
    | none => enableLoop rounds (i + 1) s

def enableRegisterAll (s : RegState) : RegState := enableLoop reasonBuf s.1.length 1 s

end

/-! ## What is to be decided -/

def RegForm.marked (reg : RegForm) : Bool := reg.mark ≠ 32

/-- The decision that the mark says: to approve, to delete or to refuse. Nothing is left to decide if
there is no such user any more. -/
def decideForm (reasonBuf : RegForm → Bytes) (w : RegWorld) (reg : RegForm) : RegWorld :=
  match w.getuser reg.userid with
  | none => w
  | some (usernum, lookupuser) =>
    if reg.mark = 89 then approveUser reg usernum lookupuser w
    else if reg.mark = 68 then w
    else refuseUser reasonBuf reg usernum lookupuser w

/-- The loop, on the forms that it has not come to: the form behind one that is decided stays. -/
def decideEvery (reasonBuf : RegForm → Bytes) : List RegForm → RegWorld → RegState
  | [], w => ([], w)
  | reg :: rest, w =>
    if reg.marked then
      match rest with
      | [] => ([], decideForm reasonBuf w reg)
      | next :: rest =>
        let (kept, w) := decideEvery reasonBuf rest (decideForm reasonBuf w reg)
        (next :: kept, w)
    else
      let (kept, w) := decideEvery reasonBuf rest w
      (reg :: kept, w)

variable {reasonBuf : RegForm → Bytes} {reg : RegForm} {front rest file : List RegForm} {w : RegWorld}

theorem getRecord_front : getRecord (front.length + 1 : Nat) (front ++ reg :: rest) = some reg := by
  rw [getRecord, if_neg (by omega), Int.toNat_natCast, Nat.add_sub_cancel,
    List.getElem?_append_right (Nat.le_refl _), Nat.sub_self]
  rfl

/-- The form is found under its own number. -/
theorem delRegisterNow_front :
    delRegisterNow (front.length + 1) reg (front ++ reg :: rest) = front ++ rest := by
  have hback : lookBackForm reg.userid (front ++ reg :: rest) (front.length + 1) = front.length + 1 := by
    rw [lookBackForm, getRecord_front]
    exact if_pos rfl
  have hlen : ¬((front.length + 1 : Nat) ≤ (0 : Int) ∨
      (front ++ reg :: rest).length < ((front.length + 1 : Nat) : Int)) := by
    rw [List.length_append, List.length_cons]
    omega
  rw [delRegisterNow, hback, if_neg (Nat.succ_ne_zero _), deleteRecord, if_neg hlen, cutCell, Int.toNat_natCast,
    Nat.add_sub_cancel, List.take_left' rfl, ← List.drop_drop, List.drop_left' rfl]
  rfl

theorem not_marked_iff : reg.marked = false ↔ reg.mark = 32 := by
  rw [RegForm.marked, decide_eq_false_iff_not, not_not]

/-- A form is left alone, or decided and taken out. -/
theorem enableRegister_front :
    enableRegister reasonBuf (front.length + 1) reg (front ++ reg :: rest, w) =
      if reg.marked then (front ++ rest, decideForm reasonBuf w reg)
      else (front ++ reg :: rest, w) := by
  have hcases : reg.mark = 32 ∧ reg.marked = false ∨ reg.marked = true ∧ reg.mark ≠ 32 ∧
      (reg.mark = 89 ∨ reg.mark = 68 ∨
        reg.mark ≠ 89 ∧ reg.mark ≠ 68 ∧ ¬(reg.mark < 48 ∨ 57 < reg.mark)) := by
    by_cases hblank : reg.mark = 32
    · exact .inl ⟨hblank, not_marked_iff.mpr hblank⟩
    refine .inr ⟨decide_eq_true hblank, hblank, ?_⟩
    rcases reg.mark_valid with h | hyes | hdel | ⟨hlow, hhigh⟩
    · exact absurd h hblank
    · exact .inl hyes
    · exact .inr (.inl hdel)
    · refine .inr (.inr ⟨fun h => ?_, fun h => ?_, not_or.mpr ⟨UInt8.not_lt.mpr hlow, UInt8.not_lt.mpr hhigh⟩⟩)
      · rw [h] at hhigh
        exact absurd hhigh (by decide)
      · rw [h] at hhigh
        exact absurd hhigh (by decide)
  rcases hcases with ⟨hblank, hmarked⟩ | ⟨hmarked, hmark, hcases⟩
  · rw [enableRegister, hblank, hmarked]
    rfl
  rw [hmarked, if_pos rfl, decideForm]
  rcases hcases with hyes | hdel | ⟨hyes, hdel, hfail⟩
  · rw [enableRegister, if_pos hyes, pressRegisterNow]
    dsimp only
    rw [delRegisterNow_front]
    split
    · rfl
    · rw [if_pos hyes]
  · have hyes : reg.mark ≠ 89 := by
      rw [hdel]
      decide
    rw [enableRegister, if_neg hyes, if_pos hdel]
    dsimp only
    rw [delRegisterNow_front]
    split
    · rfl
    · rw [if_neg hyes, if_pos hdel]
  · rw [enableRegister, if_neg hyes, if_neg hdel, if_neg hmark, failRegister]
    dsimp only
    rw [delRegisterNow_front]
    split
    · rfl
    · rw [if_neg hfail, if_neg hyes, if_neg hdel]

theorem enableLoop_of_end (rounds : Nat) (hend : file.length < i) :
    enableLoop reasonBuf rounds i (file, w) = (file, w) := by
  induction rounds generalizing i with
  | zero => rfl
  | succ rounds ih =>
    have hnone : getRecord i file = none := by
      rw [getRecord, if_neg (by omega), Int.toNat_natCast]
      exact List.getElem?_eq_none (by omega)
    rw [enableLoop, hnone]
    exact ih (Nat.lt_succ_of_lt hend)

section
variable {next : RegForm}

theorem decideEvery_cons (hmarked : reg.marked = false) :
    decideEvery reasonBuf (reg :: rest) w =
      (reg :: (decideEvery reasonBuf rest w).1, (decideEvery reasonBuf rest w).2) := by
  rw [decideEvery.eq_def]
  dsimp only
  rw [hmarked]
  rfl

theorem decideEvery_singleton (hmarked : reg.marked = true) :
    decideEvery reasonBuf [reg] w = ([], decideForm reasonBuf w reg) := by
  rw [decideEvery.eq_def]
  dsimp only
  rw [hmarked]
  rfl

theorem decideEvery_cons_cons (hmarked : reg.marked = true) :
    decideEvery reasonBuf (reg :: next :: rest) w =
      (next :: (decideEvery reasonBuf rest (decideForm reasonBuf w reg)).1,
        (decideEvery reasonBuf rest (decideForm reasonBuf w reg)).2) := by
  rw [decideEvery.eq_def]
  dsimp only
  rw [hmarked]
  rfl

/-- With rounds for all the forms that are left. -/
theorem enableLoop_front (front : List RegForm) (w : RegWorld) {rounds : Nat} (hrounds : rest.length ≤ rounds) :
    enableLoop reasonBuf rounds (front.length + 1) (front ++ rest, w) =
      (front ++ (decideEvery reasonBuf rest w).1, (decideEvery reasonBuf rest w).2) := by
  induction rounds generalizing front rest w with
  | zero =>
    obtain rfl := List.eq_nil_of_length_eq_zero (Nat.le_zero.mp hrounds)
    rfl
  | succ rounds ih =>
    cases rest with
    | nil =>
      rw [enableLoop_of_end]
      · rfl
      · rw [List.append_nil]
        exact Nat.lt_succ_self _
    | cons reg rest =>
      have hrounds' : rest.length ≤ rounds := Nat.le_of_succ_le_succ hrounds
      rw [enableLoop, getRecord_front]
      dsimp only
      rw [enableRegister_front]
      cases hmarked : reg.marked with
      | false =>
        have hnext := ih (front ++ [reg]) w hrounds'
        rw [List.length_append, List.append_assoc, List.append_assoc] at hnext
        rw [decideEvery_cons hmarked]
        exact hnext
      | true =>
        rw [if_pos rfl]
        cases rest with
        | nil =>
          rw [enableLoop_of_end, decideEvery_singleton hmarked]
          rw [List.append_nil]
          exact Nat.lt_succ_of_lt (Nat.lt_succ_self _)
        | cons next rest =>
          have hnext := ih (front ++ [next]) (decideForm reasonBuf w reg)
            (Nat.le_of_succ_le hrounds')
          rw [List.length_append, List.append_assoc, List.append_assoc] at hnext
          rw [decideEvery_cons_cons hmarked]
          exact hnext

end

theorem enableRegisterAll_eq (s : RegState) :
    enableRegisterAll reasonBuf s = decideEvery reasonBuf s.1 s.2 :=
  enableLoop_front [] s.2 (Nat.le_refl _)

/-- A form without a mark may stand next to any other. -/
theorem isChain_cons_of_not_marked (hmarked : reg.marked = false) :
    (reg :: rest).IsChain (fun a b => a.marked = false ∨ b.marked = false) ↔
      rest.IsChain fun a b => a.marked = false ∨ b.marked = false := by
  rw [List.isChain_cons]
  exact and_iff_right fun _ _ => .inl hmarked

/-- The form that is passed over stays. -/
theorem isChain_of_decideEvery (forms : List RegForm) (w : RegWorld)
    (hkept : (decideEvery reasonBuf forms w).1 = forms.filter (!·.marked)) :
    forms.IsChain fun a b => a.marked = false ∨ b.marked = false := by
  induction forms, w using decideEvery.induct reasonBuf with
  | case1 => exact .nil
  | case2 w reg hmarked => exact .singleton _
  | case3 w reg hmarked next rest kept w' hrest ih =>
    rw [decideEvery_cons_cons hmarked, List.filter_cons_of_neg (by rw [hmarked]; decide)] at hkept
    have hnext : next.marked = false := by
      have hmem : next ∈ (next :: rest).filter (!·.marked) := hkept ▸ List.mem_cons_self
      simpa using (List.mem_filter.mp hmem).2
    rw [List.filter_cons_of_pos (by rw [hnext]; rfl)] at hkept
    rw [List.isChain_cons_cons, isChain_cons_of_not_marked hnext]
    exact ⟨.inr hnext, ih (List.cons.inj hkept).2⟩
  | case4 reg rest w hmarked kept w' hrest ih =>
    have hmarked : reg.marked = false := Bool.eq_false_iff.mpr hmarked
    rw [decideEvery_cons hmarked, List.filter_cons_of_pos (by rw [hmarked]; rfl)] at hkept
    rw [isChain_cons_of_not_marked hmarked]
    exact ih (List.cons.inj hkept).2

theorem decideEvery_of_isChain (forms : List RegForm) (w : RegWorld)
    (hchain : forms.IsChain fun a b => a.marked = false ∨ b.marked = false) :
    decideEvery reasonBuf forms w =
      (forms.filter (!·.marked), (forms.filter (·.marked)).foldl (decideForm reasonBuf) w) := by
  induction forms, w using decideEvery.induct reasonBuf with
  | case1 => rfl
  | case2 w reg hmarked =>
    rw [decideEvery_singleton hmarked, List.filter_singleton, List.filter_singleton, hmarked]
    rfl
  | case3 w reg hmarked next rest kept w' hrest ih =>
    rw [List.isChain_cons_cons] at hchain
    have hnext : next.marked = false := hchain.1.resolve_left (by rw [hmarked]; decide)
    rw [decideEvery_cons_cons hmarked, ih ((isChain_cons_of_not_marked hnext).mp hchain.2),
      List.filter_cons_of_neg (by rw [hmarked]; decide), List.filter_cons_of_pos (by rw [hnext]; rfl),
      List.filter_cons_of_pos hmarked, List.filter_cons_of_neg (by rw [hnext]; decide)]
    rfl
  | case4 reg rest w hmarked kept w' hrest ih =>
    have hmarked : reg.marked = false := Bool.eq_false_iff.mpr hmarked
    rw [decideEvery_cons hmarked, ih ((isChain_cons_of_not_marked hmarked).mp hchain),
      List.filter_cons_of_pos (by rw [hmarked]; rfl), List.filter_cons_of_neg (by rw [hmarked]; decide)]

def formToDelete (userid : Bytes) : RegForm := ⟨userid, 68, [], .inr (.inr (.inl rfl))⟩

end ArgoBbs

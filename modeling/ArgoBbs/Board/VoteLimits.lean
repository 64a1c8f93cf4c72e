import ArgoBbs.Board.Ballots

/-! # The limits of a poll

An administrator can limit who votes in a poll with `setvoteperm`. It offers three restrictions, all
of which may be in force together: a permission, the list of voters, and the conditions on the
logins, the posts, the time of stay and the age of the account. `user_vote` checks them (`vote.c`). -/

namespace ArgoBbs

/-- The loop of `setperms`, with the characters that are typed in; the prompt is not the one of the
settings. -/
def setperms (numbers : UInt8) (pbits : BitVec 32) : List UInt8 → Option (BitVec 32)
  | [] => none
  | choice :: choices =>
    let c := toupper choice
    if c = 48 then some 0
    else if c = 10 ∨ c = 0 then some pbits
    else if c < 65 ∨ 65 + (numbers - 1) < c then setperms numbers pbits choices
    else setperms numbers (pbits ^^^ BitVec.twoPow 32 (c - 65).toNat) choices

/-- `NUMPERMS` -/
def numPerms : UInt8 := 30

/-- What is typed in for a number in `setvoteperm`, four characters at most, up to the first text
that is not empty. The number is not signed, so that it is never less than 0. -/
def votepermNumber : List Bytes → Option Nat
  | [] => none
  | buf :: bufs =>
    if 4 < buf.length then none
    else if buf = [] then votepermNumber bufs
    else some (atoi buf % 2 ^ 32).toNat

/-- The answers in `setvoteperm`: for the permissions and the conditions, whether the restriction is
taken back or wanted, and then whether it is set anew. -/
structure VotepermAnswers where
  begins : Bool
  perm : Bool
  permAnew : Bool
  choices : List UInt8
  listChange : Bool
  cond : Bool
  condAnew : Bool
  numbers : List Bytes × List Bytes × List Bytes × List Bytes
  confirms : Bool

namespace Votebal

def perms (v : Votebal) : BitVec 32 := v.level &&& ~~~(listMask ||| voteMask)

/-- The first part of `setvoteperm`. -/
def setPermLimit (v : Votebal) (a : VotepermAnswers) : Option Votebal :=
  let without := { v with level := v.level &&& (listMask ||| voteMask) }
  let anew := (setperms numPerms v.level a.choices).map fun level => { v with level }
  if v.perms ≠ 0 then
    if a.perm then some without
    else if a.permAnew then anew
    else some v
  else if a.perm then anew
  else some without

def setListLimit (v : Votebal) (a : VotepermAnswers) : Votebal :=
  if a.listChange then
    if v.level &&& listMask ≠ 0 then { v with level := v.level &&& ~~~listMask }
    else { v with level := v.level ||| listMask }
  else v

def setCondLimit (v : Votebal) (a : VotepermAnswers) : Option Votebal :=
  let without := { v with level := v.level &&& ~~~voteMask }
  let anew :=
    match votepermNumber a.numbers.1, votepermNumber a.numbers.2.1,
      votepermNumber a.numbers.2.2.1, votepermNumber a.numbers.2.2.2 with
    | some xLogins, some xPosts, some xStay, some xLive =>
      some { v with level := v.level ||| voteMask, xLogins, xPosts, xStay, xLive }
    | _, _, _, _ => none
  if v.level &&& voteMask ≠ 0 then
    if a.cond then some without
    else if a.condAnew then anew
    else some v
  else if a.cond then anew
  else some without

/-- The poll in the control file after `setvoteperm`. -/
def setvoteperm (v : Votebal) (a : VotepermAnswers) : Option Votebal :=
  if a.begins then
    ((v.setPermLimit a).bind fun v => (v.setListLimit a).setCondLimit a).map fun set =>
      if a.confirms then set else v
  else some v

/-! ## What the restrictions mean -/

def Permits (v : Votebal) (u : Voter) : Prop := v.perms = 0 ∨ u.userlevel &&& v.perms ≠ 0

def Lists (v : Votebal) : Prop := v.level &&& listMask ≠ 0

def Limits (v : Votebal) : Prop := v.level &&& voteMask ≠ 0

/-- The logins, the posts, the hours of stay and the days of the account are enough. -/
def Qualifies (v : Votebal) (u : Voter) : Prop :=
  v.xLogins ≤ u.numlogins ∧ v.xPosts ≤ u.numposts ∧ v.xStay * 3600 ≤ u.stay ∧
    u.firstlogin ≤ v.opendate - (v.xLive * 86400 : Nat)

/-- The same with products in 32 bits. -/
def QualifiesMod (v : Votebal) (u : Voter) : Prop :=
  v.xLogins ≤ u.numlogins ∧ v.xPosts ≤ u.numposts ∧ v.xStay * 3600 % 2 ^ 32 ≤ u.stay ∧
    u.firstlogin ≤ v.opendate - (v.xLive * 86400 % 2 ^ 32 : Nat)

/-- The user meets all restrictions that are in force. -/
def Accepts (v : Votebal) (u : Voter) : Prop :=
  u.firstlogin ≤ v.opendate ∧ v.Permits u ∧ (v.Lists → u.listed = true) ∧
    (v.Limits → v.Qualifies u)

/-- The second poll is the first one with more of the three restrictions. -/
structure Restricts (v v' : Votebal) : Prop where
  opendate : v.opendate = v'.opendate
  perms : v.perms = 0 ∨ v.perms = v'.perms
  lists : v.Lists → v'.Lists
  limits : v.Limits → v'.Limits ∧ v.xLogins = v'.xLogins ∧ v.xPosts = v'.xPosts ∧
    v.xStay = v'.xStay ∧ v.xLive = v'.xLive

/-- Just the users that meet the restrictions may vote, and no one that was refused before there
were as many. -/
def AdmitsRight (v : Votebal) (u : Voter) : Prop :=
  (v.admits u = true ↔ v.Accepts u) ∧
    ∀ v₀, Restricts v₀ v → v.admits u = true → v₀.admits u = true

/-- The user meets all restrictions but the conditions, and these are not asked for since there is a
list of voters, or they are met in 32 bits. -/
def Hides (v : Votebal) (u : Voter) : Prop :=
  u.firstlogin ≤ v.opendate ∧ v.Permits u ∧ (v.Lists → u.listed = true) ∧
    (v.Limits ∧ ¬v.Qualifies u) ∧ (v.Lists ∨ v.QualifiesMod u)

/-! ## All combinations are offered -/

/-- The letter of a permission. -/
def permLetter (i : Nat) : UInt8 := UInt8.ofNat (65 + i)

/-- The letters of the permissions in a word, up to a number. -/
def permLetters (level : BitVec 32) (n : Nat) : List UInt8 :=
  ((List.range n).filter level.getLsbD).map permLetter

section
variable {v : Votebal} {level pbits : BitVec 32} {i n : Nat} {choices : List UInt8}

theorem setperms_letter (h : i < 30) :
    setperms numPerms pbits (permLetter i :: choices) =
      setperms numPerms (pbits ^^^ BitVec.twoPow 32 i) choices := by
  have hletters : ∀ i < 30, let c := permLetter i
      toupper c = c ∧ c ≠ 48 ∧ ¬(c = 10 ∨ c = 0) ∧ ¬(c < 65 ∨ 65 + (numPerms - 1) < c) ∧
        (c - 65).toNat = i := by decide
  obtain ⟨hupper, hzero, hend, hperm, hi⟩ := hletters i h
  rw [setperms, hupper, if_neg hzero, if_neg hend, if_neg hperm, hi]

theorem setWidth_succ_false (h : level.getLsbD n = false) :
    (level.setWidth (n + 1)).setWidth 32 = (level.setWidth n).setWidth 32 := by
  ext i hi
  simp only [BitVec.getElem_setWidth, BitVec.getLsbD_setWidth]
  obtain hlt | rfl | hlt := Nat.lt_trichotomy i n
  · rw [decide_eq_true hlt, decide_eq_true (Nat.lt_succ_of_lt hlt)]
  · rw [h, Bool.and_false, Bool.and_false]
  · rw [decide_eq_false (Nat.not_lt.mpr hlt), decide_eq_false (Nat.lt_asymm hlt)]

theorem setWidth_succ_true (h : level.getLsbD n = true) :
    (level.setWidth (n + 1)).setWidth 32 =
      (level.setWidth n).setWidth 32 ^^^ BitVec.twoPow 32 n := by
  ext i hi
  simp only [BitVec.getElem_xor, BitVec.getElem_setWidth, BitVec.getLsbD_setWidth,
    BitVec.getElem_twoPow]
  obtain hlt | rfl | hlt := Nat.lt_trichotomy i n
  · rw [decide_eq_true hlt, decide_eq_true (Nat.lt_succ_of_lt hlt), decide_eq_false hlt.ne,
      Bool.xor_false]
  · rw [decide_eq_true (Nat.lt_succ_self i), h, decide_eq_false (Nat.lt_irrefl i),
      decide_eq_true rfl]
    rfl
  · rw [decide_eq_false (Nat.not_lt.mpr hlt), decide_eq_false (Nat.lt_asymm hlt),
      decide_eq_false hlt.ne']
    rfl

/-- The letters turn their permissions over. -/
theorem setperms_letters (hn : n ≤ 30) (pbits : BitVec 32) (choices : List UInt8) :
    setperms numPerms pbits (permLetters level n ++ choices) =
      setperms numPerms (pbits ^^^ (level.setWidth n).setWidth 32) choices := by
  induction n generalizing choices with
  | zero =>
    have hzero : (level.setWidth 0).setWidth 32 = 0#32 := by
      ext i
      simp
    rw [hzero, BitVec.xor_zero]
    rfl
  | succ n ih =>
    rw [permLetters, List.range_succ, List.filter_append, List.map_append, List.append_assoc,
      ← permLetters, ih (Nat.le_of_succ_le hn)]
    cases hbit : level.getLsbD n with
    | false =>
      rw [setWidth_succ_false hbit, List.filter_cons_of_neg (by rw [hbit]; decide)]
      rfl
    | true =>
      rw [setWidth_succ_true hbit, ← BitVec.xor_assoc, List.filter_cons_of_pos hbit]
      exact setperms_letter hn

theorem and_not_eq_self {mask : BitVec 32} (h : level &&& mask = 0) :
    level &&& ~~~mask = level := by
  ext i hi
  have hbit : (level &&& mask)[i] = false := by
    rw [h]
    exact BitVec.getElem_zero hi
  rw [BitVec.getElem_and] at hbit
  rw [BitVec.getElem_and, BitVec.getElem_not]
  cases hlevel : level[i] with
  | false => rfl
  | true =>
    rw [hlevel, Bool.true_and] at hbit
    rw [hbit]
    rfl

/-- From a poll without restrictions every word of permissions and masks can be set. -/
theorem exists_setvoteperm (hv : v.level = 0) (hlevel : (level.setWidth 30).setWidth 32 = level) :
    ∃ a, v.setvoteperm a = some { v with level } := by
  let a : VotepermAnswers := ⟨true, true, false, permLetters level 30 ++ [10], false, false, false,
    ([], [], [], []), true⟩
  have hzero : v.level ^^^ level = level := hv ▸ BitVec.zero_xor
  have hset : setperms numPerms v.level a.choices = some level := by
    rw [setperms_letters (Nat.le_refl 30), hlevel, hzero]
    rfl
  have hperms : v.perms = 0 := by
    rw [perms, hv]
    exact BitVec.zero_and
  have hperm : v.setPermLimit a = some { v with level } := by
    rw [setPermLimit, if_neg (not_not_intro hperms), hset]
    rfl
  have hcond : setCondLimit { v with level } a = some { v with level } := by
    rw [setCondLimit]
    split
    · rfl
    · rename_i hmask
      exact congrArg some (congrArg (fun level => { v with level })
        (and_not_eq_self (Classical.not_not.mp hmask)))
  refine ⟨a, ?_⟩
  rw [setvoteperm, hperm]
  exact congrArg (Option.map _) hcond

end

section
variable {v v' : Votebal} {u : Voter}

theorem Qualifies.mod (h : v.Qualifies u) : v.QualifiesMod u := by
  obtain ⟨hlogins, hposts, hstay, hlive⟩ := h
  have hmod := Nat.mod_le (v.xStay * 3600) (2 ^ 32)
  have hmod' := Nat.mod_le (v.xLive * 86400) (2 ^ 32)
  exact ⟨hlogins, hposts, hmod.trans hstay, by omega⟩

/-- The conditions are asked for only if there is no list. -/
theorem admits_iff : v.admits u = true ↔ u.firstlogin ≤ v.opendate ∧ v.Permits u ∧
    (v.Lists → u.listed = true) ∧ (¬v.Lists → v.Limits → v.QualifiesMod u) := by
  have hqualifies : (!(decide (u.numlogins < v.xLogins) || decide (u.numposts < v.xPosts) ||
      decide (u.stay < v.xStay * 3600 % 2 ^ 32) ||
        decide (v.opendate - (v.xLive * 86400 % 2 ^ 32 : Nat) < u.firstlogin))) = true ↔
      v.QualifiesMod u := by
    simp only [Bool.not_eq_true', Bool.or_eq_false_iff, decide_eq_false_iff_not, not_lt,
      Int.not_lt, and_assoc, QualifiesMod]
  rw [admits]
  split
  case isTrue hyounger => exact iff_of_false nofun fun h => absurd h.1 (Int.not_le.mpr hyounger)
  case isFalse hyounger =>
    rw [and_iff_right (Int.not_lt.mp hyounger)]
    split
    case isTrue hperms =>
      refine iff_of_false nofun fun h => ?_
      obtain hzero | hsome := h.1
      · exact hperms.1 hzero
      · exact hsome hperms.2
    case isFalse hperms =>
      have hpermits : v.Permits u := by
        by_cases hzero : v.perms = 0
        · exact .inl hzero
        · exact .inr fun hnone => hperms ⟨hzero, hnone⟩
      rw [and_iff_right hpermits]
      split
      case isTrue hlists =>
        exact ⟨fun h => ⟨fun _ => h, fun hnot => absurd hlists hnot⟩, fun h => h.1 hlists⟩
      case isFalse hlists =>
        have hlists : ¬v.Lists := hlists
        rw [and_iff_right fun h => absurd h hlists]
        split
        case isTrue hlimits =>
          rw [hqualifies]
          exact ⟨fun h _ _ => h, fun h => h hlists hlimits⟩
        case isFalse hlimits => exact iff_of_true rfl fun _ h => absurd h hlimits

theorem admits_of_accepts (h : v.Accepts u) : v.admits u = true := by
  obtain ⟨holder, hpermits, hlisted, hqualifies⟩ := h
  exact admits_iff.mpr ⟨holder, hpermits, hlisted, fun _ hlimits => (hqualifies hlimits).mod⟩

/-- With fewer restrictions no user is refused that meets them all. -/
theorem Accepts.of_restricts (h : v'.Accepts u) (hle : Restricts v v') : v.Accepts u := by
  obtain ⟨holder, hpermits, hlisted, hqualifies⟩ := h
  refine ⟨hle.opendate ▸ holder, ?_, fun hlists => hlisted (hle.lists hlists), fun hlimits => ?_⟩
  · obtain hzero | heq := hle.perms
    · exact .inl hzero
    · rwa [Permits, heq]
  · obtain ⟨hlimits', hlogins, hposts, hstay, hlive⟩ := hle.limits hlimits
    rw [Qualifies, hlogins, hposts, hstay, hlive, hle.opendate]
    exact hqualifies hlimits'

end

/-! ## A poll with all restrictions -/

/-- A permission is wanted, the list, and ten logins. -/
def demoAnswers : VotepermAnswers where
  begins := true
  perm := true
  permAnew := false
  choices := [65, 10]
  listChange := true
  cond := true
  condAnew := false
  numbers := ([bytes "10"], [bytes "0"], [bytes "0"], [bytes "0"])
  confirms := true

def demoLimited : Votebal := ⟨.yn, 1, 1000, permBasic ||| listMask ||| voteMask, 10, 0, 0, 0⟩

end Votebal

end ArgoBbs

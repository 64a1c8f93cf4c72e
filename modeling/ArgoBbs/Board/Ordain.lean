import ArgoBbs.Board.ManagerNames
import ArgoBbs.Lib.Flags
import ArgoBbs.Lib.Reach
import ArgoBbs.Permissions
import Mathlib.Logic.Function.Basic

/-! # Appointing and retiring managers

`m_ordainBM` writes the name of a user behind those of the managers of a board and `m_retireBM`
takes one out; with the last post goes the permission (`maintain.c`). One administrator does one
after the other, and the files can be written. -/

namespace ArgoBbs

def bmLen : Nat := 40

/-- The users by their numbers, of whom no two have the same name up to case. -/
structure BmUsers where
  ids : List Bytes
  names : ∀ userid ∈ ids, IsUserName userid
  distinct : (ids.map (·.map tolower)).Nodup

/-- The field `BM` of each board, and the levels of the users. -/
structure BmState where
  bms : List Bytes
  userlevel : Nat → BitVec 32

/-- A user, a board, and the answers to the questions. -/
inductive BmOp
  | ordain (id pos : Nat) (clears confirmed : Bool)
  | retire (id pos : Nat) (confirmed : Bool)

def bmCount (userid : Bytes) : List Bytes → Option Nat
  | [] => some 0
  | bm :: bms => do
    let isBm ← checkBm userid bm
    let count ← bmCount userid bms
    return if isBm then count + 1 else count

/-- The cells of `usernames` that the loop has filled, and what it has written to the next one; it
fails if it leaves the table or a cell. -/
def splitBm : Bytes → List Bytes → Bytes → Option (List Bytes)
  | [], usernames, name =>
    if usernames.length < 3 ∧ name.length < strLen then some (usernames ++ [name]) else none
  | c :: bm, usernames, name =>
    if usernames.length < 3 ∧ name.length < strLen then
      if c = 32 then splitBm bm (usernames ++ [name]) [] else splitBm bm usernames (name ++ [c])
    else none

/-- The loop that moves the names behind the one that is retired. -/
def shiftBm (userid : Bytes) (right : Bool) : List Bytes → Bool × List Bytes
  | [] => (right, [])
  | [name] => (right || name = userid, [name])
  | name :: next :: rest =>
    let right := right || name = userid
    let (found, shifted) := shiftBm userid right (next :: rest)
    (found, (if right then next else name) :: shifted)

/-- `overlap genbuf name` is what `snprintf(genbuf, sizeof(genbuf), "%s %s", genbuf, name)` leaves;
by the standard of C this is undefined, since the call reads what it writes. -/
def rejoinBm (overlap : Bytes → Bytes → Bytes) : List Bytes → Bytes
  | [] => []
  | name :: usernames => usernames.foldl overlap name

def grantBoards (id : Nat) (userlevel : Nat → BitVec 32) : Nat → BitVec 32 :=
  if userlevel id &&& permBoards = 0 then
    Function.update userlevel id (userlevel id ||| permBoards)
  else userlevel

/-- `m_ordainBM`, from the questions about the managers on. -/
def ordainManager (userid bm : Bytes) (id pos : Nat) (clears confirmed : Bool) (s : BmState) :
    Option BmState :=
  let sysop := bm.take 5 = bytes "SYSOP"
  if sysop ∧ clears = false then some s
  else if bm ≠ [] ∧ ¬sysop ∧ bm.count 32 + 1 = 3 then some s
  else
    let bm := if sysop then [] else bm
    (checkBm userid bm).map fun isBm =>
      if isBm || !confirmed then s
      else
        let genbuf := if bm = [] then userid else bm ++ 32 :: userid
        { bms := s.bms.set pos (strlcpy bmLen genbuf), userlevel := grantBoards id s.userlevel }

/-- `m_retireBM`, when the user and the board are known. -/
def retireManager (overlap : Bytes → Bytes → Bytes) (userid bm : Bytes) (id pos : Nat)
    (confirmed : Bool) (s : BmState) : Option BmState := do
  let isBm ← checkBm userid bm
  if !isBm then return s
  let usernames ← splitBm bm [] []
  let (right, shifted) := shiftBm userid false usernames
  if !right || !confirmed then return s
  let genbuf := rejoinBm overlap (shifted.take (usernames.length - 1))
  let bms := s.bms.set pos (strlcpy bmLen genbuf)
  let count ← bmCount userid bms
  let level := s.userlevel id
  if count = 0 ∧ level &&& permOboards = 0 ∧ level &&& permSysop = 0 then
    return { bms, userlevel := Function.update s.userlevel id (level &&& ~~~permBoards) }
  return { s with bms }

namespace BmUsers
variable (t : BmUsers)

def mOrdainBM (id pos : Nat) (clears confirmed : Bool) (s : BmState) : Option BmState :=
  match t.ids[id]? with
  | none => some s
  | some userid =>
    if userid = bytes "guest" then some s
    else
      match s.bms[pos]? with
      | none => some s
      | some bm => ordainManager userid bm id pos clears confirmed s

def mRetireBM (overlap : Bytes → Bytes → Bytes) (id pos : Nat) (confirmed : Bool) (s : BmState) :
    Option BmState :=
  match t.ids[id]? with
  | none => some s
  | some userid =>
    match s.bms[pos]? with
    | none => some s
    | some bm => retireManager overlap userid bm id pos confirmed s

def step (overlap : Bytes → Bytes → Bytes) (s : BmState) : BmOp → Option BmState
  | .ordain id pos clears confirmed => t.mOrdainBM id pos clears confirmed s
  | .retire id pos confirmed => t.mRetireBM overlap id pos confirmed s

/-- `check_bm` finds the user on the board. -/
def finds (s : BmState) (id pos : Nat) : Bool :=
  (t.ids[id]?).any fun userid => (s.bms[pos]?).any fun bm => checkBm userid bm = some true

/-- `check_bm` finds the user on another board. -/
def findsElsewhere (s : BmState) (id pos : Nat) : Bool :=
  (List.range s.bms.length).any fun board => board ≠ pos && t.finds s id board

end BmUsers

/-! ## Posts -/

/-- The managers of the boards, and the users who have been appointed. -/
structure Posts where
  managers : Nat → List Bytes
  appointed : List Nat

namespace Posts

def vacant : Posts := ⟨fun _ => [], []⟩

def appoint (a : Posts) (id pos : Nat) (names : List Bytes) : Posts :=
  ⟨Function.update a.managers pos names, id :: a.appointed⟩

/-- The user becomes a manager, if the appointment is confirmed. Where `SYSOP` is the first manager,
the managers end with him, if that is wanted. -/
def ordain (a : Posts) (userid : Bytes) (id pos : Nat) (clears confirmed : Bool) : Posts :=
  let names := a.managers pos
  if confirmed = false then a
  else if names.head? = some (bytes "SYSOP") then
    if clears then a.appoint id pos [userid] else a
  else if !names.contains userid && names.length < 3 then a.appoint id pos (names ++ [userid])
  else a

def retire (a : Posts) (userid : Bytes) (pos : Nat) (confirmed : Bool) : Posts :=
  if confirmed then
    { a with managers := Function.update a.managers pos ((a.managers pos).erase userid) }
  else a

theorem ordain_sysop {a : Posts} {userid : Bytes} {id pos : Nat} {clears : Bool}
    (hhead : (a.managers pos).head? = some (bytes "SYSOP")) :
    a.ordain userid id pos clears true = if clears then a.appoint id pos [userid] else a :=
  if_pos hhead

theorem ordain_add {a : Posts} {userid : Bytes} {id pos : Nat} {clears : Bool}
    (hhead : (a.managers pos).head? ≠ some (bytes "SYSOP")) :
    a.ordain userid id pos clears true =
      if !(a.managers pos).contains userid && (a.managers pos).length < 3 then
        a.appoint id pos (a.managers pos ++ [userid])
      else a :=
  if_neg hhead

/-- What an operation is for, with `n` boards; `guest` does not become a manager. -/
def apply (t : BmUsers) (n : Nat) (a : Posts) : BmOp → Posts
  | .ordain id pos clears confirmed =>
    match t.ids[id]? with
    | none => a
    | some userid =>
      if userid = bytes "guest" then a
      else if n ≤ pos then a
      else a.ordain userid id pos clears confirmed
  | .retire id pos confirmed =>
    match t.ids[id]? with
    | none => a
    | some userid => a.retire userid pos confirmed

/-- By an appointment only those lose a post who share it with `SYSOP`. -/
theorem mem_apply_ordain (t : BmUsers) (n : Nat) (a : Posts) (id pos : Nat)
    (clears confirmed : Bool) {board : Nat} {name : Bytes} (hname : name ∈ a.managers board) :
    name ∈ (a.apply t n (.ordain id pos clears confirmed)).managers board ∨
      bytes "SYSOP" ∈ a.managers board := by
  have happoint : ∀ names, (board = pos → name ∈ names ∨ bytes "SYSOP" ∈ a.managers board) →
      name ∈ (a.appoint id pos names).managers board ∨ bytes "SYSOP" ∈ a.managers board := by
    intro names hnames
    dsimp only [appoint]
    rcases eq_or_ne board pos with rfl | hne
    · rw [Function.update_self]
      exact hnames rfl
    · rw [Function.update_of_ne hne]
      exact .inl hname
  rw [apply]
  split
  · exact .inl hname
  · split
    · exact .inl hname
    · split
      · exact .inl hname
      · rw [ordain]
        split
        · exact .inl hname
        · split
          case isTrue hhead =>
            split
            · exact happoint _ fun hboard => .inr (List.mem_of_mem_head? (hboard ▸ hhead))
            · exact .inl hname
          case isFalse =>
            split
            · exact happoint _ fun hboard => .inl (List.mem_append_left _ (hboard ▸ hname))
            · exact .inl hname

end Posts

/-- Neither `PERM_OBOARDS` nor `PERM_SYSOP`. -/
def plainLevel (level : BitVec 32) : Bool := level &&& permOboards = 0 && level &&& permSysop = 0

/-- The call of `snprintf` that reads what it writes appends the name. -/
def Appends (overlap : Bytes → Bytes → Bytes) : Prop :=
  ∀ text name, overlap text name = text ++ 32 :: name

namespace BmUsers
variable (t : BmUsers)

/-- The fields say who manages the boards, and the permissions follow `check_bm`. -/
structure Good (s₀ s : BmState) (a : Posts) : Prop where
  text : ∀ pos bm, s.bms[pos]? = some bm → bm = bmText (a.managers pos)
  nodup : ∀ pos, (a.managers pos).Nodup
  three : ∀ pos, (a.managers pos).length ≤ 3
  perm : ∀ id < t.ids.length, plainLevel (s.userlevel id) = true →
    (s.userlevel id &&& permBoards ≠ 0 ↔ (∃ pos, t.finds s id pos = true) ∨
      id ∉ a.appointed ∧ s₀.userlevel id &&& permBoards ≠ 0)
  stays : ∀ id pos clears confirmed board, ∀ name ∈ a.managers board,
    name ∈ (a.apply t s.bms.length (.ordain id pos clears confirmed)).managers board ∨
      bytes "SYSOP" ∈ a.managers board

/-- The first manager is called `SYSOP`, and the other managers whose permission follows their posts
have another one. -/
def MayClear (s : BmState) (bm : Bytes) (id pos : Nat) (clears : Bool) : Prop :=
  (bm.splitOn 32).head? = some (bytes "SYSOP") ∧ (clears = true →
    ∀ other < t.ids.length, other ≠ id → plainLevel (s.userlevel other) = true →
      t.finds s other pos = true → t.findsElsewhere s other pos = true)

/-- No longer name of a manager begins with that of a user who can be added. -/
def MayAdd (userid bm : Bytes) : Prop :=
  userid ∉ bm.splitOn 32 → (bm.splitOn 32).length < 3 → ∀ name ∈ bm.splitOn 32, ¬Begins userid name

/-- The code takes a text that begins with `SYSOP` for the name `SYSOP`. -/
def MayOrdain (s : BmState) (userid bm : Bytes) (id pos : Nat) (clears : Bool) : Prop :=
  (bm.take 5 = bytes "SYSOP" → t.MayClear s bm id pos clears) ∧
    (bm.take 5 ≠ bytes "SYSOP" → MayAdd userid bm)

instance (s : BmState) (bm : Bytes) (id pos : Nat) (clears : Bool) :
    Decidable (t.MayClear s bm id pos clears) :=
  inferInstanceAs (Decidable (_ ∧ _))

instance (userid bm : Bytes) : Decidable (MayAdd userid bm) :=
  inferInstanceAs (Decidable (_ → _))

instance (s : BmState) (userid bm : Bytes) (id pos : Nat) (clears : Bool) :
    Decidable (t.MayOrdain s userid bm id pos clears) :=
  inferInstanceAs (Decidable (_ ∧ _))

/-- A manager is retired where there are not three, unless the call of `snprintf` appends. -/
def Careful (overlap : Bytes → Bytes → Bytes) (s : BmState) : BmOp → Prop
  | .ordain id pos clears confirmed => ∀ userid ∈ t.ids[id]?, ∀ bm ∈ s.bms[pos]?,
    confirmed = true → userid ≠ bytes "guest" → t.MayOrdain s userid bm id pos clears
  | .retire id pos confirmed => ∀ userid ∈ t.ids[id]?, ∀ bm ∈ s.bms[pos]?,
    confirmed = true → userid ∈ bm.splitOn 32 → (bm.splitOn 32).length < 3 ∨ Appends overlap

instance (overlap : Bytes → Bytes → Bytes) [Decidable (Appends overlap)] (s : BmState) :
    (op : BmOp) → Decidable (t.Careful overlap s op)
  | .ordain id pos _ _ => inferInstanceAs (Decidable (∀ userid ∈ t.ids[id]?, ∀ bm ∈ s.bms[pos]?, _))
  | .retire id pos _ => inferInstanceAs (Decidable (∀ userid ∈ t.ids[id]?, ∀ bm ∈ s.bms[pos]?, _))

/-- The fields of `n` boards are the texts of the managers, who are at most three on each, and no
name begins with a later one. -/
structure Texts (n : Nat) (bms : List Bytes) (managers : Nat → List Bytes) : Prop where
  size : bms.length = n
  outside : ∀ pos, bms.length ≤ pos → managers pos = []
  text : ∀ pos < bms.length, bms[pos]? = some (bmText (managers pos))
  users : ∀ pos, ∀ name ∈ managers pos, name ∈ t.ids
  three : ∀ pos, (managers pos).length ≤ 3
  first : ∀ pos, (managers pos).Pairwise fun name later => ¬Begins later name

/-- Managers have been appointed, and the users who have been appointed have the permission just if
they are managers. -/
structure Inv (s₀ s : BmState) (a : Posts) : Prop
    extends t.Texts s₀.bms.length s.bms a.managers where
  appointed : ∀ id userid, t.ids[id]? = some userid → ∀ pos, userid ∈ a.managers pos →
    id ∈ a.appointed
  perm : ∀ id userid, t.ids[id]? = some userid → plainLevel (s.userlevel id) = true →
    (s.userlevel id &&& permBoards ≠ 0 ↔ (∃ pos, userid ∈ a.managers pos) ∨
      id ∉ a.appointed ∧ s₀.userlevel id &&& permBoards ≠ 0)

variable {t} {overlap : Bytes → Bytes → Bytes} {s₀ s : BmState} {a : Posts} {userid : Bytes}
  {names : List Bytes} {id id' pos : Nat} {clears confirmed : Bool}

theorem grantBoards_self (userlevel : Nat → BitVec 32) :
    grantBoards id userlevel id &&& permBoards ≠ 0 := by
  rw [grantBoards]
  split
  case isTrue =>
    rw [Function.update_self, or_and_self]
    decide
  case isFalse hlevel => exact hlevel

theorem grantBoards_of_ne {userlevel : Nat → BitVec 32} (hne : id' ≠ id) :
    grantBoards id userlevel id' = userlevel id' := by
  rw [grantBoards]
  split
  · exact Function.update_of_ne hne _ _
  · rfl

theorem names_of_mem (husers : ∀ name ∈ names, name ∈ t.ids) : ∀ name ∈ names, IsUserName name :=
  fun name hname => t.names name (husers name hname)

/-- The number of a user is told by the name, up to case. -/
theorem id_eq {name : Bytes} (hid : t.ids[id]? = some userid) (hid' : t.ids[id']? = some name)
    (hcase : userid.map tolower = name.map tolower) : id = id' := by
  have hlt : id < t.ids.length := (List.getElem?_eq_some_iff.mp hid).1
  refine (List.getElem?_inj (by rwa [List.length_map]) t.distinct).mp ?_
  rw [List.getElem?_map, List.getElem?_map, hid, hid', Option.map_some, Option.map_some, hcase]

theorem name_eq {name : Bytes} (hid : userid ∈ t.ids) (hname : name ∈ t.ids)
    (hcase : userid.map tolower = name.map tolower) : userid = name := by
  obtain ⟨i, hi⟩ := List.mem_iff_getElem?.mp hid
  obtain ⟨j, hj⟩ := List.mem_iff_getElem?.mp hname
  obtain rfl := id_eq hi hj hcase
  exact Option.some.inj (hi.symm.trans hj)

/-- Three names fit into the field. -/
theorem strlcpy_bmText (husers : ∀ name ∈ names, name ∈ t.ids) (hthree : names.length ≤ 3) :
    strlcpy bmLen (bmText names) = bmText names := by
  refine List.take_of_length_le ?_
  have hlen : (bmText names).length ≤ names.length * (idLen + 1) :=
    length_joined_le fun name hname => (names_of_mem husers name hname).length_le
  have hfits : names.length * (idLen + 1) ≤ 3 * (idLen + 1) := Nat.mul_le_mul_right _ hthree
  exact hlen.trans hfits

theorem splitOn_bmText (husers : ∀ name ∈ names, name ∈ t.ids) (hne : names ≠ []) :
    (bmText names).splitOn 32 = names :=
  List.splitOn_intercalate 32 (fun name hname => (names_of_mem husers name hname).blank) hne

theorem bmText_eq_nil_iff (husers : ∀ name ∈ names, name ∈ t.ids) :
    bmText names = [] ↔ names = [] :=
  joined_eq_nil_iff fun name hname => (names_of_mem husers name hname).ne_nil

/-- The text that the new name stands at the end of. -/
theorem bmText_concat (husers : ∀ name ∈ names, name ∈ t.ids) (userid : Bytes) :
    (if bmText names = [] then userid else bmText names ++ 32 :: userid) =
      bmText (names ++ [userid]) := by
  by_cases hnil : bmText names = []
  · rw [if_pos hnil, (bmText_eq_nil_iff husers).mp hnil, List.nil_append, bmText, joined_singleton]
  · rw [if_neg hnil, bmText, bmText, joined_concat (mt (bmText_eq_nil_iff husers).mpr hnil)]

/-- The text begins with the name of the first manager. -/
theorem take_bmText {name : Bytes} (hhead : names.head? = some name) :
    (bmText names).take name.length = name := by
  obtain ⟨rest, rfl⟩ := List.head?_eq_some_iff.mp hhead
  rcases eq_or_ne rest [] with rfl | hne
  · rw [bmText, joined_singleton, List.take_length]
  · rw [bmText, joined_cons hne, List.take_left]

/-- The code counts the managers by the blanks. -/
theorem full_iff (husers : ∀ name ∈ names, name ∈ t.ids) :
    bmText names ≠ [] ∧ (bmText names).count 32 + 1 = 3 ↔ names.length = 3 := by
  by_cases hnil : names = []
  · refine iff_of_false (fun h => h.1 ((bmText_eq_nil_iff husers).mpr hnil)) ?_
    rw [hnil]
    decide
  · have hcount : (bmText names).count 32 + 1 = names.length :=
      count_joined (fun name hname => (names_of_mem husers name hname).blank) hnil
    rw [hcount]
    exact and_iff_right (mt (bmText_eq_nil_iff husers).mp hnil)

/-! ## What `m_ordainBM` writes -/

/-- Without the last answer nothing is written. -/
theorem ordainManager_cancelled (H : IsUserName userid) (bm : Bytes) (s : BmState) :
    ordainManager userid bm id pos clears false s = some s := by
  obtain ⟨isBm, hcheck, -⟩ := checkBm_eq H.bmOpens H.ne_nil
    (if bm.take 5 = bytes "SYSOP" then [] else bm)
  rw [ordainManager]
  dsimp only
  rw [hcheck, Option.map_some, Bool.not_false, Bool.or_true, if_pos rfl, ite_self, ite_self]

theorem ordainManager_kept {bm : Bytes} (hsysop : bm.take 5 = bytes "SYSOP") :
    ordainManager userid bm id pos false confirmed s = some s := by
  rw [ordainManager]
  exact if_pos ⟨hsysop, rfl⟩

theorem ordainManager_cleared {bm : Bytes} (H : IsUserName userid)
    (hsysop : bm.take 5 = bytes "SYSOP") : ordainManager userid bm id pos true true s =
      some ⟨s.bms.set pos (strlcpy bmLen userid), grantBoards id s.userlevel⟩ := by
  have hcheck : checkBm userid [] = some false :=
    checkBm_bmText H fun name hname => absurd hname List.not_mem_nil
  rw [ordainManager]
  dsimp only
  rw [if_neg fun h => Bool.false_ne_true h.2.symm, if_neg fun h => h.2.1 hsysop, if_pos hsysop,
    hcheck]
  rfl

theorem ordainManager_full {bm : Bytes} (hsysop : bm.take 5 ≠ bytes "SYSOP")
    (hfull : bm ≠ [] ∧ bm.count 32 + 1 = 3) :
    ordainManager userid bm id pos clears confirmed s = some s := by
  rw [ordainManager]
  dsimp only
  rw [if_neg fun h => hsysop h.1]
  exact if_pos ⟨hfull.1, hsysop, hfull.2⟩

theorem ordainManager_checked {bm : Bytes} {isBm : Bool} (hsysop : bm.take 5 ≠ bytes "SYSOP")
    (hroom : ¬(bm ≠ [] ∧ bm.count 32 + 1 = 3)) (hcheck : checkBm userid bm = some isBm) :
    ordainManager userid bm id pos clears true s = some (if isBm then s else
      ⟨s.bms.set pos (strlcpy bmLen (if bm = [] then userid else bm ++ 32 :: userid)),
        grantBoards id s.userlevel⟩) := by
  rw [ordainManager]
  dsimp only
  rw [if_neg fun h => hsysop h.1, if_neg fun h => hroom ⟨h.1, h.2.2⟩, if_neg hsysop, hcheck,
    Option.map_some, Bool.not_true, Bool.or_false]

/-! ## What `m_retireBM` writes -/

/-- The bytes of a name go into the cell that the loop is at. -/
theorem splitBm_append {usernames : List Bytes} {name : Bytes} (hname : 32 ∉ name)
    (hcell : usernames.length < 3) (written : Bytes) (hlen : (written ++ name).length ≤ strLen)
    (bm : Bytes) :
    splitBm (name ++ bm) usernames written = splitBm bm usernames (written ++ name) := by
  induction name generalizing written with
  | nil => rw [List.nil_append, List.append_nil]
  | cons c name ih =>
    have hc : c ≠ 32 := fun h => hname (h ▸ List.mem_cons_self)
    have hstep : written ++ c :: name = written ++ [c] ++ name := List.append_cons ..
    have hroom : written.length < strLen := by
      rw [List.length_append, List.length_cons] at hlen
      omega
    rw [hstep] at hlen ⊢
    rw [List.cons_append, splitBm, if_pos ⟨hcell, hroom⟩, if_neg hc,
      ih (List.not_mem_of_not_mem_cons hname) _ hlen]

/-- The names are in the table again. -/
theorem splitBm_bmText (usernames : List Bytes) (hnames : ∀ name ∈ names, IsUserName name)
    (hne : names ≠ []) (hcells : usernames.length + names.length ≤ 3) :
    splitBm (bmText names) usernames [] = some (usernames ++ names) := by
  induction names generalizing usernames with
  | nil => exact absurd rfl hne
  | cons name names ih =>
    obtain ⟨hname, hnames⟩ := List.forall_mem_cons.mp hnames
    rw [List.length_cons] at hcells
    have hcell : usernames.length < 3 := by omega
    have hlen : name.length < strLen := Nat.lt_of_le_of_lt hname.length_le (by decide)
    rcases eq_or_ne names [] with rfl | hrest
    · have hsplit := splitBm_append hname.blank hcell [] (Nat.le_of_lt hlen) []
      rw [List.append_nil, List.nil_append] at hsplit
      rw [bmText, joined_singleton, hsplit, splitBm, if_pos ⟨hcell, hlen⟩]
    · have hsplit := splitBm_append hname.blank hcell [] (Nat.le_of_lt hlen) (32 :: bmText names)
      rw [bmText, joined_cons hrest, ← bmText, hsplit, List.nil_append, splitBm,
        if_pos ⟨hcell, hlen⟩, if_pos rfl, ih _ hnames hrest, List.append_assoc,
        List.singleton_append]
      rw [List.length_append, List.length_singleton]
      omega

/-- From the name on that is retired each name is moved. -/
theorem shiftBm_true (userid : Bytes) (hne : names ≠ []) :
    ∃ last, shiftBm userid true names = (true, names.tail ++ [last]) := by
  induction names with
  | nil => exact absurd rfl hne
  | cons name names ih =>
    cases names with
    | nil => exact ⟨name, rfl⟩
    | cons next rest =>
      obtain ⟨last, hlast⟩ := ih (List.cons_ne_nil next rest)
      refine ⟨last, ?_⟩
      rw [shiftBm]
      dsimp only
      rw [Bool.true_or, hlast]
      rfl

theorem shiftBm_mem (hmem : userid ∈ names) :
    ∃ last, shiftBm userid false names = (true, names.erase userid ++ [last]) := by
  induction names with
  | nil => exact absurd hmem List.not_mem_nil
  | cons name names ih =>
    cases names with
    | nil =>
      obtain rfl := List.mem_singleton.mp hmem
      refine ⟨userid, ?_⟩
      rw [shiftBm, List.erase_cons_head, Bool.false_or, decide_eq_true rfl, List.nil_append]
    | cons next rest =>
      rw [shiftBm]
      dsimp only
      by_cases hname : name = userid
      · obtain ⟨last, hlast⟩ := shiftBm_true userid (List.cons_ne_nil next rest)
        refine ⟨last, ?_⟩
        rw [decide_eq_true hname, Bool.or_true, hlast, hname, List.erase_cons_head]
        rfl
      · have hlater : userid ∈ next :: rest := (List.mem_cons.mp hmem).resolve_left (Ne.symm hname)
        obtain ⟨last, hlast⟩ := ih hlater
        refine ⟨last, ?_⟩
        have herase : (name :: next :: rest).erase userid = name :: (next :: rest).erase userid :=
          List.erase_cons_tail fun h => hname (eq_of_beq h)
        rw [decide_eq_false hname, Bool.or_false, hlast, herase]
        rfl

/-- The names are joined as before, if the call of `snprintf` appends or is not made. -/
theorem rejoinBm_eq (hjoin : names.length ≤ 1 ∨ Appends overlap) :
    rejoinBm overlap names = bmText names := by
  cases names with
  | nil => rfl
  | cons name names =>
    rcases hjoin with hone | happends
    · obtain rfl := List.eq_nil_of_length_eq_zero (Nat.le_zero.mp (Nat.le_of_succ_le_succ hone))
      rw [bmText, joined_singleton]
      rfl
    · have hfold : ∀ (later front : List Bytes), front ≠ [] →
          later.foldl overlap (bmText front) = bmText (front ++ later) := by
        intro later
        induction later with
        | nil =>
          intro front _
          rw [List.append_nil]
          rfl
        | cons next later ih =>
          intro front hfront
          rw [List.foldl_cons, happends, bmText, ← joined_concat hfront, ← bmText,
            ih _ (List.append_ne_nil_of_left_ne_nil hfront _), List.append_assoc,
            List.singleton_append]
      have hname : bmText [name] = name := joined_singleton
      have hall := hfold names [name] (List.cons_ne_nil name [])
      rwa [hname] at hall

theorem bmCount_spec (H : IsUserName userid) (bms : List Bytes) : ∃ count,
    bmCount userid bms = some count ∧ (count = 0 ↔ ∀ bm ∈ bms, checkBm userid bm ≠ some true) := by
  induction bms with
  | nil => exact ⟨0, rfl, iff_of_true rfl fun _ h => absurd h List.not_mem_nil⟩
  | cons bm bms ih =>
    obtain ⟨count, hcount, hzero⟩ := ih
    obtain ⟨isBm, hcheck, -⟩ := checkBm_eq H.bmOpens H.ne_nil bm
    rw [bmCount, hcheck, hcount, List.forall_mem_cons, hcheck]
    refine ⟨_, rfl, ?_⟩
    cases isBm with
    | true =>
      rw [if_pos rfl]
      exact iff_of_false (Nat.succ_ne_zero count) fun h => h.1 rfl
    | false =>
      rw [if_neg Bool.false_ne_true, hzero]
      refine (and_iff_right fun h => ?_).symm
      cases h

namespace Texts
variable {n : Nat} {bms : List Bytes} {managers : Nat → List Bytes}

/-- `check_bm` says who is a manager. -/
theorem check (T : t.Texts n bms managers) (huser : userid ∈ t.ids) (pos : Nat) :
    checkBm userid (bmText (managers pos)) = some (decide (userid ∈ managers pos)) := by
  rw [checkBm_bmText (t.names userid huser) (names_of_mem (T.users pos)),
    bmFinds_eq (fun name hname => name_eq huser (T.users pos name hname)) (T.first pos)]

theorem any_iff (T : t.Texts n bms managers) (huser : userid ∈ t.ids) (pos : Nat) :
    ((bms[pos]?).any fun bm => checkBm userid bm = some true) = true ↔ userid ∈ managers pos := by
  rcases Nat.lt_or_ge pos bms.length with hlt | hge
  · rw [T.text pos hlt, Option.any_some, T.check huser, decide_eq_true_iff, Option.some.injEq,
      decide_eq_true_iff]
  · rw [List.getElem?_eq_none hge, T.outside pos hge]
    exact iff_of_false Bool.false_ne_true List.not_mem_nil

theorem forall_iff (T : t.Texts n bms managers) (huser : userid ∈ t.ids) :
    (∀ bm ∈ bms, checkBm userid bm ≠ some true) ↔ ∀ pos, userid ∉ managers pos := by
  constructor
  · intro hnone pos hmem
    obtain ⟨bm, hbm, hcheck⟩ := (Option.any_eq_true ..).mp ((T.any_iff huser pos).mpr hmem)
    exact hnone bm (List.mem_of_getElem? hbm) (of_decide_eq_true hcheck)
  · intro hnone bm hbm hcheck
    obtain ⟨pos, hpos⟩ := List.mem_iff_getElem?.mp hbm
    refine hnone pos ((T.any_iff huser pos).mp ?_)
    rw [hpos, Option.any_some, hcheck]
    rfl

/-- The names of one board are written. -/
theorem write (T : t.Texts n bms managers) (hpos : pos < bms.length)
    (husers : ∀ name ∈ names, name ∈ t.ids) (hthree : names.length ≤ 3)
    (hfirst : names.Pairwise fun name later => ¬Begins later name) :
    t.Texts n (bms.set pos (strlcpy bmLen (bmText names)))
      (Function.update managers pos names) where
  size := List.length_set.trans T.size
  outside board hboard := by
    rw [List.length_set] at hboard
    rw [Function.update_of_ne (Nat.ne_of_gt (hpos.trans_le hboard))]
    exact T.outside board hboard
  text board hboard := by
    rw [List.length_set] at hboard
    rcases eq_or_ne board pos with rfl | hne
    · rw [List.getElem?_set_self hpos, strlcpy_bmText husers hthree, Function.update_self]
    · rw [List.getElem?_set_ne hne.symm, Function.update_of_ne hne]
      exact T.text board hboard
  users := (Function.forall_update_iff managers fun _ names => ∀ name ∈ names, name ∈ t.ids).mpr
    ⟨husers, fun board _ => T.users board⟩
  three := (Function.forall_update_iff managers fun _ names => names.length ≤ 3).mpr
    ⟨hthree, fun board _ => T.three board⟩
  first := (Function.forall_update_iff managers
    fun _ names => names.Pairwise fun name later => ¬Begins later name).mpr
      ⟨hfirst, fun board _ => T.first board⟩

end Texts

namespace Inv

theorem finds_iff (I : t.Inv s₀ s a) (hid : t.ids[id]? = some userid) (pos : Nat) :
    t.finds s id pos = true ↔ userid ∈ a.managers pos := by
  rw [finds, hid, Option.any_some]
  exact I.any_iff (List.mem_of_getElem? hid) pos

/-- A user is appointed; the others keep a post if they need it for the permission. -/
theorem appoint (I : t.Inv s₀ s a) (hid : t.ids[id]? = some userid) (hpos : pos < s.bms.length)
    (husers : ∀ name ∈ names, name ∈ t.ids) (hthree : names.length ≤ 3)
    (hfirst : names.Pairwise fun name later => ¬Begins later name) (hmem : userid ∈ names)
    (hnew : ∀ name ∈ names, name = userid ∨ name ∈ a.managers pos)
    (hkeeps : ∀ other name, t.ids[other]? = some name → other ≠ id →
      plainLevel (s.userlevel other) = true → name ∈ a.managers pos →
        name ∈ names ∨ ∃ board ≠ pos, name ∈ a.managers board)
    {userlevel : Nat → BitVec 32} (hself : userlevel id &&& permBoards ≠ 0)
    (hothers : ∀ other ≠ id, userlevel other = s.userlevel other) :
    t.Inv s₀ ⟨s.bms.set pos (strlcpy bmLen (bmText names)), userlevel⟩
      (a.appoint id pos names) := by
  refine ⟨I.write hpos husers hthree hfirst, fun other name hother board hboard => ?_,
    fun other name hother hplain => ?_⟩
  · dsimp only [Posts.appoint] at hboard ⊢
    rcases eq_or_ne board pos with rfl | hne
    · rw [Function.update_self] at hboard
      rcases hnew name hboard with rfl | hold
      · exact id_eq hother hid rfl ▸ List.mem_cons_self
      · exact List.mem_cons_of_mem _ (I.appointed other name hother board hold)
    · rw [Function.update_of_ne hne] at hboard
      exact List.mem_cons_of_mem _ (I.appointed other name hother board hboard)
  · dsimp only [Posts.appoint] at hplain ⊢
    rcases eq_or_ne other id with rfl | hne
    · obtain rfl := Option.some.inj (hid.symm.trans hother)
      exact iff_of_true hself (.inl ⟨pos, by rwa [Function.update_self]⟩)
    · have hplain' : plainLevel (s.userlevel other) = true := by
        rwa [hothers other hne] at hplain
      have hposts : (∃ board, name ∈ Function.update a.managers pos names board) ↔
          ∃ board, name ∈ a.managers board := by
        rw [Function.exists_update_iff a.managers fun _ names => name ∈ names]
        constructor
        · rintro (hboard | ⟨board, -, hboard⟩)
          · rcases hnew name hboard with rfl | hold
            · exact absurd (id_eq hother hid rfl) hne
            · exact ⟨pos, hold⟩
          · exact ⟨board, hboard⟩
        · rintro ⟨board, hboard⟩
          rcases eq_or_ne board pos with rfl | hboardNe
          · exact hkeeps other name hother hne hplain' hboard
          · exact .inr ⟨board, hboardNe, hboard⟩
      rw [hothers other hne, hposts, I.perm other name hother hplain', List.mem_cons,
        or_iff_right hne]

/-- A manager is retired. -/
theorem retire (I : t.Inv s₀ s a) (hid : t.ids[id]? = some userid) (hpos : pos < s.bms.length)
    (hmem : userid ∈ a.managers pos) {userlevel : Nat → BitVec 32}
    (hself : plainLevel (userlevel id) = true → (userlevel id &&& permBoards ≠ 0 ↔
      ∃ board, userid ∈ Function.update a.managers pos ((a.managers pos).erase userid) board))
    (hothers : ∀ other ≠ id, userlevel other = s.userlevel other) :
    t.Inv s₀ ⟨s.bms.set pos (strlcpy bmLen (bmText ((a.managers pos).erase userid))), userlevel⟩
      ⟨Function.update a.managers pos ((a.managers pos).erase userid), a.appointed⟩ := by
  have hsub : ((a.managers pos).erase userid).Sublist (a.managers pos) := List.erase_sublist
  refine ⟨I.write hpos (fun name hname => I.users pos name (hsub.mem hname))
    (hsub.length_le.trans (I.three pos)) ((I.first pos).sublist hsub),
    fun other name hother board hboard => ?_, fun other name hother hplain => ?_⟩
  · dsimp only at hboard
    rcases eq_or_ne board pos with rfl | hne
    · rw [Function.update_self] at hboard
      exact I.appointed other name hother board (hsub.mem hboard)
    · rw [Function.update_of_ne hne] at hboard
      exact I.appointed other name hother board hboard
  · dsimp only at hplain ⊢
    rcases eq_or_ne other id with rfl | hne
    · obtain rfl := Option.some.inj (hid.symm.trans hother)
      rw [hself hplain]
      have happointed := I.appointed other userid hid pos hmem
      exact (or_iff_left fun h => h.1 happointed).symm
    · have hplain' : plainLevel (s.userlevel other) = true := by
        rwa [hothers other hne] at hplain
      have hname : name ≠ userid := by
        rintro rfl
        exact hne (id_eq hother hid rfl)
      have hposts : (∃ board, name ∈ Function.update a.managers pos
          ((a.managers pos).erase userid) board) ↔ ∃ board, name ∈ a.managers board := by
        refine exists_congr fun board => ?_
        rcases eq_or_ne board pos with rfl | hboardNe
        · rw [Function.update_self, List.mem_erase_of_ne hname]
        · rw [Function.update_of_ne hboardNe]
      rw [hothers other hne, hposts, I.perm other name hother hplain']

/-- The managers end with `SYSOP`. -/
theorem ordainManager_sysop (I : t.Inv s₀ s a) (hid : t.ids[id]? = some userid)
    (hsysop : (bmText (a.managers pos)).take 5 = bytes "SYSOP") (hpos : pos < s.bms.length)
    (hmay : t.MayOrdain s userid (bmText (a.managers pos)) id pos clears) :
    ∃ s', ordainManager userid (bmText (a.managers pos)) id pos clears true s = some s' ∧
      t.Inv s₀ s' (a.ordain userid id pos clears true) := by
  have huser : userid ∈ t.ids := List.mem_of_getElem? hid
  have hne : a.managers pos ≠ [] := by
    intro hnil
    rw [hnil] at hsysop
    cases hsysop
  obtain ⟨hhead, hkeeps⟩ := hmay.1 hsysop
  rw [splitOn_bmText (I.users pos) hne] at hhead
  rw [Posts.ordain_sysop hhead]
  cases clears with
  | false => exact ⟨s, ordainManager_kept hsysop, I⟩
  | true =>
    have huserid : strlcpy bmLen userid = strlcpy bmLen (bmText [userid]) := by
      rw [bmText, joined_singleton]
    rw [ordainManager_cleared (t.names userid huser) hsysop, huserid, if_pos rfl]
    refine ⟨_, rfl, I.appoint hid hpos ?_ ?_ (List.pairwise_singleton _ _)
      List.mem_cons_self ?_ ?_ (grantBoards_self _) fun other => grantBoards_of_ne⟩
    · exact fun name hname => List.mem_singleton.mp hname ▸ huser
    · exact Nat.le_add_left 1 2
    · exact fun name hname => .inl (List.mem_singleton.mp hname)
    · intro other name hother hotherNe hplain hname
      have hlt : other < t.ids.length := (List.getElem?_eq_some_iff.mp hother).1
      obtain ⟨board, -, hboard⟩ := List.any_eq_true.mp (hkeeps rfl other hlt hotherNe hplain
        ((I.finds_iff hother pos).mpr hname))
      rw [Bool.and_eq_true, decide_eq_true_iff] at hboard
      exact .inr ⟨board, hboard.1, (I.finds_iff hother board).mp hboard.2⟩

/-- A manager is added. -/
theorem ordainManager_add (I : t.Inv s₀ s a) (hid : t.ids[id]? = some userid)
    (hsysop : (bmText (a.managers pos)).take 5 ≠ bytes "SYSOP") (hpos : pos < s.bms.length)
    (hmay : t.MayOrdain s userid (bmText (a.managers pos)) id pos clears) :
    ∃ s', ordainManager userid (bmText (a.managers pos)) id pos clears true s = some s' ∧
      t.Inv s₀ s' (a.ordain userid id pos clears true) := by
  have huser : userid ∈ t.ids := List.mem_of_getElem? hid
  have hhead : (a.managers pos).head? ≠ some (bytes "SYSOP") := fun h => hsysop (take_bmText h)
  rw [Posts.ordain_add hhead]
  by_cases hfull : (a.managers pos).length = 3
  · rw [decide_eq_false (Nat.not_lt_of_le (Nat.le_of_eq hfull.symm)), Bool.and_false,
      if_neg Bool.false_ne_true]
    exact ⟨s, ordainManager_full hsysop ((full_iff (I.users pos)).mpr hfull), I⟩
  have hthree : (a.managers pos).length < 3 := Nat.lt_of_le_of_ne (I.three pos) hfull
  rw [ordainManager_checked hsysop (mt (full_iff (I.users pos)).mp hfull) (I.check huser pos)]
  by_cases hmem : userid ∈ a.managers pos
  · rw [decide_eq_true hmem, if_pos rfl, List.contains_iff_mem.mpr hmem, Bool.not_true,
      Bool.false_and, if_neg Bool.false_ne_true]
    exact ⟨s, rfl, I⟩
  have hnone : (a.managers pos).contains userid = false :=
    Bool.eq_false_iff.mpr (mt List.contains_iff_mem.mp hmem)
  rw [decide_eq_false hmem, if_neg Bool.false_ne_true, bmText_concat (I.users pos), hnone,
    decide_eq_true hthree, Bool.not_false, Bool.and_true, if_pos rfl]
  have hshort : ∀ name ∈ a.managers pos, ¬Begins userid name := by
    intro name hname
    have hlonger := hmay.2 hsysop
    rw [MayAdd, splitOn_bmText (I.users pos) (List.ne_nil_of_mem hname)] at hlonger
    exact hlonger hmem hthree name hname
  refine ⟨_, rfl, I.appoint hid hpos ?_ ?_ ?_ (List.mem_append_right _ List.mem_cons_self) ?_ ?_
    (grantBoards_self _) fun other => grantBoards_of_ne⟩
  · intro name hname
    rcases List.mem_append.mp hname with hold | hself
    · exact I.users pos name hold
    · exact List.mem_singleton.mp hself ▸ huser
  · rw [List.length_append, List.length_singleton]
    exact hthree
  · refine List.pairwise_append.mpr ⟨I.first pos, List.pairwise_singleton _ _, ?_⟩
    intro name hname later hlater
    exact List.mem_singleton.mp hlater ▸ hshort name hname
  · intro name hname
    exact (List.mem_append.mp hname).symm.imp_left List.mem_singleton.mp
  · intro other name _ _ _ hname
    exact .inl (List.mem_append_left _ hname)

/-- `m_ordainBM` appoints a manager. -/
theorem ordain (I : t.Inv s₀ s a) (hC : t.Careful overlap s (.ordain id pos clears confirmed)) :
    ∃ s', t.mOrdainBM id pos clears confirmed s = some s' ∧
      t.Inv s₀ s' (a.apply t s₀.bms.length (.ordain id pos clears confirmed)) := by
  rw [mOrdainBM, Posts.apply]
  cases hid : t.ids[id]? with
  | none => exact ⟨s, rfl, I⟩
  | some userid =>
    dsimp only
    by_cases hguest : userid = bytes "guest"
    · rw [if_pos hguest, if_pos hguest]
      exact ⟨s, rfl, I⟩
    rw [if_neg hguest, if_neg hguest, ← I.size]
    rcases Nat.lt_or_ge pos s.bms.length with hpos | hpos
    · rw [I.text pos hpos, if_neg (Nat.not_le_of_lt hpos)]
      dsimp only
      cases confirmed with
      | false =>
        rw [ordainManager_cancelled (t.names userid (List.mem_of_getElem? hid))]
        exact ⟨s, rfl, I⟩
      | true =>
        have hmay := hC userid hid _ (I.text pos hpos) rfl hguest
        by_cases hsysop : (bmText (a.managers pos)).take 5 = bytes "SYSOP"
        · exact I.ordainManager_sysop hid hsysop hpos hmay
        · exact I.ordainManager_add hid hsysop hpos hmay
    · rw [List.getElem?_eq_none hpos, if_pos hpos]
      exact ⟨s, rfl, I⟩

/-- With the code's look at the managers. -/
theorem retireManager (I : t.Inv s₀ s a) (hid : t.ids[id]? = some userid)
    (hpos : pos < s.bms.length) (hC : t.Careful overlap s (.retire id pos confirmed)) :
    ∃ s', retireManager overlap userid (bmText (a.managers pos)) id pos confirmed s = some s' ∧
      t.Inv s₀ s' (a.retire userid pos confirmed) := by
  have huser : userid ∈ t.ids := List.mem_of_getElem? hid
  have hnames : ∀ name ∈ a.managers pos, IsUserName name := names_of_mem (I.users pos)
  rw [ArgoBbs.retireManager, I.check huser, Posts.retire]
  by_cases hmem : userid ∈ a.managers pos
  · have hne : a.managers pos ≠ [] := List.ne_nil_of_mem hmem
    have hsplit : splitBm (bmText (a.managers pos)) [] [] = some (a.managers pos) :=
      splitBm_bmText [] hnames hne (by rw [List.length_nil, Nat.zero_add]; exact I.three pos)
    obtain ⟨last, hshift⟩ := shiftBm_mem hmem
    rw [decide_eq_true hmem, hsplit]
    simp only [Option.bind_eq_bind, Option.bind_some, hshift]
    cases confirmed with
    | false => exact ⟨s, rfl, I⟩
    | true =>
      have hlen : ((a.managers pos).erase userid).length = (a.managers pos).length - 1 :=
        List.length_erase_of_mem hmem
      have hjoin : ((a.managers pos).erase userid).length ≤ 1 ∨ Appends overlap := by
        have hfew := hC userid hid _ (I.text pos hpos) rfl
        rw [splitOn_bmText (I.users pos) hne] at hfew
        refine (hfew hmem).imp_left fun hlt => ?_
        rw [hlen]
        omega
      rw [List.take_left' hlen, rejoinBm_eq hjoin]
      have hsub : ((a.managers pos).erase userid).Sublist (a.managers pos) := List.erase_sublist
      have T := I.write hpos (fun name hname => I.users pos name (hsub.mem hname))
        (hsub.length_le.trans (I.three pos)) ((I.first pos).sublist hsub)
      obtain ⟨count, hcount, hzero⟩ := bmCount_spec (t.names userid huser)
        (s.bms.set pos (strlcpy bmLen (bmText ((a.managers pos).erase userid))))
      rw [T.forall_iff huser] at hzero
      rw [hcount, Option.bind_some]
      by_cases hlevel : count = 0 ∧ s.userlevel id &&& permOboards = 0 ∧
        s.userlevel id &&& permSysop = 0
      · rw [if_pos hlevel]
        refine ⟨_, rfl, I.retire hid hpos hmem (fun _ => iff_of_false ?_ ?_)
          fun other hother => Function.update_of_ne hother _ _⟩
        · rw [Function.update_self, not_not]
          exact and_not_self
        · exact not_exists.mpr (hzero.mp hlevel.1)
      · rw [if_neg hlevel]
        refine ⟨_, rfl, I.retire hid hpos hmem (fun hplain => ?_) fun _ _ => rfl⟩
        rw [I.perm id userid hid hplain]
        refine iff_of_true (.inl ⟨pos, hmem⟩) ?_
        by_contra hnone
        rw [plainLevel, Bool.and_eq_true, decide_eq_true_iff, decide_eq_true_iff] at hplain
        exact hlevel ⟨hzero.mpr (not_exists.mp hnone), hplain⟩
  · have hkept : Function.update a.managers pos ((a.managers pos).erase userid) = a.managers := by
      rw [List.erase_of_not_mem hmem, Function.update_eq_self]
    refine ⟨s, by rw [decide_eq_false hmem]; rfl, ?_⟩
    rw [hkept, ite_self]
    exact I

theorem retires (I : t.Inv s₀ s a) (hC : t.Careful overlap s (.retire id pos confirmed)) :
    ∃ s', t.mRetireBM overlap id pos confirmed s = some s' ∧
      t.Inv s₀ s' (a.apply t s₀.bms.length (.retire id pos confirmed)) := by
  rw [mRetireBM, Posts.apply]
  cases hid : t.ids[id]? with
  | none => exact ⟨s, rfl, I⟩
  | some userid =>
    dsimp only
    rcases Nat.lt_or_ge pos s.bms.length with hpos | hpos
    · rw [I.text pos hpos]
      exact I.retireManager hid hpos hC
    · rw [List.getElem?_eq_none hpos, Posts.retire, I.outside pos hpos, List.erase_nil]
      have hkept : Function.update a.managers pos [] = a.managers :=
        I.outside pos hpos ▸ Function.update_eq_self pos a.managers
      rw [hkept, ite_self]
      exact ⟨s, rfl, I⟩

theorem step (I : t.Inv s₀ s a) {op : BmOp} (hC : t.Careful overlap s op) :
    ∃ s', t.step overlap s op = some s' ∧ t.Inv s₀ s' (a.apply t s₀.bms.length op) := by
  cases op with
  | ordain id pos clears confirmed => exact I.ordain hC
  | retire id pos confirmed => exact I.retires hC

theorem start (hvacant : ∀ bm ∈ s₀.bms, bm = []) : t.Inv s₀ s₀ .vacant where
  size := rfl
  outside _ _ := rfl
  text pos hpos := by
    rw [List.getElem?_eq_getElem hpos, hvacant _ (List.getElem_mem hpos)]
    rfl
  users _ _ hname := absurd hname List.not_mem_nil
  three _ := Nat.zero_le 3
  first _ := .nil
  appointed _ _ _ _ hmem := absurd hmem List.not_mem_nil
  perm id userid _ _ := by
    have hnone : ¬∃ pos, userid ∈ Posts.vacant.managers pos := fun ⟨_, hmem⟩ =>
      List.not_mem_nil hmem
    rw [or_iff_right hnone]
    exact (and_iff_right List.not_mem_nil).symm

theorem good (I : t.Inv s₀ s a) : t.Good s₀ s a where
  text pos bm hbm := by
    have hpos : pos < s.bms.length := (List.getElem?_eq_some_iff.mp hbm).1
    exact Option.some.inj (hbm.symm.trans (I.text pos hpos))
  nodup pos := (I.first pos).imp fun {name later} hnot hsame => by
    rw [hsame] at hnot
    exact hnot (begins_refl later)
  three := I.three
  perm id hid hplain := by
    have huser : t.ids[id]? = some t.ids[id] := List.getElem?_eq_getElem hid
    rw [I.perm id _ huser hplain, exists_congr (I.finds_iff huser)]
  stays id pos clears confirmed _ _ := a.mem_apply_ordain t _ id pos clears confirmed

end Inv

end BmUsers

/-- Started without managers, every run whose operations are careful ends, within the table, in a
state in which the fields `BM` and the permissions are as they should be. -/
theorem posts_of_along (t : BmUsers) (overlap : Bytes → Bytes → Bytes) (s₀ : BmState)
    (hvacant : ∀ bm ∈ s₀.bms, bm = []) (ops : List BmOp)
    (hC : Reach.Along (t.step overlap) (t.Careful overlap) s₀ ops) :
    ∃ s, ops.foldlM (t.step overlap) s₀ = some s ∧
      t.Good s₀ s (ops.foldl (Posts.apply t s₀.bms.length) .vacant) := by
  obtain ⟨s, hrun, I⟩ := Reach.exists_run (t.Inv s₀) (Posts.apply t s₀.bms.length)
    (fun _ _ _ I hC => I.step hC) .vacant ops (.start hvacant) hC
  exact ⟨s, hrun, I.good⟩

def bmDemoUsers : BmUsers where
  ids := [bytes "bobby", bytes "bob", bytes "Carol", bytes "SYSOP"]
  names := by decide +kernel
  distinct := by decide +kernel

/-- Two boards without managers. -/
def bmDemoStart : BmState := ⟨[[], []], fun id => if id = 3 then permSysop else 0⟩

/-- `snprintf` that appends. -/
def appendName (text name : Bytes) : Bytes := text ++ 32 :: name

instance : Decidable (Appends appendName) := isTrue fun _ _ => rfl

/-- `bob` takes a board over from `SYSOP`, gets help from `bobby` and leaves. -/
def bmDemoOps : List BmOp :=
  [.ordain 3 0 true true, .ordain 1 0 true true, .ordain 0 0 true true, .retire 1 0 true]

theorem posts_of_along_bob : ∃ s,
    bmDemoOps.foldlM (bmDemoUsers.step appendName) bmDemoStart = some s ∧
      bmDemoUsers.Good bmDemoStart s (bmDemoOps.foldl (Posts.apply bmDemoUsers 2) .vacant) :=
  posts_of_along bmDemoUsers appendName bmDemoStart (by decide) bmDemoOps (by decide +kernel)

/-- `bob` is appointed after `bobby`, and again. -/
theorem not_posts : ¬∀ (t : BmUsers) (overlap : Bytes → Bytes → Bytes) (s₀ : BmState),
    Appends overlap → (∀ bm ∈ s₀.bms, bm = []) → ∀ ops : List BmOp,
      ∃ s, ops.foldlM (t.step overlap) s₀ = some s ∧
        t.Good s₀ s (ops.foldl (Posts.apply t s₀.bms.length) .vacant) := by
  intro hall
  obtain ⟨s, hrun, H⟩ := hall bmDemoUsers appendName bmDemoStart (fun _ _ => rfl) (by decide)
    [.ordain 0 0 true true, .ordain 1 0 true true, .ordain 1 0 true true]
  have htwice : ([.ordain 0 0 true true, .ordain 1 0 true true, .ordain 1 0 true true].foldlM
      (bmDemoUsers.step appendName) bmDemoStart).map (·.bms[0]?) =
        some (some (bytes "bobby bob bob")) := by decide +kernel
  rw [hrun, Option.map_some, Option.some.injEq] at htwice
  exact absurd (H.text 0 _ htwice) (by decide +kernel)

end ArgoBbs

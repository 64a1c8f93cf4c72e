import ArgoBbs.Bcache
import ArgoBbs.Lib.Flags
import ArgoBbs.Permissions

/-! # Which boards a user sees

Whether a user may see a board is decided in three places: by `load_boards` for the lists of boards,
by `apply_boards` and `g_board_names` for the names that the prompt completes, and by `init_blist`
for the digests of a group of boards (`boards.c`, `bcache.c`, `bbs.c`, `announce.c`). -/

namespace ArgoBbs

def brdRestrict : BitVec 32 := 0x000200
def brdGroup : BitVec 32 := 0x001000
def brdHalfopen : BitVec 32 := 0x002000
def brdIntern : BitVec 32 := 0x004000

/-- `BFNAMELEN`, the size of the field of the name. -/
def bfNameLen : Nat := 20

/-- The characters that `valid_brdname` allows. -/
def brdnameChar (c : UInt8) : Bool := isalnum c || c = 95

/-- A header of the cache with what decides who sees the board. The name is empty or one that
`m_newbrd` has accepted. -/
structure Board extends BoardHeader where
  title : Bytes
  flag : BitVec 32
  level : BitVec 32
  parent : Nat
  filename_valid : filename.all brdnameChar = true
  filename_lt : filename.length < bfNameLen

/-- What a session knows of its user: the permissions, the class of the host, zero off campus, and
the list of restricted boards, `none` for `NULL`. -/
structure Viewer where
  userlevel : BitVec 32
  validHostMask : BitVec 32
  restrictBoards : Option Bytes

namespace Viewer
variable (v : Viewer)

/-- `HAS_PERM`. -/
def hasPerm (perm : BitVec 32) : Bool := if perm = 0 then true else v.userlevel &&& perm ≠ 0

def offCampus : Bool := v.validHostMask = 0

end Viewer

def Board.has (b : Board) (flag : BitVec 32) : Bool := b.flag &&& flag ≠ 0

/-- `strsect`: the section is one of those of the string. As many rounds as the string has bytes
are enough. -/
def strsect (sect delim : Bytes) : (fuel : Nat) → Bytes → Bool
  | 0, _ => false
  | _, [] => false
  | fuel + 1, ptr =>
    let ptr := ptr.dropWhile delim.contains
    let len := (ptr.takeWhile (!delim.contains ·)).length
    if len = sect.length && strncmpEq ptr sect len then true else strsect sect delim fuel (ptr.drop len)

/-- The board is in the list of restricted boards. -/
def Viewer.listsRestricted (v : Viewer) (filename : Bytes) : Bool :=
  match v.restrictBoards with
  | none => false
  | some boards => strsect filename (bytes "\n\t ") boards.length boards

/-! ## The lists of boards -/

/-- What a list of boards shows: the favourites if they are shown, or the boards of a level and of
the titles with a prefix, with those that are zapped if `yankFlag`. -/
structure BoardView where
  goodBrd : Option (List Bytes)
  boardlevel : Nat
  boardprefix : Option Bytes
  yankFlag : Bool
  zapbuf : Nat → Int

/-- `strchr(s, t[0])`, which finds the zero byte of an empty string. -/
def strchrHead (s t : Bytes) : Bool :=
  match t with
  | [] => true
  | c :: _ => s.contains c

/-- `load_boards` hides the board because of its title. -/
def BoardView.hidesTitle (view : BoardView) (title : Bytes) : Bool :=
  match view.boardprefix with
  | none => title.head? = some 42
  | some boardprefix =>
    view.boardlevel = 0 && !strchrHead boardprefix title && boardprefix.head? ≠ some 42 ||
    boardprefix.head? = some 42 &&
      (!strstr title [0xA1, 0xF1] && !strstr title [0xA1, 0xD1] && title.head? ≠ some 42)

/-- The body of the loop of `load_boards`: whether it adds the board `n`. -/
def loadBoardsAddto (view : BoardView) (v : Viewer) (complete : Bool) (n : Nat) (bptr : Board) :
    Bool :=
  if bptr.filename = [] then false
  else
    let addto : Option Bool :=
      match view.goodBrd with
      | some goodBrd => some (goodBrd.contains bptr.filename && !bptr.has brdGroup)
      | none =>
        if bptr.parent ≠ view.boardlevel && !complete then none
        else if bptr.level &&& permPostmask = 0 && !v.hasPerm bptr.level &&
            bptr.level &&& permNozap = 0 then none
        else if view.hidesTitle bptr.title then none
        else some (view.yankFlag || view.zapbuf n ≠ 0 || bptr.level &&& permNozap ≠ 0)
    match addto with
    | none => false
    | some addto =>
      let addto :=
        if v.offCampus then
          let addto :=
            if addto && bptr.has brdIntern then
              v.hasPerm permSysop || v.hasPerm permBoards || v.hasPerm permBlevels ||
                v.hasPerm permInternal
            else addto
          if addto && bptr.has brdHalfopen then v.hasPerm permSysop || v.hasPerm permWelcome
          else addto
        else addto
      if bptr.has brdRestrict && !v.listsRestricted bptr.filename then false else addto

/-! ## The names of the prompt -/

/-- A name that is not empty is in the list up to case. -/
def seekInNameList (names : List Bytes) (name : Bytes) : Bool :=
  name ≠ [] && names.any fun word => strcasecmpEq word name

def addToNameList (names : List Bytes) (name : Bytes) : List Bytes :=
  if seekInNameList names name then names else names ++ [name]

def gBoardNames (v : Viewer) (names : List Bytes) (bptr : Board) : List Bytes :=
  if bptr.has brdRestrict && !v.listsRestricted bptr.filename then names
  else if v.offCampus && bptr.has brdIntern && !v.hasPerm permSysop && !v.hasPerm permOboards &&
      !v.hasPerm permInternal && !v.hasPerm permBoards then names
  else if v.offCampus && bptr.has brdHalfopen && !v.hasPerm permSysop &&
      !v.hasPerm permWelcome then names
  else if bptr.level &&& permPostmask ≠ 0 || v.hasPerm bptr.level ||
      bptr.level &&& permNozap ≠ 0 then addToNameList names bptr.filename
  else names

def applyBoards (v : Viewer) (func : α → Board → α) (boards : List Board) (init : α) : α :=
  boards.foldl (fun acc b =>
    if b.level &&& permPostmask ≠ 0 || v.hasPerm b.level || b.level &&& permNozap ≠ 0 then func acc b
    else acc) init

def makeBlist (v : Viewer) (boards : List Board) : List Bytes :=
  applyBoards v (gBoardNames v) boards []

/-! ## The digests of a group -/

/-- The boards of a group, `none` for all groups, whose titles start with one of the letters of the
prefix; there are none if the prefix is not configured. -/
def initBlist (v : Viewer) (boards : List Board) (groupPrefix : Option Bytes) : List Board :=
  if groupPrefix = some [] then []
  else boards.filter fun b =>
    if b.filename = [] then false
    else if b.level &&& permPostmask = 0 && !v.hasPerm b.level && b.level &&& permNozap = 0 then false
    else if groupPrefix.any fun letters => !strchrHead letters b.title then false
    else if b.has brdRestrict && !v.listsRestricted b.filename then false
    else true

/-! ## Access conditions -/

section
variable (v : Viewer) (b : Board)

/-- The level of the board admits the user. -/
def levelAdmits : Bool :=
  b.level &&& permPostmask ≠ 0 || v.hasPerm b.level || b.level &&& permNozap ≠ 0

/-- The board is restricted, and not in the user's list. -/
def restrictRefuses : Bool := b.has brdRestrict && !v.listsRestricted b.filename

/-- The user is off campus, and the board is internal or half open and not for users from there. -/
def hostRefuses : Bool :=
  v.offCampus &&
    (b.has brdIntern && !(v.hasPerm permSysop || v.hasPerm permBoards || v.hasPerm permOboards ||
      v.hasPerm permInternal) ||
    b.has brdHalfopen && !(v.hasPerm permSysop || v.hasPerm permWelcome))

end

/-- `PERM_BLEVELS` is held by those who hold one of its two permissions. -/
theorem hasPerm_blevels (v : Viewer) :
    v.hasPerm permBlevels = (v.hasPerm permSysop || v.hasPerm permOboards) := by
  have hunion : v.userlevel &&& permBlevels = 0 ↔
      v.userlevel &&& permSysop = 0 ∧ v.userlevel &&& permOboards = 0 := and_or_eq_zero
  rw [Bool.eq_iff_iff]
  simp only [Viewer.hasPerm, if_neg (by decide : permBlevels ≠ 0),
    if_neg (by decide : permSysop ≠ 0), if_neg (by decide : permOboards ≠ 0), Bool.or_eq_true,
    decide_eq_true_iff, ne_eq, hunion]
  tauto

/-- The list of boards shows the board, as far as the user's rights do not matter. -/
def BoardView.shows (view : BoardView) (complete : Bool) (n : Nat) (b : Board) : Bool :=
  b.filename ≠ [] &&
    match view.goodBrd with
    | some goodBrd => goodBrd.contains b.filename && !b.has brdGroup
    | none => (b.parent = view.boardlevel || complete) && !view.hidesTitle b.title &&
        (view.yankFlag || view.zapbuf n ≠ 0 || b.level &&& permNozap ≠ 0)

/-- The checks at the end of the loop of `load_boards`. -/
theorem addto_access (v : Viewer) (b : Board) (addto : Bool) :
    (let addto :=
      if v.offCampus then
        let addto :=
          if addto && b.has brdIntern then
            v.hasPerm permSysop || v.hasPerm permBoards || v.hasPerm permBlevels ||
              v.hasPerm permInternal
          else addto
        if addto && b.has brdHalfopen then v.hasPerm permSysop || v.hasPerm permWelcome
        else addto
      else addto
    if b.has brdRestrict && !v.listsRestricted b.filename then false else addto) =
      (addto && !hostRefuses v b && !restrictRefuses v b) := by
  have hintern : (v.hasPerm permSysop || v.hasPerm permBoards || v.hasPerm permBlevels ||
      v.hasPerm permInternal) = (v.hasPerm permSysop || v.hasPerm permBoards ||
        v.hasPerm permOboards || v.hasPerm permInternal) := by
    rw [hasPerm_blevels]
    cases v.hasPerm permSysop <;> simp
  unfold hostRefuses restrictRefuses
  rw [hintern]
  generalize (v.hasPerm permSysop || v.hasPerm permBoards || v.hasPerm permOboards ||
    v.hasPerm permInternal) = insider
  generalize (v.hasPerm permSysop || v.hasPerm permWelcome) = welcome
  generalize (b.has brdRestrict && !v.listsRestricted b.filename) = restricted
  cases v.offCampus <;> cases addto <;> cases b.has brdIntern <;> cases b.has brdHalfopen <;>
    cases restricted <;> cases insider <;> cases welcome <;> rfl

/-- `load_boards` adds the boards that the list shows and whose conditions the user meets; the level
does not matter among the favourites. -/
theorem loadBoardsAddto_eq (view : BoardView) (v : Viewer) (complete : Bool) (n : Nat) (b : Board) :
    loadBoardsAddto view v complete n b =
      (view.shows complete n b && (view.goodBrd.isSome || levelAdmits v b) && !hostRefuses v b &&
        !restrictRefuses v b) := by
  unfold loadBoardsAddto BoardView.shows
  by_cases hname : b.filename = []
  · simp [hname]
  · rw [if_neg hname]
    cases view.goodBrd with
    | some goodBrd =>
      refine (addto_access v b _).trans ?_
      simp [hname]
    | none =>
      dsimp only
      have hlevel : (decide (b.level &&& permPostmask = 0) && !v.hasPerm b.level &&
          decide (b.level &&& permNozap = 0)) = !levelAdmits v b := by
        rw [levelAdmits]
        simp [Bool.not_or]
      rw [hlevel]
      by_cases hplace : (decide (b.parent ≠ view.boardlevel) && !complete) = true
      · rw [if_pos hplace]
        simp only [Bool.and_eq_true, decide_eq_true_iff, Bool.not_eq_true'] at hplace
        simp [hplace.1, hplace.2]
      · rw [if_neg hplace]
        have hplace' : (decide (b.parent = view.boardlevel) || complete) = true := by
          simpa [or_iff_not_imp_left] using hplace
        rw [hplace']
        cases hlevels : levelAdmits v b with
        | false => simp
        | true =>
          rw [if_neg (by simp)]
          by_cases htitle : view.hidesTitle b.title = true
          · rw [if_pos htitle]
            simp [htitle]
          · rw [if_neg htitle]
            refine (addto_access v b _).trans ?_
            simp [hname, htitle]

/-- The board is named in the list of names. -/
def namesAdmit (v : Viewer) (b : Board) : Bool :=
  levelAdmits v b && !hostRefuses v b && !restrictRefuses v b

/-- One round of `apply_boards` with `g_board_names`. -/
theorem gBoardNames_eq (v : Viewer) (names : List Bytes) (b : Board) :
    (if b.level &&& permPostmask ≠ 0 || v.hasPerm b.level || b.level &&& permNozap ≠ 0 then
      gBoardNames v names b else names) =
      if namesAdmit v b then addToNameList names b.filename else names := by
  have hhost : hostRefuses v b =
      (v.offCampus && b.has brdIntern && !v.hasPerm permSysop && !v.hasPerm permOboards &&
        !v.hasPerm permInternal && !v.hasPerm permBoards ||
      v.offCampus && b.has brdHalfopen && !v.hasPerm permSysop && !v.hasPerm permWelcome) := by
    unfold hostRefuses
    cases v.hasPerm permSysop <;> cases v.hasPerm permBoards <;> cases v.hasPerm permOboards <;>
      cases v.hasPerm permInternal <;> cases v.hasPerm permWelcome <;> simp [Bool.and_or_distrib_left]
  change (if levelAdmits v b then
    if restrictRefuses v b then names
    else if _ then names
    else if _ then names
    else if levelAdmits v b then addToNameList names b.filename else names
    else names) = _
  rw [namesAdmit, hhost]
  generalize (v.offCampus && b.has brdIntern && !v.hasPerm permSysop && !v.hasPerm permOboards &&
    !v.hasPerm permInternal && !v.hasPerm permBoards) = internal
  generalize (v.offCampus && b.has brdHalfopen && !v.hasPerm permSysop &&
    !v.hasPerm permWelcome) = halfopen
  cases levelAdmits v b <;> cases restrictRefuses v b <;> cases internal <;> cases halfopen <;> rfl

/-- The names of the prompt are those of the boards that are admitted, without repetitions. -/
theorem makeBlist_eq (v : Viewer) (boards : List Board) :
    makeBlist v boards = (boards.filter (namesAdmit v)).foldl
      (fun names b => addToNameList names b.filename) [] := by
  rw [makeBlist, applyBoards, List.foldl_filter]
  congr 1
  funext names b
  exact gBoardNames_eq v names b

/-- `init_blist` takes the boards of the group whose level and restriction admit the user. -/
theorem mem_initBlist {v : Viewer} {boards : List Board} {groupPrefix : Option Bytes} {b : Board} :
    b ∈ initBlist v boards groupPrefix ↔ b ∈ boards ∧ groupPrefix ≠ some [] ∧ b.filename ≠ [] ∧
      (groupPrefix.any fun letters => !strchrHead letters b.title) = false ∧
      levelAdmits v b = true ∧ restrictRefuses v b = false := by
  have hlevel : (decide (b.level &&& permPostmask = 0) && !v.hasPerm b.level &&
      decide (b.level &&& permNozap = 0)) = !levelAdmits v b := by
    rw [levelAdmits]
    simp [Bool.not_or]
  rw [initBlist]
  split
  case isTrue hnone => simp [hnone]
  case isFalse hsome =>
    rw [List.mem_filter, hlevel]
    change b ∈ boards ∧ (if _ then _ else if _ then _ else if _ then _ else
      if restrictRefuses v b then _ else _) = true ↔ _
    by_cases hname : b.filename = []
    · simp [hname]
    · cases levelAdmits v b <;> cases restrictRefuses v b <;>
        cases groupPrefix.any fun letters => !strchrHead letters b.title <;> simp [hname, hsome]

/-- For every board that the list of boards and the group show, rights aside, and whose name is not
among the names yet: the three places agree exactly if the board is restricted and not in the user's
list; or its level admits the user, and so does the host rule; or its level refuses the user, and if
the list is that of the favourites so does the host rule. -/
theorem board_filters_agree_iff {view : BoardView} {v : Viewer} {complete : Bool} {n : Nat}
    {b : Board} {names : List Bytes} {groupPrefix : Option Bytes}
    (hshows : view.shows complete n b = true) (hnew : seekInNameList names b.filename = false)
    (hgroup : groupPrefix ≠ some [] ∧
      (groupPrefix.any fun letters => !strchrHead letters b.title) = false) :
    ((loadBoardsAddto view v complete n b = false ↔ applyBoards v (gBoardNames v) [b] names = names) ∧
      (loadBoardsAddto view v complete n b = false ↔ b ∉ initBlist v [b] groupPrefix)) ↔
    restrictRefuses v b = true ∨ levelAdmits v b = true ∧ hostRefuses v b = false ∨
      levelAdmits v b = false ∧ (view.goodBrd.isSome = true → hostRefuses v b = true) := by
  have hname : b.filename ≠ [] := by
    intro h
    simp [BoardView.shows, h] at hshows
  have hnames : applyBoards v (gBoardNames v) [b] names = names ↔ namesAdmit v b = false := by
    have hround : applyBoards v (gBoardNames v) [b] names =
        if namesAdmit v b then addToNameList names b.filename else names := gBoardNames_eq v names b
    rw [hround]
    cases namesAdmit v b <;> simp [addToNameList, hnew]
  have hblist : b ∈ initBlist v [b] groupPrefix ↔
      levelAdmits v b = true ∧ restrictRefuses v b = false := by
    rw [mem_initBlist]
    simp [hgroup.1, hgroup.2, hname]
  rw [hnames, hblist, loadBoardsAddto_eq, hshows, namesAdmit]
  cases levelAdmits v b <;> cases hostRefuses v b <;> cases restrictRefuses v b <;>
    cases view.goodBrd.isSome <;> simp

/-- A board for the examples. -/
def demoBoard (filename : Bytes) (flag level : BitVec 32)
    (h : filename.all brdnameChar = true ∧ filename.length < 20) : Board where
  filename := filename
  lastpost := 0
  total := 0
  title := bytes "x title"
  flag := flag
  level := level
  parent := 0
  filename_valid := h.1
  filename_lt := h.2

/-- All boards, none of them zapped. -/
def demoView : BoardView := ⟨none, 0, some (bytes "x"), true, fun _ => 1⟩

/-- A user on campus sees an internal board everywhere. -/
theorem board_filters_agree_iff_campus :
    let v : Viewer := ⟨0o31, 1, none⟩
    let b := demoBoard (bytes "campus") brdIntern 0 (by decide)
    (loadBoardsAddto demoView v false 0 b = false ↔ applyBoards v (gBoardNames v) [b] [] = []) ∧
      (loadBoardsAddto demoView v false 0 b = false ↔ b ∉ initBlist v [b] none) := by
  intro v b
  have hshows : demoView.shows false 0 b = true := by decide +kernel
  have hlevel : levelAdmits v b = true := by decide +kernel
  have hhost : hostRefuses v b = false := by decide +kernel
  exact (@board_filters_agree_iff demoView v false 0 b [] none hshows rfl ⟨nofun, rfl⟩).mpr
    (.inr (.inl ⟨hlevel, hhost⟩))

/-- A user off campus without further permissions reads the digest of an internal board, which the
list of boards and the prompt hide. -/
theorem board_filters_internal :
    let v : Viewer := ⟨0o31, 0, none⟩
    let b := demoBoard (bytes "campus") brdIntern 0 (by decide)
    demoView.shows false 0 b = true ∧ loadBoardsAddto demoView v false 0 b = false ∧
      makeBlist v [b] = [] ∧ b ∈ initBlist v [b] none := by
  intro v b
  refine ⟨by decide +kernel, by decide +kernel, by decide +kernel, ?_⟩
  rw [mem_initBlist]
  exact ⟨List.mem_singleton_self _, nofun, by decide, rfl, by decide +kernel, by decide +kernel⟩

end ArgoBbs

import ArgoBbs.Board.Inboard
import Mathlib.Data.List.Find

/-! # Moving to the level of a group

`setboardlevel` looks a group up in the list of all boards, for which it puts `NULL` for the prefix of
the titles. The list is loaded into globals, by a loader that reads others (`boards.c`). -/

namespace ArgoBbs

def goodBrcNum : Nat := 50

/-- The favourites, the lines of the files of the system and of the user, and which of the two is
used. -/
structure GoodBrd where
  num : Nat
  id : List Bytes
  sys : Bool
  sysgoodbrd : List Bytes
  goodbrd : List Bytes

/-- The globals of the lists of boards. The entries of `nbrd` are cells of the cache. -/
structure BoardList where
  boardlevel : Nat
  boardprefix : Option Bytes
  yankFlag : Bool
  zapbuf : Option (Nat → Int)
  goodBrd : GoodBrd
  brdnum : Int
  nbrd : List Nat

/-- The board that the favourites consist of if they are empty, and what `load_zapbuf` loads. -/
structure BoardFiles where
  defaultfav : Bytes
  lastread : Nat → Int

section
variable (files : BoardFiles) (table : BoardTable) (v : Viewer)

def loadGoodBrd (g : GoodBrd) : GoodBrd :=
  let lines := if g.sys then g.sysgoodbrd else g.goodbrd
  let id := (lines.filter fun bname => table.getbnum v bname ≠ 0).take goodBrcNum
  let id := if id = [] then [files.defaultfav] else id
  { g with num := id.length, id }

/-- `save_GoodBrd` when there are no favourites. -/
def saveGoodBrd (g : GoodBrd) : GoodBrd :=
  if g.sys then g else { g with num := 1, id := [files.defaultfav], goodbrd := [files.defaultfav] }

/-- What the list shows that `load_boards` loads. -/
def BoardList.view (g : BoardList) : BoardView where
  goodBrd := if g.goodBrd.num = 9999 then some (loadGoodBrd files table v g.goodBrd).id else none
  boardlevel := g.boardlevel
  boardprefix := g.boardprefix
  yankFlag := g.yankFlag
  zapbuf := g.zapbuf.getD files.lastread

def loadBoards (complete : Bool) (g : BoardList) : Int × BoardList :=
  let view := g.view files table v
  let goodbrd := g.goodBrd.num = 9999
  let goodBrd := if goodbrd then loadGoodBrd files table v g.goodBrd else g.goodBrd
  let nbrd := (List.range table.numboards).filter fun n =>
    loadBoardsAddto view v complete n (table.bcache n)
  let g := { g with zapbuf := some view.zapbuf, goodBrd, nbrd, brdnum := nbrd.length }
  if nbrd.length = 0 ∧ g.yankFlag = false ∧ g.boardprefix = none then
    let goodBrd :=
      if goodbrd then { saveGoodBrd files { goodBrd with num := 0 } with num := 9999 } else goodBrd
    (-1, { g with goodBrd, brdnum := -1, yankFlag := true })
  else (0, g)

/-- `qsort` is that of the library, with the order of the user. -/
def setboardlevel (qsort : List Nat → List Nat) (bname : Bytes) (g : BoardList) : Int × BoardList :=
  let oldlevel := g.boardlevel
  let oldBoardprefix := g.boardprefix
  let (ret, g) := loadBoards files table v true { g with boardprefix := none }
  if ret = -1 ∨ g.brdnum ≤ 0 then (-1, g)
  else
    let g := { g with boardprefix := oldBoardprefix, nbrd := qsort g.nbrd }
    match g.nbrd.find? fun pos => (table.bcache pos).filename = bname with
    | some pos => (oldlevel, { g with boardlevel := pos + 1 })
    | none => (-1, g)

/-- A call that fails changes neither the prefix nor the level, one that succeeds only the level, to
that of the board. -/
def LevelSet (bname : Bytes) (g : BoardList) (result : Int × BoardList) : Prop :=
  BoardList.boardprefix result.2 = g.boardprefix ∧
    (result.1 = -1 ∧ result.2.boardlevel = g.boardlevel ∨
      result.1 = g.boardlevel ∧ ∃ n < table.numboards,
        result.2.boardlevel = n + 1 ∧ (table.bcache n).filename = bname)

end

variable {files : BoardFiles} {table : BoardTable} {v : Viewer} {qsort : List Nat → List Nat}
  {bname : Bytes} {g : BoardList}

/-- The boards that the list of all boards shows, in the order of the cache. -/
def allBoards (files : BoardFiles) (table : BoardTable) (v : Viewer) (g : BoardList) : List Nat :=
  (List.range table.numboards).filter fun n =>
    loadBoardsAddto { g.view files table v with boardprefix := none } v true n (table.bcache n)

/-- The loader fails, or leaves an empty list, just if there are no boards to show. -/
theorem loadBoards_fails_iff :
    ((loadBoards files table v true { g with boardprefix := none }).1 = -1 ∨
      (loadBoards files table v true { g with boardprefix := none }).2.brdnum ≤ 0) ↔
        allBoards files table v g = [] := by
  rw [loadBoards]
  dsimp only
  generalize hboards : (List.range table.numboards).filter (fun n =>
    loadBoardsAddto (BoardList.view files table v { g with boardprefix := none }) v true n
      (table.bcache n)) = boards
  have hall : allBoards files table v g = boards := hboards
  rw [hall]
  split
  case isTrue hnone => exact iff_of_true (.inl rfl) (List.eq_nil_of_length_eq_zero hnone.1)
  case isFalse =>
    constructor
    · rintro (hret | hlen)
      · cases hret
      · exact List.eq_nil_of_length_eq_zero (by dsimp only at hlen; omega)
    · rintro rfl
      exact .inr (Int.le_refl 0)

theorem loadBoards_level (complete : Bool) (g : BoardList) :
    (loadBoards files table v complete g).2.boardlevel = g.boardlevel ∧
      BoardList.boardprefix (loadBoards files table v complete g).2 = g.boardprefix := by
  rw [loadBoards]
  dsimp only
  split
  · exact ⟨rfl, rfl⟩
  · exact ⟨rfl, rfl⟩

theorem loadBoards_nbrd (g : BoardList) :
    (loadBoards files table v true { g with boardprefix := none }).2.nbrd =
      allBoards files table v g := by
  rw [loadBoards]
  dsimp only
  split
  · rfl
  · rfl

/-- Without boards to show the prefix is lost. -/
theorem setboardlevel_of_nil (qsort : List Nat → List Nat) (bname : Bytes)
    (hnone : allBoards files table v g = []) :
    ∃ g', setboardlevel files table v qsort bname g = (-1, g') ∧ g'.boardlevel = g.boardlevel ∧
      BoardList.boardprefix g' = none := by
  rw [setboardlevel]
  dsimp only
  rw [if_pos (loadBoards_fails_iff.mpr hnone)]
  obtain ⟨hlevel, hkeeps⟩ :=
    loadBoards_level true { g with boardprefix := none }
  exact ⟨_, rfl, hlevel, hkeeps⟩

theorem setboardlevel_of_ne_nil (qsort : List Nat → List Nat) (bname : Bytes)
    (hsome : allBoards files table v g ≠ []) :
    ∃ g' : BoardList, setboardlevel files table v qsort bname g =
        (match (qsort (allBoards files table v g)).find? fun pos =>
          (table.bcache pos).filename = bname with
        | some pos => ((g.boardlevel : Int), { g' with boardlevel := pos + 1 })
        | none => (-1, g')) ∧
      g'.boardlevel = g.boardlevel ∧ BoardList.boardprefix g' = g.boardprefix := by
  rw [setboardlevel]
  dsimp only
  rw [if_neg (mt loadBoards_fails_iff.mp hsome), loadBoards_nbrd]
  have hlevel : (loadBoards files table v true { g with boardprefix := none }).2.boardlevel =
      g.boardlevel := (loadBoards_level true { g with boardprefix := none }).1
  refine ⟨{ (loadBoards files table v true { g with boardprefix := none }).2 with
    boardprefix := g.boardprefix
    nbrd := qsort (allBoards files table v g) }, ?_, hlevel, rfl⟩
  rfl

theorem allBoards_ne_nil_iff : allBoards files table v g ≠ [] ↔ ∃ n < table.numboards,
    loadBoardsAddto { g.view files table v with boardprefix := none } v true n
      (table.bcache n) = true := by
  constructor
  · intro hne
    obtain ⟨n, hn⟩ := List.exists_mem_of_ne_nil _ hne
    rw [allBoards, List.mem_filter, List.mem_range] at hn
    exact ⟨n, hn⟩
  · rintro ⟨n, hn⟩
    apply List.ne_nil_of_mem (a := n)
    rw [allBoards, List.mem_filter, List.mem_range]
    exact hn

/-- Where the names of boards differ, the level is the one that is looked up without the globals. -/
theorem setboardlevel_eq (hqsort : ∀ l, (qsort l).Perm l)
    (hnames : ∀ m < table.numboards, ∀ n < table.numboards,
      (table.bcache m).filename = (table.bcache n).filename → m = n) :
    table.setboardlevel v (g.view files table v) bname =
      (if (setboardlevel files table v qsort bname g).1 = -1 then none
      else some (setboardlevel files table v qsort bname g).2.boardlevel) := by
  change ((allBoards files table v g).find? fun n => (table.bcache n).filename = bname).map (· + 1) = _
  by_cases hnone : allBoards files table v g = []
  · obtain ⟨g', hset, -⟩ := setboardlevel_of_nil qsort bname hnone
    rw [hset, if_pos rfl, hnone]
    rfl
  · obtain ⟨g', hset, hlevel, -⟩ := setboardlevel_of_ne_nil qsort bname hnone
    have hfind : ((qsort (allBoards files table v g)).find? fun n =>
          (table.bcache n).filename = bname) =
        (allBoards files table v g).find? fun n => (table.bcache n).filename = bname := by
      apply List.find?_eq_find?_of_perm (hqsort _)
      rintro m ⟨hm, hmname⟩ n ⟨hn, hnname⟩
      rw [(hqsort _).mem_iff, allBoards, List.mem_filter, List.mem_range] at hm hn
      exact hnames m hm.1 n hn.1
        ((of_decide_eq_true hmname).trans (of_decide_eq_true hnname).symm)
    rw [hset, hfind]
    cases (allBoards files table v g).find? fun n => (table.bcache n).filename = bname with
    | none => rfl
    | some pos => rfl

/-- A jump to a group fails without a trace, or leads to the level of the board and changes nothing
else, just if no prefix is in force or there is a board to show. -/
theorem levelSet_iff (files : BoardFiles) (table : BoardTable) (v : Viewer)
    (qsort : List Nat → List Nat) (hqsort : ∀ l, (qsort l).Perm l) (bname : Bytes) (g : BoardList) :
    LevelSet table bname g (setboardlevel files table v qsort bname g) ↔
      g.boardprefix = none ∨ ∃ n < table.numboards,
        loadBoardsAddto { g.view files table v with boardprefix := none } v true n
          (table.bcache n) = true := by
  rw [← allBoards_ne_nil_iff]
  by_cases hnone : allBoards files table v g = []
  · obtain ⟨g', hset, hlevel, hkeeps⟩ :=
      setboardlevel_of_nil qsort bname hnone
    rw [hset, or_iff_left (not_not_intro hnone)]
    constructor
    · intro hkept
      exact hkept.1.symm.trans hkeeps
    · intro hg
      exact ⟨hkeeps.trans hg.symm, .inl ⟨rfl, hlevel⟩⟩
  · obtain ⟨g', hset, hlevel, hkeeps⟩ :=
      setboardlevel_of_ne_nil qsort bname hnone
    refine iff_of_true ?_ (.inr hnone)
    rw [hset]
    split
    case h_1 pos hpos =>
      have hmem := (hqsort _).mem_iff.mp (List.mem_of_find?_eq_some hpos)
      rw [allBoards, List.mem_filter, List.mem_range] at hmem
      exact ⟨hkeeps, .inr ⟨rfl, pos, hmem.1, rfl, by simpa using List.find?_some hpos⟩⟩
    case h_2 => exact ⟨hkeeps, .inl ⟨rfl, hlevel⟩⟩

/-- A group without boards, of which the user has zapped all or none. -/
def demoGroup (zapped : Bool) : BoardFiles × BoardTable × BoardList :=
  (⟨bytes "test", fun _ => if zapped then 0 else 1⟩,
    ⟨fun _ => demoBoard (bytes "linux") brdGroup 0 (by decide), 1⟩,
    ⟨0, some (bytes "1"), false, none, ⟨0, [], false, [], []⟩, 0, []⟩)

theorem levelSet_iff_linux :
    LevelSet (demoGroup false).2.1 (bytes "linux") (demoGroup false).2.2
      (setboardlevel (demoGroup false).1 (demoGroup false).2.1 ⟨0o31, 1, none⟩ id (bytes "linux")
        (demoGroup false).2.2) := by
  refine (levelSet_iff _ _ _ id (fun l => List.Perm.refl l) _ _).mpr (.inr ⟨0, Nat.zero_lt_one, ?_⟩)
  decide +kernel

/-- With all boards zapped the jump fails, and the prefix is gone. -/
theorem not_levelSet : ¬∀ (files : BoardFiles) (table : BoardTable) (v : Viewer)
    (qsort : List Nat → List Nat), (∀ l, (qsort l).Perm l) → ∀ (bname : Bytes) (g : BoardList),
      LevelSet table bname g (setboardlevel files table v qsort bname g) := by
  intro hall
  have hset := hall (demoGroup true).1 (demoGroup true).2.1 ⟨0o31, 1, none⟩ id
    (fun l => List.Perm.refl l) (bytes "linux") (demoGroup true).2.2
  have hlost : BoardList.boardprefix (setboardlevel (demoGroup true).1 (demoGroup true).2.1
      ⟨0o31, 1, none⟩ id (bytes "linux") (demoGroup true).2.2).2 = none := by decide +kernel
  cases hset.1.symm.trans hlost

end ArgoBbs

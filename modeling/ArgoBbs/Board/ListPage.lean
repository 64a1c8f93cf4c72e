import ArgoBbs.Record.Append
import Mathlib.Order.MinMax

/-! # The page of a list

A list reader shows one page of a file of records: `top_line` is the first entry of it, `crs_line`
the one under the cursor (`read.c`). The entries of the page are kept in `pnt`, so that the entry
under the cursor is at `crs_line - top_line` there. -/

namespace ArgoBbs

/-- `struct keeploc` -/
structure KeepLoc where
  topLine : Int
  crsLine : Int
  deriving DecidableEq

/-- What a reader knows of its list: its position, `last_line`, `screen_len` and `previewmode`, and
its `entries` and `recbase`; its `pnt` has room for `room` entries. -/
structure ListPage extends KeepLoc where
  lastLine : Int
  screenLen : Int
  previewmode : Bool
  entries : Int
  recbase : Int
  room : Int
  deriving DecidableEq

/-- What the commands and `i_read_key` return. -/
inductive ListMode
  | doNothing
  | fullUpdate
  | partUpdate
  | doQuit
  | newDirect
  | readNext
  | readPrev
  | gotoNext
  | dirChanged
  | modeChanged
  | newDirect2
  | preUpdate
  deriving DecidableEq

/-! ## The file of records -/

/-- `getrecords` for a file of so many records, if there is one: how many of `number` records from
`id` on are put into `pnt`. -/
structure RecordSource where
  getrecords : Option Nat → Int → Int → Int
  page (n : Nat) (id number : Int) (hid : 1 ≤ id) (hnum : 0 ≤ number) :
    getrecords (some n) id number = max 0 (min number (n - (id - 1)))
  none_le (id number : Int) (hid : 1 ≤ id) : getrecords none id number ≤ 0
  le (file : Option Nat) (id number : Int) (hnum : 0 ≤ number) : getrecords file id number ≤ number

/-- `getrecordnum` for the file -/
def numRecords (file : Option Nat) : Int := (file.getD 0 : Nat)

/-- `get_records`: there is no `open` without a file and no `lseek` to a place before the file. -/
def recordsRead : Option Nat → Int → Int → Int
  | none, _, _ => -1
  | some n, id, number => if id < 1 then 0 else max 0 (min number (n - (id - 1)))

/-- `get_records_blist`, whose records are in memory -/
def blistRead (file : Option Nat) (id number : Int) : Int :=
  max 0 (min number (numRecords file - (id - 1)))

section
variable {file : Option Nat} {n : Nat} {id number : Int}

theorem recordsRead_page (hid : 1 ≤ id) :
    recordsRead (some n) id number = max 0 (min number (n - (id - 1))) :=
  if_neg (Int.not_lt.mpr hid)

theorem recordsRead_none : recordsRead none id number ≤ 0 := Int.neg_nonpos_of_nonneg (by decide)

theorem recordsRead_le (hnum : 0 ≤ number) : recordsRead file id number ≤ number := by
  cases file with
  | none => exact Int.le_trans recordsRead_none hnum
  | some n =>
    rw [recordsRead]
    split <;> omega

theorem blistRead_none (hid : 1 ≤ id) : blistRead none id number ≤ 0 := by
  rw [blistRead, numRecords, Option.getD_none]
  omega

theorem blistRead_le (hnum : 0 ≤ number) : blistRead file id number ≤ number := by
  rw [blistRead]
  omega

end

def fileRecords : RecordSource where
  getrecords := recordsRead
  page _ _ _ hid _ := recordsRead_page hid
  none_le _ _ _ := recordsRead_none
  le _ _ _ hnum := recordsRead_le hnum

def blistRecords : RecordSource where
  getrecords := blistRead
  page _ _ _ _ _ := rfl
  none_le _ _ hid := blistRead_none hid
  le _ _ _ hnum := blistRead_le hnum

theorem length_getRecords {size : Nat} (hsize : 0 < size) (id : Int) (number : Nat) (file : Bytes) :
    ((getRecords size id number file).length : Int) =
      fileRecords.getrecords (some (file.length / size)) id number := by
  unfold getRecords fileRecords
  dsimp only
  rw [recordsRead]
  split
  case isTrue => rfl
  case isFalse hid =>
    obtain ⟨i, rfl⟩ : ∃ i : Nat, id = (i + 1 : Nat) := ⟨(id - 1).toNat, by omega⟩
    have hi : (((i + 1 : Nat) : Int) - 1).toNat = i := by omega
    have hdiv : (file.length - size * i) / size = file.length / size - i := Nat.sub_mul_div ..
    rw [List.length_map, List.length_range, List.length_take, List.length_drop, hi]
    rcases Nat.le_total (size * number) (file.length - size * i) with h | h
    · rw [Nat.min_eq_left h, Nat.mul_div_cancel_left _ hsize]
      have hle := Nat.div_le_div_right (c := size) h
      rw [Nat.mul_div_cancel_left _ hsize, hdiv] at hle
      omega
    · rw [Nat.min_eq_right h, hdiv]
      have hle := Nat.div_le_div_right (c := size) h
      rw [Nat.mul_div_cancel_left _ hsize, hdiv] at hle
      omega

/-! ## The position -/

/-- The two branches of `cursor_pos` that bring a number into the list, around its ends with
`DEF_CIRCLE`. -/
def ringLine (circle : Bool) (lastLine val : Int) : Int :=
  let val := if lastLine < val then if circle then 1 else lastLine else val
  if val ≤ 0 then if circle then lastLine else 1 else val

/-- `setkeep` -/
def KeepLoc.setkeep (k : KeepLoc) (tLines pos : Int) : KeepLoc :=
  if k.topLine ≤ pos ∧ pos < k.topLine + tLines - 4 then { k with crsLine := pos }
  else ⟨if pos ≤ (tLines - 3) / 2 then 1 else pos - (tLines - 3) / 2, pos⟩

/-- `fixkeep` -/
def KeepLoc.fixkeep (k : KeepLoc) (tLines first : Int) : KeepLoc :=
  if first ≤ k.crsLine then
    ⟨if first ≤ (tLines - 3) / 2 then 1 else first - (tLines - 3) / 2,
      if first = 1 then 1 else first - 1⟩
  else k

/-- `modify_locmem` -/
def KeepLoc.modifyLocmem (k : KeepLoc) (tLines screenLen total : Int) : KeepLoc :=
  let k :=
    if total < k.topLine then
      ⟨if total - tLines / 2 < 1 then 1 else total - tLines / 2, total⟩
    else if total < k.crsLine then { k with crsLine := total }
    else k
  if k.topLine ≤ k.crsLine - screenLen then
    { k with topLine := if k.crsLine - screenLen / 2 < 1 then 1 else k.crsLine - screenLen / 2 }
  else k

/-- Where `getkeep` starts a board whose first unread article is `tmp`, in `do_select`. -/
def firstNew (tLines tmp : Int) : KeepLoc :=
  ⟨if 1 < tmp - tLines / 2 then tmp - tLines / 2 else 1, tmp + 1⟩

namespace ListPage

/-- `cursor_pos`: whether the page has to be loaded. -/
def cursorPos (p : ListPage) (circle : Bool) (val fromTop : Int) : ListPage × Bool :=
  let val := ringLine circle p.lastLine val
  if p.topLine ≤ val ∧ val < p.topLine + p.screenLen then ({ p with crsLine := val }, false)
  else
    ({ p with topLine := if val - fromTop ≤ 0 then 1 else val - fromTop, crsLine := val }, true)

/-- What `move_cursor_line` returns: 0, 1 or -1. -/
inductive CursorMove
  | inPage
  | reload
  | refused
  deriving DecidableEq

/-- `move_cursor_line`, for `READ_NEXT` or `READ_PREV` -/
def moveCursorLine (p : ListPage) (next : Bool) : ListPage × CursorMove :=
  if next then
    let top := if p.topLine + p.screenLen ≤ p.crsLine + 1 then p.topLine + (p.screenLen - 1)
      else p.topLine
    if p.lastLine < p.crsLine + 1 then
      ({ p with topLine := top, crsLine := p.lastLine }, .refused)
    else
      ({ p with topLine := top, crsLine := p.crsLine + 1 },
        if p.topLine + p.screenLen ≤ p.crsLine + 1 then .reload else .inPage)
  else
    let top :=
      if p.crsLine ≤ p.topLine then
        if p.topLine - (p.screenLen - 1) < 1 then 1 else p.topLine - (p.screenLen - 1)
      else p.topLine
    if p.crsLine - 1 < 1 then ({ p with topLine := top, crsLine := 1 }, .refused)
    else
      ({ p with topLine := top, crsLine := p.crsLine - 1 },
        if p.crsLine ≤ p.topLine then .reload else .inPage)

/-- The article under the cursor is shown again in the preview. -/
def shown (p : ListPage) (reading : Bool) : ListMode :=
  if p.previewmode && reading then .preUpdate else .doNothing

/-- `KEY_UP` and `KEY_DOWN`, and the others that move by `cursor_pos` -/
def goTo (p : ListPage) (circle reading : Bool) (val fromTop : Int) : ListPage × ListMode :=
  ((p.cursorPos circle val fromTop).1,
    if (p.cursorPos circle val fromTop).2 then .partUpdate else p.shown reading)

def pageDown (p : ListPage) (reading : Bool) : ListPage × ListMode :=
  if p.topLine + p.screenLen ≤ p.lastLine then
    ({ p with topLine := p.topLine + (p.screenLen - 1)
              crsLine := p.topLine + (p.screenLen - 1) }, .partUpdate)
  else ({ p with crsLine := p.lastLine }, p.shown reading)

def pageUp (p : ListPage) (reading : Bool) : ListPage × ListMode :=
  if 1 < p.topLine then
    let top := if p.topLine - (p.screenLen - 1) ≤ 0 then 1 else p.topLine - (p.screenLen - 1)
    ({ p with topLine := top, crsLine := top }, .partUpdate)
  else ({ p with crsLine := p.topLine }, p.shown reading)

def home (p : ListPage) : ListPage × ListMode :=
  ({ p with topLine := 1, crsLine := 1 }, .partUpdate)

def toEnd (p : ListPage) (reading : Bool) : ListPage × ListMode :=
  if p.topLine + p.screenLen ≤ p.lastLine then
    ({ p with
        topLine := if p.lastLine - p.screenLen + 1 ≤ 0 then 1 else p.lastLine - p.screenLen + 1
        crsLine := p.lastLine }, .partUpdate)
  else ({ p with crsLine := p.lastLine }, p.shown reading)

/-! ## The page is loaded and drawn -/

/-- An entry is read from `pnt` at `crs_line - top_line`, or entries are put there. -/
inductive Access
  | read (p : ListPage)
  | load (number room : Int)
  deriving DecidableEq

section
variable (src : RecordSource) (file : Option Nat)

/-- `entries = getrecords(currdirect, pnt, ssize, recbase, screen_len)` -/
def load (p : ListPage) : ListPage :=
  { p with entries := src.getrecords file p.recbase p.screenLen }

def loaded (p : ListPage) : Access := .load (p.load src file).entries p.room

/-- The records are counted again where the page reaches behind the last one. -/
def recount (p : ListPage) : ListPage :=
  if p.lastLine < p.topLine + p.screenLen ∧ p.lastLine ≠ numRecords file then
    { p with lastLine := numRecords file, recbase := -1 }
  else p

/-- `recbase` is set to the first entry of the page. -/
def rebase (p : ListPage) : ListPage :=
  if p.lastLine < p.topLine then
    let base := if p.lastLine - p.screenLen / 2 < 1 then 1 else p.lastLine - p.screenLen / 2
    { p with recbase := base, topLine := base }
  else { p with recbase := p.topLine }

/-- The page is loaded if its first entry is not the one that has been loaded. -/
def reload (p : ListPage) : ListPage × List Access :=
  if p.recbase = p.topLine then (p, [])
  else (p.rebase.load src file, [p.rebase.loaded src file])

def clampCursor (p : ListPage) : ListPage :=
  if p.lastLine < p.crsLine then { p with crsLine := p.lastLine } else p

/-- `screen_len` with the preview below the list -/
def halve (p : ListPage) (reading : Bool) (tLines : Int) : ListPage :=
  if reading && p.previewmode then { p with screenLen := (tLines - 4) / 2 } else p

/-- With the preview, a page on which the cursor would not be seen begins with it. -/
def showCursor (p : ListPage) : ListPage × List Access :=
  if p.previewmode = true ∧ p.topLine + p.screenLen ≤ p.crsLine then
    let p := { p with topLine := p.crsLine, recbase := p.crsLine }
    (p.load src file, [p.loaded src file])
  else (p, [])

/-- `draw_entry` reads the entry under the cursor for the preview; the others it reads are the
`entries`. -/
def drawEntry (p : ListPage) (reading : Bool) : List Access :=
  if p.previewmode && reading then [.read p] else []

/-- The page from `recbase` and the cursor to its drawing -/
def redraw (p : ListPage) (reading : Bool) (tLines : Int) : ListPage × List Access :=
  let p₁ := p.reload src file
  let p₂ := (p₁.1.clampCursor.halve reading tLines).showCursor src file
  (p₂.1, p₁.2 ++ p₂.2 ++ p₂.1.drawEntry reading)

/-- `case PARTUPDATE` -/
def partUpdate (p : ListPage) (reading : Bool) (tLines : Int) : ListPage × List Access :=
  let p := p.recount file
  if p.lastLine = 0 then ({ p with entries := 0 }, []) else p.redraw src file reading tLines

/-- `case FULLUPDATE` -/
def fullUpdate (p : ListPage) (reading : Bool) (tLines : Int) : ListPage × List Access :=
  let p' := (p.load src file).partUpdate src file reading tLines
  (p'.1, p.loaded src file :: p'.2)

end

end ListPage

/-! ## Positions that stay in the list -/

/-- A position that has been kept: the cursor is not above the page, or both are at the beginning.
-/
def KeepLoc.WellKept (k : KeepLoc) : Prop :=
  1 ≤ k.topLine ∧ (k.topLine ≤ k.crsLine ∨ k.crsLine < 1 ∧ k.topLine = 1)

/-- The cursor is seen on a page of so many lines. -/
def KeepLoc.Fits (k : KeepLoc) (page : Int) : Prop := k.crsLine < k.topLine + page

namespace KeepLoc
variable {k : KeepLoc} {tLines screenLen total pos first page : Int}

theorem WellKept.setkeep (h : k.WellKept) (ht : 24 ≤ tLines) : (k.setkeep tLines pos).WellKept := by
  unfold KeepLoc.setkeep WellKept at *
  split
  · exact ⟨h.1, by dsimp only; omega⟩
  · dsimp only
    split <;> omega

theorem fits_setkeep (ht : 24 ≤ tLines) : (k.setkeep tLines pos).Fits (tLines - 4) := by
  unfold KeepLoc.setkeep Fits
  split
  · dsimp only
    omega
  · dsimp only
    split <;> omega

theorem WellKept.fixkeep (h : k.WellKept) (ht : 24 ≤ tLines) : (k.fixkeep tLines first).WellKept := by
  unfold KeepLoc.fixkeep
  split
  · unfold WellKept
    dsimp only
    split <;> split <;> omega
  · exact h

theorem Fits.fixkeep (h : k.Fits (tLines - 4)) (ht : 24 ≤ tLines) :
    (k.fixkeep tLines first).Fits (tLines - 4) := by
  unfold KeepLoc.fixkeep
  split
  · unfold Fits
    dsimp only
    split <;> split <;> omega
  · exact h

theorem wellKept_firstNew (tLines tmp : Int) (ht : 24 ≤ tLines) :
    (firstNew tLines tmp).WellKept := by
  unfold firstNew WellKept
  dsimp only
  split <;> omega

theorem fits_firstNew (tLines tmp : Int) (ht : 24 ≤ tLines) :
    (firstNew tLines tmp).Fits (tLines - 4) := by
  unfold firstNew Fits
  dsimp only
  split <;> omega

/-- `modify_locmem` brings a position into a list that is not empty, and the cursor into the page.
-/
theorem WellKept.modifyLocmem (h : k.WellKept) (hcrs : 1 ≤ k.crsLine) (ht : 0 ≤ tLines)
    (hpage : 1 ≤ screenLen) (htotal : 1 ≤ total) :
    let k' := k.modifyLocmem tLines screenLen total
    1 ≤ k'.topLine ∧ k'.topLine ≤ k'.crsLine ∧ k'.crsLine ≤ total ∧ k'.Fits screenLen := by
  -- the second part, for what the first one gives
  have hpart (k' : KeepLoc) (htop : 1 ≤ k'.topLine) (hle : k'.topLine ≤ k'.crsLine)
      (hlast : k'.crsLine ≤ total) :
      let k'' := if k'.topLine ≤ k'.crsLine - screenLen then
        { k' with
          topLine := if k'.crsLine - screenLen / 2 < 1 then 1 else k'.crsLine - screenLen / 2 }
      else k'
      1 ≤ k''.topLine ∧ k''.topLine ≤ k''.crsLine ∧ k''.crsLine ≤ total ∧ k''.Fits screenLen := by
    unfold Fits
    dsimp only
    split
    · dsimp only
      split <;> omega
    · omega
  obtain ⟨htop, hle⟩ := h
  refine hpart _ ?_ ?_ ?_
  · split
    · dsimp only
      split <;> omega
    · split <;> exact htop
  · split
    · dsimp only
      split <;> omega
    · split
      · dsimp only
        omega
      · omega
  · split
    · exact Int.le_refl total
    · split
      · exact Int.le_refl total
      · omega

end KeepLoc

namespace ListPage

/-- The page is in the list, and the cursor on the page. -/
structure Placed (p : ListPage) : Prop where
  top_pos : 1 ≤ p.topLine
  top_le : p.topLine ≤ p.crsLine
  le_last : p.crsLine ≤ p.lastLine

/-- From `recbase` on, `pnt` has all entries that a page can show. -/
def Full (p : ListPage) : Prop :=
  min p.lastLine (p.recbase + p.screenLen - 1) < p.recbase + p.entries

/-- What holds while the reader waits for a key, unless the list is empty. -/
structure Settled (p : ListPage) : Prop extends Placed p where
  fits : p.Fits p.screenLen
  base : p.recbase = p.topLine
  full : p.Full

def Access.Safe : Access → Prop
  | .read p => 0 ≤ p.crsLine - p.topLine ∧ p.crsLine - p.topLine < p.entries ∧
    (0 < p.lastLine → p.Placed)
  | .load number room => number ≤ room

section
variable {src : RecordSource} {file : Option Nat} {p : ListPage} {reading circle : Bool}
  {tLines val fromTop : Int}

theorem Settled.safe (h : p.Settled) : (Access.read p).Safe := by
  obtain ⟨⟨htop, hle, hlast⟩, hfits, hbase, hfull⟩ := h
  unfold KeepLoc.Fits Full at *
  exact ⟨by omega, by omega, fun _ => ⟨htop, hle, hlast⟩⟩

/-! ## The cursor moves -/

theorem ringLine_bounds (hlast : 0 < p.lastLine) :
    1 ≤ ringLine circle p.lastLine val ∧ ringLine circle p.lastLine val ≤ p.lastLine := by
  unfold ringLine
  grind

/-- Around an empty list the cursor goes to its beginning. -/
theorem ringLine_empty (hlast : p.lastLine = 0) :
    0 ≤ ringLine circle p.lastLine val ∧ ringLine circle p.lastLine val ≤ 1 := by
  unfold ringLine
  grind

/-- What `cursor_pos` leaves can be kept. -/
theorem cursorPos_kept (h : 1 ≤ p.topLine) (hlast : 0 ≤ p.lastLine) (hfrom : 0 ≤ fromTop) {page : Int}
    (hpage : p.screenLen ≤ page) (hfits : fromTop < page) :
    (p.cursorPos circle val fromTop).1.WellKept ∧ (p.cursorPos circle val fromTop).1.Fits page := by
  have hring : 0 ≤ ringLine circle p.lastLine val ∧
      (ringLine circle p.lastLine val = 0 → p.lastLine = 0) := by
    rcases Int.lt_or_eq_of_le hlast with hlast | hlast
    · have hbounds := @ringLine_bounds p circle val hlast
      omega
    · exact ⟨(ringLine_empty hlast.symm).1, fun _ => hlast.symm⟩
  unfold cursorPos KeepLoc.WellKept KeepLoc.Fits at *
  dsimp only
  split
  · dsimp only
    omega
  · dsimp only
    split <;> omega

theorem cursorPos_page (p : ListPage) (circle : Bool) (val fromTop : Int) :
    (p.cursorPos circle val fromTop).1 =
      { p with toKeepLoc := (p.cursorPos circle val fromTop).1.toKeepLoc } := by
  unfold cursorPos
  dsimp only
  split <;> rfl

/-- A move within the page. -/
theorem Settled.cursorPos (h : p.Settled) (hlast : 0 < p.lastLine)
    (hstay : (p.cursorPos circle val fromTop).2 = false) :
    (p.cursorPos circle val fromTop).1.Settled := by
  have hring := @ringLine_bounds p circle val hlast
  unfold ListPage.cursorPos at *
  dsimp only at *
  split at hstay
  case isTrue hin =>
    rw [if_pos hin]
    exact ⟨⟨h.top_pos, hin.1, hring.2⟩, hin.2, h.base, h.full⟩
  case isFalse => cases hstay

theorem wellKept_of_settled (h : p.Settled) : p.WellKept := ⟨h.top_pos, .inl h.top_le⟩

/-- What a move of `i_read_key` leaves: the page as it was but for its position, which can be kept,
and settled unless the page is to be loaded. -/
structure Moved (p : ListPage) (reading : Bool) (r : ListPage × ListMode) : Prop where
  kept : r.1.WellKept
  fits : ∀ page, p.screenLen ≤ page → 20 ≤ page → r.1.Fits page
  page : r.1 = { p with toKeepLoc := r.1.toKeepLoc }
  mode : r.2 = .partUpdate ∨ r.2 = p.shown reading ∧ r.1.Settled

theorem moved_settled {k : KeepLoc}
    (hs : ({ p with toKeepLoc := k } : ListPage).Settled) :
    Moved p reading ({ p with toKeepLoc := k }, p.shown reading) where
  kept := wellKept_of_settled hs
  fits page hpage _ := by
    have hfits := hs.fits
    unfold KeepLoc.Fits at *
    dsimp only at *
    omega
  page := rfl
  mode := .inr ⟨rfl, hs⟩

theorem moved_reload {k : KeepLoc} (hkept : k.WellKept)
    (hfits : ∀ page, p.screenLen ≤ page → 20 ≤ page → k.Fits page) :
    Moved p reading ({ p with toKeepLoc := k }, .partUpdate) where
  kept := hkept
  fits := hfits
  page := rfl
  mode := .inl rfl

theorem Settled.goTo (h : p.Settled) (hlast : 0 < p.lastLine) (hfrom : 0 ≤ fromTop)
    (hpage : fromTop < p.screenLen ∨ fromTop < 20) :
    Moved p reading (p.goTo circle reading val fromTop) where
  kept := (cursorPos_kept h.top_pos hlast.le hfrom (le_max_left _ 20)
    (by omega)).1
  fits page hle h20 := (cursorPos_kept h.top_pos hlast.le hfrom hle (by omega)).2
  page := cursorPos_page ..
  mode := by
    unfold ListPage.goTo
    dsimp only
    cases hstay : (p.cursorPos circle val fromTop).2 with
    | true => exact .inl rfl
    | false => exact .inr ⟨rfl, h.cursorPos hlast hstay⟩

theorem Settled.pageDown (h : p.Settled) (hpage : 2 ≤ p.screenLen) :
    Moved p reading (p.pageDown reading) := by
  have hpos := h.top_pos
  have hle := h.top_le
  have hlast := h.le_last
  unfold ListPage.pageDown
  split
  · refine moved_reload (k := ⟨_, _⟩) ⟨?_, .inl (Int.le_refl _)⟩ fun page hpage h20 => ?_
    · dsimp only
      omega
    · unfold KeepLoc.Fits
      dsimp only
      omega
  · refine moved_settled (k := ⟨_, _⟩) ⟨⟨hpos, ?_, Int.le_refl _⟩, ?_, h.base, h.full⟩
    · exact Int.le_trans hle hlast
    · unfold KeepLoc.Fits
      dsimp only
      omega

theorem Settled.pageUp (h : p.Settled) (hpage : 2 ≤ p.screenLen) :
    Moved p reading (p.pageUp reading) := by
  have hpos := h.top_pos
  unfold ListPage.pageUp
  split
  · refine moved_reload (k := ⟨_, _⟩) ⟨?_, .inl (Int.le_refl _)⟩ fun page hpage h20 => ?_
    · dsimp only
      split <;> omega
    · unfold KeepLoc.Fits
      dsimp only
      omega
  · refine moved_settled (k := ⟨_, _⟩) ⟨⟨hpos, Int.le_refl _, ?_⟩, ?_, h.base, h.full⟩
    · exact Int.le_trans h.top_le h.le_last
    · unfold KeepLoc.Fits
      dsimp only
      omega

theorem moved_home : Moved p reading p.home := by
  refine moved_reload (k := ⟨1, 1⟩) ⟨Int.le_refl 1, .inl (Int.le_refl 1)⟩ fun page _ h20 => ?_
  unfold KeepLoc.Fits
  dsimp only
  omega

theorem Settled.toEnd (h : p.Settled) : Moved p reading (p.toEnd reading) := by
  have hpos := h.top_pos
  have hle := h.top_le
  have hlast := h.le_last
  have hfits : p.crsLine < p.topLine + p.screenLen := h.fits
  unfold ListPage.toEnd
  split
  · refine moved_reload (k := ⟨_, _⟩) ⟨?_, .inl ?_⟩ fun page hpage h20 => ?_
    · dsimp only
      split <;> omega
    · dsimp only
      split <;> omega
    · unfold KeepLoc.Fits
      dsimp only
      split <;> omega
  · refine moved_settled (k := ⟨_, _⟩) ⟨⟨hpos, ?_, Int.le_refl _⟩, ?_, h.base, h.full⟩
    · exact Int.le_trans hle hlast
    · unfold KeepLoc.Fits
      dsimp only
      omega

/-- What `move_cursor_line` leaves of a settled page: the cursor on this page, a page that is to be
loaded, or the end of the list. -/
structure Stepped (p : ListPage) (r : ListPage × CursorMove) : Prop where
  kept : r.1.WellKept
  fits : ∀ page, p.screenLen ≤ page → r.1.Fits page
  page : r.1 = { p with toKeepLoc := r.1.toKeepLoc }
  inPage : r.2 = .inPage → r.1.Settled
  reload : r.2 = .reload → r.1.Placed

theorem Settled.readNext (h : p.Settled) (hpage : 2 ≤ p.screenLen) :
    Stepped p (p.moveCursorLine true) := by
  have hpos := h.top_pos
  have hle := h.top_le
  have hlast := h.le_last
  have hfits : p.crsLine < p.topLine + p.screenLen := h.fits
  unfold ListPage.moveCursorLine
  rw [if_pos rfl]
  dsimp only
  by_cases hturn : p.topLine + p.screenLen ≤ p.crsLine + 1
  · rw [if_pos hturn, if_pos hturn]
    split
    · refine ⟨⟨?_, .inl ?_⟩, fun page hle => ?_, rfl, nofun, nofun⟩ <;>
        simp only [KeepLoc.Fits] <;> omega
    · refine ⟨⟨?_, .inl ?_⟩, fun page hle => ?_, rfl, nofun, fun _ => ⟨?_, ?_, ?_⟩⟩ <;>
        simp only [KeepLoc.Fits] <;> omega
  · rw [if_neg hturn, if_neg hturn]
    split
    · refine ⟨⟨?_, .inl ?_⟩, fun page hle => ?_, rfl, nofun, nofun⟩ <;>
        simp only [KeepLoc.Fits] <;> omega
    · refine ⟨⟨?_, .inl ?_⟩, fun page hle => ?_, rfl,
        fun _ => ⟨⟨?_, ?_, ?_⟩, ?_, h.base, h.full⟩, nofun⟩ <;>
        simp only [KeepLoc.Fits] <;> omega

theorem Settled.readPrev (h : p.Settled) (hpage : 2 ≤ p.screenLen) :
    Stepped p (p.moveCursorLine false) := by
  have hpos := h.top_pos
  have hle := h.top_le
  have hlast := h.le_last
  have hfits : p.crsLine < p.topLine + p.screenLen := h.fits
  unfold ListPage.moveCursorLine
  rw [if_neg Bool.false_ne_true]
  dsimp only
  by_cases hturn : p.crsLine ≤ p.topLine
  · have htop : 1 ≤ (if p.topLine - (p.screenLen - 1) < 1 then 1
          else p.topLine - (p.screenLen - 1)) ∧
        (if p.topLine - (p.screenLen - 1) < 1 then 1 else p.topLine - (p.screenLen - 1)) ≤
          max 1 (p.crsLine - 1) ∧
        p.crsLine < (if p.topLine - (p.screenLen - 1) < 1 then 1
          else p.topLine - (p.screenLen - 1)) + p.screenLen := by
      split <;> omega
    rw [if_pos hturn, if_pos hturn]
    split
    · refine ⟨⟨?_, .inl ?_⟩, fun page hle => ?_, rfl, nofun, nofun⟩ <;>
        simp only [KeepLoc.Fits] <;> omega
    · refine ⟨⟨?_, .inl ?_⟩, fun page hle => ?_, rfl, nofun, fun _ => ⟨?_, ?_, ?_⟩⟩ <;>
        simp only [KeepLoc.Fits] <;> omega
  · rw [if_neg hturn, if_neg hturn]
    split
    · refine ⟨⟨?_, .inl ?_⟩, fun page hle => ?_, rfl, nofun, nofun⟩ <;>
        simp only [KeepLoc.Fits] <;> omega
    · refine ⟨⟨?_, .inl ?_⟩, fun page hle => ?_, rfl,
        fun _ => ⟨⟨?_, ?_, ?_⟩, ?_, h.base, h.full⟩, nofun⟩ <;>
        simp only [KeepLoc.Fits] <;> omega

/-- `move_cursor_line` on a settled page -/
theorem Settled.moveCursorLine (h : p.Settled) (hpage : 2 ≤ p.screenLen) (next : Bool) :
    Stepped p (p.moveCursorLine next) := by
  cases next with
  | true => exact h.readNext hpage
  | false => exact h.readPrev hpage

/-! ## The page is loaded -/

/-- A load from `recbase` on of a page that is not cut off by the end of the file. -/
theorem load_full (hlast : 0 < p.lastLine) (hbase : 1 ≤ p.recbase) (hpage : 1 ≤ p.screenLen)
    (hrecords : min p.lastLine (p.recbase + p.screenLen - 1) ≤ numRecords file) :
    (p.load src file).Full := by
  unfold Full load numRecords at *
  dsimp only
  cases file with
  | none =>
    rw [Option.getD_none] at hrecords
    omega
  | some n =>
    rw [src.page n p.recbase p.screenLen hbase (by omega)]
    rw [Option.getD_some] at hrecords
    omega

theorem loaded_safe (hpage : 0 ≤ p.screenLen) (hroom : p.screenLen ≤ p.room) :
    (p.loaded src file).Safe :=
  Int.le_trans (src.le file p.recbase p.screenLen hpage) hroom

/-- The condition for a page to be drawn: the position is not the entry 0 unless the file is found
to be empty; the window has its size in the preview; and where the records are not counted again,
the file goes on to the end of each page that is loaded. Where the count shows that `last_line` is
right, the page that has been loaded does not begin behind it. -/
structure UpdateMeets (file : Option Nat) (reading full : Bool) (tLines : Int) (p : ListPage) :
    Prop where
  position : 1 ≤ p.crsLine ∨ p.lastLine < p.topLine + p.screenLen ∧ numRecords file = 0
  window : reading = true → p.previewmode = true → tLines - 4 = p.room
  begins : p.lastLine = numRecords file → p.recbase = p.topLine → 0 < p.lastLine →
    p.topLine ≤ p.lastLine
  page : p.topLine + p.screenLen ≤ p.lastLine → full = true ∨ p.recbase ≠ p.topLine →
    p.topLine + p.screenLen - 1 ≤ numRecords file
  preview : p.topLine + p.screenLen ≤ p.lastLine → p.previewmode = true →
    p.topLine + (p.halve reading tLines).screenLen ≤ min p.crsLine p.lastLine →
    min p.lastLine (min p.crsLine p.lastLine + (p.halve reading tLines).screenLen - 1) ≤
      numRecords file

/-- The length of a page: that of a whole window, or the half of it with the preview. -/
structure Sized (p : ListPage) : Prop where
  room : 20 ≤ p.room
  size : p.screenLen = p.room ∨ p.screenLen = p.room / 2 ∧ p.previewmode = true

theorem Sized.bounds (h : p.Sized) : 10 ≤ p.screenLen ∧ p.screenLen ≤ p.room := by
  obtain ⟨hroom, hsize⟩ := h
  omega

/-- Before the cursor is brought into the page: all accesses have been safe, and the page has been
loaded from its first entry on. -/
structure Reloaded (file : Option Nat) (p : ListPage) (r : ListPage × List Access) : Prop where
  safe : ∀ a ∈ r.2, a.Safe
  page : r.1 = { p with topLine := r.1.topLine, recbase := r.1.recbase, entries := r.1.entries }
  base : r.1.recbase = r.1.topLine
  top_pos : 1 ≤ r.1.topLine
  top_le : r.1.topLine ≤ p.crsLine
  le_last : r.1.topLine ≤ p.lastLine
  fits : min p.crsLine p.lastLine < r.1.topLine + p.room
  full : r.1.Full

/-- The records have just been counted, or the file goes on to the end of the page. -/
def Covers (file : Option Nat) (p : ListPage) (base size : Int) : Prop :=
  p.lastLine = numRecords file ∨ min p.lastLine (base + size - 1) ≤ numRecords file

theorem Covers.min_le {base size : Int} (h : Covers file p base size) :
    min p.lastLine (base + size - 1) ≤ numRecords file := by
  unfold Covers at h
  omega

theorem reload_spec (src : RecordSource) (hs : p.Sized) (hlast : 0 < p.lastLine)
    (hpos : 1 ≤ p.topLine) (hle : p.topLine ≤ p.crsLine) (hfits : p.Fits p.room)
    (hfull : p.recbase = p.topLine → p.Full)
    (htop : p.topLine ≤ p.lastLine ∨ p.recbase ≠ p.topLine ∧ p.lastLine = numRecords file)
    (hcovers : p.recbase ≠ p.topLine → Covers file p p.topLine p.screenLen) :
    Reloaded file p (p.reload src file) := by
  obtain ⟨hten, hroom⟩ := hs.bounds
  have h20 := hs.room
  unfold KeepLoc.Fits at hfits
  by_cases hbase : p.recbase = p.topLine
  · have htop : p.topLine ≤ p.lastLine := htop.resolve_right fun h => h.1 hbase
    rw [reload, if_pos hbase]
    refine ⟨List.forall_mem_nil _, rfl, hbase, hpos, hle, htop, ?_, hfull hbase⟩
    dsimp only
    omega
  · rw [reload, if_neg hbase]
    have hsafe (q : ListPage) (hq : q.screenLen = p.screenLen ∧ q.room = p.room) :
        ∀ a ∈ [q.loaded src file], a.Safe := by
      intro a ha
      rw [List.mem_singleton.mp ha]
      exact loaded_safe (by omega) (by omega)
    unfold rebase
    split
    case isTrue hbehind =>
      have hcount : p.lastLine = numRecords file := by omega
      refine ⟨hsafe _ ⟨rfl, rfl⟩, rfl, rfl, ?_, ?_, ?_, ?_, load_full hlast ?_ ?_ ?_⟩ <;>
        simp only [load] <;> (try split) <;> omega
    case isFalse hin =>
      have hmin := (hcovers hbase).min_le
      refine ⟨hsafe _ ⟨rfl, rfl⟩, rfl, rfl, hpos, hle, Int.not_lt.mp hin, ?_,
        load_full hlast hpos ?_ hmin⟩ <;>
        simp only [load] <;> omega

theorem clampCursor_eq (p : ListPage) :
    p.clampCursor = { p with crsLine := min p.crsLine p.lastLine } := by
  unfold clampCursor
  split
  case isTrue h => rw [min_eq_right (Int.le_of_lt h)]
  case isFalse h => rw [min_eq_left (Int.not_lt.mp h)]

/-- In a window of its size the page is not longer than before, and half of the window in the
preview. -/
theorem Sized.halve (hs : p.Sized)
    (hwindow : reading = true → p.previewmode = true → tLines - 4 = p.room) :
    ((p.halve reading tLines).screenLen = p.room ∨
        (p.halve reading tLines).screenLen = p.room / 2 ∧ p.previewmode = true) ∧
      (p.halve reading tLines).screenLen ≤ p.screenLen ∧
      (reading = true → p.previewmode = true →
        (p.halve reading tLines).screenLen = p.room / 2) := by
  obtain ⟨h20, hsize⟩ := hs
  unfold ListPage.halve
  split
  case isTrue h =>
    obtain ⟨hreading, hpreview⟩ := Bool.and_eq_true_iff.mp h
    have hwin := hwindow hreading hpreview
    refine ⟨.inr ⟨?_, hpreview⟩, ?_, fun _ _ => ?_⟩ <;> dsimp only <;> omega
  case isFalse h =>
    exact ⟨hsize, Int.le_refl _, fun hr hp => absurd (Bool.and_eq_true_iff.mpr ⟨hr, hp⟩) h⟩

/-- A page that is not longer is full as well. -/
theorem Full.mono {q : ListPage} (h : p.Full) (hlast : q.lastLine = p.lastLine)
    (hbase : q.recbase = p.recbase) (hentries : q.entries = p.entries)
    (hle : q.screenLen ≤ p.screenLen) : q.Full := by
  unfold Full at *
  rw [hlast, hbase, hentries]
  omega

variable (file) in
/-- The cursor is brought into the page, by a page that begins with it if need be. -/
theorem showCursor_spec (src : RecordSource) (hs : p.Sized) (hp : p.Placed) (hfits : p.Fits p.room)
    (hbase : p.recbase = p.topLine) (hfull : p.Full)
    (hmin : p.previewmode = true → p.topLine + p.screenLen ≤ p.crsLine →
      min p.lastLine (p.crsLine + p.screenLen - 1) ≤ numRecords file) :
    let r := p.showCursor src file
    (∀ a ∈ r.2, a.Safe) ∧ r.1.Settled ∧
      r.1 = { p with topLine := r.1.topLine, recbase := r.1.recbase, entries := r.1.entries } := by
  obtain ⟨hten, hroom⟩ := hs.bounds
  have hpos := hp.top_pos
  have hle := hp.top_le
  have hlast := hp.le_last
  unfold KeepLoc.Fits at hfits
  unfold showCursor
  split
  case isTrue h =>
    refine ⟨?_, ⟨⟨?_, Int.le_refl _, hlast⟩, ?_, rfl, load_full ?_ ?_ ?_ (hmin h.1 h.2)⟩, rfl⟩
    · intro a ha
      rw [List.mem_singleton.mp ha]
      exact loaded_safe (by dsimp only; omega) hroom
    all_goals
      simp only [load, KeepLoc.Fits]
      omega
  case isFalse h =>
    refine ⟨List.forall_mem_nil _, ⟨hp, ?_, hbase, hfull⟩, rfl⟩
    unfold KeepLoc.Fits
    dsimp only
    rcases hs.size with hsize | ⟨-, hpreview⟩
    · omega
    · exact Int.not_le.mp fun hle => h ⟨hpreview, hle⟩

/-- The page that `redraw` leaves: settled, and half as long in the preview. -/
structure Redrawn (p : ListPage) (reading : Bool) (r : ListPage × List Access) : Prop where
  safe : ∀ a ∈ r.2, a.Safe
  settled : r.1.Settled
  sized : r.1.Sized
  lastLine : r.1.lastLine = p.lastLine
  preview : r.1.previewmode = p.previewmode
  room : r.1.room = p.room
  half : reading = true → p.previewmode = true → r.1.screenLen = p.room / 2

theorem redraw_spec (src : RecordSource) (hs : p.Sized)
    (hwindow : reading = true → p.previewmode = true → tLines - 4 = p.room)
    (hreload : Reloaded file p (p.reload src file))
    (hcovers : p.previewmode = true →
      (p.reload src file).1.topLine + (p.halve reading tLines).screenLen ≤
        min p.crsLine p.lastLine →
      Covers file p (min p.crsLine p.lastLine) (p.halve reading tLines).screenLen) :
    Redrawn p reading (p.redraw src file reading tLines) := by
  unfold redraw
  generalize p.reload src file = r at *
  obtain ⟨q, log⟩ := r
  obtain ⟨hsafe, hpage, hbase, hpos, hle, hlast, hfits, hfull⟩ := hreload
  dsimp only at *
  -- the page before `showCursor`
  have hq : (q.clampCursor.halve reading tLines) =
      { p with
        topLine := q.topLine
        crsLine := min p.crsLine p.lastLine
        screenLen := (p.halve reading tLines).screenLen
        entries := q.entries
        recbase := q.recbase } := by
    rw [clampCursor_eq, hpage]
    unfold halve
    dsimp only
    split <;> rfl
  obtain ⟨hsized, hle', hhalf⟩ := hs.halve hwindow
  have hfull' : (q.clampCursor.halve reading tLines).Full := by
    refine Full.mono hfull ?_ ?_ ?_ ?_
    · rw [hq, hpage]
    · rw [hq]
    · rw [hq]
    · rw [hq, hpage]
      exact hle'
  rw [hq] at hfull' ⊢
  generalize hshort : (p.halve reading tLines).screenLen = short at *
  obtain ⟨hshown, hsettled, heq⟩ := showCursor_spec (p := { p with
      topLine := q.topLine
      crsLine := min p.crsLine p.lastLine
      screenLen := short
      entries := q.entries
      recbase := q.recbase }) file src ⟨hs.room, hsized⟩ ⟨hpos, le_min hle hlast, min_le_right ..⟩
    hfits hbase hfull' (fun hpreview hle => (hcovers hpreview hle).min_le)
  generalize ListPage.showCursor src file _ = r at *
  obtain ⟨q', log'⟩ := r
  dsimp only at *
  refine ⟨fun a ha => ?_, hsettled, ⟨?_, ?_⟩, ?_, ?_, ?_, fun hreading hpreview => ?_⟩
  · rcases List.mem_append.mp ha with ha | ha
    · exact (List.mem_append.mp ha).elim (hsafe a) (hshown a)
    · unfold drawEntry at ha
      split at ha
      · rw [List.mem_singleton.mp ha]
        exact hsettled.safe
      · cases ha
  all_goals
    dsimp only
    rw [heq]
  · exact hs.room
  · exact hsized
  · exact hhalf hreading hpreview

/-- What an update leaves: an empty list, or a settled page. -/
structure Updated (p : ListPage) (reading : Bool) (r : ListPage × List Access) : Prop where
  safe : ∀ a ∈ r.2, a.Safe
  sized : r.1.Sized
  preview : r.1.previewmode = p.previewmode
  room : r.1.room = p.room
  list : (r.1.lastLine = 0 ∧ r.1.entries = 0 ∧ r.1.toKeepLoc = p.toKeepLoc) ∨
    0 < r.1.lastLine ∧ r.1.Settled ∧
      (reading = true → r.1.previewmode = true → r.1.screenLen = r.1.room / 2)

theorem redraw_updated (src : RecordSource) (hs : p.Sized) (hlast : 0 < p.lastLine)
    (hpos : 1 ≤ p.topLine) (hle : p.topLine ≤ p.crsLine) (hfits : p.Fits p.room)
    (hwindow : reading = true → p.previewmode = true → tLines - 4 = p.room)
    (hfull : p.recbase = p.topLine → p.Full)
    (htop : p.topLine ≤ p.lastLine ∨ p.recbase ≠ p.topLine ∧ p.lastLine = numRecords file)
    (hcovers : p.recbase ≠ p.topLine → Covers file p p.topLine p.screenLen)
    (hshown : p.previewmode = true →
      (p.reload src file).1.topLine + (p.halve reading tLines).screenLen ≤
        min p.crsLine p.lastLine →
      Covers file p (min p.crsLine p.lastLine) (p.halve reading tLines).screenLen) :
    Updated p reading (p.redraw src file reading tLines) := by
  have hreload := reload_spec src hs hlast hpos hle hfits hfull htop hcovers
  have h := redraw_spec src hs hwindow hreload hshown
  refine ⟨h.safe, h.sized, h.preview, h.room, .inr ⟨h.lastLine ▸ hlast, h.settled, ?_⟩⟩
  rw [h.preview, h.room]
  exact h.half

/-- `case PARTUPDATE` under its condition -/
theorem partUpdate_spec (src : RecordSource) (hs : p.Sized) (hkept : p.WellKept)
    (hfits : p.Fits p.room)
    (hfull : (p.lastLine < p.topLine + p.screenLen → p.lastLine = numRecords file) →
      p.recbase = p.topLine → 0 < p.lastLine → p.Full)
    (hmeets : UpdateMeets file reading false tLines p) :
    Updated p reading (p.partUpdate src file reading tLines) := by
  obtain ⟨hten, hroom⟩ := hs.bounds
  obtain ⟨htop, hcrs⟩ := hkept
  have hnum : 0 ≤ numRecords file := Int.natCast_nonneg _
  have hposition := hmeets.position
  unfold partUpdate recount
  split
  case isTrue hcount =>
    dsimp only
    split
    case isTrue hzero =>
      exact ⟨List.forall_mem_nil _, ⟨hs.room, hs.size⟩, rfl, rfl, .inl ⟨hzero, rfl, rfl⟩⟩
    case isFalse hzero =>
      have hne : (-1 : Int) ≠ p.topLine := by omega
      have h := redraw_updated (p := { p with lastLine := numRecords file, recbase := -1 }) src
        ⟨hs.room, hs.size⟩ (by dsimp only; omega) htop (by dsimp only; omega) hfits hmeets.window
        (fun h => absurd h hne) (.inr ⟨hne, rfl⟩) (fun _ => .inl rfl) (fun _ _ => .inl rfl)
      exact ⟨h.safe, h.sized, h.preview, h.room, h.list⟩
  case isFalse hcount =>
    dsimp only
    split
    case isTrue hzero =>
      exact ⟨List.forall_mem_nil _, ⟨hs.room, hs.size⟩, rfl, rfl, .inl ⟨hzero, rfl, rfl⟩⟩
    case isFalse hzero =>
      have hsame : p.lastLine < p.topLine + p.screenLen → p.lastLine = numRecords file := by
        omega
      have hlast : 0 < p.lastLine := by omega
      refine redraw_updated src hs hlast htop (by omega) hfits hmeets.window
        (fun hbase => hfull hsame hbase hlast) ?_ (fun hbase => ?_) fun hpreview hle => ?_
      · by_cases hshort : p.lastLine < p.topLine + p.screenLen
        · by_cases hbase : p.recbase = p.topLine
          · exact .inl (hmeets.begins (hsame hshort) hbase hlast)
          · exact .inr ⟨hbase, hsame hshort⟩
        · exact .inl (by omega)
      · by_cases hshort : p.lastLine < p.topLine + p.screenLen
        · exact .inl (hsame hshort)
        · have hpage := hmeets.page (Int.not_lt.mp hshort) (.inr hbase)
          exact .inr (by omega)
      · by_cases hshort : p.lastLine < p.topLine + p.screenLen
        · exact .inl (hsame hshort)
        · refine .inr (hmeets.preview (Int.not_lt.mp hshort) hpreview ?_)
          -- the page has not been turned to the end of the list
          have htop : (p.reload src file).1.topLine = p.topLine := by
            unfold reload rebase
            split
            · rfl
            · rw [if_neg (by omega)]
              rfl
          rwa [htop] at hle

/-- `case FULLUPDATE` under its condition -/
theorem fullUpdate_spec (src : RecordSource) (hs : p.Sized) (hkept : p.WellKept)
    (hfits : p.Fits p.room) (hmeets : UpdateMeets file reading true tLines p) :
    Updated p reading (p.fullUpdate src file reading tLines) := by
  obtain ⟨hten, hroom⟩ := hs.bounds
  have h := partUpdate_spec (p := p.load src file) src ⟨hs.room, hs.size⟩ hkept hfits
    (fun hsame hbase hlast => ?_)
    ⟨hmeets.position, hmeets.window, hmeets.begins, fun hlong _ => hmeets.page hlong (.inl rfl),
      fun hlong hpreview hle => ?_⟩
  · refine ⟨fun a ha => ?_, h.sized, h.preview, h.room, h.list⟩
    rcases List.mem_cons.mp ha with rfl | ha
    · exact loaded_safe (by omega) hroom
    · exact h.safe a ha
  · unfold load at hsame hbase hlast
    dsimp only at hsame hbase hlast
    have htop := hkept.1
    refine load_full hlast (by omega) (by omega) ?_
    by_cases hshort : p.lastLine < p.topLine + p.screenLen
    · rw [← hsame hshort]
      exact min_le_left ..
    · have hpage := hmeets.page (Int.not_lt.mp hshort) (.inl rfl)
      omega
  · have hhalf : ((p.load src file).halve reading tLines).screenLen =
        (p.halve reading tLines).screenLen := by
      unfold ListPage.halve load
      dsimp only
      split <;> rfl
    rw [hhalf] at hle ⊢
    exact hmeets.preview hlong hpreview hle

end

end ListPage

end ArgoBbs

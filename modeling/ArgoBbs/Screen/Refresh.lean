import ArgoBbs.Lib.Reach
import ArgoBbs.Lib.Terminal
import ArgoBbs.Screen.State
import Mathlib.Data.Nat.ModEq

/-! # The picture on the terminal

`refresh` sends to the terminal what has been modified in the lines since they were shown, after it
has carried out the scrolling that is pending; `redoscr` draws everything. Both follow the position
of the terminal's cursor in `tc_col` and `tc_line` and go from there with `rel_move`. -/

namespace ArgoBbs

/-- The screen, the tracked position of the terminal's cursor, and the terminal; `icurrchar` and
`ibufsize` tell whether there is typed input to be read. -/
structure Display (tLines : Nat) where
  screen : Screen tLines
  tcCol : Nat
  tcLine : Nat
  tty : Terminal tLines wrapMargin
  automargins : Bool
  icurrchar : Int
  ibufsize : Int

/-- The calls of a session. -/
inductive ScreenCall
  | move (y x : Int)
  | outc (c : UInt8)
  | clrtoeol
  | clrtobot
  | clear
  | scroll
  | rscroll
  | refresh

/-- The bytes of some columns. -/
def Screenline.slice (l : Screenline) (ds de : Nat) : Bytes :=
  (List.range' ds (de - ds)).map l.data

namespace Display
variable {tLines : Nat}

def relMove (d : Display tLines) (wasCol wasLn newCol newLn : Nat) : Display tLines :=
  if tLines ≤ newLn ∨ wrapMargin ≤ newCol then d
  else
    let d := { d with tcCol := newCol, tcLine := newLn }
    if newCol = 0 ∧ newLn = wasLn + 1 then
      let d := { d with tty := d.tty.lineFeed }
      if wasCol ≠ 0 then { d with tty := d.tty.carriageReturn } else d
    else if newCol = 0 ∧ newLn = wasLn then
      if wasCol ≠ 0 then { d with tty := d.tty.carriageReturn } else d
    else if wasCol = newCol ∧ wasLn = newLn then d
    else if newCol + 1 = wasCol ∧ newLn = wasLn then { d with tty := d.tty.backspace }
    else { d with tty := d.tty.goto newCol newLn }

/-- From the tracked position. -/
def goTo (d : Display tLines) (newCol newLn : Nat) : Display tLines :=
  d.relMove d.tcCol d.tcLine newCol newLn

/-- `output` of the columns of a line. -/
def output (d : Display tLines) (l : Screenline) (ds de : Nat) : Display tLines :=
  { d with tty := d.tty.write d.automargins (l.slice ds de) }

/-- The terminal shows the bytes between `o_standup` and `o_standdown` in the same cells. -/
def standoutput (d : Display tLines) (l : Screenline) (ds de : Nat) : Display tLines :=
  if l.eso ≤ ds ∨ de ≤ l.sso then d.output l ds de
  else
    let d := if ds < l.sso then d.output l ds l.sso else d
    let d := d.output l (max l.sso ds) (min l.eso de)
    if l.eso < de then d.output l l.eso de else d

def outputLine (d : Display tLines) (l : Screenline) (ds de : Nat) : Display tLines :=
  if l.standout then d.standoutput l ds de else d.output l ds de

/-- The tracked column becomes the given one, behind the last column the first one of the next row
or the last column. -/
def track (d : Display tLines) (wraps : Bool) (col : Nat) : Display tLines :=
  if wrapMargin ≤ col then
    if wraps then
      { d with
        tcCol := col - wrapMargin
        tcLine := if tLines ≤ d.tcLine + 1 then tLines - 1 else d.tcLine + 1 }
    else { d with tcCol := wrapMargin - 1 }
  else { d with tcCol := col }

def setLine (d : Display tLines) (j : Nat) (l : Screenline) : Display tLines :=
  { d with screen := d.screen.setLine j l }

/-- The line of a row of the screen. -/
def rowLine (d : Display tLines) (i : Nat) : Screenline := d.screen.bigPicture (d.screen.lineOf i)

/-- `redoscr` at a row. -/
def redoRow (d : Display tLines) (i : Nat) : Display tLines :=
  let l := d.rowLine i
  if l.len = 0 then d
  else
    let d := (d.goTo 0 i).outputLine l 0 l.len
    let d := d.track (!d.automargins) (d.tcCol + l.len)
    d.setLine (d.screen.lineOf i) { l with modified := false, oldlen := l.len }

def redoscr (d : Display tLines) : Display tLines :=
  let d := { d with tty := d.tty.clear, tcCol := 0, tcLine := 0 }
  let d := (List.range tLines).foldl redoRow d
  let d := d.goTo d.screen.curCol d.screen.curLn
  { d with screen := { d.screen with docls := false, scrollcnt := 0 } }

/-- `refresh` at a row: the modified columns. -/
def showModified (d : Display tLines) (i : Nat) : Display tLines :=
  let l := d.rowLine i
  if l.modified ∧ l.smod < l.len then
    let l := { l with modified := false, emod := if l.len ≤ l.emod then l.len - 1 else l.emod }
    let d := (d.goTo l.smod i).outputLine l l.smod (l.emod + 1)
    (d.track d.automargins (l.emod + 1)).setLine (d.screen.lineOf i) l
  else d

/-- `refresh` at a row: the columns behind the line. -/
def clearRest (d : Display tLines) (i : Nat) : Display tLines :=
  let l := d.rowLine i
  let d :=
    if l.len < l.oldlen then
      let d := d.goTo l.len i
      { d with tty := d.tty.clearToEol }
    else d
  d.setLine (d.screen.lineOf i) { l with oldlen := l.len }

def refreshRow (d : Display tLines) (i : Nat) : Display tLines := (d.showModified i).clearRest i

/-- `refresh` carries out the scrolling. -/
def showScroll (d : Display tLines) : Display tLines :=
  let count := d.screen.scrollcnt
  if 0 < count then
    { d with
      tty := ((d.tty.goto 0 1024).feed count.toNat).goto 0 (tLines - 2)
      screen := { d.screen with scrollcnt := 0 } }
  else if count < 0 then
    let d := d.goTo 0 0
    { d with
      tty := d.tty.insertLines (-count).toNat
      screen := { d.screen with scrollcnt := 0 } }
  else d

/-- `refresh` calls `redoscr`. -/
def Redraws (d : Display tLines) : Prop :=
  d.screen.docls = true ∨ (tLines : Int) - 3 ≤ d.screen.scrollcnt.natAbs

instance (d : Display tLines) : Decidable d.Redraws := inferInstanceAs (Decidable (_ ∨ _))

def refresh (d : Display tLines) : Display tLines :=
  if d.ibufsize < d.icurrchar then d
  else if d.Redraws then d.redoscr
  else
    let d := (List.range tLines).foldl refreshRow d.showScroll
    d.goTo d.screen.curCol d.screen.curLn

def call (d : Display tLines) : ScreenCall → Display tLines
  | .move y x => { d with screen := d.screen.move y x }
  | .outc c => { d with screen := d.screen.outc c }
  | .clrtoeol => { d with screen := d.screen.clrtoeol }
  | .clrtobot => { d with screen := d.screen.clrtobot }
  | .clear => { d with screen := d.screen.clear }
  | .scroll => { d with screen := d.screen.scroll }
  | .rscroll => { d with screen := d.screen.rscroll }
  | .refresh => d.refresh

def step (d : Display tLines) (e : ScreenCall) : Option (Display tLines) := some (d.call e)

/-- The column at which `refresh` first sends something for a line. -/
def rowStop (l : Screenline) : Option Nat :=
  if l.modified ∧ l.smod < l.len then some l.smod
  else if l.len < l.oldlen then some l.len
  else none

/-- Where `refresh` first goes to: for one of the rows, or at last to the cursor. -/
def firstStop (d : Display tLines) : List Nat → Nat × Nat
  | [] => (d.screen.curCol, d.screen.curLn)
  | i :: rows =>
    match rowStop (d.rowLine i) with
    | some c => (c, i)
    | none => d.firstStop rows

/-- `rel_move` from the tracked position goes there by absolute addressing. -/
def ByAddress (d : Display tLines) (col row : Nat) : Prop :=
  ¬(col = 0 ∧ (row = d.tcLine + 1 ∨ row = d.tcLine)) ∧ ¬(d.tcCol = col ∧ d.tcLine = row) ∧
    ¬(col + 1 = d.tcCol ∧ row = d.tcLine)

instance (d : Display tLines) (col row : Nat) : Decidable (d.ByAddress col row) :=
  inferInstanceAs (Decidable (_ ∧ _ ∧ _))

/-- With the cursor at the start of the last row but one, `rel_move` from the tracked position gets
there; a place that is not on the terminal is not gone to. -/
def Lands (d : Display tLines) (col row : Nat) : Prop :=
  (row < tLines ∧ col < wrapMargin ∧
    (d.ByAddress col row ∨ d.tcLine + 2 = tLines ∧ col = 0)) ∨
  (d.tcCol = 0 ∧ d.tcLine + 2 = tLines)

instance (d : Display tLines) (col row : Nat) : Decidable (d.Lands col row) :=
  inferInstanceAs (Decidable (_ ∨ _))

/-- A terminal with automatic margins does not get text up to its last cell. -/
def CornerFree (d : Display tLines) : Prop :=
  d.automargins = true →
    ¬((d.rowLine (tLines - 1)).modified = true ∧ wrapMargin ≤ (d.rowLine (tLines - 1)).len ∧
      wrapMargin ≤ (d.rowLine (tLines - 1)).emod + 1)

instance (d : Display tLines) : Decidable d.CornerFree := inferInstanceAs (Decidable (_ → _))

/-! ## Sending -/

/-- The terminal's cursor is where it is tracked. -/
def Synced (d : Display tLines) : Prop := d.tty.col = d.tcCol ∧ d.tty.row = d.tcLine

/-- The terminal's cursor is where it is tracked, or where the scrolling leaves it, and the place is
one that `rel_move` gets to all the same. -/
def Ready (d : Display tLines) (stop : Nat × Nat) : Prop :=
  d.Synced ∨ d.tty.col = 0 ∧ d.tty.row + 2 = tLines ∧ d.Lands stop.1 stop.2

theorem goTo_of_synced {d : Display tLines} {col row : Nat} (h : d.Synced) (hrow : row < tLines)
    (hcol : col < wrapMargin) :
    d.goTo col row = { d with tcCol := col, tcLine := row, tty := ⟨row, col, d.tty.cell⟩ } := by
  obtain ⟨hc, hr⟩ := h
  have hin : ¬(tLines ≤ row ∨ wrapMargin ≤ col) := by omega
  rw [goTo, relMove, if_neg hin]
  dsimp only
  split
  case isTrue h =>
    obtain ⟨rfl, rfl⟩ := h
    rw [Terminal.lineFeed_of_lt (by omega), hr]
    split
    · exact rfl
    · rw [show d.tty.col = 0 by omega]
  case isFalse =>
  split
  case isTrue h =>
    obtain ⟨rfl, rfl⟩ := h
    split
    · rw [Terminal.carriageReturn, hr]
    · simp only [mk.injEq, true_and, and_true]
      rw [← hr, show 0 = d.tty.col by omega]
  case isFalse =>
  split
  case isTrue h =>
    obtain ⟨rfl, rfl⟩ := h
    rw [← hc, ← hr]
  case isFalse =>
  split
  case isTrue h =>
    obtain ⟨h, rfl⟩ := h
    rw [Terminal.backspace, hr, show d.tty.col - 1 = col by omega]
  case isFalse =>
    rw [Terminal.goto, show min row (tLines - 1) = row by omega,
      show min col (wrapMargin - 1) = col by omega]

theorem goTo_of_byAddress {d : Display tLines} {col row : Nat} (h : d.ByAddress col row)
    (hrow : row < tLines) (hcol : col < wrapMargin) :
    d.goTo col row = { d with tcCol := col, tcLine := row, tty := ⟨row, col, d.tty.cell⟩ } := by
  obtain ⟨h₁, h₂, h₃⟩ := h
  rw [goTo, relMove, if_neg (by omega), if_neg (by omega), if_neg (by omega), if_neg h₂, if_neg h₃,
    Terminal.goto, show min row (tLines - 1) = row by omega,
    show min col (wrapMargin - 1) = col by omega]

theorem goTo_eq {d : Display tLines} {col row : Nat} (h : d.Ready (col, row)) (hrow : row < tLines)
    (hcol : col < wrapMargin) :
    d.goTo col row = { d with tcCol := col, tcLine := row, tty := ⟨row, col, d.tty.cell⟩ } := by
  rcases h with h | ⟨hc, hr, ⟨-, -, haddr | ⟨hline, h0⟩⟩ | ⟨hcol', hline⟩⟩
  · exact goTo_of_synced h hrow hcol
  · exact goTo_of_byAddress haddr hrow hcol
  · -- the tracked row is the right one, and in column 0 no more is needed
    by_cases hfar : row = d.tcLine + 1 ∨ row = d.tcLine
    · obtain rfl : col = 0 := h0
      rw [goTo, relMove, if_neg (by omega)]
      dsimp only
      rcases hfar with hrow' | hrow'
      · have hlf : d.tty.lineFeed = ⟨row, 0, d.tty.cell⟩ := by
          rw [Terminal.lineFeed_of_lt (by omega), hc, show d.tty.row + 1 = row by omega]
        rw [if_pos ⟨rfl, hrow'⟩, hlf, Terminal.carriageReturn, ite_self]
      · have hself : d.tty = ⟨row, 0, d.tty.cell⟩ := by
          rw [← hc, show row = d.tty.row by omega]
        rw [if_neg (by omega), if_pos ⟨rfl, hrow'⟩, hself, Terminal.carriageReturn, ite_self]
    · exact goTo_of_byAddress ⟨by omega, by omega, by omega⟩ hrow hcol
  · exact goTo_of_synced ⟨hc.trans hcol'.symm, by omega⟩ hrow hcol

theorem length_slice (l : Screenline) (ds de : Nat) : (l.slice ds de).length = de - ds := by
  rw [Screenline.slice, List.length_map, List.length_range']

theorem overlay_slice (cell : Nat → Nat → UInt8) (row : Nat) (l : Screenline) (ds de i c : Nat) :
    Terminal.overlay cell row ds (l.slice ds de) i c =
      if i = row ∧ ds ≤ c ∧ c < de then l.data c else cell i c := by
  rw [Terminal.overlay, Screenline.slice, List.getElem?_map]
  by_cases h : i = row ∧ ds ≤ c
  · rw [if_pos h]
    by_cases hc : c < de
    · rw [List.getElem?_range' (by omega), if_pos ⟨h.1, h.2, hc⟩, Option.map_some,
        Option.getD_some, Nat.one_mul, show ds + (c - ds) = c by omega]
    · rw [List.getElem?_eq_none (by rw [List.length_range']; omega), if_neg (by omega),
        Option.map_none, Option.getD_none]
  · rw [if_neg h, if_neg (by omega)]

/-- Columns sent from the cursor on are shown, and the cursor is tracked. -/
theorem output_track {d : Display tLines} {l : Screenline} (ds de : Nat) (hcol : d.tty.col = ds)
    (hrow : d.tty.row = d.tcLine) (hlt : ds < de) (hle : de ≤ wrapMargin)
    (hlast : d.automargins = true → de = wrapMargin → d.tcLine + 1 < tLines) :
    ((d.output l ds de).track d.automargins de).Synced ∧
      ((d.output l ds de).track d.automargins de).tty.cell =
        Terminal.overlay d.tty.cell d.tcLine ds (l.slice ds de) := by
  have hlen : d.tty.col + (l.slice ds de).length = de := by
    rw [length_slice]
    omega
  rw [output, track]
  dsimp only
  by_cases hde : wrapMargin ≤ de
  · have hfull : de = wrapMargin := Nat.le_antisymm hle hde
    have hne : l.slice ds de ≠ [] := by
      intro hnil
      rw [hnil, List.length_nil] at hlen
      omega
    rw [if_pos hde, Terminal.write_of_eq _ _ (hlen.trans hfull) hne
      (fun ham => by rw [hrow]; exact hlast ham hfull), hcol, hrow]
    cases ham : d.automargins with
    | false => exact ⟨⟨rfl, rfl⟩, rfl⟩
    | true =>
      rw [if_neg (Nat.not_le.mpr (hlast ham hfull)), Nat.sub_eq_zero_of_le hle]
      exact ⟨⟨rfl, rfl⟩, rfl⟩
  · rw [if_neg hde, Terminal.write_of_lt _ _ (by omega), hlen, hcol, hrow]
    exact ⟨⟨rfl, rfl⟩, rfl⟩

/-! ## Rows -/

end Display

namespace Screenline

/-- A line after its modified columns have been sent. -/
def sent (l : Screenline) : Screenline :=
  if l.modified ∧ l.smod < l.len then
    { l with modified := false, emod := if l.len ≤ l.emod then l.len - 1 else l.emod }
  else l

/-- A line after `refresh`. -/
def refreshed (l : Screenline) : Screenline := { l.sent with oldlen := l.len }

/-- A line after `redoscr`. -/
def redrawn (l : Screenline) : Screenline :=
  if l.len = 0 then l else { l with modified := false, oldlen := l.len }

theorem sent_len (l : Screenline) : l.sent.len = l.len := by
  rw [sent]
  split <;> rfl

theorem sent_oldlen (l : Screenline) : l.sent.oldlen = l.oldlen := by
  rw [sent]
  split <;> rfl

theorem refreshed_len (l : Screenline) : l.refreshed.len = l.len := l.sent_len

theorem refreshed_data (l : Screenline) : l.refreshed.data = l.data := by
  rw [refreshed, sent]
  split <;> rfl

theorem redrawn_len (l : Screenline) : l.redrawn.len = l.len := by
  rw [redrawn]
  split <;> rfl

theorem redrawn_data (l : Screenline) : l.redrawn.data = l.data := by
  rw [redrawn]
  split <;> rfl

/-- The modified range, if there is one, is not empty; there is no standout part. -/
structure Sound (l : Screenline) : Prop where
  len : l.len ≤ wrapMargin
  oldlen : l.oldlen ≤ wrapMargin
  standout : l.standout = false
  mark : l.modified = true → l.smod ≤ l.emod

theorem Sound.refreshed {l : Screenline} (h : l.Sound) : l.refreshed.Sound := by
  rw [Screenline.refreshed, sent]
  split
  · exact ⟨h.len, h.len, h.standout, fun hm => by cases hm⟩
  · exact ⟨h.len, h.len, h.standout, h.mark⟩

theorem Sound.redrawn {l : Screenline} (h : l.Sound) : l.redrawn.Sound := by
  rw [Screenline.redrawn]
  split
  · exact h
  · exact ⟨h.len, h.len, h.standout, fun hm => by cases hm⟩

end Screenline

namespace Screen
variable {scrLns : Nat} {s : Screen scrLns}

theorem setLine_self (j : Nat) : s.setLine j (s.bigPicture j) = s := by
  have hself : (fun k => if k = j then s.bigPicture j else s.bigPicture k) = s.bigPicture := by
    funext k
    split
    case isTrue h => rw [h]
    case isFalse => rfl
  rw [setLine, hself]

theorem setLine_setLine (j : Nat) (l l' : Screenline) :
    (s.setLine j l).setLine j l' = s.setLine j l' := by
  simp only [setLine, mk.injEq, and_true]
  funext k
  by_cases h : k = j <;> simp [h]

theorem setLine_bigPicture_self (j : Nat) (l : Screenline) : (s.setLine j l).bigPicture j = l :=
  if_pos rfl

theorem lineOf_lt (hn : 0 < scrLns) (i : Nat) : s.lineOf i < scrLns := Nat.mod_lt _ hn

theorem lineOf_inj {i i' : Nat} (hi : i < scrLns) (hi' : i' < scrLns)
    (h : s.lineOf i = s.lineOf i') : i = i' :=
  (Nat.ModEq.add_right_cancel' s.roll h).eq_of_lt_of_lt hi hi'

end Screen

namespace Display
variable {tLines : Nat}

@[simp] theorem goTo_screen (d : Display tLines) (col row : Nat) :
    (d.goTo col row).screen = d.screen := by
  rw [goTo, relMove]
  split_ifs <;> rfl

@[simp] theorem outputLine_screen (d : Display tLines) (l : Screenline) (ds de : Nat) :
    (d.outputLine l ds de).screen = d.screen := by
  rw [outputLine, standoutput]
  split_ifs <;> rfl

@[simp] theorem track_screen (d : Display tLines) (wraps : Bool) (col : Nat) :
    (d.track wraps col).screen = d.screen := by
  rw [track]
  split_ifs <;> rfl

@[simp] theorem goTo_automargins (d : Display tLines) (col row : Nat) :
    (d.goTo col row).automargins = d.automargins := by
  rw [goTo, relMove]
  split_ifs <;> rfl

@[simp] theorem outputLine_automargins (d : Display tLines) (l : Screenline) (ds de : Nat) :
    (d.outputLine l ds de).automargins = d.automargins := by
  rw [outputLine, standoutput]
  split_ifs <;> rfl

@[simp] theorem track_automargins (d : Display tLines) (wraps : Bool) (col : Nat) :
    (d.track wraps col).automargins = d.automargins := by
  rw [track]
  split_ifs <;> rfl

theorem showModified_screen (d : Display tLines) (i : Nat) :
    (d.showModified i).screen = d.screen.setLine (d.screen.lineOf i) (d.rowLine i).sent := by
  rw [showModified, Screenline.sent]
  split
  · simp only [setLine, track_screen, outputLine_screen, goTo_screen]
  · exact (Screen.setLine_self _).symm

theorem clearRest_screen (d : Display tLines) (i : Nat) :
    (d.clearRest i).screen =
      d.screen.setLine (d.screen.lineOf i) { d.rowLine i with oldlen := (d.rowLine i).len } := by
  rw [clearRest]
  dsimp only
  split
  · simp only [setLine, goTo_screen]
  · rfl

theorem refreshRow_screen (d : Display tLines) (i : Nat) :
    (d.refreshRow i).screen = d.screen.setLine (d.screen.lineOf i) (d.rowLine i).refreshed := by
  have hline : (d.screen.setLine (d.screen.lineOf i) (d.rowLine i).sent).lineOf i =
      d.screen.lineOf i := rfl
  rw [refreshRow, clearRest_screen, rowLine, showModified_screen, hline,
    Screen.setLine_bigPicture_self, Screen.setLine_setLine, Screenline.sent_len]
  rfl

theorem redoRow_screen (d : Display tLines) (i : Nat) :
    (d.redoRow i).screen = d.screen.setLine (d.screen.lineOf i) (d.rowLine i).redrawn := by
  rw [redoRow, Screenline.redrawn]
  split
  · exact (Screen.setLine_self _).symm
  · simp only [setLine, track_screen, outputLine_screen, goTo_screen]

/-- What is sent for the modified columns of a row: the cursor is tracked then. -/
theorem showModified_sent {d : Display tLines} {i : Nat} (hi : i < tLines)
    (hl : (d.rowLine i).Sound)
    (hsend : (d.rowLine i).modified = true ∧ (d.rowLine i).smod < (d.rowLine i).len)
    (hready : d.Ready ((d.rowLine i).smod, i))
    (hcorner : d.automargins = true → i + 1 = tLines →
      ¬(wrapMargin ≤ (d.rowLine i).len ∧ wrapMargin ≤ (d.rowLine i).emod + 1)) :
    (d.showModified i).Synced ∧ ∀ r c, (d.showModified i).tty.cell r c =
      if r = i ∧ c < (d.rowLine i).len ∧ (d.rowLine i).Marked c then (d.rowLine i).data c
      else d.tty.cell r c := by
  have hlen := hl.len
  have hso := hl.standout
  have hle := hl.mark hsend.1
  rw [showModified]
  generalize hl : d.rowLine i = l at *
  rw [if_pos hsend]
  dsimp only
  rw [goTo_eq hready hi (by omega), outputLine, if_neg (by rw [hso]; decide)]
  obtain ⟨hsync, hcell⟩ := output_track
    (d := { d with tcCol := l.smod, tcLine := i, tty := ⟨i, l.smod, d.tty.cell⟩ })
    (l := { l with modified := false, emod := if l.len ≤ l.emod then l.len - 1 else l.emod })
    l.smod ((if l.len ≤ l.emod then l.len - 1 else l.emod) + 1) rfl rfl (by split <;> omega) (by split <;> omega)
    (fun ham hfull => by
      have := hcorner ham
      dsimp only
      split at hfull <;> omega)
  refine ⟨hsync, fun r c => ?_⟩
  refine (congrFun (congrFun hcell r) c).trans ((overlay_slice ..).trans ?_)
  refine if_congr ?_ rfl rfl
  simp only [Screenline.Marked, hsend.1, true_and]
  split <;> omega

theorem clearRest_sent {d : Display tLines} {i : Nat} (hi : i < tLines)
    (hlen : (d.rowLine i).len < wrapMargin) (hrest : (d.rowLine i).len < (d.rowLine i).oldlen)
    (hready : d.Ready ((d.rowLine i).len, i)) :
    (d.clearRest i).Synced ∧ ∀ r c, (d.clearRest i).tty.cell r c =
      if r = i ∧ (d.rowLine i).len ≤ c then Terminal.blank else d.tty.cell r c := by
  rw [clearRest]
  dsimp only
  rw [if_pos hrest, goTo_eq hready hi hlen]
  exact ⟨⟨rfl, rfl⟩, fun r c => rfl⟩

theorem clearRest_unsent {d : Display tLines} {i : Nat}
    (hrest : ¬(d.rowLine i).len < (d.rowLine i).oldlen) :
    d.clearRest i =
      d.setLine (d.screen.lineOf i) { d.rowLine i with oldlen := (d.rowLine i).len } := by
  rw [clearRest]
  dsimp only
  rw [if_neg hrest]

/-- The terminal shows the line of a row followed by blanks. -/
def RowShows (d : Display tLines) (i : Nat) : Prop :=
  ∀ c < wrapMargin,
    d.tty.cell i c = if c < (d.rowLine i).len then (d.rowLine i).data c else Terminal.blank

/-- The terminal shows the line of a row outside of the modified range, and nothing in the columns
from its old length on. -/
structure RowKept (d : Display tLines) (i : Nat) : Prop where
  sound : (d.rowLine i).Sound
  fresh : ∀ c < (d.rowLine i).len,
    (d.rowLine i).Marked c ∨ d.tty.cell i c = (d.rowLine i).data c
  rest : ∀ c < wrapMargin, (d.rowLine i).oldlen ≤ c → d.tty.cell i c = Terminal.blank

theorem rowLine_showModified (d : Display tLines) (i : Nat) :
    (d.showModified i).rowLine i = (d.rowLine i).sent := by
  have hline : (d.screen.setLine (d.screen.lineOf i) (d.rowLine i).sent).lineOf i =
      d.screen.lineOf i := rfl
  rw [rowLine, showModified_screen, hline, Screen.setLine_bigPicture_self]

theorem rowLine_refreshRow (d : Display tLines) (i : Nat) :
    (d.refreshRow i).rowLine i = (d.rowLine i).refreshed := by
  have hline : (d.screen.setLine (d.screen.lineOf i) (d.rowLine i).refreshed).lineOf i =
      d.screen.lineOf i := rfl
  rw [rowLine, refreshRow_screen, hline, Screen.setLine_bigPicture_self]

/-- Before the columns behind the line are cleared, the row shows the line. -/
theorem showModified_shows {d : Display tLines} {i : Nat} (hi : i < tLines) (h : d.RowKept i)
    (hready : ∀ c, rowStop (d.rowLine i) = some c → d.Ready (c, i))
    (hcorner : d.automargins = true → i + 1 = tLines →
      ¬((d.rowLine i).modified = true ∧ wrapMargin ≤ (d.rowLine i).len ∧
        wrapMargin ≤ (d.rowLine i).emod + 1)) :
    (∀ c < (d.rowLine i).len, (d.showModified i).tty.cell i c = (d.rowLine i).data c) ∧
      (∀ r c, ¬(r = i ∧ c < (d.rowLine i).len) →
        (d.showModified i).tty.cell r c = d.tty.cell r c) ∧
      ((d.showModified i).Synced ∨
        d.showModified i = d ∧
          ¬((d.rowLine i).modified = true ∧ (d.rowLine i).smod < (d.rowLine i).len)) := by
  by_cases hsend : (d.rowLine i).modified = true ∧ (d.rowLine i).smod < (d.rowLine i).len
  · have hstop : rowStop (d.rowLine i) = some (d.rowLine i).smod := if_pos hsend
    obtain ⟨hsync, hcell⟩ := showModified_sent hi h.sound hsend (hready _ hstop)
      fun ham hlast hfull => hcorner ham hlast ⟨hsend.1, hfull⟩
    refine ⟨fun c hc => ?_, fun r c hrc => ?_, .inl hsync⟩
    · rw [hcell]
      split
      case isTrue => rfl
      case isFalse hmark =>
        exact (h.fresh c hc).resolve_left fun hm => hmark ⟨rfl, hc, hm⟩
    · rw [hcell, if_neg fun hm => hrc ⟨hm.1, hm.2.1⟩]
  · have hsame : d.showModified i = d := by
      rw [showModified]
      exact if_neg hsend
    rw [hsame]
    refine ⟨fun c hc => ?_, fun _ _ _ => rfl, .inr ⟨rfl, hsend⟩⟩
    exact (h.fresh c hc).resolve_left fun hm => hsend ⟨hm.1, Nat.lt_of_le_of_lt hm.2.1 hc⟩

/-- `refresh` shows a row and leaves the other rows; it sends nothing or ends where it is tracked.
-/
theorem refreshRow_shows {d : Display tLines} {i : Nat} (hi : i < tLines) (h : d.RowKept i)
    (hready : ∀ c, rowStop (d.rowLine i) = some c → d.Ready (c, i))
    (hcorner : d.automargins = true → i + 1 = tLines →
      ¬((d.rowLine i).modified = true ∧ wrapMargin ≤ (d.rowLine i).len ∧
        wrapMargin ≤ (d.rowLine i).emod + 1)) :
    (d.refreshRow i).RowShows i ∧ (∀ r ≠ i, (d.refreshRow i).tty.cell r = d.tty.cell r) ∧
      ((d.refreshRow i).Synced ∨
        rowStop (d.rowLine i) = none ∧
          d.refreshRow i = d.setLine (d.screen.lineOf i) (d.rowLine i).refreshed) := by
  obtain ⟨hshow, hother, hsync⟩ := showModified_shows hi h hready hcorner
  have hline := rowLine_showModified d i
  have hlen := (d.rowLine i).sent_len
  have hold := (d.rowLine i).sent_oldlen
  rw [RowShows, rowLine_refreshRow, Screenline.refreshed_len, Screenline.refreshed_data]
  by_cases hrest : (d.rowLine i).len < (d.rowLine i).oldlen
  · have hready' : (d.showModified i).Ready ((d.rowLine i).len, i) := by
      rcases hsync with hsync | ⟨hsame, hsend⟩
      · exact .inl hsync
      · rw [hsame]
        exact hready _ (by rw [rowStop, if_neg hsend, if_pos hrest])
    have hlt : (d.rowLine i).len < wrapMargin := Nat.lt_of_lt_of_le hrest h.sound.oldlen
    obtain ⟨hend, hcell⟩ := clearRest_sent (d := d.showModified i) hi (by rw [hline, hlen]; exact hlt)
      (by rw [hline, hlen, hold]; exact hrest) (by rw [hline, hlen]; exact hready')
    rw [hline, hlen] at hcell
    refine ⟨fun c hc => ?_, fun r hr => ?_, .inl hend⟩
    · rw [refreshRow, hcell]
      by_cases hcl : c < (d.rowLine i).len
      · rw [if_neg fun hle => Nat.not_le.mpr hcl hle.2, if_pos hcl, hshow c hcl]
      · rw [if_pos ⟨rfl, Nat.le_of_not_lt hcl⟩, if_neg hcl]
    · funext c
      rw [refreshRow, hcell, if_neg fun hri => hr hri.1, hother r c fun hri => hr hri.1]
  · have hunsent : d.refreshRow i = (d.showModified i).setLine (d.screen.lineOf i)
        (d.rowLine i).refreshed := by
      have hof : (d.showModified i).screen.lineOf i = d.screen.lineOf i := by
        rw [showModified_screen]
        rfl
      rw [refreshRow, clearRest_unsent (by rw [hline, hlen, hold]; exact hrest), hof, hline, hlen]
      rfl
    rw [hunsent]
    refine ⟨fun c hc => ?_, fun r hr => ?_, ?_⟩
    · by_cases hcl : c < (d.rowLine i).len
      · rw [if_pos hcl]
        exact hshow c hcl
      · rw [if_neg hcl]
        exact (hother i c fun hlt => hcl hlt.2).trans (h.rest c hc (by omega))
    · funext c
      exact hother r c fun hri => hr hri.1
    · rcases hsync with hsync | ⟨hsame, hsend⟩
      · exact .inl hsync
      · refine .inr ⟨by rw [rowStop, if_neg hsend, if_neg hrest], ?_⟩
        rw [hsame]

/-! ## All rows -/

/-- A loop over rows that only replaces the line of the row replaces each of the lines once. -/
theorem foldl_screen {f : Display tLines → Nat → Display tLines} {g : Screenline → Screenline}
    (hf : ∀ d i, (f d i).screen = d.screen.setLine (d.screen.lineOf i) (g (d.rowLine i)))
    (d : Display tLines) (rows : List Nat) (hrows : ∀ i ∈ rows, i < tLines) (hnd : rows.Nodup) :
    (rows.foldl f d).screen =
      { d.screen with
        bigPicture := fun j =>
          if ∃ i ∈ rows, d.screen.lineOf i = j then g (d.screen.bigPicture j)
          else d.screen.bigPicture j } := by
  induction rows generalizing d with
  | nil => simp
  | cons i rows ih =>
    obtain ⟨hi, hnd⟩ := List.nodup_cons.mp hnd
    rw [List.foldl_cons, ih _ (fun r hr => hrows r (List.mem_cons_of_mem _ hr)) hnd, hf]
    simp only [Screen.setLine, Screen.mk.injEq, and_true, List.exists_mem_cons_iff]
    funext j
    by_cases hj : d.screen.lineOf i = j
    · have hnot : ¬∃ r ∈ rows, d.screen.lineOf r = j := by
        rintro ⟨r, hr, hrj⟩
        have hrows' := hrows r (List.mem_cons_of_mem _ hr)
        have hri := Screen.lineOf_inj hrows' (hrows i List.mem_cons_self) (hrj.trans hj.symm)
        exact hi (hri ▸ hr)
      refine (if_neg hnot).trans ((if_pos hj.symm).trans ?_)
      rw [if_pos (Or.inl hj), rowLine, hj]
    · simp only [hj, Ne.symm hj, false_or, if_false]
      exact if_congr Iff.rfl rfl rfl

theorem rowLine_foldl {f : Display tLines → Nat → Display tLines} {g : Screenline → Screenline}
    (hf : ∀ d i, (f d i).screen = d.screen.setLine (d.screen.lineOf i) (g (d.rowLine i)))
    (d : Display tLines) (rows : List Nat) (hrows : ∀ i ∈ rows, i < tLines) (hnd : rows.Nodup)
    {r : Nat} (hr : r < tLines) :
    (rows.foldl f d).rowLine r = if r ∈ rows then g (d.rowLine r) else d.rowLine r := by
  rw [rowLine, foldl_screen hf d rows hrows hnd]
  refine if_congr ⟨?_, fun h => ⟨r, h, rfl⟩⟩ rfl rfl
  rintro ⟨i, hi, hir⟩
  exact Screen.lineOf_inj (hrows i hi) hr hir ▸ hi

/-- A row that a loop over other rows has not come to. -/
theorem rowLine_of_other {f : Display tLines → Nat → Display tLines} {g : Screenline → Screenline}
    (hf : ∀ d i, (f d i).screen = d.screen.setLine (d.screen.lineOf i) (g (d.rowLine i)))
    {d : Display tLines} {i r : Nat} (hi : i < tLines) (hr : r < tLines) (hne : r ≠ i) :
    (f d i).rowLine r = d.rowLine r := by
  rw [rowLine, hf]
  exact if_neg fun h => hne (Screen.lineOf_inj hr hi h)

theorem firstStop_congr {d d' : Display tLines} (hcol : d'.screen.curCol = d.screen.curCol)
    (hln : d'.screen.curLn = d.screen.curLn) (rows : List Nat)
    (h : ∀ i ∈ rows, d'.rowLine i = d.rowLine i) : d'.firstStop rows = d.firstStop rows := by
  induction rows with
  | nil => rw [firstStop, firstStop, hcol, hln]
  | cons i rows ih =>
    rw [firstStop, firstStop, h i List.mem_cons_self,
      ih fun r hr => h r (List.mem_cons_of_mem _ hr)]

theorem refreshRow_automargins (d : Display tLines) (i : Nat) :
    (d.refreshRow i).automargins = d.automargins := by
  rw [refreshRow, clearRest, showModified]
  split_ifs <;> simp only [setLine, goTo_automargins, track_automargins, outputLine_automargins]

/-- The rows before the first stop are passed over. -/
theorem refreshRow_ready {d : Display tLines} {i : Nat} {rows : List Nat} (hi : i < tLines)
    (hrows : ∀ r ∈ rows, r < tLines ∧ r ≠ i)
    (hrow : (d.refreshRow i).Synced ∨ rowStop (d.rowLine i) = none ∧
      d.refreshRow i = d.setLine (d.screen.lineOf i) (d.rowLine i).refreshed)
    (h : d.Ready (d.firstStop (i :: rows))) :
    (d.refreshRow i).Ready ((d.refreshRow i).firstStop rows) := by
  rcases hrow with hsync | ⟨hstop, heq⟩
  · exact .inl hsync
  · rw [firstStop, hstop] at h
    have hfirst : (d.refreshRow i).firstStop rows = d.firstStop rows := by
      refine firstStop_congr ?_ ?_ rows fun r hr => ?_
      · rw [refreshRow_screen]; rfl
      · rw [refreshRow_screen]; rfl
      · exact rowLine_of_other refreshRow_screen hi (hrows r hr).1 (hrows r hr).2
    rw [hfirst, heq]
    exact h

/-- The loop of `refresh` shows the rows, and ends where the cursor can be gone to. -/
theorem foldl_refreshRow {d : Display tLines} (rows : List Nat) (hrows : ∀ i ∈ rows, i < tLines)
    (hnd : rows.Nodup) (h : ∀ i ∈ rows, d.RowKept i) (hready : d.Ready (d.firstStop rows))
    (hcorner : d.automargins = true → ∀ i ∈ rows, i + 1 = tLines →
      ¬((d.rowLine i).modified = true ∧ wrapMargin ≤ (d.rowLine i).len ∧
        wrapMargin ≤ (d.rowLine i).emod + 1)) :
    (∀ i ∈ rows, (rows.foldl refreshRow d).RowShows i) ∧
      (∀ r, r ∉ rows → (rows.foldl refreshRow d).tty.cell r = d.tty.cell r) ∧
      (rows.foldl refreshRow d).Ready (d.screen.curCol, d.screen.curLn) := by
  induction rows generalizing d with
  | nil => exact ⟨fun _ hi => (List.not_mem_nil hi).elim, fun _ _ => rfl, hready⟩
  | cons i rows ih =>
    obtain ⟨hi, hnodup⟩ := List.nodup_cons.mp hnd
    have hlt := hrows i List.mem_cons_self
    have hothers : ∀ r ∈ rows, r < tLines ∧ r ≠ i := fun r hr =>
      ⟨hrows r (List.mem_cons_of_mem _ hr), fun hri => hi (hri ▸ hr)⟩
    have hline : ∀ r ∈ rows, (d.refreshRow i).rowLine r = d.rowLine r := fun r hr =>
      rowLine_of_other refreshRow_screen hlt (hothers r hr).1 (hothers r hr).2
    have hready' : ∀ c, rowStop (d.rowLine i) = some c → d.Ready (c, i) := by
      intro c hc
      rwa [firstStop, hc] at hready
    obtain ⟨hshow, hkeep, hrow⟩ := refreshRow_shows hlt (h i List.mem_cons_self) hready'
      fun ham => hcorner ham i List.mem_cons_self
    have hkept : ∀ r ∈ rows, (d.refreshRow i).RowKept r := by
      intro r hr
      obtain ⟨hsound, hfresh, hrest⟩ := h r (List.mem_cons_of_mem _ hr)
      have hcell := hkeep r (hothers r hr).2
      constructor
      · rwa [hline r hr]
      · rwa [hline r hr, hcell]
      · rwa [hline r hr, hcell]
    obtain ⟨hshows, hcells, hend⟩ := ih (fun r hr => (hothers r hr).1) hnodup hkept
      (refreshRow_ready hlt hothers hrow hready) fun ham r hr => by
        rw [hline r hr]
        rw [refreshRow_automargins] at ham
        exact hcorner ham r (List.mem_cons_of_mem _ hr)
    rw [refreshRow_screen] at hend
    refine ⟨fun r hr => ?_, fun r hr => ?_, hend⟩
    · rcases List.mem_cons.mp hr with rfl | hr
      · intro c hc
        rw [List.foldl_cons, rowLine_foldl refreshRow_screen _ rows (fun i hi => (hothers i hi).1)
          hnodup hlt, if_neg hi, hcells r hi]
        exact hshow c hc
      · exact hshows r hr
    · rw [List.mem_cons, not_or] at hr
      rw [List.foldl_cons, hcells r hr.2, hkeep r hr.1]

theorem rowLine_redoRow (d : Display tLines) (i : Nat) :
    (d.redoRow i).rowLine i = (d.rowLine i).redrawn := by
  have hline : (d.screen.setLine (d.screen.lineOf i) (d.rowLine i).redrawn).lineOf i =
      d.screen.lineOf i := rfl
  rw [rowLine, redoRow_screen, hline, Screen.setLine_bigPicture_self]

/-- `redoscr` shows a row that is not full, and leaves the other rows. -/
theorem redoRow_shows {d : Display tLines} {i : Nat} (hi : i < tLines)
    (hsound : (d.rowLine i).Sound) (hlt : (d.rowLine i).len < wrapMargin)
    (hblank : ∀ c, d.tty.cell i c = Terminal.blank) (hsync : d.Synced) :
    (d.redoRow i).RowShows i ∧ (∀ r ≠ i, (d.redoRow i).tty.cell r = d.tty.cell r) ∧
      (d.redoRow i).Synced := by
  rw [RowShows, rowLine_redoRow, Screenline.redrawn_len, Screenline.redrawn_data]
  by_cases hlen : (d.rowLine i).len = 0
  · have hsame : d.redoRow i = d := if_pos hlen
    rw [hsame, hlen]
    exact ⟨fun c _ => hblank c, fun _ _ => rfl, hsync⟩
  · have hsent : d.redoRow i = _ := if_neg hlen
    have hwrap : ¬wrapMargin ≤ 0 + (d.rowLine i).len := by omega
    have hwrite := Terminal.write_of_lt (t := (⟨i, 0, d.tty.cell⟩ : Terminal tLines wrapMargin))
      d.automargins ((d.rowLine i).slice 0 (d.rowLine i).len)
      (by rw [length_slice]; dsimp only; omega)
    rw [length_slice] at hwrite
    rw [hsent, goTo_of_synced hsync hi (by decide), outputLine,
      if_neg (by rw [hsound.standout]; decide), output]
    dsimp only
    rw [track, if_neg hwrap, hwrite]
    refine ⟨fun c hc => ?_, fun r hr => ?_, rfl, rfl⟩
    · refine (overlay_slice ..).trans ?_
      rw [hblank]
      exact if_congr ⟨fun h => h.2.2, fun h => ⟨rfl, Nat.zero_le c, h⟩⟩ rfl rfl
    · funext c
      exact Terminal.overlay_of_ne hr c

/-- The loop of `redoscr` shows the rows if no line is full. -/
theorem foldl_redoRow {d : Display tLines} (rows : List Nat) (hrows : ∀ i ∈ rows, i < tLines)
    (hnd : rows.Nodup)
    (h : ∀ i ∈ rows, (d.rowLine i).Sound ∧ (d.rowLine i).len < wrapMargin ∧
      ∀ c, d.tty.cell i c = Terminal.blank)
    (hsync : d.Synced) :
    (∀ i ∈ rows, (rows.foldl redoRow d).RowShows i) ∧
      (∀ r, r ∉ rows → (rows.foldl redoRow d).tty.cell r = d.tty.cell r) ∧
      (rows.foldl redoRow d).Synced := by
  induction rows generalizing d with
  | nil => exact ⟨fun _ hi => (List.not_mem_nil hi).elim, fun _ _ => rfl, hsync⟩
  | cons i rows ih =>
    obtain ⟨hi, hnodup⟩ := List.nodup_cons.mp hnd
    have hlt := hrows i List.mem_cons_self
    have hothers : ∀ r ∈ rows, r < tLines ∧ r ≠ i := fun r hr =>
      ⟨hrows r (List.mem_cons_of_mem _ hr), fun hri => hi (hri ▸ hr)⟩
    obtain ⟨hsound, hlen, hblank⟩ := h i List.mem_cons_self
    obtain ⟨hshow, hkeep, hend⟩ := redoRow_shows hlt hsound hlen hblank hsync
    obtain ⟨hshows, hcells, hends⟩ := ih (fun r hr => (hothers r hr).1) hnodup (fun r hr => by
      rw [rowLine_of_other redoRow_screen hlt (hothers r hr).1 (hothers r hr).2,
        hkeep r (hothers r hr).2]
      exact h r (List.mem_cons_of_mem _ hr)) hend
    refine ⟨fun r hr => ?_, fun r hr => ?_, hends⟩
    · rcases List.mem_cons.mp hr with rfl | hr
      · intro c hc
        rw [List.foldl_cons, rowLine_foldl redoRow_screen _ rows (fun i hi => (hothers i hi).1)
          hnodup hlt, if_neg hi, hcells r hi]
        exact hshow c hc
      · exact hshows r hr
    · rw [List.mem_cons, not_or] at hr
      rw [List.foldl_cons, hcells r hr.2, hkeep r hr.1]

end Display

end ArgoBbs

import ArgoBbs.Screen.Refresh

/-! # What the terminal shows

After a `refresh` the terminal shows the lines of the screen as long as no cell is left behind: a
gap between the end of a line and the place of new text is filled with blanks that are not noted as
modified. -/

namespace ArgoBbs

namespace Display
variable {tLines : Nat}

/-- Every row of the terminal shows the bytes of its line followed by blanks. -/
def Shows (d : Display tLines) : Prop :=
  ∀ i < tLines, ∀ c < wrapMargin,
    d.tty.cell i c = if c < (d.rowLine i).len then (d.rowLine i).data c else Terminal.blank

/-- What a row of the terminal shows in a column when the pending scrolling has been carried out. -/
def pending (d : Display tLines) (i c : Nat) : UInt8 :=
  let k := i + d.screen.scrollcnt
  if 0 ≤ k ∧ k < tLines then d.tty.cell k.toNat c else Terminal.blank

/-- Of the columns from the end of the line of the cursor on and before the given one, the terminal
will show what the line gets there, or they are in the modified range, if that ends at `emod`. -/
def GapShown (d : Display tLines) (stop emod : Nat) (new : Nat → UInt8) : Prop :=
  d.screen.docls = true ∨ ∀ c < stop, d.screen.slp.len ≤ c →
    (d.screen.slp.modified = true ∧ d.screen.slp.smod ≤ c ∧ c ≤ emod) ∨
      d.pending (d.screen.curLn % tLines) c = new c

instance (d : Display tLines) (stop emod : Nat) (new : Nat → UInt8) :
    Decidable (d.GapShown stop emod new) := inferInstanceAs (Decidable (_ ∨ _))

/-- Text is without escape bytes and stays left of the last column. A gap between the end of a line
and the cursor is filled only where the terminal shows the same; when all is drawn, no line is full;
the first move after the scrolling gets where it should. -/
def Clean (d : Display tLines) : ScreenCall → Prop
  | .outc c => c ≠ 27 ∧ d.screen.curCol < wrapMargin ∧
    d.GapShown d.screen.curCol
      (if c = 10 ∨ c = 13 then d.screen.slp.emod else max d.screen.slp.emod d.screen.curCol)
      fun _ => Terminal.blank
  | .clrtoeol => d.GapShown d.screen.curCol d.screen.slp.emod
    (if d.screen.slp.oldlen < d.screen.curCol then fun _ => Terminal.blank else d.screen.slp.data)
  | .refresh => d.icurrchar ≤ d.ibufsize ∧
    if d.Redraws then ∀ i < tLines, (d.rowLine i).len < wrapMargin
    else d.CornerFree ∧
      (0 < d.screen.scrollcnt →
        d.Lands (d.firstStop (List.range tLines)).1 (d.firstStop (List.range tLines)).2)
  | .move .. | .clrtobot | .clear | .scroll | .rscroll => True

instance (d : Display tLines) : (e : ScreenCall) → Decidable (d.Clean e)
  | .outc _ => inferInstanceAs (Decidable (_ ∧ _ ∧ _))
  | .clrtoeol => inferInstanceAs (Decidable (GapShown ..))
  | .refresh => inferInstanceAs (Decidable (_ ∧ _))
  | .move .. | .clrtobot | .clear | .scroll | .rscroll => isTrue trivial

/-! ## The invariant -/

/-- The line was in the row of the terminal when the terminal was last written to. -/
def Stood (d : Display tLines) (i j : Nat) : Prop :=
  (tLines : Int) ∣ (i : Int) + d.screen.roll - d.screen.scrollcnt - j

/-- What the terminal shows agrees with the lines: outside of the modified ranges when the pending
scrolling has been carried out, and behind the old lengths as it stands. -/
structure InStep (d : Display tLines) : Prop where
  synced : d.Synced
  fresh : ∀ i < tLines, ∀ c < (d.rowLine i).len,
    (d.rowLine i).Marked c ∨ d.pending i c = (d.rowLine i).data c
  rest : ∀ i < tLines, ∀ j < tLines, d.Stood i j →
    ∀ c < wrapMargin, (d.screen.bigPicture j).oldlen ≤ c → d.tty.cell i c = Terminal.blank

structure Inv (d : Display tLines) : Prop where
  curCol : d.screen.curCol ≤ wrapMargin
  roll : d.screen.roll < tLines
  inansi : d.screen.inansi = false
  sound : ∀ j, (d.screen.bigPicture j).Sound
  inStep : d.screen.docls = false → d.InStep

/-- The line of a row stood in the row that is shown there when the scrolling is carried out. -/
theorem stood_lineOf {d : Display tLines} {i k : Nat} (hk : (k : Int) = i + d.screen.scrollcnt) :
    d.Stood k (d.screen.lineOf i) := by
  have hmod := Int.emod_add_mul_ediv ((i : Int) + d.screen.roll) tLines
  refine ⟨((i : Int) + d.screen.roll) / tLines, ?_⟩
  rw [Screen.lineOf, Int.natCast_mod, Int.natCast_add, hk]
  omega

theorem pending_rest {d : Display tLines} (hn : 0 < tLines) (h : d.InStep) {i c : Nat}
    (hc : c < wrapMargin) (hlen : (d.rowLine i).oldlen ≤ c) : d.pending i c = Terminal.blank := by
  rw [pending]
  split
  case isTrue hin =>
    refine h.rest _ (by omega) _ (Screen.lineOf_lt hn i) (stood_lineOf ?_) c hc hlen
    exact Int.toNat_of_nonneg hin.1
  case isFalse => rfl

theorem showScroll_screen (d : Display tLines) :
    d.showScroll.screen = { d.screen with scrollcnt := 0 } := by
  rw [showScroll]
  dsimp only
  split
  case isTrue => rfl
  case isFalse hpos =>
  split
  case isTrue => rw [goTo_screen]
  case isFalse hneg =>
    have hzero : d.screen.scrollcnt = 0 := by omega
    rw [← hzero]

theorem showScroll_automargins (d : Display tLines) :
    d.showScroll.automargins = d.automargins := by
  rw [showScroll]
  split_ifs <;> simp only [goTo_automargins]

/-- The scrolling is carried out, and the first stop can be gone to. -/
theorem showScroll_shows {d : Display tLines} (hn : 3 < tLines) (hn' : tLines < 256) (hsync : d.Synced)
    (hland : 0 < d.screen.scrollcnt →
      d.Lands (d.firstStop (List.range tLines)).1 (d.firstStop (List.range tLines)).2) :
    (∀ i < tLines, ∀ c, d.showScroll.tty.cell i c = d.pending i c) ∧
      d.showScroll.Ready (d.firstStop (List.range tLines)) := by
  rw [showScroll]
  dsimp only
  split
  case isTrue hpos =>
    refine ⟨fun i hi c => ?_, .inr ⟨?_, ?_, hland hpos⟩⟩
    · rw [Terminal.goto_cell, Terminal.feed_cell (by dsimp only [Terminal.goto]; omega) _ i c hi,
        pending]
      by_cases hin : i + d.screen.scrollcnt.toNat < tLines
      · rw [if_pos hin, if_pos (by omega), Terminal.goto_cell,
          show (i + d.screen.scrollcnt).toNat = i + d.screen.scrollcnt.toNat by omega]
      · rw [if_neg hin, if_neg (by omega)]
    · exact Nat.zero_min _
    · dsimp only [Terminal.goto]
      omega
  case isFalse hpos =>
  split
  case isTrue hneg =>
    rw [goTo_of_synced hsync (by omega) (by decide)]
    refine ⟨fun i hi c => ?_, .inl ⟨rfl, rfl⟩⟩
    rw [pending]
    dsimp only [Terminal.insertLines]
    rw [if_neg (Nat.not_lt_zero i)]
    by_cases hin : i < 0 + (-d.screen.scrollcnt).toNat
    · rw [if_pos hin, if_neg (by omega)]
    · rw [if_neg hin, if_pos (by omega),
        show (i + d.screen.scrollcnt).toNat = i - (-d.screen.scrollcnt).toNat by omega]
  case isFalse hneg =>
    refine ⟨fun i hi c => ?_, .inl hsync⟩
    rw [pending, if_pos (by omega), show (i + d.screen.scrollcnt).toNat = i by omega]

theorem goTo_ready {d : Display tLines} (col row : Nat) (h : d.Ready (col, row)) :
    (d.goTo col row).Synced ∧ (d.goTo col row).tty.cell = d.tty.cell := by
  by_cases hin : row < tLines ∧ col < wrapMargin
  · rw [goTo_eq h hin.1 hin.2]
    exact ⟨⟨rfl, rfl⟩, rfl⟩
  · have hsame : d.goTo col row = d := by
      rw [goTo, relMove]
      exact if_pos (by omega)
    rw [hsame]
    refine ⟨?_, rfl⟩
    rcases h with hsync | ⟨hc, hr, ⟨hrow, hcol, -⟩ | ⟨hcol, hline⟩⟩
    · exact hsync
    · exact absurd ⟨hrow, hcol⟩ hin
    · exact ⟨hc.trans hcol.symm, by omega⟩

theorem lineOf_of_stood {d : Display tLines} (hzero : d.screen.scrollcnt = 0) {i j : Nat}
    (hj : j < tLines) (h : d.Stood i j) : d.screen.lineOf i = j := by
  obtain ⟨q, hq⟩ := h
  have hsum : ((i + d.screen.roll : Nat) : Int) = j + tLines * q := by omega
  have hmod : ((d.screen.lineOf i : Nat) : Int) = j := by
    rw [Screen.lineOf, Int.natCast_mod, hsum, Int.add_mul_emod_self_left]
    exact Int.emod_eq_of_lt (by omega) (by omega)
  exact Int.ofNat_inj.mp hmod

/-- When all rows are shown, the terminal agrees with the lines. -/
theorem inStep_of_shows {d : Display tLines} (hsync : d.Synced) (hzero : d.screen.scrollcnt = 0)
    (hsound : ∀ j, (d.screen.bigPicture j).Sound) (hshows : d.Shows)
    (hold : ∀ i < tLines, (d.rowLine i).len ≤ (d.rowLine i).oldlen) : d.InStep := by
  refine ⟨hsync, fun i hi c hc => .inr ?_, fun i hi j hj hstood c hc hlen => ?_⟩
  · have hcell := hshows i hi c (Nat.lt_of_lt_of_le hc (hsound _).len)
    rw [if_pos hc] at hcell
    rw [pending, if_pos (by omega), show (i + d.screen.scrollcnt).toNat = i by omega, hcell]
  · have hline := lineOf_of_stood hzero hj hstood
    have hrow := hold i hi
    rw [rowLine, hline] at hrow
    rw [hshows i hi c hc, rowLine, hline, if_neg (by omega)]

theorem redoscr_shows {d : Display tLines} (h : d.Inv)
    (hlt : ∀ i < tLines, (d.rowLine i).len < wrapMargin) : d.redoscr.Inv ∧ d.redoscr.Shows := by
  have hnd := List.nodup_range (n := tLines)
  have hrange : ∀ i ∈ List.range tLines, i < tLines := fun i hi => List.mem_range.mp hi
  obtain ⟨hshow, -, hsync⟩ := foldl_redoRow
    (d := { d with tty := d.tty.clear, tcCol := 0, tcLine := 0 }) (List.range tLines) hrange hnd
    (fun i hi => ⟨h.sound _, hlt i (hrange i hi), fun c => rfl⟩) ⟨rfl, rfl⟩
  have hscreen := foldl_screen redoRow_screen { d with tty := d.tty.clear, tcCol := 0, tcLine := 0 }
    (List.range tLines) hrange hnd
  have hline := fun r (hr : r < tLines) => rowLine_foldl redoRow_screen
    { d with tty := d.tty.clear, tcCol := 0, tcLine := 0 } (List.range tLines) hrange hnd hr
  rw [redoscr]
  dsimp only
  generalize (List.range tLines).foldl redoRow
    { d with tty := d.tty.clear, tcCol := 0, tcLine := 0 } = d' at *
  obtain ⟨hend, hcell⟩ := goTo_ready d'.screen.curCol d'.screen.curLn (.inl hsync)
  have hsound : ∀ j, (d'.screen.bigPicture j).Sound := by
    intro j
    rw [hscreen]
    dsimp only
    split
    · exact (h.sound j).redrawn
    · exact h.sound j
  have hshows : ∀ i < tLines, d'.RowShows i := fun i hi => hshow i (List.mem_range.mpr hi)
  rw [goTo_screen]
  have hall : ({ d'.goTo d'.screen.curCol d'.screen.curLn with
      screen := { d'.screen with docls := false, scrollcnt := 0 } } : Display tLines).Shows := by
    intro i hi c hc
    exact (congrFun (congrFun hcell i) c).trans (hshows i hi c hc)
  refine ⟨⟨?_, ?_, ?_, hsound, fun _ => inStep_of_shows hend rfl hsound hall fun i hi => ?_⟩, hall⟩
  · dsimp only
    rw [hscreen]
    exact h.curCol
  · dsimp only
    rw [hscreen]
    exact h.roll
  · dsimp only
    rw [hscreen]
    exact h.inansi
  · refine Nat.le_trans (m := (d'.rowLine i).oldlen) ?_ (Nat.le_refl _)
    show (d'.rowLine i).len ≤ _
    rw [hline i hi, if_pos (List.mem_range.mpr hi), Screenline.redrawn]
    split
    case isTrue hzero => rw [hzero]; exact Nat.zero_le _
    case isFalse => exact Nat.le_refl _

theorem refresh_spec {d : Display tLines} (hn : 0 < tLines) (hn' : tLines < 256) (h : d.Inv)
    (hC : d.Clean .refresh) : d.refresh.Inv ∧ d.refresh.Shows := by
  obtain ⟨hinput, hC⟩ := hC
  rw [refresh, if_neg (Int.not_lt.mpr hinput)]
  by_cases hredraw : d.Redraws
  · rw [if_pos hredraw] at hC ⊢
    exact redoscr_shows h hC
  rw [if_neg hredraw] at hC ⊢
  obtain ⟨hcorner, hland⟩ := hC
  rw [Redraws, not_or, Bool.not_eq_true, Int.not_le] at hredraw
  have hstep := h.inStep hredraw.1
  obtain ⟨hcells, hready⟩ := showScroll_shows (by omega) hn' hstep.synced hland
  have hscroll := showScroll_screen d
  have ham := showScroll_automargins d
  have hnd := List.nodup_range (n := tLines)
  have hrange : ∀ i ∈ List.range tLines, i < tLines := fun i hi => List.mem_range.mp hi
  have hrow : ∀ i, d.showScroll.rowLine i = d.rowLine i := by
    intro i
    rw [rowLine, hscroll]
    rfl
  have hkept : ∀ i ∈ List.range tLines, d.showScroll.RowKept i := by
    intro i hi
    have hi' := hrange i hi
    refine ⟨?_, fun c hc => ?_, fun c hc hold => ?_⟩
    · rw [hrow]
      exact h.sound _
    · rw [hrow] at hc ⊢
      rw [hcells i hi']
      exact hstep.fresh i hi' c hc
    · rw [hrow] at hold
      rw [hcells i hi']
      exact pending_rest hn hstep hc hold
  have hfirst : d.showScroll.firstStop (List.range tLines) = d.firstStop (List.range tLines) :=
    firstStop_congr (by rw [hscroll]) (by rw [hscroll]) _ fun i _ => hrow i
  obtain ⟨hshow, -, hend⟩ := foldl_refreshRow (List.range tLines) hrange hnd hkept
    (by rw [hfirst]; exact hready) fun hauto i _ hlast => by
      have hi : i = tLines - 1 := by omega
      rw [ham] at hauto
      rw [hrow, hi]
      exact hcorner hauto
  have hscreen := foldl_screen refreshRow_screen d.showScroll (List.range tLines) hrange hnd
  have hline := fun r (hr : r < tLines) => rowLine_foldl refreshRow_screen d.showScroll
    (List.range tLines) hrange hnd hr
  dsimp only
  generalize (List.range tLines).foldl refreshRow d.showScroll = d' at *
  rw [hscroll] at hscreen
  have hcol : d'.screen.curCol = d.screen.curCol := by rw [hscreen]
  have hln : d'.screen.curLn = d.screen.curLn := by rw [hscreen]
  rw [hscroll, ← hcol, ← hln] at hend
  obtain ⟨hsync, hcell⟩ := goTo_ready _ _ hend
  have hsound : ∀ j, (d'.screen.bigPicture j).Sound := by
    intro j
    rw [hscreen]
    dsimp only
    split
    · exact (h.sound j).refreshed
    · exact h.sound j
  have hgo : ∀ i, (d'.goTo d'.screen.curCol d'.screen.curLn).rowLine i = d'.rowLine i := by
    intro i
    rw [rowLine, goTo_screen]
    rfl
  have hall : (d'.goTo d'.screen.curCol d'.screen.curLn).Shows := by
    intro i hi c hc
    rw [hcell, hgo]
    exact hshow i (List.mem_range.mpr hi) c hc
  refine ⟨⟨?_, ?_, ?_, ?_, fun _ => inStep_of_shows hsync ?_ ?_ hall fun i hi => ?_⟩, hall⟩
  · rw [goTo_screen, hcol]
    exact h.curCol
  · rw [goTo_screen, hscreen]
    exact h.roll
  · rw [goTo_screen, hscreen]
    exact h.inansi
  · rw [goTo_screen]
    exact hsound
  · rw [goTo_screen, hscreen]
  · rw [goTo_screen]
    exact hsound
  · rw [hgo, hline i hi, if_pos (List.mem_range.mpr hi), Screenline.refreshed_len]
    exact Nat.le_refl _

/-! ## The calls -/

/-- The lines are changed, and what the terminal shows agrees with the new ones. -/
theorem Inv.of_lines {d : Display tLines} (h : d.Inv) {s : Screen tLines}
    (hcol : s.curCol ≤ wrapMargin) (hroll : s.roll = d.screen.roll) (hinansi : s.inansi = false)
    (hsound : ∀ j, (s.bigPicture j).Sound)
    (hkeep : s.docls = false → d.screen.docls = false ∧ s.scrollcnt = d.screen.scrollcnt ∧
      (∀ j, (d.screen.bigPicture j).oldlen ≤ (s.bigPicture j).oldlen) ∧
      ∀ i < tLines, ∀ c < (s.bigPicture (s.lineOf i)).len,
        (s.bigPicture (s.lineOf i)).Marked c ∨
          d.pending i c = (s.bigPicture (s.lineOf i)).data c) :
    ({ d with screen := s } : Display tLines).Inv := by
  refine ⟨hcol, hroll ▸ h.roll, hinansi, hsound, fun hdocls => ?_⟩
  obtain ⟨hdocls', hscroll, hold, hfresh⟩ := hkeep hdocls
  have hstep := h.inStep hdocls'
  refine ⟨hstep.synced, fun i hi c hc => ?_, fun i hi j hj hstood c hc hlen => ?_⟩
  · rw [pending, hscroll]
    exact hfresh i hi c hc
  · rw [Stood, hroll, hscroll] at hstood
    exact hstep.rest i hi j hj hstood c hc (Nat.le_trans (hold j) hlen)

/-- The line of the cursor is changed. -/
theorem Inv.of_slp {d : Display tLines} (h : d.Inv) {s : Screen tLines} {l : Screenline}
    (hlines : s.bigPicture = (d.screen.setSlp l).bigPicture) (hcol : s.curCol ≤ wrapMargin)
    (hroll : s.roll = d.screen.roll) (hscroll : s.scrollcnt = d.screen.scrollcnt)
    (hdocls : s.docls = d.screen.docls) (hinansi : s.inansi = false) (hl : l.Sound)
    (hold : l.oldlen = d.screen.slp.oldlen)
    (hfresh : d.screen.docls = false → ∀ c < l.len,
      l.Marked c ∨ d.pending (d.screen.curLn % tLines) c = l.data c) :
    ({ d with screen := s } : Display tLines).Inv := by
  have hline : ∀ j, s.bigPicture j =
      if j = d.screen.lineOf d.screen.curLn then l else d.screen.bigPicture j := by
    intro j
    rw [hlines]
    rfl
  refine h.of_lines hcol hroll hinansi (fun j => ?_) fun hs => ⟨hdocls ▸ hs, hscroll, fun j => ?_,
    fun i hi => ?_⟩
  · rw [hline]
    split
    · exact hl
    · exact h.sound j
  · rw [hline]
    split
    case isTrue hj => rw [hold, hj]; exact Nat.le_refl _
    case isFalse => exact Nat.le_refl _
  · have hof : s.lineOf i = d.screen.lineOf i := by rw [Screen.lineOf, Screen.lineOf, hroll]
    rw [hline, hof]
    split
    case isTrue hj =>
      have hrow : i = d.screen.curLn % tLines :=
        (Nat.mod_eq_of_lt hi).symm.trans (Nat.ModEq.add_right_cancel' d.screen.roll hj)
      rw [hrow]
      exact hfresh (hdocls ▸ hs)
    case isFalse => exact (h.inStep (hdocls ▸ hs)).fresh i hi

/-- The line of the cursor up to its end. -/
theorem Inv.fresh_slp {d : Display tLines} (hn : 0 < tLines) (h : d.Inv)
    (hdocls : d.screen.docls = false) {c : Nat} (hc : c < d.screen.slp.len) :
    d.screen.slp.Marked c ∨ d.pending (d.screen.curLn % tLines) c = d.screen.slp.data c := by
  have hof : d.screen.lineOf (d.screen.curLn % tLines) = d.screen.lineOf d.screen.curLn := by
    rw [Screen.lineOf, Nat.mod_add_mod]
    rfl
  have hrow : d.rowLine (d.screen.curLn % tLines) = d.screen.slp := by
    rw [rowLine, hof]
    rfl
  have hfresh := (h.inStep hdocls).fresh (d.screen.curLn % tLines) (Nat.mod_lt _ hn) c
  rw [hrow] at hfresh
  exact hfresh hc

end Display

namespace Screenline
variable {l : Screenline} {col : Nat}

theorem clrtoeol_marked (c : Nat) : (l.clrtoeol col).Marked c ↔ l.Marked c := by
  rw [clrtoeol]
  split_ifs <;> rfl

theorem clrtoeol_oldlen : (l.clrtoeol col).oldlen = l.oldlen := by
  rw [clrtoeol]
  split_ifs <;> rfl

theorem Sound.clrtoeol (h : l.Sound) (hcol : col ≤ wrapMargin) : (l.clrtoeol col).Sound := by
  refine ⟨hcol, clrtoeol_oldlen.trans_le h.oldlen, ?_, ?_⟩
  · rw [Screenline.clrtoeol]
    split_ifs <;> first | rfl | exact h.standout
  · rw [Screenline.clrtoeol]
    split_ifs <;> exact h.mark

theorem clrtoeol_data {c : Nat} (hc : c < col) :
    (l.clrtoeol col).data c = if l.oldlen < col ∧ l.len ≤ c then 32 else l.data c := by
  have hdata : (l.clrtoeol col).data =
      if l.oldlen < col ∧ l.len < col then (l.fill l.len (col + 1)).data else l.data := by
    rw [clrtoeol]
    by_cases hsso : col ≤ l.sso
    · rw [if_pos hsso]
      split <;> rfl
    · rw [if_neg hsso]
      split <;> rfl
  rw [hdata]
  by_cases hgap : l.oldlen < col ∧ l.len ≤ c
  · rw [if_pos hgap, if_pos ⟨hgap.1, by omega⟩]
    exact if_pos ⟨hgap.2, by omega⟩
  · rw [if_neg hgap]
    split
    · exact if_neg (by omega)
    · rfl

theorem newline_marked (standing : Bool) (c : Nat) :
    (l.newline standing col).Marked c ↔ l.Marked c := by
  rw [newline]
  split_ifs <;> rfl

theorem newline_oldlen (standing : Bool) : (l.newline standing col).oldlen = l.oldlen := by
  rw [newline]
  split_ifs <;> rfl

theorem Sound.newline (h : l.Sound) (standing : Bool) (hcol : col ≤ wrapMargin) :
    (l.newline standing col).Sound := by
  refine ⟨hcol, (newline_oldlen standing).trans_le h.oldlen, ?_, ?_⟩
  · rw [Screenline.newline]
    split_ifs <;> exact h.standout
  · rw [Screenline.newline]
    split_ifs <;> exact h.mark

theorem newline_data (standing : Bool) {c : Nat} (hc : c < col) :
    (l.newline standing col).data c = if l.len ≤ c then 32 else l.data c := by
  have hdata : (l.newline standing col).data =
      if l.len < col then (l.fill l.len (col + 1)).data else l.data := by
    rw [newline]
    by_cases heso : standing = true ∧ l.eso < col
    · rw [if_pos heso]
      split <;> rfl
    · rw [if_neg heso]
      split <;> rfl
  rw [hdata]
  by_cases hgap : l.len ≤ c
  · rw [if_pos hgap, if_pos (by omega)]
    exact if_pos ⟨hgap, by omega⟩
  · rw [if_neg hgap]
    split
    · exact if_neg (by omega)
    · rfl

theorem Sound.mark_self (h : l.Sound) : (l.mark col).Sound := by
  refine ⟨h.len, h.oldlen, h.standout, fun _ => ?_⟩
  have hself : (l.mark col).Marked col := marked_mark (.inr rfl)
  exact hself.2.1.trans hself.2.2

theorem extend_oldlen : (l.extend col).oldlen = l.oldlen := by
  rw [extend]
  split <;> rfl

theorem Sound.extend (h : l.Sound) (hcol : col < wrapMargin) : (l.extend col).Sound := by
  rw [Screenline.extend]
  split
  · refine ⟨?_, h.oldlen, h.standout, h.mark⟩
    exact (toUchar_of_lt (Nat.succ_lt_succ hcol)).trans_le hcol
  · exact h

theorem Sound.store (h : l.Sound) (hcol : col < wrapMargin) (c : UInt8) : (l.store col c).Sound := by
  have hext := h.extend hcol
  rw [Screenline.store]
  split
  · exact ⟨hext.len, hext.oldlen, hext.standout, hext.mark_self.mark⟩
  · exact ⟨hext.len, hext.oldlen, hext.standout, hext.mark⟩

theorem store_oldlen (c : UInt8) : (l.store col c).oldlen = l.oldlen := by
  rw [store]
  split <;> exact extend_oldlen

/-- A byte behind the end of the line is stored and marked with the range up to it. -/
theorem store_of_le {c : UInt8} (hc : c ≠ 0) (hcol : col < wrapMargin) (hlen : l.len ≤ col) :
    (l.store col c).len = col + 1 ∧
      (∀ k, (l.modified = true ∧ l.smod ≤ k ∧ k ≤ max l.emod col) ∨ k = col →
        (l.store col c).Marked k) ∧
      ∀ k, (l.store col c).data k =
        if k = col then c else if l.len ≤ k ∧ k < col then 32 else l.data k := by
  have hext : l.extend col =
      { (l.fill l.len col).setByte col 0 with len := toUchar (col + 1) } := if_pos hlen
  have hnew : (l.extend col).data col ≠ c := by
    rw [hext]
    dsimp only [setByte]
    rw [if_pos rfl]
    exact Ne.symm hc
  have hstore : l.store col c = ((l.extend col).mark col).setByte col c := by
    rw [store]
    exact congrArg (setByte · col c) (if_pos hnew)
  have hlen' : (l.extend col).len = col + 1 := by
    rw [hext]
    exact toUchar_of_lt (Nat.succ_lt_succ hcol)
  rw [hstore]
  refine ⟨hlen', fun k hk => marked_mark ?_, fun k => ?_⟩
  · rw [hext]
    exact hk
  · dsimp only [setByte, mark]
    split
    case isTrue => rfl
    case isFalse hk =>
      rw [hext]
      exact if_neg hk

/-- A byte that is stored in the line is marked or has been there. -/
theorem store_of_lt {c : UInt8} (hlen : col < l.len) :
    (l.store col c).len = l.len ∧ (∀ k, l.Marked k → (l.store col c).Marked k) ∧
      (l.data col ≠ c → (l.store col c).Marked col) ∧
      ∀ k, (l.store col c).data k = if k = col then c else l.data k := by
  have hext : l.extend col = l := if_neg (Nat.not_le.mpr hlen)
  rw [store, hext]
  split
  case isTrue =>
    exact ⟨rfl, fun k hk => marked_mark_of_marked hk, fun _ => marked_mark (.inr rfl), fun k => rfl⟩
  case isFalse hsame => exact ⟨rfl, fun k hk => hk, fun hne => absurd hne hsame, fun k => rfl⟩

end Screenline

namespace Display

theorem inv_move {d : Display tLines} (h : d.Inv) (y x : Int) : (d.call (.move y x)).Inv :=
  h.of_lines (Nat.le_of_lt_succ (toUchar_lt x)) rfl h.inansi h.sound fun hdocls =>
    ⟨hdocls, rfl, fun _ => Nat.le_refl _, (h.inStep hdocls).fresh⟩

theorem inv_clear {d : Display tLines} (hn : 0 < tLines) (h : d.Inv) : (d.call .clear).Inv := by
  refine ⟨Nat.zero_le _, hn, h.inansi, fun j => ?_, fun hdocls => by cases hdocls⟩
  have hj := h.sound j
  dsimp only [call, Screen.clear, Screen.move]
  split
  · exact ⟨Nat.zero_le _, Nat.zero_le _, rfl, fun hm => by cases hm⟩
  · exact hj

theorem inv_clrtobot {d : Display tLines} (h : d.Inv) : (d.call .clrtobot).Inv := by
  have hline : ∀ j, (d.screen.clrtobot.bigPicture j = d.screen.bigPicture j) ∨
      ((d.screen.clrtobot.bigPicture j).Sound ∧ (d.screen.clrtobot.bigPicture j).len = 0 ∧
        (d.screen.bigPicture j).oldlen ≤ (d.screen.clrtobot.bigPicture j).oldlen) := by
    intro j
    have hold := (h.sound j).oldlen
    dsimp only [Screen.clrtobot]
    split
    · refine .inr ⟨⟨Nat.zero_le _, ?_, rfl, fun hm => by cases hm⟩, rfl, ?_⟩
      · dsimp only
        split
        · exact Nat.le_refl _
        · exact hold
      · dsimp only
        split
        · exact hold
        · exact Nat.le_refl _
    · exact .inl rfl
  refine h.of_lines h.curCol rfl h.inansi (fun j => ?_) fun hdocls => ⟨hdocls, rfl, fun j => ?_,
    fun i hi c hc => ?_⟩
  · rcases hline j with hj | ⟨hj, -⟩
    · rw [hj]
      exact h.sound j
    · exact hj
  · rcases hline j with hj | ⟨-, -, hj⟩
    · rw [hj]
    · exact hj
  · rcases hline (d.screen.lineOf i) with hj | ⟨-, hj, -⟩
    · have hsame : d.screen.clrtobot.lineOf i = d.screen.lineOf i := rfl
      rw [hsame, hj] at hc ⊢
      exact (h.inStep hdocls).fresh i hi c hc
    · exact absurd hc (hj ▸ Nat.not_lt_zero c)

theorem inv_clrtoeol {d : Display tLines} (hn : 0 < tLines) (h : d.Inv)
    (hC : d.Clean .clrtoeol) : (d.call .clrtoeol).Inv := by
  refine h.of_slp (l := d.screen.slp.clrtoeol d.screen.curCol) rfl h.curCol rfl rfl rfl h.inansi
    ((h.sound _).clrtoeol h.curCol) Screenline.clrtoeol_oldlen fun hdocls c hc => ?_
  replace hc : c < d.screen.curCol := hc
  have hgap := hC.resolve_left (by rw [hdocls]; exact Bool.false_ne_true)
  rw [Screenline.clrtoeol_marked, Screenline.clrtoeol_data hc]
  by_cases hlen : d.screen.slp.len ≤ c
  · have hcell := hgap c hc hlen
    by_cases hold : d.screen.slp.oldlen < d.screen.curCol
    · rw [if_pos hold] at hcell
      rw [if_pos ⟨hold, hlen⟩]
      exact hcell
    · rw [if_neg hold] at hcell
      rw [if_neg fun hle => hold hle.1]
      exact hcell
  · rw [if_neg fun hle => hlen hle.2]
    exact h.fresh_slp hn hdocls (Nat.lt_of_not_le hlen)

theorem pending_congr {d d' : Display tLines} (htty : d'.tty = d.tty) {i i' : Nat}
    (h : (i : Int) + d'.screen.scrollcnt = i' + d.screen.scrollcnt) (c : Nat) :
    d'.pending i c = d.pending i' c := by
  simp only [pending, h, htty]

/-- The rows are shifted, and the line of the row that comes in is emptied. -/
theorem Inv.recycled {d : Display tLines} (h : d.Inv) {s : Screen tLines} (hroll : s.roll < tLines)
    (hinansi : s.inansi = false) (hlines : s.bigPicture = d.screen.bigPicture)
    (hcol : s.curCol = 0) (hln : s.curLn < tLines) (hdocls : s.docls = d.screen.docls)
    (hstood : ∀ i j, ({ d with screen := s } : Display tLines).Stood i j → d.Stood i j)
    (hrow : ∀ i < tLines, i ≠ s.curLn → ∃ i' < tLines, s.lineOf i = d.screen.lineOf i' ∧
      ∀ c, ({ d with screen := s } : Display tLines).pending i c = d.pending i' c) :
    ({ d with screen := s.clrtoeol } : Display tLines).Inv := by
  have hline : ∀ j, s.clrtoeol.bigPicture j =
      if j = s.lineOf s.curLn then s.slp.clrtoeol 0 else d.screen.bigPicture j := by
    intro j
    rw [← hcol, ← hlines]
    rfl
  have hslp : s.slp = d.screen.bigPicture (s.lineOf s.curLn) := by rw [Screen.slp, hlines]
  refine ⟨hcol.trans_le (Nat.zero_le _), hroll, hinansi, fun j => ?_, fun hs => ?_⟩
  · rw [hline]
    split
    · rw [hslp]
      exact (h.sound _).clrtoeol (Nat.zero_le _)
    · exact h.sound j
  · have hstep := h.inStep (hdocls ▸ hs)
    refine ⟨hstep.synced, fun i hi c hc => ?_, fun i hi j hj hst c hc hlen => ?_⟩
    · have hof : ({ d with screen := s.clrtoeol } : Display tLines).rowLine i =
          if s.lineOf i = s.lineOf s.curLn then s.slp.clrtoeol 0
          else d.screen.bigPicture (s.lineOf i) := hline _
      by_cases hi' : i = s.curLn
      · rw [hof, if_pos (by rw [hi'])] at hc
        exact absurd hc (Nat.not_lt_zero c)
      · obtain ⟨i', hi'', hlineOf, hpending⟩ := hrow i hi hi'
        rw [hof, if_neg fun heq => hi' (Screen.lineOf_inj hi hln heq), hlineOf] at hc ⊢
        exact (hpending c).symm ▸ hstep.fresh i' hi'' c hc
    · refine hstep.rest i hi j hj (hstood i j hst) c hc ?_
      dsimp only at hlen
      rw [hline] at hlen
      split at hlen
      case isTrue hjl => rwa [Screenline.clrtoeol_oldlen, hslp, ← hjl] at hlen
      case isFalse => exact hlen

theorem inv_scroll {d : Display tLines} (hn : 0 < tLines) (hn' : tLines < 256) (h : d.Inv) :
    (d.call .scroll).Inv := by
  have hroll := h.roll
  have hrow : toUchar ((tLines : Int) - 1) = tLines - 1 := by
    rw [toUchar]
    omega
  obtain ⟨roll, hr, hcase⟩ : ∃ roll, (if tLines ≤ d.screen.roll + 1 then
      d.screen.roll + 1 - tLines else d.screen.roll + 1) = roll ∧
        (roll = d.screen.roll + 1 ∧ roll < tLines ∨ roll + tLines = d.screen.roll + 1) := by
    refine ⟨_, rfl, ?_⟩
    split <;> omega
  rw [call, Screen.scroll, hr]
  refine h.recycled (by dsimp only [Screen.move]; omega) h.inansi rfl rfl (hrow.trans_lt (by omega))
    rfl (fun i j hst => ?_) fun i hi hne => ?_
  · obtain ⟨q, hq⟩ := hst
    dsimp only [Screen.move] at hq
    rcases hcase with hcase | hcase
    · exact ⟨q, by omega⟩
    · refine ⟨q + 1, ?_⟩
      rw [Int.mul_add, Int.mul_one, ← hq]
      omega
  · have hlast : i ≠ tLines - 1 := fun hi' => hne (hi'.trans hrow.symm)
    refine ⟨i + 1, by omega, ?_, fun c => ?_⟩
    · rw [Screen.lineOf, Screen.lineOf]
      dsimp only [Screen.move]
      rcases hcase with ⟨hcase, -⟩ | hcase
      · rw [hcase, Nat.add_assoc, Nat.add_comm 1]
      · rw [Nat.add_assoc, Nat.add_comm 1, ← hcase, ← Nat.add_assoc, Nat.add_mod_right]
    · apply pending_congr
      · exact rfl
      · dsimp only [Screen.move]
        omega

theorem inv_rscroll {d : Display tLines} (hn : 0 < tLines) (h : d.Inv) :
    (d.call .rscroll).Inv := by
  have hroll := h.roll
  obtain ⟨roll, hr, hcase⟩ : ∃ roll, (if 0 < d.screen.roll then d.screen.roll - 1
      else tLines - 1) = roll ∧
        (roll + 1 = d.screen.roll ∨ roll + 1 = d.screen.roll + tLines ∧ roll < tLines) := by
    refine ⟨_, rfl, ?_⟩
    split <;> omega
  rw [call, Screen.rscroll, hr]
  refine h.recycled (by dsimp only [Screen.move]; omega) h.inansi rfl rfl hn
    rfl (fun i j hst => ?_) fun i hi hne => ?_
  · obtain ⟨q, hq⟩ := hst
    dsimp only [Screen.move] at hq
    rcases hcase with hcase | hcase
    · exact ⟨q, by omega⟩
    · refine ⟨q - 1, ?_⟩
      rw [Int.mul_sub, Int.mul_one, ← hq]
      omega
  · obtain ⟨i, rfl⟩ := Nat.exists_eq_add_one_of_ne_zero hne
    refine ⟨i, Nat.lt_of_succ_lt hi, ?_, fun c => ?_⟩
    · rw [Screen.lineOf, Screen.lineOf]
      dsimp only [Screen.move]
      rw [Nat.add_assoc, Nat.add_comm 1]
      rcases hcase with hcase | ⟨hcase, -⟩
      · rw [hcase]
      · rw [hcase, ← Nat.add_assoc, Nat.add_mod_right]
    · apply pending_congr
      · exact rfl
      · dsimp only [Screen.move]
        omega

theorem inv_newline {d : Display tLines} (hn : 0 < tLines) (h : d.Inv)
    (hgap : d.GapShown d.screen.curCol d.screen.slp.emod fun _ => Terminal.blank) :
    ({ d with screen := d.screen.newline } : Display tLines).Inv := by
  refine h.of_slp (l := d.screen.slp.newline d.screen.standing d.screen.curCol) rfl
    (Nat.zero_le _) rfl rfl rfl h.inansi ((h.sound _).newline _ h.curCol)
    (Screenline.newline_oldlen _) fun hdocls c hc => ?_
  replace hc : c < d.screen.curCol := hc
  have hcell := hgap.resolve_left (by rw [hdocls]; exact Bool.false_ne_true) c hc
  rw [Screenline.newline_marked, Screenline.newline_data _ hc]
  by_cases hlen : d.screen.slp.len ≤ c
  · rw [if_pos hlen]
    exact hcell hlen
  · rw [if_neg hlen]
    exact h.fresh_slp hn hdocls (Nat.lt_of_not_le hlen)

theorem inv_store {d : Display tLines} (hn : 0 < tLines) (h : d.Inv) {c : UInt8} (hc : c ≠ 0)
    (hlt : d.screen.curCol < wrapMargin)
    (hgap : d.GapShown d.screen.curCol (max d.screen.slp.emod d.screen.curCol)
      fun _ => Terminal.blank) :
    ({ d with screen := d.screen.store c } : Display tLines).Inv := by
  have hsound := (h.sound (d.screen.lineOf d.screen.curLn)).store hlt c
  have hfresh : d.screen.docls = false → ∀ k < (d.screen.slp.store d.screen.curCol c).len,
      (d.screen.slp.store d.screen.curCol c).Marked k ∨
        d.pending (d.screen.curLn % tLines) k = (d.screen.slp.store d.screen.curCol c).data k := by
    intro hdocls k hk
    have hcell := hgap.resolve_left (by rw [hdocls]; exact Bool.false_ne_true) k
    by_cases hlen : d.screen.slp.len ≤ d.screen.curCol
    · obtain ⟨hlen', hmarked, hdata⟩ := Screenline.store_of_le hc hlt hlen
      rw [hlen'] at hk
      rw [hdata]
      by_cases hcol : k = d.screen.curCol
      · exact .inl (hmarked k (.inr hcol))
      rw [if_neg hcol]
      by_cases hkl : d.screen.slp.len ≤ k
      · have hkc : k < d.screen.curCol := by omega
        rw [if_pos ⟨hkl, hkc⟩]
        exact (hcell hkc hkl).imp (fun hm => hmarked k (.inl hm)) id
      · rw [if_neg fun hle => hkl hle.1]
        refine (h.fresh_slp hn hdocls (Nat.lt_of_not_le hkl)).imp (fun hm => hmarked k (.inl ?_)) id
        exact ⟨hm.1, hm.2.1, Nat.le_trans hm.2.2 (Nat.le_max_left ..)⟩
    · obtain ⟨hlen', hmarked, hnew, hdata⟩ :=
        Screenline.store_of_lt (c := c) (Nat.lt_of_not_le hlen)
      rw [hlen'] at hk
      have hold := h.fresh_slp hn hdocls hk
      rw [hdata]
      by_cases hcol : k = d.screen.curCol
      · rw [if_pos hcol]
        by_cases hsame : d.screen.slp.data d.screen.curCol = c
        · refine hold.imp (hmarked k) fun hcell => hcell.trans ?_
          rw [hcol, hsame]
        · exact .inl (hcol ▸ hnew hsame)
      · rw [if_neg hcol]
        exact hold.imp (hmarked k) id
  have hcol : toUchar (d.screen.curCol + 1) ≤ wrapMargin := Nat.le_of_lt_succ (toUchar_lt _)
  rw [Screen.store]
  split
  · -- the column is the last one: only where standout text ends can be different
    dsimp only
    split
    · exact h.of_slp rfl (Nat.zero_le _) rfl rfl rfl h.inansi
        ⟨hsound.len, hsound.oldlen, hsound.standout, hsound.mark⟩
        (Screenline.store_oldlen c) hfresh
    · exact h.of_slp rfl (Nat.zero_le _) rfl rfl rfl h.inansi hsound
        (Screenline.store_oldlen c) hfresh
  · exact h.of_slp rfl hcol rfl rfl rfl h.inansi hsound (Screenline.store_oldlen c) hfresh

theorem inv_outc {d : Display tLines} (hn : 0 < tLines) (h : d.Inv) {c : UInt8}
    (hC : d.Clean (.outc c)) : (d.call (.outc c)).Inv := by
  obtain ⟨hesc, hlt, hgap⟩ := hC
  rw [call, Screen.outc, h.inansi, if_neg Bool.false_ne_true, if_neg fun hc => hesc hc.1]
  by_cases hline : c = 10 ∨ c = 13
  · rw [if_pos hline] at hgap ⊢
    exact inv_newline hn h hgap
  · rw [if_neg hline] at hgap ⊢
    refine inv_store hn h ?_ hlt hgap
    split
    case isTrue => decide
    case isFalse hprint =>
      rintro rfl
      exact hprint ⟨by decide, .inl hesc⟩

theorem inv_call {d : Display tLines} (hn : 0 < tLines) (hn' : tLines < 256) (h : d.Inv)
    (e : ScreenCall) (hC : d.Clean e) : (d.call e).Inv := by
  cases e with
  | move y x => exact inv_move h y x
  | outc c => exact inv_outc hn h hC
  | clrtoeol => exact inv_clrtoeol hn h hC
  | clrtobot => exact inv_clrtobot h
  | clear => exact inv_clear hn h
  | scroll => exact inv_scroll hn hn' h
  | rscroll => exact inv_rscroll hn h
  | refresh => exact (refresh_spec hn hn' h hC).1

/-- A screen that has just been initialised, in front of a terminal. -/
def start (offsetln : Nat) (iscolor showansi automargins : Bool) (tty : Terminal tLines wrapMargin) :
    Display tLines :=
  { screen :=
      { bigPicture := fun _ => .zero
        curLn := 0
        curCol := 0
        roll := 0
        scrollcnt := 0
        docls := true
        standing := false
        inansi := false
        offsetln := offsetln
        disableMove := false
        iscolor := iscolor
        showansi := showansi }
    tcCol := 0
    tcLine := 0
    tty := tty
    automargins := automargins
    icurrchar := 0
    ibufsize := 0 }

theorem inv_start (hn : 0 < tLines) (offsetln : Nat) (iscolor showansi automargins : Bool)
    (tty : Terminal tLines wrapMargin) :
    (start offsetln iscolor showansi automargins tty).Inv :=
  ⟨Nat.zero_le _, hn, rfl, fun _ => ⟨Nat.zero_le _, Nat.zero_le _, rfl, fun hm => by cases hm⟩,
    fun hdocls => by cases hdocls⟩

/-- `refresh` keeps the text of the lines. -/
theorem rowLine_refresh (d : Display tLines) {i : Nat} (hi : i < tLines) :
    (d.refresh.rowLine i).len = (d.rowLine i).len ∧
      (d.refresh.rowLine i).data = (d.rowLine i).data := by
  have hnd := List.nodup_range (n := tLines)
  have hrange : ∀ i ∈ List.range tLines, i < tLines := fun i hi => List.mem_range.mp hi
  have hmem := List.mem_range.mpr hi
  rw [refresh]
  split
  case isTrue => exact ⟨rfl, rfl⟩
  case isFalse =>
  split
  case isTrue =>
    have hline := rowLine_foldl redoRow_screen
      { d with tty := d.tty.clear, tcCol := 0, tcLine := 0 } (List.range tLines) hrange hnd hi
    rw [if_pos hmem] at hline
    have hsame : d.redoscr.rowLine i = (d.rowLine i).redrawn := by
      rw [← show _ = (d.rowLine i).redrawn from hline, redoscr]
      dsimp only
      rw [rowLine, goTo_screen]
      rfl
    rw [hsame]
    exact ⟨Screenline.redrawn_len _, Screenline.redrawn_data _⟩
  case isFalse =>
    have hline := rowLine_foldl refreshRow_screen d.showScroll (List.range tLines) hrange hnd hi
    rw [if_pos hmem] at hline
    have hrow : d.showScroll.rowLine i = d.rowLine i := by
      rw [rowLine, showScroll_screen]
      rfl
    dsimp only
    rw [rowLine, goTo_screen, ← rowLine, hline, hrow]
    exact ⟨Screenline.refreshed_len _, Screenline.refreshed_data _⟩

/-- In a run of clean calls the terminal shows the lines after every `refresh`. -/
theorem refresh_shows (hn : 0 < tLines) (hn' : tLines < 256) {offsetln : Nat}
    {iscolor showansi automargins : Bool} {tty : Terminal tLines wrapMargin} {d : Display tLines}
    (h : Reach step Clean (start offsetln iscolor showansi automargins tty) d)
    (hC : d.Clean .refresh) :
    d.refresh.Shows ∧ ∀ i < tLines, (d.refresh.rowLine i).len = (d.rowLine i).len ∧
      (d.refresh.rowLine i).data = (d.rowLine i).data := by
  have hinv : d.Inv := h.invariant Inv (inv_start hn ..) fun d e d' hd hCe he => by
    obtain rfl := Option.some.inj he
    exact inv_call hn hn' hd e hCe
  exact ⟨(refresh_spec hn hn' hinv hC).2, fun i hi => rowLine_refresh d hi⟩

/-- In front of a terminal of 24 rows with something on it. -/
def demoStart : Display 24 := start 0 true true true ⟨5, 5, fun _ _ => 120⟩

def demoClean : List ScreenCall :=
  [.outc 97, .outc 98, .outc 99, .outc 10, .move 23 2, .outc 100, .refresh, .move 0 1, .outc 101,
    .clrtoeol, .move 22 0, .refresh, .scroll, .outc 102, .rscroll, .scroll, .move 23 3, .outc 103]

theorem refresh_shows_demo : ∃ d : Display 24,
    d.Shows ∧ (List.range 5).map (d.tty.cell 22) = [32, 32, 100, 32, 32] ∧
      (List.range 5).map (d.tty.cell 23) = [32, 32, 32, 103, 32] := by
  have hrun : Reach.Meets step Clean demoStart demoClean := by
    decide +kernel
  obtain ⟨d, hd, h⟩ := Reach.of_meets _ hrun
  have hend : (demoClean.foldlM step demoStart).map
      (fun d : Display 24 => (decide (d.Clean .refresh),
        (List.range 5).map (d.refresh.tty.cell 22), (List.range 5).map (d.refresh.tty.cell 23))) =
      some (true, [32, 32, 100, 32, 32], [32, 32, 32, 103, 32]) := by decide +kernel
  rw [hd, Option.map_some, Option.some.injEq, Prod.mk.injEq, Prod.mk.injEq] at hend
  exact ⟨d.refresh, (refresh_shows (by decide) (by decide) h (of_decide_eq_true hend.1)).1, hend.2⟩

/-- Printable text within the screen. -/
def Plain (d : Display tLines) : ScreenCall → Prop
  | .move y x => 0 ≤ y ∧ y < tLines ∧ 0 ≤ x ∧ x < wrapMargin
  | .outc c => isprint2 c = true ∧ d.screen.curLn < tLines ∧ d.screen.curCol < wrapMargin
  | _ => True

instance (d : Display tLines) : (e : ScreenCall) → Decidable (d.Plain e)
  | .move .. => inferInstanceAs (Decidable (_ ∧ _ ∧ _ ∧ _))
  | .outc _ => inferInstanceAs (Decidable (_ ∧ _ ∧ _))
  | .clrtoeol | .clrtobot | .clear | .scroll | .rscroll | .refresh => isTrue trivial

/-- A line is emptied, and text is put behind its first columns. -/
def demoGap : List ScreenCall :=
  [.outc 97, .outc 98, .outc 99, .refresh, .move 0 0, .clrtoeol, .move 0 3, .outc 100]

theorem gap_stale : ¬∀ d : Display 24,
    Reach step Plain demoStart d → d.refresh.Shows := by
  intro hclaim
  have hrun : Reach.Meets step Plain demoStart demoGap := by
    decide +kernel
  obtain ⟨d, hd, h⟩ := Reach.of_meets _ hrun
  have hend : (demoGap.foldlM step demoStart).map
      (fun d : Display 24 => (d.refresh.tty.cell 0 0,
        if 0 < (d.refresh.rowLine 0).len then (d.refresh.rowLine 0).data 0 else Terminal.blank)) =
      some (97, 32) := by decide +kernel
  rw [hd, Option.map_some, Option.some.injEq, Prod.mk.injEq] at hend
  have hcell := hclaim d h 0 (by decide) 0 (by decide)
  rw [hend.1, hend.2] at hcell
  exact absurd hcell (by decide)

end Display

end ArgoBbs

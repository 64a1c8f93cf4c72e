import ArgoBbs.Lib.Walk
import ArgoBbs.More

/-! # The segments of a text

`measure_line` over and over cuts the text into segments. It counts a column for each byte that is
printed, goes to the next stop at a tab, and counts nothing from an escape character to the end of
the line (`more.c`). A segment is shown in as many columns as the terminal counts: an escape sequence
`ESC [ ..` up to its letter takes none. -/

namespace ArgoBbs

/-- Whether the terminal has seen the `ESC` or the `ESC [` of an escape sequence. -/
inductive EscState
  | text
  | esc
  | seq
  deriving DecidableEq

def tabStop (w : Nat) : Nat := (w + 8) / 8 * 8

/-- The column behind a piece of text. A character of two bytes takes two columns, one for each. -/
def displayLoop : Bytes → EscState → Nat → Nat
  | [], _, w => w
  | c :: p, st, w =>
    if st = .seq then displayLoop p (if isalpha c then .text else .seq) w
    else if st = .esc ∧ c = 91 then displayLoop p .seq w
    else if c = 27 then displayLoop p .esc w
    else if c = 9 then displayLoop p .text (tabStop w)
    else displayLoop p .text (if isprint2 c then w + 1 else w)

def displayWidth (p : Bytes) : Nat := displayLoop p .text 0

def isLead (c : UInt8) : Bool := c &&& 0x80 ≠ 0

/-- A byte with the high bit and a byte that is printed are a character of two bytes. -/
def isDouble (c d : UInt8) : Bool := isLead c && isprint2 d

/-- The segment of a line. -/
def Line.segment (text : Bytes) (r : Line) : Bytes := (text.drop r.line).take r.s

/-- The lines of the text that `measure_line` gives are segments of it that cover it, each at least
one byte long and no wider than the terminal, and no character is cut into two. -/
def SplitsText (mode : MoreMode) (text : Bytes) : Prop :=
  (∃ lines : List Line, (∀ n, lines[n]? = (lineAt mode text n).filter (·.ty.isText)) ∧
    lines.flatMap (Line.segment text) = text) ∧
  ∀ n r, lineAt mode text n = some r → r.ty.isText = true → 0 < r.s ∧
    Boundary isDouble text (r.line + r.s) ∧ displayWidth (r.segment text) ≤ mode.realcols

/-- The rest of a line from a place on, in the column `w`: no tab leads behind the margin, a line with
an escape character fits as a whole, and the second byte of a character has a column left. `db` says
that `measure_line` takes the next byte for a second one, `isOpen` that it is one; the text is not
cut where it is one. -/
def LineFits (cols : Nat) : Bytes → Nat → Bool → Bool → Prop
  | [], _, _, _ => True
  | c :: p, w, db, isOpen =>
    if c = 10 then True
    else if c = 9 then tabStop w ≤ cols ∧ LineFits cols p (tabStop w) false false
    else if c = 27 then displayLoop (27 :: p.takeWhile (· ≠ 10)) .text w ≤ cols
    else if isprint2 c then
      if db then w < cols ∧ LineFits cols p (w + 1) false (isLead c && !isOpen)
      else if (cols - 1 ≤ w ∧ p.head?.all isLead) ∨ cols ≤ w then isOpen = false
      else LineFits cols p (w + 1) (isLead c) (isLead c && !isOpen)
    else LineFits cols p w db false

/-- The same of a text from a place on, with the lines behind it. `inEsc` says that an escape character
is before in the line; a line that is cut goes on with the next one from the margin. -/
def TextFits (cols : Nat) : Bytes → Nat → Bool → Bool → Bool → Prop
  | [], _, _, _, _ => True
  | c :: p, w, inEsc, db, isOpen =>
    if c = 10 then TextFits cols p 0 false false false
    else if inEsc then TextFits cols p w true db isOpen
    else if c = 9 then tabStop w ≤ cols ∧ TextFits cols p (tabStop w) false false false
    else if c = 27 then
      displayLoop (27 :: p.takeWhile (· ≠ 10)) .text w ≤ cols ∧ TextFits cols p w true false false
    else if isprint2 c then
      if db then w < cols ∧ TextFits cols p (w + 1) false false (isLead c && !isOpen)
      else if (cols - 1 ≤ w ∧ p.head?.all isLead) ∨ cols ≤ w then
        isOpen = false ∧ TextFits cols p 1 false (isLead c) (isLead c)
      else TextFits cols p (w + 1) false (isLead c) (isLead c && !isOpen)
    else TextFits cols p w false db false

section
variable {mode : MoreMode} {text p : Bytes} {c : UInt8} {cols n i w : Nat} {inEsc db isOpen : Bool}
  {st : EscState} {r : Line}

theorem lt_tabStop (w : Nat) : w < tabStop w := by
  rw [tabStop]
  omega

theorem le_displayLoop : w ≤ displayLoop p st w := by
  induction p generalizing st w with
  | nil => exact Nat.le_refl w
  | cons c p ih =>
    have hprint : w ≤ if isprint2 c = true then w + 1 else w := by
      split
      · exact Nat.le_succ w
      · exact Nat.le_refl w
    rw [displayLoop]
    split
    · exact ih
    · split
      · exact ih
      · split
        · exact ih
        · split
          · exact Nat.le_trans (Nat.le_of_lt (lt_tabStop w)) ih
          · exact Nat.le_trans hprint ih

/-- The bytes that a line takes from a place on. -/
def lineCut (cols : Nat) (p : Bytes) (w : Nat) (inEsc db : Bool) : Nat :=
  (measureLoop cols p 0 w inEsc db).2

theorem measureLoop_snd :
    (measureLoop cols p i w inEsc db).2 = lineCut cols p w inEsc db + i := by
  rw [lineCut]
  induction p generalizing i w inEsc db with
  | nil => simp [measureLoop]
  | cons c p ih =>
    have hstep (w : Nat) (inEsc db : Bool) : (measureLoop cols p (i + 1) w inEsc db).2 =
        (measureLoop cols p (0 + 1) w inEsc db).2 + i := by
      rw [ih, @ih (0 + 1)]
      omega
    simp only [measureLoop, apply_ite Prod.snd, hstep, ite_add, Nat.zero_add, Nat.add_comm 1 i]

/-- The cases of the loop. -/
theorem lineCut_cons : lineCut cols (c :: p) w inEsc db =
    if c = 10 then 1
    else if c = 9 then lineCut cols p (tabStop w) inEsc false + 1
    else if c = 27 then lineCut cols p w true false + 1
    else if inEsc then lineCut cols p w inEsc db + 1
    else if isprint2 c then
      if db then lineCut cols p (w + 1) inEsc false + 1
      else if (cols - 1 ≤ w ∧ p.head?.all isLead) ∨ cols ≤ w then 0
      else lineCut cols p (w + 1) inEsc (isLead c) + 1
    else lineCut cols p w inEsc db + 1 := by
  rw [lineCut, measureLoop]
  simp only [apply_ite Prod.snd, measureLoop_snd, tabStop]
  rfl

/-- Behind an escape character only a newline ends the line. -/
theorem lineCut_esc : p.take (lineCut cols p w true db) =
    p.takeWhile (· ≠ 10) ++ (p.dropWhile (· ≠ 10)).take 1 := by
  induction p generalizing w db with
  | nil => rfl
  | cons c p ih =>
    rw [lineCut_cons]
    split
    case isTrue h => simp [h]
    case isFalse h =>
      rw [List.takeWhile_cons, List.dropWhile_cons]
      simp only [h, ne_eq, not_false_eq_true, decide_true, if_true, List.cons_append]
      repeat' split
      all_goals rw [List.take_succ_cons, ih]

theorem isprint2_of_isLead (h : isLead c = true) : isprint2 c = true :=
  (by decide +kernel : ∀ n : Fin 256, isLead (.ofFin n) = true → isprint2 (.ofFin n) = true) c.toFin h

theorem displayLoop_newline : displayLoop (p ++ [10]) st w = displayLoop p st w := by
  induction p generalizing st w with
  | nil => cases st <;> rfl
  | cons c p ih => simp only [List.cons_append, displayLoop, ih]

/-- The rest of a line with an escape character: nothing is cut in two. -/
theorem lineCut_esc_boundary (p : Bytes) :
    ¬(openLead isLead isprint2 isOpen (p.take (lineCut cols p w true db)) = true ∧
      (p[lineCut cols p w true db]?).any isprint2 = true) := by
  induction p generalizing w db isOpen with
  | nil => simp
  | cons c p ih =>
    rw [lineCut_cons]
    split
    case isTrue h =>
      subst h
      rintro ⟨hopen, -⟩
      cases hopen
    case isFalse =>
      rw [if_pos rfl]
      repeat' split
      all_goals exact ih

theorem displayLoop_esc (p : Bytes) :
    displayLoop (27 :: p.take (lineCut cols p w true db)) .text i =
      displayLoop (27 :: p.takeWhile (· ≠ 10)) .text i := by
  rw [lineCut_esc]
  cases hdrop : p.dropWhile (· ≠ 10) with
  | nil => rw [List.take_nil, List.append_nil]
  | cons c q =>
    have hc : c = 10 := by
      have hne : p.dropWhile (· ≠ 10) ≠ [] := by
        rw [hdrop]
        nofun
      have h := List.head_dropWhile_not _ hne
      simp only [hdrop, List.head_cons] at h
      simpa using h
    subst hc
    exact displayLoop_newline

/-- The rest of a line fits just if it is shown before the margin, and what follows it is not the
second byte of a character. -/
theorem lineFits_iff (hw : w ≤ cols) :
    LineFits cols p w db isOpen ↔
      displayLoop (p.take (lineCut cols p w false db)) .text w ≤ cols ∧
        ¬(openLead isLead isprint2 isOpen (p.take (lineCut cols p w false db)) = true ∧
          (p[lineCut cols p w false db]?).any isprint2 = true) := by
  induction p generalizing w db isOpen with
  | nil => simp [LineFits, displayLoop, hw]
  | cons c p ih =>
    rw [LineFits, lineCut_cons]
    have hopen (s : Bytes) : openLead isLead isprint2 isOpen (c :: s) =
        openLead isLead isprint2 (isLead c && !(isOpen && isprint2 c)) s := rfl
    by_cases hnewline : c = 10
    · subst hnewline
      rw [if_pos rfl, if_pos rfl]
      exact iff_of_true trivial ⟨hw, nofun⟩
    rw [if_neg hnewline, if_neg hnewline]
    by_cases htab : c = 9
    · subst htab
      rw [if_pos rfl, if_pos rfl, List.take_succ_cons, hopen, List.getElem?_cons_succ]
      change tabStop w ≤ cols ∧ _ ↔ displayLoop _ .text (tabStop w) ≤ cols ∧ _
      constructor
      · rintro ⟨hstop, h⟩
        exact (ih hstop).mp h
      · intro h
        have hstop : tabStop w ≤ cols := Nat.le_trans le_displayLoop h.1
        exact ⟨hstop, (ih hstop).mpr h⟩
    rw [if_neg htab, if_neg htab]
    by_cases hesc : c = 27
    · subst hesc
      rw [if_pos rfl, if_pos rfl, List.take_succ_cons, List.getElem?_cons_succ, displayLoop_esc]
      exact (and_iff_left (lineCut_esc_boundary p)).symm
    rw [if_neg hesc, if_neg hesc, if_neg Bool.false_ne_true]
    have hdisplay (s : Bytes) : displayLoop (c :: s) .text w =
        displayLoop s .text (if isprint2 c then w + 1 else w) := by
      rw [displayLoop, if_neg nofun, if_neg (by nofun), if_neg hesc, if_neg htab]
    by_cases hprint : isprint2 c = true
    · rw [if_pos hprint, if_pos hprint]
      rw [hprint, Bool.and_true] at hopen
      cases db with
      | true =>
        rw [if_pos rfl, if_pos rfl, List.take_succ_cons, hopen, List.getElem?_cons_succ, hdisplay,
          if_pos hprint]
        constructor
        · rintro ⟨hlt, h⟩
          exact (ih hlt).mp h
        · intro h
          have hlt : w + 1 ≤ cols := Nat.le_trans le_displayLoop h.1
          exact ⟨hlt, (ih hlt).mpr h⟩
      | false =>
        rw [if_neg Bool.false_ne_true, if_neg Bool.false_ne_true]
        by_cases hstop : (cols - 1 ≤ w ∧ p.head?.all isLead = true) ∨ cols ≤ w
        · rw [if_pos hstop, if_pos hstop]
          simp [openLead, displayLoop, hw, hprint]
        · have hlt : w + 1 ≤ cols := Nat.lt_of_not_le fun h => hstop (.inr h)
          rw [if_neg hstop, if_neg hstop, List.take_succ_cons, hopen, List.getElem?_cons_succ,
            hdisplay, if_pos hprint]
          exact ih hlt
    · have hlead : isLead c = false := by
        rw [← Bool.not_eq_true]
        exact fun h => hprint (isprint2_of_isLead h)
      rw [if_neg hprint, if_neg hprint, List.take_succ_cons, hopen, List.getElem?_cons_succ,
        hdisplay, if_neg hprint, hlead, Bool.false_and]
      exact ih hw

/-! ## The lines one after the other -/

/-- A line of the text. -/
def textLine (mode : MoreMode) (text : Bytes) (n : Nat) : Option Line :=
  (lineAt mode text n).filter (·.ty.isText)

theorem textLine_eq_some_iff :
    textLine mode text n = some r ↔ lineAt mode text n = some r ∧ r.ty.isText = true :=
  Option.filter_eq_some_iff

/-- Where there is text left, `measure_line` gives a line of it. -/
theorem measureLine_of_lt (mode : MoreMode) {p0 : Nat} (oldty : LineCode)
    (hlt : p0 < text.length) :
    ∃ r, measureLine mode text p0 (text.length - p0 : Int) oldty = some r ∧ r.ty.isText = true ∧
      r.line = p0 ∧ r.s = lineCut mode.realcols (text.drop p0) 0 false false := by
  have hsize : (text.length - p0 : Int).toNat = (text.drop p0).length := by
    rw [List.length_drop]
    omega
  rw [measureLine, if_neg (by omega), hsize, List.take_length]
  exact ⟨_, rfl, isText_lineType .., rfl, rfl⟩

/-- What is known of a line of the text from where it starts. -/
structure StartsAt (mode : MoreMode) (text : Bytes) (p0 : Nat) (r : Line) : Prop where
  line : r.line = p0
  lt_length : p0 < text.length
  pos : 0 < r.s
  le_length : p0 + r.s ≤ text.length
  cut : r.s = lineCut mode.realcols (text.drop p0) 0 false false

theorem measureLine_isText {p0 : Nat} {oldty : LineCode} (hcols : 2 ≤ mode.realcols)
    (hle : p0 ≤ text.length) (h : measureLine mode text p0 (text.length - p0 : Int) oldty = some r)
    (hty : r.ty.isText = true) : StartsAt mode text p0 r := by
  obtain ⟨hline, ⟨hlt, hpos, hend, -⟩ | ⟨-, -, hno, -⟩⟩ := measureLine_cases hcols hle h
  · obtain ⟨q, hq, -, -, hcut⟩ := measureLine_of_lt mode oldty hlt
    rw [h] at hq
    cases hq
    exact ⟨hline, hlt, hpos, hend, hcut⟩
  · rw [hty] at hno
    cases hno

theorem textLine_zero (hcols : 2 ≤ mode.realcols) (h : textLine mode text 0 = some r) :
    StartsAt mode text 0 r := by
  obtain ⟨h, hty⟩ := textLine_eq_some_iff.mp h
  have hfirst : measureLine mode text 0 (text.length - (0 : Nat) : Int) .normal = some r := by
    rw [Int.natCast_zero, Int.sub_zero]
    exact h
  exact measureLine_isText hcols (Nat.zero_le _) hfirst hty

theorem textLine_succ (hcols : 2 ≤ mode.realcols) (h : textLine mode text (n + 1) = some r) :
    ∃ q, textLine mode text n = some q ∧ StartsAt mode text (q.line + q.s) r := by
  obtain ⟨h, hty⟩ := textLine_eq_some_iff.mp h
  obtain ⟨q, hq, h⟩ := Option.bind_eq_some_iff.mp h
  obtain ⟨hle, hend, -⟩ := lineAt_bounds hcols hq
  have hstarts := measureLine_isText hcols hle h hty
  have hqty : q.ty.isText = true := by
    rw [← Bool.not_eq_false]
    exact fun hno => absurd (hend hno) (Nat.ne_of_lt hstarts.lt_length)
  exact ⟨q, textLine_eq_some_iff.mpr ⟨hq, hqty⟩, hstarts⟩

theorem textLine_startsAt (hcols : 2 ≤ mode.realcols) (h : textLine mode text n = some r) :
    StartsAt mode text r.line r := by
  cases n with
  | zero =>
    have hstarts := textLine_zero hcols h
    rwa [hstarts.line]
  | succ n =>
    obtain ⟨q, -, hstarts⟩ := textLine_succ hcols h
    rwa [hstarts.line]

theorem exists_textLine_zero (mode : MoreMode) (hne : text ≠ []) :
    ∃ r, textLine mode text 0 = some r := by
  obtain ⟨r, hr, hty, -⟩ := measureLine_of_lt mode .normal (List.length_pos_iff.mpr hne)
  rw [Int.natCast_zero, Int.sub_zero] at hr
  exact ⟨r, textLine_eq_some_iff.mpr ⟨hr, hty⟩⟩

/-- A line of the text is followed by one unless it ends with the text. -/
theorem textLine_next (h : textLine mode text n = some r) (hlt : r.line + r.s < text.length) :
    ∃ q, textLine mode text (n + 1) = some q := by
  obtain ⟨h, -⟩ := textLine_eq_some_iff.mp h
  obtain ⟨q, hq, hty, -⟩ := measureLine_of_lt mode r.ty hlt
  exact ⟨q, textLine_eq_some_iff.mpr ⟨Option.bind_eq_some_iff.mpr ⟨r, h, hq⟩, hty⟩⟩

/-- The first lines of the text are its beginning. -/
theorem textLine_prefix (hcols : 2 ≤ mode.realcols) (h : textLine mode text n = some r) :
    ∃ lines : List Line, lines.length = n + 1 ∧
      (∀ k ≤ n, lines[k]? = textLine mode text k) ∧
      lines.flatMap (Line.segment text) = text.take (r.line + r.s) := by
  induction n generalizing r with
  | zero =>
    have hstarts := textLine_zero hcols h
    refine ⟨[r], rfl, fun k hk => ?_, ?_⟩
    · rw [Nat.le_zero.mp hk, h]
      rfl
    · simp [Line.segment, hstarts.line]
  | succ n ih =>
    obtain ⟨q, hq, hstarts⟩ := textLine_succ hcols h
    obtain ⟨lines, hlen, hget, hflat⟩ := ih hq
    refine ⟨lines ++ [r], by simp [hlen], fun k hk => ?_, ?_⟩
    · rcases Nat.eq_or_lt_of_le hk with rfl | hlt
      · rw [← hlen, List.getElem?_concat_length, hlen, h]
      · rw [List.getElem?_append_left (by omega)]
        exact hget k (by omega)
    · rw [List.flatMap_append, hflat, List.flatMap_singleton, Line.segment, hstarts.line,
        ← List.take_add]

theorem textLine_none_mono (hcols : 2 ≤ mode.realcols) {m : Nat} (h : textLine mode text n = none)
    (hnm : n ≤ m) : textLine mode text m = none := by
  induction hnm with
  | refl => exact h
  | step _ ih =>
    rw [Option.eq_none_iff_forall_ne_some]
    intro r hr
    obtain ⟨q, hq, -⟩ := textLine_succ hcols hr
    rw [ih] at hq
    cases hq

/-- The lines of the text cover it. -/
theorem textLine_cover (hcols : 2 ≤ mode.realcols) (text : Bytes) :
    ∃ lines : List Line, (∀ n, lines[n]? = textLine mode text n) ∧
      lines.flatMap (Line.segment text) = text := by
  have hend : ∃ n, textLine mode text n = none := by
    obtain ⟨L, hL⟩ := exists_lines hcols text
    have hnone : lineAt mode text L = none := by
      rw [← Option.not_isSome_iff_eq_none, hL]
      exact Nat.lt_irrefl L
    exact ⟨L, by rw [textLine, hnone]; rfl⟩
  have hfirst := Nat.find_spec hend
  have hmin {m : Nat} (hm : m < Nat.find hend) : textLine mode text m ≠ none := Nat.find_min hend hm
  cases hL : Nat.find hend with
  | zero =>
    rw [hL] at hfirst
    have htext : text = [] := by
      by_contra hne
      obtain ⟨r, hr⟩ := exists_textLine_zero mode hne
      rw [hfirst] at hr
      cases hr
    exact ⟨[], fun n => (textLine_none_mono hcols hfirst (Nat.zero_le n)).symm, htext.symm⟩
  | succ m =>
    rw [hL] at hfirst
    obtain ⟨r, hr⟩ := Option.ne_none_iff_exists'.mp (hmin (by rw [hL]; exact Nat.lt_succ_self m))
    obtain ⟨lines, hlen, hget, hflat⟩ := textLine_prefix hcols hr
    have hstarts := textLine_startsAt hcols hr
    have hlast : r.line + r.s = text.length := by
      refine Nat.le_antisymm hstarts.le_length (Nat.le_of_not_lt fun hlt => ?_)
      obtain ⟨q, hq⟩ := textLine_next hr hlt
      rw [hfirst] at hq
      cases hq
    refine ⟨lines, fun n => ?_, by rw [hflat, hlast, List.take_length]⟩
    rcases Nat.lt_or_ge m n with hlt | hge
    · rw [List.getElem?_eq_none (by omega), textLine_none_mono hcols hfirst hlt]
    · exact hget n hge

/-- One line: if it starts where a character does, then it is right just if it fits. -/
theorem segment_iff (hstarts : StartsAt mode text r.line r)
    (hboundary : Boundary isDouble text r.line) :
    LineFits mode.realcols (text.drop r.line) 0 false false ↔
      Boundary isDouble text (r.line + r.s) ∧ displayWidth (r.segment text) ≤ mode.realcols := by
  have hopen : openLead isLead isprint2 false (text.take (r.line + r.s)) =
      openLead isLead isprint2 false ((text.drop r.line).take r.s) :=
    openLead_take_add hboundary hstarts.lt_length hstarts.pos
  have hend : Boundary isDouble text (r.line + r.s) ↔
      ¬(openLead isLead isprint2 false (text.take (r.line + r.s)) = true ∧
        (text[r.line + r.s]?).any isprint2 = true) := boundary_iff hstarts.le_length
  rw [lineFits_iff (Nat.zero_le _), ← hstarts.cut, hend, hopen, List.getElem?_drop, and_comm]
  rfl

/-- The text is split right just if every line of it fits from where it starts. -/
theorem splitsText_iff (text : Bytes) (hcols : 2 ≤ mode.realcols) :
    SplitsText mode text ↔ ∀ n r, lineAt mode text n = some r → r.ty.isText = true →
      LineFits mode.realcols (text.drop r.line) 0 false false := by
  constructor
  · rintro ⟨-, hgood⟩ n r h hty
    have hline := textLine_eq_some_iff.mpr ⟨h, hty⟩
    have hstarts := textLine_startsAt hcols hline
    have hboundary : Boundary isDouble text r.line := by
      cases n with
      | zero =>
        rw [(textLine_zero hcols hline).line]
        exact .refl
      | succ n =>
        obtain ⟨q, hq, hq'⟩ := textLine_succ hcols hline
        obtain ⟨hq, hqty⟩ := textLine_eq_some_iff.mp hq
        rw [hq'.line]
        exact (hgood n q hq hqty).2.1
    exact (segment_iff hstarts hboundary).mpr (hgood n r h hty).2
  · intro hfits
    have hboth (n : Nat) : ∀ r, textLine mode text n = some r →
        Boundary isDouble text r.line ∧ Boundary isDouble text (r.line + r.s) ∧
          displayWidth (r.segment text) ≤ mode.realcols := by
      induction n with
      | zero =>
        intro r hr
        obtain ⟨h, hty⟩ := textLine_eq_some_iff.mp hr
        have hboundary : Boundary isDouble text r.line := by
          rw [(textLine_zero hcols hr).line]
          exact .refl
        exact ⟨hboundary, (segment_iff (textLine_startsAt hcols hr) hboundary).mp (hfits 0 r h hty)⟩
      | succ n ih =>
        intro r hr
        obtain ⟨h, hty⟩ := textLine_eq_some_iff.mp hr
        obtain ⟨q, hq, hq'⟩ := textLine_succ hcols hr
        have hboundary : Boundary isDouble text r.line := by
          rw [hq'.line]
          exact (ih q hq).2.1
        exact ⟨hboundary,
          (segment_iff (textLine_startsAt hcols hr) hboundary).mp (hfits (n + 1) r h hty)⟩
    refine ⟨textLine_cover hcols text, fun n r h hty => ?_⟩
    have hline := textLine_eq_some_iff.mpr ⟨h, hty⟩
    exact ⟨(textLine_startsAt hcols hline).pos, (hboth n r hline).2⟩

/-- Behind an escape character the line goes on to its newline. -/
theorem textFits_esc {w' : Nat} {db' : Bool} : TextFits cols p w true db isOpen ↔
    TextFits cols (p.drop (lineCut cols p w' true db')) 0 false false false := by
  induction p generalizing w db isOpen w' db' with
  | nil =>
    rw [List.drop_nil]
    exact Iff.rfl
  | cons c p ih =>
    rw [TextFits, lineCut_cons]
    by_cases hnewline : c = 10
    · rw [if_pos hnewline, if_pos hnewline]
      exact Iff.rfl
    · rw [if_neg hnewline, if_neg hnewline, if_pos rfl, if_pos rfl]
      repeat' split
      all_goals
        rw [List.drop_succ_cons]
        exact ih

/-- The rest of a line and the lines behind it. -/
theorem textFits_line (hcols : 2 ≤ cols) : TextFits cols p w false db isOpen ↔
    LineFits cols p w db isOpen ∧
      TextFits cols (p.drop (lineCut cols p w false db)) 0 false false false := by
  induction p generalizing w db isOpen with
  | nil =>
    rw [List.drop_nil]
    exact (and_iff_left trivial).symm
  | cons c p ih =>
    rw [TextFits, LineFits, lineCut_cons]
    by_cases hnewline : c = 10
    · rw [if_pos hnewline, if_pos hnewline, if_pos hnewline, true_and]
      exact Iff.rfl
    rw [if_neg hnewline, if_neg hnewline, if_neg hnewline, if_neg Bool.false_ne_true]
    by_cases htab : c = 9
    · rw [if_pos htab, if_pos htab, if_pos htab, List.drop_succ_cons, ih, and_assoc]
    rw [if_neg htab, if_neg htab, if_neg htab]
    by_cases hesc : c = 27
    · rw [if_pos hesc, if_pos hesc, if_pos hesc, List.drop_succ_cons]
      exact and_congr_right fun _ => textFits_esc
    rw [if_neg hesc, if_neg hesc, if_neg hesc, if_neg Bool.false_ne_true]
    by_cases hprint : isprint2 c = true
    · rw [if_pos hprint, if_pos hprint, if_pos hprint]
      cases db with
      | true =>
        rw [if_pos rfl, if_pos rfl, if_pos rfl, List.drop_succ_cons, ih, and_assoc]
      | false =>
        rw [if_neg Bool.false_ne_true, if_neg Bool.false_ne_true, if_neg Bool.false_ne_true]
        by_cases hstop : (cols - 1 ≤ w ∧ p.head?.all isLead = true) ∨ cols ≤ w
        · have hgo : ¬((cols - 1 ≤ 0 ∧ p.head?.all isLead = true) ∨ cols ≤ 0) := by omega
          rw [if_pos hstop, if_pos hstop, if_pos hstop, List.drop_zero, TextFits,
            if_neg hnewline, if_neg Bool.false_ne_true, if_neg htab, if_neg hesc, if_pos hprint,
            if_neg Bool.false_ne_true, if_neg hgo, Bool.not_false, Bool.and_true]
        · rw [if_neg hstop, if_neg hstop, if_neg hstop, List.drop_succ_cons, ih]
    · rw [if_neg hprint, if_neg hprint, if_neg hprint, List.drop_succ_cons, ih]

/-- What is left of the text where a line starts. -/
theorem textFits_startsAt {p0 : Nat} (hcols : 2 ≤ mode.realcols) (h : StartsAt mode text p0 r) :
    TextFits mode.realcols (text.drop p0) 0 false false false ↔
      LineFits mode.realcols (text.drop p0) 0 false false ∧
        TextFits mode.realcols (text.drop (p0 + r.s)) 0 false false false := by
  rw [textFits_line hcols, ← h.cut, List.drop_drop]

/-- All lines from one on fit. -/
theorem textFits_of_lines (hcols : 2 ≤ mode.realcols)
    (hfits : ∀ n r, textLine mode text n = some r →
      LineFits mode.realcols (text.drop r.line) 0 false false)
    (h : textLine mode text n = some r) :
    TextFits mode.realcols (text.drop r.line) 0 false false false := by
  induction hlen : text.length - r.line using Nat.strong_induction_on generalizing n r with
  | _ len ih =>
    have hstarts := textLine_startsAt hcols h
    refine (textFits_startsAt hcols hstarts).mpr ⟨hfits n r h, ?_⟩
    rcases Nat.lt_or_ge (r.line + r.s) text.length with hlt | hge
    · obtain ⟨q, hq⟩ := textLine_next h hlt
      obtain ⟨r', hr', hq'⟩ := textLine_succ hcols hq
      obtain rfl : r = r' := Option.some.inj (h.symm.trans hr')
      have hpos := hstarts.pos
      rw [← hq'.line]
      refine ih (text.length - q.line) ?_ hq rfl
      rw [hq'.line]
      omega
    · rw [List.drop_of_length_le hge]
      trivial

/-- The text is split right just if it fits. -/
theorem measure_line_iff (text : Bytes) (hcols : 2 ≤ mode.realcols) :
    SplitsText mode text ↔ TextFits mode.realcols text 0 false false false := by
  rw [splitsText_iff text hcols]
  have hlines : (∀ n r, lineAt mode text n = some r → r.ty.isText = true →
      LineFits mode.realcols (text.drop r.line) 0 false false) ↔
        ∀ n r, textLine mode text n = some r →
          LineFits mode.realcols (text.drop r.line) 0 false false := by
    simp only [textLine_eq_some_iff, and_imp]
  rw [hlines]
  constructor
  · intro hfits
    by_cases hne : text = []
    · rw [hne]
      trivial
    · obtain ⟨r, hr⟩ := exists_textLine_zero mode hne
      have htext := textFits_of_lines hcols hfits hr
      rwa [(textLine_zero hcols hr).line] at htext
  · intro htext n r h
    have hall : TextFits mode.realcols (text.drop r.line) 0 false false false := by
      induction n generalizing r with
      | zero => rwa [(textLine_zero hcols h).line]
      | succ n ih =>
        obtain ⟨q, hq, hstarts⟩ := textLine_succ hcols h
        rw [hstarts.line]
        exact ((textFits_startsAt hcols (textLine_startsAt hcols hq)).mp (ih q hq)).2
    exact ((textFits_startsAt hcols (textLine_startsAt hcols h)).mp hall).1

/-- A character of two bytes in the middle of a text that is longer than a line. -/
theorem measure_line_double : SplitsText ⟨4, false, none⟩ [0x61, 0xb0, 0xa1, 0xb0, 0xa1, 10] :=
  (measure_line_iff _ (by decide)).mpr (by simp +decide [TextFits])

/-- What follows an escape sequence goes on behind the margin. -/
theorem measure_line_escape : ¬∀ (mode : MoreMode) (text : Bytes), 2 ≤ mode.realcols →
    SplitsText mode text := by
  intro h
  obtain ⟨-, hgood⟩ := h ⟨2, false, none⟩ (27 :: bytes "[mabc") (by decide)
  have hline : lineAt ⟨2, false, none⟩ (27 :: bytes "[mabc") 0 = some ⟨0, 6, 6, .normalNocf⟩ := by
    decide
  exact absurd (hgood 0 _ hline rfl).2.2 (by decide)

end

end ArgoBbs

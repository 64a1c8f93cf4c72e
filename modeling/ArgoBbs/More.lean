import ArgoBbs.Lib.CString
import ArgoBbs.Lib.Window

/-! # The lines of the pager

The pager divides a text into lines of the screen with `measure_line`, and keeps at most 100 of
them, with their numbers, in a ring (`more.c`). Behind a text with attachments there are three lines
of size 0. `lastspace` and `asciiart` of `measure_line` are set but not used. -/

namespace ArgoBbs

/-- `enum LINE_CODE` -/
inductive LineCode
  | normal
  | normalNocf
  | quota
  | quotaNocf
  | attachment
  | attachlink
  | attachalink
  deriving DecidableEq

namespace LineCode

/-- `oldty < LINE_ATTACHMENT` -/
def isText : LineCode → Bool
  | .normal | .normalNocf | .quota | .quotaNocf => true
  | _ => false

/-- The lines behind the text come in this order. -/
def rank : LineCode → Nat
  | .attachment => 1
  | .attachlink => 2
  | .attachalink => 3
  | _ => 0

theorem rank_le (ty : LineCode) : ty.rank ≤ 3 := by
  cases ty <;> decide

theorem rank_of_isText {ty : LineCode} (h : ty.isText = true) : ty.rank = 0 := by
  cases ty <;> first | rfl | cases h

/-- `ty < 2` -/
def isPlain : LineCode → Bool
  | .normal | .normalNocf => true
  | _ => false

end LineCode

/-- What `measure_line` looks at besides its arguments: `t_realcols`, and whether `moremode` has
`MORE_ATTACHMENT` and there is a `linkinfo`. -/
structure MoreMode where
  realcols : Nat
  attachment : Bool
  linkinfo : Option Bytes

/-- A line: where it starts, the length shown, the bytes it takes, and its type. -/
structure Line where
  line : Nat
  len : Nat
  s : Nat
  ty : LineCode
  deriving DecidableEq

instance : Inhabited Line := ⟨⟨0, 0, 0, .normal⟩⟩

/-- `BUFFERCOUNT` -/
def bufferCount : Nat := 100

/-- The loop of `measure_line`: the length shown and the bytes taken. `db` says that the byte before
was the first one of a Chinese character. -/
def measureLoop (realcols : Nat) : Bytes → Nat → Nat → Bool → Bool → Nat × Nat
  | [], i, _, _, _ => (i, i)
  | c :: p, i, w, inEsc, db =>
    if c = 10 then (i, i + 1)
    else if c = 9 then measureLoop realcols p (i + 1) ((w + 8) / 8 * 8) inEsc false
    else if c = 27 then measureLoop realcols p (i + 1) w true false
    else if inEsc then measureLoop realcols p (i + 1) w inEsc db
    else if isprint2 c then
      if db then measureLoop realcols p (i + 1) (w + 1) inEsc false
      else if (realcols - 1 ≤ w ∧ p.head?.all (· &&& 0x80 ≠ 0)) ∨ realcols ≤ w then (i, i)
      else measureLoop realcols p (i + 1) (w + 1) inEsc (c &&& 0x80 ≠ 0)
    else measureLoop realcols p (i + 1) w inEsc db

/-- The type of a line of the text; one that goes on is of the kind of the line before. -/
def lineType (p : Bytes) (l s : Nat) (oldty : LineCode) : LineCode :=
  let quota := 2 ≤ l ∧ p.take 2 = bytes ": "
  if 0 < s ∧ p[s - 1]? = some 10 then
    match oldty with
    | .normalNocf => .normal
    | .quotaNocf => .quota
    | _ => if quota then .quota else .normal
  else
    match oldty with
    | .normalNocf => .normalNocf
    | .quotaNocf => .quotaNocf
    | _ => if quota then .quotaNocf else .normalNocf

/-- `measure_line` at the place `p0` of the text with `size` bytes left. -/
def measureLine (mode : MoreMode) (text : Bytes) (p0 : Nat) (size : Int) (oldty : LineCode) :
    Option Line :=
  if size ≤ 0 then
    if size ≠ 0 ∨ mode.attachment = false ∨ mode.linkinfo = none then none
    else if oldty.isText then some ⟨p0, 0, 0, .attachment⟩
    else if oldty = .attachment then some ⟨p0, 0, 0, .attachlink⟩
    else if oldty = .attachlink then some ⟨p0, 0, 0, .attachalink⟩
    else none
  else
    let p := (text.drop p0).take size.toNat
    let (l, s) := measureLoop mode.realcols p 0 0 false false
    some ⟨p0, l, s, lineType p l s oldty⟩

/-- `struct MemMoreLines`, and `effectiveline`. -/
structure MemMoreLines where
  ptr : Bytes
  ring : Nat → Line
  start : Nat
  num : Nat
  currLine : Nat
  curr : Nat
  currty : LineCode
  currlen : Nat
  total : Nat
  effectiveline : Int

namespace MemMoreLines

def size (m : MemMoreLines) : Int := m.ptr.length

/-- The cursor is put on the line. -/
def setCurr (m : MemMoreLines) (n : Nat) : MemMoreLines :=
  let r := m.ring (n % bufferCount)
  { m with currLine := n, curr := r.line, currlen := r.len, currty := r.ty }

/-- A line is written behind the last one; if it is not there, just its place. -/
def write (m : MemMoreLines) (p0 : Nat) (r : Option Line) : MemMoreLines :=
  let u := (m.start + m.num) % bufferCount
  { m with ring := Function.update m.ring u (r.getD { m.ring u with line := p0 }) }

/-- The count of lines with something to say, up to the signature; negative from there on. -/
def countLine (text : Bytes) (num : Nat) (r : Line) (effectiveline : Int) : Int :=
  if 0 ≤ effectiveline then
    if 2 ≤ r.len ∧ (text.drop r.line).take 2 = bytes "--" then -effectiveline
    else if 3 < num ∧ 2 ≤ r.len ∧ r.ty.isPlain then effectiveline + 1 else effectiveline
  else effectiveline

/-- The loop of `init_MemMoreLines`, with the rounds left, and the bytes left at its end. -/
def initLoop (mode : MoreMode) : Nat → MemMoreLines → Nat → Int → LineCode → MemMoreLines × Int
  | 0, m, _, s, _ => (m, s)
  | k + 1, m, p0, s, oldty =>
    if s < 0 then (m, s)
    else
      match measureLine mode m.ptr p0 s oldty with
      | none => (m.write p0 none, s)
      | some r =>
        let m := { m.write p0 (some r) with
          num := m.num + 1, effectiveline := countLine m.ptr (m.num + 1) r m.effectiveline }
        initLoop mode k m (r.line + r.s) (s - r.s) r.ty

/-- `init_MemMoreLines`, over whatever the structure has held. -/
def init (mode : MoreMode) (m : MemMoreLines) (ptr : Bytes) : MemMoreLines :=
  let (m, s) := initLoop mode 25
    { m with ptr, start := 0, num := 0, total := 0, effectiveline := 0 } 0 ptr.length .normal
  { m with
    effectiveline := m.effectiveline.natAbs
    total := if s = 0 then m.num else m.total }.setCurr 0

/-- The line behind the last one of the window is measured, and the cursor put on it. -/
def measureNext (mode : MoreMode) (m : MemMoreLines) (last : Line) : MemMoreLines × Int :=
  let p0 := last.line + last.s
  match measureLine mode m.ptr p0 (m.size - p0) last.ty with
  | none => (m.write p0 none, -1)
  | some r =>
    let m := { m.write p0 (some r) with
      num := m.num + 1
      total := if m.size - p0 = r.s then m.start + m.num + 1 else m.total }
    (m.setCurr (m.currLine + 1), m.currLine + 1)

/-- `next_MemMoreLines` -/
def next (mode : MoreMode) (m : MemMoreLines) : MemMoreLines × Int :=
  if m.start + m.num ≤ m.currLine + 1 then
    let last := m.ring ((m.start + m.num - 1) % bufferCount)
    let m := if m.num = bufferCount then { m with start := m.start + 1, num := m.num - 1 } else m
    m.measureNext mode last
  else (m.setCurr (m.currLine + 1), m.currLine + 1)

/-- The loop of `seek_MemMoreLines`, for `fuel` rounds. -/
def seekLoop (mode : MoreMode) (n : Nat) : Nat → MemMoreLines → Option (MemMoreLines × Int)
  | 0, _ => none
  | fuel + 1, m =>
    if m.currLine = n then some (m, m.currLine)
    else
      let (m, r) := m.next mode
      if r < 0 then some (m, -1) else seekLoop mode n fuel m

/-- `seek_MemMoreLines` for a line number; the loop needs a round for each line. -/
def seekTo (mode : MoreMode) (m : MemMoreLines) (n : Nat) : Option (MemMoreLines × Int) :=
  let m := if n < m.start then { m.init mode m.ptr with total := m.total } else m
  if n < m.start + m.num then some (m.setCurr n, n) else seekLoop mode n (n + 1) m

def seek (mode : MoreMode) (m : MemMoreLines) (n : Int) : Option (MemMoreLines × Int) :=
  if n < 0 then (m.seekTo mode 0).map fun (m, _) => (m, -1) else m.seekTo mode n.toNat

end MemMoreLines

/-! ## The lines of a text -/

section
variable {mode : MoreMode} {text p : Bytes} {n i w l s realcols : Nat} {size : Int} {r : Line}

theorem measureLoop_bounds {inEsc db : Bool} (h : measureLoop realcols p i w inEsc db = (l, s)) :
    i ≤ s ∧ s ≤ i + p.length := by
  induction p generalizing i w inEsc db with
  | nil =>
    obtain ⟨-, rfl⟩ := Prod.mk.inj h
    exact ⟨Nat.le_refl _, Nat.le_refl _⟩
  | cons c p ih =>
    have hstep {w : Nat} {inEsc db : Bool}
        (h : measureLoop realcols p (i + 1) w inEsc db = (l, s)) :
        i ≤ s ∧ s ≤ i + (c :: p).length := by
      obtain ⟨h₁, h₂⟩ := ih h
      rw [List.length_cons]
      omega
    rw [measureLoop] at h
    split at h
    · obtain ⟨-, rfl⟩ := Prod.mk.inj h
      rw [List.length_cons]
      omega
    · repeat' split at h
      all_goals first
        | exact hstep h
        | (obtain ⟨-, rfl⟩ := Prod.mk.inj h
           exact ⟨Nat.le_refl _, Nat.le_add_right ..⟩)

/-- A line of a text takes a byte at least. -/
theorem measureLoop_pos (hcols : 2 ≤ realcols) (hp : p ≠ [])
    (h : measureLoop realcols p 0 0 false false = (l, s)) : 0 < s := by
  cases p with
  | nil => exact absurd rfl hp
  | cons c p =>
    have hstep {w : Nat} {inEsc db : Bool}
        (h : measureLoop realcols p (0 + 1) w inEsc db = (l, s)) : 0 < s :=
      (measureLoop_bounds h).1
    rw [measureLoop] at h
    split at h
    · obtain ⟨-, rfl⟩ := Prod.mk.inj h
      exact Nat.one_pos
    · repeat' split at h
      all_goals first
        | exact hstep h
        | omega

theorem isText_lineType (p : Bytes) (l s : Nat) (oldty : LineCode) :
    (lineType p l s oldty).isText = true := by
  unfold lineType
  dsimp only
  repeat' split
  all_goals rfl

/-- A line is one of the text, which takes a byte at least, or one of the lines behind it. -/
theorem measureLine_cases {p0 : Nat} {oldty : LineCode} (hcols : 2 ≤ mode.realcols)
    (hle : p0 ≤ text.length)
    (h : measureLine mode text p0 (text.length - p0 : Int) oldty = some r) :
    r.line = p0 ∧ (p0 < text.length ∧ 0 < r.s ∧ p0 + r.s ≤ text.length ∧ r.ty.isText = true ∨
      p0 = text.length ∧ r.s = 0 ∧ r.ty.isText = false ∧ r.ty.rank = oldty.rank + 1) := by
  unfold measureLine at h
  split at h
  · have hend : p0 = text.length := by omega
    repeat' split at h
    · cases h
    · rename_i hty
      rw [← Option.some.inj h]
      exact ⟨rfl, .inr ⟨hend, rfl, rfl, by rw [LineCode.rank_of_isText hty]; rfl⟩⟩
    · rename_i hty
      rw [← Option.some.inj h, hty]
      exact ⟨rfl, .inr ⟨hend, rfl, rfl, rfl⟩⟩
    · rename_i hty
      rw [← Option.some.inj h, hty]
      exact ⟨rfl, .inr ⟨hend, rfl, rfl, rfl⟩⟩
    · cases h
  · have hlen : ((text.drop p0).take (text.length - p0 : Int).toNat).length =
        text.length - p0 := by
      rw [List.length_take, List.length_drop]
      omega
    dsimp only at h
    cases hloop : measureLoop mode.realcols
        ((text.drop p0).take (text.length - p0 : Int).toNat) 0 0 false false with
    | mk l s =>
      rw [hloop] at h
      rw [← Option.some.inj h]
      have hpos := measureLoop_pos hcols (List.ne_nil_of_length_pos (by omega)) hloop
      obtain ⟨-, hs⟩ := measureLoop_bounds hloop
      exact ⟨rfl, .inl ⟨by omega, hpos, by dsimp only; omega, isText_lineType ..⟩⟩

/-- The lines by `measure_line` over and over, from the top of the text. -/
def lineAt (mode : MoreMode) (text : Bytes) : Nat → Option Line :=
  chain (measureLine mode text 0 text.length .normal) fun r =>
    measureLine mode text (r.line + r.s) (text.length - (r.line + r.s : Nat)) r.ty

/-- The lines up to one take a byte each, and those behind the text come in their order. -/
theorem lineAt_bounds (hcols : 2 ≤ mode.realcols) (h : lineAt mode text n = some r) :
    r.line + r.s ≤ text.length ∧ (r.ty.isText = false → r.line + r.s = text.length) ∧
      n + 1 ≤ r.line + r.s + r.ty.rank := by
  induction n generalizing r with
  | zero =>
    have h₀ : measureLine mode text 0 (text.length - (0 : Nat) : Int) .normal = some r := by
      rw [Int.natCast_zero, Int.sub_zero]
      exact h
    obtain ⟨hline, ⟨-, hs, hle, hty⟩ | ⟨hend, hs, -, hrank⟩⟩ :=
      measureLine_cases hcols (Nat.zero_le _) h₀
    · exact ⟨by omega, fun hno => absurd hty (hno ▸ Bool.false_ne_true), by omega⟩
    · rw [hline, hs, hrank]
      exact ⟨by omega, fun _ => hend, by omega⟩
  | succ n ih =>
    obtain ⟨q, hq, h⟩ := Option.bind_eq_some_iff.mp h
    obtain ⟨hle, hend, hn⟩ := ih hq
    obtain ⟨hline, ⟨hlt, hs, hle', hty⟩ | ⟨hlast, hs, -, hrank⟩⟩ := measureLine_cases hcols hle h
    · have hqty : q.ty.isText = true := by
        rw [← Bool.not_eq_false]
        exact fun hno => absurd (hend hno) (Nat.ne_of_lt hlt)
      rw [LineCode.rank_of_isText hqty] at hn
      exact ⟨by omega, fun hno => absurd hty (hno ▸ Bool.false_ne_true), by omega⟩
    · rw [hline, hs, hrank]
      exact ⟨by omega, fun _ => hlast, by omega⟩

/-- A text has so many lines. -/
theorem exists_lines (hcols : 2 ≤ mode.realcols) (text : Bytes) :
    ∃ L, ∀ n, (lineAt mode text n).isSome ↔ n < L := by
  refine exists_length ⟨text.length + 3, Option.eq_none_iff_forall_ne_some.mpr fun r hr => ?_⟩
  obtain ⟨hle, -, hn⟩ := lineAt_bounds hcols hr
  have hrank := r.ty.rank_le
  omega

theorem lineAt_zero_isSome (htext : text ≠ []) :
    (lineAt mode text 0).isSome := by
  have hlen := List.length_pos_iff.mpr htext
  change (measureLine mode text 0 text.length .normal).isSome
  rw [measureLine, if_neg (by omega)]
  rfl

end

/-! ## The window of the pager -/

namespace MemMoreLines
variable {mode : MoreMode} {text : Bytes} {m m' : MemMoreLines} {n p0 : Nat} {r : Option Line}

/-- The cursor is on the line with the number, as the text has it. -/
def Shows (mode : MoreMode) (text : Bytes) (m : MemMoreLines) (n : Nat) : Prop :=
  m.currLine = n ∧ ∃ r, lineAt mode text n = some r ∧
    m.curr = r.line ∧ m.currlen = r.len ∧ m.currty = r.ty

/-- The slots from `start` on hold the lines with these numbers, and the cursor is on one of them.
-/
structure Faithful (mode : MoreMode) (text : Bytes) (m : MemMoreLines) : Prop where
  ptr : m.ptr = text
  window : Window bufferCount (lineAt mode text) m.ring m.start m.num
  start_le : m.start ≤ m.currLine
  lt_end : m.currLine < m.start + m.num
  shows : Shows mode text m m.currLine

theorem setCurr_faithful (hptr : m.ptr = text)
    (h : Window bufferCount (lineAt mode text) m.ring m.start m.num) (hstart : m.start ≤ n)
    (hend : n < m.start + m.num) :
    Faithful mode text (m.setCurr n) ∧ Shows mode text (m.setCurr n) n := by
  have hshows : Shows mode text (m.setCurr n) n :=
    ⟨rfl, _, h.cells n hstart hend, rfl, rfl, rfl⟩
  exact ⟨⟨hptr, h, hstart, hend, hshows⟩, hshows⟩

theorem measureNext_spec (hptr : m.ptr = text)
    (h : Window bufferCount (lineAt mode text) m.ring m.start m.num) (hnum : m.num < bufferCount)
    (hstart : m.start ≤ m.currLine) (hlast : m.currLine + 1 = m.start + m.num)
    (hshows : Shows mode text m m.currLine) :
    let result := m.measureNext mode (m.ring (m.currLine % bufferCount))
    Faithful mode text result.1 ∧
      match lineAt mode text (m.currLine + 1) with
      | some _ => result.2 = m.currLine + 1 ∧ Shows mode text result.1 (m.currLine + 1)
      | none => result.2 = -1 := by
  have hcurr := h.cells m.currLine hstart (by omega)
  have hnext : lineAt mode text (m.currLine + 1) = measureLine mode m.ptr
      ((m.ring (m.currLine % bufferCount)).line + (m.ring (m.currLine % bufferCount)).s)
      (m.size - ((m.ring (m.currLine % bufferCount)).line +
        (m.ring (m.currLine % bufferCount)).s : Nat)) (m.ring (m.currLine % bufferCount)).ty := by
    rw [lineAt, chain, ← lineAt, hcurr, size, hptr]
    rfl
  dsimp only
  rw [measureNext]
  dsimp only
  rw [← hnext]
  cases hline : lineAt mode text (m.currLine + 1) with
  | none => exact ⟨⟨hptr, h.write hnum _, hstart, by dsimp only [write]; omega, hshows⟩, rfl⟩
  | some r =>
    obtain ⟨hF, hS⟩ := setCurr_faithful (n := m.currLine + 1)
      (m := { m.write _ (some r) with num := m.num + 1, total := _ }) hptr
      (h.push hnum (hlast ▸ hline)) (Nat.le_succ_of_le hstart) (by dsimp only [write]; omega)
    exact ⟨hF, rfl, hS⟩

theorem next_spec (F : Faithful mode text m) :
    Faithful mode text (m.next mode).1 ∧
      match lineAt mode text (m.currLine + 1) with
      | some _ => (m.next mode).2 = m.currLine + 1 ∧ Shows mode text (m.next mode).1 (m.currLine + 1)
      | none => (m.next mode).2 = -1 := by
  have hnum := F.window.num_le
  have hlt := F.lt_end
  have hstart := F.start_le
  unfold next
  split
  · rename_i hlast
    have hcurr : m.start + m.num - 1 = m.currLine := by omega
    rw [hcurr]
    dsimp only
    split
    · -- The ring is full, and gives up its first line.
      rename_i hfull
      exact measureNext_spec (m := { m with start := m.start + 1, num := m.num - 1 }) F.ptr
        F.window.shrink (by dsimp only; rw [hfull]; decide)
        (by dsimp only; rw [hfull, bufferCount] at hlt hlast; omega) (by dsimp only; omega) F.shows
    · exact measureNext_spec F.ptr F.window (by omega) F.start_le (by omega) F.shows
  · obtain ⟨hF, hshows⟩ := setCurr_faithful (n := m.currLine + 1) F.ptr F.window
      (Nat.le_succ_of_le F.start_le) (by omega)
    refine ⟨hF, ?_⟩
    rw [F.window.cells (m.currLine + 1) (Nat.le_succ_of_le F.start_le) (by omega)]
    exact ⟨rfl, hshows⟩

theorem measureLine_line {size : Int} {oldty : LineCode} {r : Line}
    (h : measureLine mode text p0 size oldty = some r) : r.line = p0 := by
  unfold measureLine at h
  repeat' split at h
  all_goals first
    | (cases h; done)
    | rw [← Option.some.inj h]

/-- Each round of the loop adds the next line of the text to the window. -/
theorem initLoop_spec (k : Nat) (m : MemMoreLines) (p0 : Nat) (s : Int) (oldty : LineCode)
    (hptr : m.ptr = text) (hstart : m.start = 0)
    (h : Window bufferCount (lineAt mode text) m.ring 0 m.num)
    (hk : m.num + k ≤ 25) (hs : s = text.length - p0)
    (hmeasure : measureLine mode text p0 s oldty = lineAt mode text m.num) :
    let m' := (initLoop mode k m p0 s oldty).1
    m'.ptr = text ∧ m'.start = 0 ∧ Window bufferCount (lineAt mode text) m'.ring 0 m'.num ∧
      m.num ≤ m'.num ∧
      (0 < k → 0 ≤ s → (lineAt mode text m.num).isSome = true → m.num < m'.num) := by
  induction k generalizing m p0 s oldty with
  | zero => exact ⟨hptr, hstart, h, Nat.le_refl _, fun hk => absurd hk (Nat.lt_irrefl 0)⟩
  | succ k ih =>
    have hnum : m.num < bufferCount := by
      rw [bufferCount]
      omega
    have hzero : (m.start + m.num) % bufferCount = (0 + m.num) % bufferCount := by rw [hstart]
    rw [initLoop]
    split
    · exact ⟨hptr, hstart, h, Nat.le_refl _, fun _ hs => by omega⟩
    · rw [hptr, hmeasure]
      cases hline : lineAt mode text m.num with
      | none =>
        refine ⟨hptr, hstart, ?_, Nat.le_refl _, fun _ _ hsome => by cases hsome⟩
        dsimp only [write]
        rw [hzero]
        exact h.write hnum _
      | some r =>
        have hr : r.line = p0 := measureLine_line (hmeasure.trans hline)
        have hpush : Window bufferCount (lineAt mode text) (m.write p0 (some r)).ring 0
            (m.num + 1) := by
          dsimp only [write]
          rw [hzero]
          exact h.push hnum (by rw [Nat.zero_add, hline]; rfl)
        have hnext : measureLine mode text (r.line + r.s) (s - r.s) r.ty =
            lineAt mode text (m.num + 1) := by
          rw [lineAt, chain, ← lineAt, hline, Option.bind_some]
          congr 1
          omega
        obtain ⟨hptr', hstart', hwin, hle, -⟩ := ih { m.write p0 (some r) with
          num := m.num + 1, effectiveline := _ } _ _ _ hptr hstart hpush (by dsimp only; omega)
          (by omega) hnext
        exact ⟨hptr', hstart', hwin, Nat.le_of_succ_le hle, fun _ _ _ => hle⟩

theorem init_spec (mode : MoreMode) (htext : text ≠ []) (m : MemMoreLines) :
    Faithful mode text (m.init mode text) ∧ (m.init mode text).start = 0 ∧
      (m.init mode text).currLine = 0 := by
  have hmeasure : measureLine mode text 0 text.length .normal = lineAt mode text 0 := rfl
  obtain ⟨hptr, hstart, hwin, -, hpos⟩ := initLoop_spec 25
    { m with ptr := text, start := 0, num := 0, total := 0, effectiveline := 0 } 0 text.length
    .normal rfl rfl (Window.empty ..) (Nat.le_refl _) (by simp) hmeasure
  have hnum := hpos (by omega) (by omega) (lineAt_zero_isSome htext)
  obtain ⟨hF, hshows⟩ := setCurr_faithful (n := 0) hptr (by rwa [hstart]) (by omega) (by omega)
  exact ⟨⟨hF.ptr, hF.window, hF.start_le, hF.lt_end, hF.shows⟩, hstart, hshows.1⟩

/-- The loop of `seek_MemMoreLines` goes on to the line, if the text has it. -/
theorem seekLoop_spec {fuel : Nat} (F : Faithful mode text m) (hle : m.currLine ≤ n)
    (hfuel : n < m.currLine + fuel) :
    ∃ m' r, seekLoop mode n fuel m = some (m', r) ∧ Faithful mode text m' ∧
      match lineAt mode text n with
      | some _ => r = n ∧ Shows mode text m' n
      | none => r = -1 := by
  induction fuel generalizing m with
  | zero => omega
  | succ fuel ih =>
    rw [seekLoop]
    split
    · rename_i heq
      obtain ⟨-, q, hq, hshows⟩ := F.shows
      refine ⟨m, m.currLine, rfl, F, ?_⟩
      rw [← heq, hq]
      exact ⟨rfl, rfl, q, hq, hshows⟩
    · obtain ⟨F', hresult⟩ := next_spec F
      dsimp only
      cases hline : lineAt mode text (m.currLine + 1) with
      | none =>
        rw [hline] at hresult
        have hnone : lineAt mode text n = none := chain_none_of_le hline (by omega)
        refine ⟨(m.next mode).1, -1, ?_, F', by rw [hnone]⟩
        rw [if_pos (by rw [hresult]; decide)]
      | some q =>
        rw [hline] at hresult
        obtain ⟨hret, hshows⟩ := hresult
        have hcurr := hshows.1
        rw [if_neg (by omega)]
        exact ih F' (by omega) (by omega)

theorem seekTo_spec (htext : text ≠ []) (F : Faithful mode text m) (n : Nat) :
    ∃ m' r, m.seekTo mode n = some (m', r) ∧ Faithful mode text m' ∧
      match lineAt mode text n with
      | some _ => r = n ∧ Shows mode text m' n
      | none => r = -1 := by
  -- Where the line lies in front of the window, the window is made anew from the top.
  obtain ⟨m₁, hm₁, F₁, hstart⟩ : ∃ m₁, (if n < m.start then
      { m.init mode m.ptr with total := m.total } else m) = m₁ ∧ Faithful mode text m₁ ∧
      m₁.start ≤ n := by
    split
    · obtain ⟨F₀, hstart, -⟩ := init_spec mode htext m
      rw [F.ptr]
      exact ⟨_, rfl, ⟨F₀.ptr, F₀.window, F₀.start_le, F₀.lt_end, F₀.shows⟩, by
        dsimp only; omega⟩
    · exact ⟨m, rfl, F, by omega⟩
  rw [seekTo]
  dsimp only
  rw [hm₁]
  split
  · rename_i hin
    obtain ⟨F', hshows⟩ := setCurr_faithful F₁.ptr F₁.window hstart hin
    refine ⟨_, _, rfl, F', ?_⟩
    rw [F₁.window.cells n hstart hin]
    exact ⟨rfl, hshows⟩
  · have hlt := F₁.lt_end
    exact seekLoop_spec F₁ (by omega) (by omega)

end MemMoreLines

inductive PagerCall
  | next
  | seek (n : Int)

/-- The pager after some calls. -/
def MemMoreLines.run (mode : MoreMode) (m : MemMoreLines) (calls : List PagerCall) :
    Option MemMoreLines :=
  calls.foldlM (fun m call =>
    match call with
    | .next => some (m.next mode).1
    | .seek n => (m.seek mode n).map (·.1)) m

namespace MemMoreLines
variable {mode : MoreMode} {text : Bytes} {m : MemMoreLines}

theorem seek_spec (htext : text ≠ []) (F : Faithful mode text m) (n : Int) :
    ∃ m' r, m.seek mode n = some (m', r) ∧ Faithful mode text m' ∧
      if 0 ≤ n ∧ (lineAt mode text n.toNat).isSome then r = n ∧ Shows mode text m' n.toNat
      else r = -1 := by
  unfold seek
  split
  · rename_i hneg
    obtain ⟨m', r, h, F', -⟩ := seekTo_spec htext F 0
    exact ⟨m', -1, by rw [h]; rfl, F', by rw [if_neg (by omega)]⟩
  · rename_i hpos
    obtain ⟨m', r, h, F', hr⟩ := seekTo_spec htext F n.toNat
    refine ⟨m', r, h, F', ?_⟩
    cases hline : lineAt mode text n.toNat with
    | none =>
      rw [hline] at hr
      rw [if_neg (by simp)]
      exact hr
    | some q =>
      rw [hline] at hr
      rw [if_pos ⟨by omega, rfl⟩]
      exact ⟨by omega, hr.2⟩

theorem run_spec (htext : text ≠ []) (F : Faithful mode text m) (calls : List PagerCall) :
    ∃ m', m.run mode calls = some m' ∧ Faithful mode text m' := by
  induction calls generalizing m with
  | nil => exact ⟨m, rfl, F⟩
  | cons call calls ih =>
    rw [run, List.foldlM_cons]
    cases call with
    | next => exact ih (next_spec F).1
    | seek n =>
      obtain ⟨m', r, h, F', -⟩ := seek_spec htext F n
      dsimp only
      rw [h]
      exact ih F'

/-- For every text, every width of at least 2 and every sequence of calls: the text has a number `L`
of lines; the slots of the ring from `start` on hold the lines with these numbers; seeking a line
that the text has returns its number, with the cursor on that line as the text has it, and seeking
any other returns -1; and the next line is found if and only if there is one. -/
theorem pager_faithful (htext : text ≠ []) (hcols : 2 ≤ mode.realcols) (m₀ : MemMoreLines) :
    ∃ L, (∀ n, (lineAt mode text n).isSome ↔ n < L) ∧
      ∀ calls, ∃ m, (m₀.init mode text).run mode calls = some m ∧
        (∀ k, m.start ≤ k → k < m.start + m.num →
          lineAt mode text k = some (m.ring (k % bufferCount))) ∧
        m.num ≤ bufferCount ∧ Shows mode text m m.currLine ∧
        (∀ n : Int, ∃ m' r, m.seek mode n = some (m', r) ∧
          if 0 ≤ n ∧ n < L then r = n ∧ Shows mode text m' n.toNat else r = -1) ∧
        if m.currLine + 1 < L then
          (m.next mode).2 = m.currLine + 1 ∧ Shows mode text (m.next mode).1 (m.currLine + 1)
        else (m.next mode).2 = -1 := by
  obtain ⟨L, hL⟩ := exists_lines hcols text
  refine ⟨L, hL, fun calls => ?_⟩
  obtain ⟨m, hm, F⟩ := run_spec htext (init_spec mode htext m₀).1 calls
  refine ⟨m, hm, F.window.cells, F.window.num_le, F.shows, fun n => ?_, ?_⟩
  · obtain ⟨m', r, h, -, hr⟩ := seek_spec htext F n
    refine ⟨m', r, h, ?_⟩
    have hiff : (0 ≤ n ∧ n < L) ↔ 0 ≤ n ∧ (lineAt mode text n.toNat).isSome := by
      rw [hL]
      omega
    simpa only [hiff] using hr
  · obtain ⟨-, hr⟩ := next_spec F
    have hiff := hL (m.currLine + 1)
    cases hline : lineAt mode text (m.currLine + 1) with
    | none =>
      rw [hline] at hr hiff
      rw [if_neg fun h => absurd (hiff.mpr h) Bool.false_ne_true]
      exact hr
    | some q =>
      rw [hline] at hr hiff
      rw [if_pos (hiff.mp rfl)]
      exact hr

/-- A quoted line that is too long for the screen and a line without an end, with an attachment. -/
def demoText : Bytes := bytes ": abcdef\nend"

def demoMore : MoreMode := ⟨6, true, some (bytes "link")⟩

def demoPager : MemMoreLines := ⟨[], fun _ => default, 0, 0, 0, 0, .normal, 0, 0, 0⟩

theorem pager_faithful_attached :
    ∃ L, (∀ n, (lineAt demoMore demoText n).isSome ↔ n < L) ∧
      ∀ calls, ∃ m, (demoPager.init demoMore demoText).run demoMore calls = some m ∧
        Shows demoMore demoText m m.currLine := by
  obtain ⟨L, hL, h⟩ := pager_faithful (show demoText ≠ [] by decide)
    (show 2 ≤ demoMore.realcols by decide) demoPager
  refine ⟨L, hL, fun calls => ?_⟩
  obtain ⟨m, hm, -, -, hshows, -⟩ := h calls
  exact ⟨m, hm, hshows⟩

/-- The two parts of the quoted line, the last line and the three lines for the attachment. -/
example : (List.range 7).map (fun n => (lineAt demoMore demoText n).map fun r => (r.line, r.len, r.ty)) =
    [some (0, 6, .quotaNocf), some (6, 2, .quota), some (9, 3, .normalNocf),
      some (12, 0, .attachment), some (12, 0, .attachlink), some (12, 0, .attachalink), none] := by
  decide +kernel

end MemMoreLines

end ArgoBbs

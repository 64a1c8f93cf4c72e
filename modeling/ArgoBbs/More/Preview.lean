import ArgoBbs.Consts
import ArgoBbs.More
import Mathlib.Data.List.TakeWhile

/-! # The preview of an article

`mem_show` shows the author and the title of an article in one line: it copies them out of its first
two lines, into arrays of fixed sizes, with lengths that it takes from these lines (`more.c`). Behind
the text the memory is zero. -/

namespace ArgoBbs

/-- The beginning of the line with the author. -/
def authorHeader : Bytes := [0xb7, 0xa2, 0xd0, 0xc5, 0xc8, 0xcb, 0x3a, 0x20]

/-- The string at a place of the text. -/
def stringAt (text : Bytes) (p : Nat) : Bytes := (text.drop p).takeWhile (· ≠ 0)

/-- A call of `snprintf`: the size that is computed for it, unless it is the difference from `NULL`,
and the bytes that are written. -/
structure Snprintf where
  size : Option Int
  bytes : Nat
  deriving DecidableEq

/-- `snprintf(.., size, "%s", s)`, where the size is not signed. -/
def snprintfString (size : Option Int) (s : Bytes) : Snprintf where
  size
  bytes :=
    match size with
    | none => s.length + 1
    | some n =>
      if n = 0 then 0
      else if n < 0 then s.length + 1
      else min s.length (n.toNat - 1) + 1

/-- What `mem_show` does for the line of the author and the title, if it shows one: the calls that
fill `author` and `title`. -/
def memShowPreview (mode : MoreMode) (m₀ : MemMoreLines) (text : Bytes) :
    Option (Snprintf × Snprintf) :=
  let m := m₀.init mode text
  if strncmpEq (text.drop m.curr) authorHeader 8 then
    -- `strchr(l.curr, '(') - l.curr - 8`
    let paren := strchr (stringAt text m.curr) 40
    let author := snprintfString (paren.map fun k : Nat => (k - 8 : Int)) (stringAt text (m.curr + 8))
    let m := (m.next mode).1
    some (author, snprintfString (some (m.currlen - 7)) (stringAt text (m.curr + 8)))
  else none

/-- The size computed is a number of bytes, and the array is large enough for what is written. -/
def Snprintf.Fits (capacity : Nat) (call : Snprintf) : Prop :=
  (∃ n, call.size = some n ∧ 0 ≤ n) ∧ call.bytes ≤ capacity

def PreviewCopies (mode : MoreMode) (m₀ : MemMoreLines) (text : Bytes) : Prop :=
  ∀ author title, memShowPreview mode m₀ text = some (author, title) →
    author.Fits idLen ∧ title.Fits titleLen

/-- The line that the title is taken from: the second one, or the first if it is the only one. -/
def previewTitleLine (mode : MoreMode) (text : Bytes) : Option Line :=
  (lineAt mode text 1).or (lineAt mode text 0)

/-- An article that starts with the name of its author: the name ends with a parenthesis within the
size of `author`, and the line of the title is neither too short nor too long. -/
def PreviewFits (mode : MoreMode) (text : Bytes) : Prop :=
  ∀ s, text = authorHeader ++ s →
    (∃ name rest, s = name ++ 40 :: rest ∧ 40 ∉ name ∧ 0 ∉ name ∧ name.length ≤ idLen) ∧
    ∀ r, previewTitleLine mode text = some r →
      7 ≤ r.len ∧ (r.len ≤ titleLen + 7 ∨ (stringAt text (r.line + 8)).length < titleLen)

section
variable {mode : MoreMode} {m m₀ : MemMoreLines} {text s : Bytes}

theorem snprintfString_fits {n : Int} {capacity : Nat} :
    (snprintfString (some n) s).Fits capacity ↔
      0 ≤ n ∧ (n ≤ capacity ∨ s.length < capacity) := by
  have hsize : (∃ k, (snprintfString (some n) s).size = some k ∧ 0 ≤ k) ↔ 0 ≤ n := by
    simp [snprintfString]
  rw [Snprintf.Fits, hsize]
  refine and_congr_right fun hn => ?_
  dsimp only [snprintfString]
  split
  · omega
  · rw [if_neg (by omega)]
    omega

theorem stringAt_header : stringAt (authorHeader ++ s) 0 = authorHeader ++ s.takeWhile (· ≠ 0) := by
  simp [stringAt, authorHeader]

theorem stringAt_behind : stringAt (authorHeader ++ s) 8 = s.takeWhile (· ≠ 0) := by
  simp [stringAt, authorHeader]

/-- The size for the author, from the text behind the header. -/
theorem author_fits :
    (snprintfString ((strchr (stringAt (authorHeader ++ s) 0) 40).map fun k : Nat => (k - 8 : Int))
      (stringAt (authorHeader ++ s) 8)).Fits idLen ↔
      ∃ name rest, s = name ++ 40 :: rest ∧ 40 ∉ name ∧ 0 ∉ name ∧ name.length ≤ idLen := by
  have hsize : (strchr (authorHeader ++ s.takeWhile (· ≠ 0)) 40).map (fun k : Nat => (k - 8 : Int)) =
      (strchr (s.takeWhile (· ≠ 0)) 40).map fun k : Nat => (k : Int) := by
    have hheader : strchr (authorHeader ++ s.takeWhile (· ≠ 0)) 40 =
        (strchr (s.takeWhile (· ≠ 0)) 40).map (· + 8) := by
      have hnone : strchr authorHeader 40 = none := by decide
      rw [strchr] at hnone ⊢
      rw [List.findIdx?_append, hnone]
      rfl
    rw [hheader, Option.map_map]
    refine congrArg (Option.map · _) (funext fun k => ?_)
    simp
  rw [stringAt_header, stringAt_behind, hsize]
  constructor
  · intro h
    cases hfind : strchr (s.takeWhile (· ≠ 0)) 40 with
    | none =>
      rw [hfind] at h
      obtain ⟨⟨n, hn, -⟩, -⟩ := h
      cases hn
    | some k =>
      obtain ⟨name, rest, htake, hname, rfl⟩ := strchr_eq_some_iff.mp hfind
      rw [hfind, Option.map_some, snprintfString_fits, htake, List.length_append,
        List.length_cons] at h
      have hzero : 0 ∉ name := fun hmem => by
        have hmem : 0 ∈ s.takeWhile (· ≠ 0) := htake ▸ List.mem_append_left _ hmem
        simpa using List.mem_takeWhile_imp hmem
      refine ⟨name, rest ++ s.dropWhile (· ≠ 0), ?_, hname, hzero, by omega⟩
      rw [← List.cons_append, ← List.append_assoc, ← htake, List.takeWhile_append_dropWhile]
  · rintro ⟨name, rest, rfl, hname, hzero, hle⟩
    have hall : ∀ c ∈ name, decide (c ≠ 0) = true := fun c hc =>
      decide_eq_true fun h => hzero (h ▸ hc)
    have hfind : strchr ((name ++ 40 :: rest).takeWhile (· ≠ 0)) 40 = some name.length := by
      rw [List.takeWhile_append_of_pos hall]
      exact strchr_eq_some_iff.mpr ⟨name, _, rfl, hname, rfl⟩
    rw [hfind, Option.map_some, snprintfString_fits]
    omega

theorem measureNext_currLine {last : Line} (h : (m.measureNext mode last).2 = -1) :
    (m.measureNext mode last).1.currLine = m.currLine := by
  rw [MemMoreLines.measureNext] at h ⊢
  dsimp only at h ⊢
  cases hline : measureLine mode m.ptr (last.line + last.s) (m.size - (last.line + last.s : Nat))
      last.ty with
  | none => rfl
  | some r =>
    rw [hline] at h
    dsimp only at h
    omega

/-- The cursor stays where it is if there is no next line. -/
theorem next_currLine (h : (m.next mode).2 = -1) : (m.next mode).1.currLine = m.currLine := by
  rw [MemMoreLines.next] at h ⊢
  by_cases hlast : m.start + m.num ≤ m.currLine + 1
  · rw [if_pos hlast] at h ⊢
    dsimp only at h ⊢
    rw [measureNext_currLine h]
    split <;> rfl
  · rw [if_neg hlast] at h
    dsimp only at h
    omega

/-- Where the cursor is when the title is copied. -/
theorem title_shows (mode : MoreMode) (m₀ : MemMoreLines) (htext : text ≠ []) :
    ∃ r, previewTitleLine mode text = some r ∧ (((m₀.init mode text).next mode).1).curr = r.line ∧
      (((m₀.init mode text).next mode).1).currlen = r.len := by
  obtain ⟨F, -, hzero⟩ := MemMoreLines.init_spec mode htext m₀
  obtain ⟨F', hresult⟩ := MemMoreLines.next_spec F
  rw [hzero] at hresult
  rw [previewTitleLine]
  cases hone : lineAt mode text 1 with
  | some r =>
    rw [hone] at hresult
    obtain ⟨-, -, q, hq, hcurr, hlen, -⟩ := hresult
    have heq : r = q := Option.some.inj (hone.symm.trans hq)
    exact ⟨r, rfl, by rw [hcurr, heq], by rw [hlen, heq]⟩
  | none =>
    rw [hone] at hresult
    have hcurrLine := next_currLine hresult
    obtain ⟨-, q, hq, hcurr, hlen, -⟩ := F'.shows
    rw [hcurrLine, hzero] at hq
    exact ⟨q, hq, hcurr, hlen⟩

theorem lineAt_zero_line {r : Line} (h : lineAt mode text 0 = some r) : r.line = 0 := by
  have h : measureLine mode text 0 text.length .normal = some r := h
  exact MemMoreLines.measureLine_line h

theorem strncmpEq_header : strncmpEq text authorHeader 8 = true ↔ ∃ s, text = authorHeader ++ s := by
  rw [strncmpEq, decide_eq_true_iff]
  constructor
  · intro h
    exact ⟨text.drop 8, (List.take_append_drop 8 text).symm.trans (congrArg (· ++ _) h)⟩
  · rintro ⟨s, rfl⟩
    rfl

theorem memShowPreview_header (mode : MoreMode) (m₀ : MemMoreLines) (s : Bytes) :
    ∃ r, previewTitleLine mode (authorHeader ++ s) = some r ∧
      memShowPreview mode m₀ (authorHeader ++ s) = some
        (snprintfString ((strchr (stringAt (authorHeader ++ s) 0) 40).map
            fun k : Nat => (k - 8 : Int)) (stringAt (authorHeader ++ s) 8),
          snprintfString (some (r.len - 7 : Int)) (stringAt (authorHeader ++ s) (r.line + 8))) := by
  have htext : authorHeader ++ s ≠ [] := nofun
  obtain ⟨r, hr, hcurr, hlen⟩ := title_shows mode m₀ htext
  obtain ⟨F, -, hzero⟩ := MemMoreLines.init_spec mode htext m₀
  obtain ⟨-, q, hq, hstart, -⟩ := F.shows
  rw [hzero] at hq
  refine ⟨r, hr, ?_⟩
  rw [memShowPreview]
  dsimp only
  rw [hstart, lineAt_zero_line hq, List.drop_zero, if_pos (strncmpEq_header.mpr ⟨s, rfl⟩), hcurr, hlen]

theorem memShowPreview_other (h : ∀ s, text ≠ authorHeader ++ s) :
    memShowPreview mode m₀ text = none := by
  rw [memShowPreview]
  dsimp only
  rw [if_neg]
  intro hheader
  obtain ⟨s, hs⟩ := strncmpEq_header.mp hheader
  by_cases htext : text = []
  · rw [htext, List.drop_nil] at hs
    cases hs
  · obtain ⟨F, -, hzero⟩ := MemMoreLines.init_spec mode htext m₀
    obtain ⟨-, q, hq, hstart, -⟩ := F.shows
    rw [hzero] at hq
    rw [hstart, lineAt_zero_line hq] at hs
    exact h s hs

/-- What is copied for the preview fits just if the first two lines are as they are written by the
system. -/
theorem mem_show_iff (mode : MoreMode) (m₀ : MemMoreLines) (text : Bytes) :
    PreviewCopies mode m₀ text ↔ PreviewFits mode text := by
  by_cases hheader : ∃ s, text = authorHeader ++ s
  · obtain ⟨s, rfl⟩ := hheader
    obtain ⟨r, hr, hpreview⟩ := memShowPreview_header mode m₀ s
    have htitle : 0 ≤ (r.len - 7 : Int) ∧ ((r.len - 7 : Int) ≤ titleLen ∨
        (stringAt (authorHeader ++ s) (r.line + 8)).length < titleLen) ↔
        7 ≤ r.len ∧ (r.len ≤ titleLen + 7 ∨
          (stringAt (authorHeader ++ s) (r.line + 8)).length < titleLen) := by omega
    constructor
    · intro h s' hs'
      cases List.append_cancel_left hs'
      obtain ⟨hauthor, htitle'⟩ := h _ _ hpreview
      refine ⟨author_fits.mp hauthor, fun r' hr' => ?_⟩
      cases Option.some.inj (hr.symm.trans hr')
      exact htitle.mp (snprintfString_fits.mp htitle')
    · intro h author title heq
      cases Option.some.inj (hpreview.symm.trans heq)
      obtain ⟨hauthor, htitle'⟩ := h s rfl
      exact ⟨author_fits.mpr hauthor, snprintfString_fits.mpr (htitle.mpr (htitle' r hr))⟩
  · have hnone : memShowPreview mode m₀ text = none :=
      memShowPreview_other fun s hs => hheader ⟨s, hs⟩
    constructor
    · intro _ s hs
      exact absurd ⟨s, hs⟩ hheader
    · intro _ author title h
      rw [hnone] at h
      cases h

/-- An article whose first line has no parenthesis. -/
theorem mem_show_no_parenthesis :
    ¬ PreviewCopies ⟨80, false, none⟩ MemMoreLines.demoPager (authorHeader ++ bytes "gcc\n") := by
  intro h
  obtain ⟨r, -, hpreview⟩ :=
    memShowPreview_header ⟨80, false, none⟩ MemMoreLines.demoPager (bytes "gcc\n")
  obtain ⟨⟨⟨n, hn, -⟩, -⟩, -⟩ := h _ _ hpreview
  have hnone : strchr (stringAt (authorHeader ++ bytes "gcc\n") 0) 40 = none := by decide
  rw [hnone] at hn
  cases hn

end

end ArgoBbs

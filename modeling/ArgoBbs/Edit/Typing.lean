import ArgoBbs.Edit.Joining
import ArgoBbs.Lib.DoubleByte
import ArgoBbs.Lib.Reach

/-! # Characters of two bytes in the editor

A byte with its high bit starts a character of two bytes. `delete_char` takes out the character at
the cursor, and `insert_char` breaks a line that has become too long between two characters
(`edit.c`). -/

namespace ArgoBbs

open Dlist

/-- The character of a text that covers a position: whole characters are in front of it and behind
it. -/
structure Covers (text front ch behind : Bytes) (i : Nat) : Prop where
  split : text = front ++ ch ++ behind
  closed : endsOpen isHigh front = false
  whole : endsOpen isHigh behind = false
  char : (∃ c, ch = [c] ∧ isHigh c = false) ∨ ∃ c d, ch = [c, d] ∧ isHigh c = true
  le : front.length ≤ i
  lt : i < front.length + ch.length

/-- Every position of a text of whole characters is covered by one of them. -/
theorem exists_covers {text : Bytes} {i : Nat} (h : endsOpen isHigh text = false)
    (hi : i < text.length) : ∃ front ch behind, Covers text front ch behind i := by
  induction text using chars_induction isHigh generalizing i with
  | nil => exact absurd hi (Nat.not_lt_zero i)
  | last c hc =>
    rw [endsOpen_singleton, hc] at h
    cases h
  | double c d text hc ih =>
    rw [endsOpen_of_lead hc] at h
    by_cases hi2 : i < 2
    · exact ⟨[], [c, d], text, rfl, rfl, h, .inr ⟨c, d, rfl, hc⟩, Nat.zero_le i, hi2⟩
    · rw [List.length_cons, List.length_cons] at hi
      obtain ⟨front, ch, behind, hcovers⟩ := ih h (show i - 2 < text.length by omega)
      refine ⟨c :: d :: front, ch, behind, ?_, ?_, hcovers.whole, hcovers.char, ?_, ?_⟩
      · rw [hcovers.split]
        rfl
      · rw [endsOpen_of_lead hc, hcovers.closed]
      · have hle := hcovers.le
        rw [List.length_cons, List.length_cons]
        omega
      · have hlt := hcovers.lt
        rw [List.length_cons, List.length_cons]
        omega
  | single c text hc ih =>
    rw [endsOpen_of_single hc] at h
    cases i with
    | zero => exact ⟨[], [c], text, rfl, rfl, h, .inl ⟨c, rfl, hc⟩, Nat.le_refl 0, Nat.one_pos⟩
    | succ i =>
      obtain ⟨front, ch, behind, hcovers⟩ := ih h (Nat.lt_of_succ_lt_succ hi)
      refine ⟨c :: front, ch, behind, ?_, ?_, hcovers.whole, hcovers.char, ?_, ?_⟩
      · rw [hcovers.split]
        rfl
      · rw [endsOpen_of_single hc, hcovers.closed]
      · exact Nat.succ_le_succ hcovers.le
      · have hlt := hcovers.lt
        rw [List.length_cons]
        omega

namespace Textline
variable {l : Textline} {i : Nat}

/-! ## What the editor sees of characters -/

theorem Exact.getElem?_text (h : l.Exact) (hlen : l.len < 256) (hi : i < l.len) :
    l.text[i]? = some (l.byte i) := by
  have hi' : i < l.text.length := Nat.lt_of_lt_of_eq hi h.length_text.symm
  rw [h.byte_eq hlen (Nat.le_of_lt hi), List.getElem?_eq_getElem hi', List.getD_eq_getElem _ _ hi']

theorem dbchar_eq (h : l.Exact) (hlen : l.len < 256) (hi : i ≤ l.len) :
    l.dbchar i = endsOpen isHigh (l.text.take i) := by
  induction i with
  | zero => rfl
  | succ i ih =>
    rw [endsOpen_take_succ (h.getElem?_text hlen hi), ← ih (Nat.le_of_lt hi), dbchar, Bool.and_comm]
    rfl

/-- An odd number of bytes with their high bit ends in the middle of a character. -/
theorem dbchar_eq_highRun (l : Textline) (i : Nat) : l.dbchar i = decide (l.highRun i % 2 = 1) := by
  induction i with
  | zero => rfl
  | succ i ih =>
    rw [dbchar, highRun, ih]
    by_cases hhigh : l.byte i &&& 0x80 = 0
    · simp [hhigh]
    · by_cases hodd : l.highRun i % 2 = 1
      · have heven : (l.highRun i + 1) % 2 = 0 := by omega
        simp [hhigh, hodd, heven]
      · have hnext : (l.highRun i + 1) % 2 = 1 := by omega
        simp [hhigh, hodd, hnext]

/-- A line is never wrapped in the middle of a character. -/
theorem dbchar_wrapPoint (h : l.len = wrapMargin) : l.dbchar l.wrapPoint.1 = false := by
  have hwrap : wrapMargin = 255 := rfl
  rw [dbchar_eq_highRun, wrapPoint]
  dsimp only
  have hpos : (if l.lastBlank (l.len - 1) = 0 then l.len - 2 else l.lastBlank (l.len - 1)) ≠ 0 := by
    split
    · omega
    · assumption
  generalize (if l.lastBlank (l.len - 1) = 0 then l.len - 2 else l.lastBlank (l.len - 1)) = s at hpos
  obtain ⟨s, rfl⟩ := Nat.exists_eq_succ_of_ne_zero hpos
  split
  case isTrue hhigh =>
    obtain ⟨hhigh, hodd⟩ := hhigh
    rw [highRun, if_neg hhigh] at hodd
    rw [Nat.succ_sub_one, decide_eq_false_iff_not]
    omega
  case isFalse hnot =>
    rw [decide_eq_false_iff_not]
    intro hodd
    rw [highRun] at hodd hnot
    split at hodd
    · cases hodd
    · rename_i hhigh
      rw [if_neg hhigh] at hnot
      exact hnot ⟨hhigh, by omega⟩

/-! ## Deleting -/

section
variable {front ch behind : Bytes}

/-- What should be left, and where the cursor should be. -/
def Deleted (front ch behind : Bytes) (l : Textline) (r : Textline × Nat) : Prop :=
  r.1.text = front ++ behind ∧ r.1.len = l.len - ch.length ∧ r.2 = front.length

theorem deleted_one (h : l.Sound) {c : UInt8} (htext : l.text = front ++ c :: behind) :
    Deleted front [c] behind l (l.deleteAt front.length, front.length) := by
  have hlen := congrArg List.length htext
  rw [h.exact.length_text, List.length_append, List.length_cons] at hlen
  refine ⟨?_, rfl, rfl⟩
  rw [text_deleteAt h.exact h.lt_size (by omega), htext, List.take_left, ← List.drop_drop,
    List.drop_left]
  rfl

theorem deleted_two (h : l.Sound) {c d : UInt8} (htext : l.text = front ++ c :: d :: behind) :
    Deleted front [c, d] behind l (l.deleteTwoAt front.length, front.length) := by
  have hlen := congrArg List.length htext
  rw [h.exact.length_text, List.length_append, List.length_cons, List.length_cons] at hlen
  refine ⟨?_, rfl, rfl⟩
  rw [text_deleteTwoAt h.exact h.lt_size (by omega), htext, List.take_left, ← List.drop_drop,
    List.drop_left]
  rfl

theorem Sound.deleteAt (h : l.Sound) (hi : i < l.len) : (l.deleteAt i).Sound :=
  ⟨deleteAt_exact h.exact h.lt_size hi, Nat.lt_of_le_of_lt (Nat.sub_le _ _) h.lt⟩

theorem Sound.deleteTwoAt (h : l.Sound) (hi : i + 2 ≤ l.len) : (l.deleteTwoAt i).Sound :=
  ⟨deleteTwoAt_exact h.exact h.lt_size hi, Nat.lt_of_le_of_lt (Nat.sub_le _ _) h.lt⟩

theorem Sound.deleteChar (h : l.Sound) (hi : i < l.len) (enabledbchar : Bool) :
    (l.deleteChar enabledbchar i).1.Sound := by
  have hback : l.dbchar i = true → (l.deleteTwoAt (i - 1)).Sound := by
    intro hdb
    cases i with
    | zero => cases hdb
    | succ i => exact h.deleteTwoAt hi
  rw [Textline.deleteChar]
  split
  · split
    · split
      · split
        · exact hback ‹_›
        · exact h.deleteTwoAt (by omega)
      · split
        · exact hback ‹_›
        · exact h.deleteAt hi
    · split
      · exact hback (And.left ‹_›)
      · exact h.deleteAt hi
  · exact h.deleteAt hi

theorem deleteChar_of_low (hlow : l.byte i &&& 0x80 = 0) : l.deleteChar true i = (l.deleteAt i, i) := by
  rw [deleteChar, if_neg fun h => h.2 hlow]

/-- On the first byte of a character only two bytes with their high bit are one. -/
theorem deleteChar_of_lead (hhigh : l.byte i &&& 0x80 ≠ 0) (hlt : i + 1 < l.len)
    (hdb : l.dbchar i = false) : l.deleteChar true i =
      if l.byte (i + 1) &&& 0x80 ≠ 0 then (l.deleteTwoAt i, i) else (l.deleteAt i, i) := by
  rw [deleteChar, if_pos ⟨rfl, hhigh⟩, if_pos (Nat.lt_sub_of_add_lt hlt), hdb,
    if_neg Bool.false_ne_true, if_neg Bool.false_ne_true]

theorem deleteChar_of_trail (hhigh : l.byte i &&& 0x80 ≠ 0) (hlt : i < l.len) (hdb : l.dbchar i = true) :
    l.deleteChar true i = (l.deleteTwoAt (i - 1), i - 1) := by
  rw [deleteChar, if_pos ⟨rfl, hhigh⟩, hdb, if_pos rfl, if_pos rfl, ite_self]
  split
  · rfl
  · rw [if_pos ⟨rfl, by omega⟩]

theorem deleted_single (h : l.Sound) {c : UInt8} (htext : l.text = front ++ c :: behind)
    (hlow : isHigh c = false) :
    Deleted front [c] behind l (l.deleteChar true front.length) := by
  have hget : l.text[front.length]? = some c := by rw [htext]; simp
  have hlen := congrArg List.length htext
  rw [h.exact.length_text, List.length_append, List.length_cons] at hlen
  rw [h.exact.getElem?_text h.lt_size (by omega)] at hget
  rw [deleteChar_of_low (by rw [Option.some.inj hget]; exact not_not.mp (of_decide_eq_false hlow))]
  exact deleted_one h htext

/-- Of two bytes one remains if the second one has no high bit. -/
theorem deleted_double_iff (h : l.Sound) {c d : UInt8} (htext : l.text = front ++ c :: d :: behind)
    (hclosed : endsOpen isHigh front = false) (hhigh : isHigh c = true)
    (hi : i = front.length ∨ i = front.length + 1) :
    Deleted front [c, d] behind l (l.deleteChar true i) ↔ d &&& 0x80 ≠ 0 := by
  have hlen := congrArg List.length htext
  rw [h.exact.length_text, List.length_append, List.length_cons, List.length_cons] at hlen
  have hbyte : ∀ {j : Nat} {b : UInt8}, l.text[j]? = some b → j < l.len → l.byte j = b := by
    intro j b hget hj
    rw [h.exact.getElem?_text h.lt_size hj] at hget
    exact Option.some.inj hget
  have hc₀ : l.byte front.length = c := hbyte (by rw [htext]; simp) (by omega)
  have hd₀ : l.byte (front.length + 1) = d := hbyte (by rw [htext]; simp) (by omega)
  have hdb : l.dbchar front.length = false := by
    rw [dbchar_eq h.exact h.lt_size (by omega), htext, List.take_left, hclosed]
  have hdb' : l.dbchar (front.length + 1) = true := by
    rw [dbchar, hdb, hc₀]
    exact hhigh
  have hcHigh : l.byte front.length &&& 0x80 ≠ 0 := hc₀ ▸ of_decide_eq_true hhigh
  have hnot : ∀ j, ¬Deleted front [c, d] behind l (l.deleteAt j, j) := by
    rintro j ⟨-, hdeleted, -⟩
    change l.len - 1 = l.len - 2 at hdeleted
    omega
  rcases hi with rfl | rfl
  · rw [deleteChar_of_lead hcHigh (by omega) hdb, hd₀]
    split
    case isTrue hd => exact iff_of_true (deleted_two h htext) hd
    case isFalse hd => exact iff_of_false (hnot _) hd
  · by_cases hd : d &&& 0x80 = 0
    · rw [deleteChar_of_low (hd₀ ▸ hd)]
      exact iff_of_false (hnot _) (not_not_intro hd)
    · rw [deleteChar_of_trail (hd₀ ▸ hd) (by omega) hdb']
      exact iff_of_true (deleted_two h htext) hd

/-- `delete_char` takes out the character at the cursor exactly if it is not one of two bytes whose
second one has no high bit; of these it takes out a byte. -/
theorem deleted_iff (h : l.Sound) (hc : Covers l.text front ch behind i) :
    Deleted front ch behind l (l.deleteChar true i) ↔ ∀ d ∈ ch.drop 1, isHigh d = true := by
  have hle := hc.le
  have hlt := hc.lt
  rcases hc.char with ⟨c, rfl, hlow⟩ | ⟨c, d, rfl, hhigh⟩
  · obtain rfl : i = front.length := by
      rw [List.length_singleton] at hlt
      omega
    have htext : l.text = front ++ c :: behind := by
      rw [hc.split, List.append_assoc]
      rfl
    exact iff_of_true (deleted_single h htext hlow) fun d hd => by cases hd
  · have htext : l.text = front ++ c :: d :: behind := by
      rw [hc.split, List.append_assoc]
      rfl
    have hdrop : (∀ x ∈ [c, d].drop 1, isHigh x = true) ↔ d &&& 0x80 ≠ 0 := by
      simp [isHigh]
    have hi : i = front.length ∨ i = front.length + 1 := by
      rw [List.length_cons, List.length_singleton] at hlt
      omega
    rw [hdrop]
    exact deleted_double_iff h htext hc.closed hhigh hi
end

end Textline

/-! ## Typing -/

namespace Textline

/-- Where `insert_char` stores in a line: the bytes that move up, and the one that is typed. -/
def insertStores (l : Textline) (currpnt : Nat) : List Nat :=
  (List.range' (currpnt + 1) (l.len + 1 - currpnt)).reverse ++ [currpnt]

/-- Where it stores when it wraps a line: the NUL in front of what goes, and in the new line what
goes, with its NUL, and the blank behind it. -/
def wrapStores (l : Textline) : List Nat :=
  l.wrapPoint.1 :: List.range (l.len - l.wrapPoint.1 + 1) ++
    [l.len - l.wrapPoint.1, l.len - l.wrapPoint.1 + 1]

theorem insertStores_lt {l : Textline} {i k : Nat} (hlen : l.len < wrapMargin) (hi : i ≤ l.len)
    (hk : k ∈ l.insertStores i) : k ≤ wrapMargin := by
  rw [insertStores, List.mem_append, List.mem_reverse, List.mem_range'_1, List.mem_singleton] at hk
  omega

theorem wrapStores_lt {l : Textline} {k : Nat} (hlen : l.len = wrapMargin)
    (hk : k ∈ l.wrapStores) : k ≤ wrapMargin := by
  have hbounds := wrapPoint_bounds hlen
  simp only [wrapStores, List.cons_append, List.mem_cons, List.mem_append, List.mem_range,
    List.not_mem_nil, or_false] at hk
  omega

end Textline

namespace Editor
variable {cfg : Setting} {s : Editor} {pre post : List (Nat × Textline)} {p q : Nat}
  {l m : Textline} {ch : UInt8}

/-- The line of the cursor is one of the lines. -/
def OnLine (s : Editor) (xs : List (Nat × Textline)) : Prop := ∃ x ∈ xs, s.currline = some x.1

theorem Lines.origin (cfg : Setting) {xs : List (Nat × Textline)} (h : s.Lines xs) (hon : s.OnLine xs) :
    ∃ b, s.origin cfg s.currline = some b := by
  obtain ⟨x, hx, hcurr⟩ := hon
  obtain ⟨n, hn⟩ := h.holds.isSome (List.mem_map_of_mem hx)
  rw [hcurr]
  change ∃ b, (if cfg.edit then (s.text.node x.1).map (cfg.isOrigin ·.val) else some false) = some b
  rw [hn]
  split
  · exact ⟨_, rfl⟩
  · exact ⟨_, rfl⟩

theorem Lines.padWrapped (h : s.Lines (pre ++ (q, m) :: post)) (hroom : m.len + 1 < wrapMargin)
    (wordwrap : Bool) : ∃ text m', s.padWrapped q wordwrap = some { s with text } ∧
      ({ s with text } : Editor).Lines (pre ++ (q, m') :: post) ∧
      (m'.text = m.text ∨ m'.text = m.text ++ [32]) := by
  obtain ⟨-, hm, -⟩ := h.forall_sound
  rw [Editor.padWrapped, h.holds.node]
  simp only [Option.bind_eq_bind, Option.bind_some]
  split
  case isFalse => exact ⟨s.text, m, rfl, h, .inl rfl⟩
  case isTrue =>
    obtain ⟨text, htext, hlines⟩ := h.setVal (m := m.pad)
      ⟨Textline.pad_exact hm.exact hm.lt, hroom⟩
    rw [htext]
    exact ⟨text, _, rfl, hlines, .inr (Textline.text_pad hm.exact hm.lt)⟩

/-- What a line is broken into: no character is cut, and at most a blank is added. -/
def Broken (text : Bytes) (l₁ l₂ : Textline) : Prop :=
  endsOpen isHigh l₁.text = false ∧
    (l₁.text ++ l₂.text = text ∨ l₁.text ++ l₂.text = text ++ [32])

/-- A line that has become too long is broken in two, and the cursor is on one of them. -/
theorem wrapLine_spec (cfg : Setting)
    (h : Dlist.Holds (fun _ => none) s.text (pre ++ (p, l) :: post))
    (hpre : ∀ x ∈ pre, x.2.Sound) (hpost : ∀ x ∈ post, x.2.Sound) (hl : l.Exact)
    (hlen : l.len = wrapMargin) (hcurr : s.currline = some p) :
    ∃ s' q l₁ l₂, s.wrapLine cfg p l = some s' ∧
      s'.Lines (pre ++ (p, l₁) :: (q, l₂) :: post) ∧ Broken l.text l₁ l₂ ∧
      s'.insertCharacter = s.insertCharacter ∧
      (s'.currline = some p ∨ s'.currline = some q) := by
  have hwrap : wrapMargin = 255 := rfl
  obtain ⟨hgt, hlt⟩ := Textline.wrapPoint_bounds hlen
  have hsize : l.len < 256 := by omega
  have hpos : l.wrapPoint.1 ≤ l.len := by omega
  obtain ⟨s₁, q, hs₁, holds₁, hinsert, hcurr₁⟩ := split_holds h hpos
  have hlines₁ : s₁.Lines (pre ++ (p, l.truncate l.wrapPoint.1) :: (q, l.rest l.wrapPoint.1) ::
      post) := by
    refine .of_sound holds₁ hpre ⟨Textline.truncate_exact hl hsize hpos, hlt⟩
      (List.forall_mem_cons.mpr ⟨⟨Textline.rest_exact hl hsize hpos, ?_⟩, hpost⟩)
    change l.len - l.wrapPoint.1 < wrapMargin
    omega
  obtain ⟨hp, -⟩ := hlines₁.next
  have hsplit : ∀ x tail, pre ++ (p, x) :: tail = (pre ++ [(p, x)]) ++ tail := fun _ _ => by simp
  have hroom : (l.rest l.wrapPoint.1).len + 1 < wrapMargin := by
    change l.len - l.wrapPoint.1 + 1 < wrapMargin
    omega
  obtain ⟨text, m, htext, hlines₂, hm⟩ :=
    (hsplit _ _ ▸ hlines₁ : s₁.Lines _).padWrapped hroom l.wrapPoint.2
  rw [← hsplit] at hlines₂
  have hbroken : Broken l.text (l.truncate l.wrapPoint.1) m := by
    constructor
    · rw [Textline.text_truncate hl hsize hpos, ← Textline.dbchar_eq hl hsize hpos,
        Textline.dbchar_wrapPoint hlen]
    · rw [Textline.text_truncate hl hsize hpos]
      rw [Textline.text_rest hl hsize hpos] at hm
      refine hm.imp (fun hm => ?_) fun hm => ?_
      · rw [hm, List.take_append_drop]
      · rw [hm, ← List.append_assoc, List.take_append_drop]
  have hcurr₂ : s₁.currline = some p ∨ s₁.currline = some q := hcurr₁.imp_left (·.trans hcurr)
  have hon : ({ s₁ with text } : Editor).OnLine
      (pre ++ (p, l.truncate l.wrapPoint.1) :: (q, m) :: post) := by
    rcases hcurr₂ with hp | hq
    · exact ⟨(p, l.truncate l.wrapPoint.1), by simp, hp⟩
    · exact ⟨(q, m), by simp, hq⟩
  obtain ⟨b, hb⟩ := hlines₂.origin cfg hon
  obtain ⟨-, hq⟩ := hlines₂.next
  rw [Editor.wrapLine]
  simp only [hs₁, hp, htext, Option.bind_eq_bind, Option.bind_some]
  dsimp only at hb
  rw [hb]
  dsimp only [Option.bind_some]
  split
  · rw [hq]
    exact ⟨_, q, _, m, rfl, ⟨hlines₂.holds, hlines₂.sound⟩, hbroken, hinsert, .inl rfl⟩
  · exact ⟨_, q, _, m, rfl, hlines₂, hbroken, hinsert, hcurr₂⟩

/-- A byte that is typed where the cursor is. -/
def TypedAt (cfg : Setting) (s : Editor) (pre : List (Nat × Textline)) (p : Nat) (l : Textline)
    (post : List (Nat × Textline)) (ch : UInt8) : Prop :=
  (∀ k ∈ l.insertStores s.currpnt, k ≤ wrapMargin) ∧
  ∃ s', s.insertChar cfg ch = some s' ∧
    (l.len + 1 < wrapMargin ∧ s'.Lines (pre ++ (p, l.insertAt s.currpnt ch) :: post) ∨
      l.len + 1 = wrapMargin ∧ (∀ k ∈ (l.insertAt s.currpnt ch).wrapStores, k ≤ wrapMargin) ∧
      ∃ q l₁ l₂, s'.Lines (pre ++ (p, l₁) :: (q, l₂) :: post) ∧
        Broken (l.text.take s.currpnt ++ ch :: l.text.drop s.currpnt) l₁ l₂)

/-- What typing keeps. -/
structure Typing (s : Editor) : Prop where
  lines : ∃ xs, s.Lines xs ∧ s.OnLine xs
  inserting : s.insertCharacter = true

theorem Lines.insertChar (h : s.Lines (pre ++ (p, l) :: post)) (hcurr : s.currline = some p)
    (hinsert : s.insertCharacter = true) (hpnt : s.currpnt ≤ l.len) (hch : ch ≠ 0) :
    TypedAt cfg s pre p l post ch ∧ ∀ s', s.insertChar cfg ch = some s' → s'.Typing := by
  obtain ⟨hpre, hl, hpost⟩ := h.forall_sound
  have hexact := Textline.insertAt_exact hl.exact hl.lt hpnt hch
  have hstores : ∀ k ∈ l.insertStores s.currpnt, k ≤ wrapMargin := fun k hk =>
    Textline.insertStores_lt hl.lt hpnt hk
  obtain ⟨text, htext, holds⟩ := h.holds.setVal (l.insertAt s.currpnt ch)
  have hstep : s.insertChar cfg ch =
      if l.len + 1 < wrapMargin then some { s with text, currpnt := s.currpnt + 1 }
      else wrapLine cfg { s with text, currpnt := s.currpnt + 1 } p (l.insertAt s.currpnt ch) := by
    rw [Editor.insertChar, hcurr]
    simp only [Option.bind_eq_bind, Option.bind_some, h.holds.node, if_neg (Nat.not_lt.mpr hpnt),
      hinsert, not_true_eq_false, and_false, if_false, htext]
    rfl
  by_cases hfit : l.len + 1 < wrapMargin
  · rw [if_pos hfit] at hstep
    have hlines : ({ s with text, currpnt := s.currpnt + 1 } : Editor).Lines
        (pre ++ (p, l.insertAt s.currpnt ch) :: post) :=
      .of_sound holds hpre ⟨hexact, hfit⟩ hpost
    refine ⟨⟨hstores, _, hstep, .inl ⟨hfit, hlines⟩⟩, fun s' hs' => ?_⟩
    rw [hstep] at hs'
    obtain rfl := Option.some.inj hs'
    exact ⟨⟨_, hlines, (p, l.insertAt s.currpnt ch), by simp, hcurr⟩, hinsert⟩
  · rw [if_neg hfit] at hstep
    have hlen : l.len + 1 = wrapMargin := Nat.le_antisymm hl.lt (Nat.le_of_not_lt hfit)
    obtain ⟨s', q, l₁, l₂, hs', hlines, hbroken, hinsert', hcurr'⟩ :=
      wrapLine_spec (s := { s with text, currpnt := s.currpnt + 1 }) cfg holds hpre hpost hexact
        hlen hcurr
    rw [Textline.text_insertAt hl.exact hl.lt hpnt hch] at hbroken
    refine ⟨⟨hstores, s', hstep.trans hs', .inr ⟨hlen, ?_, q, l₁, l₂, hlines, hbroken⟩⟩,
      fun s'' hs'' => ?_⟩
    · exact fun k hk => Textline.wrapStores_lt hlen hk
    · rw [hstep, hs'] at hs''
      obtain rfl := Option.some.inj hs''
      refine ⟨⟨_, hlines, ?_⟩, hinsert'.trans hinsert⟩
      rcases hcurr' with hcurr' | hcurr'
      · exact ⟨(p, l₁), by simp, hcurr'⟩
      · exact ⟨(q, l₂), by simp, hcurr'⟩

/-- Typing a byte of a text. -/
def typeByte (cfg : Setting) (s : Editor) (ch : UInt8) : Option Editor :=
  if ch = 0 then none else s.insertChar cfg ch

theorem Typing.step (h : s.Typing) {s' : Editor} (hs' : typeByte cfg s ch = some s') :
    s'.Typing := by
  obtain ⟨xs, hlines, ⟨p, l⟩, hx, hcurr⟩ := h.lines
  obtain ⟨pre, post, rfl⟩ := List.append_of_mem hx
  rw [typeByte] at hs'
  split at hs'
  · cases hs'
  · by_cases hpnt : s.currpnt ≤ l.len
    · exact (hlines.insertChar hcurr h.inserting hpnt ‹_›).2 s' hs'
    · rw [Editor.insertChar, hcurr] at hs'
      simp only [Option.bind_eq_bind, Option.bind_some, hlines.holds.node,
        if_pos (Nat.lt_of_not_le hpnt)] at hs'
      exact Option.some.inj hs' ▸ h

theorem Lines.deleteChar (h : s.Lines (pre ++ (p, l) :: post)) (hcurr : s.currline = some p)
    (hpnt : s.currpnt < l.len) : ∃ s', s.deleteChar = some s' ∧
      s'.Lines (pre ++ (p, (l.deleteChar s.enabledbchar s.currpnt).1) :: post) ∧
      s'.currpnt = (l.deleteChar s.enabledbchar s.currpnt).2 := by
  obtain ⟨-, hl, -⟩ := h.forall_sound
  obtain ⟨text, htext, hlines⟩ := h.setVal (hl.deleteChar hpnt s.enabledbchar)
  have hnot : ¬(l.len = 0 ∨ l.len ≤ s.currpnt) := by omega
  rw [Editor.deleteChar, hcurr]
  simp only [Option.bind_eq_bind, Option.bind_some, h.holds.node, if_neg hnot, htext]
  exact ⟨_, rfl, ⟨hlines.holds, hlines.sound⟩, rfl⟩

/-- On a line of whole characters `delete_char` takes out the one at the cursor, and leaves the
cursor where it was, exactly if that is not one of two bytes whose second one has no high bit.
Wherever text is typed from the end of a line on, no character is cut and nothing is stored behind
the buffer of a line. -/
theorem characters_iff (cfg : Setting) :
    (∀ (s : Editor) (pre post : List (Nat × Textline)) (p : Nat) (l : Textline),
      s.Lines (pre ++ (p, l) :: post) → s.currline = some p → s.enabledbchar = true →
      endsOpen isHigh l.text = false → s.currpnt < l.len →
      ∃ front ch behind, Covers l.text front ch behind s.currpnt ∧
        ∃ s' l', s.deleteChar = some s' ∧ s'.Lines (pre ++ (p, l') :: post) ∧
          (Textline.Deleted front ch behind l (l', s'.currpnt) ∧ endsOpen isHigh l'.text = false ↔
            ∀ d ∈ ch.drop 1, isHigh d = true)) ∧
    ∀ (s₀ s : Editor) (xs : List (Nat × Textline)), s₀.Lines xs → s₀.OnLine xs →
      s₀.insertCharacter = true → Reach (typeByte cfg) (fun _ _ => True) s₀ s →
      s.Typing ∧ ∀ pre p l post ch, s.Lines (pre ++ (p, l) :: post) → s.currline = some p →
        s.currpnt ≤ l.len → ch ≠ 0 → TypedAt cfg s pre p l post ch := by
  constructor
  · intro s pre post p l h hcurr hdb hwhole hpnt
    obtain ⟨-, hl, -⟩ := h.forall_sound
    obtain ⟨front, ch, behind, hc⟩ := exists_covers hwhole
      (Nat.lt_of_lt_of_eq hpnt hl.exact.length_text.symm)
    obtain ⟨s', hs', hlines, hat⟩ := h.deleteChar hcurr hpnt
    rw [hdb] at hlines hat
    refine ⟨front, ch, behind, hc, s', _, hs', hlines, ?_⟩
    rw [← Textline.deleted_iff hl hc, hat]
    refine and_iff_left_of_imp fun hdeleted => ?_
    rw [hdeleted.1, endsOpen_append hc.closed, hc.whole]
  · intro s₀ s xs hlines hon hinsert hreach
    have htyping : s.Typing := hreach.invariant Typing ⟨⟨xs, hlines, hon⟩, hinsert⟩
      fun _ _ _ h _ hstep => h.step hstep
    exact ⟨htyping, fun pre p l post ch hlines hcurr hpnt hch =>
      (hlines.insertChar hcurr htyping.inserting hpnt hch).1⟩

/-- The editor with a text of one line, and the cursor at its start. -/
def oneLine (text : Bytes) : Editor :=
  { veditInit true true none with
    text := ⟨[some ⟨none, none, Textline.alloc.append text text.length⟩], some 0, some 0⟩ }

theorem Lines.oneLine {text : Bytes} (h0 : 0 ∉ text) (hlen : text.length < wrapMargin) :
    (oneLine text).Lines [(0, Textline.alloc.append text text.length)] ∧
      (Textline.alloc.append text text.length).text = text := by
  have hsize : Textline.alloc.len + text.length < 256 :=
    Nat.lt_of_le_of_lt (Nat.le_of_eq (Nat.zero_add _)) (Nat.lt_succ_of_lt hlen)
  refine ⟨⟨⟨List.nodup_singleton 0, ⟨rfl, trivial⟩, rfl, rfl, fun _ _ h => nomatch h⟩, ?_⟩, ?_⟩
  · intro x hx
    obtain rfl := List.mem_singleton.mp hx
    exact ⟨Textline.append_exact rfl h0 hsize, Nat.lt_of_le_of_lt (Nat.le_of_eq (Nat.zero_add _)) hlen⟩
  · have hexact : Textline.alloc.Exact := rfl
    rw [Textline.text_append hexact h0 hsize]
    rfl

/-- The character `0xB0A1` and a letter. -/
theorem characters_iff_demo (cfg : Setting) :
    ∃ s', (oneLine [0xB0, 0xA1, 97]).deleteChar = some s' ∧ (oneLine [0xB0, 0xA1, 97]).Typing := by
  obtain ⟨hlines, htext⟩ :=
    Lines.oneLine (show (0 : UInt8) ∉ ([0xB0, 0xA1, 97] : Bytes) by decide) (by decide)
  obtain ⟨hdelete, htype⟩ := characters_iff cfg
  obtain ⟨-, -, -, -, s', -, hs', -⟩ := hdelete _ [] [] 0 _ hlines rfl rfl (htext ▸ rfl) (by decide)
  exact ⟨s', hs', (htype _ _ _ hlines ⟨_, List.mem_singleton.mpr rfl, rfl⟩ rfl .refl).1⟩

/-- Of the character `0xB041` only the first byte is taken out. -/
theorem not_characters :
    ¬ ∀ (s : Editor) (pre post : List (Nat × Textline)) (p : Nat) (l : Textline),
      s.Lines (pre ++ (p, l) :: post) → s.currline = some p → s.enabledbchar = true →
      endsOpen isHigh l.text = false → s.currpnt < l.len →
      ∃ front ch behind, Covers l.text front ch behind s.currpnt ∧
        ∃ s' l', s.deleteChar = some s' ∧ s'.Lines (pre ++ (p, l') :: post) ∧
          Textline.Deleted front ch behind l (l', s'.currpnt) ∧ endsOpen isHigh l'.text = false := by
  intro h
  obtain ⟨hlines, htext⟩ :=
    Lines.oneLine (show (0 : UInt8) ∉ ([0xB0, 0x41] : Bytes) by decide) (by decide)
  obtain ⟨front, ch, behind, hc, s', l', hs', hlines', hdeleted, -⟩ :=
    h _ [] [] 0 _ hlines rfl rfl (htext ▸ rfl) (by decide)
  have hlines₀ : (oneLine [0xB0, 0x41]).Lines ([] ++ (0, Textline.alloc.append [0xB0, 0x41] 2) :: []) :=
    hlines
  obtain ⟨s'', hs'', hlines'', hat⟩ := hlines₀.deleteChar rfl (by decide)
  obtain rfl := Option.some.inj (hs'.symm.trans hs'')
  have hline := congrArg Node.val (Option.some.inj
    (hlines'.holds.node.symm.trans hlines''.holds.node))
  have hsound := hlines.sound _ (List.mem_singleton.mpr rfl)
  dsimp only at hline hsound
  rw [hline, hat] at hdeleted
  have hhigh := (Textline.deleted_iff hsound hc).mp hdeleted
  have hsplit := hc.split
  obtain rfl : front = [] := List.eq_nil_of_length_eq_zero (Nat.le_zero.mp hc.le)
  rw [htext] at hsplit
  rcases hc.char with ⟨c, rfl, hlow⟩ | ⟨c, d, rfl, -⟩
  · obtain rfl : (0xB0 : UInt8) = c := (List.cons.inj hsplit).1
    cases hlow
  · obtain rfl : (0x41 : UInt8) = d := (List.cons.inj (List.cons.inj hsplit).2).1
    cases hhigh _ List.mem_cons_self

end Editor

end ArgoBbs

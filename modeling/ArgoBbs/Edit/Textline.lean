import ArgoBbs.Consts
import ArgoBbs.Lib.CString
import Mathlib.Data.List.Basic
import Mathlib.Data.List.GetD

/-! # A line of the editor

`struct textline` holds a line in a buffer of `WRAPMARGIN + 1` bytes, and says twice how long it is:
by a NUL behind it and by `len`. Most of `edit.c` changes the two one after the other. -/

namespace ArgoBbs

structure Textline where
  len : Nat
  attr : UInt8
  data : List UInt8
  size : data.length = wrapMargin + 1

namespace Textline

/-- `M_MARK` -/
def mMark : UInt8 := 0x01

def marked (l : Textline) : Bool := l.attr &&& mMark ≠ 0

def byte (l : Textline) (i : Nat) : UInt8 := l.data.getD i 0

def store (l : Textline) (i : Nat) (c : UInt8) : Textline :=
  { l with data := l.data.set i c, size := by rw [List.length_set, l.size] }

/-- The string in the buffer, and the one that starts at an offset. -/
def text (l : Textline) : Bytes := l.data.takeWhile (· ≠ 0)

def textFrom (l : Textline) (i : Nat) : Bytes := (l.data.drop i).takeWhile (· ≠ 0)

def strlen (l : Textline) : Nat := l.text.length

/-- `alloc_line`. What `malloc` leaves behind the NUL is never read. -/
def alloc : Textline := ⟨0, 0, List.replicate (wrapMargin + 1) 0, List.length_replicate⟩

/-- `for (i = at + n - 1; i >= at; i--) data[i + 1] = data[i]` -/
def moveUp (l : Textline) (start : Nat) : Nat → Textline
  | 0 => l
  | n + 1 => moveUp (l.store (start + n + 1) (l.byte (start + n))) start n

/-- `for (; n > 0; i++, n--) data[i] = data[i + gap]` -/
def moveDown (l : Textline) (gap i : Nat) : Nat → Textline
  | 0 => l
  | n + 1 => moveDown (l.store i (l.byte (i + gap))) gap (i + 1) n

/-- Bytes are stored one after the other, as `strcpy` and `strcat` do. -/
def write (l : Textline) (i : Nat) : Bytes → Textline
  | [] => l
  | c :: s => write (l.store i c) (i + 1) s

def strcat (l : Textline) (s : Bytes) : Textline := l.write l.strlen (s ++ [0])

/-! ## The changes of a line -/

/-- The insertion of a byte in `insert_char`. -/
def insertAt (l : Textline) (i : Nat) (c : UInt8) : Textline :=
  { (l.moveUp i (l.len + 1 - i)).store i c with len := l.len + 1 }

/-- The loop of `delete_char` that takes out one byte. -/
def deleteAt (l : Textline) (i : Nat) : Textline :=
  { l.moveDown 1 i (l.len - i) with len := l.len - 1 }

/-- The loops of `delete_char` that take out a character of two bytes. -/
def deleteTwoAt (l : Textline) (i : Nat) : Textline :=
  { l.moveDown 2 i (l.len - 1 - i) with len := l.len - 2 }

/-- What is left of a line in front of a position. -/
def truncate (l : Textline) (pos : Nat) : Textline := { l.store pos 0 with len := pos }

/-- The new line that `split` makes of what is behind a position. -/
def rest (l : Textline) (pos : Nat) : Textline :=
  { alloc.write 0 (l.textFrom pos ++ [0]) with len := l.len - pos, attr := l.attr }

/-- `strcat(data, s); len += n` in `join`. -/
def append (l : Textline) (s : Bytes) (n : Nat) : Textline :=
  { l.strcat s with len := l.len + n }

/-- The blank that `insert_char` stores behind a line that it has wrapped. -/
def pad (l : Textline) : Textline :=
  { (l.store l.len 32).store (l.len + 1) 0 with len := l.len + 1 }

def clear (l : Textline) : Textline := { l.store 0 0 with len := 0 }

/-- `*killsp(data) == '\0'` -/
def isBlank (l : Textline) : Bool := l.text.dropWhile (· = 32) = []

/-- `while (s != data && test(*s)) s--` -/
def backWhile (l : Textline) (test : UInt8 → Bool) : Nat → Nat
  | 0 => 0
  | s + 1 => if test (l.byte (s + 1)) then backWhile l test s else s + 1

/-- The blank in front of the last word that ends at or before a position, or 0. -/
def lastBlank (l : Textline) (s : Nat) : Nat :=
  l.backWhile (· ≠ 32) (l.backWhile (· = 32) s)

/-- How many bytes in a row, the last one at `n - 1`, have their high bit. -/
def highRun (l : Textline) : Nat → Nat
  | 0 => 0
  | n + 1 => if l.byte n &&& 0x80 = 0 then 0 else highRun l n + 1

/-- Where `insert_char` wraps a line that has become too long, and whether between words. -/
def wrapPoint (l : Textline) : Nat × Bool :=
  let s := l.lastBlank (l.len - 1)
  let wordwrap := s ≠ 0
  let s := if s = 0 then l.len - 2 else s
  let s := if l.byte s &&& 0x80 ≠ 0 ∧ l.highRun (s + 1) % 2 ≠ 0 then s - 1 else s
  (s + 1, wordwrap)

/-- Whether the byte at a position ends a character of two bytes. -/
def dbchar (l : Textline) : Nat → Bool
  | 0 => false
  | i + 1 => !dbchar l i && l.byte i &&& 0x80 ≠ 0

/-- The cases of `delete_char`: the line without the character at the cursor, and where the cursor
is then. -/
def deleteChar (l : Textline) (enabledbchar : Bool) (currpnt : Nat) : Textline × Nat :=
  if enabledbchar ∧ l.byte currpnt &&& 0x80 ≠ 0 then
    if currpnt < l.len - 1 then
      if l.byte (currpnt + 1) &&& 0x80 ≠ 0 then
        if l.dbchar currpnt then (l.deleteTwoAt (currpnt - 1), currpnt - 1)
        else (l.deleteTwoAt currpnt, currpnt)
      else
        if l.dbchar currpnt then (l.deleteTwoAt (currpnt - 1), currpnt - 1)
        else (l.deleteAt currpnt, currpnt)
    else if l.dbchar currpnt ∧ currpnt = l.len - 1 then
      (l.deleteTwoAt (currpnt - 1), currpnt - 1)
    else (l.deleteAt currpnt, currpnt)
  else (l.deleteAt currpnt, currpnt)

/-! ## The bytes of a line -/

section Bytes
variable {l m : Textline}

@[simp] theorem len_store (l : Textline) (i : Nat) (c : UInt8) : (l.store i c).len = l.len := rfl
@[simp] theorem attr_store (l : Textline) (i : Nat) (c : UInt8) : (l.store i c).attr = l.attr := rfl

theorem byte_store (l : Textline) {i : Nat} (hi : i < 256) (c : UInt8) (j : Nat) :
    (l.store i c).byte j = if j = i then c else l.byte j := by
  have hsize : l.data.length = 256 := l.size
  rw [byte, store, List.getD_eq_getElem?_getD, List.getElem?_set]
  split
  case isTrue h => rw [if_pos (hsize ▸ hi), if_pos h.symm, Option.getD_some]
  case isFalse h => rw [if_neg (Ne.symm h), byte, List.getD_eq_getElem?_getD]

theorem byte_moveUp (l : Textline) {start n : Nat} (h : start + n < 256) (j : Nat) :
    (l.moveUp start n).byte j = if start < j ∧ j ≤ start + n then l.byte (j - 1) else l.byte j := by
  induction n generalizing l with
  | zero => rw [moveUp, if_neg (by omega)]
  | succ n ih =>
    rw [moveUp, ih _ (by omega), byte_store _ (by omega), byte_store _ (by omega)]
    by_cases hj : j = start + n + 1
    · rw [if_neg (by omega), if_pos hj, if_pos (by omega), hj]
      rfl
    · by_cases hin : start < j ∧ j ≤ start + n
      · rw [if_pos hin, if_neg (by omega), if_pos (by omega)]
      · rw [if_neg hin, if_neg hj, if_neg (by omega)]

theorem byte_moveDown (l : Textline) {gap i n : Nat} (hgap : 0 < gap) (h : i + n ≤ 256) (j : Nat) :
    (l.moveDown gap i n).byte j =
      if i ≤ j ∧ j < i + n then l.byte (j + gap) else l.byte j := by
  induction n generalizing l i with
  | zero => rw [moveDown, if_neg (by omega)]
  | succ n ih =>
    rw [moveDown, ih _ (by omega), byte_store _ (by omega), byte_store _ (by omega)]
    by_cases hj : j = i
    · rw [if_neg (by omega), if_pos hj, if_pos (by omega), hj]
    · by_cases hin : i + 1 ≤ j ∧ j < i + 1 + n
      · rw [if_pos hin, if_neg (by omega), if_pos (by omega)]
      · rw [if_neg hin, if_neg hj, if_neg (by omega)]

theorem byte_write (l : Textline) {i : Nat} {s : Bytes} (h : i + s.length ≤ 256) (j : Nat) :
    (l.write i s).byte j = if i ≤ j ∧ j < i + s.length then s.getD (j - i) 0 else l.byte j := by
  induction s generalizing l i with
  | nil => rw [write, if_neg (by rw [List.length_nil]; omega)]
  | cons c s ih =>
    rw [List.length_cons] at h
    rw [write, ih _ (by omega), byte_store _ (by omega), List.length_cons]
    by_cases hj : j = i
    · rw [if_neg (by omega), if_pos hj, if_pos (by omega), hj, Nat.sub_self]
      rfl
    · rw [if_neg hj]
      by_cases hin : i + 1 ≤ j ∧ j < i + 1 + s.length
      · rw [if_pos hin, if_pos (by omega), show j - i = j - (i + 1) + 1 by omega]
        rfl
      · rw [if_neg hin, if_neg (by omega)]

end Bytes

/-! ## Blanks -/

section Blanks
variable {l : Textline} {test : UInt8 → Bool} {s : Nat}

theorem backWhile_le (l : Textline) (test : UInt8 → Bool) (s : Nat) : l.backWhile test s ≤ s := by
  induction s with
  | zero => exact Nat.le_refl 0
  | succ s ih =>
    rw [backWhile]
    split
    · exact Nat.le_succ_of_le ih
    · exact Nat.le_refl _

/-- A search back ends at the start or at a byte that fails the test. -/
theorem backWhile_stop (h : l.backWhile test s ≠ 0) :
    test (l.byte (l.backWhile test s)) = false := by
  induction s with
  | zero => exact absurd rfl h
  | succ s ih =>
    rw [backWhile] at h ⊢
    split
    case isTrue ht =>
      rw [if_pos ht] at h
      exact ih h
    case isFalse hf => exact Bool.eq_false_iff.mpr hf

/-- Every byte that a search back has passed satisfies the test. -/
theorem backWhile_passed {i : Nat} (hi : l.backWhile test s < i) (his : i ≤ s) :
    test (l.byte i) = true := by
  induction s with
  | zero => exact absurd (Nat.lt_of_lt_of_le hi his) (Nat.lt_irrefl _)
  | succ s ih =>
    rw [backWhile] at hi
    split at hi
    case isTrue ht =>
      rcases Nat.eq_or_lt_of_le his with rfl | hlt
      · exact ht
      · exact ih hi (Nat.le_of_lt_succ hlt)
    case isFalse => exact absurd (Nat.lt_of_lt_of_le hi his) (Nat.lt_irrefl _)

/-- The blank found is one, and not the byte that the search starts at. -/
theorem lastBlank_spec (h : l.lastBlank s ≠ 0) : l.byte (l.lastBlank s) = 32 ∧ l.lastBlank s < s := by
  have hnot : decide (l.byte (l.lastBlank s) ≠ 32) = false := backWhile_stop h
  have hblank : l.byte (l.lastBlank s) = 32 := by simpa using hnot
  refine ⟨hblank, ?_⟩
  have hword : l.lastBlank s ≤ l.backWhile (· = 32) s := backWhile_le _ _ _
  have hle : l.backWhile (· = 32) s ≤ s := backWhile_le _ _ _
  have hne : l.backWhile (· = 32) s ≠ 0 := by omega
  have hstop := backWhile_stop hne
  have hneq : l.lastBlank s ≠ l.backWhile (· = 32) s := fun heq => by
    rw [← heq, hblank] at hstop
    simp at hstop
  omega

/-- A line that is wrapped leaves text on both sides, with room for a blank behind the second. -/
theorem wrapPoint_bounds (h : l.len = wrapMargin) :
    1 < l.wrapPoint.1 ∧ l.wrapPoint.1 < wrapMargin := by
  have hlen : l.len = 255 := h
  change 1 < l.wrapPoint.1 ∧ l.wrapPoint.1 < 255
  simp only [wrapPoint, hlen]
  by_cases hs : l.lastBlank (255 - 1) = 0
  · rw [if_pos hs]
    split <;> omega
  · obtain ⟨hblank, hlt⟩ := lastBlank_spec hs
    rw [if_neg hs, hblank, if_neg (fun hhigh => absurd hhigh.1 (by decide))]
    omega

end Blanks

/-! ## The two lengths -/

/-- `len` is the length of the string. -/
def Exact (l : Textline) : Prop := l.strlen = l.len

/-- A line as the editor keeps it: its lengths agree, and it can take one more byte. -/
structure Sound (l : Textline) : Prop where
  exact : l.Exact
  lt : l.len < wrapMargin

section Exact
variable {l m : Textline} {i pos : Nat}

theorem length_takeWhile_eq_iff {s : Bytes} {n : Nat} (h : n < s.length) :
    (s.takeWhile (· ≠ 0)).length = n ↔ (∀ i < n, s.getD i 0 ≠ 0) ∧ s.getD n 0 = 0 := by
  induction s generalizing n with
  | nil => simp at h
  | cons c s ih =>
    by_cases hc : c = 0
    · cases n with
      | zero => simp [hc]
      | succ n =>
        rw [List.takeWhile_cons_of_neg (by simp [hc])]
        refine iff_of_false (by simp) fun h => h.1 0 (Nat.succ_pos n) hc
    · rw [List.takeWhile_cons_of_pos (by simp [hc]), List.length_cons]
      cases n with
      | zero => simp [hc]
      | succ n =>
        rw [Nat.add_right_cancel_iff, ih (Nat.lt_of_succ_lt_succ h)]
        refine and_congr_left fun _ => ⟨fun h i hi => ?_, fun h i hi => h (i + 1) (by omega)⟩
        cases i with
        | zero => exact hc
        | succ i => exact h i (by omega)

theorem exact_iff (h : l.len < 256) :
    l.Exact ↔ (∀ i < l.len, l.byte i ≠ 0) ∧ l.byte l.len = 0 :=
  length_takeWhile_eq_iff (l.size.symm ▸ h)

theorem getD_text (h : i < l.strlen) : l.text.getD i 0 = l.byte i := by
  have hp : l.text <+: l.data := List.takeWhile_prefix _
  have hi : i < l.data.length := Nat.lt_of_lt_of_le h hp.length_le
  rw [byte, List.getD_eq_getElem?_getD, List.getD_eq_getElem?_getD, List.getElem?_eq_getElem h,
    List.getElem?_eq_getElem hi, hp.getElem h]

/-- The string of a line and the NUL behind it. -/
theorem data_eq (h : l.len < 256) (hl : l.Exact) :
    l.data = l.text ++ 0 :: l.data.drop (l.len + 1) ∧ 0 ∉ l.text := by
  have hlen : l.text.length = l.len := hl
  have hsize : l.data.length = 256 := l.size
  obtain ⟨hne, hnul⟩ := (exact_iff h).mp hl
  constructor
  · have htake : l.text = l.data.take l.len :=
      hlen ▸ List.prefix_iff_eq_take.mp (List.takeWhile_prefix _)
    have hlt : l.len < l.data.length := hsize ▸ h
    have hget : l.data[l.len] = 0 := by
      rwa [byte, List.getD_eq_getElem?_getD, List.getElem?_eq_getElem hlt, Option.getD_some] at hnul
    rw [htake, ← hget, List.getElem_cons_drop, List.take_append_drop]
  · intro h0
    obtain ⟨i, hi, h0⟩ := List.getElem_of_mem h0
    refine hne i (hlen ▸ hi) ?_
    rw [← getD_text hi, List.getD_eq_getElem?_getD, List.getElem?_eq_getElem hi, h0,
      Option.getD_some]

theorem textFrom_eq (h : l.len < 256) (hl : l.Exact) (hpos : pos ≤ l.len) :
    l.textFrom pos = l.text.drop pos := by
  obtain ⟨hdata, h0⟩ := data_eq h hl
  have hlen : l.text.length = l.len := hl
  rw [textFrom, hdata, List.drop_append_of_le_length (hlen ▸ hpos), List.takeWhile_append_of_pos]
  · simp
  · intro c hc
    have : c ≠ 0 := fun hc0 => h0 (hc0 ▸ List.mem_of_mem_drop hc)
    simpa using this

theorem insertAt_exact {c : UInt8} (h : l.Exact) (hlen : l.len < wrapMargin) (hi : i ≤ l.len)
    (hc : c ≠ 0) : (l.insertAt i c).Exact := by
  have hlen' : l.len < 255 := hlen
  obtain ⟨hne, hnul⟩ := (exact_iff (by omega)).mp h
  have hbyte : ∀ j, (l.insertAt i c).byte j =
      if j = i then c else if i < j ∧ j ≤ i + (l.len + 1 - i) then l.byte (j - 1) else l.byte j :=
    fun j => (byte_store _ (by omega) c j).trans (by rw [byte_moveUp _ (by omega)])
  refine (exact_iff (show l.len + 1 < 256 by omega)).mpr ⟨fun j hj => ?_, ?_⟩
  · have hj : j < l.len + 1 := hj
    rw [hbyte]
    split
    case isTrue => exact hc
    case isFalse hji =>
      split
      case isTrue => exact hne _ (by omega)
      case isFalse => exact hne _ (by omega)
  · rw [hbyte, show (l.insertAt i c).len = l.len + 1 from rfl, if_neg (by omega),
      if_pos (by omega), Nat.add_sub_cancel, hnul]

theorem store_exact {c : UInt8} (h : l.Exact) (hlen : l.len < 256) (hi : i < l.len) (hc : c ≠ 0) :
    (l.store i c).Exact := by
  obtain ⟨hne, hnul⟩ := (exact_iff hlen).mp h
  refine (exact_iff (l := l.store i c) hlen).mpr ⟨fun j hj => ?_, ?_⟩
  · rw [byte_store _ (by omega)]
    split
    case isTrue => exact hc
    case isFalse => exact hne j hj
  · rw [byte_store _ (by omega), len_store, if_neg (Nat.ne_of_gt hi), hnul]

theorem deleteAt_exact (h : l.Exact) (hlen : l.len < 256) (hi : i < l.len) :
    (l.deleteAt i).Exact := by
  obtain ⟨hne, hnul⟩ := (exact_iff hlen).mp h
  have hbyte : ∀ j, (l.deleteAt i).byte j =
      if i ≤ j ∧ j < i + (l.len - i) then l.byte (j + 1) else l.byte j :=
    fun j => byte_moveDown l Nat.one_pos (by omega) j
  refine (exact_iff (show l.len - 1 < 256 by omega)).mpr ⟨fun j hj => ?_, ?_⟩
  · have hj : j < l.len - 1 := hj
    rw [hbyte]
    split
    case isTrue => exact hne _ (by omega)
    case isFalse => exact hne _ (by omega)
  · rw [hbyte, show (l.deleteAt i).len = l.len - 1 from rfl, if_pos (by omega),
      Nat.sub_add_cancel (by omega), hnul]

theorem deleteTwoAt_exact (h : l.Exact) (hlen : l.len < 256) (hi : i + 2 ≤ l.len) :
    (l.deleteTwoAt i).Exact := by
  obtain ⟨hne, hnul⟩ := (exact_iff hlen).mp h
  have hbyte : ∀ j, (l.deleteTwoAt i).byte j =
      if i ≤ j ∧ j < i + (l.len - 1 - i) then l.byte (j + 2) else l.byte j :=
    fun j => byte_moveDown l Nat.two_pos (by omega) j
  refine (exact_iff (show l.len - 2 < 256 by omega)).mpr ⟨fun j hj => ?_, ?_⟩
  · have hj : j < l.len - 2 := hj
    rw [hbyte]
    split
    case isTrue => exact hne _ (by omega)
    case isFalse => exact hne _ (by omega)
  · rw [hbyte, show (l.deleteTwoAt i).len = l.len - 2 from rfl, if_pos (by omega),
      Nat.sub_add_cancel (by omega), hnul]

theorem truncate_exact (h : l.Exact) (hlen : l.len < 256) (hpos : pos ≤ l.len) :
    (l.truncate pos).Exact := by
  obtain ⟨hne, hnul⟩ := (exact_iff hlen).mp h
  have hbyte := byte_store l (show pos < 256 by omega) 0
  refine (exact_iff (show pos < 256 by omega)).mpr ⟨fun j hj => ?_, ?_⟩
  · exact (hbyte j).trans (if_neg (Nat.ne_of_lt hj)) ▸ hne j (Nat.lt_of_lt_of_le hj hpos)
  · exact (hbyte pos).trans (if_pos rfl)

theorem clear_exact (l : Textline) : l.clear.Exact := by
  refine (exact_iff (show 0 < 256 by decide)).mpr ⟨fun j hj => absurd hj (Nat.not_lt_zero j), ?_⟩
  exact (byte_store l (by decide) 0 0).trans (if_pos rfl)

theorem pad_exact (h : l.Exact) (hlen : l.len < wrapMargin) : l.pad.Exact := by
  have hlen' : l.len < 255 := hlen
  obtain ⟨hne, hnul⟩ := (exact_iff (by omega)).mp h
  have hbyte : ∀ j, l.pad.byte j = if j = l.len + 1 then 0 else if j = l.len then 32 else l.byte j :=
    fun j => (byte_store _ (by omega) 0 j).trans (by rw [byte_store _ (by omega)])
  refine (exact_iff (show l.len + 1 < 256 by omega)).mpr ⟨fun j hj => ?_, ?_⟩
  · have hj : j < l.len + 1 := hj
    rw [hbyte, if_neg (by omega)]
    split
    case isTrue => decide
    case isFalse => exact hne _ (by omega)
  · rw [hbyte]
    exact if_pos rfl

theorem getD_append_nul {s : Bytes} (h0 : 0 ∉ s) (hi : i < s.length) : (s ++ [0]).getD i 0 ≠ 0 := by
  rw [List.getD_eq_getElem?_getD, List.getElem?_append_left hi, List.getElem?_eq_getElem hi]
  exact fun h => h0 (h ▸ List.getElem_mem hi)

theorem rest_exact (h : l.Exact) (hlen : l.len < 256) (hpos : pos ≤ l.len) : (l.rest pos).Exact := by
  have hlength : l.text.length = l.len := h
  obtain ⟨-, h0⟩ := data_eq hlen h
  have htext := textFrom_eq hlen h hpos
  have hlt : (l.textFrom pos).length = l.len - pos := by rw [htext, List.length_drop, hlength]
  have h0' : 0 ∉ l.textFrom pos := fun hmem => h0 (List.mem_of_mem_drop (htext ▸ hmem))
  have hbyte := byte_write alloc (i := 0) (s := l.textFrom pos ++ [0])
    (by rw [List.length_append, hlt, List.length_singleton]; omega)
  refine (exact_iff (show l.len - pos < 256 by omega)).mpr ⟨fun j hj => ?_, ?_⟩
  · have hj : j < l.len - pos := hj
    refine (hbyte j).trans (if_pos ?_) ▸ getD_append_nul h0' (by omega)
    rw [List.length_append, hlt, List.length_singleton]
    omega
  · refine (hbyte _).trans ((if_pos ?_).trans ?_)
    · rw [List.length_append, hlt, List.length_singleton]
      exact ⟨Nat.zero_le _, by change l.len - pos < _; omega⟩
    · rw [Nat.sub_zero, show (l.rest pos).len = l.len - pos from rfl, ← hlt,
        List.getD_eq_getElem?_getD, List.getElem?_append_right (Nat.le_refl _), Nat.sub_self]
      rfl

theorem append_exact {s : Bytes} (h : l.Exact) (h0 : 0 ∉ s) (hlen : l.len + s.length < 256) :
    (l.append s s.length).Exact := by
  have hstrlen : l.strlen = l.len := h
  obtain ⟨hne, -⟩ := (exact_iff (by omega)).mp h
  have hbyte := byte_write l (i := l.strlen) (s := s ++ [0])
    (by rw [List.length_append, hstrlen, List.length_singleton]; omega)
  refine (exact_iff hlen).mpr ⟨fun j hj => ?_, ?_⟩
  · have hj : j < l.len + s.length := hj
    by_cases hjl : j < l.len
    · exact (hbyte j).trans (if_neg (by omega)) ▸ hne j hjl
    · refine (hbyte j).trans (if_pos ?_) ▸ getD_append_nul h0 (by omega)
      rw [List.length_append, List.length_singleton]
      omega
  · refine (hbyte _).trans ((if_pos ?_).trans ?_)
    · rw [List.length_append, List.length_singleton]
      change _ ≤ l.len + s.length ∧ l.len + s.length < _
      omega
    · rw [show (l.append s s.length).len - l.strlen = s.length from by
          change l.len + s.length - _ = _; omega,
        List.getD_eq_getElem?_getD, List.getElem?_append_right (Nat.le_refl _), Nat.sub_self]
      rfl

theorem append_text_exact (h : l.Exact) (hm : m.Exact) (hlen : l.len + m.len < 256) :
    (l.append m.text m.len).Exact := by
  have hlt : m.text.length = m.len := hm
  rw [← hlt] at hlen ⊢
  exact append_exact h (data_eq (by omega) hm).2 hlen

end Exact

/-! ## The strings of lines -/

section Text
variable {l m : Textline} {i pos : Nat}

/-- A string is the one in the buffer if it stands there with a NUL behind it. -/
theorem text_eq {s : Bytes} (h0 : 0 ∉ s) (hlen : s.length < 256)
    (hbyte : ∀ i < s.length, l.byte i = s.getD i 0) (hnul : l.byte s.length = 0) : l.text = s := by
  have hget : ∀ i < s.length, s.getD i 0 ≠ 0 := fun i hi h => h0 (by
    rw [List.getD_eq_getElem?_getD, List.getElem?_eq_getElem hi] at h
    exact h ▸ List.getElem_mem hi)
  have hlength : l.text.length = s.length := (length_takeWhile_eq_iff (l.size.symm ▸ hlen)).mpr
    ⟨fun i hi h => hget i hi ((hbyte i hi).symm.trans h), hnul⟩
  apply List.ext_getElem hlength
  intro i hi hi'
  have hi₀ := getD_text (l := l) hi
  rw [hbyte i hi', List.getD_eq_getElem?_getD, List.getD_eq_getElem?_getD,
    List.getElem?_eq_getElem hi, List.getElem?_eq_getElem hi'] at hi₀
  exact hi₀

theorem Exact.length_text (h : l.Exact) : l.text.length = l.len := h

theorem Exact.notMem (h : l.Exact) (hlen : l.len < 256) : 0 ∉ l.text := (data_eq hlen h).2

/-- The bytes of a line and the NUL behind them are those of its string. -/
theorem Exact.byte_eq (h : l.Exact) (hlen : l.len < 256) (hi : i ≤ l.len) :
    l.byte i = l.text.getD i 0 := by
  rcases Nat.eq_or_lt_of_le hi with rfl | hi
  · rw [((exact_iff hlen).mp h).2, List.getD_eq_getElem?_getD,
      List.getElem?_eq_none (Nat.le_of_eq h.length_text)]
    rfl
  · exact (getD_text (Nat.lt_of_lt_of_eq hi h.length_text.symm)).symm

theorem text_truncate (h : l.Exact) (hlen : l.len < 256) (hpos : pos ≤ l.len) :
    (l.truncate pos).text = l.text.take pos := by
  have hlength : (l.text.take pos).length = pos :=
    List.length_take_of_le (h.length_text.symm ▸ hpos)
  have hbyte := byte_store l (show pos < 256 by omega) 0
  refine text_eq (fun h0 => h.notMem hlen (List.mem_of_mem_take h0)) (by omega) (fun i hi => ?_) ?_
  · rw [hlength] at hi
    rw [List.getD_eq_getElem?_getD, List.getElem?_take_of_lt hi, ← List.getD_eq_getElem?_getD,
      ← h.byte_eq hlen (Nat.le_trans (Nat.le_of_lt hi) hpos)]
    exact (hbyte i).trans (if_neg (Nat.ne_of_lt hi))
  · rw [hlength]
    exact (hbyte pos).trans (if_pos rfl)

/-- What is written in front of a NUL is the string. -/
theorem text_write_nul {s : Bytes} (h0 : 0 ∉ s) (hlen : s.length < 256) :
    (l.write 0 (s ++ [0])).text = s := by
  have hlength : (s ++ [0]).length = s.length + 1 := List.length_append
  have hbyte := byte_write l (i := 0) (s := s ++ [0]) (by rw [hlength]; omega)
  refine text_eq h0 hlen (fun i hi => ?_) ?_
  · rw [hbyte, if_pos (by rw [hlength]; omega), Nat.sub_zero, List.getD_append _ _ _ _ hi]
  · rw [hbyte, if_pos (by rw [hlength]; omega), Nat.sub_zero,
      List.getD_append_right _ _ _ _ (Nat.le_refl _), Nat.sub_self]
    rfl

theorem text_rest (h : l.Exact) (hlen : l.len < 256) (hpos : pos ≤ l.len) :
    (l.rest pos).text = l.text.drop pos := by
  have htext := textFrom_eq hlen h hpos
  have h0 : 0 ∉ l.textFrom pos := fun h0 => h.notMem hlen (List.mem_of_mem_drop (htext ▸ h0))
  have hlt : (l.textFrom pos).length < 256 := by
    rw [htext, List.length_drop, h.length_text]
    omega
  rw [← htext]
  exact text_write_nul h0 hlt

theorem text_append {s : Bytes} {n : Nat} (h : l.Exact) (h0 : 0 ∉ s)
    (hlen : l.len + s.length < 256) : (l.append s n).text = l.text ++ s := by
  have hstrlen : l.strlen = l.len := h
  have hlength : (s ++ [0]).length = s.length + 1 := List.length_append
  have hbyte := byte_write l (i := l.strlen) (s := s ++ [0]) (by rw [hlength, hstrlen]; omega)
  have htotal : (l.text ++ s).length = l.len + s.length := by
    rw [List.length_append, h.length_text]
  refine text_eq ?_ (by omega) (fun i hi => ?_) ?_
  · rw [List.mem_append, not_or]
    exact ⟨h.notMem (by omega), h0⟩
  · refine (hbyte i).trans ?_
    rw [hstrlen, hlength]
    by_cases hil : i < l.len
    · rw [if_neg (by omega), h.byte_eq (by omega) (Nat.le_of_lt hil),
        List.getD_append _ _ _ _ (Nat.lt_of_lt_of_eq hil h.length_text.symm)]
    · rw [if_pos (by omega), List.getD_append _ _ _ _ (by omega),
        List.getD_append_right _ _ _ _ (by rw [h.length_text]; omega), h.length_text]
  · refine (hbyte _).trans ?_
    rw [hstrlen, hlength, htotal, if_pos (by omega), Nat.add_sub_cancel_left,
      List.getD_append_right _ _ _ _ (Nat.le_refl _), Nat.sub_self]
    rfl

theorem getD_take_append_drop {t : Bytes} (hi : i ≤ t.length) (k j : Nat) :
    (t.take i ++ t.drop k).getD j 0 = if j < i then t.getD j 0 else t.getD (j - i + k) 0 := by
  have hlength : (t.take i).length = i := List.length_take_of_le hi
  split
  case isTrue h =>
    rw [List.getD_append _ _ _ _ (by omega), List.getD_eq_getElem?_getD, List.getElem?_take_of_lt h,
      List.getD_eq_getElem?_getD]
  case isFalse h =>
    rw [List.getD_append_right _ _ _ _ (by omega), hlength, List.getD_eq_getElem?_getD,
      List.getElem?_drop, List.getD_eq_getElem?_getD, Nat.add_comm]

/-- A part of a string goes, and the rest with its NUL moves down. -/
theorem text_remove {gap : Nat} (h : l.Exact) (hlen : l.len < 256) (hgap : i + gap ≤ l.len)
    (hbyte : ∀ j ≤ l.len - gap, m.byte j = if j < i then l.byte j else l.byte (j + gap)) :
    m.text = l.text.take i ++ l.text.drop (i + gap) := by
  have hlength : (l.text.take i ++ l.text.drop (i + gap)).length = l.len - gap := by
    rw [List.length_append, List.length_take, List.length_drop, h.length_text]
    omega
  have hget : ∀ j ≤ l.len - gap,
      m.byte j = (l.text.take i ++ l.text.drop (i + gap)).getD j 0 := by
    intro j hj
    rw [getD_take_append_drop (by rw [h.length_text]; omega), hbyte j hj]
    split
    case isTrue => exact h.byte_eq hlen (by omega)
    case isFalse =>
      rw [h.byte_eq hlen (by omega), show j - i + (i + gap) = j + gap by omega]
  refine text_eq ?_ (by omega) (fun j hj => hget j (by omega)) ?_
  · rw [List.mem_append, not_or]
    exact ⟨fun h0 => h.notMem hlen (List.mem_of_mem_take h0),
      fun h0 => h.notMem hlen (List.mem_of_mem_drop h0)⟩
  · rw [hget _ (by omega), hlength, List.getD_eq_default _ _ (by omega)]

theorem text_deleteAt (h : l.Exact) (hlen : l.len < 256) (hi : i < l.len) :
    (l.deleteAt i).text = l.text.take i ++ l.text.drop (i + 1) := by
  refine text_remove h hlen hi fun j hj => ?_
  have hbyte : (l.deleteAt i).byte j =
      if i ≤ j ∧ j < i + (l.len - i) then l.byte (j + 1) else l.byte j :=
    byte_moveDown l Nat.one_pos (by omega) j
  rw [hbyte]
  by_cases hji : j < i
  · rw [if_neg (by omega), if_pos hji]
  · rw [if_pos (by omega), if_neg hji]

theorem text_deleteTwoAt (h : l.Exact) (hlen : l.len < 256) (hi : i + 2 ≤ l.len) :
    (l.deleteTwoAt i).text = l.text.take i ++ l.text.drop (i + 2) := by
  refine text_remove h hlen hi fun j hj => ?_
  have hbyte : (l.deleteTwoAt i).byte j =
      if i ≤ j ∧ j < i + (l.len - 1 - i) then l.byte (j + 2) else l.byte j :=
    byte_moveDown l Nat.two_pos (by omega) j
  rw [hbyte]
  by_cases hji : j < i
  · rw [if_neg (by omega), if_pos hji]
  · rw [if_pos (by omega), if_neg hji]

theorem text_insertAt {c : UInt8} (h : l.Exact) (hlen : l.len < wrapMargin) (hi : i ≤ l.len)
    (hc : c ≠ 0) : (l.insertAt i c).text = l.text.take i ++ c :: l.text.drop i := by
  have hlen' : l.len < 255 := hlen
  have htake : (l.text.take i).length = i := List.length_take_of_le (by rwa [h.length_text])
  have hlength : (l.text.take i ++ c :: l.text.drop i).length = l.len + 1 := by
    rw [List.length_append, List.length_cons, htake, List.length_drop, h.length_text]
    omega
  have hget : ∀ j ≤ l.len + 1, (l.insertAt i c).byte j =
      (l.text.take i ++ c :: l.text.drop i).getD j 0 := by
    intro j hj
    refine (byte_store _ (by omega) c j).trans ?_
    rw [byte_moveUp _ (by omega)]
    rcases Nat.lt_trichotomy j i with hji | rfl | hji
    · rw [if_neg (by omega), if_neg (by omega), h.byte_eq (by omega) (by omega),
        List.getD_append _ _ _ _ (by omega), List.getD_eq_getElem?_getD,
        List.getD_eq_getElem?_getD, List.getElem?_take_of_lt hji]
    · rw [if_pos rfl, List.getD_append_right _ _ _ _ (by omega), htake, Nat.sub_self]
      rfl
    · obtain ⟨k, rfl⟩ : ∃ k, j = i + k + 1 := ⟨j - i - 1, by omega⟩
      rw [if_neg (by omega), if_pos (by omega), Nat.add_sub_cancel, h.byte_eq (by omega) (by omega),
        List.getD_append_right _ _ _ _ (by omega), htake, Nat.add_assoc, Nat.add_sub_cancel_left,
        List.getD_cons_succ, List.getD_eq_getElem?_getD, List.getD_eq_getElem?_getD,
        List.getElem?_drop]
  refine text_eq ?_ (by omega) (fun j hj => hget j (by omega)) ?_
  · rw [List.mem_append, List.mem_cons, not_or, not_or]
    exact ⟨fun h0 => h.notMem (by omega) (List.mem_of_mem_take h0), Ne.symm hc,
      fun h0 => h.notMem (by omega) (List.mem_of_mem_drop h0)⟩
  · rw [hlength, hget _ (Nat.le_refl _), List.getD_eq_default _ _ (by omega)]

theorem text_pad (h : l.Exact) (hlen : l.len < wrapMargin) : l.pad.text = l.text ++ [32] := by
  have hlen' : l.len < 255 := hlen
  have hlength : (l.text ++ [32]).length = l.len + 1 := by
    rw [List.length_append, h.length_text, List.length_singleton]
  have hbyte : ∀ j, l.pad.byte j = if j = l.len + 1 then 0 else if j = l.len then 32 else l.byte j :=
    fun j => (byte_store _ (by omega) 0 j).trans (by rw [byte_store _ (by omega)])
  refine text_eq ?_ (by omega) (fun j hj => ?_) ?_
  · rw [List.mem_append, not_or]
    exact ⟨h.notMem (by omega), by decide⟩
  · rw [hbyte, if_neg (by omega)]
    split
    case isTrue hj =>
      rw [hj, List.getD_append_right _ _ _ _ (Nat.le_of_eq h.length_text), h.length_text,
        Nat.sub_self]
      rfl
    case isFalse hj =>
      rw [h.byte_eq (by omega) (by omega),
        List.getD_append _ _ _ _ (by rw [h.length_text]; omega)]
  · rw [hlength, hbyte, if_pos rfl]

end Text

end Textline

end ArgoBbs

import ArgoBbs.Board.Select
import ArgoBbs.Lib.Cells
import ArgoBbs.Lib.Characters
import ArgoBbs.Lib.Selection
import Mathlib.Data.List.Chain

/-! # Boards for a keyword

`x_keyquery` cleans up the line that the user has typed, sets letters and double-byte characters
apart, and lists the boards that have the largest values for the words (`xyz.c`). -/

namespace ArgoBbs

/-! ## The query -/

/-- `IS_ZH` -/
def isZh (c : UInt8) : Bool := 0x80 ≤ c

/-- `ZH_POINT` -/
def zhPoint : Bytes :=
  [0xa3, 0xac, 0xa1, 0xa3, 0xa3, 0xa1, 0xa3, 0xbf, 0xa3, 0xa4, 0xa1, 0xad, 0xa1, 0xc1, 0xa3, 0xa8,
   0xa3, 0xa9, 0xa9, 0xa4, 0xa1, 0xa2, 0xa1, 0xa4, 0xa3, 0xdb, 0xa3, 0xdd, 0xa3, 0xbb, 0xa3, 0xba,
   0xa1, 0xae, 0xa1, 0xaf, 0xa1, 0xb0, 0xa1, 0xb1, 0xa1, 0xbe, 0xa1, 0xbf, 0xa1, 0xb6, 0xa1, 0xb7,
   0xa1, 0xaa, 0xa3, 0xfe, 0xa1, 0xab, 0xa1, 0xb8, 0xa1, 0xb9, 0xa1, 0xba, 0xa1, 0xbb, 0xa1, 0xbc,
   0xa1, 0xbd, 0xa3, 0xe0, 0xa3, 0xc0, 0xa3, 0xa3, 0xa3, 0xa5, 0xa3, 0xde, 0xa3, 0xa6, 0xa3, 0xaa,
   0xa3, 0xab, 0xa3, 0xad, 0xa3, 0xdf, 0xa3, 0xbd, 0xa3, 0xfc, 0xa3, 0xdc, 0xa3, 0xfb, 0xa3, 0xfd,
   0xa3, 0xa2, 0xa3, 0xa7, 0xa3, 0xaf, 0xa3, 0xbc, 0xa3, 0xbe, 0xa3, 0xac, 0xa3, 0xae, 0xa1, 0xa1,
   0xa1, 0xf0, 0xa1, 0xf1, 0xa1, 0xf2, 0xa1, 0xf3, 0xa1, 0xf4, 0xa1, 0xf5, 0xa1, 0xf6, 0xa1, 0xf7,
   0xa1, 0xf8, 0xa1, 0xf9, 0xa1, 0xfa, 0xa1, 0xfb, 0xa1, 0xfc, 0xa1, 0xfd]

/-- `zh_in_set` for the two bytes of a character; `strncmp` compares no more if the first is zero. -/
def zhInSet (c d : UInt8) : Bytes → Bool
  | a :: b :: set => (c == a && (c == 0 || d == b)) || zhInSet c d set
  | _ => false

/-- The line and what follows it in the array `query`. -/
structure QueryBuffer where
  text : Bytes
  behind : Bytes
  size : text.length + 1 + behind.length = 140
  short : text.length < 68
  text_ne : 0 ∉ text

def QueryBuffer.cells (b : QueryBuffer) : Bytes := b.text ++ 0 :: b.behind

/-- The loop that changes capital letters; nothing if it leaves the array. -/
def lowerPass : Bytes → Option Bytes
  | [] => none
  | c :: rest => if c = 0 then some (c :: rest) else (lowerPass rest).map (tolower c :: ·)

def clearSpecial (c : UInt8) : UInt8 := if isalnum c then c else 32

/-- The loop that clears punctuation; nothing if it leaves the array. -/
def cleanPass : Bytes → Option Bytes
  | [] => none
  | [c] => if c = 0 then some [c] else none
  | c :: d :: rest =>
    if c = 0 then some (c :: d :: rest)
    else if isZh c then
      (cleanPass rest).map fun rest =>
        if zhInSet c d zhPoint then 32 :: 32 :: rest else c :: d :: rest
    else (cleanPass (d :: rest)).map (clearSpecial c :: ·)

/-- The cells from `p` on are moved up by one; `k` of them are left, from the last one on. -/
def moveUp (query : Bytes) (p : Nat) : Nat → Option Bytes
  | 0 => some query
  | k + 1 =>
    (cell query (p + k)).bind fun c => (setCell query (p + k + 1) c).bind fun query =>
      moveUp query p k

/-- A blank is put in front of the cell `p` of a text that ends at `len`. -/
def insertBlank (query : Bytes) (p len : Nat) : Option Bytes :=
  (moveUp query p (len + 1 - p)).bind fun query => setCell query p 32

/-- A round of the loop that sets letters and double-byte characters apart: where a blank is put, if
it is, and where the loop goes on. -/
def splitRound (query : Bytes) (i len : Nat) : Option (Option Nat × Nat) :=
  (cell query i).bind fun c =>
    if c = 32 ∨ c = 9 then some (none, i + 1)
    else if isZh c then
      if i + 2 < len then
        (cell query (i + 2 : Nat)).map fun e =>
          if isZh e then (none, i + 2) else (some (i + 2), i + 3)
      else some (none, i + 2)
    else
      (cell query (i + 1 : Nat)).map fun d =>
        if isZh d then (some (i + 1), i + 2) else (none, i + 1)

def splitLoop : (fuel : Nat) → Bytes → Nat → Nat → Option Bytes
  | 0, _, _, _ => none
  | fuel + 1, query, i, len =>
    if len ≤ i then some query
    else
      match splitRound query i len with
      | none => none
      | some (none, j) => splitLoop fuel query j len
      | some (some p, j) =>
        (insertBlank query p len).bind fun query => splitLoop fuel query j (len + 1)

/-- The passes over `query`. As many rounds as the text has bytes are enough. -/
def splitQuery (query : Bytes) : Option Bytes := do
  let query ← lowerPass query
  let query ← cleanPass query
  let len ← query.findIdx? (· = 0)
  splitLoop (len + 1) query 0 len

/-- Whether a character is made of two bytes, unless it is a blank. -/
def charKind : Bytes → Option Bool
  | [] => none
  | c :: _ => if c = 32 ∨ c = 9 then none else some (isZh c)

/-- Letters and double-byte characters do not follow one another. -/
def MayFollow (x y : Bytes) : Prop :=
  charKind x = none ∨ charKind y = none ∨ charKind x = charKind y

def Separated (text : Bytes) : Prop := (chars isZh text).IsChain MayFollow

/-- The characters that stay: letters and digits, and double-byte characters that are no
punctuation. -/
def staysInQuery : Bytes → Bool
  | [c] => isZh c || isalnum c
  | [c, d] => !zhInSet c d zhPoint
  | _ => false

def nonblank (x : Bytes) : Bool := x ≠ [32]

/-- The passes stay within the array, and leave the characters that are to stay, set apart by
blanks. -/
def SplitsRight (b : QueryBuffer) : Prop :=
  ∃ text behind, splitQuery b.cells = some (text ++ 0 :: behind) ∧ 0 ∉ text ∧
    text.length + 1 + behind.length = 140 ∧ Separated text ∧
    (chars isZh text).filter nonblank = (chars isZh (b.text.map tolower)).filter staysInQuery

/-! ## The list -/

/-- `defaultboard` is `DEFAULTBOARD`. -/
def keyqueryAdmits (defaultboard : Bytes) (b : Board) : Bool :=
  b.filename = defaultboard ||
    !(b.filename = [] || b.has brdRestrict || b.has brdGroup || b.level ≠ 0)

/-- The boards that are evaluated. -/
def keyqueryBoards (defaultboard : Bytes) (table : BoardTable) : List Nat :=
  (List.range table.numboards).filter fun i => keyqueryAdmits defaultboard (table.bcache i)

/-- The arrays `value` and `index`, with what `keyquery_eval_file` gives for the boards; nothing if
they do not have enough places. -/
def evalBoards (eval : Nat → Int) (boards : List Nat) : Option (List (Int × Nat)) :=
  if boards.length ≤ 1024 then some (boards.map fun i => (eval i, i)) else none

/-- `top` -/
def keyqueryTop (found : List (Int × Nat)) : Int :=
  if (5 : Int) < found.length - 1 then 5 else found.length - 1

/-- The boards listed. `unset` is what the array `value` has at first. -/
def listTop (unset : Int) (found : List (Int × Nat)) : List (Int × Nat) :=
  let top := (keyqueryTop found).toNat
  let found := selectTop (·.1) top found
  if (found.head?.map (·.1)).getD unset ≤ 0 then [] else (found.take top).takeWhile (0 < ·.1)

/-- The boards listed are those with the largest values, if these are positive. -/
structure ListsBest (found listed : List (Int × Nat)) : Prop where
  sorted : listed.Pairwise fun x y => y.1 ≤ x.1
  best : ∃ rest, (listed ++ rest).Perm (found.filter (0 < ·.1)) ∧ ∀ x ∈ listed, ∀ y ∈ rest, y.1 ≤ x.1
  length : listed.length = min 5 (found.countP (0 < ·.1))

/-! ## The passes over the query -/

section
variable {c d : UInt8} {text behind query : Bytes} {p k : Nat}

/-- What the passes make of a byte. -/
theorem passes_byte (n : Fin 256) :
    (tolower (.ofFin n) = 0 ↔ UInt8.ofFin n = 0) ∧ isZh (tolower (.ofFin n)) = isZh (.ofFin n) ∧
      clearSpecial (.ofFin n) ≠ 0 ∧ isZh (clearSpecial (.ofFin n)) = false ∧
      (clearSpecial (.ofFin n) = 32 ↔ isalnum (.ofFin n) = false) := by
  revert n
  decide +kernel

theorem tolower_eq_zero : tolower c = 0 ↔ c = 0 := And.left (passes_byte c.toFin)

theorem isZh_tolower (c : UInt8) : isZh (tolower c) = isZh c := by
  obtain ⟨-, hzh, -⟩ := passes_byte c.toFin
  exact hzh

theorem clearSpecial_ne_zero (c : UInt8) : clearSpecial c ≠ 0 := by
  obtain ⟨-, -, hne, -⟩ := passes_byte c.toFin
  exact hne

theorem isZh_clearSpecial (c : UInt8) : isZh (clearSpecial c) = false := by
  obtain ⟨-, -, -, hzh, -⟩ := passes_byte c.toFin
  exact hzh

theorem clearSpecial_eq_blank : clearSpecial c = 32 ↔ isalnum c = false := by
  obtain ⟨-, -, -, -, hblank⟩ := passes_byte c.toFin
  exact hblank

theorem zhInSet_zero {set : Bytes} (h : zhInSet c 0 set = true) : c = 0 ∨ 0 ∈ set := by
  induction set using zhInSet.induct with
  | case1 a b set ih =>
    rw [zhInSet, Bool.or_eq_true, Bool.and_eq_true, Bool.or_eq_true, beq_iff_eq, beq_iff_eq,
      beq_iff_eq] at h
    obtain ⟨-, hc | rfl⟩ | h := h
    · exact .inl hc
    · exact .inr (by simp)
    · exact (ih h).imp id fun hmem => List.mem_cons_of_mem _ (List.mem_cons_of_mem _ hmem)
  | case2 set hset =>
    rw [zhInSet] at h
    · cases h
    · exact hset

theorem zhInSet_zhPoint (h : c ≠ 0) : zhInSet c 0 zhPoint = false :=
  Bool.eq_false_iff.mpr fun hset => (zhInSet_zero hset).elim h (by decide +kernel)

theorem ne_zero_of_isZh (h : isZh c = true) : c ≠ 0 := by
  rintro rfl
  cases h

theorem lowerPass_eq (h : 0 ∉ text) :
    lowerPass (text ++ 0 :: behind) = some (text.map tolower ++ 0 :: behind) := by
  induction text with
  | nil => rfl
  | cons c text ih =>
    obtain ⟨hc, htext⟩ := List.ne_and_not_mem_of_not_mem_cons h
    rw [List.cons_append, lowerPass, if_neg (Ne.symm hc), ih htext]
    rfl

/-- What the clean-up makes of a text. -/
def cleanText : Bytes → Bytes
  | [] => []
  | [c] => if isZh c then [c] else [clearSpecial c]
  | c :: d :: rest =>
    if isZh c then
      if zhInSet c d zhPoint then 32 :: 32 :: cleanText rest else c :: d :: cleanText rest
    else clearSpecial c :: cleanText (d :: rest)

theorem cleanText_single (h : isZh c = false) :
    cleanText (c :: text) = clearSpecial c :: cleanText text := by
  cases text <;> simp [cleanText, h]

theorem cleanText_double (h : isZh c = true) :
    cleanText (c :: d :: text) =
      if zhInSet c d zhPoint then 32 :: 32 :: cleanText text else c :: d :: cleanText text := by
  rw [cleanText, if_pos h]

theorem cleanPass_single (h : isZh c = false) (hc : c ≠ 0) :
    cleanPass (c :: text) = (cleanPass text).map (clearSpecial c :: ·) := by
  cases text <;> simp [cleanPass, h, hc]

theorem cleanPass_double (h : isZh c = true) :
    cleanPass (c :: d :: text) = (cleanPass text).map fun rest =>
      if zhInSet c d zhPoint then 32 :: 32 :: rest else c :: d :: rest := by
  rw [cleanPass, if_neg (ne_zero_of_isZh h), if_pos h]

theorem cleanPass_zero : cleanPass (0 :: text) = some (0 :: text) := by
  cases text <;> rfl

/-- The clean-up stays within the array if it comes to a zero byte where a character starts. -/
theorem cleanPass_isSome : (cleanPass text).isSome = true ↔ [0] ∈ chars isZh text := by
  induction text using chars_induction isZh with
  | nil => simp [cleanPass, chars]
  | last c h => simp [cleanPass, chars, ne_zero_of_isZh h, (ne_zero_of_isZh h).symm]
  | double c d text h ih => rw [cleanPass_double h, Option.isSome_map, ih, chars_of_lead h]; simp
  | single c text h ih =>
    rw [chars_of_single h]
    by_cases hc : c = 0
    · subst hc
      simp [cleanPass_zero]
    · rw [cleanPass_single h hc, Option.isSome_map, ih]
      simp [Ne.symm hc]

theorem length_cleanPass {out : Bytes} (h : cleanPass text = some out) :
    out.length = text.length := by
  induction text using chars_induction isZh generalizing out with
  | nil => cases h
  | last c hc => simp [cleanPass, ne_zero_of_isZh hc] at h
  | double c d text hc ih =>
    rw [cleanPass_double hc] at h
    obtain ⟨rest, hrest, rfl⟩ := Option.map_eq_some_iff.mp h
    split <;> simp [ih hrest]
  | single c text hc ih =>
    by_cases hzero : c = 0
    · subst hzero
      rw [cleanPass_zero] at h
      rw [← Option.some.inj h]
    · rw [cleanPass_single hc hzero] at h
      obtain ⟨rest, hrest, rfl⟩ := Option.map_eq_some_iff.mp h
      simp [ih hrest]

/-- The clean-up of the line; it goes on behind the line if the line ends with half a character. -/
theorem cleanPass_eq (behind : Bytes) (h : 0 ∉ text) : cleanPass (text ++ 0 :: behind) =
    if endsOpen isZh text then (cleanPass behind).map (cleanText text ++ 0 :: ·)
    else some (cleanText text ++ 0 :: behind) := by
  induction text using chars_induction isZh with
  | nil => exact cleanPass_zero
  | last c hc =>
    rw [endsOpen_singleton, if_pos hc, List.singleton_append, cleanPass_double hc,
      zhInSet_zhPoint (ne_zero_of_isZh hc), cleanText, if_pos hc]
    rfl
  | double c d text hc ih =>
    have htext : 0 ∉ text := fun hmem => h (List.mem_cons_of_mem _ (List.mem_cons_of_mem _ hmem))
    rw [endsOpen_of_lead hc, List.cons_append, List.cons_append, cleanPass_double hc, ih htext,
      cleanText_double hc]
    split <;> split <;> simp [Option.map_map, Function.comp_def]
  | single c text hc ih =>
    obtain ⟨hzero, htext⟩ := List.ne_and_not_mem_of_not_mem_cons h
    rw [endsOpen_of_single hc, List.cons_append, cleanPass_single hc (Ne.symm hzero), ih htext,
      cleanText_single hc]
    split <;> simp [Option.map_map, Function.comp_def]

/-- The cells are moved onto the one behind them, which is lost; the first one stays as it was. -/
theorem moveUp_eq {front moved : Bytes} (x : UInt8) (hp : front.length = p)
    (hk : moved.length = k) : moveUp (front ++ moved ++ x :: behind) p k =
      some (front ++ (moved ++ [x]).head (by simp) :: moved ++ behind) := by
  induction k generalizing moved x behind with
  | zero =>
    obtain rfl := List.eq_nil_of_length_eq_zero hk
    simp [moveUp]
  | succ k ih =>
    obtain ⟨moved, y, rfl⟩ :=
      (List.eq_nil_or_concat' moved).resolve_left (List.ne_nil_of_length_eq_add_one hk)
    have hk : moved.length = k := by simpa using hk
    have hcell : cell (front ++ (moved ++ [y]) ++ x :: behind) (p + k) = some y := by
      rw [← Int.natCast_add, cell_nat, ← hp, ← hk]
      simp
    have hset : setCell (front ++ (moved ++ [y]) ++ x :: behind) (p + k + 1) y =
        some (front ++ moved ++ y :: y :: behind) := by
      have hsucc : (p : Int) + k + 1 = (p + k + 1 : Nat) := by omega
      have hsplit : front ++ (moved ++ [y]) ++ x :: behind = (front ++ moved ++ [y]) ++ x :: behind := by
        simp
      have hlength : (front ++ moved ++ [y]).length = p + k + 1 := by simp [hp, hk]; omega
      rw [hsucc, setCell_eq (by simp; omega), hsplit, List.set_append_right _ _ (by omega), hlength,
        Nat.sub_self]
      simp
    rw [moveUp, hcell, Option.bind_some, hset, Option.bind_some, ih y hk]
    simp [List.head_append]

theorem insertBlank_eq {front moved : Bytes} {len : Nat} (x : UInt8)
    (hlen : len + 1 = front.length + moved.length) :
    insertBlank (front ++ moved ++ x :: behind) front.length len =
      some (front ++ 32 :: moved ++ behind) := by
  rw [insertBlank, moveUp_eq x rfl (by omega), Option.bind_some, setCell_eq (by simp)]
  simp

/-- What the splitting makes of a text. -/
def splitText : Bytes → Bytes
  | [] => []
  | [c] => [c]
  | c :: d :: rest =>
    if isZh c then
      c :: d :: if rest.head?.any (!isZh ·) then 32 :: splitText rest else splitText rest
    else if c ≠ 32 ∧ c ≠ 9 ∧ isZh d = true then c :: 32 :: splitText (d :: rest)
    else c :: splitText (d :: rest)

theorem splitText_double (d : UInt8) (text : Bytes) (h : isZh c = true) : splitText (c :: d :: text) =
    c :: d :: if text.head?.any (!isZh ·) then 32 :: splitText text else splitText text := by
  rw [splitText, if_pos h]

theorem splitText_single (text : Bytes) (h : isZh c = false) : splitText (c :: text) =
    if c ≠ 32 ∧ c ≠ 9 ∧ text.head?.any isZh = true then c :: 32 :: splitText text
    else c :: splitText text := by
  cases text with
  | nil => simp [splitText]
  | cons d text =>
    rw [splitText, if_neg (Bool.eq_false_iff.mp h)]
    rfl

/-- At most one blank is put in behind each character. -/
theorem length_splitText (text : Bytes) :
    text.length ≤ (splitText text).length ∧ (splitText text).length ≤ 2 * text.length := by
  induction text using chars_induction isZh with
  | nil => exact ⟨Nat.le_refl _, Nat.le_refl _⟩
  | last c h => simp [splitText]
  | double c d text h ih =>
    rw [splitText_double d text h]
    split <;> simp <;> omega
  | single c text h ih =>
    rw [splitText_single text h]
    split <;> simp <;> omega

theorem zero_notMem_splitText (h : 0 ∉ text) : 0 ∉ splitText text := by
  induction text using chars_induction isZh with
  | nil => exact h
  | last c hc => exact h
  | double c d text hc ih =>
    rw [splitText_double d text hc]
    split <;> simp_all
  | single c text hc ih =>
    rw [splitText_single text hc]
    split <;> simp_all

theorem zero_notMem_cleanText (h : 0 ∉ text) : 0 ∉ cleanText text := by
  induction text using chars_induction isZh with
  | nil => exact h
  | last c hc => rwa [cleanText, if_pos hc]
  | double c d text hc ih =>
    rw [cleanText_double hc]
    split <;> simp_all
  | single c text hc ih =>
    rw [cleanText_single hc]
    simp_all [(clearSpecial_ne_zero c).symm]

theorem length_cleanText : (cleanText text).length = text.length := by
  induction text using chars_induction isZh with
  | nil => rfl
  | last c hc => rw [cleanText, if_pos hc]
  | double c d text hc ih =>
    rw [cleanText_double hc]
    split <;> simp [ih]
  | single c text hc ih => rw [cleanText_single hc, List.length_cons, ih, List.length_cons]

theorem nonblank_blank : nonblank [32] = false := rfl

theorem nonblank_double : nonblank [c, d] = true := decide_eq_true (by simp)

theorem nonblank_single (h : c ≠ 32) : nonblank [c] = true := decide_eq_true (by simpa using h)

/-- The characters of a text that has been cleaned up, without the blanks. -/
theorem chars_cleanText : (chars isZh (cleanText text)).filter nonblank =
    (chars isZh text).filter staysInQuery := by
  have h32 : isZh 32 = false := rfl
  induction text using chars_induction isZh with
  | nil => rfl
  | last c hc =>
    have hne : c ≠ 32 := by
      rintro rfl
      cases hc
    rw [cleanText, if_pos hc]
    simp [chars, staysInQuery, hc, nonblank_single hne]
  | double c d text hc ih =>
    rw [cleanText_double hc, chars_of_lead hc]
    split
    case isTrue hset => simp [chars_of_single h32, staysInQuery, hset, nonblank_blank, ih]
    case isFalse hset => simp [chars_of_lead hc, staysInQuery, hset, nonblank_double, ih]
  | single c text hc ih =>
    have hclear : clearSpecial c = 32 ↔ isalnum c = false := clearSpecial_eq_blank
    rw [cleanText_single hc, chars_of_single (isZh_clearSpecial c), chars_of_single hc]
    cases halnum : isalnum c with
    | true =>
      have hne : clearSpecial c ≠ 32 := by simp [hclear, halnum]
      have heq : clearSpecial c = c := if_pos halnum
      rw [heq] at hne ⊢
      simp [staysInQuery, halnum, nonblank_single hne, ih]
    | false => simp [staysInQuery, hc, halnum, hclear.mpr halnum, nonblank_blank, ih]

/-- The splitting puts in blanks only. -/
theorem chars_splitText : (chars isZh (splitText text)).filter nonblank =
    (chars isZh text).filter nonblank := by
  have h32 : isZh 32 = false := rfl
  induction text using chars_induction isZh with
  | nil => rfl
  | last c hc => rfl
  | double c d text hc ih =>
    rw [splitText_double d text hc, chars_of_lead hc, chars_of_lead hc]
    split <;> simp [chars_of_single h32, nonblank_blank, nonblank_double, ih]
  | single c text hc ih =>
    rw [splitText_single text hc, chars_of_single hc]
    split <;> simp [chars_of_single h32, chars_of_single hc, List.filter_cons, nonblank_blank, ih]

/-- A blank is put in front of the rest of a text. -/
theorem insertBlank_text (behind : Bytes) {front text : Bytes} {len : Nat}
    (hlen : len = front.length + text.length) (x : UInt8) :
    insertBlank (front ++ text ++ 0 :: x :: behind) front.length len =
      some (front ++ 32 :: text ++ 0 :: behind) := by
  have hlen' : len + 1 = front.length + (text ++ [0]).length := by
    rw [List.length_append, List.length_singleton]
    omega
  simpa using @insertBlank_eq behind front (text ++ [0]) len x hlen'

theorem not_blank_of_isZh (h : isZh c = true) : ¬(c = 32 ∨ c = 9) := by
  rintro (rfl | rfl) <;> cases h

/-- The round at half a character, with which the text ends. -/
theorem splitRound_last (front behind : Bytes) (h : isZh c = true) :
    splitRound (front ++ c :: behind) front.length (front.length + 1) =
      some (none, front.length + 2) := by
  simp only [splitRound, cell_nat]
  simp [not_blank_of_isZh h, h]

/-- The round at a double-byte character. -/
theorem splitRound_double (front text behind : Bytes) (h : isZh c = true) :
    splitRound (front ++ c :: d :: (text ++ 0 :: behind)) front.length
      (front.length + (text.length + 2)) = some (
        if text.head?.any (!isZh ·) then (some (front.length + 2), front.length + 3)
        else (none, front.length + 2)) := by
  simp only [splitRound, cell_nat]
  cases text with
  | nil => simp [not_blank_of_isZh h, h]
  | cons e text => cases he : isZh e <;> simp [not_blank_of_isZh h, h, he]

/-- The round at another character. -/
theorem splitRound_single (front text behind : Bytes) (len : Nat) (h : isZh c = false) :
    splitRound (front ++ c :: (text ++ 0 :: behind)) front.length len =
      some (if c ≠ 32 ∧ c ≠ 9 ∧ text.head?.any isZh = true then
        (some (front.length + 1), front.length + 2) else (none, front.length + 1)) := by
  have hzero : isZh 0 = false := rfl
  simp only [splitRound, cell_nat]
  by_cases hblank : c = 32 ∨ c = 9
  · have hnot : ¬(c ≠ 32 ∧ c ≠ 9 ∧ text.head?.any isZh = true) := by tauto
    rw [if_neg hnot]
    simp [hblank]
  · obtain ⟨h32, h9⟩ := not_or.mp hblank
    cases text with
    | nil => simp [h32, h9, h, hzero]
    | cons d text => simp [h32, h9, h]

/-- A round that puts no blank in. -/
theorem splitLoop_skip {fuel i j len : Nat} (hlt : i < len)
    (h : splitRound query i len = some (none, j)) :
    splitLoop (fuel + 1) query i len = splitLoop fuel query j len := by
  rw [splitLoop, if_neg (by omega), h]

/-- A round that puts a blank in. -/
theorem splitLoop_insert {fuel i j len : Nat} (hlt : i < len)
    (h : splitRound query i len = some (some p, j)) {out : Bytes}
    (hout : insertBlank query p len = some out) :
    splitLoop (fuel + 1) query i len = splitLoop fuel out j (len + 1) := by
  rw [splitLoop, if_neg (by omega), h]
  dsimp only
  rw [hout, Option.bind_some]

/-- The loop goes on behind `front` and splits the rest of the text. -/
def Splits (fuel : Nat) (front text behind : Bytes) : Prop :=
  ∃ behind', (splitText text).length + behind'.length = text.length + behind.length ∧
    splitLoop fuel (front ++ text ++ 0 :: behind) front.length (front.length + text.length) =
      some (front ++ splitText text ++ 0 :: behind')

namespace Splits
variable {fuel : Nat} {front passed : Bytes} {x : UInt8}

theorem skip (h : Splits fuel (front ++ passed) text behind)
    (hround : splitRound (front ++ (passed ++ text) ++ 0 :: behind) front.length
      (front.length + (passed ++ text).length) = some (none, (front ++ passed).length))
    (hpassed : passed ≠ []) (htext : splitText (passed ++ text) = passed ++ splitText text) :
    Splits (fuel + 1) front (passed ++ text) behind := by
  obtain ⟨behind', hlength, hloop⟩ := h
  have hpos := List.length_pos_iff.mpr hpassed
  refine ⟨behind', by rw [htext, List.length_append, List.length_append]; omega, ?_⟩
  rw [splitLoop_skip (by rw [List.length_append]; omega) hround, htext, ← List.append_assoc,
    ← List.append_assoc, @List.length_append _ passed, ← Nat.add_assoc, ← List.length_append, hloop]

theorem insert (h : Splits fuel (front ++ passed ++ [32]) text behind)
    (hround : splitRound (front ++ (passed ++ text) ++ 0 :: x :: behind) front.length
      (front.length + (passed ++ text).length) =
        some (some (front ++ passed).length, (front ++ passed).length + 1))
    (hpassed : passed ≠ []) (htext : splitText (passed ++ text) = passed ++ 32 :: splitText text) :
    Splits (fuel + 1) front (passed ++ text) (x :: behind) := by
  obtain ⟨behind', hlength, hloop⟩ := h
  have hpos := List.length_pos_iff.mpr hpassed
  have hlen : front.length + (passed ++ text).length = (front ++ passed).length + text.length := by
    rw [List.length_append, List.length_append, Nat.add_assoc]
  have hblank := insertBlank_text behind hlen x
  rw [List.append_assoc front] at hblank
  refine ⟨behind', by simp [htext]; omega, ?_⟩
  rw [splitLoop_insert (by rw [List.length_append]; omega) hround hblank, htext]
  have hlen' : front.length + (passed ++ text).length + 1 =
      (front ++ passed ++ [32]).length + text.length := by simp; omega
  rw [hlen', ← List.length_singleton (a := (32 : UInt8)), ← List.length_append]
  simpa using hloop

/-- The round at a character, behind which a blank is put in if there is room for it. -/
theorem cons {blank : Prop} [Decidable blank]
    (ih : ∀ {fuel : Nat} (front behind : Bytes), text.length < fuel →
      (splitText text).length ≤ text.length + behind.length → Splits fuel front text behind)
    (hround : ∀ behind, splitRound (front ++ (passed ++ text) ++ 0 :: behind) front.length
      (front.length + (passed ++ text).length) = some (if blank then
        (some (front ++ passed).length, (front ++ passed).length + 1)
        else (none, (front ++ passed).length)))
    (htext : splitText (passed ++ text) =
      passed ++ if blank then 32 :: splitText text else splitText text)
    (hpassed : passed ≠ []) (hfuel : (passed ++ text).length < fuel)
    (hroom : (splitText (passed ++ text)).length ≤ (passed ++ text).length + behind.length) :
    Splits fuel front (passed ++ text) behind := by
  have hpos := List.length_pos_iff.mpr hpassed
  rw [List.length_append] at hfuel
  cases fuel with
  | zero => omega
  | succ fuel =>
    by_cases hblank : blank
    · simp only [if_pos hblank] at hround htext
      simp only [htext, List.length_append, List.length_cons] at hroom
      cases behind with
      | nil =>
        have hle := (length_splitText text).1
        simp only [List.length_nil] at hroom
        omega
      | cons x behind =>
        simp only [List.length_cons] at hroom
        have hrest : Splits fuel (front ++ passed ++ [32]) text behind :=
          ih _ behind (by omega) (by omega)
        exact hrest.insert (hround _) hpassed htext
    · simp only [if_neg hblank] at hround htext
      simp only [htext, List.length_append] at hroom
      have hrest : Splits fuel (front ++ passed) text behind := ih _ behind (by omega) (by omega)
      exact hrest.skip (hround _) hpassed htext

end Splits

/-- The loop splits the rest of a text, if there is room for the blanks. -/
theorem splits {fuel : Nat} (front behind : Bytes) (hfuel : text.length < fuel)
    (hroom : (splitText text).length ≤ text.length + behind.length) :
    Splits fuel front text behind := by
  induction text using chars_induction isZh generalizing fuel front behind with
  | nil =>
    cases fuel with
    | zero => omega
    | succ fuel =>
      refine ⟨behind, rfl, ?_⟩
      rw [splitLoop, if_pos (by simp)]
      rfl
  | last c h =>
    match fuel, hfuel with
    | fuel + 2, _ =>
      have hround := splitRound_last front (0 :: behind) h
      refine ⟨behind, rfl, ?_⟩
      rw [List.append_assoc, List.singleton_append, List.length_singleton,
        splitLoop_skip (Nat.lt_succ_self _) hround, splitLoop, if_pos (Nat.le_succ _)]
      simp [splitText]
  | double c d text h ih =>
    have hround := fun behind => splitRound_double (d := d) front text behind h
    exact Splits.cons ih (by simpa using hround) (splitText_double d text h)
      (List.cons_ne_nil c [d]) hfuel hroom
  | single c text h ih =>
    have hround := fun behind =>
      splitRound_single front text behind (front.length + (text.length + 1)) h
    have htext := (splitText_single text h).trans (apply_ite (List.cons c) ..).symm
    exact Splits.cons ih (by simpa using hround) htext (List.cons_ne_nil c []) hfuel hroom

/-- A text begins with a character of the kind of its first byte. -/
theorem charKind_head (text : Bytes) :
    ∀ y ∈ (chars isZh text).head?, charKind y = charKind text := by
  cases text with
  | nil => simp [chars]
  | cons c text =>
    cases hc : isZh c with
    | false => simp [chars_of_single hc, charKind]
    | true =>
      cases text with
      | nil => simp [chars]
      | cons d text => simp [chars_of_lead hc, charKind]

theorem charKind_splitText (text : Bytes) : charKind (splitText text) = charKind text := by
  cases text with
  | nil => rfl
  | cons c text =>
    cases hc : isZh c with
    | false => rw [splitText_single text hc]; split <;> rfl
    | true =>
      cases text with
      | nil => rfl
      | cons d text => rw [splitText_double d text hc]; split <;> rfl

theorem charKind_of_blank (h : c = 32 ∨ c = 9) : charKind (c :: text) = none := if_pos h

theorem charKind_of_not (h : ¬(c = 32 ∨ c = 9)) : charKind (c :: text) = some (isZh c) := if_neg h

theorem charKind_of_isZh (h : isZh c = true) : charKind (c :: text) = some true :=
  (charKind_of_not (not_blank_of_isZh h)).trans (congrArg some h)

/-- A character in front of a text that has been split. -/
theorem separated_cons {x : Bytes} (h : Separated (splitText text))
    (hx : charKind x = none ∨ charKind text = none ∨ charKind x = charKind text) :
    (x :: chars isZh (splitText text)).IsChain MayFollow := by
  refine List.IsChain.cons h fun y hy => ?_
  unfold MayFollow
  rwa [charKind_head _ y hy, charKind_splitText]

theorem separated_splitText (text : Bytes) : Separated (splitText text) := by
  have h32 : isZh 32 = false := rfl
  have hblank : charKind [32] = none := rfl
  induction text using chars_induction isZh with
  | nil => exact .nil
  | last c h => exact .singleton _
  | double c d text h ih =>
    unfold Separated
    rw [splitText_double d text h, chars_of_lead h]
    split
    case isTrue hany =>
      rw [chars_of_single h32]
      exact .cons_cons (.inr (.inl hblank)) (separated_cons ih (.inl hblank))
    case isFalse hany =>
      refine separated_cons ih ?_
      cases text with
      | nil => exact .inr (.inl rfl)
      | cons e text =>
        have he : isZh e = true := by simpa using hany
        exact .inr (.inr ((charKind_of_isZh h).trans (charKind_of_isZh he).symm))
  | single c text h ih =>
    unfold Separated
    rw [splitText_single text h]
    split
    case isTrue hany =>
      rw [chars_of_single h, chars_of_single h32]
      exact .cons_cons (.inr (.inl hblank)) (separated_cons ih (.inl hblank))
    case isFalse hany =>
      rw [chars_of_single h]
      refine separated_cons ih ?_
      by_cases hc : c = 32 ∨ c = 9
      · exact .inl (charKind_of_blank hc)
      cases text with
      | nil => exact .inr (.inl rfl)
      | cons d text =>
        by_cases hd : d = 32 ∨ d = 9
        · exact .inr (.inl (charKind_of_blank hd))
        · have hzh : isZh d = false := by simpa [not_or.mp hc] using hany
          exact .inr (.inr ((charKind_of_not hc).trans
            ((h.trans hzh.symm).symm ▸ (charKind_of_not hd).symm)))

/-- The end of a line. -/
theorem findIdx_zero (h : 0 ∉ text) :
    (text ++ 0 :: behind).findIdx? (· = 0) = some text.length := by
  induction text with
  | nil => rfl
  | cons c text ih =>
    obtain ⟨hc, htext⟩ := List.ne_and_not_mem_of_not_mem_cons h
    simp [List.findIdx?_cons, Ne.symm hc, ih htext]

theorem zero_notMem_tolower (h : 0 ∉ text) : 0 ∉ text.map tolower := by
  rw [List.mem_map]
  rintro ⟨c, hc, hzero⟩
  exact h (tolower_eq_zero.mp hzero ▸ hc)

/-- What follows the clean-up. -/
theorem splitQuery_eq (h : 0 ∉ text) (hshort : text.length ≤ behind.length)
    (hclean : cleanPass (text.map tolower ++ 0 :: query) =
      some (cleanText (text.map tolower) ++ 0 :: behind)) :
    ∃ behind', splitQuery (text ++ 0 :: query) =
        some (splitText (cleanText (text.map tolower)) ++ 0 :: behind') ∧
      (splitText (cleanText (text.map tolower))).length + behind'.length =
        text.length + behind.length := by
  have hlower := zero_notMem_tolower h
  have hlength : (cleanText (text.map tolower)).length = text.length := by
    rw [length_cleanText, List.length_map]
  have hroom := (length_splitText (cleanText (text.map tolower))).2
  obtain ⟨behind', hlen, hloop⟩ : Splits _ [] (cleanText (text.map tolower)) behind :=
    splits [] behind (Nat.lt_succ_self _) (by omega)
  refine ⟨behind', ?_, by omega⟩
  rw [splitQuery, lowerPass_eq h, Option.bind_eq_bind, Option.bind_some, hclean, Option.bind_eq_bind,
    Option.bind_some, findIdx_zero (zero_notMem_cleanText hlower), Option.bind_some]
  simpa using hloop

/-- The passes are right if the clean-up ends. -/
theorem splitsRight_of_clean (b : QueryBuffer) (hlength : behind.length = b.behind.length)
    (hclean : cleanPass (b.text.map tolower ++ 0 :: b.behind) =
      some (cleanText (b.text.map tolower) ++ 0 :: behind)) : SplitsRight b := by
  have hshort := b.short
  have hsize := b.size
  obtain ⟨behind', hsplit, hlen⟩ := splitQuery_eq b.text_ne (by omega) hclean
  refine ⟨_, behind', hsplit, ?_, by omega, separated_splitText _, ?_⟩
  · exact zero_notMem_splitText (zero_notMem_cleanText (zero_notMem_tolower b.text_ne))
  · rw [chars_splitText, chars_cleanText]

/-- The passes are right just if the line does not end with half a character, or the clean-up, which
then goes on behind the line, comes to a zero byte there. -/
theorem splitsRight_iff (b : QueryBuffer) : SplitsRight b ↔
    endsOpen isZh b.text = false ∨ [0] ∈ chars isZh b.behind := by
  have hclean := cleanPass_eq b.behind (zero_notMem_tolower b.text_ne)
  rw [endsOpen_map isZh_tolower] at hclean
  cases hopen : endsOpen isZh b.text with
  | false =>
    rw [hopen, if_neg Bool.false_ne_true] at hclean
    exact iff_of_true (splitsRight_of_clean b rfl hclean) (.inl rfl)
  | true =>
    rw [hopen, if_pos rfl] at hclean
    rw [← cleanPass_isSome, or_iff_right Bool.true_eq_false.mp]
    cases hbehind : cleanPass b.behind with
    | some behind =>
      rw [hbehind, Option.map_some] at hclean
      exact iff_of_true (splitsRight_of_clean b (length_cleanPass hbehind) hclean) rfl
    | none =>
      rw [hbehind, Option.map_none] at hclean
      have hnone : splitQuery b.cells = none := by
        rw [splitQuery, QueryBuffer.cells, lowerPass_eq b.text_ne, Option.bind_eq_bind,
          Option.bind_some, hclean]
        rfl
      refine iff_of_false ?_ Bool.false_ne_true
      rintro ⟨text, behind, hsome, -⟩
      rw [hnone] at hsome
      cases hsome

end

/-! ## The boards with the largest values -/

section
variable {found listed : List (Int × Nat)} {unset : Int}

theorem keyqueryTop_toNat : (keyqueryTop found).toNat = min 5 (found.length - 1) := by
  unfold keyqueryTop
  split <;> omega

theorem positive_of_le {x y : Int × Nat} (h : x.1 ≤ y.1) (hx : decide (0 < x.1) = true) :
    decide (0 < y.1) = true :=
  decide_eq_true (Int.lt_of_lt_of_le (of_decide_eq_true hx) h)

/-- The boards listed are those in front whose values are positive. -/
theorem listTop_eq (unset : Int) (found : List (Int × Nat)) : listTop unset found =
    ((selectTop (·.1) (keyqueryTop found).toNat found).take (keyqueryTop found).toNat).filter
      (0 < ·.1) := by
  have hsorted := (selectTop_sorted (fun x : Int × Nat => x.1) (keyqueryTop found).toNat found).1
  have hfilter := takeWhile_eq_filter (hsorted.imp fun h => positive_of_le h)
  rw [listTop, ← hfilter]
  split
  case isFalse => rfl
  case isTrue hfirst =>
    cases hsel : selectTop (·.1) (keyqueryTop found).toNat found with
    | nil => rw [List.take_nil]; rfl
    | cons x rest =>
      rw [hsel] at hfirst
      cases (keyqueryTop found).toNat with
      | zero => rfl
      | succ n =>
        rw [List.take_succ_cons, List.takeWhile_cons_of_neg]
        simpa using hfirst

/-- The list is right if and only if there is no board, or are at least six, or the value of one is
not positive. -/
theorem listsBest_iff : ListsBest found (listTop unset found) ↔
    found = [] ∨ 6 ≤ found.length ∨ ∃ x ∈ found, x.1 ≤ 0 := by
  have hcount := countP_take_selectTop (fun x : Int × Nat => x.1) (keyqueryTop found).toNat found
    fun _ _ => positive_of_le
  have hall : (∃ x ∈ found, x.1 ≤ 0) ↔ found.countP (0 < ·.1) ≠ found.length := by
    rw [Ne, List.countP_eq_length]
    push Not
    simp
  have hle := List.countP_le_length (p := fun x : Int × Nat => decide (0 < x.1)) (l := found)
  have hlength : (listTop unset found).length = min 5 (found.countP (0 < ·.1)) ↔
      found = [] ∨ 6 ≤ found.length ∨ ∃ x ∈ found, x.1 ≤ 0 := by
    rw [listTop_eq, ← List.countP_eq_length_filter, hcount, keyqueryTop_toNat, hall,
      ← List.length_eq_zero_iff]
    omega
  refine ⟨fun h => hlength.mp h.length, fun h => ?_⟩
  obtain ⟨hsorted, hbehind⟩ := selectTop_sorted (fun x : Int × Nat => x.1)
    (keyqueryTop found).toNat found
  have hbest := listTop_eq unset found
  refine ⟨?_, ?_, hlength.mpr h⟩
  · rw [hbest]
    exact hsorted.filter _
  · refine ⟨((selectTop (·.1) (keyqueryTop found).toNat found).drop
      (keyqueryTop found).toNat).filter (0 < ·.1), ?_, ?_⟩
    · rw [hbest, ← List.filter_append, List.take_append_drop]
      exact selectTop_perm.filter _
    · intro x hx y hy
      rw [hbest] at hx
      exact hbehind x (List.mem_of_mem_filter hx) y (List.mem_of_mem_filter hy)

end

/-- What `x_keyquery` is to do. -/
def KeyqueryRight (b : QueryBuffer) (eval : Nat → Int) (unset : Int) (boards : List Nat) : Prop :=
  SplitsRight b ∧ ∃ found, evalBoards eval boards = some found ∧ ListsBest found (listTop unset found)

/-- The condition. There are no boards to be evaluated, or between six and as many as the arrays have
places, or one that does not have a positive value; and the line does not end with half a character,
or what the array has behind it has a zero byte where a character starts. -/
theorem x_keyquery_iff (b : QueryBuffer) (defaultboard : Bytes) (table : BoardTable)
    (eval : Nat → Int) (unset : Int) :
    KeyqueryRight b eval unset (keyqueryBoards defaultboard table) ↔
      (endsOpen isZh b.text = false ∨ [0] ∈ chars isZh b.behind) ∧
      (keyqueryBoards defaultboard table).length ≤ 1024 ∧
      (keyqueryBoards defaultboard table = [] ∨ 6 ≤ (keyqueryBoards defaultboard table).length ∨
        ∃ i ∈ keyqueryBoards defaultboard table, eval i ≤ 0) := by
  generalize keyqueryBoards defaultboard table = boards
  rw [KeyqueryRight, splitsRight_iff, evalBoards]
  refine and_congr_right fun _ => ?_
  split
  case isTrue hle => simp [listsBest_iff, hle]
  case isFalse hgt => simp [hgt]

/-- There is one board, and its value is positive; none is listed. -/
theorem keyquery_lists_none : ¬∀ (b : QueryBuffer) (defaultboard : Bytes) (table : BoardTable)
    (eval : Nat → Int) (unset : Int),
    KeyqueryRight b eval unset (keyqueryBoards defaultboard table) := by
  intro h
  obtain ⟨-, found, hfound, hbest⟩ := h
    ⟨bytes "linux", List.replicate 134 0, by rw [List.length_replicate]; rfl, by decide, by decide⟩
    (bytes "test")
    ⟨fun _ => ⟨⟨bytes "linux", 0, 0⟩, [], 0, 0, 0, by decide, by decide⟩, 1⟩ (fun _ => 1) 0
  have hone : found = [(1, 0)] := Option.some.inj (hfound.symm.trans (by decide +kernel))
  subst hone
  have hlength := hbest.length
  rw [show listTop 0 [(1, 0)] = [] by decide] at hlength
  exact absurd hlength (by decide)

end ArgoBbs

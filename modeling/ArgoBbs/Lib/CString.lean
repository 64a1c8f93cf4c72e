import ArgoBbs.Lib.Bytes
import Mathlib.Data.List.Infix

/-! # Functions on C strings

What `ctype.h`, `string.h` and `stdlib.h` do with strings in the C locale, for strings of bytes
without the terminating zero byte. -/

namespace ArgoBbs

abbrev Bytes := List UInt8

/-- The bytes of a string literal, whose characters are given by their codes. -/
def bytes (s : String) : Bytes := s.toList.map fun c => UInt8.ofNat c.toNat

def isspace (c : UInt8) : Bool := c = 32 || 9 ≤ c && c ≤ 13

def isdigit (c : UInt8) : Bool := 48 ≤ c && c ≤ 57

/-- `macros.h` -/
def isprint2 (c : UInt8) : Bool := c &&& 0xe0 ≠ 0 ∧ c ≠ 0x7f

def isalpha (c : UInt8) : Bool := 65 ≤ c && c ≤ 90 || 97 ≤ c && c ≤ 122

def isalnum (c : UInt8) : Bool := isdigit c || 65 ≤ c && c ≤ 90 || 97 ≤ c && c ≤ 122

def tolower (c : UInt8) : UInt8 := if 65 ≤ c ∧ c ≤ 90 then c + 32 else c

def toupper (c : UInt8) : UInt8 := if 97 ≤ c ∧ c ≤ 122 then c - 32 else c

/-- `strcasecmp(a, b) == 0`. -/
def strcasecmpEq (a b : Bytes) : Bool := a.map tolower = b.map tolower

/-- `strncasecmp(a, b, n) == 0`. -/
def strncasecmpEq (a b : Bytes) (n : Nat) : Bool := strcasecmpEq (a.take n) (b.take n)

/-- `strstr(s, t) != NULL`. -/
def strstr (s t : Bytes) : Bool := s.tails.any t.isPrefixOf

/-- `strstr(s, t) - s` -/
def strstrAt (s t : Bytes) : Option Nat := s.tails.findIdx? t.isPrefixOf

/-- `strchr(s, c) - s` -/
def strchr (s : Bytes) (c : UInt8) : Option Nat := s.findIdx? (· = c)

/-- `strrchr(s, c) - s` -/
def strrchr (s : Bytes) (c : UInt8) : Option Nat := (strchr s.reverse c).map (s.length - 1 - ·)

/-- `strcasestr(s, t) - s` -/
def strcasestrAt (s t : Bytes) : Option Nat :=
  s.tails.findIdx? fun u => (t.map tolower).isPrefixOf (u.map tolower)

/-- The string `t` is at a place of `s`, up to case. -/
def CaseAt (t s : Bytes) (i : Nat) : Prop := t.map tolower <+: (s.drop i).map tolower

/-- The string that `strlcpy` leaves in a buffer of the size. -/
def strlcpy (size : Nat) (s : Bytes) : Bytes := s.take (size - 1)

/-- The string that `strlcat` leaves in a buffer of the size. -/
def strlcat (size : Nat) (s t : Bytes) : Bytes := s ++ t.take (size - 1 - s.length)

/-- `strcmp`, of which only the sign is documented. -/
def strcmp : Bytes → Bytes → Int
  | [], [] => 0
  | [], _ :: _ => -1
  | _ :: _, [] => 1
  | a :: as, b :: bs => if a < b then -1 else if b < a then 1 else strcmp as bs

/-- The number that the leading digits say. -/
def digitsValue (s : Bytes) : Int :=
  (s.takeWhile isdigit).foldl (fun n c => 10 * n + (c.toNat - 48)) 0

/-- `atoi` is `strtol`, which stops at the bounds of a 64-bit `long`, converted to `int`. -/
def atoi (s : Bytes) : Int :=
  let value := match s.dropWhile isspace with
    | 45 :: s => - digitsValue s
    | 43 :: s => digitsValue s
    | s => digitsValue s
  toCInt (max (-2 ^ 63) (min value (2 ^ 63 - 1)))

/-- The value of a digit, at least 36 if the character is none. -/
def digitValue (c : UInt8) : Nat :=
  if isdigit c then c.toNat - 48
  else if 97 ≤ c ∧ c ≤ 122 then c.toNat - 87
  else if 65 ≤ c ∧ c ≤ 90 then c.toNat - 55
  else 36

/-- The number that the leading digits say to the base. -/
def digitsValueIn (base : Nat) (s : Bytes) : Int :=
  (s.takeWhile fun c => decide (digitValue c < base)).foldl (fun n c => base * n + digitValue c) 0

/-- The number without its sign; the base 0 is told by the prefix. -/
def strtolMagnitude (base : Nat) (s : Bytes) : Int :=
  if base ≠ 0 then digitsValueIn base s
  else
    match s with
    | 48 :: x :: s => if x = 88 ∨ x = 120 then digitsValueIn 16 s else digitsValueIn 8 (x :: s)
    | s => digitsValueIn 10 s

/-- `strtol`, which stops at the bounds of a `long` of some bits. -/
def strtol (bits base : Nat) (s : Bytes) : Int :=
  let value := match s.dropWhile isspace with
    | 45 :: s => - strtolMagnitude base s
    | 43 :: s => strtolMagnitude base s
    | s => strtolMagnitude base s
  max (-2 ^ (bits - 1)) (min value (2 ^ (bits - 1) - 1))

/-- `%d` of a number that is not negative. -/
def decimal (n : Nat) : Bytes := (Nat.toDigits 10 n).map fun c => UInt8.ofNat c.toNat

/-- `%d` -/
def printInt (n : Int) : Bytes := if n < 0 then 45 :: decimal n.natAbs else decimal n.natAbs

/-- `%-ns`. -/
def padRight (n : Nat) (s : Bytes) : Bytes := s ++ List.replicate (n - s.length) 32

/-- `%ns`. -/
def padLeft (n : Nat) (s : Bytes) : Bytes := List.replicate (n - s.length) 32 ++ s

/-- The characters of a number are digits. -/
theorem toNat_of_mem_toDigits {n : Nat} {c : Char} (h : c ∈ Nat.toDigits 10 n) :
    48 ≤ c.toNat ∧ c.toNat ≤ 57 := by
  have hdigit := Nat.isDigit_of_mem_toDigits (by decide) (by decide) h
  simp only [Char.isDigit, ge_iff_le, Bool.and_eq_true, decide_eq_true_eq] at hdigit
  exact hdigit

/-- The digits of a number give it back. -/
theorem decimal_injective {m n : Nat} (h : decimal m = decimal n) : m = n := by
  have hback : ∀ k, (decimal k).map (fun b => Char.ofNat b.toNat) = Nat.toDigits 10 k := by
    intro k
    rw [decimal, List.map_map]
    refine List.map_congr_left (g := id) (fun c hc => ?_) |>.trans (List.map_id _)
    have hlt : c.toNat < 2 ^ 8 := Nat.lt_of_le_of_lt (toNat_of_mem_toDigits hc).2 (by decide)
    rw [Function.comp_apply, UInt8.toNat_ofNat', Nat.mod_eq_of_lt hlt, Char.ofNat_toNat, id]
  rw [← Nat.ofDigitChars_ten_toDigits (n := m), ← Nat.ofDigitChars_ten_toDigits (n := n),
    ← hback, ← hback, h]

theorem decimal_ne_cons (n : Nat) (s : Bytes) : decimal n ≠ 45 :: s := by
  intro h
  obtain ⟨c, hc, hbyte⟩ := List.mem_map.mp (h ▸ List.mem_cons_self : 45 ∈ decimal n)
  obtain ⟨hle, hle'⟩ := toNat_of_mem_toDigits hc
  have hnat : c.toNat % 2 ^ 8 = 45 := by
    rw [← UInt8.toNat_ofNat', hbyte]
    rfl
  omega

theorem printInt_injective {m n : Int} (h : printInt m = printInt n) : m = n := by
  unfold printInt at h
  split at h <;> split at h
  · have habs := decimal_injective (List.cons.inj h).2
    omega
  · exact absurd h.symm (decimal_ne_cons _ _)
  · exact absurd h (decimal_ne_cons _ _)
  · have habs := decimal_injective h
    omega

/-- Bytes that are equal as lower case letters are equal as upper case letters. -/
theorem toupper_eq_iff {c d : UInt8} : toupper c = toupper d ↔ tolower c = tolower d := by
  have hlow (c : UInt8) : tolower (toupper c) = tolower c :=
    (by decide +kernel : ∀ n : Fin 256, tolower (toupper (.ofFin n)) = tolower (.ofFin n)) c.toFin
  have hup (c : UInt8) : toupper (tolower c) = toupper c :=
    (by decide +kernel : ∀ n : Fin 256, toupper (tolower (.ofFin n)) = toupper (.ofFin n)) c.toFin
  constructor
  · intro h
    rw [← hlow c, h, hlow]
  · intro h
    rw [← hup c, h, hup]

theorem strcasecmpEq_iff {a b : Bytes} :
    strcasecmpEq a b = true ↔ a.map tolower = b.map tolower := decide_eq_true_iff

theorem strcasecmpEq_trans {a b c : Bytes} (h : strcasecmpEq a b = true)
    (h' : strcasecmpEq b c = true) : strcasecmpEq a c = true := by
  rw [strcasecmpEq_iff] at h h' ⊢
  exact h.trans h'

theorem strcasecmpEq_symm {a b : Bytes} (h : strcasecmpEq a b = true) :
    strcasecmpEq b a = true := by
  rw [strcasecmpEq_iff] at h ⊢
  exact h.symm

/-- Strings are equal up to case if they are equal in upper case. -/
theorem strcasecmpEq_iff_toupper {a b : Bytes} :
    strcasecmpEq a b = true ↔ a.map toupper = b.map toupper := by
  rw [strcasecmpEq_iff]
  induction a generalizing b with
  | nil => cases b <;> simp
  | cons c a ih =>
    cases b with
    | nil => simp
    | cons d b => rw [List.map_cons, List.map_cons, List.map_cons, List.map_cons, List.cons.injEq,
        List.cons.injEq, ih, toupper_eq_iff]

theorem strchr_cons (c d : UInt8) (s : Bytes) :
    strchr (d :: s) c = if d = c then some 0 else (strchr s c).map (· + 1) := by
  rw [strchr, List.findIdx?_cons, ← strchr]
  by_cases h : d = c <;> simp [h]

theorem strchr_eq_some_iff {s : Bytes} {c : UInt8} {k : Nat} :
    strchr s c = some k ↔ ∃ a b, s = a ++ c :: b ∧ c ∉ a ∧ a.length = k := by
  induction s generalizing k with
  | nil => simp [strchr]
  | cons d s ih =>
    rw [strchr_cons]
    constructor
    · intro h
      split at h
      case isTrue hd =>
        cases h
        exact ⟨[], s, by rw [List.nil_append, hd], List.not_mem_nil, rfl⟩
      case isFalse hd =>
        obtain ⟨j, hj, rfl⟩ := Option.map_eq_some_iff.mp h
        obtain ⟨a, b, rfl, ha, rfl⟩ := ih.mp hj
        exact ⟨d :: a, b, rfl, List.not_mem_cons_of_ne_of_not_mem (Ne.symm hd) ha, rfl⟩
    · rintro ⟨a, b, hs, ha, rfl⟩
      cases a with
      | nil =>
        obtain ⟨rfl, -⟩ := List.cons.inj hs
        exact if_pos rfl
      | cons e a =>
        obtain ⟨rfl, rfl⟩ := List.cons.inj hs
        have hne : d ≠ c := Ne.symm (List.ne_of_not_mem_cons ha)
        rw [if_neg hne, ih.mpr ⟨a, b, rfl, List.not_mem_of_not_mem_cons ha, rfl⟩]
        rfl

theorem strchr_eq_none_iff {s : Bytes} {c : UInt8} : strchr s c = none ↔ c ∉ s := by
  rw [strchr, List.findIdx?_eq_none_iff]
  constructor
  · exact fun h hmem => of_decide_eq_false (h c hmem) rfl
  · exact fun h d hd => decide_eq_false fun heq => h (heq ▸ hd)

theorem strrchr_eq_none_iff {s : Bytes} {c : UInt8} : strrchr s c = none ↔ c ∉ s := by
  rw [strrchr, Option.map_eq_none_iff, strchr_eq_none_iff, List.mem_reverse]

theorem strrchr_eq_some_iff {s : Bytes} {c : UInt8} {k : Nat} :
    strrchr s c = some k ↔ ∃ a b, s = a ++ c :: b ∧ c ∉ b ∧ a.length = k := by
  rw [strrchr, Option.map_eq_some_iff]
  constructor
  · rintro ⟨n, hn, rfl⟩
    obtain ⟨b, a, hs, hb, rfl⟩ := strchr_eq_some_iff.mp hn
    have hs : s = a.reverse ++ c :: b.reverse := by
      rw [← List.reverse_reverse s, hs]
      simp
    refine ⟨a.reverse, b.reverse, hs, fun h => hb (List.mem_reverse.mp h), ?_⟩
    rw [hs]
    simp
  · rintro ⟨a, b, rfl, hb, rfl⟩
    have hb : c ∉ b.reverse := fun h => hb (List.mem_reverse.mp h)
    refine ⟨b.length, strchr_eq_some_iff.mpr ⟨b.reverse, a.reverse, ?_, hb, List.length_reverse⟩, ?_⟩
    · simp
    · simp

theorem strcasestrAt_eq_none_iff {s t : Bytes} : strcasestrAt s t = none ↔ ∀ i, ¬CaseAt t s i := by
  rw [strcasestrAt, List.findIdx?_eq_none_iff]
  constructor
  · intro h i
    have hmem : s.drop i ∈ s.tails := by
      rw [List.mem_tails]
      exact List.drop_suffix ..
    rw [CaseAt, ← List.isPrefixOf_iff_prefix]
    exact Bool.eq_false_iff.mp (h _ hmem)
  · intro h u hu
    rw [List.mem_tails] at hu
    rw [Bool.eq_false_iff, Ne, List.isPrefixOf_iff_prefix, List.suffix_iff_eq_drop.mp hu]
    exact h _

/-- `strcasestr` finds the first place. -/
theorem strcasestrAt_some {s t : Bytes} {p : Nat} (h : strcasestrAt s t = some p) :
    CaseAt t s p ∧ ∀ i < p, ¬CaseAt t s i := by
  rw [strcasestrAt, List.findIdx?_eq_some_iff_getElem] at h
  obtain ⟨hp, hfound, hbefore⟩ := h
  rw [List.getElem_tails] at hfound
  refine ⟨by simpa [CaseAt] using hfound, fun i hi => ?_⟩
  have hnot := hbefore i hi
  rw [List.getElem_tails] at hnot
  simpa [CaseAt] using hnot

/-- The order of `strcmp` is the lexicographic one. -/
theorem strcmp_le_iff : ∀ {a b : Bytes}, strcmp a b ≤ 0 ↔ a ≤ b
  | [], [] => by simp [strcmp]
  | [], _ :: _ => by simp [strcmp]
  | _ :: _, [] => by simp [strcmp]
  | a :: as, b :: bs => by
    rw [strcmp, List.cons_le_cons_iff]
    have hasymm : a < b → ¬b < a := UInt8.lt_asymm
    by_cases hab : a < b
    · simp [hab]
    · by_cases hba : b < a
      · have hne : a ≠ b := fun h => UInt8.lt_irrefl b (h ▸ hba)
        simp [hab, hba, hne]
      · have heq : a = b := UInt8.le_antisymm (UInt8.not_lt.mp hba) (UInt8.not_lt.mp hab)
        rw [if_neg hab, if_neg hba, strcmp_le_iff]
        simp [heq, UInt8.lt_irrefl]

end ArgoBbs

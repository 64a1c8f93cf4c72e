import ArgoBbs.Lib.Cells
import Mathlib.Algebra.Group.Int.Defs
import Mathlib.Algebra.Group.Nat.Defs
import Mathlib.Data.List.Forall2

/-! # Bytes, C strings and machine integers

A C string is the list of its bytes without the terminating zero byte; `cstr` reads one from
memory and fails when the memory ends before the terminator. An `int` in memory is its four bytes
in two's complement, least significant first. -/

namespace ArgoBbs

/-- The C string that starts a piece of memory. -/
def cstr : List UInt8 → Option (List UInt8)
  | [] => none
  | c :: mem => if c = 0 then some [] else (cstr mem).map (c :: ·)

theorem cstr_append {s mem : List UInt8} (hs : 0 ∉ s) : cstr (s ++ 0 :: mem) = some s := by
  induction s with
  | nil => rfl
  | cons c s ih =>
    simp only [List.mem_cons, not_or] at hs
    rw [List.cons_append, cstr, if_neg (Ne.symm hs.1), ih hs.2]
    rfl

theorem cstr_isSome_iff {mem : List UInt8} : (cstr mem).isSome ↔ 0 ∈ mem := by
  induction mem with
  | nil => simp [cstr]
  | cons c mem ih =>
    rw [cstr]
    by_cases h : c = 0
    · simp [h]
    · simp [h, ih, Ne.symm h]

/-- `strncmp(a, b, n) == 0`. -/
def strncmpEq (a b : List UInt8) (n : Nat) : Bool := a.take n = b.take n

theorem strncmpEq_iff {a b : List UInt8} {n : Nat} (ha : a.length ≤ n) (hb : b.length ≤ n) :
    strncmpEq a b n = true ↔ a = b := by
  simp [strncmpEq, List.take_of_length_le ha, List.take_of_length_le hb]

/-! ## Integers -/

/-- The values of a 32-bit `int`. -/
def IsCInt (x : Int) : Prop := -2 ^ 31 ≤ x ∧ x < 2 ^ 31

instance (x : Int) : Decidable (IsCInt x) := inferInstanceAs (Decidable (_ ∧ _))

def intBytes (x : Int) : List UInt8 :=
  let n := (x % 2 ^ 32).toNat
  [UInt8.ofNat n, UInt8.ofNat (n / 2 ^ 8), UInt8.ofNat (n / 2 ^ 16), UInt8.ofNat (n / 2 ^ 24)]

/-- Conversion of a wider integer to `int`. -/
def toCInt (t : Int) : Int := t.bmod (2 ^ 32)

theorem isCInt_toCInt (t : Int) : IsCInt (toCInt t) := by
  rw [IsCInt, toCInt, Int.bmod_def]
  omega

theorem toCInt_eq {t : Int} (h : IsCInt t) : toCInt t = t := by
  obtain ⟨h1, h2⟩ := h
  rw [toCInt, Int.bmod_def]
  omega

/-- The integers stored in a piece of memory. -/
def bytesInts : List UInt8 → List Int
  | a :: b :: c :: d :: mem =>
    toCInt (a.toNat + 2 ^ 8 * b.toNat + 2 ^ 16 * c.toNat + 2 ^ 24 * d.toNat) :: bytesInts mem
  | _ => []

theorem bytesInts_intBytes {x : Int} (hx : IsCInt x) (mem : List UInt8) :
    bytesInts (intBytes x ++ mem) = x :: bytesInts mem := by
  obtain ⟨h1, h2⟩ := hx
  simp only [intBytes, List.cons_append, List.nil_append, bytesInts, UInt8.toNat_ofNat',
    List.cons.injEq, and_true]
  rw [toCInt, Int.bmod_def]
  omega

theorem bytesInts_flatMap {xs : List Int} (hx : ∀ x ∈ xs, IsCInt x) :
    bytesInts (xs.flatMap intBytes) = xs := by
  induction xs with
  | nil => rfl
  | cons x xs ih =>
    rw [List.flatMap_cons, bytesInts_intBytes (hx x List.mem_cons_self),
      ih fun y hy => hx y (List.mem_cons_of_mem _ hy)]

theorem length_flatMap_intBytes (xs : List Int) : (xs.flatMap intBytes).length = 4 * xs.length := by
  induction xs with
  | nil => rfl
  | cons x xs ih => simp [List.flatMap_cons, ih, intBytes]; omega

theorem length_bytesInts : ∀ mem : List UInt8, (bytesInts mem).length = mem.length / 4
  | [] | [_] | [_, _] | [_, _, _] => by simp [bytesInts]
  | a :: b :: c :: d :: mem => by
    rw [bytesInts, List.length_cons, length_bytesInts mem]; simp only [List.length_cons]; omega

theorem isCInt_of_mem_bytesInts {x : Int} : ∀ {mem : List UInt8}, x ∈ bytesInts mem → IsCInt x
  | [], h | [_], h | [_, _], h | [_, _, _], h => by simp [bytesInts] at h
  | _ :: _ :: _ :: _ :: _, h => by
    rw [bytesInts, List.mem_cons] at h
    rcases h with h | h
    · rw [h]; exact isCInt_toCInt _
    · exact isCInt_of_mem_bytesInts h

end ArgoBbs

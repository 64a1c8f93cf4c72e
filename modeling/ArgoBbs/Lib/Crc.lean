import Mathlib.Data.List.Zip
import Mathlib.Logic.Function.Iterate

/-! # Cyclic checksums

A feedback register takes in a text byte by byte. It is linear over exclusive or, so two texts that
leave the same word in it differ by an error pattern that leaves zero. A register that keeps every
short pattern apart from zero finds every burst of errors that is no longer. -/

namespace ArgoBbs

/-- A register of `n` bits with its feedback. -/
structure FeedbackRegister (n : Nat) where
  feed : BitVec n → UInt8 → BitVec n
  feed_xor : ∀ s t a b, feed (s ^^^ t) (a ^^^ b) = feed s a ^^^ feed t b
  /-- The feedback of a register that is not zero is not zero. -/
  zero_of_feed : ∀ s, feed s 0 = 0 → s = 0

namespace FeedbackRegister

variable {n : Nat} (R : FeedbackRegister n)

/-- What a text leaves in the register. -/
def run (s : BitVec n) (text : List UInt8) : BitVec n := text.foldl R.feed s

/-- No error pattern of up to `w` bytes is overlooked. -/
def Detects (w : Nat) : Prop := ∀ e : List UInt8, e.length ≤ w → R.run 0 e = 0 → ∀ c ∈ e, c = 0

@[simp] theorem run_nil (s : BitVec n) : R.run s [] = s := rfl

@[simp] theorem run_cons (s : BitVec n) (c : UInt8) (text : List UInt8) :
    R.run s (c :: text) = R.run (R.feed s c) text := rfl

@[simp] theorem run_append (s : BitVec n) (a b : List UInt8) :
    R.run s (a ++ b) = R.run (R.run s a) b := List.foldl_append

theorem run_xor {a b : List UInt8} (h : a.length = b.length) (s t : BitVec n) :
    R.run (s ^^^ t) (List.zipWith (· ^^^ ·) a b) = R.run s a ^^^ R.run t b := by
  induction a generalizing b s t with
  | nil =>
    cases b with
    | nil => rfl
    | cons d b => cases h
  | cons c a ih =>
    cases b with
    | nil => cases h
    | cons d b =>
      rw [List.zipWith_cons_cons, run_cons, R.feed_xor, ih (Nat.succ.inj h)]
      rfl

theorem feed_zero : R.feed 0 0 = 0 := by
  have h := R.feed_xor 0 0 0 0
  rwa [BitVec.xor_self, UInt8.xor_self, BitVec.xor_self] at h

theorem run_zeros (k : Nat) : R.run 0 (List.replicate k 0) = 0 := by
  induction k with
  | zero => rfl
  | succ k ih => rw [List.replicate_succ, run_cons, R.feed_zero, ih]

/-- Zeros in front of an error pattern change nothing, so it is enough to look at the longest. -/
theorem detects_of_length {w : Nat}
    (h : ∀ e : List UInt8, e.length = w → R.run 0 e = 0 → ∀ c ∈ e, c = 0) : R.Detects w := by
  intro e hlen he c hc
  apply h (List.replicate (w - e.length) 0 ++ e)
  · rw [List.length_append, List.length_replicate]
    exact Nat.sub_add_cancel hlen
  · rw [run_append, R.run_zeros, he]
  · exact List.mem_append_right _ hc

theorem zero_of_run_zeros {k : Nat} {s : BitVec n} (h : R.run s (List.replicate k 0) = 0) :
    s = 0 := by
  induction k generalizing s with
  | zero => exact h
  | succ k ih => exact R.zero_of_feed s (ih h)

theorem zipWith_xor_self (a : List UInt8) :
    List.zipWith (· ^^^ ·) a a = List.replicate a.length (0 : UInt8) := by
  induction a with
  | nil => rfl
  | cons c a ih => rw [List.zipWith_cons_cons, UInt8.xor_self, ih]; rfl

theorem eq_of_zipWith_xor {a b : List UInt8} (h : a.length = b.length)
    (hz : ∀ c ∈ List.zipWith (· ^^^ ·) a b, c = (0 : UInt8)) : a = b := by
  induction a generalizing b with
  | nil => exact (List.length_eq_zero_iff.mp h.symm).symm
  | cons c a ih =>
    cases b with
    | nil => cases h
    | cons d b =>
      rw [List.zipWith_cons_cons, List.forall_mem_cons] at hz
      rw [UInt8.xor_eq_zero_iff.mp hz.1, ih (Nat.succ.inj h) hz.2]

/-- Behind an error that is not the last, the register keeps the difference. -/
theorem run_eq_of_append {s : BitVec n} {a b back : List UInt8} (hlen : a.length = b.length)
    (h : R.run s (a ++ back) = R.run s (b ++ back)) :
    R.run 0 (List.zipWith (· ^^^ ·) a b) = 0 := by
  have hx := R.run_xor (a := a ++ back) (b := b ++ back) (by simp [hlen]) s s
  rw [BitVec.xor_self, h, BitVec.xor_self, List.zipWith_append hlen, zipWith_xor_self,
    run_append] at hx
  exact R.zero_of_run_zeros hx

/-- Texts that differ only within a window leave different words. -/
theorem burst {w : Nat} (hw : R.Detects w) {s : BitVec n} {front a b back : List UInt8}
    (hlen : a.length = b.length) (ha : a.length ≤ w)
    (h : R.run s (front ++ (a ++ back)) = R.run s (front ++ (b ++ back))) : a = b := by
  have hzero : R.run 0 (List.zipWith (· ^^^ ·) a b) = 0 := by
    apply R.run_eq_of_append hlen
    rwa [R.run_append s front, R.run_append s front] at h
  have hshort : (List.zipWith (· ^^^ ·) a b).length ≤ w := by
    rw [List.length_zipWith, ← hlen, Nat.min_self]
    exact ha
  exact eq_of_zipWith_xor hlen (hw _ hshort hzero)

end FeedbackRegister

/-- A register with the bytes that close a text: behind them it holds the same word for every
text, and it tells apart every error pattern that is no longer than they are. -/
structure FrameCheck where
  {n : Nat}
  register : FeedbackRegister n
  start : BitVec n
  good : BitVec n
  width : Nat
  check : BitVec n → List UInt8
  length_check : ∀ c, (check c).length = width
  run_check : ∀ c, register.run c (check c) = good
  detects : register.Detects width

namespace FrameCheck

variable (F : FrameCheck)

/-- A text and its check bytes. -/
def codeword (text : List UInt8) : List UInt8 := text ++ F.check (F.register.run F.start text)

def Accepts (word : List UInt8) : Prop := F.register.run F.start word = F.good

instance : DecidablePred F.Accepts := fun _ => inferInstanceAs (Decidable (_ = _))

theorem accepts_codeword (text : List UInt8) : F.Accepts (F.codeword text) := by
  rw [Accepts, codeword, FeedbackRegister.run_append, F.run_check]

/-- A burst of errors in a codeword that is no longer than the check bytes is not accepted. -/
theorem burst {text front a b back : List UInt8} (hsent : F.codeword text = front ++ (a ++ back))
    (hlen : a.length = b.length) (ha : a.length ≤ F.width) :
    F.Accepts (front ++ (b ++ back)) ↔ a = b := by
  constructor
  · intro h
    apply F.register.burst F.detects hlen ha
    rw [← hsent]
    exact (F.accepts_codeword text).trans h.symm
  · rintro rfl
    rw [← hsent]
    exact F.accepts_codeword text

end FrameCheck

/-! ## Registers that shift -/

/-- One shift towards the high end: the bit that falls out feeds the polynomial back. -/
def shiftHigh {n : Nat} (poly x : BitVec n) : BitVec n :=
  if x.msb then x <<< 1 ^^^ poly else x <<< 1

/-- One shift towards the low end. -/
def shiftLow {n : Nat} (poly x : BitVec n) : BitVec n :=
  if x.getLsbD 0 then x >>> 1 ^^^ poly else x >>> 1

section
variable {n : Nat}

theorem xor_xor_cancel (a b p : BitVec n) : a ^^^ p ^^^ (b ^^^ p) = a ^^^ b := by
  rw [BitVec.xor_assoc, BitVec.xor_comm b p, ← BitVec.xor_assoc p p b, BitVec.xor_self,
    BitVec.zero_xor]

/-- A choice between two words by a bit that exclusive or respects, respects exclusive or. -/
theorem feedback_xor (p a b : BitVec n) (x y : Bool) :
    (if x ^^ y then a ^^^ b ^^^ p else a ^^^ b) =
      (if x then a ^^^ p else a) ^^^ (if y then b ^^^ p else b) := by
  cases x <;> cases y
  · rfl
  · exact BitVec.xor_assoc ..
  · show a ^^^ b ^^^ p = a ^^^ p ^^^ b
    rw [BitVec.xor_assoc, BitVec.xor_comm b p, BitVec.xor_assoc]
  · exact (xor_xor_cancel a b p).symm

theorem shiftHigh_xor (poly x y : BitVec n) :
    shiftHigh poly (x ^^^ y) = shiftHigh poly x ^^^ shiftHigh poly y := by
  rw [shiftHigh, BitVec.msb_xor, BitVec.shiftLeft_xor_distrib]
  exact feedback_xor ..

theorem shiftLow_xor (poly x y : BitVec n) :
    shiftLow poly (x ^^^ y) = shiftLow poly x ^^^ shiftLow poly y := by
  rw [shiftLow, BitVec.getLsbD_xor, BitVec.ushiftRight_xor_distrib]
  exact feedback_xor ..

theorem iterate_xor {f : BitVec n → BitVec n} (hf : ∀ x y, f (x ^^^ y) = f x ^^^ f y) (k : Nat)
    (x y : BitVec n) : f^[k] (x ^^^ y) = f^[k] x ^^^ f^[k] y := by
  induction k generalizing x y with
  | zero => rfl
  | succ k ih =>
    rw [Function.iterate_succ_apply, hf, ih]
    rfl

end

end ArgoBbs

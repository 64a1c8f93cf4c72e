import ArgoBbs.Lib.CString
import Mathlib.Algebra.GroupWithZero.Nat
import Mathlib.Data.List.TakeWhile

/-! # The escapes of ZMODEM

The part of `zm.c` that sends and reads single bytes. The sender writes some control characters as
an escape and a printable character; the receiver skips the characters of flow control, and every
control character where it asked for escapes. What one end writes the other reads back whenever the
sender escapes all that the receiver skips. -/

namespace ArgoBbs.Zmodem

def ZDLE : UInt8 := 0x18
def CAN : UInt8 := 0x18
def XON : UInt8 := 0x11
def XOFF : UInt8 := 0x13
def ZCRCE : UInt8 := 0x68
def ZCRCG : UInt8 := 0x69
def ZCRCQ : UInt8 := 0x6a
def ZCRCW : UInt8 := 0x6b
def ZRUB0 : UInt8 := 0x6c
def ZRUB1 : UInt8 := 0x6d

/-- `!(c & 0140)` -/
def isControl (c : UInt8) : Bool := c &&& 0x60 = 0

/-! ## Sending -/

/-- For the numerals of the table's entries. -/
instance neZeroThree : NeZero 3 := ⟨by decide⟩

/-- An entry of the table that `zsendline_init` fills: 0 for a byte that is sent as it is, 1 for one
that is escaped, 2 for one that is escaped behind an at sign. -/
def zsendline_tab (Zctlesc turbo_escape : Bool) (i : UInt8) : Fin 3 :=
  if !isControl i then 0
  else if i = ZDLE ∨ i = XOFF ∨ i = XON ∨ i = XOFF ||| 0x80 ∨ i = XON ||| 0x80 then 1
  else if i = 0x10 ∨ i = 0x90 then
    if turbo_escape then 0 else 1
  else if i = 0x0d ∨ i = 0x8d then
    if Zctlesc then 1 else if !turbo_escape then 2 else 0
  else if Zctlesc then 1 else 0

/-- What is written for a byte, and `lastsent` behind it. -/
def zsendline (tab : UInt8 → Fin 3) (lastsent c : UInt8) : Bytes × UInt8 :=
  match tab c with
  | 0 => ([c], c)
  | 1 => ([ZDLE, c ^^^ 0x40], c ^^^ 0x40)
  | 2 => if lastsent &&& 0x7f ≠ 0x40 then ([c], c) else ([ZDLE, c ^^^ 0x40], c ^^^ 0x40)

/-- Bytes that are sent one at a time. -/
def zsendlines (tab : UInt8 → Fin 3) (lastsent : UInt8) : Bytes → Bytes × UInt8
  | [] => ([], lastsent)
  | c :: s =>
    let (out, lastsent) := zsendline tab lastsent c
    let (outs, lastsent) := zsendlines tab lastsent s
    (out ++ outs, lastsent)

/-- Runs that need no escape are written at once; the switch of `zsendline` follows each. -/
def zsendline_s (tab : UInt8 → Fin 3) (lastsent : UInt8) (s : Bytes) : Bytes × UInt8 :=
  let t := s.takeWhile (tab · = 0)
  let lastsent := t.getLastD lastsent
  match _h : s.dropWhile (tab · = 0) with
  | [] => (t, lastsent)
  | c :: s' =>
    let (out, lastsent) := zsendline tab lastsent c
    let (outs, lastsent) := zsendline_s tab lastsent s'
    (t ++ (out ++ outs), lastsent)
termination_by s.length
decreasing_by
  have hlen := congrArg List.length _h
  rw [List.length_cons] at hlen
  have hle := s.length_dropWhile_le (tab · = 0)
  omega

@[simp] theorem zsendlines_cons (tab : UInt8 → Fin 3) (lastsent c : UInt8) (s : Bytes) :
    zsendlines tab lastsent (c :: s) =
      ((zsendline tab lastsent c).1 ++ (zsendlines tab (zsendline tab lastsent c).2 s).1,
        (zsendlines tab (zsendline tab lastsent c).2 s).2) := rfl

theorem zsendlines_append (tab : UInt8 → Fin 3) (lastsent : UInt8) (s t : Bytes) :
    zsendlines tab lastsent (s ++ t) =
      ((zsendlines tab lastsent s).1 ++ (zsendlines tab (zsendlines tab lastsent s).2 t).1,
        (zsendlines tab (zsendlines tab lastsent s).2 t).2) := by
  induction s generalizing lastsent with
  | nil => rfl
  | cons c s ih =>
    rw [List.cons_append, zsendlines_cons, ih, zsendlines_cons, List.append_assoc]

/-- A run that needs no escape is sent as it is. -/
theorem zsendlines_plain {tab : UInt8 → Fin 3} {s : Bytes} (lastsent : UInt8)
    (h : ∀ c ∈ s, tab c = 0) : zsendlines tab lastsent s = (s, s.getLastD lastsent) := by
  induction s generalizing lastsent with
  | nil => rfl
  | cons c s ih =>
    obtain ⟨hc, hs⟩ := List.forall_mem_cons.mp h
    have hsend : zsendline tab lastsent c = ([c], c) := by rw [zsendline, hc]
    rw [zsendlines_cons, hsend, ih c hs, List.getLastD_cons]
    rfl

theorem zsendline_s_eq (tab : UInt8 → Fin 3) (lastsent : UInt8) (s : Bytes) :
    zsendline_s tab lastsent s = zsendlines tab lastsent s := by
  induction hn : s.length using Nat.strongRecOn generalizing lastsent s with
  | ind n ih =>
    have hplain := @zsendlines_plain tab (s.takeWhile (tab · = 0)) lastsent
      fun c hc => of_decide_eq_true (List.mem_takeWhile_imp (p := fun c => decide (tab c = 0)) hc)
    have hsplit := List.takeWhile_append_dropWhile (p := (tab · = 0)) (l := s)
    rw [zsendline_s]
    split
    · next h =>
      rw [h, List.append_nil] at hsplit
      rw [hsplit] at hplain ⊢
      exact hplain.symm
    · next c s' h =>
      rw [h] at hsplit
      have hlt : s'.length < n := by
        have := congrArg List.length hsplit
        rw [List.length_append, List.length_cons] at this
        omega
      conv_rhs => rw [← hsplit, zsendlines_append, hplain, zsendlines_cons, ← ih _ hlt _ s' rfl]

/-! ## Reading -/

/-- What `zdlread` returns: a byte, `GOTCRCE` and its like, `GOTCAN`, `ERROR` or `TIMEOUT`. -/
inductive Zdl
  | byte (c : UInt8)
  | gotcrc (frameend : UInt8)
  | gotcan
  | error
  | timeout
  deriving DecidableEq

/-- The characters that both switches of `zdlread2` skip. -/
def skips (Zctlesc : Bool) (c : UInt8) : Bool :=
  c = XON || c = XON ||| 0x80 || c = XOFF || c = XOFF ||| 0x80 || Zctlesc && isControl c

/-- From the label `again2`, behind `cans` characters `CAN`: the end of what there is to read is a
`TIMEOUT`. -/
def again2 (Zctlesc : Bool) (cans : Nat) : Bytes → Zdl × Bytes
  | [] => (.timeout, [])
  | c :: s =>
    if c = CAN then
      if cans < 3 then again2 Zctlesc (cans + 1) s else (.gotcan, s)
    else if c = ZCRCE ∨ c = ZCRCG ∨ c = ZCRCQ ∨ c = ZCRCW then (.gotcrc c, s)
    else if c = ZRUB0 then (.byte 0x7f, s)
    else if c = ZRUB1 then (.byte 0xff, s)
    else if skips Zctlesc c then again2 Zctlesc 0 s
    else if c &&& 0x60 = 0x40 then (.byte (c ^^^ 0x40), s)
    else (.error, s)

/-- From the label `jump_over`; the label `again` reads as `zdlread` does. -/
def zdlread2 (Zctlesc : Bool) (c : UInt8) : Bytes → Zdl × Bytes
  | [] =>
    if c = ZDLE then again2 Zctlesc 0 []
    else if skips Zctlesc c then (.timeout, [])
    else (.byte c, [])
  | d :: s =>
    if c = ZDLE then again2 Zctlesc 0 (d :: s)
    else if skips Zctlesc c then
      if !isControl d then (.byte d, s) else zdlread2 Zctlesc d s
    else (.byte c, d :: s)

def zdlread (Zctlesc : Bool) : Bytes → Zdl × Bytes
  | [] => (.timeout, [])
  | c :: s => if !isControl c then (.byte c, s) else zdlread2 Zctlesc c s

theorem zdlread2_zdle (ctl : Bool) (s : Bytes) : zdlread2 ctl ZDLE s = again2 ctl 0 s := by
  cases s <;> rfl

theorem zdlread2_plain {ctl : Bool} {c : UInt8} (hc : c ≠ ZDLE) (hskip : skips ctl c = false)
    (s : Bytes) : zdlread2 ctl c s = (.byte c, s) := by
  cases s with
  | nil => rw [zdlread2, if_neg hc, hskip]; rfl
  | cons d s => rw [zdlread2, if_neg hc, hskip]; rfl

/-- Reading gives these bytes one after the other, and leaves the rest. -/
def Reads (Zctlesc : Bool) (s : Bytes) : Bytes → Bytes → Prop
  | [], rest => s = rest
  | c :: text, rest => ∃ s', zdlread Zctlesc s = (.byte c, s') ∧ Reads Zctlesc s' text rest

theorem Reads.append {ctl : Bool} {s t rest : Bytes} {a b : Bytes} (ha : Reads ctl s a t)
    (hb : Reads ctl t b rest) : Reads ctl s (a ++ b) rest := by
  induction a generalizing s with
  | nil => exact ha ▸ hb
  | cons c a ih =>
    obtain ⟨s', hread, ha⟩ := ha
    exact ⟨s', hread, ih ha⟩

/-- The sender escapes whatever the receiver skips. -/
def Escaped (ctl Zctlesc turbo_escape : Bool) : Prop := ctl → Zctlesc ∧ !turbo_escape

instance : Decidable (Escaped ctl Zctlesc turbo) := inferInstanceAs (Decidable (_ → _))

/-- A byte that is sent as it is, is neither skipped nor an escape. -/
theorem plain_of_tab {ctl Zctlesc turbo : Bool} (h : Escaped ctl Zctlesc turbo) {c : UInt8}
    (hc : zsendline_tab Zctlesc turbo c ≠ 1) :
    isControl c = true → c ≠ ZDLE ∧ skips ctl c = false := by
  intro hcontrol
  rw [zsendline_tab, hcontrol, if_neg (by decide)] at hc
  have hnot : ¬(c = ZDLE ∨ c = XOFF ∨ c = XON ∨ c = XOFF ||| 0x80 ∨ c = XON ||| 0x80) :=
    fun hin => hc (if_pos hin)
  have hctl : ctl = false := by
    cases ctl with
    | false => rfl
    | true =>
      -- The sender then escapes every control character.
      obtain ⟨hzctlesc, hturbo⟩ := h rfl
      rw [Bool.not_eq_true'] at hturbo
      simp [hnot, hzctlesc, hturbo] at hc
  simp only [not_or] at hnot
  simp [skips, hctl, hnot]

theorem control_of_tab {Zctlesc turbo : Bool} {c : UInt8} (hc : zsendline_tab Zctlesc turbo c ≠ 0) :
    isControl c = true := by
  by_contra h
  rw [zsendline_tab, if_pos (by simpa using h)] at hc
  exact hc rfl

/-- The second half of an escape is a character of its own kind. -/
theorem second_half {c : UInt8} (hc : isControl c = true) : (c ^^^ 0x40) &&& 0x60 = 0x40 := by
  have hdistrib : (c ^^^ 0x40) &&& 0x60 = (c &&& 0x60) ^^^ (0x40 &&& 0x60) := by
    apply UInt8.toBitVec_inj.mp
    apply BitVec.eq_of_getLsbD_eq
    intro i _
    simp only [UInt8.toBitVec_and, UInt8.toBitVec_xor, BitVec.getLsbD_and, BitVec.getLsbD_xor]
    exact Bool.and_xor_distrib_right ..
  rw [hdistrib, of_decide_eq_true hc]
  rfl

theorem escape_of_control {c : UInt8} (hc : isControl c = true) (ctl : Bool) (s : Bytes) :
    again2 ctl 0 ((c ^^^ 0x40) :: s) = (.byte c, s) := by
  have hhalf := second_half hc
  have hne (d : UInt8) (hd : d &&& 0x60 ≠ 0x40) : c ^^^ 0x40 ≠ d := fun heq => hd (heq ▸ hhalf)
  have hskip : skips ctl (c ^^^ 0x40) = false := by
    simp [skips, isControl, hhalf, hne XON (by decide), hne (XON ||| 0x80) (by decide),
      hne XOFF (by decide), hne (XOFF ||| 0x80) (by decide)]
  have hback : c ^^^ 0x40 ^^^ 0x40 = c := by
    rw [UInt8.xor_assoc, UInt8.xor_self, UInt8.xor_zero]
  simp only [again2, hne CAN (by decide), hne ZCRCE (by decide), hne ZCRCG (by decide),
    hne ZCRCQ (by decide), hne ZCRCW (by decide), hne ZRUB0 (by decide), hne ZRUB1 (by decide),
    hskip, hhalf, hback, if_false, if_true, or_self, Bool.false_eq_true]

theorem zdlread_escape {c : UInt8} (hc : isControl c = true) (ctl : Bool) (s : Bytes) :
    zdlread ctl (ZDLE :: (c ^^^ 0x40) :: s) = (.byte c, s) := by
  rw [zdlread, if_neg (by decide), zdlread2_zdle]
  exact escape_of_control hc ctl s

theorem zdlread_plain {ctl : Bool} {c : UInt8}
    (h : isControl c = true → c ≠ ZDLE ∧ skips ctl c = false) (s : Bytes) :
    zdlread ctl (c :: s) = (.byte c, s) := by
  rw [zdlread]
  split
  · rfl
  · next hc =>
    obtain ⟨hne, hskip⟩ := h (by simpa using hc)
    exact zdlread2_plain hne hskip s

section
variable {ctl Zctlesc turbo : Bool} (h : Escaped ctl Zctlesc turbo)
include h

/-- What is written for a byte reads as that byte. -/
theorem zdlread_zsendline (lastsent c : UInt8) (s : Bytes) :
    zdlread ctl ((zsendline (zsendline_tab Zctlesc turbo) lastsent c).1 ++ s) = (.byte c, s) := by
  rw [zsendline]
  split
  · next htab => exact zdlread_plain (plain_of_tab h (by rw [htab]; decide)) s
  · next htab => exact zdlread_escape (control_of_tab (by rw [htab]; decide)) ctl s
  · next htab =>
    split
    · exact zdlread_plain (plain_of_tab h (by rw [htab]; decide)) s
    · exact zdlread_escape (control_of_tab (by rw [htab]; decide)) ctl s

theorem reads_zsendlines (lastsent : UInt8) (text rest : Bytes) :
    Reads ctl ((zsendlines (zsendline_tab Zctlesc turbo) lastsent text).1 ++ rest) text rest := by
  induction text generalizing lastsent with
  | nil => rfl
  | cons c text ih =>
    rw [zsendlines_cons, List.append_assoc]
    exact ⟨_, zdlread_zsendline h lastsent c _, ih _⟩

end

/-- A receiver that asks for escapes loses a byte that the sender leaves as it is. -/
theorem escaped_of_reads {ctl Zctlesc turbo : Bool}
    (h : ∀ c : UInt8, Reads ctl (zsendlines (zsendline_tab Zctlesc turbo) 0 [c]).1 [c] []) :
    Escaped ctl Zctlesc turbo := by
  rintro rfl
  have hone := (h 0x01).imp fun _ hs => hs.1
  have hdle := (h 0x10).imp fun _ hs => hs.1
  cases Zctlesc with
  | false =>
    obtain ⟨_, hone⟩ := hone
    cases hone
  | true =>
    cases turbo with
    | false => exact ⟨rfl, rfl⟩
    | true =>
      obtain ⟨_, hdle⟩ := hdle
      cases hdle

/-- Sending run by run writes what sending byte by byte does, and every text reads back from what is
written for it, exactly when the sender escapes all that the receiver skips. -/
theorem escape_transparent (ctl Zctlesc turbo : Bool) :
    (∀ lastsent text, zsendline_s (zsendline_tab Zctlesc turbo) lastsent text =
      zsendlines (zsendline_tab Zctlesc turbo) lastsent text) ∧
    ((∀ lastsent text rest, Reads ctl
        ((zsendline_s (zsendline_tab Zctlesc turbo) lastsent text).1 ++ rest) text rest) ↔
      Escaped ctl Zctlesc turbo) := by
  refine ⟨zsendline_s_eq _, fun h => escaped_of_reads fun c => ?_, fun h lastsent text rest => ?_⟩
  · have hc := h 0 [c] []
    rwa [List.append_nil, zsendline_s_eq] at hc
  · rw [zsendline_s_eq]
    exact reads_zsendlines h lastsent text rest

end ArgoBbs.Zmodem

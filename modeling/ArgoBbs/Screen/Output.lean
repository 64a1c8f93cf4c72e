import ArgoBbs.Lib.CString
import ArgoBbs.Lib.Cells
import ArgoBbs.Lib.Lookahead
import ArgoBbs.Lib.Reach
import Mathlib.Data.List.TakeWhile

/-! # Output to the terminal

What is shown goes through a buffer of 4096 bytes. `oflush` writes it and takes out what would
reprogram a terminal; `ochar` and `output` write a buffer that is too full as it is (`io.c`). -/

namespace ArgoBbs

def obufSize : Nat := 4096

/-- The buffer in memory, with the bytes that lie behind it. With it go the bytes that have come to
the terminal and those that have been given to be shown. -/
structure Output where
  outbuf : Bytes
  obufsize : Nat
  terminal : Bytes
  given : Bytes
  deriving DecidableEq

inductive OutCall
  | ochar (c : Int)
  | output (s : Bytes) (len : Nat)
  | oflush

/-! ## Escape sequences -/

/-- `strchr` also finds the end of its string. -/
def isParameter (c : UInt8) : Bool := c = 91 || (48 ≤ c && c ≤ 57) || c = 59 || c = 0

/-- `next_ch`: what ends an escape sequence, and how many bytes are in front of that. -/
def nextCh (s : Bytes) : Option UInt8 × Nat :=
  ((s.take 20).find? (!isParameter ·), ((s.take 20).takeWhile isParameter).length)

/-- The finals that are not for the terminal: `~`, `-`, `c`, `i` and `r`. -/
def isForbidden (c : UInt8) : Bool := c = 126 || c = 45 || c = 99 || c = 105 || c = 114

/-- A byte 255 is `-1` where it is a character. -/
def isStopped : Option UInt8 → Bool
  | none => true
  | some c => c = 255 || isForbidden c

/-! ## The buffer -/

/-- The loop of `oflush` over the bytes that are left, some of which are passed over. -/
def flushLoop : Nat → Nat → Bytes → Bytes
  | 0, _, s => s
  | _ + 1, _, [] => []
  | n + 1, skip + 1, c :: s => c :: flushLoop n skip s
  | n + 1, 0, c :: s =>
    let c := if c = 255 ∨ c = 14 then 32 else c
    if c = 27 then
      let (tmp, skip) := nextCh s
      (if isStopped tmp then 42 else c) :: flushLoop n skip s
    else c :: flushLoop n 0 s

namespace Output

def pending (s : Output) : Bytes := s.outbuf.take s.obufsize

/-- `bbs_write` of the buffer. -/
def write (s : Output) : Output := { s with terminal := s.terminal ++ s.pending, obufsize := 0 }

/-- `memcpy` behind what is in the buffer. -/
def put (s : Output) (bytes : Bytes) : Output :=
  { s with outbuf := overlay s.outbuf s.obufsize bytes, obufsize := s.obufsize + bytes.length }

def oflush (s : Output) : Output := write { s with outbuf := flushLoop s.obufsize 0 s.outbuf }

def ocharByte (c : Int) : UInt8 := UInt8.ofNat (c % 256).toNat

/-- `ochar`; a byte 255 is doubled, for telnet. -/
def ochar (s : Output) (c : Int) : Output :=
  let s := if obufSize - 2 < s.obufsize then s.write else s
  if c = 255 then s.put [ocharByte c, ocharByte c] else s.put [ocharByte c]

/-- The bytes that `output` is given: it does not go beyond the end of the string. -/
def outputBytes (str : Bytes) (len : Nat) : Bytes := (str.takeWhile (· ≠ 0)).take len

def output (s : Output) (str : Bytes) (len : Nat) : Output :=
  let bytes := outputBytes str len
  if obufSize < s.obufsize + bytes.length then s.write.put bytes else s.put bytes

def start (outbuf : Bytes) : Output := ⟨outbuf, 0, [], []⟩

end Output

def OutCall.bytes : OutCall → Bytes
  | ochar c => [Output.ocharByte c]
  | output s len => Output.outputBytes s len
  | oflush => []

namespace Output

def act (s : Output) : OutCall → Output
  | .ochar c => s.ochar c
  | .output str len => s.output str len
  | .oflush => s.oflush

/-- A call. More than the buffer holds may not be given to `output`. -/
def step (s : Output) (call : OutCall) : Option Output :=
  if call.bytes.length ≤ obufSize then
    some { s.act call with given := s.given ++ call.bytes }
  else none

end Output

/-! ## What should come to the terminal -/

/-- A byte 14 and the start of a sequence that is forbidden, or has no end, are replaced. -/
def shown (c : UInt8) (rest : Bytes) : UInt8 :=
  if c = 14 then 32
  else if c = 27 then if (nextCh rest).1.elim true isForbidden then 42 else c
  else c

/-- The end of a sequence is in what has been given, or that it has none. -/
def endsWithin (c : UInt8) (rest : Bytes) : Bool :=
  c ≠ 27 || 20 ≤ rest.length || (nextCh rest).1.isSome

def sanitize (given : Bytes) : Bytes := mapTail shown given

namespace Output

/-- The bytes given are on the terminal, as they should be shown, or wait in the buffer. -/
structure Shown (s : Output) : Prop where
  room : obufSize ≤ s.outbuf.length
  size : s.obufsize ≤ obufSize
  waiting : ∃ front : Bytes, s.given = front ++ s.pending ∧ front.length = s.terminal.length
  visible : s.terminal = (sanitize s.given).take s.terminal.length
  ends : settled endsWithin s.terminal.length s.given = true

/-- No forbidden sequence has come to the terminal. -/
def Harmless (s : Output) : Prop :=
  ∀ i c, s.terminal[i]? = some 27 → (nextCh (s.terminal.drop (i + 1))).1 = some c →
    isForbidden c = false

/-- The buffer may be written as it is, in front of what is given next. -/
def RawFits (s : Output) (new : Bytes) : Prop :=
  settled endsWithin s.pending.length (s.pending ++ new) = true ∧
    (sanitize (s.pending ++ new)).take s.pending.length = s.pending

/-- The calls that show what they should: no byte 255 goes through `ochar` or `oflush`, `oflush`
finds all ends of sequences in the filled part of the buffer, and a buffer written as it is
contains nothing that should be replaced. -/
def Fits (s : Output) : OutCall → Prop
  | .ochar c => c ≠ 255 ∧ (obufSize - 2 < s.obufsize → s.RawFits [ocharByte c])
  | .output str len => obufSize < s.obufsize + (outputBytes str len).length →
      s.RawFits (outputBytes str len)
  | .oflush => (255 : UInt8) ∉ s.pending ∧ settled endsWithin s.pending.length s.pending = true

instance (s : Output) (new : Bytes) : Decidable (s.RawFits new) := inferInstanceAs (Decidable (_ ∧ _))

instance (s : Output) : (call : OutCall) → Decidable (s.Fits call)
  | .ochar _ => inferInstanceAs (Decidable (_ ∧ _))
  | .output .. => inferInstanceAs (Decidable (_ → _))
  | .oflush => inferInstanceAs (Decidable (_ ∧ _))

end Output

/-! ## The end of a sequence -/

theorem nextCh_append {rest : Bytes} (e : Bytes)
    (h : 20 ≤ rest.length ∨ (nextCh rest).1.isSome = true) :
    (nextCh (rest ++ e)).1 = (nextCh rest).1 := by
  rw [nextCh, nextCh, List.take_append, List.find?_append]
  rcases h with h | h
  · rw [Nat.sub_eq_zero_of_le h, List.take_zero, List.find?_nil, Option.or_none]
  · rw [nextCh] at h
    exact Option.or_of_isSome h

theorem endsWithin_iff {c : UInt8} {rest : Bytes} : endsWithin c rest = true ↔
    c ≠ 27 ∨ 20 ≤ rest.length ∨ (nextCh rest).1.isSome = true := by
  simp [endsWithin, or_assoc]

theorem endsWithin_append (c : UInt8) (rest e : Bytes) (h : endsWithin c rest = true) :
    endsWithin c (rest ++ e) = true := by
  rw [endsWithin_iff] at h ⊢
  refine h.imp_right fun h => ?_
  rw [nextCh_append e h, List.length_append]
  exact h.imp_left Nat.le_add_right_of_le

theorem shown_append (c : UInt8) (rest e : Bytes) (h : endsWithin c rest = true) :
    shown c (rest ++ e) = shown c rest := by
  rw [endsWithin_iff] at h
  by_cases hc : c = 27
  · rw [shown, shown, nextCh_append e (h.resolve_left (not_not_intro hc))]
  · rw [shown, shown, if_neg hc, if_neg hc]

theorem shown_of_isParameter {c : UInt8} (rest : Bytes) (h : isParameter c = true) :
    shown c rest = c := by
  rw [shown, if_neg, if_neg]
  · rintro rfl
    cases h
  · rintro rfl
    cases h

@[simp] theorem sanitize_cons (c : UInt8) (s : Bytes) :
    sanitize (c :: s) = shown c s :: sanitize s := rfl

/-- What an escape sequence is, is kept. -/
theorem shown_cases (c : UInt8) (rest : Bytes) :
    shown c rest = c ∨ isParameter c = false ∧ isParameter (shown c rest) = false ∧
      isForbidden (shown c rest) = false := by
  rw [shown]
  split
  case isTrue h =>
    subst h
    exact .inr ⟨rfl, rfl, rfl⟩
  case isFalse =>
    split
    case isFalse => exact .inl rfl
    case isTrue h =>
      subst h
      split
      · exact .inr ⟨rfl, rfl, rfl⟩
      · exact .inl rfl

/-- A forbidden end of a sequence that is shown was one of the sequence given. -/
theorem find?_sanitize {l : Bytes} {n : Nat} {x : UInt8} (hx : isForbidden x = true)
    (h : ((sanitize l).take n).find? (!isParameter ·) = some x) :
    (l.take n).find? (!isParameter ·) = some x := by
  induction l generalizing n with
  | nil => exact h
  | cons c l ih =>
    cases n with
    | zero => exact h
    | succ n =>
      rw [sanitize_cons, List.take_succ_cons, List.find?_cons] at h
      rw [List.take_succ_cons, List.find?_cons]
      rcases shown_cases c l with hkept | ⟨hc, hshown, hharmless⟩
      · rw [hkept] at h
        split at h
        · exact h
        · exact ih h
      · rw [hshown] at h
        cases h
        rw [hharmless] at hx
        cases hx

/-! ## The loop of `oflush` -/

theorem isStopped_of_ne {tmp : Option UInt8} (h : tmp ≠ some 255) :
    isStopped tmp = tmp.elim true isForbidden := by
  cases tmp with
  | none => rfl
  | some c =>
    have hc : c ≠ 255 := fun hc => h (congrArg some hc)
    simp [isStopped, hc]

/-- The bytes that are passed over. -/
theorem isParameter_of_mem {s : Bytes} {x : UInt8}
    (hx : x ∈ s.take ((s.take 20).takeWhile isParameter).length) : isParameter x = true := by
  have hprefix : (s.take 20).takeWhile isParameter <+: s :=
    (List.takeWhile_prefix _).trans (List.take_prefix _ _)
  rw [← List.prefix_iff_eq_take.mp hprefix] at hx
  exact List.mem_takeWhile_imp hx

theorem take_flushLoop {n skip : Nat} {s : Bytes} (h255 : (255 : UInt8) ∉ s.take n)
    (hends : settled endsWithin n (s.take n) = true)
    (hskip : ∀ c ∈ s.take skip, isParameter c = true) :
    (flushLoop n skip s).take n = sanitize (s.take n) := by
  fun_induction flushLoop n skip s with
  | case1 => rfl
  | case2 => rfl
  | case3 n skip c s ih =>
    rw [List.take_succ_cons, settled_cons] at hends
    rw [List.take_succ_cons, List.mem_cons, not_or] at h255
    rw [List.take_succ_cons] at hskip
    rw [List.take_succ_cons, List.take_succ_cons, sanitize_cons,
      shown_of_isParameter _ (hskip c List.mem_cons_self),
      ih h255.2 hends.2 fun x hx => hskip x (List.mem_cons_of_mem c hx)]
  | case4 n c s c' hesc tmp skip hnext ih =>
    rw [List.take_succ_cons, List.mem_cons, not_or] at h255
    rw [List.take_succ_cons, settled_cons] at hends
    obtain rfl : c = 27 := by
      by_contra hc
      simp only [c'] at hesc
      split at hesc
      · cases hesc
      · exact hc hesc
    have hend := (endsWithin_iff.mp hends.1).resolve_left (not_not_intro rfl)
    have hfinal : (nextCh (s.take n)).1 = tmp := by
      rw [← nextCh_append (s.drop n) hend, List.take_append_drop, hnext]
    have hparameters : ∀ x ∈ s.take skip, isParameter x = true := by
      intro x hx
      obtain rfl : ((s.take 20).takeWhile isParameter).length = skip := (Prod.ext_iff.mp hnext).2
      exact isParameter_of_mem hx
    rw [List.take_succ_cons, List.take_succ_cons, ih h255.2 hends.2 hparameters, sanitize_cons,
      shown, hfinal, isStopped_of_ne fun h => h255.2 ?_]
    · rfl
    · exact List.mem_of_mem_take (List.mem_of_find?_eq_some (hfinal.trans h))
  | case5 n c s c' hesc ih =>
    rw [List.take_succ_cons, List.mem_cons, not_or] at h255
    rw [List.take_succ_cons, settled_cons] at hends
    have hshown : shown c (s.take n) = c' := by
      simp only [c', or_iff_right (Ne.symm h255.1)] at hesc ⊢
      rw [shown]
      split
      · rfl
      · rename_i h14
        rw [if_neg h14] at hesc
        rw [if_neg hesc]
    rw [List.take_succ_cons, List.take_succ_cons,
      ih h255.2 hends.2 (fun x hx => by simp at hx), sanitize_cons, hshown]

/-! ## What the calls keep -/

namespace Output
variable {s : Output}

theorem length_flushLoop (n skip : Nat) (s : Bytes) : (flushLoop n skip s).length = s.length := by
  fun_induction flushLoop n skip s with
  | case1 => rfl
  | case2 => rfl
  | case3 n skip c s ih => rw [List.length_cons, ih, List.length_cons]
  | case4 n c s c' hesc tmp skip hnext ih => rw [List.length_cons, ih, List.length_cons]
  | case5 n c s c' hesc ih => rw [List.length_cons, ih, List.length_cons]

theorem Shown.length_pending (h : s.Shown) : s.pending.length = s.obufsize :=
  List.length_take_of_le (Nat.le_trans h.size h.room)

theorem Shown.start {outbuf : Bytes} (h : obufSize ≤ outbuf.length) : (start outbuf).Shown where
  room := h
  size := Nat.zero_le _
  waiting := ⟨[], rfl, rfl⟩
  visible := rfl
  ends := rfl

/-- Bytes that find room in the buffer. -/
theorem Shown.put (h : s.Shown) {bytes : Bytes} (hroom : s.obufsize + bytes.length ≤ obufSize) :
    Shown { s.put bytes with given := s.given ++ bytes } := by
  have hpending : (s.put bytes).pending = s.pending ++ bytes :=
    take_overlay_add (Nat.le_trans h.size h.room)
  obtain ⟨front, hgiven, hfront⟩ := h.waiting
  have hlen : s.terminal.length ≤ s.given.length := by
    rw [hgiven, List.length_append, hfront]
    exact Nat.le_add_right _ _
  refine ⟨?_, hroom, ⟨front, ?_, hfront⟩, ?_, settled_append endsWithin_append _ hlen h.ends⟩
  · exact (length_overlay (Nat.le_trans hroom h.room)).symm ▸ h.room
  · change s.given ++ bytes = front ++ (s.put bytes).pending
    rw [hpending, hgiven, List.append_assoc]
  · exact h.visible.trans (take_mapTail_append shown_append _ hlen h.ends).symm

/-- The buffer comes to the terminal, as it should with the bytes that are given behind it; these
go into the empty buffer. -/
theorem Shown.written (h : s.Shown) {out bytes outbuf : Bytes}
    (hends : settled endsWithin s.pending.length (s.pending ++ bytes) = true)
    (hout : (sanitize (s.pending ++ bytes)).take s.pending.length = out)
    (hroom : obufSize ≤ outbuf.length) (hsize : bytes.length ≤ obufSize)
    (hbytes : outbuf.take bytes.length = bytes) :
    Shown ⟨outbuf, bytes.length, s.terminal ++ out, s.given ++ bytes⟩ := by
  obtain ⟨front, hgiven, hfront⟩ := h.waiting
  have hlen : s.terminal.length ≤ s.given.length := by
    rw [hgiven, List.length_append, hfront]
    exact Nat.le_add_right _ _
  have houtlen : out.length = s.pending.length := by
    rw [← hout, List.length_take_of_le]
    rw [sanitize, length_mapTail, List.length_append]
    exact Nat.le_add_right _ _
  have hdrop : (s.given ++ bytes).drop s.terminal.length = s.pending ++ bytes := by
    rw [hgiven, List.append_assoc, List.drop_left' hfront]
  refine ⟨hroom, hsize, ⟨s.given, ?_, ?_⟩, ?_, ?_⟩
  · exact congrArg _ hbytes.symm
  · change s.given.length = (s.terminal ++ out).length
    rw [hgiven, List.length_append, List.length_append, houtlen, hfront]
  · change s.terminal ++ out = (sanitize (s.given ++ bytes)).take (s.terminal ++ out).length
    rw [List.length_append, List.take_add, sanitize, mapTail_drop, hdrop, houtlen,
      take_mapTail_append shown_append _ hlen h.ends]
    exact congrArg₂ _ h.visible hout.symm
  · change settled endsWithin (s.terminal ++ out).length (s.given ++ bytes) = true
    rw [List.length_append, settled_add, hdrop, houtlen]
    exact ⟨settled_append endsWithin_append _ hlen h.ends, hends⟩

/-- The buffer is written as it is, and the bytes go into it. -/
theorem Shown.write_put (h : s.Shown) {bytes : Bytes} (hraw : s.RawFits bytes)
    (hsize : bytes.length ≤ obufSize) :
    Shown { s.write.put bytes with given := s.given ++ bytes } := by
  have hlength : (overlay s.outbuf 0 bytes).length = s.outbuf.length :=
    length_overlay (by rw [Nat.zero_add]; exact Nat.le_trans hsize h.room)
  have htake : (overlay s.outbuf 0 bytes).take (0 + bytes.length) = s.outbuf.take 0 ++ bytes :=
    take_overlay_add (Nat.zero_le _)
  rw [Nat.zero_add, List.take_zero, List.nil_append] at htake
  have hwritten := h.written hraw.1 hraw.2 (hlength.symm ▸ h.room) hsize htake
  rwa [show bytes.length = 0 + bytes.length from (Nat.zero_add _).symm] at hwritten

theorem take_flushLoop_zero (h : s.Shown) (h255 : (255 : UInt8) ∉ s.pending)
    (hends : settled endsWithin s.pending.length s.pending = true) :
    (flushLoop s.obufsize 0 s.outbuf).take s.obufsize = sanitize s.pending := by
  rw [h.length_pending] at hends
  exact take_flushLoop h255 hends fun x hx => absurd hx (by simp)

theorem Shown.oflush (h : s.Shown) (h255 : (255 : UInt8) ∉ s.pending)
    (hends : settled endsWithin s.pending.length s.pending = true) : s.oflush.Shown := by
  have hout : (sanitize (s.pending ++ [])).take s.pending.length =
      (flushLoop s.obufsize 0 s.outbuf).take s.obufsize := by
    rw [take_flushLoop_zero h h255 hends, List.append_nil]
    exact List.take_of_length_le (Nat.le_of_eq (length_mapTail ..))
  have hlen := length_flushLoop s.obufsize 0 s.outbuf
  have hwritten : Shown ⟨flushLoop s.obufsize 0 s.outbuf, ([] : Bytes).length,
      s.terminal ++ (flushLoop s.obufsize 0 s.outbuf).take s.obufsize, s.given ++ []⟩ :=
    h.written ((List.append_nil s.pending).symm ▸ hends) hout (hlen.symm ▸ h.room)
      (Nat.zero_le _) rfl
  rwa [List.append_nil] at hwritten

theorem Shown.act (h : s.Shown) {call : OutCall} (hfits : s.Fits call)
    (hsize : call.bytes.length ≤ obufSize) :
    Shown { s.act call with given := s.given ++ call.bytes } := by
  cases call with
  | ochar c =>
    obtain ⟨hc, hraw⟩ := hfits
    rw [Output.act, Output.ochar]
    dsimp only
    rw [if_neg hc]
    split
    case isTrue hfull => exact h.write_put (hraw hfull) hsize
    case isFalse hroom =>
      apply h.put
      rw [obufSize] at hroom ⊢
      rw [List.length_singleton]
      omega
  | output str len =>
    rw [Output.act, Output.output]
    dsimp only
    split
    case isTrue hfull => exact h.write_put (hfits hfull) hsize
    case isFalse hroom => exact h.put (Nat.le_of_not_lt hroom)
  | oflush =>
    have hflushed := h.oflush hfits.1 hfits.2
    rw [OutCall.bytes, List.append_nil]
    exact hflushed

/-- What every call keeps. -/
theorem size_act {call : OutCall} (hsize : call.bytes.length ≤ obufSize) :
    (s.act call).obufsize ≤ obufSize := by
  cases call with
  | ochar c =>
    have hput : ∀ t : Output, t.obufsize ≤ obufSize - 2 →
        (if c = 255 then t.put [ocharByte c, ocharByte c] else t.put [ocharByte c]).obufsize ≤
          obufSize := by
      intro t ht
      rw [obufSize] at ht ⊢
      split
      · exact Nat.add_le_add_right ht 2
      · exact Nat.le_trans (Nat.add_le_add_right ht 1) (by decide)
    apply hput
    split
    · exact Nat.zero_le _
    · exact Nat.le_of_not_lt ‹_›
  | output str len =>
    rw [Output.act, Output.output]
    split
    · exact Nat.le_trans (Nat.le_of_eq (Nat.zero_add _)) hsize
    · exact Nat.le_of_not_lt ‹_›
  | oflush => exact Nat.zero_le _

theorem Shown.harmless (h : s.Shown) : s.Harmless := by
  intro i c hesc hfinal
  obtain ⟨hi, hget⟩ := List.getElem?_eq_some_iff.mp hesc
  have hlen : s.terminal.length ≤ s.given.length := by
    obtain ⟨front, hgiven, hfront⟩ := h.waiting
    rw [hgiven, List.length_append, hfront]
    exact Nat.le_add_right _ _
  have hdrop := List.drop_eq_getElem_cons (Nat.lt_of_lt_of_le hi hlen)
  obtain ⟨x, rest, hx⟩ : ∃ x rest, s.given.drop i = x :: rest := ⟨_, _, hdrop⟩
  have hterminal : s.terminal.drop i =
      (shown x rest :: sanitize rest).take (s.terminal.length - i) := by
    conv_lhs => rw [h.visible]
    rw [List.drop_take, sanitize, mapTail_drop, hx]
    rfl
  obtain ⟨m, hm⟩ : ∃ m, s.terminal.length - i = m + 1 := ⟨s.terminal.length - i - 1, by omega⟩
  rw [List.drop_eq_getElem_cons hi, hget, hm, List.take_succ_cons, List.cons_eq_cons] at hterminal
  rw [nextCh, hterminal.2, List.take_take] at hfinal
  have hnot : (nextCh rest).1.elim true isForbidden = false := by
    have hshown := hterminal.1.symm
    rw [shown] at hshown
    split at hshown
    · cases hshown
    · split at hshown
      · split at hshown
        · cases hshown
        · exact Bool.eq_false_iff.mpr ‹_›
      · exact absurd hshown ‹_›
  by_contra hc
  have hgiven := find?_sanitize (Bool.not_eq_false _ ▸ hc) hfinal
  have hprefix : rest.take (min 20 m) <+: rest.take 20 := by
    rw [← List.take_take]
    exact List.take_take .. ▸ List.take_prefix_take_left (Nat.min_le_left _ _)
  rw [nextCh, hprefix.find?_eq_some hgiven] at hnot
  exact hc hnot

/-! ## Runs -/

section
variable {outbuf : Bytes}

theorem size_of_reach (h : Reach step (fun _ _ => True) (start outbuf) s) :
    s.obufsize ≤ obufSize := by
  apply h.invariant (fun s => s.obufsize ≤ obufSize)
  · exact Nat.zero_le _
  · rintro s call s' - - hstep
    rw [step] at hstep
    split at hstep
    · obtain rfl := Option.some.inj hstep
      exact size_act ‹_›
    · cases hstep

/-- The buffer is never longer than it may be, and in runs of calls that fit the bytes given come
to the terminal in order, as they should be shown. -/
theorem shown_of_reach (hroom : obufSize ≤ outbuf.length) :
    (∀ s, Reach step (fun _ _ => True) (start outbuf) s → s.obufsize ≤ obufSize) ∧
    ∀ s, Reach step Fits (start outbuf) s → s.Shown ∧ s.Harmless := by
  refine ⟨fun s => size_of_reach, fun s h => ?_⟩
  have hshown : s.Shown := by
    apply h.invariant Shown (Shown.start hroom)
    intro s call s' hs hfits hstep
    rw [step] at hstep
    split at hstep
    · obtain rfl := Option.some.inj hstep
      exact hs.act hfits ‹_›
    · cases hstep
  exact ⟨hshown, hshown.harmless⟩

/-- A buffer of zeros, and a colour and a letter that are shown. -/
theorem shown_of_reach_demo :
    let calls : List OutCall := [.output [27, 91, 51, 49, 109] 5, .ochar 97, .oflush]
    ∃ s, calls.foldlM step (start (.replicate 4096 0)) = some s ∧ s.Shown ∧ s.Harmless := by
  have hmeets : Reach.Meets step Fits (start (.replicate 4096 0))
      [.output [27, 91, 51, 49, 109] 5, .ochar 97, .oflush] := by decide +kernel
  obtain ⟨s, hs, hreach⟩ := Reach.of_meets _ hmeets
  exact ⟨s, hs, (shown_of_reach (by rw [List.length_replicate]; exact Nat.le_refl _)).2 s hreach⟩

/-- An escape character that stands alone in the buffer is taken to be ended by what an earlier
`output` has left behind it; the next flush completes the sequence that resets the terminal. -/
theorem not_shown_of_reach :
    ¬ ∀ outbuf : Bytes, obufSize ≤ outbuf.length →
      ∀ s, Reach step (fun _ _ => True) (start outbuf) s → s.Shown ∧ s.Harmless := by
  intro h
  have hmeets : Reach.Meets step (fun _ _ => True) (start (.replicate 4096 0))
      [.output [120, 109] 2, .oflush, .ochar 27, .oflush, .ochar 99, .oflush] := by decide +kernel
  obtain ⟨s, hs, hreach⟩ := Reach.of_meets _ hmeets
  have hterminal : s.terminal = [120, 109, 27, 99] := by
    have hrun : ∀ t, [.output [120, 109] 2, .oflush, .ochar 27, .oflush, .ochar 99,
        .oflush].foldlM step (start (.replicate 4096 0)) = some t →
        t.terminal = [120, 109, 27, 99] := by decide +kernel
    exact hrun s hs
  have hharmless := (h (.replicate 4096 0) (by rw [List.length_replicate]; exact Nat.le_refl _)
    s hreach).2 2 99 (by rw [hterminal]; rfl) (by rw [hterminal]; rfl)
  cases hharmless
end

end Output

end ArgoBbs

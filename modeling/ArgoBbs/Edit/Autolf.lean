import ArgoBbs.Lib.Breaks
import ArgoBbs.Lib.Bytes
import ArgoBbs.Lib.CString

/-! # Line feeds in long lines

`autolfline` writes a line with a line feed wherever the column would go beyond 73. The column is
moved by escape sequences too, and a break is looked for up to nine bytes back (`edit.c`). -/

namespace ArgoBbs

/-- `inESC` -/
inductive EscMode
  | data
  | esc
  | param
  deriving DecidableEq

/-- The variables of the loop, what has been written, and the breaks so far, the last one first:
where the written part ends and where the next one starts. -/
structure AutoLf where
  p1 : Nat
  inESC : EscMode
  dbchar : Bool
  n : Int
  curlinelen : Int
  savecursor : Int
  out : Bytes
  breaks : List (Nat × Nat)
  deriving DecidableEq

namespace AutoLf
variable (line : Bytes)

-- The parentheses keep `line` apart from the bracket: Mathlib has both as one token.
def isBlank (i : Nat) : Bool := (line)[i]? = some 32

/-- A write up to a place, with a line feed; it fails if the place is in front of `p1`. -/
def breakAt (s : AutoLf) (stop p1 : Nat) : Option AutoLf :=
  if stop < s.p1 then none
  else
    some { s with
      p1, curlinelen := 0
      out := s.out ++ (line.drop s.p1).take (stop - s.p1) ++ [10]
      breaks := (stop, p1) :: s.breaks }

/-- The blank nearest to the place among some bytes in front of it; it fails where it goes to the
byte in front of the line. -/
def blankBefore : (count p2 : Nat) → Option (Option Nat)
  | 0, _ => some none
  | _ + 1, 0 => none
  | count + 1, p2 + 1 => if isBlank line p2 then some (some p2) else blankBefore count p2

/-- The break behind column 73. -/
def wrap (s : AutoLf) (p2 : Nat) (c : UInt8) : Option AutoLf :=
  if s.dbchar then s.breakAt line (p2 - 1) (p2 - 1)
  else if isalpha c then
    if isBlank line (p2 + 1) then s.breakAt line (p2 + 1) (p2 + 2)
    else do
      let j := if (10 : Int) < s.curlinelen then 10 else s.curlinelen - 1
      match ← blankBefore line (j - 1).toNat p2 with
      | some b => s.breakAt line b (b + 1)
      | none => s.breakAt line p2 p2
  else s.breakAt line p2 (if c = 32 then p2 + 1 else p2)

/-- The end of a sequence. -/
def finish (s : AutoLf) (c : UInt8) : AutoLf :=
  let curlinelen :=
    if c = 67 then toCInt (s.curlinelen + s.n)
    else if c = 68 then toCInt (s.curlinelen - s.n)
    else if c = 72 ∨ c = 102 then (if s.n = 0 then 1 else s.n) - 1
    else if c = 117 ∧ s.savecursor ≠ -1 then s.savecursor
    else s.curlinelen
  { s with
    curlinelen, inESC := .data
    n := if (c = 72 ∨ c = 102) ∧ s.n = 0 then 1 else s.n
    savecursor := if c = 115 then s.curlinelen else s.savecursor }

/-- One byte. -/
def step (s : AutoLf) (p2 : Nat) (c : UInt8) : Option AutoLf :=
  match s.inESC with
  | .data =>
    if c = 27 then some { s with inESC := .esc }
    else do
      let s := { s with curlinelen := toCInt (s.curlinelen + 1) }
      let s ← if (73 : Int) < s.curlinelen then s.wrap line p2 c else some s
      some { s with dbchar := !s.dbchar && c &&& 0x80 ≠ 0 }
  | .esc => some { s with inESC := if c = 91 then .param else .data, n := 0, dbchar := false }
  | .param =>
    if c = 59 then some { s with n := 0 }
    else if isdigit c then some { s with n := toCInt (s.n * 10 + (c.toNat - 48)) }
    else some (s.finish c)

def start (savecursor : Int) : AutoLf := ⟨0, .data, false, 0, 0, savecursor, [], []⟩

/-- The loop up to a place. -/
def scanTo (savecursor : Int) : Nat → Option AutoLf
  | 0 => some (start savecursor)
  | p2 + 1 => do
    let s ← scanTo savecursor p2
    let c ← (line)[p2]?
    s.step line p2 c

end AutoLf

/-- What is written for a line, with the state at its end. -/
def autolfline (line : Bytes) (savecursor : Int) : Option (Bytes × AutoLf) := do
  let s ← AutoLf.scanTo line savecursor line.length
  some (s.out ++ line.drop s.p1 ++ [10], s)

/-! ## What should be written -/

/-- The mode behind a byte, and whether it starts a character of two bytes. -/
def escScan (st : EscMode × Bool) (c : UInt8) : EscMode × Bool :=
  match st.1 with
  | .data => if c = 27 then (.esc, st.2) else (.data, !st.2 && c &&& 0x80 ≠ 0)
  | .esc => (if c = 91 then .param else .data, false)
  | .param => if c = 59 ∨ isdigit c then st else (.data, st.2)

def scanAt (line : Bytes) (i : Nat) : EscMode × Bool := (line.take i).foldl escScan (.data, false)

/-- The place is between the two bytes of a character. -/
def insideChar (line : Bytes) (i : Nat) : Bool :=
  scanAt line i = (.data, true) && (line)[i]?.any (· ≠ 27)

namespace AutoLf

/-- The parts of the line with a line feed behind each. -/
def written (line : Bytes) : List (Nat × Nat) → Bytes
  | [] => []
  | (stop, _) :: breaks =>
    written line breaks ++
      (line.drop (nextStart breaks)).take (stop - nextStart breaks) ++ [10]

/-- Each break comes behind the last one, leaves out nothing but a blank, and cuts no character. -/
def BreaksWell (line : Bytes) : List (Nat × Nat) → Prop
  | [] => True
  | (stop, p1) :: breaks =>
    (nextStart breaks ≤ stop ∧ p1 ≤ line.length ∧
      (p1 = stop ∨ p1 = stop + 1 ∧ isBlank line stop = true) ∧
      insideChar line stop = false ∧ insideChar line p1 = false) ∧
    BreaksWell line breaks

end AutoLf

/-- All of the line is written in its order, with line feeds that cut no character. -/
def Reflows (line : Bytes) (savecursor : Int) : Prop :=
  ∃ out s, autolfline line savecursor = some (out, s) ∧
    out = AutoLf.written line s.breaks ++ line.drop (nextStart s.breaks) ++ [10] ∧
    AutoLf.BreaksWell line s.breaks

namespace AutoLf

/-- A break is looked for back from here. -/
def looksBack (line : Bytes) (s : AutoLf) (p2 : Nat) : Bool :=
  s.inESC = .data && (line)[p2]?.any isalpha && !s.dbchar &&
    (73 : Int) < toCInt (s.curlinelen + 1) &&
    !isBlank line (p2 + 1)

/-- Looking back stays within the line, and a blank found is in the part that is not written yet and
is no second byte of a character. -/
def FindsWell (line : Bytes) (s : AutoLf) (p2 : Nat) : Prop :=
  looksBack line s p2 = true → ∃ r, blankBefore line 9 p2 = some r ∧
    ∀ b, r = some b → s.p1 ≤ b ∧ insideChar line b = false

end AutoLf

/-! ## Characters -/

section
variable {line : Bytes} {q : Nat} {c : UInt8}

theorem scanAt_succ (hc : (line)[q]? = some c) : scanAt line (q + 1) = escScan (scanAt line q) c := by
  rw [scanAt, List.take_add_one, hc, List.foldl_append]
  rfl

/-- No character is open among the parameters of a sequence. -/
theorem scanAt_param (h : (scanAt line q).1 = .param) : (scanAt line q).2 = false := by
  induction q with
  | zero => rfl
  | succ q ih =>
    cases hc : (line)[q]? with
    | none =>
      rw [scanAt, List.take_add_one, hc, Option.toList_none, List.append_nil] at h ⊢
      exact ih h
    | some c =>
      rw [scanAt_succ hc, escScan] at h ⊢
      cases hmode : (scanAt line q).1 with
      | data =>
        rw [hmode] at h
        dsimp only at h
        split at h
        · cases h
        · cases h
      | esc => rfl
      | param =>
        rw [hmode] at h
        dsimp only at h ⊢
        split
        · exact ih hmode
        · exact ih hmode

theorem insideChar_of_closed (h : (scanAt line q).2 = false) : insideChar line q = false := by
  rw [insideChar, show decide (scanAt line q = (.data, true)) = false from
    decide_eq_false fun heq => by rw [heq] at h; cases h]
  rfl

/-- A byte without its high bit, or one that ends a character, has none open behind it. -/
theorem insideChar_succ (hc : (line)[q]? = some c) (hlow : c &&& 0x80 = 0) (h27 : c ≠ 27) :
    insideChar line (q + 1) = false := by
  apply insideChar_of_closed
  rw [scanAt_succ hc, escScan]
  cases hmode : (scanAt line q).1 with
  | data =>
    dsimp only
    rw [if_neg h27]
    simp [hlow]
  | esc => rfl
  | param =>
    dsimp only
    split
    · exact scanAt_param hmode
    · exact scanAt_param hmode

/-- The byte that starts a character is not in the middle of one. -/
theorem insideChar_lead (h : scanAt line (q + 1) = (.data, true)) : insideChar line q = false := by
  cases hc : (line)[q]? with
  | none => rw [insideChar, hc, Option.any_none, Bool.and_false]
  | some c =>
    apply insideChar_of_closed
    rw [scanAt_succ hc, escScan] at h
    cases hmode : (scanAt line q).1 with
    | data =>
      rw [hmode] at h
      dsimp only at h
      split at h
      · cases h
      · have hopen := (Prod.mk.inj h).2
        rw [Bool.and_eq_true, Bool.not_eq_true'] at hopen
        exact hopen.1
    | esc =>
      rw [hmode] at h
      cases (Prod.mk.inj h).2
    | param => exact scanAt_param hmode

theorem insideChar_eq (h : scanAt line q = (.data, true)) (hc : (line)[q]? = some c) (h27 : c ≠ 27) :
    insideChar line q = true := by
  simp [insideChar, h, hc, h27]
end

/-! ## The loop -/

namespace AutoLf
variable {line : Bytes} {q : Nat} {c : UInt8} {s s' : AutoLf} {stop p1 : Nat}

/-- In front of the place everything up to `p1` is written; only behind a blank that was left out
`p1` is ahead of the place. -/
structure Inv (line : Bytes) (q : Nat) (s : AutoLf) : Prop where
  mode : scanAt line q = (s.inESC, s.dbchar)
  start : s.p1 = nextStart s.breaks
  out : s.out = written line s.breaks
  well : BreaksWell line s.breaks
  place : s.p1 ≤ q ∨ s.p1 = q + 1 ∧ s.curlinelen = 0 ∧ s.inESC = .data ∧ isBlank line q = true

theorem Inv.closed (I : Inv line q s) : insideChar line s.p1 = false := by
  rw [I.start]
  have hwell := I.well
  cases hbreaks : s.breaks with
  | nil => rfl
  | cons b breaks =>
    rw [hbreaks] at hwell
    exact hwell.1.2.2.2.2

theorem Inv.start_zero (line : Bytes) (savecursor : Int) : Inv line 0 (AutoLf.start savecursor) :=
  ⟨rfl, rfl, rfl, trivial, .inl (Nat.le_refl 0)⟩

theorem breakAt_eq (h : s.p1 ≤ stop) : s.breakAt line stop p1 = some
    { s with
      p1, curlinelen := 0
      out := s.out ++ (line.drop s.p1).take (stop - s.p1) ++ [10]
      breaks := (stop, p1) :: s.breaks } := if_neg (Nat.not_lt.mpr h)

/-- What a break must be. -/
structure BreakFits (line : Bytes) (q : Nat) (s : AutoLf) (stop p1 : Nat) : Prop where
  start : s.p1 ≤ stop
  le : p1 ≤ line.length
  blank : p1 = stop ∨ p1 = stop + 1 ∧ isBlank line stop = true
  stop : insideChar line stop = false
  next : insideChar line p1 = false
  place : p1 ≤ q + 1 ∨ p1 = q + 2 ∧ isBlank line (q + 1) = true

/-- A break and the end of the turn. -/
theorem Inv.break (I : Inv line q s) (hdata : s.inESC = .data) (hc : (line)[q]? = some c)
    (h27 : c ≠ 27) (cur : Int) (hfits : BreakFits line q s stop p1) :
    ∃ s₁, breakAt line { s with curlinelen := cur } stop p1 = some s₁ ∧
      s₁.breaks = (stop, p1) :: s.breaks ∧
      Inv line (q + 1) { s₁ with dbchar := !s₁.dbchar && c &&& 0x80 ≠ 0 } := by
  refine ⟨_, breakAt_eq hfits.start, rfl, ?_, rfl, ?_, ?_, ?_⟩
  · rw [scanAt_succ hc, I.mode, escScan, hdata]
    exact if_neg h27
  · change s.out ++ _ ++ [10] = written line ((stop, p1) :: s.breaks)
    rw [written, I.out, I.start]
  · exact ⟨⟨I.start ▸ hfits.start, hfits.le, hfits.blank, hfits.stop, hfits.next⟩, I.well⟩
  · exact hfits.place.imp id fun ⟨hahead, hblank⟩ => ⟨hahead, rfl, hdata, hblank⟩

theorem blankBefore_spec {count b : Nat} (h : blankBefore line count q = some (some b)) :
    b < q ∧ isBlank line b = true := by
  induction count generalizing q with
  | zero => cases h
  | succ count ih =>
    cases q with
    | zero => cases h
    | succ q =>
      rw [blankBefore] at h
      split at h
      case isTrue hblank =>
        obtain rfl := Option.some.inj (Option.some.inj h)
        exact ⟨Nat.lt_succ_self _, hblank⟩
      case isFalse =>
        obtain ⟨hlt, hblank⟩ := ih h
        exact ⟨Nat.lt_succ_of_lt hlt, hblank⟩

theorem low_of_isalpha : ∀ c, isalpha c = true → c &&& 0x80 = 0 := fun c h =>
  (by decide +kernel : ∀ n : Fin 256, isalpha (.ofFin n) = true →
    (.ofFin n : UInt8) &&& 0x80 = 0) c.toFin h

theorem lt_of_isBlank (h : isBlank line q = true) : q < line.length :=
  (List.getElem?_eq_some_iff.mp (of_decide_eq_true h)).1

theorem insideChar_of_isBlank (h : isBlank line q = true) : insideChar line (q + 1) = false :=
  insideChar_succ (of_decide_eq_true h) rfl (by decide)

theorem Inv.p1_le (I : Inv line q s) (hcur : 73 < toCInt (s.curlinelen + 1)) : s.p1 ≤ q := by
  refine I.place.resolve_right fun ⟨_, hzero, _⟩ => ?_
  rw [hzero] at hcur
  exact absurd hcur (by decide)

/-- The break that `wrap` comes to, if it finds well. -/
theorem Inv.wrap (I : Inv line q s) (hdata : s.inESC = .data) (hc : (line)[q]? = some c)
    (h27 : c ≠ 27) (hcur : 73 < toCInt (s.curlinelen + 1)) (hfinds : FindsWell line s q) :
    ∃ stop p1, BreakFits line q s stop p1 ∧
      AutoLf.wrap line { s with curlinelen := toCInt (s.curlinelen + 1) } q c =
        breakAt line { s with curlinelen := toCInt (s.curlinelen + 1) } stop p1 := by
  have hle := I.p1_le hcur
  have hlt : q < line.length := (List.getElem?_eq_some_iff.mp hc).1
  have hmode := I.mode
  rw [hdata] at hmode
  unfold AutoLf.wrap
  dsimp only
  cases hdb : s.dbchar with
  | true =>
    rw [hdb] at hmode
    cases q with
    | zero => cases hmode
    | succ q =>
      have hne : s.p1 ≠ q + 1 := fun heq => by
        have hclosed := I.closed
        rw [heq, insideChar_eq hmode hc h27] at hclosed
        cases hclosed
      refine ⟨q, q, ⟨by omega, by omega, .inl rfl, ?_, ?_, .inl (by omega)⟩, rfl⟩
      · exact insideChar_lead hmode
      · exact insideChar_lead hmode
  | false =>
    have hclosed : insideChar line q = false := insideChar_of_closed (by rw [hmode, hdb])
    rw [if_neg Bool.false_ne_true]
    by_cases halpha : isalpha c = true
    · rw [if_pos halpha]
      by_cases hblank : isBlank line (q + 1) = true
      · rw [if_pos hblank]
        refine ⟨q + 1, q + 2, ⟨by omega, lt_of_isBlank hblank, .inr ⟨rfl, hblank⟩, ?_, ?_,
          .inr ⟨rfl, hblank⟩⟩, rfl⟩
        · exact insideChar_succ hc (low_of_isalpha c halpha) h27
        · exact insideChar_of_isBlank hblank
      · have hlooks : looksBack line s q = true := by
          simp [looksBack, hdata, hc, halpha, hdb, hcur, hblank]
        obtain ⟨r, hr, hfound⟩ := hfinds hlooks
        have hten : (10 : Int) < toCInt (s.curlinelen + 1) := Int.lt_trans (by decide) hcur
        rw [if_neg hblank, if_pos hten, show ((10 : Int) - 1).toNat = 9 from rfl, hr]
        cases r with
        | none =>
          exact ⟨q, q, ⟨hle, Nat.le_of_lt hlt, .inl rfl, hclosed, hclosed, .inl (Nat.le_succ q)⟩, rfl⟩
        | some b =>
          obtain ⟨hb, hinside⟩ := hfound b rfl
          obtain ⟨hbq, hblank'⟩ := blankBefore_spec hr
          exact ⟨b, b + 1, ⟨hb, lt_of_isBlank hblank', .inr ⟨rfl, hblank'⟩, hinside,
            insideChar_of_isBlank hblank', .inl (by omega)⟩, rfl⟩
    · rw [if_neg halpha]
      by_cases h32 : c = 32
      · subst h32
        have hblank : isBlank line q = true := decide_eq_true hc
        rw [if_pos rfl]
        exact ⟨q, q + 1, ⟨hle, hlt, .inr ⟨rfl, hblank⟩, hclosed, insideChar_of_isBlank hblank,
          .inl (Nat.le_refl _)⟩, rfl⟩
      · rw [if_neg h32]
        exact ⟨q, q, ⟨hle, Nat.le_of_lt hlt, .inl rfl, hclosed, hclosed, .inl (Nat.le_succ q)⟩, rfl⟩

/-- A byte that breaks nothing. -/
theorem Inv.advance (I : Inv line q s) (hmode : scanAt line (q + 1) = (s'.inESC, s'.dbchar))
    (hp1 : s'.p1 = s.p1) (hout : s'.out = s.out) (hbreaks : s'.breaks = s.breaks) :
    Inv line (q + 1) s' where
  mode := hmode
  start := by rw [hp1, hbreaks, I.start]
  out := by rw [hout, hbreaks, I.out]
  well := hbreaks ▸ I.well
  place := by
    rw [hp1]
    rcases I.place with hle | ⟨heq, -⟩
    · exact .inl (Nat.le_succ_of_le hle)
    · exact .inl (Nat.le_of_eq heq)

theorem Inv.step (I : Inv line q s) (hc : (line)[q]? = some c) (hfinds : FindsWell line s q) :
    ∃ s', s.step line q c = some s' ∧ Inv line (q + 1) s' := by
  have hmode := scanAt_succ hc
  rw [I.mode, escScan] at hmode
  unfold AutoLf.step
  cases hesc : s.inESC with
  | data =>
    rw [hesc] at hmode
    dsimp only at hmode ⊢
    by_cases h27 : c = 27
    · rw [if_pos h27] at hmode ⊢
      exact ⟨_, rfl, I.advance hmode rfl rfl rfl⟩
    · rw [if_neg h27] at hmode ⊢
      by_cases hcur : 73 < toCInt (s.curlinelen + 1)
      · obtain ⟨stop, p1, hfits, hwrap⟩ := I.wrap hesc hc h27 hcur hfinds
        obtain ⟨s₁, hs₁, -, I₁⟩ := I.break hesc hc h27 _ hfits
        rw [if_pos hcur, ← hesc, hwrap, hs₁]
        exact ⟨_, rfl, I₁⟩
      · rw [if_neg hcur]
        refine ⟨_, rfl, I.advance ?_ rfl rfl rfl⟩
        exact hmode
  | esc =>
    rw [hesc] at hmode
    exact ⟨_, rfl, I.advance hmode rfl rfl rfl⟩
  | param =>
    rw [hesc] at hmode
    dsimp only at hmode ⊢
    by_cases h59 : c = 59
    · rw [if_pos (.inl h59)] at hmode
      rw [if_pos h59]
      exact ⟨_, rfl, I.advance hmode rfl rfl rfl⟩
    · rw [if_neg h59]
      by_cases hdigit : isdigit c = true
      · rw [if_pos (.inr hdigit)] at hmode
        rw [if_pos hdigit]
        exact ⟨_, rfl, I.advance hmode rfl rfl rfl⟩
      · rw [if_neg (not_or.mpr ⟨h59, hdigit⟩)] at hmode
        rw [if_neg hdigit]
        exact ⟨_, rfl, I.advance hmode rfl rfl rfl⟩

/-! ## What goes wrong -/

theorem breaks_breakAt (h : s.breakAt line stop p1 = some s') :
    s.p1 ≤ stop ∧ s'.breaks = (stop, p1) :: s.breaks := by
  rw [breakAt] at h
  split at h
  · cases h
  · obtain rfl := Option.some.inj h
    exact ⟨Nat.le_of_not_lt ‹_›, rfl⟩

/-- Looking back is part of the step. -/
theorem step_of_looksBack (hc : (line)[q]? = some c) (hlooks : looksBack line s q = true)
    (hstep : s.step line q c = some s') : ∃ r, blankBefore line 9 q = some r ∧
      ∀ b, r = some b → s.p1 ≤ b ∧ s'.breaks = (b, b + 1) :: s.breaks := by
  simp only [looksBack, hc, Option.any_some, Bool.and_eq_true, decide_eq_true_eq,
    Bool.not_eq_true'] at hlooks
  obtain ⟨⟨⟨⟨hdata, halpha⟩, hdb⟩, hcur⟩, hblank⟩ := hlooks
  have h27 : c ≠ 27 := by
    rintro rfl
    cases halpha
  have hten : (10 : Int) < toCInt (s.curlinelen + 1) := Int.lt_trans (by decide) hcur
  rw [AutoLf.step, hdata] at hstep
  simp only [if_neg h27, if_pos hcur, AutoLf.wrap, hdb, Bool.false_eq_true, if_false, halpha, if_true,
    hblank, hten, Option.bind_eq_bind] at hstep
  cases hr : blankBefore line 9 q with
  | none =>
    rw [show ((10 : Int) - 1).toNat = 9 from rfl, hr] at hstep
    cases hstep
  | some r =>
    refine ⟨r, rfl, ?_⟩
    rintro b rfl
    rw [show ((10 : Int) - 1).toNat = 9 from rfl, hr] at hstep
    obtain ⟨s₁, hs₁, hs'⟩ := Option.bind_eq_some_iff.mp hstep
    obtain ⟨hb, hbreaks⟩ := breaks_breakAt hs₁
    obtain rfl := Option.some.inj hs'
    exact ⟨hb, hbreaks⟩

theorem breaks_wrap (h : s.wrap line q c = some s') : s.breaks <:+ s'.breaks := by
  have hbreak : ∀ {stop p1}, s.breakAt line stop p1 = some s' → s.breaks <:+ s'.breaks := by
    intro stop p1 h
    rw [(breaks_breakAt h).2]
    exact List.suffix_cons ..
  rw [AutoLf.wrap] at h
  split at h
  · exact hbreak h
  · split at h
    · split at h
      · exact hbreak h
      · obtain ⟨r, -, hr⟩ := Option.bind_eq_some_iff.mp h
        cases r with
        | some b => exact hbreak hr
        | none => exact hbreak hr
    · exact hbreak h

/-- Breaks are never taken back. -/
theorem breaks_step (hstep : s.step line q c = some s') : s.breaks <:+ s'.breaks := by
  rw [AutoLf.step] at hstep
  cases hesc : s.inESC with
  | data =>
    rw [hesc] at hstep
    dsimp only at hstep
    split at hstep
    · obtain rfl := Option.some.inj hstep
      exact List.suffix_rfl
    · split at hstep
      · obtain ⟨s₁, hs₁, hs'⟩ := Option.bind_eq_some_iff.mp hstep
        have hbreaks := breaks_wrap hs₁
        obtain rfl := Option.some.inj hs'
        exact hbreaks
      · obtain rfl := Option.some.inj hstep
        exact List.suffix_rfl
  | esc =>
    rw [hesc] at hstep
    obtain rfl := Option.some.inj hstep
    exact List.suffix_rfl
  | param =>
    rw [hesc] at hstep
    dsimp only at hstep
    split at hstep
    · obtain rfl := Option.some.inj hstep
      exact List.suffix_rfl
    · split at hstep
      · obtain rfl := Option.some.inj hstep
        exact List.suffix_rfl
      · obtain rfl := Option.some.inj hstep
        exact List.suffix_rfl

theorem BreaksWell.of_suffix {breaks breaks' : List (Nat × Nat)} (hwell : BreaksWell line breaks)
    (h : breaks' <:+ breaks) : BreaksWell line breaks' := by
  induction breaks with
  | nil => rwa [List.suffix_nil.mp h]
  | cons b breaks ih =>
    rcases List.suffix_cons_iff.mp h with rfl | h
    · exact hwell
    · exact ih hwell.2 h

variable {savecursor : Int}

theorem scanTo_succ (h : scanTo line savecursor (q + 1) = some s') : ∃ s c,
    scanTo line savecursor q = some s ∧ (line)[q]? = some c ∧ s.step line q c = some s' := by
  obtain ⟨s, hs, h⟩ := Option.bind_eq_some_iff.mp h
  obtain ⟨c, hc, hstep⟩ := Option.bind_eq_some_iff.mp h
  exact ⟨s, c, hs, hc, hstep⟩

/-- What the loop has been through. -/
theorem scanTo_le {n : Nat} (h : scanTo line savecursor n = some s') (hle : q ≤ n) :
    ∃ s, scanTo line savecursor q = some s ∧ s.breaks <:+ s'.breaks := by
  induction n generalizing s' with
  | zero =>
    obtain rfl := Nat.le_zero.mp hle
    exact ⟨s', h, List.suffix_rfl⟩
  | succ n ih =>
    rcases Nat.le_or_eq_of_le_succ hle with hle | rfl
    · obtain ⟨s₁, c, hs₁, -, hstep⟩ := scanTo_succ h
      obtain ⟨s, hs, hsuffix⟩ := ih hs₁ hle
      exact ⟨s, hs, hsuffix.trans (breaks_step hstep)⟩
    · exact ⟨s', h, List.suffix_rfl⟩

theorem inv_of_scanTo
    (hfinds : ∀ q s, q < line.length → scanTo line savecursor q = some s → FindsWell line s q)
    (hle : q ≤ line.length) : ∃ s, scanTo line savecursor q = some s ∧ Inv line q s := by
  induction q with
  | zero => exact ⟨_, rfl, Inv.start_zero line savecursor⟩
  | succ q ih =>
    obtain ⟨s, hs, I⟩ := ih (Nat.le_of_succ_le hle)
    obtain ⟨s', hs', I'⟩ := I.step (List.getElem?_eq_getElem hle) (hfinds q s hle hs)
    refine ⟨s', ?_, I'⟩
    rw [scanTo, hs, Option.bind_eq_bind, Option.bind_some, List.getElem?_eq_getElem hle]
    exact hs'

/-- Where the whole line is written as it should be, each look back found well. -/
theorem findsWell_of_breaksWell {n : Nat} (h : scanTo line savecursor n = some s')
    (hwell : BreaksWell line s'.breaks) (hlt : q < n) (hs : scanTo line savecursor q = some s) :
    FindsWell line s q := by
  intro hlooks
  obtain ⟨s₂, hs₂, hsuffix⟩ := scanTo_le h hlt
  obtain ⟨s₁, c, hs₁, hc, hstep⟩ := scanTo_succ hs₂
  obtain rfl := Option.some.inj (hs.symm.trans hs₁)
  obtain ⟨r, hr, hfound⟩ := step_of_looksBack hc hlooks hstep
  refine ⟨r, hr, fun b hb => ?_⟩
  obtain ⟨hle, hbreaks⟩ := hfound b hb
  have hwell₂ := hwell.of_suffix hsuffix
  rw [hbreaks] at hwell₂
  exact ⟨hle, hwell₂.1.2.2.2.1⟩

end AutoLf

/-- A line is written well just if each look back finds well. -/
theorem reflows_iff (line : Bytes) (savecursor : Int) : Reflows line savecursor ↔
    ∀ q s, q < line.length → AutoLf.scanTo line savecursor q = some s →
      AutoLf.FindsWell line s q := by
  constructor
  · rintro ⟨out, s', hout, -, hwell⟩ q s hq hs
    obtain ⟨s₁, hs₁, h⟩ := Option.bind_eq_some_iff.mp hout
    obtain rfl := (Prod.mk.inj (Option.some.inj h)).2
    exact AutoLf.findsWell_of_breaksWell hs₁ hwell hq hs
  · intro hfinds
    obtain ⟨s, hs, I⟩ := AutoLf.inv_of_scanTo hfinds (Nat.le_refl _)
    refine ⟨s.out ++ line.drop s.p1 ++ [10], s, ?_, ?_, I.well⟩
    · rw [autolfline, hs]
      rfl
    · rw [I.out, I.start]

/-- A cursor moved to column 81 by a sequence: the five bytes in front of the letter are looked
through, and the one in front of the line. -/
theorem not_reflows : ¬ ∀ line savecursor, Reflows line savecursor := by
  intro h
  obtain ⟨out, s, hout, -⟩ := h [27, 91, 56, 48, 67, 97] (-1)
  exact absurd hout (by
    rw [show autolfline [27, 91, 56, 48, 67, 97] (-1) = none by decide]
    exact fun h => nomatch h)

end ArgoBbs

import ArgoBbs.Board.TitleSearch

/-! # A text in an article

`searchpattern` maps the file of an article (`read.c`), and `strstr2n` looks for a text in the
mapping (`string.c`). A first loop looks for the text byte by byte, in the same case; if it is
there, a second one goes by characters and compares up to case. Both count down from the same
number. A read behind the buffer fails. -/

namespace ArgoBbs

/-- `*p == *s2 && !memcmp(p, s2, len)` -/
def memcmpAt (s s2 : Bytes) (p : Nat) : Option Bool :=
  s[p]?.bind fun c =>
    if c = s2.headD 0 then
      if p + s2.length ≤ s.length then some ((s.drop p).take s2.length = s2) else none
    else some false

/-- `!strncasecmp(p, s2, len)`, which stops at the first difference. -/
def strncasecmpIn : Bytes → Bytes → Option Bool
  | _, [] => some true
  | [], _ :: _ => none
  | c :: p, d :: s2 => if tolower c = tolower d then strncasecmpIn p s2 else some false

def strncasecmpAt (s s2 : Bytes) (p : Nat) : Option Bool := strncasecmpIn (s.drop p) s2

/-- `(p[0] & 0x80) && (p[1] > 31)` -/
def signedWidth (s : Bytes) (p : Nat) : Option Nat :=
  s[p]?.bind fun c =>
    if 0x80 ≤ c then s[p + 1]?.map fun d => if signedDouble c d then 2 else 1 else some 1

/-- What a loop does at a place with the counter: it ends with 0, and must not go below the least
`int`. -/
def countedLook (r : Int) (test : Nat → Option Bool) (p : Nat) : Option (Option (Option Nat)) :=
  if r < p - 2 ^ 31 then none
  else if r = p then some (some none)
  else (test p).map fun hit => if hit then some (some p) else none

/-- `i = size = size - len + 1`, where `size` is not signed. -/
def rounds (s s2 : Bytes) : Int := toCInt (s.length - s2.length + 1)

/-- The two loops. -/
def memcmpLoop (s s2 : Bytes) : Option (Option Nat) :=
  walk (fun _ => some 1) (countedLook (rounds s s2) (memcmpAt s s2)) (s.length + 1) 0

def strncasecmpLoop (s s2 : Bytes) : Option (Option Nat) :=
  walk (signedWidth s) (countedLook (rounds s s2) (strncasecmpAt s s2)) (s.length + 1) 0

/-- `strstr2n(s, s2, size) - s` in a buffer of the size. -/
def strstr2n (s s2 : Bytes) : Option (Option Nat) :=
  if s = [] then some none
  else
    match memcmpLoop s s2 with
    | none => none
    | some none => some none
    | some (some _) => strncasecmpLoop s s2

/-- `searchpattern` on a file that it can open; an empty one is not mapped. -/
def searchpattern (query file : Bytes) : Option Bool :=
  if file = [] then some false else (strstr2n file query).map Option.isSome

/-- The text is in the buffer at the start of a character, up to case. -/
def OccursAligned (s s2 : Bytes) : Prop := ∃ q, Boundary (leadTrail (31 < ·)) s q ∧ CaseAt s2 s q

/-- The search stays in the buffer and finds the text just if it is there. -/
def FindsText (s s2 : Bytes) : Prop :=
  (∃ r, strstr2n s s2 = some r ∧ (r.isSome ↔ OccursAligned s s2)) ∧
    ∃ found, searchpattern s2 s = some found ∧ (found = true ↔ OccursAligned s s2)

/-- A place that a loop comes to before the counter is 0. -/
def Counted (width : Nat → Option Nat) (r : Int) (q : Nat) : Prop :=
  Passes width 0 q ∧ q ≤ r + 2 ^ 31 ∧ ∀ p ≤ q, Passes width 0 p → r ≠ p

/-- The text is at a place that the first loop comes to, in the same case. -/
def SameCase (s s2 : Bytes) : Prop :=
  ∃ q, Counted (fun _ => some 1) (rounds s s2) q ∧ memcmpAt s s2 q = some true

/-- A place that the second loop comes to has the text. -/
def AnyCase (s s2 : Bytes) : Prop :=
  ∃ q, Counted (signedWidth s) (rounds s s2) q ∧ CaseAt s2 s q

/-- The counter is used up where the text is not in the same case before. -/
def RunsOut (s s2 : Bytes) : Prop :=
  ∃ k : Nat, rounds s s2 = k ∧ ∀ p < k, memcmpAt s s2 p = some false

/-- The second loop comes to the place where the counter is 0, and does not pass over it. -/
def StopsAtEnd (s s2 : Bytes) : Prop :=
  ∃ k : Nat, rounds s s2 = k ∧ Passes (signedWidth s) 0 k ∧
    ∀ p < k, Passes (signedWidth s) 0 p → strncasecmpAt s s2 p = some false

section
variable {s s2 : Bytes} {p q t bound fuel : Nat} {r : Int} {width : Nat → Option Nat}
  {test : Nat → Option Bool}

theorem countedLook_eq_found : countedLook r test p = some (some (some t)) ↔
    p ≤ r + 2 ^ 31 ∧ r ≠ p ∧ test p = some true ∧ p = t := by
  rw [countedLook]
  split
  case isTrue hover =>
    refine iff_of_false nofun fun h => ?_
    omega
  case isFalse hover =>
    rw [and_iff_right (by omega)]
    split
    case isTrue hzero => exact iff_of_false nofun fun h => h.1 hzero
    case isFalse hzero =>
      rw [and_iff_right hzero]
      cases test p with
      | none => exact iff_of_false nofun nofun
      | some hit =>
        cases hit with
        | false => exact iff_of_false nofun nofun
        | true =>
          rw [and_iff_right rfl]
          exact (Option.some_inj.trans Option.some_inj).trans Option.some_inj

theorem countedLook_eq_end : countedLook r test p = some (some none) ↔ r = p := by
  rw [countedLook]
  split
  case isTrue hover =>
    refine iff_of_false nofun fun h => ?_
    omega
  case isFalse hover =>
    split
    case isTrue hzero => exact iff_of_true rfl hzero
    case isFalse hzero =>
      refine iff_of_false (fun h => ?_) hzero
      cases htest : test p with
      | none => rw [htest] at h; cases h
      | some hit => rw [htest] at h; cases hit <;> cases h

theorem countedLook_eq_next : countedLook r test p = some none ↔
    p ≤ r + 2 ^ 31 ∧ r ≠ p ∧ test p = some false := by
  rw [countedLook]
  split
  case isTrue hover =>
    refine iff_of_false nofun fun h => ?_
    omega
  case isFalse hover =>
    rw [and_iff_right (by omega)]
    split
    case isTrue hzero => exact iff_of_false nofun fun h => h.1 hzero
    case isFalse hzero =>
      rw [and_iff_right hzero]
      cases test p with
      | none => exact iff_of_false nofun nofun
      | some hit =>
        cases hit with
        | false => exact iff_of_true rfl rfl
        | true => exact iff_of_false nofun nofun

theorem counted_walk (hpos : ∀ q k, width q = some k → 0 < k)
    (hend : ∀ q, bound ≤ q → test q ≠ some false) (hbound : bound < fuel) (b : Option Nat) :
    walk width (countedLook r test) fuel 0 = some b ↔
      ∃ q, Passes width 0 q ∧ countedLook r test q = some (some b) ∧
        ∀ p, Passes width 0 p → p < q → countedLook r test p = some none := by
  have hlook (q : Nat) (hq : bound ≤ q) : countedLook r test q ≠ some none :=
    fun h => hend q hq (countedLook_eq_next.mp h).2.2
  exact walk_eq_some_iff hpos hlook (Nat.zero_lt_of_lt hbound) (by omega)

/-- A loop finds something just if it comes to a place that fits and nothing fails before. -/
theorem counted_found (hpos : ∀ q k, width q = some k → 0 < k)
    (hend : ∀ q, bound ≤ q → test q ≠ some false) (hbound : bound < fuel)
    (hbefore : ∀ p q, p < q → test q = some true → test p ≠ none) :
    (∃ t, walk width (countedLook r test) fuel 0 = some (some t)) ↔
      ∃ q, Counted width r q ∧ test q = some true := by
  simp only [counted_walk hpos hend hbound,
    countedLook_eq_found, countedLook_eq_next]
  constructor
  · rintro ⟨t, q, hq, ⟨hover, hzero, htest, -⟩, hall⟩
    refine ⟨q, ⟨hq, hover, fun p hle hp => ?_⟩, htest⟩
    rcases Nat.eq_or_lt_of_le hle with rfl | hlt
    · exact hzero
    · exact (hall p hp hlt).2.1
  · intro h
    classical
    -- the first place that fits is the one that is found
    obtain ⟨⟨hq, hover, hcount⟩, htest⟩ := Nat.find_spec h
    refine ⟨_, _, hq, ⟨hover, hcount _ (Nat.le_refl _) hq, htest, rfl⟩, fun p hp hlt => ?_⟩
    refine ⟨by omega, hcount p (Nat.le_of_lt hlt) hp, ?_⟩
    have hcounted : Counted width r p :=
      ⟨hp, by omega, fun p' hle => hcount p' (Nat.le_trans hle (Nat.le_of_lt hlt))⟩
    have hnot : test p ≠ some true := fun htrue => Nat.find_min h hlt ⟨hcounted, htrue⟩
    cases hcase : test p with
    | none => exact absurd hcase (hbefore p _ hlt htest)
    | some hit =>
      cases hit with
      | false => rfl
      | true => exact absurd hcase hnot

/-- A loop ends without a find just if it comes to the place where the counter is 0. -/
theorem counted_none (hpos : ∀ q k, width q = some k → 0 < k)
    (hend : ∀ q, bound ≤ q → test q ≠ some false) (hbound : bound < fuel) :
    walk width (countedLook r test) fuel 0 = some none ↔
      ∃ k : Nat, r = k ∧ Passes width 0 k ∧ ∀ p < k, Passes width 0 p → test p = some false := by
  simp only [counted_walk hpos hend hbound,
    countedLook_eq_end, countedLook_eq_next]
  constructor
  · rintro ⟨q, hq, hr, hall⟩
    exact ⟨q, hr, hq, fun p hlt hp => (hall p hp hlt).2.2⟩
  · rintro ⟨k, hr, hk, hall⟩
    exact ⟨k, hk, hr, fun p hp hlt => ⟨by omega, by omega, hall p hlt hp⟩⟩

theorem memcmpAt_end (hq : s.length ≤ q) : memcmpAt s s2 q ≠ some false := by
  rw [memcmpAt, List.getElem?_eq_none hq]
  nofun

/-- Before a place where the text is, all that is read is in the buffer. -/
theorem memcmpAt_before (hpq : p < q) (h : memcmpAt s s2 q = some true) : memcmpAt s s2 p ≠ none := by
  obtain ⟨c, hc, h⟩ := Option.bind_eq_some_iff.mp h
  have hq := (List.getElem?_eq_some_iff.mp hc).1
  rw [memcmpAt, List.getElem?_eq_getElem (Nat.lt_trans hpq hq), Option.bind_some]
  split at h
  · split at h
    · split
      · rw [if_pos (by omega)]
        nofun
      · nofun
    · cases h
  · cases h

theorem strncasecmpIn_eq_true_iff {p s2 : Bytes} :
    strncasecmpIn p s2 = some true ↔ s2.map tolower <+: p.map tolower := by
  induction s2 generalizing p with
  | nil => simp [strncasecmpIn]
  | cons d s2 ih =>
    cases p with
    | nil => simp [strncasecmpIn]
    | cons c p =>
      rw [strncasecmpIn, List.map_cons, List.map_cons, List.cons_prefix_cons, ← ih]
      split
      case isTrue h => simp [h]
      case isFalse h => simp [Ne.symm h]

theorem length_lt_of_strncasecmpIn {p s2 : Bytes} (h : strncasecmpIn p s2 = none) :
    p.length < s2.length := by
  induction s2 generalizing p with
  | nil => cases p <;> cases h
  | cons d s2 ih =>
    cases p with
    | nil => exact Nat.zero_lt_succ _
    | cons c p =>
      rw [strncasecmpIn] at h
      split at h
      · exact Nat.succ_lt_succ (ih h)
      · cases h

theorem strncasecmpAt_eq_true_iff : strncasecmpAt s s2 p = some true ↔ CaseAt s2 s p :=
  strncasecmpIn_eq_true_iff

theorem strncasecmpAt_end (hq : s.length ≤ q) : strncasecmpAt s s2 q ≠ some false := by
  rw [strncasecmpAt, List.drop_of_length_le hq]
  cases s2 <;> nofun

theorem strncasecmpAt_before (hpq : p < q) (h : strncasecmpAt s s2 q = some true) :
    strncasecmpAt s s2 p ≠ none := by
  intro hnone
  have hlen := length_lt_of_strncasecmpIn hnone
  have hle := (strncasecmpAt_eq_true_iff.mp h).length_le
  rw [List.length_map, List.length_map, List.length_drop] at hle
  rw [List.length_drop] at hlen
  omega

theorem signedWidth_pos {k : Nat} (h : signedWidth s p = some k) : 0 < k := by
  obtain ⟨c, -, h⟩ := Option.bind_eq_some_iff.mp h
  split at h
  · obtain ⟨d, -, rfl⟩ := Option.map_eq_some_iff.mp h
    split <;> decide
  · cases h
    decide

theorem unit_pos (q k : Nat) (h : (fun _ : Nat => some 1) q = some k) : 0 < k := by
  cases h
  exact Nat.one_pos

theorem passes_unit (q : Nat) : Passes (fun _ => some 1) 0 q := by
  induction q with
  | zero => exact .refl
  | succ q ih => exact ih.step rfl

theorem memcmpLoop_found : (∃ t, memcmpLoop s s2 = some (some t)) ↔ SameCase s s2 :=
  counted_found unit_pos (fun _ => memcmpAt_end) (Nat.lt_succ_self _) fun _ _ => memcmpAt_before

theorem memcmpLoop_none : memcmpLoop s s2 = some none ↔ RunsOut s s2 := by
  refine (counted_none unit_pos (fun _ => memcmpAt_end) (Nat.lt_succ_self _)).trans ?_
  simp only [passes_unit, true_and, true_implies, RunsOut]

theorem strncasecmpLoop_found : (∃ t, strncasecmpLoop s s2 = some (some t)) ↔ AnyCase s s2 := by
  refine (counted_found (fun _ _ => signedWidth_pos) (fun _ => strncasecmpAt_end)
    (Nat.lt_succ_self _) fun _ _ => strncasecmpAt_before).trans ?_
  simp only [strncasecmpAt_eq_true_iff, AnyCase]

theorem strncasecmpLoop_none : strncasecmpLoop s s2 = some none ↔ StopsAtEnd s s2 :=
  counted_none (fun _ _ => signedWidth_pos) (fun _ => strncasecmpAt_end) (Nat.lt_succ_self _)

theorem strstr2n_found (hs : s ≠ []) :
    (∃ t, strstr2n s s2 = some (some t)) ↔ SameCase s s2 ∧ AnyCase s s2 := by
  rw [strstr2n, if_neg hs, ← memcmpLoop_found, ← strncasecmpLoop_found]
  cases memcmpLoop s s2 with
  | none => simp
  | some found => cases found <;> simp

theorem strstr2n_none (hs : s ≠ []) :
    strstr2n s s2 = some none ↔ RunsOut s s2 ∨ SameCase s s2 ∧ StopsAtEnd s s2 := by
  rw [strstr2n, if_neg hs, ← memcmpLoop_none, ← memcmpLoop_found, ← strncasecmpLoop_none]
  cases memcmpLoop s s2 with
  | none => simp
  | some found => cases found <;> simp

/-- A text that is longer than the buffer by two bytes or more is looked for outside of it. -/
theorem strstr2n_longer (hs : s ≠ []) (hlonger : s.length + 1 < s2.length)
    (hint : s2.length < 2 ^ 31) : strstr2n s s2 = none := by
  have hneg : rounds s s2 < 0 := by
    rw [rounds, toCInt_eq ⟨by omega, by omega⟩]
    omega
  have hsame : ¬SameCase s s2 := by
    rintro ⟨q, -, hq⟩
    obtain ⟨c, -, hq⟩ := Option.bind_eq_some_iff.mp hq
    split at hq
    · split at hq
      · omega
      · cases hq
    · cases hq
  have hruns : ¬RunsOut s s2 := by
    rintro ⟨k, hk, -⟩
    omega
  cases hcall : strstr2n s s2 with
  | none => rfl
  | some found =>
    cases found with
    | none => exact ((strstr2n_none hs).mp hcall).elim (absurd · hruns) fun h => absurd h.1 hsame
    | some t => exact absurd ((strstr2n_found hs).mp ⟨t, hcall⟩).1 hsame

theorem not_occursAligned_nil (hs2 : s2 ≠ []) : ¬OccursAligned [] s2 := by
  rintro ⟨q, -, hq⟩
  rw [CaseAt, List.drop_nil, List.map_nil, List.prefix_nil, List.map_eq_nil_iff] at hq
  exact hs2 hq

theorem findsText_iff (hs : s ≠ []) :
    FindsText s s2 ↔ ∃ r, strstr2n s s2 = some r ∧ (r.isSome ↔ OccursAligned s s2) := by
  rw [FindsText, searchpattern, if_neg hs, and_iff_left_iff_imp]
  rintro ⟨r, hr, hiff⟩
  exact ⟨r.isSome, by rw [hr]; rfl, hiff⟩

end

end ArgoBbs

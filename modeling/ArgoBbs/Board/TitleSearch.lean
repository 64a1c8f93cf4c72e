import ArgoBbs.Board.Locate
import ArgoBbs.Lib.Walk

/-! # A text in a title

`strstr2` looks for a text in a title, up to case (`string.c`). It begins at the first place that
`strcasestr` finds byte by byte, and goes on by characters from there. -/

namespace ArgoBbs

/-- The loop of `strstr2` passes over two bytes at once: `(p[0] & 0x80) && (p[1] > 31)`. A `char`
above 127 is negative. -/
def signedDouble (c d : UInt8) : Bool := 0x80 ≤ c && 31 < d && d < 0x80

/-- What the loop sees at a place. -/
def strstr2Look (s s2 : Bytes) (p : Nat) : Option (Option (Option Nat)) :=
  if s.length ≤ p then some (some none)
  else if strncasecmpEq (s.drop p) s2 s2.length then some (some (some p))
  else some none

/-- `strstr2(s, s2) - s`; it fails if the loop does not end. -/
def strstr2At (s s2 : Bytes) : Option (Option Nat) :=
  match strcasestrAt s s2 with
  | none => some none
  | some p => walk (charWidth signedDouble s) (strstr2Look s s2) (s.length + 1) p

/-- The first place where the text is and a character starts, if there is one. -/
def FirstAligned (double : UInt8 → UInt8 → Bool) (s s2 : Bytes) : Option Nat → Prop
  | some q => Boundary double s q ∧ CaseAt s2 s q ∧ ∀ p < q, Boundary double s p → ¬CaseAt s2 s p
  | none => ∀ q, Boundary double s q → ¬CaseAt s2 s q

/-- A byte with the high bit and the next one are a character if `trail` says so. -/
def leadTrail (trail : UInt8 → Bool) (c d : UInt8) : Bool := 0x80 ≤ c && trail d

section
variable {s s2 : Bytes} {p q : Nat} {double : UInt8 → UInt8 → Bool}

theorem strncasecmpEq_iff : strncasecmpEq (s.drop p) s2 s2.length = true ↔ CaseAt s2 s p := by
  rw [strncasecmpEq, strcasecmpEq_iff, List.take_length, CaseAt, List.prefix_iff_eq_take,
    List.length_map, ← List.map_take, eq_comm]

theorem strcasestrAt_le (h : strcasestrAt s s2 = some p) : p ≤ s.length := by
  obtain ⟨hlt, -⟩ := List.findIdx?_eq_some_iff_getElem.mp h
  rw [List.length_tails] at hlt
  exact Nat.le_of_lt_succ hlt

/-- Only an empty text is found at the end, and only in an empty title. -/
theorem strcasestrAt_end (h : strcasestrAt s s2 = some p) (hp : s.length ≤ p) : s = [] ∧ s2 = [] := by
  obtain ⟨hcase, hfirst⟩ := strcasestrAt_some h
  have hs2 : s2 = [] := by
    rwa [CaseAt, List.drop_of_length_le hp, List.map_nil, List.prefix_nil, List.map_eq_nil_iff]
      at hcase
  subst hs2
  have hzero : p = 0 := Nat.eq_zero_of_not_pos fun hpos => hfirst 0 hpos (List.nil_prefix)
  exact ⟨List.eq_nil_of_length_eq_zero (by omega), rfl⟩

/-- The loop stops where it starts. -/
theorem strstr2At_eq : strstr2At s s2 = some ((strcasestrAt s s2).filter (· < s.length)) := by
  rw [strstr2At]
  cases hfind : strcasestrAt s s2 with
  | none => rfl
  | some p =>
    obtain ⟨hp, -⟩ := strcasestrAt_some hfind
    dsimp only
    rw [walk, strstr2Look]
    by_cases hlen : s.length ≤ p
    · simp [hlen, Option.filter]
    · simp [hlen, strncasecmpEq_iff.mpr hp, Option.filter]

/-- What the search for an article gets to know. -/
theorem strstr2_eq : (strstr2At s s2).map Option.isSome = some (strstr2 s s2) := by
  have hmem (u : Bytes) (hu : u ∈ s.tails) : u = s.drop (s.length - u.length) := by
    rw [List.mem_tails] at hu
    exact List.suffix_iff_eq_drop.mp hu
  rw [strstr2At_eq, Option.map_some, strstr2]
  cases hfind : strcasestrAt s s2 with
  | none =>
    have hnone : s.tails.find? (strncasecmpEq · s2 s2.length) = none := by
      refine List.find?_eq_none.mpr fun u hu => ?_
      rw [hmem u hu, strncasecmpEq_iff]
      exact strcasestrAt_eq_none_iff.mp hfind _
    rw [hnone]
    rfl
  | some p =>
    obtain ⟨hp, hfirst⟩ := strcasestrAt_some hfind
    have hsome : s.tails.find? (strncasecmpEq · s2 s2.length) = some (s.drop p) := by
      have hlt : p < s.tails.length := by
        rw [List.length_tails]
        exact Nat.lt_succ_of_le (strcasestrAt_le hfind)
      refine List.find?_eq_some_iff_getElem.mpr
        ⟨strncasecmpEq_iff.mpr hp, p, hlt, List.getElem_tails .., fun q hq => ?_⟩
      rw [List.getElem_tails, Bool.not_eq_true', Bool.eq_false_iff, Ne, strncasecmpEq_iff]
      exact hfirst q hq
    rw [hsome, Option.filter_some]
    dsimp only
    have hequal := strncasecmpEq_iff.mpr hp
    have hlen : (s.drop p).length = s.length - p := List.length_drop
    split
    case isTrue hlt =>
      have hlt := of_decide_eq_true hlt
      cases hdrop : s.drop p with
      | nil =>
        rw [hdrop, List.length_nil] at hlen
        omega
      | cons c u =>
        rw [hdrop] at hequal
        cases u <;> simp [strstr2Loop, hequal]
    case isFalse hge =>
      rw [decide_eq_true_eq, Nat.not_lt] at hge
      rw [List.drop_of_length_le hge]
      rfl

/-- The place found is right just if the first place where the text is, byte by byte, is one where a
character starts. -/
theorem strstr2_first_iff (trail : UInt8 → Bool) (s s2 : Bytes) :
    (∃ r, strstr2At s s2 = some r ∧ FirstAligned (leadTrail trail) s s2 r) ↔
      (s ≠ [] ∨ s2 ≠ []) ∧ ∀ q, CaseAt s2 s q → (∀ p < q, ¬CaseAt s2 s p) →
        Boundary (leadTrail trail) s q := by
  simp only [strstr2At_eq, Option.some.injEq, exists_eq_left']
  cases hfind : strcasestrAt s s2 with
  | none =>
    rw [strcasestrAt_eq_none_iff] at hfind
    refine iff_of_true (fun q _ => hfind q) ⟨?_, fun q hq => absurd hq (hfind q)⟩
    refine .inr fun hs2 => hfind 0 ?_
    subst hs2
    exact List.nil_prefix
  | some p =>
    obtain ⟨hp, hfirst⟩ := strcasestrAt_some hfind
    rw [Option.filter_some]
    by_cases hlen : p < s.length
    · rw [decide_eq_true hlen, if_pos rfl]
      constructor
      · rintro ⟨hboundary, -, -⟩
        refine ⟨.inl (List.ne_nil_of_length_pos (by omega)), fun q hq hbefore => ?_⟩
        rcases Nat.lt_trichotomy p q with hlt | rfl | hgt
        · exact absurd hp (hbefore p hlt)
        · exact hboundary
        · exact absurd hq (hfirst q hgt)
      · rintro ⟨-, h⟩
        exact ⟨h p hp hfirst, hp, fun q hq _ => hfirst q hq⟩
    · obtain ⟨rfl, rfl⟩ := strcasestrAt_end hfind (Nat.not_lt.mp hlen)
      rw [decide_eq_false hlen]
      exact iff_of_false (fun h => h 0 .refl List.nil_prefix) fun h => h.1.elim (· rfl) (· rfl)

/-- The text is found across two characters, though it is also one of its own further on. -/
theorem strstr2_misaligned : ¬∀ s s2 : Bytes, 0 ∉ s → 0 ∉ s2 →
    ∃ r, strstr2At s s2 = some r ∧ FirstAligned (leadTrail (31 < ·)) s s2 r := by
  intro h
  obtain ⟨r, hr, hfirst⟩ :=
    h [0xb0, 0xa1, 0xb2, 0xc0, 0xa1, 0xb2] [0xa1, 0xb2] (by decide) (by decide)
  have hat : strstr2At [0xb0, 0xa1, 0xb2, 0xc0, 0xa1, 0xb2] [0xa1, 0xb2] = some (some 1) := by decide
  rw [hat] at hr
  cases hr
  rcases hfirst.1.cases_head with hone | ⟨k, hk, hpass⟩
  · cases hone
  · have htwo : k = 2 := (Option.some.inj hk).symm
    exact absurd (htwo ▸ hpass.le) (by decide)

end

end ArgoBbs

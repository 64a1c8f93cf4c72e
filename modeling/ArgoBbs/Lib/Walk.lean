import Mathlib.Data.List.Basic

/-! # Walks over a text

A walk looks at one place after the other; what it sees there stops it, lets it go on, or makes it
fail. How far the next place is depends on the place, as in a text with characters of one and of two
bytes. -/

namespace ArgoBbs

def walk {β : Type} (width : Nat → Option Nat) (look : Nat → Option (Option β)) : Nat → Nat → Option β
  | 0, _ => none
  | fuel + 1, p =>
    match look p with
    | none => none
    | some (some b) => some b
    | some none =>
      match width p with
      | none => none
      | some k => walk width look fuel (p + k)

/-- The places that a walk comes to that nothing stops. -/
inductive Passes (width : Nat → Option Nat) (p : Nat) : Nat → Prop
  | refl : Passes width p p
  | step {q k : Nat} : Passes width p q → width q = some k → Passes width p (q + k)

variable {β : Type} {width : Nat → Option Nat} {look : Nat → Option (Option β)}
  {p q r k bound fuel : Nat} {b : β}

namespace Passes

theorem le (h : Passes width p q) : p ≤ q := by
  induction h with
  | refl => exact Nat.le_refl _
  | step _ _ ih => exact Nat.le_trans ih (Nat.le_add_right ..)

theorem trans (h : Passes width p q) (h' : Passes width q r) : Passes width p r := by
  induction h' with
  | refl => exact h
  | step _ hk ih => exact ih.step hk

theorem head (hk : width p = some k) (h : Passes width (p + k) q) : Passes width p q :=
  (Passes.refl.step hk).trans h

theorem cases_head (h : Passes width p q) :
    q = p ∨ ∃ k, width p = some k ∧ Passes width (p + k) q := by
  induction h with
  | refl => exact .inl rfl
  | step _ hk ih =>
    rcases ih with rfl | ⟨j, hj, h⟩
    · exact .inr ⟨_, hk, .refl⟩
    · exact .inr ⟨j, hj, h.step hk⟩

/-- Of two places that walks from the same place come to, the walks from one come to the other. -/
theorem linear (hpos : ∀ q k, width q = some k → 0 < k) (h : Passes width p q)
    (h' : Passes width p r) (hle : q ≤ r) : Passes width q r := by
  induction h with
  | refl => exact h'
  | step _ hk ih =>
    have hlt := hpos _ _ hk
    rcases (ih (by omega)).cases_head with rfl | ⟨j, hj, h⟩
    · omega
    · rw [hk] at hj
      rwa [Option.some.inj hj]

end Passes

/-- A walk ends with what it sees at the first place that stops it, if nothing fails before. -/
theorem walk_eq_some_iff (hpos : ∀ q k, width q = some k → 0 < k)
    (hend : ∀ q, bound ≤ q → look q ≠ some none) (hfuel : 0 < fuel) (hbound : bound < p + fuel) :
    walk width look fuel p = some b ↔
      ∃ q, Passes width p q ∧ look q = some (some b) ∧
        ∀ r, Passes width p r → r < q → look r = some none := by
  induction fuel generalizing p with
  | zero => omega
  | succ fuel ih =>
    have hfirst {q : Nat} (hq : Passes width p q) (hlook : look q = some (some b))
        (hbefore : ∀ r, Passes width p r → r < q → look r = some none)
        (hp : look p ≠ some none) : look p = some (some b) := by
      rcases Nat.eq_or_lt_of_le hq.le with rfl | hlt
      · exact hlook
      · exact absurd (hbefore p .refl hlt) hp
    rw [walk]
    cases hp : look p with
    | none =>
      refine iff_of_false nofun fun ⟨q, hq, hlook, hbefore⟩ => ?_
      have := hfirst hq hlook hbefore (by rw [hp]; nofun)
      rw [hp] at this
      cases this
    | some stop =>
      cases stop with
      | some c =>
        constructor
        · intro h
          cases h
          exact ⟨p, .refl, hp, fun r hr hlt => absurd hr.le (Nat.not_le.mpr hlt)⟩
        · rintro ⟨q, hq, hlook, hbefore⟩
          have := hfirst hq hlook hbefore (by rw [hp]; nofun)
          rw [hp] at this
          exact Option.some.inj this
      | none =>
        have hlt : p < bound := Nat.lt_of_not_le fun hle => hend p hle hp
        cases hk : width p with
        | none =>
          refine iff_of_false nofun fun ⟨q, hq, hlook, _⟩ => ?_
          rcases hq.cases_head with rfl | ⟨k, hk', -⟩
          · rw [hp] at hlook
            cases hlook
          · rw [hk] at hk'
            cases hk'
        | some k =>
          have hkpos := hpos p k hk
          refine (ih (by omega) (by omega)).trans (exists_congr fun q => ?_)
          constructor
          · rintro ⟨hq, hlook, hbefore⟩
            refine ⟨hq.head hk, hlook, fun r hr hrq => ?_⟩
            rcases hr.cases_head with rfl | ⟨j, hj, hr⟩
            · exact hp
            · rw [hk] at hj
              exact hbefore r (Option.some.inj hj ▸ hr) hrq
          · rintro ⟨hq, hlook, hbefore⟩
            refine ⟨?_, hlook, fun r hr => hbefore r (hr.head hk)⟩
            rcases hq.cases_head with rfl | ⟨j, hj, hq⟩
            · rw [hp] at hlook
              cases hlook
            · rw [hk] at hj
              exact Option.some.inj hj ▸ hq

/-! ## Characters of one or two elements -/

section
variable {α : Type} (double : α → α → Bool) (s : List α)

/-- The size of the character at a place: two elements that belong together are one. -/
def charWidth (q : Nat) : Option Nat :=
  s[q]?.map fun c => if (s[q + 1]?).any (double c) then 2 else 1

/-- A character of the text starts at the place, or the text ends there. -/
def Boundary (q : Nat) : Prop := Passes (charWidth double s) 0 q

variable {double s} {q k : Nat}

theorem charWidth_pos (h : charWidth double s q = some k) : 0 < k := by
  obtain ⟨c, -, rfl⟩ := Option.map_eq_some_iff.mp h
  split <;> decide

end

section
variable {α : Type} (lead trail : α → Bool)

/-- The last element is the first one of a character of two, if what follows fits. `open` says so of
the element before. -/
def openLead (isOpen : Bool) (s : List α) : Bool :=
  s.foldl (fun isOpen c => lead c && !(isOpen && trail c)) isOpen

variable {lead trail} {s : List α} {q k : Nat}

theorem openLead_take_succ {c : α} (hc : s[q]? = some c) :
    openLead lead trail false (s.take (q + 1)) =
      (lead c && !(openLead lead trail false (s.take q) && trail c)) := by
  rw [List.take_add_one, hc, openLead, List.foldl_append]
  rfl

/-- A place is within a character just if an open element is before it and one that fits behind. -/
theorem boundary_iff (hq : q ≤ s.length) :
    Boundary (fun c d => lead c && trail d) s q ↔
      ¬(openLead lead trail false (s.take q) = true ∧ (s[q]?).any trail = true) := by
  -- a place within a character is behind the first element of it
  have hboth : (Boundary (fun c d => lead c && trail d) s q ↔
      ¬(openLead lead trail false (s.take q) = true ∧ (s[q]?).any trail = true)) ∧
      (¬Boundary (fun c d => lead c && trail d) s q → ∃ p, q = p + 1 ∧
        Boundary (fun c d => lead c && trail d) s p ∧
        charWidth (fun c d => lead c && trail d) s p = some 2) := by
    induction q with
    | zero => exact ⟨iff_of_true .refl (by simp [openLead]), fun h => absurd .refl h⟩
    | succ q ih =>
      obtain ⟨hiff, hinside⟩ := ih (Nat.le_of_succ_le hq)
      have hc : s[q]? = some s[q] := List.getElem?_eq_getElem hq
      rw [openLead_take_succ hc]
      rw [hc] at hiff
      by_cases hb : Boundary (fun c d => lead c && trail d) s q
      · have hfalse : (openLead lead trail false (s.take q) && trail s[q]) = false := by
          rw [Bool.eq_false_iff, Ne, Bool.and_eq_true]
          exact hiff.mp hb
        rw [hfalse, Bool.not_false, Bool.and_true]
        by_cases htwo : lead s[q] = true ∧ (s[q + 1]?).any trail = true
        · have hwidth : charWidth (fun c d => lead c && trail d) s q = some 2 := by
            rw [charWidth, hc, Option.map_some, if_pos]
            cases hd : s[q + 1]? with
            | none => simp [hd] at htwo
            | some d =>
              rw [hd] at htwo
              simpa using htwo
          have hnot : ¬Boundary (fun c d => lead c && trail d) s (q + 1) := by
            intro h
            rcases (hb.linear (fun _ _ => charWidth_pos) h (Nat.le_succ q)).cases_head with
              heq | ⟨k, hk, hpass⟩
            · omega
            · rw [hwidth] at hk
              cases hk
              have := hpass.le
              omega
          exact ⟨iff_of_false hnot (not_not_intro htwo), fun _ => ⟨q, rfl, hb, hwidth⟩⟩
        · have hwidth : charWidth (fun c d => lead c && trail d) s q = some 1 := by
            rw [charWidth, hc, Option.map_some, if_neg]
            cases hd : s[q + 1]? with
            | none => simp
            | some d =>
              rw [hd] at htwo
              simpa using htwo
          have hnext : Boundary (fun c d => lead c && trail d) s (q + 1) := hb.step hwidth
          exact ⟨iff_of_true hnext htwo, fun h => absurd hnext h⟩
      · obtain ⟨p, rfl, hp, hwidth⟩ := hinside hb
        have hnext : Boundary (fun c d => lead c && trail d) s (p + 1 + 1) := hp.step hwidth
        have htrue : (openLead lead trail false (s.take (p + 1)) && trail s[p + 1]) = true := by
          rw [Bool.and_eq_true]
          exact not_not.mp fun h => hb (hiff.mpr h)
        refine ⟨iff_of_true hnext fun h => ?_, fun h => absurd hnext h⟩
        rw [htrue, Bool.not_true, Bool.and_false] at h
        exact Bool.false_ne_true h.1
  exact hboth.1

/-- From the start of a character on, what is open depends on what follows only. -/
theorem openLead_take_add (h : Boundary (fun c d => lead c && trail d) s q) (hq : q < s.length)
    (hk : 0 < k) : openLead lead trail false (s.take (q + k)) =
      openLead lead trail false ((s.drop q).take k) := by
  obtain ⟨k, rfl⟩ := Nat.exists_eq_add_one_of_ne_zero (Nat.ne_of_gt hk)
  have hclosed := (boundary_iff (Nat.le_of_lt hq)).mp h
  rw [List.getElem?_eq_getElem hq, Option.any_some, ← Bool.and_eq_true, Bool.not_eq_true] at hclosed
  rw [List.take_add, openLead, List.foldl_append, List.drop_eq_getElem_cons hq, List.take_succ_cons,
    List.foldl_cons]
  change openLead lead trail (lead s[q] && !(openLead lead trail false (s.take q) && trail s[q])) _ =
    openLead lead trail (lead s[q] && !(false && trail s[q])) _
  rw [hclosed, Bool.false_and]

end

end ArgoBbs

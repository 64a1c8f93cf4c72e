import Mathlib.Logic.Basic

/-! # Scanning a memory of cells

`scan` looks at one cell after the other until one stops it, and fails when it comes to a place that
is not in the memory. -/

namespace ArgoBbs

variable {α : Type} {mem : Nat → Option α} {stop : α → Bool}

def scan (mem : Nat → Option α) (stop : α → Bool) : Nat → Nat → Option Nat
  | 0, _ => none
  | fuel + 1, p => do
    let c ← mem p
    if stop c then some p else scan mem stop fuel (p + 1)

/-- The cells of the memory are those before a size. -/
def Sized (mem : Nat → Option α) (size : Nat) : Prop := ∀ p, mem p = none ↔ size ≤ p

theorem Sized.exists_of_lt {size p : Nat} (h : Sized mem size) (hp : p < size) :
    ∃ c, mem p = some c :=
  Option.ne_none_iff_exists'.mp fun hnone => Nat.not_le.mpr hp ((h p).mp hnone)

theorem Sized.lt_of_some {size p : Nat} {c : α} (h : Sized mem size) (hp : mem p = some c) :
    p < size :=
  Nat.lt_of_not_le fun hle => by rw [(h p).mpr hle] at hp; cases hp

/-- What a scan finds is the first cell that stops it. -/
theorem scan_spec {fuel p q : Nat} (h : scan mem stop fuel p = some q) :
    p ≤ q ∧ (∃ c, mem q = some c ∧ stop c = true) ∧
      ∀ r, p ≤ r → r < q → ∃ c, mem r = some c ∧ stop c = false := by
  induction fuel generalizing p with
  | zero => cases h
  | succ fuel ih =>
    rw [scan, Option.bind_eq_bind, Option.bind_eq_some_iff] at h
    obtain ⟨c, hc, h⟩ := h
    split at h
    case isTrue hstop =>
      obtain rfl := Option.some.inj h
      exact ⟨Nat.le_refl _, ⟨c, hc, hstop⟩, fun r hpr hrp => absurd hpr (Nat.not_le.mpr hrp)⟩
    case isFalse hstop =>
      obtain ⟨hle, hfound, hbefore⟩ := ih h
      refine ⟨Nat.le_of_succ_le hle, hfound, fun r hpr hrq => ?_⟩
      rcases Nat.eq_or_lt_of_le hpr with rfl | hpr
      · exact ⟨c, hc, Bool.eq_false_iff.mpr hstop⟩
      · exact hbefore r hpr hrq

/-- A scan with enough fuel finds a cell if there is one. -/
theorem scan_isSome {size fuel p q : Nat} {c : α} (hmem : Sized mem size) (hfuel : size ≤ p + fuel)
    (hpq : p ≤ q) (hq : mem q = some c) (hstop : stop c = true) :
    ∃ r, scan mem stop fuel p = some r ∧ r ≤ q := by
  have hlt := hmem.lt_of_some hq
  induction fuel generalizing p with
  | zero => omega
  | succ fuel ih =>
    obtain ⟨c', hc'⟩ := hmem.exists_of_lt (Nat.lt_of_le_of_lt hpq hlt)
    rw [scan, hc']
    by_cases hs : stop c' = true
    · exact ⟨p, if_pos hs, hpq⟩
    · have hne : p ≠ q := by
        rintro rfl
        rw [hq] at hc'
        exact hs (Option.some.inj hc' ▸ hstop)
      obtain ⟨r, hr, hle⟩ := ih (p := p + 1) (by omega) (by omega)
      exact ⟨r, (if_neg hs).trans hr, hle⟩

end ArgoBbs

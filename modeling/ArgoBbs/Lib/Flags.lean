import Mathlib.Tactic.Common

/-! # Flags

Words of flags: setting, clearing and toggling some of them leaves the others alone. -/

namespace ArgoBbs

section
variable {w : Nat} {f p q : BitVec w}

theorem and_not_and (h : p &&& q = 0) : f &&& ~~~p &&& q = f &&& q := by
  ext i hi
  have hbit := congrArg (·[i]) h
  simp only [BitVec.getElem_and, BitVec.getElem_not, BitVec.getElem_zero, BitVec.ofNat_eq_ofNat]
    at hbit ⊢
  cases hp : p[i] <;> simp_all

theorem or_and (h : p &&& q = 0) : (f ||| p) &&& q = f &&& q := by
  ext i hi
  have hbit := congrArg (·[i]) h
  simp only [BitVec.getElem_and, BitVec.getElem_or, BitVec.getElem_zero, BitVec.ofNat_eq_ofNat]
    at hbit ⊢
  cases hp : p[i] <;> simp_all

theorem xor_and (h : p &&& q = 0) : (f ^^^ p) &&& q = f &&& q := by
  ext i hi
  have hbit := congrArg (·[i]) h
  simp only [BitVec.getElem_and, BitVec.getElem_xor, BitVec.getElem_zero, BitVec.ofNat_eq_ofNat]
    at hbit ⊢
  cases hp : p[i] <;> simp_all

theorem or_and_self : (f ||| p) &&& p = p := by
  ext i hi
  cases hp : p[i] <;> simp [hp]

theorem and_not_self : f &&& ~~~p &&& p = 0 := by
  ext i hi
  cases hp : p[i] <;> simp [hp]

/-- A word meets a union of flags if it meets one of them. -/
theorem and_or_eq_zero : f &&& (p ||| q) = 0 ↔ f &&& p = 0 ∧ f &&& q = 0 := by
  constructor
  · intro h
    constructor
    · ext i hi
      have hbit := congrArg (·[i]) h
      simp only [BitVec.getElem_and, BitVec.getElem_or, BitVec.getElem_zero, BitVec.ofNat_eq_ofNat]
        at hbit ⊢
      cases hp : p[i] <;> simp_all
    · ext i hi
      have hbit := congrArg (·[i]) h
      simp only [BitVec.getElem_and, BitVec.getElem_or, BitVec.getElem_zero, BitVec.ofNat_eq_ofNat]
        at hbit ⊢
      cases hq : q[i] <;> simp_all
  · rintro ⟨hp, hq⟩
    rw [BitVec.and_or_distrib_left, hp, hq]
    exact BitVec.or_zero

end

end ArgoBbs

import Mathlib.Logic.Basic

/-! # Loops

A loop runs a body that goes on with a state or stops with a result; a body that fails makes the
loop fail. It has fuel, and a measure that the body makes smaller says that the fuel is enough. -/

namespace ArgoBbs

variable {σ τ : Type} {body : σ → Option (σ ⊕ τ)} {C : σ → Bool}

def loop (body : σ → Option (σ ⊕ τ)) : Nat → σ → Option τ
  | 0, _ => none
  | fuel + 1, s =>
    match body s with
    | none => none
    | some (.inl s') => loop body fuel s'
    | some (.inr t) => some t

/-- A condition holds in every state that the body is run in. -/
def loopAlong (C : σ → Bool) (body : σ → Option (σ ⊕ τ)) : Nat → σ → Bool
  | 0, _ => true
  | fuel + 1, s => C s &&
    match body s with
    | some (.inl s') => loopAlong C body fuel s'
    | _ => true

/-- A body that keeps an invariant and makes a measure smaller under the condition. -/
theorem loop_total (I : σ → Prop) (Q : τ → Prop) (μ : σ → Nat)
    (hstep : ∀ s, I s → C s = true →
      ∃ r, body s = some r ∧ r.elim (fun s' => I s' ∧ μ s' < μ s) Q)
    {fuel : Nat} {s : σ} (hs : I s) (hC : loopAlong C body fuel s = true) (hfuel : μ s < fuel) :
    ∃ t, loop body fuel s = some t ∧ Q t := by
  induction fuel generalizing s with
  | zero => exact absurd hfuel (Nat.not_lt_zero _)
  | succ fuel ih =>
    rw [loopAlong, Bool.and_eq_true] at hC
    obtain ⟨hCs, hrest⟩ := hC
    obtain ⟨r, hr, h⟩ := hstep s hs hCs
    rw [hr] at hrest
    rw [loop, hr]
    cases r with
    | inl s' => exact ih h.1 hrest (Nat.lt_of_lt_of_le h.2 (Nat.le_of_lt_succ hfuel))
    | inr t => exact ⟨t, rfl, h⟩

theorem loopAlong_true (fuel : Nat) (s : σ) : loopAlong (fun _ => true) body fuel s = true := by
  induction fuel generalizing s with
  | zero => rfl
  | succ fuel ih =>
    rw [loopAlong, Bool.true_and]
    split
    · exact ih _
    · rfl

end ArgoBbs

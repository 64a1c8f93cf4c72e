import Mathlib.Logic.Basic

/-! # States reached by runs

A system is a partial step function on states and events; an event that is not possible in a state
has no successor there. `Reach step C s₀` are the states that runs from `s₀` reach all of whose
steps satisfy the condition `C` in the state they are taken in. -/

namespace ArgoBbs

variable {σ ε : Type}

inductive Reach (step : σ → ε → Option σ) (C : σ → ε → Prop) (s₀ : σ) : σ → Prop
  | refl : Reach step C s₀ s₀
  | step : Reach step C s₀ s → (e : ε) → C s e → step s e = some s' → Reach step C s₀ s'

namespace Reach
variable {step : σ → ε → Option σ} {C : σ → ε → Prop} {s₀ s s' : σ}

/-- What holds at the start and is kept by every step that satisfies the condition holds in every
state reached. -/
theorem invariant (h : Reach step C s₀ s) (P : σ → Prop) (h₀ : P s₀)
    (hstep : ∀ s e s', P s → C s e → step s e = some s' → P s') : P s := by
  induction h with
  | refl => exact h₀
  | step _ e hC he ih => exact hstep _ _ _ ih hC he

/-- All events of the list are possible one after the other and satisfy the condition. -/
def Meets (step : σ → ε → Option σ) (C : σ → ε → Prop) (s : σ) : List ε → Prop
  | [] => True
  | e :: es => C s e ∧
    match step s e with
    | some s' => Meets step C s' es
    | none => False

instance decidableMeets [∀ s e, Decidable (C s e)] :
    (s : σ) → (es : List ε) → Decidable (Meets step C s es)
  | _, [] => isTrue trivial
  | s, e :: es =>
    have : Decidable (match step s e with | some s' => Meets step C s' es | none => False) :=
      match step s e with
      | some s' => decidableMeets s' es
      | none => isFalse id
    inferInstanceAs (Decidable (_ ∧ _))

/-- The events of the list satisfy the condition, as far as they are possible one after the other.
-/
def Along (step : σ → ε → Option σ) (C : σ → ε → Prop) (s : σ) : List ε → Prop
  | [] => True
  | e :: es => C s e ∧
    match step s e with
    | some s' => Along step C s' es
    | none => True

instance decidableAlong [∀ s e, Decidable (C s e)] :
    (s : σ) → (es : List ε) → Decidable (Along step C s es)
  | _, [] => isTrue trivial
  | s, e :: es =>
    have : Decidable (match step s e with | some s' => Along step C s' es | none => True) :=
      match step s e with
      | some s' => decidableAlong s' es
      | none => isTrue trivial
    inferInstanceAs (Decidable (_ ∧ _))

theorem along_mono {C' : σ → ε → Prop} (hC : ∀ s e, C s e → C' s e) (es : List ε)
    (h : Along step C s es) : Along step C' s es := by
  induction es generalizing s with
  | nil => trivial
  | cons e es ih =>
    obtain ⟨he, hrest⟩ := h
    refine ⟨hC s e he, ?_⟩
    split at hrest
    · exact ih hrest
    · trivial

/-- The events behind a part of the list satisfy the condition from the state that the part leads
to. -/
theorem along_append (es es' : List ε) (h : Along step C s (es ++ es')) :
    Along step C s es ∧ ∀ s', es.foldlM step s = some s' → Along step C s' es' := by
  induction es generalizing s with
  | nil =>
    refine ⟨trivial, fun s' hs => ?_⟩
    rwa [← Option.some.inj hs]
  | cons e es ih =>
    obtain ⟨hC, hrest⟩ := h
    rw [Along, List.foldlM_cons]
    cases hs : step s e with
    | none => exact ⟨⟨hC, trivial⟩, fun s' h => by cases h⟩
    | some s₁ =>
      rw [hs] at hrest
      exact ⟨⟨hC, (ih hrest).1⟩, (ih hrest).2⟩

theorem along_true (es : List ε) : Along step (fun _ _ => True) s es := by
  induction es generalizing s with
  | nil => trivial
  | cons e es ih =>
    refine ⟨trivial, ?_⟩
    split
    · exact ih
    · trivial

/-- If every step that satisfies the condition is possible and does what a function does to an
abstract state, then so is and does a run of such steps. -/
theorem exists_run {τ : Type} (R : σ → τ → Prop) (apply : τ → ε → τ)
    (hstep : ∀ s a e, R s a → C s e → ∃ s', step s e = some s' ∧ R s' (apply a e)) (a : τ)
    (es : List ε) (hs : R s a) (hC : Along step C s es) :
    ∃ s', es.foldlM step s = some s' ∧ R s' (es.foldl apply a) := by
  induction es generalizing s a with
  | nil => exact ⟨s, rfl, hs⟩
  | cons e es ih =>
    obtain ⟨he, hrest⟩ := hC
    obtain ⟨s₁, hs₁, hR⟩ := hstep s a e hs he
    rw [hs₁] at hrest
    obtain ⟨s', hrun, hR'⟩ := ih _ hR hrest
    refine ⟨s', ?_, hR'⟩
    rw [List.foldlM_cons, hs₁]
    exact hrun

/-- The state at the end of a run of steps that satisfy the condition. -/
theorem of_run (es : List ε) (hC : Meets step C s es) (h : es.foldlM step s = some s')
    (hs : Reach step C s₀ s) : Reach step C s₀ s' := by
  induction es generalizing s with
  | nil => exact Option.some.inj h ▸ hs
  | cons e es ih =>
    obtain ⟨hC₁, hrest⟩ := hC
    cases hs₁ : step s e with
    | none => simp [hs₁] at hrest
    | some s₁ =>
      rw [List.foldlM_cons, hs₁] at h
      rw [hs₁] at hrest
      exact ih hrest h (hs.step e hC₁ hs₁)

/-- A run of steps that satisfy the condition reaches a state. -/
theorem of_meets (es : List ε) (hC : Meets step C s₀ es) :
    ∃ s, es.foldlM step s₀ = some s ∧ Reach step C s₀ s := by
  have hrun : ∀ (es : List ε) (s : σ), Meets step C s es → ∃ s', es.foldlM step s = some s' := by
    intro es
    induction es with
    | nil => exact fun s _ => ⟨s, rfl⟩
    | cons e es ih =>
      rintro s ⟨-, hrest⟩
      rw [List.foldlM_cons]
      cases hs₁ : step s e with
      | none => simp [hs₁] at hrest
      | some s₁ =>
        rw [hs₁] at hrest
        exact ih s₁ hrest
  obtain ⟨s, hs⟩ := hrun es s₀ hC
  exact ⟨s, hs, of_run es hC hs .refl⟩

end Reach

end ArgoBbs

/-! # Changes of a record

A record is a value for each of its fields. Of two versions the fields that differ are the ones that
have been changed; merging brings these, and no others, into a record. -/

namespace ArgoBbs

variable {φ : Type} {ν : φ → Type} [∀ f, DecidableEq (ν f)] {read now record : (f : φ) → ν f}

/-- `record` with the fields that `now` has otherwise than `read`. -/
def merge (read now record : (f : φ) → ν f) : (f : φ) → ν f :=
  fun f => if now f = read f then record f else now f

/-- A record in which nothing has changed becomes `now`. -/
theorem merge_self : merge read now read = now := by
  funext f
  rw [merge]
  split
  · rename_i h
    exact h.symm
  · rfl

end ArgoBbs

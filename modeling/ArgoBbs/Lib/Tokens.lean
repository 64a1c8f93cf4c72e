import Mathlib.Data.List.TakeWhile

/-! # Tokens

The parts of a list between delimiters, of which `strtok` gives one after the other. -/

namespace ArgoBbs

section
variable {α : Type}

/-- `strtok`: the first token and what the next call works on. -/
def strtok (isDelim : α → Bool) (s : List α) : Option (List α × List α) :=
  match s.dropWhile isDelim with
  | [] => none
  | c :: s => some (c :: s.takeWhile (!isDelim ·), (s.dropWhile (!isDelim ·)).drop 1)

/-- The parts between delimiters that are not empty. -/
def tokens (isDelim : α → Bool) (s : List α) : List (List α) :=
  (s.splitOnP isDelim).filter (!·.isEmpty)

variable {p : α → Bool} {c d : α} {s t rest : List α}

theorem tokens_cons_delim (hc : p c = true) : tokens p (c :: s) = tokens p s := by
  rw [tokens, List.splitOnP_cons_eq_if_modifyHead, if_pos hc]
  rfl

theorem tokens_dropWhile (p : α → Bool) (s : List α) : tokens p (s.dropWhile p) = tokens p s := by
  induction s with
  | nil => rfl
  | cons c s ih =>
    cases hc : p c with
    | true => rw [List.dropWhile_cons_of_pos hc, ih, tokens_cons_delim hc]
    | false => rw [List.dropWhile_cons_of_neg (by simp [hc])]

/-- A run without delimiters is a token at the end. -/
theorem tokens_run (ht : ∀ x ∈ c :: t, p x = false) : tokens p (c :: t) = [c :: t] := by
  rw [tokens, List.splitOnP_eq_singleton ht]
  rfl

/-- A run without delimiters is a token in front of one. -/
theorem tokens_run_append (ht : ∀ x ∈ c :: t, p x = false) (hd : p d = true) :
    tokens p (c :: t ++ d :: rest) = (c :: t) :: tokens p rest := by
  rw [tokens, List.splitOnP_append_cons_of_forall_mem ht d hd]
  rfl

theorem strtok_none (h : strtok p s = none) : tokens p s = [] := by
  unfold strtok at h
  split at h
  · rename_i hnil
    rw [← tokens_dropWhile, hnil]
    rfl
  · cases h

theorem strtok_some (h : strtok p s = some (t, rest)) : tokens p s = t :: tokens p rest := by
  unfold strtok at h
  split at h
  · cases h
  · rename_i c u hcons
    cases h
    have hc : p c = false := by
      have hhead := List.head_dropWhile_not p (hcons ▸ List.cons_ne_nil c u)
      simpa [hcons] using hhead
    have hrun : ∀ x ∈ c :: u.takeWhile (!p ·), p x = false := fun x hx => by
      rcases List.mem_cons.mp hx with rfl | hx
      · exact hc
      · simpa using List.mem_takeWhile_imp hx
    rw [← tokens_dropWhile, hcons]
    cases hdrop : u.dropWhile (!p ·) with
    | nil =>
      have hall : u.takeWhile (!p ·) = u := by
        simpa [hdrop] using List.takeWhile_append_dropWhile (p := (!p ·)) (l := u)
      rw [hall] at hrun ⊢
      exact tokens_run hrun
    | cons d rest =>
      have hd : p d = true := by
        have hhead := List.head_dropWhile_not (!p ·) (hdrop ▸ List.cons_ne_nil d rest)
        simpa [hdrop] using hhead
      calc tokens p (c :: u)
        _ = tokens p (c :: u.takeWhile (!p ·) ++ d :: rest) := by
          rw [List.cons_append, ← hdrop, List.takeWhile_append_dropWhile]
        _ = (c :: u.takeWhile (!p ·)) :: tokens p rest := tokens_run_append hrun hd

end

end ArgoBbs

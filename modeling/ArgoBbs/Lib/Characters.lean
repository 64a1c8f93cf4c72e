import ArgoBbs.Lib.Walk

/-! # Texts as lists of characters

An element that starts a character of two takes the next element with it, whatever that is; at the
end of a text there may be none. -/

namespace ArgoBbs

variable {α : Type} (lead : α → Bool)

def chars : List α → List (List α)
  | [] => []
  | [c] => [[c]]
  | c :: d :: rest => if lead c then [c, d] :: chars rest else [c] :: chars (d :: rest)

/-- The text ends with an element that starts a character of two. -/
def endsOpen (s : List α) : Bool := openLead lead (fun _ => true) false s

variable {lead} {c d : α} {s : List α}

theorem chars_of_lead (h : lead c = true) : chars lead (c :: d :: s) = [c, d] :: chars lead s :=
  if_pos h

theorem chars_of_single (h : lead c = false) : chars lead (c :: s) = [c] :: chars lead s := by
  cases s with
  | nil => rfl
  | cons d s => exact if_neg (Bool.eq_false_iff.mp h)

theorem endsOpen_singleton : endsOpen lead [c] = lead c := by
  simp [endsOpen, openLead]

theorem endsOpen_of_lead (h : lead c = true) :
    endsOpen lead (c :: d :: s) = endsOpen lead s := by
  simp [endsOpen, openLead, h]

theorem endsOpen_of_single (h : lead c = false) : endsOpen lead (c :: s) = endsOpen lead s := by
  simp [endsOpen, openLead, h]

/-- What holds of the empty text, of a last element, and in front of a text of which it holds. -/
theorem chars_induction (lead : α → Bool) {P : List α → Prop} (nil : P [])
    (last : ∀ c, lead c = true → P [c])
    (double : ∀ c d s, lead c = true → P s → P (c :: d :: s))
    (single : ∀ c s, lead c = false → P s → P (c :: s)) (s : List α) : P s := by
  induction s using chars.induct lead with
  | case1 => exact nil
  | case2 c =>
    cases h : lead c with
    | true => exact last c h
    | false => exact single c [] h nil
  | case3 c d rest h ih => exact double c d rest h ih
  | case4 c d rest h ih => exact single c (d :: rest) (Bool.eq_false_iff.mpr h) ih

theorem chars_append {a : List α} (h : endsOpen lead a = false) (b : List α) :
    chars lead (a ++ b) = chars lead a ++ chars lead b := by
  induction a using chars_induction lead with
  | nil => rfl
  | last c hc =>
    rw [endsOpen_singleton, hc] at h
    cases h
  | double c d a hc ih =>
    rw [endsOpen_of_lead hc] at h
    rw [List.cons_append, List.cons_append, chars_of_lead hc, chars_of_lead hc, ih h]
    rfl
  | single c a hc ih =>
    rw [endsOpen_of_single hc] at h
    rw [List.cons_append, chars_of_single hc, chars_of_single hc, ih h]
    rfl

theorem lead_of_mem_chars (h : [c, d] ∈ chars lead s) : lead c = true := by
  induction s using chars_induction lead with
  | nil => cases h
  | last c' _ => simp [chars] at h
  | double c' d' s hc ih =>
    rw [chars_of_lead hc, List.mem_cons] at h
    rcases h with h | h
    · cases h
      exact hc
    · exact ih h
  | single c' s hc ih =>
    rw [chars_of_single hc, List.mem_cons] at h
    rcases h with h | h
    · cases h
    · exact ih h

/-- A change of single elements that does not touch what starts a character. -/
theorem endsOpen_map {f : α → α} (hf : ∀ c, lead (f c) = lead c) :
    endsOpen lead (s.map f) = endsOpen lead s := by
  simp only [endsOpen, openLead, List.foldl_map, hf]

end ArgoBbs

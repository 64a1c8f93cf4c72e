import ArgoBbs.Chat.Lookup

/-! # What the search for a user ought to find

`fuzzy_chatid_to_indx` against the users that the asker sees: one whose chat id or user id the word
is, else the only one of whom it is the beginning (`station.c`). -/

namespace ArgoBbs

/-- The number that stands for the answer. -/
def FuzzyIndx.toInt : FuzzyIndx → Int
  | .found i => i
  | .nobody => -1
  | .ambiguous => -2

variable (cfg : ChatConfig)

/-- `users[indx]`, if there is such a slot. -/
def Hall.slot (s : Hall) (indx : Int) : Option ChatUser :=
  if 0 ≤ indx ∧ indx < cfg.maxActive then some (s.users indx.toNat) else none

/-- `fuzzy_chatid_to_indx` with the slot that it reads at the end, which there may not be. -/
def fuzzyChatidSlot (s : Hall) (unum : Nat) (chatid : Bytes) : Option FuzzyIndx :=
  match fuzzyLoop s chatid (List.range cfg.maxActive) none with
  | .ambiguous => some .ambiguous
  | indx => (s.slot cfg indx.toInt).map fun user =>
    if user.cloak = 0 || s.cloak unum then indx else .nobody

namespace Hall

/-- The word is the chat id or the user id. -/
def isNamed (s : Hall) (chatid : Bytes) (i : Nat) : Bool :=
  s.connected i && (strcasecmpEq chatid (s.users i).chatid ||
    strcasecmpEq chatid (s.users i).useridString)

end Hall

/-- The users that the asker sees and that the word fits. -/
def seenFitting (s : Hall) (unum : Nat) (chatid : Bytes) : List Nat :=
  (List.range cfg.maxActive).filter fun i => s.fits chatid i && !s.hides unum i

/-- A user whom the word names; if there is none, the only one it fits. -/
def FuzzyRight (s : Hall) (unum : Nat) (chatid : Bytes) (indx : FuzzyIndx) : Prop :=
  (∃ i < cfg.maxActive, s.isNamed chatid i = true ∧ s.hides unum i = false ∧ indx = .found i) ∨
    (∀ i < cfg.maxActive, s.isNamed chatid i = true → s.hides unum i = true) ∧
      match seenFitting cfg s unum chatid with
      | [] => indx = .nobody
      | [i] => indx = .found i
      | _ => indx = .ambiguous

/-- The word fits one user; or of the first two that it fits the first with a name of its length is
seen, and is named or the only one seen, or is not seen and nobody is; or neither has such a name,
nobody seen is named and several are seen. -/
def FuzzyClear (s : Hall) (unum : Nat) (chatid : Bytes) : Prop :=
  match fitting cfg s chatid with
  | [] => False
  | [_] => True
  | i :: j :: _ =>
    match [i, j].find? (s.fitsWhole chatid) with
    | some k =>
      if s.hides unum k then seenFitting cfg s unum chatid = []
      else s.isNamed chatid k = true ∨ seenFitting cfg s unum chatid = [k]
    | none => (∀ k ∈ seenFitting cfg s unum chatid, s.isNamed chatid k = false) ∧
        2 ≤ (seenFitting cfg s unum chatid).length

section
variable {cfg : ChatConfig} {s : Hall} {unum : Nat} {chatid : Bytes} {i : Nat}

theorem mem_seenFitting : i ∈ seenFitting cfg s unum chatid ↔
    i < cfg.maxActive ∧ s.fits chatid i = true ∧ s.hides unum i = false := by
  rw [seenFitting, List.mem_filter, List.mem_range, Bool.and_eq_true, Bool.not_eq_true']

theorem seenFitting_eq : seenFitting cfg s unum chatid =
    (fitting cfg s chatid).filter (!s.hides unum ·) := by
  rw [seenFitting, fitting, List.filter_filter]
  congr 1
  funext i
  exact Bool.and_comm _ _

theorem fits_of_isNamed (h : s.isNamed chatid i = true) : s.fits chatid i = true := by
  have hstarts : ∀ name : Bytes, strcasecmpEq chatid name = true →
      strncasecmpEq chatid name chatid.length = true := by
    intro name hsame
    rw [strcasecmpEq, decide_eq_true_iff] at hsame
    rw [strncasecmpEq, strcasecmpEq, decide_eq_true_iff, List.map_take, List.map_take, hsame]
  rw [Hall.isNamed, Bool.and_eq_true, Bool.or_eq_true] at h
  rw [Hall.fits, Bool.and_eq_true, Bool.or_eq_true]
  exact ⟨h.1, h.2.imp (hstarts _) (hstarts _)⟩

/-- Named users that are seen are among those that the word fits. -/
theorem hides_of_not_named (hnone : ∀ k ∈ seenFitting cfg s unum chatid, s.isNamed chatid k = false) :
    ∀ i < cfg.maxActive, s.isNamed chatid i = true → s.hides unum i = true := by
  intro i hi hnamed
  by_contra hseen
  have hmem := mem_seenFitting.mpr ⟨hi, fits_of_isNamed hnamed, Bool.eq_false_iff.mpr hseen⟩
  rw [hnone i hmem] at hnamed
  cases hnamed

theorem not_named_of_hides
    (hnone : ∀ i < cfg.maxActive, s.isNamed chatid i = true → s.hides unum i = true) :
    ∀ k ∈ seenFitting cfg s unum chatid, s.isNamed chatid k = false := by
  intro k hk
  obtain ⟨hlt, -, hseen⟩ := mem_seenFitting.mp hk
  by_contra hnamed
  rw [hnone k hlt (by simpa using hnamed)] at hseen
  cases hseen

theorem fuzzyPick_ne_nobody {whole : Nat → Bool} {l : List Nat} (hne : l ≠ []) :
    fuzzyPick whole l ≠ .nobody := by
  match l with
  | [i] => exact FuzzyIndx.noConfusion
  | i :: j :: rest =>
    rw [fuzzyPick]
    split
    · exact FuzzyIndx.noConfusion
    · split
      · exact FuzzyIndx.noConfusion
      · exact FuzzyIndx.noConfusion

/-- Another slot is read only if the word fits nobody. -/
theorem fuzzyChatidSlot_eq : fuzzyChatidSlot cfg s unum chatid =
    if fitting cfg s chatid = [] then none else some (fuzzyChatidToIndx cfg s unum chatid) := by
  have hfitting : (List.range cfg.maxActive).filter (s.fits chatid) = fitting cfg s chatid := rfl
  rw [fuzzyChatidSlot, fuzzyChatidToIndx, fuzzyLoop_eq, hfitting]
  cases hpick : fuzzyPick (s.fitsWhole chatid) (fitting cfg s chatid) with
  | nobody =>
    have hnil : fitting cfg s chatid = [] := by
      by_contra hne
      exact fuzzyPick_ne_nobody hne hpick
    rw [if_pos hnil]
    rfl
  | ambiguous =>
    rw [if_neg]
    intro hnil
    rw [hnil] at hpick
    cases hpick
  | found i =>
    have hmem := mem_of_fuzzyPick hpick
    have hlt : i < cfg.maxActive := List.mem_range.mp (List.mem_filter.mp hmem).1
    rw [if_neg (List.ne_nil_of_mem hmem)]
    dsimp only [FuzzyIndx.toInt]
    rw [Hall.slot, if_pos ⟨Int.natCast_nonneg i, Int.ofNat_lt.mpr hlt⟩]
    rfl

theorem shown_found_eq (i : Nat) : (FuzzyIndx.found i).shown (s.hides unum) =
    if s.hides unum i then .nobody else .found i := rfl

/-- The answer that the search gives when it ends with a user. -/
theorem fuzzyRight_shown {k : Nat} (hk : k ∈ fitting cfg s chatid) :
    FuzzyRight cfg s unum chatid ((FuzzyIndx.found k).shown (s.hides unum)) ↔
      if s.hides unum k then seenFitting cfg s unum chatid = []
      else s.isNamed chatid k = true ∨ seenFitting cfg s unum chatid = [k] := by
  have hlt : k < cfg.maxActive := List.mem_range.mp (List.mem_filter.mp hk).1
  rw [FuzzyRight, shown_found_eq]
  cases hhidden : s.hides unum k with
  | true =>
    rw [if_pos rfl, if_pos rfl]
    constructor
    · rintro (⟨i, -, -, -, hi⟩ | ⟨-, hmatch⟩)
      · cases hi
      · split at hmatch
        case h_1 hnil => exact hnil
        all_goals cases hmatch
    · intro hnil
      refine .inr ⟨hides_of_not_named ?_, ?_⟩
      · rw [hnil]
        exact fun i hi => absurd hi List.not_mem_nil
      · rw [hnil]
  | false =>
    rw [if_neg Bool.false_ne_true, if_neg Bool.false_ne_true]
    constructor
    · rintro (⟨i, -, hnamed, -, hi⟩ | ⟨-, hmatch⟩)
      · cases hi
        exact .inl hnamed
      · split at hmatch
        case h_2 i hone =>
          cases hmatch
          exact .inr hone
        all_goals cases hmatch
    · intro hclear
      cases hnamed : s.isNamed chatid k with
      | true => exact .inl ⟨k, hlt, hnamed, hhidden, rfl⟩
      | false =>
        have hone := hclear.resolve_left (by rw [hnamed]; exact Bool.false_ne_true)
        refine .inr ⟨hides_of_not_named ?_, ?_⟩
        · rw [hone]
          intro i hi
          rw [List.mem_singleton.mp hi, hnamed]
        · rw [hone]

theorem fuzzyRight_ambiguous : FuzzyRight cfg s unum chatid .ambiguous ↔
    (∀ k ∈ seenFitting cfg s unum chatid, s.isNamed chatid k = false) ∧
      2 ≤ (seenFitting cfg s unum chatid).length := by
  rw [FuzzyRight]
  constructor
  · rintro (⟨i, -, -, -, hi⟩ | ⟨hnone, hmatch⟩)
    · cases hi
    · refine ⟨not_named_of_hides hnone, ?_⟩
      split at hmatch
      · cases hmatch
      · cases hmatch
      case h_3 hnil hone =>
        match hseen : seenFitting cfg s unum chatid with
        | [] => exact absurd hseen hnil
        | [i] => exact absurd hseen (hone i)
        | i :: j :: rest => exact Nat.le_add_left 2 rest.length
  · rintro ⟨hnone, hseveral⟩
    refine .inr ⟨hides_of_not_named hnone, ?_⟩
    split
    case h_1 hnil =>
      rw [hnil] at hseveral
      cases hseveral
    case h_2 i hone =>
      rw [hone] at hseveral
      exact absurd hseveral (Nat.not_succ_le_self 1)
    case h_3 => rfl

end

/-- The search reads no slot beside the table and finds what it ought to just if the word is clear. -/
theorem fuzzyChatidSlot_right_iff (cfg : ChatConfig) (s : Hall) (unum : Nat) (chatid : Bytes) :
    (∃ indx, fuzzyChatidSlot cfg s unum chatid = some indx ∧ FuzzyRight cfg s unum chatid indx) ↔
      FuzzyClear cfg s unum chatid := by
  rw [fuzzyChatidSlot_eq, FuzzyClear, fuzzyChatidToIndx_eq]
  have hright : ∀ answer, (∃ indx, some answer = some indx ∧ FuzzyRight cfg s unum chatid indx) ↔
      FuzzyRight cfg s unum chatid answer := by
    intro answer
    constructor
    · rintro ⟨indx, hindx, h⟩
      cases hindx
      exact h
    · intro h
      exact ⟨answer, rfl, h⟩
  match hfit : fitting cfg s chatid with
  | [] =>
    rw [if_pos rfl]
    exact iff_of_false (fun h => by obtain ⟨indx, hindx, -⟩ := h; cases hindx) id
  | [i] =>
    have hseen : seenFitting cfg s unum chatid = [i].filter (!s.hides unum ·) := by
      rw [seenFitting_eq, hfit]
    rw [if_neg (List.cons_ne_nil _ _), hright, fuzzyPick,
      fuzzyRight_shown (hfit ▸ List.mem_singleton_self i), hseen]
    refine iff_of_true ?_ trivial
    cases hhidden : s.hides unum i with
    | true =>
      rw [if_pos rfl]
      exact List.filter_cons_of_neg (by rw [hhidden]; decide)
    | false =>
      rw [if_neg Bool.false_ne_true]
      exact .inr (List.filter_cons_of_pos (by rw [hhidden]; rfl))
  | i :: j :: rest =>
    rw [if_neg (List.cons_ne_nil _ _), hright, fuzzyPick]
    dsimp only
    cases hi : s.fitsWhole chatid i with
    | true =>
      rw [if_pos rfl, List.find?_cons_of_pos hi]
      exact fuzzyRight_shown (hfit ▸ List.mem_cons_self)
    | false =>
      rw [if_neg Bool.false_ne_true, List.find?_cons_of_neg (by rw [hi]; decide)]
      cases hj : s.fitsWhole chatid j with
      | true =>
        rw [if_pos rfl, List.find?_cons_of_pos hj]
        exact fuzzyRight_shown (hfit ▸ List.mem_cons_of_mem _ List.mem_cons_self)
      | false =>
        rw [if_neg Bool.false_ne_true, List.find?_cons_of_neg (by rw [hj]; decide)]
        exact fuzzyRight_ambiguous

/-- Users in the first three slots, with their chat ids. -/
def demoHall (chatids : List Bytes) : Hall where
  users i := ⟨if i < 3 then 5 else -1, 0, 0, 0, 0, bytes "guest", chatids.getD i [], [], []⟩
  rooms _ := ⟨[], 0, 0, fun _ => false, []⟩
  numConns := 3

/-- The user `ab` behind `abc` and `abd` is not found. -/
theorem not_fuzzyChatidSlot_right : ¬∀ (cfg : ChatConfig) (s : Hall) (unum : Nat) (chatid : Bytes),
    chatid ≠ [] → ∃ indx, fuzzyChatidSlot cfg s unum chatid = some indx ∧
      FuzzyRight cfg s unum chatid indx := by
  intro hall
  obtain ⟨indx, hindx, hright⟩ := hall { demoConfig with maxActive := 3 }
    (demoHall [bytes "abc", bytes "abd", bytes "ab"]) 0 (bytes "ab") (List.cons_ne_nil _ _)
  have hfound : fuzzyChatidSlot { demoConfig with maxActive := 3 }
      (demoHall [bytes "abc", bytes "abd", bytes "ab"]) 0 (bytes "ab") = some .ambiguous := by
    decide +kernel
  obtain rfl := Option.some.inj (hindx.symm.trans hfound)
  have hnamed := (fuzzyRight_ambiguous.mp hright).1 2 (by decide +kernel)
  cases hnamed

end ArgoBbs

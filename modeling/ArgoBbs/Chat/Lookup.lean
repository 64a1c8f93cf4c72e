import ArgoBbs.Chat.Server

/-! # Finding users by a word

`chatid_to_indx` takes the first user whose chat id the word is. `fuzzy_chatid_to_indx` also takes
the beginning of a chat id or of a user id, and of several users that the word fits only the first
two matter. -/

namespace ArgoBbs

namespace Hall
variable (s : Hall) (chatid : Bytes) (i : Nat)

/-- The word is the chat id of the user. -/
def names : Bool := s.connected i && strcasecmpEq chatid (s.users i).chatid

/-- The word is the beginning of the chat id or of the user id. -/
def fits : Bool :=
  s.connected i && (strncasecmpEq chatid (s.users i).chatid chatid.length ||
    strncasecmpEq chatid (s.users i).useridString chatid.length)

/-- The word is as long as the chat id or the user id. -/
def fitsWhole : Bool :=
  chatid.length = (s.users i).chatid.length || chatid.length = (s.users i).useridString.length

end Hall

/-- A search that may overlook some of the elements, but not the one found, finds the same. -/
theorem find?_eq_of_imp {α : Type} {p q : α → Bool} {l : List α}
    (himp : ∀ x ∈ l, q x = true → p x = true) (hfound : ∀ x, l.find? p = some x → q x = true) :
    l.find? q = l.find? p := by
  induction l with
  | nil => rfl
  | cons x l ih =>
    cases hp : p x with
    | true =>
      have hfind : (x :: l).find? p = some x := List.find?_cons_of_pos hp
      rw [hfind, List.find?_cons_of_pos (hfound x hfind)]
    | false =>
      have hq : ¬q x = true := fun hq => by rw [himp x List.mem_cons_self hq] at hp; cases hp
      have hfind : (x :: l).find? p = l.find? p := List.find?_cons_of_neg (by simp [hp])
      rw [hfind, List.find?_cons_of_neg hq]
      exact ih (fun y hy => himp y (List.mem_cons_of_mem x hy)) fun y hy =>
        hfound y (hfind.trans hy)

variable (cfg : ChatConfig)

/-- The user `i` is cloaked, and `unum` may not see cloaked users. -/
def Hall.hides (s : Hall) (unum i : Nat) : Bool := !((s.users i).cloak = 0 || s.cloak unum)

/-- The first user whose chat id the word is. -/
def firstNamed (s : Hall) (chatid : Bytes) : Option Nat :=
  (List.range cfg.maxActive).find? (s.names chatid)

/-- The users that the word fits, in the order of their slots. -/
def fitting (s : Hall) (chatid : Bytes) : List Nat :=
  (List.range cfg.maxActive).filter (s.fits chatid)

/-- What the search makes of the users that the word fits. -/
def fuzzyPick (whole : Nat → Bool) : List Nat → FuzzyIndx
  | [] => .nobody
  | [i] => .found i
  | i :: j :: _ => if whole i then .found i else if whole j then .found j else .ambiguous

/-- A hidden user who is found is answered like nobody. -/
def FuzzyIndx.shown (hidden : Nat → Bool) : FuzzyIndx → FuzzyIndx
  | .found i => if hidden i then .nobody else .found i
  | other => other

section
variable {cfg : ChatConfig} {s : Hall} {u : Nat} {chatid : Bytes}

theorem fuzzyLoop_some (is : List Nat) (k : Nat) : fuzzyLoop s chatid is (some k) =
    match is.filter (s.fits chatid) with
    | [] => .found k
    | j :: _ => if s.fitsWhole chatid j then .found j else .ambiguous := by
  induction is with
  | nil => rfl
  | cons i is ih =>
    rw [fuzzyLoop]
    change (if s.fits chatid i = true then if s.fitsWhole chatid i = true then _ else _ else _) = _
    cases hfits : s.fits chatid i with
    | true => rw [if_pos rfl, List.filter_cons_of_pos hfits]
    | false =>
      rw [if_neg Bool.false_ne_true, List.filter_cons_of_neg (by rw [hfits]; exact nofun)]
      exact ih

theorem fuzzyLoop_eq (is : List Nat) : fuzzyLoop s chatid is none =
    fuzzyPick (s.fitsWhole chatid) (is.filter (s.fits chatid)) := by
  induction is with
  | nil => rfl
  | cons i is ih =>
    rw [fuzzyLoop]
    change (if s.fits chatid i = true then if s.fitsWhole chatid i = true then _ else _ else _) = _
    cases hfits : s.fits chatid i with
    | true =>
      rw [if_pos rfl, List.filter_cons_of_pos hfits, fuzzyLoop_some]
      cases is.filter (s.fits chatid) with
      | nil => cases hwhole : s.fitsWhole chatid i <;> rfl
      | cons j is => rfl
    | false =>
      rw [if_neg Bool.false_ne_true, List.filter_cons_of_neg (by rw [hfits]; exact nofun)]
      exact ih

theorem fuzzyChatidToIndx_eq : fuzzyChatidToIndx cfg s u chatid =
    (fuzzyPick (s.fitsWhole chatid) (fitting cfg s chatid)).shown (s.hides u) := by
  rw [fuzzyChatidToIndx, fuzzyLoop_eq]
  change (match fuzzyPick (s.fitsWhole chatid) (fitting cfg s chatid) with
    | .found i => _
    | other => other) = _
  cases fuzzyPick (s.fitsWhole chatid) (fitting cfg s chatid) with
  | found i => cases h : ((s.users i).cloak = 0 || s.cloak u) <;>
      simp [FuzzyIndx.shown, Hall.hides, h]
  | nobody => rfl
  | ambiguous => rfl

/-- Without the right to see hidden users the cloak of the user named does not matter. -/
theorem chatidToIndx_eq (h : s.cloak u = false) :
    chatidToIndx cfg s u chatid = firstNamed cfg s chatid := by
  simp only [chatidToIndx, h, Bool.not_false, Bool.or_true, Bool.and_true]
  rfl

end

/-! ## A hidden user among those that a word fits -/

section
variable (whole hidden : Nat → Bool) (c : Nat)

/-- The search comes to nobody, or to a hidden user. -/
def NobodySeen : List Nat → Prop
  | [] => True
  | [i] => hidden i = true
  | i :: j :: _ => whole i = true ∧ hidden i = true ∨
      whole i = false ∧ whole j = true ∧ hidden j = true

/-- The hidden user `c` makes no difference to the answer: the word fits nobody else; or the search
ends before it comes to `c`; or the word is the whole name of `c` and those behind and before `c`
are answered like nobody; or it is not, and does not become ambiguous by `c`. -/
def Unnoticed : List Nat → Prop
  | i :: j :: rest =>
    if i = c then
      if whole c then NobodySeen whole hidden (j :: rest)
      else whole j = true ∨ ∃ k ∈ rest.head?, whole k = false
    else whole i = true ∨ (j = c →
      if whole c then NobodySeen whole hidden (i :: rest) else ∃ k ∈ rest.head?, whole k = false)
  | _ => True

end

section
variable {whole hidden : Nat → Bool} {c i : Nat} {l : List Nat}

theorem shown_ambiguous : FuzzyIndx.ambiguous.shown hidden = .ambiguous := rfl

theorem fuzzyPick_whole (h : whole i = true) : fuzzyPick whole (i :: l) = .found i := by
  cases l with
  | nil => rfl
  | cons j l => exact if_pos h

theorem shown_eq_nobody_iff : (fuzzyPick whole l).shown hidden = .nobody ↔
    NobodySeen whole hidden l := by
  match l with
  | [] => exact ⟨fun _ => trivial, fun _ => rfl⟩
  | [i] => cases h : hidden i <;> simp [fuzzyPick, FuzzyIndx.shown, NobodySeen, h]
  | i :: j :: rest =>
    simp only [fuzzyPick, NobodySeen]
    cases whole i with
    | true => cases h : hidden i <;> simp [FuzzyIndx.shown, h]
    | false =>
      cases whole j with
      | true => cases h : hidden j <;> simp [FuzzyIndx.shown, h]
      | false => simp [FuzzyIndx.shown]

/-- The search comes to several users if neither of the first two has the whole name. -/
theorem shown_eq_ambiguous_iff : (fuzzyPick whole (i :: l)).shown hidden = .ambiguous ↔
    whole i = false ∧ ∃ k ∈ l.head?, whole k = false := by
  cases l with
  | nil => cases h : hidden i <;> simp [fuzzyPick, FuzzyIndx.shown, h]
  | cons j rest =>
    simp only [fuzzyPick]
    cases whole i with
    | true => cases h : hidden i <;> simp [FuzzyIndx.shown, h]
    | false =>
      cases hj : whole j with
      | true => cases h : hidden j <;> simp [FuzzyIndx.shown, h, hj]
      | false => simp [FuzzyIndx.shown, hj]

theorem mem_of_fuzzyPick (h : fuzzyPick whole l = .found i) : i ∈ l := by
  match l with
  | [] => cases h
  | [j] =>
    cases h
    exact List.mem_singleton.mpr rfl
  | j :: k :: rest =>
    rw [fuzzyPick] at h
    split at h
    · cases h
      exact List.mem_cons_self
    · split at h
      · cases h
        exact List.mem_cons_of_mem _ List.mem_cons_self
      · cases h

theorem shown_congr {whole' hidden' : Nat → Bool} (hwhole : ∀ i ∈ l, whole i = whole' i)
    (hhidden : ∀ i ∈ l, hidden i = hidden' i) :
    (fuzzyPick whole l).shown hidden = (fuzzyPick whole' l).shown hidden' := by
  have hpick : fuzzyPick whole l = fuzzyPick whole' l := by
    match l with
    | [] => rfl
    | [i] => rfl
    | i :: j :: rest =>
      rw [fuzzyPick, fuzzyPick, hwhole i List.mem_cons_self,
        hwhole j (List.mem_cons_of_mem _ List.mem_cons_self)]
  rw [hpick]
  cases h : fuzzyPick whole' l with
  | found i => rw [FuzzyIndx.shown, FuzzyIndx.shown, hhidden i (mem_of_fuzzyPick h)]
  | nobody => rfl
  | ambiguous => rfl

/-- The answer is the one without `c` just if `c` is not noticed. -/
theorem unnoticed_iff (hnodup : l.Nodup) (hc : hidden c = true) :
    (fuzzyPick whole l).shown hidden = (fuzzyPick whole (l.filter (· ≠ c))).shown hidden ↔
      Unnoticed whole hidden c l := by
  match l with
  | [] => exact ⟨fun _ => trivial, fun _ => rfl⟩
  | [i] =>
    refine ⟨fun _ => trivial, fun _ => ?_⟩
    rcases eq_or_ne i c with rfl | hi
    · simp [fuzzyPick, FuzzyIndx.shown, hc]
    · simp [hi]
  | i :: j :: rest =>
    obtain ⟨hi, hj, -⟩ : i ∉ j :: rest ∧ j ∉ rest ∧ rest.Nodup := by
      simpa [List.nodup_cons] using hnodup
    rcases eq_or_ne i c with rfl | hic
    · have hfilter : (i :: j :: rest).filter (· ≠ i) = j :: rest := by
        rw [List.filter_cons_of_neg (by simp), List.filter_eq_self]
        exact fun k hk => decide_eq_true fun h => hi (h ▸ hk)
      rw [hfilter, Unnoticed, if_pos rfl]
      cases hwhole : whole i with
      | true =>
        rw [if_pos rfl, fuzzyPick, hwhole, if_pos rfl, FuzzyIndx.shown, hc, if_pos rfl, eq_comm]
        exact shown_eq_nobody_iff
      | false =>
        rw [if_neg Bool.false_ne_true, fuzzyPick, hwhole, if_neg Bool.false_ne_true]
        cases hwholej : whole j with
        | true =>
          rw [if_pos rfl, fuzzyPick_whole hwholej]
          simp
        | false =>
          rw [if_neg Bool.false_ne_true, shown_ambiguous, eq_comm, shown_eq_ambiguous_iff]
          simp [hwholej]
    · rw [List.filter_cons_of_pos (by simpa using hic), Unnoticed, if_neg hic]
      cases hwhole : whole i with
      | true =>
        rw [fuzzyPick_whole hwhole, fuzzyPick_whole hwhole]
        simp
      | false =>
        rcases eq_or_ne j c with rfl | hjc
        · have hfilter : (j :: rest).filter (· ≠ j) = rest := by
            rw [List.filter_cons_of_neg (by simp), List.filter_eq_self]
            exact fun k hk => decide_eq_true fun h => hj (h ▸ hk)
          rw [hfilter, fuzzyPick, hwhole, if_neg Bool.false_ne_true]
          cases hj : whole j with
          | true =>
            rw [if_pos rfl, FuzzyIndx.shown, hc, if_pos rfl, eq_comm, shown_eq_nobody_iff]
            simp
          | false =>
            rw [if_neg Bool.false_ne_true, shown_ambiguous, eq_comm, shown_eq_ambiguous_iff]
            simp [hwhole]
        · rw [List.filter_cons_of_pos (by simpa using hjc)]
          simp [fuzzyPick, hjc]

/-- A user who is found with `c` is found without. -/
theorem shown_found (hnodup : l.Nodup) (hc : hidden c = true)
    (h : (fuzzyPick whole l).shown hidden = .found i) :
    (fuzzyPick whole (l.filter (· ≠ c))).shown hidden = .found i := by
  rw [← h, eq_comm, unnoticed_iff hnodup hc]
  match l with
  | [] => trivial
  | [_] => trivial
  | j :: k :: rest =>
    rw [Unnoticed]
    rw [fuzzyPick] at h
    split
    · rename_i hjc
      subst hjc
      cases hwhole : whole j with
      | true => simp [hwhole, FuzzyIndx.shown, hc] at h
      | false =>
        cases hk : whole k with
        | true => exact .inl rfl
        | false => simp [hwhole, hk, FuzzyIndx.shown] at h
    · cases hwhole : whole j with
      | true => exact .inl rfl
      | false =>
        refine .inr fun hkc => ?_
        subst hkc
        cases hk : whole k with
        | true => simp [hwhole, hk, FuzzyIndx.shown, hc] at h
        | false => simp [hwhole, hk, FuzzyIndx.shown] at h

end

end ArgoBbs

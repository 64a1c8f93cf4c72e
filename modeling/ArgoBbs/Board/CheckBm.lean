import ArgoBbs.User.Register

/-! # Who manages a board

The managers of a board are a string of names between blanks, tabs and parentheses. `check_bm` goes
from one occurrence of a name in it to the next and looks at the byte before it; at the first
occurrence with a delimiter before it the byte behind decides (`bbs.c`). -/

namespace ArgoBbs

/-- The delimiters before a name. -/
def bmOpens (ch : UInt8) : Bool := ch = 32 || ch = 9 || ch = 40

/-- What ends a name: the end of the string or a delimiter. -/
def bmCloses (bm : Bytes) (p : Nat) : Bool := (bm[p]?).all fun ch => ch = 32 || ch = 9 || ch = 41

/-- The loop of `check_bm` at an occurrence in `p`, behind the start; it fails if it does not end.
-/
def checkBmLoop (userid bm : Bytes) : Nat → Nat → Option Bool
  | 0, _ => none
  | fuel + 1, p =>
    let next := p + userid.length
    if (bm[p - 1]?).any bmOpens then some (bmCloses bm next)
    else if (bm[next]?).isNone then some false
    else
      match strcasestrAt (bm.drop next) userid with
      | none => some false
      | some q => checkBmLoop userid bm fuel (next + q)

def checkBm (userid bm : Bytes) : Option Bool :=
  match strcasestrAt bm userid with
  | none => some false
  | some p =>
    if p ≠ 0 then checkBmLoop userid bm (bm.length + 1) p
    else some (bmCloses bm userid.length)

/-- The name is at a place of the string, up to case. -/
def BmOccurs (userid bm : Bytes) (i : Nat) : Prop :=
  userid.map tolower <+: (bm.drop i).map tolower

/-- The name stands behind a delimiter or at the start. -/
def BmOpened (userid bm : Bytes) (i : Nat) : Prop :=
  BmOccurs userid bm i ∧ (i = 0 ∨ (bm[i - 1]?).any bmOpens)

/-- The name is a whole name of the string. -/
def BmWhole (userid bm : Bytes) (i : Nat) : Prop :=
  BmOpened userid bm i ∧ bmCloses bm (i + userid.length)

/-- `check_bm` says whether the name is one of the names. -/
def ChecksBm (userid bm : Bytes) : Prop :=
  ∃ isBm, checkBm userid bm = some isBm ∧ (isBm = true ↔ ∃ i, BmWhole userid bm i)

/-- No longer name that starts with the name stands before it. -/
def BmFirst (userid bm : Bytes) : Prop :=
  ∀ i, BmWhole userid bm i → ∃ j, BmWhole userid bm j ∧
    ∀ k < j, BmOpened userid bm k → BmWhole userid bm k

section
variable {userid bm : Bytes} {i j p : Nat}

theorem bmOccurs_drop : BmOccurs userid (bm.drop p) i ↔ BmOccurs userid bm (p + i) := by
  rw [BmOccurs, BmOccurs, List.drop_drop]

theorem BmOccurs.le (h : BmOccurs userid bm i) (hne : userid ≠ []) :
    i + userid.length ≤ bm.length := by
  have hle := List.IsPrefix.length_le h
  have hpos := List.length_pos_iff.mpr hne
  simp only [List.length_map, List.length_drop] at hle
  omega

/-- A byte of an occurrence is one of the name. -/
theorem BmOccurs.getElem? (h : BmOccurs userid bm i) (hj : j < userid.length) :
    ∃ c ∈ userid, ∃ d, bm[i + j]? = some d ∧ tolower c = tolower d := by
  refine ⟨userid[j], List.getElem_mem hj, ?_⟩
  obtain ⟨rest, hrest⟩ := h
  have hget := congrArg (·[j]?) hrest
  simp only [List.getElem?_append_left (List.length_map _ ▸ hj), List.getElem?_map,
    List.getElem?_drop, List.getElem?_eq_getElem hj, Option.map_some] at hget
  obtain ⟨d, hd, heq⟩ := Option.map_eq_some_iff.mp hget.symm
  exact ⟨d, hd, heq.symm⟩

/-- A delimiter has no other case. -/
theorem bmOpens_of_tolower {c d : UInt8} (h : tolower c = tolower d) (hd : bmOpens d = true) :
    bmOpens c = true := by
  have hcase (c : UInt8) : bmOpens (tolower c) = bmOpens c :=
    (by decide +kernel : ∀ n : Fin 256, bmOpens (tolower (.ofFin n)) = bmOpens (.ofFin n)) c.toFin
  rw [← hcase, h, hcase, hd]

/-- The places where the name stands behind a delimiter do not overlap. -/
theorem BmOpened.add_le (hname : ∀ c ∈ userid, bmOpens c = false) (hi : BmOccurs userid bm i)
    (hj : BmOpened userid bm j) (hij : i < j) : i + userid.length ≤ j := by
  by_contra hlt
  obtain ⟨c, hc, d, hd, hcase⟩ := hi.getElem? (j := j - 1 - i) (by omega)
  rw [show i + (j - 1 - i) = j - 1 by omega] at hd
  have hopen : bmOpens d = true := by
    have := hj.2.resolve_left (by omega)
    rwa [hd] at this
  have := hname c hc
  rw [bmOpens_of_tolower hcase hopen] at this
  cases this

/-- What `check_bm` answers: the name does not stand behind a delimiter, or whether it ends at the
first place where it does. -/
def BmAnswer (userid bm : Bytes) (isBm : Bool) : Prop :=
  ((∀ i, ¬BmOpened userid bm i) ∧ isBm = false) ∨
    ∃ i, BmOpened userid bm i ∧ (∀ j < i, ¬BmOpened userid bm j) ∧
      isBm = bmCloses bm (i + userid.length)

/-- The loop from an occurrence on, before which the name does not stand behind a delimiter. -/
theorem checkBmLoop_eq (hname : ∀ c ∈ userid, bmOpens c = false) (hne : userid ≠ [])
    (fuel : Nat) (hfuel : bm.length - p < fuel) (hp : 0 < p) (hoccurs : BmOccurs userid bm p)
    (hbefore : ∀ j < p, ¬BmOpened userid bm j) :
    ∃ isBm, checkBmLoop userid bm fuel p = some isBm ∧ BmAnswer userid bm isBm := by
  induction fuel generalizing p with
  | zero => omega
  | succ fuel ih =>
    have hpos := List.length_pos_iff.mpr hne
    have hle := hoccurs.le hne
    unfold checkBmLoop
    by_cases hopen : (bm[p - 1]?).any bmOpens = true
    · exact ⟨_, if_pos hopen, .inr ⟨p, ⟨hoccurs, .inr hopen⟩, hbefore, rfl⟩⟩
    simp only [hopen, if_false, Bool.false_eq_true]
    -- the name does not stand behind a delimiter before the end of this occurrence
    have hnext (j : Nat) (hj : j < p + userid.length) : ¬BmOpened userid bm j := by
      intro h
      rcases Nat.lt_trichotomy j p with hlt | rfl | hgt
      · exact hbefore j hlt h
      · exact (h.2.resolve_left (Nat.ne_of_gt hp) |> hopen)
      · have := BmOpened.add_le hname hoccurs h hgt
        omega
    by_cases hend : (bm[p + userid.length]?).isNone = true
    · refine ⟨false, if_pos hend, .inl ⟨fun j hj => ?_, rfl⟩⟩
      rw [Option.isNone_iff_eq_none, List.getElem?_eq_none_iff] at hend
      have := hj.1.le hne
      exact hnext j (by omega) hj
    rw [if_neg hend]
    cases hfind : strcasestrAt (bm.drop (p + userid.length)) userid with
    | none =>
      refine ⟨false, rfl, .inl ⟨fun j hj => ?_, rfl⟩⟩
      rcases Nat.lt_or_ge j (p + userid.length) with hlt | hge
      · exact hnext j hlt hj
      · obtain ⟨k, rfl⟩ := Nat.exists_eq_add_of_le hge
        exact strcasestrAt_eq_none_iff.mp hfind k (bmOccurs_drop.mpr hj.1)
    | some q =>
      obtain ⟨hfound, hfirst⟩ := strcasestrAt_some hfind
      refine ih (p := p + userid.length + q) (by omega) (by omega) (bmOccurs_drop.mp hfound)
        fun j hj h => ?_
      rcases Nat.lt_or_ge j (p + userid.length) with hlt | hge
      · exact hnext j hlt h
      · obtain ⟨k, rfl⟩ := Nat.exists_eq_add_of_le hge
        exact hfirst k (by omega) (bmOccurs_drop.mpr h.1)

theorem checkBm_eq (hname : ∀ c ∈ userid, bmOpens c = false) (hne : userid ≠ []) (bm : Bytes) :
    ∃ isBm, checkBm userid bm = some isBm ∧ BmAnswer userid bm isBm := by
  unfold checkBm
  cases hfind : strcasestrAt bm userid with
  | none =>
    exact ⟨false, rfl, .inl ⟨fun j hj => strcasestrAt_eq_none_iff.mp hfind j hj.1, rfl⟩⟩
  | some p =>
    obtain ⟨hfound, hfirst⟩ := strcasestrAt_some hfind
    by_cases hp : p = 0
    · subst hp
      exact ⟨_, rfl, .inr ⟨0, ⟨hfound, .inl rfl⟩, fun j hj => absurd hj (Nat.not_lt_zero j),
        by rw [Nat.zero_add]⟩⟩
    · simp only [hp, ne_eq, not_false_eq_true, if_true]
      exact checkBmLoop_eq hname hne _ (by omega) (Nat.pos_of_ne_zero hp) hfound
        fun j hj h => hfirst j hj h.1

/-- `check_bm` is right just if no longer name that starts with the name stands before it. -/
theorem check_bm_iff (hname : ∀ c ∈ userid, bmOpens c = false) (hne : userid ≠ []) (bm : Bytes) :
    ChecksBm userid bm ↔ BmFirst userid bm := by
  obtain ⟨isBm, hcheck, hanswer⟩ := checkBm_eq hname hne bm
  have hchecks : ChecksBm userid bm ↔ (isBm = true ↔ ∃ i, BmWhole userid bm i) := by
    simp only [ChecksBm, hcheck, Option.some.injEq, exists_eq_left']
  rw [hchecks]
  rcases hanswer with ⟨hnone, rfl⟩ | ⟨i, hi, hfirst, rfl⟩
  · have hnot : ¬∃ i, BmWhole userid bm i := fun ⟨i, hi⟩ => hnone i hi.1
    refine iff_of_true ⟨nofun, fun h => absurd h hnot⟩ fun j hj => absurd ⟨j, hj⟩ hnot
  · constructor
    · intro h j hj
      have hclose := h.mpr ⟨j, hj⟩
      exact ⟨i, ⟨hi, hclose⟩, fun k hk hopen => absurd hopen (hfirst k hk)⟩
    · intro h
      refine ⟨fun hclose => ⟨i, hi, hclose⟩, fun ⟨j, hj⟩ => ?_⟩
      obtain ⟨k, hk, hbefore⟩ := h j hj
      rcases Nat.lt_trichotomy i k with hlt | rfl | hgt
      · exact (hbefore i hlt hi).2
      · exact hk.2
      · exact absurd hk.1 (hfirst k hgt)

end

/-- A name that an account can have has no delimiter in it. -/
theorem bmOpens_of_accepts {cfg : RegConfig} {userid : Bytes} (h : cfg.accepts userid = true) :
    (∀ c ∈ userid, bmOpens c = false) ∧ userid ≠ [] := by
  simp only [RegConfig.accepts, Bool.and_eq_true, Bool.not_eq_true'] at h
  obtain ⟨⟨⟨⟨hne, -⟩, halpha⟩, -⟩, -⟩ := h
  refine ⟨fun c hc => ?_, fun heq => by simp [heq] at hne⟩
  have hletter := List.any_eq_false.mp halpha c hc
  have hcase : ∀ n : Fin 256, let c := UInt8.ofFin n
      !(65 ≤ c && c ≤ 90 || 97 ≤ c && c ≤ 122) || !bmOpens c := by decide +kernel
  rcases Bool.or_eq_true_iff.mp (hcase c.toFin) with hother | hname
  · exact absurd hother hletter
  · simpa using hname

theorem check_bm_second : ChecksBm (bytes "bob") (bytes "alice (bob)") ↔
    BmFirst (bytes "bob") (bytes "alice (bob)") :=
  check_bm_iff (by decide +kernel) (by decide) _

/-- The name of another manager starts with that of the second one. -/
theorem check_bm_longer_first : ¬∀ userid bm : Bytes, (∀ c ∈ userid, bmOpens c = false) →
    userid ≠ [] → ChecksBm userid bm := by
  intro hclaim
  obtain ⟨isBm, hcheck, hiff⟩ := hclaim (bytes "bob") (bytes "bobby bob") (by decide +kernel)
    (by decide)
  have hfalse : checkBm (bytes "bob") (bytes "bobby bob") = some false := by decide +kernel
  obtain rfl := Option.some.inj (hfalse.symm.trans hcheck)
  have hwhole : BmWhole (bytes "bob") (bytes "bobby bob") 6 :=
    ⟨⟨⟨[], by decide⟩, .inr (by decide)⟩, by decide⟩
  exact Bool.false_ne_true (hiff.mpr ⟨6, hwhole⟩)

end ArgoBbs

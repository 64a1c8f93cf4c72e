import ArgoBbs.Board.CheckBm
import ArgoBbs.Lib.Words

/-! # The names of the managers

The field `BM` of a board holds the names of its managers with a blank between them. `check_bm`
gives its answer at the first name that begins with the one that is looked for. -/

namespace ArgoBbs

/-- The name of a user, as one can be registered. -/
structure IsUserName (userid : Bytes) : Prop where
  ne_nil : userid ≠ []
  length_le : userid.length ≤ idLen
  plain : ∀ c ∈ userid, bmOpens c = false ∧ c ≠ 41

instance (userid : Bytes) : Decidable (IsUserName userid) :=
  decidable_of_iff
    (userid ≠ [] ∧ userid.length ≤ idLen ∧ (userid.all fun c => !bmOpens c && c ≠ 41) = true)
    ⟨fun h => ⟨h.1, h.2.1, fun c hc => by simpa using List.all_eq_true.mp h.2.2 c hc⟩,
      fun H => ⟨H.ne_nil, H.length_le,
        List.all_eq_true.mpr fun c hc => by simpa using H.plain c hc⟩⟩

def bmText (names : List Bytes) : Bytes := joined 32 names

/-- The name begins with the other one, up to case. -/
def Begins (userid name : Bytes) : Prop := userid.map tolower <+: name.map tolower

instance (userid name : Bytes) : Decidable (Begins userid name) :=
  inferInstanceAs (Decidable (_ <+: _))

/-- Whether the first name that begins with the one that is looked for is that name. -/
def bmFinds (userid : Bytes) : List Bytes → Bool
  | [] => false
  | name :: names =>
    if Begins userid name then name.length = userid.length else bmFinds userid names

section
variable {userid name rest : Bytes} {names : List Bytes} {i j : Nat} {isBm : Bool}

theorem IsUserName.bmOpens (H : IsUserName userid) : ∀ c ∈ userid, bmOpens c = false :=
  fun c hc => (H.plain c hc).1

theorem IsUserName.blank (H : IsUserName userid) : 32 ∉ userid := fun hmem =>
  Bool.false_ne_true (H.bmOpens 32 hmem).symm

/-- A registered name is one. -/
theorem IsUserName.of_accepts {cfg : RegConfig} (h : cfg.accepts userid = true) :
    IsUserName userid := by
  obtain ⟨hopens, hne⟩ := bmOpens_of_accepts h
  simp only [RegConfig.accepts, Bool.and_eq_true, Bool.not_eq_true', decide_eq_true_eq] at h
  refine ⟨hne, h.1.1.1.2, fun c hc => ⟨hopens c hc, ?_⟩⟩
  rintro rfl
  exact absurd (List.any_eq_false.mp h.1.1.2 41 hc) (by decide)

theorem Begins.length_le (h : Begins userid name) : userid.length ≤ name.length := by
  have hle := List.IsPrefix.length_le h
  rwa [List.length_map, List.length_map] at hle

theorem begins_refl (name : Bytes) : Begins name name := List.prefix_rfl

/-- Only a blank comes before a name behind the first one. -/
theorem bmOpened_behind :
    BmOpened userid (name ++ 32 :: rest) (name.length + 1 + j) ↔ BmOpened userid rest j := by
  have hdrop : (name ++ 32 :: rest).drop (name.length + 1 + j) = rest.drop j := by
    rw [Nat.add_assoc, ← List.drop_drop, List.drop_left, Nat.add_comm 1 j, List.drop_succ_cons]
  rw [BmOpened, BmOpened, BmOccurs, BmOccurs, hdrop]
  refine and_congr_right fun _ => ?_
  cases j with
  | zero =>
    refine iff_of_true (.inr ?_) (.inl rfl)
    rw [Nat.add_zero, Nat.add_sub_cancel, List.getElem?_append_right (Nat.le_refl _), Nat.sub_self]
    rfl
  | succ j =>
    have hplace : name.length + 1 + (j + 1) - 1 = name.length + (j + 1) := by omega
    rw [hplace, List.getElem?_append_right (Nat.le_add_right _ _), Nat.add_sub_cancel_left,
      List.getElem?_cons_succ, Nat.add_sub_cancel]
    exact or_congr (iff_of_false (by omega) (Nat.succ_ne_zero j)) Iff.rfl

/-- Within a name the name that is looked for stands behind no delimiter. -/
theorem not_bmOpened_within (hname : IsUserName name) (rest : Bytes) (hi : 0 < i)
    (hle : i ≤ name.length) : ¬BmOpened userid (name ++ rest) i := by
  rintro ⟨-, h0 | hopen⟩
  · omega
  · have hlt : i - 1 < name.length := by omega
    rw [List.getElem?_append_left hlt, List.getElem?_eq_getElem hlt, Option.any_some,
      hname.bmOpens _ (List.getElem_mem hlt)] at hopen
    cases hopen

theorem blank_not_mem_map_tolower (H : IsUserName userid) : 32 ∉ userid.map tolower := by
  intro hmem
  obtain ⟨c, hc, hcase⟩ := List.mem_map.mp hmem
  have hopens : bmOpens c = true := bmOpens_of_tolower (d := 32) hcase rfl
  rw [H.bmOpens c hc] at hopens
  cases hopens

theorem bmOpened_start (H : IsUserName userid) :
    BmOpened userid (name ++ 32 :: rest) 0 ↔ Begins userid name := by
  rw [BmOpened, BmOccurs, List.drop_zero, List.map_append, List.map_cons, Begins]
  rw [and_iff_left (.inl rfl)]
  exact prefix_append_cons_iff (blank_not_mem_map_tolower H) _ _

/-- The name that is looked for ends at the end of the first name just if it is as long. -/
theorem bmCloses_start (rest : Bytes) (hname : IsUserName name) (hbegins : Begins userid name)
    (hend : rest.head?.all (· = 32)) :
    bmCloses (name ++ rest) userid.length = decide (name.length = userid.length) := by
  rcases Nat.lt_or_eq_of_le hbegins.length_le with hlt | heq
  · obtain ⟨hopens, hparen⟩ := hname.plain _ (List.getElem_mem hlt)
    rw [bmCloses, List.getElem?_append_left hlt, List.getElem?_eq_getElem hlt, Option.all_some,
      decide_eq_false hlt.ne']
    simp only [bmOpens, Bool.or_eq_false_iff, decide_eq_false_iff_not] at hopens
    simp [hopens.1.1, hopens.1.2, hparen]
  · rw [bmCloses, decide_eq_true heq.symm, heq, List.getElem?_append_right (Nat.le_refl _),
      Nat.sub_self, ← List.head?_eq_getElem?]
    cases hrest : rest.head? with
    | none => rfl
    | some c =>
      rw [hrest, Option.all_some, decide_eq_true_eq] at hend
      rw [hend]
      rfl

/-- An answer at the start. -/
theorem BmAnswer.of_opened_zero {bm : Bytes} (h : BmAnswer userid bm isBm)
    (hopen : BmOpened userid bm 0) : isBm = bmCloses bm userid.length := by
  rcases h with ⟨hnone, -⟩ | ⟨i, -, hbefore, hanswer⟩
  · exact absurd hopen (hnone 0)
  · have hi : i = 0 := Nat.eq_zero_of_not_pos fun hpos => hbefore 0 hpos hopen
    rwa [hi, Nat.zero_add] at hanswer

/-- An answer behind the first name. -/
theorem BmAnswer.behind (hname : IsUserName name) (H : IsUserName userid)
    (hbegins : ¬Begins userid name) (h : BmAnswer userid (name ++ 32 :: rest) isBm) :
    BmAnswer userid rest isBm := by
  rcases h with ⟨hnone, hfalse⟩ | ⟨i, hopen, hbefore, hanswer⟩
  · exact .inl ⟨fun j hj => hnone _ (bmOpened_behind.mpr hj), hfalse⟩
  · have hi : name.length < i := by
      rcases Nat.eq_zero_or_pos i with rfl | hpos
      · exact absurd ((bmOpened_start H).mp hopen) hbegins
      · exact Nat.lt_of_not_le fun hle => not_bmOpened_within hname _ hpos hle hopen
    obtain ⟨j, rfl⟩ := Nat.exists_eq_add_of_le (Nat.succ_le_of_lt hi)
    refine .inr ⟨j, bmOpened_behind.mp hopen, fun k hk hopened => ?_, ?_⟩
    · exact hbefore (name.length + 1 + k) (by omega) (bmOpened_behind.mpr hopened)
    · rw [hanswer, bmCloses, bmCloses, List.getElem?_append_right (by omega)]
      have hplace : name.length + 1 + j + userid.length - name.length = j + userid.length + 1 := by
        omega
      rw [hplace, List.getElem?_cons_succ]

/-- The answer if there is only one name. -/
theorem BmAnswer.single (hname : IsUserName name) (H : IsUserName userid)
    (h : BmAnswer userid name isBm) : isBm = bmFinds userid [name] := by
  rw [bmFinds, bmFinds]
  by_cases hbegins : Begins userid name
  · have hclose := bmCloses_start [] hname hbegins rfl
    rw [List.append_nil] at hclose
    rw [if_pos hbegins, ← hclose]
    exact h.of_opened_zero ⟨hbegins, .inl rfl⟩
  · rw [if_neg hbegins]
    rcases h with ⟨-, hfalse⟩ | ⟨i, hopen, -, -⟩
    · exact hfalse
    · have hle := hopen.1.le H.ne_nil
      rcases Nat.eq_zero_or_pos i with rfl | hpos
      · exact absurd hopen.1 hbegins
      · rw [← List.append_nil name] at hopen
        exact absurd hopen (not_bmOpened_within hname [] hpos (by omega))

theorem bmAnswer_bmText (H : IsUserName userid) (hnames : ∀ name ∈ names, IsUserName name)
    (h : BmAnswer userid (bmText names) isBm) : isBm = bmFinds userid names := by
  induction names with
  | nil =>
    rcases h with ⟨-, hfalse⟩ | ⟨i, hopen, -, -⟩
    · exact hfalse
    · have hle := hopen.1.le H.ne_nil
      have hpos := List.length_pos_iff.mpr H.ne_nil
      simp only [bmText, joined_nil, List.length_nil] at hle
      omega
  | cons name names ih =>
    obtain ⟨hname, hnames⟩ := List.forall_mem_cons.mp hnames
    rcases eq_or_ne names [] with rfl | hne
    · rw [bmText, joined_singleton] at h
      exact h.single hname H
    · rw [bmText, joined_cons hne] at h
      rw [bmFinds]
      by_cases hbegins : Begins userid name
      · rw [if_pos hbegins, h.of_opened_zero ((bmOpened_start H).mpr hbegins)]
        exact bmCloses_start _ hname hbegins rfl
      · rw [if_neg hbegins]
        exact ih hnames (h.behind hname H hbegins)

/-- `check_bm` looks at the first name that begins with that of the user. -/
theorem checkBm_bmText (H : IsUserName userid) (hnames : ∀ name ∈ names, IsUserName name) :
    checkBm userid (bmText names) = some (bmFinds userid names) := by
  obtain ⟨isBm, hcheck, hanswer⟩ := checkBm_eq H.bmOpens H.ne_nil (bmText names)
  rw [hcheck, bmAnswer_bmText H hnames hanswer]

theorem bmFinds_eq (hcase : ∀ name ∈ names, userid.map tolower = name.map tolower → userid = name)
    (hfirst : names.Pairwise fun name later => ¬Begins later name) :
    bmFinds userid names = decide (userid ∈ names) := by
  induction names with
  | nil => rfl
  | cons name names ih =>
    obtain ⟨hname, hnames⟩ := List.forall_mem_cons.mp hcase
    obtain ⟨hbefore, hfirst⟩ := List.pairwise_cons.mp hfirst
    rw [bmFinds, ih hnames hfirst]
    by_cases hbegins : Begins userid name
    · rw [if_pos hbegins]
      have hlater : userid ∉ names := fun hmem => hbefore userid hmem hbegins
      rw [decide_eq_decide, List.mem_cons, or_iff_left hlater]
      constructor
      · intro hlen
        refine hname (List.IsPrefix.eq_of_length hbegins ?_)
        rw [List.length_map, List.length_map, hlen]
      · rintro rfl
        rfl
    · rw [if_neg hbegins, decide_eq_decide, List.mem_cons]
      refine (or_iff_right ?_).symm
      rintro rfl
      exact hbegins (begins_refl userid)

end

end ArgoBbs

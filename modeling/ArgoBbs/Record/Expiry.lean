import ArgoBbs.Lib.Dwindling
import ArgoBbs.Record.Expire

/-! # What expiry leaves

A run of `expire` (`util/expire.c`) that no other process disturbs, with the calls in it that may
fail. The total that decides about a record counts the records whose owner starts with `-` until
they are read; and the body of a record is unlinked before `.DIR` is replaced. -/

namespace ArgoBbs

/-- The calls of `expire`; `safewrite` of the record with a number. -/
structure ExpireCalls where
  lockOk : Bool
  openOk : Bool
  createOk : Bool
  writeOk : Nat → Bool
  renameOldOk : Bool
  renameNewOk : Bool

/-- A record and its number in `.DIR`. -/
abbrev NumberedPost := PostHeader × Nat

/-- The records written to `.DIR.new`, and the names of the files unlinked. -/
structure ExpireRun where
  done : Bool
  written : List NumberedPost
  unlinked : List Bytes

/-- What `.DIR` has when `expire` has returned, and the names of the files unlinked. -/
structure ExpireResult where
  dir : List NumberedPost
  unlinked : List Bytes
  deriving DecidableEq

namespace Life

/-- The loop of `expire` over the records. -/
def expireLoop (brd : Life) (duetime : Int) (writeOk : Nat → Bool) :
    Int → ExpireRun → List NumberedPost → ExpireRun
  | _, run, [] => run
  | total, run, (head, n) :: rest =>
    if brd.keeps duetime total head then
      if writeOk n then
        brd.expireLoop duetime writeOk total
          { run with done := true, written := run.written ++ [(head, n)] } rest
      else { run with done := false }
    else
      brd.expireLoop duetime writeOk (total - 1)
        { run with done := true, unlinked := run.unlinked ++ [head.filename] } rest

/-- The end of `expire`. Between the renames there is no `.DIR`. -/
def expireRenames (c : ExpireCalls) (index : List NumberedPost) (run : ExpireRun) : ExpireResult :=
  if run.done = false ∨ c.renameOldOk = false then ⟨index, run.unlinked⟩
  else if c.renameNewOk = false then ⟨[], run.unlinked⟩
  else ⟨run.written, run.unlinked⟩

/-- `expire`; nothing if the days in seconds or the number of records are not an `int`. -/
def expire (brd : Life) (c : ExpireCalls) (now : Int) (index : List NumberedPost) :
    Option ExpireResult :=
  if c.lockOk = false then some ⟨index, []⟩
  else if ¬IsCInt (brd.days * 24 * 60 * 60) then none
  else if c.openOk = false then some ⟨index, []⟩
  else if ¬IsCInt index.length then none
  else if c.createOk = false then some ⟨index, []⟩
  else some (expireRenames c index
    (brd.expireLoop (brd.duetime now) c.writeOk index.length ⟨false, [], []⟩ index))

end Life

/-- Its owner starts with `-`. -/
def PostHeader.dashed (head : PostHeader) : Bool := head.owner.head? = some 45

/-- What the rules allow while `left` records are left: the owner starts with `-`, or the post is not
marked and is older than the limit or one of too many. -/
def Life.MayRemove (brd : Life) (now left : Int) (head : PostHeader) : Prop :=
  head.dashed = true ∨ (head.has fileMarked = false ∧
    (head.filetime < now - brd.days * 24 * 60 * 60 ∨ brd.maxp < left))

/-- What `expire` is to leave of the records. -/
structure ExpiresRight (brd : Life) (now : Int) (index : List NumberedPost) (r : ExpireResult) :
    Prop where
  order : r.dir.Sublist index
  marked : ∀ x ∈ index, x.1.dashed = false → x.1.has fileMarked = true → x ∈ r.dir
  removed : ∀ pre x post, index = pre ++ x :: post → x ∉ r.dir →
    brd.MayRemove now (pre.countP (· ∈ r.dir) + (x :: post).length) x.1
  atLeast : min brd.minp (index.countP (!·.1.dashed)) ≤ r.dir.length
  atMost : max brd.maxp brd.minp < r.dir.length → ∀ x ∈ r.dir, x.1.has fileMarked = true
  bodies : ∀ x ∈ index, x.1.filename ∈ r.unlinked ↔ x ∉ r.dir

section
variable (brd : Life) (c : ExpireCalls) (now : Int)

open Dwindling

def Life.rule (total : Int) (x : NumberedPost) : Bool := brd.keeps (brd.duetime now) total x.1

/-- Nothing has to be removed. -/
def NothingDue (index : List NumberedPost) : Prop :=
  index.length ≤ max brd.maxp brd.minp ∨ ∀ x ∈ index, x.1.has fileMarked = true

/-- All may be removed, and have the file names of some that are. -/
def AllDue (index : List NumberedPost) : Prop :=
  (brd.minp ≤ 0 ∨ ∀ x ∈ index, x.1.dashed = true) ∧
  (∀ pre x post, index = pre ++ x :: post → brd.MayRemove now (x :: post).length x.1) ∧
  ∀ x ∈ index, ∃ y ∈ removed (brd.rule now) index.length index, y.1.filename = x.1.filename

/-- The condition on the rules. A record whose owner does not start with `-` is removed only while
there are more than `minp` of them; and its time, cut to an `int`, is not taken for an earlier one,
or there are too many. -/
def RemovesFine : Int → Int → List NumberedPost → Prop
  | _, _, [] => True
  | total, left, x :: rest =>
    if brd.rule now total x then RemovesFine total left rest
    else if x.1.dashed then RemovesFine (total - 1) left rest
    else brd.minp < left ∧ brd.MayRemove now total x.1 ∧ RemovesFine (total - 1) (left - 1) rest

/-- No record that is removed has the file name of one that is kept. -/
def NamesApart (index : List NumberedPost) : Prop :=
  ∀ x ∈ kept (brd.rule now) index.length index,
    ∀ y ∈ removed (brd.rule now) index.length index, y.1.filename ≠ x.1.filename

/-- The condition. A write fails only before the first record that is not kept; a rename only if
nothing is to be removed, or if everything is. -/
def ExpireFine (index : List NumberedPost) : Prop :=
  if c.lockOk = false then NothingDue brd index
  else IsCInt (brd.days * 24 * 60 * 60) ∧
    if c.openOk = false then NothingDue brd index
    else IsCInt index.length ∧
      if c.createOk = false then NothingDue brd index
      else if ∃ x ∈ kept (brd.rule now) index.length index, c.writeOk x.2 = false then
        NothingDue brd index ∧
          ∃ x ∈ index.takeWhile (brd.rule now index.length), c.writeOk x.2 = false
      else if c.renameOldOk = false then
        NothingDue brd index ∧ ∀ x ∈ index, brd.rule now index.length x = true
      else if c.renameNewOk = false then AllDue brd now index
      else NamesApart brd now index ∧
        RemovesFine brd now index.length (index.countP (!·.1.dashed)) index

end

/-! ## The loop -/

namespace Life
variable {brd : Life} {now total left : Int} {writeOk : Nat → Bool} {run : ExpireRun}
  {x : NumberedPost} {l : List NumberedPost}

open Dwindling

theorem expireLoop_of_removed (h : brd.rule now total x = false) :
    brd.expireLoop (brd.duetime now) writeOk total run (x :: l) =
      brd.expireLoop (brd.duetime now) writeOk (total - 1)
        { run with done := true, unlinked := run.unlinked ++ [x.1.filename] } l :=
  if_neg (Bool.eq_false_iff.mp h)

theorem expireLoop_of_written (h : brd.rule now total x = true) (hok : writeOk x.2 = true) :
    brd.expireLoop (brd.duetime now) writeOk total run (x :: l) =
      brd.expireLoop (brd.duetime now) writeOk total
        { run with done := true, written := run.written ++ [x] } l :=
  (if_pos h).trans (if_pos hok)

theorem expireLoop_of_failed (h : brd.rule now total x = true) (hok : writeOk x.2 = false) :
    brd.expireLoop (brd.duetime now) writeOk total run (x :: l) = { run with done := false } :=
  (if_pos h).trans (if_neg (Bool.eq_false_iff.mp hok))

/-- All records kept are written. -/
theorem expireLoop_ok (h : ∀ x ∈ kept (brd.rule now) total l, writeOk x.2 = true) :
    brd.expireLoop (brd.duetime now) writeOk total run l =
      ⟨run.done || !l.isEmpty, run.written ++ kept (brd.rule now) total l,
        run.unlinked ++ (removed (brd.rule now) total l).map (·.1.filename)⟩ := by
  induction l generalizing total run with
  | nil => simp [expireLoop]
  | cons x l ih =>
    cases hx : brd.rule now total x with
    | true =>
      rw [kept_cons_of_pos hx] at h ⊢
      obtain ⟨hok, h⟩ := List.forall_mem_cons.mp h
      rw [expireLoop_of_written hx hok, ih h, removed_cons_of_pos hx]
      simp
    | false =>
      rw [kept_cons_of_neg hx] at h ⊢
      rw [expireLoop_of_removed hx, ih h, removed_cons_of_neg hx]
      simp

theorem expireLoop_unlinked : run.unlinked ⊆
    (brd.expireLoop (brd.duetime now) writeOk total run l).unlinked := by
  induction l generalizing total run with
  | nil => exact List.Subset.refl _
  | cons x l ih =>
    cases hx : brd.rule now total x with
    | false =>
      rw [expireLoop_of_removed hx]
      exact fun name hname => ih (List.mem_append_left _ hname)
    | true =>
      cases hok : writeOk x.2 with
      | true => rw [expireLoop_of_written hx hok]; exact fun name hname => ih hname
      | false => rw [expireLoop_of_failed hx hok]; exact List.Subset.refl _

/-- A write fails before anything is removed. -/
theorem expireLoop_early (h : ∃ x ∈ l.takeWhile (brd.rule now total), writeOk x.2 = false) :
    (brd.expireLoop (brd.duetime now) writeOk total run l).done = false ∧
      (brd.expireLoop (brd.duetime now) writeOk total run l).unlinked = run.unlinked := by
  induction l generalizing run with
  | nil => simp at h
  | cons x l ih =>
    cases hx : brd.rule now total x with
    | false => simp [hx] at h
    | true =>
      rw [List.takeWhile_cons_of_pos hx, List.exists_mem_cons_iff] at h
      cases hok : writeOk x.2 with
      | false => rw [expireLoop_of_failed hx hok]; exact ⟨rfl, rfl⟩
      | true =>
        rw [expireLoop_of_written hx hok]
        exact ih (h.resolve_left (ne_false_of_eq_true hok))

/-- A write fails. -/
theorem expireLoop_failed (h : ∃ x ∈ kept (brd.rule now) total l, writeOk x.2 = false) :
    (brd.expireLoop (brd.duetime now) writeOk total run l).done = false := by
  induction l generalizing total run with
  | nil => simp at h
  | cons x l ih =>
    cases hx : brd.rule now total x with
    | false =>
      rw [kept_cons_of_neg hx] at h
      rw [expireLoop_of_removed hx]
      exact ih h
    | true =>
      rw [kept_cons_of_pos hx, List.exists_mem_cons_iff] at h
      cases hok : writeOk x.2 with
      | false => rw [expireLoop_of_failed hx hok]
      | true =>
        rw [expireLoop_of_written hx hok]
        exact ih (h.resolve_left (ne_false_of_eq_true hok))

/-- A record is removed before the first write that fails. -/
theorem expireLoop_late (h : ∃ x ∈ kept (brd.rule now) total l, writeOk x.2 = false)
    (hearly : ¬∃ x ∈ l.takeWhile (brd.rule now total), writeOk x.2 = false) :
    ∃ x ∈ l, x.1.filename ∈ (brd.expireLoop (brd.duetime now) writeOk total run l).unlinked := by
  induction l generalizing run with
  | nil => simp at h
  | cons x l ih =>
    cases hx : brd.rule now total x with
    | false =>
      rw [expireLoop_of_removed hx]
      exact ⟨x, List.mem_cons_self, expireLoop_unlinked (List.mem_append_right _ (.head _))⟩
    | true =>
      rw [List.takeWhile_cons_of_pos hx, List.exists_mem_cons_iff, not_or] at hearly
      obtain ⟨hok, hearly⟩ := hearly
      rw [kept_cons_of_pos hx, List.exists_mem_cons_iff, or_iff_right hok] at h
      rw [expireLoop_of_written hx (Bool.not_eq_false _ ▸ hok)]
      obtain ⟨y, hy, hname⟩ := ih h hearly
      exact ⟨y, List.mem_cons_of_mem _ hy, hname⟩

/-! ## The rules -/

theorem rule_of_dashed (h : x.1.dashed = true) : brd.rule now total x = false :=
  if_pos (of_decide_eq_true h)

theorem rule_of_marked (h : x.1.dashed = false) (hmarked : x.1.has fileMarked = true) :
    brd.rule now total x = true :=
  (if_neg (of_decide_eq_false h)).trans (if_pos (.inl hmarked))

/-- Another record is kept only if there are no more than the rules ask for. -/
theorem le_of_rule (h : brd.rule now total x = true) (hmarked : ¬x.1.has fileMarked = true) :
    total ≤ max brd.maxp brd.minp := by
  unfold rule keeps at h
  split at h
  · cases h
  · split at h
    case isTrue hfew => exact (hfew.resolve_left hmarked).trans (Int.le_max_right ..)
    case isFalse =>
      split at h
      · cases h
      case isFalse hmany =>
        exact (Int.not_lt.mp (not_or.mp hmany).2).trans (Int.le_max_left ..)

/-- The records of the result are no more than the rules ask for, or marked. -/
theorem marked_of_mem_kept (hlt : max brd.maxp brd.minp <
      (kept (brd.rule now) l.length l).length) (hx : x ∈ kept (brd.rule now) l.length l) :
    x.1.has fileMarked = true := by
  obtain ⟨t, hle, -, ht⟩ := exists_of_mem_kept hx
  have hlength := length_kept_add_length_removed (brd.rule now) l.length l
  by_contra hmarked
  have htotal := le_of_rule ht hmarked
  omega

/-- The condition on the rules says what it is about: each removal is one that the rules allow, and
the minimum is left. -/
theorem removesFine_iff : RemovesFine brd now total left l ↔
    (∀ pre x post, l = pre ++ x :: post →
      brd.rule now (total - (removed (brd.rule now) total pre).length) x = false →
        brd.MayRemove now (total - (removed (brd.rule now) total pre).length) x.1) ∧
    ((∀ x ∈ removed (brd.rule now) total l, x.1.dashed = true) ∨
      brd.minp ≤ left - (removed (brd.rule now) total l).countP (!·.1.dashed)) := by
  induction l generalizing total left with
  | nil => simp [RemovesFine]
  | cons x l ih =>
    rw [RemovesFine, forall_place_cons]
    dsimp only [removed_nil, List.length_nil]
    rw [Int.natCast_zero, Int.sub_zero]
    cases hx : brd.rule now total x with
    | true =>
      rw [if_pos rfl, ih]
      simp only [removed_cons_of_pos hx, Bool.true_eq_false, false_imp_iff, true_and]
    | false =>
      have hcast (n : Nat) : total - ((n + 1 : Nat) : Int) = total - 1 - n := by omega
      simp only [removed_cons_of_neg hx, List.length_cons, hcast, List.forall_mem_cons, true_imp_iff,
        Bool.false_eq_true, if_false]
      cases hdashed : x.1.dashed with
      | true =>
        rw [if_pos rfl, ih, List.countP_cons_of_neg (by simp [hdashed])]
        simp [MayRemove, hdashed]
      | false =>
        rw [if_neg Bool.false_ne_true, ih, List.countP_cons_of_pos (by simp [hdashed])]
        have hnone : (∀ y ∈ removed (brd.rule now) (total - 1) l, y.1.dashed = true) ↔
            (removed (brd.rule now) (total - 1) l).countP (!·.1.dashed) = 0 := by
          simp [List.countP_eq_zero]
        rw [hnone, Bool.false_eq_true, false_and, false_or]
        constructor
        · rintro ⟨hleft, hmay, hrest, hmin⟩
          exact ⟨⟨hmay, hrest⟩, by omega⟩
        · rintro ⟨⟨hmay, hrest⟩, hmin⟩
          exact ⟨by omega, hmay, hrest, by omega⟩

end Life

/-! ## What is left -/

section
variable {brd : Life} {c : ExpireCalls} {now : Int} {index : List NumberedPost}

open Dwindling

/-- `.DIR` has not been replaced. -/
theorem expiresRight_index (unlinked : List Bytes) : ExpiresRight brd now index ⟨index, unlinked⟩ ↔
    NothingDue brd index ∧ ∀ x ∈ index, x.1.filename ∉ unlinked := by
  constructor
  · intro h
    refine ⟨?_, fun x hx hname => (h.bodies x hx).mp hname hx⟩
    by_cases hfew : (index.length : Int) ≤ max brd.maxp brd.minp
    · exact .inl hfew
    · exact .inr (h.atMost (Int.not_le.mp hfew))
  · rintro ⟨hdue, hnames⟩
    exact {
      order := .refl _
      marked := fun x hx _ _ => hx
      removed := fun pre x post hindex hx => absurd (by rw [hindex]; simp) hx
      atLeast := by
        have hle := List.countP_le_length (p := fun x : NumberedPost => !x.1.dashed) (l := index)
        dsimp only
        omega
      atMost := fun hlt => hdue.resolve_left (Int.not_le.mpr hlt)
      bodies := fun x hx => iff_of_false (hnames x hx) (not_not_intro hx) }

/-- `.DIR` is gone. -/
theorem expiresRight_nil : ExpiresRight brd now index
    ⟨[], (removed (brd.rule now) index.length index).map (·.1.filename)⟩ ↔ AllDue brd now index := by
  have hnone : (∀ x ∈ index, x.1.dashed = true) ↔ index.countP (!·.1.dashed) = 0 := by
    simp [List.countP_eq_zero]
  constructor
  · intro h
    have hleast := h.atLeast
    refine ⟨?_, fun pre x post hindex => ?_, fun x hx => ?_⟩
    · rw [hnone]
      dsimp only [List.length_nil] at hleast
      omega
    · have hmay := h.removed pre x post hindex List.not_mem_nil
      simpa using hmay
    · exact List.mem_map.mp ((h.bodies x hx).mpr List.not_mem_nil)
  · rintro ⟨hmin, hmay, hnames⟩
    exact {
      order := List.nil_sublist _
      marked := fun x hx hdashed hmarked => by
        obtain ⟨pre, post, hindex⟩ := List.append_of_mem hx
        obtain h | ⟨h, -⟩ := hmay pre x post hindex
        · rw [hdashed] at h
          cases h
        · rw [hmarked] at h
          cases h
      removed := fun pre x post hindex _ => by simpa using hmay pre x post hindex
      atLeast := by
        rw [hnone] at hmin
        dsimp only [List.length_nil]
        omega
      atMost := fun _ => List.forall_mem_nil _
      bodies := fun x hx => iff_of_true (List.mem_map.mpr (hnames x hx)) List.not_mem_nil }

/-- How many records were left when one was looked at. -/
theorem left_eq (hnodup : index.Nodup) {pre post : List NumberedPost} {x : NumberedPost}
    (hindex : index = pre ++ x :: post) :
    (index.length : Int) - (removed (brd.rule now) index.length pre).length =
      pre.countP (· ∈ kept (brd.rule now) index.length index) + (x :: post).length := by
  have hlength := length_kept_add_length_removed (brd.rule now) index.length pre
  have hindexLength := congrArg List.length hindex
  rw [countP_mem_kept hnodup hindex]
  rw [List.length_append] at hindexLength
  omega

/-- Those not kept whose owners start with `-` are all of them. -/
theorem length_kept (brd : Life) (now : Int) (index : List NumberedPost) :
    (kept (brd.rule now) index.length index).length +
      (removed (brd.rule now) index.length index).countP (!·.1.dashed) =
        index.countP (!·.1.dashed) := by
  have hkept : ∀ x ∈ kept (brd.rule now) index.length index, (!x.1.dashed) = true := by
    intro x hx
    obtain ⟨t, -, -, ht⟩ := exists_of_mem_kept hx
    cases hdashed : x.1.dashed with
    | false => rfl
    | true =>
      rw [Life.rule_of_dashed hdashed] at ht
      cases ht
  rw [← (perm (brd.rule now) index.length index).countP_eq, List.countP_append,
    List.countP_eq_length.mpr hkept]

/-- `.DIR` has been replaced. -/
theorem expiresRight_kept (hnodup : index.Nodup) : ExpiresRight brd now index
      ⟨kept (brd.rule now) index.length index,
        (removed (brd.rule now) index.length index).map (·.1.filename)⟩ ↔
    NamesApart brd now index ∧
      RemovesFine brd now index.length (index.countP (!·.1.dashed)) index := by
  have hcount := length_kept brd now index
  have hnone : (∀ x ∈ removed (brd.rule now) index.length index, x.1.dashed = true) ↔
      (removed (brd.rule now) index.length index).countP (!·.1.dashed) = 0 := by
    simp [List.countP_eq_zero]
  rw [Life.removesFine_iff, hnone]
  constructor
  · intro h
    have hleast := h.atLeast
    refine ⟨fun x hx y hy hname => ?_, fun pre x post hindex hrule => ?_, ?_⟩
    · exact (h.bodies x (kept_sublist.subset hx)).mp (List.mem_map.mpr ⟨y, hy, hname⟩) hx
    · rw [left_eq hnodup hindex]
      refine h.removed pre x post hindex fun hx => ?_
      rw [(mem_kept_iff hnodup hindex).mp hx] at hrule
      cases hrule
    · dsimp only at hleast
      omega
  · rintro ⟨hnames, hmay, hmin⟩
    exact {
      order := kept_sublist
      marked := fun x hx hdashed hmarked =>
        mem_kept_of_forall hx fun total => Life.rule_of_marked hdashed hmarked
      removed := fun pre x post hindex hx => by
        rw [← left_eq hnodup hindex]
        rw [mem_kept_iff hnodup hindex, Bool.not_eq_true] at hx
        exact hmay pre x post hindex hx
      atLeast := by
        dsimp only
        omega
      atMost := fun hlt x hx => Life.marked_of_mem_kept hlt hx
      bodies := fun x hx => by
        rw [← mem_removed_iff hnodup hx, List.mem_map]
        constructor
        · rintro ⟨y, hy, hname⟩
          rw [mem_removed_iff hnodup hx]
          exact fun hkept => hnames x hkept y hy hname
        · exact fun hremoved => ⟨x, hremoved, rfl⟩ }

/-- What follows the loop, when all records kept have been written. -/
theorem expiresRight_of_written (hnodup : index.Nodup)
    (hok : ∀ x ∈ kept (brd.rule now) index.length index, c.writeOk x.2 = true) :
    ExpiresRight brd now index (Life.expireRenames c index
        (brd.expireLoop (brd.duetime now) c.writeOk index.length ⟨false, [], []⟩ index)) ↔
      if c.renameOldOk = false then
        NothingDue brd index ∧ ∀ x ∈ index, brd.rule now index.length x = true
      else if c.renameNewOk = false then AllDue brd now index
      else NamesApart brd now index ∧
        RemovesFine brd now index.length (index.countP (!·.1.dashed)) index := by
  rw [Life.expireLoop_ok hok, Life.expireRenames, List.nil_append, List.nil_append, Bool.false_or]
  by_cases hempty : index = []
  · subst hempty
    rw [if_pos (.inl rfl)]
    refine iff_of_true ((expiresRight_index _).mpr ⟨.inr ?_, ?_⟩) ?_
    · exact List.forall_mem_nil _
    · exact List.forall_mem_nil _
    · simp [NothingDue, AllDue, NamesApart, RemovesFine]
  · rw [List.isEmpty_eq_false_iff.mpr hempty]
    dsimp only [Bool.not_false]
    by_cases hold : c.renameOldOk = false
    · rw [if_pos (.inr hold), if_pos hold, expiresRight_index, ← removed_eq_nil_iff]
      refine and_congr_right fun _ => ⟨fun h => ?_, fun h => ?_⟩
      · rw [List.eq_nil_iff_forall_not_mem]
        intro x hx
        have hmem : x ∈ index := (perm _ _ _).mem_iff.mp (List.mem_append_right _ hx)
        exact h x hmem (List.mem_map.mpr ⟨x, hx, rfl⟩)
      · rw [h]
        exact fun x _ => List.not_mem_nil
    · rw [if_neg (not_or.mpr ⟨by simp, hold⟩), if_neg hold]
      by_cases hnew : c.renameNewOk = false
      · rw [if_pos hnew, if_pos hnew, expiresRight_nil]
      · rw [if_neg hnew, if_neg hnew, expiresRight_kept hnodup]

/-- What follows the loop, when a record could not be written. -/
theorem expiresRight_of_failed
    (hfail : ∃ x ∈ kept (brd.rule now) index.length index, c.writeOk x.2 = false) :
    ExpiresRight brd now index (Life.expireRenames c index
        (brd.expireLoop (brd.duetime now) c.writeOk index.length ⟨false, [], []⟩ index)) ↔
      NothingDue brd index ∧
        ∃ x ∈ index.takeWhile (brd.rule now index.length), c.writeOk x.2 = false := by
  rw [Life.expireRenames, if_pos (.inl (Life.expireLoop_failed hfail)), expiresRight_index]
  refine and_congr_right fun _ => ?_
  by_cases hearly : ∃ x ∈ index.takeWhile (brd.rule now index.length), c.writeOk x.2 = false
  · rw [(Life.expireLoop_early hearly).2]
    exact iff_of_true (fun x _ => List.not_mem_nil) hearly
  · obtain ⟨x, hx, hname⟩ := Life.expireLoop_late hfail hearly
    exact iff_of_false (fun h => h x hx hname) hearly

end

end ArgoBbs

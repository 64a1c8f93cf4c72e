import ArgoBbs.Board.Thread

/-! # The marks of a thread list

A list that is sorted by `cmp_aid` has the headers of one thread side by side, so the neighbours of
a header say whether others of its thread stand before and behind it (`threadMark_of_sorted`). The
thread 0 is no thread; but `mark_thread` asks for it in the loop only, and not at the last header.
-/

namespace ArgoBbs

namespace ThreadHeader

/-- All of the header but what `mark_thread` writes. -/
def unmarked (hdr : ThreadHeader) : ThreadHeader := { hdr with mark := threadBegin }

theorem unmarked_mark (hdr : ThreadHeader) (mark : UInt8) :
    { hdr with mark := mark }.unmarked = hdr.unmarked := rfl

theorem id_le_of_cmpAid_le {hdr1 hdr2 : ThreadHeader} (h : hdr1.cmpAid hdr2 ≤ 0) :
    hdr1.id ≤ hdr2.id := by
  rcases cmpAid_le_iff.mp h with hlt | ⟨heq, -⟩
  · exact BitVec.le_of_lt hlt
  · exact heq ▸ BitVec.le_refl _

end ThreadHeader

/-- `tdir` is what the thread list of `dir` is meant to be. -/
structure MarkedThreads (dir tdir : List ThreadHeader) : Prop where
  sorted : ∃ sorted : List ThreadHeader, sorted.Perm dir ∧
    sorted.Pairwise (fun hdr1 hdr2 => hdr1.cmpAid hdr2 ≤ 0) ∧
    tdir.map (·.unmarked) = sorted.map (·.unmarked)
  noThread : ∀ hdr ∈ tdir, hdr.id = 0 → hdr.mark = threadBegin
  first : ∀ before hdr behind, tdir = before ++ hdr :: behind → hdr.id ≠ 0 →
    (∀ other ∈ before, other.id ≠ hdr.id) → hdr.mark = threadBegin
  last : ∀ before hdr behind, tdir = before ++ hdr :: behind → hdr.id ≠ 0 →
    (∃ other ∈ before, other.id = hdr.id) → (∀ other ∈ behind, other.id ≠ hdr.id) →
      hdr.mark = threadEnd
  between : ∀ before hdr behind, tdir = before ++ hdr :: behind → hdr.id ≠ 0 →
    (∃ other ∈ before, other.id = hdr.id) → (∃ other ∈ behind, other.id = hdr.id) →
      hdr.mark = threadOther

variable {before behind sorted dir tdir : List ThreadHeader} {hdr : ThreadHeader}

theorem getD_before (before behind : List ThreadHeader) (prev hdr : ThreadHeader) :
    (before ++ [prev] ++ hdr :: behind).getD before.length .zero = prev := by simp

theorem getD_here (before behind : List ThreadHeader) (hdr : ThreadHeader) :
    (before ++ hdr :: behind).getD before.length .zero = hdr := by simp

theorem getD_behind (before behind : List ThreadHeader) (hdr next : ThreadHeader) :
    (before ++ hdr :: next :: behind).getD (before.length + 1) .zero = next := by
  simp

/-- In a sorted list the last header before `hdr` is in its thread if any is. -/
theorem last_before_iff {prev : ThreadHeader}
    (h : (before ++ [prev] ++ hdr :: behind).Pairwise fun hdr1 hdr2 => hdr1.cmpAid hdr2 ≤ 0) :
    (∃ other ∈ before ++ [prev], other.id = hdr.id) ↔ prev.id = hdr.id := by
  obtain ⟨hbefore, -, hhdr⟩ := List.pairwise_append.mp h
  refine ⟨fun ⟨other, hmem, hid⟩ => ?_, fun hid => ⟨prev, by simp, hid⟩⟩
  have hle := ThreadHeader.id_le_of_cmpAid_le (hhdr prev (by simp) hdr (by simp))
  rcases List.mem_append.mp hmem with hmem | hmem
  · obtain ⟨-, -, hprev⟩ := List.pairwise_append.mp hbefore
    have hle' := ThreadHeader.id_le_of_cmpAid_le (hprev other hmem prev (by simp))
    exact BitVec.le_antisymm hle (hid ▸ hle')
  · exact List.mem_singleton.mp hmem ▸ hid

/-- In a sorted list the first header behind `hdr` is in its thread if any is. -/
theorem first_behind_iff {next : ThreadHeader}
    (h : (before ++ hdr :: next :: behind).Pairwise fun hdr1 hdr2 => hdr1.cmpAid hdr2 ≤ 0) :
    (∃ other ∈ next :: behind, other.id = hdr.id) ↔ next.id = hdr.id := by
  obtain ⟨-, hhdr, -⟩ := List.pairwise_append.mp h
  obtain ⟨hhdr, hnext⟩ := List.pairwise_cons.mp hhdr
  refine ⟨fun ⟨other, hmem, hid⟩ => ?_, fun hid => ⟨next, by simp, hid⟩⟩
  have hle := ThreadHeader.id_le_of_cmpAid_le (hhdr next (by simp))
  rcases List.mem_cons.mp hmem with rfl | hmem
  · exact hid
  · have hle' := ThreadHeader.id_le_of_cmpAid_le ((List.pairwise_cons.mp hnext).1 other hmem)
    exact BitVec.le_antisymm (hid ▸ hle') hle

/-- What `mark_thread` writes to a header says which of its thread there are; the thread 0 counts
as a thread at the last header only. -/
theorem threadMark_of_sorted
    (h : (before ++ hdr :: behind).Pairwise fun hdr1 hdr2 => hdr1.cmpAid hdr2 ≤ 0) :
    threadMark (before ++ hdr :: behind) before.length =
      if (∃ other ∈ before, other.id = hdr.id) ∧ (hdr.id ≠ 0 ∨ behind = []) then
        if ∃ other ∈ behind, other.id = hdr.id then threadOther else threadEnd
      else threadBegin := by
  rcases List.eq_nil_or_concat' before with rfl | ⟨before, prev, rfl⟩
  · simp [threadMark]
  have hprev := last_before_iff h
  have hne : (before ++ [prev]).length ≠ 0 := by simp
  have hsub : (before ++ [prev]).length - 1 = before.length := by simp
  unfold threadMark
  simp only [hne, if_false, getD_here (before ++ [prev]), hsub, getD_before, hprev]
  cases behind with
  | nil =>
    have hend : ¬(before ++ [prev]).length < (before ++ [prev] ++ [hdr]).length - 1 := by simp
    simp only [hend, if_false, List.not_mem_nil, false_and, exists_false, or_true, and_true]
  | cons next behind =>
    have hlt : (before ++ [prev]).length <
        (before ++ [prev] ++ hdr :: next :: behind).length - 1 := by simp
    have hnext := first_behind_iff h
    simp only [hlt, if_true, getD_behind (before ++ [prev]), hnext, reduceCtorEq, or_false,
      eq_comm (a := next.id)]

theorem map_unmarked_markThread (sorted : List ThreadHeader) :
    (markThread sorted).map (·.unmarked) = sorted.map (·.unmarked) := by
  unfold markThread
  apply List.ext_getElem
  · simp
  · intro i hi hi'
    simp only [List.getElem_map, List.getElem_mapIdx, ThreadHeader.unmarked_mark]

theorem exists_id_iff {l l' : List ThreadHeader} (h : l.map (·.id) = l'.map (·.id))
    (id : BitVec 32) : (∃ other ∈ l, other.id = id) ↔ ∃ other ∈ l', other.id = id := by
  have hmem := congrArg (id ∈ ·) h
  simpa only [List.mem_map, eq_iff_iff] using hmem

theorem map_id_mapIdx (l : List ThreadHeader) (mark : Nat → UInt8) :
    (l.mapIdx fun i hdr => { hdr with mark := mark i }).map (·.id) = l.map (·.id) := by
  apply List.ext_getElem
  · simp
  · intro i hi hi'
    simp only [List.getElem_map, List.getElem_mapIdx]

/-- The mark of a header in the list that `mark_thread` makes of a sorted one. -/
theorem mark_of_sorted (h : sorted.Pairwise fun hdr1 hdr2 => hdr1.cmpAid hdr2 ≤ 0)
    (happend : markThread sorted = before ++ hdr :: behind) :
    hdr.mark = if (∃ other ∈ before, other.id = hdr.id) ∧ (hdr.id ≠ 0 ∨ behind = []) then
        if ∃ other ∈ behind, other.id = hdr.id then threadOther else threadEnd
      else threadBegin := by
  obtain ⟨before', rest, rfl, rfl, hrest⟩ := List.mapIdx_eq_append_iff.mp happend
  obtain ⟨hdr', behind', rfl, rfl, rfl⟩ := List.mapIdx_eq_cons_iff.mp hrest
  have hmark := threadMark_of_sorted h
  have hid := exists_id_iff (map_id_mapIdx before' fun i =>
    threadMark (before' ++ hdr' :: behind') i)
  have hid' := exists_id_iff (map_id_mapIdx behind' fun i =>
    threadMark (before' ++ hdr' :: behind') (i + 1 + before'.length))
  simp only [Nat.zero_add, hmark]
  rw [if_congr (and_congr (hid _).symm (or_congr Iff.rfl List.mapIdx_eq_nil_iff.symm))
    (if_congr (hid' _).symm rfl rfl) rfl]

theorem map_id_markThread (sorted : List ThreadHeader) :
    (markThread sorted).map (·.id) = sorted.map (·.id) := map_id_mapIdx ..

/-- If the last header of the list is of the thread 0, then so are all. -/
theorem all_zero_of_last (hperm : sorted.Perm dir)
    (h : sorted.Pairwise fun hdr1 hdr2 => hdr1.cmpAid hdr2 ≤ 0)
    (happend : markThread sorted = before ++ [hdr]) (hzero : hdr.id = 0) :
    ∀ hdr ∈ dir, hdr.id = 0 := by
  intro other hother
  have hids : (sorted.map (·.id)).Pairwise (· ≤ ·) :=
    List.pairwise_map.mpr (h.imp ThreadHeader.id_le_of_cmpAid_le)
  rw [← map_id_markThread, happend, List.map_append, List.pairwise_append] at hids
  have hmem : other.id ∈ (before ++ [hdr]).map (·.id) := by
    rw [← happend, map_id_markThread]
    exact List.mem_map_of_mem (hperm.mem_iff.mpr hother)
  rw [List.map_append, List.mem_append] at hmem
  rcases hmem with hmem | hmem
  · have hle := hids.2.2 _ hmem hdr.id (by simp)
    rw [hzero] at hle
    exact BitVec.le_antisymm hle (BitVec.le_def.mpr (Nat.zero_le _))
  · simpa [hzero] using hmem

/-- A post, a thread of three, and a header without a thread. -/
def demoThreads : List ThreadHeader :=
  [⟨⟨[77, 1], 10⟩, 10, 0, []⟩, ⟨⟨[77, 2], 11⟩, 11, 0, []⟩, ⟨⟨[77, 3], 12⟩, 11, 0, []⟩,
    ⟨⟨[77, 4], 13⟩, 11, 0, []⟩, ⟨⟨[77, 5], 14⟩, 0, 0, []⟩]

/-- Two headers without a thread are all of `.DIR`. -/
def noThreadDir : List ThreadHeader := [⟨⟨[77, 1], 10⟩, 0, 0, []⟩, ⟨⟨[77, 2], 11⟩, 0, 0, []⟩]

end ArgoBbs

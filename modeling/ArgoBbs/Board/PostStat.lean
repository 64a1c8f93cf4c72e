import ArgoBbs.Lib.CString
import ArgoBbs.Lib.Cells
import ArgoBbs.Lib.Loop
import Mathlib.Data.List.Pairwise

/-! # The articles of a user

`poststat` halves the directory of a board, which is in the order of the times, until it comes to
the limit, and lists the articles of the owner from the record looked at last on; the file is read
on from behind that record (`bm.c`). -/

namespace ArgoBbs

/-- An entry of `.DIR`, as far as `poststat` reads it. -/
structure StatHeader where
  owner : Bytes
  title : Bytes
  filetime : Int
  deriving DecidableEq

/-- What is printed: the name of the board, or an article with its number and time. -/
inductive StatLine
  | board (name : Bytes)
  | post (number filetime : Int) (title : Bytes)
  deriving DecidableEq

/-- The variables of the search; nothing is in `header` at the start. The offset of the file is
counted in records. -/
structure StatSearch where
  low : Int
  high : Int
  header : Option StatHeader
  offset : Int

namespace StatSearch

/-- The loop condition and one turn. Where a record cannot be read `poststat` returns. -/
def turn (dt : Int) (dir : List StatHeader) (s : StatSearch) :
    Option (StatSearch ⊕ Option StatSearch) :=
  if s.low ≤ s.high then
    let mid := (s.low + s.high) / 2
    match cell dir mid with
    | none => some (.inr none)
    | some header =>
      let s := { s with header := some header, offset := mid + 1 }
      if dt > header.filetime then some (.inl { s with low := mid + 1 })
      else if dt < header.filetime then some (.inl { s with high := mid - 1 })
      else some (.inr (some s))
  else some (.inr (some s))

def start (dir : List StatHeader) : StatSearch := ⟨0, dir.length - 1, none, 0⟩

def run (dt : Int) (dir : List StatHeader) : Option (Option StatSearch) :=
  loop (turn dt dir) (dir.length + 1) (start dir)

end StatSearch

def statMatch (owner : Bytes) (dt : Int) (header : StatHeader) : Bool :=
  header.owner = owner && dt < header.filetime

/-- The second loop, over the records that are read, with `stated` and `post_count`. -/
def statScan (board owner : Bytes) (dt : Int) (stated : Bool) (postCount : Int) :
    List StatHeader → List StatLine × Int
  | [] => ([], postCount)
  | header :: headers =>
    if statMatch owner dt header then
      let (lines, n) := statScan board owner dt true (postCount + 1) headers
      ((if stated then [] else [.board board]) ++
        .post (postCount + 1) header.filetime header.title :: lines, n)
    else statScan board owner dt stated postCount headers

/-- `poststat` of a directory that can be read: what is printed, and `post_count`. It fails where it
looks at a header that has not been read. -/
def poststat (board owner : Bytes) (now days postCount : Int) (dir : List StatHeader) :
    Option (List StatLine × Int) := do
  let dt := now - 86400 * days
  match ← StatSearch.run dt dir with
  | none => some ([], postCount)
  | some s => do
    let header ← s.header
    some (statScan board owner dt false postCount (header :: dir.drop s.offset.toNat))

/-- The list of some articles: numbered in their order, under the name of the board. -/
def statList (board : Bytes) (postCount : Int) (posts : List StatHeader) : List StatLine × Int :=
  ((if posts.isEmpty then [] else [.board board]) ++
    posts.mapIdx fun i h => .post (postCount + i + 1) h.filetime h.title, postCount + posts.length)

/-! ## The search -/

section
variable {dt : Int} {dir : List StatHeader} {header : StatHeader}

/-- Nothing in front of the place is newer than the limit. -/
def NoneBefore (dt : Int) (dir : List StatHeader) (i : Nat) : Prop :=
  ∀ j < i, ∀ h, dir[j]? = some h → h.filetime ≤ dt

/-- The header is the record in front of the offset, and the place of it is in front of `low` or
next to `high`. -/
structure StatSearch.Inside (dt : Int) (dir : List StatHeader) (s : StatSearch) : Prop where
  low_nonneg : 0 ≤ s.low
  high_lt : s.high < dir.length
  before : ∀ j : Nat, j < s.low → ∀ h, dir[j]? = some h → h.filetime < dt
  unread : s.header = none → s.low = 0 ∧ s.high = dir.length - 1
  read : ∀ h, s.header = some h → ∃ i : Nat, dir[i]? = some h ∧ s.offset = i + 1 ∧
    (i < s.low ∨ i ≤ s.high + 1)

/-- The list may be read on from the record that the search leaves. -/
def StatSearch.Ends (dt : Int) (dir : List StatHeader) (r : Option StatSearch) : Prop :=
  ∃ (s : StatSearch) (i : Nat) (h : StatHeader), r = some s ∧ s.header = some h ∧
    dir[i]? = some h ∧ s.offset = i + 1 ∧ NoneBefore dt dir i

theorem StatSearch.Inside.turn (hsorted : dir.Pairwise (·.filetime ≤ ·.filetime))
    (hne : dir ≠ []) {s : StatSearch} (I : s.Inside dt dir) :
    ∃ r, s.turn dt dir = some r ∧
      r.elim (fun s' => s'.Inside dt dir ∧
        (s'.high + 1 - s'.low).toNat < (s.high + 1 - s.low).toNat) (StatSearch.Ends dt dir) := by
  have hlow := I.low_nonneg
  have hhigh := I.high_lt
  rw [StatSearch.turn]
  split
  case isFalse hend =>
    refine ⟨_, rfl, ?_⟩
    cases hheader : s.header with
    | none =>
      obtain ⟨h0, hlast⟩ := I.unread hheader
      have hpos := List.length_pos_iff.mpr hne
      omega
    | some h =>
      obtain ⟨i, hi, hoffset, hplace⟩ := I.read h hheader
      refine ⟨s, i, h, rfl, hheader, hi, hoffset, fun j hj h' hj' => ?_⟩
      exact Int.le_of_lt (I.before j (by omega) h' hj')
  case isTrue hle =>
    obtain ⟨mid, hmid⟩ : ∃ mid : Nat, (s.low + s.high) / 2 = mid :=
      ⟨((s.low + s.high) / 2).toNat, by omega⟩
    have hlt : mid < dir.length := by omega
    have hget : dir[mid]? = some dir[mid] := List.getElem?_eq_getElem hlt
    have hbefore : ∀ j ≤ mid, ∀ h, dir[j]? = some h → h.filetime ≤ dir[mid].filetime := by
      intro j hj h hget'
      obtain ⟨hj', rfl⟩ := List.getElem?_eq_some_iff.mp hget'
      rcases Nat.eq_or_lt_of_le hj with rfl | hj
      · exact Int.le_refl _
      · exact List.pairwise_iff_getElem.mp hsorted j mid hj' hlt hj
    dsimp only
    rw [hmid, cell_nat, hget]
    dsimp only
    split
    case isTrue hnewer =>
      refine ⟨_, rfl, ⟨by dsimp only; omega, hhigh, fun j hj h hget' => ?_, nofun, ?_⟩, ?_⟩
      · exact Int.lt_of_le_of_lt (hbefore j (by dsimp only at hj; omega) h hget') hnewer
      · rintro h hh
        cases hh
        exact ⟨mid, hget, rfl, .inl (by dsimp only; omega)⟩
      · dsimp only
        omega
    case isFalse hnot =>
      split
      case isTrue holder =>
        refine ⟨_, rfl, ⟨hlow, by dsimp only; omega, I.before, nofun, ?_⟩, ?_⟩
        · rintro h hh
          cases hh
          exact ⟨mid, hget, rfl, .inr (by dsimp only; omega)⟩
        · dsimp only
          omega
      case isFalse hnot' =>
        refine ⟨_, rfl, _, mid, _, rfl, rfl, hget, rfl, fun j hj h hget' => ?_⟩
        have hle := hbefore j (Nat.le_of_lt hj) h hget'
        omega

theorem StatSearch.run_ends (hsorted : dir.Pairwise (·.filetime ≤ ·.filetime)) (hne : dir ≠ []) :
    ∃ r, StatSearch.run dt dir = some r ∧ StatSearch.Ends dt dir r := by
  apply loop_total (C := fun _ => true) (StatSearch.Inside dt dir) (StatSearch.Ends dt dir)
    (fun s => (s.high + 1 - s.low).toNat) (fun s I _ => I.turn hsorted hne) _ (loopAlong_true ..)
  · dsimp only [start]
    omega
  · refine ⟨Int.le_refl 0, ?_, fun j hj => ?_, fun _ => ⟨rfl, rfl⟩, nofun⟩
    · dsimp only [start]
      omega
    · dsimp only [start] at hj
      omega

/-! ## The list -/

theorem statScan_eq (board owner : Bytes) (stated : Bool) (postCount : Int)
    (headers : List StatHeader) : statScan board owner dt stated postCount headers =
      ((if stated || (headers.filter (statMatch owner dt)).isEmpty then [] else [.board board]) ++
        (headers.filter (statMatch owner dt)).mapIdx
          fun i h => .post (postCount + i + 1) h.filetime h.title,
        postCount + (headers.filter (statMatch owner dt)).length) := by
  induction headers generalizing stated postCount with
  | nil => simp [statScan]
  | cons header headers ih =>
    rw [statScan]
    cases hmatch : statMatch owner dt header with
    | false => simp [ih, hmatch]
    | true =>
      have hnumber : ∀ i : Nat, postCount + 1 + i + 1 = postCount + (i + 1 : Nat) + 1 := by
        intro i
        omega
      simp only [if_true, ih, List.filter_cons, hmatch, Bool.true_or, List.nil_append,
        List.isEmpty_cons, Bool.or_false, List.mapIdx_cons, hnumber, List.length_cons]
      refine Prod.ext ?_ ?_
      · simp
      · dsimp only
        omega

/-- What is not newer than the limit does not match. -/
theorem filter_drop {i : Nat} (owner : Bytes) (h : NoneBefore dt dir i) :
    (dir.drop i).filter (statMatch owner dt) = dir.filter (statMatch owner dt) := by
  have hnone : (dir.take i).filter (statMatch owner dt) = [] := by
    rw [List.filter_eq_nil_iff]
    intro x hx hmatch
    obtain ⟨j, hj, hget⟩ := List.getElem_of_mem hx
    rw [List.length_take] at hj
    have hle := h j (by omega) x (by
      rw [← hget, List.getElem_take, List.getElem?_eq_getElem])
    have hlt : dt < x.filetime := of_decide_eq_true (Bool.and_eq_true_iff.mp hmatch).2
    omega
  calc (dir.drop i).filter (statMatch owner dt)
      = (dir.take i).filter (statMatch owner dt) ++ (dir.drop i).filter (statMatch owner dt) := by
        rw [hnone, List.nil_append]
    _ = dir.filter (statMatch owner dt) := by
        rw [← List.filter_append, List.take_append_drop]
end

/-! ## What is listed -/

section
variable {board owner : Bytes} {now days postCount : Int} {dir : List StatHeader}

/-- Without an article the header that the list starts with has not been read. -/
theorem poststat_nil : poststat board owner now days postCount [] = none := rfl

theorem poststat_eq (hsorted : dir.Pairwise (·.filetime ≤ ·.filetime)) (hne : dir ≠ []) :
    poststat board owner now days postCount dir =
      some (statList board postCount (dir.filter (statMatch owner (now - 86400 * days)))) := by
  obtain ⟨_, hrun, s, i, header, rfl, hheader, hi, hoffset, hbefore⟩ :=
    @StatSearch.run_ends (now - 86400 * days) dir hsorted hne
  obtain ⟨hlt, rfl⟩ := List.getElem?_eq_some_iff.mp hi
  have hdrop : dir[i] :: dir.drop s.offset.toNat = dir.drop i := by
    rw [hoffset, List.drop_eq_getElem_cons hlt]
    rfl
  simp only [poststat, hrun, hheader, Option.bind_eq_bind, Option.bind_some, hdrop, statScan_eq,
    filter_drop owner hbefore, statList, Bool.false_or]

/-- `poststat` lists the articles of the owner behind the limit, each once and in order, exactly
where the directory has an article. -/
theorem poststat_iff (hsorted : dir.Pairwise (·.filetime ≤ ·.filetime)) :
    poststat board owner now days postCount dir =
      some (statList board postCount (dir.filter (statMatch owner (now - 86400 * days)))) ↔
      dir ≠ [] := by
  constructor
  · rintro h rfl
    rw [poststat_nil] at h
    cases h
  · exact poststat_eq hsorted

/-- Two articles of the same second behind the limit, one of another user. -/
theorem poststat_iff_demo :
    let dir : List StatHeader := [⟨[97], [1], 5⟩, ⟨[97], [2], 11⟩, ⟨[98], [3], 11⟩, ⟨[97], [4], 11⟩]
    poststat [66] [97] 86410 1 0 dir =
      some (statList [66] 0 (dir.filter (statMatch [97] (86410 - 86400 * 1)))) ↔ dir ≠ [] :=
  poststat_iff (by decide)

/-- The list of an empty directory starts with a header that has not been read. -/
theorem poststat_empty :
    ¬ ∀ (board owner : Bytes) (now days postCount : Int) (dir : List StatHeader),
      dir.Pairwise (·.filetime ≤ ·.filetime) →
      poststat board owner now days postCount dir =
        some (statList board postCount (dir.filter (statMatch owner (now - 86400 * days)))) := by
  intro h
  have := h [66] [97] 86410 1 0 [] List.Pairwise.nil
  rw [poststat_nil] at this
  cases this
end

end ArgoBbs

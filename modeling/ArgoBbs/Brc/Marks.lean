import ArgoBbs.Lib.Bytes
import ArgoBbs.Lib.MarkList

/-! # The read marks of one board

`brc_list[0..brc_num)` holds the file times of the articles read on the current board in
decreasing order, and `brc_cur` remembers where the last lookup ended (`boards.c`). The loops of
`brc_locate` fail when they touch a cell outside `brc_list` or run more often than `brc_list` has
cells, so every result below also says that the code stays inside the array and stops.

The abstract view of the state is the decreasing list `Brc.marks`: `brc_unread` decides `Seen`, and
`brc_addlist` is `insertMark`. -/

namespace ArgoBbs

def brcMaxNum : Nat := 60

/-- The globals of `boards.c` that describe the marks of the current board. -/
structure Brc where
  brcList : List Int
  brcNum : Int
  brcCur : Int
  brcChanged : Bool
  deriving DecidableEq, Repr

/-- The marks, without the unused cells behind them. -/
def Brc.marks (b : Brc) : List Int := b.brcList.take b.brcNum.toNat

/-- The loop of `brc_locate` towards smaller marks. -/
def brcLocateDown (num : Int) : Nat → Brc → Option (Bool × Brc)
  | 0, _ => none
  | fuel + 1, b =>
    if b.brcCur < b.brcNum then do
      let x ← cell b.brcList b.brcCur
      if num = x then some (true, b)
      else if num > x then some (false, b)
      else brcLocateDown num fuel { b with brcCur := b.brcCur + 1 }
    else some (false, b)

/-- The loop of `brc_locate` towards larger marks. -/
def brcLocateUp (num : Int) : Nat → Brc → Option (Bool × Brc)
  | 0, _ => none
  | fuel + 1, b =>
    if b.brcCur > 0 then do
      let x ← cell b.brcList (b.brcCur - 1)
      if num < x then some (false, b)
      else
        let b := { b with brcCur := b.brcCur - 1 }
        let x ← cell b.brcList b.brcCur
        if num = x then some (true, b) else brcLocateUp num fuel b
    else some (false, b)

def brcLocate (num : Int) (b : Brc) : Option (Bool × Brc) :=
  if b.brcNum = 0 then some (false, { b with brcCur := 0 })
  else do
    let b := if b.brcCur ≥ b.brcNum then { b with brcCur := b.brcNum - 1 } else b
    let x ← cell b.brcList b.brcCur
    if num ≤ x then brcLocateDown num (brcMaxNum + 1) b else brcLocateUp num (brcMaxNum + 1) b

def brcInsert (num : Int) (b : Brc) : Option Brc :=
  let b := if b.brcNum < brcMaxNum then { b with brcNum := b.brcNum + 1 } else b
  if b.brcCur < b.brcNum then do
    let moved ← memmove b.brcList (b.brcCur + 1) b.brcCur (b.brcNum - b.brcCur - 1)
    let brcList ← setCell moved b.brcCur num
    some { b with brcList, brcChanged := true }
  else some b

def brcUnread (filetime : Int) (b : Brc) : Option (Bool × Brc) := do
  let (found, b) ← brcLocate (toCInt filetime) b
  if found then some (false, b)
  else if b.brcNum ≤ 0 then some (true, b)
  else if b.brcCur < b.brcNum then some (true, b)
  else some (false, b)

def brcAddlist (filetime : Int) (b : Brc) : Option Brc :=
  if filetime > 0 then do
    let (unread, b) ← brcUnread filetime b
    if unread then brcInsert (toCInt filetime) b else some b
  else some b

/-! ## The invariant -/

/-- What every call finds and leaves: between one and `brcMaxNum` marks in decreasing order. -/
structure Brc.WF (b : Brc) : Prop where
  cells : b.brcList.length = brcMaxNum
  num_pos : 0 < b.brcNum
  num_le : b.brcNum ≤ brcMaxNum
  cur_nonneg : 0 ≤ b.brcCur
  sorted : b.marks.Pairwise (· > ·)

variable {b : Brc} {num t : Int}

namespace Brc.WF

variable (H : b.WF)
include H

theorem length_marks : (b.marks.length : Int) = b.brcNum := by
  have := H.cells; have := H.num_pos; have := H.num_le
  rw [marks, List.length_take]; omega

/-- Inside the marks, a cell of the array is a mark. -/
theorem cell_eq {i : Nat} (hi : i < b.marks.length) : cell b.brcList i = some b.marks[i] := by
  have := H.length_marks
  rw [cell_nat, ← List.getElem?_eq_getElem hi, marks, List.getElem?_take_of_lt (by omega)]

theorem withCur {c : Int} (hc : 0 ≤ c) : { b with brcCur := c }.WF :=
  ⟨H.cells, H.num_pos, H.num_le, hc, H.sorted⟩

end Brc.WF

/-! ## `brc_locate` -/

theorem getElem_marks_lt (H : b.WF) {i j : Nat} (hij : i < j) (hj : j < b.marks.length) :
    b.marks[j] < b.marks[i] := List.pairwise_iff_getElem.mp H.sorted i j _ hj hij

/-- Every mark before the cell `c` is larger than the mark in `c`. -/
theorem lt_of_mem_take_marks (H : b.WF) {c : Nat} (hc : c < b.marks.length) :
    ∀ x ∈ b.marks.take c, b.marks[c] < x := by
  intro x hx
  obtain ⟨i, hi, rfl⟩ := List.mem_take_iff_getElem.mp hx
  exact getElem_marks_lt H (by omega) hc

/-- A value with larger marks before the cell `c` and no larger one in it is a mark exactly if it
is the mark in `c`. -/
theorem mem_marks_iff (H : b.WF) {c : Nat} (hc : c < b.marks.length)
    (hgt : ∀ x ∈ b.marks.take c, num < x) (hle : b.marks[c] ≤ num) :
    num ∈ b.marks ↔ num = b.marks[c] := by
  refine ⟨fun hm => ?_, fun h => h ▸ List.getElem_mem hc⟩
  obtain ⟨i, hi, rfl⟩ := List.getElem_of_mem hm
  rcases Nat.lt_trichotomy i c with h | rfl | h
  · exact absurd (hgt _ (List.mem_take_iff_getElem.mpr ⟨i, by omega, rfl⟩)) (lt_irrefl _)
  · rfl
  · exact absurd (getElem_marks_lt H h hi) (not_lt.mpr hle)

/-- The answer at the cell `c` where a loop stops because the mark there is not larger. -/
theorem located_at (H : b.WF) {c : Nat} (hc : c < b.marks.length)
    (hgt : ∀ x ∈ b.marks.take c, num < x) (hle : b.marks[c] ≤ num) :
    (decide (num ∈ b.marks), { b with brcCur := (rank num b.marks : Int) }) =
      (decide (num = b.marks[c]), { b with brcCur := (c : Int) }) := by
  have hrank : rank num b.marks = c :=
    rank_eq hgt (by simpa [List.getElem?_eq_getElem hc] using hle) hc.le
  rw [hrank, decide_eq_decide.mpr (mem_marks_iff H hc hgt hle)]

/-- The loop towards smaller marks ends at the place of `num`, provided every mark before the
cursor is larger than `num`. -/
theorem brcLocateDown_eq (H : b.WF) {fuel : Nat} (c : Nat) (hc : c ≤ b.marks.length)
    (hfuel : b.marks.length - c < fuel) (hgt : ∀ x ∈ b.marks.take c, num < x) :
    brcLocateDown num fuel { b with brcCur := c } =
      some (decide (num ∈ b.marks), { b with brcCur := rank num b.marks }) := by
  have hlen := H.length_marks
  induction fuel generalizing c with
  | zero => omega
  | succ fuel ih =>
    unfold brcLocateDown
    dsimp only
    by_cases hcn : c < b.marks.length
    · rw [if_pos (by omega), H.cell_eq hcn]
      simp only [Option.bind_eq_bind, Option.bind_some]
      by_cases heq : num = b.marks[c]
      · rw [if_pos heq, located_at H hcn hgt heq.symm.le, decide_eq_true heq]
      rw [if_neg heq]
      by_cases hlt : num > b.marks[c]
      · rw [if_pos hlt, located_at H hcn hgt hlt.le, decide_eq_false heq]
      rw [if_neg hlt]
      refine ih (c + 1) hcn (by omega) fun x hx => ?_
      rw [List.take_add_one, List.getElem?_eq_getElem hcn] at hx
      rcases List.mem_append.mp hx with hx | hx
      · exact hgt x hx
      · obtain rfl : x = b.marks[c] := by simpa using hx
        omega
    · obtain rfl : c = b.marks.length := by omega
      have hall : ∀ x ∈ b.marks, num < x := by simpa using hgt
      have hrank : rank num b.marks = b.marks.length := rank_eq hgt (by simp) le_rfl
      have hmem : num ∉ b.marks := fun h => lt_irrefl _ (hall _ h)
      rw [if_neg (by omega), hrank, decide_eq_false hmem]

/-- The loop towards larger marks ends at the place of `num`, provided the mark at the cursor is
smaller than `num`. -/
theorem brcLocateUp_eq (H : b.WF) {fuel c : Nat} (hc : c < b.marks.length) (hfuel : c < fuel)
    (hlt : b.marks[c] < num) :
    brcLocateUp num fuel { b with brcCur := c } =
      some (decide (num ∈ b.marks), { b with brcCur := rank num b.marks }) := by
  induction fuel generalizing c with
  | zero => omega
  | succ fuel ih =>
    unfold brcLocateUp
    dsimp only
    cases c with
    | zero =>
      rw [if_neg (by omega), located_at H hc (by simp) hlt.le, decide_eq_false hlt.ne']
    | succ c =>
      have hc' : c < b.marks.length := by omega
      rw [if_pos (by omega), show ((c + 1 : Nat) : Int) - 1 = c by omega, H.cell_eq hc']
      simp only [Option.bind_eq_bind, Option.bind_some]
      by_cases hle : num < b.marks[c]
      · have hgt : ∀ x ∈ b.marks.take (c + 1), num < x := by
          intro x hx
          rw [List.take_add_one, List.getElem?_eq_getElem hc'] at hx
          rcases List.mem_append.mp hx with hx | hx
          · exact hle.trans (lt_of_mem_take_marks H hc' x hx)
          · obtain rfl : x = b.marks[c] := by simpa using hx
            exact hle
        rw [if_pos hle, located_at H hc hgt hlt.le, decide_eq_false hlt.ne']
      rw [if_neg hle]
      by_cases heq : num = b.marks[c]
      · rw [if_pos heq, located_at H hc' (fun x hx => heq ▸ lt_of_mem_take_marks H hc' x hx)
          heq.symm.le, decide_eq_true heq]
      · rw [if_neg heq]
        exact ih hc' (by omega) (by omega)

/-- `brc_locate` decides whether `num` is marked and leaves the cursor at its place, wherever the
cursor stood. -/
theorem brcLocate_eq (H : b.WF) :
    brcLocate num b = some (decide (num ∈ b.marks), { b with brcCur := rank num b.marks }) := by
  have hlen := H.length_marks
  have hnum := H.num_pos
  have hmax := H.num_le
  have hcur := H.cur_nonneg
  obtain ⟨c, hc, hb⟩ : ∃ c : Nat, c < b.marks.length ∧
      (if b.brcCur ≥ b.brcNum then { b with brcCur := b.brcNum - 1 } else b) =
        { b with brcCur := (c : Int) } := by
    by_cases h : b.brcCur ≥ b.brcNum
    · refine ⟨(b.brcNum - 1).toNat, by omega, ?_⟩
      rw [if_pos h, Int.toNat_of_nonneg (by omega)]
    · exact ⟨b.brcCur.toNat, by omega, by rw [if_neg h, Int.toNat_of_nonneg hcur]⟩
  rw [brcLocate, if_neg (by omega), hb]
  simp only [H.cell_eq hc, Option.bind_eq_bind, Option.bind_some]
  split
  case isTrue h =>
    refine brcLocateDown_eq H c hc.le (by omega) fun x hx => ?_
    exact lt_of_le_of_lt h (lt_of_mem_take_marks H hc x hx)
  case isFalse h => exact brcLocateUp_eq H hc (by omega) (by omega)

/-! ## The entry points -/

/-- `brc_unread` answers whether the file time is unseen; it moves nothing but the cursor. -/
theorem brcUnread_eq (H : b.WF) : brcUnread t b =
    some (!decide (Seen b.marks (toCInt t)), { b with brcCur := rank (toCInt t) b.marks }) := by
  have hlen := H.length_marks
  rw [brcUnread, brcLocate_eq H]
  simp only [Option.bind_eq_bind, Option.bind_some]
  by_cases hmem : toCInt t ∈ b.marks
  · rw [decide_eq_true hmem, if_pos rfl, decide_eq_true (.inl hmem)]; rfl
  rw [decide_eq_false hmem, if_neg Bool.false_ne_true, if_neg (not_le.mpr H.num_pos)]
  by_cases hseen : Seen b.marks (toCInt t)
  · have hrank : rank (toCInt t) b.marks = b.marks.length :=
      rank_eq (by simpa using hseen.resolve_left hmem) (by simp) le_rfl
    rw [if_neg (by omega), decide_eq_true hseen]; rfl
  · have := rank_lt_length hseen
    rw [if_pos (by omega), decide_eq_false hseen]; rfl

/-- `brc_insert` at a mark: the marks from the cursor on move one up, the one behind them is pushed
out when the list is full. -/
theorem brcInsert_at (H : b.WF) {r : Nat} (hr : r < b.marks.length) :
    brcInsert num { b with brcCur := r } = some
      { brcList := b.brcList.take r ++ num :: (b.brcList.drop r).take (min b.marks.length 59 - r) ++
          b.brcList.drop (min b.marks.length 59 + 1)
        brcNum := (min b.marks.length 59 + 1 : Nat), brcCur := r, brcChanged := true } := by
  have hlen := H.length_marks
  have hmax : b.brcNum ≤ 60 := H.num_le
  have hcells : b.brcList.length = 60 := H.cells
  obtain ⟨m, hm⟩ : ∃ m, m = min b.marks.length 59 := ⟨_, rfl⟩
  have hnew : (if b.brcNum < brcMaxNum then { b with brcCur := r, brcNum := b.brcNum + 1 }
      else { b with brcCur := (r : Int) }) = { b with brcCur := r, brcNum := (m + 1 : Nat) } := by
    by_cases h : b.brcNum < brcMaxNum
    · rw [if_pos h]; congr 1; simp only [brcMaxNum] at h; omega
    · rw [if_neg h]; congr 1; simp only [brcMaxNum] at h; omega
  have hsize : ((m + 1 : Nat) : Int) - r - 1 = (m - r : Nat) := by omega
  rw [← hm, brcInsert]
  simp only [hnew, hsize]
  rw [if_pos (by omega), show (r : Int) + 1 = (r + 1 : Nat) by omega,
    memmove_eq (by omega) (by omega)]
  simp only [Option.bind_eq_bind, Option.bind_some]
  rw [setCell_eq (by rw [length_overlay (by simp; omega)]; omega),
    set_overlay_succ (by omega) (by omega)]
  rfl

/-- `brc_insert` at the place of an unseen value is `insertMark`. -/
theorem brcInsert_eq (H : b.WF) (hnum : ¬ Seen b.marks num) :
    ∃ b', brcInsert num { b with brcCur := rank num b.marks } = some b' ∧ b'.WF ∧
      b'.marks = insertMark brcMaxNum num b.marks ∧ b'.brcChanged = true := by
  have hlen := H.length_marks
  have hmax : b.brcNum ≤ 60 := H.num_le
  have hcells : b.brcList.length = 60 := H.cells
  have hr := rank_lt_length hnum
  have hsorted := sorted_insertMark brcMaxNum H.sorted (fun h => hnum (.inl h))
  rw [insertMark_eq] at hsorted ⊢
  generalize hrank : rank num b.marks = r at hr hsorted ⊢
  generalize hm : min b.marks.length 59 = m
  have hmarks : (b.marks.take r ++ num :: b.marks.drop r).take brcMaxNum =
      b.brcList.take r ++ num :: (b.brcList.drop r).take (m - r) := by
    rw [List.take_append, List.take_of_length_le (by simp [brcMaxNum]; omega), List.length_take,
      min_eq_left hr.le, show brcMaxNum - r = (59 - r) + 1 by simp only [brcMaxNum]; omega,
      List.take_succ_cons, Brc.marks, List.take_take, min_eq_left (by omega), List.drop_take,
      List.take_take]
    congr 3; omega
  have htake : (b.brcList.take r ++ num :: (b.brcList.drop r).take (m - r)).length = m + 1 := by
    simp; omega
  rw [hmarks] at hsorted ⊢
  rw [brcInsert_at H hr, hm]
  have hmarks' : (b.brcList.take r ++ num :: (b.brcList.drop r).take (m - r) ++
      b.brcList.drop (m + 1)).take ((m + 1 : Nat) : Int).toNat =
      b.brcList.take r ++ num :: (b.brcList.drop r).take (m - r) := by
    rw [Int.toNat_natCast, ← htake, List.take_left]
  refine ⟨_, rfl, ⟨?_, ?_, ?_, ?_, ?_⟩, hmarks', rfl⟩
  · rw [List.length_append, htake, List.length_drop, hcells, brcMaxNum]; omega
  · simp only; omega
  · simp only [brcMaxNum]; omega
  · simp only; omega
  · rw [Brc.marks, hmarks']; exact hsorted

theorem brcUnread_wf (H : b.WF) (t : Int) :
    ∃ b', brcUnread t b = some (!decide (Seen b.marks (toCInt t)), b')
    ∧ b'.WF ∧ b'.marks = b.marks ∧ b'.brcChanged = b.brcChanged :=
  ⟨_, brcUnread_eq H, H.withCur (by omega), rfl, rfl⟩

/-- `brc_addlist` marks a positive unseen file time and leaves everything else alone. -/
theorem brcAddlist_eq (H : b.WF) (t : Int) : ∃ b', brcAddlist t b = some b' ∧ b'.WF ∧
    if t > 0 ∧ ¬ Seen b.marks (toCInt t) then
      b'.marks = insertMark brcMaxNum (toCInt t) b.marks ∧ b'.brcChanged = true
    else b'.marks = b.marks ∧ b'.brcChanged = b.brcChanged := by
  rw [brcAddlist]
  by_cases ht : t > 0
  · rw [if_pos ht, brcUnread_eq H]
    simp only [Option.bind_eq_bind, Option.bind_some]
    by_cases hseen : Seen b.marks (toCInt t)
    · rw [decide_eq_true hseen, if_neg (by simp)]
      exact ⟨_, rfl, H.withCur (by omega), by rw [if_neg (by simp [hseen])]; exact ⟨rfl, rfl⟩⟩
    · rw [decide_eq_false hseen, Bool.not_false, if_pos rfl]
      obtain ⟨b', he, hwf, hm, hc⟩ := brcInsert_eq H hseen
      exact ⟨b', he, hwf, by rw [if_pos ⟨ht, hseen⟩]; exact ⟨hm, hc⟩⟩
  · rw [if_neg ht]
    exact ⟨b, rfl, H, by rw [if_neg (fun h => ht h.1)]; exact ⟨rfl, rfl⟩⟩

/-- What `brc_addlist` leaves: the file time is seen, whatever was seen is seen, and the marks are
the old ones unless they have to be saved. -/
theorem Brc.WF.addlist (H : b.WF) (t : Int) : ∃ b', brcAddlist t b = some b' ∧ b'.WF ∧
    (0 < t → Seen b'.marks (toCInt t)) ∧ (∀ u, Seen b.marks u → Seen b'.marks u) ∧
    (∀ x ∈ b'.marks, x = toCInt t ∨ x ∈ b.marks) ∧
    (b'.brcChanged = true ∨ b'.brcChanged = b.brcChanged ∧ b'.marks = b.marks) := by
  obtain ⟨b', he, hwf, hm⟩ := brcAddlist_eq H t
  refine ⟨b', he, hwf, ?_⟩
  split at hm
  case isTrue h =>
    have hlen := H.length_marks
    have hmax := H.num_le
    rw [hm.1]
    exact ⟨fun _ => .inl (mem_insertMark_self h.2 (by omega)),
      fun u hu => hu.insertMark H.sorted h.2, fun x hx => mem_insertMark hx, .inl hm.2⟩
  case isFalse h =>
    rw [hm.1]
    exact ⟨fun ht => not_not.mp fun hs => h ⟨ht, hs⟩, fun u => id, fun x => .inr,
      .inr ⟨hm.2, rfl⟩⟩

/-! ## Runs -/

inductive BrcOp
  | addlist (filetime : Int)
  | unread (filetime : Int)
  deriving DecidableEq, Repr

def BrcOp.exec : BrcOp → Brc → Option Brc
  | .addlist t, b => brcAddlist t b
  | .unread t, b => (brcUnread t b).map (·.2)

def Brc.run (b : Brc) (ops : List BrcOp) : Option Brc := ops.foldlM (fun b op => op.exec b) b

/-- `brc_unread` reports the file time as read. -/
def Brc.Reads (b : Brc) (t : Int) : Prop := ∃ b', brcUnread t b = some (false, b')

theorem Brc.WF.reads_iff (H : b.WF) : b.Reads t ↔ Seen b.marks (toCInt t) := by
  simp [Brc.Reads, brcUnread_eq H]

/-- One call keeps the invariant and everything that is read. -/
theorem Brc.WF.exec (H : b.WF) (op : BrcOp) : ∃ b', op.exec b = some b' ∧ b'.WF ∧
    ∀ u, Seen b.marks u → Seen b'.marks u := by
  cases op with
  | addlist t =>
    obtain ⟨b', he, hwf, -, hseen, -⟩ := H.addlist t
    exact ⟨b', he, hwf, hseen⟩
  | unread t =>
    obtain ⟨b', he, hwf, hm, _⟩ := brcUnread_wf H t
    exact ⟨b', by rw [BrcOp.exec, he]; rfl, hwf, fun u hu => hm ▸ hu⟩

theorem Brc.WF.run (H : b.WF) (ops : List BrcOp) : ∃ b', b.run ops = some b' ∧ b'.WF ∧
    ∀ u, Seen b.marks u → Seen b'.marks u := by
  induction ops generalizing b with
  | nil => exact ⟨b, rfl, H, fun _ => id⟩
  | cons op ops ih =>
    obtain ⟨b', he, hwf, hseen⟩ := H.exec op
    obtain ⟨b'', hr, hwf', hseen'⟩ := ih hwf
    exact ⟨b'', by rw [Brc.run, List.foldlM_cons, he]; exact hr, hwf',
      fun u hu => hseen' u (hseen u hu)⟩

/-- A positive file time is read once it has been added. -/
theorem Brc.WF.addlist_reads (H : b.WF) (ht : 0 < t) : ∃ b', brcAddlist t b = some b' ∧ b'.Reads t := by
  obtain ⟨b', he, hwf, hseen, -⟩ := H.addlist t
  exact ⟨b', he, hwf.reads_iff.mpr (hseen ht)⟩

/-- The list that `brc_initial` sets for a board: the marks `l`, in front of cells that hold
whatever was there before. -/
def Brc.load (l rest : List Int) (changed : Bool) : Brc :=
  { brcList := l ++ rest, brcNum := l.length, brcCur := 0, brcChanged := changed }

theorem Brc.load_marks (l rest : List Int) (changed : Bool) : (load l rest changed).marks = l := by
  simp [marks, load]

theorem Brc.load_wf {l rest : List Int} (changed : Bool) (hl : l.Pairwise (· > ·)) (hne : l ≠ [])
    (hcells : l.length + rest.length = brcMaxNum) : (load l rest changed).WF where
  cells := by simpa [load] using hcells
  num_pos := by simpa [load, List.length_pos_iff] using hne
  num_le := by simp only [load]; omega
  cur_nonneg := le_rfl
  sorted := by rwa [load_marks]

/-- After any calls from the list of a board: no access has left the array, the marks decrease, an
added file time is read, and whatever is read stays read whatever is called next. -/
theorem brc_marks_sound (l rest : List Int) (changed : Bool) (hl : l.Pairwise (· > ·)) (hne : l ≠ [])
    (hcells : l.length + rest.length = brcMaxNum) (ops : List BrcOp) :
    ∃ b, (Brc.load l rest changed).run ops = some b ∧
      b.brcList.length = brcMaxNum ∧ (b.brcList.take b.brcNum.toNat).Pairwise (· > ·) ∧
      0 ≤ b.brcNum ∧ b.brcNum ≤ brcMaxNum ∧ 0 ≤ b.brcCur ∧
      (∀ t > 0, ∃ b', brcAddlist t b = some b' ∧ b'.Reads t) ∧
      (∀ t, b.Reads t → ∀ later, ∃ b', b.run later = some b' ∧ b'.Reads t) := by
  obtain ⟨b, hrun, H, _⟩ := (Brc.load_wf changed hl hne hcells).run ops
  refine ⟨b, hrun, H.cells, H.sorted, H.num_pos.le, H.num_le, H.cur_nonneg,
    fun t ht => H.addlist_reads ht, fun t hread later => ?_⟩
  obtain ⟨b', hrun', H', hseen⟩ := H.run later
  exact ⟨b', hrun', H'.reads_iff.mpr (hseen _ (H.reads_iff.mp hread))⟩

theorem brc_marks_sound_default : ∃ b, (Brc.load [1] (List.replicate 59 0) false).run
      [.addlist 5, .unread 3, .addlist 3] = some b ∧
      b.brcList.length = brcMaxNum ∧ (b.brcList.take b.brcNum.toNat).Pairwise (· > ·) ∧
      0 ≤ b.brcNum ∧ b.brcNum ≤ brcMaxNum ∧ 0 ≤ b.brcCur ∧
      (∀ t > 0, ∃ b', brcAddlist t b = some b' ∧ b'.Reads t) ∧
      (∀ t, b.Reads t → ∀ later, ∃ b', b.run later = some b' ∧ b'.Reads t) :=
  brc_marks_sound [1] (List.replicate 59 0) false (by decide) (by decide) (by decide) _

end ArgoBbs

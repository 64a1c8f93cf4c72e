import ArgoBbs.Lib.Cells
import ArgoBbs.Lib.Loop
import Mathlib.Data.List.Basic
import Mathlib.Data.List.Pairwise

/-! # The binary search of a record file

`search_record_bin` halves the cells from `start - 1` to the number of records, both included, so
that it may look at the cell behind the last record (`record.c`). There the mapping holds the rest
of a page or nothing; on `SIGBUS` the search gives up. -/

namespace ArgoBbs

variable {α : Type}

/-- The cells that the search has looked at, and the record that it has found with its number. -/
structure BinSearch (α : Type) where
  inspected : List Int
  found : Option (Int × α)
  deriving DecidableEq

/-- The variables of the loop. -/
structure Bisection where
  left : Int
  right : Int
  inspected : List Int

/-- A record of the mapping; `behind` is what it holds behind the last record. -/
def mappedCell (behind : Option α) (file : List α) (i : Int) : Option α :=
  if i = file.length then behind else cell file i

/-- The loop condition and one turn. -/
def Bisection.turn (fptr : α → Int) (record : Int → Option α) (b : Bisection) :
    Option (Bisection ⊕ BinSearch α) :=
  if b.left ≤ b.right then
    let middle := b.left + (b.right - b.left) / 2
    let inspected := b.inspected ++ [middle]
    match record middle with
    | none => some (.inr ⟨inspected, none⟩)
    | some x =>
      let ret := fptr x
      if ret = 0 then some (.inr ⟨inspected, some (middle + 1, x)⟩)
      else if 0 < ret then some (.inl { b with left := middle + 1, inspected })
      else some (.inl { b with right := middle - 1, inspected })
  else some (.inr ⟨b.inspected, none⟩)

/-- `search_record_bin` on a file that it can map. -/
def searchRecordBin (start : Int) (fptr : α → Int) (behind : Option α) (file : List α) :
    Option (BinSearch α) :=
  if start ≤ 0 ∨ file.length = 0 then some ⟨[], none⟩
  else loop (Bisection.turn fptr (mappedCell behind file)) (file.length + 2)
    ⟨start - 1, file.length, []⟩

/-- The answers of the callback follow the order of the file. -/
def FollowsOrder (fptr : α → Int) (file : List α) : Prop :=
  file.Pairwise fun x y => (0 ≤ fptr y → 0 ≤ fptr x) ∧ (0 < fptr y → 0 < fptr x)

/-- What the search is for: it looks at records from `start` on and finds one that matches if there
is one. -/
structure BinSearch.Correct (start : Int) (fptr : α → Int) (file : List α) (out : BinSearch α) :
    Prop where
  inspected : ∀ i ∈ out.inspected, start - 1 ≤ i ∧ i < file.length
  found : ∀ id x, out.found = some (id, x) → start ≤ id ∧ cell file (id - 1) = some x ∧ fptr x = 0
  missing : out.found = none → ∀ i x, start - 1 ≤ i → cell file i = some x → fptr x ≠ 0

section
variable {fptr : α → Int} {record : Int → Option α} {behind : Option α} {file : List α} {b : Bisection}
  {start : Int} {x : α}

/-- What one turn can do. -/
theorem Bisection.turn_cases (b : Bisection) (fptr : α → Int) (record : Int → Option α) :
    (b.right < b.left ∧ b.turn fptr record = some (.inr ⟨b.inspected, none⟩)) ∨
    ∃ middle, b.left ≤ middle ∧ middle ≤ b.right ∧ (middle = b.right → b.left = b.right) ∧
      ((record middle = none ∧
          b.turn fptr record = some (.inr ⟨b.inspected ++ [middle], none⟩)) ∨
        ∃ x, record middle = some x ∧
          ((fptr x = 0 ∧
              b.turn fptr record = some (.inr ⟨b.inspected ++ [middle], some (middle + 1, x)⟩)) ∨
            (0 < fptr x ∧
              b.turn fptr record = some (.inl ⟨middle + 1, b.right, b.inspected ++ [middle]⟩)) ∨
            (fptr x < 0 ∧
              b.turn fptr record = some (.inl ⟨b.left, middle - 1, b.inspected ++ [middle]⟩)))) := by
  rw [turn]
  split
  case isFalse h => exact .inl ⟨by omega, rfl⟩
  case isTrue h =>
    refine .inr ⟨b.left + (b.right - b.left) / 2, by omega, by omega, by omega, ?_⟩
    dsimp only
    cases record (b.left + (b.right - b.left) / 2) with
    | none => exact .inl ⟨rfl, rfl⟩
    | some x =>
      refine .inr ⟨x, rfl, ?_⟩
      dsimp only
      split
      case isTrue hzero => exact .inl ⟨hzero, rfl⟩
      case isFalse hne =>
        split
        case isTrue hpos => exact .inr (.inl ⟨hpos, rfl⟩)
        case isFalse hneg => exact .inr (.inr ⟨by omega, rfl⟩)

theorem FollowsOrder.cells (h : FollowsOrder fptr file) {i j : Int} {y : α} (hij : i ≤ j)
    (hx : cell file i = some x) (hy : cell file j = some y) :
    (0 ≤ fptr y → 0 ≤ fptr x) ∧ (0 < fptr y → 0 < fptr x) := by
  unfold cell at hx hy
  split at hx
  · cases hx
  · rw [if_neg (by omega)] at hy
    obtain ⟨hi, rfl⟩ := List.getElem?_eq_some_iff.mp hx
    obtain ⟨hj, rfl⟩ := List.getElem?_eq_some_iff.mp hy
    rcases Int.lt_or_eq_of_le hij with hlt | rfl
    · exact List.pairwise_iff_getElem.mp h i.toNat j.toNat hi hj (by omega)
    · exact ⟨id, id⟩

theorem mappedCell_of_lt {i : Int} (h : i < file.length) : mappedCell behind file i = cell file i :=
  if_neg (by omega)

/-- What the search knows while it has not come to the cell behind the last record: it is not in
front of `left` and not behind `right`. -/
structure Bisection.Inside (start : Int) (fptr : α → Int) (file : List α) (b : Bisection) :
    Prop where
  start_le : start - 1 ≤ b.left
  right_le : b.right ≤ file.length
  left_lt : b.left ≤ b.right → b.left < file.length
  low : ∀ i x, start - 1 ≤ i → i < b.left → cell file i = some x → 0 < fptr x
  high : ∀ i x, b.right < i → cell file i = some x → fptr x < 0
  inspected : ∀ i ∈ b.inspected, start - 1 ≤ i ∧ i < file.length

theorem cell_lt {i : Int} (h : cell file i = some x) : 0 ≤ i ∧ i < file.length := by
  unfold cell at h
  split at h
  · cases h
  · have hi := (List.getElem?_eq_some_iff.mp h).1
    omega

theorem Bisection.Inside.turn (I : b.Inside start fptr file) (hstart : 1 ≤ start)
    (horder : FollowsOrder fptr file)
    (hlast : ∀ x, cell file (file.length - 1) = some x → fptr x ≤ 0) :
    ∃ r, b.turn fptr (mappedCell behind file) = some r ∧
      r.elim (fun b' => b'.Inside start fptr file ∧
          (b'.right + 1 - b'.left).toNat < (b.right + 1 - b.left).toNat)
        (BinSearch.Correct start fptr file) := by
  obtain ⟨hend, hturn⟩ | ⟨middle, hleft, hright, hmid, h⟩ :=
    b.turn_cases fptr (mappedCell behind file)
  · refine ⟨_, hturn, I.inspected, nofun, fun _ i x hi hx => ?_⟩
    rcases Int.lt_or_le i b.left with hlt | hle
    · have hpos := I.low i x hi hlt hx
      omega
    · have hneg := I.high i x (by omega) hx
      omega
  · have hlt : middle < file.length := by
      have hle := I.left_lt (by omega)
      have hr := I.right_le
      omega
    have hinspected : ∀ i ∈ b.inspected ++ [middle], start - 1 ≤ i ∧ i < file.length := by
      intro i hi
      rcases List.mem_append.mp hi with hi | hi
      · exact I.inspected i hi
      · cases List.mem_singleton.mp hi
        exact ⟨Int.le_trans I.start_le hleft, hlt⟩
    have hstart_le := I.start_le
    rw [mappedCell_of_lt hlt] at h
    obtain ⟨hnone, -⟩ | ⟨x, hx, ⟨hzero, hturn⟩ | ⟨hpos, hturn⟩ | ⟨hneg, hturn⟩⟩ := h
    · obtain ⟨m, rfl⟩ : ∃ m : Nat, middle = m := ⟨middle.toNat, by omega⟩
      rw [cell_nat, List.getElem?_eq_getElem (by omega)] at hnone
      cases hnone
    · refine ⟨_, hturn, hinspected, fun id y hy => ?_, nofun⟩
      cases hy
      exact ⟨by omega, (Int.add_sub_cancel middle 1).symm ▸ hx, hzero⟩
    · refine ⟨_, hturn,
        ⟨?_, I.right_le, fun _ => ?_, fun i y hi hlt hy => ?_, I.high, hinspected⟩, ?_⟩
      · dsimp only
        omega
      · -- the last record is not in front of what is looked for
        dsimp only
        by_contra hge
        have hzero := hlast x ((show middle = (file.length : Int) - 1 by omega) ▸ hx)
        omega
      · exact (horder.cells (by dsimp only at hlt; omega) hy hx).2 hpos
      · dsimp only
        omega
    · refine ⟨_, hturn, ⟨I.start_le, ?_, fun _ => ?_, I.low, fun i y hi hy => ?_, hinspected⟩, ?_⟩
      · dsimp only
        omega
      · dsimp only
        omega
      · dsimp only at hi
        have hback := (horder.cells (show middle ≤ i by omega) hx hy).1
        omega
      · dsimp only
        omega

/-- No record is looked at. -/
theorem BinSearch.Correct.nothing
    (hmissing : ∀ i x, start - 1 ≤ i → cell file i = some x → fptr x ≠ 0) :
    Correct start fptr file ⟨[], none⟩ where
  inspected _ hi := absurd hi List.not_mem_nil
  found _ _ h := absurd h.symm (Option.some_ne_none _)
  missing _ := hmissing

/-- The search is correct where it does not come to the cell behind the last record. -/
theorem searchRecordBin_correct (behind : Option α) (hstart : 1 ≤ start)
    (horder : FollowsOrder fptr file)
    (hcond : file = [] ∨ (file.length : Int) < start - 1 ∨
      start ≤ file.length ∧ ∀ x, cell file (file.length - 1) = some x → fptr x ≤ 0) :
    ∃ out, searchRecordBin start fptr behind file = some out ∧ out.Correct start fptr file := by
  rw [searchRecordBin]
  split
  case isTrue h =>
    obtain rfl := List.length_eq_zero_iff.mp (h.resolve_left (by omega))
    refine ⟨_, rfl, .nothing fun i x _ hx => ?_⟩
    have hlt := cell_lt hx
    rw [List.length_nil] at hlt
    omega
  case isFalse h =>
    rcases hcond with rfl | hbehind | ⟨hle, hlast⟩
    · exact absurd (Or.inr rfl) h
    · refine ⟨⟨[], none⟩, ?_, .nothing fun i x hi hx => ?_⟩
      · rw [loop, Bisection.turn, if_neg (show ¬start - 1 ≤ (file.length : Int) by omega)]
      · have hlt := cell_lt hx
        omega
    · refine loop_total (C := fun _ => true) (Bisection.Inside start fptr file)
        (BinSearch.Correct start fptr file) (fun b => (b.right + 1 - b.left).toNat)
        (fun b I _ => I.turn hstart horder hlast) ?_ (loopAlong_true ..) (by dsimp only; omega)
      refine ⟨Int.le_refl _, Int.le_refl _, fun _ => ?_, fun i x hi hlt => ?_, fun i x hi hx => ?_,
        fun _ hm => absurd hm List.not_mem_nil⟩
      · dsimp only
        omega
      · dsimp only at hlt
        omega
      · have hlt := cell_lt hx
        dsimp only at hi
        omega

/-- The search has looked at the cell behind the last record, or all cells that are left are in
front of what it looks for, up to that cell. -/
def Bisection.Past (file : List α) (b : Bisection) : Prop :=
  (file.length : Int) ∈ b.inspected ∨ b.right = file.length ∧ b.left ≤ file.length ∧ 0 ≤ b.left

theorem Bisection.Past.turn (I : b.Past file) (behind : Option α)
    (hearly : ∀ i x, b.left ≤ i → cell file i = some x → 0 < fptr x) :
    ∃ r, b.turn fptr (mappedCell behind file) = some r ∧
      r.elim (fun b' => (b'.Past file ∧ b.left ≤ b'.left) ∧
          (b'.right + 1 - b'.left).toNat < (b.right + 1 - b.left).toNat)
        (fun out => (file.length : Int) ∈ out.inspected) := by
  have hkeep {middle : Int} (h : (file.length : Int) ∈ b.inspected) :
      (file.length : Int) ∈ b.inspected ++ [middle] := List.mem_append_left _ h
  obtain ⟨hend, hturn⟩ | ⟨middle, hleft, hright, hmid, h⟩ :=
    b.turn_cases fptr (mappedCell behind file)
  · exact ⟨_, hturn, I.resolve_right (by omega)⟩
  · -- a cell in front of the end has a record, and it is early
    have hmem : (file.length : Int) ∈ b.inspected ++ [middle] ∨
        middle < file.length ∧ b.right = file.length ∧ 0 ≤ b.left := by
      rcases I with I | ⟨hr, hl, h0⟩
      · exact .inl (hkeep I)
      · rcases Int.lt_or_eq_of_le (show middle ≤ file.length by omega) with hlt | heq
        · exact .inr ⟨hlt, hr, h0⟩
        · exact .inl (List.mem_append_right _ (heq ▸ List.mem_singleton_self _))
    have hpos {x : α} (hlt : middle < file.length) (hx : mappedCell behind file middle = some x) :
        0 < fptr x := by
      rw [mappedCell_of_lt hlt] at hx
      exact hearly middle x hleft hx
    obtain ⟨hnone, hturn⟩ | ⟨x, hx, ⟨hzero, hturn⟩ | ⟨-, hturn⟩ | ⟨hneg, hturn⟩⟩ := h
    · refine ⟨_, hturn, hmem.resolve_right fun ⟨hlt, hr, h0⟩ => ?_⟩
      rw [mappedCell_of_lt hlt] at hnone
      obtain ⟨m, rfl⟩ : ∃ m : Nat, middle = m := ⟨middle.toNat, by omega⟩
      rw [cell_nat, List.getElem?_eq_getElem (by omega)] at hnone
      cases hnone
    · refine ⟨_, hturn, hmem.resolve_right fun ⟨hlt, _⟩ => ?_⟩
      have hpos := hpos hlt hx
      omega
    · refine ⟨_, hturn, ⟨?_, ?_⟩, ?_⟩
      · refine hmem.imp id fun ⟨hlt, hr, h0⟩ => ⟨hr, ?_⟩
        dsimp only
        omega
      · dsimp only
        omega
      · dsimp only
        omega
    · refine ⟨_, hturn, ⟨Or.inl (hmem.resolve_right fun ⟨hlt, _⟩ => ?_), Int.le_refl _⟩, ?_⟩
      · have hpos := hpos hlt hx
        omega
      · dsimp only
        omega

/-- Where all records from `start` on are early, the search looks behind the last record. -/
theorem searchRecordBin_past (behind : Option α) (hstart : 1 ≤ start) (hpos : 0 < file.length)
    (hle : start - 1 ≤ file.length)
    (hearly : ∀ i x, start - 1 ≤ i → cell file i = some x → 0 < fptr x) :
    ∃ out, searchRecordBin start fptr behind file = some out ∧
      (file.length : Int) ∈ out.inspected := by
  rw [searchRecordBin, if_neg (by omega)]
  refine loop_total (C := fun _ => true) (fun b => b.Past file ∧ start - 1 ≤ b.left) _
    (fun b => (b.right + 1 - b.left).toNat) (fun b ⟨I, hb⟩ _ => ?_)
    ⟨Or.inr ⟨rfl, hle, by dsimp only; omega⟩, Int.le_refl _⟩ (loopAlong_true ..)
    (by dsimp only; omega)
  obtain ⟨r, hr, h⟩ := I.turn behind fun i x hi => hearly i x (Int.le_trans hb hi)
  refine ⟨r, hr, ?_⟩
  cases r with
  | inl b' => exact ⟨⟨h.1.1, Int.le_trans hb h.1.2⟩, h.2⟩
  | inr out => exact h

/-- The search of a file in order is correct just if the file is empty, or `start` is more than one
behind its end, or the last record is one of those to be searched and not in front of what is
looked for. -/
theorem searchRecordBin_correct_iff (start : Int) (fptr : α → Int) (behind : Option α) (file : List α)
    (hstart : 1 ≤ start) (horder : FollowsOrder fptr file) :
    ∃ out, searchRecordBin start fptr behind file = some out ∧
      (out.Correct start fptr file ↔ file = [] ∨ (file.length : Int) < start - 1 ∨
        start ≤ file.length ∧ ∀ x, cell file (file.length - 1) = some x → fptr x ≤ 0) := by
  by_cases hcond : file = [] ∨ (file.length : Int) < start - 1 ∨
    start ≤ file.length ∧ ∀ x, cell file (file.length - 1) = some x → fptr x ≤ 0
  · obtain ⟨out, hout, h⟩ := searchRecordBin_correct behind hstart horder hcond
    exact ⟨out, hout, iff_of_true h hcond⟩
  · obtain ⟨hne, hlt, hlast⟩ := not_or.mp hcond |>.imp id not_or.mp
    have hearly : ∀ i x, start - 1 ≤ i → cell file i = some x → 0 < fptr x := by
      intro i x hi hx
      have hcell := cell_lt hx
      have hstart_le : start ≤ file.length := by omega
      obtain ⟨y, hy⟩ : ∃ y, cell file (file.length - 1) = some y := by
        refine ⟨_, (cell_of_nonneg (by omega)).trans (List.getElem?_eq_getElem ?_)⟩
        omega
      refine (horder.cells (by omega) hx hy).2 (Int.not_le.mp fun hle => hlast ⟨hstart_le, ?_⟩)
      intro z hz
      rw [hy] at hz
      exact Option.some.inj hz ▸ hle
    obtain ⟨out, hout, hmem⟩ := searchRecordBin_past behind hstart
      (List.length_pos_iff.mpr hne) (by omega) hearly
    refine ⟨out, hout, iff_of_false (fun h => ?_) hcond⟩
    have hin := (h.inspected _ hmem).2
    omega

theorem searchRecordBin_correct_iff_two :
    ∃ out, searchRecordBin 1 (fun x : Int => 5 - x) (some 0) [5, 7] = some out ∧
      (out.Correct 1 (fun x : Int => 5 - x) [5, 7] ↔ ([5, 7] : List Int) = [] ∨ (2 : Int) < 1 - 1 ∨
        (1 : Int) ≤ 2 ∧ ∀ x, cell ([5, 7] : List Int) (2 - 1) = some x → 5 - x ≤ 0) :=
  searchRecordBin_correct_iff 1 (fun x : Int => 5 - x) (some 0) [5, 7] (by decide)
    (List.pairwise_pair.mpr (by decide))

/-- What is looked for is later than the only record. Behind it the mapping is zero, which ends the
search without a match, but it has been looked at. -/
theorem not_correct_behind : ∃ out,
    searchRecordBin 1 (fun x : Int => 9 - x) (some 0) [5] = some out ∧
      ¬out.Correct 1 (fun x : Int => 9 - x) [5] := by
  refine ⟨⟨[0, 1], none⟩, by decide, fun h => ?_⟩
  have hin := (h.inspected 1 (by decide)).2
  exact absurd hin (by decide)

end

end ArgoBbs

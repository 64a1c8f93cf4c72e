import Mathlib.Data.List.Perm.Basic
import Mathlib.Data.List.TakeDrop

/-! # What the deleters remove

`delete_record`, `process_records` and `delete_file` map the file of records and move the records
that stay to its front (`record.c`). A file is the list of its records; each function below is the
code on the records of the mapping and returns the records that stay, in order, and the records it
selected, or nothing where the code returns `-1` and leaves the file alone. -/

namespace ArgoBbs

variable {α : Type}

/-- The records without the one in the cell `i`, and that record. -/
def cutCell (view : List α) (i : Nat) : List α × List α :=
  (view.take i ++ view.drop (i + 1), (view.drop i).take 1)

def deleteRecord (id : Int) (view : List α) : Option (List α × List α) :=
  if id ≤ 0 ∨ view.length < id then none
  else some (cutCell view (id.toNat - 1))

/-- The loop of `process_records`. The callback sees the records before the one it decides on, and
answers whether to keep it. -/
def processLoop (filecheck : List α → α → Bool) (seen : List α) : List α → List α × List α
  | [] => ([], [])
  | x :: rest =>
    let (kept, selected) := processLoop filecheck (seen ++ [x]) rest
    if filecheck seen x then (x :: kept, selected) else (kept, x :: selected)

def processRecords (id1 id2 : Int) (filecheck : List α → α → Bool) (view : List α) :
    Option (List α × List α) :=
  if id1 ≤ 0 ∨ id2 < id1 ∨ view.length < id1 then none
  else
    let endpoint := min id2.toNat view.length
    let start := id1.toNat - 1
    let (kept, selected) := processLoop filecheck [] ((view.take endpoint).drop start)
    some (view.take start ++ kept ++ view.drop endpoint, selected)

/-- The entry is the record that `ent` says if it has the name, else the first with the name. -/
def deleteFile (ent : Int) (hasName : α → Bool) (view : List α) : Option (List α × List α) :=
  if 0 < ent ∧ ((view[ent.toNat - 1]?).map hasName).getD false then
    some (cutCell view (ent.toNat - 1))
  else (view.findIdx? hasName).map (cutCell view)

/-- The calls that delete records. -/
inductive Deletion (α : Type)
  | record (id : Int)
  | range (id1 id2 : Int) (filecheck : List α → α → Bool)
  | file (ent : Int) (hasName : α → Bool)

def Deletion.plan : Deletion α → List α → Option (List α × List α)
  | .record id, view => deleteRecord id view
  | .range id1 id2 filecheck, view => processRecords id1 id2 filecheck view
  | .file ent hasName, view => deleteFile ent hasName view

/-! ## The records that stay and the selected ones -/

/-- The records are divided into those that stay, in order, and the selected ones. -/
structure Divides (view kept selected : List α) : Prop where
  sublist : kept.Sublist view
  perm : (kept ++ selected).Perm view

theorem Divides.length {view kept selected : List α} (h : Divides view kept selected) :
    kept.length + selected.length = view.length := by
  rw [← List.length_append, h.perm.length_eq]

theorem divides_cutCell (view : List α) (i : Nat) :
    Divides view (cutCell view i).1 (cutCell view i).2 := by
  have hview : view.take i ++ ((view.drop i).take 1 ++ view.drop (i + 1)) = view := by
    rw [← List.drop_drop, List.take_append_drop, List.take_append_drop]
  constructor
  · calc (view.take i ++ view.drop (i + 1)).Sublist
          (view.take i ++ ((view.drop i).take 1 ++ view.drop (i + 1))) :=
            (List.sublist_append_right _ _).append_left _
      _ = view := hview
  · calc (view.take i ++ view.drop (i + 1) ++ (view.drop i).take 1).Perm
          (view.take i ++ ((view.drop i).take 1 ++ view.drop (i + 1))) := by
            rw [List.append_assoc]
            exact List.perm_append_comm.append_left _
      _ = view := hview

theorem divides_processLoop (filecheck : List α → α → Bool) (seen view : List α) :
    Divides view (processLoop filecheck seen view).1 (processLoop filecheck seen view).2 := by
  induction view generalizing seen with
  | nil => exact ⟨.slnil, .nil⟩
  | cons x view ih =>
    obtain ⟨hsub, hperm⟩ := ih (seen ++ [x])
    rw [processLoop]
    dsimp only
    split
    · exact ⟨hsub.cons_cons x, hperm.cons x⟩
    · exact ⟨hsub.cons x, List.perm_middle.trans (hperm.cons x)⟩

/-- Records in front of and behind the divided ones stay. -/
theorem Divides.between {view kept selected : List α} (h : Divides view kept selected)
    (front back : List α) : Divides (front ++ (view ++ back)) (front ++ kept ++ back) selected where
  sublist := by
    rw [List.append_assoc]
    exact (h.sublist.append_right back).append_left front
  perm := by
    simp only [List.append_assoc]
    refine List.Perm.append_left front ?_
    calc (kept ++ (back ++ selected)).Perm (kept ++ (selected ++ back)) :=
          List.perm_append_comm.append_left kept
      _ = kept ++ selected ++ back := (List.append_assoc ..).symm
      List.Perm _ (view ++ back) := h.perm.append_right back

theorem length_cutCell {view : List α} {i : Nat} (hi : i < view.length) :
    (cutCell view i).2.length = 1 := by
  simp only [cutCell, List.length_take, List.length_drop]
  omega

section
variable {view kept selected : List α} {id id1 id2 ent : Int} {filecheck : List α → α → Bool}
  {hasName : α → Bool}

theorem deleteRecord_divides (h : deleteRecord id view = some (kept, selected)) :
    Divides view kept selected ∧ selected.length = 1 := by
  unfold deleteRecord at h
  split at h
  case isTrue => cases h
  case isFalse hid =>
    cases h
    exact ⟨divides_cutCell view _, length_cutCell (by omega)⟩

theorem processRecords_divides
    (h : processRecords id1 id2 filecheck view = some (kept, selected)) :
    Divides view kept selected := by
  unfold processRecords at h
  split at h
  case isTrue => cases h
  case isFalse hid =>
    cases h
    obtain ⟨stop, hstop⟩ : ∃ stop, stop = min id2.toNat view.length := ⟨_, rfl⟩
    rw [← hstop]
    have hview : view.take (id1.toNat - 1) ++
        ((view.take stop).drop (id1.toNat - 1) ++ view.drop stop) = view := by
      have htake : view.take (id1.toNat - 1) = (view.take stop).take (id1.toNat - 1) := by
        rw [List.take_take, Nat.min_eq_left (by omega)]
      rw [htake, ← List.append_assoc, List.take_append_drop, List.take_append_drop]
    have h := (divides_processLoop filecheck [] ((view.take stop).drop (id1.toNat - 1))).between
      (view.take (id1.toNat - 1)) (view.drop stop)
    rwa [hview] at h

theorem deleteFile_divides (h : deleteFile ent hasName view = some (kept, selected)) :
    Divides view kept selected ∧ selected.length = 1 := by
  unfold deleteFile at h
  split at h
  case isTrue hent =>
    cases h
    refine ⟨divides_cutCell view _, length_cutCell ?_⟩
    by_contra hlen
    rw [List.getElem?_eq_none (by omega)] at hent
    exact absurd hent.2 Bool.false_ne_true
  case isFalse =>
    obtain ⟨i, hi, hcut⟩ := Option.map_eq_some_iff.mp h
    obtain ⟨hlt, -⟩ := List.findIdx?_eq_some_iff_getElem.mp hi
    cases hcut
    exact ⟨divides_cutCell view i, length_cutCell hlt⟩

theorem cutCell_selected {i : Nat} {x : α} (hi : view[i]? = some x) : (cutCell view i).2 = [x] := by
  obtain ⟨hlt, rfl⟩ := List.getElem?_eq_some_iff.mp hi
  rw [cutCell, List.drop_eq_getElem_cons hlt]
  rfl

theorem cutCell_perm {i : Nat} {x : α} (hi : view[i]? = some x) :
    view.Perm (x :: (cutCell view i).1) := by
  have hperm := (divides_cutCell view i).perm
  rw [cutCell_selected hi] at hperm
  exact hperm.symm.trans (List.perm_append_singleton ..)

/-- The record taken out is the one with the number. -/
theorem deleteRecord_selected (h : deleteRecord id view = some (kept, selected)) :
    ∃ x, view[id.toNat - 1]? = some x ∧ selected = [x] ∧ view.Perm (x :: kept) := by
  unfold deleteRecord at h
  split at h
  case isTrue => cases h
  case isFalse hid =>
    obtain ⟨x, hx⟩ : ∃ x, view[id.toNat - 1]? = some x :=
      ⟨_, List.getElem?_eq_getElem (by omega)⟩
    cases h
    exact ⟨x, hx, cutCell_selected hx, cutCell_perm hx⟩

/-- The record taken out has the name. -/
theorem deleteFile_selected (h : deleteFile ent hasName view = some (kept, selected)) :
    ∃ x, hasName x = true ∧ selected = [x] ∧ view.Perm (x :: kept) := by
  unfold deleteFile at h
  split at h
  case isTrue hent =>
    cases h
    cases hx : view[ent.toNat - 1]? with
    | none => simp [hx] at hent
    | some x => exact ⟨x, by simpa [hx] using hent.2, cutCell_selected hx, cutCell_perm hx⟩
  case isFalse =>
    obtain ⟨i, hi, hcut⟩ := Option.map_eq_some_iff.mp h
    obtain ⟨hlt, hname, -⟩ := List.findIdx?_eq_some_iff_getElem.mp hi
    have hx := List.getElem?_eq_getElem hlt
    cases hcut
    exact ⟨_, hname, cutCell_selected hx, cutCell_perm hx⟩

theorem deleteFile_eq_none (h : deleteFile ent hasName view = none) :
    ∀ x ∈ view, hasName x = false := by
  unfold deleteFile at h
  split at h
  case isTrue => cases h
  case isFalse => exact List.findIdx?_eq_none_iff.mp (Option.map_eq_none_iff.mp h)

end

/-- The size that `ftruncate` gives the file: `process_records` calls it only if it has selected a
record. -/
def Deletion.newSize (d : Deletion α) (n : Nat) (selected : List α) : Option Nat :=
  match d with
  | .range .. => if selected.length > 0 then some (n - selected.length) else none
  | .record _ | .file .. => some (n - 1)

/-- The records that stay are those in front of the new size. -/
theorem Deletion.plan_divides {d : Deletion α} {view kept selected : List α}
    (h : d.plan view = some (kept, selected)) : Divides view kept selected ∧
      ((d.newSize view.length selected).getD view.length = kept.length) := by
  cases d with
  | record id =>
    obtain ⟨hdiv, hone⟩ := deleteRecord_divides h
    have hlen := hdiv.length
    exact ⟨hdiv, show view.length - 1 = kept.length by omega⟩
  | range id1 id2 filecheck =>
    have hdiv := processRecords_divides h
    have hlen := hdiv.length
    refine ⟨hdiv, ?_⟩
    show (if selected.length > 0 then some (view.length - selected.length) else none).getD
      view.length = kept.length
    split
    · exact show view.length - selected.length = kept.length by omega
    · exact show view.length = kept.length by omega
  | file ent hasName =>
    obtain ⟨hdiv, hone⟩ := deleteFile_divides h
    have hlen := hdiv.length
    exact ⟨hdiv, show view.length - 1 = kept.length by omega⟩

end ArgoBbs

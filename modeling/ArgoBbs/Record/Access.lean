import ArgoBbs.Record.Writers

/-! # Records by their numbers

Reading, finding and overwriting a record, and a deletion from the call of `fstat` on as two steps
(`record.c`). The other writers lock the file too, so what a deleter does under its lock is one
step; but it moves and cuts by the size that it has read before. -/

namespace ArgoBbs

variable {α : Type}

/-- `get_record`; the first record has the number 1. -/
def getRecord (id : Int) (file : List α) : Option α :=
  if id ≤ 0 then none else file[id.toNat - 1]?

/-- `search_record`: the number of the first record that fits, and the record. -/
def searchRecord (fits : α → Bool) (file : List α) : Option (Nat × α) :=
  (file.findIdx? fits).bind fun i => file[i]?.map (i + 1, ·)

/-- The number of the record that `delete_file` takes out. -/
def fileNumber (ent : Int) (hasName : α → Bool) (file : List α) : Option Nat :=
  if 0 < ent ∧ ((file[ent.toNat - 1]?).map hasName).getD false then some ent.toNat
  else (file.findIdx? hasName).map (· + 1)

/-- `substitute_record`; what lies between the end of the file and the record is zero. -/
def substituteRecord [Inhabited α] (id : Int) (r : α) (file : List α) : Option (List α) :=
  if id < 1 then none
  else if id.toNat - 1 < file.length then some (file.set (id.toNat - 1) r)
  else some (resize (id.toNat - 1) file ++ [r])

/-- What a deleter that knows the size makes of the file, and the records it has selected. -/
def deleteSized [Inhabited α] (d : Deletion α) (size : Nat) (file : List α) :
    Option (List α × List α) :=
  (d.plan (resize size file)).map fun (kept, selected) =>
    let moved := moveRecords size kept file
    match d.newSize size selected with
    | some n => (resize n moved, selected)
    | none => (moved, selected)

/-- The record with one number gets another number; those between move up or down. -/
def moveTo [Inhabited α] (srcid dstid : Nat) (view : List α) : List α :=
  (view.eraseIdx (srcid - 1)).insertIdx (dstid - 1) (view.getD (srcid - 1) default)

/-- `move_record` under its lock, with the size that it has compared the numbers to. -/
def moveSized [Inhabited α] (srcid dstid size : Nat) (file : List α) : List α :=
  moveRecords size (moveTo srcid dstid (resize size file)) file

variable {file kept selected : List α} {r : α} {id : Int} {n : Nat} {fits : α → Bool}

theorem searchRecord_some (h : searchRecord fits file = some (n, r)) :
    0 < n ∧ file[n - 1]? = some r ∧ fits r = true := by
  obtain ⟨i, hi, hr⟩ := Option.bind_eq_some_iff.mp h
  obtain ⟨x, hx, heq⟩ := Option.map_eq_some_iff.mp hr
  obtain ⟨hlt, hfits, -⟩ := List.findIdx?_eq_some_iff_getElem.mp hi
  rw [List.getElem?_eq_getElem hlt] at hx
  cases hx
  cases heq
  exact ⟨Nat.succ_pos i, List.getElem?_eq_getElem hlt, hfits⟩

theorem getRecord_some (h : getRecord id file = some r) : 0 < id ∧ file[id.toNat - 1]? = some r := by
  unfold getRecord at h
  split at h
  · cases h
  · exact ⟨by omega, h⟩

theorem exists_getRecord {n : Nat} (hpos : 0 < n) (hle : n ≤ file.length) :
    ∃ x, getRecord n file = some x := by
  refine ⟨file.get ⟨n - 1, by omega⟩, ?_⟩
  rw [getRecord, if_neg (by omega), Int.toNat_natCast]
  exact List.getElem?_eq_getElem (by omega)

/-- The record that `delete_record` takes out is the one that `get_record` reads. -/
theorem deleteRecord_getRecord (h : deleteRecord id file = some (kept, selected)) :
    ∃ x, getRecord id file = some x ∧ selected = [x] ∧ file.Perm (x :: kept) := by
  obtain ⟨x, hx, hsel, hperm⟩ := deleteRecord_selected h
  refine ⟨x, ?_, hsel, hperm⟩
  unfold deleteRecord at h
  split at h
  case isTrue => cases h
  case isFalse hid => rw [getRecord, if_neg (by omega), hx]

theorem deleteRecord_le_length (h : deleteRecord id file = some (kept, selected)) :
    0 < id ∧ id ≤ file.length := by
  obtain ⟨x, hx, -⟩ := deleteRecord_getRecord h
  obtain ⟨hpos, hmem⟩ := getRecord_some hx
  obtain ⟨hlt, -⟩ := List.getElem?_eq_some_iff.mp hmem
  omega

theorem deleteRecord_eq_none (h : deleteRecord id file = none) : getRecord id file = none := by
  unfold deleteRecord at h
  split at h
  case isTrue hid =>
    unfold getRecord
    split
    · rfl
    · exact List.getElem?_eq_none (by omega)
  case isFalse => cases h

theorem fileNumber_eq_none {ent : Int} (h : fileNumber ent fits file = none) :
    deleteFile ent fits file = none := by
  unfold fileNumber at h
  split at h
  case isTrue => cases h
  case isFalse hent =>
    rw [deleteFile, if_neg hent, Option.map_eq_none_iff.mp h]
    rfl

/-- `delete_file` takes out the record that it has found, which has the name. -/
theorem fileNumber_some {ent : Int} (h : fileNumber ent fits file = some n) :
    deleteFile ent fits file = deleteRecord n file ∧ ∃ x, getRecord n file = some x ∧ fits x := by
  unfold fileNumber at h
  split at h
  case isTrue hent =>
    cases h
    cases hx : file[ent.toNat - 1]? with
    | none => simp [hx] at hent
    | some x =>
      obtain ⟨hlt, -⟩ := List.getElem?_eq_some_iff.mp hx
      refine ⟨?_, x, ?_, by simpa [hx] using hent.2⟩
      · rw [deleteFile, if_pos hent, deleteRecord, if_neg (by omega), Int.toNat_natCast]
      · rw [getRecord, if_neg (by omega), Int.toNat_natCast, hx]
  case isFalse hent =>
    obtain ⟨i, hi, rfl⟩ := Option.map_eq_some_iff.mp h
    obtain ⟨hlt, hname, -⟩ := List.findIdx?_eq_some_iff_getElem.mp hi
    refine ⟨?_, _, ?_, hname⟩
    · rw [deleteFile, if_neg hent, hi, deleteRecord, if_neg (by omega)]
      rfl
    · rw [getRecord, if_neg (by omega)]
      exact List.getElem?_eq_getElem hlt

theorem getRecord_map {β : Type} (f : α → β) :
    getRecord id (file.map f) = (getRecord id file).map f := by
  unfold getRecord
  split
  · rfl
  · exact List.getElem?_map

/-- A record of the file is overwritten in its place. -/
theorem substituteRecord_set [Inhabited α] (h : getRecord id file = some r) (x : α) :
    substituteRecord id x file = some (file.set (id.toNat - 1) x) := by
  obtain ⟨hpos, hr⟩ := getRecord_some h
  obtain ⟨hlt, -⟩ := List.getElem?_eq_some_iff.mp hr
  rw [substituteRecord, if_neg (by omega), if_pos hlt]

theorem getRecord_append (h : getRecord id file = some r) (x : α) :
    getRecord id (file ++ [x]) = some r := by
  obtain ⟨hpos, hr⟩ := getRecord_some h
  obtain ⟨hlt, -⟩ := List.getElem?_eq_some_iff.mp hr
  rw [getRecord, if_neg (by omega), List.getElem?_append_left hlt, hr]

/-- The records in front of the one taken out keep their numbers. -/
theorem getRecord_deleteRecord {id' : Int} (h : deleteRecord id file = some (kept, selected))
    (hlt : id' < id) : getRecord id' kept = getRecord id' file := by
  unfold deleteRecord at h
  split at h
  case isTrue => cases h
  case isFalse hid =>
    cases h
    unfold getRecord
    split
    · rfl
    · have hlen : (file.take (id.toNat - 1)).length = id.toNat - 1 := by
        rw [List.length_take]
        omega
      rw [List.getElem?_append_left (by omega), List.getElem?_take_of_lt (by omega)]

theorem length_resize [Inhabited α] (n : Nat) (file : List α) : (resize n file).length = n := by
  rw [resize, List.length_take, List.length_append, List.length_replicate]
  omega

theorem length_moveTo [Inhabited α] {srcid dstid : Nat} {v : List α} (hsrc : 0 < srcid)
    (hdst : 0 < dstid) (hsrc' : srcid ≤ v.length) (hdst' : dstid ≤ v.length) :
    (moveTo srcid dstid v).length = v.length := by
  have herase : (v.eraseIdx (srcid - 1)).length = v.length - 1 :=
    List.length_eraseIdx_of_lt (by omega)
  rw [moveTo, List.length_insertIdx_of_le_length (by omega), herase]
  omega

theorem length_moveSized [Inhabited α] {srcid dstid size : Nat} (hsrc : 0 < srcid)
    (hdst : 0 < dstid) (hsrc' : srcid ≤ size) (hdst' : dstid ≤ size) :
    (moveSized srcid dstid size file).length = file.length := by
  have hlen := length_moveTo (v := resize size file) hsrc hdst
    (by rw [length_resize]; exact hsrc') (by rw [length_resize]; exact hdst')
  rw [length_resize] at hlen
  rw [moveSized, moveRecords, List.length_append, List.length_take, List.length_append,
    List.length_drop, List.length_drop, length_resize, hlen]
  omega

/-- The records outside of the numbers moved between keep their numbers. -/
theorem getRecord_moveSized [Inhabited α] {srcid dstid size n : Nat} (hsrc : 0 < srcid)
    (hdst : 0 < dstid) (hsrc' : srcid ≤ size) (hdst' : dstid ≤ size)
    (hn : n < min srcid dstid ∨ max srcid dstid < n) (h : getRecord n file = some r) :
    getRecord n (moveSized srcid dstid size file) = some r := by
  obtain ⟨hpos, hr⟩ := getRecord_some h
  obtain ⟨hlt, -⟩ := List.getElem?_eq_some_iff.mp hr
  rw [Int.toNat_natCast] at hr hlt
  have hlen := length_moveTo (v := resize size file) hsrc hdst
    (by rw [length_resize]; exact hsrc') (by rw [length_resize]; exact hdst')
  rw [length_resize] at hlen
  rw [getRecord, if_neg (by omega), Int.toNat_natCast, moveSized, moveRecords,
    List.drop_eq_nil_of_le (by rw [length_resize]; omega), List.append_nil]
  by_cases hsize : n - 1 < size
  · have hview : (resize size file)[n - 1]? = some r := by
      rw [resize, List.getElem?_take_of_lt hsize, List.getElem?_append_left hlt, hr]
    rw [List.getElem?_append_left (by rw [List.length_take]; omega),
      List.getElem?_take_of_lt hlt, moveTo, ← hview]
    rcases hn with hn | hn
    · rw [List.getElem?_insertIdx_of_lt (by omega), List.getElem?_eraseIdx_of_lt (by omega)]
    · rw [List.getElem?_insertIdx_of_gt (by omega), List.getElem?_eraseIdx_of_ge (by omega),
        Nat.sub_add_cancel (by omega)]
  · rw [List.getElem?_append_right (by rw [List.length_take]; omega), List.getElem?_drop,
      List.length_take, ← hr]
    congr 1
    omega

/-- A deleter that knows the size of the file leaves the records that stay. -/
theorem deleteSized_eq [Inhabited α] (d : Deletion α) (file : List α) :
    deleteSized d file.length file = d.plan file := by
  have hview : resize file.length file = file := by
    rw [resize_of_le (Nat.le_refl _), List.take_length]
  rw [deleteSized, hview]
  cases hplan : d.plan file with
  | none => rfl
  | some result =>
    obtain ⟨kept, selected⟩ := result
    obtain ⟨hdiv, hsize⟩ := Deletion.plan_divides hplan
    have hlen : kept.length ≤ file.length := hdiv.sublist.length_le
    rw [Option.map_some]
    dsimp only
    rw [moveRecords_of_le (Nat.le_refl _) hlen]
    cases hnew : d.newSize file.length selected with
    | none =>
      rw [hnew, Option.getD_none] at hsize
      dsimp only
      rw [List.drop_eq_nil_of_le (Nat.le_of_eq hsize), List.append_nil]
    | some m =>
      rw [hnew, Option.getD_some] at hsize
      dsimp only
      rw [hsize, resize_of_le (by rw [List.length_append]; omega), List.take_left' rfl]

end ArgoBbs

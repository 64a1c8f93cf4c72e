import ArgoBbs.Lib.CString
import ArgoBbs.Lib.Loop
import Mathlib.Algebra.Ring.Nat
import Mathlib.Data.List.Basic

/-! # The numbers of the records in a file of bytes

`get_num_records` divides the size of the file, `get_record` reads from an offset, and
`apply_record` and `search_record_forward` run over the mapping up to the size of the file
(`record.c`). A write that was cut off leaves an incomplete record at the end. -/

namespace ArgoBbs

/-- The record at an offset of the mapping. Behind the end of the file the page is zero. -/
def mappedRecord (size : Nat) (file : Bytes) (offset : Nat) : Bytes :=
  (file.drop offset).take size ++ List.replicate (offset + size - file.length) 0

def getNumRecords (size : Nat) (file : Bytes) : Nat := file.length / size

/-- `get_record`: `lseek` fails for a negative offset, and `read` must give the whole record. -/
def getRecordBytes (size : Nat) (id : Int) (file : Bytes) : Option Bytes :=
  if id < 1 then none
  else
    let r := (file.drop ((id - 1).toNat * size)).take size
    if r.length = size then some r else none

/-- A loop over the mapping. `visited` are the numbers, from 1 on, of the records that the callback
was called on. -/
structure RecordWalk where
  offset : Nat
  id : Nat
  visited : List Nat

def RecordWalk.next (size : Nat) (w : RecordWalk) : RecordWalk :=
  ⟨w.offset + size, w.id + 1, w.visited ++ [w.offset / size + 1]⟩

/-- What a loop has visited, and the number and the record with which it has stopped. -/
structure RecordWalkResult where
  visited : List Nat
  found : Option (Nat × Bytes)
  deriving DecidableEq

/-- The loops of both functions: `stops` is called with a record and its number. -/
def RecordWalk.turn (size : Nat) (stops : Bytes → Nat → Bool) (file : Bytes) (w : RecordWalk) :
    Option (RecordWalk ⊕ RecordWalkResult) :=
  if w.offset < file.length then
    let r := mappedRecord size file w.offset
    if stops r w.id then some (.inr ⟨(w.next size).visited, some (w.id, r)⟩)
    else some (.inl (w.next size))
  else some (.inr ⟨w.visited, none⟩)

/-- `apply_record`; `quits` says whether `fptr` returns `QUIT`. -/
def applyRecord (size : Nat) (quits : Bytes → Nat → Bool) (file : Bytes) : Option RecordWalkResult :=
  loop (RecordWalk.turn size quits file) (file.length + 1) ⟨0, 1, []⟩

/-- `search_record_forward`: it counts from 1 wherever it starts. -/
def searchRecordForward (size : Nat) (start : Int) (fptr : Bytes → Bool) (file : Bytes) :
    Option RecordWalkResult :=
  if start ≤ 0 then some ⟨[], none⟩
  else loop (RecordWalk.turn size (fun r _ => fptr r) file) (file.length + 1)
    ⟨(start - 1).toNat * size, 1, []⟩

/-- The number of the first record from `start` on that fits, with the record, if there is one. -/
structure FirstFrom (size : Nat) (start : Int) (fptr : Bytes → Bool) (file : Bytes)
    (out : Option (Nat × Bytes)) : Prop where
  found : ∀ id r, out = some (id, r) → start ≤ id ∧ getRecordBytes size id file = some r ∧
    fptr r = true ∧ ∀ (j : Nat) x, start ≤ j → j < id → getRecordBytes size j file = some x →
      fptr x = false
  missing : out = none → ∀ (j : Nat) x, start ≤ j → getRecordBytes size j file = some x →
    fptr x = false

/-- Unless they are stopped, both loops visit the records that `get_num_records` counts. -/
def VisitsRecords (size : Nat) (file : Bytes) : Prop :=
  ∃ applied searched, applyRecord size (fun _ _ => false) file = some applied ∧
    searchRecordForward size 1 (fun _ => false) file = some searched ∧
    applied.visited = List.range' 1 (getNumRecords size file) ∧
    searched.visited = List.range' 1 (getNumRecords size file)

section
variable {size : Nat} {file : Bytes} {start : Int} {fptr : Bytes → Bool}

/-- A record that is complete is the same for all. -/
theorem getRecordBytes_succ (file : Bytes) (hsize : 0 < size) (j : Nat) :
    getRecordBytes size (j + 1 : Nat) file =
      if j * size + size ≤ file.length then some (mappedRecord size file (j * size)) else none := by
  have hj : (((j + 1 : Nat) : Int) - 1).toNat = j := by omega
  rw [getRecordBytes, if_neg (by omega), hj]
  dsimp only
  rw [List.length_take, List.length_drop]
  split
  case isTrue h =>
    rw [if_pos (by omega), mappedRecord, show j * size + size - file.length = 0 by omega,
      List.replicate_zero, List.append_nil]
  case isFalse h => rw [if_neg (by omega)]

/-- In a file without an incomplete record, what begins in the file is in the file. -/
theorem complete_of_lt (hwhole : file.length % size = 0) {j : Nat} (h : j * size < file.length) :
    j * size + size ≤ file.length := by
  obtain ⟨n, hn⟩ := Nat.dvd_of_mod_eq_zero hwhole
  rw [hn, Nat.mul_comm size n] at h ⊢
  have hjn : j < n := Nat.lt_of_mul_lt_mul_right h
  calc j * size + size = (j + 1) * size := (Nat.succ_mul j size).symm
    _ ≤ n * size := Nat.mul_le_mul_right size hjn

/-- A loop that is not stopped visits records up to the end of the file. -/
theorem walk_visits (file : Bytes) (hsize : 0 < size) :
    ∃ out, loop (RecordWalk.turn size (fun _ _ => false) file) (file.length + 1) ⟨0, 1, []⟩ = some out ∧
      ∃ k, out.visited = List.range' 1 k ∧ file.length ≤ k * size := by
  refine loop_total (C := fun _ => true)
    (fun w => ∃ k, w.offset = k * size ∧ w.visited = List.range' 1 k) _
    (fun w => file.length - w.offset) ?_ ⟨0, (Nat.zero_mul size).symm, rfl⟩ (loopAlong_true ..)
    (by dsimp only; omega)
  rintro w ⟨k, hoffset, hvisited⟩ -
  rw [RecordWalk.turn]
  split
  case isTrue hlt =>
    refine ⟨_, rfl, ⟨k + 1, ?_, ?_⟩, ?_⟩
    · rw [RecordWalk.next, hoffset, Nat.succ_mul]
    · rw [RecordWalk.next, hvisited, hoffset, Nat.mul_div_cancel k hsize, List.range'_concat, Nat.one_mul,
        Nat.add_comm 1]
    · dsimp only [RecordWalk.next]
      omega
  case isFalse hge => exact ⟨_, rfl, k, hvisited, by rw [← hoffset]; omega⟩

/-- The search of a file without an incomplete record: the number that it counts, from the start
on. -/
theorem searchRecordForward_walk (fptr : Bytes → Bool) (hsize : 0 < size)
    (hwhole : file.length % size = 0) (s : Nat) :
    ∃ out, searchRecordForward size (s + 1 : Nat) fptr file = some out ∧
      (∀ id r, out.found = some (id, r) →
        1 ≤ id ∧ FirstFrom size (s + 1 : Nat) fptr file (some (s + id, r))) ∧
      (out.found = none → FirstFrom size (s + 1 : Nat) fptr file none) := by
  rw [searchRecordForward, if_neg (by omega), show (((s + 1 : Nat) : Int) - 1).toNat = s by omega]
  refine loop_total (C := fun _ => true)
    (fun w => ∃ k, w.offset = (s + k) * size ∧ w.id = k + 1 ∧
      ∀ (j : Nat) x, s + 1 ≤ j → j ≤ s + k → getRecordBytes size j file = some x → fptr x = false) _
    (fun w => file.length - w.offset) ?_ ⟨0, rfl, rfl, fun j x h1 h2 => by omega⟩
    (loopAlong_true ..) (by dsimp only; omega)
  rintro w ⟨k, hoffset, hid, hbefore⟩ -
  have hget := getRecordBytes_succ file hsize (s + k)
  rw [RecordWalk.turn]
  split
  case isTrue hlt =>
    rw [if_pos (complete_of_lt hwhole (hoffset ▸ hlt)), ← hoffset] at hget
    dsimp only
    split
    case isTrue hfits =>
      refine ⟨_, rfl, fun id r hfound => ?_, nofun⟩
      cases hfound
      rw [hid]
      refine ⟨Nat.succ_pos k, fun id r h => ?_, nofun⟩
      cases h
      refine ⟨by omega, hget, hfits, fun j x h1 h2 => hbefore j x (by omega) (by omega)⟩
    case isFalse hfits =>
      refine ⟨_, rfl, ⟨k + 1, ?_, ?_, fun j x h1 h2 hx => ?_⟩, ?_⟩
      · rw [RecordWalk.next, hoffset, ← Nat.add_assoc, Nat.succ_mul]
      · rw [RecordWalk.next, hid]
      · rcases Nat.eq_or_lt_of_le h2 with rfl | h2
        · rw [← Nat.add_assoc, hget] at hx
          cases hx
          exact Bool.eq_false_iff.mpr hfits
        · exact hbefore j x h1 (by omega) hx
      · dsimp only [RecordWalk.next]
        omega
  case isFalse hge =>
    refine ⟨_, rfl, nofun, fun _ => ⟨nofun, fun _ j x h1 hx => ?_⟩⟩
    rcases Nat.lt_or_ge (s + k) j with hlt | hle
    · -- a record behind the end of the file cannot be read
      obtain ⟨i, rfl⟩ : ∃ i, j = i + 1 := ⟨j - 1, by omega⟩
      rw [getRecordBytes_succ file hsize] at hx
      split at hx
      case isTrue h =>
        have hmul := Nat.mul_le_mul_right size (show s + k ≤ i by omega)
        omega
      case isFalse => cases hx
    · exact hbefore j x (by omega) hle hx

theorem searchRecordForward_total (hsize : 0 < size) (start : Int) (fptr : Bytes → Bool)
    (file : Bytes) : ∃ out, searchRecordForward size start fptr file = some out := by
  rw [searchRecordForward]
  split
  · exact ⟨_, rfl⟩
  · have h : ∃ out, loop (RecordWalk.turn size (fun r _ => fptr r) file) (file.length + 1)
        ⟨(start - 1).toNat * size, 1, []⟩ = some out ∧ True := by
      refine loop_total (C := fun _ => true) (fun _ => True) _ (fun w => file.length - w.offset) ?_
        trivial (loopAlong_true ..) (by dsimp only; omega)
      intro w _ _
      rw [RecordWalk.turn]
      split
      case isTrue hlt =>
        dsimp only
        split
        · exact ⟨_, rfl, trivial⟩
        · refine ⟨_, rfl, trivial, ?_⟩
          dsimp only [RecordWalk.next]
          omega
      case isFalse => exact ⟨_, rfl, trivial⟩
    exact h.imp fun out h => h.1

theorem FirstFrom.unique {id id' : Nat} {r r' : Bytes}
    (h : FirstFrom size start fptr file (some (id, r)))
    (h' : FirstFrom size start fptr file (some (id', r'))) : id = id' := by
  obtain ⟨hstart, hget, hfits, hfirst⟩ := h.found id r rfl
  obtain ⟨hstart', hget', hfits', hfirst'⟩ := h'.found id' r' rfl
  rcases Nat.lt_trichotomy id id' with hlt | heq | hlt
  · rw [hfirst' id r hstart hlt hget] at hfits
    cases hfits
  · exact heq
  · rw [hfirst id' r' hstart' hlt hget'] at hfits'
    cases hfits'

/-- An incomplete record is visited too. -/
theorem not_visitsRecords (hsize : 0 < size) (htorn : file.length % size ≠ 0) :
    ¬VisitsRecords size file := by
  rintro ⟨applied, searched, happly, -, hvisited, -⟩
  obtain ⟨out, hout, k, hk, hle⟩ := walk_visits file hsize
  rw [applyRecord, hout] at happly
  cases happly
  have hlen := congrArg List.length (hk.symm.trans hvisited)
  rw [List.length_range', List.length_range', getNumRecords] at hlen
  rw [hlen] at hle
  have hdiv := Nat.div_add_mod' file.length size
  omega

end

end ArgoBbs

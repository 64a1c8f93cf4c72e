import ArgoBbs.Record.Numbering

/-! # Appending a record

`safewrite` calls `write` until all bytes are stored, and gives up after an error; `append_record`
returns `-1` then and leaves what has been stored (`record.c`). The file is open with `O_APPEND`,
and the other writers wait for the lock. -/

namespace ArgoBbs

/-- What a call of `write` does: it stores so many bytes, or it returns `-1` with `EINTR` or with
another error. -/
inductive WriteOutcome
  | stores (cc : Nat)
  | interrupted
  | fails
  deriving DecidableEq

/-- `safewrite`: whether it succeeds, and the file. There is no result while the loop has not
ended. -/
def safewrite : List WriteOutcome → Bytes → Bytes → Option (Bool × Bytes)
  | [], _, _ => none
  | .fails :: _, _, file => some (false, file)
  | .interrupted :: rest, buf, file =>
    if buf.length = 0 then some (true, file) else safewrite rest buf file
  | .stores cc :: rest, buf, file =>
    if (buf.drop cc).length = 0 then some (true, file ++ buf.take cc)
    else safewrite rest (buf.drop cc) (file ++ buf.take cc)

/-- `append_record` on a file that it can open: its result, and the file. -/
def appendRecord (outcomes : List WriteOutcome) (record file : Bytes) : Option (Int × Bytes) :=
  (safewrite outcomes record file).map fun (ok, file) => (if ok then 0 else -1, file)

/-- Calls one after the other: the file at the end, and the records of those that return `0`. -/
def appendRecords : List (Bytes × List WriteOutcome) → Bytes → Option (Bytes × List Bytes)
  | [], file => some (file, [])
  | (record, outcomes) :: calls, file =>
    (appendRecord outcomes record file).bind fun (err, file) =>
      (appendRecords calls file).map fun (file, appended) =>
        (file, if err = 0 then record :: appended else appended)

/-- `get_records`: the records that one `read` gives. -/
def getRecords (size : Nat) (id : Int) (number : Nat) (file : Bytes) : List Bytes :=
  if id < 1 then []
  else
    let rptr := (file.drop (size * (id - 1).toNat)).take (size * number)
    (List.range (rptr.length / size)).map fun i => (rptr.drop (i * size)).take size

/-- The bytes that are stored by some calls. -/
def WriteOutcome.stored : List WriteOutcome → Nat
  | [] => 0
  | .stores cc :: rest => cc + stored rest
  | .interrupted :: rest | .fails :: rest => stored rest

/-- A failed call leaves the file as it was. -/
def AppendsAtomically (record : Bytes) (outcomes : List WriteOutcome) : Prop :=
  ∀ file file', appendRecord outcomes record file = some (-1, file') → file' = file

/-- The first error comes before all stored bytes, or when all `size` bytes have been stored. -/
def FailsEarly (size : Nat) (outcomes : List WriteOutcome) : Prop :=
  ∀ before after, outcomes = before ++ .fails :: after → .fails ∉ before →
    WriteOutcome.stored before = 0 ∨ size ≤ WriteOutcome.stored before

section
variable {size : Nat} {buf file file' record : Bytes} {outcomes : List WriteOutcome}

/-- The loop gives up at the first error, unless all bytes have been stored before. -/
theorem safewrite_fails (h : safewrite outcomes buf file = some (false, file')) :
    ∃ before after, outcomes = before ++ .fails :: after ∧ .fails ∉ before ∧
      (before = [] ∨ WriteOutcome.stored before < buf.length) ∧
      file' = file ++ buf.take (WriteOutcome.stored before) := by
  induction outcomes generalizing buf file with
  | nil => cases h
  | cons o rest ih =>
    cases o with
    | fails =>
      cases h
      exact ⟨[], rest, rfl, List.not_mem_nil, .inl rfl, (List.append_nil _).symm⟩
    | interrupted =>
      rw [safewrite] at h
      split at h
      case isTrue => cases h
      case isFalse hbuf =>
        obtain ⟨before, after, rfl, hno, hlt, rfl⟩ := ih h
        refine ⟨.interrupted :: before, after, rfl, ?_, .inr ?_, rfl⟩
        · exact List.not_mem_cons_of_ne_of_not_mem nofun hno
        · rcases hlt with rfl | hlt
          · exact Nat.pos_of_ne_zero hbuf
          · exact hlt
    | stores cc =>
      rw [safewrite] at h
      split at h
      case isTrue => cases h
      case isFalse hbuf =>
        obtain ⟨before, after, rfl, hno, hlt, rfl⟩ := ih h
        rw [List.length_drop] at hbuf hlt
        refine ⟨.stores cc :: before, after, rfl, ?_, .inr ?_, ?_⟩
        · exact List.not_mem_cons_of_ne_of_not_mem nofun hno
        · rw [WriteOutcome.stored]
          rcases hlt with rfl | hlt
          · rw [WriteOutcome.stored]
            omega
          · omega
        · rw [WriteOutcome.stored, List.take_add, List.append_assoc]

theorem safewrite_of_fails {before after : List WriteOutcome} (hno : .fails ∉ before)
    (hlt : WriteOutcome.stored before < buf.length) :
    safewrite (before ++ .fails :: after) buf file =
      some (false, file ++ buf.take (WriteOutcome.stored before)) := by
  induction before generalizing buf file with
  | nil => rw [List.nil_append, safewrite, WriteOutcome.stored, List.take_zero, List.append_nil]
  | cons o before ih =>
    rw [List.mem_cons, not_or] at hno
    obtain ⟨hne, hno⟩ := hno
    cases o with
    | fails => exact absurd rfl hne
    | interrupted =>
      rw [WriteOutcome.stored] at hlt ⊢
      rw [List.cons_append, safewrite, if_neg (by omega), ih hno hlt]
    | stores cc =>
      rw [WriteOutcome.stored] at hlt ⊢
      rw [List.cons_append, safewrite, if_neg (by rw [List.length_drop]; omega),
        ih hno (by rw [List.length_drop]; omega), List.take_add, List.append_assoc]

theorem appendRecord_eq_neg_one_iff : appendRecord outcomes record file = some (-1, file') ↔
    safewrite outcomes record file = some (false, file') := by
  rw [appendRecord, Option.map_eq_some_iff]
  constructor
  · rintro ⟨⟨ok, f⟩, hwrite, heq⟩
    cases ok with
    | true => cases heq
    | false =>
      cases heq
      exact hwrite
  · exact fun h => ⟨_, h, rfl⟩

/-- A call is atomic just if no error comes between the bytes that it stores. -/
theorem appendsAtomically_iff :
    AppendsAtomically record outcomes ↔ FailsEarly record.length outcomes := by
  constructor
  · rintro h before after rfl hno
    by_contra hlate
    obtain ⟨hne, hlt⟩ := not_or.mp hlate
    have hfile := h [] _ (appendRecord_eq_neg_one_iff.mpr
      (safewrite_of_fails hno (Nat.not_le.mp hlt)))
    have hlen := congrArg List.length hfile
    rw [List.nil_append, List.length_take, List.length_nil] at hlen
    omega
  · intro h file file' hcall
    obtain ⟨before, after, rfl, hno, hlt, rfl⟩ :=
      safewrite_fails (appendRecord_eq_neg_one_iff.mp hcall)
    have hzero : WriteOutcome.stored before = 0 := by
      rcases hlt with rfl | hlt
      · rfl
      · exact (h before after rfl hno).resolve_right (by omega)
    rw [hzero, List.take_zero, List.append_nil]

/-- A successful call stores the whole record behind the file. -/
theorem safewrite_true (h : safewrite outcomes buf file = some (true, file')) :
    file' = file ++ buf := by
  induction outcomes generalizing buf file with
  | nil => cases h
  | cons o rest ih =>
    cases o with
    | fails => cases h
    | interrupted =>
      rw [safewrite] at h
      split at h
      case isTrue hbuf =>
        cases h
        rw [List.length_eq_zero_iff.mp hbuf, List.append_nil]
      case isFalse => exact ih h
    | stores cc =>
      rw [safewrite] at h
      split at h
      case isTrue hbuf =>
        cases h
        rw [List.length_drop] at hbuf
        rw [List.take_of_length_le (by omega)]
      case isFalse => rw [ih h, List.append_assoc, List.take_append_drop]

/-- In a run whose calls have no late errors, the file gets the records of the calls that succeed,
and nothing else. -/
theorem appendRecords_eq {calls : List (Bytes × List WriteOutcome)} {appended : List Bytes}
    (hcalls : ∀ c ∈ calls, FailsEarly c.1.length c.2)
    (h : appendRecords calls file = some (file', appended)) :
    file' = file ++ appended.flatten ∧ ∀ r ∈ appended, ∃ c ∈ calls, c.1 = r := by
  induction calls generalizing file appended with
  | nil =>
    cases h
    exact ⟨(List.append_nil _).symm, nofun⟩
  | cons c calls ih =>
    obtain ⟨record, outcomes⟩ := c
    rw [appendRecords] at h
    obtain ⟨⟨err, f⟩, hcall, h⟩ := Option.bind_eq_some_iff.mp h
    obtain ⟨⟨f', rest⟩, hrest, heq⟩ := Option.map_eq_some_iff.mp h
    cases heq
    obtain ⟨hfile, hmem⟩ := ih (fun c hc => hcalls c (List.mem_cons_of_mem _ hc)) hrest
    have hmem' : ∀ r ∈ rest, ∃ c ∈ (record, outcomes) :: calls, c.1 = r := fun r hr => by
      obtain ⟨c, hc, hcr⟩ := hmem r hr
      exact ⟨c, List.mem_cons_of_mem _ hc, hcr⟩
    obtain ⟨⟨ok, g⟩, hwrite, heq⟩ := Option.map_eq_some_iff.mp hcall
    cases ok with
    | true =>
      cases heq
      rw [if_pos rfl, if_pos rfl]
      refine ⟨?_, fun r hr => ?_⟩
      · rw [hfile, safewrite_true hwrite, List.flatten_cons, List.append_assoc]
      · rcases List.mem_cons.mp hr with rfl | hr
        · exact ⟨_, List.mem_cons_self, rfl⟩
        · exact hmem' r hr
    | false =>
      cases heq
      have hsame : f = file := appendsAtomically_iff.mpr (hcalls _ List.mem_cons_self) file f hcall
      exact ⟨hsame ▸ hfile, hmem'⟩

section
variable {recs : List Bytes}

theorem length_flatten_mul (hrecs : ∀ r ∈ recs, r.length = size) :
    recs.flatten.length = recs.length * size := by
  induction recs with
  | nil => exact (Nat.zero_mul size).symm
  | cons r recs ih =>
    rw [List.flatten_cons, List.length_append, hrecs r List.mem_cons_self,
      ih fun x hx => hrecs x (List.mem_cons_of_mem r hx), List.length_cons, Nat.succ_mul, Nat.add_comm]

theorem drop_flatten_mul (hrecs : ∀ r ∈ recs, r.length = size) (k : Nat) :
    recs.flatten.drop (k * size) = (recs.drop k).flatten := by
  induction k generalizing recs with
  | zero => rw [Nat.zero_mul, List.drop_zero, List.drop_zero]
  | succ k ih =>
    cases recs with
    | nil => rw [List.drop_nil, List.flatten_nil, List.drop_nil]
    | cons r recs =>
      rw [List.flatten_cons, List.drop_succ_cons, Nat.succ_mul, Nat.add_comm, ← List.drop_drop,
        ← hrecs r List.mem_cons_self, List.drop_left, hrecs r List.mem_cons_self]
      exact ih fun x hx => hrecs x (List.mem_cons_of_mem r hx)

theorem take_flatten_mul (hrecs : ∀ r ∈ recs, r.length = size) (k : Nat) :
    recs.flatten.take (k * size) = (recs.take k).flatten := by
  have h : recs.flatten.take (k * size) ++ (recs.drop k).flatten =
      (recs.take k).flatten ++ (recs.drop k).flatten := by
    rw [← List.flatten_append, List.take_append_drop, ← drop_flatten_mul hrecs k,
      List.take_append_drop]
  exact List.append_cancel_right h

/-- In a file of whole records, `get_records` sees the records of the file. -/
theorem getRecords_flatten (hsize : 0 < size) (hrecs : ∀ r ∈ recs, r.length = size) (id : Nat)
    (number : Nat) : getRecords size (id + 1 : Nat) number recs.flatten =
      (recs.drop id).take number := by
  obtain ⟨ys, hys⟩ : ∃ ys, ys = (recs.drop id).take number := ⟨_, rfl⟩
  have hmem : ∀ r ∈ recs.drop id, r.length = size := fun r hr => hrecs r (List.mem_of_mem_drop hr)
  have hlen : ∀ r ∈ ys, r.length = size := by
    intro r hr
    rw [hys] at hr
    exact hmem r (List.mem_of_mem_take hr)
  have hread : (recs.flatten.drop (size * id)).take (size * number) = ys.flatten := by
    rw [Nat.mul_comm size id, Nat.mul_comm size number, drop_flatten_mul hrecs,
      take_flatten_mul hmem, hys]
  rw [getRecords, if_neg (by omega), show (((id + 1 : Nat) : Int) - 1).toNat = id by omega]
  dsimp only
  rw [hread, length_flatten_mul hlen, Nat.mul_div_cancel _ hsize, ← hys]
  refine List.ext_getElem (by rw [List.length_map, List.length_range]) fun i h1 h2 => ?_
  rw [List.getElem_map, List.getElem_range, drop_flatten_mul hlen, List.drop_eq_getElem_cons h2,
    List.flatten_cons, ← hlen ys[i] (List.getElem_mem h2), List.take_left]

end

/-- A failed call of `append_record` leaves the file as it was just if no error comes between the
bytes that it stores; and after calls of which this holds, the file is made of whole records and
`get_records` sees all of them. -/
theorem appendRecord_atomic_iff (size : Nat) (hsize : 0 < size) :
    (∀ record outcomes, record.length = size →
      (AppendsAtomically record outcomes ↔ FailsEarly size outcomes)) ∧
    ∀ calls recs file appended, (∀ c ∈ calls, c.1.length = size ∧ FailsEarly size c.2) →
      (∀ r ∈ recs, r.length = size) →
      appendRecords calls recs.flatten = some (file, appended) →
      file.length % size = 0 ∧ ∀ (id : Int) (number : Nat), 1 ≤ id →
        getRecords size id number file = ((recs ++ appended).drop (id.toNat - 1)).take number := by
  refine ⟨fun record outcomes hlen => hlen ▸ appendsAtomically_iff, ?_⟩
  intro calls recs file appended hcalls hrecs h
  obtain ⟨hfile, hmem⟩ := appendRecords_eq (fun c hc => (hcalls c hc).1 ▸ (hcalls c hc).2) h
  have hall : ∀ r ∈ recs ++ appended, r.length = size := by
    intro r hr
    rcases List.mem_append.mp hr with hr | hr
    · exact hrecs r hr
    · obtain ⟨c, hc, rfl⟩ := hmem r hr
      exact (hcalls c hc).1
  rw [← List.flatten_append] at hfile
  refine ⟨?_, fun id number hid => ?_⟩
  · rw [hfile, length_flatten_mul hall, Nat.mul_mod_left]
  · obtain ⟨i, rfl⟩ : ∃ i : Nat, id = (i + 1 : Nat) := ⟨id.toNat - 1, by omega⟩
    rw [hfile, getRecords_flatten hsize hall i number]
    rfl

theorem appendRecord_atomic_iff_two :
    (∀ record outcomes, record.length = 2 →
      (AppendsAtomically record outcomes ↔ FailsEarly 2 outcomes)) ∧
    ∀ calls recs file appended, (∀ c ∈ calls, c.1.length = 2 ∧ FailsEarly 2 c.2) →
      (∀ r ∈ recs, r.length = 2) →
      appendRecords calls recs.flatten = some (file, appended) →
      file.length % 2 = 0 ∧ ∀ (id : Int) (number : Nat), 1 ≤ id →
        getRecords 2 id number file = ((recs ++ appended).drop (id.toNat - 1)).take number :=
  appendRecord_atomic_iff 2 (by decide)

/-- The disk is full after the first byte: it stays in the file. -/
theorem not_appendsAtomically_full : ¬AppendsAtomically [1, 2] [.stores 1, .fails] :=
  fun h => absurd (h [] [1] (by decide)) (by decide)

end

end ArgoBbs

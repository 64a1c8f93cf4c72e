import ArgoBbs.Lib.Cells
import ArgoBbs.Lib.Loop
import ArgoBbs.Record.Deletion
import Mathlib.Data.List.Induction

/-! # A range of records, processed in place

`process_records` maps the file of records and runs two pointers over it: `fhdr` to the record that
`filecheck` is called on, and `preservation` to the place of the next record that stays
(`record.c`). Then it moves the records behind the range and cuts the file. The callback gets the
record in the mapping and may change it there, as the ones that set a flag do.

Pointers are counted in records. The callers ask for record numbers of at most six digits, so the
products with the size of a record do not overflow. -/

namespace ArgoBbs

variable {σ α : Type}

/-- What `filecheck` makes of the argument that `extrarg` points to and of a record, and whether its
answer is `KEEPRECORD`. -/
abbrev Filecheck (σ α : Type) := σ → α → σ × α × Bool

/-- The variables of the loop. -/
structure Compaction (σ α : Type) where
  buf : List α
  preservation : Nat
  fhdr : Nat
  rcount : Nat
  extrarg : σ
  /-- The numbers of the records that `filecheck` was called on. -/
  called : List Nat

/-- The record at `fhdr` is copied to `preservation`. -/
def Compaction.keep (p : Compaction σ α) : Option (Compaction σ α) := do
  let buf ← if p.fhdr ≠ p.preservation then memmove p.buf p.preservation p.fhdr 1 else some p.buf
  some { p with buf, preservation := p.preservation + 1 }

/-- `filecheck(fhdr, extrarg)`, and whether the record stays. -/
def Compaction.call (filecheck : Filecheck σ α) (p : Compaction σ α) :
    Option (Compaction σ α × Bool) := do
  let x ← cell p.buf p.fhdr
  let (extrarg, x', stays) := filecheck p.extrarg x
  let buf ← setCell p.buf p.fhdr x'
  some ({ p with buf, extrarg, called := p.called ++ [p.fhdr + 1] }, stays)

/-- The loop condition and one turn. -/
def Compaction.turn (filecheck : Filecheck σ α) (lasthdr : Nat) (p : Compaction σ α) :
    Option (Compaction σ α ⊕ Compaction σ α) :=
  if p.fhdr < lasthdr then
    (p.call filecheck).bind fun (p, stays) =>
      if stays then p.keep.map fun p => .inl { p with fhdr := p.fhdr + 1 }
      else some (.inl { p with rcount := p.rcount + 1, fhdr := p.fhdr + 1 })
  else some (.inr p)

/-- The records behind the range are moved, unless the range ends with the file. -/
def Compaction.moveTail (id2 : Int) (endpoint : Nat) (file : List α) (p : Compaction σ α) :
    Option (List α) :=
  if endpoint ≠ file.length then memmove p.buf p.preservation p.fhdr (file.length - id2)
  else some p.buf

/-- What a call of `process_records` leaves behind. -/
structure ProcessResult (σ α : Type) where
  result : Int
  file : List α
  extrarg : σ
  called : List Nat

/-- `process_records` on a file that it can open and map. It fails where it would leave the
mapping. -/
def processRecordsMapped (id1 id2 : Int) (filecheck : Filecheck σ α) (extrarg : σ) (file : List α) :
    Option (ProcessResult σ α) :=
  if id1 ≤ 0 ∨ id2 < id1 ∨ file.length < id1 then some ⟨-1, file, extrarg, []⟩
  else do
    let endpoint := if file.length < id2 then file.length else id2.toNat
    let start := id1.toNat - 1
    let p ← loop (Compaction.turn filecheck endpoint) (file.length + 1)
      ⟨file, start, start, 0, extrarg, []⟩
    let buf ← p.moveTail id2 endpoint file
    some ⟨0, if 0 < p.rcount then buf.take (file.length - p.rcount) else buf, p.extrarg, p.called⟩

/-! ## What it is for -/

/-- The callback on some records one after the other. -/
structure Checked (σ α : Type) where
  extrarg : σ
  kept : List α
  rejected : Nat

def Checked.add (filecheck : Filecheck σ α) (c : Checked σ α) (x : α) : Checked σ α :=
  let (extrarg, x', stays) := filecheck c.extrarg x
  if stays then ⟨extrarg, c.kept ++ [x'], c.rejected⟩ else ⟨extrarg, c.kept, c.rejected + 1⟩

/-- The kept records, as the callback leaves them, and the number of the others. -/
def checkAll (filecheck : Filecheck σ α) (extrarg : σ) (xs : List α) : Checked σ α :=
  xs.foldl (Checked.add filecheck) ⟨extrarg, [], 0⟩

section
variable {filecheck : Filecheck σ α} {extrarg : σ} {file front done rest gap tail : List α}

theorem checkAll_concat (filecheck : Filecheck σ α) (extrarg : σ) (xs : List α) (x : α) :
    checkAll filecheck extrarg (xs ++ [x]) = (checkAll filecheck extrarg xs).add filecheck x := by
  rw [checkAll, checkAll, List.foldl_append]
  rfl

theorem Checked.length_add (filecheck : Filecheck σ α) (c : Checked σ α) (x : α) :
    (c.add filecheck x).kept.length + (c.add filecheck x).rejected =
      c.kept.length + c.rejected + 1 := by
  rw [Checked.add]
  dsimp only
  split
  · simp only [List.length_append, List.length_singleton]
    omega
  · exact (Nat.add_assoc ..).symm

/-- Every record is kept or rejected. -/
theorem checkAll_length (filecheck : Filecheck σ α) (extrarg : σ) (xs : List α) :
    (checkAll filecheck extrarg xs).kept.length + (checkAll filecheck extrarg xs).rejected =
      xs.length := by
  induction xs using List.reverseRec with
  | nil => rfl
  | append_singleton xs x ih => rw [checkAll_concat, Checked.length_add, ih, List.length_append]; rfl

/-! ## The loop -/

/-- The loop after the records `done` of the range. The cells between the kept records and `fhdr`
are what earlier copies have left there. -/
def Compaction.at (filecheck : Filecheck σ α) (extrarg : σ) (front done gap tail : List α) :
    Compaction σ α :=
  let c := checkAll filecheck extrarg done
  { buf := front ++ c.kept ++ gap ++ tail
    preservation := front.length + c.kept.length
    fhdr := front.length + done.length
    rcount := c.rejected
    extrarg := c.extrarg
    called := List.range' (front.length + 1) done.length }

/-- Writing as many cells as the middle part has. -/
theorem overlay_append {front xs ys back : List α} (h : ys.length = xs.length) :
    overlay (front ++ xs ++ back) front.length ys = front ++ ys ++ back := by
  have hlen : front.length + ys.length = (front ++ xs).length := by rw [List.length_append, h]
  rw [overlay, hlen, List.drop_left, List.append_assoc front xs, List.take_left]

/-- One record goes over the gap. -/
theorem Compaction.keep_gap {p : Compaction σ α} {front gap tail : List α} {x : α}
    (hbuf : p.buf = front ++ gap ++ x :: tail) (hto : p.preservation = front.length)
    (hfrom : p.fhdr = front.length + gap.length) :
    ∃ gap', gap'.length = gap.length ∧ p.keep =
      some { p with buf := front ++ [x] ++ gap' ++ tail, preservation := p.preservation + 1 } := by
  cases gap with
  | nil =>
    refine ⟨[], rfl, ?_⟩
    rw [keep, if_neg (not_not_intro (hfrom.trans hto.symm)), hbuf]
    simp only [List.append_nil, List.append_assoc, List.singleton_append]
    rfl
  | cons g gap =>
    refine ⟨gap ++ [x], List.length_append, ?_⟩
    have hlen : p.buf.length = front.length + (gap.length + 1) + (tail.length + 1) := by
      rw [hbuf, List.length_append, List.length_append, List.length_cons, List.length_cons]
    have hne : p.fhdr ≠ p.preservation := by
      rw [hfrom, hto, List.length_cons]
      omega
    have hcell : (p.buf.drop p.fhdr).take 1 = [x] := by
      rw [hbuf, hfrom, ← List.length_append, List.drop_left]
      rfl
    have hmove : memmove p.buf p.preservation p.fhdr 1 =
        some (front ++ [x] ++ (gap ++ [x]) ++ tail) := by
      rw [List.length_cons] at hfrom
      have hmove : memmove p.buf p.preservation p.fhdr (1 : Nat) =
          some (overlay p.buf p.preservation ((p.buf.drop p.fhdr).take 1)) :=
        memmove_eq (by omega) (by omega)
      rw [hcell, hto, hbuf] at hmove
      have h : overlay (front ++ [g] ++ (gap ++ x :: tail)) front.length [x] =
        front ++ [x] ++ (gap ++ x :: tail) := overlay_append rfl
      rw [hto, hbuf]
      refine hmove.trans (congrArg some ?_)
      simp only [List.append_assoc, List.cons_append, List.nil_append] at h ⊢
      exact h
    rw [keep, if_pos hne, hmove]
    rfl

theorem Compaction.call_eq (filecheck : Filecheck σ α) {p : Compaction σ α} {x : α}
    (hbuf : p.buf = front ++ x :: tail)
    (hfhdr : p.fhdr = front.length) :
    p.call filecheck = some
      ({ p with
          buf := front ++ (filecheck p.extrarg x).2.1 :: tail
          extrarg := (filecheck p.extrarg x).1
          called := p.called ++ [p.fhdr + 1] },
        (filecheck p.extrarg x).2.2) := by
  have hlt : front.length < p.buf.length := by
    rw [hbuf, List.length_append, List.length_cons]
    omega
  have hcell : cell p.buf p.fhdr = some x := by
    rw [cell_nat, hfhdr, hbuf, List.getElem?_append_right (Nat.le_refl _), Nat.sub_self]
    rfl
  have hset (y : α) : setCell p.buf p.fhdr y = some (front ++ y :: tail) := by
    rw [hfhdr, setCell_eq hlt, hbuf, List.set_append_right _ _ (Nat.le_refl _), Nat.sub_self]
    rfl
  rw [call, hcell]
  simp only [Option.bind_eq_bind, Option.bind_some, hset]

/-- One turn takes the next record of the range. -/
theorem Compaction.turn_at {x : α} {lasthdr : Nat}
    (hgap : gap.length = (checkAll filecheck extrarg done).rejected)
    (hlt : front.length + done.length < lasthdr) :
    ∃ gap', gap'.length = (checkAll filecheck extrarg (done ++ [x])).rejected ∧
      (Compaction.at filecheck extrarg front done gap (x :: tail)).turn filecheck lasthdr =
        some (.inl (.at filecheck extrarg front (done ++ [x]) gap' tail)) := by
  obtain ⟨c, hc⟩ : ∃ c, c = checkAll filecheck extrarg done := ⟨_, rfl⟩
  have hlen := checkAll_length filecheck extrarg done
  have hfhdr : front.length + done.length = (front ++ c.kept ++ gap).length := by
    rw [List.length_append, List.length_append, hgap, ← hlen, hc, Nat.add_assoc]
  have hbuf : (Compaction.at filecheck extrarg front done gap (x :: tail)).buf =
      front ++ c.kept ++ gap ++ x :: tail := by rw [Compaction.at, hc]
  have hcall := Compaction.call_eq filecheck hbuf hfhdr
  have hcalled : List.range' (front.length + 1) done.length ++ [front.length + done.length + 1] =
      List.range' (front.length + 1) (done ++ [x]).length := by
    rw [List.length_append, List.length_singleton, List.range'_concat]
    simp only [Nat.one_mul, Nat.add_right_comm]
  have hturn : (Compaction.at filecheck extrarg front done gap (x :: tail)).fhdr < lasthdr := hlt
  rw [turn, if_pos hturn, hcall, Option.bind_some]
  simp only [Compaction.at, checkAll_concat, ← hc, hcalled] at hgap ⊢
  rcases hfx : filecheck c.extrarg x with ⟨extrarg', x', stays⟩
  simp only [Checked.add, hfx]
  cases stays with
  | true =>
    obtain ⟨p, hp⟩ : ∃ p : Compaction σ α, p = ⟨front ++ c.kept ++ gap ++ x' :: tail,
      front.length + c.kept.length, front.length + done.length, c.rejected, extrarg',
      List.range' (front.length + 1) (done ++ [x]).length⟩ := ⟨_, rfl⟩
    obtain ⟨gap', hgap', hkeep⟩ := p.keep_gap (x := x') (congrArg Compaction.buf hp)
      ((congrArg Compaction.preservation hp).trans List.length_append.symm)
      ((congrArg Compaction.fhdr hp).trans (hfhdr.trans List.length_append))
    refine ⟨gap', hgap'.trans hgap, ?_⟩
    rw [if_pos rfl, ← hp, hkeep, hp]
    simp only [Option.map_some, if_true, List.length_append, List.length_singleton,
      Nat.add_assoc, List.append_assoc]
  | false =>
    refine ⟨gap ++ [x'], by rw [List.length_append, hgap]; rfl, ?_⟩
    simp only [Bool.false_eq_true, if_false, List.length_append, List.length_singleton,
      Nat.add_assoc, List.append_assoc, List.singleton_append]

/-- The loop takes all records of the range. -/
theorem Compaction.loop_at (filecheck : Filecheck σ α) (extrarg : σ)
    (front done gap rest tail : List α) {lasthdr fuel : Nat}
    (hgap : gap.length = (checkAll filecheck extrarg done).rejected)
    (hend : lasthdr = front.length + done.length + rest.length) (hfuel : rest.length < fuel) :
    ∃ gap', gap'.length = (checkAll filecheck extrarg (done ++ rest)).rejected ∧
      loop (turn filecheck lasthdr) fuel (.at filecheck extrarg front done gap (rest ++ tail)) =
        some (.at filecheck extrarg front (done ++ rest) gap' tail) := by
  induction rest generalizing done gap fuel with
  | nil =>
    obtain ⟨fuel, rfl⟩ : ∃ k, fuel = k + 1 := ⟨fuel - 1, by rw [List.length_nil] at hfuel; omega⟩
    have hturn : ¬(Compaction.at filecheck extrarg front done gap tail).fhdr < lasthdr := by
      rw [hend]
      exact Nat.lt_irrefl _
    rw [List.append_nil]
    refine ⟨gap, hgap, ?_⟩
    rw [loop, List.nil_append, turn, if_neg hturn]
  | cons x rest ih =>
    obtain ⟨fuel, rfl⟩ : ∃ k, fuel = k + 1 := ⟨fuel - 1, by omega⟩
    rw [List.length_cons] at hend hfuel
    have hlt : front.length + done.length < lasthdr := by omega
    obtain ⟨gap', hgap', hturn⟩ := turn_at (x := x) hgap hlt
    have hend' : lasthdr = front.length + (done ++ [x]).length + rest.length := by
      rw [List.length_append, List.length_singleton]
      omega
    have hstep := ih (done ++ [x]) gap' hgap' hend' (Nat.lt_of_succ_lt_succ hfuel)
    rw [List.append_assoc, List.singleton_append] at hstep
    rw [loop, List.cons_append, hturn]
    exact hstep

end

section
variable {id1 id2 : Int} {file : List α}

/-- The records of the range `id1`..`id2` that the file has. -/
def idRange (id1 id2 : Int) (file : List α) : List α :=
  (file.take id2.toNat).drop (id1.toNat - 1)

theorem append_idRange (h1 : 1 ≤ id1) (h12 : id1 ≤ id2) :
    file.take (id1.toNat - 1) ++ (idRange id1 id2 file ++ file.drop id2.toNat) = file := by
  have hfront : (file.take id2.toNat).take (id1.toNat - 1) = file.take (id1.toNat - 1) := by
    rw [List.take_take, Nat.min_eq_left (by omega)]
  rw [idRange, ← List.append_assoc, ← hfront, List.take_append_drop, List.take_append_drop]

theorem length_idRange (id1 id2 : Int) (file : List α) :
    (idRange id1 id2 file).length = min id2.toNat file.length - (id1.toNat - 1) := by
  rw [idRange, List.length_drop, List.length_take]

/-- The block move and the truncation close the gap. -/
theorem Compaction.moveTail_eq {p : Compaction σ α} {front gap : List α} {endpoint : Nat}
    (hbuf : p.buf = front ++ gap ++ file.drop id2.toNat) (hto : p.preservation = front.length)
    (hfrom : p.fhdr = front.length + gap.length) (hgap : gap.length = p.rcount)
    (hlen : p.buf.length = file.length) (h2 : 0 < id2)
    (hendpoint : endpoint = min id2.toNat file.length) :
    ∃ buf, p.moveTail id2 endpoint file = some buf ∧
      (if 0 < p.rcount then buf.take (file.length - p.rcount) else buf) =
        front ++ file.drop id2.toNat := by
  obtain ⟨tail, htail⟩ : ∃ tail, tail = file.drop id2.toNat := ⟨_, rfl⟩
  have htaillen : tail.length = file.length - id2.toNat := by rw [htail, List.length_drop]
  rw [← htail] at hbuf ⊢
  have hsum : front.length + gap.length + tail.length = file.length := by
    rw [← hlen, hbuf, List.length_append, List.length_append]
  have hcut : file.length - p.rcount = front.length + tail.length := by omega
  -- without a gap nothing is cut, and the cut would do nothing
  have hall {buf : List α} (h : buf.length = file.length)
      (hbuf : buf.take (front.length + tail.length) = front ++ tail) :
      (if 0 < p.rcount then buf.take (file.length - p.rcount) else buf) = front ++ tail := by
    split
    · rw [hcut, hbuf]
    · rw [← hbuf, List.take_of_length_le (by omega)]
  by_cases h : endpoint = file.length
  · obtain rfl : tail = [] := List.length_eq_zero_iff.mp (by omega)
    refine ⟨p.buf, if_neg (not_not_intro h), hall hlen ?_⟩
    rw [hbuf, List.length_nil, Nat.add_zero, List.append_nil, List.append_nil, List.take_left]
  · have hback : (p.buf.drop p.fhdr).take tail.length = tail := by
      rw [hbuf, hfrom, ← List.length_append, List.drop_left, List.take_length]
    have hcount : (file.length : Int) - id2 = tail.length := by omega
    refine ⟨overlay p.buf front.length tail, ?_, hall ((length_overlay (by omega)).trans hlen) ?_⟩
    · rw [moveTail, if_pos h, hcount, memmove_eq (by omega) (by omega), hback, hto]
    · rw [take_overlay_add (by omega), hbuf, List.append_assoc, List.take_left]

/-- For a range that begins in the file, the callback is called on its records one after the other,
and the file is what stood in front of the range, the kept records and what stood behind it. -/
theorem processRecordsMapped_eq (filecheck : Filecheck σ α) (extrarg : σ) (h1 : 1 ≤ id1)
    (h12 : id1 ≤ id2) (hn : id1 ≤ file.length) :
    ∃ r, processRecordsMapped id1 id2 filecheck extrarg file = some r ∧ r.result = 0 ∧
      r.called = List.range' id1.toNat (min id2.toNat file.length + 1 - id1.toNat) ∧
      r.extrarg = (checkAll filecheck extrarg (idRange id1 id2 file)).extrarg ∧
      r.file = file.take (id1.toNat - 1) ++
        (checkAll filecheck extrarg (idRange id1 id2 file)).kept ++ file.drop id2.toNat := by
  obtain ⟨endpoint, hendpoint⟩ : ∃ e, e = if file.length < id2 then file.length else id2.toNat :=
    ⟨_, rfl⟩
  have hmin : endpoint = min id2.toNat file.length := by
    rw [hendpoint]
    split <;> omega
  have hfile : file.take (id1.toNat - 1) ++ (idRange id1 id2 file ++ file.drop id2.toNat) = file :=
    append_idRange h1 h12
  have hrange := length_idRange id1 id2 file
  have hfront : (file.take (id1.toNat - 1)).length = id1.toNat - 1 := List.length_take_of_le (by omega)
  have hend : endpoint = (file.take (id1.toNat - 1)).length + ([] : List α).length +
      (idRange id1 id2 file).length := by
    rw [hfront, hrange, hmin, List.length_nil]
    omega
  obtain ⟨gap, hgap, hloop⟩ := Compaction.loop_at filecheck extrarg (file.take (id1.toNat - 1)) [] []
    (idRange id1 id2 file) (file.drop id2.toNat) rfl hend (show _ < file.length + 1 by omega)
  obtain ⟨c, hc⟩ : ∃ c, c = checkAll filecheck extrarg (idRange id1 id2 file) := ⟨_, rfl⟩
  have hstart : Compaction.at filecheck extrarg (file.take (id1.toNat - 1)) [] []
      (idRange id1 id2 file ++ file.drop id2.toNat) =
        ⟨file, id1.toNat - 1, id1.toNat - 1, 0, extrarg, []⟩ := by
    simp only [Compaction.at, checkAll, List.foldl_nil, List.append_nil, hfile, hfront,
      List.length_nil, Nat.add_zero, List.range'_zero]
  rw [hstart, List.nil_append] at hloop
  rw [List.nil_append, ← hc] at hgap
  obtain ⟨p, hp⟩ : ∃ p, p = Compaction.at filecheck extrarg (file.take (id1.toNat - 1))
    (idRange id1 id2 file) gap (file.drop id2.toNat) := ⟨_, rfl⟩
  rw [← hp] at hloop
  rw [Compaction.at, ← hc] at hp
  have hcount := checkAll_length filecheck extrarg (idRange id1 id2 file)
  rw [← hc] at hcount
  have hlen : p.buf.length = file.length := by
    rw [hp, ← congrArg List.length hfile]
    simp only [List.length_append]
    omega
  have hgaplen : c.kept.length + gap.length = (idRange id1 id2 file).length := by omega
  obtain ⟨buf, hbuf, hcut⟩ := p.moveTail_eq (congrArg Compaction.buf hp)
    ((congrArg Compaction.preservation hp).trans List.length_append.symm)
    ((congrArg Compaction.fhdr hp).trans
      (by rw [List.length_append, Nat.add_assoc, hgaplen]))
    (hgap.trans (congrArg Compaction.rcount hp).symm) hlen (by omega) hmin
  rw [processRecordsMapped, if_neg (by omega), ← hendpoint]
  dsimp only
  rw [hloop]
  simp only [Option.bind_eq_bind, Option.bind_some, hbuf]
  refine ⟨_, rfl, rfl, ?_, ?_, hcut.trans (by rw [hc])⟩
  · rw [hp, hfront, hrange]
    exact congrArg₂ (List.range' · ·) (by omega) (by omega)
  · rw [hp, hc]

theorem foldl_add_eq (f : σ → α → σ) (keeps : σ → α → Bool) (s : σ) (xs : List α) :
    ∀ (seen kept : List α) (rejected : Nat), xs.foldl (Checked.add fun s x => (f s x, x, keeps s x))
        ⟨seen.foldl f s, kept, rejected⟩ =
      ⟨(seen ++ xs).foldl f s,
        kept ++ (processLoop (fun seen => keeps (seen.foldl f s)) seen xs).1,
        rejected + (processLoop (fun seen => keeps (seen.foldl f s)) seen xs).2.length⟩ := by
  induction xs with
  | nil =>
    intro seen kept rejected
    rw [List.foldl_nil, List.append_nil, processLoop, List.append_nil]
    rfl
  | cons x xs ih =>
    intro seen kept rejected
    have hseen : f (seen.foldl f s) x = (seen ++ [x]).foldl f s := by rw [List.foldl_append]; rfl
    rw [List.foldl_cons, Checked.add, processLoop]
    simp only [hseen]
    split
    case isTrue =>
      rw [ih, List.append_assoc, List.append_assoc]
      rfl
    case isFalse =>
      rw [ih, List.append_assoc, List.length_cons, Nat.add_assoc, Nat.add_comm 1]
      rfl

/-- For a callback that only looks at the records, the loop in place does what `processRecords`
says. -/
theorem processRecordsMapped_eq_processRecords (f : σ → α → σ) (keeps : σ → α → Bool) (extrarg : σ)
    {kept selected : List α}
    (h : processRecords id1 id2 (fun seen => keeps (seen.foldl f extrarg)) file =
      some (kept, selected)) :
    ∃ r, processRecordsMapped id1 id2 (fun s x => (f s x, x, keeps s x)) extrarg file = some r ∧
      r.result = 0 ∧ r.file = kept := by
  unfold processRecords at h
  split at h
  case isTrue => cases h
  case isFalse hid =>
    have h1 : 1 ≤ id1 := by omega
    have h12 : id1 ≤ id2 := by omega
    have hn : id1 ≤ file.length := by omega
    obtain ⟨r, hr, hresult, -, -, hfile⟩ :=
      processRecordsMapped_eq (fun s x => (f s x, x, keeps s x)) extrarg h1 h12 hn
    have hloop := foldl_add_eq f keeps extrarg (idRange id1 id2 file) [] [] 0
    rw [List.foldl_nil] at hloop
    rw [checkAll, hloop, List.nil_append, idRange] at hfile
    have htake : file.take (min id2.toNat file.length) = file.take id2.toNat := by
      rw [← List.take_take, List.take_length]
    have hdrop : file.drop (min id2.toNat file.length) = file.drop id2.toNat := by
      rcases Nat.le_total id2.toNat file.length with hle | hle
      · rw [Nat.min_eq_left hle]
      · rw [Nat.min_eq_right hle, List.drop_length, List.drop_eq_nil_of_le hle]
    cases h
    rw [htake, hdrop]
    exact ⟨r, hr, hresult, hfile⟩

theorem processRecordsMapped_eq_none (filecheck : Filecheck σ α) (extrarg : σ)
    (h : id1 ≤ 0 ∨ id2 < id1 ∨ file.length < id1) :
    processRecordsMapped id1 id2 filecheck extrarg file = some ⟨-1, file, extrarg, []⟩ := if_pos h

end

end ArgoBbs

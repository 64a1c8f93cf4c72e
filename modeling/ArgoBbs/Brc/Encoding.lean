import ArgoBbs.Brc.Boardrc
import Mathlib.Algebra.GroupWithZero.Nat

/-! # The records of a well-formed `.boardrc`

`Encodes rs bytes` says that `bytes` is the sequence of the records `rs`, each with some padding
behind its name. On such bytes the loops of `boards.c` see exactly `rs`: `brc_getrecord` takes one
record off the front (`brcGetrecord_encoded`), `brc_putrecord` adds one (`brcPutrecord_encoded`),
the loop of `brc_update` copies every record but that of the current board (`brcMerge_encoded`) and
the loop of `brc_initial` finds the record of the board (`brcSearch_encoded`). -/

namespace ArgoBbs

/-- A board name as the callers of `brc_initial` pass it: it fits into a record and starts one. -/
structure ValidName (name : List UInt8) : Prop where
  start : ∃ c ∈ name.head?, isRecordStart c = true
  terminated : 0 ∉ name
  length_lt : name.length < brcStrlen

instance (name : List UInt8) : Decidable (ValidName name) :=
  decidable_of_iff
    ((∃ c ∈ name.head?, isRecordStart c = true) ∧ 0 ∉ name ∧ name.length < brcStrlen)
    ⟨fun ⟨h1, h2, h3⟩ => ⟨h1, h2, h3⟩, fun ⟨h1, h2, h3⟩ => ⟨h1, h2, h3⟩⟩

/-- A record that the code can have written. -/
structure BrcRecord.Valid (r : BrcRecord) : Prop where
  name : ValidName r.name
  ne_nil : r.list ≠ []
  length_le : r.list.length ≤ brcMaxNum
  ints : ∀ x ∈ r.list, IsCInt x
  sorted : r.list.Pairwise (· > ·)

/-- A record that can be stored and read back, whatever the order of its marks. -/
structure BrcRecord.Storable (r : BrcRecord) : Prop where
  name : ValidName r.name
  ne_nil : r.list ≠ []
  length_le : r.list.length ≤ brcMaxNum
  ints : ∀ x ∈ r.list, IsCInt x

theorem BrcRecord.Valid.storable {r : BrcRecord} (h : r.Valid) : r.Storable :=
  ⟨h.name, h.ne_nil, h.length_le, h.ints⟩

/-- The bytes a record takes. -/
def BrcRecord.size (r : BrcRecord) : Nat := brcStrlen + 1 + 4 * r.list.length

/-- `bytes` is the record `r`, with any padding behind the name. -/
def Encoded (r : BrcRecord) (bytes : List UInt8) : Prop :=
  ∃ pad, r.name.length + 1 + pad.length = brcStrlen ∧
    bytes = r.name ++ 0 :: (pad ++ UInt8.ofNat r.list.length :: r.list.flatMap intBytes)

inductive Encodes : List BrcRecord → List UInt8 → Prop
  | nil : Encodes [] []
  | cons {r : BrcRecord} {x : List UInt8} {rs : List BrcRecord} {bytes : List UInt8} :
    Encoded r x → Encodes rs bytes → Encodes (r :: rs) (x ++ bytes)

theorem Encoded.length {r : BrcRecord} {bytes : List UInt8} (h : Encoded r bytes) :
    bytes.length = r.size := by
  obtain ⟨pad, hpad, rfl⟩ := h
  simp only [List.length_append, List.length_cons, length_flatMap_intBytes, BrcRecord.size]
  omega

theorem Encodes.length {rs : List BrcRecord} {bytes : List UInt8} (h : Encodes rs bytes) :
    bytes.length = (rs.map BrcRecord.size).sum := by
  induction h with
  | nil => rfl
  | cons hx _ ih => rw [List.length_append, hx.length, ih, List.map_cons, List.sum_cons]

/-! ## One record -/

theorem brcGetrecord_encoded {r : BrcRecord} {bytes : List UInt8} (hr : r.Storable)
    (h : Encoded r bytes) (rest : List UInt8) :
    brcGetrecord (bytes ++ rest) = some (r, rest) := by
  have hlen := h.length
  obtain ⟨pad, hpad, rfl⟩ := h
  have hmax := hr.length_le
  have hnum : (UInt8.ofNat r.list.length).toNat = r.list.length := by
    rw [UInt8.toNat_ofNat', Nat.mod_eq_of_lt]
    exact Nat.lt_of_le_of_lt hmax (by decide)
  let ints := r.list.flatMap intBytes
  have hints : ints.length = 4 * r.list.length := length_flatMap_intBytes _
  have hsplit : r.name ++ 0 :: (pad ++ UInt8.ofNat r.list.length :: ints) ++ rest =
      (r.name ++ 0 :: pad ++ [UInt8.ofNat r.list.length]) ++ (ints ++ rest) := by simp
  have hfront : (r.name ++ 0 :: pad ++ [UInt8.ofNat r.list.length]).length = brcStrlen + 1 := by
    simp only [List.length_append, List.length_cons, List.length_nil]; omega
  have hcstr : cstr (r.name ++ 0 :: (pad ++ UInt8.ofNat r.list.length :: ints) ++ rest) =
      some r.name := by
    rw [List.append_assoc, List.cons_append]
    exact cstr_append hr.name.terminated
  have hget : (r.name ++ 0 :: (pad ++ UInt8.ofNat r.list.length :: ints) ++ rest)[brcStrlen]? =
      some (UInt8.ofNat r.list.length) := by
    rw [hsplit, List.getElem?_append_left (by omega), List.getElem?_append_right (by simp; omega)]
    simp only [List.length_append, List.length_cons]
    rw [show brcStrlen - (r.name.length + (pad.length + 1)) = 0 by omega]
    rfl
  have hdrop : (r.name ++ 0 :: (pad ++ UInt8.ofNat r.list.length :: ints) ++ rest).drop
      (brcStrlen + 1) = ints ++ rest := by rw [hsplit, ← hfront, List.drop_left]
  refine brcGetrecord_eq_some.mpr ⟨r.name, _, hcstr, hget, ?_, ?_, ?_⟩
  · rw [hnum, Nat.min_eq_left hmax, List.length_append, hlen, BrcRecord.size]; omega
  · rw [hnum, Nat.min_eq_left hmax, hdrop, ← hints, List.take_left, bytesInts_flatMap hr.ints,
      List.take_of_length_le (Nat.le_sub_one_of_lt hr.name.length_lt)]
  · rw [hnum, ← List.drop_drop, hdrop, ← hints, List.drop_left]

/-- What `brc_putrecord` appends to the first `ptr` bytes of the buffer is the record. -/
theorem brcPutrecord_encoded {r : BrcRecord} (hr : r.Storable) (buf : List UInt8) (ptr : Nat)
    {num : Int} {list : List Int} (hnum : num = r.list.length)
    (hlist : list.take r.list.length = r.list) (hroom : ptr + r.size ≤ buf.length) :
    ∃ buf' bytes, brcPutrecord buf ptr r.name num list = some (buf', ptr + r.size) ∧
      buf'.length = buf.length ∧ Encoded r bytes ∧
      buf'.take (ptr + r.size) = buf.take ptr ++ bytes := by
  have hpos := List.length_pos_iff.mpr hr.ne_nil
  have hname := hr.name.length_lt
  rw [BrcRecord.size] at hroom ⊢
  obtain ⟨buf₁, h₁⟩ : ∃ b, b = overlay buf ptr (r.name ++ [0]) := ⟨_, rfl⟩
  obtain ⟨buf₂, h₂⟩ : ∃ b, b = overlay buf₁ (ptr + brcStrlen) [UInt8.ofNat r.list.length] :=
    ⟨_, rfl⟩
  obtain ⟨buf₃, h₃⟩ : ∃ b, b = overlay buf₂ (ptr + (brcStrlen + 1)) (r.list.flatMap intBytes) :=
    ⟨_, rfl⟩
  have hints : (r.list.flatMap intBytes).length = 4 * r.list.length := length_flatMap_intBytes _
  have hlen₁ : buf₁.length = buf.length := by rw [h₁, length_overlay]; simp; omega
  have hlen₂ : buf₂.length = buf.length := by rw [h₂, length_overlay, hlen₁]; simp; omega
  have hlen₃ : buf₃.length = buf.length := by rw [h₃, length_overlay, hlen₂]; omega
  have hput : brcPutrecord buf ptr r.name num list =
      some (buf₃, ptr + (brcStrlen + 1 + 4 * r.list.length)) := by
    rw [brcPutrecord, if_pos (by omega), hnum, Int.toNat_natCast, Nat.min_eq_left hr.length_le,
      List.take_of_length_le (Nat.le_sub_one_of_lt hname)]
    simp only [hlist, Option.bind_eq_bind]
    rw [store_eq (by simp; omega), Option.bind_some, ← h₁, store_eq (by simp; omega),
      Option.bind_some, ← h₂, store_eq (by omega), Option.bind_some, ← h₃, Nat.add_assoc]
  -- the bytes between the terminator of the name and the count stay as they were
  let pad := (buf.drop (ptr + (r.name.length + 1))).take (brcStrlen - (r.name.length + 1))
  have htake₁ : buf₁.take (ptr + brcStrlen) = buf.take ptr ++ (r.name ++ [0]) ++ pad := by
    rw [h₁, overlay, List.take_append, List.take_of_length_le (by simp; omega)]
    simp only [List.length_append, List.length_take, List.length_singleton]
    congr 2; omega
  have htake₂ : buf₂.take (ptr + (brcStrlen + 1)) =
      buf₁.take (ptr + brcStrlen) ++ [UInt8.ofNat r.list.length] := by
    have h := @take_overlay_add _ buf₁ (ptr + brcStrlen) [UInt8.ofNat r.list.length] (by omega)
    rwa [List.length_singleton, Nat.add_assoc, ← h₂] at h
  have htake₃ : buf₃.take (ptr + (brcStrlen + 1 + 4 * r.list.length)) =
      buf₂.take (ptr + (brcStrlen + 1)) ++ r.list.flatMap intBytes := by
    have h := @take_overlay_add _ buf₂ (ptr + (brcStrlen + 1)) (r.list.flatMap intBytes) (by omega)
    rwa [hints, Nat.add_assoc, ← h₃] at h
  refine ⟨buf₃, _, hput, hlen₃, ⟨pad, ?_, rfl⟩, ?_⟩
  · simp only [pad, List.length_take, List.length_drop]; omega
  · rw [htake₃, htake₂, htake₁]; simp

/-! ## The loops -/

/-- Whole records begin with a byte that starts a record. -/
theorem Encoded.head {r : BrcRecord} {bytes : List UInt8} (hr : r.Storable) (h : Encoded r bytes)
    (rest : List UInt8) : ∃ c tmp, bytes ++ rest = c :: tmp ∧ isRecordStart c = true := by
  obtain ⟨pad, -, rfl⟩ := h
  obtain ⟨c, hc, hstart⟩ := hr.name.start
  obtain ⟨name, hname⟩ : ∃ name, r.name = c :: name := List.head?_eq_some_iff.mp hc
  exact ⟨c, _, by rw [hname]; rfl, hstart⟩

theorem strncmpEq_name {a b : List UInt8} (ha : ValidName a) (hb : ValidName b) :
    strncmpEq a b brcStrlen = true ↔ a = b :=
  strncmpEq_iff ha.length_lt.le hb.length_lt.le

theorem brcMerge_encoded {currboard tmp : List UInt8} {rs : List BrcRecord}
    (hcur : ValidName currboard) (hrs : ∀ r ∈ rs, r.Valid) (h : Encodes rs tmp)
    (buf : List UInt8) (ptr : Nat) (hroom : ptr + tmp.length ≤ buf.length) :
    ∃ buf' bytes, brcMerge currboard tmp buf ptr = some (buf', ptr + bytes.length) ∧
      buf'.length = buf.length ∧ Encodes (rs.filter (·.name ≠ currboard)) bytes ∧
      buf'.take (ptr + bytes.length) = buf.take ptr ++ bytes := by
  induction h generalizing buf ptr with
  | nil => exact ⟨buf, [], brcMerge_nil, rfl, .nil, by simp⟩
  | @cons r x rs tmp hx _ ih =>
    have hr := hrs r List.mem_cons_self
    have hg := brcGetrecord_encoded hr.storable hx tmp
    obtain ⟨c, tmp', hhead, hc⟩ := hx.head hr.storable tmp
    rw [List.length_append, hx.length] at hroom
    rw [hhead] at hg ⊢
    rw [brcMerge_record hc hg]
    by_cases hname : r.name = currboard
    · obtain ⟨buf', bytes, hm, hlen, henc, htake⟩ :=
        ih (fun r' hr' => hrs r' (List.mem_cons_of_mem _ hr')) buf ptr (by omega)
      rw [if_pos ((strncmpEq_name hr.name hcur).mpr hname), Option.bind_some]
      refine ⟨buf', bytes, hm, hlen, ?_, htake⟩
      rwa [List.filter_cons_of_neg (by simpa using hname)]
    · obtain ⟨buf₁, y, hput, hlen₁, hy, htake₁⟩ := brcPutrecord_encoded hr.storable buf ptr rfl
        (@List.take_length _ r.list) (by omega)
      obtain ⟨buf', bytes, hm, hlen, henc, htake⟩ :=
        ih (fun r' hr' => hrs r' (List.mem_cons_of_mem _ hr')) buf₁ (ptr + r.size) (by omega)
      have hsize : ptr + (y ++ bytes).length = ptr + r.size + bytes.length := by
        rw [List.length_append, hy.length, Nat.add_assoc]
      rw [if_neg (mt (strncmpEq_name hr.name hcur).mp hname), hput, Option.bind_some]
      refine ⟨buf', y ++ bytes, by rw [hsize]; exact hm, hlen.trans hlen₁, ?_, ?_⟩
      · rw [List.filter_cons_of_pos (by simpa using hname)]
        exact .cons hy henc
      · rw [hsize, htake, htake₁, List.append_assoc]

theorem brcSearch_encoded {currboard data : List UInt8} {rs : List BrcRecord}
    (hcur : ValidName currboard) (hrs : ∀ r ∈ rs, r.Valid) (h : Encodes rs data)
    (name : List UInt8) (b : Brc) (hb : b.brcList.length = brcMaxNum) :
    ∃ found name' b', brcSearch currboard data name b = some (found, name', b') ∧
      b'.brcList.length = brcMaxNum ∧ b'.brcCur = b.brcCur ∧ b'.brcChanged = b.brcChanged ∧
      match rs.find? (·.name = currboard) with
      | some r => found = true ∧ name' = r.name ∧ b'.marks = r.list ∧ b'.brcNum = r.list.length
      | none => found = false := by
  induction h generalizing name b with
  | nil => exact ⟨false, name, b, brcSearch_nil, hb, rfl, rfl, rfl⟩
  | @cons r x rs data hx _ ih =>
    have hr := hrs r List.mem_cons_self
    have hg := brcGetrecord_encoded hr.storable hx data
    obtain ⟨c, tmp, hhead, hc⟩ := hx.head hr.storable data
    have hlen : (overlay b.brcList 0 r.list).length = brcMaxNum := by
      rw [length_overlay (by have := hr.length_le; omega), hb]
    rw [hhead] at hg ⊢
    rw [brcSearch_record hc hg]
    dsimp only
    by_cases hname : r.name = currboard
    · rw [if_pos ((strncmpEq_name hr.name hcur).mpr hname), List.find?_cons_of_pos (by simpa)]
      refine ⟨true, r.name, _, rfl, hlen, rfl, rfl, rfl, rfl, ?_, rfl⟩
      rw [Brc.marks, Int.toNat_natCast]
      simp [overlay]
    · rw [if_neg (mt (strncmpEq_name hr.name hcur).mp hname), List.find?_cons_of_neg (by simpa)]
      exact ih (fun r' hr' => hrs r' (List.mem_cons_of_mem _ hr')) r.name _ hlen

end ArgoBbs

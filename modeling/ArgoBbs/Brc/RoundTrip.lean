import ArgoBbs.Brc.Encoding

/-! # Reading back what was written

The records that `brc_putrecord` writes one after another are the ones that the loop around
`brc_getrecord` reads. `brc_update` and `brc_initial` run this loop, one to copy the records and one
to find that of a board (`boards.c`). -/

namespace ArgoBbs

/-- Records written one after another. -/
def brcPutrecords : List BrcRecord → List UInt8 → Nat → Option (List UInt8 × Nat)
  | [], buf, ptr => some (buf, ptr)
  | r :: rs, buf, ptr =>
    (brcPutrecord buf ptr r.name r.list.length r.list).bind fun (buf, ptr) =>
      brcPutrecords rs buf ptr

/-- The loop around `brc_getrecord`: the records, and the bytes that it stops at. -/
def brcGetrecords (ptr : List UInt8) : Option (List BrcRecord × List UInt8) :=
  match ptr with
  | [] => some ([], [])
  | c :: ptr =>
    if isRecordStart c then
      match _h : brcGetrecord (c :: ptr) with
      | none => none
      | some (r, rest) => (brcGetrecords rest).map fun (rs, left) => (r :: rs, left)
    else some ([], c :: ptr)
termination_by ptr.length
decreasing_by exact length_brcGetrecord_lt _h

/-- The records that are written. -/
def written (rs : List BrcRecord) : List BrcRecord := rs.filter (·.list ≠ [])

section
variable {c : UInt8} {ptr rest left : List UInt8} {r : BrcRecord} {rs : List BrcRecord}

theorem brcGetrecords_other (hc : ∀ c ∈ ptr.head?, isRecordStart c = false) :
    brcGetrecords ptr = some ([], ptr) := by
  cases ptr with
  | nil => rw [brcGetrecords]
  | cons c ptr => rw [brcGetrecords, if_neg (by rw [hc c rfl]; exact Bool.false_ne_true)]

theorem brcGetrecords_record (hc : isRecordStart c = true)
    (h : brcGetrecord (c :: ptr) = some (r, rest)) :
    brcGetrecords (c :: ptr) = (brcGetrecords rest).map fun (rs, left) => (r :: rs, left) := by
  rw [brcGetrecords, if_pos hc]
  split
  case h_1 h' =>
    rw [h] at h'
    cases h'
  case h_2 r' rest' h' =>
    rw [h] at h'
    cases h'
    rfl

theorem brcGetrecords_none (hc : isRecordStart c = true) (h : brcGetrecord (c :: ptr) = none) :
    brcGetrecords (c :: ptr) = none := by
  rw [brcGetrecords, if_pos hc]
  split
  case h_1 => rfl
  case h_2 r' rest' h' =>
    rw [h] at h'
    cases h'

/-- What the loop has read. -/
theorem brcGetrecords_cases (h : brcGetrecords ptr = some (rs, left)) :
    (rs = [] ∧ ∀ c ∈ ptr.head?, isRecordStart c = false) ∨
    ∃ c tmp r rest rs', ptr = c :: tmp ∧ isRecordStart c = true ∧
      brcGetrecord (c :: tmp) = some (r, rest) ∧ brcGetrecords rest = some (rs', left) ∧
      rs = r :: rs' := by
  cases ptr with
  | nil =>
    have hhead : ∀ c ∈ ([] : List UInt8).head?, isRecordStart c = false := by
      rintro _ ⟨⟩
    rw [brcGetrecords_other hhead] at h
    cases h
    exact .inl ⟨rfl, hhead⟩
  | cons c tmp =>
    cases hc : isRecordStart c with
    | false =>
      have hhead : ∀ c' ∈ (c :: tmp).head?, isRecordStart c' = false := by
        rintro _ ⟨⟩
        exact hc
      rw [brcGetrecords_other hhead] at h
      cases h
      exact .inl ⟨rfl, hhead⟩
    | true =>
      cases hget : brcGetrecord (c :: tmp) with
      | none =>
        rw [brcGetrecords_none hc hget] at h
        cases h
      | some p =>
        obtain ⟨r, rest⟩ := p
        rw [brcGetrecords_record hc hget] at h
        obtain ⟨⟨rs', left'⟩, hrest, heq⟩ := Option.map_eq_some_iff.mp h
        cases heq
        exact .inr ⟨c, tmp, r, rest, rs', rfl, hc, hget, hrest, rfl⟩

/-! ## The loops of the callers -/

/-- `brc_update` copies the records that the loop reads, but that of the current board. -/
theorem brcMerge_eq_putrecords (currboard buf : List UInt8) (pos : Nat)
    (h : brcGetrecords ptr = some (rs, left)) :
    brcMerge currboard ptr buf pos =
      brcPutrecords (rs.filter fun r => !strncmpEq r.name currboard brcStrlen) buf pos := by
  induction rs generalizing ptr buf pos with
  | nil =>
    obtain ⟨-, hhead⟩ | ⟨c, tmp, r, rest, rs', -, -, -, -, hnil⟩ := brcGetrecords_cases h
    · cases ptr with
      | nil => exact brcMerge_nil
      | cons c ptr => exact brcMerge_other (hhead c rfl)
    · cases hnil
  | cons r rs ih =>
    obtain ⟨hnil, -⟩ | ⟨c, tmp, r', rest, rs', rfl, hc, hget, hrest, heq⟩ := brcGetrecords_cases h
    · cases hnil
    · cases heq
      rw [brcMerge_record hc hget]
      cases hsame : strncmpEq r.name currboard brcStrlen with
      | true =>
        rw [if_pos rfl, Option.bind_some, List.filter_cons_of_neg (by rw [hsame]; exact nofun)]
        exact ih _ _ hrest
      | false =>
        rw [if_neg Bool.false_ne_true, List.filter_cons_of_pos (by rw [hsame]; rfl), brcPutrecords]
        refine congrArg _ (funext fun (buf, pos) => ?_)
        exact ih _ _ hrest

/-- `brc_initial` finds the board just if the loop reads a record of it. -/
theorem brcSearch_found_iff (currboard name : List UInt8) (b : Brc)
    (h : brcGetrecords ptr = some (rs, left)) :
    ∃ found name' b', brcSearch currboard ptr name b = some (found, name', b') ∧
      (found = true ↔ ∃ r ∈ rs, strncmpEq r.name currboard brcStrlen = true) := by
  induction rs generalizing ptr name b with
  | nil =>
    obtain ⟨-, hhead⟩ | ⟨c, tmp, r, rest, rs', -, -, -, -, hnil⟩ := brcGetrecords_cases h
    · refine ⟨false, name, b, ?_, iff_of_false Bool.false_ne_true nofun⟩
      cases ptr with
      | nil => exact brcSearch_nil
      | cons c ptr => exact brcSearch_other (hhead c rfl)
    · cases hnil
  | cons r rs ih =>
    obtain ⟨hnil, -⟩ | ⟨c, tmp, r', rest, rs', rfl, hc, hget, hrest, heq⟩ := brcGetrecords_cases h
    · cases hnil
    · cases heq
      rw [brcSearch_record hc hget]
      dsimp only
      split
      case isTrue hsame =>
        exact ⟨true, _, _, rfl, iff_of_true rfl ⟨r, List.mem_cons_self, hsame⟩⟩
      case isFalse hother =>
        obtain ⟨found, name', b', hsearch, hfound⟩ := ih r.name _ hrest
        refine ⟨found, name', b', hsearch, hfound.trans ?_⟩
        rw [List.exists_mem_cons_iff]
        exact (or_iff_right hother).symm

/-! ## The round trip -/

/-- A record without marks leaves no bytes. -/
theorem brcPutrecord_nil (buf : List UInt8) (ptr : Nat) (name : List UInt8) (list : List Int) :
    brcPutrecord buf ptr name 0 list = some (buf, ptr) := if_neg (Int.lt_irrefl 0)

/-- What is written are the records with marks. -/
theorem brcPutrecords_encoded (hrs : ∀ r ∈ written rs, r.Storable) (buf : List UInt8) (pos : Nat)
    (hroom : pos + ((written rs).map BrcRecord.size).sum ≤ buf.length) :
    ∃ buf' bytes, brcPutrecords rs buf pos = some (buf', pos + bytes.length) ∧
      Encodes (written rs) bytes ∧ buf'.take (pos + bytes.length) = buf.take pos ++ bytes := by
  induction rs generalizing buf pos with
  | nil => exact ⟨buf, [], rfl, .nil, (List.append_nil _).symm⟩
  | cons r rs ih =>
    by_cases hlist : r.list = []
    · have hwritten : written (r :: rs) = written rs :=
        List.filter_cons_of_neg (by simpa using hlist)
      rw [hwritten] at hrs hroom ⊢
      rw [brcPutrecords, hlist, List.length_nil, Int.natCast_zero, brcPutrecord_nil]
      exact ih hrs buf pos hroom
    · have hwritten : written (r :: rs) = r :: written rs :=
        List.filter_cons_of_pos (by simpa using hlist)
      rw [hwritten] at hrs hroom ⊢
      rw [List.map_cons, List.sum_cons] at hroom
      obtain ⟨buf₁, x, hput, hlen₁, hx, htake₁⟩ := brcPutrecord_encoded (hrs r List.mem_cons_self)
        buf pos rfl List.take_length (by omega)
      obtain ⟨buf', bytes, hm, henc, htake⟩ :=
        ih (fun r' hr' => hrs r' (List.mem_cons_of_mem r hr')) buf₁ (pos + r.size) (by omega)
      have hsize : pos + (x ++ bytes).length = pos + r.size + bytes.length := by
        rw [List.length_append, hx.length, Nat.add_assoc]
      refine ⟨buf', x ++ bytes, ?_, .cons hx henc, ?_⟩
      · rw [brcPutrecords, hput, Option.bind_some, hsize]
        exact hm
      · rw [hsize, htake, htake₁, List.append_assoc]

theorem brcGetrecords_encodes {bytes : List UInt8} (hrs : ∀ r ∈ rs, r.Storable)
    (h : Encodes rs bytes) (hrest : ∀ c ∈ rest.head?, isRecordStart c = false) :
    brcGetrecords (bytes ++ rest) = some (rs, rest) := by
  induction h with
  | nil => exact brcGetrecords_other hrest
  | @cons r x rs bytes hx _ ih =>
    have hr := hrs r List.mem_cons_self
    have hg := brcGetrecord_encoded hr hx (bytes ++ rest)
    obtain ⟨c, tmp, hhead, hc⟩ := hx.head hr (bytes ++ rest)
    rw [hhead] at hg
    rw [List.append_assoc, hhead, brcGetrecords_record hc hg,
      ih fun r' hr' => hrs r' (List.mem_cons_of_mem r hr')]
    rfl

/-- Records of valid names and at most sixty marks, written one after another, are read back in
order, up to the end of what was written; those without marks leave no bytes. -/
theorem brcRecords_roundTrip (rs : List BrcRecord)
    (hrs : ∀ r ∈ rs, ValidName r.name ∧ r.list.length ≤ brcMaxNum ∧ ∀ x ∈ r.list, IsCInt x)
    (buf : List UInt8) (ptr : Nat)
    (hroom : ptr + ((written rs).map BrcRecord.size).sum ≤ buf.length) :
    (∃ buf' bytes, brcPutrecords rs buf ptr = some (buf', ptr + bytes.length) ∧
      buf'.take (ptr + bytes.length) = buf.take ptr ++ bytes ∧
      bytes.length = ((written rs).map BrcRecord.size).sum ∧
      ∀ rest, (∀ c ∈ rest.head?, isRecordStart c = false) →
        brcGetrecords (bytes ++ rest) = some (written rs, rest)) ∧
    (∀ r ∈ rs, r.list = [] → brcPutrecord buf ptr r.name r.list.length r.list = some (buf, ptr)) ∧
    ((∀ r ∈ rs, r.list ≠ []) → written rs = rs) := by
  have hstorable : ∀ r ∈ written rs, r.Storable := by
    intro r hr
    obtain ⟨hmem, hne⟩ := List.mem_filter.mp hr
    obtain ⟨hname, hlen, hints⟩ := hrs r hmem
    exact ⟨hname, of_decide_eq_true hne, hlen, hints⟩
  obtain ⟨buf', bytes, hput, henc, htake⟩ := brcPutrecords_encoded hstorable buf ptr hroom
  refine ⟨⟨buf', bytes, hput, htake, henc.length, fun rest hrest => ?_⟩, fun r _ hnil => ?_,
    fun hne => ?_⟩
  · exact brcGetrecords_encodes hstorable henc hrest
  · rw [hnil]
    exact brcPutrecord_nil ..
  · exact List.filter_eq_self.mpr fun r hr => decide_eq_true (hne r hr)

/-- Two boards, of which one has no marks. -/
def demoRecords : List BrcRecord := [⟨[65], [5, 1]⟩, ⟨[66], []⟩]

theorem brcRecords_roundTrip_two :
    (∃ buf' bytes, brcPutrecords demoRecords (List.replicate 40 7) 0 = some (buf', 0 + bytes.length) ∧
      buf'.take (0 + bytes.length) = (List.replicate 40 7).take 0 ++ bytes ∧
      bytes.length = ((written demoRecords).map BrcRecord.size).sum ∧
      ∀ rest, (∀ c ∈ rest.head?, isRecordStart c = false) →
        brcGetrecords (bytes ++ rest) = some (written demoRecords, rest)) ∧
    (∀ r ∈ demoRecords, r.list = [] →
      brcPutrecord (List.replicate 40 7) 0 r.name r.list.length r.list =
        some (List.replicate 40 7, 0)) ∧
    ((∀ r ∈ demoRecords, r.list ≠ []) → written demoRecords = demoRecords) :=
  brcRecords_roundTrip demoRecords (by decide) (List.replicate 40 7) 0 (by decide)

end

end ArgoBbs

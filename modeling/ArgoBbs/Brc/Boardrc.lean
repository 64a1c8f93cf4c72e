import ArgoBbs.Brc.Marks

/-! # The file `.boardrc`

The read marks of a user's boards are kept in `.boardrc`, one record after the other: the board
name in `brcStrlen` bytes, the number of marks in one byte, the marks. `brc_update` puts the marks
of the current board in front of the records it reads back from the file and rewrites the file;
`brc_initial` switches to another board and looks its record up in the cached copy `brc_buf`
(`boards.c`).

A pointer into the data read from the file is the list of the bytes from there to the end of the
data, so `brcGetrecord` fails as soon as it needs a byte that was not read. Writes into `brc_buf`
fail outside the array. Opening the file for reading fails exactly when there is none; all other
calls of the system succeed. -/

namespace ArgoBbs

def brcMaxSize : Nat := 50000
def brcStrlen : Nat := 20
def brcItemSize : Nat := brcStrlen + 1 + 4 * brcMaxNum

structure BrcRecord where
  name : List UInt8
  list : List Int
  deriving DecidableEq, Repr

/-- `c >= ' ' && c <= 'z'`. A `char` above 127 is negative, so it fails the first test. -/
def isRecordStart (c : UInt8) : Bool := 32 ≤ c && c ≤ 122

/-- The count is clamped for the copy of the marks but not for the position of the next record;
`strlcpy` walks on to the terminator of the name also beyond the bytes it copies. -/
def brcGetrecord (ptr : List UInt8) : Option (BrcRecord × List UInt8) := do
  let src ← cstr ptr
  let num ← ptr[brcStrlen]?
  let copied := min num.toNat brcMaxNum
  if brcStrlen + 1 + 4 * copied ≤ ptr.length then
    some (⟨src.take (brcStrlen - 1), bytesInts ((ptr.drop (brcStrlen + 1)).take (4 * copied))⟩,
      ptr.drop (brcStrlen + 1 + 4 * num.toNat))
  else none

/-- `strlcpy` leaves the bytes behind the terminator of the name as they were. -/
def brcPutrecord (buf : List UInt8) (ptr : Nat) (name : List UInt8) (num : Int) (list : List Int) :
    Option (List UInt8 × Nat) :=
  if num > 0 then do
    let num := min num.toNat brcMaxNum
    let buf ← store buf ptr (name.take (brcStrlen - 1) ++ [0])
    let buf ← store buf (ptr + brcStrlen) [UInt8.ofNat num]
    let buf ← store buf (ptr + (brcStrlen + 1)) ((list.take num).flatMap intBytes)
    some (buf, ptr + (brcStrlen + 1) + 4 * num)
  else some (buf, ptr)

theorem length_brcGetrecord_lt {c : UInt8} {tmp rest : List UInt8} {r : BrcRecord}
    (h : brcGetrecord (c :: tmp) = some (r, rest)) : rest.length < (c :: tmp).length := by
  simp only [brcGetrecord, Option.bind_eq_bind, Option.bind_eq_some_iff] at h
  obtain ⟨_, _, num, _, h⟩ := h
  split at h
  case isTrue =>
    obtain ⟨-, rfl⟩ := Prod.mk.inj (Option.some.inj h)
    simp only [List.length_drop, List.length_cons, brcStrlen]; omega
  case isFalse => cases h

/-- The loop of `brc_update`: copy every record but that of the current board. -/
def brcMerge (currboard : List UInt8) (tmp buf : List UInt8) (ptr : Nat) :
    Option (List UInt8 × Nat) :=
  match tmp with
  | [] => some (buf, ptr)
  | c :: tmp =>
    if isRecordStart c then
      match _h : brcGetrecord (c :: tmp) with
      | none => none
      | some (r, rest) => do
        let (buf, ptr) ←
          if strncmpEq r.name currboard brcStrlen then some (buf, ptr)
          else brcPutrecord buf ptr r.name r.list.length r.list
        brcMerge currboard rest buf ptr
    else some (buf, ptr)
termination_by tmp.length
decreasing_by exact length_brcGetrecord_lt _h

/-- The loop of `brc_initial`: decode record after record into the marks until one is that of
`currboard`. -/
def brcSearch (currboard : List UInt8) (ptr name : List UInt8) (b : Brc) :
    Option (Bool × List UInt8 × Brc) :=
  match ptr with
  | [] => some (false, name, b)
  | c :: ptr =>
    if isRecordStart c then
      match _h : brcGetrecord (c :: ptr) with
      | none => none
      | some (r, rest) =>
        let b := { b with brcNum := r.list.length, brcList := overlay b.brcList 0 r.list }
        if strncmpEq r.name currboard brcStrlen then some (true, r.name, b)
        else brcSearch currboard rest r.name b
    else some (false, name, b)
termination_by ptr.length
decreasing_by exact length_brcGetrecord_lt _h

/-- The state of one session: the globals of `boards.c`. -/
structure BrcSession where
  brc : Brc
  brcName : List UInt8
  brcBuf : List UInt8
  brcSize : Nat
  currboard : List UInt8
  guestuser : Bool

/-- The state of a session that has just started. -/
def BrcSession.start : BrcSession where
  brc := { brcList := List.replicate brcMaxNum 0, brcNum := 0, brcCur := 0, brcChanged := false }
  brcName := []
  brcBuf := List.replicate brcMaxSize 0
  brcSize := 0
  currboard := []
  guestuser := false

/-- What `brc_update` reads back from the file. -/
def brcReadback (file : Option (List UInt8)) : List UInt8 :=
  (file.getD []).take (brcMaxSize - brcItemSize)

/-- The record of the current board, in front of `brc_buf`. -/
def brcFront (s : BrcSession) : Option (List UInt8 × Nat) :=
  if s.brc.brcNum > 0 then brcPutrecord s.brcBuf 0 s.brcName s.brc.brcNum s.brc.brcList
  else some (s.brcBuf, 0)

/-- The new contents of `brc_buf`: the current board in front, then the records read back. -/
def brcRebuild (s : BrcSession) (tmp : List UInt8) : Option (List UInt8 × Nat) := do
  let (buf, ptr) ← brcFront s
  brcMerge s.currboard tmp buf ptr

/-- The session once `brc_buf` has been rewritten. -/
def BrcSession.rebuilt (s : BrcSession) (buf : List UInt8) (size : Nat) : BrcSession :=
  { s with brc := { s.brc with brcChanged := false }, brcBuf := buf, brcSize := size }

def brcUpdate (s : BrcSession) (file : Option (List UInt8)) :
    Option (BrcSession × Option (List UInt8)) :=
  if s.brc.brcChanged = false ∨ s.guestuser = true then some (s, file)
  else do
    let (buf, size) ← brcRebuild s (brcReadback file)
    some (s.rebuilt buf size, some (buf.take size))

/-- `strcpy(currboard, boardname); brc_changed = 0;` -/
def BrcSession.enter (s : BrcSession) (boardname : List UInt8) : BrcSession :=
  { s with currboard := boardname, brc := { s.brc with brcChanged := false } }

/-- `brc_initial` reads the file only while `brc_buf` is empty. -/
def BrcSession.loadFile (s : BrcSession) (file : Option (List UInt8)) : BrcSession :=
  if s.brcBuf.head? = some 0 then
    match file with
    | some content =>
      let data := content.take brcMaxSize
      { s with brcBuf := overlay s.brcBuf 0 data, brcSize := data.length }
    | none => { s with brcSize := 0 }
  else s

/-- The last part of `brc_initial`: find the marks of the board, or set the default. -/
def BrcSession.find (s : BrcSession) (boardname : List UInt8) : Option (Int × BrcSession) := do
  let (found, brcName, brc) ←
    brcSearch s.currboard (s.brcBuf.take s.brcSize) s.brcName { s.brc with brcCur := 0 }
  if found then some (brc.brcNum, { s with brcName, brc })
  else
    let brcList ← setCell brc.brcList 0 1
    some (0, { s with brcName := boardname.take (brcStrlen - 1),
                      brc := { brc with brcList, brcNum := 1 } })

def brcInitial (boardname : List UInt8) (s : BrcSession) (file : Option (List UInt8)) :
    Option (Int × BrcSession × Option (List UInt8)) :=
  if s.currboard = boardname then some (s.brc.brcNum, s, file)
  else do
    let (s, file) ← brcUpdate s file
    let (num, s) ← ((s.enter boardname).loadFile file).find boardname
    some (num, s, file)

/-! ## One record -/

/-- `brc_getrecord` succeeds exactly when name, count and marks lie in the data. -/
theorem brcGetrecord_eq_some {ptr rest : List UInt8} {r : BrcRecord} :
    brcGetrecord ptr = some (r, rest) ↔ ∃ src num, cstr ptr = some src ∧
      ptr[brcStrlen]? = some num ∧
      brcStrlen + 1 + 4 * min num.toNat brcMaxNum ≤ ptr.length ∧
      r = ⟨src.take (brcStrlen - 1),
        bytesInts ((ptr.drop (brcStrlen + 1)).take (4 * min num.toNat brcMaxNum))⟩ ∧
      rest = ptr.drop (brcStrlen + 1 + 4 * num.toNat) := by
  simp only [brcGetrecord, Option.bind_eq_bind, Option.bind_eq_some_iff, Option.ite_none_right_eq_some,
    Option.some.injEq, Prod.mk.injEq]
  constructor
  · rintro ⟨src, hsrc, num, hnum, hlen, rfl, rfl⟩
    exact ⟨src, num, hsrc, hnum, hlen, rfl, rfl⟩
  · rintro ⟨src, num, hsrc, hnum, hlen, rfl, rfl⟩
    exact ⟨src, hsrc, num, hnum, hlen, rfl, rfl⟩

/-- A decoded record takes at least as much room in the data as it needs in the buffer. -/
theorem brcGetrecord_length {ptr rest : List UInt8} {r : BrcRecord}
    (h : brcGetrecord ptr = some (r, rest)) :
    r.list.length ≤ brcMaxNum ∧ rest.length + (brcStrlen + 1 + 4 * r.list.length) ≤ ptr.length := by
  obtain ⟨src, num, -, -, hlen, rfl, rfl⟩ := brcGetrecord_eq_some.mp h
  simp only [length_bytesInts, List.length_take, List.length_drop, brcMaxNum, brcStrlen] at hlen ⊢
  omega

/-! ## The loops, one record at a time -/

section
variable {currboard tmp buf name rest : List UInt8} {ptr : Nat} {c : UInt8} {r : BrcRecord} {b : Brc}

theorem brcMerge_nil : brcMerge currboard [] buf ptr = some (buf, ptr) := by rw [brcMerge]

theorem brcMerge_other (hc : isRecordStart c = false) :
    brcMerge currboard (c :: tmp) buf ptr = some (buf, ptr) := by
  rw [brcMerge, if_neg (by simp [hc])]

theorem brcMerge_none (hc : isRecordStart c = true) (h : brcGetrecord (c :: tmp) = none) :
    brcMerge currboard (c :: tmp) buf ptr = none := by
  rw [brcMerge, if_pos hc]
  split
  · rfl
  · simp_all

theorem brcMerge_record (hc : isRecordStart c = true)
    (h : brcGetrecord (c :: tmp) = some (r, rest)) :
    brcMerge currboard (c :: tmp) buf ptr =
      (if strncmpEq r.name currboard brcStrlen then some (buf, ptr)
        else brcPutrecord buf ptr r.name r.list.length r.list).bind fun (buf, ptr) =>
          brcMerge currboard rest buf ptr := by
  rw [brcMerge, if_pos hc]
  split
  · simp_all
  case h_2 r' rest' h' =>
    obtain ⟨rfl, rfl⟩ := Prod.mk.inj (Option.some.inj (h'.symm.trans h))
    by_cases hs : strncmpEq r'.name currboard brcStrlen <;> simp [hs]

theorem brcSearch_nil : brcSearch currboard [] name b = some (false, name, b) := by rw [brcSearch]

theorem brcSearch_other (hc : isRecordStart c = false) :
    brcSearch currboard (c :: tmp) name b = some (false, name, b) := by
  rw [brcSearch, if_neg (by simp [hc])]

theorem brcSearch_none (hc : isRecordStart c = true) (h : brcGetrecord (c :: tmp) = none) :
    brcSearch currboard (c :: tmp) name b = none := by
  rw [brcSearch, if_pos hc]
  split
  · rfl
  · simp_all

theorem brcSearch_record (hc : isRecordStart c = true)
    (h : brcGetrecord (c :: tmp) = some (r, rest)) :
    brcSearch currboard (c :: tmp) name b =
      let b := { b with brcNum := r.list.length, brcList := overlay b.brcList 0 r.list }
      if strncmpEq r.name currboard brcStrlen then some (true, r.name, b)
      else brcSearch currboard rest r.name b := by
  rw [brcSearch, if_pos hc]
  split
  · simp_all
  case h_2 r' rest' h' =>
    obtain ⟨rfl, rfl⟩ := Prod.mk.inj (Option.some.inj (h'.symm.trans h))
    rfl

end

/-- `brc_putrecord` stays inside a buffer with room for the record. -/
theorem brcPutrecord_eq_some (buf name : List UInt8) (ptr : Nat) {num : Nat} {list : List Int}
    (hlist : num ≤ list.length) (hmax : num ≤ brcMaxNum)
    (hroom : ptr + (brcStrlen + 1 + 4 * num) ≤ buf.length) :
    ∃ buf' ptr', brcPutrecord buf ptr name num list = some (buf', ptr') ∧
      buf'.length = buf.length ∧ ptr' ≤ ptr + (brcStrlen + 1 + 4 * num) := by
  by_cases hnum : (num : Int) > 0
  · have hname : (name.take (brcStrlen - 1) ++ [0]).length ≤ brcStrlen := by
      simp [brcStrlen]
    rw [brcPutrecord, if_pos hnum, Int.toNat_natCast, Nat.min_eq_left hmax]
    have h1 : ptr + (name.take (brcStrlen - 1) ++ [0]).length ≤ buf.length := by omega
    have h2 := length_overlay h1
    have h3 : ptr + brcStrlen + [UInt8.ofNat num].length ≤
        (overlay buf ptr (name.take (brcStrlen - 1) ++ [0])).length := by
      rw [h2, List.length_singleton]; omega
    have h4 := length_overlay h3
    have h5 : ptr + (brcStrlen + 1) + ((list.take num).flatMap intBytes).length ≤
        (overlay (overlay buf ptr (name.take (brcStrlen - 1) ++ [0])) (ptr + brcStrlen)
          [UInt8.ofNat num]).length := by
      rw [h4, h2, length_flatMap_intBytes, List.length_take]; omega
    simp only [store_eq h1, store_eq h3, store_eq h5, Option.bind_eq_bind, Option.bind_some]
    exact ⟨_, _, rfl, by rw [length_overlay h5, h4, h2], by omega⟩
  · exact ⟨buf, ptr, by rw [brcPutrecord, if_neg hnum], rfl, by omega⟩

/-- Decoding keeps `brc_list` an array of `brcMaxNum` cells. -/
theorem brcSearch_cells {currboard data name name' : List UInt8} {b b' : Brc} {found : Bool}
    (h : brcSearch currboard data name b = some (found, name', b'))
    (hb : b.brcList.length = brcMaxNum) : b'.brcList.length = brcMaxNum := by
  induction hn : data.length using Nat.strongRecOn generalizing data name b with
  | ind n ih =>
  cases data with
  | nil => rw [brcSearch_nil] at h; cases h; exact hb
  | cons c data =>
  cases hc : isRecordStart c with
  | false => rw [brcSearch_other hc] at h; cases h; exact hb
  | true =>
  cases hg : brcGetrecord (c :: data) with
  | none => rw [brcSearch_none hc hg] at h; cases h
  | some p =>
    obtain ⟨r, rest⟩ := p
    obtain ⟨hmax, -⟩ := brcGetrecord_length hg
    have hcells : (overlay b.brcList 0 r.list).length = brcMaxNum := by
      rw [length_overlay (by omega), hb]
    rw [brcSearch_record hc hg] at h
    dsimp only at h
    split at h
    case isTrue => cases h; exact hcells
    case isFalse => exact ih _ (hn ▸ length_brcGetrecord_lt hg) h hcells rfl

/-! ## The cache -/

/-- The bytes that the loop of `brc_initial` decodes: the file while the cache is empty, else the
cache. -/
def BrcSession.decoded (s : BrcSession) (file : Option (List UInt8)) : List UInt8 :=
  if s.brcBuf.head? = some 0 then (file.getD []).take brcMaxSize else s.brcBuf.take s.brcSize

section
variable {s : BrcSession} {file : Option (List UInt8)}

/-- `loadFile` leaves in `brc_buf[0..brc_size)` what the loop decodes. -/
theorem take_loadFile :
    (s.loadFile file).brcBuf.take (s.loadFile file).brcSize = s.decoded file := by
  unfold BrcSession.loadFile BrcSession.decoded
  split
  case isFalse => rfl
  case isTrue =>
    cases file with
    | none => simp
    | some content =>
      have htake := @take_overlay_add _ s.brcBuf 0 (content.take brcMaxSize) (Nat.zero_le _)
      simpa using htake

theorem loadFile_fields : (s.loadFile file).brc = s.brc ∧
    (s.loadFile file).currboard = s.currboard ∧ (s.loadFile file).guestuser = s.guestuser := by
  unfold BrcSession.loadFile
  split
  · cases file <;> exact ⟨rfl, rfl, rfl⟩
  · exact ⟨rfl, rfl, rfl⟩

theorem length_loadFile (hbuf : s.brcBuf.length = brcMaxSize) :
    (s.loadFile file).brcBuf.length = brcMaxSize := by
  unfold BrcSession.loadFile
  split
  case isFalse => exact hbuf
  case isTrue =>
    cases file with
    | none => exact hbuf
    | some content =>
      have hlen : 0 + (content.take brcMaxSize).length ≤ s.brcBuf.length := by
        rw [Nat.zero_add, hbuf]
        exact List.length_take_le ..
      exact (length_overlay hlen).trans hbuf

/-- Reading the file into the cache does not change what the loop decodes. -/
theorem decoded_loadFile : (s.loadFile file).decoded file = s.decoded file := by
  rw [BrcSession.decoded, take_loadFile]
  split
  case isTrue hhead =>
    by_cases h : s.brcBuf.head? = some 0
    · rw [BrcSession.decoded, if_pos h]
    · have hload : s.loadFile file = s := if_neg h
      exact absurd (hload ▸ hhead) h
  case isFalse => rfl

end

end ArgoBbs

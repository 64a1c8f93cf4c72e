import ArgoBbs.Lib.Bytes
import ArgoBbs.Lib.Cells
import ArgoBbs.Record.Access

/-! # Moving a record

`move_record` shifts the records between the two numbers by one with a `memmove` on the mapping and
puts the record that it has copied before into the gap (`record.c`). Its paths that return differ in
what they release. -/

namespace ArgoBbs

variable {α : Type}

/-- The records between are shifted, counted in records. -/
def moveBlock (srcid dstid : Int) (buf : List α) : Option (List α) :=
  if dstid < srcid then memmove buf dstid (dstid - 1) (srcid - dstid)
  else memmove buf (srcid - 1) srcid (dstid - srcid)

/-- The moves on the mapping. -/
def moveCells (srcid dstid : Int) (buf : List α) : Option (List α) := do
  let tmprec ← cell buf (srcid - 1)
  let buf ← moveBlock srcid dstid buf
  setCell buf (dstid - 1) tmprec

/-- What the calls answer. A fault of the mapping leaves some contents behind. -/
structure MoveCalls (α : Type) where
  openOk : Bool
  fstatOk : Bool
  mmapOk : Bool
  fault : Option (List α)

/-- `move_record` has returned `ret`; `failed` if a call has failed or there was a fault. -/
structure MoveResult (α : Type) where
  ret : Int
  file : List α
  fdOpen : Bool
  locked : Bool
  failed : Bool

/-- `move_record`. The products are computed in `int`, where an overflow is undefined; those behind
the comparison with the size of the file are not larger. -/
def moveRecord (size : Nat) (srcid dstid : Int) (c : MoveCalls α) (file : List α) :
    Option (MoveResult α) :=
  if srcid = dstid then some ⟨0, file, false, false, false⟩
  else if srcid ≤ 0 ∨ dstid ≤ 0 ∨ size = 0 then some ⟨-1, file, false, false, false⟩
  else if c.openOk = false ∨ c.fstatOk = false then some ⟨-1, file, false, false, true⟩
  else if ¬IsCInt (srcid * size) then none
  else if (file.length * size : Nat) < srcid * size then some ⟨-1, file, false, false, false⟩
  else if ¬IsCInt (dstid * size) then none
  else if (file.length * size : Nat) < dstid * size then some ⟨-1, file, false, false, false⟩
  -- neither `close` nor `munmap`
  else if c.mmapOk = false then some ⟨-1, file, true, true, true⟩
  else
    match c.fault with
    -- `result` is set to -1, but 0 is returned
    | some left => some ⟨0, left, false, false, true⟩
    | none => (moveCells srcid dstid file).map (⟨0, ·, false, false, false⟩)

/-- The number from which the record with the number `n` comes. -/
def movedFrom (srcid dstid n : Nat) : Nat :=
  if n = dstid then srcid
  else if dstid < n ∧ n ≤ srcid then n - 1
  else if srcid ≤ n ∧ n < dstid then n + 1
  else n

/-- The record `srcid` stands at `dstid`, and those between have moved by one. -/
def Moved (srcid dstid : Nat) (file file' : List α) : Prop :=
  file'.length = file.length ∧
    ∀ n : Nat, 0 < n → n ≤ file.length →
      getRecord n file' = getRecord (movedFrom srcid dstid n : Nat) file

/-- The call moves the record, moving it back gives the file again, and all is released; and it
returns 0 only if nothing has failed. -/
def MovesRight (size srcid dstid : Nat) (c : MoveCalls α) (file : List α) : Prop :=
  ∃ r, moveRecord size srcid dstid c file = some r ∧
    (r.ret = 0 → Moved srcid dstid file r.file ∧
      ∀ c' r', moveRecord size dstid srcid c' r.file = some r' → r'.ret = 0 → r'.failed = false →
        r'.file = file) ∧
    r.file.length = file.length ∧ r.fdOpen = false ∧ r.locked = false ∧
    (r.failed = true → r.ret ≠ 0)

/-- The condition: the offsets fit into an `int`, and `mmap` and the moves succeed. -/
def MoveFine (size srcid dstid : Nat) (c : MoveCalls α) : Prop :=
  srcid = dstid ∨ c.openOk = false ∨ c.fstatOk = false ∨
    (srcid * size < 2 ^ 31 ∧ dstid * size < 2 ^ 31 ∧ c.mmapOk = true ∧ c.fault = none)

/-! ## The moves -/

section
variable {buf file file' : List α} {srcid dstid n : Nat}

theorem movedFrom_pos (hsrc : 0 < srcid) (hdst : 0 < dstid) (hn : 0 < n) :
    0 < movedFrom srcid dstid n := by
  unfold movedFrom
  split
  · exact hsrc
  · split
    · omega
    · split <;> omega

theorem movedFrom_movedFrom : movedFrom srcid dstid (movedFrom dstid srcid n) = n := by
  unfold movedFrom
  grind

theorem movedFrom_le {m : Nat} (hsrc : srcid ≤ m) (hdst : dstid ≤ m) (hn : n ≤ m) :
    movedFrom srcid dstid n ≤ m := by
  unfold movedFrom
  grind

theorem getRecord_eq (hn : 0 < n) : getRecord n file = file[n - 1]? := by
  rw [getRecord, if_neg (by omega), Int.toNat_natCast]

/-- A file is given by the records with its numbers. -/
theorem ext_getRecord (hlen : file'.length = file.length)
    (h : ∀ n : Nat, 0 < n → n ≤ file.length → getRecord n file' = getRecord n file) :
    file' = file := by
  refine List.ext_getElem? fun i => ?_
  by_cases hi : i < file.length
  · have hrec := h (i + 1) (Nat.succ_pos i) hi
    rwa [getRecord_eq (Nat.succ_pos i), getRecord_eq (Nat.succ_pos i)] at hrec
  · rw [List.getElem?_eq_none (by omega), List.getElem?_eq_none (by omega)]

theorem Moved.length (h : Moved srcid dstid file file') : file'.length = file.length := h.1

/-- Moving the record back gives the file again. -/
theorem Moved.back {file'' : List α} (h : Moved srcid dstid file file') (hsrc : 0 < srcid)
    (hdst : 0 < dstid) (hsrc' : srcid ≤ file.length) (hdst' : dstid ≤ file.length)
    (h' : Moved dstid srcid file' file'') : file'' = file := by
  refine ext_getRecord (h'.length.trans h.length) fun n hpos hle => ?_
  have hpos' : 0 < movedFrom dstid srcid n := movedFrom_pos hdst hsrc hpos
  have hle' : movedFrom dstid srcid n ≤ file.length := movedFrom_le hdst' hsrc' hle
  rw [h'.2 n hpos (h.length.symm ▸ hle), h.2 _ hpos' hle', movedFrom_movedFrom]

theorem getElem?_overlay {i j : Nat} {xs : List α} (h : i + xs.length ≤ buf.length) :
    (overlay buf i xs)[j]? =
      if i ≤ j ∧ j < i + xs.length then xs[j - i]? else buf[j]? := by
  have hfront : (buf.take i).length = i := List.length_take_of_le (by omega)
  rw [overlay, List.append_assoc]
  by_cases hi : j < i
  · rw [List.getElem?_append_left (by omega), List.getElem?_take_of_lt hi, if_neg (by omega)]
  · rw [List.getElem?_append_right (by omega), hfront]
    by_cases hj : j < i + xs.length
    · rw [List.getElem?_append_left (by omega), if_pos (by omega)]
    · rw [List.getElem?_append_right (by omega), List.getElem?_drop, if_neg (by omega)]
      congr 1
      omega

/-- What lies outside of the moved records stays; a moved one is read from where it was before. -/
theorem memmove_some {dst src : Nat} (hd : dst + n ≤ buf.length) (hs : src + n ≤ buf.length) :
    ∃ buf', memmove buf dst src n = some buf' ∧ buf'.length = buf.length ∧
      ∀ j, buf'[j]? = if dst ≤ j ∧ j < dst + n then buf[src + (j - dst)]? else buf[j]? := by
  have hxs : ((buf.drop src).take n).length = n := by
    rw [List.length_take, List.length_drop]
    omega
  refine ⟨_, memmove_eq hd hs, length_overlay (hxs.symm ▸ hd), fun j => ?_⟩
  rw [getElem?_overlay (hxs.symm ▸ hd), hxs]
  split
  · rw [List.getElem?_take_of_lt (by omega), List.getElem?_drop]
  · rfl

/-- The records between are at their new places, whichever direction they are moved in. -/
theorem moveBlock_some {s d : Nat} (hsrc : s < file.length) (hdst : d < file.length) :
    ∃ buf, moveBlock (s + 1 : Nat) (d + 1 : Nat) file = some buf ∧ buf.length = file.length ∧
      ∀ j, j ≠ d → buf[j]? = file[movedFrom (s + 1) (d + 1) (j + 1) - 1]? := by
  by_cases hlt : d < s
  · obtain ⟨buf, hmove, hlen, hget⟩ :=
      memmove_some (by omega : d + 1 + (s - d) ≤ file.length) (by omega : d + (s - d) ≤ file.length)
    refine ⟨buf, ?_, hlen, fun j hj => ?_⟩
    · rw [moveBlock, if_pos (by omega), ← hmove]
      congr 1
      · omega
      · omega
    · rw [hget]
      split
      · rw [movedFrom, if_neg (by omega), if_pos (by omega)]
        congr 1
        omega
      · rw [movedFrom, if_neg (by omega), if_neg (by omega), if_neg (by omega), Nat.add_sub_cancel]
  · obtain ⟨buf, hmove, hlen, hget⟩ :=
      memmove_some (by omega : s + (d - s) ≤ file.length) (by omega : s + 1 + (d - s) ≤ file.length)
    refine ⟨buf, ?_, hlen, fun j hj => ?_⟩
    · rw [moveBlock, if_neg (by omega), ← hmove]
      congr 1
      · omega
      · omega
    · rw [hget]
      split
      · rw [movedFrom, if_neg (by omega), if_neg (by omega), if_pos (by omega)]
        congr 1
        omega
      · rw [movedFrom, if_neg (by omega), if_neg (by omega), if_neg (by omega), Nat.add_sub_cancel]

theorem moveCells_moved (hsrc : 0 < srcid) (hdst : 0 < dstid) (hsrc' : srcid ≤ file.length)
    (hdst' : dstid ≤ file.length) :
    ∃ file', moveCells srcid dstid file = some file' ∧ Moved srcid dstid file file' := by
  obtain ⟨s, rfl⟩ : ∃ s, srcid = s + 1 := ⟨srcid - 1, by omega⟩
  obtain ⟨d, rfl⟩ : ∃ d, dstid = d + 1 := ⟨dstid - 1, by omega⟩
  obtain ⟨buf, hbuf, hlen, hget⟩ := moveBlock_some hsrc' hdst'
  refine ⟨buf.set d file[s], ?_, (List.length_set ..).trans hlen, fun n hpos hle => ?_⟩
  · have hrec : cell file ((s + 1 : Nat) - 1 : Int) = some file[s] := by
      rw [Int.natCast_succ, Int.add_sub_cancel, cell_nat, List.getElem?_eq_getElem hsrc']
    rw [moveCells, hrec, hbuf, Int.natCast_succ, Int.add_sub_cancel]
    exact setCell_eq (by omega) _
  · obtain ⟨j, rfl⟩ : ∃ j, n = j + 1 := ⟨n - 1, by omega⟩
    rw [getRecord_eq hpos, getRecord_eq (movedFrom_pos hsrc hdst hpos), Nat.add_sub_cancel]
    by_cases hj : j = d
    · rw [hj, List.getElem?_set_self (by omega), movedFrom, if_pos rfl, Nat.add_sub_cancel,
        List.getElem?_eq_getElem hsrc']
    · rw [List.getElem?_set_ne (Ne.symm hj), hget j hj]

/-- Taking the record out and putting it in at the other number does the same. -/
theorem moved_moveTo [Inhabited α] (hsrc : 0 < srcid) (hdst : 0 < dstid)
    (hsrc' : srcid ≤ file.length) (hdst' : dstid ≤ file.length) :
    Moved srcid dstid file (moveTo srcid dstid file) := by
  have herase : (file.eraseIdx (srcid - 1)).length = file.length - 1 :=
    List.length_eraseIdx_of_lt (by omega)
  refine ⟨length_moveTo hsrc hdst hsrc' hdst', fun n hpos hle => ?_⟩
  rw [getRecord_eq hpos, getRecord_eq (movedFrom_pos hsrc hdst hpos), moveTo,
    List.getElem?_insertIdx, List.getElem?_eraseIdx, List.getElem?_eraseIdx, movedFrom]
  by_cases hn : n = dstid
  · rw [if_pos hn, hn, if_neg (by omega), if_pos rfl, if_pos (by omega), List.getD_eq_getElem?_getD,
      List.getElem?_eq_getElem (by omega), Option.getD_some]
  · rw [if_neg hn]
    by_cases hlt : n < dstid
    · rw [if_pos (by omega)]
      by_cases hsrcid : n < srcid
      · rw [if_pos (by omega), if_neg (by omega), if_neg (by omega)]
      · rw [if_neg (by omega), if_neg (by omega), if_pos (by omega)]
        congr 1
        omega
    · rw [if_neg (by omega), if_neg (by omega)]
      by_cases hsrcid : n ≤ srcid
      · rw [if_pos (by omega), if_pos (by omega)]
      · rw [if_neg (by omega), if_neg (by omega), if_neg (by omega)]
        congr 1
        omega

theorem moveCells_eq [Inhabited α] (hsrc : 0 < srcid) (hdst : 0 < dstid)
    (hsrc' : srcid ≤ file.length) (hdst' : dstid ≤ file.length) :
    moveCells srcid dstid file = some (moveTo srcid dstid file) := by
  obtain ⟨file', hcells, hmoved⟩ := moveCells_moved hsrc hdst hsrc' hdst'
  have hto := moved_moveTo hsrc hdst hsrc' hdst'
  rw [hcells, ext_getRecord (hmoved.length.trans hto.length.symm) fun n hpos hle => ?_]
  rw [hto.length] at hle
  rw [hmoved.2 n hpos hle, hto.2 n hpos hle]

theorem moved_self : Moved n n file file :=
  ⟨rfl, fun m _ _ => by
    have hm : movedFrom n n m = m := by
      unfold movedFrom
      grind
    rw [hm]⟩

end

/-! ## The paths -/

section
variable {size srcid dstid : Nat} {c : MoveCalls α} {file : List α} {r : MoveResult α}

/-- The numbers are those of records of the file, and their offsets fit into an `int`. -/
theorem moveRecord_of_fits (hne : srcid ≠ dstid) (hsize : 0 < size) (hsrc : 0 < srcid)
    (hdst : 0 < dstid) (hsrc' : srcid ≤ file.length) (hdst' : dstid ≤ file.length)
    (hcalls : c.openOk = true ∧ c.fstatOk = true) (hsrcInt : srcid * size < 2 ^ 31)
    (hdstInt : dstid * size < 2 ^ 31) :
    moveRecord size srcid dstid c file =
      if c.mmapOk = false then some ⟨-1, file, true, true, true⟩
      else
        match c.fault with
        | some left => some ⟨0, left, false, false, true⟩
        | none => (moveCells srcid dstid file).map (⟨0, ·, false, false, false⟩) := by
  have hsrcFits := Nat.mul_le_mul_right size hsrc'
  have hdstFits := Nat.mul_le_mul_right size hdst'
  rw [moveRecord, if_neg (by omega), if_neg (by omega), if_neg (by simp [hcalls]), if_neg ?_,
    if_neg (by exact_mod_cast Nat.not_lt.mpr hsrcFits), if_neg ?_,
    if_neg (by exact_mod_cast Nat.not_lt.mpr hdstFits)]
  all_goals
    rw [not_not, IsCInt]
    constructor <;> push_cast <;> omega

/-- An offset does not fit into an `int`. -/
theorem moveRecord_overflow (hne : srcid ≠ dstid) (hsize : 0 < size) (hsrc : 0 < srcid)
    (hdst : 0 < dstid) (hsrc' : srcid ≤ file.length)
    (hcalls : c.openOk = true ∧ c.fstatOk = true)
    (hint : ¬(srcid * size < 2 ^ 31 ∧ dstid * size < 2 ^ 31)) :
    moveRecord size srcid dstid c file = none := by
  have hsrcFits := Nat.mul_le_mul_right size hsrc'
  rw [moveRecord, if_neg (by omega), if_neg (by omega), if_neg (by simp [hcalls])]
  by_cases hsrcInt : srcid * size < 2 ^ 31
  · rw [if_neg ?_, if_neg (by exact_mod_cast Nat.not_lt.mpr hsrcFits), if_pos ?_]
    · rw [IsCInt]
      push_cast
      omega
    · rw [not_not, IsCInt]
      constructor <;> push_cast <;> omega
  · rw [if_pos]
    rw [IsCInt]
    push_cast
    omega

/-- What a call can come to: an error, a failure that is not reported, or the moved records. -/
theorem moveRecord_some (h : moveRecord size srcid dstid c file = some r) :
    r.ret = -1 ∨ r.failed = true ∨ (srcid = dstid ∧ r.file = file) ∨
      moveCells srcid dstid file = some r.file := by
  unfold moveRecord at h
  split at h
  case isTrue heq =>
    obtain rfl := Option.some.inj h
    exact .inr (.inr (.inl ⟨by exact_mod_cast heq, rfl⟩))
  case isFalse =>
    split at h
    · exact .inl (Option.some.inj h ▸ rfl)
    split at h
    · exact .inl (Option.some.inj h ▸ rfl)
    split at h
    · cases h
    split at h
    · exact .inl (Option.some.inj h ▸ rfl)
    split at h
    · cases h
    split at h
    · exact .inl (Option.some.inj h ▸ rfl)
    split at h
    · exact .inl (Option.some.inj h ▸ rfl)
    split at h
    · exact .inr (.inl (Option.some.inj h ▸ rfl))
    · obtain ⟨file', hcells, rfl⟩ := Option.map_eq_some_iff.mp h
      exact .inr (.inr (.inr hcells))

/-- A call that returns 0 has moved the record if nothing has failed. -/
theorem moveRecord_moved (hsrc : 0 < srcid) (hdst : 0 < dstid) (hsrc' : srcid ≤ file.length)
    (hdst' : dstid ≤ file.length) (h : moveRecord size srcid dstid c file = some r)
    (hret : r.ret = 0) (hok : r.failed = false) : Moved srcid dstid file r.file := by
  rcases moveRecord_some h with herr | hfailed | ⟨rfl, hsame⟩ | hcells
  · omega
  · rw [hok] at hfailed
    cases hfailed
  · rw [hsame]
    exact moved_self
  · obtain ⟨file', heq, hmoved⟩ := moveCells_moved hsrc hdst hsrc' hdst'
    rwa [Option.some.inj (hcells.symm.trans heq)]

/-- In every file of records and for all their numbers: the call moves the record, can be taken back
and releases the lock and the descriptor, and returns 0 only when nothing has failed, just if the
offsets fit into an `int` and the mapping and the moves on it succeed, if it comes to them. -/
theorem move_record_iff (hsize : 0 < size) (hsrc : 0 < srcid) (hdst : 0 < dstid)
    (hsrc' : srcid ≤ file.length) (hdst' : dstid ≤ file.length) :
    MovesRight size srcid dstid c file ↔ MoveFine size srcid dstid c := by
  have hback : ∀ {file'}, Moved srcid dstid file file' → ∀ c' r',
      moveRecord size dstid srcid c' file' = some r' → r'.ret = 0 → r'.failed = false →
        r'.file = file := fun hmoved c' r' h hret hok =>
    hmoved.back hsrc hdst hsrc' hdst' (moveRecord_moved hdst hsrc (hmoved.length ▸ hdst')
      (hmoved.length ▸ hsrc') h hret hok)
  constructor
  · rintro ⟨r, hr, -, -, hclosed, -, hreport⟩
    by_cases hne : srcid = dstid
    · exact .inl hne
    by_cases hcalls : c.openOk = true ∧ c.fstatOk = true
    · by_cases hint : srcid * size < 2 ^ 31 ∧ dstid * size < 2 ^ 31
      · rw [moveRecord_of_fits hne hsize hsrc hdst hsrc' hdst' hcalls hint.1 hint.2] at hr
        split at hr
        · obtain rfl := Option.some.inj hr
          cases hclosed
        case isFalse hmmap =>
          split at hr
          · obtain rfl := Option.some.inj hr
            exact absurd rfl (hreport rfl)
          case h_2 hfault =>
            exact .inr (.inr (.inr ⟨hint.1, hint.2, Bool.not_eq_false _ ▸ hmmap, hfault⟩))
      · rw [moveRecord_overflow hne hsize hsrc hdst hsrc' hcalls hint] at hr
        cases hr
    · rcases Bool.eq_false_or_eq_true c.openOk with hopen | hopen
      · exact .inr (.inr (.inl (Bool.eq_false_iff.mpr fun hstat => hcalls ⟨hopen, hstat⟩)))
      · exact .inr (.inl hopen)
  · intro hfine
    by_cases hne : srcid = dstid
    · subst hne
      refine ⟨⟨0, file, false, false, false⟩, if_pos rfl, fun _ => ⟨moved_self, hback moved_self⟩,
        rfl, rfl, rfl, fun h => by cases h⟩
    by_cases hcalls : c.openOk = false ∨ c.fstatOk = false
    · have herr : (-1 : Int) ≠ 0 := by decide
      refine ⟨⟨-1, file, false, false, true⟩, ?_, fun h => absurd h herr, rfl, rfl, rfl,
        fun _ => herr⟩
      rw [moveRecord, if_neg (by omega), if_neg (by omega), if_pos hcalls]
    · obtain ⟨hsrcInt, hdstInt, hmmap, hfault⟩ := ((hfine.resolve_left hne).resolve_left
        fun h => hcalls (.inl h)).resolve_left fun h => hcalls (.inr h)
      obtain ⟨file', hcells, hmoved⟩ := moveCells_moved hsrc hdst hsrc' hdst'
      refine ⟨⟨0, file', false, false, false⟩, ?_, fun _ => ⟨hmoved, hback hmoved⟩, hmoved.length,
        rfl, rfl, fun h => by cases h⟩
      rw [moveRecord_of_fits hne hsize hsrc hdst hsrc' hdst' (by simpa using hcalls) hsrcInt
        hdstInt, hmmap, hfault, hcells]
      rfl

theorem move_record_demo : MovesRight 256 1 3 ⟨true, true, true, none⟩ [10, 20, 30, 40] :=
  (move_record_iff (by decide) (by decide) (by decide) (by decide) (by decide)).mpr
    (.inr (.inr (.inr (by decide))))

/-- The mapping fails: the lock and the descriptor stay. -/
theorem move_record_mmap : ¬∀ (size srcid dstid : Nat) (c : MoveCalls Nat) (file : List Nat),
    0 < size → 0 < srcid → 0 < dstid → srcid ≤ file.length → dstid ≤ file.length →
      MovesRight size srcid dstid c file := by
  intro hclaim
  obtain ⟨r, hr, -, -, hclosed, -⟩ := hclaim 256 1 2 ⟨true, true, false, none⟩ [10, 20] (by decide)
    (by decide) (by decide) (by decide) (by decide)
  obtain rfl := Option.some.inj hr
  cases hclosed

end

end ArgoBbs

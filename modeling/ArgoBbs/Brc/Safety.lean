import ArgoBbs.Brc.Boardrc

/-! # Which files the decoding loops can read

The loops of `brc_update` and `brc_initial` test only the first byte of a record against the end
of the data. They stay inside the data exactly when the data is `Intact`: every record that starts
in it has its terminated name, its count and its marks in it. On intact data the rewritten buffer
is no longer than the records read back and the record put in front, which together fit into
`brc_buf`. -/

namespace ArgoBbs

/-- The data is a sequence of whole records, up to its end, to a byte that starts no record or to
a record whose name satisfies `stop`. -/
inductive Intact (stop : List UInt8 → Bool) : List UInt8 → Prop
  | nil : Intact stop []
  | other : isRecordStart c = false → Intact stop (c :: data)
  | found : cstr data = some src → data[brcStrlen]? = some num →
    brcStrlen + 1 + 4 * min num.toNat brcMaxNum ≤ data.length →
    stop (src.take (brcStrlen - 1)) = true → Intact stop data
  | record : cstr data = some src → data[brcStrlen]? = some num →
    brcStrlen + 1 + 4 * min num.toNat brcMaxNum ≤ data.length →
    Intact stop (data.drop (brcStrlen + 1 + 4 * num.toNat)) → Intact stop data

section
variable {stop : List UInt8 → Bool} {c : UInt8} {tmp rest : List UInt8} {r : BrcRecord}

/-- Data whose first record is not whole is not intact. -/
theorem not_intact (hc : isRecordStart c = true) (h : brcGetrecord (c :: tmp) = none) :
    ¬ Intact stop (c :: tmp) := by
  intro hi
  cases hi with
  | other h' => rw [hc] at h'; cases h'
  | found hsrc hnum hlen _ | record hsrc hnum hlen _ =>
    rw [brcGetrecord_eq_some.mpr ⟨_, _, hsrc, hnum, hlen, rfl, rfl⟩] at h
    cases h

theorem intact_record_iff (hc : isRecordStart c = true)
    (h : brcGetrecord (c :: tmp) = some (r, rest)) :
    Intact stop (c :: tmp) ↔ stop r.name = true ∨ Intact stop rest := by
  obtain ⟨src, num, hsrc, hnum, hlen, rfl, rfl⟩ := brcGetrecord_eq_some.mp h
  constructor
  · intro hi
    cases hi with
    | other h' => rw [hc] at h'; cases h'
    | found hsrc' _ _ hstop => exact .inl (Option.some.inj (hsrc.symm.trans hsrc') ▸ hstop)
    | record _ hnum' _ hrest => exact .inr (Option.some.inj (hnum.symm.trans hnum') ▸ hrest)
  · rintro (hstop | hrest)
    · exact .found hsrc hnum hlen hstop
    · exact .record hsrc hnum hlen hrest

end

/-- On intact data with room for it in the buffer, the loop of `brc_update` ends, having written no
more than it has read. -/
theorem brcMerge_of_intact (currboard buf : List UInt8) (ptr : Nat) {tmp : List UInt8}
    (hi : Intact (fun _ => false) tmp) (hroom : ptr + tmp.length ≤ buf.length) :
    ∃ buf' ptr', brcMerge currboard tmp buf ptr = some (buf', ptr') ∧
      buf'.length = buf.length ∧ ptr' ≤ ptr + tmp.length := by
  induction hn : tmp.length using Nat.strongRecOn generalizing tmp buf ptr with
  | ind n ih =>
  cases tmp with
  | nil => exact ⟨buf, ptr, brcMerge_nil, rfl, by omega⟩
  | cons c tmp =>
  cases hc : isRecordStart c with
  | false => exact ⟨buf, ptr, brcMerge_other hc, rfl, by omega⟩
  | true =>
  cases hg : brcGetrecord (c :: tmp) with
  | none => exact absurd hi (not_intact hc hg)
  | some p =>
    obtain ⟨r, rest⟩ := p
    obtain ⟨hmax, hlen⟩ := brcGetrecord_length hg
    have hrest := ((intact_record_iff hc hg).mp hi).resolve_left Bool.false_ne_true
    -- either way the pointer moves by at most the room the record had in the data
    obtain ⟨buf₁, ptr₁, hput, hbuf₁, hptr₁⟩ : ∃ buf₁ ptr₁,
        (if strncmpEq r.name currboard brcStrlen then some (buf, ptr)
          else brcPutrecord buf ptr r.name r.list.length r.list) = some (buf₁, ptr₁) ∧
        buf₁.length = buf.length ∧ ptr₁ ≤ ptr + (brcStrlen + 1 + 4 * r.list.length) := by
      split
      · exact ⟨buf, ptr, rfl, rfl, by omega⟩
      · exact brcPutrecord_eq_some buf r.name ptr le_rfl hmax (by omega)
    obtain ⟨buf', ptr', hm, hbuf', hptr'⟩ :=
      ih rest.length (hn ▸ length_brcGetrecord_lt hg) buf₁ ptr₁ hrest (by omega) rfl
    exact ⟨buf', ptr', by rw [brcMerge_record hc hg, hput]; exact hm, by omega, by omega⟩

/-- The loop of `brc_update` stays inside the data only if the data is intact. -/
theorem Intact.of_brcMerge {currboard tmp buf : List UInt8} {ptr : Nat} {out : List UInt8 × Nat}
    (h : brcMerge currboard tmp buf ptr = some out) : Intact (fun _ => false) tmp := by
  induction hn : tmp.length using Nat.strongRecOn generalizing tmp buf ptr with
  | ind n ih =>
  cases tmp with
  | nil => exact .nil
  | cons c tmp =>
  cases hc : isRecordStart c with
  | false => exact .other hc
  | true =>
  cases hg : brcGetrecord (c :: tmp) with
  | none => rw [brcMerge_none hc hg] at h; cases h
  | some p =>
    rw [brcMerge_record hc hg] at h
    obtain ⟨⟨buf₁, ptr₁⟩, -, h⟩ := Option.bind_eq_some_iff.mp h
    exact (intact_record_iff hc hg).mpr (.inr (ih _ (hn ▸ length_brcGetrecord_lt hg) h rfl))

/-- The loop of `brc_initial` stays inside the data exactly when the data is intact up to the
record of the board. -/
theorem brcSearch_isSome_iff {currboard data name : List UInt8} {b : Brc} :
    (brcSearch currboard data name b).isSome ↔
      Intact (fun name => strncmpEq name currboard brcStrlen) data := by
  induction hn : data.length using Nat.strongRecOn generalizing data name b with
  | ind n ih =>
  cases data with
  | nil => simp [brcSearch_nil, Intact.nil]
  | cons c data =>
  cases hc : isRecordStart c with
  | false => simp [brcSearch_other hc, Intact.other hc]
  | true =>
  cases hg : brcGetrecord (c :: data) with
  | none => simp [brcSearch_none hc hg, not_intact hc hg]
  | some p =>
    obtain ⟨r, rest⟩ := p
    rw [brcSearch_record hc hg, intact_record_iff hc hg]
    dsimp only
    split
    case isTrue hs => simp [hs]
    case isFalse hs => simp [hs, ih rest.length (hn ▸ length_brcGetrecord_lt hg) rfl]

/-! ## The two entry points -/

/-- `brc_update` reads only bytes of the file and rewrites no more than `brc_buf`. -/
def UpdateSafe (s : BrcSession) (file : Option (List UInt8)) : Prop :=
  ∃ s' file', brcUpdate s file = some (s', file') ∧ s'.brcSize ≤ brcMaxSize

/-- `brc_initial` reads only the bytes it has from the file. -/
def InitialSafe (s : BrcSession) (boardname : List UInt8) (file : Option (List UInt8)) : Prop :=
  (brcInitial boardname s file).isSome

section
variable {s : BrcSession} {file : Option (List UInt8)} {boardname : List UInt8}

theorem brcPutrecord_clamp (buf name : List UInt8) (ptr : Nat) (num : Int) (list : List Int) :
    brcPutrecord buf ptr name num list =
      brcPutrecord buf ptr name (min num.toNat brcMaxNum : Nat) list := by
  unfold brcPutrecord
  by_cases h : num > 0
  · have hpos : ((min num.toNat brcMaxNum : Nat) : Int) > 0 := by simp only [brcMaxNum]; omega
    rw [if_pos h, if_pos hpos, Int.toNat_natCast, Nat.min_assoc, Nat.min_self]
  · rw [if_neg h, if_neg (by omega)]

/-- The record of the current board takes at most one item of the buffer. -/
theorem brcFront_eq_some (hcells : s.brc.brcList.length = brcMaxNum)
    (hbuf : s.brcBuf.length = brcMaxSize) :
    ∃ buf ptr, brcFront s = some (buf, ptr) ∧ buf.length = brcMaxSize ∧ ptr ≤ brcItemSize := by
  unfold brcFront
  split
  case isTrue =>
    rw [brcPutrecord_clamp]
    have hmax : min s.brc.brcNum.toNat brcMaxNum ≤ brcMaxNum := Nat.min_le_right ..
    obtain ⟨buf, ptr, hput, hlen, hptr⟩ := brcPutrecord_eq_some s.brcBuf s.brcName 0
      (hmax.trans hcells.ge) hmax (by simp only [hbuf, brcMaxSize, brcStrlen, brcMaxNum] at *; omega)
    exact ⟨buf, ptr, hput, hlen.trans hbuf, by simp only [brcItemSize]; omega⟩
  case isFalse => exact ⟨s.brcBuf, 0, rfl, hbuf, Nat.zero_le _⟩

theorem updateSafe_iff (hcells : s.brc.brcList.length = brcMaxNum)
    (hbuf : s.brcBuf.length = brcMaxSize) (hchanged : s.brc.brcChanged = true)
    (hguest : s.guestuser = false) :
    UpdateSafe s file ↔ Intact (fun _ => false) (brcReadback file) := by
  obtain ⟨buf, ptr, hput, hlen, hptr⟩ := brcFront_eq_some hcells hbuf
  have hrebuild : brcRebuild s (brcReadback file) =
      brcMerge s.currboard (brcReadback file) buf ptr := by
    rw [brcRebuild, hput]
    rfl
  have hupd : brcUpdate s file = (brcMerge s.currboard (brcReadback file) buf ptr).bind
      fun out => some (s.rebuilt out.1 out.2, some (out.1.take out.2)) := by
    rw [brcUpdate, if_neg (by simp [hchanged, hguest]), hrebuild]
    rfl
  rw [UpdateSafe, hupd]
  constructor
  · rintro ⟨s', file', h, -⟩
    obtain ⟨out, hm, -⟩ := Option.bind_eq_some_iff.mp h
    exact .of_brcMerge hm
  · intro hi
    have htake : (brcReadback file).length ≤ brcMaxSize - brcItemSize := List.length_take_le ..
    have hsize : brcItemSize + (brcMaxSize - brcItemSize) = brcMaxSize := by decide
    obtain ⟨buf', size, hm, -, hle⟩ := brcMerge_of_intact s.currboard buf ptr hi (by omega)
    exact ⟨_, _, by rw [hm]; rfl, show size ≤ brcMaxSize by omega⟩

theorem initialSafe_iff (hcells : s.brc.brcList.length = brcMaxNum)
    (hchanged : s.brc.brcChanged = false) (hboard : s.currboard ≠ boardname) :
    InitialSafe s boardname file ↔
      Intact (fun name => strncmpEq name boardname brcStrlen) (s.decoded file) := by
  have hupd : brcUpdate s file = some (s, file) := if_pos (.inl hchanged)
  obtain ⟨s₁, hload⟩ : ∃ s₁, s₁ = (s.enter boardname).loadFile file := ⟨_, rfl⟩
  obtain ⟨hbrc, hcur, -⟩ := hload ▸ @loadFile_fields (s.enter boardname) file
  have hdata : s₁.brcBuf.take s₁.brcSize = s.decoded file :=
    hload ▸ @take_loadFile (s.enter boardname) file
  have hfind : (s₁.find boardname).isSome ↔
      (brcSearch boardname (s.decoded file) s₁.brcName { s₁.brc with brcCur := 0 }).isSome := by
    rw [BrcSession.find, hdata, hcur]
    dsimp only [BrcSession.enter]
    cases h : brcSearch boardname (s.decoded file) s₁.brcName { s₁.brc with brcCur := 0 } with
    | none => simp
    | some p =>
      obtain ⟨found, name, brc⟩ := p
      have hlen : 0 < brc.brcList.length := by
        rw [brcSearch_cells h (hbrc ▸ hcells)]; decide
      cases found <;> simp [setCell, hlen]
  rw [InitialSafe, brcInitial, if_neg hboard, hupd]
  simp only [Option.bind_eq_bind, Option.bind_some]
  rw [← hload, ← brcSearch_isSome_iff, ← hfind]
  cases s₁.find boardname <;> simp

end

/-- The two loops stay inside what they read of the file, and the rewritten buffer inside `brc_buf`,
exactly when the data that each of them decodes consists of whole records (for `brc_initial`, up to
the record of the board). -/
theorem brc_decode_safe_iff (file : Option (List UInt8)) (boardname : List UInt8)
    (s s₀ : BrcSession) (hcells : s.brc.brcList.length = brcMaxNum)
    (hbuf : s.brcBuf.length = brcMaxSize) (hchanged : s.brc.brcChanged = true)
    (hguest : s.guestuser = false) (hcells₀ : s₀.brc.brcList.length = brcMaxNum)
    (hchanged₀ : s₀.brc.brcChanged = false) (hboard : s₀.currboard ≠ boardname) :
    UpdateSafe s file ∧ InitialSafe s₀ boardname file ↔
      Intact (fun _ => false) (brcReadback file) ∧
      Intact (fun name => strncmpEq name boardname brcStrlen) (s₀.decoded file) := by
  rw [updateSafe_iff hcells hbuf hchanged hguest, initialSafe_iff hcells₀ hchanged₀ hboard]

/-- A record of sixty marks whose marks have not reached the file. -/
def cutRecord : List UInt8 := 65 :: List.replicate 19 0 ++ [60]

theorem not_intact_cutRecord (stop : List UInt8 → Bool) : ¬ Intact stop cutRecord :=
  not_intact (by decide) (by decide)

/-- The session of a user who has marked an article on the board `board`. -/
def BrcSession.marked (board : List UInt8) : BrcSession :=
  { BrcSession.start with
    brc := { brcList := 5 :: 1 :: List.replicate 58 0, brcNum := 2, brcCur := 0, brcChanged := true }
    brcName := board
    currboard := board }

/-- On a record cut off before its marks both loops read beyond the end of the data. -/
theorem brc_decode_cutRecord :
    ¬ UpdateSafe (.marked [66]) (some cutRecord) ∧ ¬ InitialSafe .start [66] (some cutRecord) := by
  have hbuf : (BrcSession.marked [66]).brcBuf.length = brcMaxSize := List.length_replicate
  have hread : brcReadback (some cutRecord) = cutRecord := List.take_of_length_le (by decide)
  have hdec : BrcSession.start.decoded (some cutRecord) = cutRecord :=
    (if_pos rfl).trans (List.take_of_length_le (by decide))
  rw [updateSafe_iff rfl hbuf rfl rfl, initialSafe_iff rfl rfl (by decide), hread, hdec]
  exact ⟨not_intact_cutRecord _, not_intact_cutRecord _⟩

theorem brc_decode_safe_iff_cutRecord :
    UpdateSafe (.marked [66]) (some cutRecord) ∧ InitialSafe .start [66] (some cutRecord) ↔
      Intact (fun _ => false) (brcReadback (some cutRecord)) ∧
      Intact (fun name => strncmpEq name [66] brcStrlen)
        (BrcSession.start.decoded (some cutRecord)) :=
  brc_decode_safe_iff (some cutRecord) [66] (.marked [66]) .start rfl List.length_replicate rfl rfl
    rfl rfl (by decide)

end ArgoBbs

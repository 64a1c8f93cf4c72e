import ArgoBbs.Brc.BoardMap

/-! # One session implements the map

The read marks of a session live in three places: the marks of the current board, the cached copy
`brc_buf` and the file. `Sim` relates them to a `MarkSession`: file and cache both hold the records
of the map, and the current board has the marks of the session. Every operation keeps `Sim`. -/

namespace ArgoBbs

/-- The bytes are the records of the map. -/
def Holds (bytes : List UInt8) (m : MarkMap) : Prop :=
  ∃ rs, Encodes rs bytes ∧ (∀ r ∈ rs, r.Valid) ∧ Represents rs m

/-- One call of the session, on the session and its file. -/
def SessionOp.exec : SessionOp → BrcSession × Option (List UInt8) →
    Option (BrcSession × Option (List UInt8))
  | .visit b, (s, file) => (brcInitial b s file).map (·.2)
  | .mark t, (s, file) => (brcAddlist t s.brc).map fun brc => ({ s with brc }, file)
  | .update, (s, file) => brcUpdate s file
  | .login, (_, file) => some (.start, file)

def BrcSession.run (s : BrcSession) (file : Option (List UInt8)) (ops : List SessionOp) :
    Option (BrcSession × Option (List UInt8)) := ops.foldlM (fun p op => op.exec p) (s, file)

/-- What `brc_initial` has restored for the current board. -/
structure Current (s : BrcSession) (board : List UInt8) (marks : List Int) : Prop where
  valid : ValidName board
  name : s.brcName = board
  wf : s.brc.WF
  marks_eq : s.brc.marks = marks
  ints : ∀ x ∈ marks, IsCInt x

/-- The session and its file stand for a session on the map. -/
structure Sim (s : BrcSession) (file : Option (List UInt8)) (st : MarkSession) : Prop where
  guest : s.guestuser = false
  cells : s.brc.brcList.length = brcMaxNum
  buf : s.brcBuf.length = brcMaxSize
  disk : Holds (file.getD []) st.saved
  fits : (file.getD []).length ≤ brcMaxSize - brcItemSize
  cache : Holds (s.decoded file) st.saved
  board : s.currboard = st.board
  changed : s.brc.brcChanged = st.dirty
  clean : st.board = [] → st.dirty = false
  current : st.board ≠ [] → Current s st.board st.marks

section
variable {s : BrcSession} {file : Option (List UInt8)} {st : MarkSession} {m : MarkMap}
  {b : List UInt8}

theorem Holds.length_le {bytes : List UInt8} (h : Holds bytes m) (hm : Fits m) :
    bytes.length ≤ brcMaxSize - brcItemSize := by
  obtain ⟨rs, henc, -, hrep⟩ := h
  exact henc.length ▸ hrep.size_le hm

theorem sim_start (h : Holds (file.getD []) m)
    (hfits : (file.getD []).length ≤ brcMaxSize - brcItemSize) :
    Sim .start file (.login m) where
  guest := rfl
  cells := List.length_replicate
  buf := List.length_replicate
  disk := h
  fits := hfits
  cache := by
    have hdec : BrcSession.start.decoded file = (file.getD []).take brcMaxSize := if_pos rfl
    rw [hdec, List.take_of_length_le (hfits.trans (Nat.sub_le _ _))]
    exact h
  board := rfl
  changed := rfl
  clean := fun _ => rfl
  current := fun hb => absurd rfl hb

theorem Current.num_eq {marks : List Int} (h : Current s b marks) : s.brc.brcNum = marks.length :=
  h.marks_eq ▸ h.wf.length_marks.symm

/-- The record of the current board. -/
theorem Current.valid_record {marks : List Int} (h : Current s b marks) :
    BrcRecord.Valid ⟨b, marks⟩ where
  name := h.valid
  ne_nil := by
    have := h.num_eq ▸ h.wf.num_pos
    exact List.length_pos_iff.mp (by exact_mod_cast this)
  length_le := by exact_mod_cast h.num_eq ▸ h.wf.num_le
  ints := h.ints
  sorted := h.marks_eq ▸ h.wf.sorted

/-- Rebuilding the buffer on a board: the map of the file with the entry of the board replaced. -/
theorem brcRebuild_holds {tmp : List UInt8} {marks : List Int} (hb : s.currboard = b)
    (hcur : Current s b marks) (hbuf : s.brcBuf.length = brcMaxSize) (h : Holds tmp m)
    (htmp : tmp.length ≤ brcMaxSize - brcItemSize) :
    ∃ buf bytes, brcRebuild s tmp = some (buf, bytes.length) ∧ buf.length = brcMaxSize ∧
      Holds bytes (Function.update m b (some marks)) ∧ buf.take bytes.length = bytes := by
  obtain ⟨rs, henc, hrs, hrep⟩ := h
  have hvalid := hcur.valid_record
  have hnum := hcur.num_eq
  have hlist : s.brc.brcList.take marks.length = marks := by
    calc s.brc.brcList.take marks.length
        = s.brc.marks := by rw [Brc.marks, hnum, Int.toNat_natCast]
      _ = marks := hcur.marks_eq
  have hsize : BrcRecord.size ⟨b, marks⟩ ≤ brcItemSize :=
    Nat.add_le_add_left (Nat.mul_le_mul_left 4 hvalid.length_le) _
  have hitem : brcItemSize ≤ brcMaxSize := by decide
  obtain ⟨buf₁, x, hput, hlen₁, hx, htake₁⟩ := brcPutrecord_encoded hvalid.storable s.brcBuf 0 hnum hlist
    (by omega)
  obtain ⟨buf, bytes, hmerge, hlen, henc', htake⟩ := brcMerge_encoded hcur.valid hrs henc buf₁
    (0 + BrcRecord.size ⟨b, marks⟩) (by omega)
  have hptr : 0 + BrcRecord.size ⟨b, marks⟩ + bytes.length = (x ++ bytes).length := by
    rw [List.length_append, hx.length, Nat.zero_add]
  have hfront : brcFront s = some (buf₁, 0 + BrcRecord.size ⟨b, marks⟩) := by
    rw [brcFront, if_pos hcur.wf.num_pos, hcur.name]
    exact hput
  have hvalids : ∀ r ∈ ⟨b, marks⟩ :: rs.filter (·.name ≠ b), r.Valid := by
    intro r hr
    rcases List.mem_cons.mp hr with hr | hr
    · exact hr ▸ hvalid
    · exact hrs r (List.mem_of_mem_filter hr)
  refine ⟨buf, x ++ bytes, ?_, by omega, ⟨_, .cons hx henc', hvalids, hrep.update b marks⟩, ?_⟩
  · rw [brcRebuild, hfront, hb, ← hptr]
    exact hmerge
  · rw [← hptr, htake, htake₁]
    simp

/-- `brc_update` puts the marks of the current board into the map. -/
theorem Sim.update (h : Sim s file st) (hfits : Fits st.flush.saved) :
    ∃ s' file', brcUpdate s file = some (s', file') ∧ Sim s' file' st.flush := by
  by_cases hd : st.dirty = true
  · have hb : st.board ≠ [] := fun hb => by rw [h.clean hb] at hd; cases hd
    have hcur := h.current hb
    have hread : brcReadback file = file.getD [] := List.take_of_length_le h.fits
    obtain ⟨buf, bytes, hre, hlen, hholds, htake⟩ :=
      brcRebuild_holds h.board hcur h.buf h.disk h.fits
    have hflush : st.flush =
        { st with saved := Function.update st.saved st.board (some st.marks), dirty := false } :=
      if_pos hd
    rw [hflush] at hfits ⊢
    have hupd : brcUpdate s file = some (s.rebuilt buf bytes.length, some bytes) := by
      rw [brcUpdate, if_neg (by simp [h.changed, hd, h.guest]), hread]
      simp only [hre, htake, Option.bind_eq_bind, Option.bind_some]
    refine ⟨_, _, hupd, ?_⟩
    have hdec : (s.rebuilt buf bytes.length).decoded (some bytes) = bytes := by
      unfold BrcSession.decoded BrcSession.rebuilt
      split
      · exact List.take_of_length_le ((hholds.length_le hfits).trans (Nat.sub_le _ _))
      · exact htake
    exact {
      guest := h.guest
      cells := h.cells
      buf := hlen
      disk := hholds
      fits := hholds.length_le hfits
      cache := hdec.symm ▸ hholds
      board := h.board
      changed := rfl
      clean := fun _ => rfl
      current := fun _ => ⟨hcur.valid, hcur.name, ⟨hcur.wf.cells, hcur.wf.num_pos, hcur.wf.num_le,
        hcur.wf.cur_nonneg, hcur.wf.sorted⟩, hcur.marks_eq, hcur.ints⟩ }
  · have hflush : st.flush = st := if_neg hd
    have hchanged : s.brc.brcChanged = false := h.changed.trans (Bool.not_eq_true _ ▸ hd)
    exact ⟨s, file, if_pos (.inl hchanged), hflush.symm ▸ h⟩

/-- The decoding loop of `brc_initial` sets the marks that the map has for the board. -/
theorem find_of_holds (hb : ValidName b) (hcur : s.currboard = b)
    (hcells : s.brc.brcList.length = brcMaxNum) (h : Holds (s.brcBuf.take s.brcSize) m) :
    ∃ num brc, s.find b = some (num, { s with brcName := b, brc }) ∧
      brc.brcChanged = s.brc.brcChanged ∧
      Current { s with brcName := b, brc } b ((m b).getD [1]) := by
  obtain ⟨rs, henc, hrs, hrep⟩ := h
  obtain ⟨found, name', b', hsearch, hcells', hcur', hchanged', hfound⟩ :=
    brcSearch_encoded hb hrs henc s.brcName { s.brc with brcCur := 0 } hcells
  rw [hrep.find? b] at hfound
  rw [BrcSession.find, hcur, hsearch]
  cases hm : m b with
  | some l =>
    rw [hm] at hfound
    obtain ⟨hf, hname, hmarks, hnum⟩ := hfound
    rw [hf, show name' = b from hname]
    have hl := hrs _ ((hrep.mem_iff ⟨b, l⟩).mpr hm)
    have hpos := List.length_pos_iff.mpr hl.ne_nil
    have hmax := hl.length_le
    refine ⟨_, b', rfl, hchanged', hb, rfl, ⟨hcells', ?_, ?_, hcur'.ge, ?_⟩, hmarks, hl.ints⟩
    · exact hnum ▸ by exact_mod_cast hpos
    · exact hnum ▸ by exact_mod_cast hmax
    · exact hmarks ▸ hl.sorted
  | none =>
    rw [hm] at hfound
    subst hfound
    obtain ⟨x, l, hl⟩ : ∃ x l, b'.brcList = x :: l :=
      List.exists_cons_of_length_pos (hcells'.symm ▸ Nat.succ_pos _)
    have hlen : ((1 : Int) :: l).length = brcMaxNum := by rw [← hcells', hl]; rfl
    have hset : setCell b'.brcList 0 1 = some (1 :: l) := by rw [hl]; simp [setCell]
    have htake : b.take (brcStrlen - 1) = b :=
      List.take_of_length_le (Nat.le_sub_one_of_lt hb.length_lt)
    refine ⟨0, { b' with brcList := 1 :: l, brcNum := 1 }, ?_, hchanged', hb, rfl,
      ⟨hlen, Int.one_pos, ?_, hcur'.ge, List.pairwise_singleton _ _⟩, rfl, by decide⟩
    · simp [hset, htake]
    · show (1 : Int) ≤ brcMaxNum
      decide

/-- `brc_initial` leaves the old board and finds the marks of the new one. -/
theorem Sim.visit (h : Sim s file st) (hb : ValidName b) (hfits : Fits (st.visit b).saved) :
    ∃ num s' file', brcInitial b s file = some (num, s', file') ∧ Sim s' file' (st.visit b) := by
  unfold MarkSession.visit at hfits ⊢
  by_cases hboard : st.board = b
  · rw [if_pos hboard] at hfits ⊢
    exact ⟨_, s, file, if_pos (h.board.trans hboard), h⟩
  · rw [if_neg hboard] at hfits ⊢
    obtain ⟨s₁, file', hupd, h₁⟩ := h.update hfits
    obtain ⟨s₂, hs₂⟩ : ∃ s₂, s₂ = (s₁.enter b).loadFile file' := ⟨_, rfl⟩
    obtain ⟨hbrc, hcur, hguest⟩ := hs₂ ▸ @loadFile_fields (s₁.enter b) file'
    have hdec : s₂.decoded file' = s₁.decoded file' := hs₂ ▸ decoded_loadFile
    have htake : s₂.brcBuf.take s₂.brcSize = s₁.decoded file' := hs₂ ▸ take_loadFile
    obtain ⟨num, brc, hfind, hchanged, hcurrent⟩ :=
      @find_of_holds s₂ _ b hb hcur (hbrc ▸ h₁.cells) (htake ▸ h₁.cache)
    have hinit : brcInitial b s file =
        some (num, { s₂ with brcName := b, brc }, file') := by
      rw [brcInitial, if_neg (h.board ▸ hboard), hupd]
      simp only [Option.bind_eq_bind, Option.bind_some, ← hs₂, hfind]
    refine ⟨num, _, file', hinit, ?_⟩
    exact {
      guest := hguest.trans h₁.guest
      cells := hcurrent.wf.cells
      buf := hs₂ ▸ length_loadFile h₁.buf
      disk := h₁.disk
      fits := h₁.fits
      cache := hdec.symm ▸ h₁.cache
      board := hcur
      changed := hchanged.trans (hbrc ▸ rfl)
      clean := fun _ => rfl
      current := fun _ => hcurrent }

theorem Sim.mark (h : Sim s file st) (hb : st.board ≠ []) (t : Int) :
    ∃ brc, brcAddlist t s.brc = some brc ∧ Sim { s with brc } file (st.mark t) := by
  have hcur := h.current hb
  obtain ⟨brc, hadd, hwf, hmarks⟩ := brcAddlist_eq hcur.wf t
  refine ⟨brc, hadd, ?_⟩
  rw [hcur.marks_eq] at hmarks
  unfold MarkSession.mark
  split at hmarks
  case isTrue hnew =>
    have hints : ∀ x ∈ insertMark brcMaxNum (toCInt t) st.marks, IsCInt x := by
      intro x hx
      rcases mem_insertMark hx with hx | hx
      · exact hx ▸ isCInt_toCInt t
      · exact hcur.ints x hx
    rw [if_pos hnew]
    exact { h with
      cells := hwf.cells
      changed := hmarks.2
      clean := fun hb' => absurd hb' hb
      current := fun _ => ⟨hcur.valid, hcur.name, hwf, hmarks.1, hints⟩ }
  case isFalse hold =>
    rw [if_neg hold]
    exact { h with
      cells := hwf.cells
      changed := hmarks.2.trans h.changed
      current := fun _ => ⟨hcur.valid, hcur.name, hwf, hmarks.1, hcur.ints⟩ }

/-- Every allowed operation is the operation on the map. -/
theorem Sim.exec (h : Sim s file st) {op : SessionOp} (hop : st.Allows op) :
    ∃ s' file', op.exec (s, file) = some (s', file') ∧ Sim s' file' (st.exec op) := by
  obtain ⟨hfits, hop⟩ := hop
  cases op with
  | visit b =>
    obtain ⟨num, s', file', he, h'⟩ := h.visit hop hfits
    exact ⟨s', file', by rw [SessionOp.exec, he]; rfl, h'⟩
  | mark t =>
    obtain ⟨brc, he, h'⟩ := h.mark hop t
    exact ⟨_, file, by rw [SessionOp.exec, he]; rfl, h'⟩
  | update => exact h.update hfits
  | login => exact ⟨.start, file, rfl, sim_start h.disk h.fits⟩

theorem Sim.run (h : Sim s file st) {ops : List SessionOp} (hops : st.AllowsRun ops) :
    ∃ s' file', s.run file ops = some (s', file') ∧ Sim s' file' (st.run ops) := by
  induction ops generalizing s file st with
  | nil => exact ⟨s, file, rfl, h⟩
  | cons op ops ih =>
    obtain ⟨s₁, file₁, he, h₁⟩ := h.exec hops.1
    obtain ⟨s', file', hrun, h'⟩ := ih h₁ hops.2
    exact ⟨s', file', by rw [BrcSession.run, List.foldlM_cons, he]; exact hrun, h'⟩

end

/-- The session shows the name, the count and the list of the board. -/
structure Shows (s : BrcSession) (board : List UInt8) (marks : List Int) : Prop where
  name : s.brcName = board
  count : s.brc.brcNum = marks.length
  list : s.brc.brcList.take s.brc.brcNum.toNat = marks

theorem Current.shows {s : BrcSession} {board : List UInt8} {marks : List Int}
    (h : Current s board marks) : Shows s board marks := ⟨h.name, h.num_eq, h.marks_eq⟩

/-- A session of one user implements the map from boards to marks. For every file that holds a map
and every run of visits, marks, updates and new sessions, no call leaves its arrays, the current
board has the name, count and list that the map gives it, the file holds each record of the map
once and nothing else, and a board that was left after `brc_update` is found as it was left. -/
theorem brc_session_refines (file : Option (List UInt8)) (m : MarkMap)
    (hfile : Holds (file.getD []) m) (hfits : (file.getD []).length ≤ brcMaxSize - brcItemSize)
    (ops : List SessionOp) (hops : (MarkSession.login m).AllowsRun ops) :
    ∃ s file', BrcSession.start.run file ops = some (s, file') ∧
      (((MarkSession.login m).run ops).board ≠ [] →
        Shows s ((MarkSession.login m).run ops).board ((MarkSession.login m).run ops).marks) ∧
      Holds (file'.getD []) ((MarkSession.login m).run ops).saved ∧
      ∀ b ≠ [], ∀ before after, ops = before ++ .update :: after ++ [.visit b] →
        ((MarkSession.login m).run before).board = b →
        ((MarkSession.login m).run before).flush.LeavesAlone b after →
        Shows s b ((MarkSession.login m).run before).marks := by
  obtain ⟨s, file', hrun, h⟩ := (sim_start hfile hfits).run hops
  refine ⟨s, file', hrun, fun hb => (h.current hb).shows, h.disk, ?_⟩
  rintro b hb before after rfl hboard hafter
  obtain ⟨hboard', hmarks⟩ := MarkSession.run_back hb m before after hboard hafter
  have hshows := (h.current (hboard'.symm ▸ hb)).shows
  rwa [hmarks, hboard'] at hshows

/-- A user marks an article on one board, visits another one and finds the mark in a new session. -/
theorem brc_session_refines_two_boards :
    ∃ s file', BrcSession.start.run none
        [.visit [97], .mark 5, .update, .visit [98], .mark 7, .login, .visit [97]] =
          some (s, file') ∧ Shows s [97] [5, 1] := by
  let ops : List SessionOp := [.visit [97], .mark 5, .update, .visit [98], .mark 7, .login,
    .visit [97]]
  have hnone : Fits (fun _ => none) := ⟨[], .nil, by decide⟩
  have hone : Fits (Function.update (fun _ => none) [97] (some [5, 1])) :=
    ⟨_, Represents.nil.update [97] [5, 1], by decide⟩
  have hops : (MarkSession.login fun _ => none).AllowsRun ops :=
    ⟨⟨hnone, by decide⟩, ⟨hnone, by decide⟩, ⟨hone, trivial⟩, ⟨hone, by decide⟩,
      ⟨hone, by decide⟩, ⟨hone, trivial⟩, ⟨hone, by decide⟩, trivial⟩
  obtain ⟨s, file', hrun, -, -, hback⟩ := brc_session_refines none (fun _ => none)
    ⟨[], .nil, by simp, .nil⟩ (Nat.zero_le _) ops hops
  refine ⟨s, file', hrun, ?_⟩
  exact hback [97] (by decide) [.visit [97], .mark 5] [.visit [98], .mark 7, .login] rfl rfl
    ⟨by simp, fun _ _ => by decide, by simp, trivial⟩

end ArgoBbs

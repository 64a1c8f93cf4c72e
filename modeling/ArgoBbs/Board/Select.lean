import ArgoBbs.Board.NameComplete

/-! # Selecting a board by its name

`do_select` completes a name among those of the boards that the user may see, and looks up what the
prompt returns in the whole cache (`bbs.c`). Here the cache is not loaded again in between. -/

namespace ArgoBbs

/-- The cells of the cache, and how many of them hold boards. -/
structure BoardTable where
  bcache : Nat → Board
  numboards : Nat

/-- What `getbcache` remembers: the last name asked for and the last index found. -/
structure Memo where
  lastBname : Bytes
  lastBindex : Nat

namespace BoardTable

def boards (table : BoardTable) : List Board := (List.range table.numboards).map table.bcache

/-- `getbcache` on a cache that is not loaded again: the index of the board. -/
def getbcache (table : BoardTable) (bname : Bytes) (memo : Memo) : Option Nat × Memo :=
  if strncasecmpEq bname memo.lastBname strlen then (some memo.lastBindex, memo)
  else
    match (List.range table.numboards).find? fun i =>
      strncasecmpEq bname (table.bcache i).filename strlen with
    | some i => (some i, ⟨bname, i⟩)
    | none => (none, { memo with lastBname := bname })

/-- `setboardlevel`: the new level, if the list of all boards shows the group. The names of boards
differ, so the order of the list does not matter. -/
def setboardlevel (table : BoardTable) (v : Viewer) (view : BoardView) (bname : Bytes) : Option Nat :=
  let view := { view with boardprefix := none }
  let nbrd := (List.range table.numboards).filter fun n =>
    loadBoardsAddto view v true n (table.bcache n)
  (nbrd.find? fun n => (table.bcache n).filename = bname).map (· + 1)

end BoardTable

/-- Where `do_select` goes: nowhere, into the menu of a group with its level, or into a board, whose
header is found at an index of the cache. -/
inductive Selected
  | nowhere
  | group (bname : Bytes) (level : Nat)
  | board (bname : Bytes) (bp : Nat)

def Selected.entered : Selected → Option Bytes
  | .nowhere => none
  | .group bname _ => some bname
  | .board bname _ => some bname

/-- `do_select` once the name is known, and `do_select2`. -/
def selectBoard (table : BoardTable) (v : Viewer) (view : BoardView) (memo : Memo) (bname : Bytes) :
    Selected × Memo :=
  if bname = [] then (.nowhere, memo)
  else
    match table.getbcache bname memo with
    | (none, memo) => (.nowhere, memo)
    | (some bp, memo) =>
      if (table.bcache bp).has brdGroup then
        match table.setboardlevel v view bname with
        | none => (.nowhere, memo)
        | some level => (.group bname level, memo)
      else (.board bname bp, memo)

/-- `do_select`; `none` if no name is entered at the prompt. -/
def doSelect (table : BoardTable) (v : Viewer) (view : BoardView) (memo : Memo) (mem : Unwritten)
    (keys : List UInt8) : Option (Selected × Memo) :=
  (namecomplete mem (makeBlist v table.boards) keys).map (selectBoard table v view memo)

theorem findIdx?_range (n : Nat) (p : Nat → Bool) :
    (List.range n).findIdx? p = (List.range n).find? p := by
  induction n with
  | zero => rfl
  | succ n ih =>
    rw [List.range_succ, List.findIdx?_append, List.find?_append, ih, List.length_range]
    cases hn : p n <;> simp [hn, List.findIdx?_cons]

/-- The lookup is that of `getbcache` on a cache that is attached and not loaded again. -/
theorem BoardTable.getbcache_eq {maxboard : Nat} (table : BoardTable) (bname : Bytes)
    {env : BoardsEnv} {st : BcacheState maxboard} (hshm : resolveBoards env st.shm = st.shm)
    (htable : st.shm.current = table.boards.map (·.toBoardHeader)) (hatt : st.attached = true)
    (hlen : bname.length < strlen) :
    ArgoBbs.getbcache bname env st =
      let (found, memo) := table.getbcache bname ⟨st.lastBname, st.lastBindex⟩
      some (found, { st with lastBname := memo.lastBname, lastBindex := memo.lastBindex }) := by
  have hfind : (st.shm.current.findIdx? fun b => strncasecmpEq bname b.filename strlen) =
      (List.range table.numboards).find? fun i =>
        strncasecmpEq bname (table.bcache i).filename strlen := by
    rw [htable, BoardTable.boards, List.map_map, List.findIdx?_map, findIdx?_range]
    rfl
  unfold ArgoBbs.getbcache BoardTable.getbcache
  obtain ⟨shm, attached, lastBname, lastBindex⟩ := st
  cases hatt
  split
  · rfl
  · rw [if_neg (by omega), hshm]
    dsimp only at hfind ⊢
    rw [hfind]
    cases (List.range table.numboards).find? fun i =>
        strncasecmpEq bname (table.bcache i).filename strlen with
    | none => rfl
    | some i => rfl

/-! ## Names of the list -/

theorem mem_addToNameList {names : List Bytes} {name word : Bytes}
    (h : word ∈ addToNameList names name) : word ∈ names ∨ word = name := by
  rw [addToNameList] at h
  split at h
  · exact .inl h
  · simpa using h

theorem strcasecmpEq_comm {a b : Bytes} : strcasecmpEq a b = strcasecmpEq b a :=
  Bool.eq_iff_iff.mpr ⟨fun h => strcasecmpEq_iff.mpr (strcasecmpEq_iff.mp h).symm,
    fun h => strcasecmpEq_iff.mpr (strcasecmpEq_iff.mp h).symm⟩

theorem strcasecmpEq_self (a : Bytes) : strcasecmpEq a a = true := strcasecmpEq_iff.mpr rfl

/-- A name that is added is in the list up to case, and the names before stay. -/
theorem addToNameList_has (names : List Bytes) (name : Bytes) :
    names ⊆ addToNameList names name ∧
      ∃ word ∈ addToNameList names name, strcasecmpEq name word = true := by
  rw [addToNameList]
  split
  case isTrue hseek =>
    rw [seekInNameList, Bool.and_eq_true, List.any_eq_true] at hseek
    obtain ⟨-, word, hword, hsame⟩ := hseek
    exact ⟨List.Subset.refl _, word, hword, strcasecmpEq_comm.trans hsame⟩
  case isFalse =>
    exact ⟨List.subset_append_left _ _, name, by simp, strcasecmpEq_self name⟩

/-- Every name of the prompt is that of a board that is admitted. -/
theorem exists_board_of_mem {v : Viewer} {boards : List Board} {name : Bytes}
    (h : name ∈ makeBlist v boards) : ∃ b ∈ boards, namesAdmit v b = true ∧ b.filename = name := by
  rw [makeBlist_eq] at h
  have hfold : ∀ (admitted : List Board) (names : List Bytes),
      name ∈ admitted.foldl (fun names b => addToNameList names b.filename) names →
        name ∈ names ∨ ∃ b ∈ admitted, b.filename = name := by
    intro admitted
    induction admitted with
    | nil => exact fun names h => .inl h
    | cons b admitted ih =>
      intro names h
      rcases ih _ h with h | ⟨c, hc, hname⟩
      · rcases mem_addToNameList h with h | h
        · exact .inl h
        · exact .inr ⟨b, List.mem_cons_self, h.symm⟩
      · exact .inr ⟨c, List.mem_cons_of_mem _ hc, hname⟩
  rcases hfold _ [] h with h | ⟨b, hb, hname⟩
  · cases h
  · rw [List.mem_filter] at hb
    exact ⟨b, hb.1, hb.2, hname⟩

/-- The name of every board that is admitted is in the list, up to case. -/
theorem exists_mem_of_board {v : Viewer} {boards : List Board} {b : Board} (hb : b ∈ boards)
    (hshown : namesAdmit v b = true) :
    ∃ word ∈ makeBlist v boards, strcasecmpEq b.filename word = true := by
  rw [makeBlist_eq]
  have hkeep : ∀ (admitted : List Board) (names : List Bytes),
      names ⊆ admitted.foldl (fun names b => addToNameList names b.filename) names := by
    intro admitted
    induction admitted with
    | nil => exact fun names => List.Subset.refl _
    | cons c admitted ih =>
      exact fun names => List.Subset.trans (addToNameList_has names c.filename).1 (ih _)
  have hfold : ∀ (admitted : List Board) (names : List Bytes), b ∈ admitted →
      ∃ word ∈ admitted.foldl (fun names b => addToNameList names b.filename) names,
        strcasecmpEq b.filename word = true := by
    intro admitted
    induction admitted with
    | nil => exact fun names h => nomatch h
    | cons c admitted ih =>
      intro names h
      rcases List.mem_cons.mp h with rfl | h
      · obtain ⟨word, hword, hsame⟩ := (addToNameList_has names b.filename).2
        exact ⟨word, hkeep admitted _ hword, hsame⟩
      · exact ih _ h
  exact hfold _ [] (List.mem_filter.mpr ⟨hb, hshown⟩)

theorem brdnameChar_toupper (c : UInt8) : brdnameChar (toupper c) = brdnameChar c :=
  (by decide +kernel : ∀ n : Fin 256, brdnameChar (toupper (.ofFin n)) = brdnameChar (.ofFin n))
    c.toFin

theorem plain_of_brdnameChar {c : UInt8} (h : brdnameChar c = true) : Prompt.plain c = true :=
  (by decide +kernel : ∀ n : Fin 256, brdnameChar (.ofFin n) = true → Prompt.plain (.ofFin n) = true)
    c.toFin h

/-- A text that a board's name starts with can be typed. -/
theorem plain_of_prefix {b : Board} {text : Bytes}
    (h : text.map toupper <+: b.filename.map toupper) :
    text.all Prompt.plain = true ∧ text.length < strlen := by
  constructor
  · rw [List.all_eq_true]
    intro c hc
    obtain ⟨d, hd, hcd⟩ := List.mem_map.mp (h.subset (List.mem_map_of_mem hc))
    apply plain_of_brdnameChar
    rw [← brdnameChar_toupper c, ← hcd, brdnameChar_toupper]
    exact List.all_eq_true.mp b.filename_valid d hd
  · have hle := h.length_le
    rw [List.length_map, List.length_map] at hle
    have hlt : b.filename.length < 20 := b.filename_lt
    exact Nat.lt_of_le_of_lt hle (Nat.lt_trans hlt (by decide))

/-! ## The boards that can be entered -/

/-- `getbcache` does not know the text, or knows it as a group that the list of boards hides. -/
def Unknown (table : BoardTable) (v : Viewer) (view : BoardView) (memo : Memo) (text : Bytes) : Prop :=
  ∀ bp, (table.getbcache text memo).1 = some bp →
    (table.bcache bp).has brdGroup = true ∧ table.setboardlevel v view text = none

theorem entered_selectBoard {table : BoardTable} {v : Viewer} {view : BoardView} {memo : Memo}
    {bname : Bytes} :
    (∀ name, (selectBoard table v view memo bname).1.entered = some name → name = bname) ∧
      ((selectBoard table v view memo bname).1.entered = none ↔
        bname = [] ∨ Unknown table v view memo bname) := by
  rw [selectBoard, Unknown]
  split
  case isTrue hempty => exact ⟨nofun, fun _ => .inl hempty, fun _ => rfl⟩
  case isFalse hne =>
    split
    case h_1 memo' hget =>
      refine ⟨nofun, fun _ => .inr ?_, fun _ => rfl⟩
      intro bp hbp
      rw [hget] at hbp
      cases hbp
    case h_2 bp memo' hget =>
      -- the board is entered, so it is not unknown
      have hknown (sel : Selected) (hsel : sel.entered = some bname)
          (h : ¬((table.bcache bp).has brdGroup = true ∧ table.setboardlevel v view bname = none)) :
          (∀ name, sel.entered = some name → name = bname) ∧ (sel.entered = none ↔ bname = [] ∨
            ∀ bp, (table.getbcache bname memo).1 = some bp →
              (table.bcache bp).has brdGroup = true ∧ table.setboardlevel v view bname = none) := by
        rw [hsel]
        refine ⟨fun name hname => (Option.some.inj hname).symm, nofun, ?_⟩
        rintro (hempty | hunknown)
        · exact absurd hempty hne
        · exact absurd (hunknown bp (by rw [hget])) h
      split
      case isTrue hgroup =>
        cases hlevel : table.setboardlevel v view bname with
        | none =>
          refine ⟨nofun, fun _ => .inr ?_, fun _ => rfl⟩
          intro bp' hbp
          rw [hget] at hbp
          cases hbp
          exact ⟨hgroup, rfl⟩
        | some level =>
          rw [hlevel] at hknown
          exact hknown _ rfl (fun h => nomatch h.2)
      case isFalse hgroup => exact hknown _ rfl (fun h => hgroup h.1)

/-- Whatever keys are typed, only boards that are admitted are entered, if and only if `getbcache`
does not know an ambiguous text: one that two names of the list start with, and that is none. -/
theorem do_select_admits_iff (table : BoardTable) (v : Viewer) (view : BoardView) (memo : Memo) :
    (∀ mem keys sel memo' name, doSelect table v view memo mem keys = some (sel, memo') →
      sel.entered = some name → ∃ b ∈ table.boards, namesAdmit v b = true ∧ b.filename = name) ↔
    ∀ text, text ≠ [] → Ambiguous (makeBlist v table.boards) text → Unknown table v view memo text := by
  constructor
  · intro hsafe text hne hambiguous
    obtain ⟨word, hword⟩ : ∃ word, word ∈ getSubList text (makeBlist v table.boards) := by
      apply List.exists_mem_of_ne_nil
      intro hnil
      have hmany := hambiguous.1
      rw [hnil] at hmany
      cases hmany
    rw [mem_getSubList] at hword
    obtain ⟨b, -, -, rfl⟩ := exists_board_of_mem hword.1
    obtain ⟨hplain, hlen⟩ := plain_of_prefix hword.2
    have hrun : doSelect table v view memo ⟨[], fun _ _ => 0⟩ (text ++ [10]) =
        some (selectBoard table v view memo text) := by
      rw [doSelect, namecomplete_ambiguous _ hplain hlen hambiguous]
      rfl
    have hentered : (selectBoard table v view memo text).1.entered = none := by
      cases hname : (selectBoard table v view memo text).1.entered with
      | none => rfl
      | some name =>
        obtain ⟨c, hc, hshown, hcname⟩ := hsafe _ _ _ _ name hrun hname
        cases entered_selectBoard.1 name hname
        obtain ⟨word, hin, hsame⟩ := exists_mem_of_board hc hshown
        rw [hcname, hambiguous.2 word hin] at hsame
        cases hsame
    exact (entered_selectBoard.2.mp hentered).resolve_left hne
  · intro hunknown mem keys sel memo' name hrun hentered
    rw [doSelect, Option.map_eq_some_iff] at hrun
    obtain ⟨bname, hcomplete, hselect⟩ := hrun
    have hfirst : (selectBoard table v view memo bname).1 = sel := by rw [hselect]
    rw [← hfirst] at hentered
    cases entered_selectBoard.1 name hentered
    have hfree : ∀ word ∈ makeBlist v table.boards, 0 ∉ word := by
      intro word hword h0
      obtain ⟨b, -, -, rfl⟩ := exists_board_of_mem hword
      exact absurd (List.all_eq_true.mp b.filename_valid 0 h0) (by decide)
    have hnowhere : ¬(name = [] ∨ Unknown table v view memo name) := by
      intro h
      rw [entered_selectBoard.2.mpr h] at hentered
      cases hentered
    rw [not_or] at hnowhere
    rcases namecomplete_mem_or hfree hcomplete with hname | hname | hname
    · exact exists_board_of_mem hname
    · exact absurd hname hnowhere.1
    · exact absurd (hunknown name hnowhere.1 hname) hnowhere.2

def demoNone : Board := demoBoard [] 0 0 (by decide)

/-- A restricted board and two open ones, whose names start with its name. -/
def demoTable : BoardTable where
  bcache n := [demoBoard (bytes "work") brdRestrict 0 (by decide),
    demoBoard (bytes "workshop") 0 0 (by decide),
    demoBoard (bytes "workers") 0 0 (by decide)].getD n demoNone
  numboards := 3

/-- A user who is in the list of no restricted board enters the restricted board. -/
theorem do_select_restricted :
    let v : Viewer := ⟨0o31, 1, none⟩
    (doSelect demoTable v demoView ⟨[], 0⟩ ⟨[], fun _ _ => 0⟩ (bytes "work\n")).map (·.1.entered) =
      some (some (bytes "work")) ∧
    ∀ b ∈ demoTable.boards, namesAdmit v b = true → b.filename ≠ bytes "work" := by
  decide +kernel

end ArgoBbs

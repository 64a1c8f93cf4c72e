import ArgoBbs.Announce.Paste
import ArgoBbs.Lib.Preorder

/-! # The index of an announce area

`ann_index_traverse` writes a line for every record of a directory, and `ann_process_item` goes on
with the directory that a record leads to, down to level 15. Which of the records above are the last
ones of their directories is kept in an array that all levels share; to know the last record of a
directory the next one is read first (`announce.c`). -/

namespace ArgoBbs

def annDir : BitVec 32 := 0x02
def annGuestbook : BitVec 32 := 0x08
def annLink : BitVec 32 := 0x10
def annRlink : BitVec 32 := 0x20

namespace AnnHeader

def folder (h : AnnHeader) : Bool := h.flag &&& annDir ≠ 0 ∨ h.flag &&& annGuestbook ≠ 0

/-- Whether the record leads to a directory that is traversed, and its color. -/
def kind (h : AnnHeader) : Bool × Nat :=
  if h.flag &&& annLink ≠ 0 ∨ h.flag &&& annRlink ≠ 0 then (false, 32)
  else if h.flag &&& annDir ≠ 0 then (true, 37)
  else if h.flag &&& annGuestbook ≠ 0 then (true, 35)
  else (false, 0)

/-- With `onlydir` only directories and guest books are written. -/
def written (onlydir : Bool) (h : AnnHeader) : Bool := !onlydir || h.folder

end AnnHeader

/-- The column for a record above, and the corner of the record. -/
def annColumn (last : Bool) : Bytes := if last then bytes "     " else [0xa9, 0xa6] ++ bytes "   "

def annCorner (last : Bool) : Bytes :=
  (if last then [0xa9, 0xb8] else [0xa9, 0xc0]) ++ [0xa9, 0xa4] ++ bytes " "

def annColor (color : Nat) : Bytes :=
  if 0 < color then 27 :: bytes "[1;" ++ decimal color ++ bytes "m" else []

def annLineEnd (color : Nat) : Bytes := if 0 < color then 27 :: bytes "[m\n" else bytes "\n"

/-- The title, cut to the rest of the line. A negative rest is not less than any length. -/
def annTitle (level : Nat) (title : Bytes) : Bytes :=
  let maxlen : Int := 78 - level * 5
  if 0 ≤ maxlen ∧ maxlen < title.length then title.take (maxlen - 3).toNat ++ bytes "..." else title

/-- The text in `buf` of `ann_process_item`; `last` are the entries up to the one of the level. -/
def annItemText (last : List Bool) (header : AnnHeader) : Bytes :=
  let color := header.kind.2
  let buf := last.dropLast.foldl (fun buf last => strlcat 256 buf (annColumn last)) []
  let buf := strlcat 256 buf (annCorner (last.getLastD false))
  let buf := (buf ++ annColor color).take 255
  let buf := strlcat 256 buf (annTitle last.length header.title)
  strlcat 256 buf (annLineEnd color)

/-- The array `last`, and what is in the file. -/
structure IndexState where
  last : Vector Bool 16
  out : List Bytes

namespace IndexState

def setLast (i : Nat) (last : Bool) (s : IndexState) : Option IndexState :=
  if h : i < 16 then some { s with last := s.last.set i last h } else none

end IndexState

/-- `ann_process_item`; it fails if it looks behind the end of `last`. -/
def annProcessItem (traverse : Bytes → IndexState → Option IndexState) (directory : Bytes)
    (level : Nat) (header : AnnHeader) (s : IndexState) : Option IndexState :=
  if 16 < level then none
  else
    let s := { s with out := s.out ++ [annItemText (s.last.toList.take level) header] }
    if header.kind.1 ∧ level < 15 then traverse (annPath directory header.filename) s else some s

/-- The loop behind the first record: it is read over up to one that is written. -/
def annSkip (header : AnnHeader) : List AnnHeader → AnnHeader × List AnnHeader
  | [] => (header, [])
  | record :: records => if record.folder then (record, records) else annSkip record records

/-- The loop with one record of look-ahead, and the record that is left. -/
def annLookahead (written : AnnHeader → Bool)
    (process : AnnHeader → IndexState → Option IndexState) :
    AnnHeader → List AnnHeader → IndexState → Option (AnnHeader × IndexState)
  | header, [], s => some (header, s)
  | header, rheader :: records, s =>
    if written rheader then (process header s).bind (annLookahead written process rheader records)
    else annLookahead written process header records s

/-- `ann_index_traverse`, with fuel for the depth; `tree` are the records of the directories that can
be opened. -/
def annIndexTraverse (tree : Bytes → Option (List AnnHeader)) (onlydir : Bool) :
    Nat → Bytes → Nat → IndexState → Option IndexState
  | 0, _, _, _ => none
  | fuel + 1, directory, level, s =>
    match tree directory with
    | none | some [] => some s
    | some (header :: records) =>
      let (header, records) :=
        if onlydir ∧ !header.folder then annSkip header records else (header, records)
      let process := annProcessItem
        (fun tdir s => annIndexTraverse tree onlydir fuel tdir (level + 1) s) directory level
      (s.setLast (level - 1) false).bind fun s =>
        (annLookahead (AnnHeader.written onlydir) process header records s).bind fun (header, s) =>
          (s.setLast (level - 1) true).bind fun s =>
            if header.written onlydir then process header s else some s

/-! ## The listing -/

/-- The records that are written of a directory. -/
def annShown (tree : Bytes → Option (List AnnHeader)) (onlydir : Bool) (directory : Bytes) :
    List AnnHeader :=
  ((tree directory).getD []).filter (AnnHeader.written onlydir)

/-- The directory that a record leads to. -/
def annChild (directory : Bytes) (header : AnnHeader) : Option Bytes :=
  if header.kind.1 then some (annPath directory header.filename) else none

/-- The line of a record: a column for each record above, open unless that is the last one of its
directory, the corner, and the title. -/
def annItemLine (closes : List Bool) (header : AnnHeader) : Bytes :=
  closes.dropLast.flatMap annColumn ++ annCorner (closes.getLastD false) ++
    annColor header.kind.2 ++ annTitle closes.length header.title ++ annLineEnd header.kind.2

section
variable {closes flags : List Bool} {header : AnnHeader} {tree : Bytes → Option (List AnnHeader)}
  {onlydir b : Bool} {s s' : IndexState} {records : List AnnHeader} {level n : Nat}
  {directory : Bytes} {traverse : Bytes → IndexState → Option IndexState}

theorem strlcat_fits {s t : Bytes} {size : Nat} (h : s.length + t.length < size) :
    strlcat size s t = s ++ t := by
  rw [strlcat, List.take_of_length_le (by omega)]

theorem length_annColumn (last : Bool) : (annColumn last).length = 5 := by
  cases last <;> rfl

theorem length_annCorner (last : Bool) : (annCorner last).length = 5 := by
  cases last <;> rfl

theorem foldl_annColumn (flags : List Bool) (buf : Bytes)
    (h : buf.length + 5 * flags.length < 256) :
    flags.foldl (fun buf last => strlcat 256 buf (annColumn last)) buf =
      buf ++ flags.flatMap annColumn := by
  induction flags generalizing buf with
  | nil => simp
  | cons b flags ih =>
    rw [List.length_cons] at h
    have hlen := length_annColumn b
    rw [List.foldl_cons, strlcat_fits (by omega), ih _ (by rw [List.length_append]; omega),
      List.flatMap_cons, List.append_assoc]

theorem length_columns (flags : List Bool) : (flags.flatMap annColumn).length = 5 * flags.length := by
  induction flags with
  | nil => rfl
  | cons b flags ih =>
    rw [List.flatMap_cons, List.length_append, length_annColumn, ih, List.length_cons]
    omega

theorem length_annTitle (h : level ≤ 15) (title : Bytes) :
    (annTitle level title).length ≤ 78 - 5 * level := by
  have hdots : (bytes "...").length = 3 := rfl
  rw [annTitle]
  split
  · rw [List.length_append, List.length_take, hdots]
    omega
  · omega

theorem length_annColor (header : AnnHeader) : (annColor header.kind.2).length ≤ 7 := by
  rw [AnnHeader.kind]
  repeat' split
  all_goals decide

/-- Down to level 15 the buffer holds the whole line. -/
theorem annItemText_eq (hne : closes ≠ []) (h : closes.length ≤ 15) (header : AnnHeader) :
    annItemText closes header = annItemLine closes header := by
  have hpos := List.length_pos_iff.mpr hne
  have hcolumns := length_columns closes.dropLast
  have hcorner := length_annCorner (closes.getLastD false)
  have hcolor := length_annColor header
  have htitle := length_annTitle h header.title
  have hend : (annLineEnd header.kind.2).length ≤ 4 := by
    rw [annLineEnd]
    split <;> decide
  rw [List.length_dropLast] at hcolumns
  have hfold := foldl_annColumn closes.dropLast []
    (by rw [List.length_dropLast, List.length_nil]; omega)
  have hrow : strlcat 256 (closes.dropLast.flatMap annColumn) (annCorner (closes.getLastD false)) =
      closes.dropLast.flatMap annColumn ++ annCorner (closes.getLastD false) :=
    strlcat_fits (by omega)
  have hnamed : strlcat 256 (closes.dropLast.flatMap annColumn ++
      annCorner (closes.getLastD false) ++ annColor header.kind.2)
        (annTitle closes.length header.title) = _ :=
    strlcat_fits (by simp only [List.length_append]; omega)
  rw [List.nil_append] at hfold
  rw [annItemText, hfold, hrow, annItemLine, List.take_of_length_le, hnamed, strlcat_fits]
  all_goals
    simp only [List.length_append]
    omega

/-- Reading over the records that are not written leads to the first one that is, if there is one. -/
theorem annSkip_spec (records : List AnnHeader) (h : header.folder = false) :
    (∃ first rest, annSkip header records = (first, rest) ∧ first.folder = true ∧
      records.filter AnnHeader.folder = first :: rest.filter AnnHeader.folder) ∨
    ∃ last, annSkip header records = (last, []) ∧ last.folder = false ∧
      records.filter AnnHeader.folder = [] := by
  induction records generalizing header with
  | nil => exact .inr ⟨header, rfl, h, rfl⟩
  | cons record records ih =>
    rw [annSkip]
    split
    case isTrue hfolder =>
      exact .inl ⟨record, records, rfl, hfolder, List.filter_cons_of_pos hfolder⟩
    case isFalse hfolder =>
      rw [List.filter_cons_of_neg hfolder]
      exact ih (Bool.not_eq_true _ ▸ hfolder)

/-- The array holds the entries for the records above. -/
def IndexState.Under (flags : List Bool) (s : IndexState) : Prop :=
  s.last.toList.take flags.length = flags

theorem setLast_under (hunder : s.Under flags) (hlevel : flags.length < 16) (b : Bool) :
    ∃ s', s.setLast flags.length b = some s' ∧ s'.Under (flags ++ [b]) ∧ s'.out = s.out := by
  refine ⟨{ s with last := s.last.set flags.length b hlevel }, dif_pos hlevel, ?_, rfl⟩
  have hlen : flags.length < (s.last.toList.set flags.length b).length := by
    rw [List.length_set, Vector.length_toList]
    exact hlevel
  rw [IndexState.Under, Vector.toList_set, List.length_append, List.length_singleton,
    List.take_succ_eq_append_getElem hlen, List.take_set_of_le (Nat.le_refl _), hunder,
    List.getElem_set_self]

/-- The lines below are written, and the entries for the records above are kept. -/
def IndexState.Lists (flags : List Bool) (entries : List (Entry AnnHeader)) (s s' : IndexState) :
    Prop :=
  s'.Under flags ∧ s'.out = s.out ++ entries.map fun e => annItemLine (flags ++ e.closes) e.item

theorem Lists.trans {s₁ s₂ s₃ : IndexState} {entries entries' : List (Entry AnnHeader)}
    (h : IndexState.Lists flags entries s₁ s₂) (h' : IndexState.Lists flags entries' s₂ s₃) :
    IndexState.Lists flags (entries ++ entries') s₁ s₃ :=
  ⟨h'.1, by rw [h'.2, h.2, List.map_append, List.append_assoc]⟩

theorem Under.above (h : s.Under (flags ++ [b])) : s.Under flags := by
  have htake := congrArg (List.take flags.length) h
  rw [List.take_take, List.take_left, List.length_append, Nat.min_eq_left (Nat.le_add_right _ _)]
    at htake
  exact htake

/-- From one level higher the entries have the flag of this one in front. -/
theorem Lists.under {entries : List (Entry AnnHeader)} {i : Nat}
    (h : IndexState.Lists (flags ++ [b]) entries s s') :
    IndexState.Lists flags (entries.map (.under i b)) s s' := by
  obtain ⟨hunder, hout⟩ := h
  refine ⟨Under.above hunder, ?_⟩
  rw [hout, List.map_map]
  refine congrArg _ (List.map_congr_left fun e _ => ?_)
  rw [List.append_assoc]
  rfl

section
variable {listing : Bytes → List (Entry AnnHeader)}

/-- A record is written with what is below it. -/
theorem annProcessItem_spec (directory : Bytes) (header : AnnHeader)
    (htraverse : ∀ tdir s b, s.Under (flags ++ [b]) → flags.length + 1 < 15 →
      ∃ s', traverse tdir s = some s' ∧ IndexState.Lists (flags ++ [b]) (listing tdir) s s')
    (hdeep : 15 ≤ flags.length + 1 → ∀ tdir, listing tdir = [])
    (hlevel : flags.length + 1 ≤ 15) (hunder : s.Under (flags ++ [b])) (i : Nat) :
    ∃ s', annProcessItem traverse directory (flags.length + 1) header s = some s' ∧
      s'.Under (flags ++ [b]) ∧ IndexState.Lists flags (⟨[i], [b], header⟩ ::
        (below listing annChild directory header).map (.under i b)) s s' := by
  have hlast : s.last.toList.take (flags.length + 1) = flags ++ [b] := by
    rwa [IndexState.Under, List.length_append] at hunder
  have htext := annItemText_eq (List.concat_ne_nil b flags) (by simpa using hlevel) header
  let s₁ : IndexState := { s with out := s.out ++ [annItemLine (flags ++ [b]) header] }
  have hfirst : IndexState.Lists flags [⟨[i], [b], header⟩] s s₁ := ⟨Under.above hunder, rfl⟩
  rw [annProcessItem, if_neg (by omega), hlast, htext]
  dsimp only
  split
  case isTrue h =>
    obtain ⟨s', hs', hlists⟩ :=
      htraverse (annPath directory header.filename) s₁ b hunder h.2
    have hbelow : below listing annChild directory header =
        listing (annPath directory header.filename) := by
      rw [below, annChild, if_pos h.1]
    rw [hbelow]
    exact ⟨s', hs', hlists.1, Lists.trans hfirst (Lists.under hlists)⟩
  case isFalse h =>
    have hbelow : below listing annChild directory header = [] := by
      rw [below, annChild]
      by_cases hkind : header.kind.1 = true
      · rw [if_pos hkind]
        exact hdeep (Nat.not_lt.mp fun hlt => h ⟨hkind, hlt⟩) _
      · rw [if_neg hkind]
    rw [hbelow]
    exact ⟨s₁, rfl, hunder, hfirst⟩

/-- Behind the first record, the records of a directory that are written are written with what is
below them, the last one with its flag. -/
theorem annLookahead_spec (directory : Bytes) (records : List AnnHeader)
    (htraverse : ∀ tdir s b, s.Under (flags ++ [b]) → flags.length + 1 < 15 →
      ∃ s', traverse tdir s = some s' ∧ IndexState.Lists (flags ++ [b]) (listing tdir) s s')
    (hdeep : 15 ≤ flags.length + 1 → ∀ tdir, listing tdir = [])
    (hlevel : flags.length + 1 ≤ 15) (hunder : s.Under (flags ++ [false]))
    (hwritten : header.written onlydir = true) (i : Nat) :
    let process := annProcessItem traverse directory (flags.length + 1)
    ∃ s', ((annLookahead (AnnHeader.written onlydir) process header records s).bind
        fun (header, s) => (s.setLast flags.length true).bind fun s =>
          if header.written onlydir then process header s else some s) = some s' ∧
      IndexState.Lists flags (siblings (below listing annChild directory) i
        (header :: records.filter (AnnHeader.written onlydir))) s s' := by
  intro process
  induction records generalizing header s i with
  | nil =>
    obtain ⟨s₁, hs₁, hunder₁, hout₁⟩ := setLast_under (Under.above hunder) (by omega) true
    obtain ⟨s', hs', -, hlists⟩ := annProcessItem_spec directory header htraverse hdeep
      hlevel hunder₁ i
    refine ⟨s', ?_, ?_⟩
    · rw [annLookahead, Option.bind_some]
      dsimp only
      rw [hs₁, Option.bind_some, if_pos hwritten]
      exact hs'
    · rw [List.filter_nil, siblings, siblings, List.append_nil]
      exact ⟨hlists.1, hout₁ ▸ hlists.2⟩
  | cons record records ih =>
    rw [annLookahead]
    split
    case isTrue hrecord =>
      obtain ⟨s₁, hs₁, hunder₁, hlists⟩ := annProcessItem_spec directory header htraverse
        hdeep hlevel hunder i
      obtain ⟨s', hs', hlists'⟩ := ih hunder₁ hrecord (i + 1)
      refine ⟨s', ?_, ?_⟩
      · rw [show process header s = some s₁ from hs₁]
        exact hs'
      · rw [List.filter_cons_of_pos hrecord, siblings]
        exact Lists.trans hlists hlists'
    case isFalse hrecord =>
      rw [List.filter_cons_of_neg hrecord]
      exact ih hunder hwritten i

/-- The first record that is written, as far as there is one, and what is behind it. -/
theorem annFirst_spec (onlydir : Bool) (header : AnnHeader) (records : List AnnHeader) :
    ∃ first rest, (if onlydir ∧ !header.folder then annSkip header records else (header, records)) =
        (first, rest) ∧
      (first.written onlydir = true ∧ (header :: records).filter (AnnHeader.written onlydir) =
          first :: rest.filter (AnnHeader.written onlydir) ∨
        first.written onlydir = false ∧ rest = [] ∧
          (header :: records).filter (AnnHeader.written onlydir) = []) := by
  cases onlydir with
  | false => exact ⟨header, records, rfl, .inl ⟨rfl, rfl⟩⟩
  | true =>
    cases hfolder : header.folder with
    | true =>
      exact ⟨header, records, if_neg (by simp), .inl ⟨hfolder, List.filter_cons_of_pos hfolder⟩⟩
    | false =>
      have hskip : (header :: records).filter (AnnHeader.written true) =
          records.filter AnnHeader.folder :=
        List.filter_cons_of_neg (by rw [AnnHeader.written, hfolder]; decide)
      rw [if_pos ⟨rfl, rfl⟩, hskip]
      obtain ⟨first, rest, heq, hfirst, hfilter⟩ | ⟨last, heq, hlast, hfilter⟩ :=
        annSkip_spec records hfolder
      · exact ⟨first, rest, heq, .inl ⟨hfirst, hfilter⟩⟩
      · exact ⟨last, [], heq, .inr ⟨hlast, rfl, hfilter⟩⟩

end

/-- A directory of a level is listed with all that is below it down to level 15. -/
theorem annIndexTraverse_level (tree : Bytes → Option (List AnnHeader)) (onlydir : Bool) {fuel : Nat}
    (hfuel : n ≤ fuel) (hn : 0 < n) (directory : Bytes) (hlevel : flags.length + n = 15)
    (hunder : s.Under flags) :
    ∃ s', annIndexTraverse tree onlydir fuel directory (flags.length + 1) s = some s' ∧
      IndexState.Lists flags (preorder (annShown tree onlydir) annChild n directory) s s' := by
  induction n generalizing fuel directory flags s with
  | zero => exact absurd hn (Nat.lt_irrefl 0)
  | succ n ih =>
    obtain ⟨fuel, rfl⟩ : ∃ k, fuel = k + 1 := ⟨fuel - 1, by omega⟩
    have htraverse (tdir : Bytes) (s : IndexState) (b : Bool) (hunder : s.Under (flags ++ [b]))
        (hlt : flags.length + 1 < 15) :
        ∃ s', annIndexTraverse tree onlydir fuel tdir (flags.length + 1 + 1) s = some s' ∧
          IndexState.Lists (flags ++ [b])
            (preorder (annShown tree onlydir) annChild n tdir) s s' := by
      have hlen : (flags ++ [b]).length = flags.length + 1 := List.length_append
      rw [← hlen]
      exact ih (by omega) (by omega) tdir (by omega) hunder
    have hdeep (h : 15 ≤ flags.length + 1) (tdir : Bytes) :
        preorder (annShown tree onlydir) annChild n tdir = [] := by
      rw [show n = 0 by omega]
      rfl
    rw [annIndexTraverse, preorder, annShown]
    cases tree directory with
    | none => exact ⟨s, rfl, hunder, (List.append_nil _).symm⟩
    | some records =>
      cases records with
      | nil => exact ⟨s, rfl, hunder, (List.append_nil _).symm⟩
      | cons header records =>
        obtain ⟨s₁, hs₁, hunder₁, hout₁⟩ := setLast_under hunder (by omega) false
        obtain ⟨first, rest, heq, hfirst⟩ := annFirst_spec onlydir header records
        dsimp only
        rw [heq, Nat.add_sub_cancel, hs₁, Option.bind_some, Option.getD_some]
        obtain ⟨hwritten, hfilter⟩ | ⟨hwritten, rfl, hfilter⟩ := hfirst
        · obtain ⟨s', hs', hlists⟩ := annLookahead_spec directory rest htraverse
            hdeep (by omega) hunder₁ hwritten 0
          rw [hfilter]
          exact ⟨s', hs', hlists.1, hout₁ ▸ hlists.2⟩
        · obtain ⟨s₂, hs₂, hunder₂, hout₂⟩ := setLast_under (Under.above hunder₁) (by omega) true
          rw [hfilter, annLookahead, Option.bind_some]
          dsimp only
          rw [hs₂, Option.bind_some, hwritten]
          refine ⟨s₂, rfl, Under.above hunder₂, ?_⟩
          rw [hout₂, hout₁, siblings, List.map_nil, List.append_nil]

end

end ArgoBbs

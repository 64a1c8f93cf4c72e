import ArgoBbs.Lib.CString
import ArgoBbs.Record.Access
import Mathlib.Logic.Function.Basic

/-! # Cut and paste in the announce area

An item of the announce area is a record in the index of a directory and the file with the record's
name in it. `ann_paste` moves the file of a cut item, or copies that of a copied one, appends a
record to the index of the directory it pastes into, and deletes the one of a cut item from the old
index (`announce.c`). -/

namespace ArgoBbs

/-- `struct annheader` -/
structure AnnHeader where
  filename : Bytes
  owner : Bytes
  editor : Bytes
  title : Bytes
  flag : BitVec 32
  mtime : Int
  deriving DecidableEq

instance : Inhabited AnnHeader := ⟨⟨[], [], [], [], 0, 0⟩⟩

/-- An entry that stands for no file of the directory. -/
def AnnHeader.special (h : AnnHeader) : Bool := h.filename.head? = some 64

inductive CopyMode
  | copy
  | cut
  deriving DecidableEq

structure AnnCopypaste where
  copymode : CopyMode
  basedir : Bytes
  fileinfo : AnnHeader

/-- What the calls answer while a record is pasted: `time`; the first `rename`, and those in the
rounds of the loop after it; `append_record`. And the file that `cp` makes. -/
structure PasteAnswers (α : Type) where
  now : Nat
  renamed : Bool
  retried : Nat → Bool
  appended : Bool
  copied : Option α

/-- The files of the directories under their names, and the indexes. -/
structure AnnArea (α : Type) where
  files : Bytes → Bytes → Option α
  index : Bytes → List AnnHeader

def annPath (dir name : Bytes) : Bytes := dir ++ bytes "/" ++ name

/-- The name in a round of the loops: the first two bytes stay, and with them the end of a shorter
name. -/
def retryName (filename : Bytes) (now : Nat) : Bytes :=
  if filename.length < 2 then filename else filename.take 2 ++ decimal now ++ bytes ".A"

/-- `search_record`, and `delete_record` with the number found. -/
def searchDelete (fname : Bytes) (index : List AnnHeader) : List AnnHeader :=
  match searchRecord (·.filename = fname) index with
  | some (id, _) => ((deleteRecord id index).map (·.1)).getD index
  | none => index

namespace AnnArea
variable {α : Type}

def put (s : AnnArea α) (dir name : Bytes) (x : Option α) : AnnArea α :=
  { s with files := Function.update s.files dir (Function.update (s.files dir) name x) }

/-- The file is moved, onto the one that has the new name already. -/
def rename (s : AnnArea α) (dir name dir' name' : Bytes) : AnnArea α :=
  (s.put dir name none).put dir' name' (s.files dir name)

def append (s : AnnArea α) (dir : Bytes) (e : AnnHeader) (ok : Bool) : AnnArea α :=
  if ok then { s with index := Function.update s.index dir (s.index dir ++ [e]) } else s

def delete (s : AnnArea α) (dir fname : Bytes) : AnnArea α :=
  { s with index := Function.update s.index dir (searchDelete fname (s.index dir)) }

/-- The file of the item is moved, and the record: to the new index unless that fails, and off the
old one. -/
def move (s : AnnArea α) (old cur : Bytes) (e : AnnHeader) (name : Bytes) (ok : Bool) : AnnArea α :=
  ((s.rename old e.filename cur name).append cur { e with filename := name } ok).delete old e.filename

/-- The loops of `ann_paste`, for `fuel` rounds: a name that no file has, under which the call then
succeeds. -/
def retry (s : AnnArea α) (cur filename : Bytes) (now : Nat) (ok : Nat → Bool) (fuel : Nat) :
    Option Bytes :=
  ((List.range fuel).find? fun n =>
    (s.files cur (retryName filename (now + n))).isNone && ok n).map fun n =>
      retryName filename (now + n)

end AnnArea

/-- The announce area while `ann_paste` runs, and its buffer `fname`. -/
structure Pasting (α : Type) where
  area : AnnArea α
  fname : Bytes

section
variable {α : Type} (dash : Option α → Bool) (cur : Bytes)

/-- The record is passed over. -/
def AnnArea.skips (s : AnnArea α) (rec : AnnCopypaste) : Bool :=
  (annPath rec.basedir rec.fileinfo.filename).isPrefixOf (annPath cur rec.fileinfo.filename) ||
    !dash (s.files rec.basedir rec.fileinfo.filename)

/-- `ann_paste` for a record of the clipboard; `dash` is its test whether there is a file. -/
def pasteItem (fuel : Nat) (p : Pasting α) (rec : AnnCopypaste) (a : PasteAnswers α) :
    Option (Pasting α) :=
  let filename := rec.fileinfo.filename
  let s := p.area
  if s.skips dash cur rec then some p
  else
    match rec.copymode with
    | .copy =>
      if rec.fileinfo.special then some { p with area := s.append cur rec.fileinfo a.appended }
      else
        (s.retry cur filename a.now (fun _ => true) fuel).map fun name =>
          { p with area :=
              (s.put cur name a.copied).append cur { rec.fileinfo with filename := name } a.appended }
    | .cut =>
      if rec.fileinfo.special then
        some { p with area := (s.append cur rec.fileinfo a.appended).delete rec.basedir p.fname }
      else
        (if a.renamed then some filename
          else s.retry cur filename a.now a.retried fuel).map fun name =>
            ⟨s.move rec.basedir cur rec.fileinfo name a.appended, filename⟩

/-- The loop of `ann_paste`, with the records it reads. Its buffer has the path of the clipboard
first; what it has at the end is unlinked. -/
def annPaste (fuel : Nat) (p : Pasting α) (items : List (AnnCopypaste × PasteAnswers α)) :
    Option (Pasting α) :=
  items.foldlM (fun p (rec, a) => pasteItem dash cur fuel p rec a) p

end

/-! ## What the calls do -/

theorem head?_retryName (filename : Bytes) (now : Nat) :
    (retryName filename now).head? = filename.head? := by
  unfold retryName
  split
  · rfl
  · rename_i hlen
    match filename with
    | c :: d :: rest => rfl
    | [c] => exact absurd (Nat.lt_succ_self 1) hlen
    | [] => exact absurd Nat.two_pos hlen

theorem searchDelete_eq (fname : Bytes) (index : List AnnHeader) :
    searchDelete fname index = index.eraseP (·.filename = fname) := by
  rw [List.eraseP_eq_eraseIdx, searchDelete, searchRecord]
  cases hfind : index.findIdx? (·.filename = fname) with
  | none => rfl
  | some i =>
    obtain ⟨hlt, -⟩ := List.findIdx?_eq_some_iff_getElem.mp hfind
    rw [Option.bind_some, List.getElem?_eq_getElem hlt]
    simp only [Option.map_some, deleteRecord]
    rw [if_neg (by omega)]
    exact (List.eraseIdx_eq_take_drop_succ index i).symm

/-- Deleting the record of one name keeps those with others. -/
theorem mem_searchDelete {fname : Bytes} {index : List AnnHeader} {e : AnnHeader}
    (h : e.filename ≠ fname) : e ∈ searchDelete fname index ↔ e ∈ index := by
  rw [searchDelete_eq]
  exact List.mem_eraseP_of_neg (by simpa using h)

theorem searchDelete_of_not_mem {fname : Bytes} {index : List AnnHeader}
    (h : ∀ e ∈ index, e.filename ≠ fname) : searchDelete fname index = index := by
  rw [searchDelete_eq]
  exact List.eraseP_of_forall_not fun e he => by simpa using h e he

/-- The number of records with a name. -/
def listings (name : Bytes) (index : List AnnHeader) : Nat := index.countP (·.filename = name)

theorem listings_searchDelete (name fname : Bytes) (index : List AnnHeader) :
    listings name (searchDelete fname index) =
      if name = fname then listings name index - 1 else listings name index := by
  rw [searchDelete_eq, listings, listings]
  rcases List.exists_or_eq_self_of_eraseP (p := fun e : AnnHeader => decide (e.filename = fname))
    index with heq | ⟨e, front, back, -, he, heq, herase⟩
  · rw [heq]
    split
    · rename_i hname
      subst hname
      have hnone : index.countP (fun e => decide (e.filename = name)) = 0 :=
        List.countP_eq_zero.mpr (List.eraseP_eq_self_iff.mp heq)
      omega
    · rfl
  · rw [herase, heq, List.countP_append, List.countP_append, List.countP_cons]
    have he : e.filename = fname := of_decide_eq_true he
    split
    · rename_i hname
      rw [hname, he, if_pos (decide_eq_true rfl)]
      omega
    · rename_i hname
      rw [he, if_neg (by simpa using Ne.symm hname)]
      rfl

namespace AnnArea
variable {α : Type} {s t : AnnArea α} {dir name dir' name' fname old cur filename : Bytes}
  {x : Option α} {y : α} {e : AnnHeader} {ok : Bool}

theorem put_files (s : AnnArea α) (dir name : Bytes) (x : Option α) (d n : Bytes) :
    (s.put dir name x).files d n = if d = dir ∧ n = name then x else s.files d n := by
  simp only [put, Function.update_apply]
  by_cases hd : d = dir
  · subst hd
    by_cases hn : n = name
    · simp [hn]
    · simp [hn]
  · simp [hd]

theorem rename_files (s : AnnArea α) (dir name dir' name' d n : Bytes) :
    (s.rename dir name dir' name').files d n =
      if d = dir' ∧ n = name' then s.files dir name
      else if d = dir ∧ n = name then none else s.files d n := by
  rw [rename, put_files, put_files]

theorem rename_index (s : AnnArea α) (dir name dir' name' : Bytes) :
    (s.rename dir name dir' name').index = s.index := rfl

/-- What `append_record` and the deletion from the old index make of the two indexes. -/
theorem append_delete_files (s : AnnArea α) (cur : Bytes) (e : AnnHeader) (ok : Bool)
    (old fname : Bytes) : ((s.append cur e ok).delete old fname).files = s.files := by
  cases ok <;> rfl

theorem append_delete_cur (hne : old ≠ cur) :
    ((s.append cur e ok).delete old fname).index cur = s.index cur ++ if ok then [e] else [] := by
  cases ok with
  | true =>
    change Function.update _ old _ cur = _
    rw [Function.update_of_ne hne.symm]
    change Function.update _ cur _ cur = _
    rw [Function.update_self]
    rfl
  | false =>
    change Function.update _ old _ cur = _
    rw [Function.update_of_ne hne.symm]
    exact (List.append_nil _).symm

theorem append_delete_old (hne : old ≠ cur) :
    ((s.append cur e ok).delete old fname).index old = searchDelete fname (s.index old) := by
  change Function.update _ old _ old = _
  rw [Function.update_self]
  cases ok with
  | true =>
    change searchDelete fname (Function.update s.index cur _ old) = _
    rw [Function.update_of_ne hne]
  | false => rfl

theorem move_files (s : AnnArea α) (old cur : Bytes) (e : AnnHeader) (name : Bytes) (ok : Bool)
    (d n : Bytes) : (s.move old cur e name ok).files d n =
      if d = cur ∧ n = name then s.files old e.filename
      else if d = old ∧ n = e.filename then none else s.files d n := by
  rw [move, append_delete_files, rename_files]

/-- The name that a loop of `ann_paste` ends with has no file. -/
theorem retry_some {now fuel : Nat} {ok : Nat → Bool}
    (h : s.retry cur filename now ok fuel = some name) :
    s.files cur name = none ∧ name.head? = filename.head? := by
  obtain ⟨n, hn, rfl⟩ := Option.map_eq_some_iff.mp h
  have hfree := List.find?_some hn
  rw [Bool.and_eq_true] at hfree
  exact ⟨Option.isNone_iff_eq_none.mp hfree.1, head?_retryName _ _⟩

/-- More rounds do not matter once the loop has ended. -/
theorem retry_mono {now fuel fuel' : Nat} {ok : Nat → Bool} (hle : fuel ≤ fuel')
    (h : s.retry cur filename now ok fuel = some name) :
    s.retry cur filename now ok fuel' = some name := by
  obtain ⟨n, hn, rfl⟩ := Option.map_eq_some_iff.mp h
  obtain ⟨hdone, hlt, hmin⟩ := List.find?_range_eq_some.mp hn
  have hlt' : n ∈ List.range fuel' := List.mem_range.mpr (by rw [List.mem_range] at hlt; omega)
  rw [retry, List.find?_range_eq_some.mpr ⟨hdone, hlt', hmin⟩]
  rfl

/-- The loop ends if some round can be the last one. -/
theorem retry_ends {now : Nat} {ok : Nat → Bool}
    (h : ∃ n, s.files cur (retryName filename (now + n)) = none ∧ ok n = true) :
    ∃ fuel name, s.retry cur filename now ok fuel = some name := by
  obtain ⟨n, hfree, hok⟩ := h
  obtain ⟨m, hm⟩ : ∃ m, (List.range (n + 1)).find? (fun n =>
      (s.files cur (retryName filename (now + n))).isNone && ok n) = some m :=
    Option.isSome_iff_exists.mp (List.find?_isSome.mpr
      ⟨n, List.mem_range.mpr (Nat.lt_succ_self n), by rw [hfree, hok]; rfl⟩)
  exact ⟨n + 1, _, by rw [retry, hm]; rfl⟩

theorem retry_of_some {now fuel : Nat} {ok : Nat → Bool}
    (h : s.retry cur filename now ok fuel = some name) :
    ∃ n, s.files cur (retryName filename (now + n)) = none ∧ ok n = true := by
  obtain ⟨n, hn, -⟩ := Option.map_eq_some_iff.mp h
  have hdone := List.find?_some hn
  rw [Bool.and_eq_true] at hdone
  exact ⟨n, Option.isNone_iff_eq_none.mp hdone.1, hdone.2⟩

end AnnArea

/-! ## Conservation -/

section
variable {α : Type} {s₀ s : AnnArea α} {old cur name : Bytes} {cut : List AnnHeader}
  {r e : AnnHeader} {ok : Bool} {y : α}

/-- The destination's index has got the records `added`, each of which is one of a cut item, under
the name that the item's file has now. Every cut item is listed once, in the directory where its
file is. What was in the destination, and the other items of the old directory, are as they were. -/
structure ItemsConserved [DecidableEq α] (s₀ s : AnnArea α) (old cur : Bytes)
    (cut added : List AnnHeader) : Prop where
  index : s.index cur = s₀.index cur ++ added
  entries : ∀ e ∈ added, ∃ r ∈ cut, ∃ x, s₀.files old r.filename = some x ∧
    s.files cur e.filename = some x ∧ e = { r with filename := e.filename }
  items : ∀ r ∈ cut, ∀ x, s₀.files old r.filename = some x →
    (s.files old r.filename = some x ∧ listings r.filename (s.index old) = 1 ∧
      added.countP (s.files cur ·.filename = some x) = 0) ∨
    (s.files old r.filename = none ∧ listings r.filename (s.index old) = 0 ∧
      added.countP (s.files cur ·.filename = some x) = 1)
  dest : ∀ n y, s₀.files cur n = some y → s.files cur n = some y
  others : ∀ e ∈ s₀.index old, (∀ r ∈ cut, r.filename ≠ e.filename) →
    e ∈ s.index old ∧ s.files old e.filename = s₀.files old e.filename

/-- What holds however the calls end. -/
structure PasteWf (s₀ s : AnnArea α) (old cur : Bytes) (cut : List AnnHeader) : Prop where
  unique : ∀ d n d' n' y, s.files d n = some y → s.files d' n' = some y → d = d' ∧ n = n'
  inOld : ∀ n y, s.files old n = some y → s₀.files old n = some y
  special : ∀ n, n.head? = some 64 → s.files cur n = s₀.files cur n
  origin : ∀ n y, s.files cur n = some y →
    s₀.files cur n = some y ∨ ∃ r ∈ cut, s₀.files old r.filename = some y
  grows : ∃ added, s.index cur = s₀.index cur ++ added

/-- Something has gone wrong that is not put right any more: a file is lost; or a record was added
that stands for no file; or the file of a cut item has left its directory without a record being
added. -/
def Broken (s₀ s : AnnArea α) (old cur : Bytes) (cut : List AnnHeader) : Prop :=
  ∃ added, s.index cur = s₀.index cur ++ added ∧
    ((∃ y, ((∃ n, s₀.files cur n = some y) ∨ ∃ r ∈ cut, s₀.files old r.filename = some y) ∧
        ∀ d n, s.files d n ≠ some y) ∨
      (∃ e ∈ added, e.special = true) ∨
      ∃ r ∈ cut, ∃ x, s₀.files old r.filename = some x ∧ s.files old r.filename = none ∧
        ∀ e ∈ added, s.files cur e.filename ≠ some x)

theorem PasteWf.move (W : PasteWf s₀ s old cur cut) (hne : old ≠ cur) (hr : r ∈ cut)
    (hname : name.head? ≠ some 64) : PasteWf s₀ (s.move old cur r name ok) old cur cut where
  unique d n d' n' y h h' := by
    rw [AnnArea.move_files] at h h'
    split at h <;> split at h'
    · rename_i hd hd'
      exact ⟨hd.1.trans hd'.1.symm, hd.2.trans hd'.2.symm⟩
    · split at h'
      · cases h'
      · rename_i hgone
        obtain ⟨rfl, rfl⟩ := W.unique _ _ _ _ _ h h'
        exact absurd ⟨rfl, rfl⟩ hgone
    · split at h
      · cases h
      · rename_i hgone
        obtain ⟨rfl, rfl⟩ := W.unique _ _ _ _ _ h h'
        exact absurd ⟨rfl, rfl⟩ hgone
    · split at h
      · cases h
      · split at h'
        · cases h'
        · exact W.unique _ _ _ _ _ h h'
  inOld n y h := by
    rw [AnnArea.move_files, if_neg fun hd => hne hd.1] at h
    split at h
    · cases h
    · exact W.inOld n y h
  special n hn := by
    have hother : ¬(cur = cur ∧ n = name) := fun hd => hname (hd.2 ▸ hn)
    rw [AnnArea.move_files, if_neg hother, if_neg fun hd => hne hd.1.symm]
    exact W.special n hn
  origin n y h := by
    rw [AnnArea.move_files] at h
    split at h
    · exact .inr ⟨r, hr, W.inOld _ y h⟩
    · rw [if_neg fun hd => hne hd.1.symm] at h
      exact W.origin n y h
  grows := by
    obtain ⟨added, hadded⟩ := W.grows
    refine ⟨added ++ if ok then [{ r with filename := name }] else [], ?_⟩
    rw [AnnArea.move, AnnArea.append_delete_cur hne, AnnArea.rename_index, hadded,
      List.append_assoc]

/-- A special entry leaves the files alone. -/
theorem PasteWf.special' (W : PasteWf s₀ s old cur cut) (hne : old ≠ cur) (fname : Bytes) :
    PasteWf s₀ ((s.append cur r ok).delete old fname) old cur cut := by
  obtain ⟨added, hadded⟩ := W.grows
  constructor
  case grows =>
    refine ⟨added ++ if ok then [r] else [], ?_⟩
    rw [AnnArea.append_delete_cur hne, hadded, List.append_assoc]
  all_goals rw [AnnArea.append_delete_files]
  · exact W.unique
  · exact W.inOld
  · exact W.special
  · exact W.origin

theorem Broken.move (B : Broken s₀ s old cur cut) (W : PasteWf s₀ s old cur cut)
    (hunique : ∀ d n d' n' y, s₀.files d n = some y → s₀.files d' n' = some y → d = d' ∧ n = n')
    (hne : old ≠ cur) : Broken s₀ (s.move old cur r name ok) old cur cut := by
  obtain ⟨added, hadded, B⟩ := B
  refine ⟨added ++ if ok then [{ r with filename := name }] else [], ?_, ?_⟩
  · rw [AnnArea.move, AnnArea.append_delete_cur hne, AnnArea.rename_index, hadded,
      List.append_assoc]
  rcases B with ⟨y, hy, hlost⟩ | ⟨e, he, hspecial⟩ | ⟨q, hq, x, hx, hnone, hadd⟩
  · refine .inl ⟨y, hy, fun d n => ?_⟩
    rw [AnnArea.move_files]
    split
    · exact hlost old r.filename
    · split
      · nofun
      · exact hlost d n
  · exact .inr (.inl ⟨e, List.mem_append_left _ he, hspecial⟩)
  · -- The file moved now is another one.
    have hother : s.files old r.filename ≠ some x := fun h => by
      obtain ⟨-, hname⟩ := hunique _ _ _ _ _ (W.inOld _ _ h) hx
      rw [hname, hnone] at h
      cases h
    refine .inr (.inr ⟨q, hq, x, hx, ?_, fun e he => ?_⟩)
    · rw [AnnArea.move_files, if_neg fun hd => hne hd.1]
      split
      · rfl
      · exact hnone
    · rw [AnnArea.move_files]
      split
      · exact hother
      · rename_i hname
        rw [if_neg fun hd => hne hd.1.symm]
        rcases List.mem_append.mp he with he | he
        · exact hadd e he
        · cases ok with
          | true => exact absurd ⟨rfl, by rw [List.mem_singleton.mp he]⟩ hname
          | false => cases he

theorem Broken.special (B : Broken s₀ s old cur cut) (W : PasteWf s₀ s old cur cut)
    (hunique : ∀ d n d' n' y, s₀.files d n = some y → s₀.files d' n' = some y → d = d' ∧ n = n')
    (hne : old ≠ cur) (hr : r.special = true) (fname : Bytes) :
    Broken s₀ ((s.append cur r ok).delete old fname) old cur cut := by
  obtain ⟨added, hadded, B⟩ := B
  refine ⟨added ++ if ok then [r] else [], ?_, ?_⟩
  · rw [AnnArea.append_delete_cur hne, hadded, List.append_assoc]
  rw [AnnArea.append_delete_files]
  rcases B with hlost | ⟨e, he, hspecial⟩ | ⟨q, hq, x, hx, hnone, hadd⟩
  · exact .inl hlost
  · exact .inr (.inl ⟨e, List.mem_append_left _ he, hspecial⟩)
  · refine .inr (.inr ⟨q, hq, x, hx, hnone, fun e he => ?_⟩)
    rcases List.mem_append.mp he with he | he
    · exact hadd e he
    · cases ok with
      | true =>
        rw [List.mem_singleton.mp he, W.special _ (of_decide_eq_true hr)]
        exact fun h => hne (hunique _ _ _ _ _ hx h).1
      | false => cases he

variable [DecidableEq α] {added : List AnnHeader}

theorem Broken.not_conserved (B : Broken s₀ s old cur cut) (W : PasteWf s₀ s old cur cut)
    (hunique : ∀ d n d' n' y, s₀.files d n = some y → s₀.files d' n' = some y → d = d' ∧ n = n')
    (hne : old ≠ cur) : ¬ItemsConserved s₀ s old cur cut added := by
  intro C
  obtain ⟨added', hadded, B⟩ := B
  obtain rfl : added = added' := List.append_cancel_left (C.index.symm.trans hadded)
  have hone {x : α} (h : added.countP (s.files cur ·.filename = some x) = 1) :
      ∃ e ∈ added, s.files cur e.filename = some x := by
    obtain ⟨e, he, hx⟩ := List.countP_pos_iff.mp (h ▸ Nat.one_pos)
    exact ⟨e, he, of_decide_eq_true hx⟩
  rcases B with ⟨y, hy, hlost⟩ | ⟨e, he, hspecial⟩ | ⟨q, hq, x, hx, hnone, hadd⟩
  · rcases hy with ⟨n, hn⟩ | ⟨r, hr, hx⟩
    · exact hlost cur n (C.dest n y hn)
    · rcases C.items r hr y hx with ⟨h, -⟩ | ⟨-, -, h⟩
      · exact hlost old r.filename h
      · obtain ⟨e, -, he⟩ := hone h
        exact hlost cur e.filename he
  · obtain ⟨r, -, x, hx, hfile, -⟩ := C.entries e he
    rw [W.special _ (of_decide_eq_true hspecial)] at hfile
    exact hne (hunique _ _ _ _ _ hx hfile).1
  · rcases C.items q hq x hx with ⟨h, -⟩ | ⟨-, -, h⟩
    · rw [hnone] at h
      cases h
    · obtain ⟨e, he, hfile⟩ := hone h
      exact hadd e he hfile

/-- What holds while nothing has gone wrong. No record of the old index has the name in the buffer.
-/
structure PasteInv (s₀ : AnnArea α) (p : Pasting α) (old cur : Bytes)
    (cut added : List AnnHeader) : Prop where
  wf : PasteWf s₀ p.area old cur cut
  conserved : ItemsConserved s₀ p.area old cur cut added
  stale : ∀ e ∈ p.area.index old, e.filename ≠ p.fname

theorem pasteInv_start {fname : Bytes}
    (hunique : ∀ d n d' n' y, s₀.files d n = some y → s₀.files d' n' = some y → d = d' ∧ n = n')
    (hlisted : ∀ r ∈ cut, ∀ x, s₀.files old r.filename = some x →
      listings r.filename (s₀.index old) = 1)
    (hfname : ∀ e ∈ s₀.index old, e.filename ≠ fname) :
    PasteInv s₀ ⟨s₀, fname⟩ old cur cut [] where
  wf := ⟨hunique, fun _ _ h => h, fun _ _ => rfl, fun _ _ h => .inl h, [], (List.append_nil _).symm⟩
  conserved := ⟨(List.append_nil _).symm, nofun, fun r hr x hx => .inl ⟨hx, hlisted r hr x hx, rfl⟩,
    fun _ _ h => h, fun _ he _ => ⟨he, rfl⟩⟩
  stale := hfname

/-- An item whose file gets a name that was free, and whose record is added, is conserved. -/
theorem PasteInv.move {p : Pasting α} {x : α} (I : PasteInv s₀ p old cur cut added)
    (hunique : ∀ d n d' n' y, s₀.files d n = some y → s₀.files d' n' = some y → d = d' ∧ n = n')
    (hne : old ≠ cur) (hr : r ∈ cut) (hx : p.area.files old r.filename = some x)
    (hfree : p.area.files cur name = none) (hname : name.head? ≠ some 64) :
    PasteInv s₀ ⟨p.area.move old cur r name true, r.filename⟩ old cur cut
      (added ++ [{ r with filename := name }]) := by
  have hx₀ := I.wf.inOld _ _ hx
  have hold {n : Bytes} : (p.area.move old cur r name true).files old n =
      if n = r.filename then none else p.area.files old n := by
    rw [AnnArea.move_files, if_neg fun hd => hne hd.1]
    simp only [true_and]
  have hcur {n : Bytes} (hn : n ≠ name) :
      (p.area.move old cur r name true).files cur n = p.area.files cur n := by
    rw [AnnArea.move_files, if_neg fun hd => hn hd.2, if_neg fun hd => hne hd.1.symm]
  have hnew : (p.area.move old cur r name true).files cur name = some x := by
    rw [AnnArea.move_files, if_pos ⟨rfl, rfl⟩, hx]
  have hindex : (p.area.move old cur r name true).index old =
      searchDelete r.filename (p.area.index old) := AnnArea.append_delete_old hne
  have hadded {e : AnnHeader} (he : e ∈ added) : e.filename ≠ name := fun heq => by
    obtain ⟨-, -, z, -, hz, -⟩ := I.conserved.entries e he
    rw [heq, hfree] at hz
    cases hz
  refine ⟨I.wf.move hne hr hname, ⟨?_, fun e he => ?_, fun q hq z hz => ?_, fun n y hn => ?_,
    fun e he hq => ?_⟩, fun e he => ?_⟩
  · dsimp only
    rw [AnnArea.move, AnnArea.append_delete_cur hne, AnnArea.rename_index, I.conserved.index,
      List.append_assoc]
    rfl
  · rcases List.mem_append.mp he with he | he
    · obtain ⟨q, hq, z, hz, hfile, heq⟩ := I.conserved.entries e he
      exact ⟨q, hq, z, hz, (hcur (hadded he)).trans hfile, heq⟩
    · rw [List.mem_singleton.mp he]
      exact ⟨r, hr, x, hx₀, hnew, rfl⟩
  · -- The files of the records added before stay where they are.
    have hcount : added.countP ((p.area.move old cur r name true).files cur ·.filename = some z) =
        added.countP (p.area.files cur ·.filename = some z) :=
      List.countP_congr fun e he => by simp only [hcur (hadded he)]
    dsimp only
    rw [hold, hindex, listings_searchDelete, List.countP_append, hcount, List.countP_singleton]
    dsimp only
    rw [hnew]
    by_cases hqr : q.filename = r.filename
    · rw [if_pos hqr, if_pos hqr]
      obtain rfl : z = x := Option.some.inj (hz.symm.trans (hqr ▸ hx₀))
      rcases I.conserved.items q hq z hz with ⟨-, hone, hzero⟩ | ⟨hnone, -⟩
      · exact .inr ⟨rfl, by rw [hone], by rw [hzero]; simp⟩
      · rw [hqr, hx] at hnone
        cases hnone
    · rw [if_neg hqr, if_neg hqr]
      have hzx : some x ≠ some z := fun h => by
        rw [← h] at hz
        exact hqr (hunique _ _ _ _ _ hz hx₀).2
      rw [if_neg (by simpa using hzx)]
      exact I.conserved.items q hq z hz
  · rw [hcur]
    · exact I.conserved.dest n y hn
    · rintro rfl
      rw [I.conserved.dest n y hn] at hfree
      cases hfree
  · obtain ⟨hmem, hfile⟩ := I.conserved.others e he hq
    have hother : e.filename ≠ r.filename := (hq r hr).symm
    exact ⟨hindex ▸ (mem_searchDelete hother).mpr hmem, by rw [hold, if_neg hother, hfile]⟩
  · dsimp only at he ⊢
    rw [hindex] at he
    rintro hname
    have hzero : listings r.filename (searchDelete r.filename (p.area.index old)) = 0 := by
      rw [listings_searchDelete, if_pos rfl]
      rcases I.conserved.items r hr x hx₀ with ⟨-, hone, -⟩ | ⟨hnone, -⟩
      · rw [hone]
      · rw [hx] at hnone
        cases hnone
    exact List.countP_eq_zero.mp hzero e he (decide_eq_true hname)

end

/-! ## The runs of `ann_paste` -/

section
variable {α : Type} {dash : Option α → Bool} {cur old : Bytes} {fuel fuel' : Nat}
  {p p' : Pasting α} {rec : AnnCopypaste} {a : PasteAnswers α}
  {items : List (AnnCopypaste × PasteAnswers α)}

theorem pasteItem_mono (hle : fuel ≤ fuel') (h : pasteItem dash cur fuel p rec a = some p') :
    pasteItem dash cur fuel' p rec a = some p' := by
  unfold pasteItem at h ⊢
  dsimp only at h ⊢
  split at h
  · rename_i hskip
    rw [if_pos hskip]
    exact h
  · rename_i hskip
    rw [if_neg hskip]
    split at h <;> split at h
    · rename_i hspecial
      rw [if_pos hspecial]
      exact h
    · rename_i hspecial
      rw [if_neg hspecial]
      obtain ⟨name, hname, heq⟩ := Option.map_eq_some_iff.mp h
      exact Option.map_eq_some_iff.mpr ⟨name, AnnArea.retry_mono hle hname, heq⟩
    · rename_i hspecial
      rw [if_pos hspecial]
      exact h
    · rename_i hspecial
      rw [if_neg hspecial]
      obtain ⟨name, hname, heq⟩ := Option.map_eq_some_iff.mp h
      refine Option.map_eq_some_iff.mpr ⟨name, ?_, heq⟩
      split at hname
      · rename_i hren
        rwa [if_pos hren]
      · rename_i hren
        rw [if_neg hren]
        exact AnnArea.retry_mono hle hname

theorem annPaste_mono (hle : fuel ≤ fuel') (h : annPaste dash cur fuel p items = some p') :
    annPaste dash cur fuel' p items = some p' := by
  induction items generalizing p with
  | nil => exact h
  | cons i items ih =>
    obtain ⟨p₁, h₁, h⟩ := Option.bind_eq_some_iff.mp h
    exact Option.bind_eq_some_iff.mpr ⟨p₁, pasteItem_mono hle h₁, ih h⟩

/-- What becomes of a cut item. -/
theorem pasteItem_cut (hcut : rec.copymode = .cut)
    (h : pasteItem dash cur fuel p rec a = some p') :
    (p.area.skips dash cur rec = true ∧ p' = p) ∨
    (p.area.skips dash cur rec = false ∧ rec.fileinfo.special = true ∧
      p' = ⟨(p.area.append cur rec.fileinfo a.appended).delete rec.basedir p.fname, p.fname⟩) ∨
    (p.area.skips dash cur rec = false ∧ rec.fileinfo.special = false ∧ ∃ name,
      (a.renamed = true ∧ name = rec.fileinfo.filename ∨
        a.renamed = false ∧
          p.area.retry cur rec.fileinfo.filename a.now a.retried fuel = some name) ∧
      p' = ⟨p.area.move rec.basedir cur rec.fileinfo name a.appended, rec.fileinfo.filename⟩) := by
  simp only [pasteItem, hcut] at h
  split at h
  · rename_i hskip
    exact .inl ⟨hskip, (Option.some.inj h).symm⟩
  · rename_i hskip
    rw [Bool.not_eq_true] at hskip
    split at h
    · rename_i hspecial
      exact .inr (.inl ⟨hskip, hspecial, (Option.some.inj h).symm⟩)
    · rename_i hspecial
      rw [Bool.not_eq_true] at hspecial
      obtain ⟨name, hname, heq⟩ := Option.map_eq_some_iff.mp h
      refine .inr (.inr ⟨hskip, hspecial, name, ?_, heq.symm⟩)
      split at hname
      · rename_i hren
        exact .inl ⟨hren, (Option.some.inj hname).symm⟩
      · rename_i hren
        exact .inr ⟨by simpa using hren, hname⟩

variable (dash cur)

/-- A cut item that is not passed over: an entry for no file of the directory is not appended; for
others `append_record` succeeds, and the first `rename` fails or finds no file under the name, and
one of the later ones succeeds with a name that no file has. -/
def ItemSafe (s : AnnArea α) (rec : AnnCopypaste) (a : PasteAnswers α) : Prop :=
  s.skips dash cur rec = true ∨
    if rec.fileinfo.special then a.appended = false
    else a.appended = true ∧
      if a.renamed then s.files cur rec.fileinfo.filename = none
      else ∃ n, s.files cur (retryName rec.fileinfo.filename (a.now + n)) = none ∧
        a.retried n = true

/-- All items of the clipboard are such when `ann_paste` comes to them. -/
def PasteSafe (p : Pasting α) : List (AnnCopypaste × PasteAnswers α) → Prop
  | [] => True
  | (rec, a) :: items => ItemSafe dash cur p.area rec a ∧
    ∀ fuel p', pasteItem dash cur fuel p rec a = some p' → PasteSafe p' items

variable {dash cur}

/-- An item for which all goes well is done after finitely many rounds. -/
theorem ItemSafe.ends (hcut : rec.copymode = .cut) (hsafe : ItemSafe dash cur p.area rec a) :
    ∃ fuel p', pasteItem dash cur fuel p rec a = some p' := by
  simp only [pasteItem, hcut]
  by_cases hskip : p.area.skips dash cur rec = true
  · exact ⟨0, p, by rw [if_pos hskip]⟩
  · simp only [if_neg hskip]
    rcases hsafe with hs | hsafe
    · exact absurd hs hskip
    · by_cases hspecial : rec.fileinfo.special = true
      · exact ⟨0, _, by rw [if_pos hspecial]⟩
      · simp only [if_neg hspecial] at hsafe ⊢
        by_cases hren : a.renamed = true
        · exact ⟨0, _, by rw [if_pos hren]; rfl⟩
        · simp only [if_neg hren] at hsafe ⊢
          obtain ⟨fuel, name, hname⟩ := AnnArea.retry_ends hsafe.2
          exact ⟨fuel, _, by rw [hname]; rfl⟩

variable {s₀ : AnnArea α} {cut added : List AnnHeader}
  (hdash : ∀ x, dash x = x.isSome)
  (hunique : ∀ d n d' n' y, s₀.files d n = some y → s₀.files d' n' = some y → d = d' ∧ n = n')
include hdash

/-- The paths of an item that is not passed over are different, and there is its file. -/
theorem ne_of_not_skips {s : AnnArea α} (h : s.skips dash cur rec = false) :
    rec.basedir ≠ cur ∧ ∃ x, s.files rec.basedir rec.fileinfo.filename = some x := by
  rw [AnnArea.skips, Bool.or_eq_false_iff, hdash] at h
  obtain ⟨hpath, hfile⟩ := h
  refine ⟨?_, Option.isSome_iff_exists.mp (by simpa using hfile)⟩
  rintro heq
  rw [heq, List.isPrefixOf_iff_prefix.mpr (List.prefix_refl _)] at hpath
  cases hpath

/-- An item for which something goes wrong breaks what is to be conserved. -/
theorem PasteInv.broken [DecidableEq α] (I : PasteInv s₀ p old cur cut added)
    (hcut : rec.copymode = .cut)
    (hold : rec.basedir = old) (hrec : rec.fileinfo ∈ cut)
    (hsafe : ¬ItemSafe dash cur p.area rec a)
    (h : pasteItem dash cur fuel p rec a = some p') :
    old ≠ cur ∧ Broken s₀ p'.area old cur cut ∧ PasteWf s₀ p'.area old cur cut := by
  subst hold
  rw [ItemSafe, not_or] at hsafe
  obtain ⟨hskip', hsafe⟩ := hsafe
  rcases pasteItem_cut hcut h with ⟨hskip, -⟩ | ⟨hskip, hspecial, rfl⟩ |
    ⟨hskip, hspecial, name, hname, rfl⟩
  · exact absurd hskip hskip'
  · obtain ⟨hne, -⟩ := ne_of_not_skips hdash hskip
    rw [if_pos hspecial] at hsafe
    have happ : a.appended = true := by simpa using hsafe
    refine ⟨hne, ⟨added ++ [rec.fileinfo], ?_, .inr (.inl ⟨rec.fileinfo, ?_, hspecial⟩)⟩,
      I.wf.special' hne _⟩
    · rw [AnnArea.append_delete_cur hne, I.conserved.index, happ, List.append_assoc]
      rfl
    · exact List.mem_append_right _ (List.mem_singleton_self _)
  · obtain ⟨hne, x, hx⟩ := ne_of_not_skips hdash hskip
    have hspecial' : rec.fileinfo.filename.head? ≠ some 64 := of_decide_eq_false hspecial
    have hhead : name.head? ≠ some 64 := by
      rcases hname with ⟨-, rfl⟩ | ⟨-, hretry⟩
      · exact hspecial'
      · rwa [(AnnArea.retry_some hretry).2]
    refine ⟨hne, ⟨added ++ if a.appended then [{ rec.fileinfo with filename := name }] else [],
      ?_, ?_⟩, I.wf.move hne hrec hhead⟩
    · rw [AnnArea.move, AnnArea.append_delete_cur hne, AnnArea.rename_index, I.conserved.index,
        List.append_assoc]
    cases hfile : p.area.files cur name with
    | some y =>
      -- The file that had the name is lost.
      refine .inl ⟨y, ?_, fun d n hy => ?_⟩
      · rcases I.wf.origin name y hfile with h | h
        · exact .inl ⟨name, h⟩
        · exact .inr h
      · rw [AnnArea.move_files] at hy
        split at hy
        · exact hne (I.wf.unique _ _ _ _ _ hy hfile).1
        · split at hy
          · cases hy
          · rename_i hother _
            exact hother (I.wf.unique _ _ _ _ _ hy hfile)
    | none =>
      have happ : a.appended = false := by
        rw [if_neg (Bool.not_eq_true _ ▸ hspecial), not_and] at hsafe
        rw [← Bool.not_eq_true]
        intro happ
        refine hsafe happ ?_
        rcases hname with ⟨hren, rfl⟩ | ⟨hren, hretry⟩
        · rwa [if_pos hren]
        · rw [if_neg (Bool.not_eq_true _ ▸ hren)]
          exact AnnArea.retry_of_some hretry
      refine .inr (.inr ⟨rec.fileinfo, hrec, x, I.wf.inOld _ _ hx, ?_, fun e he => ?_⟩)
      · rw [AnnArea.move_files, if_neg fun hd => hne hd.1, if_pos ⟨rfl, rfl⟩]
      · rw [happ] at he ⊢
        rcases List.mem_append.mp he with he | he
        · obtain ⟨q, hq, z, hz, hez, -⟩ := I.conserved.entries e he
          have hename : e.filename ≠ name := fun heq => by
            rw [heq, hfile] at hez
            cases hez
          rw [AnnArea.move_files, if_neg fun hd => hename hd.2, if_neg fun hd => hne hd.1.symm]
          exact fun h => hne (I.wf.unique _ _ _ _ _ hx h).1
        · cases he

include hunique

/-- What has gone wrong is not put right by a cut item. -/
theorem Broken.item (B : Broken s₀ p.area old cur cut) (W : PasteWf s₀ p.area old cur cut)
    (hcut : rec.copymode = .cut) (hold : rec.basedir = old) (hrec : rec.fileinfo ∈ cut)
    (h : pasteItem dash cur fuel p rec a = some p') :
    Broken s₀ p'.area old cur cut ∧ PasteWf s₀ p'.area old cur cut := by
  subst hold
  rcases pasteItem_cut hcut h with ⟨-, rfl⟩ | ⟨hskip, hspecial, rfl⟩ |
    ⟨hskip, hspecial, name, hname, rfl⟩
  · exact ⟨B, W⟩
  · obtain ⟨hne, -⟩ := ne_of_not_skips hdash hskip
    exact ⟨B.special W hunique hne hspecial _, W.special' hne _⟩
  · obtain ⟨hne, -⟩ := ne_of_not_skips hdash hskip
    have hhead : name.head? ≠ some 64 := by
      have hold : rec.fileinfo.filename.head? ≠ some 64 := of_decide_eq_false hspecial
      rcases hname with ⟨-, rfl⟩ | ⟨-, hretry⟩
      · exact hold
      · rwa [(AnnArea.retry_some hretry).2]
    exact ⟨B.move W hunique hne, W.move hne hrec hhead⟩

theorem Broken.loop (B : Broken s₀ p.area old cur cut) (W : PasteWf s₀ p.area old cur cut)
    (hitems : ∀ i ∈ items, i.1.copymode = .cut ∧ i.1.basedir = old ∧ i.1.fileinfo ∈ cut)
    (h : annPaste dash cur fuel p items = some p') :
    Broken s₀ p'.area old cur cut ∧ PasteWf s₀ p'.area old cur cut := by
  induction items generalizing p with
  | nil => exact Option.some.inj h ▸ ⟨B, W⟩
  | cons i items ih =>
    obtain ⟨p₁, h₁, h⟩ := Option.bind_eq_some_iff.mp h
    obtain ⟨hcut, hold, hrec⟩ := hitems i List.mem_cons_self
    obtain ⟨B₁, W₁⟩ := B.item hdash hunique W hcut hold hrec h₁
    exact ih B₁ W₁ (fun j hj => hitems j (List.mem_cons_of_mem i hj)) h

variable [DecidableEq α]

/-- An item for which all goes well is conserved, with the ones before. -/
theorem PasteInv.item (I : PasteInv s₀ p old cur cut added) (hcut : rec.copymode = .cut)
    (hold : rec.basedir = old) (hrec : rec.fileinfo ∈ cut) (hsafe : ItemSafe dash cur p.area rec a)
    (h : pasteItem dash cur fuel p rec a = some p') :
    ∃ added', PasteInv s₀ p' old cur cut added' := by
  subst hold
  rcases pasteItem_cut hcut h with ⟨-, rfl⟩ | ⟨hskip, hspecial, rfl⟩ |
    ⟨hskip, hspecial, name, hname, rfl⟩
  · exact ⟨added, I⟩
  · rcases hsafe with hs | hsafe
    · rw [hskip] at hs
      cases hs
    · rw [if_pos hspecial] at hsafe
      -- Nothing is appended, and the buffer has no name of the old index.
      have hsame : (p.area.append cur rec.fileinfo a.appended).delete rec.basedir p.fname =
          p.area := by
        rw [hsafe, AnnArea.append, if_neg Bool.false_ne_true, AnnArea.delete,
          searchDelete_of_not_mem I.stale, Function.update_eq_self]
      rw [hsame]
      exact ⟨added, I⟩
  · obtain ⟨hne, x, hx⟩ := ne_of_not_skips hdash hskip
    have hspecial' : rec.fileinfo.filename.head? ≠ some 64 := of_decide_eq_false hspecial
    rcases hsafe with hs | hsafe
    · rw [hskip] at hs
      cases hs
    · rw [if_neg (Bool.not_eq_true _ ▸ hspecial)] at hsafe
      obtain ⟨happ, hsafe⟩ := hsafe
      rw [happ]
      rcases hname with ⟨hren, rfl⟩ | ⟨-, hretry⟩
      · rw [if_pos hren] at hsafe
        exact ⟨_, I.move hunique hne hrec hx hsafe hspecial'⟩
      · obtain ⟨hfree, hhead⟩ := AnnArea.retry_some hretry
        exact ⟨_, I.move hunique hne hrec hx hfree (hhead ▸ hspecial')⟩

/-- A loop that conserves the items has met nothing wrong. -/
theorem PasteInv.safe_of_conserved (I : PasteInv s₀ p old cur cut added)
    (hitems : ∀ i ∈ items, i.1.copymode = .cut ∧ i.1.basedir = old ∧ i.1.fileinfo ∈ cut)
    (h : annPaste dash cur fuel p items = some p') {added' : List AnnHeader}
    (hconserved : ItemsConserved s₀ p'.area old cur cut added') : PasteSafe dash cur p items := by
  induction items generalizing p added with
  | nil => trivial
  | cons i items ih =>
    obtain ⟨rec, a⟩ := i
    obtain ⟨p₁, h₁, h⟩ := Option.bind_eq_some_iff.mp h
    obtain ⟨hcut, hold, hrec⟩ := hitems _ List.mem_cons_self
    have hrest := fun j hj => hitems j (List.mem_cons_of_mem _ hj)
    have hsafe : ItemSafe dash cur p.area rec a := by
      by_contra hunsafe
      obtain ⟨hne, B, W⟩ := I.broken hdash hcut hold hrec hunsafe h₁
      obtain ⟨B', W'⟩ := B.loop hdash hunique W hrest h
      exact B'.not_conserved W' hunique hne hconserved
    obtain ⟨added₁, I₁⟩ := I.item hdash hunique hcut hold hrec hsafe h₁
    refine ⟨hsafe, fun fuel' p₂ h₂ => ?_⟩
    have heq : p₂ = p₁ := by
      have hle := pasteItem_mono (Nat.le_max_left fuel fuel') h₁
      rw [pasteItem_mono (Nat.le_max_right fuel fuel') h₂] at hle
      exact Option.some.inj hle
    exact heq ▸ ih I₁ hrest h

/-- A loop that meets nothing wrong ends, and conserves the items. -/
theorem PasteInv.conserved_of_safe (I : PasteInv s₀ p old cur cut added)
    (hitems : ∀ i ∈ items, i.1.copymode = .cut ∧ i.1.basedir = old ∧ i.1.fileinfo ∈ cut)
    (hsafe : PasteSafe dash cur p items) :
    ∃ fuel p' added', annPaste dash cur fuel p items = some p' ∧
      ItemsConserved s₀ p'.area old cur cut added' := by
  induction items generalizing p added with
  | nil => exact ⟨0, p, added, rfl, I.conserved⟩
  | cons i items ih =>
    obtain ⟨rec, a⟩ := i
    obtain ⟨hcut, hold, hrec⟩ := hitems _ List.mem_cons_self
    obtain ⟨hitem, hrest⟩ := hsafe
    obtain ⟨fuel, p₁, h₁⟩ := hitem.ends hcut
    obtain ⟨added₁, I₁⟩ := I.item hdash hunique hcut hold hrec hitem h₁
    obtain ⟨fuel', p', added', h, hconserved⟩ :=
      ih I₁ (fun j hj => hitems j (List.mem_cons_of_mem _ hj)) (hrest fuel p₁ h₁)
    exact ⟨max fuel fuel', p', added', Option.bind_eq_some_iff.mpr
      ⟨p₁, pasteItem_mono (Nat.le_max_left ..) h₁, annPaste_mono (Nat.le_max_right ..) h⟩, hconserved⟩

/-- For every clipboard of cut items of one directory, whatever the directories hold and the calls
answer: `ann_paste` ends and conserves the items if and only if it comes to each of them in a state
where its record can be added, and its file gets a name that no file has. -/
theorem annPaste_conserves_iff {fname : Bytes}
    (hitems : ∀ i ∈ items, i.1.copymode = .cut ∧ i.1.basedir = old)
    (hlisted : ∀ i ∈ items, ∀ x, s₀.files old i.1.fileinfo.filename = some x →
      listings i.1.fileinfo.filename (s₀.index old) = 1)
    (hfname : ∀ e ∈ s₀.index old, e.filename ≠ fname) :
    (∃ fuel p added, annPaste dash cur fuel ⟨s₀, fname⟩ items = some p ∧
      ItemsConserved s₀ p.area old cur (items.map (·.1.fileinfo)) added) ↔
      PasteSafe dash cur ⟨s₀, fname⟩ items := by
  have I : PasteInv s₀ ⟨s₀, fname⟩ old cur (items.map (·.1.fileinfo)) [] := by
    refine pasteInv_start hunique (fun r hr x hx => ?_) hfname
    obtain ⟨i, hi, rfl⟩ := List.mem_map.mp hr
    exact hlisted i hi x hx
  have hcut : ∀ i ∈ items, i.1.copymode = .cut ∧ i.1.basedir = old ∧
      i.1.fileinfo ∈ items.map (·.1.fileinfo) := fun i hi =>
    ⟨(hitems i hi).1, (hitems i hi).2, List.mem_map_of_mem (f := (·.1.fileinfo)) hi⟩
  constructor
  · rintro ⟨fuel, p, added, h, hconserved⟩
    exact I.safe_of_conserved hdash hunique hcut h hconserved
  · exact I.conserved_of_safe hdash hunique hcut

omit hdash hunique

/-- An item of the directory `a`, and a file of `b`, of the same name or of another one. -/
def demoHeader : AnnHeader := ⟨bytes "M.1.A", bytes "Ann", bytes "Ann", bytes "news", 1, 0⟩

def demoArea (name : Bytes) : AnnArea Nat where
  files d n :=
    if d = bytes "a" ∧ n = bytes "M.1.A" then some 1
    else if d = bytes "b" ∧ n = name then some 2 else none
  index d := if d = bytes "a" then [demoHeader] else [{ demoHeader with filename := name }]

def demoItems (renamed : Bool) : List (AnnCopypaste × PasteAnswers Nat) :=
  [(⟨.cut, bytes "a", demoHeader⟩, ⟨7, renamed, fun _ => true, true, none⟩)]

theorem demoArea_unique (name : Bytes) (d n d' n' : Bytes) (y : Nat)
    (h : (demoArea name).files d n = some y) (h' : (demoArea name).files d' n' = some y) :
    d = d' ∧ n = n' := by
  simp only [demoArea] at h h'
  split at h
  · rename_i hdn
    split at h'
    · rename_i hdn'
      exact ⟨hdn.1.trans hdn'.1.symm, hdn.2.trans hdn'.2.symm⟩
    · split at h' <;> cases h
      cases h'
      cases h'
  · split at h
    · rename_i hdn
      split at h'
      · cases h
        cases h'
      · split at h'
        · rename_i hdn'
          exact ⟨hdn.1.trans hdn'.1.symm, hdn.2.trans hdn'.2.symm⟩
        · cases h'
    · cases h

theorem annPaste_conserves_retry : ∃ fuel p added,
    annPaste Option.isSome (bytes "b") fuel ⟨demoArea (bytes "M.1.A"), bytes "home/copypaste"⟩
      (demoItems false) = some p ∧
    ItemsConserved (demoArea (bytes "M.1.A")) p.area (bytes "a") (bytes "b") [demoHeader] added := by
  refine (annPaste_conserves_iff (fun _ => rfl) (demoArea_unique _) ?_ ?_ ?_).mpr
    ⟨.inr ⟨rfl, 0, by decide, rfl⟩, fun _ _ _ => trivial⟩
  · intro i hi
    rw [List.mem_singleton.mp hi]
    exact ⟨rfl, rfl⟩
  · intro i hi x _
    rw [List.mem_singleton.mp hi]
    decide
  · decide

/-- The destination has a file of the name, and `rename` succeeds. -/
theorem annPaste_overwrites : ¬∃ fuel p added,
    annPaste Option.isSome (bytes "b") fuel ⟨demoArea (bytes "M.1.A"), bytes "home/copypaste"⟩
      (demoItems true) = some p ∧
    ItemsConserved (demoArea (bytes "M.1.A")) p.area (bytes "a") (bytes "b") [demoHeader] added := by
  rintro ⟨fuel, p, added, h, C⟩
  have hp : annPaste Option.isSome (bytes "b") fuel
      ⟨demoArea (bytes "M.1.A"), bytes "home/copypaste"⟩ (demoItems true) =
      some ⟨(demoArea (bytes "M.1.A")).move (bytes "a") (bytes "b") demoHeader (bytes "M.1.A") true,
        bytes "M.1.A"⟩ := rfl
  rw [hp] at h
  have hdest := C.dest (bytes "M.1.A") 2 (by decide)
  rw [← Option.some.inj h] at hdest
  exact absurd hdest (by decide)

end

end ArgoBbs

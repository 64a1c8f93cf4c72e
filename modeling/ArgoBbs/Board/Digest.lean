import ArgoBbs.Lib.CString
import ArgoBbs.Lib.Flags
import ArgoBbs.Lib.Keyed
import ArgoBbs.Lib.Reach
import ArgoBbs.Record.Deletion
import ArgoBbs.Record.Search
import Mathlib.Data.List.Sort
import Mathlib.Logic.Function.Basic

/-! # The digest of a board

An article in the digest has the flag `FILE_DIGEST` in `.DIR` and a second header in `.DIGEST`,
under its name with `G` for the first letter (`dodigest`). Deleting puts a header without flags into
`.DELETED` or `.JUNK`, from where it can be restored (`bbs.c`, `record.c`). Titles are left out:
nothing here looks at them. -/

namespace ArgoBbs

def fileMarked : BitVec 32 := 0x8
def fileDigest : BitVec 32 := 0x10
def fileForwarded : BitVec 32 := 0x20
def fileAttached : BitVec 32 := 0x200

structure ArticleHeader extends FileHeader where
  flag : BitVec 32
  deriving DecidableEq

namespace ArticleHeader

def has (hdr : ArticleHeader) (mask : BitVec 32) : Bool := hdr.flag &&& mask != 0

def setFlag (hdr : ArticleHeader) (mask : BitVec 32) : ArticleHeader :=
  { hdr with flag := hdr.flag ||| mask }

def clearFlag (hdr : ArticleHeader) (mask : BitVec 32) : ArticleHeader :=
  { hdr with flag := hdr.flag &&& ~~~mask }

theorem has_setFlag (hdr : ArticleHeader) {mask : BitVec 32} (h : mask ≠ 0) :
    (hdr.setFlag mask).has mask = true := by
  rw [has, setFlag, or_and_self]
  exact bne_iff_ne.mpr h

theorem has_clearFlag (hdr : ArticleHeader) (mask : BitVec 32) :
    (hdr.clearFlag mask).has mask = false := by
  rw [has, clearFlag, and_not_self]
  rfl

theorem has_zero {hdr : ArticleHeader} (h : hdr.flag = 0) (mask : BitVec 32) :
    hdr.has mask = false := by
  have hzero : 0#32 &&& mask = 0#32 := BitVec.zero_and
  rw [has, h, BitVec.ofNat_eq_ofNat, hzero]
  rfl

end ArticleHeader

/-- The name of the article's file in the digest. -/
def digestName (filename : Bytes) : Bytes := 71 :: filename.drop 1

/-- The name that `dodigest` rebuilds from the one in the digest. -/
def articleName (filename : Bytes) : Bytes := 77 :: filename.drop 1

/-- `cmpfilename2` -/
def hasName (filename : Bytes) (hdr : ArticleHeader) : Bool := hdr.filename = filename

section
variable (headers : List ArticleHeader)

/-- The header with the number `ent` in a list. -/
def headerAt (ent : Nat) : Option ArticleHeader := if ent = 0 then none else headers[ent - 1]?

/-- `search_record` with `cmpfilename2` -/
def searchFilename (filename : Bytes) : Option Nat := headers.findIdx? (hasName filename)

/-- The index at which `safe_substitute_record` puts the header. -/
def substituteIndex (fhdr : FileHeader) (ent : Nat) (sorted : Bool) : Option Nat :=
  let ent := min ent headers.length
  let same (i : Nat) : Bool := headers[i]?.any fun hdr => hdr.toFileHeader = fhdr
  if sorted then
    if same (ent - 1) then some (ent - 1)
    else getDirIndex fhdr.filetime (fun hdr => hdr.filename = fhdr.filename)
      (headers.map (·.toFileHeader))
  else ((List.range ent).reverse ++ List.range' ent (headers.length - ent)).find? same

def safeSubstituteRecord (fhdr : ArticleHeader) (ent : Nat) (sorted : Bool) : List ArticleHeader :=
  match substituteIndex headers fhdr.toFileHeader ent sorted with
  | some i => headers.set i fhdr
  | none => headers

end

/-- A header that is where it is looked for is replaced there. -/
theorem safeSubstituteRecord_eq {headers : List ArticleHeader} {i : Nat} {hdr : ArticleHeader}
    (hi : headers[i]? = some hdr) (fhdr : ArticleHeader) (h : hdr.toFileHeader = fhdr.toFileHeader)
    (sorted : Bool) : safeSubstituteRecord headers fhdr (i + 1) sorted = headers.set i fhdr := by
  have hlt : i < headers.length := (List.getElem?_eq_some_iff.mp hi).1
  have hsame : (headers[i]?.any fun hdr => hdr.toFileHeader = fhdr.toFileHeader) = true := by
    rw [hi]
    exact decide_eq_true h
  have hindex : substituteIndex headers fhdr.toFileHeader (i + 1) sorted = some i := by
    simp only [substituteIndex, Nat.min_eq_left hlt]
    cases sorted with
    | true => exact if_pos hsame
    | false =>
      rw [if_neg Bool.false_ne_true, List.range_succ, List.reverse_append, List.reverse_singleton,
        List.append_assoc, List.singleton_append, List.find?_cons, hsame]
  rw [safeSubstituteRecord, hindex]

theorem headerAt_some {headers : List ArticleHeader} {ent : Nat} {hdr : ArticleHeader}
    (h : headerAt headers ent = some hdr) : ∃ i, ent = i + 1 ∧ headers[i]? = some hdr := by
  cases ent with
  | zero => cases h
  | succ i => exact ⟨i, rfl, h⟩

/-- The lists of a board; `trash false` is `.DELETED`, `trash true` is `.JUNK`. `files` are the
names in the directory of the board. -/
structure DigestBoard where
  dir : List ArticleHeader
  digest : List ArticleHeader
  trash : Bool → List ArticleHeader
  files : Bytes → Bool

namespace DigestBoard

/-- A board without articles. -/
def empty : DigestBoard := ⟨[], [], fun _ => [], fun _ => false⟩

def createFile (s : DigestBoard) (name : Bytes) : DigestBoard :=
  { s with files := Function.update s.files name true }

def unlink (s : DigestBoard) (name : Bytes) : DigestBoard :=
  { s with files := Function.update s.files name false }

/-- `dodigest` with `update`; `digestmode` says that the list is that of the digest. -/
def dodigest (s : DigestBoard) (digestmode : Bool) (ent : Nat) (fileinfo : ArticleHeader)
    (delete : Bool) : DigestBoard :=
  if digestmode then
    if !delete then s
    else match deleteRecord ent s.digest with
      | none => s
      | some (digest, _) =>
        let s := { s with digest }.unlink fileinfo.filename
        match searchFilename s.dir (articleName fileinfo.filename) with
        | some pos =>
          match s.dir[pos]? with
          | some header =>
            let header := header.clearFlag fileDigest
            { s with dir := safeSubstituteRecord s.dir header (pos + 1) false }
          | none => s
        | none => s
  else if delete then
    let filename := digestName fileinfo.filename
    let s := match deleteFile 1 (hasName filename) s.digest with
      | some (digest, _) => { s with digest }.unlink filename
      | none => s
    { s with dir := safeSubstituteRecord s.dir (fileinfo.clearFlag fileDigest) ent true }
  else
    let filename := digestName fileinfo.filename
    let append (s : DigestBoard) : DigestBoard :=
      let header := { fileinfo with filename, flag := fileinfo.flag &&& fileAttached }
      { s with
        digest := s.digest ++ [header]
        dir := safeSubstituteRecord s.dir (fileinfo.setFlag fileDigest) ent true }
    if fileinfo.filename.head? = some 71 then append s
    -- `link` fails if the article has no file, or if the file of the digest exists
    else if !s.files fileinfo.filename then s
    else if !s.files filename then append (s.createFile filename)
    else if (searchFilename s.digest filename).isSome then s
    else append s

/-- `cancelpost`: the header goes into the trash, without flags. -/
def cancelpost (s : DigestBoard) (fh : ArticleHeader) (owned : Bool) : DigestBoard :=
  { s with trash := Function.update s.trash owned (s.trash owned ++ [{ fh with flag := 0 }]) }

/-- `undelete_article` without the update of the list: the list's header afterwards. -/
def undeleteArticle (s : DigestBoard) (fileinfo : ArticleHeader) :
    Option (DigestBoard × ArticleHeader) :=
  if s.files fileinfo.filename then
    some ({ s with dir := s.dir ++ [{ fileinfo with flag := 0 }] }, fileinfo.setFlag fileForwarded)
  else none

/-- `sort_records` with `cmp_fname` -/
def sortDir (s : DigestBoard) : DigestBoard :=
  { s with dir := s.dir.mergeSort fun hdr1 hdr2 => hdr1.filetime - hdr2.filetime ≤ 0 }

/-- `del_rangecheck` keeps what is marked or in the digest. -/
def keepsRecord (hdr : ArticleHeader) : Bool := hdr.has (fileMarked ||| fileDigest)

def undelRangecheck (s : DigestBoard) (fileinfo : ArticleHeader) : DigestBoard × ArticleHeader :=
  if fileinfo.has fileForwarded then (s, fileinfo)
  else (s.undeleteArticle fileinfo).getD (s, fileinfo)

/-- `process_records` with `undel_rangecheck`, over the headers of the range. -/
def undelRecords (s : DigestBoard) : List ArticleHeader → DigestBoard × List ArticleHeader
  | [] => (s, [])
  | fileinfo :: range =>
    let (s, fileinfo) := s.undelRangecheck fileinfo
    let (s, range) := s.undelRecords range
    (s, fileinfo :: range)

end DigestBoard

/-- An article is posted under a name that no file has (`getfilename`); in the list of the board an
article is put into the digest or taken out of it; in the list of the digest one is deleted; an
article, or the articles of a range, are deleted; from the trash an article, or those of a range,
are restored. -/
inductive DigestOp
  | post (header : ArticleHeader)
  | digest (ent : Nat)
  | undigest (ent : Nat)
  | delPost (ent : Nat) (owned : Bool)
  | delRange (inum1 inum2 : Nat)
  | undelete (junk : Bool) (ent : Nat)
  | undelRange (junk : Bool) (inum1 inum2 : Nat)

namespace DigestBoard

def step (s : DigestBoard) : DigestOp → Option DigestBoard
  | .post header =>
    if header.filename.head? = some 77 ∧ s.files header.filename = false ∧
        header.has fileDigest = false then
      some { s.createFile header.filename with dir := s.dir ++ [header] }
    else none
  | .digest ent =>
    (headerAt s.dir ent).map fun fileinfo => s.dodigest false ent fileinfo (fileinfo.has fileDigest)
  | .undigest ent => (headerAt s.digest ent).map fun fileinfo => s.dodigest true ent fileinfo true
  | .delPost ent owned =>
    (headerAt s.dir ent).map fun fileinfo =>
      match deleteFile ent (hasName fileinfo.filename) s.dir with
      | some (dir, _) => { s with dir }.cancelpost fileinfo owned
      | none => s
  | .delRange inum1 inum2 =>
    if inum1 = 0 ∨ inum2 ≤ inum1 then none
    else
      match processRecords inum1 inum2 (fun _ => keepsRecord) s.dir with
      | some (dir, deleted) => some (deleted.foldl (cancelpost · · false) { s with dir })
      | none => some s
  | .undelete junk ent =>
    (headerAt (s.trash junk) ent).map fun fileinfo =>
      if fileinfo.has fileForwarded then s
      else match s.undeleteArticle fileinfo with
        | some (s, fileinfo) =>
          let list := safeSubstituteRecord (s.trash junk) fileinfo ent false
          { s with trash := Function.update s.trash junk list }.sortDir
        | none => s
  | .undelRange junk inum1 inum2 =>
    if inum1 = 0 ∨ inum2 ≤ inum1 then none
    else
      let list := s.trash junk
      let (s, range) := s.undelRecords ((list.drop (inum1 - 1)).take (inum2 - inum1 + 1))
      let list := list.take (inum1 - 1) ++ range ++ list.drop inum2
      some { s with trash := Function.update s.trash junk list }.sortDir

/-- An article has the flag just if the digest has its name, and no name is twice in the digest. -/
structure Consistent (s : DigestBoard) : Prop where
  flag : ∀ hdr ∈ s.dir, hdr.has fileDigest = true ↔
    ∃ g ∈ s.digest, g.filename = digestName hdr.filename
  nodup : (s.digest.map (·.filename)).Nodup

/-! ## Where the articles are -/

/-- The headers of a trash list that have not been restored. -/
def waiting (l : List ArticleHeader) : List ArticleHeader := l.filter (!·.has fileForwarded)

theorem waiting_append (l l' : List ArticleHeader) :
    waiting (l ++ l') = waiting l ++ waiting l' := List.filter_append ..

def trashNames (s : DigestBoard) : List Bytes :=
  (waiting (s.trash false)).map (·.filename) ++ (waiting (s.trash true)).map (·.filename)

/-- The names of the articles of the board and of those that can be restored. -/
def names (s : DigestBoard) : List Bytes := s.dir.map (·.filename) ++ s.trashNames

variable {s s' : DigestBoard} {hdr fileinfo : ArticleHeader} {ent : Nat}

/-- What leaves one of the trash lists and what comes into it. -/
theorem trashNames_update (xs ys : List Bytes) {junk : Bool} {l : List ArticleHeader}
    (h : (xs ++ (waiting (s.trash junk)).map (·.filename)).Perm
      (ys ++ (waiting l).map (·.filename))) :
    (xs ++ s.trashNames).Perm
      (ys ++ { s with trash := Function.update s.trash junk l }.trashNames) := by
  cases junk with
  | false =>
    have hother := Function.update_of_ne (show true ≠ false by decide) l s.trash
    simp only [trashNames, Function.update_self, hother]
    rw [← List.append_assoc, ← List.append_assoc]
    exact h.append_right _
  | true =>
    have hother := Function.update_of_ne (show false ≠ true by decide) l s.trash
    simp only [trashNames, Function.update_self, hother]
    refine (List.perm_append_comm_assoc ..).trans ?_
    exact (h.append_left _).trans (List.perm_append_comm_assoc ..)

theorem cancelpost_trashNames (s : DigestBoard) (fh : ArticleHeader) (owned : Bool) :
    (s.cancelpost fh owned).trashNames.Perm (fh.filename :: s.trashNames) := by
  refine (trashNames_update [fh.filename] [] ?_).symm
  have hwaits : waiting [{ fh with flag := 0 }] = [{ fh with flag := 0 }] :=
    List.filter_cons_of_pos (by simp [ArticleHeader.has_zero])
  rw [waiting_append, hwaits, List.map_append]
  exact (List.perm_append_singleton ..).symm

theorem foldl_cancelpost (s : DigestBoard) (deleted : List ArticleHeader) (owned : Bool) :
    (deleted.foldl (cancelpost · · owned) s).dir = s.dir ∧
      (deleted.foldl (cancelpost · · owned) s).digest = s.digest ∧
      (deleted.foldl (cancelpost · · owned) s).files = s.files ∧
      (deleted.foldl (cancelpost · · owned) s).trashNames.Perm
        (deleted.map (·.filename) ++ s.trashNames) := by
  induction deleted generalizing s with
  | nil => exact ⟨rfl, rfl, rfl, .refl _⟩
  | cons fh deleted ih =>
    obtain ⟨hdir, hdigest, hfiles, hperm⟩ := ih (s.cancelpost fh owned)
    refine ⟨hdir, hdigest, hfiles, hperm.trans ?_⟩
    refine ((s.cancelpost_trashNames fh owned).append_left _).trans ?_
    exact List.perm_middle

/-! ## The names in the digest -/

theorem articleName_digestName {n : Bytes} (h : n.head? = some 77) :
    articleName (digestName n) = n := by
  cases n with
  | nil => cases h
  | cons c n =>
    obtain rfl : c = 77 := Option.some.inj h
    rfl

theorem digestName_articleName {n : Bytes} (h : n.head? = some 71) :
    digestName (articleName n) = n := by
  cases n with
  | nil => cases h
  | cons c n =>
    obtain rfl : c = 71 := Option.some.inj h
    rfl

theorem digestName_inj {m n : Bytes} (hm : m.head? = some 77) (hn : n.head? = some 77)
    (h : digestName m = digestName n) : m = n := by
  rw [← articleName_digestName hm, h, articleName_digestName hn]

/-- The articles have names of their own, and their files; what is in the digest is named after an
article that has had its file; and the digest is consistent. -/
structure DigestInv (s : DigestBoard) : Prop where
  named : ∀ n ∈ s.names, n.head? = some 77 ∧ s.files n = true
  distinct : s.names.Nodup
  digested : ∀ g ∈ s.digest, g.filename.head? = some 71 ∧ s.files (articleName g.filename) = true
  consistent : s.Consistent

namespace DigestInv

theorem dir_nodup (I : DigestInv s) : (s.dir.map (·.filename)).Nodup :=
  (List.nodup_append.mp I.distinct).1

theorem named_dir (I : DigestInv s) (h : hdr ∈ s.dir) :
    hdr.filename.head? = some 77 ∧ s.files hdr.filename = true :=
  I.named _ (List.mem_append_left _ (List.mem_map_of_mem h))

/-- Articles move; the digest stays as it is. -/
theorem moves (I : DigestInv s) (hdigest : s'.digest = s.digest) (hfiles : s'.files = s.files)
    (hnames : s'.names.Perm s.names)
    (hflag : ∀ hdr ∈ s'.dir, hdr ∈ s.dir ∨ hdr.has fileDigest = false ∧
      ∀ g ∈ s.digest, g.filename ≠ digestName hdr.filename) : DigestInv s' := by
  refine ⟨fun n hn => ?_, hnames.nodup_iff.mpr I.distinct, ?_, fun hdr hhdr => ?_, ?_⟩
  · rw [hfiles]
    exact I.named n (hnames.mem_iff.mp hn)
  · rw [hdigest, hfiles]
    exact I.digested
  · rw [hdigest]
    rcases hflag hdr hhdr with hold | ⟨hclear, hnone⟩
    · exact I.consistent.flag hdr hold
    · rw [hclear]
      constructor
      · exact nofun
      · rintro ⟨g, hg, hname⟩
        exact absurd hname (hnone g hg)
  · rw [hdigest]
    exact I.consistent.nodup

theorem delPost (I : DigestInv s) {dir selected : List ArticleHeader} (owned : Bool)
    (h : deleteFile ent (hasName fileinfo.filename) s.dir = some (dir, selected)) :
    DigestInv ({ s with dir }.cancelpost fileinfo owned) := by
  obtain ⟨x, hx, -, hperm⟩ := deleteFile_selected h
  have hname : x.filename = fileinfo.filename := of_decide_eq_true hx
  refine I.moves rfl rfl ?_ fun hdr hhdr => .inl (hperm.mem_iff.mpr (List.mem_cons_of_mem x hhdr))
  have hdir := (hperm.map (·.filename)).append_right s.trashNames
  refine List.Perm.trans ?_ hdir.symm
  rw [List.map_cons, hname]
  exact ((cancelpost_trashNames { s with dir } fileinfo owned).append_left _).trans
    List.perm_middle

theorem delRange (I : DigestInv s) {id1 id2 : Int} {dir deleted : List ArticleHeader}
    (h : processRecords id1 id2 (fun _ => keepsRecord) s.dir = some (dir, deleted)) :
    DigestInv (deleted.foldl (cancelpost · · false) { s with dir }) := by
  obtain ⟨hsub, hperm⟩ := processRecords_divides h
  obtain ⟨hdir, hdigest, hfiles, htrash⟩ := foldl_cancelpost { s with dir } deleted false
  refine I.moves hdigest hfiles ?_ fun hdr hhdr => .inl (hsub.mem (by rwa [hdir] at hhdr))
  have hall := (hperm.map (·.filename)).append_right s.trashNames
  refine List.Perm.trans ?_ hall
  rw [names, hdir, List.map_append, List.append_assoc]
  exact htrash.append_left _

theorem sortDir (I : DigestInv s) : DigestInv s.sortDir := by
  have hperm : s.sortDir.dir.Perm s.dir := List.mergeSort_perm ..
  exact I.moves rfl rfl ((hperm.map _).append_right _) fun hdr hhdr => .inl (hperm.mem_iff.mp hhdr)

end DigestInv

/-- The header with the number is not restored once more, and the digest has nothing under its
name. -/
def restorable (s : DigestBoard) (hdr : ArticleHeader) : Bool :=
  hdr.has fileForwarded || s.digest.all fun g => g.filename != digestName hdr.filename

/-- What `undel_rangecheck` moves. -/
structure Restores (s s' : DigestBoard) (range range' : List ArticleHeader) : Prop where
  digest : s'.digest = s.digest
  files : s'.files = s.files
  trash : s'.trash = s.trash
  dir : ∃ restored : List ArticleHeader, s'.dir = s.dir ++ restored ∧
    (∀ hdr ∈ restored,
      hdr.flag = 0 ∧ ∃ fileinfo ∈ waiting range, fileinfo.filename = hdr.filename) ∧
    ((waiting range).map (·.filename)).Perm
      (restored.map (·.filename) ++ (waiting range').map (·.filename))

theorem Restores.refl (s : DigestBoard) (range : List ArticleHeader) : Restores s s range range :=
  ⟨rfl, rfl, rfl, [], (List.append_nil _).symm, nofun, .refl _⟩

theorem Restores.append {s₁ s₂ : DigestBoard} {r₁ r₁' r₂ r₂' : List ArticleHeader}
    (h₁ : Restores s s₁ r₁ r₁') (h₂ : Restores s₁ s₂ r₂ r₂') :
    Restores s s₂ (r₁ ++ r₂) (r₁' ++ r₂') := by
  obtain ⟨l₁, hdir₁, hrestored₁, hperm₁⟩ := h₁.dir
  obtain ⟨l₂, hdir₂, hrestored₂, hperm₂⟩ := h₂.dir
  refine ⟨h₂.digest.trans h₁.digest, h₂.files.trans h₁.files, h₂.trash.trans h₁.trash, l₁ ++ l₂,
    by rw [hdir₂, hdir₁, List.append_assoc], fun hdr hhdr => ?_, ?_⟩
  · rw [waiting_append]
    rcases List.mem_append.mp hhdr with h | h
    · obtain ⟨hflag, fileinfo, hmem, hname⟩ := hrestored₁ hdr h
      exact ⟨hflag, fileinfo, List.mem_append_left _ hmem, hname⟩
    · obtain ⟨hflag, fileinfo, hmem, hname⟩ := hrestored₂ hdr h
      exact ⟨hflag, fileinfo, List.mem_append_right _ hmem, hname⟩
  · simp only [waiting_append, List.map_append]
    refine (hperm₁.append hperm₂).trans ?_
    rw [List.append_assoc, List.append_assoc]
    exact (List.perm_append_comm_assoc ..).append_left _

theorem undeleteArticle_restores {s' : DigestBoard} {fileinfo' : ArticleHeader}
    (hold : fileinfo.has fileForwarded = false)
    (h : s.undeleteArticle fileinfo = some (s', fileinfo')) :
    Restores s s' [fileinfo] [fileinfo'] ∧ fileinfo' = fileinfo.setFlag fileForwarded := by
  unfold undeleteArticle at h
  split at h
  · cases h
    have hwaits : waiting [fileinfo] = [fileinfo] := List.filter_cons_of_pos (by simp [hold])
    have hset : (fileinfo.setFlag fileForwarded).has fileForwarded = true :=
      ArticleHeader.has_setFlag _ (by decide)
    have hnew : waiting [fileinfo.setFlag fileForwarded] = [] :=
      List.filter_cons_of_neg (by simp [hset])
    refine ⟨⟨rfl, rfl, rfl, [_], rfl, fun hdr hhdr => ?_, ?_⟩, rfl⟩
    · rw [List.mem_singleton.mp hhdr, hwaits]
      exact ⟨rfl, fileinfo, List.mem_singleton.mpr rfl, rfl⟩
    · rw [hwaits, hnew]
      exact .refl _
  · cases h

theorem undelRecords_restores (s : DigestBoard) (range : List ArticleHeader) :
    Restores s (s.undelRecords range).1 range (s.undelRecords range).2 := by
  induction range generalizing s with
  | nil => exact .refl s []
  | cons fileinfo range ih =>
    have hfirst : Restores s (s.undelRangecheck fileinfo).1 [fileinfo]
        [(s.undelRangecheck fileinfo).2] := by
      unfold undelRangecheck
      split
      · exact .refl s _
      · rename_i hold
        cases h : s.undeleteArticle fileinfo with
        | none => exact .refl s _
        | some p => exact (undeleteArticle_restores (Bool.eq_false_iff.mpr hold) h).1
    exact hfirst.append (ih _)

/-- The headers of the range go from the trash to the board. -/
theorem DigestInv.restores (I : DigestInv s) {junk : Bool}
    {range range' front back : List ArticleHeader} (h : Restores s s' range range')
    (hlist : s.trash junk = front ++ range ++ back)
    (hrange : ∀ hdr ∈ range, s.restorable hdr = true) : DigestInv { s' with
      trash := Function.update s'.trash junk (front ++ range' ++ back) } := by
  obtain ⟨restored, hdir, hrestored, hperm⟩ := h.dir
  refine I.moves h.digest h.files ?_ fun hdr hhdr => ?_
  · have hlists : ((waiting (s.trash junk)).map (·.filename)).Perm (restored.map (·.filename) ++
        (waiting (front ++ range' ++ back)).map (·.filename)) := by
      simp only [hlist, waiting_append, List.map_append]
      refine ((hperm.append_left _).append_right _).trans ?_
      rw [List.append_assoc, List.append_assoc, List.append_assoc]
      exact List.perm_append_comm_assoc ..
    have htrash := trashNames_update (s := s) [] _ hlists
    rw [names, names, hdir, h.trash, List.map_append, List.append_assoc]
    exact (htrash.symm).append_left _
  · have hhdr : hdr ∈ s.dir ++ restored := hdir ▸ hhdr
    rcases List.mem_append.mp hhdr with hold | hnew
    · exact .inl hold
    · obtain ⟨hflag, fileinfo, hwaits, hname⟩ := hrestored hdr hnew
      obtain ⟨hmem, hold⟩ := List.mem_filter.mp hwaits
      have hfree := hrange fileinfo hmem
      rw [Bool.not_eq_true'] at hold
      rw [restorable, hold, Bool.false_or, List.all_eq_true] at hfree
      refine .inr ⟨ArticleHeader.has_zero hflag _, fun g hg => ?_⟩
      rw [← hname]
      exact bne_iff_ne.mp (hfree g hg)

namespace DigestInv
variable {i : Nat} {digest : List ArticleHeader} {f : Bytes → Bool}

theorem names_set (s : DigestBoard) (hi : s.dir[i]? = some fileinfo) (hdr : ArticleHeader)
    (h : hdr.filename = fileinfo.filename) (digest : List ArticleHeader) (f : Bytes → Bool) :
    (DigestBoard.mk (s.dir.set i hdr) digest s.trash f).names = s.names := by
  have hmap : (s.dir.set i hdr).map (·.filename) = s.dir.map (·.filename) := map_key_set hi h
  exact congrArg (· ++ s.trashNames) hmap

/-- An article comes into the digest. -/
theorem put (I : DigestInv s) (hi : s.dir[i]? = some fileinfo)
    (hflag : fileinfo.has fileDigest = false) (header : ArticleHeader)
    (hname : header.filename = digestName fileinfo.filename)
    (hf : ∀ n, s.files n = true → f n = true) :
    DigestInv ⟨s.dir.set i (fileinfo.setFlag fileDigest), s.digest ++ [header], s.trash, f⟩ := by
  have hmem := List.mem_of_getElem? hi
  obtain ⟨hhead, hfile⟩ := I.named_dir hmem
  have hnames := names_set s hi (fileinfo.setFlag fileDigest) rfl (s.digest ++ [header]) f
  have hfresh : ∀ g ∈ s.digest, g.filename ≠ header.filename := by
    intro g hg heq
    rw [hname] at heq
    rw [(I.consistent.flag fileinfo hmem).mpr ⟨g, hg, heq⟩] at hflag
    cases hflag
  refine ⟨fun n hn => ?_, ?_, fun g hg => ?_, fun hdr hhdr => ?_, ?_⟩
  · rw [hnames] at hn
    exact ⟨(I.named n hn).1, hf n (I.named n hn).2⟩
  · rw [hnames]
    exact I.distinct
  · rcases List.mem_append.mp hg with hg | hg
    · exact ⟨(I.digested g hg).1, hf _ (I.digested g hg).2⟩
    · rw [List.mem_singleton.mp hg, hname, articleName_digestName hhead]
      exact ⟨rfl, hf _ hfile⟩
  · rcases (mem_set_iff_key I.dir_nodup hi).mp hhdr with rfl | ⟨hhdr, hne⟩
    · refine ⟨fun _ => ⟨header, ?_, hname⟩, fun _ => ArticleHeader.has_setFlag _ (by decide)⟩
      exact List.mem_append_right _ (List.mem_singleton.mpr rfl)
    · rw [I.consistent.flag hdr hhdr]
      constructor
      · rintro ⟨g, hg, hgname⟩
        exact ⟨g, List.mem_append_left _ hg, hgname⟩
      · rintro ⟨g, hg, hgname⟩
        rcases List.mem_append.mp hg with hg | hg
        · exact ⟨g, hg, hgname⟩
        · rw [List.mem_singleton.mp hg, hname] at hgname
          exact absurd (digestName_inj hhead (I.named_dir hhdr).1 hgname).symm hne
  · rw [List.map_append, List.nodup_append]
    refine ⟨I.consistent.nodup, List.nodup_singleton _, fun n hn m hm => ?_⟩
    obtain ⟨g, hg, rfl⟩ := List.mem_map.mp hn
    rw [List.map_singleton, List.mem_singleton] at hm
    exact hm ▸ hfresh g hg

/-- A header leaves the digest; the article, if the board has it, loses the flag. -/
theorem take (I : DigestInv s) {g : ArticleHeader} (hg : s.digest.Perm (g :: digest))
    {dir : List ArticleHeader} (hdir : dir.map (·.filename) = s.dir.map (·.filename))
    (hflag : ∀ hdr ∈ dir, hdr ∈ s.dir ∧ digestName hdr.filename ≠ g.filename ∨
      hdr.has fileDigest = false ∧ digestName hdr.filename = g.filename)
    (hf : ∀ n, n.head? = some 77 → s.files n = true → f n = true) :
    DigestInv ⟨dir, digest, s.trash, f⟩ := by
  have hnames : (DigestBoard.mk dir digest s.trash f).names = s.names :=
    congrArg (· ++ s.trashNames) hdir
  refine ⟨fun n hn => ?_, ?_, fun g' hg' => ?_, fun hdr hhdr => ?_, ?_⟩
  · rw [hnames] at hn
    exact ⟨(I.named n hn).1, hf n (I.named n hn).1 (I.named n hn).2⟩
  · rw [hnames]
    exact I.distinct
  · obtain ⟨hhead, hfile⟩ := I.digested g' (hg.mem_iff.mpr (List.mem_cons_of_mem g hg'))
    exact ⟨hhead, hf _ rfl hfile⟩
  · have hmem (g' : ArticleHeader) : g' ∈ digest ↔ g' ∈ s.digest ∧ g'.filename ≠ g.filename :=
      mem_rest_iff_key I.consistent.nodup hg
    rcases hflag hdr hhdr with ⟨hold, hne⟩ | ⟨hclear, heq⟩
    · rw [I.consistent.flag hdr hold]
      constructor
      · rintro ⟨g', hg', hname⟩
        exact ⟨g', (hmem g').mpr ⟨hg', hname ▸ hne⟩, hname⟩
      · rintro ⟨g', hg', hname⟩
        exact ⟨g', ((hmem g').mp hg').1, hname⟩
    · rw [hclear]
      constructor
      · exact nofun
      · rintro ⟨g', hg', hname⟩
        exact absurd (hname.trans heq) ((hmem g').mp hg').2
  · exact nodup_rest I.consistent.nodup hg

/-- The article at `i` is the one that loses the flag. -/
theorem takeAt (I : DigestInv s) {g : ArticleHeader} (hg : s.digest.Perm (g :: digest))
    (hi : s.dir[i]? = some fileinfo) (hname : digestName fileinfo.filename = g.filename)
    (hf : ∀ n, n.head? = some 77 → s.files n = true → f n = true) :
    DigestInv ⟨s.dir.set i (fileinfo.clearFlag fileDigest), digest, s.trash, f⟩ := by
  refine I.take hg (map_key_set hi rfl) (fun hdr hhdr => ?_) hf
  rcases (mem_set_iff_key I.dir_nodup hi).mp hhdr with rfl | ⟨hhdr, hne⟩
  · exact .inr ⟨ArticleHeader.has_clearFlag _ _, hname⟩
  · refine .inl ⟨hhdr, fun heq => hne ?_⟩
    exact digestName_inj (I.named_dir hhdr).1 (I.named_dir (List.mem_of_getElem? hi)).1
      (heq.trans hname.symm)

theorem unlink_files (s : DigestBoard) {name : Bytes} (hname : name.head? = some 71) :
    ∀ n, n.head? = some 77 → s.files n = true → Function.update s.files name false n = true := by
  intro n hn hfile
  rw [Function.update_of_ne]
  · exact hfile
  · rintro rfl
    cases hn.symm.trans hname

theorem createFile_files (s : DigestBoard) (name : Bytes) :
    ∀ n, s.files n = true → Function.update s.files name true n = true := by
  intro n hn
  rcases eq_or_ne n name with rfl | hne
  · exact Function.update_self ..
  · rwa [Function.update_of_ne hne]

/-- An article is posted. -/
theorem post (I : DigestInv s) (hhead : hdr.filename.head? = some 77)
    (hfresh : s.files hdr.filename = false) (hflag : hdr.has fileDigest = false) :
    DigestInv { s.createFile hdr.filename with dir := s.dir ++ [hdr] } := by
  have hfiles := createFile_files s hdr.filename
  have hnames : ({ s.createFile hdr.filename with dir := s.dir ++ [hdr] } : DigestBoard).names.Perm
      (hdr.filename :: s.names) := by
    rw [names, List.map_append]
    exact (List.perm_append_comm.append_right s.trashNames)
  refine ⟨fun n hn => ?_, ?_, fun g hg => ?_, fun hdr' hhdr' => ?_, I.consistent.nodup⟩
  · rcases List.mem_cons.mp (hnames.mem_iff.mp hn) with rfl | hn
    · exact ⟨hhead, Function.update_self ..⟩
    · exact ⟨(I.named n hn).1, hfiles n (I.named n hn).2⟩
  · rw [hnames.nodup_iff, List.nodup_cons]
    refine ⟨fun hn => ?_, I.distinct⟩
    cases hfresh.symm.trans (I.named _ hn).2
  · exact ⟨(I.digested g hg).1, hfiles _ (I.digested g hg).2⟩
  · rcases List.mem_append.mp hhdr' with hold | hnew
    · exact I.consistent.flag hdr' hold
    · obtain rfl := List.mem_singleton.mp hnew
      rw [hflag]
      constructor
      · exact nofun
      · -- the digest names only articles that have their files
        rintro ⟨g, hg, hname⟩
        have hfile := (I.digested g hg).2
        rw [hname, articleName_digestName hhead] at hfile
        cases hfresh.symm.trans hfile

/-- The articles of the board are not named like those of the digest. -/
theorem head_ne (I : DigestInv s) (h : hdr ∈ s.dir) : hdr.filename.head? ≠ some 71 := by
  rw [(I.named_dir h).1]
  exact nofun

/-- `dodigest` on an article of the board that is not in the digest. -/
theorem dodigest_put (I : DigestInv s) (h : headerAt s.dir ent = some fileinfo)
    (hflag : fileinfo.has fileDigest = false) :
    DigestInv (s.dodigest false ent fileinfo false) := by
  obtain ⟨i, rfl, hi⟩ := headerAt_some h
  have hmem := List.mem_of_getElem? hi
  have hput := fun f => I.put hi hflag (f := f) { fileinfo with
    filename := digestName fileinfo.filename, flag := fileinfo.flag &&& fileAttached } rfl
  have hdir := safeSubstituteRecord_eq hi (fileinfo.setFlag fileDigest) rfl true
  have hsearch : searchFilename s.digest (digestName fileinfo.filename) = none := by
    rw [searchFilename, List.findIdx?_eq_none_iff]
    intro g hg
    refine decide_eq_false fun hname => ?_
    rw [(I.consistent.flag fileinfo hmem).mpr ⟨g, hg, hname⟩] at hflag
    cases hflag
  rw [dodigest, if_neg Bool.false_ne_true, if_neg Bool.false_ne_true]
  dsimp only
  rw [if_neg (I.head_ne hmem), (I.named_dir hmem).2, if_neg (by exact nofun)]
  split
  · rw [createFile, hdir]
    exact hput _ (createFile_files s _)
  · rw [hsearch, if_neg (by exact nofun), hdir]
    exact hput _ fun n hn => hn

/-- `dodigest` on an article of the board that is in the digest. -/
theorem dodigest_take (I : DigestInv s) (h : headerAt s.dir ent = some fileinfo)
    (hflag : fileinfo.has fileDigest = true) : DigestInv (s.dodigest false ent fileinfo true) := by
  obtain ⟨i, rfl, hi⟩ := headerAt_some h
  have hmem := List.mem_of_getElem? hi
  have hdir := safeSubstituteRecord_eq hi (fileinfo.clearFlag fileDigest) rfl true
  obtain ⟨g, hg, hname⟩ := (I.consistent.flag fileinfo hmem).mp hflag
  rw [dodigest, if_neg Bool.false_ne_true, if_pos rfl]
  dsimp only
  cases hdelete : deleteFile 1 (hasName (digestName fileinfo.filename)) s.digest with
  | none => exact absurd (deleteFile_eq_none hdelete g hg) (by simp [hasName, hname])
  | some p =>
    obtain ⟨x, hx, -, hperm⟩ := deleteFile_selected hdelete
    have hxname : x.filename = digestName fileinfo.filename := of_decide_eq_true hx
    change DigestInv ⟨safeSubstituteRecord s.dir _ _ _, p.1, s.trash, _⟩
    rw [hdir]
    exact I.takeAt hperm hi hxname.symm (unlink_files s rfl)

/-- `dodigest` on an article of the digest. -/
theorem dodigest_undigest (I : DigestInv s) (h : headerAt s.digest ent = some fileinfo) :
    DigestInv (s.dodigest true ent fileinfo true) := by
  obtain ⟨i, rfl, hi⟩ := headerAt_some h
  have hhead := (I.digested fileinfo (List.mem_of_getElem? hi)).1
  rw [dodigest, if_pos rfl, if_neg (by exact nofun)]
  cases hdelete : deleteRecord ((i + 1 : Nat) : Int) s.digest with
  | none => exact I
  | some p =>
    obtain ⟨x, hx, -, hperm⟩ := deleteRecord_selected hdelete
    obtain rfl : fileinfo = x := Option.some.inj (hi.symm.trans hx)
    dsimp only [unlink]
    split
    case h_1 pos hpos =>
      obtain ⟨hlt, hname, -⟩ := List.findIdx?_eq_some_iff_getElem.mp hpos
      have hpos' := List.getElem?_eq_getElem hlt
      have hname : s.dir[pos].filename = articleName fileinfo.filename := of_decide_eq_true hname
      rw [hpos']
      dsimp only
      rw [safeSubstituteRecord_eq hpos' (s.dir[pos].clearFlag fileDigest) rfl]
      refine I.takeAt hperm hpos' ?_ (unlink_files s hhead)
      rw [hname, digestName_articleName hhead]
    case h_2 hnone =>
      refine I.take hperm rfl (fun hdr hhdr => .inl ⟨hhdr, fun heq => ?_⟩) (unlink_files s hhead)
      have hno := List.findIdx?_eq_none_iff.mp hnone hdr hhdr
      have hname : hdr.filename = articleName fileinfo.filename := by
        rw [← heq, articleName_digestName (I.named_dir hhdr).1]
      rw [hasName, decide_eq_true hname] at hno
      cases hno

/-- `undel_post` -/
theorem undelete (I : DigestInv s) {junk : Bool} {fileinfo' : ArticleHeader}
    (h : headerAt (s.trash junk) ent = some fileinfo) (hold : fileinfo.has fileForwarded = false)
    (hfree : s.restorable fileinfo = true)
    (harticle : s.undeleteArticle fileinfo = some (s', fileinfo')) :
    DigestInv { s' with
      trash := Function.update s'.trash junk
        (safeSubstituteRecord (s'.trash junk) fileinfo' ent false) }.sortDir := by
  obtain ⟨i, rfl, hi⟩ := headerAt_some h
  obtain ⟨hrestores, rfl⟩ := undeleteArticle_restores hold harticle
  obtain ⟨hlt, hget⟩ := List.getElem?_eq_some_iff.mp hi
  have hlist : s.trash junk =
      (s.trash junk).take i ++ [fileinfo] ++ (s.trash junk).drop (i + 1) := by
    rw [List.append_assoc, List.singleton_append, ← hget, ← List.drop_eq_getElem_cons hlt,
      List.take_append_drop]
  have hset := List.set_eq_take_append_cons_drop (l := s.trash junk) (i := i)
    (a := fileinfo.setFlag fileForwarded)
  rw [if_pos hlt] at hset
  rw [hrestores.trash, safeSubstituteRecord_eq hi (fileinfo.setFlag fileForwarded) rfl, hset]
  have I' := I.restores hrestores hlist fun hdr hhdr => List.mem_singleton.mp hhdr ▸ hfree
  rw [hrestores.trash, List.append_assoc, List.singleton_append] at I'
  exact I'.sortDir

/-- `undel_range` -/
theorem undelRange (I : DigestInv s) {junk : Bool} {n m : Nat} {range : List ArticleHeader}
    (hfree : ∀ hdr ∈ ((s.trash junk).drop n).take m, s.restorable hdr = true)
    (h : s.undelRecords (((s.trash junk).drop n).take m) = (s', range)) :
    DigestInv { s' with
      trash := Function.update s'.trash junk
        ((s.trash junk).take n ++ range ++ (s.trash junk).drop (n + m)) }.sortDir := by
  have hlist : s.trash junk =
      (s.trash junk).take n ++ ((s.trash junk).drop n).take m ++ (s.trash junk).drop (n + m) := by
    rw [List.append_assoc, ← List.drop_drop, List.take_append_drop, List.take_append_drop]
  have hrestores := undelRecords_restores s (((s.trash junk).drop n).take m)
  rw [h] at hrestores
  exact (I.restores hrestores hlist hfree).sortDir

theorem empty : DigestInv empty :=
  ⟨nofun, List.nodup_nil, nofun, ⟨nofun, List.nodup_nil⟩⟩

end DigestInv

/-! ## Every run -/

/-- An article is restored only if the digest has nothing under its name. -/
def MayDo (s : DigestBoard) : DigestOp → Prop
  | .undelete junk ent => ∀ hdr ∈ headerAt (s.trash junk) ent, s.restorable hdr = true
  | .undelRange junk inum1 inum2 =>
    ∀ hdr ∈ ((s.trash junk).drop (inum1 - 1)).take (inum2 - inum1 + 1), s.restorable hdr = true
  | _ => True

theorem DigestInv.step (I : DigestInv s) {op : DigestOp} (hmay : s.MayDo op)
    (h : s.step op = some s') : DigestInv s' := by
  cases op with
  | post header =>
    obtain ⟨hpost, hs'⟩ := Option.ite_none_right_eq_some.mp h
    cases hs'
    exact I.post hpost.1 hpost.2.1 hpost.2.2
  | digest ent =>
    obtain ⟨fileinfo, hent, rfl⟩ := Option.map_eq_some_iff.mp h
    cases hflag : fileinfo.has fileDigest with
    | true => exact I.dodigest_take hent hflag
    | false => exact I.dodigest_put hent hflag
  | undigest ent =>
    obtain ⟨fileinfo, hent, rfl⟩ := Option.map_eq_some_iff.mp h
    exact I.dodigest_undigest hent
  | delPost ent owned =>
    obtain ⟨fileinfo, -, rfl⟩ := Option.map_eq_some_iff.mp h
    cases hdelete : deleteFile ent (hasName fileinfo.filename) s.dir with
    | none => exact I
    | some p => exact I.delPost owned hdelete
  | delRange inum1 inum2 =>
    obtain ⟨-, h⟩ := Option.ite_none_left_eq_some.mp h
    cases hdelete : processRecords inum1 inum2 (fun _ => keepsRecord) s.dir with
    | none =>
      rw [hdelete] at h
      cases h
      exact I
    | some p =>
      rw [hdelete] at h
      cases h
      exact I.delRange hdelete
  | undelete junk ent =>
    obtain ⟨fileinfo, hent, rfl⟩ := Option.map_eq_some_iff.mp h
    split
    · exact I
    · rename_i hold
      cases harticle : s.undeleteArticle fileinfo with
      | none => exact I
      | some p => exact I.undelete hent (Bool.eq_false_iff.mpr hold) (hmay fileinfo hent) harticle
  | undelRange junk inum1 inum2 =>
    obtain ⟨hrange, h⟩ := Option.ite_none_left_eq_some.mp h
    have hend : inum1 - 1 + (inum2 - inum1 + 1) = inum2 := by omega
    cases h
    have I' := I.undelRange (m := inum2 - inum1 + 1) hmay rfl
    rw [hend] at I'
    exact I'

instance (s : DigestBoard) (op : DigestOp) : Decidable (s.MayDo op) := by
  cases op <;> unfold MayDo <;> infer_instance

/-- A run in which an article is restored only if the digest has nothing under its name leaves the
digest consistent in every state. -/
theorem digest_consistent (h : Reach step MayDo empty s) : s.Consistent :=
  (h.invariant DigestInv DigestInv.empty fun _ _ _ I hmay hs => I.step hmay hs).consistent

def demoArticle : ArticleHeader := ⟨⟨[77, 46, 49], 1⟩, 0⟩

/-- The article is put into the digest, taken out of it, deleted, restored and put into it again. -/
def demoRestored : List DigestOp :=
  [.post demoArticle, .digest 1, .undigest 1, .delPost 1 true, .undelete true 1, .digest 1]

theorem digest_consistent_restored : ∃ s : DigestBoard,
    s.dir = [demoArticle.setFlag fileDigest] ∧ s.digest.length = 1 ∧ s.Consistent := by
  have hrun : Reach.Meets step MayDo empty demoRestored := by decide +kernel
  obtain ⟨s, hs, h⟩ := Reach.of_meets _ hrun
  have hlists : (demoRestored.foldlM step empty).map (fun s => (s.dir, s.digest.length)) =
      some ([demoArticle.setFlag fileDigest], 1) := by decide +kernel
  rw [hs] at hlists
  obtain ⟨hdir, hdigest⟩ := Prod.mk.inj (Option.some.inj hlists)
  exact ⟨s, hdir, hdigest, digest_consistent h⟩

/-- An article of the digest is deleted and restored. -/
def demoKept : List DigestOp := [.post demoArticle, .digest 1, .delPost 1 true, .undelete true 1]

theorem undelete_inconsistent :
    ¬∀ s : DigestBoard, Reach step (fun _ _ => True) empty s → s.Consistent := by
  intro hclaim
  have hrun : Reach.Meets step (fun _ _ => True) empty demoKept := by decide +kernel
  obtain ⟨s, hs, h⟩ := Reach.of_meets _ hrun
  have hlists : (demoKept.foldlM step empty).map (fun s => (s.dir, s.digest)) =
      some ([demoArticle], [⟨⟨digestName demoArticle.filename, 1⟩, 0⟩]) := by decide +kernel
  rw [hs] at hlists
  obtain ⟨hdir, hdigest⟩ := Prod.mk.inj (Option.some.inj hlists)
  have hflag := ((hclaim s h).flag demoArticle (by rw [hdir]; exact List.mem_singleton.mpr rfl)).mpr
    ⟨_, by rw [hdigest]; exact List.mem_singleton.mpr rfl, rfl⟩
  exact absurd hflag (by decide)

end DigestBoard

end ArgoBbs

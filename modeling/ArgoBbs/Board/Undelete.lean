import ArgoBbs.Board.Digest
import ArgoBbs.Consts
import ArgoBbs.Lib.Fgets
import Mathlib.Data.List.DropRight

/-! # Restoring a deleted post

`cancelpost` appends the record of a deleted post to `.DELETED` or `.JUNK`, with the id of who has
deleted it behind the title in most cases, and `undelete_article` appends it to `.DIR` again
(`bbs.c`). The title is then that of the post's own title line, or what stands before the last `-`
of the trash entry without the blanks before this. -/

namespace ArgoBbs

/-- The string in a `title` of a header. -/
structure Title where
  text : Bytes
  noNul : 0 ∉ text
  fits : text.length < titleLen

/-- What `strlcpy` and `snprintf` leave of a string in a `title`. -/
def Title.ofBytes (s : Bytes) : Title where
  text := strlcpy titleLen (s.takeWhile (· ≠ 0))
  noNul h := by simpa using List.mem_takeWhile_imp (List.mem_of_mem_take h)
  fits := by
    rw [strlcpy, List.length_take]
    exact Nat.lt_of_le_of_lt (Nat.min_le_left ..) (by decide)

/-- `struct fileheader` -/
structure Article where
  filename : Bytes
  owner : Bytes
  realowner : Bytes
  title : Title
  flag : BitVec 32
  size : BitVec 32
  id : BitVec 32
  filetime : Int
  reserved : Bytes

inductive TrashDir
  | deleted
  | junk

/-- The title of the trash entry. -/
def trashTitle (userid : Bytes) (fh : Article) (keepid : Bool) : Title :=
  if keepid then .ofBytes (padRight 32 (fh.title.text.take 32) ++ bytes " - " ++ userid)
  else fh.title

/-- The record that `cancelpost` appends, and where; in the mailbox (`RMAIL`) the file is removed
instead. -/
def cancelpost (rmail : Bool) (userid : Bytes) (fh : Article) (owned keepid : Bool) :
    Option (TrashDir × Article) :=
  if rmail then none
  else
    some (if owned then .junk else .deleted,
      { fh with title := trashTitle userid fh keepid, flag := 0 })

/-- The first eight bytes of the title line. -/
def titleMark : Bytes := bytes "\xb1\xea  \xcc\xe2: "

/-- What stands behind the mark in the title line of a post. -/
def titleLine (body : Bytes) : Option Bytes :=
  ((fgetsLines body).find? (strncmpEq · titleMark 8)).map (·.drop 8)

/-- The string before the last `c` in it, if there is one: `*strrchr(s, c) = '\0'`. -/
def cutAtLast (c : UInt8) (s : Bytes) : Bytes :=
  if c ∈ s then (s.rdropWhile (· ≠ c)).dropLast else s

/-- The loop that goes back over blanks, in the reversed string before `ptr`. Its condition is about
`ptr` and holds always, so at the start of the title it goes on to what stands before this. -/
def backOverBlanks : Bytes → Option Bytes
  | [] => none
  | c :: before => if c ≠ 32 then some (c :: before).reverse else backOverBlanks before

/-- The title that is made of that of the trash entry. -/
def defaultTitle (title : Bytes) : Option Bytes :=
  if 45 ∈ title then backOverBlanks (cutAtLast 45 title).reverse else some title

/-- The title that a post gets with the title of its trash entry. -/
def restoredTitle (body title : Bytes) : Option Bytes :=
  match titleLine body with
  | some line => some (cutAtLast 10 (strlcpy titleLen line))
  | none => defaultTitle title

/-- How `undelete_article` ends: there is no file of the post; memory before the title is accessed;
the first record is appended to `.DIR`, and the second is the trash entry then. -/
inductive Undeleted
  | failed
  | outside
  | restored (header fileinfo : Article)

def restoredNote (userid : Bytes) : Bytes :=
  bytes "<< \xb1\xbe\xce\xc4\xd2\xd1\xb1\xbb " ++ userid ++
    bytes " \xbb\xd6\xb8\xb4\xd6\xc1\xb0\xe6\xc3\xe6 >>"

def undeleteArticle (userid : Bytes) (file : Option Bytes) (fileinfo : Article) : Undeleted :=
  match file with
  | none => .failed
  | some body =>
    match restoredTitle body fileinfo.title.text with
    | none => .outside
    | some title =>
      .restored { fileinfo with title := .ofBytes title, flag := 0 } { fileinfo with
        title := .ofBytes (restoredNote userid), flag := fileinfo.flag ||| fileForwarded }

/-- The title that is to be restored; without a title line it is the one of the trash entry. -/
def keptTitle (body : Bytes) (fh : Article) (keepid : Bool) : Bytes :=
  if (titleLine body).isNone && keepid then fh.title.text.take 32 else fh.title.text

/-- The post of the record and the body comes back as it was. -/
def Restores (deleter restorer body : Bytes) (fh : Article) (owned keepid : Bool) : Prop :=
  ∃ dir entry header fileinfo, cancelpost false deleter fh owned keepid = some (dir, entry) ∧
    undeleteArticle restorer (some body) entry = .restored header fileinfo ∧
    header.filename = fh.filename ∧ header.owner = fh.owner ∧ header.id = fh.id ∧
    header.filetime = fh.filetime ∧ header.title.text = keptTitle body fh keepid

/-- The title line says the title, or what fits of the line is the title. Without a title line, the
title is to end with something else than a blank before the id of the deleter, in which there is no
`-`; and where the id does not stand behind it, there is to be no `-` in the title. -/
def Restorable (deleter body : Bytes) (fh : Article) (keepid : Bool) : Prop :=
  match titleLine body with
  | some line => 10 ∉ fh.title.text ∧ (line = fh.title.text ∨ line = fh.title.text ++ [10] ∨
      fh.title.text.length + 1 = titleLen ∧ fh.title.text <+: line)
  | none =>
    if keepid then 45 ∉ deleter ∧ ∃ c, (fh.title.text.take 32).getLast? = some c ∧ c ≠ 32
    else 45 ∉ fh.title.text

section
variable {c : UInt8} {s t before behind line body : Bytes}

theorem cutAtLast_of_not_mem (h : c ∉ s) : cutAtLast c s = s := if_neg h

theorem cutAtLast_append (h : c ∉ behind) : cutAtLast c (before ++ c :: behind) = before := by
  have hskip : (behind.reverse ++ c :: before.reverse).dropWhile (· ≠ c) = c :: before.reverse := by
    rw [List.dropWhile_append_of_pos]
    · simp
    · intro d hd
      have hne : d ≠ c := fun heq => h (heq ▸ List.mem_reverse.mp hd)
      exact decide_eq_true hne
  rw [cutAtLast, if_pos (by simp), List.rdropWhile, List.reverse_append, List.reverse_cons,
    List.append_assoc, List.singleton_append, hskip]
  simp

theorem cutAtLast_le (c : UInt8) (s : Bytes) : cutAtLast c s <+: s := by
  unfold cutAtLast
  split
  · exact (List.dropLast_prefix _).trans (List.rdropWhile_prefix ..)
  · exact List.prefix_refl _

/-- A byte of a string has a last place in it. -/
theorem exists_last (h : c ∈ s) : ∃ before behind, s = before ++ c :: behind ∧ c ∉ behind := by
  induction s with
  | nil => cases h
  | cons d s ih =>
    by_cases hs : c ∈ s
    · obtain ⟨before, behind, rfl, hbehind⟩ := ih hs
      exact ⟨d :: before, behind, rfl, hbehind⟩
    · obtain rfl := (List.mem_cons.mp h).resolve_right hs
      exact ⟨[], s, rfl, hs⟩

theorem Title.ofBytes_text (h0 : 0 ∉ s) (h : s.length < titleLen) : (Title.ofBytes s).text = s := by
  have hall : s.takeWhile (· ≠ 0) = s := by
    rw [List.takeWhile_eq_self_iff]
    intro c hc
    have hne : c ≠ 0 := fun heq => h0 (heq ▸ hc)
    exact decide_eq_true hne
  have htext : (Title.ofBytes s).text = strlcpy titleLen (s.takeWhile (· ≠ 0)) := rfl
  rw [htext, hall]
  exact List.take_of_length_le (Nat.le_sub_one_of_lt h)

/-! ## Back over the blanks -/

theorem backOverBlanks_replicate (n : Nat) (s : Bytes) :
    backOverBlanks (List.replicate n 32 ++ s) = backOverBlanks s := by
  induction n with
  | zero => rfl
  | succ n ih => rw [List.replicate_succ, List.cons_append, backOverBlanks, if_neg (by simp), ih]

theorem length_of_backOverBlanks (h : backOverBlanks s = some t) : t.length ≤ s.length := by
  induction s with
  | nil => cases h
  | cons c s ih =>
    unfold backOverBlanks at h
    split at h
    · rw [← Option.some.inj h, List.length_reverse]
    · exact Nat.le_succ_of_le (ih h)

/-- The scan goes to the last byte that is no blank and no further. -/
theorem length_lt_of_backOverBlanks (hc : c ≠ 32)
    (h : backOverBlanks (behind ++ c :: before) = some t) : before.length < t.length := by
  induction behind with
  | nil =>
    rw [List.nil_append, backOverBlanks, if_pos hc] at h
    simp [← Option.some.inj h]
  | cons d behind ih =>
    rw [List.cons_append, backOverBlanks] at h
    split at h
    · simp only [← Option.some.inj h, List.length_reverse, List.length_cons, List.length_append]
      omega
    · exact ih h

/-- Nothing is taken off just if there is a last byte and it is no blank. -/
theorem backOverBlanks_eq_self_iff :
    backOverBlanks s.reverse = some s ↔ ∃ c, s.getLast? = some c ∧ c ≠ 32 := by
  rcases List.eq_nil_or_concat' s with rfl | ⟨s, c, rfl⟩
  · simp [backOverBlanks]
  · rw [List.reverse_append, List.reverse_singleton, List.singleton_append, backOverBlanks]
    by_cases hc : c = 32
    · subst hc
      rw [if_neg (by simp)]
      refine iff_of_false (fun h => ?_) (by simp)
      have := length_of_backOverBlanks h
      simp only [List.length_append, List.length_reverse, List.length_singleton] at this
      omega
    · simp [hc]

/-! ## The title -/

/-- `strlcpy` leaves the newline of a line out or puts it at the end, where it is cut off. -/
theorem cutAtLast_strlcpy {size : Nat} (h : 10 ∉ s) (hline : line = s ∨ line = s ++ [10]) :
    cutAtLast 10 (strlcpy size line) = s.take (size - 1) := by
  have hall : cutAtLast 10 (s.take (size - 1)) = s.take (size - 1) :=
    cutAtLast_of_not_mem fun hmem => h (List.mem_of_mem_take hmem)
  rcases hline with rfl | rfl
  · exact hall
  · unfold strlcpy
    rcases Nat.lt_or_ge s.length (size - 1) with hlt | hge
    · rw [List.take_of_length_le (by simp; omega), cutAtLast_append (by simp),
        List.take_of_length_le (Nat.le_of_lt hlt)]
    · rw [List.take_append_of_le_length hge, hall]

/-- With a title line the title is what fits of it without the newline. -/
theorem title_of_titleLine (h : titleLine body = some line) :
    ∃ s : Bytes, 10 ∉ s ∧ 0 ∉ s ∧ (line = s ∨ line = s ++ [10]) ∧
      cutAtLast 10 (strlcpy titleLen line) = s.take (titleLen - 1) := by
  obtain ⟨piece, hpiece, rfl⟩ := Option.map_eq_some_iff.mp h
  obtain ⟨hzero, s, hs, hcase⟩ := newline_of_mem_fgetsLines (List.mem_of_find?_eq_some hpiece)
  have hmark := List.find?_some hpiece
  have hmark : piece.take 8 = titleMark := by simpa [strncmpEq, titleMark, bytes] using hmark
  have hs' : 10 ∉ s.drop 8 := fun hmem => hs (List.mem_of_mem_drop hmem)
  have hcase' : piece.drop 8 = s.drop 8 ∨ piece.drop 8 = s.drop 8 ++ [10] := by
    rcases hcase with rfl | rfl
    · exact .inl rfl
    · rcases Nat.lt_or_ge s.length 8 with hlt | hge
      · rw [List.take_of_length_le (by simp; omega)] at hmark
        have hmem : (10 : UInt8) ∈ titleMark := hmark ▸ List.mem_concat_self
        exact absurd hmem (by decide)
      · exact .inr (List.drop_append_of_le_length hge)
  refine ⟨s.drop 8, hs', fun hmem => hzero ?_, hcase', cutAtLast_strlcpy hs' hcase'⟩
  have hpre : s <+: piece := by rcases hcase with rfl | rfl <;> simp
  exact hpre.subset (List.mem_of_mem_drop hmem)

/-- What fits of the title line is the title. -/
theorem take_eq_title_iff (h : 10 ∉ s) (hline : line = s ∨ line = s ++ [10])
    (hfits : t.length < titleLen) : s.take (titleLen - 1) = t ↔
      10 ∉ t ∧ (line = t ∨ line = t ++ [10] ∨ t.length + 1 = titleLen ∧ t <+: line) := by
  have hmem : (10 : UInt8) ∈ s ++ [10] := List.mem_concat_self
  have hpre : s <+: line := by rcases hline with rfl | rfl <;> simp
  constructor
  · rintro rfl
    refine ⟨fun h' => h (List.mem_of_mem_take h'), ?_⟩
    rcases Nat.lt_or_ge (titleLen - 1) s.length with hlt | hge
    · refine .inr (.inr ⟨?_, (List.take_prefix ..).trans hpre⟩)
      rw [List.length_take, Nat.min_eq_left (Nat.le_of_lt hlt)]
      rfl
    · rw [List.take_of_length_le hge]
      exact hline.imp_right .inl
  · rintro ⟨h', hsame | hsame | ⟨hlength, hprefix⟩⟩
    · rcases hline with rfl | rfl
      · rw [hsame, List.take_of_length_le (Nat.le_sub_one_of_lt hfits)]
      · exact absurd (hsame ▸ hmem) h'
    · rcases hline with rfl | rfl
      · exact absurd (hsame ▸ List.mem_concat_self) h
      · rw [List.append_cancel_right hsame, List.take_of_length_le (Nat.le_sub_one_of_lt hfits)]
    · have htake : t = line.take (titleLen - 1) := by
        rw [List.prefix_iff_eq_take.mp hprefix]
        congr 1
        omega
      rcases hline with rfl | rfl
      · exact htake.symm
      · rcases Nat.lt_or_ge s.length (titleLen - 1) with hlt | hge
        · rw [List.take_of_length_le (by simp; omega)] at htake
          exact absurd (htake ▸ hmem) h'
        · rw [htake, List.take_append_of_le_length hge]

/-- Behind a title with the id of the deleter the last `-` is the one before the id, or in it. -/
theorem defaultTitle_padded_iff :
    defaultTitle (padRight 32 (s.take 32) ++ bytes " - " ++ t) = some (s.take 32) ↔
      45 ∉ t ∧ ∃ c, (s.take 32).getLast? = some c ∧ c ≠ 32 := by
  have hdash : padRight 32 (s.take 32) ++ bytes " - " ++ t =
      padRight 32 (s.take 32) ++ [32] ++ 45 :: ([32] ++ t) := by
    simp [bytes]
  have hmem : (45 : UInt8) ∈ padRight 32 (s.take 32) ++ [32] ++ 45 :: ([32] ++ t) := by simp
  rw [hdash, defaultTitle, if_pos hmem]
  by_cases ht : 45 ∈ t
  · obtain ⟨before, behind, rfl, hbehind⟩ := exists_last ht
    have hcut : padRight 32 (s.take 32) ++ [32] ++ 45 :: ([32] ++ (before ++ 45 :: behind)) =
        padRight 32 (s.take 32) ++ [32] ++ 45 :: ([32] ++ before) ++ 45 :: behind := by simp
    rw [hcut, cutAtLast_append hbehind]
    refine iff_of_false (fun h => ?_) fun h => h.1 ht
    have hreverse : (padRight 32 (s.take 32) ++ [32] ++ 45 :: ([32] ++ before)).reverse =
        ([32] ++ before).reverse ++ 45 :: (padRight 32 (s.take 32) ++ [32]).reverse := by simp
    rw [hreverse] at h
    have := length_lt_of_backOverBlanks (by decide) h
    simp only [padRight, List.length_reverse, List.length_append] at this
    omega
  · have ht' : (45 : UInt8) ∉ [32] ++ t := by simp [ht]
    rw [cutAtLast_append ht', padRight, List.append_assoc, ← List.replicate_succ',
      List.reverse_append, List.reverse_replicate, backOverBlanks_replicate,
      backOverBlanks_eq_self_iff]
    simp [ht]

/-- Without the id a title is kept if nothing in it can be taken for the `-` before the id. -/
theorem defaultTitle_eq_self_iff : defaultTitle s = some s ↔ 45 ∉ s := by
  unfold defaultTitle
  by_cases hs : 45 ∈ s
  · rw [if_pos hs]
    refine iff_of_false (fun h => ?_) (not_not_intro hs)
    obtain ⟨before, behind, rfl, hbehind⟩ := exists_last hs
    rw [cutAtLast_append hbehind] at h
    have := length_of_backOverBlanks h
    simp only [List.length_append, List.length_cons, List.length_reverse] at this
    omega
  · simp [hs]

theorem prefix_of_backOverBlanks (h : backOverBlanks s = some t) : t <+: s.reverse := by
  induction s with
  | nil => cases h
  | cons c s ih =>
    unfold backOverBlanks at h
    split at h
    · exact Option.some.inj h ▸ List.prefix_refl _
    · rw [List.reverse_cons]
      exact (ih h).trans (List.prefix_append ..)

theorem prefix_of_defaultTitle (h : defaultTitle s = some t) : t <+: s := by
  unfold defaultTitle at h
  split at h
  · have hpre := prefix_of_backOverBlanks h
    rw [List.reverse_reverse] at hpre
    exact hpre.trans (cutAtLast_le ..)
  · exact Option.some.inj h ▸ List.prefix_refl _

/-- The title that a post gets is put into the header as it is. -/
theorem ofBytes_restoredTitle {title : Title} (h : restoredTitle body title.text = some t) :
    (Title.ofBytes t).text = t := by
  unfold restoredTitle at h
  split at h
  · rename_i line hline
    obtain ⟨s, -, hzero, -, hcut⟩ := title_of_titleLine hline
    rw [← Option.some.inj h, hcut]
    refine Title.ofBytes_text (fun hmem => hzero (List.mem_of_mem_take hmem)) ?_
    rw [List.length_take]
    exact Nat.lt_of_le_of_lt (Nat.min_le_left ..) (by decide)
  · have hpre := prefix_of_defaultTitle h
    exact Title.ofBytes_text (fun hmem => title.noNul (hpre.subset hmem))
      (Nat.lt_of_le_of_lt hpre.length_le title.fits)

end

/-- What is appended to `.DIR` is the trash entry with the title of the post. -/
theorem undeleteArticle_eq_restored {userid body : Bytes} {fileinfo header entry : Article}
    (h : undeleteArticle userid (some body) fileinfo = .restored header entry) :
    ∃ title, restoredTitle body fileinfo.title.text = some title ∧
      header = { fileinfo with title := .ofBytes title, flag := 0 } := by
  simp only [undeleteArticle] at h
  split at h
  · cases h
  · exact ⟨_, ‹_›, (Undeleted.restored.inj h).1.symm⟩

theorem undeleteArticle_restores {userid body title : Bytes} {fileinfo : Article}
    (h : restoredTitle body fileinfo.title.text = some title) :
    undeleteArticle userid (some body) fileinfo =
      .restored { fileinfo with title := .ofBytes title, flag := 0 } { fileinfo with
        title := .ofBytes (restoredNote userid), flag := fileinfo.flag ||| fileForwarded } := by
  simp only [undeleteArticle, h]

/-- Only the title may come back different. -/
theorem restores_iff {deleter restorer body : Bytes} {fh : Article} {owned keepid : Bool} :
    Restores deleter restorer body fh owned keepid ↔
      restoredTitle body (trashTitle deleter fh keepid).text = some (keptTitle body fh keepid) := by
  constructor
  · rintro ⟨dir, entry, header, fileinfo, hentry, hheader, -, -, -, -, htitle⟩
    obtain ⟨-, rfl⟩ := Prod.mk.inj (Option.some.inj hentry)
    obtain ⟨title, hrestored, rfl⟩ := undeleteArticle_eq_restored hheader
    rw [hrestored, ← htitle, ofBytes_restoredTitle hrestored]
  · intro h
    exact ⟨_, _, _, _, rfl, undeleteArticle_restores h, rfl, rfl, rfl, rfl, ofBytes_restoredTitle h⟩

theorem trashTitle_keepid {deleter : Bytes} (hdeleter : 0 ∉ deleter)
    (hlength : deleter.length ≤ idLen) (fh : Article) : (trashTitle deleter fh true).text =
      padRight 32 (fh.title.text.take 32) ++ bytes " - " ++ deleter := by
  have hnul : 0 ∉ fh.title.text.take 32 := fun hmem => fh.title.noNul (List.mem_of_mem_take hmem)
  refine Title.ofBytes_text ?_ ?_
  · simp [padRight, bytes, hnul, hdeleter]
  · simp only [padRight, bytes, List.length_append, List.length_replicate, List.length_take,
      List.length_map, String.length_toList, idLen, titleLen] at hlength ⊢
    have hdash : (" - ".length) = 3 := rfl
    omega

/-- A deleted post comes back as it was just if it is restorable. -/
theorem undelete_restores_iff {deleter : Bytes} (hdeleter : 0 ∉ deleter)
    (hlength : deleter.length ≤ idLen) (restorer body : Bytes) (fh : Article)
    (owned keepid : Bool) :
    Restores deleter restorer body fh owned keepid ↔ Restorable deleter body fh keepid := by
  rw [restores_iff]
  unfold restoredTitle keptTitle Restorable
  cases hline : titleLine body with
  | some line =>
    obtain ⟨s, hs, -, hcase, hcut⟩ := title_of_titleLine hline
    simp only [Option.isNone_some, Bool.false_and, Bool.false_eq_true, if_false, hcut,
      Option.some.injEq]
    exact take_eq_title_iff hs hcase fh.title.fits
  | none =>
    simp only [Option.isNone_none, Bool.true_and]
    cases keepid with
    | true =>
      rw [trashTitle_keepid hdeleter hlength]
      exact defaultTitle_padded_iff
    | false => exact defaultTitle_eq_self_iff

def trashedPost (title : Bytes) : Article :=
  ⟨bytes "M.1000000000.A", bytes "guest", bytes "guest", .ofBytes title, 0, 120, 7, 1000000000, []⟩

def trashedBody : Bytes := titleMark ++ bytes "what-if\n\ntext\n"

theorem undelete_restores_hyphen :
    Restores (bytes "SYSOP") (bytes "SYSOP") trashedBody (trashedPost (bytes "what-if")) true false :=
  (undelete_restores_iff (by decide) (by decide) ..).mpr
    ⟨by decide, .inr (.inl (by decide +kernel))⟩

/-- The post has neither a title nor a title line. -/
theorem undelete_leaves_title : ¬∀ (deleter restorer body : Bytes) (fh : Article)
    (owned keepid : Bool), 0 ∉ deleter → deleter.length ≤ idLen →
      Restores deleter restorer body fh owned keepid := by
  intro hclaim
  have hrestores := hclaim (bytes "SYSOP") (bytes "SYSOP") (bytes "text\n") (trashedPost []) false
    true (by decide) (by decide)
  have houtside : restoredTitle (bytes "text\n")
      (trashTitle (bytes "SYSOP") (trashedPost []) true).text = none := by decide +kernel
  rw [restores_iff, houtside] at hrestores
  cases hrestores

end ArgoBbs

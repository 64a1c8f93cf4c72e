import ArgoBbs.Lib.Reach
import ArgoBbs.Mail.Mailbox
import ArgoBbs.Mail.Quota

/-! # The stored sizes of mails

The size that `getmailsize` stores in a header stands there for as long as the header does. In the
meantime the mail can be edited (`edit_post` and `edit_title` of `bbs.c`), and the sessions write
back headers that they have read before. Every call on the directory is one step here. -/

namespace ArgoBbs

instance : Inhabited MailHeader := ⟨⟨default, 0⟩⟩

namespace MailTree
variable (t : MailTree)

def headers : List MailHeader := t.dir.getD []

def putHeaders (headers : List MailHeader) : MailTree := { t with dir := some headers }

/-- The file gets another length, or goes. -/
def setLength (filename : Bytes) (length : Option Nat) : MailTree :=
  { t with length := Function.update t.length filename length }

def unlinkAll (removed : List MailHeader) : MailTree :=
  removed.foldl (fun t h => t.setLength h.filename none) t

/-- Records are taken out of the directory, with `unlinks` also their files. -/
def remove (d : Deletion MailHeader) (unlinks : Bool) : MailTree :=
  match d.plan t.headers with
  | some (kept, removed) =>
    let t := t.putHeaders kept
    if unlinks then t.unlinkAll removed else t
  | none => t

/-- `substitute_record` -/
def substitute (ent : Nat) (h : MailHeader) : MailTree :=
  match substituteRecord ent h t.headers with
  | some headers => t.putHeaders headers
  | none => t

/-- `safe_substitute_record` -/
def safeSubstitute (ent : Nat) (h : MailHeader) (sorted : Bool) : MailTree :=
  match substituteIndex (t.headers.map (·.toArticleHeader)) h.toFileHeader ent sorted with
  | some i => t.putHeaders (t.headers.set i h)
  | none => t

end MailTree

/-- The mailbox, and the header that each session holds in memory with its number in the list. -/
structure StoredBox (ι : Type) where
  tree : MailTree
  held : ι → Option (Nat × MailHeader)

inductive StoredEvent (ι : Type)
  | deliver (h : ArticleHeader) (length : Nat)
  | query (userid : Bytes)
  | display (i : ι) (ent : Nat)
  | substitute (i : ι) (flag : BitVec 32)
  | edit (i : ι) (length : Nat)
  | safeSubstitute (i : ι) (flag : BitVec 32) (sorted : Bool)
  | setFlags (flag : MailHeader → BitVec 32)
  | deleteFile (i : ι)
  | unlink (i : ι)
  | deleteRecord (id : Int)
  | processRecords (id1 id2 : Int) (filecheck : List MailHeader → MailHeader → Bool)

namespace StoredBox
variable {ι : Type} [DecidableEq ι]

def hold (s : StoredBox ι) (i : ι) (ent : Nat) (h : MailHeader) : StoredBox ι :=
  { s with held := Function.update s.held i (some (ent, h)) }

def step (s : StoredBox ι) : StoredEvent ι → Option (StoredBox ι)
  | .deliver h length =>
    -- the name is that of a file that has just been created
    if (s.tree.length h.filename).isNone then
      let t := s.tree.setLength h.filename (some length)
      some { s with tree := t.putHeaders (t.headers ++ [⟨h, 0⟩]) }
    else none
  | .query userid => some { s with tree := (getmailsize userid s.tree).2 }
  | .display i ent =>
    -- what lies behind the end of the file reads as zero
    some (s.hold i ent ((getRecord ent s.tree.headers).getD default))
  | .substitute i flag =>
    (s.held i).map fun (ent, h) =>
      let h := { h with flag := flag }
      { s.hold i ent h with tree := s.tree.substitute ent h }
  | .edit i length =>
    (s.held i).map fun (_, h) => { s with tree := s.tree.setLength h.filename (some length) }
  | .safeSubstitute i flag sorted =>
    (s.held i).map fun (ent, h) =>
      let h := { h with flag := flag }
      { s.hold i ent h with tree := s.tree.safeSubstitute ent h sorted }
  | .setFlags flag =>
    some { s with
      tree := s.tree.putHeaders (s.tree.headers.map fun h => { h with flag := flag h }) }
  | .deleteFile i =>
    (s.held i).map fun (ent, h) =>
      { s with tree := s.tree.remove (.file ent (·.filename = h.filename)) true }
  | .unlink i =>
    (s.held i).map fun (_, h) => { s with tree := s.tree.setLength h.filename none }
  | .deleteRecord id => some { s with tree := s.tree.remove (.record id) false }
  | .processRecords id1 id2 filecheck =>
    some { s with tree := s.tree.remove (.range id1 id2 filecheck) true }

end StoredBox

/-- What `getmailsize` returns is the size of the mails, and no size in the directory is stale. -/
structure SizesTrue (userid : Bytes) (t : MailTree) : Prop where
  counted : (getmailsize userid t).1 = t.mailBytes t.headers / 1024 + 1
  stored : ∀ h ∈ t.headers, h.size = 0 ∨ h.size.toNat = t.mailLength h.filename

/-- No header with the name has a size stored other than that of a file of the length. -/
def Counts (headers : List MailHeader) (filename : Bytes) (length : Nat) : Prop :=
  ∀ h ∈ headers, h.filename = filename → h.size = 0 ∨ h.size = .ofNat 32 (max 1 length)

namespace MailTree

/-- The size in the header is not stored yet, or it is that of the file. -/
def Fits (t : MailTree) (h : MailHeader) : Prop :=
  h.size = 0 ∨ h.size = .ofNat 32 (t.mailLength h.filename)

/-- No header that stays has the name of a removed one and a size stored, except for 1. -/
def MayRemove (t : MailTree) (d : Deletion MailHeader) : Prop :=
  ∀ p ∈ d.plan t.headers, ∀ x ∈ p.2, Counts p.1 x.filename 0

end MailTree

namespace StoredBox
variable {ι : Type}

/-- A mail gets another length only as long as its size is not stored, and a header is written back
only with the size that its mail has then. -/
def MayStep (s : StoredBox ι) : StoredEvent ι → Prop
  | .deliver h length => Counts s.tree.headers h.filename length
  | .edit i length => ∀ p ∈ s.held i, Counts s.tree.headers p.2.filename length
  | .unlink i => ∀ p ∈ s.held i, Counts s.tree.headers p.2.filename 0
  | .substitute i _ | .safeSubstitute i _ _ => ∀ p ∈ s.held i, s.tree.Fits p.2
  | .deleteFile i => ∀ p ∈ s.held i, s.tree.MayRemove (.file p.1 (·.filename = p.2.filename))
  | .processRecords id1 id2 filecheck => s.tree.MayRemove (.range id1 id2 filecheck)
  | .query _ | .display .. | .setFlags _ | .deleteRecord _ => True

instance (headers : List MailHeader) (filename : Bytes) (length : Nat) :
    Decidable (Counts headers filename length) :=
  inferInstanceAs (Decidable (∀ h ∈ headers, h.filename = filename →
    h.size = 0 ∨ h.size = .ofNat 32 (max 1 length)))

instance (t : MailTree) (h : MailHeader) : Decidable (t.Fits h) :=
  inferInstanceAs (Decidable (h.size = 0 ∨ h.size = .ofNat 32 (t.mailLength h.filename)))

instance (t : MailTree) (d : Deletion MailHeader) : Decidable (t.MayRemove d) :=
  inferInstanceAs (Decidable (∀ p ∈ d.plan t.headers, ∀ x ∈ p.2, Counts p.1 x.filename 0))

instance (s : StoredBox ι) : (e : StoredEvent ι) → Decidable (s.MayStep e)
  | .deliver h length => inferInstanceAs (Decidable (Counts s.tree.headers h.filename length))
  | .edit i length =>
    inferInstanceAs (Decidable (∀ p ∈ s.held i, Counts s.tree.headers p.2.filename length))
  | .unlink i => inferInstanceAs (Decidable (∀ p ∈ s.held i, Counts s.tree.headers p.2.filename 0))
  | .substitute i _ | .safeSubstitute i _ _ =>
    inferInstanceAs (Decidable (∀ p ∈ s.held i, s.tree.Fits p.2))
  | .deleteFile i =>
    inferInstanceAs (Decidable (∀ p ∈ s.held i,
      s.tree.MayRemove (.file p.1 (·.filename = p.2.filename))))
  | .processRecords id1 id2 filecheck =>
    inferInstanceAs (Decidable (s.tree.MayRemove (.range id1 id2 filecheck)))
  | .query _ | .display .. | .setFlags _ | .deleteRecord _ => isTrue trivial

end StoredBox

/-! ## What the steps leave of the sizes -/

section
variable {t : MailTree} {headers : List MailHeader} {h : MailHeader} {filename userid : Bytes}
  {length : Option Nat}

theorem mailLength_setLength_self (t : MailTree) (filename : Bytes) :
    (t.setLength filename length).mailLength filename = max 1 (length.getD 0) :=
  congrArg (fun length => max 1 (length.getD 0)) (Function.update_self filename length t.length)

theorem mailLength_setLength_of_ne (length : Option Nat) {name : Bytes} (hne : name ≠ filename) :
    (t.setLength filename length).mailLength name = t.mailLength name :=
  congrArg (fun length => max 1 (length.getD 0)) (Function.update_of_ne hne length t.length)

/-- The sizes in some headers fit after the change of a file that they do not count. -/
theorem fits_setLength (length : Option Nat) (hfits : ∀ h ∈ headers, t.Fits h)
    (hcounts : Counts headers filename (length.getD 0)) :
    ∀ h ∈ headers, (t.setLength filename length).Fits h := by
  intro h hmem
  rcases eq_or_ne h.filename filename with heq | hne
  · have hsize := hcounts h hmem heq
    rw [← mailLength_setLength_self t filename] at hsize
    rwa [MailTree.Fits, heq]
  · have hsize := hfits h hmem
    rwa [MailTree.Fits, ← mailLength_setLength_of_ne length hne] at hsize

theorem fits_unlinkAll {removed : List MailHeader} (hfits : ∀ h ∈ headers, t.Fits h)
    (hcounts : ∀ x ∈ removed, Counts headers x.filename 0) :
    ∀ h ∈ headers, (t.unlinkAll removed).Fits h := by
  induction removed generalizing t with
  | nil => exact hfits
  | cons x removed ih =>
    rw [List.forall_mem_cons] at hcounts
    exact ih (fits_setLength _ hfits hcounts.1) hcounts.2

theorem fits_default (t : MailTree) : t.Fits default := .inl rfl

/-- The size that `getmailsize` stores fits, and one that fits stays. -/
theorem fits_sized (hfits : t.Fits h) : t.Fits (t.sized h) := by
  unfold MailTree.sized
  split
  case isTrue => exact .inr rfl
  case isFalse => exact hfits

theorem size_sized (hfits : t.Fits h) : (t.sized h).size = .ofNat 32 (t.mailLength h.filename) := by
  unfold MailTree.sized
  split
  case isTrue => rfl
  case isFalse hsize => exact hfits.resolve_left hsize

theorem headers_unlinkAll (removed : List MailHeader) :
    (t.unlinkAll removed).headers = t.headers := by
  induction removed generalizing t with
  | nil => rfl
  | cons x removed ih => exact ih

/-- The sizes in the directory fit after records have been taken out. -/
theorem fits_remove {d : Deletion MailHeader} (unlinks : Bool)
    (hfits : ∀ h ∈ t.headers, t.Fits h) (hmay : unlinks = true → t.MayRemove d) :
    ∀ h ∈ (t.remove d unlinks).headers, (t.remove d unlinks).Fits h := by
  unfold MailTree.remove
  split
  case h_2 => exact hfits
  case h_1 kept removed hplan =>
    have hkept : ∀ h ∈ kept, t.Fits h := fun h hmem =>
      hfits h ((Deletion.plan_divides hplan).1.sublist.subset hmem)
    cases unlinks with
    | false => exact hkept
    | true =>
      intro h hmem
      have hmem : h ∈ (t.putHeaders kept).headers := headers_unlinkAll removed ▸ hmem
      exact fits_unlinkAll (t := t.putHeaders kept) hkept (hmay rfl (kept, removed) hplan) h hmem

theorem mem_of_substituteRecord {ent : Int} {x : MailHeader} {headers' : List MailHeader}
    (heq : substituteRecord ent h headers = some headers') (hmem : x ∈ headers') :
    x ∈ headers ∨ x = h ∨ x = default := by
  unfold substituteRecord at heq
  split at heq
  case isTrue => cases heq
  case isFalse =>
    split at heq
    case isTrue =>
      cases heq
      exact (List.mem_or_eq_of_mem_set hmem).imp_right .inl
    case isFalse =>
      cases heq
      rcases List.mem_append.mp hmem with hmem | hmem
      · refine (List.mem_append.mp (List.mem_of_mem_take hmem)).imp_right fun hmem => .inr ?_
        exact (List.mem_replicate.mp hmem).2
      · exact .inr (.inl (List.mem_singleton.mp hmem))

theorem fits_substitute (hfits : ∀ h ∈ t.headers, t.Fits h) (hh : t.Fits h) (ent : Nat) :
    ∀ x ∈ (t.substitute ent h).headers, (t.substitute ent h).Fits x := by
  unfold MailTree.substitute
  split
  case h_2 => exact hfits
  case h_1 headers' heq =>
    intro x hmem
    rcases mem_of_substituteRecord heq hmem with hold | rfl | rfl
    · exact hfits x hold
    · exact hh
    · exact fits_default t

theorem fits_safeSubstitute (hfits : ∀ h ∈ t.headers, t.Fits h) (hh : t.Fits h) (ent : Nat)
    (sorted : Bool) :
    ∀ x ∈ (t.safeSubstitute ent h sorted).headers, (t.safeSubstitute ent h sorted).Fits x := by
  unfold MailTree.safeSubstitute
  split
  case h_2 => exact hfits
  case h_1 =>
    intro x hmem
    rcases List.mem_or_eq_of_mem_set hmem with hold | rfl
    · exact hfits x hold
    · exact hh

/-- The stored sizes sum up to the length of the mails, as long as that is an `int`. -/
theorem sizeTotal_sized (hfits : ∀ h ∈ headers, t.Fits h) :
    sizeTotal (headers.map t.sized) = .ofNat 32 (t.mailBytes headers) := by
  have hacc : ∀ total : BitVec 32, (headers.map t.sized).foldl (fun total h => total + h.size) total
      = total + .ofNat 32 (t.mailBytes headers) := by
    induction headers with
    | nil => exact fun total => (BitVec.add_zero total).symm
    | cons x headers ih =>
      intro total
      rw [List.forall_mem_cons] at hfits
      rw [List.map_cons, List.foldl_cons, ih hfits.2, size_sized hfits.1, MailTree.mailBytes,
        BitVec.ofNat_add, BitVec.add_assoc]
  exact (hacc 0).trans (BitVec.zero_add _)

theorem fits_getmailsize (hfits : ∀ h ∈ t.headers, t.Fits h) :
    ∀ h ∈ (getmailsize userid t).2.headers, (getmailsize userid t).2.Fits h := by
  cases hdir : t.dir with
  | none =>
    rw [getmailsize_of_none hdir]
    exact hfits
  | some headers =>
    have hheaders : t.headers = headers := by rw [MailTree.headers, hdir, Option.getD_some]
    rw [hheaders] at hfits
    rw [getmailsize_of_dir hdir]
    refine List.forall_mem_map.mpr fun h hmem => ?_
    exact fits_sized (hfits h hmem)

/-- A mailbox in which all sizes fit is counted as large as it is. -/
theorem sizesTrue_of_fits (hfits : ∀ h ∈ t.headers, t.Fits h)
    (hbytes : t.mailBytes t.headers < 2 ^ 31) : SizesTrue userid t := by
  have htotal : (BitVec.ofNat 32 (t.mailBytes t.headers)).toInt = t.mailBytes t.headers := by
    rw [BitVec.toInt_eq_toNat_of_lt (by rw [BitVec.toNat_ofNat]; omega), BitVec.toNat_ofNat,
      Nat.mod_eq_of_lt (by omega)]
  constructor
  case counted =>
    cases hdir : t.dir with
    | none =>
      have hheaders : t.headers = [] := by rw [MailTree.headers, hdir, Option.getD_none]
      rw [getmailsize_of_none hdir, hheaders, MailTree.mailBytes]
      rfl
    | some headers =>
      have hheaders : t.headers = headers := by rw [MailTree.headers, hdir, Option.getD_some]
      rw [hheaders] at hfits htotal
      rw [getmailsize_of_dir hdir, sizeTotal_sized hfits, hheaders, htotal]
      exact congrArg (· + 1) (Int.tdiv_eq_ediv_of_nonneg (Int.natCast_nonneg _))
  case stored =>
    intro h hmem
    refine (hfits h hmem).imp_right fun hsize => ?_
    have hle := mailLength_le (t := t) hmem
    rw [hsize, BitVec.toNat_ofNat, Nat.mod_eq_of_lt (by omega)]

end

namespace StoredBox
variable {ι : Type} [DecidableEq ι] {s s' : StoredBox ι} {e : StoredEvent ι}

/-- Every size in the directory fits. -/
def Stored (s : StoredBox ι) : Prop := ∀ h ∈ s.tree.headers, s.tree.Fits h

theorem Stored.step (hs : s.Stored) (hmay : s.MayStep e) (hstep : s.step e = some s') :
    s'.Stored := by
  cases e with
  | deliver h length =>
    obtain ⟨-, hstep⟩ := Option.ite_none_right_eq_some.mp hstep
    cases hstep
    have hold := fits_setLength (some length) hs hmay
    exact List.forall_mem_append.mpr ⟨hold, List.forall_mem_singleton.mpr (.inl rfl)⟩
  | query userid =>
    cases hstep
    exact fits_getmailsize hs
  | display i ent =>
    cases hstep
    exact hs
  | substitute i flag =>
    obtain ⟨⟨ent, h⟩, hheld, rfl⟩ := Option.map_eq_some_iff.mp hstep
    exact fits_substitute (h := { h with flag := flag }) hs (hmay (ent, h) hheld) ent
  | edit i length =>
    obtain ⟨⟨ent, h⟩, hheld, rfl⟩ := Option.map_eq_some_iff.mp hstep
    exact fits_setLength _ hs (hmay (ent, h) hheld)
  | safeSubstitute i flag sorted =>
    obtain ⟨⟨ent, h⟩, hheld, rfl⟩ := Option.map_eq_some_iff.mp hstep
    exact fits_safeSubstitute (h := { h with flag := flag }) hs (hmay (ent, h) hheld) ent sorted
  | setFlags flag =>
    cases hstep
    exact List.forall_mem_map.mpr hs
  | deleteFile i =>
    obtain ⟨⟨ent, h⟩, hheld, rfl⟩ := Option.map_eq_some_iff.mp hstep
    exact fits_remove true hs fun _ => hmay (ent, h) hheld
  | unlink i =>
    obtain ⟨⟨ent, h⟩, hheld, rfl⟩ := Option.map_eq_some_iff.mp hstep
    exact fits_setLength _ hs (hmay (ent, h) hheld)
  | deleteRecord id =>
    cases hstep
    exact fits_remove false hs nofun
  | processRecords id1 id2 filecheck =>
    cases hstep
    exact fits_remove true hs fun _ => hmay

/-- In every state that the mailbox gets into, the size counted is that of its mails and no stored
size is stale, as long as no mail whose size is stored gets another length, no header is written
back with another size, and the mails have together less than 2 G. -/
theorem sizes_true {start : StoredBox ι} (hstart : start.Stored)
    (h : Reach StoredBox.step MayStep start s) (hbytes : s.tree.mailBytes s.tree.headers < 2 ^ 31)
    (userid : Bytes) : SizesTrue userid s.tree :=
  have hs : s.Stored := h.invariant Stored hstart fun _ _ _ hs hmay hstep => hs.step hmay hstep
  sizesTrue_of_fits hs hbytes

/-- A mailbox without mails, and a session that holds none. -/
def empty : StoredBox ι := ⟨⟨none, fun _ => none⟩, fun _ => none⟩

/-- A mail is edited, counted, read and deleted, and another one arrives. -/
def demoStored (i : ι) : List (StoredEvent ι) :=
  [.deliver ⟨⟨bytes "M.1.A", 1⟩, 0⟩ 3000, .display i 1, .edit i 5000, .query (bytes "guest"),
    .display i 1, .substitute i fileRead, .deliver ⟨⟨bytes "M.2.A", 2⟩, 0⟩ 2000, .deleteFile i]

theorem sizes_true_demo : ∃ s : StoredBox (Fin 1),
    s.tree.headers.length = 1 ∧ SizesTrue (bytes "guest") s.tree := by
  have hrun : Reach.Meets StoredBox.step MayStep empty (demoStored (0 : Fin 1)) := by
    decide +kernel
  obtain ⟨s, hs, h⟩ := Reach.of_meets _ hrun
  have hend : ((demoStored (0 : Fin 1)).foldlM StoredBox.step empty).map (fun s =>
      (s.tree.headers.length, s.tree.mailBytes s.tree.headers)) = some (1, 2000) := by
    decide +kernel
  rw [hs] at hend
  obtain ⟨hlen, hbytes⟩ := Prod.mk.inj (Option.some.inj hend)
  have hempty : Stored (ι := Fin 1) empty := fun _ hmem => absurd hmem List.not_mem_nil
  exact ⟨s, hlen, sizes_true hempty h (by rw [hbytes]; decide) (bytes "guest")⟩

/-- A mail is edited after it has been counted. -/
def demoStale (i : ι) : List (StoredEvent ι) :=
  [.deliver ⟨⟨bytes "M.1.A", 1⟩, 0⟩ 3000, .query (bytes "guest"), .display i 1, .edit i 5000]

/-- The mailbox counts as 3 K, but has 5 K. -/
theorem sizes_stale : ¬∀ s : StoredBox (Fin 1), Reach StoredBox.step (fun _ _ => True) empty s →
    SizesTrue (bytes "guest") s.tree := by
  intro hclaim
  have hrun : Reach.Meets StoredBox.step (fun _ _ => True) empty (demoStale (0 : Fin 1)) := by
    decide +kernel
  obtain ⟨s, hs, h⟩ := Reach.of_meets _ hrun
  have hend : ((demoStale (0 : Fin 1)).foldlM StoredBox.step empty).map (fun s =>
      ((getmailsize (bytes "guest") s.tree).1, s.tree.mailBytes s.tree.headers)) =
      some (3, 5000) := by decide +kernel
  rw [hs] at hend
  obtain ⟨hsize, hbytes⟩ := Prod.mk.inj (Option.some.inj hend)
  have hcounted := (hclaim s h).counted
  rw [hsize, hbytes] at hcounted
  exact absurd hcounted (by decide)

end StoredBox

end ArgoBbs

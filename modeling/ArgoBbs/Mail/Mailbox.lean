import ArgoBbs.Board.Digest
import ArgoBbs.Record.Access
import Mathlib.Data.Fintype.Basic

/-! # One mailbox in several sessions

Sessions of one user work on the same `.DIR` while mails are delivered to it. A session holds a
header in memory while its mail is read or answered, and writes it back by the number that the entry
had when it was displayed (`mail_read`, `mail_reply`, `mail_mark`, `read_new_mail` of `mail.c`);
`delete_file` and the `delete_record` of `m_new` take records out of the directory in the meantime.
-/

namespace ArgoBbs

def fileRead : BitVec 32 := 0x1
def mailReplied : BitVec 32 := 0x20

instance : Inhabited ArticleHeader := ⟨⟨default, 0⟩⟩

/-- `mail_mark` toggles the mark. -/
def ArticleHeader.toggleMark (h : ArticleHeader) : ArticleHeader :=
  if h.has fileMarked then h.clearFlag fileMarked else h.setFlag fileMarked

theorem toggleMark_filename (h : ArticleHeader) : h.toggleMark.filename = h.filename := by
  unfold ArticleHeader.toggleMark
  split <;> rfl

/-- The walk of `m_new` over the mapping of `.DIR`: the number of records that `fstat` has found,
the number of the last record that `read_new_mail` was called for, and the numbers to be deleted,
the last one first. -/
structure NewWalk where
  size : Nat
  idc : Nat
  delmsgs : List Nat

/-- Where a session is: before the write of `mail_mark`, in `mail_read`, in a `mail_reply` from the
list, before the question of a `mail_del` from `mail_read`, before and in `delete_file`; and in
`m_new` between two records, at the question, with the copy of the header before the write, at the
menu, and before and in a `delete_record`. -/
inductive MailPc
  | idle
  | viewing (ent : Nat) (h : ArticleHeader)
  | marking (ent : Nat) (h : ArticleHeader)
  | reading (ent : Nat) (h : ArticleHeader)
  | replying (ent : Nat) (h : ArticleHeader)
  | asking (ent : Nat) (h : ArticleHeader)
  | deleting (ent : Nat) (h : ArticleHeader)
  | sized (ent : Nat) (h : ArticleHeader) (size : Nat)
  | walking (w : NewWalk)
  | prompted (w : NewWalk)
  | copied (w : NewWalk) (h : ArticleHeader)
  | menu (w : NewWalk) (h : ArticleHeader)
  | purging (delmsgs : List Nat)
  | purgeSized (id size : Nat) (delmsgs : List Nat)

/-- The size that a deleter has read. -/
def MailPc.size? : MailPc → Option Nat
  | .sized _ _ size | .purgeSized _ size _ => some size
  | _ => none

/-- The largest number of a record that the session relies on. -/
def MailPc.last : MailPc → Nat
  | .marking ent _ | .reading ent _ | .replying ent _ => ent
  | .walking w | .prompted w | .copied w _ | .menu w _ => w.size
  | .purging delmsgs => delmsgs.headD 0
  | .purgeSized id _ _ => id
  | _ => 0

/-- `read_new_mail` up to its question. -/
def readNewMail (w : NewWalk) (h : ArticleHeader) : MailPc :=
  let idc := w.idc + 1
  if h.filename = [] ∧ w.delmsgs.length < 1024 then .walking ⟨w.size, idc, idc :: w.delmsgs⟩
  else if h.has fileRead then .walking { w with idc := idc }
  else .prompted { w with idc := idc }

inductive NewAnswer
  | yes | no | quit

/-- A header written back: its number, the header and the directory before. -/
structure WriteBack where
  ent : Nat
  header : ArticleHeader
  before : List ArticleHeader

/-- `arrived` are the names of the mails at the start and of all delivered ones, `confirmed` of
those whose deletion was confirmed. -/
structure Mailbox (ι : Type) where
  dir : List ArticleHeader
  procs : ι → MailPc
  arrived : List Bytes
  confirmed : List Bytes
  writes : List WriteBack

inductive MailEvent (ι : Type)
  | deliver (h : ArticleHeader) (ok : Bool)
  | display (i : ι) (ent : Nat)
  | mailMark (i : ι)
  | mailRead (i : ι)
  | mailReply (i : ι)
  | mailDel (i : ι) (yes : Bool)
  | mark (i : ι) (ok : Bool)
  | sent (i : ι) (ok : Bool)
  | notSent (i : ι)
  | endRead (i : ι) (ok delete : Bool)
  | mNew (i : ι)
  | next (i : ι) (fault : Bool)
  | answer (i : ι) (a : NewAnswer) (fault : Bool)
  | setRead (i : ι) (ok : Bool)
  | leave (i : ι) (delete : Bool)
  | fstat (i : ι) (ok : Bool)
  | remove (i : ι)

namespace Mailbox
variable {ι : Type}

def start (dir : List ArticleHeader) : Mailbox ι :=
  ⟨dir, fun _ => .idle, dir.map (·.filename), [], []⟩

def substitute (s : Mailbox ι) (ent : Nat) (h : ArticleHeader) (ok : Bool) : Mailbox ι :=
  if ok then
    { s with
      dir := (substituteRecord ent h s.dir).getD s.dir
      writes := s.writes ++ [⟨ent, h, s.dir⟩] }
  else s

/-- What the mapping shows under a number: behind the end of the file it is zero up to the end of
the page, and then there is a fault. -/
def mapped (s : Mailbox ι) (id : Nat) (fault : Bool) : Option ArticleHeader :=
  match getRecord id s.dir with
  | some h => some h
  | none => if fault then none else some default

section
variable [DecidableEq ι]

def goTo (s : Mailbox ι) (i : ι) (pc : MailPc) : Mailbox ι :=
  { s with procs := Function.update s.procs i pc }

def step (s : Mailbox ι) : MailEvent ι → Option (Mailbox ι)
  | .deliver h ok =>
    some (if ok then { s with dir := s.dir ++ [h], arrived := s.arrived ++ [h.filename] } else s)
  | .display i ent =>
    match s.procs i with
    | .idle | .viewing .. => (getRecord ent s.dir).map fun h => s.goTo i (.viewing ent h)
    | _ => none
  | .mailMark i =>
    match s.procs i with
    | .viewing ent h => some (s.goTo i (.marking ent h.toggleMark))
    | _ => none
  | .mailRead i =>
    match s.procs i with
    | .viewing ent h => some (s.goTo i (.reading ent h))
    | _ => none
  | .mailReply i =>
    match s.procs i with
    | .viewing ent h => some (s.goTo i (.replying ent h))
    | _ => none
  | .mailDel i yes =>
    match s.procs i with
    | .viewing ent h | .asking ent h =>
      if yes then
        some { s.goTo i (.deleting ent h) with confirmed := s.confirmed ++ [h.filename] }
      else some (s.goTo i (.viewing ent h))
    | _ => none
  | .mark i ok =>
    match s.procs i with
    | .marking ent h => some ((s.substitute ent h ok).goTo i (.viewing ent h))
    | _ => none
  | .sent i ok =>
    match s.procs i with
    | .reading ent h =>
      let h := h.setFlag mailReplied
      some ((s.substitute ent h ok).goTo i (.reading ent h))
    | .replying ent h =>
      let h := h.setFlag mailReplied
      some ((s.substitute ent h ok).goTo i (.viewing ent h))
    | .menu w h =>
      let h := h.setFlag mailReplied
      some ((s.substitute w.idc h ok).goTo i (.menu w h))
    | _ => none
  | .notSent i =>
    match s.procs i with
    | .replying ent h => some (s.goTo i (.viewing ent h))
    | _ => none
  | .endRead i ok delete =>
    match s.procs i with
    | .reading ent h =>
      let h := h.setFlag fileRead
      some ((s.substitute ent h ok).goTo i (if delete then .asking ent h else .viewing ent h))
    | _ => none
  | .mNew i =>
    match s.procs i with
    | .idle | .viewing .. => some (s.goTo i (.walking ⟨s.dir.length, 0, []⟩))
    | _ => none
  | .next i fault =>
    match s.procs i with
    | .walking w =>
      if w.idc < w.size then
        match s.mapped (w.idc + 1) fault with
        | some h => some (s.goTo i (readNewMail w h))
        | none => some (s.goTo i (.purging w.delmsgs))
      else some (s.goTo i (.purging w.delmsgs))
    | _ => none
  | .answer i a fault =>
    match s.procs i with
    | .prompted w =>
      match a with
      | .quit => some (s.goTo i (.purging w.delmsgs))
      | .no => some (s.goTo i (.walking w))
      | .yes =>
        match s.mapped w.idc fault with
        | some h => some (s.goTo i (.copied w h))
        | none => some (s.goTo i (.purging w.delmsgs))
    | _ => none
  | .setRead i ok =>
    match s.procs i with
    | .copied w h =>
      let h := h.setFlag fileRead
      some ((s.substitute w.idc h ok).goTo i (if ok then .menu w h else .walking w))
    | _ => none
  | .leave i delete =>
    match s.procs i with
    | .menu w h =>
      if delete = true ∧ w.delmsgs.length < 1024 then
        some { s.goTo i (.walking { w with delmsgs := w.idc :: w.delmsgs }) with
          confirmed := s.confirmed ++ [h.filename] }
      else some (s.goTo i (.walking w))
    | _ => none
  | .fstat i ok =>
    match s.procs i with
    | .deleting ent h =>
      some (s.goTo i (if ok then .sized ent h s.dir.length else .viewing ent h))
    | .purging [] => some (s.goTo i .idle)
    | .purging (id :: delmsgs) =>
      some (s.goTo i (if ok then .purgeSized id s.dir.length delmsgs else .purging delmsgs))
    | _ => none
  | .remove i =>
    match s.procs i with
    | .sized ent h size =>
      some { s.goTo i (.viewing ent h) with
        dir :=
          ((deleteSized (.file ent (·.filename = h.filename)) size s.dir).map (·.1)).getD s.dir }
    | .purgeSized id size delmsgs =>
      some { s.goTo i (.purging delmsgs) with
        dir := ((deleteSized (.record id) size s.dir).map (·.1)).getD s.dir }
    | _ => none

end

/-- The name of the mail with the number. -/
def nameAt (dir : List ArticleHeader) (n : Nat) : Option Bytes := (getRecord n dir).map (·.filename)

/-- No other session is about to delete by a size that it has read, and none relies on the record
with the number or on a later one. -/
def MayRemove (s : Mailbox ι) (i : ι) (id : Nat) : Prop :=
  ∀ j, j ≠ i → (s.procs j).size? = none ∧ (s.procs j).last < id

/-- A mail is marked, read or answered only while its number is that of the entry shown. Nothing is
delivered while a session is about to delete by a size that it has read; and no session takes a
record out that has a number, or is in front of one, on which another session relies: of the entry
that it marks, reads or answers, of the records that `m_new` walks over and of those it has yet to
delete. -/
def MayStep (s : Mailbox ι) : MailEvent ι → Prop
  | .deliver _ ok => ok = true → ∀ j, (s.procs j).size? = none
  | .mailMark i | .mailRead i | .mailReply i =>
    match s.procs i with
    | .viewing ent h => nameAt s.dir ent = some h.filename
    | _ => True
  | .remove i =>
    match s.procs i with
    | .sized ent h _ =>
      ∀ id ∈ fileNumber ent (·.filename = h.filename) s.dir, s.MayRemove i id
    | .purgeSized id size _ => id ≤ size → s.MayRemove i id
    | _ => True
  | _ => True

instance [Fintype ι] [DecidableEq ι] (s : Mailbox ι) (i : ι) (id : Nat) :
    Decidable (s.MayRemove i id) :=
  inferInstanceAs (Decidable (∀ j, j ≠ i → (s.procs j).size? = none ∧ (s.procs j).last < id))

instance [Fintype ι] [DecidableEq ι] (s : Mailbox ι) (e : MailEvent ι) : Decidable (s.MayStep e) := by
  unfold MayStep
  split
  all_goals first
    | infer_instance
    | (split <;> infer_instance)

/-! ## What a session relies on -/

section
variable {s s' : Mailbox ι} {i : ι} {p : MailPc} {dir dir' : List ArticleHeader}
  {confirmed confirmed' : List Bytes} {n : Nat} {name : Bytes} {h : ArticleHeader}

theorem nameAt_some (hname : nameAt dir n = some name) :
    ∃ x, getRecord n dir = some x ∧ x.filename = name ∧ 0 < n ∧ n ≤ dir.length := by
  obtain ⟨x, hx, hxname⟩ := Option.map_eq_some_iff.mp hname
  obtain ⟨hpos, hmem⟩ := getRecord_some hx
  obtain ⟨hlt, -⟩ := List.getElem?_eq_some_iff.mp hmem
  exact ⟨x, hx, hxname, by omega, by omega⟩

theorem nameAt_of_getRecord {x : ArticleHeader} (hx : getRecord n dir = some x) :
    nameAt dir n = some x.filename := by
  rw [nameAt, hx, Option.map_some]

/-- The names with their numbers are the list of the names. -/
theorem nameAt_congr (hnames : dir'.map (·.filename) = dir.map (·.filename)) :
    nameAt dir' n = nameAt dir n := by
  rw [nameAt, nameAt, ← getRecord_map, ← getRecord_map, hnames]

theorem nameAt_append (hname : nameAt dir n = some name) (x : ArticleHeader) :
    nameAt (dir ++ [x]) n = some name := by
  obtain ⟨y, hy, rfl, -⟩ := nameAt_some hname
  exact nameAt_of_getRecord (getRecord_append hy x)

theorem nameAt_remove {id : Nat} {selected : List ArticleHeader}
    (hplan : deleteRecord id dir = some (dir', selected)) (hlt : n < id) :
    nameAt dir' n = nameAt dir n := by
  rw [nameAt, nameAt, getRecord_deleteRecord hplan (by exact_mod_cast hlt)]

/-- A header written onto a record with its name leaves all names alone. -/
theorem substitute_names (hname : nameAt dir n = some h.filename) :
    ((substituteRecord n h dir).getD dir).map (·.filename) = dir.map (·.filename) := by
  obtain ⟨x, hx, hxname, -⟩ := nameAt_some hname
  obtain ⟨-, hmem⟩ := getRecord_some hx
  obtain ⟨hlt, heq⟩ := List.getElem?_eq_some_iff.mp hmem
  rw [substituteRecord_set hx, Option.getD_some]
  refine List.ext_getElem? fun j => ?_
  rw [List.getElem?_map, List.getElem?_map, List.getElem?_set]
  split
  · rename_i hj
    rw [← hj, hmem, Option.map_some, Option.map_some, hxname]
  · rfl

/-- The record with the number is no mail, or its deletion was confirmed. -/
def Deletable (dir : List ArticleHeader) (confirmed : List Bytes) (n : Nat) : Prop :=
  ∃ name, nameAt dir n = some name ∧ (name = [] ∨ name ∈ confirmed)

structure WalkOk (dir : List ArticleHeader) (confirmed : List Bytes) (w : NewWalk) : Prop where
  idc : w.idc ≤ w.size
  size : w.size ≤ dir.length
  delmsgs : ∀ n ∈ w.delmsgs, Deletable dir confirmed n

def PcOk (dir : List ArticleHeader) (confirmed : List Bytes) : MailPc → Prop
  | .marking ent h | .reading ent h | .replying ent h => nameAt dir ent = some h.filename
  | .deleting _ h => h.filename ∈ confirmed
  | .sized _ h size => h.filename ∈ confirmed ∧ size = dir.length
  | .walking w => WalkOk dir confirmed w ∧ ((w.idc + 1) :: w.delmsgs).Pairwise (· > ·)
  | .prompted w => WalkOk dir confirmed w ∧ (w.idc :: w.delmsgs).Pairwise (· > ·) ∧ 0 < w.idc
  | .copied w h | .menu w h =>
    WalkOk dir confirmed w ∧ (w.idc :: w.delmsgs).Pairwise (· > ·) ∧
      nameAt dir w.idc = some h.filename
  | .purging delmsgs => delmsgs.Pairwise (· > ·) ∧ ∀ n ∈ delmsgs, Deletable dir confirmed n
  | .purgeSized id size delmsgs =>
    size = dir.length ∧ (id :: delmsgs).Pairwise (· > ·) ∧
      ∀ n ∈ id :: delmsgs, Deletable dir confirmed n
  | .idle | .viewing .. | .asking .. => True

theorem Deletable.mono (hdel : Deletable dir confirmed n) (hsub : confirmed ⊆ confirmed')
    (hkeep : ∀ name, nameAt dir n = some name → nameAt dir' n = some name) :
    Deletable dir' confirmed' n := by
  obtain ⟨name, hname, hok⟩ := hdel
  exact ⟨name, hkeep name hname, hok.imp_right (hsub ·)⟩

theorem WalkOk.mono {w : NewWalk} (hw : WalkOk dir confirmed w) (hsub : confirmed ⊆ confirmed')
    (hkeep : ∀ n ≤ w.size, ∀ name, nameAt dir n = some name → nameAt dir' n = some name)
    (hsorted : ∀ n ∈ w.delmsgs, n ≤ w.idc) : WalkOk dir' confirmed' w where
  idc := hw.idc
  size := by
    cases hsize : w.size with
    | zero => exact Nat.zero_le _
    | succ m =>
      obtain ⟨x, hx⟩ := exists_getRecord (by omega) hw.size
      obtain ⟨-, -, -, -, hle⟩ := nameAt_some (hkeep _ (Nat.le_refl _) _ (nameAt_of_getRecord hx))
      omega
  delmsgs n hn := (hw.delmsgs n hn).mono hsub (hkeep n (Nat.le_trans (hsorted n hn) hw.idc))

theorem descending_succ {l : List Nat} (hl : (n :: l).Pairwise (· > ·)) :
    ((n + 1) :: l).Pairwise (· > ·) :=
  hl.of_cons.cons fun _ hm => Nat.lt_succ_of_lt (List.rel_of_pairwise_cons hl hm)

theorem descending_push {l : List Nat} (hl : (n :: l).Pairwise (· > ·)) :
    ((n + 1) :: n :: l).Pairwise (· > ·) := by
  refine hl.cons fun m hm => ?_
  rcases List.mem_cons.mp hm with rfl | hm
  · exact Nat.lt_succ_self _
  · exact Nat.lt_succ_of_lt (List.rel_of_pairwise_cons hl hm)

/-- What a session relies on stays true as long as the records up to its last one keep their names,
and the file its size if the session has read it. -/
theorem PcOk.mono (hp : PcOk dir confirmed p) (hsub : confirmed ⊆ confirmed')
    (hkeep : ∀ n ≤ p.last, ∀ name, nameAt dir n = some name → nameAt dir' n = some name)
    (hsize : p.size? ≠ none → dir'.length = dir.length) : PcOk dir' confirmed' p := by
  cases p with
  | idle | viewing | asking => trivial
  | marking ent h | reading ent h | replying ent h => exact hkeep ent (Nat.le_refl _) _ hp
  | deleting ent h => exact hsub hp
  | sized ent h size => exact ⟨hsub hp.1, hp.2.trans (hsize nofun).symm⟩
  | walking w =>
    obtain ⟨hw, hsorted⟩ := hp
    exact ⟨hw.mono hsub hkeep fun n hn =>
      Nat.le_of_lt_succ (List.rel_of_pairwise_cons hsorted hn), hsorted⟩
  | prompted w =>
    obtain ⟨hw, hsorted, hpos⟩ := hp
    exact ⟨hw.mono hsub hkeep fun n hn =>
      Nat.le_of_lt (List.rel_of_pairwise_cons hsorted hn), hsorted, hpos⟩
  | copied w h | menu w h =>
    obtain ⟨hw, hsorted, hname⟩ := hp
    exact ⟨hw.mono hsub hkeep fun n hn => Nat.le_of_lt (List.rel_of_pairwise_cons hsorted hn),
      hsorted, hkeep w.idc hw.idc _ hname⟩
  | purging delmsgs =>
    obtain ⟨hsorted, hdel⟩ := hp
    refine ⟨hsorted, fun n hn => (hdel n hn).mono hsub (hkeep n ?_)⟩
    cases hsorted with
    | nil => cases hn
    | cons hlt =>
      rcases List.mem_cons.mp hn with rfl | hn
      · exact Nat.le_refl _
      · exact Nat.le_of_lt (hlt n hn)
  | purgeSized id size delmsgs =>
    obtain ⟨heq, hsorted, hdel⟩ := hp
    refine ⟨heq.trans (hsize nofun).symm, hsorted, fun n hn => (hdel n hn).mono hsub (hkeep n ?_)⟩
    rcases List.mem_cons.mp hn with rfl | hn
    · exact Nat.le_refl _
    · exact Nat.le_of_lt (List.rel_of_pairwise_cons hsorted hn)

/-! ## Steps -/

/-- What holds as long as all steps meet the condition. -/
structure MailInv (s : Mailbox ι) : Prop where
  procs : ∀ i, PcOk s.dir s.confirmed (s.procs i)
  writes : ∀ w ∈ s.writes, nameAt w.before w.ent = some w.header.filename
  kept : ∃ removed, (s.dir.map (·.filename) ++ removed).Perm s.arrived ∧
    ∀ name ∈ removed, name = [] ∨ name ∈ s.confirmed

theorem mailInv_start (dir : List ArticleHeader) : MailInv (start (ι := ι) dir) where
  procs _ := trivial
  writes := nofun
  kept := ⟨[], by rw [List.append_nil]; exact .refl _, nofun⟩

theorem MailInv.deliver (I : MailInv s) (hok : ∀ j, (s.procs j).size? = none) (h : ArticleHeader) :
    MailInv { s with dir := s.dir ++ [h], arrived := s.arrived ++ [h.filename] } where
  procs j := (I.procs j).mono (fun _ hmem => hmem) (fun _ _ _ hname => nameAt_append hname h)
    fun hsize => absurd (hok j) hsize
  writes := I.writes
  kept := by
    obtain ⟨removed, hperm, hremoved⟩ := I.kept
    refine ⟨removed, ?_, hremoved⟩
    rw [List.map_append, List.append_assoc]
    calc s.dir.map (·.filename) ++ ([h.filename] ++ removed)
      _ |>.Perm (s.dir.map (·.filename) ++ (removed ++ [h.filename])) :=
        .append_left _ List.perm_append_comm
      _ |>.Perm (s.arrived ++ [h.filename]) := by
        rw [← List.append_assoc]
        exact hperm.append_right _

theorem MailInv.substitute (I : MailInv s) (hname : nameAt s.dir n = some h.filename) (ok : Bool) :
    MailInv (s.substitute n h ok) ∧
      (PcOk s.dir s.confirmed p →
        PcOk (s.substitute n h ok).dir (s.substitute n h ok).confirmed p) := by
  cases ok with
  | false => exact ⟨I, id⟩
  | true =>
    have hnames := substitute_names hname
    have hlen := congrArg List.length hnames
    rw [List.length_map, List.length_map] at hlen
    have hmono : ∀ {p}, PcOk s.dir s.confirmed p →
        PcOk ((substituteRecord n h s.dir).getD s.dir) s.confirmed p := fun hp =>
      hp.mono (fun _ hmem => hmem) (fun _ _ _ hn => (nameAt_congr hnames).trans hn) fun _ => hlen
    refine ⟨⟨fun j => hmono (I.procs j), fun w hw => ?_, ?_⟩, hmono⟩
    · rcases List.mem_append.mp hw with hw | hw
      · exact I.writes w hw
      · rw [List.mem_singleton.mp hw]
        exact hname
    · obtain ⟨removed, hperm, hremoved⟩ := I.kept
      refine ⟨removed, ?_, hremoved⟩
      rw [Mailbox.substitute, if_pos rfl]
      dsimp only
      rw [hnames]
      exact hperm

/-- The records that `m_new` walks over are in the file. -/
theorem WalkOk.mapped {w : NewWalk} (hw : WalkOk s.dir confirmed w) {id : Nat} (hpos : 0 < id)
    (hle : id ≤ w.size) (fault : Bool) :
    ∃ x, s.mapped id fault = some x ∧ nameAt s.dir id = some x.filename := by
  obtain ⟨x, hx⟩ := exists_getRecord hpos (Nat.le_trans hle hw.size)
  refine ⟨x, ?_, nameAt_of_getRecord hx⟩
  rw [Mailbox.mapped, hx]

theorem readNewMail_ok {w : NewWalk} (hw : WalkOk dir confirmed w)
    (hsorted : ((w.idc + 1) :: w.delmsgs).Pairwise (· > ·)) (hlt : w.idc < w.size)
    (hname : nameAt dir (w.idc + 1) = some h.filename) : PcOk dir confirmed (readNewMail w h) := by
  have hdel := hw.delmsgs
  unfold readNewMail
  dsimp only
  split
  case isTrue hempty =>
    refine ⟨⟨hlt, hw.size, fun n hn => ?_⟩, descending_push hsorted⟩
    rcases List.mem_cons.mp hn with rfl | hn
    · exact ⟨[], hempty.1 ▸ hname, .inl rfl⟩
    · exact hdel n hn
  case isFalse =>
    split
    · exact ⟨⟨hlt, hw.size, hdel⟩, descending_succ hsorted⟩
    · exact ⟨⟨hlt, hw.size, hdel⟩, hsorted, Nat.succ_pos _⟩

variable [DecidableEq ι]

/-- A step of a session that leaves the directory alone. -/
theorem MailInv.goTo (I : MailInv s) (hp : PcOk s.dir s.confirmed p) : MailInv (s.goTo i p) where
  procs := (Function.forall_update_iff s.procs (p := fun _ p => PcOk s.dir s.confirmed p)).mpr
    ⟨hp, fun j _ => I.procs j⟩
  writes := I.writes
  kept := I.kept

/-- A deletion is confirmed. -/
theorem MailInv.confirm (I : MailInv s) (name : Bytes)
    (hp : PcOk s.dir (s.confirmed ++ [name]) p) :
    MailInv { s.goTo i p with confirmed := s.confirmed ++ [name] } where
  procs := (Function.forall_update_iff s.procs (p := fun _ p =>
    PcOk s.dir (s.confirmed ++ [name]) p)).mpr ⟨hp, fun j _ =>
      (I.procs j).mono (List.subset_append_left ..) (fun _ _ _ hn => hn) fun _ => rfl⟩
  writes := I.writes
  kept := by
    obtain ⟨removed, hperm, hremoved⟩ := I.kept
    exact ⟨removed, hperm, fun x hx => (hremoved x hx).imp_right (List.mem_append_left _ ·)⟩

/-- A header is written onto the record with its name. -/
theorem MailInv.write (I : MailInv s) (hname : nameAt s.dir n = some h.filename) (ok : Bool)
    (hp : PcOk s.dir s.confirmed p) : MailInv ((s.substitute n h ok).goTo i p) :=
  have ⟨I', hmono⟩ := I.substitute (p := p) hname ok
  I'.goTo (hmono hp)

/-- A record is taken out behind all that other sessions rely on. -/
theorem MailInv.remove (I : MailInv s) {id : Nat} {selected : List ArticleHeader}
    (hok : s.MayRemove i id) (hplan : deleteRecord id s.dir = some (dir', selected))
    (hdel : Deletable s.dir s.confirmed id) (hp : PcOk dir' s.confirmed p) :
    MailInv { s.goTo i p with dir := dir' } where
  procs := (Function.forall_update_iff s.procs (p := fun _ p => PcOk dir' s.confirmed p)).mpr
    ⟨hp, fun j hj => (I.procs j).mono (fun _ hmem => hmem)
      (fun n hn _ hname => (nameAt_remove hplan (Nat.lt_of_le_of_lt hn (hok j hj).2)).trans hname)
      fun hsize => absurd (hok j hj).1 hsize⟩
  writes := I.writes
  kept := by
    obtain ⟨removed, hperm, hremoved⟩ := I.kept
    obtain ⟨x, hx, -, hcut⟩ := deleteRecord_getRecord hplan
    obtain ⟨name, hname, hgone⟩ := hdel
    obtain rfl : x.filename = name := Option.some.inj ((nameAt_of_getRecord hx).symm.trans hname)
    refine ⟨x.filename :: removed, ?_, fun y hy => ?_⟩
    · calc dir'.map (·.filename) ++ x.filename :: removed
        _ |>.Perm (x.filename :: dir'.map (·.filename) ++ removed) := List.perm_middle
        _ |>.Perm (s.dir.map (·.filename) ++ removed) := (hcut.map (·.filename)).symm.append_right _
        _ |>.Perm s.arrived := hperm
    · rcases List.mem_cons.mp hy with rfl | hy
      · exact hgone
      · exact hremoved y hy

theorem MailInv.step_remove (I : MailInv s) {i : ι} (hok : s.MayStep (.remove i))
    (hs : s.step (.remove i) = some s') : MailInv s' := by
  simp only [Mailbox.step] at hs
  split at hs
  · rename_i ent h size hpc
    obtain ⟨hconf, rfl⟩ : PcOk s.dir s.confirmed (.sized ent h size) := hpc ▸ I.procs i
    rw [MayStep, hpc] at hok
    rw [deleteSized_eq, Deletion.plan] at hs
    obtain rfl := Option.some.inj hs
    cases hid : fileNumber ent (·.filename = h.filename) s.dir with
    | none =>
      rw [fileNumber_eq_none hid]
      exact I.goTo (p := .viewing ent h) trivial
    | some id =>
      obtain ⟨heq, x, hx, hfits⟩ := fileNumber_some hid
      obtain ⟨-, -, -, hpos, hle⟩ := nameAt_some (nameAt_of_getRecord hx)
      have hname : nameAt s.dir id = some h.filename :=
        (nameAt_of_getRecord hx).trans (congrArg some (of_decide_eq_true hfits))
      rw [heq]
      cases hplan : deleteRecord id s.dir with
      | none => rw [deleteRecord_eq_none hplan] at hx; cases hx
      | some result =>
        exact I.remove (p := .viewing ent h) (hok id hid) hplan ⟨_, hname, .inr hconf⟩ trivial
  · rename_i id size delmsgs hpc
    obtain ⟨rfl, hsorted, hdel⟩ : PcOk s.dir s.confirmed (.purgeSized id size delmsgs) :=
      hpc ▸ I.procs i
    rw [MayStep, hpc] at hok
    rw [deleteSized_eq, Deletion.plan] at hs
    obtain rfl := Option.some.inj hs
    obtain ⟨name, hname, hgone⟩ := hdel id List.mem_cons_self
    obtain ⟨x, hx, -, -, hle⟩ := nameAt_some hname
    cases hplan : deleteRecord id s.dir with
    | none => rw [deleteRecord_eq_none hplan] at hx; cases hx
    | some result =>
      refine I.remove (p := .purging delmsgs) (hok hle) hplan ⟨name, hname, hgone⟩
        ⟨hsorted.of_cons, fun n hn => ?_⟩
      exact (hdel n (List.mem_cons_of_mem _ hn)).mono (fun _ hmem => hmem) fun _ hn' =>
        (nameAt_remove hplan (List.rel_of_pairwise_cons hsorted hn)).trans hn'
  · cases hs

theorem MailInv.step (I : MailInv s) {e : MailEvent ι} (hok : s.MayStep e)
    (hs : s.step e = some s') : MailInv s' := by
  cases e with
  | deliver h ok =>
    obtain rfl := Option.some.inj hs
    split
    · rename_i hyes
      exact I.deliver (hok hyes) h
    · exact I
  | display i ent =>
    simp only [Mailbox.step] at hs
    split at hs
    · obtain ⟨x, -, rfl⟩ := Option.map_eq_some_iff.mp hs
      exact I.goTo trivial
    · obtain ⟨x, -, rfl⟩ := Option.map_eq_some_iff.mp hs
      exact I.goTo trivial
    · cases hs
  | mailMark i =>
    simp only [Mailbox.step] at hs
    split at hs
    · rename_i ent h hpc
      rw [MayStep, hpc] at hok
      obtain rfl := Option.some.inj hs
      exact I.goTo (p := .marking ent h.toggleMark) (hok.trans (by rw [toggleMark_filename]))
    · cases hs
  | mailRead i =>
    simp only [Mailbox.step] at hs
    split at hs
    · rename_i ent h hpc
      rw [MayStep, hpc] at hok
      obtain rfl := Option.some.inj hs
      exact I.goTo (p := .reading ent h) hok
    · cases hs
  | mailReply i =>
    simp only [Mailbox.step] at hs
    split at hs
    · rename_i ent h hpc
      rw [MayStep, hpc] at hok
      obtain rfl := Option.some.inj hs
      exact I.goTo (p := .replying ent h) hok
    · cases hs
  | mailDel i yes =>
    have hdel : ∀ ent h, MailInv { s.goTo i (.deleting ent h) with
        confirmed := s.confirmed ++ [h.filename] } := fun ent h =>
      I.confirm (p := .deleting ent h) h.filename
        (List.mem_append_right _ (List.mem_singleton_self _))
    simp only [Mailbox.step] at hs
    split at hs
    · rename_i ent h hpc
      split at hs
      · exact Option.some.inj hs ▸ hdel ent h
      · exact Option.some.inj hs ▸ I.goTo trivial
    · rename_i ent h hpc
      split at hs
      · exact Option.some.inj hs ▸ hdel ent h
      · exact Option.some.inj hs ▸ I.goTo trivial
    · cases hs
  | mark i ok =>
    simp only [Mailbox.step] at hs
    split at hs
    · rename_i ent h hpc
      have hname : PcOk s.dir s.confirmed (.marking ent h) := hpc ▸ I.procs i
      exact Option.some.inj hs ▸ I.write hname ok trivial
    · cases hs
  | sent i ok =>
    simp only [Mailbox.step] at hs
    split at hs
    · rename_i ent h hpc
      have hname : PcOk s.dir s.confirmed (.reading ent h) := hpc ▸ I.procs i
      exact Option.some.inj hs ▸ I.write (h := h.setFlag mailReplied) hname ok hname
    · rename_i ent h hpc
      have hname : PcOk s.dir s.confirmed (.replying ent h) := hpc ▸ I.procs i
      exact Option.some.inj hs ▸ I.write (h := h.setFlag mailReplied) hname ok trivial
    · rename_i w h hpc
      have hmenu : PcOk s.dir s.confirmed (.menu w h) := hpc ▸ I.procs i
      exact Option.some.inj hs ▸ I.write (h := h.setFlag mailReplied) hmenu.2.2 ok hmenu
    · cases hs
  | notSent i =>
    simp only [Mailbox.step] at hs
    split at hs
    · exact Option.some.inj hs ▸ I.goTo trivial
    · cases hs
  | endRead i ok delete =>
    simp only [Mailbox.step] at hs
    split at hs
    · rename_i ent h hpc
      have hname : PcOk s.dir s.confirmed (.reading ent h) := hpc ▸ I.procs i
      obtain rfl := Option.some.inj hs
      refine I.write (h := h.setFlag fileRead) hname ok ?_
      split <;> trivial
    · cases hs
  | mNew i =>
    have hstart : PcOk s.dir s.confirmed (.walking ⟨s.dir.length, 0, []⟩) :=
      ⟨⟨Nat.zero_le _, Nat.le_refl _, nofun⟩, List.pairwise_singleton ..⟩
    simp only [Mailbox.step] at hs
    split at hs
    · exact Option.some.inj hs ▸ I.goTo hstart
    · exact Option.some.inj hs ▸ I.goTo hstart
    · cases hs
  | next i fault =>
    simp only [Mailbox.step] at hs
    split at hs
    · rename_i w hpc
      obtain ⟨hw, hsorted⟩ : PcOk s.dir s.confirmed (.walking w) := hpc ▸ I.procs i
      split at hs
      · rename_i hlt
        obtain ⟨x, hx, hname⟩ := hw.mapped (Nat.succ_pos _) hlt fault
        rw [hx] at hs
        exact Option.some.inj hs ▸ I.goTo (readNewMail_ok hw hsorted hlt hname)
      · exact Option.some.inj hs ▸ I.goTo (p := .purging w.delmsgs) ⟨hsorted.of_cons, hw.delmsgs⟩
    · cases hs
  | answer i a fault =>
    simp only [Mailbox.step] at hs
    split at hs
    · rename_i w hpc
      obtain ⟨hw, hsorted, hpos⟩ : PcOk s.dir s.confirmed (.prompted w) := hpc ▸ I.procs i
      cases a with
      | quit =>
        exact Option.some.inj hs ▸ I.goTo (p := .purging w.delmsgs) ⟨hsorted.of_cons, hw.delmsgs⟩
      | no =>
        exact Option.some.inj hs ▸ I.goTo (p := .walking w) ⟨hw, descending_succ hsorted⟩
      | yes =>
        obtain ⟨x, hx, hname⟩ := hw.mapped hpos hw.idc fault
        dsimp only at hs
        rw [hx] at hs
        exact Option.some.inj hs ▸ I.goTo (p := .copied w x) ⟨hw, hsorted, hname⟩
    · cases hs
  | setRead i ok =>
    simp only [Mailbox.step] at hs
    split at hs
    · rename_i w h hpc
      obtain ⟨hw, hsorted, hname⟩ : PcOk s.dir s.confirmed (.copied w h) := hpc ▸ I.procs i
      obtain rfl := Option.some.inj hs
      refine I.write (h := h.setFlag fileRead) hname ok ?_
      split
      · exact ⟨hw, hsorted, hname⟩
      · exact ⟨hw, descending_succ hsorted⟩
    · cases hs
  | leave i delete =>
    simp only [Mailbox.step] at hs
    split at hs
    · rename_i w h hpc
      obtain ⟨hw, hsorted, hname⟩ : PcOk s.dir s.confirmed (.menu w h) := hpc ▸ I.procs i
      split at hs
      · obtain rfl := Option.some.inj hs
        refine I.confirm h.filename ⟨⟨hw.idc, hw.size, fun n hn => ?_⟩, descending_push hsorted⟩
        rcases List.mem_cons.mp hn with rfl | hn
        · exact ⟨_, hname, .inr (List.mem_append_right _ (List.mem_singleton_self _))⟩
        · exact (hw.delmsgs n hn).mono (List.subset_append_left ..) fun _ hn => hn
      · exact Option.some.inj hs ▸ I.goTo (p := .walking w) ⟨hw, descending_succ hsorted⟩
    · cases hs
  | fstat i ok =>
    simp only [Mailbox.step] at hs
    split at hs
    · rename_i ent h hpc
      have hdel : PcOk s.dir s.confirmed (.deleting ent h) := hpc ▸ I.procs i
      obtain rfl := Option.some.inj hs
      refine I.goTo ?_
      split
      · exact ⟨hdel, rfl⟩
      · trivial
    · exact Option.some.inj hs ▸ I.goTo trivial
    · rename_i id delmsgs hpc
      obtain ⟨hsorted, hdel⟩ : PcOk s.dir s.confirmed (.purging (id :: delmsgs)) := hpc ▸ I.procs i
      obtain rfl := Option.some.inj hs
      refine I.goTo ?_
      split
      · exact ⟨rfl, hsorted, hdel⟩
      · exact ⟨hsorted.of_cons, fun n hn => hdel n (List.mem_cons_of_mem _ hn)⟩
    · cases hs
  | remove i => exact I.step_remove hok hs

/-- In every run of any number of sessions and deliveries all of whose steps meet the condition: a
header is written back only onto the record with its name, and the directory has all mails that were
there or have arrived, up to those whose deletion was confirmed and records without a name. -/
theorem mails_kept (hs : Reach step MayStep (start dir) s) :
    (∀ w ∈ s.writes, nameAt w.before w.ent = some w.header.filename) ∧
      ∃ removed, (s.dir.map (·.filename) ++ removed).Perm s.arrived ∧
        ∀ name ∈ removed, name = [] ∨ name ∈ s.confirmed :=
  have I := hs.invariant MailInv (mailInv_start dir) fun _ _ _ I hok hs => I.step hok hs
  ⟨I.writes, I.kept⟩

/-- A mailbox with three mails, all new. -/
def demoMailbox : Mailbox (Fin 2) :=
  start [⟨⟨bytes "M.1.A", 1⟩, 0⟩, ⟨⟨bytes "M.2.A", 2⟩, 0⟩, ⟨⟨bytes "M.3.A", 3⟩, 0⟩]

/-- One session answers the first mail, while the other one reads and deletes the second one among
its new mails and another mail arrives. -/
def demoKept {ι : Type} (i j : ι) : List (MailEvent ι) :=
  [.display i 1, .mNew j, .mailReply i, .next j false, .answer j .no false, .next j false,
    .answer j .yes false, .setRead j true, .deliver ⟨⟨bytes "M.4.A", 4⟩, 0⟩ true, .leave j true,
    .next j false, .answer j .quit false, .fstat j true, .sent i true, .remove j, .fstat j true]

theorem mails_kept_answered : ∃ s : Mailbox (Fin 2),
    s.dir.map (·.filename) = [bytes "M.1.A", bytes "M.3.A", bytes "M.4.A"] ∧
      (∀ w ∈ s.writes, nameAt w.before w.ent = some w.header.filename) ∧
        ∃ removed, (s.dir.map (·.filename) ++ removed).Perm s.arrived ∧
          ∀ name ∈ removed, name = [] ∨ name ∈ s.confirmed := by
  have hrun : Reach.Meets Mailbox.step MayStep demoMailbox (demoKept 0 1) := by
    decide +kernel
  obtain ⟨s, hs, h⟩ := Reach.of_meets _ hrun
  have hend : ((demoKept 0 1).foldlM Mailbox.step demoMailbox).map
      (fun s => s.dir.map (·.filename)) =
          some [bytes "M.1.A", bytes "M.3.A", bytes "M.4.A"] := by decide +kernel
  rw [hs] at hend
  exact ⟨s, Option.some.inj hend, mails_kept h⟩

/-- The first mail is deleted in one session, and then the second entry on the other one's screen is
marked. -/
def demoOverwritten {ι : Type} (i j : ι) : List (MailEvent ι) :=
  [.display i 2, .display j 1, .mailDel j true, .fstat j true, .remove j, .mailMark i, .mark i true]

theorem mail_overwritten : ¬∀ s : Mailbox (Fin 2),
    Reach Mailbox.step (fun _ _ => True) demoMailbox s →
      (∀ w ∈ s.writes, nameAt w.before w.ent = some w.header.filename) ∧
        ∃ removed, (s.dir.map (·.filename) ++ removed).Perm s.arrived ∧
          ∀ name ∈ removed, name = [] ∨ name ∈ s.confirmed := by
  intro hclaim
  have hrun : Reach.Meets Mailbox.step (fun _ _ => True) demoMailbox
      (demoOverwritten 0 1) := by decide +kernel
  obtain ⟨s, hs, h⟩ := Reach.of_meets _ hrun
  have hend : ((demoOverwritten 0 1).foldlM Mailbox.step demoMailbox).map
      (fun s => s.writes.map fun w => (nameAt w.before w.ent, w.header.filename)) =
      some [(some (bytes "M.3.A"), bytes "M.2.A")] := by decide +kernel
  rw [hs] at hend
  have hwrites : s.writes.map (fun w => (nameAt w.before w.ent, w.header.filename)) =
      [(some (bytes "M.3.A"), bytes "M.2.A")] := Option.some.inj hend
  obtain ⟨w, hw, heq⟩ := List.mem_map.mp (hwrites ▸ List.mem_singleton_self _)
  obtain ⟨hold, hnew⟩ := Prod.mk.inj heq
  have hsame := (hclaim s h).1 w hw
  rw [hold, hnew] at hsame
  exact absurd hsame (by decide)

end

end Mailbox

end ArgoBbs

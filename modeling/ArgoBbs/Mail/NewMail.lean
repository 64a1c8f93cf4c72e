import ArgoBbs.Lib.Numbers
import ArgoBbs.Mail.Mailbox

/-! # The new mails of one session

A run of `m_new` while no other session works on the mailbox (`mail.c`). `read_new_mail` walks over
the records that `apply_record` has mapped and collects in `delmsgs` the numbers of those to be
deleted; `m_new` deletes them afterwards, the last one first. Mails are delivered meanwhile. -/

namespace ArgoBbs

/-- What happens while `m_new` runs. -/
inductive NewEvent
  | deliver (h : ArticleHeader) (ok : Bool)
  | next (fault : Bool)
  | answer (a : NewAnswer) (fault : Bool)
  | setRead (ok : Bool)
  | sent (ok : Bool)
  | leave (delete : Bool)
  | fstat (ok : Bool)
  | remove

def NewEvent.inSession {ι : Type} (i : ι) : NewEvent → MailEvent ι
  | .deliver h ok => .deliver h ok
  | .next fault => .next i fault
  | .answer a fault => .answer i a fault
  | .setRead ok => .setRead i ok
  | .sent ok => .sent i ok
  | .leave delete => .leave i delete
  | .fstat ok => .fstat i ok
  | .remove => .remove i

/-- No call fails. -/
def NewEvent.succeeds : NewEvent → Bool
  | .deliver _ ok | .setRead ok | .sent ok | .fstat ok => ok
  | _ => true

/-- The numbers in `delmsgs`, the last one first. -/
def MailPc.delmsgs : MailPc → List Nat
  | .walking w | .prompted w | .copied w _ | .menu w _ => w.delmsgs
  | .purging delmsgs => delmsgs
  | .purgeSized id _ delmsgs => id :: delmsgs
  | _ => []

/-- What the user has done in the run, by the numbers of the mails: those read, those answered, and
those to go, which are the mails whose deletion was confirmed and the invalid entries visited, up to
1024; and the mails delivered. -/
structure NewLog where
  read : List Nat
  replied : List Nat
  doomed : List Nat
  delivered : List ArticleHeader

namespace NewLog

/-- What is done by an event of the session at `p`. -/
def note (l : NewLog) (dir : List ArticleHeader) (p : MailPc) : NewEvent → NewLog
  | .deliver h ok => if ok then { l with delivered := l.delivered ++ [h] } else l
  | .next _ =>
    match p with
    | .walking w =>
      if Mailbox.nameAt dir (w.idc + 1) = some [] ∧ w.idc < w.size ∧ l.doomed.length < 1024 then
        { l with doomed := (w.idc + 1) :: l.doomed }
      else l
    | _ => l
  | .setRead _ =>
    match p with
    | .copied w _ => { l with read := w.idc :: l.read }
    | _ => l
  | .sent ok =>
    match p with
    | .menu w _ => if ok then { l with replied := w.idc :: l.replied } else l
    | _ => l
  | .leave delete =>
    match p with
    | .menu w _ =>
      if delete = true ∧ l.doomed.length < 1024 then { l with doomed := w.idc :: l.doomed } else l
    | _ => l
  | .answer .. | .fstat _ | .remove => l

/-- The flags that the mail with the number has got. -/
def flags (l : NewLog) (n : Nat) : BitVec 32 :=
  (if n ∈ l.read then fileRead else 0) ||| (if n ∈ l.replied then mailReplied else 0)

/-- The mails at the start with the flags they have got. -/
def flagged (l : NewLog) (dir : List ArticleHeader) : List ArticleHeader :=
  dir.mapIdx fun i h => h.setFlag (l.flags (i + 1))

/-- The `.DIR` that a run on a mailbox with the mails `dir` is to leave. -/
def result (l : NewLog) (dir : List ArticleHeader) : List ArticleHeader :=
  withoutNumbers l.doomed (l.flagged dir) ++ l.delivered

end NewLog

/-- A run of `m_new`: the mailbox and what was done. -/
structure NewRun (ι : Type) where
  box : Mailbox ι
  log : NewLog

namespace NewRun
variable {ι : Type} [DecidableEq ι]

/-- `m_new` has been called: `delcnt` and `idc` are 0, and `apply_record` has mapped `.DIR`. -/
def start (i : ι) (dir : List ArticleHeader) : NewRun ι :=
  ⟨(Mailbox.start dir).goTo i (.walking ⟨dir.length, 0, []⟩), ⟨[], [], [], []⟩⟩

theorem start_mNew (i : ι) (dir : List ArticleHeader) :
    (Mailbox.start dir).step (.mNew i) = some (start i dir).box := rfl

def step (i : ι) (r : NewRun ι) (e : NewEvent) : Option (NewRun ι) :=
  (r.box.step (e.inSession i)).map fun box => ⟨box, r.log.note r.box.dir (r.box.procs i) e⟩

/-- No mail is delivered between the `fstat` of `delete_record` and its lock, and neither
`substitute_record` nor `fstat` fails. -/
def MayStep (i : ι) (r : NewRun ι) : NewEvent → Prop
  | .deliver _ ok => ok = true → (r.box.procs i).size? = none
  | .setRead ok | .fstat ok => ok = true
  | _ => True

instance (i : ι) (r : NewRun ι) (e : NewEvent) : Decidable (MayStep i r e) := by
  unfold MayStep
  split <;> infer_instance

end NewRun

/-! ## The flags -/

namespace NewLog
variable {l l' : NewLog} {dir : List ArticleHeader} {n : Nat} {h : ArticleHeader}

@[simp] theorem length_flagged : (l.flagged dir).length = dir.length := List.length_mapIdx

theorem flagged_start : NewLog.flagged ⟨[], [], [], []⟩ dir = dir := by
  refine List.ext_getElem? fun j => ?_
  rw [flagged, List.getElem?_mapIdx]
  simp [flags, ArticleHeader.setFlag]

/-- One mail gets a flag. -/
theorem flagged_set {mask : BitVec 32} (hpos : 0 < n) (hn : l'.flags n = l.flags n ||| mask)
    (hother : ∀ m, m ≠ n → l'.flags m = l.flags m) (hx : (l.flagged dir)[n - 1]? = some h) :
    l'.flagged dir = (l.flagged dir).set (n - 1) (h.setFlag mask) := by
  refine List.ext_getElem? fun j => ?_
  rw [List.getElem?_set, flagged, List.getElem?_mapIdx]
  split
  case isTrue hj =>
    rw [flagged, List.getElem?_mapIdx] at hx
    obtain ⟨y, hy, rfl⟩ := Option.map_eq_some_iff.mp hx
    obtain ⟨hlt, -⟩ := List.getElem?_eq_some_iff.mp hy
    rw [← hj, hy, length_flagged, if_pos hlt, Option.map_some, Nat.sub_add_cancel hpos, hn]
    simp only [ArticleHeader.setFlag, BitVec.or_assoc]
  case isFalse hj =>
    rw [flagged, List.getElem?_mapIdx, hother (j + 1) (by omega)]

theorem flags_read : ({ l with read := n :: l.read } : NewLog).flags n = l.flags n ||| fileRead := by
  unfold flags
  rw [if_pos List.mem_cons_self]
  by_cases hread : n ∈ l.read <;> by_cases hreplied : n ∈ l.replied <;>
    simp only [hread, hreplied, if_true, if_false] <;> decide

theorem flags_replied :
    ({ l with replied := n :: l.replied } : NewLog).flags n = l.flags n ||| mailReplied := by
  unfold flags
  rw [if_pos List.mem_cons_self]
  by_cases hread : n ∈ l.read <;> by_cases hreplied : n ∈ l.replied <;>
    simp only [hread, hreplied, if_true, if_false] <;> decide

theorem flagged_read (hpos : 0 < n) (hx : (l.flagged dir)[n - 1]? = some h) :
    ({ l with read := n :: l.read } : NewLog).flagged dir =
      (l.flagged dir).set (n - 1) (h.setFlag fileRead) :=
  flagged_set hpos flags_read (fun m hm => by simp only [flags, List.mem_cons, hm, false_or]) hx

theorem flagged_replied (hpos : 0 < n) (hx : (l.flagged dir)[n - 1]? = some h) :
    ({ l with replied := n :: l.replied } : NewLog).flagged dir =
      (l.flagged dir).set (n - 1) (h.setFlag mailReplied) :=
  flagged_set hpos flags_replied (fun m hm => by simp only [flags, List.mem_cons, hm, false_or]) hx

end NewLog

/-! ## Where the run is -/

/-- The walk stands in front of or on a record, and `.DIR` has the mails of the start with their
flags and those delivered. -/
structure WalkAt (dir₀ dir : List ArticleHeader) (l : NewLog) (w : NewWalk) : Prop where
  size : w.size = dir₀.length
  idc : w.idc ≤ w.size
  delmsgs : w.delmsgs = l.doomed
  dir : dir = l.flagged dir₀ ++ l.delivered

/-- What holds at each point of a run. While records are deleted, the numbers that are left are in
front of all those done. -/
def NewAt (dir₀ dir : List ArticleHeader) (l : NewLog) : MailPc → Prop
  | .walking w => WalkAt dir₀ dir l w ∧ ((w.idc + 1) :: l.doomed).Pairwise (· > ·)
  | .prompted w => WalkAt dir₀ dir l w ∧ (w.idc :: l.doomed).Pairwise (· > ·) ∧ 0 < w.idc
  | .copied w h =>
    WalkAt dir₀ dir l w ∧ (w.idc :: l.doomed).Pairwise (· > ·) ∧ getRecord w.idc dir = some h
  | .menu w h =>
    WalkAt dir₀ dir l w ∧ (w.idc :: l.doomed).Pairwise (· > ·) ∧
      ∃ x, getRecord w.idc dir = some x ∧ h.setFlag mailReplied = x.setFlag mailReplied
  | .purging delmsgs =>
    ∃ done, l.doomed = done ++ delmsgs ∧
      dir = withoutNumbers done (l.flagged dir₀) ++ l.delivered
  | .purgeSized id size delmsgs =>
    size = dir.length ∧ ∃ done, l.doomed = done ++ id :: delmsgs ∧
      dir = withoutNumbers done (l.flagged dir₀) ++ l.delivered
  | .idle => dir = l.result dir₀
  | _ => False

structure NewInv (dir₀ : List ArticleHeader) (i : ι) (r : NewRun ι) : Prop where
  sorted : r.log.doomed.Pairwise (· > ·)
  bound : ∀ n ∈ r.log.doomed, 0 < n ∧ n ≤ dir₀.length
  pc : NewAt dir₀ r.box.dir r.log (r.box.procs i)

section
variable {dir₀ dir : List ArticleHeader} {l : NewLog} {p : MailPc} {w : NewWalk} {n : Nat}
  {h : ArticleHeader}

/-- A mail is delivered. -/
theorem NewAt.deliver (hp : NewAt dir₀ dir l p) (hsize : p.size? = none) (h : ArticleHeader) :
    NewAt dir₀ (dir ++ [h]) { l with delivered := l.delivered ++ [h] } p := by
  have hwalk : ∀ w, WalkAt dir₀ dir l w →
      WalkAt dir₀ (dir ++ [h]) { l with delivered := l.delivered ++ [h] } w := fun w hw =>
    ⟨hw.size, hw.idc, hw.delmsgs, by rw [hw.dir, List.append_assoc]; rfl⟩
  cases p with
  | walking w => exact ⟨hwalk w hp.1, hp.2⟩
  | prompted w => exact ⟨hwalk w hp.1, hp.2⟩
  | copied w x => exact ⟨hwalk w hp.1, hp.2.1, getRecord_append hp.2.2 h⟩
  | menu w x =>
    obtain ⟨hw, hsorted, y, hy, hsame⟩ := hp
    exact ⟨hwalk w hw, hsorted, y, getRecord_append hy h, hsame⟩
  | purging delmsgs =>
    obtain ⟨done, hdone, hdir⟩ := hp
    exact ⟨done, hdone, by rw [hdir, List.append_assoc]; rfl⟩
  | purgeSized => cases hsize
  | idle =>
    change dir ++ [h] = _
    rw [hp, NewLog.result, List.append_assoc]
    rfl
  | _ => cases hp

/-- The record that the walk stands on is one of the mails of the start. -/
theorem WalkAt.getRecord (hw : WalkAt dir₀ dir l w) (hpos : 0 < n) (hn : n ≤ w.size) :
    ∃ x, (l.flagged dir₀)[n - 1]? = some x ∧ getRecord n dir = some x := by
  have hlt : n - 1 < (l.flagged dir₀).length := by
    rw [NewLog.length_flagged, ← hw.size]
    omega
  refine ⟨_, List.getElem?_eq_getElem hlt, ?_⟩
  rw [ArgoBbs.getRecord, if_neg (by omega), Int.toNat_natCast, hw.dir,
    List.getElem?_append_left hlt, List.getElem?_eq_getElem hlt]

/-- The header of the mail that the walk stands on is written back with a flag. -/
theorem WalkAt.substitute (l' : NewLog) {x : ArticleHeader} (hw : WalkAt dir₀ dir l w)
    (hpos : 0 < w.idc) (hdoomed : l'.doomed = l.doomed) (hdelivered : l'.delivered = l.delivered)
    (hx : ArgoBbs.getRecord w.idc dir = some x)
    (hflag : ∀ y, (l.flagged dir₀)[w.idc - 1]? = some y →
      l'.flagged dir₀ = (l.flagged dir₀).set (w.idc - 1) (y.setFlag mask)) :
    WalkAt dir₀ ((substituteRecord w.idc (x.setFlag mask) dir).getD dir) l' w ∧
      ArgoBbs.getRecord w.idc ((substituteRecord w.idc (x.setFlag mask) dir).getD dir) =
        some (x.setFlag mask) := by
  obtain ⟨y, hy, hrec⟩ := hw.getRecord hpos hw.idc
  obtain rfl : x = y := Option.some.inj (hx.symm.trans hrec)
  obtain ⟨hlt, -⟩ := List.getElem?_eq_some_iff.mp hy
  have hlt' : w.idc - 1 < dir.length := by
    rw [hw.dir, List.length_append]
    omega
  rw [substituteRecord_set hx, Option.getD_some, Int.toNat_natCast]
  refine ⟨⟨hw.size, hw.idc, hw.delmsgs.trans hdoomed.symm, ?_⟩, ?_⟩
  · rw [hflag x hy, hdelivered, hw.dir, List.set_append_left _ _ hlt]
  · rw [ArgoBbs.getRecord, if_neg (by omega), Int.toNat_natCast, List.getElem?_set_self hlt']

/-- `read_new_mail` up to its question. -/
theorem WalkAt.readNewMail (hw : WalkAt dir₀ dir l w)
    (hsorted : ((w.idc + 1) :: l.doomed).Pairwise (· > ·)) (hlt : w.idc < w.size)
    (hx : ArgoBbs.getRecord (w.idc + 1 : Nat) dir = some h) (fault : Bool) :
    NewAt dir₀ dir (l.note dir (.walking w) (.next fault)) (ArgoBbs.readNewMail w h) := by
  have hnote : Mailbox.nameAt dir (w.idc + 1) = some [] ∧ w.idc < w.size ∧
      l.doomed.length < 1024 ↔ h.filename = [] ∧ w.delmsgs.length < 1024 := by
    rw [Mailbox.nameAt_of_getRecord hx, Option.some.injEq, hw.delmsgs]
    exact ⟨fun h => ⟨h.1, h.2.2⟩, fun h => ⟨h.1, hlt, h.2⟩⟩
  simp only [NewLog.note, hnote, ArgoBbs.readNewMail]
  split
  case isTrue hempty =>
    exact ⟨⟨hw.size, hlt, congrArg _ hw.delmsgs, hw.dir⟩, Mailbox.descending_push hsorted⟩
  case isFalse =>
    have hw' : WalkAt dir₀ dir l { w with idc := w.idc + 1 } :=
      ⟨hw.size, hlt, hw.delmsgs, hw.dir⟩
    split
    · exact ⟨hw', Mailbox.descending_succ hsorted⟩
    · exact ⟨hw', hsorted, Nat.succ_pos _⟩

/-- The walk is over. -/
theorem WalkAt.purging (hw : WalkAt dir₀ dir l w) : NewAt dir₀ dir l (.purging w.delmsgs) :=
  ⟨[], hw.delmsgs.symm, by rw [withoutNumbers_nil, ← hw.dir]⟩

/-- A record is deleted that is in front of all those deleted before. -/
theorem NewAt.remove {id : Nat} {delmsgs : List Nat} {size : Nat}
    (hp : NewAt dir₀ dir l (.purgeSized id size delmsgs)) (hsorted : l.doomed.Pairwise (· > ·))
    (hbound : ∀ n ∈ l.doomed, 0 < n ∧ n ≤ dir₀.length) :
    NewAt dir₀ (((deleteSized (.record id) size dir).map (·.1)).getD dir) l (.purging delmsgs) := by
  obtain ⟨rfl, done, hdone, hdir⟩ := hp
  obtain ⟨hpos, hle⟩ := hbound id (hdone ▸ List.mem_append_right _ List.mem_cons_self)
  have hlt : ∀ n ∈ done, id < n := fun n hn =>
    (List.pairwise_append.mp (hdone ▸ hsorted)).2.2 n hn id List.mem_cons_self
  have hle' : id ≤ (l.flagged dir₀).length := by rwa [NewLog.length_flagged]
  have hlen := le_length_withoutNumbers hle' hlt
  have hplan : ¬((id : Int) ≤ 0 ∨ (dir.length : Int) < id) := by
    rw [hdir, List.length_append]
    omega
  refine ⟨done ++ [id], by rw [hdone, List.append_assoc]; rfl, ?_⟩
  rw [deleteSized_eq, Deletion.plan, deleteRecord, if_neg hplan, Option.map_some, Option.getD_some,
    cutCell, Int.toNat_natCast, Nat.sub_add_cancel hpos, hdir,
    List.take_append_of_le_length (by omega), List.drop_append_of_le_length hlen,
    ← List.append_assoc, withoutNumbers_concat hpos hle' hlt]

end

/-! ## Steps -/

section
variable {ι : Type} [DecidableEq ι] {i : ι} {r r' : NewRun ι} {dir₀ : List ArticleHeader}
  {e : NewEvent} {n : Nat}

omit [DecidableEq ι] in
/-- The point that the session is at and what `.DIR` has there. -/
theorem NewInv.of_pc {p : MailPc} (hpc : r.box.procs i = p)
    (hsorted : r.log.doomed.Pairwise (· > ·))
    (hbound : ∀ n ∈ r.log.doomed, 0 < n ∧ n ≤ dir₀.length)
    (hp : NewAt dir₀ r.box.dir r.log p) : NewInv dir₀ i r :=
  ⟨hsorted, hbound, hpc ▸ hp⟩

theorem procs_goTo {s : Mailbox ι} {p : MailPc} : (s.goTo i p).procs i = p :=
  Function.update_self ..

omit [DecidableEq ι] in
/-- One number more is put on the list of deletions. -/
theorem NewInv.doom (I : NewInv dir₀ i r) (hpos : 0 < n) (hle : n ≤ dir₀.length) :
    ∀ m ∈ n :: r.log.doomed, 0 < m ∧ m ≤ dir₀.length :=
  List.forall_mem_cons.mpr ⟨⟨hpos, hle⟩, I.bound⟩

theorem newInv_start (i : ι) (dir : List ArticleHeader) : NewInv dir i (NewRun.start i dir) := by
  refine .of_pc procs_goTo .nil (List.forall_mem_nil _) ⟨⟨rfl, Nat.zero_le _, rfl, ?_⟩,
    List.pairwise_singleton ..⟩
  change dir = NewLog.flagged ⟨[], [], [], []⟩ dir ++ []
  rw [List.append_nil, NewLog.flagged_start]

theorem NewInv.step (I : NewInv dir₀ i r) (hok : NewRun.MayStep i r e)
    (hs : r.step i e = some r') : NewInv dir₀ i r' := by
  obtain ⟨box, hbox, rfl⟩ := Option.map_eq_some_iff.mp hs
  have hpc := I.pc
  cases e with
  | deliver h ok =>
    obtain rfl := Option.some.inj hbox
    cases ok with
    | false => exact I
    | true => exact ⟨I.sorted, I.bound, hpc.deliver (hok rfl) h⟩
  | next fault =>
    simp only [NewEvent.inSession, Mailbox.step] at hbox
    split at hbox
    case h_2 => cases hbox
    case h_1 w hw =>
      rw [hw] at hpc
      obtain ⟨hwalk, hsorted⟩ := hpc
      rw [hw]
      split at hbox
      case isTrue hlt =>
        obtain ⟨x, -, hx⟩ := hwalk.getRecord (n := w.idc + 1) (Nat.succ_pos _) hlt
        have hmapped : r.box.mapped (w.idc + 1) fault = some x := by rw [Mailbox.mapped, hx]
        rw [hmapped] at hbox
        obtain rfl := Option.some.inj hbox
        refine .of_pc procs_goTo ?_ ?_ (hwalk.readNewMail hsorted hlt hx fault)
        · rw [NewLog.note]
          split
          · exact hsorted
          · exact I.sorted
        · rw [NewLog.note]
          split
          · exact I.doom (Nat.succ_pos _) (hwalk.size ▸ hlt)
          · exact I.bound
      case isFalse hlt =>
        obtain rfl := Option.some.inj hbox
        rw [NewLog.note, if_neg fun h => hlt h.2.1]
        exact .of_pc procs_goTo I.sorted I.bound hwalk.purging
  | answer a fault =>
    simp only [NewEvent.inSession, Mailbox.step] at hbox
    split at hbox
    case h_2 => cases hbox
    case h_1 w hw =>
      rw [hw] at hpc
      obtain ⟨hwalk, hsorted, hpos⟩ := hpc
      cases a with
      | quit =>
        obtain rfl := Option.some.inj hbox
        exact .of_pc procs_goTo I.sorted I.bound hwalk.purging
      | no =>
        obtain rfl := Option.some.inj hbox
        exact .of_pc procs_goTo I.sorted I.bound ⟨hwalk, Mailbox.descending_succ hsorted⟩
      | yes =>
        obtain ⟨x, -, hx⟩ := hwalk.getRecord hpos hwalk.idc
        have hmapped : r.box.mapped w.idc fault = some x := by rw [Mailbox.mapped, hx]
        dsimp only at hbox
        rw [hmapped] at hbox
        obtain rfl := Option.some.inj hbox
        exact .of_pc procs_goTo I.sorted I.bound ⟨hwalk, hsorted, hx⟩
  | setRead ok =>
    obtain rfl : ok = true := hok
    simp only [NewEvent.inSession, Mailbox.step] at hbox
    split at hbox
    case h_2 => cases hbox
    case h_1 w h hw =>
      rw [hw] at hpc
      obtain ⟨hwalk, hsorted, hx⟩ := hpc
      rw [hw]
      obtain rfl := Option.some.inj hbox
      have hpos : 0 < w.idc := by exact_mod_cast (getRecord_some hx).1
      obtain ⟨hwalk', hx'⟩ := hwalk.substitute { r.log with read := w.idc :: r.log.read } hpos rfl
        rfl hx fun y hy => NewLog.flagged_read hpos hy
      exact .of_pc procs_goTo I.sorted I.bound ⟨hwalk', hsorted, _, hx', rfl⟩
  | sent ok =>
    simp only [NewEvent.inSession, Mailbox.step] at hbox
    split at hbox
    case h_1 ent h hw => rw [hw] at hpc; cases hpc
    case h_2 ent h hw => rw [hw] at hpc; cases hpc
    case h_4 => cases hbox
    case h_3 w h hw =>
      rw [hw] at hpc
      obtain ⟨hwalk, hsorted, x, hx, hsame⟩ := hpc
      rw [hw]
      obtain rfl := Option.some.inj hbox
      cases ok with
      | false =>
        exact .of_pc procs_goTo I.sorted I.bound ⟨hwalk, hsorted, x, hx, by
          simpa only [ArticleHeader.setFlag, BitVec.or_assoc, BitVec.or_self] using hsame⟩
      | true =>
        have hpos : 0 < w.idc := by exact_mod_cast (getRecord_some hx).1
        obtain ⟨hwalk', hx'⟩ := hwalk.substitute { r.log with replied := w.idc :: r.log.replied }
          hpos rfl rfl hx fun y hy => NewLog.flagged_replied hpos hy
        rw [← hsame] at hwalk' hx'
        exact .of_pc procs_goTo I.sorted I.bound ⟨hwalk', hsorted, _, hx', rfl⟩
  | leave delete =>
    simp only [NewEvent.inSession, Mailbox.step] at hbox
    split at hbox
    case h_2 => cases hbox
    case h_1 w h hw =>
      rw [hw] at hpc
      obtain ⟨hwalk, hsorted, x, hx, -⟩ := hpc
      rw [hw, NewLog.note]
      rw [hwalk.delmsgs] at hbox
      split at hbox
      case isTrue hdel =>
        obtain rfl := Option.some.inj hbox
        rw [if_pos hdel]
        have hpos : 0 < w.idc := by exact_mod_cast (getRecord_some hx).1
        exact .of_pc procs_goTo hsorted
          (I.doom hpos (hwalk.size ▸ hwalk.idc))
          ⟨⟨hwalk.size, hwalk.idc, rfl, hwalk.dir⟩, Mailbox.descending_push hsorted⟩
      case isFalse hdel =>
        obtain rfl := Option.some.inj hbox
        rw [if_neg hdel]
        exact .of_pc procs_goTo I.sorted I.bound ⟨hwalk, Mailbox.descending_succ hsorted⟩
  | fstat ok =>
    obtain rfl : ok = true := hok
    simp only [NewEvent.inSession, Mailbox.step] at hbox
    split at hbox
    case h_1 ent h hw => rw [hw] at hpc; cases hpc
    case h_2 hw =>
      rw [hw] at hpc
      obtain ⟨done, hdone, hdir⟩ := hpc
      obtain rfl := Option.some.inj hbox
      rw [List.append_nil] at hdone
      exact .of_pc procs_goTo I.sorted I.bound (hdir.trans (by rw [← hdone]; rfl))
    case h_3 id delmsgs hw =>
      rw [hw] at hpc
      obtain rfl := Option.some.inj hbox
      exact .of_pc procs_goTo I.sorted I.bound ⟨rfl, hpc⟩
    case h_4 => cases hbox
  | remove =>
    simp only [NewEvent.inSession, Mailbox.step] at hbox
    split at hbox
    case h_1 ent h size hw => rw [hw] at hpc; cases hpc
    case h_2 id size delmsgs hw =>
      rw [hw] at hpc
      obtain rfl := Option.some.inj hbox
      exact .of_pc procs_goTo I.sorted I.bound (hpc.remove I.sorted I.bound)
    case h_3 => cases hbox

omit [DecidableEq ι] in
/-- The session of a mailbox that a step leads to has the numbers of where it is. -/
theorem delmsgs_of_procs {s box : Mailbox ι} {p : MailPc} (hbox : some s = some box)
    (hp : s.procs i = p) (hle : p.delmsgs.length ≤ 1024) :
    (box.procs i).delmsgs.length ≤ 1024 := by
  obtain rfl := Option.some.inj hbox
  rwa [hp]

/-- Nothing is stored behind the end of `delmsgs`. -/
theorem step_delmsgs (hle : (r.box.procs i).delmsgs.length ≤ 1024) (hs : r.step i e = some r') :
    (r'.box.procs i).delmsgs.length ≤ 1024 := by
  obtain ⟨box, hbox, rfl⟩ := Option.map_eq_some_iff.mp hs
  cases e with
  | deliver h ok =>
    obtain rfl := Option.some.inj hbox
    split <;> exact hle
  | next fault =>
    simp only [NewEvent.inSession, Mailbox.step] at hbox
    split at hbox
    case h_2 => cases hbox
    case h_1 w hw =>
      rw [hw] at hle
      have hread : ∀ h, (readNewMail w h).delmsgs.length ≤ 1024 := by
        intro h
        unfold readNewMail
        dsimp only
        split
        case isTrue hempty => exact hempty.2
        case isFalse => split <;> exact hle
      split at hbox
      · split at hbox
        · exact delmsgs_of_procs hbox procs_goTo (hread _)
        · exact delmsgs_of_procs hbox procs_goTo hle
      · exact delmsgs_of_procs hbox procs_goTo hle
  | answer a fault =>
    simp only [NewEvent.inSession, Mailbox.step] at hbox
    split at hbox
    case h_2 => cases hbox
    case h_1 w hw =>
      rw [hw] at hle
      cases a with
      | quit | no => exact delmsgs_of_procs hbox procs_goTo hle
      | yes =>
        dsimp only at hbox
        split at hbox
        all_goals exact delmsgs_of_procs hbox procs_goTo hle
  | setRead ok =>
    simp only [NewEvent.inSession, Mailbox.step] at hbox
    split at hbox
    case h_2 => cases hbox
    case h_1 w h hw =>
      rw [hw] at hle
      apply delmsgs_of_procs hbox procs_goTo
      split <;> exact hle
  | sent ok =>
    simp only [NewEvent.inSession, Mailbox.step] at hbox
    split at hbox
    case h_4 => cases hbox
    case h_3 w h hw =>
      rw [hw] at hle
      exact delmsgs_of_procs hbox procs_goTo hle
    all_goals exact delmsgs_of_procs hbox procs_goTo (Nat.zero_le _)
  | leave delete =>
    simp only [NewEvent.inSession, Mailbox.step] at hbox
    split at hbox
    case h_2 => cases hbox
    case h_1 w h hw =>
      rw [hw] at hle
      split at hbox
      case isTrue hdel => exact delmsgs_of_procs hbox procs_goTo hdel.2
      case isFalse => exact delmsgs_of_procs hbox procs_goTo hle
  | fstat ok =>
    simp only [NewEvent.inSession, Mailbox.step] at hbox
    split at hbox
    case h_4 => cases hbox
    case h_3 id delmsgs hw =>
      rw [hw] at hle
      apply delmsgs_of_procs hbox procs_goTo
      split
      · exact hle
      · exact Nat.le_of_succ_le hle
    case h_2 => exact delmsgs_of_procs hbox procs_goTo (Nat.zero_le _)
    case h_1 =>
      apply delmsgs_of_procs hbox procs_goTo
      split <;> exact Nat.zero_le _
  | remove =>
    simp only [NewEvent.inSession, Mailbox.step] at hbox
    split at hbox
    case h_3 => cases hbox
    case h_2 id size delmsgs hw =>
      rw [hw] at hle
      exact delmsgs_of_procs hbox procs_goTo (Nat.le_of_succ_le hle)
    case h_1 => exact delmsgs_of_procs hbox procs_goTo (Nat.zero_le _)

/-- In no run of `m_new` does `delmsgs` get more than its 1024 numbers. When a run is over all of
whose steps meet the condition, `.DIR` has the mails of the start without those to go, in their
order and with the flags they have got, and then those delivered. -/
theorem m_new_result (i : ι) (dir : List ArticleHeader) :
    (∀ r, Reach (NewRun.step i) (fun _ _ => True) (NewRun.start i dir) r →
      (r.box.procs i).delmsgs.length ≤ 1024) ∧
    ∀ r, Reach (NewRun.step i) (NewRun.MayStep i) (NewRun.start i dir) r →
      r.box.procs i = .idle → r.box.dir = r.log.result dir := by
  constructor
  · intro r hr
    refine hr.invariant (fun r => (r.box.procs i).delmsgs.length ≤ 1024) ?_
      fun r e r' hle _ hs => step_delmsgs hle hs
    rw [NewRun.start, procs_goTo]
    exact Nat.zero_le _
  · intro r hr hidle
    have I := hr.invariant (NewInv dir i) (newInv_start i dir) fun _ _ _ I hok hs => I.step hok hs
    have hpc := I.pc
    rw [hidle] at hpc
    exact hpc

def MailPc.isIdle : MailPc → Bool
  | .idle => true
  | _ => false

theorem MailPc.eq_idle {p : MailPc} (h : p.isIdle = true) : p = .idle := by
  cases p with
  | idle => rfl
  | _ => cases h

/-- The first mail is read and deleted, the second entry is invalid, the third mail is answered, and
a mail is delivered meanwhile. -/
def demoNew : List NewEvent :=
  [.next false, .answer .yes false, .setRead true, .leave true, .next false, .next false,
    .answer .yes false, .setRead true, .sent true, .deliver ⟨⟨bytes "M.4.A", 4⟩, 0⟩ true, .leave false,
    .next false, .fstat true, .remove, .fstat true, .remove, .fstat true]

theorem m_new_result_demo : ∃ r : NewRun Unit,
    Reach (NewRun.step ()) (NewRun.MayStep ())
      (NewRun.start () [⟨⟨bytes "M.1.A", 1⟩, 0⟩, default, ⟨⟨bytes "M.3.A", 3⟩, 0⟩]) r ∧
    r.box.dir = r.log.result [⟨⟨bytes "M.1.A", 1⟩, 0⟩, default, ⟨⟨bytes "M.3.A", 3⟩, 0⟩] ∧
    r.box.dir = [⟨⟨bytes "M.3.A", 3⟩, 0x21⟩, ⟨⟨bytes "M.4.A", 4⟩, 0⟩] := by
  have hrun : Reach.Meets (NewRun.step ()) (NewRun.MayStep ()) (NewRun.start ()
      [⟨⟨bytes "M.1.A", 1⟩, 0⟩, default, ⟨⟨bytes "M.3.A", 3⟩, 0⟩]) demoNew := by decide +kernel
  obtain ⟨r, hs, h⟩ := Reach.of_meets _ hrun
  have hend : (demoNew.foldlM (NewRun.step ()) (NewRun.start ()
      [⟨⟨bytes "M.1.A", 1⟩, 0⟩, default, ⟨⟨bytes "M.3.A", 3⟩, 0⟩])).map
        (fun r => (r.box.dir, (r.box.procs ()).isIdle)) =
      some ([⟨⟨bytes "M.3.A", 3⟩, 0x21⟩, ⟨⟨bytes "M.4.A", 4⟩, 0⟩], true) := by decide +kernel
  rw [hs] at hend
  obtain ⟨hdir, hidle⟩ := Prod.mk.inj (Option.some.inj hend)
  exact ⟨r, h, (m_new_result () _).2 r h (MailPc.eq_idle hidle), hdir⟩

/-- The only mail is read and deleted, and another one is delivered between the `fstat` of
`delete_record` and its lock. -/
def demoCutOff : List NewEvent :=
  [.next false, .answer .yes false, .setRead true, .leave true, .next false, .fstat true,
    .deliver ⟨⟨bytes "M.2.A", 2⟩, 0⟩ true, .remove, .fstat true]

theorem m_new_cutOff : ¬∀ r : NewRun Unit,
    Reach (NewRun.step ()) (fun _ e => e.succeeds)
      (NewRun.start () [⟨⟨bytes "M.1.A", 1⟩, 0⟩]) r →
    r.box.procs () = .idle → r.box.dir = r.log.result [⟨⟨bytes "M.1.A", 1⟩, 0⟩] := by
  intro hclaim
  have hrun : Reach.Meets (NewRun.step ()) (fun _ e => e.succeeds)
      (NewRun.start () [⟨⟨bytes "M.1.A", 1⟩, 0⟩]) demoCutOff := by decide +kernel
  obtain ⟨r, hs, h⟩ := Reach.of_meets _ hrun
  have hend : (demoCutOff.foldlM (NewRun.step ())
      (NewRun.start () [⟨⟨bytes "M.1.A", 1⟩, 0⟩])).map (fun r => (r.box.dir,
        r.log.result [⟨⟨bytes "M.1.A", 1⟩, 0⟩],
        (r.box.procs ()).isIdle)) =
      some ([], [⟨⟨bytes "M.2.A", 2⟩, 0⟩], true) := by decide +kernel
  rw [hs] at hend
  obtain ⟨hdir, hrest⟩ := Prod.mk.inj (Option.some.inj hend)
  obtain ⟨hresult, hidle⟩ := Prod.mk.inj hrest
  have hsame := hclaim r h (MailPc.eq_idle hidle)
  rw [hdir, hresult] at hsame
  cases hsame

end

end ArgoBbs

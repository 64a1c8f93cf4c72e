import ArgoBbs.Board.Ballots
import ArgoBbs.Lib.Bytes
import Mathlib.Data.Fintype.Basic

/-! # The closing of polls

At login a session closes the polls of all boards whose time is over (`b_closepolls`); in the list
of polls one can be closed early or by force (`vote_key`). A session addresses a poll by its number
in the control file, and keeps what it has read of it in the static `currvote`. -/

namespace ArgoBbs

/-- `struct votebal` with what closing a poll looks at besides. -/
structure Votectl extends Votebal where
  maxdays : Int
  deriving DecidableEq

def Votectl.closetime (v : Votectl) : Int := v.opendate + v.maxdays * 86400

/-- The counters that `mk_result` prints; without a flag file they are 0. -/
def Votectl.result (v : Votectl) (flag : Option (List Ballot)) : List Nat :=
  (List.range 33).map (v.toVotebal.tally (flag.getD []))

/-- `VOTE_BOARD` -/
def voteBoard : Bytes := bytes "vote"

/-- The boards a result is posted to. -/
def resultBoards (canPostVote : Bool) (board : Bytes) : List Bytes :=
  (if canPostVote then [voteBoard] else []) ++ (if board ≠ voteBoard then [board] else [])

/-- The walk of `b_closepolls`: the board, the polls of it and the boards that are still to come. -/
structure Walk where
  now : Int
  nextpoll : Int
  board : Bytes
  vnum : Nat
  boards : List Bytes

/-- What `mk_result` and `dele_vote` work on, and the walk they return to. -/
structure ClosingCall where
  back : Option Walk
  board : Bytes
  num : Nat

/-- Where a session is: about to store the time of the next walk; on the walk; asking whether to
close a poll of the list; in `mk_result`; in `dele_vote`, which takes away the ballots, reads the
size of the control file and takes out the record. -/
inductive ClosePc
  | idle
  | storing (w : Walk)
  | walking (w : Walk)
  | asking (early : Bool) (c : ClosingCall)
  | counting (c : ClosingCall)
  | counted (c : ClosingCall) (result : List Nat)
  | deleting (c : ClosingCall)
  | unlinked (c : ClosingCall)
  | sized (c : ClosingCall) (size : Nat)

/-- The board of the poll, in `dele_vote`. -/
def ClosePc.deletes? : ClosePc → Option Bytes
  | .deleting c | .unlinked c | .sized c _ => some c.board
  | _ => none

/-- The session has not counted a result and is not in `dele_vote`. -/
def ClosePc.plain : ClosePc → Bool
  | .counted .. | .deleting _ | .unlinked _ | .sized .. => false
  | _ => true

def ClosingCall.goBack (c : ClosingCall) : ClosePc :=
  match c.back with
  | some w => .walking { w with vnum := w.vnum - 1 }
  | none => .idle

structure Closer where
  currvote : Votectl
  pc : ClosePc

/-- The session is in `dele_vote` for the poll. -/
def Closer.Deletes (p : Closer) (board : Bytes) (v : Votectl) : Prop :=
  p.pc.deletes? = some board ∧ p.currvote = v

instance (p : Closer) (board : Bytes) (v : Votectl) : Decidable (p.Deletes board v) :=
  inferInstanceAs (Decidable (_ ∧ _))

/-- What a session has counted is the result, unless the ballots have been taken away. -/
def Closer.Counted (flags now : Bytes → Int → Option (List Ballot)) (p : Closer) : Prop :=
  ∀ c r, p.pc = .counted c r → r = p.currvote.result (flags c.board p.currvote.opendate) ∨
    now c.board p.currvote.opendate ≠ flags c.board p.currvote.opendate

structure PublishedResult where
  board : Bytes
  poll : Votectl
  result : List Nat
  boards : List Bytes

/-- The files of the boards and the sessions. `closed` are the polls that `dele_vote` was called
for, and `removed` the records it has taken out of a control file, with the poll it was called for.
-/
structure Polls (ι : Type) where
  pollvote : Int
  control : Bytes → List Votectl
  flags : Bytes → Int → Option (List Ballot)
  procs : ι → Closer
  published : List PublishedResult
  closed : List (Bytes × Votectl)
  removed : List (Bytes × Votectl × Votectl)

inductive CloseEvent (ι : Type)
  | login (i : ι) (now : Int)
  | store (i : ι)
  | walk (i : ι)
  | press (i : ι) (early : Bool) (board : Bytes) (allnum : Nat)
  | answer (i : ι) (yes : Bool)
  | count (i : ι)
  | fail (i : ι) (yes : Bool)
  | publish (i : ι)
  | unlink (i : ι)
  | fstat (i : ι)
  | remove (i : ι)

instance : Inhabited Votectl := ⟨⟨.yn, 0, 0, 0, 0, 0, 0, 0⟩, 0⟩

namespace Polls
variable {ι : Type} {boards : List Bytes} {canPostVote : Bytes → Bool}

def start (pollvote : Int) (control : Bytes → List Votectl)
    (flags : Bytes → Int → Option (List Ballot)) (currvote : ι → Votectl) : Polls ι :=
  ⟨pollvote, control, flags, fun i => ⟨currvote i, .idle⟩, [], [], []⟩

section
variable [DecidableEq ι]

def goTo (s : Polls ι) (i : ι) (pc : ClosePc) : Polls ι :=
  { s with procs := Function.update s.procs i { s.procs i with pc } }

/-- `get_record` leaves `currvote` as it is where there is no such record. -/
def read (s : Polls ι) (i : ι) (board : Bytes) (num : Nat) : Votectl :=
  (getRecord num (s.control board)).getD (s.procs i).currvote

/-- The session has read the record into `currvote`. -/
def load (s : Polls ι) (i : ι) (currvote : Votectl) (pc : ClosePc) : Polls ι :=
  { s with procs := Function.update s.procs i ⟨currvote, pc⟩ }

/-- The session calls `dele_vote` for `currvote`. -/
def enter (s : Polls ι) (i : ι) (c : ClosingCall) : Polls ι :=
  { s.goTo i (.deleting c) with closed := s.closed ++ [(c.board, (s.procs i).currvote)] }

def step (boards : List Bytes) (canPostVote : Bytes → Bool) (s : Polls ι) :
    CloseEvent ι → Option (Polls ι)
  | .login i now =>
    match (s.procs i).pc with
    | .idle =>
      if now < s.pollvote then some s
      else some (s.goTo i (.storing ⟨now, now + 7 * 3600, [], 0, boards⟩))
    | _ => none
  | .store i =>
    match (s.procs i).pc with
    | .storing w => some { s.goTo i (.walking w) with pollvote := w.nextpoll }
    | _ => none
  | .walk i =>
    match (s.procs i).pc with
    | .walking w =>
      if w.vnum = 0 then
        match w.boards with
        | [] => some (s.goTo i .idle)
        | board :: boards =>
          some (s.goTo i (.walking { w with board, boards, vnum := (s.control board).length }))
      else
        let currvote := s.read i w.board w.vnum
        let next := { w with vnum := w.vnum - 1 }
        some (s.load i currvote
          (if w.now > currvote.closetime then .counting ⟨some w, w.board, w.vnum⟩
          else if w.nextpoll > currvote.closetime then
            .storing { next with nextpoll := currvote.closetime + 300 }
          else .walking next))
    | _ => none
  | .press i early board allnum =>
    match (s.procs i).pc with
    | .idle =>
      some (s.load i (s.read i board (allnum + 1)) (.asking early ⟨none, board, allnum + 1⟩))
    | _ => none
  | .answer i yes =>
    match (s.procs i).pc with
    | .asking early c =>
      if yes then some (if early then s.goTo i (.counting c) else s.enter i c)
      else some (s.goTo i .idle)
    | _ => none
  | .count i =>
    match (s.procs i).pc with
    | .counting c =>
      let v := (s.procs i).currvote
      some (s.goTo i (.counted c (v.result (s.flags c.board v.opendate))))
    | _ => none
  | .fail i yes =>
    match (s.procs i).pc with
    | .counting c | .counted c _ => some (if yes then s.enter i c else s.goTo i c.goBack)
    | _ => none
  | .publish i =>
    match (s.procs i).pc with
    | .counted c result =>
      some { s.enter i c with
        published := s.published ++ [⟨c.board, (s.procs i).currvote, result,
          resultBoards (canPostVote c.board) c.board⟩] }
    | _ => none
  | .unlink i =>
    match (s.procs i).pc with
    | .deleting c =>
      some { s.goTo i (.unlinked c) with
        flags := Function.update s.flags c.board
          (Function.update (s.flags c.board) (s.procs i).currvote.opendate none) }
    | _ => none
  | .fstat i =>
    match (s.procs i).pc with
    | .unlinked c => some (s.goTo i (.sized c (s.control c.board).length))
    | _ => none
  | .remove i =>
    match (s.procs i).pc with
    | .sized c size =>
      match deleteSized (.record c.num) size (s.control c.board) with
      | some (kept, selected) =>
        some { s.goTo i c.goBack with
          control := Function.update s.control c.board kept
          removed := s.removed ++ selected.map fun x => (c.board, (s.procs i).currvote, x) }
      | none => some (s.goTo i c.goBack)
    | _ => none

end

/-- The number is still that of `currvote`. -/
def Current (s : Polls ι) (i : ι) (c : ClosingCall) : Prop :=
  getRecord c.num (s.control c.board) = some (s.procs i).currvote

/-- No record of the control file is one of the poll in `currvote`. -/
def Gone (s : Polls ι) (i : ι) (c : ClosingCall) : Prop :=
  ∀ p ∈ s.control c.board, p.opendate ≠ (s.procs i).currvote.opendate

instance (s : Polls ι) (i : ι) (c : ClosingCall) : Decidable (s.Current i c) :=
  inferInstanceAs (Decidable (_ = _))

instance (s : Polls ι) (i : ι) (c : ClosingCall) : Decidable (s.Gone i c) :=
  inferInstanceAs (Decidable (∀ p ∈ s.control c.board, _))

/-- A result is published only while the number is that of its poll and no other session takes the
poll away. `dele_vote` is called, and takes out the record, only while the number is that of its
poll, or after the poll has gone. -/
def MayStep (s : Polls ι) : CloseEvent ι → Prop
  | .publish i =>
    match (s.procs i).pc with
    | .counted c _ =>
      s.Current i c ∧ ∀ j, ¬(s.procs j).Deletes c.board (s.procs i).currvote
    | _ => True
  | .answer i yes =>
    match (s.procs i).pc with
    | .asking false c => yes = true → s.Current i c ∨ s.Gone i c
    | _ => True
  | .fail i yes =>
    match (s.procs i).pc with
    | .counting c | .counted c _ => yes = true → s.Current i c ∨ s.Gone i c
    | _ => True
  | .remove i =>
    match (s.procs i).pc with
    | .sized c size =>
      size = (s.control c.board).length ∧
        (s.Current i c ∨ s.Gone i c ∧ getRecord c.num (s.control c.board) = none)
    | _ => True
  | _ => True

instance [Fintype ι] (s : Polls ι) (e : CloseEvent ι) : Decidable (s.MayStep e) := by
  unfold MayStep
  split
  all_goals first
    | infer_instance
    | (split <;> infer_instance)

section
variable {control : Bytes → List Votectl} {flags : Bytes → Int → Option (List Ballot)}
  {s s' : Polls ι} {i : ι} {b : Bytes} {v : Votectl} {c : ClosingCall} {p : Closer}

/-- What holds as long as all steps are such. A poll that `dele_vote` was called for is still in
`dele_vote` or has gone. -/
structure ClosingInv (control : Bytes → List Votectl)
    (flags : Bytes → Int → Option (List Ballot)) (s : Polls ι) : Prop where
  sublist : ∀ b, (s.control b).Sublist (control b)
  kept : ∀ b, ∀ p ∈ control b, (b, p) ∉ s.closed → p ∈ s.control b
  unlinked : ∀ b d, s.flags b d = flags b d ∨ s.flags b d = none
  ballots : ∀ b, ∀ p ∈ s.control b, (b, p) ∉ s.closed →
    s.flags b p.opendate = flags b p.opendate
  known : ∀ b v, (b, v) ∈ s.closed →
    v ∈ control b ∨ ∀ p ∈ s.control b, p.opendate ≠ v.opendate
  closing : ∀ b v, (b, v) ∈ s.closed → v ∈ s.control b → ∃ i, (s.procs i).Deletes b v
  entered : ∀ i b v, (s.procs i).Deletes b v → (b, v) ∈ s.closed
  counted : ∀ i, (s.procs i).Counted flags s.flags
  published : ∀ r ∈ s.published, (r.board, r.poll) ∈ s.closed ∧ r.poll ∈ control r.board ∧
    r.result = r.poll.result (flags r.board r.poll.opendate)
  once : (s.published.map fun r => (r.board, r.poll.opendate)).Nodup
  removed : ∀ e ∈ s.removed, e.2.2 = e.2.1

theorem closingInv_start (pollvote : Int) (currvote : ι → Votectl) :
    ClosingInv control flags (start pollvote control flags currvote) where
  sublist _ := List.Sublist.refl _
  kept _ _ hp _ := hp
  unlinked _ _ := .inl rfl
  ballots _ _ _ _ := rfl
  known := nofun
  closing := nofun
  entered := nofun
  counted := nofun
  published := nofun
  once := List.nodup_nil
  removed := List.forall_mem_nil _

theorem not_deletes_of_none (h : p.pc.deletes? = none) (b : Bytes) (v : Votectl) :
    ¬p.Deletes b v := fun hd => by
  rw [hd.1] at h
  cases h

theorem plain_not_deletes (h : p.pc.plain = true) (b : Bytes) (v : Votectl) : ¬p.Deletes b v := by
  refine not_deletes_of_none ?_ b v
  cases hpc : p.pc with
  | counted | deleting | unlinked | sized => rw [hpc] at h; cases h
  | _ => rfl

theorem plain_counted (h : p.pc.plain = true) (now : Bytes → Int → Option (List Ballot)) :
    p.Counted flags now := fun c r hpc => by
  rw [hpc] at h
  cases h

theorem goBack_plain (c : ClosingCall) : c.goBack.plain = true := by
  unfold ClosingCall.goBack
  split <;> rfl

/-- The ballots of a poll that `dele_vote` was called for are taken away. -/
theorem ClosingInv.unlink (I : ClosingInv control flags s)
    (hcontrol : ∀ b, ((control b).map (·.opendate)).Nodup) (hv : (b, v) ∈ s.closed) :
    ClosingInv control flags { s with
      flags := Function.update s.flags b (Function.update (s.flags b) v.opendate none) } := by
  have hflags (b' : Bytes) (d : Int) :
      Function.update s.flags b (Function.update (s.flags b) v.opendate none) b' d =
        if b' = b ∧ d = v.opendate then none else s.flags b' d := by
    by_cases hb : b' = b
    · subst hb
      rw [Function.update_self, Function.update_apply]
      simp only [true_and]
    · rw [Function.update_of_ne hb, if_neg fun h => hb h.1]
  constructor
  case unlinked =>
    intro b' d
    dsimp only
    rw [hflags]
    split
    · exact .inr rfl
    · exact I.unlinked b' d
  case ballots =>
    intro b' p hp hc
    dsimp only
    rw [hflags, if_neg]
    · exact I.ballots b' p hp hc
    · rintro ⟨rfl, hd⟩
      rcases I.known b' v hv with hmem | hgone
      · have heq := List.inj_on_of_nodup_map (hcontrol b') ((I.sublist b').subset hp) hmem hd
        exact hc (heq ▸ hv)
      · exact hgone p hp hd
  case counted =>
    intro j c r hr
    dsimp only
    rw [hflags]
    rcases I.counted j c r hr with h | h
    · exact .inl h
    · split
      · rcases I.unlinked c.board (s.procs j).currvote.opendate with heq | hnone
        · exact absurd heq h
        · exact .inr (hnone ▸ h)
      · exact .inr h
  all_goals first
    | exact I.sublist
    | exact I.kept
    | exact I.known
    | exact I.closing
    | exact I.entered
    | exact I.published
    | exact I.once
    | exact I.removed

/-- The record of a poll that `dele_vote` was called for is taken out of the control file. -/
theorem ClosingInv.cut (I : ClosingInv control flags s)
    (hv : (b, v) ∈ s.closed) {kept : List Votectl} (hsub : kept.Sublist (s.control b))
    (hperm : (s.control b).Perm (v :: kept)) :
    ClosingInv control flags { s with
      control := Function.update s.control b kept, removed := s.removed ++ [(b, v, v)] } := by
  have hle : ∀ b', (Function.update s.control b kept b').Sublist (s.control b') :=
    (Function.forall_update_iff s.control (p := fun b' l => l.Sublist (s.control b'))).mpr
      ⟨hsub, fun _ _ => List.Sublist.refl _⟩
  constructor
  case sublist => exact fun b' => (hle b').trans (I.sublist b')
  case kept =>
    intro b' p hp hc
    have hmem := I.kept b' p hp hc
    by_cases hb : b' = b
    · subst hb
      dsimp only
      rw [Function.update_self]
      rcases List.mem_cons.mp (hperm.mem_iff.mp hmem) with rfl | h
      · exact absurd hv hc
      · exact h
    · dsimp only
      rwa [Function.update_of_ne hb]
  case ballots => exact fun b' p hp hc => I.ballots b' p ((hle b').subset hp) hc
  case known =>
    intro b' w hw
    rcases I.known b' w hw with h | h
    · exact .inl h
    · exact .inr fun p hp => h p ((hle b').subset hp)
  case closing => exact fun b' w hw hmem => I.closing b' w hw ((hle b').subset hmem)
  case removed =>
    intro e he
    rcases List.mem_append.mp he with he | he
    · exact I.removed e he
    · cases List.mem_singleton.mp he
      rfl
  all_goals first
    | exact I.unlinked
    | exact I.entered
    | exact I.counted
    | exact I.published
    | exact I.once

variable [DecidableEq ι]

/-- A session goes on, without calling `dele_vote`; it leaves `dele_vote` only with the poll gone.
-/
theorem ClosingInv.moved (I : ClosingInv control flags s)
    (hdel : ∀ b v, p.Deletes b v → (s.procs i).Deletes b v)
    (hleft : ∀ b v, (s.procs i).Deletes b v → p.Deletes b v ∨ v ∉ s.control b)
    (hcounted : p.Counted flags s.flags) (t : Int) :
    ClosingInv control flags { s with pollvote := t, procs := Function.update s.procs i p } where
  sublist := I.sublist
  kept := I.kept
  unlinked := I.unlinked
  ballots := I.ballots
  known := I.known
  closing b v hc hv := by
    obtain ⟨j, hj⟩ := I.closing b v hc hv
    by_cases hji : j = i
    · subst hji
      rcases hleft b v hj with hp | hgone
      · exact ⟨j, show (Function.update s.procs j p j).Deletes b v by
          rwa [Function.update_self]⟩
      · exact absurd hv hgone
    · exact ⟨j, show (Function.update s.procs i p j).Deletes b v by
        rwa [Function.update_of_ne hji]⟩
  entered := (Function.forall_update_iff s.procs (p := fun _ p =>
    ∀ b v, p.Deletes b v → (b, v) ∈ s.closed)).mpr
      ⟨fun b v h => I.entered i b v (hdel b v h), fun j _ => I.entered j⟩
  counted := (Function.forall_update_iff s.procs (p := fun _ p => p.Counted flags s.flags)).mpr
    ⟨hcounted, fun j _ => I.counted j⟩
  published := I.published
  once := I.once
  removed := I.removed

/-- A session calls `dele_vote`. -/
theorem ClosingInv.enter (I : ClosingInv control flags s)
    (hold : (s.procs i).pc.deletes? = none) (hok : s.Current i c ∨ s.Gone i c) :
    ClosingInv control flags (s.enter i c) where
  sublist := I.sublist
  kept b p hp hc := I.kept b p hp fun h => hc (List.mem_append_left _ h)
  unlinked := I.unlinked
  ballots b p hp hc := I.ballots b p hp fun h => hc (List.mem_append_left _ h)
  known b v hv := by
    rcases List.mem_append.mp hv with hv | hv
    · exact I.known b v hv
    · cases List.mem_singleton.mp hv
      rcases hok with hcur | hgone
      · obtain ⟨-, hmem⟩ := getRecord_some hcur
        exact .inl ((I.sublist c.board).subset (List.mem_of_getElem? hmem))
      · exact .inr hgone
  closing b v hv hmem := by
    rcases List.mem_append.mp hv with hv | hv
    · obtain ⟨j, hj⟩ := I.closing b v hv hmem
      have hji : j ≠ i := fun h => not_deletes_of_none hold b v (h ▸ hj)
      exact ⟨j, show (Function.update s.procs i _ j).Deletes b v by
        rwa [Function.update_of_ne hji]⟩
    · cases List.mem_singleton.mp hv
      exact ⟨i, show (Function.update s.procs i _ i).Deletes _ _ by
        rw [Function.update_self]; exact ⟨rfl, rfl⟩⟩
  entered := (Function.forall_update_iff s.procs (p := fun _ p =>
    ∀ b v, p.Deletes b v → (b, v) ∈ s.closed ++ [(c.board, (s.procs i).currvote)])).mpr
      ⟨fun b v h => by
        obtain ⟨hb, hv⟩ := h
        cases hb
        cases hv
        exact List.mem_append_right _ (List.mem_singleton_self _),
      fun j _ b v h => List.mem_append_left _ (I.entered j b v h)⟩
  counted := (Function.forall_update_iff s.procs (p := fun _ p => p.Counted flags s.flags)).mpr
    ⟨nofun, fun j _ => I.counted j⟩
  published r hr := ⟨List.mem_append_left _ (I.published r hr).1, (I.published r hr).2⟩
  once := I.once
  removed := I.removed

/-- A session publishes a result and calls `dele_vote`. -/
theorem ClosingInv.publish (I : ClosingInv control flags s)
    (hcontrol : ∀ b, ((control b).map (·.opendate)).Nodup) {r : List Nat} {boards : List Bytes}
    (hpc : (s.procs i).pc = .counted c r) (hcur : s.Current i c)
    (hother : ∀ j, ¬(s.procs j).Deletes c.board (s.procs i).currvote) :
    ClosingInv control flags { s.enter i c with
      published := s.published ++ [⟨c.board, (s.procs i).currvote, r, boards⟩] } := by
  have I' := I.enter (i := i) (c := c) (by rw [hpc]; rfl) (.inl hcur)
  have hmem : (s.procs i).currvote ∈ s.control c.board :=
    List.mem_of_getElem? (getRecord_some hcur).2
  have hmem₀ := (I.sublist c.board).subset hmem
  have hopen : (c.board, (s.procs i).currvote) ∉ s.closed := fun hc => by
    obtain ⟨j, hj⟩ := I.closing _ _ hc hmem
    exact hother j hj
  constructor
  case published =>
    intro q hq
    rcases List.mem_append.mp hq with hq | hq
    · exact I'.published q hq
    · cases List.mem_singleton.mp hq
      refine ⟨List.mem_append_right _ (List.mem_singleton_self _), hmem₀, ?_⟩
      rcases I.counted i c r hpc with h | h
      · exact h
      · exact absurd (I.ballots c.board _ hmem hopen) h
  case once =>
    simp only [List.map_append, List.map_cons, List.map_nil]
    refine List.nodup_append.mpr ⟨I.once, List.nodup_singleton _, fun x hx y hy => ?_⟩
    obtain ⟨q, hq, rfl⟩ := List.mem_map.mp hx
    rw [List.mem_singleton.mp hy]
    intro heq
    obtain ⟨hclosed, hq₀, -⟩ := I.published q hq
    obtain ⟨hb, hd⟩ := Prod.mk.inj heq
    rw [hb] at hclosed hq₀
    rw [List.inj_on_of_nodup_map (hcontrol c.board) hq₀ hmem₀ hd] at hclosed
    exact hopen hclosed
  all_goals first
    | exact I'.sublist
    | exact I'.kept
    | exact I'.unlinked
    | exact I'.ballots
    | exact I'.known
    | exact I'.closing
    | exact I'.entered
    | exact I'.counted
    | exact I'.removed

/-- A session that is not in `dele_vote` goes on, without calling it. -/
theorem ClosingInv.load (I : ClosingInv control flags s)
    (hold : (s.procs i).pc.deletes? = none) (hnew : p.pc.plain = true) (t : Int) :
    ClosingInv control flags { s with pollvote := t, procs := Function.update s.procs i p } :=
  I.moved (fun b v h => absurd h (plain_not_deletes hnew b v))
    (fun b v h => absurd h (not_deletes_of_none hold b v)) (plain_counted hnew s.flags) t

theorem ClosingInv.step_remove (I : ClosingInv control flags s)
    (hcontrol : ∀ b, ((control b).map (·.opendate)).Nodup) {i : ι} (hok : s.MayStep (.remove i))
    (h : s.step boards canPostVote (.remove i) = some s') : ClosingInv control flags s' := by
  simp only [Polls.step] at h
  split at h
  · rename_i c size hpc
    have hdel : ∀ b v, (s.procs i).Deletes b v → b = c.board ∧ v = (s.procs i).currvote :=
      fun b v hd => by
        rw [Closer.Deletes, hpc] at hd
        exact ⟨(Option.some.inj hd.1).symm, hd.2.symm⟩
    have hv := I.entered i c.board (s.procs i).currvote
      (by rw [Closer.Deletes, hpc]; exact ⟨rfl, rfl⟩)
    have hback {b : Bytes} {v : Votectl} : ¬Closer.Deletes
        ⟨(s.procs i).currvote, c.goBack⟩ b v := plain_not_deletes (goBack_plain c) b v
    rw [MayStep, hpc] at hok
    obtain ⟨hsize, hok⟩ := hok
    rw [hsize, deleteSized_eq] at h
    split at h
    · rename_i kept selected hplan
      obtain ⟨x, hx, rfl, hperm⟩ := deleteRecord_getRecord hplan
      obtain ⟨hdiv, -⟩ := deleteRecord_divides hplan
      have heq : x = (s.procs i).currvote := by
        rcases hok with hcur | ⟨-, hnone⟩
        · exact Option.some.inj (hx.symm.trans hcur)
        · rw [hnone] at hx
          cases hx
      subst heq
      rw [← Option.some.inj h]
      refine (I.cut hv hdiv.sublist hperm).moved (fun b v h => absurd h hback)
        (fun b v h => .inr ?_) (plain_counted (goBack_plain c) _) s.pollvote
      obtain ⟨rfl, rfl⟩ := hdel b v h
      dsimp only
      rw [Function.update_self]
      have hnodup := ((I.sublist c.board).map (·.opendate)).nodup (hcontrol c.board)
      exact fun hmem => ((mem_rest_iff_key hnodup hperm).mp hmem).2 rfl
    · rename_i hplan
      rw [← Option.some.inj h]
      refine I.moved (fun b v h => absurd h hback) (fun b v h => .inr ?_)
        (plain_counted (goBack_plain c) _) s.pollvote
      obtain ⟨rfl, rfl⟩ := hdel b v h
      rcases hok with hcur | ⟨hgone, -⟩
      · rw [Current, deleteRecord_eq_none hplan] at hcur
        cases hcur
      · exact fun hmem => hgone _ hmem rfl
  · cases h

theorem ClosingInv.step (I : ClosingInv control flags s)
    (hcontrol : ∀ b, ((control b).map (·.opendate)).Nodup) {e : CloseEvent ι} (hok : s.MayStep e)
    (h : s.step boards canPostVote e = some s') : ClosingInv control flags s' := by
  cases e with
  | login i now =>
    simp only [Polls.step] at h
    split at h
    · rename_i hpc
      split at h
      · exact Option.some.inj h ▸ I
      · exact Option.some.inj h ▸ I.load (by rw [hpc]; rfl) rfl s.pollvote
    · cases h
  | store i =>
    simp only [Polls.step] at h
    split at h
    · rename_i w hpc
      exact Option.some.inj h ▸ I.load (by rw [hpc]; rfl) rfl w.nextpoll
    · cases h
  | walk i =>
    simp only [Polls.step] at h
    split at h
    · rename_i w hpc
      have hold : (s.procs i).pc.deletes? = none := by rw [hpc]; rfl
      split at h
      · split at h
        · exact Option.some.inj h ▸ I.load hold rfl s.pollvote
        · exact Option.some.inj h ▸ I.load hold rfl s.pollvote
      · rw [← Option.some.inj h]
        split
        · exact I.load hold rfl s.pollvote
        · split
          · exact I.load hold rfl s.pollvote
          · exact I.load hold rfl s.pollvote
    · cases h
  | press i early board allnum =>
    simp only [Polls.step] at h
    split at h
    · rename_i hpc
      exact Option.some.inj h ▸ I.load (by rw [hpc]; rfl) rfl s.pollvote
    · cases h
  | answer i yes =>
    simp only [Polls.step] at h
    split at h
    · rename_i early c hpc
      have hold : (s.procs i).pc.deletes? = none := by rw [hpc]; rfl
      split at h
      · rename_i hyes
        rw [← Option.some.inj h]
        cases early with
        | true => exact I.load hold rfl s.pollvote
        | false =>
          rw [MayStep, hpc] at hok
          exact I.enter hold (hok hyes)
      · exact Option.some.inj h ▸ I.load hold rfl s.pollvote
    · cases h
  | count i =>
    simp only [Polls.step] at h
    split at h
    · rename_i c hpc
      have hold : (s.procs i).pc.deletes? = none := by rw [hpc]; rfl
      rw [← Option.some.inj h]
      refine I.moved (fun b v h => absurd h (not_deletes_of_none rfl b v))
        (fun b v h => absurd h (not_deletes_of_none hold b v)) (fun d r hr => ?_) s.pollvote
      cases hr
      by_cases hflags : s.flags c.board (s.procs i).currvote.opendate =
          flags c.board (s.procs i).currvote.opendate
      · exact .inl (hflags ▸ rfl)
      · exact .inr hflags
    · cases h
  | fail i yes =>
    have hfail {c : ClosingCall} (hold : (s.procs i).pc.deletes? = none)
        (hok : yes = true → s.Current i c ∨ s.Gone i c) :
        ClosingInv control flags (if yes then s.enter i c else s.goTo i c.goBack) := by
      split
      · rename_i hyes
        exact I.enter hold (hok hyes)
      · exact I.load hold (goBack_plain c) s.pollvote
    simp only [Polls.step] at h
    split at h
    · rename_i c hpc
      rw [MayStep, hpc] at hok
      exact Option.some.inj h ▸ hfail (by rw [hpc]; rfl) hok
    · rename_i c r hpc
      rw [MayStep, hpc] at hok
      exact Option.some.inj h ▸ hfail (by rw [hpc]; rfl) hok
    · cases h
  | publish i =>
    simp only [Polls.step] at h
    split at h
    · rename_i c r hpc
      rw [MayStep, hpc] at hok
      exact Option.some.inj h ▸ I.publish hcontrol hpc hok.1 hok.2
    · cases h
  | unlink i =>
    simp only [Polls.step] at h
    split at h
    · rename_i c hpc
      have hdel : ∀ b v, Closer.Deletes ⟨(s.procs i).currvote, .unlinked c⟩ b v ↔
          (s.procs i).Deletes b v := fun b v => by
        rw [Closer.Deletes, Closer.Deletes, hpc]
        rfl
      rw [← Option.some.inj h]
      have hv := I.entered i c.board (s.procs i).currvote ((hdel _ _).mp ⟨rfl, rfl⟩)
      exact (I.unlink hcontrol hv).moved (fun b v => (hdel b v).mp)
        (fun b v h => .inl ((hdel b v).mpr h)) (fun _ _ h => nomatch h) s.pollvote
    · cases h
  | fstat i =>
    simp only [Polls.step] at h
    split at h
    · rename_i c hpc
      have hdel : ∀ b v, Closer.Deletes ⟨(s.procs i).currvote,
          .sized c (s.control c.board).length⟩ b v ↔ (s.procs i).Deletes b v := fun b v => by
        rw [Closer.Deletes, Closer.Deletes, hpc]
        rfl
      rw [← Option.some.inj h]
      exact I.moved (fun b v => (hdel b v).mp) (fun b v h => .inl ((hdel b v).mpr h))
        (fun _ _ h => nomatch h) s.pollvote
    · cases h
  | remove i => exact I.step_remove hcontrol hok h

/-- In every run of any number of sessions all of whose steps meet the condition: a result is
published once at most, and is that of a poll's ballots; `dele_vote` takes out the record of the
poll it was called for; and a poll that it was not called for keeps its record and its ballots. -/
theorem polls_closed_once (hcontrol : ∀ b, ((control b).map (·.opendate)).Nodup) {pollvote : Int}
    {currvote : ι → Votectl}
    (h : Reach (step boards canPostVote) MayStep (start pollvote control flags currvote) s) :
    (s.published.map fun r => (r.board, r.poll.opendate)).Nodup ∧
      (∀ r ∈ s.published, r.poll ∈ control r.board ∧
        r.result = r.poll.result (flags r.board r.poll.opendate)) ∧
      (∀ e ∈ s.removed, e.2.2 = e.2.1) ∧
      ∀ b, ∀ p ∈ control b, (b, p) ∉ s.closed →
        p ∈ s.control b ∧ s.flags b p.opendate = flags b p.opendate := by
  have hinv : ClosingInv control flags s :=
    h.invariant _ (closingInv_start pollvote currvote) fun _ _ _ I hok hs => I.step hcontrol hok hs
  refine ⟨hinv.once, fun r hr => (hinv.published r hr).2, hinv.removed, fun b p hp hc => ?_⟩
  have hmem := hinv.kept b p hp hc
  exact ⟨hmem, hinv.ballots b p hmem hc⟩

/-- A board with a poll of one day and one of a hundred days. -/
def demoControl (b : Bytes) : List Votectl :=
  if b = bytes "club" then
    [⟨⟨.multi, 0, 1000, 0, 0, 0, 0, 0⟩, 1⟩, ⟨⟨.multi, 0, 2000, 0, 0, 0, 0, 0⟩, 100⟩]
  else []

def demoFlags (b : Bytes) (opendate : Int) : Option (List Ballot) :=
  if b = bytes "club" ∧ opendate = 2000 then some [⟨bytes "Ann", 1, [[], [], []], [], 3000⟩]
  else none

def demoPolls : Polls (Fin 2) := start 0 demoControl demoFlags fun _ => default

/-- What `mk_result` does where nothing goes wrong. -/
def demoResult {ι : Type} (i : ι) : List (CloseEvent ι) :=
  [.count i, .publish i, .unlink i, .fstat i, .remove i]

/-- The first poll is over and closed at a login; another session looks at the second one meanwhile,
and is the next to log in. -/
def demoClosing {ι : Type} (i j : ι) : List (CloseEvent ι) :=
  [.login i 200000, .store i, .walk i, .walk i, .press j true (bytes "club") 1, .walk i] ++
    demoResult i ++ [.walk i, .answer j false, .login j 200001]

theorem polls_closed_once_login : ∃ s : Polls (Fin 2),
    (s.control (bytes "club")).map (·.opendate) = [2000] ∧
      s.published.map (fun r => (r.poll.opendate, r.boards)) =
        [(1000, [voteBoard, bytes "club"])] ∧
      (s.published.map fun r => (r.board, r.poll.opendate)).Nodup := by
  have hrun : Reach.Meets (step [bytes "club"] fun _ => true) MayStep demoPolls
      (demoClosing 0 1) := by decide +kernel
  obtain ⟨s, hs, h⟩ := Reach.of_meets _ hrun
  have hend : ((demoClosing 0 1).foldlM (step [bytes "club"] fun _ => true) demoPolls).map (fun s =>
      ((s.control (bytes "club")).map (·.opendate),
        s.published.map fun r => (r.poll.opendate, r.boards))) =
      some ([2000], [(1000, [voteBoard, bytes "club"])]) := by decide +kernel
  rw [hs] at hend
  obtain ⟨hcontrol, hpublished⟩ := Prod.mk.inj (Option.some.inj hend)
  have hnodup : ∀ b, ((demoControl b).map (·.opendate)).Nodup := fun b => by
    unfold demoControl
    split <;> decide
  exact ⟨s, hcontrol, hpublished, (polls_closed_once hnodup h).1⟩

/-- While the first poll is closed early another session closes it by force. -/
def demoForced {ι : Type} (i j : ι) : List (CloseEvent ι) :=
  [.press i true (bytes "club") 0, .answer i true, .press j false (bytes "club") 0,
    .answer j true, .unlink j, .fstat j, .remove j] ++ demoResult i

theorem open_poll_lost : ¬∀ s : Polls (Fin 2),
    Reach (step [bytes "club"] fun _ => true) (fun _ _ => True) demoPolls s →
      (s.published.map fun r => (r.board, r.poll.opendate)).Nodup ∧
        (∀ e ∈ s.removed, e.2.2 = e.2.1) ∧
        ∀ b, ∀ p ∈ demoControl b, (b, p) ∉ s.closed →
          p ∈ s.control b ∧ s.flags b p.opendate = demoFlags b p.opendate := by
  intro hclaim
  have hrun : Reach.Meets (step [bytes "club"] fun _ => true) (fun _ _ => True) demoPolls
      (demoForced 0 1) := by decide +kernel
  obtain ⟨s, hs, h⟩ := Reach.of_meets _ hrun
  have hend : ((demoForced 0 1).foldlM (step [bytes "club"] fun _ => true) demoPolls).map
      (fun s => s.removed.map fun e => (e.2.1.opendate, e.2.2.opendate)) =
      some [(1000, 1000), (1000, 2000)] := by decide +kernel
  rw [hs] at hend
  have hremoved : s.removed.map (fun e => (e.2.1.opendate, e.2.2.opendate)) =
      [(1000, 1000), (1000, 2000)] := Option.some.inj hend
  have hlast : ((1000, 2000) : Int × Int) ∈
      s.removed.map fun e => (e.2.1.opendate, e.2.2.opendate) := by
    rw [hremoved]
    decide
  obtain ⟨e, he, heq⟩ := List.mem_map.mp hlast
  have hsame := (hclaim s h).2.1 e he
  rw [hsame] at heq
  obtain ⟨h₁, h₂⟩ := Prod.mk.inj heq
  exact absurd (h₁.symm.trans h₂) (by decide)

end

end Polls

end ArgoBbs

import ArgoBbs.Lib.CString
import ArgoBbs.Lib.Reach
import ArgoBbs.Record.Search
import Mathlib.Data.List.Sort
import Mathlib.Logic.Function.Basic

/-! # The thread list of a board

`make_thread` (`thread.c`) writes the headers of `.DIR` to `.THREAD`, sorted by thread and marked.
It leaves the file alone if this is newer than `.DIR`. No lock is taken: what is written is what has
been read some time before, and the file is empty between `open` and `write`. -/

namespace ArgoBbs

def threadBegin : UInt8 := 0
def threadEnd : UInt8 := 1
def threadOther : UInt8 := 2

/-- A header with the thread it is in; `mark` is `reserved[0]`, `rest` the other bytes. -/
structure ThreadHeader extends FileHeader where
  id : BitVec 32
  mark : UInt8
  rest : Bytes
  deriving DecidableEq

namespace ThreadHeader

/-- What the bytes behind the end of a mapped file are read as. -/
def zero : ThreadHeader := ⟨⟨[], 0⟩, 0, 0, []⟩

def cmpAid (hdr1 hdr2 : ThreadHeader) : Int :=
  if hdr1.id > hdr2.id then 1
  else if hdr1.id < hdr2.id then -1
  else strcmp hdr1.filename hdr2.filename

theorem cmpAid_le_iff {hdr1 hdr2 : ThreadHeader} : hdr1.cmpAid hdr2 ≤ 0 ↔
    hdr1.id < hdr2.id ∨ hdr1.id = hdr2.id ∧ hdr1.filename ≤ hdr2.filename := by
  unfold cmpAid
  rcases BitVec.lt_trichotomy hdr1.id hdr2.id with h | h | h
  · simp [h, BitVec.lt_asymm h]
  · simp [h, strcmp_le_iff]
  · have hne : hdr1.id ≠ hdr2.id := fun heq => BitVec.lt_irrefl _ (heq ▸ h)
    simp [h, hne, BitVec.lt_asymm h]

theorem cmpAid_total (hdr1 hdr2 : ThreadHeader) :
    hdr1.cmpAid hdr2 ≤ 0 ∨ hdr2.cmpAid hdr1 ≤ 0 := by
  rw [cmpAid_le_iff, cmpAid_le_iff]
  rcases BitVec.lt_trichotomy hdr1.id hdr2.id with h | h | h
  · exact .inl (.inl h)
  · rcases List.le_total hdr1.filename hdr2.filename with hname | hname
    · exact .inl (.inr ⟨h, hname⟩)
    · exact .inr (.inr ⟨h.symm, hname⟩)
  · exact .inr (.inl h)

theorem cmpAid_trans {hdr1 hdr2 hdr3 : ThreadHeader} (h : hdr1.cmpAid hdr2 ≤ 0)
    (h' : hdr2.cmpAid hdr3 ≤ 0) : hdr1.cmpAid hdr3 ≤ 0 := by
  rw [cmpAid_le_iff] at *
  rcases h with h | ⟨h, hname⟩
  · rcases h' with h' | ⟨h', -⟩
    · exact .inl (BitVec.lt_trans h h')
    · exact .inl (h' ▸ h)
  · rcases h' with h' | ⟨h', hname'⟩
    · exact .inl (h ▸ h')
    · exact .inr ⟨h.trans h', List.le_trans hname hname'⟩

end ThreadHeader

/-- What `mark_thread` writes to `reserved[0]` of the header `i`. -/
def threadMark (tdir : List ThreadHeader) (i : Nat) : UInt8 :=
  let id (i : Nat) : BitVec 32 := (tdir.getD i .zero).id
  if i = 0 then threadBegin
  else if i < tdir.length - 1 then
    if id (i - 1) = id i ∧ id i ≠ 0 then if id i = id (i + 1) then threadOther else threadEnd
    else threadBegin
  else if id (i - 1) = id i then threadEnd else threadBegin

def markThread (tdir : List ThreadHeader) : List ThreadHeader :=
  tdir.mapIdx fun i hdr => { hdr with mark := threadMark tdir i }

/-- What `make_thread` makes of the headers it has read. -/
def threadList (dir : List ThreadHeader) : List ThreadHeader :=
  markThread (dir.mergeSort fun hdr1 hdr2 => hdr1.cmpAid hdr2 ≤ 0)

/-- `tdir` has the headers of `dir`, sorted by `cmp_aid` and marked by `mark_thread`. -/
def IsThreadList (dir tdir : List ThreadHeader) : Prop :=
  ∃ sorted : List ThreadHeader, sorted.Perm dir ∧
    sorted.Pairwise (fun hdr1 hdr2 => hdr1.cmpAid hdr2 ≤ 0) ∧ tdir = markThread sorted

theorem IsThreadList.length_eq {dir tdir : List ThreadHeader} (h : IsThreadList dir tdir) :
    tdir.length = dir.length := by
  obtain ⟨sorted, hperm, -, rfl⟩ := h
  rw [markThread, List.length_mapIdx, hperm.length_eq]

theorem threadList_isThreadList (dir : List ThreadHeader) : IsThreadList dir (threadList dir) := by
  refine ⟨_, List.mergeSort_perm .., ?_, rfl⟩
  refine (List.pairwise_mergeSort (fun a b c hab hbc => ?_) (fun a b => ?_) dir).imp fun h => ?_
  · simpa using ThreadHeader.cmpAid_trans (by simpa using hab) (by simpa using hbc)
  · simpa using ThreadHeader.cmpAid_total a b
  · simpa using h

/-- A file of headers with its `st_mtime`. -/
structure ThreadFile where
  mtime : Nat
  hdrs : List ThreadHeader

/-- How far a call of `make_thread` is: `.DIR` has been opened and `fstat` has given its time and
size; some headers are copied; `.THREAD` is open; the call has returned 0 and left `.THREAD` alone,
with what was in `.THREAD` and in `.DIR` then; it has returned. `seen` is the number of the changes
of `.DIR` before `fstat`. -/
inductive ThreadProc
  | idle
  | opened (seen mtime size : Nat)
  | reading (seen size : Nat) (tdir : List ThreadHeader)
  | writing (seen : Nat) (tdir : List ThreadHeader)
  | skipped (found : Option (List ThreadHeader)) (dir : List ThreadHeader)
  | finished (result : Int)
  deriving DecidableEq

namespace ThreadProc

def isWriting : ThreadProc → Bool
  | .writing .. => true
  | _ => false

def seen : ThreadProc → Option Nat
  | .opened seen .. | .reading seen .. | .writing seen _ => some seen
  | _ => none

end ThreadProc

/-- The two files, the clock in seconds, the number of the changes of `.DIR`, and the processes. -/
structure ThreadState (ι : Type) where
  dir : ThreadFile
  thread : Option ThreadFile
  clock : Nat
  changes : Nat
  proc : ι → ThreadProc

/-- A second passes; `append_record` or another writer changes `.DIR`; a record of `.THREAD` is
edited by a reader of the thread list; a process calls `make_thread`, compares the times (and has
`.DIR` mapped), copies a header (behind the end of `.DIR`, if this page is mapped), opens `.THREAD`,
writes. -/
inductive ThreadEvent (ι : Type)
  | tick
  | append (record : ThreadHeader)
  | rewrite (hdrs : List ThreadHeader)
  | edit (hdrs : List ThreadHeader)
  | call (i : ι)
  | stat (i : ι) (ok : Bool)
  | read (i : ι) (mapped : Bool)
  | openThread (i : ι) (ok : Bool)
  | write (i : ι)

namespace ThreadState
variable {ι : Type} [DecidableEq ι]

/-- There is no thread list yet. -/
def start (ι : Type) (dir : ThreadFile) : ThreadState ι := ⟨dir, none, dir.mtime, 0, fun _ => .idle⟩

def goTo (s : ThreadState ι) (i : ι) (p : ThreadProc) : ThreadState ι :=
  { s with proc := Function.update s.proc i p }

def change (s : ThreadState ι) (hdrs : List ThreadHeader) : ThreadState ι :=
  { s with dir := ⟨s.clock, hdrs⟩, changes := s.changes + 1 }

def isNewer (s : ThreadState ι) (mtime : Nat) : Bool :=
  match s.thread with
  | some st2 => st2.mtime > mtime
  | none => false

def threadHdrs (s : ThreadState ι) : Option (List ThreadHeader) := s.thread.map (·.hdrs)

/-- `make_thread` returns 0 and has not written `.THREAD`. -/
def skip (s : ThreadState ι) (i : ι) : ThreadState ι := s.goTo i (.skipped s.threadHdrs s.dir.hdrs)

def step (s : ThreadState ι) : ThreadEvent ι → Option (ThreadState ι)
  | .tick => some { s with clock := s.clock + 1 }
  | .append record => some (s.change (s.dir.hdrs ++ [record]))
  | .rewrite hdrs => some (s.change hdrs)
  | .edit hdrs => s.thread.map fun _ => { s with thread := some ⟨s.clock, hdrs⟩ }
  | .call i =>
    match s.proc i with
    | .idle | .skipped .. | .finished _ =>
      some (s.goTo i (.opened s.changes s.dir.mtime s.dir.hdrs.length))
    | _ => none
  | .stat i ok =>
    match s.proc i with
    | .opened seen mtime size =>
      some (if s.isNewer mtime then s.skip i
        -- nothing cannot be mapped
        else if size = 0 || !ok then s.goTo i (.finished (-1))
        else s.goTo i (.reading seen size []))
    | _ => none
  | .read i mapped =>
    match s.proc i with
    | .reading seen size tdir =>
      if tdir.length < size then
        match s.dir.hdrs[tdir.length]? with
        | some hdr => some (s.goTo i (.reading seen size (tdir ++ [hdr])))
        | none =>
          some (if mapped then s.goTo i (.reading seen size (tdir ++ [.zero]))
            else s.goTo i (.finished (-1)))
      else none
    | _ => none
  | .openThread i ok =>
    match s.proc i with
    | .reading seen size tdir =>
      if tdir.length < size then none
      else if ok then
        some { s.goTo i (.writing seen (threadList tdir)) with thread := some ⟨s.clock, []⟩ }
      -- the result stays 0
      else some (s.skip i)
    | _ => none
  | .write i =>
    match s.proc i with
    | .writing _ tdir =>
      some { s.goTo i (.finished 0) with
        thread := some ⟨s.clock, tdir ++ (s.threadHdrs.getD []).drop tdir.length⟩ }
    | _ => none

/-- `.DIR` has not been changed since the `fstat` of the process. -/
def upToDate (s : ThreadState ι) (p : ThreadProc) : Bool := p.seen.all (· == s.changes)

/-- The times are compared while `.DIR` is as `fstat` has found it and no process has `.THREAD`
open. `.THREAD` is written while `.DIR` is as `fstat` has found it and `.THREAD` is still empty, or
in the second of the last change of `.DIR`; only in this second it is edited. -/
def Undisturbed (s : ThreadState ι) : ThreadEvent ι → Prop
  | .edit _ => s.clock ≤ s.dir.mtime
  | .stat i _ => s.upToDate (s.proc i) ∧ ∀ j, ¬(s.proc j).isWriting
  | .openThread _ ok => ok
  | .write i => s.clock ≤ s.dir.mtime ∨ s.upToDate (s.proc i) ∧ s.threadHdrs = some []
  | _ => True

instance (s : ThreadState (Fin 2)) : (e : ThreadEvent (Fin 2)) → Decidable (s.Undisturbed e)
  | .edit _ => inferInstanceAs (Decidable (_ ≤ _))
  | .stat .. => inferInstanceAs (Decidable (_ ∧ ∀ _, _))
  | .openThread .. => inferInstanceAs (Decidable (_ = true))
  | .write _ => inferInstanceAs (Decidable (_ ∨ _ ∧ _))
  | .tick | .append _ | .rewrite _ | .call _ | .read .. => isTrue trivial

/-- A call that left `.THREAD` alone found the thread list of `.DIR` in it; and a `.THREAD` that is
newer than `.DIR` has the thread list of `.DIR` in it, unless a process has it open. -/
structure Sound (s : ThreadState ι) : Prop where
  skipped : ∀ i found dir, s.proc i = .skipped found dir →
    ∃ tdir, found = some tdir ∧ IsThreadList dir tdir
  newer : ∀ f, s.thread = some f → s.dir.mtime < f.mtime →
    IsThreadList s.dir.hdrs f.hdrs ∨ ∃ i, (s.proc i).isWriting

/-- What a process has is what it would have from the `.DIR` of now. -/
def Matches (dir : ThreadFile) : ThreadProc → Prop
  | .opened _ mtime size => mtime = dir.mtime ∧ size = dir.hdrs.length
  | .reading _ size tdir => size = dir.hdrs.length ∧ tdir = dir.hdrs.take tdir.length
  | .writing _ tdir => IsThreadList dir.hdrs tdir
  | .skipped found dir => ∃ tdir, found = some tdir ∧ IsThreadList dir tdir
  | _ => True

structure ThreadInv (s : ThreadState ι) : Prop where
  dirTime : s.dir.mtime ≤ s.clock
  threadTime : ∀ f, s.thread = some f → f.mtime ≤ s.clock
  seen : ∀ i n, (s.proc i).seen = some n → n ≤ s.changes
  matches_dir : ∀ i, s.upToDate (s.proc i) → Matches s.dir (s.proc i)
  newer : ∀ f, s.thread = some f → s.dir.mtime < f.mtime →
    IsThreadList s.dir.hdrs f.hdrs ∨ ∃ i, (s.proc i).isWriting

variable {s s' : ThreadState ι} {i : ι} {p : ThreadProc}

theorem upToDate_goTo (s : ThreadState ι) (i : ι) (p q : ThreadProc) :
    (s.goTo i p).upToDate q = s.upToDate q := rfl

theorem goTo_self : (s.goTo i p).proc i = p := Function.update_self ..

theorem goTo_of_ne {j : ι} (h : j ≠ i) : (s.goTo i p).proc j = s.proc j := Function.update_of_ne h ..

namespace ThreadInv

omit [DecidableEq ι] in
theorem sound (I : ThreadInv s) : s.Sound where
  skipped i found dir h := by
    have hi := I.matches_dir i
    rw [h] at hi
    exact hi rfl
  newer := I.newer

/-- A process goes on; if it had `.THREAD` open, it has written the right list. -/
theorem goTo (I : ThreadInv s) (hseen : ∀ n, p.seen = some n → n ≤ s.changes)
    (hp : s.upToDate p → Matches s.dir p)
    (hwritten : (s.proc i).isWriting → ∀ f, s.thread = some f → s.dir.mtime < f.mtime →
      IsThreadList s.dir.hdrs f.hdrs) : ThreadInv (s.goTo i p) := by
  refine ⟨I.dirTime, I.threadTime, fun j => ?_, fun j => ?_, fun f hf hlt => ?_⟩
  · simp only [ThreadState.goTo, Function.update_apply]
    split
    · exact hseen
    · exact I.seen j
  · rw [upToDate_goTo]
    simp only [ThreadState.goTo, Function.update_apply]
    split
    · exact hp
    · exact I.matches_dir j
  · rcases I.newer f hf hlt with h | ⟨j, hj⟩
    · exact .inl h
    · by_cases hji : j = i
      · exact .inl (hwritten (hji ▸ hj) f hf hlt)
      · exact .inr ⟨j, by rwa [goTo_of_ne hji]⟩

omit [DecidableEq ι] in
/-- `.DIR` gets the time of the clock. -/
theorem change (I : ThreadInv s) (hdrs : List ThreadHeader) : ThreadInv (s.change hdrs) := by
  refine ⟨Nat.le_refl _, I.threadTime, fun j n hn => Nat.le_succ_of_le (I.seen j n hn),
    fun j hj => ?_, fun f hf hlt => ?_⟩
  · have hseen := I.seen j
    have hmatch := I.matches_dir j
    simp only [upToDate, ThreadState.change] at hj hmatch ⊢
    cases hproc : s.proc j with
    | idle | finished result => trivial
    | skipped found dir =>
      rw [hproc] at hmatch
      exact hmatch rfl
    | opened seen | reading seen | writing seen =>
      rw [hproc] at hseen hj
      obtain rfl : seen = s.changes + 1 := eq_of_beq hj
      exact absurd (hseen _ rfl) (Nat.not_succ_le_self _)
  · have := I.threadTime f hf
    exact absurd hlt (Nat.not_lt.mpr this)

omit [DecidableEq ι] in
/-- `.THREAD` gets the time of the clock. -/
theorem setThread (I : ThreadInv s) (hdrs : List ThreadHeader)
    (h : s.dir.mtime < s.clock → IsThreadList s.dir.hdrs hdrs ∨ ∃ i, (s.proc i).isWriting) :
    ThreadInv { s with thread := some ⟨s.clock, hdrs⟩ } :=
  ⟨I.dirTime, fun f hf => by rw [← Option.some.inj hf], I.seen, I.matches_dir,
    fun f hf hlt => by
      rw [← Option.some.inj hf] at hlt ⊢
      exact h hlt⟩

/-- A call of `make_thread` ends without having written `.THREAD`. -/
theorem goTo_finished (I : ThreadInv s) (hold : (s.proc i).isWriting = false) (result : Int) :
    ThreadInv (s.goTo i (.finished result)) :=
  I.goTo nofun (fun _ => trivial) fun h => by simp [hold] at h

theorem step (I : ThreadInv s) (hC : s.Undisturbed e) (h : s.step e = some s') :
    ThreadInv s' := by
  cases e with
  | tick =>
    obtain rfl := Option.some.inj h
    exact ⟨Nat.le_succ_of_le I.dirTime, fun f hf => Nat.le_succ_of_le (I.threadTime f hf), I.seen,
      I.matches_dir, I.newer⟩
  | append record => exact Option.some.inj h ▸ I.change _
  | rewrite hdrs => exact Option.some.inj h ▸ I.change hdrs
  | edit hdrs =>
    obtain ⟨f, -, rfl⟩ := Option.map_eq_some_iff.mp h
    exact I.setThread hdrs fun hlt => absurd hC (Nat.not_le.mpr hlt)
  | call i =>
    have hopened (hold : (s.proc i).isWriting = false) : ThreadInv (s.goTo i
        (.opened s.changes s.dir.mtime s.dir.hdrs.length)) := by
      refine I.goTo (fun n hn => ?_) (fun _ => ⟨rfl, rfl⟩) fun h => by simp [hold] at h
      exact Nat.le_of_eq (Option.some.inj hn).symm
    simp only [ThreadState.step] at h
    split at h
    · exact Option.some.inj h ▸ hopened (by simp [*, ThreadProc.isWriting])
    · exact Option.some.inj h ▸ hopened (by simp [*, ThreadProc.isWriting])
    · exact Option.some.inj h ▸ hopened (by simp [*, ThreadProc.isWriting])
    · cases h
  | stat i ok =>
    simp only [ThreadState.step] at h
    split at h
    · rename_i seen mtime size hproc
      have hold : (s.proc i).isWriting = false := by rw [hproc]; rfl
      have hup : s.upToDate (.opened seen mtime size) := hproc ▸ hC.1
      have hmatch := I.matches_dir i hC.1
      rw [hproc] at hmatch
      rw [← Option.some.inj h]
      split
      · rename_i hnew
        refine I.goTo nofun (fun _ => ?_) fun h => by simp [hold] at h
        unfold isNewer at hnew
        split at hnew
        · rename_i f hf
          refine ⟨f.hdrs, by rw [threadHdrs, hf]; rfl, ?_⟩
          rcases I.newer f hf (hmatch.1 ▸ of_decide_eq_true hnew) with hlist | ⟨j, hj⟩
          · exact hlist
          · exact absurd hj (hC.2 j)
        · cases hnew
      · split
        · exact I.goTo_finished hold _
        · exact I.goTo (fun n hn => I.seen i n (by rw [hproc]; exact hn))
            (fun _ => ⟨hmatch.2, rfl⟩) fun h => by simp [hold] at h
    · cases h
  | read i mapped =>
    simp only [ThreadState.step] at h
    split at h
    · rename_i seen size tdir hproc
      have hold : (s.proc i).isWriting = false := by rw [hproc]; rfl
      have hmatch := I.matches_dir i
      rw [hproc] at hmatch
      have hread (hdr : ThreadHeader)
          (hnext : s.upToDate (.reading seen size tdir) → s.dir.hdrs[tdir.length]? = some hdr) :
          ThreadInv (s.goTo i (.reading seen size (tdir ++ [hdr]))) := by
        refine I.goTo (fun n hn => I.seen i n (by rw [hproc]; exact hn)) (fun hup => ?_)
          fun h => by simp [hold] at h
        obtain ⟨hsize, htdir⟩ := hmatch hup
        refine ⟨hsize, ?_⟩
        rw [List.length_append, List.length_singleton, List.take_add_one, ← htdir, hnext hup]
        rfl
      split at h
      · rename_i hlt
        split at h
        · rename_i hdr hhdr
          exact Option.some.inj h ▸ hread hdr fun _ => hhdr
        · rename_i hend
          rw [← Option.some.inj h]
          split
          · refine hread .zero fun hup => ?_
            have hsize := (hmatch hup).1
            rw [List.getElem?_eq_none_iff] at hend
            omega
          · exact I.goTo_finished hold _
      · cases h
    · cases h
  | openThread i ok =>
    simp only [ThreadState.step] at h
    split at h
    · rename_i seen size tdir hproc
      have hmatch := I.matches_dir i
      rw [hproc] at hmatch
      obtain rfl : ok = true := hC
      split at h
      · cases h
      · rename_i hread
        rw [← Option.some.inj h]
        have I' : ThreadInv (s.goTo i (.writing seen (threadList tdir))) := by
          refine I.goTo (fun n hn => I.seen i n (by rw [hproc]; exact hn)) (fun hup => ?_)
            fun h => by simp [hproc, ThreadProc.isWriting] at h
          obtain ⟨hsize, htdir⟩ := hmatch hup
          have hall : tdir = s.dir.hdrs := by rw [htdir, List.take_of_length_le (by omega)]
          exact hall ▸ threadList_isThreadList tdir
        refine I'.setThread [] fun _ => .inr ⟨i, ?_⟩
        rw [goTo_self]
        rfl
    · cases h
  | write i =>
    simp only [ThreadState.step] at h
    split at h
    · rename_i seen tdir hproc
      rw [← Option.some.inj h]
      have hlist : s.dir.mtime < s.clock →
          IsThreadList s.dir.hdrs (tdir ++ (s.threadHdrs.getD []).drop tdir.length) := by
        intro hlt
        rcases hC with hsecond | ⟨hup, hempty⟩
        · exact absurd hsecond (Nat.not_le.mpr hlt)
        · have hmatch := I.matches_dir i hup
          rw [hproc] at hmatch
          rw [hempty, Option.getD_some, List.drop_nil, List.append_nil]
          exact hmatch
      refine (I.setThread _ fun hlt => .inl (hlist hlt)).goTo (p := .finished 0) nofun
        (fun _ => trivial) fun _ f hf hlt => ?_
      rw [← Option.some.inj hf] at hlt ⊢
      exact hlist hlt
    · cases h

end ThreadInv

def demoHeader (id : BitVec 32) : ThreadHeader := ⟨⟨[77], 10⟩, id, 0, []⟩

def demoFile : ThreadFile := ⟨10, [demoHeader 1]⟩

/-- A call that builds the list of one header, then a call that finds it. In between `es` happens.
-/
def demoCalls (es : List (ThreadEvent (Fin 2))) : List (ThreadEvent (Fin 2)) :=
  [.call 0, .stat 0 true, .read 0 true] ++ es ++
    [.tick, .openThread 0 true, .write 0, .call 1, .stat 1 true]

end ThreadState

end ArgoBbs

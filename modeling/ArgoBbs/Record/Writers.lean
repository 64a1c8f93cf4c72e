import ArgoBbs.Record.Deletion
import ArgoBbs.Lib.Reach
import Mathlib.Logic.Function.Basic

/-! # The writers of a record file

Any number of processes run `append_record`, `delete_record`, `process_records` and `delete_file`
on one file, one system call at a time (`record.c`). All of them lock the file before they write to
it, but the deleters take its size with `fstat` before they wait for the lock, and move and
truncate by that size.

A file is the list of its records, and a record of zero bytes is `default`. A deleter whose size is
larger than the file reads zeros or is stopped by `SIGBUS` behind its end; in the latter case the
records may have been moved in part. A `write` writes its whole record or fails. -/

namespace ArgoBbs

variable {ι α : Type}

/-- Where a process is in one of the calls. -/
inductive RecPc (α : Type)
  | idle
  | appending (r : α)
  | writing (r : α)
  | opened (d : Deletion α)
  | waiting (d : Deletion α) (size : Nat)
  | locked (d : Deletion α) (size : Nat)
  | moved (newSize : Option Nat)
  | closing

/-- The next thing a process does, with the outcome of the system call. -/
inductive RecEvent (α : Type)
  | openAppend (r : α)
  | openDelete (d : Deletion α)
  | fstat
  | fstatFails
  | lock
  | write
  | writeFails
  | giveUp
  | mmapFails
  | move
  | sigbus (file : List α) (newSize : Option Nat)
  | ftruncate
  | close

structure RecState (ι α : Type) where
  file : List α
  lock : Option ι
  pcs : ι → RecPc α
  /-- The records appended, in the order of the writes. -/
  appended : List α
  /-- The records that deleters have selected and removed. -/
  selected : List α

def RecState.start (file : List α) : RecState ι α where
  file := file
  lock := none
  pcs := fun _ => .idle
  appended := []
  selected := []

/-- The first `n` records of the file, extended by zeros: a mapping of that size, and the file after
`ftruncate`. -/
def resize [Inhabited α] (n : Nat) (file : List α) : List α :=
  (file ++ List.replicate (n - file.length) default).take n

/-- The file once the records that stay have been moved to the front of a mapping of size `n`. What
lies behind them stays, and nothing is written behind the end of the file. -/
def moveRecords [Inhabited α] (n : Nat) (kept file : List α) : List α :=
  (kept ++ (resize n file).drop kept.length).take file.length ++ file.drop n

/-- The size to which the process is about to cut the file. -/
def RecPc.newSize : RecPc α → Option Nat
  | .moved newSize => newSize
  | _ => none

/-- The process has the lock. -/
def RecPc.holds : RecPc α → Bool
  | .writing _ | .locked .. | .moved _ | .closing => true
  | _ => false

/-- The record that the process is about to append. -/
def RecPc.header : RecPc α → Option α
  | .appending r | .writing r => some r
  | _ => none

/-- The records of the file without those that the process with the lock is about to cut off. -/
def RecState.live (s : RecState ι α) : List α :=
  match s.lock with
  | some i =>
    match (s.pcs i).newSize with
    | some n => s.file.take n
    | none => s.file
  | none => s.file

/-- Only the process with the lock is in the part of a call that needs it, and no process cuts the
file to a size larger than it has. -/
structure RecInv (s : RecState ι α) : Prop where
  holder : ∀ i, (s.pcs i).holds = true → s.lock = some i
  newSize_le : ∀ i n, (s.pcs i).newSize = some n → n ≤ s.file.length

section
variable {s : RecState ι α} {i : ι}

theorem RecPc.holds_of_newSize {pc : RecPc α} {n : Nat} (h : pc.newSize = some n) :
    pc.holds = true := by
  cases pc <;> first | rfl | cases h

/-- Nothing is about to be cut off while the process with the lock is in another part of its
call. -/
theorem RecState.live_eq_file (h : ∀ j, s.lock = some j → (s.pcs j).newSize = none) :
    s.live = s.file := by
  unfold live
  split
  case h_1 j hlock => rw [h j hlock]
  case h_2 => rfl

theorem RecState.live_eq_take {n : Nat} (hlock : s.lock = some i)
    (h : (s.pcs i).newSize = some n) : s.live = s.file.take n := by
  rw [live, hlock]
  dsimp only
  rw [h]

/-- No other process is about to cut the file while `i` holds the lock. -/
theorem RecInv.newSize_other (H : RecInv s) (hi : s.lock = some i) {j : ι} (h : j ≠ i) :
    (s.pcs j).newSize = none := by
  cases hn : (s.pcs j).newSize with
  | none => rfl
  | some n =>
    have hj := H.holder j (RecPc.holds_of_newSize hn)
    exact absurd (Option.some.inj (hj.symm.trans hi)) h

theorem resize_of_le [Inhabited α] {n : Nat} {file : List α} (h : n ≤ file.length) :
    resize n file = file.take n := by
  rw [resize, List.take_append_of_le_length h]

/-- Within the file, moving puts the records that stay over the first ones. -/
theorem moveRecords_of_le [Inhabited α] {n : Nat} {kept file : List α} (h : n ≤ file.length)
    (hk : kept.length ≤ n) : moveRecords n kept file = kept ++ file.drop kept.length := by
  have hdrop : (file.take n).drop kept.length ++ file.drop n = file.drop kept.length := by
    rw [← List.drop_append_of_le_length (by simp; omega), List.take_append_drop]
  have hlen : (kept ++ (file.take n).drop kept.length).length ≤ file.length := by
    simp only [List.length_append, List.length_drop, List.length_take]
    omega
  rw [moveRecords, resize_of_le h, List.take_of_length_le hlen, List.append_assoc, hdrop]

end

/-- A deleter moves records only if the file still has the size that it had before the deleter
waited for the lock. -/
def SizeIsFresh (s : RecState ι α) (e : ι × RecEvent α) : Prop :=
  match s.pcs e.1, e.2 with
  | .locked _ size, .move | .locked _ size, .sigbus .. => size = s.file.length
  | _, _ => True

/-- A deleter moves records only if the file has at least that size. -/
def SizeIsInFile (s : RecState ι α) (e : ι × RecEvent α) : Prop :=
  match s.pcs e.1, e.2 with
  | .locked _ size, .move | .locked _ size, .sigbus .. => size ≤ s.file.length
  | _, _ => True

variable [DecidableEq ι]

def RecState.at (s : RecState ι α) (i : ι) (pc : RecPc α) : RecState ι α :=
  { s with pcs := Function.update s.pcs i pc }

/-- Closing the file gives up the lock on it. -/
def RecState.closed (s : RecState ι α) (i : ι) : RecState ι α :=
  { s.at i .idle with lock := if s.lock = some i then none else s.lock }

section
variable {s : RecState ι α} {i : ι} {pc : RecPc α} {e : RecEvent α}

@[simp] theorem RecState.at_self : (s.at i pc).pcs i = pc := Function.update_self ..

theorem RecState.at_other {j : ι} (h : j ≠ i) : (s.at i pc).pcs j = s.pcs j :=
  Function.update_of_ne h ..

/-- A step of a process that is not about to cut the file and leaves file and lock alone. -/
theorem RecState.live_at (h : (s.pcs i).newSize = none) (hpc : pc.newSize = none) :
    (s.at i pc).live = s.live := by
  cases hlock : s.lock with
  | none => rw [live, live, show (s.at i pc).lock = none from hlock, hlock]; rfl
  | some j =>
    rw [live, live, show (s.at i pc).lock = some j from hlock, hlock]
    dsimp only
    by_cases hj : j = i
    · rw [hj, at_self, hpc, h]; rfl
    · rw [at_other hj]; rfl

theorem RecState.live_closed (h : (s.pcs i).newSize = none) : (s.closed i).live = s.live := by
  by_cases hlock : s.lock = some i
  · have hfile : s.live = s.file :=
      live_eq_file fun j hj => by rw [← Option.some.inj (hlock.symm.trans hj), h]
    have hnone : (s.closed i).lock = none := if_pos hlock
    exact (live_eq_file fun j hj => nomatch hnone.symm.trans hj).trans hfile.symm
  · have hclosed : s.closed i = s.at i .idle := by rw [closed, if_neg hlock]; rfl
    rw [hclosed, live_at h rfl]

/-- The other processes are where they were, and the lock stays theirs. -/
theorem RecInv.holder_at (H : RecInv s) {lock : Option ι}
    (hi : pc.holds = true → lock = some i) (hj : ∀ j, j ≠ i → s.lock = some j → lock = some j) :
    ∀ j, ((s.at i pc).pcs j).holds = true → lock = some j := by
  intro j hpc
  by_cases h : j = i
  · rw [h, RecState.at_self] at hpc
    exact h ▸ hi hpc
  · rw [RecState.at_other h] at hpc
    exact hj j h (H.holder j hpc)

/-- The other processes cut the file where they would have. -/
theorem RecInv.newSize_at (H : RecInv s) {file : List α}
    (hi : ∀ n, pc.newSize = some n → n ≤ file.length)
    (hj : ∀ j, j ≠ i → (s.pcs j).newSize = none ∨ s.file.length ≤ file.length) :
    ∀ j n, ((s.at i pc).pcs j).newSize = some n → n ≤ file.length := by
  intro j n hn
  by_cases h : j = i
  · rw [h, RecState.at_self] at hn
    exact hi n hn
  · rw [RecState.at_other h] at hn
    rcases hj j h with hnone | hle
    · rw [hnone] at hn
      cases hn
    · exact Nat.le_trans (H.newSize_le j n hn) hle

/-- What a step does to the records that will stay. -/
inductive LiveStep (s : RecState ι α) (i : ι) : RecEvent α → RecState ι α → Prop
  | same : s₁.live = s.live → s₁.file = s.file ∨ s₁.file = s₁.live → s₁.appended = s.appended →
    s₁.selected = s.selected → LiveStep s i a s₁
  | append {r : α} : s.pcs i = .writing r → s.live = s.file → s₁.file = s.file ++ [r] →
    s₁.live = s.live ++ [r] → s₁.appended = s.appended ++ [r] → s₁.selected = s.selected →
    LiveStep s i .write s₁
  | delete {d : Deletion α} {size : Nat} {kept selected : List α} :
    s.pcs i = .locked d size → s.live = s.file →
    d.plan (s.live.take size) = some (kept, selected) → s₁.live = kept →
    s₁.file = kept ++ s.file.drop kept.length → s₁.appended = s.appended →
    s₁.selected = s.selected ++ selected → LiveStep s i .move s₁

theorem RecInv.goto (H : RecInv s) (hs : (s.pcs i).newSize = none)
    (hpc : pc.newSize = none) (hholds : pc.holds = true → (s.pcs i).holds = true) :
    RecInv (s.at i pc) ∧ LiveStep s i e (s.at i pc) := by
  refine ⟨⟨?_, ?_⟩, .same (RecState.live_at hs hpc) (.inl rfl) rfl rfl⟩
  · exact H.holder_at (fun h => H.holder i (hholds h)) fun j _ hj => hj
  · exact H.newSize_at (fun n hn => nomatch hpc.symm.trans hn) fun j _ => .inr (Nat.le_refl _)

theorem RecInv.takeLock (H : RecInv s) (hs : (s.pcs i).newSize = none)
    (hpc : pc.newSize = none) (hlock : s.lock = none ∨ s.lock = some i) :
    RecInv { s.at i pc with lock := some i } ∧
      LiveStep s i e { s.at i pc with lock := some i } := by
  have hlive : s.live = s.file := RecState.live_eq_file fun j hj => by
    rcases hlock with h | h
    · rw [h] at hj
      cases hj
    · rw [← Option.some.inj (h.symm.trans hj), hs]
  have hlive' : ({ s.at i pc with lock := some i } : RecState ι α).live = s.file :=
    RecState.live_eq_file fun j hj => by
      rw [← Option.some.inj hj]
      exact (congrArg RecPc.newSize RecState.at_self).trans hpc
  refine ⟨⟨?_, ?_⟩, .same (hlive'.trans hlive.symm) (.inl rfl) rfl rfl⟩
  · refine H.holder_at (fun _ => rfl) fun j hne hj => ?_
    rcases hlock with h | h
    · rw [h] at hj
      cases hj
    · exact absurd (Option.some.inj (hj.symm.trans h)) hne
  · exact H.newSize_at (fun n hn => nomatch hpc.symm.trans hn) fun j _ => .inr (Nat.le_refl _)

theorem RecInv.close (H : RecInv s) (hs : (s.pcs i).newSize = none) :
    RecInv (s.closed i) ∧ LiveStep s i e (s.closed i) := by
  refine ⟨⟨?_, ?_⟩, .same (RecState.live_closed hs) (.inl rfl) rfl rfl⟩
  · refine H.holder_at nofun fun j hne hj => ?_
    have hi : s.lock ≠ some i := fun h => hne (Option.some.inj (hj.symm.trans h))
    exact (if_neg hi).trans hj
  · exact H.newSize_at nofun fun j _ => .inr (Nat.le_refl _)

theorem RecInv.write (H : RecInv s) {r : α} (hpc : s.pcs i = .writing r) :
    RecInv { s.at i .closing with file := s.file ++ [r], appended := s.appended ++ [r] } ∧
      LiveStep s i .write
        { s.at i .closing with file := s.file ++ [r], appended := s.appended ++ [r] } := by
  have hlock := H.holder i (by rw [hpc]; rfl)
  have hlive : s.live = s.file := RecState.live_eq_file fun j hj => by
    rw [← Option.some.inj (hlock.symm.trans hj), hpc]
    rfl
  have hlive' : ({ s.at i .closing with file := s.file ++ [r], appended := s.appended ++ [r] } :
      RecState ι α).live = s.file ++ [r] := RecState.live_eq_file fun j hj => by
    rw [← Option.some.inj (hlock.symm.trans hj)]
    exact congrArg RecPc.newSize RecState.at_self
  refine ⟨⟨?_, ?_⟩, .append hpc hlive rfl (hlive ▸ hlive') rfl rfl⟩
  · exact H.holder_at (fun _ => hlock) fun j _ hj => hj
  · exact H.newSize_at nofun fun j _ => .inr (by simp)

end

/-! ## The steps -/

variable [Inhabited α]

def RecState.exec (s : RecState ι α) (e : ι × RecEvent α) : Option (RecState ι α) :=
  let (i, e) := e
  match s.pcs i, e with
  | .idle, .openAppend r => some (s.at i (.appending r))
  | .idle, .openDelete d => some (s.at i (.opened d))
  | .opened d, .fstat => some (s.at i (.waiting d s.file.length))
  | .opened _, .fstatFails => some (s.closed i)
  | .appending r, .lock =>
    if s.lock = none ∨ s.lock = some i then some { s.at i (.writing r) with lock := some i } else none
  | .waiting d size, .lock =>
    if s.lock = none ∨ s.lock = some i then some { s.at i (.locked d size) with lock := some i }
    else none
  | .writing r, .write =>
    some { s.at i .closing with file := s.file ++ [r], appended := s.appended ++ [r] }
  | .writing _, .writeFails => some (s.at i .closing)
  | .locked d size, .giveUp =>
    if (d.plan (resize size s.file)).isNone then some (s.closed i) else none
  | .locked (.range ..) _, .mmapFails => some (s.at i .idle)
  | .locked _ _, .mmapFails => some (s.closed i)
  | .locked d size, .move =>
    match d.plan (resize size s.file) with
    | some (kept, selected) => some
      { s.at i (.moved (d.newSize size selected)) with
        file := moveRecords size kept s.file
        selected := s.selected ++ selected }
    | none => none
  | .locked _ size, .sigbus file newSize =>
    if s.file.length < size ∧ file.length = s.file.length then
      some { s.at i (.moved newSize) with file }
    else none
  | .moved (some n), .ftruncate => some { s.at i .closing with file := resize n s.file }
  | .moved none, .close => some (s.closed i)
  | .closing, .close => some (s.closed i)
  | _, _ => none

variable {s s' : RecState ι α} {i : ι} {e : RecEvent α}

/-- The kinds of steps: most only take the process on in its call, some take or give up the lock,
and four touch the file. -/
inductive RecStep (s : RecState ι α) (i : ι) : RecEvent α → RecState ι α → Prop
  | goto : (s.pcs i).newSize = none → pc.newSize = none →
    (pc.holds = true → (s.pcs i).holds = true) →
    (∀ r, pc.header = some r → a = .openAppend r) → RecStep s i a (s.at i pc)
  | lock : (s.pcs i).newSize = none → pc.newSize = none → s.lock = none ∨ s.lock = some i →
    pc.header = (s.pcs i).header → RecStep s i .lock { s.at i pc with lock := some i }
  | close : (s.pcs i).newSize = none → RecStep s i a (s.closed i)
  | write : s.pcs i = .writing r → RecStep s i .write
    { s.at i .closing with file := s.file ++ [r], appended := s.appended ++ [r] }
  | move : s.pcs i = .locked d size → d.plan (resize size s.file) = some (kept, selected) →
    RecStep s i .move { s.at i (.moved (d.newSize size selected)) with
      file := moveRecords size kept s.file
      selected := s.selected ++ selected }
  | sigbus : s.pcs i = .locked d size → s.file.length < size → file.length = s.file.length →
    RecStep s i (.sigbus file newSize) { s.at i (.moved newSize) with file }
  | ftruncate : s.pcs i = .moved (some n) →
    RecStep s i .ftruncate { s.at i .closing with file := resize n s.file }

theorem RecStep.of_exec (h : s.exec (i, e) = some s') : RecStep s i e s' := by
  unfold RecState.exec at h
  dsimp only at h
  split at h
  case h_1 r hpc =>
    cases h
    exact .goto (by rw [hpc]; rfl) rfl nofun fun r' hr => Option.some.inj hr ▸ rfl
  case h_2 hpc => cases h; exact .goto (by rw [hpc]; rfl) rfl nofun nofun
  case h_3 hpc => cases h; exact .goto (by rw [hpc]; rfl) rfl nofun nofun
  case h_4 hpc => cases h; exact .close (by rw [hpc]; rfl)
  case h_5 hpc =>
    split at h
    case isTrue hlock => cases h; exact .lock (by rw [hpc]; rfl) rfl hlock (by rw [hpc]; rfl)
    case isFalse => cases h
  case h_6 hpc =>
    split at h
    case isTrue hlock => cases h; exact .lock (by rw [hpc]; rfl) rfl hlock (by rw [hpc]; rfl)
    case isFalse => cases h
  case h_7 hpc => cases h; exact .write hpc
  case h_8 hpc => cases h; exact .goto (by rw [hpc]; rfl) rfl (fun _ => by rw [hpc]; rfl) nofun
  case h_9 hpc =>
    split at h
    case isTrue => cases h; exact .close (by rw [hpc]; rfl)
    case isFalse => cases h
  case h_10 hpc => cases h; exact .goto (by rw [hpc]; rfl) rfl nofun nofun
  case h_11 hpc => cases h; exact .close (by rw [hpc]; rfl)
  case h_12 hpc =>
    split at h
    case h_1 hplan => cases h; exact .move hpc hplan
    case h_2 => cases h
  case h_13 hpc =>
    split at h
    case isTrue hlen => cases h; exact .sigbus hpc hlen.1 hlen.2
    case isFalse => cases h
  case h_14 hpc => cases h; exact .ftruncate hpc
  case h_15 hpc => cases h; exact .close (by rw [hpc]; rfl)
  case h_16 hpc => cases h; exact .close (by rw [hpc]; rfl)
  case h_17 => cases h

/-- The other processes stay where they are, and a process is about to append a record only from
`open` on, with the lock after `f_exlock`. -/
theorem RecStep.header (h : RecStep s i e s') : (∀ j, j ≠ i → s'.pcs j = s.pcs j) ∧
    ∀ r, (s'.pcs i).header = some r → e = .openAppend r ∨ e = .lock ∧ (s.pcs i).header = some r := by
  have hself : ∀ pc, ((s.at i pc).pcs i).header = pc.header :=
    fun pc => congrArg RecPc.header RecState.at_self
  cases h with
  | goto _ _ _ hopen =>
    exact ⟨fun j hj => RecState.at_other hj, fun r hr => .inl (hopen r ((hself _).symm.trans hr))⟩
  | lock _ _ _ hsame =>
    exact ⟨fun j hj => RecState.at_other hj,
      fun r hr => .inr ⟨rfl, hsame.symm.trans ((hself _).symm.trans hr)⟩⟩
  | close _ => exact ⟨fun j hj => RecState.at_other hj, fun r hr => nomatch (hself .idle).symm.trans hr⟩
  | write _ | ftruncate _ =>
    exact ⟨fun j hj => RecState.at_other hj, fun r hr => nomatch (hself .closing).symm.trans hr⟩
  | move _ _ | sigbus _ _ _ =>
    exact ⟨fun j hj => RecState.at_other hj, fun r hr => nomatch (hself (.moved _)).symm.trans hr⟩

/-- A deleter that moves records within the file. -/
theorem RecInv.move (H : RecInv s) {d : Deletion α} {size : Nat} {kept selected : List α}
    (hpc : s.pcs i = .locked d size) (hsize : size ≤ s.file.length)
    (hplan : d.plan (resize size s.file) = some (kept, selected)) :
    RecInv { s.at i (.moved (d.newSize size selected)) with
        file := moveRecords size kept s.file, selected := s.selected ++ selected } ∧
      LiveStep s i .move { s.at i (.moved (d.newSize size selected)) with
        file := moveRecords size kept s.file, selected := s.selected ++ selected } := by
  have hlock := H.holder i (by rw [hpc]; rfl)
  have hlive : s.live = s.file := RecState.live_eq_file fun j hj => by
    rw [← Option.some.inj (hlock.symm.trans hj), hpc]
    rfl
  rw [resize_of_le hsize] at hplan
  obtain ⟨hdiv, hnew⟩ := Deletion.plan_divides hplan
  have hview : (s.file.take size).length = size := List.length_take_of_le hsize
  rw [hview] at hnew
  have hlen := hview ▸ hdiv.length
  have hmove : moveRecords size kept s.file = kept ++ s.file.drop kept.length :=
    moveRecords_of_le hsize (by omega)
  rw [hmove]
  have hinv : RecInv { s.at i (.moved (d.newSize size selected)) with
      file := kept ++ s.file.drop kept.length, selected := s.selected ++ selected } := by
    refine ⟨H.holder_at (fun _ => hlock) fun j _ hj => hj, ?_⟩
    refine H.newSize_at (fun n hn => ?_) fun j hj => .inl (H.newSize_other hlock hj)
    have hn : n = kept.length := by rw [← hnew, show d.newSize size selected = some n from hn]; rfl
    simp only [List.length_append]
    omega
  refine ⟨hinv, ?_⟩
  cases hn : d.newSize size selected with
  | some n =>
    have hn' : n = kept.length := by rw [← hnew, hn]; rfl
    refine .delete hpc hlive (hlive ▸ hplan) ?_ rfl rfl rfl
    have hpc' : ((s.at i (.moved (some n))).pcs i).newSize = some n :=
      congrArg RecPc.newSize RecState.at_self
    have hlock' : ({ s.at i (.moved (some n)) with
        file := kept ++ s.file.drop kept.length
        selected := s.selected ++ selected } : RecState ι α).lock = some i := hlock
    refine (RecState.live_eq_take hlock' hpc').trans ?_
    rw [hn']
    exact List.take_left
  | none =>
    -- nothing was selected, so every record stays where it is
    rw [hn] at hnew
    have hsel : selected = [] := List.length_eq_zero_iff.mp (by simp at hnew; omega)
    have hkept : kept = s.file.take size := hdiv.sublist.eq_of_length (by simp at hnew; omega)
    have hfile : kept ++ s.file.drop kept.length = s.file := by
      rw [hkept, hview, List.take_append_drop]
    rw [hfile, hsel, List.append_nil]
    refine .same ?_ (.inl rfl) rfl rfl
    exact RecState.live_at (by rw [hpc]; rfl) rfl

theorem RecInv.truncate (H : RecInv s) {n : Nat} (hpc : s.pcs i = .moved (some n)) :
    RecInv { s.at i .closing with file := resize n s.file } ∧
      LiveStep s i e { s.at i .closing with file := resize n s.file } := by
  have hlock := H.holder i (by rw [hpc]; rfl)
  have hn : n ≤ s.file.length := H.newSize_le i n (by rw [hpc]; rfl)
  have hlive : s.live = s.file.take n := RecState.live_eq_take hlock (by rw [hpc]; rfl)
  rw [resize_of_le hn]
  have hlive' : ({ s.at i .closing with file := s.file.take n } : RecState ι α).live =
      s.file.take n := RecState.live_eq_file fun j hj => by
    rw [← Option.some.inj (hlock.symm.trans hj)]
    exact congrArg RecPc.newSize RecState.at_self
  refine ⟨⟨?_, ?_⟩, .same (hlive'.trans hlive.symm) (.inr hlive'.symm) rfl rfl⟩
  · exact H.holder_at (fun _ => hlock) fun j _ hj => hj
  · exact H.newSize_at nofun fun j hj => .inl (H.newSize_other hlock hj)

/-- What one step does, provided that a deleter that moves records maps no more than the file. -/
theorem RecInv.step (H : RecInv s) (hsize : SizeIsInFile s (i, e)) (h : s.exec (i, e) = some s') :
    RecInv s' ∧ LiveStep s i e s' := by
  cases RecStep.of_exec h with
  | goto hs hpc hholds _ => exact H.goto hs hpc hholds
  | lock hs hpc hlock _ => exact H.takeLock hs hpc hlock
  | close hs => exact H.close hs
  | write hpc => exact H.write hpc
  | move hpc hplan =>
    rw [SizeIsInFile, hpc] at hsize
    exact H.move hpc hsize hplan
  | sigbus hpc hlt =>
    rw [SizeIsInFile, hpc] at hsize
    exact absurd hsize (Nat.not_le_of_lt hlt)
  | ftruncate hpc => exact H.truncate hpc

end ArgoBbs

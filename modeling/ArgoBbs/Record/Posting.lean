import ArgoBbs.Record.Conservation
import ArgoBbs.Record.Search

/-! # The order of the posts

A process that posts takes the time (`postfile.filetime = time(NULL)`) and then appends the header
to `.DIR` with `append_record` (`bbs.c`). The binary searches over `.DIR` rely on the times being in
order. They are as long as the headers are appended in the order of their times
(`posts_in_order`); but the time is taken before the lock, so a process can be overtaken
(`posts_out_of_order`). -/

namespace ArgoBbs

variable {ι : Type}

/-- The writers of `.DIR`, the clock, and the headers of the posts that have their time and are not
yet in the file. -/
structure PostState (ι : Type) where
  dir : RecState ι FileHeader
  clock : Int
  stamped : ι → Option FileHeader

inductive PostEvent (ι : Type)
  | tick (now : Int)
  | stamp (i : ι) (filename : List UInt8)
  | abandon (i : ι)
  | call (i : ι) (e : RecEvent FileHeader)

def PostState.start (dir : List FileHeader) (clock : Int) : PostState ι :=
  ⟨.start dir, clock, fun _ => none⟩

theorem RecState.live_sublist {α : Type} (s : RecState ι α) : s.live.Sublist s.file := by
  unfold live
  split
  · split
    · exact List.take_sublist ..
    · exact .refl _
  · exact .refl _

/-- A header is appended only if no other process has taken an earlier time and not yet appended; a
deleter moves records only if the file has at least the size it knows, and no record that stays is
later than one in the cells that it will cut off. -/
def PostOk (s : PostState ι) : PostEvent ι → Prop
  | .call i e => SizeIsInFile s.dir (i, e) ∧
    match s.dir.pcs i, e with
    | .writing r, .write => ∀ j r', s.stamped j = some r' → r.filetime ≤ r'.filetime
    | .locked d size, .move => ∀ kept selected,
      d.plan (s.dir.file.take size) = some (kept, selected) →
      ∀ x ∈ kept, ∀ y ∈ s.dir.file.drop kept.length, x.filetime ≤ y.filetime
    | _, _ => True
  | _ => True

variable {s s' : PostState ι} {i j : ι} {e : RecEvent FileHeader} {dir : RecState ι FileHeader}

/-- What a step leaves in the file: its headers in order, and no others than before except the one
appended. -/
theorem LiveStep.inOrder (h : LiveStep s.dir i e dir) (hs : InOrder s.dir.file)
    (hok : PostOk s (.call i e))
    (hlast : ∀ r, s.dir.pcs i = .writing r → ∀ x ∈ s.dir.file, x.filetime ≤ r.filetime) :
    InOrder dir.file ∧ ∀ x ∈ dir.file, x ∈ s.dir.file ∨ e = .write ∧ s.dir.pcs i = .writing x := by
  cases h with
  | same hlive hfile _ _ =>
    have hsub : dir.file.Sublist s.dir.file := by
      rcases hfile with hfile | hfile
      · exact hfile ▸ .refl _
      · exact hfile ▸ hlive ▸ s.dir.live_sublist
    exact ⟨hs.sublist hsub, fun x hx => .inl (hsub.subset hx)⟩
  | @append _ r hpc _ hfile _ _ _ =>
    rw [hfile]
    refine ⟨?_, fun x hx => ?_⟩
    · refine List.pairwise_append.mpr ⟨hs, List.pairwise_singleton _ _, fun x hx y hy => ?_⟩
      exact List.mem_singleton.mp hy ▸ hlast r hpc x hx
    · rcases List.mem_append.mp hx with hx | hx
      · exact .inl hx
      · exact .inr ⟨rfl, List.mem_singleton.mp hx ▸ hpc⟩
  | @delete _ d size kept selected hpc hlive hplan _ hfile _ _ =>
    have hcut := hok.2
    rw [hpc] at hcut
    rw [hlive] at hplan
    have hsub : kept.Sublist s.dir.file :=
      (Deletion.plan_divides hplan).1.sublist.trans (List.take_sublist ..)
    have hdrop : (s.dir.file.drop kept.length).Sublist s.dir.file := List.drop_sublist ..
    rw [hfile]
    refine ⟨?_, fun x hx => ?_⟩
    · exact List.pairwise_append.mpr ⟨hs.sublist hsub, hs.sublist hdrop, hcut kept selected hplan⟩
    · rcases List.mem_append.mp hx with hx | hx
      · exact .inl (hsub.subset hx)
      · exact .inl (hdrop.subset hx)

variable [DecidableEq ι]

/-- A process appends the post that it has taken the time for, and deletes only between posts. -/
def PostState.MayCall (s : PostState ι) (i : ι) : RecEvent FileHeader → Prop
  | .openAppend r => s.stamped i = some r
  | .openDelete _ => s.stamped i = none
  | _ => True

instance (s : PostState ι) (i : ι) (e : RecEvent FileHeader) : Decidable (s.MayCall i e) := by
  cases e <;> unfold PostState.MayCall <;> infer_instance

/-- The post is done with its `write`. -/
def PostState.stampedAfter (s : PostState ι) (i : ι) : RecEvent FileHeader → ι → Option FileHeader
  | .write | .writeFails => Function.update s.stamped i none
  | _ => s.stamped

def PostState.exec (s : PostState ι) : PostEvent ι → Option (PostState ι)
  | .tick now => if s.clock ≤ now then some { s with clock := now } else none
  | .stamp i filename =>
    match s.dir.pcs i, s.stamped i with
    | .idle, none => some { s with stamped := Function.update s.stamped i (some ⟨filename, s.clock⟩) }
    | _, _ => none
  | .abandon i =>
    match s.dir.pcs i with
    | .idle => some { s with stamped := Function.update s.stamped i none }
    | _ => none
  | .call i e =>
    if s.MayCall i e then
      (s.dir.exec (i, e)).map fun dir => { s with dir, stamped := s.stampedAfter i e }
    else none

structure PostInv (s : PostState ι) : Prop where
  inv : RecInv s.dir
  inOrder : InOrder s.dir.file
  past : ∀ x ∈ s.dir.file, x.filetime ≤ s.clock
  stamped : ∀ i r, s.stamped i = some r → r.filetime ≤ s.clock ∧
    ∀ x ∈ s.dir.file, x.filetime ≤ r.filetime
  header : ∀ i r, (s.dir.pcs i).header = some r → s.stamped i = some r


theorem stampedAfter_other (hj : j ≠ i) : s.stampedAfter i e j = s.stamped j := by
  unfold PostState.stampedAfter
  split <;> first | rfl | exact Function.update_of_ne hj ..

/-- A post that still waits after a step has had its time before. -/
theorem stamped_of_after {r : FileHeader} (h : s.stampedAfter i e j = some r) :
    s.stamped j = some r := by
  by_cases hj : j = i
  · subst hj
    unfold PostState.stampedAfter at h
    split at h
    · rw [Function.update_self] at h; cases h
    · rw [Function.update_self] at h; cases h
    · exact h
  · rwa [stampedAfter_other hj] at h

/-- A call of the record functions keeps the invariant. -/
theorem PostInv.call (H : PostInv s) (hok : PostOk s (.call i e)) (hmay : s.MayCall i e)
    (hexec : s.dir.exec (i, e) = some dir) :
    PostInv { s with dir, stamped := s.stampedAfter i e } := by
  obtain ⟨hinv, hlive⟩ := H.inv.step hok.1 hexec
  obtain ⟨hpcs, hheader⟩ := (RecStep.of_exec hexec).header
  have hwriting : ∀ r, s.dir.pcs i = .writing r → s.stamped i = some r :=
    fun r hr => H.header i r (by rw [hr]; rfl)
  obtain ⟨hsorted, hmem⟩ := hlive.inOrder H.inOrder hok fun r hr => (H.stamped i r (hwriting r hr)).2
  refine ⟨hinv, hsorted, fun x hx => ?_, fun j r hr => ?_, fun j r hr => ?_⟩
  · rcases hmem x hx with hx | ⟨-, hx⟩
    · exact H.past x hx
    · exact (H.stamped i x (hwriting x hx)).1
  · have hr := stamped_of_after hr
    refine ⟨(H.stamped j r hr).1, fun x hx => ?_⟩
    rcases hmem x hx with hx | ⟨he, hx⟩
    · exact (H.stamped j r hr).2 x hx
    · have hbefore := hok.2
      rw [hx, he] at hbefore
      exact hbefore j r hr
  · by_cases hj : j = i
    · subst hj
      rcases hheader r hr with rfl | ⟨rfl, hlock⟩
      · exact hmay
      · exact H.header j r hlock
    · rw [hpcs j hj] at hr
      exact (stampedAfter_other hj).trans (H.header j r hr)

/-- Taking the time of a post: it is not before that of any header in the file. -/
theorem PostInv.stamp (H : PostInv s) (hpc : s.dir.pcs i = .idle) (filename : List UInt8) :
    PostInv { s with stamped := Function.update s.stamped i (some ⟨filename, s.clock⟩) } := by
  refine ⟨H.inv, H.inOrder, H.past, fun j r hr => ?_, fun j r hr => ?_⟩
  · by_cases hj : j = i
    · subst hj
      have hr : Function.update s.stamped j (some ⟨filename, s.clock⟩) j = some r := hr
      rw [Function.update_self] at hr
      exact Option.some.inj hr ▸ ⟨Int.le_refl _, H.past⟩
    · exact H.stamped j r ((Function.update_of_ne hj ..).symm.trans hr)
  · by_cases hj : j = i
    · rw [hj, hpc] at hr
      cases hr
    · exact (Function.update_of_ne hj ..).trans (H.header j r hr)

theorem PostInv.abandon (H : PostInv s) (hpc : s.dir.pcs i = .idle) :
    PostInv { s with stamped := Function.update s.stamped i none } := by
  refine ⟨H.inv, H.inOrder, H.past, fun j r hr => ?_, fun j r hr => ?_⟩
  · by_cases hj : j = i
    · subst hj
      have hr : Function.update s.stamped j none j = some r := hr
      rw [Function.update_self] at hr
      cases hr
    · exact H.stamped j r ((Function.update_of_ne hj ..).symm.trans hr)
  · by_cases hj : j = i
    · rw [hj, hpc] at hr
      cases hr
    · exact (Function.update_of_ne hj ..).trans (H.header j r hr)

theorem PostInv.step {ev : PostEvent ι} (H : PostInv s) (hok : PostOk s ev)
    (hexec : s.exec ev = some s') : PostInv s' := by
  cases ev with
  | tick now =>
    rw [PostState.exec] at hexec
    split at hexec
    case isTrue hnow =>
      cases hexec
      refine ⟨H.inv, H.inOrder, fun x hx => Int.le_trans (H.past x hx) hnow, fun j r hr => ?_,
        H.header⟩
      obtain ⟨hpast, hlast⟩ := H.stamped j r hr
      exact ⟨Int.le_trans hpast hnow, hlast⟩
    case isFalse => cases hexec
  | stamp i filename =>
    rw [PostState.exec] at hexec
    split at hexec
    case h_1 hpc _ => cases hexec; exact H.stamp hpc filename
    case h_2 => cases hexec
  | abandon i =>
    rw [PostState.exec] at hexec
    split at hexec
    case h_1 hpc => cases hexec; exact H.abandon hpc
    case h_2 => cases hexec
  | call i e =>
    rw [PostState.exec] at hexec
    split at hexec
    case isTrue hmay =>
      obtain ⟨dir, hdir, rfl⟩ := Option.map_eq_some_iff.mp hexec
      exact H.call hok hmay hdir
    case isFalse => cases hexec

/-- In every run of any number of processes that post to and delete from a board, with a clock that
does not go back, in which headers are appended in the order in which they got their times, and
deleters move records only within the file and leave no later header in front of the cells they will
cut off: the times in `.DIR` do not decrease in any state, and the search finds every header. -/
theorem posts_in_order (dir₀ : List FileHeader) (clock : Int) (hdir : InOrder dir₀)
    (hpast : ∀ x ∈ dir₀, x.filetime ≤ clock)
    (h : Reach PostState.exec PostOk (.start dir₀ clock : PostState ι) s) :
    InOrder s.dir.file ∧ ∀ x ∈ s.dir.file, ∀ sameName : FileHeader → Bool, sameName x = true →
      ∃ i y, getDirIndex x.filetime sameName s.dir.file = some i ∧ s.dir.file[i]? = some y ∧
        y.filetime = x.filetime ∧ sameName y = true := by
  have hstart : PostInv (.start dir₀ clock : PostState ι) :=
    ⟨recInv_start dir₀, hdir, hpast, nofun, nofun⟩
  have hsorted : InOrder s.dir.file :=
    (h.invariant PostInv hstart fun _ _ _ H hok hexec => H.step hok hexec).inOrder
  exact ⟨hsorted, fun x hx sameName hname => getDirIndex_finds hsorted hx rfl hname⟩

/-- What a process does to append its post. -/
def appendPost {ι : Type} (i : ι) (r : FileHeader) : List (PostEvent ι) :=
  [.call i (.openAppend r), .call i .lock, .call i .write, .call i .close]

/-- Two processes post, the second one after a while. -/
def postLaterRun {ι : Type} (i j : ι) : List (PostEvent ι) :=
  .stamp i [65] :: appendPost i ⟨[65], 100⟩ ++ [.tick 107, .stamp j [66]] ++
    appendPost j ⟨[66], 107⟩

theorem posts_in_order_postLater : ∃ s : PostState (Fin 2),
    InOrder s.dir.file ∧ s.dir.file = [⟨[65], 100⟩, ⟨[66], 107⟩] := by
  refine ⟨_, (posts_in_order [] 100 .nil nofun (.of_run (postLaterRun 0 1) ?_ rfl .refl)).1, rfl⟩
  refine ⟨trivial, ⟨trivial, trivial⟩, ⟨trivial, trivial⟩, ⟨trivial, ?_⟩, ⟨trivial, trivial⟩,
    trivial, trivial, ⟨trivial, trivial⟩, ⟨trivial, trivial⟩, ⟨trivial, ?_⟩, ⟨trivial, trivial⟩,
    trivial⟩
  · refine Fin.forall_fin_two.mpr ⟨fun r hj => ?_, fun r hj => ?_⟩
    · cases hj
      exact Int.le_refl _
    · cases hj
  · refine Fin.forall_fin_two.mpr ⟨fun r hj => ?_, fun r hj => ?_⟩
    · cases hj
    · cases hj
      exact Int.le_refl _

/-- The first process takes the time, and the second one takes a later time and appends before
it. -/
def overtakenRun {ι : Type} (i j : ι) : List (PostEvent ι) :=
  [.stamp i [65], .tick 107, .stamp j [66]] ++ appendPost j ⟨[66], 107⟩ ++ appendPost i ⟨[65], 100⟩

/-- The later time stands before the earlier one. -/
theorem posts_out_of_order : ∃ s : PostState (Fin 2),
    Reach PostState.exec (fun _ _ => True) (.start [] 100) s ∧ ¬ InOrder s.dir.file := by
  refine ⟨_, .of_run (overtakenRun 0 1) ?_ rfl .refl, ?_⟩
  · exact ⟨trivial, trivial, trivial, trivial, trivial, trivial, trivial, trivial, trivial, trivial,
      trivial, trivial⟩
  · intro h
    exact absurd (List.rel_of_pairwise_cons h List.mem_cons_self) (by decide)

end ArgoBbs

import ArgoBbs.Announce.Paste
import ArgoBbs.Lib.Reach
import Mathlib.Data.Fintype.Basic

/-! # Managers of one announce directory

Any number of managers work on the items of one directory. A key acts on the entry of the list on
the screen, which was read from the index earlier: `ann_delete_item` takes the file from the record
shown, and deletes from the index by the number (`announce.c`). -/

namespace ArgoBbs

/-- Where a manager is. In `ann_delete_item`: the entry is confirmed, its file copied, removed, and
`delete_record` has read the size. In `move_record`, with the size compared. In `ann_add_file` or
`ann_paste` with the record to append. In an `ann_paste` elsewhere that has taken the file of an
item from here: it looks for the record, has found it, has read the size. -/
inductive ManagerPc
  | idle
  | viewing (ent : Nat) (h : AnnHeader)
  | copying (ent : Nat) (h : AnnHeader)
  | removing (ent : Nat) (h : AnnHeader)
  | deleting (ent : Nat) (h : AnnHeader)
  | sized (ent : Nat) (h : AnnHeader) (size : Nat)
  | moving (srcid dstid size : Nat)
  | adding (h : AnnHeader)
  | cutting (name : Bytes)
  | found (id : Nat)
  | foundSized (id size : Nat)

/-- The entry that the manager is deleting, as it was shown. -/
def ManagerPc.deletes? : ManagerPc → Option (Nat × AnnHeader)
  | .copying ent h | .removing ent h | .deleting ent h | .sized ent h _ => some (ent, h)
  | _ => none

/-- The size that a deleter has read. -/
def ManagerPc.size? : ManagerPc → Option Nat
  | .sized _ _ size | .foundSized _ size => some size
  | _ => none

/-- A deletion by `ann_delete_item`: the name of the file that it has copied and removed, and the
index. -/
structure AnnRemoval where
  name : Bytes
  before : List AnnHeader
  after : List AnnHeader

structure AnnDir (ι α : Type) where
  index : List AnnHeader
  files : Bytes → Option α
  junk : List α
  procs : ι → ManagerPc
  removals : List AnnRemoval

inductive ManagerEvent (ι α : Type)
  | display (i : ι) (ent : Nat)
  | confirm (i : ι) (yes : Bool)
  | copy (i : ι) (ok : Bool)
  | rm (i : ι) (ok : Bool)
  | fstat (i : ι)
  | remove (i : ι)
  | move (i : ι) (dst : Int)
  | moveLocked (i : ι)
  | add (i : ι) (h : AnnHeader) (x : α)
  | append (i : ι) (ok : Bool)
  | cutAway (i : ι) (name : Bytes)
  | search (i : ι)

namespace AnnDir
variable {ι α : Type}

def start (index : List AnnHeader) (files : Bytes → Option α) : AnnDir ι α :=
  ⟨index, files, [], fun _ => .idle, []⟩

section
variable [DecidableEq ι]

def goTo (s : AnnDir ι α) (i : ι) (pc : ManagerPc) : AnnDir ι α :=
  { s with procs := Function.update s.procs i pc }

def step (s : AnnDir ι α) : ManagerEvent ι α → Option (AnnDir ι α)
  | .display i ent =>
    match s.procs i with
    | .idle | .viewing .. => (getRecord ent s.index).map fun h => s.goTo i (.viewing ent h)
    | _ => none
  | .confirm i yes =>
    match s.procs i with
    | .viewing ent h =>
      some (s.goTo i
        (if (h.filename = [] ∧ h.title = []) ∨ yes = false then .idle else .copying ent h))
    | _ => none
  | .copy i ok =>
    match s.procs i with
    | .copying ent h =>
      some { s.goTo i (.removing ent h) with
        junk := if ok then s.junk ++ (s.files h.filename).toList else s.junk }
    | _ => none
  | .rm i ok =>
    match s.procs i with
    | .removing ent h =>
      some { s.goTo i (.deleting ent h) with
        files := if ok then Function.update s.files h.filename none else s.files }
    | _ => none
  | .fstat i =>
    match s.procs i with
    | .deleting ent h => some (s.goTo i (.sized ent h s.index.length))
    | .found id => some (s.goTo i (.foundSized id s.index.length))
    | _ => none
  | .remove i =>
    match s.procs i with
    | .sized ent h size =>
      let after := ((deleteSized (.record ent) size s.index).map (·.1)).getD s.index
      some { s.goTo i .idle with
        index := after, removals := s.removals ++ [⟨h.filename, s.index, after⟩] }
    | .foundSized id size =>
      some { s.goTo i .idle with
        index := ((deleteSized (.record id) size s.index).map (·.1)).getD s.index }
    | _ => none
  | .move i dst =>
    match s.procs i with
    | .viewing ent _ =>
      some (s.goTo i
        (if dst ≤ 0 ∨ (ent : Int) = dst ∨ ent = 0 ∨ s.index.length < ent ∨ s.index.length < dst then
          .idle
        else .moving ent dst.toNat s.index.length))
    | _ => none
  | .moveLocked i =>
    match s.procs i with
    | .moving srcid dstid size =>
      some { s.goTo i .idle with index := moveSized srcid dstid size s.index }
    | _ => none
  | .add i h x =>
    match s.procs i with
    | .idle | .viewing .. =>
      some { s.goTo i (.adding h) with files := Function.update s.files h.filename (some x) }
    | _ => none
  | .append i ok =>
    match s.procs i with
    | .adding h => some { s.goTo i .idle with index := if ok then s.index ++ [h] else s.index }
    | _ => none
  | .cutAway i name =>
    match s.procs i with
    | .idle | .viewing .. =>
      some { s.goTo i (.cutting name) with files := Function.update s.files name none }
    | _ => none
  | .search i =>
    match s.procs i with
    | .cutting name =>
      match searchRecord (·.filename = name) s.index with
      | some (id, _) => some (s.goTo i (.found id))
      | none => some (s.goTo i .idle)
    | _ => none

end

/-- The record with the number has the name that was shown. -/
def Shown (index : List AnnHeader) (d : Nat × AnnHeader) : Prop :=
  ∃ x, getRecord d.1 index = some x ∧ x.filename = d.2.filename

instance (index : List AnnHeader) (d : Nat × AnnHeader) : Decidable (Shown index d) :=
  decidable_of_iff ((getRecord d.1 index).any (·.filename = d.2.filename) = true) (by
    rw [Option.any_eq_true]
    exact exists_congr fun x => and_congr_right fun _ => decide_eq_true_iff)

/-- Of the other managers none is about to delete by a size that he has read, and none is deleting
the entry with the number or a later one. -/
def MayRemove (s : AnnDir ι α) (i : ι) (id : Nat) : Prop :=
  ∀ j, j ≠ i → (s.procs j).size? = none ∧ ∀ d ∈ (s.procs j).deletes?, d.1 < id

/-- A deletion is confirmed only while the number is that of the item shown. No record is appended
while another manager is about to delete by a size that he has read; and while a manager is deleting
an item, no other one takes out a record in front of it, or moves a record over it. -/
def MayStep (s : AnnDir ι α) : ManagerEvent ι α → Prop
  | .confirm i yes =>
    match s.procs i with
    | .viewing ent h => yes = true → Shown s.index (ent, h)
    | _ => True
  | .append i ok => ok = true → ∀ j, j ≠ i → (s.procs j).size? = none
  | .remove i =>
    match s.procs i with
    | .sized id _ size | .foundSized id size => id ≤ size → s.MayRemove i id
    | _ => True
  | .moveLocked i =>
    match s.procs i with
    | .moving srcid dstid _ =>
      ∀ j, j ≠ i → ∀ d ∈ (s.procs j).deletes?, d.1 < min srcid dstid ∨ max srcid dstid < d.1
    | _ => True
  | _ => True

instance [Fintype ι] [DecidableEq ι] (s : AnnDir ι α) (i : ι) (id : Nat) :
    Decidable (s.MayRemove i id) :=
  inferInstanceAs (Decidable (∀ j, j ≠ i → (s.procs j).size? = none ∧
    ∀ d ∈ (s.procs j).deletes?, d.1 < id))

instance [Fintype ι] [DecidableEq ι] (s : AnnDir ι α) (e : ManagerEvent ι α) :
    Decidable (s.MayStep e) := by
  unfold MayStep
  split
  all_goals first
    | infer_instance
    | (split <;> infer_instance)

section
variable {s s' : AnnDir ι α} {i : ι} {p : ManagerPc} {index index' : List AnnHeader}
  {d : Nat × AnnHeader}

theorem Shown.append (h : Shown index d) (e : AnnHeader) : Shown (index ++ [e]) d := by
  obtain ⟨x, hx, hname⟩ := h
  exact ⟨x, getRecord_append hx e, hname⟩

theorem Shown.remove {id : Nat} {selected : List AnnHeader} (h : Shown index d)
    (hplan : deleteRecord id index = some (index', selected)) (hlt : d.1 < id) :
    Shown index' d := by
  obtain ⟨x, hx, hname⟩ := h
  exact ⟨x, by rw [getRecord_deleteRecord hplan (by exact_mod_cast hlt), hx], hname⟩

/-- What holds as long as all steps are such. -/
structure ManagerInv (s : AnnDir ι α) : Prop where
  shown : ∀ i, ∀ d ∈ (s.procs i).deletes?, Shown s.index d
  fresh : ∀ i, ∀ n ∈ (s.procs i).size?, n = s.index.length
  moving : ∀ i srcid dstid size, s.procs i = .moving srcid dstid size →
    0 < srcid ∧ 0 < dstid ∧ srcid ≤ size ∧ dstid ≤ size
  removals : ∀ r ∈ s.removals, ∃ x, x.filename = r.name ∧ r.before.Perm (x :: r.after)

theorem managerInv_start (index : List AnnHeader) (files : Bytes → Option α) :
    ManagerInv (start (ι := ι) index files) :=
  ⟨nofun, nofun, nofun, nofun⟩

/-- A record is taken out behind all entries that other managers are deleting. -/
theorem others_of_mayRemove {id : Nat} {selected : List AnnHeader}
    (hok : s.MayRemove i id) (hplan : deleteRecord id s.index = some (index', selected)) (j : ι)
    (hj : j ≠ i) : (∀ d ∈ (s.procs j).deletes?, Shown s.index d → Shown index' d) ∧
      ((s.procs j).size? ≠ none → index'.length = s.index.length) := by
  obtain ⟨hsize, hlt⟩ := hok j hj
  exact ⟨fun d hd h => h.remove hplan (hlt d hd), fun h => absurd hsize h⟩

variable [DecidableEq ι]

/-- A step of a manager, and what it must not do to the others. -/
theorem ManagerInv.next (I : ManagerInv s) {removals : List AnnRemoval}
    (hshown : ∀ d ∈ p.deletes?, Shown index d) (hfresh : ∀ n ∈ p.size?, n = index.length)
    (hmoving : ∀ srcid dstid size, p = .moving srcid dstid size →
      0 < srcid ∧ 0 < dstid ∧ srcid ≤ size ∧ dstid ≤ size)
    (hother : ∀ j, j ≠ i → (∀ d ∈ (s.procs j).deletes?, Shown s.index d → Shown index d) ∧
      ((s.procs j).size? ≠ none → index.length = s.index.length))
    (hremovals : ∀ r ∈ removals, ∃ x, x.filename = r.name ∧ r.before.Perm (x :: r.after))
    (files : Bytes → Option α) (junk : List α) :
    ManagerInv ⟨index, files, junk, Function.update s.procs i p, removals⟩ where
  shown := (Function.forall_update_iff s.procs (p := fun _ p =>
    ∀ d ∈ p.deletes?, Shown index d)).mpr
      ⟨hshown, fun j hj d hd => (hother j hj).1 d hd (I.shown j d hd)⟩
  fresh := (Function.forall_update_iff s.procs (p := fun _ p =>
    ∀ n ∈ p.size?, n = index.length)).mpr
      ⟨hfresh, fun j hj n hn => by
        rw [(hother j hj).2 (by rw [hn]; nofun)]
        exact I.fresh j n hn⟩
  moving := (Function.forall_update_iff s.procs (p := fun _ p =>
    ∀ srcid dstid size, p = .moving srcid dstid size →
      0 < srcid ∧ 0 < dstid ∧ srcid ≤ size ∧ dstid ≤ size)).mpr
      ⟨hmoving, fun j _ => I.moving j⟩
  removals := hremovals

/-- A step that leaves the index alone. -/
theorem ManagerInv.goTo (I : ManagerInv s) (hshown : ∀ d ∈ p.deletes?, Shown s.index d)
    (hfresh : ∀ n ∈ p.size?, n = s.index.length)
    (hmoving : ∀ srcid dstid size, p = .moving srcid dstid size →
      0 < srcid ∧ 0 < dstid ∧ srcid ≤ size ∧ dstid ≤ size)
    (files : Bytes → Option α) (junk : List α) :
    ManagerInv ⟨s.index, files, junk, Function.update s.procs i p, s.removals⟩ :=
  I.next hshown hfresh hmoving (fun _ _ => ⟨fun _ _ h => h, fun _ => rfl⟩) I.removals files junk

theorem ManagerInv.step_remove (I : ManagerInv s) {i : ι} (hok : s.MayStep (.remove i))
    (h : s.step (.remove i) = some s') : ManagerInv s' := by
  simp only [AnnDir.step] at h
  split at h
  · rename_i ent x size hpc
    rw [MayStep, hpc] at hok
    obtain ⟨y, hy, hname⟩ := I.shown i (ent, x) (by rw [hpc]; rfl)
    obtain rfl : size = s.index.length := I.fresh i size (by rw [hpc]; rfl)
    rw [← Option.some.inj h, deleteSized_eq]
    cases hplan : deleteRecord ent s.index with
    | none =>
      rw [deleteRecord_eq_none hplan] at hy
      cases hy
    | some result =>
      obtain ⟨kept, selected⟩ := result
      obtain ⟨z, hz, -, hperm⟩ := deleteRecord_getRecord hplan
      obtain rfl : z = y := Option.some.inj (hz.symm.trans hy)
      have hplan' : (Deletion.record (ent : Int)).plan s.index = some (kept, selected) := hplan
      rw [hplan']
      refine I.next (p := .idle) nofun nofun nofun
        (others_of_mayRemove (hok (Int.ofNat_le.mp (deleteRecord_le_length hplan).2)) hplan) (fun r hr => ?_)
        s.files s.junk
      rcases List.mem_append.mp hr with hr | hr
      · exact I.removals r hr
      · rw [List.mem_singleton.mp hr]
        exact ⟨z, hname, hperm⟩
  · rename_i id size hpc
    rw [MayStep, hpc] at hok
    obtain rfl : size = s.index.length := I.fresh i size (by rw [hpc]; rfl)
    rw [← Option.some.inj h, deleteSized_eq]
    cases hplan : deleteRecord id s.index with
    | none =>
      have hplan' : (Deletion.record (id : Int)).plan s.index = none := hplan
      rw [hplan']
      exact I.goTo (p := .idle) nofun nofun nofun s.files s.junk
    | some result =>
      obtain ⟨kept, selected⟩ := result
      have hplan' : (Deletion.record (id : Int)).plan s.index = some (kept, selected) := hplan
      rw [hplan']
      exact I.next (p := .idle) nofun nofun nofun (others_of_mayRemove (hok (Int.ofNat_le.mp (deleteRecord_le_length hplan).2)) hplan)
        I.removals s.files s.junk
  · cases h

theorem ManagerInv.step (I : ManagerInv s) {e : ManagerEvent ι α} (hok : s.MayStep e)
    (h : s.step e = some s') : ManagerInv s' := by
  cases e with
  | display i ent =>
    simp only [AnnDir.step] at h
    split at h
    · obtain ⟨x, -, rfl⟩ := Option.map_eq_some_iff.mp h
      exact I.goTo (p := .viewing ent x) nofun nofun nofun s.files s.junk
    · obtain ⟨x, -, rfl⟩ := Option.map_eq_some_iff.mp h
      exact I.goTo (p := .viewing ent x) nofun nofun nofun s.files s.junk
    · cases h
  | confirm i yes =>
    simp only [AnnDir.step] at h
    split at h
    · rename_i ent x hpc
      rw [MayStep, hpc] at hok
      rw [← Option.some.inj h]
      split
      · exact I.goTo (p := .idle) nofun nofun nofun s.files s.junk
      · rename_i hyes
        refine I.goTo (p := .copying ent x) (fun d hd => ?_) nofun nofun s.files s.junk
        cases hd
        exact hok (by simpa using fun h => hyes (.inr h))
    · cases h
  | copy i ok =>
    simp only [AnnDir.step] at h
    split at h
    · rename_i ent x hpc
      rw [← Option.some.inj h]
      exact I.goTo (p := .removing ent x) (fun d hd => I.shown i d (by rw [hpc]; exact hd))
        nofun nofun s.files _
    · cases h
  | rm i ok =>
    simp only [AnnDir.step] at h
    split at h
    · rename_i ent x hpc
      rw [← Option.some.inj h]
      exact I.goTo (p := .deleting ent x) (fun d hd => I.shown i d (by rw [hpc]; exact hd))
        nofun nofun _ s.junk
    · cases h
  | fstat i =>
    simp only [AnnDir.step] at h
    split at h
    · rename_i ent x hpc
      rw [← Option.some.inj h]
      exact I.goTo (p := .sized ent x _) (fun d hd => I.shown i d (by rw [hpc]; exact hd))
        (fun n hn => (Option.some.inj hn).symm) nofun s.files s.junk
    · rename_i id hpc
      rw [← Option.some.inj h]
      exact I.goTo (p := .foundSized id _) nofun (fun n hn => (Option.some.inj hn).symm) nofun
        s.files s.junk
    · cases h
  | remove i => exact I.step_remove hok h
  | move i dst =>
    simp only [AnnDir.step] at h
    split at h
    · rw [← Option.some.inj h]
      split
      · exact I.goTo (p := .idle) nofun nofun nofun s.files s.junk
      · rename_i hrange
        refine I.goTo (p := .moving ..) nofun nofun (fun srcid dstid size heq => ?_) s.files s.junk
        cases heq
        omega
    · cases h
  | moveLocked i =>
    simp only [AnnDir.step] at h
    split at h
    · rename_i srcid dstid size hpc
      rw [MayStep, hpc] at hok
      obtain ⟨hsrc, hdst, hsrc', hdst'⟩ := I.moving i srcid dstid size hpc
      rw [← Option.some.inj h]
      refine I.next (p := .idle) nofun nofun nofun (fun j hj => ⟨fun d hd hshown => ?_, fun _ => ?_⟩)
        I.removals s.files s.junk
      · obtain ⟨x, hx, hname⟩ := hshown
        exact ⟨x, getRecord_moveSized hsrc hdst hsrc' hdst' (hok j hj d hd) hx, hname⟩
      · exact length_moveSized hsrc hdst hsrc' hdst'
    · cases h
  | add i x file =>
    simp only [AnnDir.step] at h
    split at h
    · exact Option.some.inj h ▸ I.goTo (p := .adding x) nofun nofun nofun _ s.junk
    · exact Option.some.inj h ▸ I.goTo (p := .adding x) nofun nofun nofun _ s.junk
    · cases h
  | append i ok =>
    simp only [AnnDir.step] at h
    split at h
    · rename_i x hpc
      rw [← Option.some.inj h]
      split
      · rename_i hyes
        exact I.next (p := .idle) nofun nofun nofun (fun j hj => ⟨fun d _ hd => hd.append x,
          fun hsize => absurd (hok hyes j hj) hsize⟩) I.removals s.files s.junk
      · exact I.goTo (p := .idle) nofun nofun nofun s.files s.junk
    · cases h
  | cutAway i name =>
    simp only [AnnDir.step] at h
    split at h
    · exact Option.some.inj h ▸ I.goTo (p := .cutting name) nofun nofun nofun _ s.junk
    · exact Option.some.inj h ▸ I.goTo (p := .cutting name) nofun nofun nofun _ s.junk
    · cases h
  | search i =>
    simp only [AnnDir.step] at h
    split at h
    · split at h
      · exact Option.some.inj h ▸ I.goTo (p := .found _) nofun nofun nofun s.files s.junk
      · exact Option.some.inj h ▸ I.goTo (p := .idle) nofun nofun nofun s.files s.junk
    · cases h

/-- In every run of any number of managers all of whose steps meet the condition: `ann_delete_item`
takes just one record out of the index, and it has the name of the file that was copied and removed.
-/
theorem delete_item_own {files : Bytes → Option α}
    (h : Reach AnnDir.step MayStep (start index files) s) :
    ∀ r ∈ s.removals, ∃ x, x.filename = r.name ∧ r.before.Perm (x :: r.after) :=
  (h.invariant ManagerInv (managerInv_start index files) fun _ _ _ I hok hs => I.step hok hs).removals

/-- A directory with two items. -/
def demoDir : AnnDir (Fin 2) Nat :=
  start [demoHeader, { demoHeader with filename := bytes "M.2.A" }] fun name =>
    if name = bytes "M.1.A" then some 1 else if name = bytes "M.2.A" then some 2 else none

/-- The first item is deleted; meanwhile the other manager adds one. -/
def demoDelete {ι : Type} (i j : ι) : List (ManagerEvent ι Nat) :=
  [.display i 1, .confirm i true, .add j { demoHeader with filename := bytes "M.3.A" } 3,
    .copy i true, .rm i true, .append j true, .fstat i, .remove i]

theorem delete_item_own_added : ∃ s : AnnDir (Fin 2) Nat,
    s.index.map (·.filename) = [bytes "M.2.A", bytes "M.3.A"] ∧ s.junk = [1] ∧
      ∀ r ∈ s.removals, ∃ x, x.filename = r.name ∧ r.before.Perm (x :: r.after) := by
  have hrun : Reach.Meets AnnDir.step MayStep demoDir (demoDelete 0 1) := by decide +kernel
  obtain ⟨s, hs, h⟩ := Reach.of_meets _ hrun
  have hend : ((demoDelete 0 1).foldlM AnnDir.step demoDir).map
      (fun s => (s.index.map (·.filename), s.junk)) =
      some ([bytes "M.2.A", bytes "M.3.A"], [1]) := by decide +kernel
  rw [hs] at hend
  obtain ⟨hindex, hjunk⟩ := Prod.mk.inj (Option.some.inj hend)
  exact ⟨s, hindex, hjunk, delete_item_own h⟩

/-- The other manager moves the second item to the front while the first one is being deleted. -/
def demoMoved {ι : Type} (i j : ι) : List (ManagerEvent ι Nat) :=
  [.display i 1, .display j 2, .confirm i true, .copy i true, .move j 1, .moveLocked j,
    .rm i true, .fstat i, .remove i]

theorem delete_item_other : ¬∀ s : AnnDir (Fin 2) Nat,
    Reach AnnDir.step (fun _ _ => True) demoDir s →
      ∀ r ∈ s.removals, ∃ x, x.filename = r.name ∧ r.before.Perm (x :: r.after) := by
  intro hclaim
  have hrun : Reach.Meets AnnDir.step (fun _ _ => True) demoDir (demoMoved 0 1) := by decide +kernel
  obtain ⟨s, hs, h⟩ := Reach.of_meets _ hrun
  have hend : ((demoMoved 0 1).foldlM AnnDir.step demoDir).map (fun s => s.removals.map fun r =>
      (r.name, r.before.map (·.filename), r.after.map (·.filename))) =
      some [(bytes "M.1.A", [bytes "M.2.A", bytes "M.1.A"], [bytes "M.1.A"])] := by decide +kernel
  rw [hs] at hend
  have hremovals : s.removals.map (fun r =>
      (r.name, r.before.map (·.filename), r.after.map (·.filename))) =
      [(bytes "M.1.A", [bytes "M.2.A", bytes "M.1.A"], [bytes "M.1.A"])] := Option.some.inj hend
  obtain ⟨r, hr, heq⟩ := List.mem_map.mp (hremovals ▸ List.mem_singleton_self _)
  obtain ⟨x, hx, hperm⟩ := hclaim s h r hr
  obtain ⟨hname, hrest⟩ := Prod.mk.inj heq
  obtain ⟨hbefore, hafter⟩ := Prod.mk.inj hrest
  have hnames := hperm.map (·.filename)
  rw [List.map_cons, hbefore, hafter, hx, hname] at hnames
  exact absurd hnames (by decide)

end

end AnnDir

end ArgoBbs

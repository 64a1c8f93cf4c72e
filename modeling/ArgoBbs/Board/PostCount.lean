import ArgoBbs.Lib.Cells
import ArgoBbs.Lib.CString
import ArgoBbs.Lib.Keyed
import ArgoBbs.Lib.Reach
import Mathlib.Algebra.Ring.Int.Defs
import Mathlib.Data.List.Count

/-! # Counting the posts of a board

`countpost` keeps a table of the pairs of user and title with the number of its calls, in the order
of these numbers; `countuser` keeps a list of the users, in the order of their names, with the sums
of what it was given (`bm.c`). Strings are without the terminating zero. -/

namespace ArgoBbs

structure PostRecord where
  user : Bytes
  title : Bytes
  cnt : Nat
  deriving DecidableEq

instance : Inhabited PostRecord := ⟨⟨[], [], 0⟩⟩

/-- The user and the title up to its 48th byte. -/
def PostRecord.key (r : PostRecord) : Bytes × Bytes := (r.user, r.title)

/-- `precord` with all records that are allocated, and the counters `prused` and `prsize` of 16
bits. -/
structure PostTable where
  precord : Option (List PostRecord)
  prused : Nat
  prsize : Nat

/-- `init_postrecord` -/
def PostTable.init : PostTable := ⟨none, 0, 128⟩

def postMatches (user title : Bytes) (r : PostRecord) : Bool :=
  decide (strcmp r.user user = 0) && strncmpEq r.title title 48

/-- The loop that goes back from `j - 1` to the first record with a count below `cnt`. -/
def blockFront (p : List PostRecord) (cnt : Int) : Nat → Nat
  | 0 => 0
  | j + 1 => if (p.getD j default).cnt > cnt - 1 then j + 1 else blockFront p cnt j

/-- The record `i` is counted and changes places with the front of its block. -/
def addCnt (p : List PostRecord) (i : Nat) : List PostRecord :=
  let x := p.getD i default
  let r := { x with cnt := (x.cnt + 1) % 2 ^ 16 }
  let front := blockFront p r.cnt i
  if front < i then (p.set i (p.getD front default)).set front r else p.set i r

/-- `realloc` to 128 records more than `prsize`, which are set to zero. -/
def growPosts (prsize : Nat) (p : List PostRecord) : List PostRecord :=
  overlay ((p ++ List.replicate (prsize + 128 - p.length) default).take (prsize + 128)) prsize
    (List.replicate 128 default)

/-- A record is put behind those used; nothing if it lies outside of what is allocated. -/
def insertPost (user title : Bytes) (p : List PostRecord) (prused prsize : Nat) :
    Option PostTable :=
  if prused < p.length then
    some ⟨some (p.set prused ⟨strlcpy 13 user, strlcpy 49 title, 1⟩), (prused + 1) % 2 ^ 16, prsize⟩
  else none

/-- `precord` once it is allocated. -/
def PostTable.allocate (t : PostTable) (malloc : Bool) : Option (List PostRecord) :=
  match t.precord with
  | some p => some p
  | none => if malloc then some (List.replicate t.prsize default) else none

/-- `countpost`, with what `malloc` and `realloc` answer; nothing if it accesses a record outside of
what is allocated. -/
def countpost (user title : Bytes) (malloc realloc : Bool) (t : PostTable) : Option PostTable :=
  match t.allocate malloc with
  | none => some t
  | some p =>
    if p.length < t.prused then none
    else
      match (p.take t.prused).findIdx? (postMatches user title) with
      | some i => some { t with precord := some (addCnt p i) }
      | none =>
        if t.prused = t.prsize then
          if realloc then
            insertPost user title (growPosts t.prsize p) t.prused ((t.prsize + 128) % 2 ^ 16)
          else some { t with precord := none }
        else insertPost user title p t.prused t.prsize

/-- The records in use. -/
def PostTable.used (t : PostTable) : List PostRecord := (t.precord.getD []).take t.prused

/-- The table has each of the pairs once with its number of calls, and the counts do not increase.
-/
structure PostsCounted (t : PostTable) (posts : List (Bytes × Bytes)) : Prop where
  sorted : (t.used.map (·.cnt)).Pairwise (· ≥ ·)
  once : (t.used.map (·.key)).Nodup
  mem : ∀ k, k ∈ t.used.map (·.key) ↔ k ∈ posts
  count : ∀ r ∈ t.used, r.cnt = posts.count r.key

/-! ## A record is counted -/

section
variable {p l : List PostRecord} {i n j : Nat} {x : PostRecord} {c : Int}

theorem blockFront_le (p : List PostRecord) (c : Int) (i : Nat) : blockFront p c i ≤ i := by
  induction i with
  | zero => exact Nat.le_refl _
  | succ j ih =>
    rw [blockFront]
    split
    · exact Nat.le_refl _
    · exact Nat.le_succ_of_le ih

/-- From the front of the block on all counts are smaller. -/
theorem blockFront_spec (hle : blockFront p c i ≤ j) (hlt : j < i) :
    (p.getD j default).cnt ≤ c - 1 := by
  induction i with
  | zero => cases hlt
  | succ i ih =>
    rw [blockFront] at hle
    split at hle
    case isTrue => omega
    case isFalse hcnt =>
      rcases Nat.lt_succ_iff_lt_or_eq.mp hlt with hlt | rfl
      · exact ih hle hlt
      · omega

/-- The record in front of the block has no smaller count. -/
theorem blockFront_before (hpos : 0 < blockFront p c i) :
    (p.getD (blockFront p c i - 1) default).cnt > c - 1 := by
  induction i with
  | zero => cases hpos
  | succ i ih =>
    rw [blockFront] at hpos ⊢
    split
    case isTrue hcnt => exact hcnt
    case isFalse hcnt =>
      rw [if_neg hcnt] at hpos
      exact ih hpos

theorem blockFront_take (hle : i ≤ n) : blockFront (p.take n) c i = blockFront p c i := by
  induction i with
  | zero => rfl
  | succ i ih =>
    have hget : (p.take n).getD i default = p.getD i default := by
      rw [List.getD_eq_getElem?_getD, List.getElem?_take_of_lt hle, List.getD_eq_getElem?_getD]
    rw [blockFront, blockFront, hget, ih (Nat.le_of_succ_le hle)]

theorem take_addCnt (hlt : i < n) : (addCnt p i).take n = addCnt (p.take n) i := by
  have hget : ∀ j ≤ i, (p.take n).getD j default = p.getD j default := fun j hj => by
    rw [List.getD_eq_getElem?_getD, List.getElem?_take_of_lt (by omega),
      List.getD_eq_getElem?_getD]
  rw [addCnt, addCnt]
  dsimp only
  rw [hget i (Nat.le_refl i), blockFront_take (Nat.le_of_lt hlt), hget _ (blockFront_le ..)]
  split
  · rw [List.take_set, List.take_set]
  · rw [List.take_set]

theorem length_addCnt : (addCnt p i).length = p.length := by
  rw [addCnt]
  dsimp only
  split
  · rw [List.length_set, List.length_set]
  · rw [List.length_set]

/-- The records are the same, but for the one that is counted. -/
theorem addCnt_perm (hi : l[i]? = some x) (hsmall : x.cnt + 1 < 2 ^ 16) :
    (addCnt l i).Perm (l.set i { x with cnt := x.cnt + 1 }) := by
  obtain ⟨hlt, hx⟩ := List.getElem?_eq_some_iff.mp hi
  have hget : l.getD i default = x := by rw [List.getD_eq_getElem?_getD, hi, Option.getD_some]
  rw [addCnt]
  dsimp only
  rw [hget, Nat.mod_eq_of_lt hsmall]
  split
  case isFalse => exact .refl _
  case isTrue hfront =>
    generalize hf : blockFront l ((x.cnt + 1 : Nat) : Int) i = f at hfront
    have hflt : f < l.length := Nat.lt_trans hfront hlt
    have hlength : (l.set i { x with cnt := x.cnt + 1 }).length = l.length := List.length_set ..
    have hswap := List.set_set_perm (hlength.symm ▸ hlt) (hlength.symm ▸ hflt)
    rw [List.getElem_set_self, List.getElem_set_ne (Nat.ne_of_gt hfront), List.set_set] at hswap
    rwa [List.getD_eq_getElem?_getD, List.getElem?_eq_getElem hflt, Option.getD_some]

/-- A number of a list in order is replaced by one between its neighbours. -/
theorem sorted_set {cs : List Nat} {f v : Nat} (hsorted : cs.Pairwise (· ≥ ·)) (hf : f < cs.length)
    (hbefore : ∀ j (hj : j < f), v ≤ cs.get ⟨j, Nat.lt_trans hj hf⟩) (hle : cs.get ⟨f, hf⟩ ≤ v) :
    (cs.set f v).Pairwise (· ≥ ·) := by
  have hsplit : cs = cs.take f ++ cs.get ⟨f, hf⟩ :: cs.drop (f + 1) := by
    rw [List.get_eq_getElem, ← List.drop_eq_getElem_cons hf, List.take_append_drop]
  rw [List.set_eq_take_append_cons_drop, if_pos hf]
  rw [hsplit, List.pairwise_append, List.pairwise_cons] at hsorted
  obtain ⟨hfront, ⟨hhead, htail⟩, hacross⟩ := hsorted
  refine List.pairwise_append.mpr ⟨hfront, List.pairwise_cons.mpr ⟨fun b hb => ?_, htail⟩,
    fun a ha b hb => ?_⟩
  · exact Nat.le_trans (hhead b hb) hle
  · rcases List.mem_cons.mp hb with rfl | hb
    · obtain ⟨j, hj, rfl⟩ := List.mem_iff_getElem.mp ha
      rw [List.length_take] at hj
      rw [List.getElem_take]
      exact hbefore j (by omega)
    · exact hacross a ha b (List.mem_cons_of_mem _ hb)

/-- The count at the front of the block goes up by one. -/
theorem map_addCnt (hsorted : (l.map (·.cnt)).Pairwise (· ≥ ·)) (hi : l[i]? = some x)
    (hsmall : x.cnt + 1 < 2 ^ 16) :
    (addCnt l i).map (·.cnt) =
      (l.map (·.cnt)).set (blockFront l (x.cnt + 1 : Nat) i) (x.cnt + 1) := by
  obtain ⟨hlt, hx⟩ := List.getElem?_eq_some_iff.mp hi
  have hget : l.getD i default = x := by rw [List.getD_eq_getElem?_getD, hi, Option.getD_some]
  have hle := blockFront_le l (x.cnt + 1 : Nat) i
  rw [addCnt]
  dsimp only
  rw [hget, Nat.mod_eq_of_lt hsmall]
  split
  case isFalse hfront =>
    rw [Nat.le_antisymm hle (Nat.not_lt.mp hfront), List.map_set]
  case isTrue hfront =>
    have hsame : (l.getD (blockFront l (x.cnt + 1 : Nat) i) default).cnt = x.cnt := by
      have hupper := blockFront_spec (Nat.le_refl _) hfront
      have hlower := List.pairwise_iff_getElem.mp hsorted _ i
        (by rw [List.length_map]; omega) (by rwa [List.length_map]) hfront
      rw [List.getElem_map, List.getElem_map, hx] at hlower
      rw [List.getD_eq_getElem?_getD, List.getElem?_eq_getElem (by omega), Option.getD_some]
        at hupper ⊢
      omega
    rw [List.map_set, List.map_set, hsame]
    congr 1
    have hcnt : x.cnt = (l.map (·.cnt)).get ⟨i, by rwa [List.length_map]⟩ := by
      rw [List.get_eq_getElem, List.getElem_map, hx]
    rw [hcnt, List.get_eq_getElem, List.set_getElem_self]

/-- The counts stay in order. -/
theorem addCnt_sorted (hsorted : (l.map (·.cnt)).Pairwise (· ≥ ·)) (hi : l[i]? = some x)
    (hsmall : x.cnt + 1 < 2 ^ 16) : ((addCnt l i).map (·.cnt)).Pairwise (· ≥ ·) := by
  obtain ⟨hlt, hx⟩ := List.getElem?_eq_some_iff.mp hi
  have hle := blockFront_le l (x.cnt + 1 : Nat) i
  rw [map_addCnt hsorted hi hsmall]
  generalize hf : blockFront l ((x.cnt + 1 : Nat) : Int) i = f at hle
  have hflt : f < (l.map (·.cnt)).length := by
    rw [List.length_map]
    omega
  refine sorted_set hsorted hflt (fun j hj => ?_) ?_
  · have hprev := blockFront_before (hf.symm ▸ Nat.zero_lt_of_lt hj)
    rw [hf, List.getD_eq_getElem?_getD, List.getElem?_eq_getElem (by omega), Option.getD_some]
      at hprev
    rw [List.get_eq_getElem, List.getElem_map]
    dsimp only
    rcases Nat.lt_or_ge j (f - 1) with hlt' | hge
    · have hj' := List.pairwise_iff_getElem.mp hsorted j (f - 1) (by omega) (by omega) hlt'
      rw [List.getElem_map, List.getElem_map] at hj'
      omega
    · obtain rfl : j = f - 1 := by omega
      omega
  · rw [List.get_eq_getElem, List.getElem_map]
    dsimp only
    rcases Nat.lt_or_eq_of_le hle with hfront | rfl
    · have hupper := blockFront_spec (Nat.le_of_eq hf) hfront
      rw [List.getD_eq_getElem?_getD, List.getElem?_eq_getElem (by omega), Option.getD_some]
        at hupper
      omega
    · rw [hx]
      exact Nat.le_succ _

end

/-! ## One call of `countpost` -/

/-- What is allocated and in use: at most 128 records more than used, in steps of 128, and `prsize`
is their number up to its 16 bits. -/
def PostTable.Shape (t : PostTable) : Prop :=
  match t.precord with
  | none => t.prused = 0 ∧ t.prsize = 128
  | some p => 128 ∣ p.length ∧ p.length ≤ 2 ^ 16 ∧ t.prsize = p.length % 2 ^ 16 ∧
      t.prused ≤ p.length ∧ p.length ≤ t.prused + 128 ∧ t.prused < 2 ^ 16 ∧ p ≠ []

structure TalliedInv (t : PostTable) (posts : List (Bytes × Bytes)) : Prop where
  shape : t.Shape
  counted : PostsCounted t posts
  title : ∀ k ∈ posts, k.2.length ≤ 48

/-- The condition on a call of `countpost`: no allocation fails, the name is not cut off, and the
counters of 16 bits do not overflow. -/
def MayPost (t : PostTable) (user title : Bytes) (malloc realloc : Bool) : Prop :=
  malloc = true ∧ realloc = true ∧ user.length ≤ 12 ∧
    (∀ r ∈ t.used, postMatches user title r = true → r.cnt + 1 < 2 ^ 16) ∧
    ((∀ r ∈ t.used, postMatches user title r = false) → t.prused + 1 < 2 ^ 16)

instance (t : PostTable) (user title : Bytes) (malloc realloc : Bool) :
    Decidable (MayPost t user title malloc realloc) := by
  unfold MayPost
  infer_instance

section
variable {t : PostTable} {posts : List (Bytes × Bytes)} {user title : Bytes} {r x : PostRecord}
  {p : List PostRecord} {i prused prsize : Nat}

theorem strcmp_eq_zero_iff : ∀ {a b : Bytes}, strcmp a b = 0 ↔ a = b
  | [], [] => by simp [strcmp]
  | [], _ :: _ => by simp [strcmp]
  | _ :: _, [] => by simp [strcmp]
  | a :: as, b :: bs => by
    rw [strcmp, List.cons.injEq]
    split
    case isTrue hlt =>
      have hne : a ≠ b := fun h => UInt8.lt_irrefl b (h ▸ hlt)
      simp [hne]
    case isFalse hab =>
      split
      case isTrue hlt =>
        have hne : a ≠ b := fun h => UInt8.lt_irrefl b (h ▸ hlt)
        simp [hne]
      case isFalse hba =>
        rw [strcmp_eq_zero_iff, and_iff_right]
        exact UInt8.le_antisymm (UInt8.not_lt.mp hba) (UInt8.not_lt.mp hab)

theorem postMatches_iff (htitle : r.title.length ≤ 48) :
    postMatches user title r = true ↔ r.key = (user, title.take 48) := by
  rw [postMatches, Bool.and_eq_true, decide_eq_true_eq, strcmp_eq_zero_iff, strncmpEq,
    decide_eq_true_eq, List.take_of_length_le htitle, PostRecord.key, Prod.mk.injEq]

/-- The titles in the table are cut off. -/
theorem TalliedInv.length_title (I : TalliedInv t posts) (hr : r ∈ t.used) : r.title.length ≤ 48 :=
  I.title r.key ((I.counted.mem r.key).mp (List.mem_map_of_mem hr))

/-- A pair that is in the table is counted. -/
theorem PostsCounted.add (C : PostsCounted t posts) {t' : PostTable} (hi : t.used[i]? = some x)
    (hsmall : x.cnt + 1 < 2 ^ 16) (hused : t'.used = addCnt t.used i) :
    PostsCounted t' (posts ++ [x.key]) := by
  have hperm := addCnt_perm hi hsmall
  have hkeys : ((addCnt t.used i).map (·.key)).Perm (t.used.map (·.key)) := by
    have hset : (t.used.set i { x with cnt := x.cnt + 1 }).map (·.key) = t.used.map (·.key) :=
      map_key_set hi rfl
    rw [← hset]
    exact hperm.map _
  have hmem : x.key ∈ posts :=
    (C.mem _).mp (List.mem_map_of_mem (List.mem_of_getElem? hi))
  refine ⟨?_, ?_, fun k => ?_, fun y hy => ?_⟩
  · rw [hused]
    exact addCnt_sorted C.sorted hi hsmall
  · rw [hused]
    exact hkeys.nodup_iff.mpr C.once
  · rw [hused, hkeys.mem_iff, C.mem, List.mem_append, List.mem_singleton]
    exact ⟨.inl, fun h => h.elim id fun h => h ▸ hmem⟩
  · rw [hused, hperm.mem_iff, mem_set_iff_key C.once hi] at hy
    rw [List.count_append]
    rcases hy with rfl | ⟨hy, hne⟩
    · have hcount := C.count x (List.mem_of_getElem? hi)
      have hkey : ({ x with cnt := x.cnt + 1 } : PostRecord).key = x.key := rfl
      rw [hkey, ← hcount, List.count_singleton_self]
    · rw [C.count y hy, List.count_singleton, if_neg (by simpa using Ne.symm hne), Nat.add_zero]

/-- A pair that is not in the table is put behind the others. -/
theorem PostsCounted.insert (C : PostsCounted t posts) {t' : PostTable}
    (hnew : (user, title) ∉ posts) (hused : t'.used = t.used ++ [⟨user, title, 1⟩]) :
    PostsCounted t' (posts ++ [(user, title)]) := by
  have hkey : (⟨user, title, 1⟩ : PostRecord).key = (user, title) := rfl
  refine ⟨?_, ?_, fun k => ?_, fun y hy => ?_⟩
  · rw [hused, List.map_append, List.pairwise_append]
    refine ⟨C.sorted, List.pairwise_singleton .., fun a ha b hb => ?_⟩
    obtain ⟨y, hy, rfl⟩ := List.mem_map.mp ha
    rw [List.mem_singleton.mp hb, C.count y hy]
    exact List.count_pos_iff.mpr ((C.mem _).mp (List.mem_map_of_mem hy))
  · rw [hused, List.map_append, List.nodup_append]
    refine ⟨C.once, List.nodup_singleton _, fun a ha b hb => ?_⟩
    rw [List.mem_singleton.mp hb]
    change a ≠ (user, title)
    rintro rfl
    exact hnew ((C.mem _).mp ha)
  · rw [hused, List.map_append, List.mem_append, C.mem, List.mem_append]
    rfl
  · rw [hused] at hy
    rw [List.count_append]
    rcases List.mem_append.mp hy with hy | hy
    · have hne : y.key ≠ (user, title) := fun h =>
        hnew (h ▸ (C.mem _).mp (List.mem_map_of_mem hy))
      rw [C.count y hy, List.count_singleton, if_neg (by simpa using Ne.symm hne), Nat.add_zero]
    · rw [List.mem_singleton.mp hy, hkey, List.count_eq_zero.mpr hnew, List.count_singleton_self]

theorem growPosts_eq (p : List PostRecord) :
    growPosts p.length p = p ++ List.replicate 128 default := by
  have hlen : (p ++ List.replicate (p.length + 128 - p.length) default).length =
      p.length + 128 := by
    rw [List.length_append, List.length_replicate, Nat.add_sub_cancel_left]
  rw [growPosts, List.take_of_length_le (Nat.le_of_eq hlen), overlay, List.take_left,
    List.length_replicate, List.drop_eq_nil_of_le (Nat.le_of_eq hlen), List.append_nil]

/-- Once `precord` is allocated, its records in use are those of the table. -/
theorem PostTable.Shape.allocate (h : t.Shape) :
    ∃ p, t.allocate true = some p ∧ (⟨some p, t.prused, t.prsize⟩ : PostTable).Shape ∧
      p.take t.prused = t.used := by
  obtain ⟨precord, prused, prsize⟩ := t
  cases precord with
  | some p => exact ⟨p, rfl, h, rfl⟩
  | none =>
    obtain ⟨rfl, rfl⟩ : prused = 0 ∧ prsize = 128 := h
    have hlen : (List.replicate 128 (default : PostRecord)).length = 128 := List.length_replicate
    have hmax : 128 ≤ 2 ^ 16 := by decide
    exact ⟨List.replicate 128 default, rfl, ⟨hlen.symm ▸ Nat.dvd_refl 128, hlen.symm ▸ hmax,
      hlen.symm ▸ rfl, Nat.zero_le _, hlen.symm ▸ Nat.le_refl 128, by decide, by simp⟩, rfl⟩

theorem insertPost_some {p : List PostRecord} (title : Bytes) (prsize : Nat)
    (hroom : prused < p.length) (hsmall : prused + 1 < 2 ^ 16) (huser : user.length ≤ 12) :
    ∃ t', insertPost user title p prused prsize = some t' ∧
      t'.used = p.take prused ++ [⟨user, title.take 48, 1⟩] ∧
      ∃ p', p'.length = p.length ∧ t' = ⟨some p', prused + 1, prsize⟩ := by
  have hname : strlcpy 13 user = user := List.take_of_length_le huser
  rw [insertPost, if_pos hroom, Nat.mod_eq_of_lt hsmall, hname]
  refine ⟨_, rfl, ?_, _, List.length_set .., rfl⟩
  rw [PostTable.used, Option.getD_some, List.take_add_one, List.getElem?_set_self hroom,
    List.take_set_of_le (Nat.le_refl _)]
  rfl

/-- A call that meets the condition stays inside of what is allocated and counts its pair. -/
theorem TalliedInv.countpost {malloc realloc : Bool} (I : TalliedInv t posts)
    (hok : MayPost t user title malloc realloc) :
    ∃ t', countpost user title malloc realloc t = some t' ∧
      TalliedInv t' (posts ++ [(user, title.take 48)]) := by
  obtain ⟨rfl, rfl, huser, hcnt, hroom⟩ := hok
  obtain ⟨p, halloc, hshape, hused⟩ := I.shape.allocate
  obtain ⟨hdvd, hmax, hsize, hle, hgrown, hsmall, hne⟩ : 128 ∣ p.length ∧ p.length ≤ 2 ^ 16 ∧
      t.prsize = p.length % 2 ^ 16 ∧ t.prused ≤ p.length ∧ p.length ≤ t.prused + 128 ∧
      t.prused < 2 ^ 16 ∧ p ≠ [] := hshape
  have htitle : ∀ k ∈ posts ++ [(user, title.take 48)], k.2.length ≤ 48 :=
    List.forall_mem_append.mpr ⟨I.title, List.forall_mem_singleton.mpr (List.length_take_le ..)⟩
  rw [ArgoBbs.countpost, halloc]
  dsimp only
  rw [if_neg (Nat.not_lt.mpr hle), hused]
  cases hfound : t.used.findIdx? (postMatches user title) with
  | some i =>
    obtain ⟨hlt, hmatch, -⟩ := List.findIdx?_eq_some_iff_getElem.mp hfound
    have hi : t.used[i]? = some t.used[i] := List.getElem?_eq_getElem hlt
    have hmem := List.getElem_mem hlt
    have hkey := (postMatches_iff (I.length_title hmem)).mp hmatch
    have hprused : i < t.prused := by
      rw [← hused, List.length_take] at hlt
      omega
    refine ⟨_, rfl, ?_, hkey ▸ I.counted.add hi (hcnt _ hmem hmatch) ?_, htitle⟩
    · have hlen : (addCnt p i).length = p.length := length_addCnt
      exact ⟨hlen.symm ▸ hdvd, hlen.symm ▸ hmax, hlen.symm ▸ hsize, hlen.symm ▸ hle,
        hlen.symm ▸ hgrown, hsmall, fun h => hne (List.length_eq_zero_iff.mp (by rw [← hlen, h]; rfl))⟩
    · rw [PostTable.used, Option.getD_some, take_addCnt hprused, hused]
  | none =>
    have hnone := List.findIdx?_eq_none_iff.mp hfound
    have hnew : (user, title.take 48) ∉ posts := fun h => by
      obtain ⟨r, hr, hkey⟩ := List.mem_map.mp ((I.counted.mem _).mpr h)
      have hmatch := (postMatches_iff (I.length_title hr)).mpr hkey
      rw [hnone r hr] at hmatch
      cases hmatch
    have hroom := hroom hnone
    have hinsert : ∀ q prsize, q.take t.prused = t.used → t.prused < q.length →
        128 ∣ q.length → q.length ≤ 2 ^ 16 → prsize = q.length % 2 ^ 16 →
        q.length ≤ t.prused + 1 + 128 →
        ∃ t', insertPost user title q t.prused prsize = some t' ∧
          TalliedInv t' (posts ++ [(user, title.take 48)]) := by
      intro q prsize hq hlt hdvd hmax hsize hgrown
      obtain ⟨t', ht', hused', p', hlen, rfl⟩ :=
        insertPost_some title prsize hlt hroom huser
      refine ⟨_, ht', ⟨hlen.symm ▸ hdvd, hlen.symm ▸ hmax, hlen.symm ▸ hsize, ?_,
        hlen.symm ▸ hgrown, hroom, ?_⟩, I.counted.insert hnew (hused'.trans (by rw [hq])), htitle⟩
      · rw [hlen]
        exact hlt
      · rintro rfl
        rw [← hlen] at hlt
        exact Nat.not_lt_zero _ hlt
    have hpos := List.length_pos_of_ne_nil hne
    dsimp only
    split
    case isTrue hfull =>
      -- the table is full, and `prsize` is the number of its records
      have hlast : p.length < 2 ^ 16 ∧ t.prused = p.length := by
        rcases Nat.lt_or_eq_of_le hmax with hlt | heq
        · rw [Nat.mod_eq_of_lt hlt] at hsize
          exact ⟨hlt, hfull.trans hsize⟩
        · rw [heq, Nat.mod_self] at hsize
          omega
      have hgrow : growPosts t.prsize p = p ++ List.replicate 128 default := by
        rw [← hfull, hlast.2, growPosts_eq]
      have hlen : (p ++ List.replicate 128 default).length = p.length + 128 := by
        rw [List.length_append, List.length_replicate]
      rw [if_pos rfl, hgrow]
      refine hinsert _ _ ?_ ?_ ?_ ?_ ?_ ?_
      · rw [hlast.2, List.take_left, ← hused, hlast.2, List.take_length]
      all_goals rw [hlen]
      · omega
      · exact Nat.dvd_add hdvd (Nat.dvd_refl _)
      · omega
      · rw [← hfull, hlast.2]
      · omega
    case isFalse hroom' =>
      refine hinsert p t.prsize hused ?_ hdvd hmax hsize (by omega)
      rcases Nat.lt_or_eq_of_le hmax with hlt | heq
      · rw [Nat.mod_eq_of_lt hlt] at hsize
        omega
      · omega

end

/-! ## One call of `countuser` -/

/-- A record of the list behind `urecord`; `num` is an `unsigned`. -/
structure UserRecord where
  user : Bytes
  num : Nat
  deriving DecidableEq

/-- A new record between the two parts of the list; nothing if `calloc` fails, or if the name does
not fit into it. -/
def insertUser (user : Bytes) (num : Int) (calloc : Bool) (front back : List UserRecord) :
    Option (List UserRecord) :=
  if calloc = true ∧ user.length ≤ 12 then
    some (front ++ ⟨user, (num % 2 ^ 32).toNat⟩ :: back)
  else none

/-- `countuser`: the walk stops behind the last record that is not behind the name. -/
def countuser (user : Bytes) (num : Int) (calloc : Bool) (l : List UserRecord) :
    Option (List UserRecord) :=
  let front := l.takeWhile (0 ≤ strcmp user ·.user)
  let back := l.dropWhile (0 ≤ strcmp user ·.user)
  match front.getLast? with
  | some prev =>
    if strcmp user prev.user = 0 then
      some (front.dropLast ++ { prev with num := ((prev.num + num) % 2 ^ 32).toNat } :: back)
    else insertUser user num calloc front back
  | none => insertUser user num calloc front back

/-- The sum of the numbers that were given for the user. -/
def sumFor (user : Bytes) (counts : List (Bytes × Int)) : Int :=
  ((counts.filter (·.1 = user)).map (·.2)).sum

/-- The list has each of the users once, in their order, with the sum of the numbers. -/
structure UsersCounted (l : List UserRecord) (counts : List (Bytes × Int)) : Prop where
  sorted : l.Pairwise (·.user < ·.user)
  mem : ∀ u, u ∈ l.map (·.user) ↔ u ∈ counts.map (·.1)
  sum : ∀ r ∈ l, (r.num : Int) = sumFor r.user counts

/-- The condition on a call of `countuser`: `calloc` does not fail, the name fits, and the sum is a
value of an `unsigned`. -/
def MayCount (l : List UserRecord) (user : Bytes) (num : Int) (calloc : Bool) : Prop :=
  calloc = true ∧ user.length ≤ 12 ∧
    (∀ r ∈ l, r.user = user → 0 ≤ r.num + num ∧ r.num + num < 2 ^ 32) ∧
    ((∀ r ∈ l, r.user ≠ user) → 0 ≤ num ∧ num < 2 ^ 32)

instance (l : List UserRecord) (user : Bytes) (num : Int) (calloc : Bool) :
    Decidable (MayCount l user num calloc) := by
  unfold MayCount
  infer_instance

section
variable {l front back : List UserRecord} {counts : List (Bytes × Int)} {user : Bytes} {num : Int}
  {r : UserRecord}

theorem strcmp_nonneg_iff : ∀ {a b : Bytes}, 0 ≤ strcmp a b ↔ b ≤ a
  | [], [] => by simp [strcmp]
  | [], _ :: _ => by simp [strcmp]
  | _ :: _, [] => by simp [strcmp]
  | a :: as, b :: bs => by
    rw [strcmp, List.cons_le_cons_iff]
    have hasymm : a < b → ¬b < a := UInt8.lt_asymm
    by_cases hab : a < b
    · have hne : b ≠ a := fun h => UInt8.lt_irrefl b (h ▸ hab)
      simp [hab, hasymm hab, hne]
    · by_cases hba : b < a
      · simp [hab, hba]
      · have heq : b = a := UInt8.le_antisymm (UInt8.not_lt.mp hab) (UInt8.not_lt.mp hba)
        rw [if_neg hab, if_neg hba, strcmp_nonneg_iff]
        simp [heq, UInt8.lt_irrefl]

theorem sumFor_append (user : Bytes) (u : Bytes) (n : Int) :
    sumFor user (counts ++ [(u, n)]) = sumFor user counts + if u = user then n else 0 := by
  rw [sumFor, sumFor, List.filter_append, List.map_append, List.sum_append]
  by_cases h : u = user
  · simp [h]
  · simp [h]

/-- The parts of a list in order at a name. -/
theorem span_users (user : Bytes) (hsorted : l.Pairwise (·.user < ·.user)) :
    ∃ front back, l.takeWhile (0 ≤ strcmp user ·.user) = front ∧
      l.dropWhile (0 ≤ strcmp user ·.user) = back ∧ l = front ++ back ∧
      (∀ r ∈ front, r.user ≤ user) ∧ ∀ r ∈ back, user < r.user := by
  induction l with
  | nil => exact ⟨[], [], rfl, rfl, rfl, List.forall_mem_nil _, List.forall_mem_nil _⟩
  | cons a l ih =>
    by_cases ha : a.user ≤ user
    · have hstop : decide (0 ≤ strcmp user a.user) = true := decide_eq_true (strcmp_nonneg_iff.mpr ha)
      obtain ⟨front, back, htake, hdrop, heq, hfront, hback⟩ := ih hsorted.of_cons
      refine ⟨a :: front, back, ?_, ?_, congrArg (a :: ·) heq,
        List.forall_mem_cons.mpr ⟨ha, hfront⟩, hback⟩
      · rw [List.takeWhile_cons, if_pos hstop, htake]
      · rw [List.dropWhile_cons, if_pos hstop, hdrop]
    · have hstop : ¬decide (0 ≤ strcmp user a.user) = true := fun h =>
        ha (strcmp_nonneg_iff.mp (of_decide_eq_true h))
      have hlt : user < a.user := List.not_le.mp ha
      refine ⟨[], a :: l, ?_, ?_, rfl, List.forall_mem_nil _,
        List.forall_mem_cons.mpr ⟨hlt, fun r hr => ?_⟩⟩
      · rw [List.takeWhile_cons, if_neg hstop]
      · rw [List.dropWhile_cons, if_neg hstop]
      · exact List.lt_trans hlt (List.rel_of_pairwise_cons hsorted hr)

/-- The record of the user gets the new sum, at its place in the order. -/
theorem UsersCounted.put {n : Nat} (C : UsersCounted l counts)
    (hsorted : (front ++ back).Pairwise (·.user < ·.user))
    (hother : ∀ r, r.user ≠ user → (r ∈ l ↔ r ∈ front ++ back))
    (hfront : ∀ r ∈ front, r.user < user) (hback : ∀ r ∈ back, user < r.user)
    (hsum : (n : Int) = sumFor user counts + num) :
    UsersCounted (front ++ ⟨user, n⟩ :: back) (counts ++ [(user, num)]) := by
  obtain ⟨hsorted, hsorted', hacross⟩ := List.pairwise_append.mp hsorted
  have hmem : ∀ r, r ∈ front ++ ⟨user, n⟩ :: back ↔ r = ⟨user, n⟩ ∨ r ∈ front ++ back := by
    intro r
    rw [List.mem_append, List.mem_cons, List.mem_append]
    exact or_left_comm
  have hne : ∀ r ∈ front ++ back, r.user ≠ user := by
    intro r hr
    rcases List.mem_append.mp hr with hr | hr
    · exact Std.ne_of_lt (hfront r hr)
    · exact (Std.ne_of_lt (hback r hr)).symm
  refine ⟨List.pairwise_append.mpr ⟨hsorted, List.pairwise_cons.mpr ⟨hback, hsorted'⟩,
    fun a ha => List.forall_mem_cons.mpr ⟨hfront a ha, hacross a ha⟩⟩, fun u => ?_, fun r hr => ?_⟩
  · have hcounts : u ∈ (counts ++ [(user, num)]).map (·.1) ↔ u ∈ l.map (·.user) ∨ u = user := by
      rw [List.map_append, List.mem_append, C.mem u]
      exact or_congr_right List.mem_singleton
    rw [hcounts, List.mem_map, List.mem_map]
    by_cases hu : u = user
    · exact ⟨fun _ => .inr hu, fun _ => ⟨⟨user, n⟩, (hmem _).mpr (.inl rfl), hu.symm⟩⟩
    · rw [or_iff_left hu]
      constructor
      · rintro ⟨r, hr, rfl⟩
        refine ⟨r, (hother r hu).mpr (((hmem r).mp hr).resolve_left ?_), rfl⟩
        rintro rfl
        exact hu rfl
      · rintro ⟨r, hr, rfl⟩
        exact ⟨r, (hmem r).mpr (.inr ((hother r hu).mp hr)), rfl⟩
  · rw [sumFor_append]
    rcases (hmem r).mp hr with rfl | hr
    · rw [hsum, if_pos rfl]
    · have hru := hne r hr
      rw [if_neg hru.symm, Int.add_zero, C.sum r ((hother r hru).mpr hr)]

/-- A call that meets the condition counts its number. -/
theorem UsersCounted.countuser {calloc : Bool} (C : UsersCounted l counts)
    (hok : MayCount l user num calloc) :
    ∃ l', countuser user num calloc l = some l' ∧ UsersCounted l' (counts ++ [(user, num)]) := by
  obtain ⟨rfl, hname, hadd, hnew⟩ := hok
  obtain ⟨front, back, htake, hdrop, rfl, hfront, hback⟩ := span_users user C.sorted
  -- the user is not in the list
  have hinsert : (∀ r ∈ front, r.user ≠ user) →
      ∃ l', insertUser user num true front back = some l' ∧
        UsersCounted l' (counts ++ [(user, num)]) := by
    intro hne
    have hne' : ∀ r ∈ front ++ back, r.user ≠ user := List.forall_mem_append.mpr
      ⟨hne, fun r hr => (Std.ne_of_lt (hback r hr)).symm⟩
    obtain ⟨hnum, hmax⟩ := hnew hne'
    have hzero : sumFor user counts = 0 := by
      rw [sumFor, List.filter_eq_nil_iff.mpr fun x hx => ?_]
      · rfl
      · rw [decide_eq_true_eq]
        rintro rfl
        obtain ⟨r, hr, heq⟩ := List.mem_map.mp ((C.mem x.1).mpr (List.mem_map_of_mem hx))
        exact hne' r hr heq
    refine ⟨_, if_pos ⟨rfl, hname⟩, C.put C.sorted (fun _ _ => Iff.rfl)
      (fun r hr => Std.lt_of_le_of_ne (hfront r hr) (hne r hr)) hback ?_⟩
    rw [hzero, Int.emod_eq_of_lt hnum hmax, Int.toNat_of_nonneg hnum, Int.zero_add]
  rw [ArgoBbs.countuser, htake, hdrop]
  obtain ⟨hsorted, -, hacross⟩ := List.pairwise_append.mp C.sorted
  cases hlast : front.getLast? with
  | none =>
    rw [List.getLast?_eq_none_iff.mp hlast] at hinsert ⊢
    exact hinsert (List.forall_mem_nil _)
  | some prev =>
    obtain ⟨init, rfl⟩ := List.getLast?_eq_some_iff.mp hlast
    have hinit : ∀ r ∈ init, r.user < prev.user := fun r hr =>
      (List.pairwise_append.mp hsorted).2.2 r hr prev (List.mem_singleton_self _)
    dsimp only
    split
    case isFalse hne =>
      refine hinsert (List.forall_mem_append.mpr ⟨fun r hr => ?_,
        List.forall_mem_singleton.mpr fun h => hne (strcmp_eq_zero_iff.mpr h.symm)⟩)
      exact Std.ne_of_lt (Std.lt_of_lt_of_le (hinit r hr)
        (hfront prev (List.mem_append_right _ (List.mem_singleton_self _))))
    case isTrue heq =>
      obtain rfl := strcmp_eq_zero_iff.mp heq
      have hprev : prev ∈ init ++ [prev] ++ back :=
        List.mem_append_left _ (List.mem_append_right _ (List.mem_singleton_self _))
      obtain ⟨hnum, hmax⟩ := hadd prev hprev rfl
      refine ⟨_, rfl, ?_⟩
      rw [List.dropLast_concat]
      refine C.put ?_ (fun r hr => ?_) hinit hback ?_
      · exact C.sorted.sublist ((List.sublist_append_left ..).append_right back)
      · rw [List.mem_append, List.mem_append, List.mem_append, List.mem_singleton]
        refine or_congr_left (or_iff_left ?_)
        rintro rfl
        exact hr rfl
      · rw [← C.sum prev hprev, Int.emod_eq_of_lt hnum hmax, Int.toNat_of_nonneg hnum]

end

/-! ## Runs -/

inductive CountEvent
  | post (user title : Bytes) (malloc realloc : Bool)
  | user (user : Bytes) (num : Int) (calloc : Bool)

/-- The table and the list, with the pairs and the numbers of all calls. -/
structure CountRun where
  table : PostTable
  users : List UserRecord
  posts : List (Bytes × Bytes)
  counts : List (Bytes × Int)

namespace CountRun

def start : CountRun := ⟨.init, [], [], []⟩

def step (r : CountRun) : CountEvent → Option CountRun
  | .post user title malloc realloc =>
    (countpost user title malloc realloc r.table).map fun t =>
      { r with table := t, posts := r.posts ++ [(user, title.take 48)] }
  | .user user num calloc =>
    (countuser user num calloc r.users).map fun l =>
      { r with users := l, counts := r.counts ++ [(user, num)] }

def MayStep (r : CountRun) : CountEvent → Prop
  | .post user title malloc realloc => MayPost r.table user title malloc realloc
  | .user user num calloc => MayCount r.users user num calloc

instance (r : CountRun) (e : CountEvent) : Decidable (r.MayStep e) := by
  unfold MayStep
  split <;> infer_instance

/-- No allocation fails. -/
def Allocates : CountEvent → Prop
  | .post _ _ malloc realloc => malloc = true ∧ realloc = true
  | .user _ _ calloc => calloc = true

instance (e : CountEvent) : Decidable (Allocates e) := by
  unfold Allocates
  split <;> infer_instance

structure Inv (r : CountRun) : Prop where
  posts : TalliedInv r.table r.posts
  users : UsersCounted r.users r.counts

variable {r : CountRun} {e : CountEvent}

theorem inv_start : Inv start where
  posts := ⟨⟨rfl, rfl⟩, ⟨.nil, .nil, fun _ => Iff.rfl, List.forall_mem_nil _⟩, List.forall_mem_nil _⟩
  users := ⟨.nil, fun _ => Iff.rfl, List.forall_mem_nil _⟩

/-- A call that meets the condition is possible and keeps all counts right. -/
theorem Inv.exists_step (I : Inv r) (hok : r.MayStep e) : ∃ r', r.step e = some r' ∧ Inv r' := by
  cases e with
  | post user title malloc realloc =>
    obtain ⟨t, ht, I'⟩ := I.posts.countpost hok
    exact ⟨_, congrArg (Option.map _) ht, I', I.users⟩
  | user user num calloc =>
    obtain ⟨l, hl, C⟩ := I.users.countuser hok
    exact ⟨_, congrArg (Option.map _) hl, I.posts, C⟩

/-- In every run of calls that meet the condition: the table has each of the pairs once with its
number of calls, in the order of these numbers; the list has each of the users with the sum of the
numbers, in the order of the names; and the next call that meets it stores inside of what is
allocated. -/
theorem counted_of_reach (h : Reach step MayStep start r) :
    PostsCounted r.table r.posts ∧ UsersCounted r.users r.counts ∧
      ∀ e, r.MayStep e → (r.step e).isSome = true := by
  have I : Inv r := h.invariant Inv inv_start fun r e r' I hok hs => by
    obtain ⟨r'', hr'', I'⟩ := I.exists_step hok
    exact Option.some.inj (hr''.symm.trans hs) ▸ I'
  refine ⟨I.posts.counted, I.users, fun e hok => ?_⟩
  obtain ⟨r', hr', -⟩ := I.exists_step hok
  rw [hr']
  rfl

/-- Three posts on two topics, and their authors. -/
def demoCalls : List CountEvent :=
  [.post (bytes "alice") (bytes "tea") true true, .post (bytes "bob") (bytes "sugar") true true,
    .post (bytes "bob") (bytes "sugar") true true, .user (bytes "bob") 2 true,
    .user (bytes "alice") 1 true, .user (bytes "bob") 3 true]

theorem counted_of_reach_demo : ∃ r : CountRun,
    r.table.used = [⟨bytes "bob", bytes "sugar", 2⟩, ⟨bytes "alice", bytes "tea", 1⟩] ∧
      r.users = [⟨bytes "alice", 1⟩, ⟨bytes "bob", 5⟩] ∧
      PostsCounted r.table r.posts ∧ UsersCounted r.users r.counts ∧
        ∀ e, r.MayStep e → (r.step e).isSome = true := by
  have hrun : Reach.Meets step MayStep start demoCalls := by decide +kernel
  obtain ⟨r, hs, h⟩ := Reach.of_meets _ hrun
  have hend : (demoCalls.foldlM step start).map (fun r => (r.table.used, r.users)) =
      some ([⟨bytes "bob", bytes "sugar", 2⟩, ⟨bytes "alice", bytes "tea", 1⟩],
        [⟨bytes "alice", 1⟩, ⟨bytes "bob", 5⟩]) := by decide +kernel
  rw [hs] at hend
  obtain ⟨hused, husers⟩ := Prod.mk.inj (Option.some.inj hend)
  exact ⟨r, hused, husers, counted_of_reach h⟩

/-- A user whose name has 13 bytes posts twice. -/
def demoLongName : List CountEvent :=
  [.post (bytes "abcdefghijklm") (bytes "tea") true true,
    .post (bytes "abcdefghijklm") (bytes "tea") true true]

theorem not_counted_longName : ¬∀ r : CountRun, Reach step (fun _ e => Allocates e) start r →
    PostsCounted r.table r.posts ∧ UsersCounted r.users r.counts ∧
      ∀ e, Allocates e → (r.step e).isSome = true := by
  intro hclaim
  have hrun : Reach.Meets step (fun _ e => Allocates e) start demoLongName := by decide +kernel
  obtain ⟨r, hs, h⟩ := Reach.of_meets _ hrun
  have hend : (demoLongName.foldlM step start).map (fun r => r.table.used) =
      some [⟨bytes "abcdefghijkl", bytes "tea", 1⟩, ⟨bytes "abcdefghijkl", bytes "tea", 1⟩] := by
    decide +kernel
  rw [hs] at hend
  have hused : r.table.used = _ := Option.some.inj hend
  have honce := (hclaim r h).1.once
  rw [hused] at honce
  exact absurd honce (by decide)

end CountRun

end ArgoBbs

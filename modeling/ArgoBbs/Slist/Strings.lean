import ArgoBbs.Lib.CString
import ArgoBbs.Lib.Cells
import ArgoBbs.Lib.Heap
import Mathlib.Data.List.Infix
import Mathlib.Data.List.TakeWhile

/-! # Lists of strings

A list of strings is an array of pointers that grows by 20 slots, with three counters
(`stringlist.c`). A removal moves the pointers behind it down, so that the strings are in the first
slots; what is in the slots behind them is left over from before, or was never written. A pointer to
a list is taken not to be `NULL` here. -/

namespace ArgoBbs

def slistIncrement : Nat := 20

/-- The members of the structure, and the memory of the strings. A slot is `none` for `NULL`. -/
structure Slist where
  strs : List (Option Nat)
  length : Int
  maxused : Int
  alloced : Int
  mem : Heap Bytes

/-- How the calls of `realloc` and `malloc` in `slist_add` end. The slots are what is in the new
ones if the array grows. -/
inductive Alloc
  /-- the first call fails -/
  | fails
  /-- the array grows if it has to, and there is no room for the string -/
  | failsLate (slots : Nat → Option Nat)
  | gives (slots : Nat → Option Nat)

namespace Alloc

def array : Alloc → Option (Nat → Option Nat)
  | fails => none
  | failsLate slots | gives slots => some slots

def string : Alloc → Bool
  | fails | failsLate _ => false
  | gives _ => true

end Alloc

/-- `realloc`, with what is in the cells that are new. -/
def realloc {α : Type} (a : List α) (n : Nat) (fresh : Nat → α) : List α :=
  a.take n ++ (List.range (n - a.length)).map fresh

namespace Slist

/-- What `slist_init` makes if there is room, with what is in the slots. -/
def slistInit (slots : Nat → Option Nat) : Slist :=
  ⟨(List.range slistIncrement).map slots, 0, -1, slistIncrement, []⟩

/-- The string that a slot points to. -/
def str (s : Slist) (i : Int) : Option Bytes := do
  let slot ← cell s.strs i
  s.mem.read (← slot)

/-- The loop of `slist_clear`, for as many slots from `i` on. -/
def freeStrs (strs : List (Option Nat)) : Nat → Int → Heap Bytes → Option (Heap Bytes)
  | 0, _, mem => some mem
  | n + 1, i, mem => do
    let slot ← cell strs i
    let mem ← mem.free slot
    freeStrs strs n (i + 1) mem

def slistClear (s : Slist) : Option Slist := do
  let mem ← freeStrs s.strs (s.maxused + 1).toNat 0 s.mem
  some { s with length := 0, maxused := -1, mem }

/-- The loop of `slist_add` that looks for a hole. -/
def firstNull (strs : List (Option Nat)) : Nat → Int → Option Int
  | 0, _ => some 0
  | n + 1, i => do
    let slot ← cell strs i
    if slot = none then some i else firstNull strs n (i + 1)

/-- `idx` of `slist_add`. -/
def slotToUse (s : Slist) : Option Int :=
  if s.length = s.maxused + 1 then some (s.maxused + 1) else firstNull s.strs s.length.toNat 0

/-- The list with room for a pointer at `idx`, unless `realloc` fails. -/
def withRoom (s : Slist) (idx : Int) (alloc : Alloc) : Option Slist :=
  if idx = s.alloced then
    alloc.array.map fun slots =>
      { s with
        strs := realloc s.strs (slistIncrement + s.length).toNat slots
        alloced := s.alloced + slistIncrement }
  else some s

/-- `strcpy` copies what is before the end of the string. -/
def slistAdd (s : Slist) (str : Bytes) (alloc : Alloc) : Option (Int × Slist) := do
  let idx ← s.slotToUse
  match s.withRoom idx alloc with
  | none => some (-1, s)
  | some s =>
    if alloc.string then
      let (tstr, mem) := s.mem.alloc (str.takeWhile (· ≠ 0))
      let strs ← setCell s.strs idx (some tstr)
      some (0, { s with strs, length := s.length + 1, maxused := max s.maxused idx, mem })
    else some (-1, s)

/-- The loop of `slist_remove`, for as many slots from `i` on. -/
def shiftDown : Nat → Int → List (Option Nat) → Option (List (Option Nat))
  | 0, _, strs => some strs
  | n + 1, i, strs => do
    let slot ← cell strs i
    let strs ← setCell strs (i - 1) slot
    shiftDown n (i + 1) strs

def slistRemove (s : Slist) (idx : Int) : Option (Int × Slist) :=
  if idx < 0 ∨ idx > s.maxused then some (-1, s)
  else do
    let slot ← cell s.strs idx
    let mem ← s.mem.free slot
    let strs ← setCell s.strs idx none
    let strs ← shiftDown (s.maxused - idx).toNat (idx + 1) strs
    some (0, { s with strs, length := s.length - 1, maxused := s.maxused - 1, mem })

/-- The loop of `slist_indexof`, for as many slots from `i` on. -/
def indexFrom (s : Slist) (str : Bytes) : Nat → Int → Option Int
  | 0, _ => some (-1)
  | n + 1, i => do
    let s₁ ← s.str i
    if strcasecmpEq s₁ str then some i else indexFrom s str n (i + 1)

def slistIndexof (s : Slist) (str : Bytes) : Option Int := s.indexFrom str s.length.toNat 0

/-- The list has these strings at these addresses in its first slots, and there are no other strings
in the memory. -/
structure Holds (s : Slist) (elems : List (Nat × Bytes)) : Prop where
  length : s.length = elems.length
  maxused : s.maxused = elems.length - 1
  alloced : s.alloced = s.strs.length
  slots : elems.map (fun x => some x.1) <+: s.strs
  nodup : (elems.map Prod.fst).Nodup
  strings : ∀ p str, s.mem.read p = some str ↔ (p, str) ∈ elems
  cstrings : ∀ x ∈ elems, 0 ∉ x.2

namespace Holds
variable {s : Slist} {elems : List (Nat × Bytes)} {x : Nat × Bytes} {i : Nat}

theorem length_le (H : s.Holds elems) : elems.length ≤ s.strs.length := by
  simpa using H.slots.length_le

theorem maxused_add_one (H : s.Holds elems) : s.maxused + 1 = elems.length := by
  rw [H.maxused]
  omega

theorem cell_strs (H : s.Holds elems) (hx : elems[i]? = some x) :
    cell s.strs i = some (some x.1) := by
  obtain ⟨rest, hrest⟩ := H.slots
  have hlt : i < elems.length := (List.getElem?_eq_some_iff.mp hx).1
  rw [cell_nat, ← hrest, List.getElem?_append_left (by simpa using hlt), List.getElem?_map, hx,
    Option.map_some]

theorem read_mem (H : s.Holds elems) (hx : x ∈ elems) : s.mem.read x.1 = some x.2 :=
  (H.strings _ _).mpr hx

/-- No string below the length is missing. -/
theorem str_eq (H : s.Holds elems) (hx : elems[i]? = some x) : s.str i = some x.2 := by
  simp [str, H.cell_strs hx, H.read_mem (List.mem_of_getElem? hx)]

end Holds

theorem slistInit_holds (slots : Nat → Option Nat) : (slistInit slots).Holds [] where
  length := rfl
  maxused := rfl
  alloced := by simp [slistInit]
  slots := List.nil_prefix
  nodup := List.nodup_nil
  strings p str := by simp [slistInit, Heap.read]
  cstrings x hx := absurd hx List.not_mem_nil

section
variable {before behind elems : List (Nat × Bytes)} {x : Nat × Bytes} {strs : List (Option Nat)}
  {mem : Heap Bytes}

/-- All strings are freed, each of them once. -/
theorem exists_freeStrs (hslots : (before ++ behind).map (fun x => some x.1) <+: strs)
    (hnodup : (behind.map Prod.fst).Nodup)
    (hlive : ∀ x ∈ behind, mem.read x.1 = some x.2) :
    ∃ mem', freeStrs strs behind.length before.length mem = some mem' ∧
      ∀ p, mem'.read p = if p ∈ behind.map Prod.fst then none else mem.read p := by
  induction behind generalizing before mem with
  | nil => exact ⟨mem, rfl, fun p => by simp⟩
  | cons x behind ih =>
    have hcell : cell strs before.length = some (some x.1) := by
      obtain ⟨rest, hrest⟩ := hslots
      simp [cell_nat, ← hrest]
    obtain ⟨mem₁, hfree, hgone, hkept⟩ := Heap.exists_free (hlive x List.mem_cons_self)
    obtain ⟨hx, hnodup⟩ := List.nodup_cons.mp hnodup
    have hlive₁ : ∀ y ∈ behind, mem₁.read y.1 = some y.2 := by
      intro y hy
      have hne : y.1 ≠ x.1 := fun heq => hx (heq ▸ List.mem_map_of_mem hy)
      rw [hkept _ hne, hlive y (List.mem_cons_of_mem _ hy)]
    have hslots₁ : (before ++ [x] ++ behind).map (fun x => some x.1) <+: strs := by
      simpa using hslots
    obtain ⟨mem', hloop, hread⟩ := ih hslots₁ hnodup hlive₁
    refine ⟨mem', ?_, fun p => ?_⟩
    · rw [List.length_append, List.length_singleton, Int.natCast_succ] at hloop
      simp [freeStrs, hcell, hfree, hloop]
    · rw [hread, List.map_cons]
      by_cases hp : p = x.1
      · simp [hp, hgone]
      · simp only [List.mem_cons, hp, false_or, hkept p hp]

/-- The pointers move into the slot before them. -/
theorem exists_shiftDown (front behind rest : List (Option Nat)) (slot : Option Nat) :
    ∃ last, shiftDown behind.length (front.length + 1) (front ++ slot :: (behind ++ rest)) =
      some (front ++ (behind ++ last :: rest)) := by
  induction behind generalizing front slot with
  | nil => exact ⟨slot, rfl⟩
  | cons b behind ih =>
    have hcell : cell (front ++ slot :: (b :: behind ++ rest)) (front.length + 1) = some b := by
      rw [← Int.natCast_succ, cell_nat]
      simp
    have hset : setCell (front ++ slot :: (b :: behind ++ rest)) (front.length + 1 - 1) b =
        some (front ++ [b] ++ b :: (behind ++ rest)) := by
      rw [Int.add_sub_cancel, setCell_eq (by simp)]
      simp
    obtain ⟨last, hloop⟩ := ih (front ++ [b]) b
    rw [List.length_append, List.length_singleton, Int.natCast_succ] at hloop
    refine ⟨last, ?_⟩
    simp only [List.length_cons, shiftDown, hcell, hset, Option.bind_eq_bind, Option.bind_some,
      hloop]
    simp

end

namespace Holds
variable {s : Slist} {elems before behind : List (Nat × Bytes)} {x : Nat × Bytes} {str : Bytes}

theorem clear (H : s.Holds elems) : ∃ s', s.slistClear = some s' ∧ s'.Holds [] := by
  have hslots : ([] ++ elems : List (Nat × Bytes)).map (fun x => some x.1) <+: s.strs := H.slots
  obtain ⟨mem', hfree, hread⟩ := exists_freeStrs hslots H.nodup fun x hx => H.read_mem hx
  refine ⟨{ s with length := 0, maxused := -1, mem := mem' }, ?_, ?_⟩
  · rw [List.length_nil, Int.natCast_zero] at hfree
    rw [slistClear, H.maxused_add_one, Int.toNat_natCast, hfree]
    rfl
  · refine ⟨rfl, rfl, H.alloced, List.nil_prefix, List.nodup_nil, fun p str => ?_,
      fun x hx => absurd hx List.not_mem_nil⟩
    refine iff_of_false (fun hlive => ?_) List.not_mem_nil
    rw [hread] at hlive
    split at hlive
    · cases hlive
    · rename_i hp
      exact hp (List.mem_map_of_mem ((H.strings p str).mp hlive))

/-- There are no holes, and the next slot is the one behind the last string. -/
theorem slotToUse (H : s.Holds elems) : s.slotToUse = some (elems.length : Int) := by
  rw [Slist.slotToUse, H.length, H.maxused_add_one, if_pos rfl]

/-- The array grows just when its slots are used up, and then keeps the strings. -/
theorem withRoom (H : s.Holds elems) (alloc : Alloc) :
    s.withRoom elems.length alloc = none ∧ alloc.string = false ∨
    ∃ s₁, s.withRoom elems.length alloc = some s₁ ∧ s₁.Holds elems ∧
      elems.length < s₁.strs.length := by
  by_cases hfull : (elems.length : Int) = s.alloced
  · have hlen : s.strs.length = elems.length := by
      have halloced := H.alloced
      omega
    have hsize : (slistIncrement + s.length).toNat = s.strs.length + slistIncrement := by
      rw [H.length, hlen]
      omega
    have hgrow (slots : Nat → Option Nat) : realloc s.strs (slistIncrement + s.length).toNat slots =
        s.strs ++ (List.range slistIncrement).map slots := by
      rw [realloc, hsize, List.take_of_length_le (by omega), Nat.add_sub_cancel_left]
    rw [Slist.withRoom, if_pos hfull]
    cases harray : alloc.array with
    | none =>
      refine .inl ⟨rfl, ?_⟩
      cases alloc with
      | fails => rfl
      | _ => cases harray
    | some slots =>
      refine .inr ⟨_, rfl, ⟨H.length, H.maxused, ?_, ?_, H.nodup, H.strings, H.cstrings⟩, ?_⟩
      · simp [hgrow, H.alloced]
      · simp only [hgrow]
        exact H.slots.trans (List.prefix_append ..)
      · simp only [hgrow, List.length_append, List.length_map, List.length_range, hlen]
        exact Nat.lt_add_of_pos_right (by decide)
  · refine .inr ⟨s, by rw [Slist.withRoom, if_neg hfull], H, ?_⟩
    have halloced := H.alloced
    have hle := H.length_le
    omega

/-- The list with a string in the next slot. -/
theorem concat (H : s.Holds elems) (hlt : elems.length < s.strs.length) (hzero : 0 ∉ str) :
    ({ s with
      strs := s.strs.set elems.length (some (s.mem.alloc str).1), length := s.length + 1,
      maxused := max s.maxused elems.length, mem := (s.mem.alloc str).2 } : Slist).Holds
      (elems ++ [((s.mem.alloc str).1, str)]) := by
  refine ⟨?_, ?_, ?_, ?_, ?_, fun p t => ?_, fun x hx => ?_⟩
  · simp [H.length]
  · simp only [H.maxused, List.length_append, List.length_singleton]
    omega
  · simp [H.alloced]
  · obtain ⟨rest, hrest⟩ := H.slots
    cases rest with
    | nil =>
      have hlen := congrArg List.length hrest
      simp at hlen
      omega
    | cons slot rest =>
      refine ⟨rest, ?_⟩
      simp [← hrest]
  · rw [List.map_append, List.nodup_append]
    refine ⟨H.nodup, List.nodup_singleton _, ?_⟩
    rintro p hp _ hq rfl
    obtain rfl : p = (s.mem.alloc str).1 := List.mem_singleton.mp hq
    obtain ⟨x, hx, heq⟩ := List.mem_map.mp hp
    exact Heap.ne_alloc (H.read_mem hx) heq
  · rw [List.mem_append, ← H.strings, List.mem_singleton]
    by_cases hp : p = (s.mem.alloc str).1
    · have hdead : s.mem.read p ≠ some t := fun h => Heap.ne_alloc h hp
      subst hp
      simp [Heap.read_alloc_self, hdead, eq_comm]
    · simp [Heap.read_alloc_ne hp, hp]
  · rw [List.mem_append, List.mem_singleton] at hx
    rcases hx with hx | rfl
    · exact H.cstrings x hx
    · exact hzero

/-- The new string is behind the others if there is room for it. -/
theorem add (H : s.Holds elems) (str : Bytes) (alloc : Alloc) :
    ∃ p s', s.slistAdd str alloc = some (if alloc.string then 0 else -1, s') ∧
      s'.Holds (if alloc.string then elems ++ [(p, str.takeWhile (· ≠ 0))] else elems) := by
  rcases H.withRoom alloc with ⟨hroom, hfails⟩ | ⟨s₁, hroom, H₁, hlt⟩
  · refine ⟨0, s, ?_, ?_⟩
    · simp [slistAdd, H.slotToUse, hroom, hfails]
    · simpa [hfails] using H
  · cases hstring : alloc.string with
    | false => exact ⟨0, s₁, by simp [slistAdd, H.slotToUse, hroom, hstring], H₁⟩
    | true =>
      have hzero : 0 ∉ str.takeWhile (· ≠ 0) := fun h => by simpa using List.mem_takeWhile_imp h
      refine ⟨_, _, ?_, H₁.concat hlt hzero⟩
      simp only [slistAdd, H.slotToUse, hroom, hstring, setCell_eq hlt, Option.bind_eq_bind,
        Option.bind_some, if_true]

theorem remove_out (H : s.Holds elems) {i : Int} (hi : i < 0 ∨ elems.length ≤ i) :
    s.slistRemove i = some (-1, s) := by
  have hmax := H.maxused
  rw [slistRemove, if_pos (by omega)]

/-- The strings behind the removed one move up. -/
theorem remove (H : s.Holds (before ++ x :: behind)) :
    ∃ s', s.slistRemove before.length = some (0, s') ∧ s'.Holds (before ++ behind) := by
  have hx : (before ++ x :: behind)[before.length]? = some x := by simp
  have hmax := H.maxused
  simp only [List.length_append, List.length_cons] at hmax
  obtain ⟨mem', hfree, hgone, hkept⟩ := Heap.exists_free (H.read_mem (List.mem_of_getElem? hx))
  obtain ⟨rest, hrest⟩ := H.slots
  simp only [List.map_append, List.map_cons, List.append_assoc, List.cons_append] at hrest
  have hset : setCell s.strs before.length none = some (before.map (fun x => some x.1) ++
      none :: (behind.map (fun x => some x.1) ++ rest)) := by
    rw [← hrest, setCell_eq (by simp)]
    simp
  obtain ⟨last, hshift⟩ := exists_shiftDown (before.map fun x => some x.1)
    (behind.map fun x => some x.1) rest none
  rw [List.length_map, List.length_map] at hshift
  have hturns : (s.maxused - before.length).toNat = behind.length := by omega
  refine ⟨{ s with
    strs := before.map (fun x => some x.1) ++ (behind.map (fun x => some x.1) ++ last :: rest)
    length := s.length - 1, maxused := s.maxused - 1, mem := mem' }, ?_, ?_⟩
  · rw [slistRemove, if_neg (by omega), H.cell_strs hx, Option.bind_eq_bind, Option.bind_some,
      hfree, Option.bind_eq_bind, Option.bind_some, hset, Option.bind_eq_bind, Option.bind_some,
      hturns, hshift]
    rfl
  · have hnodup := H.nodup
    rw [List.map_append, List.map_cons, List.nodup_middle] at hnodup
    obtain ⟨hfresh, hnodup⟩ := List.nodup_cons.mp hnodup
    rw [← List.map_append] at hfresh hnodup
    have hsub : ∀ y ∈ before ++ behind, y ∈ before ++ x :: behind := by
      intro y hy
      simp only [List.mem_append, List.mem_cons] at hy ⊢
      exact hy.imp_right .inr
    refine ⟨?_, ?_, ?_, ?_, hnodup, fun p t => ?_, fun y hy => H.cstrings y (hsub y hy)⟩
    · simp [H.length]
      omega
    · simp [hmax]
      omega
    · rw [H.alloced, ← hrest]
      simp
      omega
    · exact ⟨last :: rest, by simp⟩
    · by_cases hp : p = x.1
      · subst hp
        simp only [hgone]
        refine iff_of_false (by simp) fun hmem => ?_
        have hmem : x.1 ∈ (before ++ behind).map Prod.fst := List.mem_map.mpr ⟨_, hmem, rfl⟩
        exact hfresh hmem
      · rw [hkept p hp, H.strings, List.mem_append, List.mem_append, List.mem_cons]
        have hne : (p, t) ≠ x := fun heq => hp (heq ▸ rfl)
        simp [hne]

/-- The search from a slot on finds the first string that is equal but for the case. -/
theorem indexFrom (H : s.Holds (before ++ behind)) (str : Bytes) :
    s.indexFrom str behind.length before.length =
      some (match behind.findIdx? fun x => strcasecmpEq x.2 str with
        | none => -1
        | some i => before.length + i) := by
  induction behind generalizing before with
  | nil => rfl
  | cons x behind ih =>
    have hx : (before ++ x :: behind)[before.length]? = some x := by simp
    have hrest := @ih (before ++ [x]) (by simpa using H)
    rw [List.length_append, List.length_singleton, Int.natCast_succ] at hrest
    simp only [List.length_cons, Slist.indexFrom, H.str_eq hx, Option.bind_eq_bind,
      Option.bind_some, List.findIdx?_cons, hrest]
    cases hsame : strcasecmpEq x.2 str with
    | true => simp
    | false =>
      rw [if_neg Bool.false_ne_true, if_neg Bool.false_ne_true]
      cases behind.findIdx? fun x => strcasecmpEq x.2 str with
      | none => rfl
      | some i =>
        simp only [Option.map_some, Int.natCast_succ]
        rw [Int.add_right_comm, ← Int.add_assoc]

theorem slistIndexof (H : s.Holds elems) (str : Bytes) :
    s.slistIndexof str = some (match elems.findIdx? fun x => strcasecmpEq x.2 str with
      | none => -1
      | some i => (i : Int)) := by
  have hfind := @indexFrom s [] elems H str
  rw [List.length_nil, Int.natCast_zero] at hfind
  rw [Slist.slistIndexof, H.length, Int.toNat_natCast, hfind]
  simp only [Int.zero_add]

end Holds

end Slist

end ArgoBbs

import ArgoBbs.Slist.File

/-! # Iterating over a list of strings

`slist_next` tests the bound before it moves on, so that its last call reads the slot behind the
last string; `slist_prev` moves on before it reads, from a position that is not behind the last
string (`stringlist.c`). -/

namespace ArgoBbs
namespace Slist

/-- The loop of `slist_next` for as many turns. -/
def nextFrom (s : Slist) : Nat → Int → Option (Option (Nat × Int))
  | 0, _ => some none
  | n + 1, i => do
    match ← cell s.strs (i + 1) with
    | some p => some (some (p, i + 1))
    | none => nextFrom s n (i + 1)

/-- The pointer with the new `*cur`, or `NULL`. The loop goes on while `i` is not above
`maxused`. -/
def slistNext (s : Slist) (cur : Int) : Option (Option (Nat × Int)) :=
  let i := if cur < 0 then -1 else cur
  s.nextFrom (s.maxused + 1 - i).toNat i

/-- The loop of `slist_prev`. -/
def prevFrom (s : Slist) : Nat → Option (Option (Nat × Int))
  | 0 => some none
  | i + 1 => do
    match ← cell s.strs i with
    | some p => some (some (p, i))
    | none => prevFrom s i

def slistPrev (s : Slist) (cur : Int) : Option (Option (Nat × Int)) :=
  if cur > s.maxused then some none else s.prevFrom cur.toNat

/-- The strings that the calls return until `NULL`. This fails if a call reads outside of the array
or returns a pointer to a string that has been freed. -/
def iterate (s : Slist) (call : Int → Option (Option (Nat × Int))) :
    Nat → Int → Option (List Bytes)
  | 0, _ => none
  | fuel + 1, cur => do
    match ← call cur with
    | none => some []
    | some (p, cur) => do
      let str ← s.mem.read p
      let rest ← iterate s call fuel cur
      some (str :: rest)

def NextInOrder (s : Slist) (strings : List Bytes) : Prop :=
  ∃ fuel, s.iterate s.slistNext fuel (-1) = some strings

/-- From some position on, the strings come in reverse order. -/
def PrevInReverse (s : Slist) (strings : List Bytes) : Prop :=
  ∃ start fuel, s.iterate s.slistPrev fuel start = some strings.reverse

/-- The strings of the list are iterated over in both directions, and no call returns a pointer to a
freed string. -/
structure Iterates (s : Slist) (strings : List Bytes) : Prop where
  next : s.NextInOrder strings
  prev : s.PrevInReverse strings
  live : ∀ cur p cur', s.slistNext cur = some (some (p, cur')) ∨
    s.slistPrev cur = some (some (p, cur')) → (s.mem.read p).isSome

section
variable {s : Slist} {call : Int → Option (Option (Nat × Int))} {cur cur' : Int} {p : Nat}
  {str : Bytes} {rest strings : List Bytes}

theorem iterate_cons_iff (hcall : call cur = some (some (p, cur')))
    (hread : s.mem.read p = some str) :
    (∃ fuel, s.iterate call fuel cur = some (str :: rest)) ↔
      ∃ fuel, s.iterate call fuel cur' = some rest := by
  constructor
  · rintro ⟨fuel, h⟩
    cases fuel with
    | zero => cases h
    | succ fuel =>
      simp only [iterate, hcall, hread, Option.bind_eq_bind, Option.bind_some,
        Option.bind_eq_some_iff, Option.some.injEq, List.cons.injEq, true_and] at h
      obtain ⟨rest', h, rfl⟩ := h
      exact ⟨fuel, h⟩
  · rintro ⟨fuel, h⟩
    exact ⟨fuel + 1, by simp [iterate, hcall, hread, h]⟩

/-- The iteration is over just if a call returns `NULL`. -/
theorem iterate_nil_iff : (∃ fuel, s.iterate call fuel cur = some []) ↔ call cur = some none := by
  constructor
  · rintro ⟨fuel, h⟩
    cases fuel with
    | zero => cases h
    | succ fuel =>
      simp only [iterate, Option.bind_eq_bind, Option.bind_eq_some_iff] at h
      obtain ⟨found, hcall, h⟩ := h
      cases found with
      | none => exact hcall
      | some found => simp [Option.bind_eq_some_iff] at h
  · exact fun h => ⟨1, by simp [iterate, h]⟩

theorem prevFrom_lt {n : Nat} (h : s.prevFrom n = some (some (p, cur))) : cur.toNat < n := by
  induction n with
  | zero => cases h
  | succ i ih =>
    simp only [prevFrom, Option.bind_eq_bind, Option.bind_eq_some_iff] at h
    obtain ⟨slot, -, h⟩ := h
    cases slot with
    | none => exact Nat.lt_succ_of_lt (ih h)
    | some q =>
      obtain ⟨-, rfl⟩ := Prod.mk.inj (Option.some.inj (Option.some.inj h))
      simp

/-- `slist_prev` goes down, and not from behind the last string. -/
theorem slistPrev_lt (h : s.slistPrev cur = some (some (p, cur'))) :
    cur ≤ s.maxused ∧ cur'.toNat < cur.toNat := by
  unfold slistPrev at h
  split at h
  · cases h
  · exact ⟨by omega, prevFrom_lt h⟩

theorem length_iterate_prev {fuel : Nat} (h : s.iterate s.slistPrev fuel cur = some strings) :
    strings = [] ∨ strings.length ≤ cur.toNat ∧ cur ≤ s.maxused := by
  induction fuel generalizing cur strings with
  | zero => cases h
  | succ fuel ih =>
    simp only [iterate, Option.bind_eq_bind, Option.bind_eq_some_iff] at h
    obtain ⟨found, hcall, h⟩ := h
    cases found with
    | none => exact .inl (Option.some.inj h).symm
    | some found =>
      simp only [Option.bind_eq_some_iff, Option.some.injEq] at h
      obtain ⟨str, -, rest, hrest, rfl⟩ := h
      obtain ⟨hle, hlt⟩ := slistPrev_lt hcall
      refine .inr ⟨?_, hle⟩
      rcases ih hrest with rfl | ⟨hlen, -⟩
      · exact Nat.succ_le_of_lt (Nat.zero_lt_of_lt hlt)
      · rw [List.length_cons]
        omega

end

namespace Holds
variable {s : Slist} {elems before behind : List (Nat × Bytes)} {x : Nat × Bytes}

/-- The next call returns the next string. -/
theorem slistNext (H : s.Holds (before ++ x :: behind)) :
    s.slistNext (before.length - 1) = some (some (x.1, (before.length : Int))) := by
  have hx : (before ++ x :: behind)[before.length]? = some x := by simp
  have hstart : (if (before.length : Int) - 1 < 0 then -1 else (before.length : Int) - 1) =
      before.length - 1 := by
    split <;> omega
  have hturns : (s.maxused + 1 - ((before.length : Int) - 1)).toNat = behind.length + 1 + 1 := by
    rw [H.maxused_add_one, List.length_append, List.length_cons]
    omega
  simp only [Slist.slistNext, hstart, hturns, nextFrom, Int.sub_add_cancel, H.cell_strs hx]
  rfl

/-- The call behind the last string returns what is in the slot there. -/
theorem slistNext_last (H : s.Holds elems) : s.slistNext (elems.length - 1) =
    (cell s.strs elems.length).map fun slot => slot.map fun p => (p, (elems.length : Int)) := by
  have hstart : (if (elems.length : Int) - 1 < 0 then -1 else (elems.length : Int) - 1) =
      elems.length - 1 := by
    split <;> omega
  have hturns : (s.maxused + 1 - ((elems.length : Int) - 1)).toNat = 0 + 1 := by
    rw [H.maxused_add_one]
    omega
  simp only [Slist.slistNext, hstart, hturns, nextFrom, Int.sub_add_cancel]
  rcases cell s.strs elems.length with _ | _ | p <;> rfl

/-- The iteration upwards shows the rest of the strings if `NULL` is behind them. -/
theorem iterate_next_iff (H : s.Holds (before ++ behind)) :
    (∃ fuel, s.iterate s.slistNext fuel (before.length - 1) = some (behind.map Prod.snd)) ↔
      cell s.strs (before ++ behind).length = some none := by
  induction behind generalizing before with
  | nil =>
    rw [List.append_nil] at H ⊢
    rw [List.map_nil, iterate_nil_iff, H.slistNext_last]
    rcases cell s.strs before.length with _ | _ | p <;> simp
  | cons x behind ih =>
    have hread : s.mem.read x.1 = some x.2 := H.read_mem (by simp)
    have hbefore : ((before ++ [x]).length : Int) - 1 = before.length := by simp
    have H' : s.Holds (before ++ [x] ++ behind) := by simpa using H
    rw [List.map_cons, iterate_cons_iff H.slistNext hread, ← hbefore,
      List.append_cons before x behind]
    exact ih H'

theorem nextInOrder_iff (H : s.Holds elems) :
    s.NextInOrder (elems.map Prod.snd) ↔ cell s.strs elems.length = some none :=
  @iterate_next_iff s [] elems H

/-- `slist_prev` never returns the last string. -/
theorem prevInReverse_iff (H : s.Holds elems) :
    s.PrevInReverse (elems.map Prod.snd) ↔ elems = [] := by
  constructor
  · rintro ⟨start, fuel, h⟩
    rcases length_iterate_prev h with hnil | ⟨hlen, hle⟩
    · simpa using hnil
    · rw [List.length_reverse, List.length_map] at hlen
      have hmax := H.maxused
      exact List.length_eq_zero_iff.mp (by omega)
  · rintro rfl
    have hmax := H.maxused
    exact ⟨0, iterate_nil_iff.mpr (by rw [slistPrev, if_pos (by simp [hmax])])⟩

theorem iterates_iff (H : s.Holds elems) :
    s.Iterates (elems.map Prod.snd) ↔ elems = [] ∧ cell s.strs 0 = some none := by
  constructor
  · intro hiter
    obtain rfl := H.prevInReverse_iff.mp hiter.prev
    exact ⟨rfl, H.nextInOrder_iff.mp hiter.next⟩
  · rintro ⟨rfl, hslot⟩
    refine ⟨H.nextInOrder_iff.mpr hslot, H.prevInReverse_iff.mpr rfl, fun cur p cur' hcall => ?_⟩
    have hmax : s.maxused = -1 := H.maxused
    exfalso
    rcases hcall with hcall | hcall
    · by_cases hcur : cur < 0
      · have hturns : (s.maxused + 1 - -1).toNat = 0 + 1 := by
          rw [hmax]
          rfl
        have hslot : cell s.strs (-1 + 1) = some none := hslot
        simp only [Slist.slistNext, if_pos hcur, hturns, nextFrom, hslot] at hcall
        cases hcall
      · have hturns : (s.maxused + 1 - cur).toNat = 0 := by
          rw [hmax]
          omega
        simp only [Slist.slistNext, if_neg hcur, hturns, nextFrom] at hcall
        cases hcall
    · obtain ⟨hle, hlt⟩ := slistPrev_lt hcall
      omega

end Holds

end Slist

/-- After every run, `slist_next` shows the strings in order just if the slot behind them is in the
array and `NULL`, and `slist_prev` shows them in reverse order just if there are none; so the list
can be iterated over just if it is empty and its first slot is `NULL`. -/
theorem slist_iterates_iff (slots : Nat → Option Nat) (file : Bytes → Option Bytes)
    (ops : List SlistOp) :
    ∃ s, ops.foldlM SlistFiles.step ⟨Slist.slistInit slots, file⟩ = some s ∧
      (s.list.NextInOrder (ops.foldl SlistOp.apply ⟨[], file⟩).strings ↔
        cell s.list.strs s.list.length = some none) ∧
      (s.list.PrevInReverse (ops.foldl SlistOp.apply ⟨[], file⟩).strings ↔ s.list.length = 0) ∧
      (s.list.Iterates (ops.foldl SlistOp.apply ⟨[], file⟩).strings ↔
        s.list.length = 0 ∧ cell s.list.strs 0 = some none) := by
  obtain ⟨s, hrun, elems, H, helems, -⟩ := (SlistFiles.start_models slots file).exists_run ops
  have hempty : s.list.length = 0 ↔ elems = [] := by
    rw [H.length, Int.natCast_eq_zero, List.length_eq_zero_iff]
  refine ⟨s, hrun, ?_⟩
  rw [← helems, hempty, H.length]
  exact ⟨H.nextInOrder_iff, H.prevInReverse_iff, H.iterates_iff⟩

/-- A list that fills its array is read behind it. -/
example : (((List.replicate 20 (.add (bytes "alice") (.gives fun _ => none))).foldlM
    SlistFiles.step ⟨Slist.slistInit fun _ => none, fun _ => none⟩).map
      fun s => s.list.iterate s.list.slistNext 22 (-1)) = some none := by
  rfl

/-- Of two strings the first is removed. -/
def staleOps : List SlistOp :=
  [.add (bytes "alice") (.gives fun _ => none), .add (bytes "bob") (.gives fun _ => none),
    .remove 0]

/-- The string that is left is shown twice upwards and not at all downwards, although all slots were
`NULL` at first; after `slist_clear` a pointer to a freed string is returned. -/
theorem slist_next_stale :
    ∃ s, staleOps.foldlM SlistFiles.step ⟨Slist.slistInit fun _ => none, fun _ => none⟩ = some s ∧
      (staleOps.foldl SlistOp.apply ⟨[], fun _ => none⟩).strings = [bytes "bob"] ∧
      s.list.iterate s.list.slistNext 4 (-1) = some [bytes "bob", bytes "bob"] ∧
      s.list.iterate s.list.slistPrev 4 s.list.maxused = some [] ∧
      ¬s.list.Iterates [bytes "bob"] ∧
      ((s.step .clear).map fun s => (s.list.slistNext (-1), s.list.mem.read 1)) =
        some (some (some (1, 0)), none) := by
  obtain ⟨s, hrun, elems, H, helems, -⟩ :=
    (SlistFiles.start_models (fun _ => none) fun _ => none).exists_run staleOps
  have hbob : elems.map Prod.snd = [bytes "bob"] := helems
  have hnot : ¬s.list.Iterates [bytes "bob"] := by
    rw [← hbob, H.iterates_iff]
    rintro ⟨rfl, -⟩
    cases hbob
  refine ⟨s, hrun, rfl, ?_, ?_, hnot, ?_⟩
  all_goals
    cases hrun
    rfl

end ArgoBbs

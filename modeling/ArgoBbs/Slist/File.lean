import ArgoBbs.Slist.Strings
import ArgoBbs.Lib.Fgets
import ArgoBbs.Lib.Terminated
import ArgoBbs.Lib.Reach

/-! # Saving and loading lists of strings

A list is saved with one string in a line, and loaded by adding the lines of a file that are not
empty (`stringlist.c`). The buffer holds a line of 1023 bytes with its newline. -/

namespace ArgoBbs
namespace Slist

/-- The lines that `slist_savetofile` writes for as many slots from `i` on. -/
def savedLines (s : Slist) : Nat → Int → Option Bytes
  | 0, _ => some []
  | n + 1, i => do
    match ← cell s.strs i with
    | none => savedLines s n (i + 1)
    | some p => do
      let str ← s.mem.read p
      let rest ← savedLines s n (i + 1)
      some (str ++ 10 :: rest)

/-- The result and what is in the file; `opens` says whether `fopen` succeeds. -/
def slistSavetofile (s : Slist) (opens : Bool) (file : Option Bytes) :
    Option (Int × Option Bytes) :=
  if opens then (s.savedLines (s.maxused + 1).toNat 0).map fun text => (0, some text)
  else some (-1, file)

/-- The string of a line without its newline. Of an empty string the byte before the buffer is read
as well, and becomes zero if it is a newline, which leaves the list alone. -/
def chomp (buf : Bytes) : Bytes := if buf.getLast? = some 10 then buf.dropLast else buf

/-- The loop of `slist_loadfromfile`, with how the allocations of its calls of `slist_add` end. -/
def loadLines : List Bytes → (Nat → Alloc) → Slist → Option Slist
  | [], _, s => some s
  | line :: lines, allocs, s =>
    let buf := chomp (line.takeWhile (· ≠ 0))
    if buf = [] then loadLines lines allocs s
    else do
      let (_, s) ← s.slistAdd buf (allocs 0)
      loadLines lines (fun n => allocs (n + 1)) s

/-- The file is what `fopen` finds. -/
def slistLoadfromfile (s : Slist) (file : Option Bytes) (allocs : Nat → Alloc) :
    Option (Int × Slist) :=
  match file with
  | none => some (-1, s)
  | some content => do
    let s ← s.slistClear
    let s ← loadLines (fgetsLoop 1024 [] content) allocs s
    some (0, s)

end Slist

/-- The calls on a list. -/
inductive SlistOp
  | add (str : Bytes) (alloc : Alloc)
  | remove (idx : Int)
  | clear
  | savetofile (filename : Bytes) (opens : Bool)
  | loadfromfile (filename : Bytes) (opens : Bool) (allocs : Nat → Alloc)

/-- A list and the files. -/
structure SlistFiles where
  list : Slist
  file : Bytes → Option Bytes

def SlistFiles.step (s : SlistFiles) : SlistOp → Option SlistFiles
  | .add str alloc => do
    let (_, list) ← s.list.slistAdd str alloc
    some { s with list }
  | .remove idx => do
    let (_, list) ← s.list.slistRemove idx
    some { s with list }
  | .clear => do
    let list ← s.list.slistClear
    some { s with list }
  | .savetofile filename opens => do
    let (_, content) ← s.list.slistSavetofile opens (s.file filename)
    some { s with file := fun name => if name = filename then content else s.file name }
  | .loadfromfile filename opens allocs => do
    let (_, list) ← s.list.slistLoadfromfile (if opens then s.file filename else none) allocs
    some { s with list }

/-- The strings that lines give. -/
def lineStrings (lines : List Bytes) : List Bytes :=
  (lines.map fun line => Slist.chomp (line.takeWhile (· ≠ 0))).filter (· ≠ [])

/-- The strings that a file gives. -/
def fileStrings (content : Bytes) : List Bytes := lineStrings (fgetsLoop 1024 [] content)

/-- The strings for which there is room. -/
def roomFor : (Nat → Alloc) → List Bytes → List Bytes
  | _, [] => []
  | allocs, str :: strs =>
    if (allocs 0).string then str :: roomFor (fun n => allocs (n + 1)) strs
    else roomFor (fun n => allocs (n + 1)) strs

/-- The strings that have been added and not removed, and the files. -/
structure StringsFiles where
  strings : List Bytes
  file : Bytes → Option Bytes

/-- What a call does to the strings and to the files. -/
def SlistOp.apply (a : StringsFiles) : SlistOp → StringsFiles
  | add str alloc =>
    if alloc.string then { a with strings := a.strings ++ [str.takeWhile (· ≠ 0)] } else a
  | remove idx => if idx < 0 then a else { a with strings := a.strings.eraseIdx idx.toNat }
  | clear => { a with strings := [] }
  | savetofile filename opens =>
    if opens then
      { a with file := fun name =>
          if name = filename then some (packed 10 a.strings) else a.file name }
    else a
  | loadfromfile filename opens allocs =>
    match if opens then a.file filename else none with
    | none => a
    | some content => { a with strings := roomFor allocs (fileStrings content) }

/-- The counters agree, and the strings are in the first slots. -/
structure Slist.Shows (s : Slist) (strings : List Bytes) : Prop where
  length : s.length = s.maxused + 1
  alloced : s.maxused + 1 ≤ s.alloced
  slots : s.alloced = s.strs.length
  count : s.length = strings.length
  strs : ∀ (i : Nat) str, strings[i]? = some str → ∃ p : Nat,
    cell s.strs i = some (some p) ∧ s.mem.read p = some str

/-- What a string gives when it is saved and loaded. -/
def reloaded (str : Bytes) : List Bytes := fileStrings (str ++ [10])

namespace Slist
variable {s : Slist} {before behind elems : List (Nat × Bytes)} {buf : Bytes}

theorem notMem_chomp (h : 0 ∉ buf) : 0 ∉ chomp buf := by
  unfold chomp
  split
  · exact fun hmem => h ((List.dropLast_prefix buf).subset hmem)
  · exact h

theorem chomp_append_newline (str : Bytes) : chomp (str ++ [10]) = str := by simp [chomp]

namespace Holds

theorem shows (H : s.Holds elems) : s.Shows (elems.map Prod.snd) where
  length := by rw [H.length, H.maxused_add_one]
  alloced := by
    rw [H.maxused_add_one, H.alloced]
    exact Int.ofNat_le.mpr H.length_le
  slots := H.alloced
  count := by rw [H.length, List.length_map]
  strs i str h := by
    rw [List.getElem?_map, Option.map_eq_some_iff] at h
    obtain ⟨x, hx, rfl⟩ := h
    exact ⟨x.1, H.cell_strs hx, H.read_mem (List.mem_of_getElem? hx)⟩

/-- The strings from the slot on are written, each in its line. -/
theorem savedLines (H : s.Holds (before ++ behind)) :
    s.savedLines behind.length before.length = some (packed 10 (behind.map Prod.snd)) := by
  induction behind generalizing before with
  | nil => rfl
  | cons x behind ih =>
    have hx : (before ++ x :: behind)[before.length]? = some x := by simp
    have hread := H.read_mem (List.mem_of_getElem? hx)
    have hrest := @ih (before ++ [x]) (by simpa using H)
    rw [List.length_append, List.length_singleton, Int.natCast_succ] at hrest
    simp [Slist.savedLines, H.cell_strs hx, hread, hrest]

theorem savetofile (H : s.Holds elems) (opens : Bool) (file : Option Bytes) :
    s.slistSavetofile opens file =
      if opens then some (0, some (packed 10 (elems.map Prod.snd))) else some (-1, file) := by
  have hlines := @savedLines s [] elems H
  rw [List.length_nil, Int.natCast_zero] at hlines
  unfold slistSavetofile
  rw [H.maxused_add_one, Int.toNat_natCast, hlines, Option.map_some]

/-- The strings of the lines are added at the end, as far as there is room. -/
theorem loadLines (H : s.Holds elems) (lines : List Bytes) (allocs : Nat → Alloc) :
    ∃ s' added, loadLines lines allocs s = some s' ∧ s'.Holds (elems ++ added) ∧
      added.map Prod.snd = roomFor allocs (lineStrings lines) := by
  induction lines generalizing s elems allocs with
  | nil => exact ⟨s, [], rfl, by simpa using H, rfl⟩
  | cons line lines ih =>
    by_cases hempty : chomp (line.takeWhile (· ≠ 0)) = []
    · obtain ⟨s', added, hloop, H', hadded⟩ := ih H allocs
      refine ⟨s', added, ?_, H', ?_⟩
      · rw [Slist.loadLines, if_pos hempty, hloop]
      · rw [hadded, lineStrings, lineStrings, List.map_cons, List.filter_cons, hempty]
        rfl
    · have hzero : 0 ∉ chomp (line.takeWhile (· ≠ 0)) :=
        notMem_chomp fun h => by simpa using List.mem_takeWhile_imp h
      have hself : (chomp (line.takeWhile (· ≠ 0))).takeWhile (· ≠ 0) =
          chomp (line.takeWhile (· ≠ 0)) :=
        List.takeWhile_eq_self_iff.mpr fun c hc =>
          decide_eq_true fun hc0 => hzero (hc0 ▸ hc)
      have hstrings : lineStrings (line :: lines) =
          chomp (line.takeWhile (· ≠ 0)) :: lineStrings lines := by
        rw [lineStrings, List.map_cons, List.filter_cons, if_pos (decide_eq_true hempty)]
        rfl
      obtain ⟨p, s₁, hadd, H₁⟩ := H.add (chomp (line.takeWhile (· ≠ 0))) (allocs 0)
      rw [hself] at H₁
      obtain ⟨s', added, hloop, H', hadded⟩ := ih H₁ fun n => allocs (n + 1)
      have hrun : Slist.loadLines (line :: lines) allocs s = some s' := by
        rw [Slist.loadLines, if_neg hempty, hadd]
        exact hloop
      rw [hstrings, roomFor]
      cases hstring : (allocs 0).string with
      | false => exact ⟨s', added, hrun, by simpa [hstring] using H', by simp [hadded]⟩
      | true =>
        refine ⟨s', (p, chomp (line.takeWhile (· ≠ 0))) :: added, hrun, ?_, by simp [hadded]⟩
        simpa [hstring] using H'

theorem loadfromfile (H : s.Holds elems) (file : Option Bytes) (allocs : Nat → Alloc) :
    ∃ s' elems', s.slistLoadfromfile file allocs = some (if file.isSome then 0 else -1, s') ∧
      s'.Holds elems' ∧ elems'.map Prod.snd =
        match file with
        | none => elems.map Prod.snd
        | some content => roomFor allocs (fileStrings content) := by
  cases file with
  | none => exact ⟨s, elems, rfl, H, rfl⟩
  | some content =>
    obtain ⟨s₁, hclear, H₁⟩ := H.clear
    obtain ⟨s', added, hloop, H', hadded⟩ := H₁.loadLines (fgetsLoop 1024 [] content) allocs
    refine ⟨s', added, ?_, H', hadded⟩
    simp [slistLoadfromfile, hclear, hloop]

end Holds

end Slist

namespace SlistFiles
variable {s : SlistFiles} {a : StringsFiles}

/-- The list has the strings, and the files are the same. -/
def Models (s : SlistFiles) (a : StringsFiles) : Prop :=
  ∃ elems, s.list.Holds elems ∧ elems.map Prod.snd = a.strings ∧ s.file = a.file

/-- A call does to the list what it does to the strings. -/
theorem Models.exists_step (M : s.Models a) (op : SlistOp) :
    ∃ s', s.step op = some s' ∧ s'.Models (op.apply a) := by
  obtain ⟨elems, H, helems, hfile⟩ := M
  cases op with
  | add str alloc =>
    obtain ⟨p, list, hadd, H'⟩ := H.add str alloc
    refine ⟨{ s with list }, by simp [step, hadd], _, H', ?_, ?_⟩
    · cases hstring : alloc.string <;> simp [SlistOp.apply, hstring, helems]
    · cases hstring : alloc.string <;> simp [SlistOp.apply, hstring, hfile]
  | remove idx =>
    by_cases hidx : idx < 0 ∨ elems.length ≤ idx
    · refine ⟨s, by simp [step, H.remove_out hidx], elems, H, ?_, ?_⟩
      · simp only [SlistOp.apply]
        split
        · exact helems
        · have hlen := congrArg List.length helems
          rw [List.length_map] at hlen
          rw [helems, List.eraseIdx_of_length_le (by omega)]
      · simp only [SlistOp.apply]
        split <;> exact hfile
    · obtain ⟨n, rfl⟩ := Int.eq_ofNat_of_zero_le (Int.not_lt.mp (not_or.mp hidx).1)
      have hn : n < elems.length := by omega
      obtain ⟨before, x, behind, rfl, rfl⟩ := exists_append_cons hn
      obtain ⟨list, hremove, H'⟩ := H.remove
      refine ⟨{ s with list }, by simp [step, hremove], _, H', ?_, ?_⟩
      · rw [SlistOp.apply, if_neg (by omega), Int.toNat_natCast, ← helems]
        simp [List.eraseIdx_append_of_length_le]
      · rw [SlistOp.apply, if_neg (by omega)]
        exact hfile
  | clear =>
    obtain ⟨list, hclear, H'⟩ := H.clear
    exact ⟨{ s with list }, by simp [step, hclear], [], H', rfl, hfile⟩
  | savetofile filename opens =>
    have hsave := H.savetofile opens (s.file filename)
    cases opens with
    | false =>
      refine ⟨{ s with file := fun name =>
          if name = filename then s.file filename else s.file name },
        by simp [step, hsave], elems, H, helems, ?_⟩
      funext name
      rw [SlistOp.apply, if_neg Bool.false_ne_true, ← hfile]
      exact ite_eq_right_iff.mpr fun hname => by rw [hname]
    | true =>
      refine ⟨{ s with file := fun name =>
          if name = filename then some (packed 10 (elems.map Prod.snd)) else s.file name },
        by simp [step, hsave], elems, H, helems, ?_⟩
      simp [SlistOp.apply, helems, hfile]
  | loadfromfile filename opens allocs =>
    obtain ⟨list, elems', hload, H', helems'⟩ :=
      H.loadfromfile (if opens then s.file filename else none) allocs
    refine ⟨{ s with list }, by simp [step, hload], elems', H', ?_, ?_⟩
    · rw [helems', SlistOp.apply, hfile]
      split
      · exact helems
      · rfl
    · rw [SlistOp.apply]
      split <;> exact hfile

theorem Models.exists_run (M : s.Models a) (ops : List SlistOp) :
    ∃ s', ops.foldlM step s = some s' ∧ s'.Models (ops.foldl SlistOp.apply a) :=
  Reach.exists_run Models SlistOp.apply (fun _ _ op M _ => exists_step M op) a ops M
    (Reach.along_true ops)

/-- A new list has no strings. -/
theorem start_models (slots : Nat → Option Nat) (file : Bytes → Option Bytes) :
    Models ⟨Slist.slistInit slots, file⟩ ⟨[], file⟩ :=
  ⟨[], Slist.slistInit_holds slots, rfl, rfl⟩

end SlistFiles

section
variable {str : Bytes} {allocs : Nat → Alloc}

theorem lineStrings_append (lines lines' : List Bytes) :
    lineStrings (lines ++ lines') = lineStrings lines ++ lineStrings lines' := by
  simp [lineStrings]

/-- Every string that was saved is loaded for itself. -/
theorem fileStrings_packed (strs : List Bytes) :
    fileStrings (packed 10 strs) = strs.flatMap reloaded := by
  induction strs with
  | nil => rfl
  | cons str strs ih =>
    rw [fileStrings, packed_cons, fgetsLoop_newline, lineStrings_append, List.flatMap_cons, ← ih]
    rfl

/-- A string that is not empty and fits into a line comes back. -/
theorem reloaded_eq (hne : str ≠ []) (hzero : 0 ∉ str) (hline : 10 ∉ str)
    (hlen : str.length < 1023) : reloaded str = [str] := by
  have hread : fgetsLoop 1024 [] (str ++ [10]) = [str ++ [10]] := by
    have hfits : ([] : Bytes).length + str.length + 2 ≤ 1024 := by
      rw [List.length_nil]
      omega
    exact fgetsLoop_append hline hfits
  have hself : (str ++ [10]).takeWhile (· ≠ 0) = str ++ [10] := by
    rw [List.takeWhile_eq_self_iff]
    intro c hc
    rcases List.mem_append.mp hc with hc | hc
    · exact decide_eq_true fun h => hzero (h ▸ hc)
    · rw [List.mem_singleton.mp hc]
      rfl
  rw [reloaded, fileStrings, hread, lineStrings, List.map_singleton, hself,
    Slist.chomp_append_newline, List.filter_singleton, decide_eq_true hne]
  rfl

theorem roomFor_all (h : ∀ n, (allocs n).string = true) (strs : List Bytes) :
    roomFor allocs strs = strs := by
  induction strs generalizing allocs with
  | nil => rfl
  | cons str strs ih => rw [roomFor, if_pos (h 0), ih fun n => h (n + 1)]

end

/-- In every run the counters agree and the first slots have the strings that have been added and
not removed, in their order; and what is saved then and loaded again has the same strings, of those
that are not empty, have no newline and are not too long. -/
theorem slist_counters_strings (slots : Nat → Option Nat) (file : Bytes → Option Bytes)
    (ops : List SlistOp) :
    ∃ s, ops.foldlM SlistFiles.step ⟨Slist.slistInit slots, file⟩ = some s ∧
      s.list.Shows (ops.foldl SlistOp.apply ⟨[], file⟩).strings ∧
      s.file = (ops.foldl SlistOp.apply ⟨[], file⟩).file ∧
      ∀ filename (allocs : Nat → Alloc), (∀ n, (allocs n).string = true) →
        ∃ s', [.savetofile filename true, .loadfromfile filename true allocs].foldlM
            SlistFiles.step s = some s' ∧
          s'.list.Shows ((ops.foldl SlistOp.apply ⟨[], file⟩).strings.flatMap reloaded) ∧
          ∀ str ∈ (ops.foldl SlistOp.apply ⟨[], file⟩).strings,
            str ≠ [] → 10 ∉ str → str.length < 1023 → reloaded str = [str] := by
  obtain ⟨s, hrun, M⟩ := (SlistFiles.start_models slots file).exists_run ops
  have ⟨elems, H, helems, hfile⟩ := M
  refine ⟨s, hrun, helems ▸ H.shows, hfile, fun filename allocs hroom => ?_⟩
  obtain ⟨s', hrun', elems', H', helems', -⟩ :=
    M.exists_run [.savetofile filename true, .loadfromfile filename true allocs]
  have hloaded : elems'.map Prod.snd =
      (ops.foldl SlistOp.apply ⟨[], file⟩).strings.flatMap reloaded := by
    rw [helems']
    simp [SlistOp.apply, roomFor_all hroom, fileStrings_packed]
  refine ⟨s', hrun', hloaded ▸ H'.shows, fun str hstr hne hline hlen => ?_⟩
  rw [← helems] at hstr
  obtain ⟨x, hx, rfl⟩ := List.mem_map.mp hstr
  exact reloaded_eq hne (H.cstrings x hx) hline hlen

end ArgoBbs

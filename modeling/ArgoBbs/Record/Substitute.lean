import ArgoBbs.Lib.Cells
import ArgoBbs.Lib.Loop
import ArgoBbs.Record.Search

/-! # The replacement of a header

`safe_substitute_record` writes a header over the record with its time and its name: the one that
the entry says, or the one that a search finds (`record.c`). A record is known by its `header`, the
two fields that the searches compare; the rest of it is copied. -/

namespace ArgoBbs

/-- One turn of the search for the lower bound between two cells. -/
def lowerBoundTurn (p : Nat → Option Bool) : Nat × Nat → Option ((Nat × Nat) ⊕ Nat)
  | (low, high) =>
    if low < high then
      let i := (high + low) / 2
      (p i).map fun isHigh => .inl (if isHigh then (low, i) else (i + 1, high))
    else some (.inr low)

/-- The loop over the cells from `low` on: the cell that is overwritten, and the result. -/
def scanTimes (fhdr : FileHeader) : List FileHeader → Nat → Option Nat × Int
  | [], _ => (none, 0)
  | x :: rest, i =>
    if x.filetime ≠ fhdr.filetime then (none, -1)
    else if x.filename = fhdr.filename then (some i, 0)
    else scanTimes fhdr rest (i + 1)

/-- The cell that `ent` says, then the cells with the time. -/
def lookSorted (fhdr : FileHeader) (ent : Int) (headers : List FileHeader) :
    Option (Option Nat × Int) := do
  let x ← cell headers (ent - 1)
  if x = fhdr then some (some (ent - 1).toNat, 0)
  else
    let low ← loop
      (lowerBoundTurn fun i => (cell headers i).map fun x => decide (fhdr.filetime ≤ x.filetime))
      (headers.length + 1) (0, headers.length)
    some (scanTimes fhdr (headers.drop low) low)

/-- The first pass, down from the cell in front of `i`. -/
def lookBack (fhdr : FileHeader) (headers : List FileHeader) : Nat → Option (Option Nat)
  | 0 => some none
  | i + 1 => do
    let x ← cell headers i
    if x = fhdr then some (some i) else lookBack fhdr headers i

/-- The two passes. With a negative `ent` the second one starts in front of the records. -/
def lookUnsorted (fhdr : FileHeader) (ent : Int) (headers : List FileHeader) :
    Option (Option Nat × Int) :=
  if ent < 0 then none
  else (lookBack fhdr headers ent.toNat).map fun
    | some i => (some i, 0)
    | none => (((headers.drop ent.toNat).findIdx? (· = fhdr)).map (ent.toNat + ·), 0)

section
variable {α : Type}

/-- The header is copied to the cell that was found. -/
def overwrite (fhdr : α) (file : List α) : Option Nat × Int → Option (Int × List α)
  | (some i, result) => (setCell file i fhdr).map (result, ·)
  | (none, result) => some (result, file)

/-- `safe_substitute_record`: the result and the file. It fails where it leaves the mapping. -/
def safeSubstituteRecordMapped (header : α → FileHeader) (fhdr : α) (ent : Int) (sorted : Bool)
    (file : List α) : Option (Int × List α) :=
  if file.length = 0 then some (-1, file)
  else
    let ent := if file.length ≤ ent then (file.length : Int) else ent
    let looked := if sorted then lookSorted (header fhdr) ent (file.map header)
      else lookUnsorted (header fhdr) ent (file.map header)
    looked.bind (overwrite fhdr file)

/-- What the function is for: a record with the header is overwritten if there is one, and the
result says whether there is. -/
def Substitutes (header : α → FileHeader) (fhdr : α) (file : List α)
    (out : Option (Int × List α)) : Prop :=
  ∃ result file', out = some (result, file') ∧
    if header fhdr ∈ file.map header then
      result = 0 ∧ ∃ i x, file[i]? = some x ∧ header x = header fhdr ∧ file' = file.set i fhdr
    else result ≠ 0 ∧ file' = file

end

section
variable {fhdr x : FileHeader} {headers : List FileHeader} {ent : Int} {out : Option Nat × Int}

theorem loop_lowerBoundTurn {q : Nat → Option Bool} {p : Nat → Bool} {low high fuel : Nat}
    (hq : ∀ i < high, q i = some (p i)) (hfuel : high - low < fuel) :
    loop (lowerBoundTurn q) fuel (low, high) = some (lowerBound p low high) := by
  obtain ⟨fuel, rfl⟩ : ∃ k, fuel = k + 1 := ⟨fuel - 1, by omega⟩
  induction low, high using lowerBound.induct p generalizing fuel with
  | case1 low high hlt i hi ih =>
    obtain ⟨fuel, rfl⟩ : ∃ k, fuel = k + 1 := ⟨fuel - 1, by omega⟩
    rw [lowerBound, if_pos hlt, loop, lowerBoundTurn, if_pos hlt]
    dsimp only
    rw [hq _ (by omega), if_pos hi]
    simp only [Option.map_some, i, hi, if_true]
    exact ih (fun j hj => hq j (by omega)) fuel (by omega)
  | case2 low high hlt i hi ih =>
    obtain ⟨fuel, rfl⟩ : ∃ k, fuel = k + 1 := ⟨fuel - 1, by omega⟩
    rw [lowerBound, if_pos hlt, loop, lowerBoundTurn, if_pos hlt]
    dsimp only
    rw [hq _ (by omega), if_neg hi]
    simp only [Option.map_some, i, hi]
    exact ih hq fuel (by omega)
  | case3 low high hlt => rw [lowerBound, if_neg hlt, loop, lowerBoundTurn, if_neg hlt]

/-- A search finds a cell with the header if there is one; else its result is `0` unless some record
is later. -/
structure Looked (fhdr : FileHeader) (headers : List FileHeader) (later : Prop)
    (out : Option Nat × Int) : Prop where
  found : ∀ k, out.1 = some k → headers[k]? = some fhdr ∧ out.2 = 0
  missing : out.1 = none → fhdr ∉ headers ∧ (out.2 = 0 ↔ ¬later)

theorem scanTimes_looked (hsorted : InOrder headers)
    (hfrom : ∀ y ∈ headers, fhdr.filetime ≤ y.filetime) (i : Nat) :
    (∀ k, (scanTimes fhdr headers i).1 = some k →
      i ≤ k ∧ headers[k - i]? = some fhdr ∧ (scanTimes fhdr headers i).2 = 0) ∧
    ((scanTimes fhdr headers i).1 = none → fhdr ∉ headers ∧
      ((scanTimes fhdr headers i).2 = 0 ↔ ¬∃ y ∈ headers, fhdr.filetime < y.filetime)) := by
  induction headers generalizing i with
  | nil => exact ⟨nofun, fun _ => ⟨List.not_mem_nil, iff_of_true rfl nofun⟩⟩
  | cons x rest ih =>
    obtain ⟨hx, hrest⟩ := List.pairwise_cons.mp hsorted
    have hle := hfrom x List.mem_cons_self
    rw [scanTimes]
    split
    case isTrue htime =>
      have hlt : fhdr.filetime < x.filetime := by omega
      refine ⟨nofun, fun _ => ⟨fun hmem => ?_, iff_of_false (by decide) (not_not_intro ?_)⟩⟩
      · rcases List.mem_cons.mp hmem with rfl | hmem
        · exact htime rfl
        · have hback := hx _ hmem
          omega
      · exact ⟨x, List.mem_cons_self, hlt⟩
    case isFalse htime =>
      have htime := not_not.mp htime
      split
      case isTrue hname =>
        refine ⟨fun k hk => ?_, nofun⟩
        cases hk
        refine ⟨Nat.le_refl _, ?_, rfl⟩
        rw [Nat.sub_self, List.getElem?_cons_zero]
        cases x
        cases fhdr
        cases htime
        cases hname
        rfl
      case isFalse hname =>
        obtain ⟨hfound, hmissing⟩ := ih hrest (fun y hy => hfrom y (List.mem_cons_of_mem x hy)) (i + 1)
        refine ⟨fun k hk => ?_, fun hnone => ?_⟩
        · obtain ⟨hik, hcell, hresult⟩ := hfound k hk
          refine ⟨by omega, ?_, hresult⟩
          rw [show k - i = k - (i + 1) + 1 by omega, List.getElem?_cons_succ, hcell]
        · obtain ⟨hnot, hresult⟩ := hmissing hnone
          refine ⟨fun hmem => ?_, hresult.trans (not_congr ?_)⟩
          · rcases List.mem_cons.mp hmem with rfl | hmem
            · exact hname rfl
            · exact hnot hmem
          · rw [List.exists_mem_cons_iff]
            exact (or_iff_right (by omega)).symm

/-- In a directory in order the search looks at cells of it, if the entry is one of them. -/
theorem lookSorted_looked (fhdr : FileHeader) (hsorted : InOrder headers) (h1 : 1 ≤ ent)
    (hn : ent ≤ headers.length) :
    ∃ out, lookSorted fhdr ent headers = some out ∧
      Looked fhdr headers (∃ y ∈ headers, fhdr.filetime < y.filetime) out := by
  obtain ⟨i, rfl⟩ : ∃ i : Nat, ent = i + 1 := ⟨(ent - 1).toNat, by omega⟩
  have hi : i < headers.length := by omega
  have hcell : cell headers ((i : Int) + 1 - 1) = some (headers.get ⟨i, hi⟩) := by
    rw [Int.add_sub_cancel, cell_nat]
    exact List.getElem?_eq_getElem hi
  rw [lookSorted, hcell]
  simp only [Option.bind_eq_bind, Option.bind_some]
  split
  case isTrue hsame =>
    refine ⟨_, rfl, fun k hk => ?_, nofun⟩
    cases hk
    refine ⟨?_, rfl⟩
    rw [Int.add_sub_cancel, Int.toNat_natCast, ← hsame]
    exact List.getElem?_eq_getElem hi
  case isFalse =>
    obtain ⟨low, hlow⟩ : ∃ low, low = lowerBound
      (fun i => decide (∀ x ∈ headers[i]?, fhdr.filetime ≤ x.filetime)) 0 headers.length := ⟨_, rfl⟩
    obtain ⟨hbefore, hfrom⟩ := lowerBound_inOrder hsorted hlow
    have hdrop : InOrder (headers.drop low) := hsorted.sublist (List.drop_sublist ..)
    obtain ⟨hfound, hmissing⟩ := scanTimes_looked hdrop hfrom low
    -- the cells in front of the lower bound are too early to matter
    have hmem {y : FileHeader} (hy : y ∈ headers) (hle : fhdr.filetime ≤ y.filetime) :
        y ∈ headers.drop low := by
      obtain ⟨k, hk⟩ := List.getElem?_of_mem hy
      have hlk : low ≤ k := by
        by_contra hlt
        have hearly := hbefore k (by omega) y hk
        omega
      refine @List.mem_of_getElem? _ _ (k - low) _ ?_
      rw [List.getElem?_drop, Nat.add_sub_of_le hlk, hk]
    rw [loop_lowerBoundTurn (p := fun i => decide (∀ x ∈ headers[i]?, fhdr.filetime ≤ x.filetime))
      ?_ (by omega), ← hlow]
    · refine ⟨_, rfl, fun k hk => ?_, fun hnone => ?_⟩
      · obtain ⟨hlk, hk, hresult⟩ := hfound k hk
        rw [List.getElem?_drop, Nat.add_sub_of_le hlk] at hk
        exact ⟨hk, hresult⟩
      · obtain ⟨hnot, hresult⟩ := hmissing hnone
        refine ⟨fun h => hnot (hmem h (Int.le_refl _)), hresult.trans (not_congr ?_)⟩
        exact ⟨fun ⟨y, hy, hlt⟩ => ⟨y, List.mem_of_mem_drop hy, hlt⟩,
          fun ⟨y, hy, hlt⟩ => ⟨y, hmem hy (Int.le_of_lt hlt), hlt⟩⟩
    · intro i hi
      rw [cell_nat, List.getElem?_eq_getElem hi]
      simp

theorem lookBack_spec (fhdr : FileHeader) {i : Nat} (hi : i ≤ headers.length) :
    ∃ found, lookBack fhdr headers i = some found ∧
      (∀ k, found = some k → headers[k]? = some fhdr) ∧
      (found = none → fhdr ∉ headers.take i) := by
  induction i with
  | zero => exact ⟨none, rfl, nofun, fun _ => List.not_mem_nil⟩
  | succ i ih =>
    obtain ⟨x, hx⟩ : ∃ x, headers[i]? = some x := ⟨_, List.getElem?_eq_getElem hi⟩
    rw [lookBack, cell_nat, hx]
    simp only [Option.bind_eq_bind, Option.bind_some]
    split
    case isTrue hsame =>
      refine ⟨some i, rfl, fun k hk => ?_, nofun⟩
      cases hk
      rw [hx, hsame]
    case isFalse hne =>
      obtain ⟨found, hfound, hsome, hnone⟩ := ih (Nat.le_of_succ_le hi)
      refine ⟨found, hfound, hsome, fun h hmem => ?_⟩
      rw [List.take_add_one, hx, List.mem_append] at hmem
      rcases hmem with hmem | hmem
      · exact hnone h hmem
      · exact hne (List.mem_singleton.mp hmem).symm

/-- The two passes look at all cells; without a match the result is `0`. -/
theorem lookUnsorted_looked (fhdr : FileHeader) (h0 : 0 ≤ ent) (hn : ent ≤ headers.length) :
    ∃ out, lookUnsorted fhdr ent headers = some out ∧ Looked fhdr headers False out := by
  obtain ⟨found, hfound, hsome, hnone⟩ := lookBack_spec fhdr (show ent.toNat ≤ headers.length by omega)
  rw [lookUnsorted, if_neg (by omega), hfound, Option.map_some]
  refine ⟨_, rfl, ?_⟩
  cases found with
  | some i =>
    refine ⟨fun k hk => ?_, nofun⟩
    cases hk
    exact ⟨hsome i rfl, rfl⟩
  | none =>
    refine ⟨fun k hk => ?_, fun h => ⟨fun hmem => ?_, iff_of_true rfl not_false⟩⟩
    · obtain ⟨j, hj, rfl⟩ := Option.map_eq_some_iff.mp hk
      obtain ⟨hlt, hsame, -⟩ := List.findIdx?_eq_some_iff_getElem.mp hj
      refine ⟨?_, rfl⟩
      rw [← List.getElem?_drop, List.getElem?_eq_getElem hlt, of_decide_eq_true hsame]
    · have hahead := List.findIdx?_eq_none_iff.mp (Option.map_eq_none_iff.mp h)
      rw [← List.take_append_drop ent.toNat headers, List.mem_append] at hmem
      rcases hmem with hmem | hmem
      · exact hnone rfl hmem
      · exact of_decide_eq_false (hahead fhdr hmem) rfl

end

section
variable {α : Type} {header : α → FileHeader} {fhdr : α} {file : List α} {out : Option Nat × Int}

/-- What is made of the outcome of a search. -/
theorem substitutes_looked {later : Prop} (h : Looked (header fhdr) (file.map header) later out) :
    Substitutes header fhdr file (overwrite fhdr file out) ↔
      header fhdr ∈ file.map header ∨ later := by
  obtain ⟨found, result⟩ := out
  cases found with
  | some i =>
    obtain ⟨hi, rfl⟩ := h.found i rfl
    obtain ⟨x, hx, hsame⟩ := List.getElem?_map .. ▸ hi |> Option.map_eq_some_iff.mp
    have hmem : header fhdr ∈ file.map header := List.mem_of_getElem? hi
    refine iff_of_true ⟨0, file.set i fhdr, ?_, ?_⟩ (Or.inl hmem)
    · rw [overwrite, setCell_eq (List.getElem?_eq_some_iff.mp hx).1]
      rfl
    · rw [if_pos hmem]
      exact ⟨rfl, i, x, hx, hsame, rfl⟩
  | none =>
    obtain ⟨hnot, hresult⟩ := h.missing rfl
    rw [or_iff_right hnot]
    constructor
    · rintro ⟨result', file', hout, hspec⟩
      rw [if_neg hnot] at hspec
      cases hout
      exact not_not.mp fun hlater => hspec.1 (hresult.mpr hlater)
    · intro hlater
      refine ⟨result, file, rfl, ?_⟩
      rw [if_neg hnot]
      exact ⟨fun h => hresult.mp h hlater, rfl⟩

end

end ArgoBbs

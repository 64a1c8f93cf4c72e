import Mathlib.Data.List.Basic
import Mathlib.Data.List.Pairwise
import Mathlib.Tactic.Common

/-! # The searches that rely on the order

`get_dir_index` (`read.c`) and `safe_substitute_record` (`record.c`) look for a header by the first
cell that is not before its time and then by its name among the cells with this time. In a
directory in the order of the times they find every header that is there (`getDirIndex_finds`). -/

namespace ArgoBbs

/-- What the directory `.DIR` says about a post. -/
structure FileHeader where
  filename : List UInt8
  filetime : Int
  deriving DecidableEq, Repr

instance : Inhabited FileHeader := ⟨⟨[], 0⟩⟩

/-- The times do not decrease. -/
def InOrder (dir : List FileHeader) : Prop := dir.Pairwise fun x y => x.filetime ≤ y.filetime

/-- The loop that halves `low`..`high`; `p i` says that the cell `i` is not before the time. -/
def lowerBound (p : Nat → Bool) (low high : Nat) : Nat :=
  if low < high then
    let i := (high + low) / 2
    if p i then lowerBound p low i else lowerBound p (i + 1) high
  else low
termination_by high - low

/-- The loop from the first cell that is not before the time on, up to a cell with another time. -/
def scanSameTime (filetime : Int) (sameName : FileHeader → Bool) :
    List FileHeader → Nat → Option Nat
  | [], _ => none
  | x :: rest, i =>
    if x.filetime ≠ filetime then none
    else if sameName x then some i
    else scanSameTime filetime sameName rest (i + 1)

def getDirIndex (filetime : Int) (sameName : FileHeader → Bool) (headers : List FileHeader) :
    Option Nat :=
  let low := lowerBound (fun i => decide (∀ x ∈ headers[i]?, filetime ≤ x.filetime)) 0 headers.length
  scanSameTime filetime sameName (headers.drop low) low

section
variable {p : Nat → Bool} {headers : List FileHeader} {filetime : Int} {sameName : FileHeader → Bool}
  {x : FileHeader}

/-- The loop ends at the first cell that satisfies a condition which all later cells then satisfy
too. -/
theorem lowerBound_spec (hp : ∀ i j, i ≤ j → p i = true → p j = true) (low high : Nat)
    (hle : low ≤ high) (hlow : ∀ i < low, p i = false) (hhigh : p high = true) :
    (∀ i < lowerBound p low high, p i = false) ∧ p (lowerBound p low high) = true := by
  induction low, high using lowerBound.induct p with
  | case1 low high hlt i hi ih =>
    rw [lowerBound, if_pos hlt]
    dsimp only
    rw [if_pos hi]
    exact ih (by omega) hlow hi
  | case2 low high hlt i hi ih =>
    rw [lowerBound, if_pos hlt]
    dsimp only
    rw [if_neg hi]
    refine ih (by omega) (fun j hj => ?_) hhigh
    cases hpj : p j with
    | false => rfl
    | true => exact absurd (hp j i (by omega) hpj) hi
  | case3 low high hlt =>
    rw [lowerBound, if_neg hlt]
    obtain rfl : low = high := by omega
    exact ⟨hlow, hhigh⟩

/-- The cells of a directory in order whose time is not before one are those from the result of the
loop on. -/
theorem lowerBound_inOrder (hsorted : InOrder headers) {low : Nat}
    (hlow : low = lowerBound (fun i => decide (∀ x ∈ headers[i]?, filetime ≤ x.filetime)) 0
      headers.length) :
    (∀ i < low, ∀ x ∈ headers[i]?, x.filetime < filetime) ∧
      ∀ x ∈ headers.drop low, filetime ≤ x.filetime := by
  obtain ⟨p, hp⟩ : ∃ p : Nat → Bool,
    p = fun i => decide (∀ x ∈ headers[i]?, filetime ≤ x.filetime) := ⟨_, rfl⟩
  have hpi : ∀ i, p i = true ↔ ∀ x ∈ headers[i]?, filetime ≤ x.filetime := by
    intro i
    rw [hp]
    exact decide_eq_true_iff
  have hmono : ∀ i j, i ≤ j → p i = true → p j = true := by
    intro i j hij hi
    rw [hpi] at hi ⊢
    intro y hy
    obtain ⟨hj, rfl⟩ := List.getElem?_eq_some_iff.mp hy
    rcases Nat.eq_or_lt_of_le hij with rfl | hij
    · exact hi _ hy
    · have hle := List.pairwise_iff_getElem.mp hsorted i j (by omega) hj hij
      exact Int.le_trans (hi _ (List.getElem?_eq_getElem (by omega))) hle
  have hend : p headers.length = true := by
    rw [hpi, List.getElem?_eq_none (Nat.le_refl _)]
    exact nofun
  obtain ⟨hbefore, hfrom⟩ := lowerBound_spec hmono 0 headers.length (Nat.zero_le _) nofun hend
  rw [← hp] at hlow
  rw [← hlow] at hbefore hfrom
  refine ⟨fun i hi x hx => ?_, fun y hy => ?_⟩
  · by_contra hle
    have hpi' : p i = true := (hpi i).mpr fun y hy => by
      rw [hx] at hy
      cases hy
      omega
    rw [hbefore i hi] at hpi'
    cases hpi'
  · obtain ⟨k, hk⟩ := List.getElem?_of_mem hy
    rw [List.getElem?_drop] at hk
    exact (hpi _).mp (hmono low (low + k) (by omega) hfrom) y hk

/-- Among cells in order, none before the time, the loop finds a header with the name. -/
theorem scanSameTime_finds (hsorted : InOrder headers) (hfrom : ∀ y ∈ headers, filetime ≤ y.filetime)
    (hx : x ∈ headers) (htime : x.filetime = filetime) (hname : sameName x = true) (i : Nat) :
    ∃ k y, scanSameTime filetime sameName headers i = some (i + k) ∧ headers[k]? = some y ∧
      y.filetime = filetime ∧ sameName y = true := by
  induction headers generalizing i with
  | nil => cases hx
  | cons z rest ih =>
    obtain ⟨hz, hrest⟩ := List.pairwise_cons.mp hsorted
    have hztime : z.filetime = filetime := by
      refine Int.le_antisymm ?_ (hfrom z List.mem_cons_self)
      rcases List.mem_cons.mp hx with rfl | hx
      · exact Int.le_of_eq htime
      · exact htime ▸ hz x hx
    rw [scanSameTime, if_neg (not_not_intro hztime)]
    split
    case isTrue hzname => exact ⟨0, z, rfl, rfl, hztime, hzname⟩
    case isFalse hzname =>
      have hx : x ∈ rest := (List.mem_cons.mp hx).resolve_left fun h => hzname (h ▸ hname)
      obtain ⟨k, y, hk, hy⟩ := ih hrest (fun y hy => hfrom y (List.mem_cons_of_mem z hy)) hx (i + 1)
      exact ⟨k + 1, y, hk.trans (congrArg some (by omega)), hy⟩

/-- In a directory in the order of the times, the search finds a header with the time and the name
whenever there is one. -/
theorem getDirIndex_finds (hsorted : InOrder headers) (hx : x ∈ headers)
    (htime : x.filetime = filetime) (hname : sameName x = true) :
    ∃ i y, getDirIndex filetime sameName headers = some i ∧ headers[i]? = some y ∧
      y.filetime = filetime ∧ sameName y = true := by
  obtain ⟨low, hlow⟩ : ∃ low, low =
      lowerBound (fun i => decide (∀ x ∈ headers[i]?, filetime ≤ x.filetime)) 0 headers.length :=
    ⟨_, rfl⟩
  obtain ⟨hbefore, hfrom⟩ := lowerBound_inOrder hsorted hlow
  have hmem : x ∈ headers.drop low := by
    obtain ⟨k, hk⟩ := List.getElem?_of_mem hx
    have hle : low ≤ k := by
      by_contra hlt
      have hbefore := hbefore k (by omega) x hk
      omega
    refine @List.mem_of_getElem? _ _ (k - low) _ ?_
    rw [List.getElem?_drop, Nat.add_sub_of_le hle, hk]
  have hdrop : InOrder (headers.drop low) := hsorted.sublist (List.drop_sublist ..)
  obtain ⟨k, y, hscan, hy, hytime⟩ := scanSameTime_finds hdrop hfrom hmem htime hname low
  rw [List.getElem?_drop] at hy
  refine ⟨low + k, y, ?_, hy, hytime⟩
  rw [getDirIndex, ← hlow]
  exact hscan

end

end ArgoBbs

import ArgoBbs.Board.Undelete
import ArgoBbs.Lib.Cells
import ArgoBbs.Record.Access

/-! # Removing an article by its name

`delete_file` takes the number of an entry as a hint. It checks the hint with products in `size_t`
and an address computed from them, and searches the file for the name if the entry is not the one
(`record.c`). Here no other process changes the file meanwhile. -/

namespace ArgoBbs

/-- The bits of `size_t` and of an address, and the size of a `struct fileheader`: it divides the
addresses, or they are enough for all products with an `int`. -/
structure Abi where
  width : Nat
  header : Nat
  header_pos : 0 < header
  fits : header ∣ 2 ^ width ∨ header * 2 ^ 31 ≤ 2 ^ width

/-- 32-bit words: `time_t` has 4 bytes. -/
def Abi.ilp32 : Abi := ⟨32, 128, by decide, .inl (by decide)⟩

/-- 64-bit words: `time_t` has 8 bytes and is aligned. -/
def Abi.lp64 : Abi := ⟨64, 136, by decide, .inr (by decide)⟩

/-- The record at `sizeof(struct fileheader) * i` bytes behind the start of the mapping. -/
def Abi.index (a : Abi) (i : Int) : Int := a.header * i % 2 ^ a.width / a.header

structure DeleteCalls where
  openOk : Bool
  fstatOk : Bool
  mmapOk : Bool

/-- `delete_file` has returned `ret`, with the number of the record that it has removed and the path
of the file that it has unlinked. -/
structure DeleteResult where
  ret : Int
  file : List ArticleHeader
  removed : Option Int
  unlinked : Option Bytes

def pathMax : Nat := 4096

/-- The path of the file beside the index. -/
def besideIndex (direct filename : Bytes) : Bytes :=
  (cutAtLast 47 (strlcpy (pathMax + 1) direct) ++ 47 :: filename).take pathMax

/-- Is the entry with the number `ent` the one with the name? It is looked at only if it seems to be
in the file, and cannot be read if it is not. -/
def isEntry (a : Abi) (ent : Int) (filename : Bytes) (file : List ArticleHeader) : Option Bool :=
  if 0 < ent ∧ a.header * ent % 2 ^ a.width ≤ (a.header * file.length : Nat) then
    (cell file (a.index (ent - 1))).map (hasName filename)
  else some false

/-- The loop over the entries from the number `ent` on. -/
def entryLoop (filename : Bytes) (ent : Int) : List ArticleHeader → Option Int
  | [] => none
  | header :: rest =>
    if hasName filename header then some ent else entryLoop filename (ent + 1) rest

/-- What stands behind the record `ent` is moved onto it, and the file is cut by one record. -/
def removeEntry (a : Abi) (ent : Int) (file : List ArticleHeader) : Option (List ArticleHeader) :=
  (memmove file (a.index (ent - 1)) (a.index ent) (file.length - a.index ent)).map
    (·.take (file.length - 1))

def DeleteCalls.fails (c : DeleteCalls) : Bool := !(c.openOk && c.fstatOk && c.mmapOk)

/-- The end of `delete_file`, with the number of the entry that was found. -/
def removeFound (a : Abi) (direct filename : Bytes) (remove : Bool) (file : List ArticleHeader) :
    Option Int → Option DeleteResult
  | none => some ⟨-1, file, none, none⟩
  | some ent => (removeEntry a ent file).map fun file' =>
    ⟨0, file', some (a.index ent), if remove then some (besideIndex direct filename) else none⟩

/-- `delete_file`; nothing if it accesses a record outside of the file. -/
def deleteFileAt (a : Abi) (c : DeleteCalls) (direct : Bytes) (ent : Int) (filename : Bytes)
    (remove : Bool) (file : List ArticleHeader) : Option DeleteResult :=
  if 47 ∉ strlcpy (pathMax + 1) direct then some ⟨-1, file, none, none⟩
  else if c.fails = true ∨ file = [] then some ⟨-1, file, none, none⟩
  else do
    let found ← isEntry a ent filename file
    removeFound a direct filename remove file
      (if found then some ent else entryLoop filename 1 file)

/-- The record with the number is removed, or nothing changes. -/
def withoutEntry (direct filename : Bytes) (remove : Bool) (file : List ArticleHeader) :
    Option Nat → DeleteResult
  | none => ⟨-1, file, none, none⟩
  | some n =>
    ⟨0, file.eraseIdx (n - 1), some n, if remove then some (besideIndex direct filename) else none⟩

/-- What a call is to do: the entry with the number is removed if it has the name, and else the
first one with the name; nothing changes if there is none, or if the index cannot be mapped. -/
def deletedFile (c : DeleteCalls) (direct : Bytes) (ent : Int) (filename : Bytes) (remove : Bool)
    (file : List ArticleHeader) : DeleteResult :=
  if 47 ∉ strlcpy (pathMax + 1) direct ∨ c.fails = true then ⟨-1, file, none, none⟩
  else withoutEntry direct filename remove file (fileNumber ent (hasName filename) file)

/-- The condition: the product with the number is not cut off; or it seems to be that of a record
behind the file, or of one that does not have the name or is the first one with the name. -/
def HintFine (a : Abi) (ent : Int) (filename : Bytes) (file : List ArticleHeader) : Prop :=
  ent ≤ 0 ∨ file = [] ∨ a.header * ent < 2 ^ a.width ∨ file.length < a.index ent ∨
    (0 < a.index ent ∧ ∀ x, getRecord (a.index ent) file = some x → hasName filename x = true →
      searchRecord (hasName filename) file = some ((a.index ent).toNat, x))

section
variable {a : Abi} {ent : Int} {n : Nat} {filename : Bytes} {file : List ArticleHeader}

/-- An offset that is not cut off is that of the record. -/
theorem Abi.index_of_lt {i : Int} (hpos : 0 ≤ i) (hlt : a.header * i < 2 ^ a.width) :
    a.index i = i := by
  have hheader : (0 : Int) < a.header := by exact_mod_cast a.header_pos
  rw [index, Int.emod_eq_of_lt (Int.mul_nonneg (Int.le_of_lt hheader) hpos) hlt,
    Int.mul_ediv_cancel_left _ (Int.ne_of_gt hheader)]

/-- An offset that is cut off is that of a smaller number. -/
theorem Abi.index_of_dvd {m : Nat} (hm : 2 ^ a.width = a.header * m) (i : Int) :
    a.header * i % 2 ^ a.width = a.header * (i % m) ∧ a.index i = i % m := by
  have hheader : (0 : Int) < a.header := by exact_mod_cast a.header_pos
  have hcast : (2 : Int) ^ a.width = a.header * m := by exact_mod_cast hm
  have hmod : a.header * i % 2 ^ a.width = a.header * (i % m) := by
    rw [hcast, Int.mul_emod_mul_of_pos _ _ hheader]
  exact ⟨hmod, by rw [index, hmod, Int.mul_ediv_cancel_left _ (Int.ne_of_gt hheader)]⟩

theorem sub_one_emod (i : Int) {m : Int} (hm : 0 < m) :
    (i - 1) % m = if i % m = 0 then m - 1 else i % m - 1 := by
  have hdiv := Int.emod_add_mul_ediv i m
  have hnonneg := Int.emod_nonneg i (Int.ne_of_gt hm)
  have hlt := Int.emod_lt_of_pos i hm
  split
  case isTrue hzero =>
    have hi : i - 1 = m - 1 + m * (i / m - 1) := by
      rw [Int.mul_sub, Int.mul_one]
      omega
    rw [hi, Int.add_mul_emod_self_left, Int.emod_eq_of_lt (by omega) (by omega)]
  case isFalse hpos =>
    have hi : i - 1 = i % m - 1 + m * (i / m) := by omega
    rw [hi, Int.add_mul_emod_self_left, Int.emod_eq_of_lt (by omega) (by omega)]

/-- The record that the check of a hint is about, and the one in front of the address. -/
theorem Abi.index_spec (hent : IsCInt ent) (hpos : 0 < ent)
    (hfile : a.header * n < 2 ^ a.width) :
    ∃ k : Nat, a.index ent = k ∧ a.header * ent % 2 ^ a.width = (a.header * k : Nat) ∧
      (0 < k → a.index (ent - 1) = k - 1) ∧ (k = 0 → n ≤ a.index (ent - 1)) ∧
      (ent = k ∨ (n < ent ∧ 2 ^ a.width ≤ a.header * ent)) := by
  have hheader : (0 : Int) < a.header := by exact_mod_cast a.header_pos
  by_cases hlt : a.header * ent < 2 ^ a.width
  · obtain ⟨k, rfl⟩ : ∃ k : Nat, ent = k := ⟨ent.toNat, by omega⟩
    refine ⟨k, index_of_lt (by omega) hlt, ?_, fun _ => index_of_lt (by omega) ?_, by omega,
      .inl rfl⟩
    · rw [Int.emod_eq_of_lt (Int.mul_nonneg (Int.le_of_lt hheader) (by omega)) hlt]
      push_cast
      rfl
    · refine Int.lt_of_le_of_lt (Int.mul_le_mul_of_nonneg_left ?_ (Int.le_of_lt hheader)) hlt
      omega
  · have hdvd : a.header ∣ 2 ^ a.width := by
      refine a.fits.resolve_right fun hwide => hlt ?_
      have hint : ent < 2 ^ 31 := hent.2
      calc (a.header : Int) * ent < a.header * 2 ^ 31 := Int.mul_lt_mul_of_pos_left hint hheader
        _ ≤ 2 ^ a.width := by exact_mod_cast hwide
    obtain ⟨m, hm⟩ := hdvd
    have hcast : (2 : Int) ^ a.width = a.header * m := by exact_mod_cast hm
    have hnm : n < m := Nat.lt_of_mul_lt_mul_left (hm ▸ hfile)
    have hle : (m : Int) ≤ ent := by
      rw [hcast] at hlt
      exact Int.le_of_mul_le_mul_left (Int.not_lt.mp hlt) hheader
    obtain ⟨hmod, hindex⟩ := index_of_dvd hm ent
    obtain ⟨-, hindex'⟩ := index_of_dvd hm (ent - 1)
    have hm0 : (0 : Int) < m := by omega
    have hnonneg := Int.emod_nonneg ent (Int.ne_of_gt hm0)
    have hsub := sub_one_emod ent hm0
    refine ⟨(ent % m).toNat, by omega, ?_, fun _ => ?_, fun _ => ?_, .inr ⟨by omega, by omega⟩⟩
    · rw [hmod, Int.natCast_mul, Int.toNat_of_nonneg hnonneg]
    · rw [hindex', hsub, if_neg (by omega)]
      omega
    · rw [hindex', hsub, if_pos (by omega)]
      omega

theorem entryLoop_eq (ent : Int) :
    entryLoop filename ent file =
      (file.findIdx? (hasName filename)).map fun i : Nat => ent + i := by
  induction file generalizing ent with
  | nil => rfl
  | cons header rest ih =>
    rw [entryLoop, List.findIdx?_cons]
    split
    · rw [Option.map_some, Int.natCast_zero, Int.add_zero]
    · rw [ih, Option.map_map]
      congr 1
      funext i
      simp only [Function.comp_apply, Int.natCast_succ]
      omega

/-- A record of the file is removed. -/
theorem removeEntry_eq {k : Nat} (hpos : 0 < k) (hle : k ≤ file.length)
    (hindex : a.index ent = k) (hindex' : a.index (ent - 1) = k - 1) :
    removeEntry a ent file = some (file.eraseIdx (k - 1)) := by
  have hmove := memmove_eq (by omega : k - 1 + (file.length - k) ≤ file.length)
    (by omega : k + (file.length - k) ≤ file.length)
  have hdst : (k : Int) - 1 = (k - 1 : Nat) := by omega
  have hlen : (file.length : Int) - k = (file.length - k : Nat) := by omega
  have hxs : (file.drop k).take (file.length - k) = file.drop k :=
    List.take_of_length_le (List.length_drop ▸ Nat.le_refl _)
  have hcut : file.length - 1 = k - 1 + (file.drop k).length := by
    rw [List.length_drop]
    omega
  rw [removeEntry, hindex, hindex', hdst, hlen, hmove, hxs, Option.map_some, hcut,
    take_overlay_add (by omega), List.eraseIdx_eq_take_drop_succ, Nat.sub_add_cancel hpos]

variable {direct : Bytes} {remove : Bool} {c : DeleteCalls}

theorem removeFound_some {k : Nat} (hpos : 0 < k) (hle : k ≤ file.length)
    (hindex : a.index ent = k) (hindex' : a.index (ent - 1) = k - 1) :
    removeFound a direct filename remove file (some ent) =
      some (withoutEntry direct filename remove file (some k)) := by
  rw [removeFound, removeEntry_eq hpos hle hindex hindex', hindex]
  rfl

/-- The search removes the first entry with the name. -/
theorem removeFound_entryLoop (hfile : a.header * file.length < 2 ^ a.width) :
    removeFound a direct filename remove file (entryLoop filename 1 file) =
      some (withoutEntry direct filename remove file
        ((file.findIdx? (hasName filename)).map (· + 1))) := by
  rw [entryLoop_eq]
  cases hi : file.findIdx? (hasName filename) with
  | none => rfl
  | some i =>
    obtain ⟨hlt, -⟩ := List.findIdx?_eq_some_iff_getElem.mp hi
    have hsmall : ∀ j : Nat, j ≤ i + 1 → a.index j = j := fun j hj => by
      refine Abi.index_of_lt (by omega) ?_
      exact_mod_cast Nat.lt_of_le_of_lt (Nat.mul_le_mul_left _ (by omega)) hfile
    have hent : (1 : Int) + (i : Nat) = (i + 1 : Nat) := by omega
    rw [Option.map_some, hent, removeFound_some (Nat.succ_pos i) hlt (hsmall _ (Nat.le_refl _)),
      Option.map_some]
    rw [Int.natCast_succ, Int.add_sub_cancel]
    exact hsmall i (Nat.le_succ i)

theorem isEntry_of_lt {k : Nat} (hmod : a.header * ent % 2 ^ a.width = (a.header * k : Nat))
    (hk : file.length < k) : isEntry a ent filename file = some false := by
  refine if_neg fun hcheck => ?_
  have hle := hcheck.2
  rw [hmod] at hle
  exact Nat.not_le.mpr hk (Nat.le_of_mul_le_mul_left (by exact_mod_cast hle) a.header_pos)

theorem isEntry_of_le {k : Nat} (hpos : 0 < ent)
    (hmod : a.header * ent % 2 ^ a.width = (a.header * k : Nat)) (hk : k ≤ file.length) :
    isEntry a ent filename file =
      (cell file (a.index (ent - 1))).map (hasName filename) := by
  refine if_pos ⟨hpos, ?_⟩
  rw [hmod]
  exact_mod_cast Nat.mul_le_mul_left _ hk

theorem fileNumber_of_lt (h : file.length < ent) :
    fileNumber ent (hasName filename) file =
      (file.findIdx? (hasName filename)).map (· + 1) := by
  refine if_neg fun hhere => ?_
  rw [List.getElem?_eq_none (by omega)] at hhere
  cases hhere.2

/-- The first entry with the name is the one with the number just if the search says so. -/
theorem findIdx?_eq_iff {k : Nat} {x : ArticleHeader} (hpos : 0 < k)
    (hx : file[k - 1]? = some x) :
    (file.findIdx? (hasName filename)).map (· + 1) = some k ↔
      searchRecord (hasName filename) file = some (k, x) := by
  rw [searchRecord]
  cases file.findIdx? (hasName filename) with
  | none => simp only [Option.map_none, Option.bind_none, reduceCtorEq]
  | some i =>
    rw [Option.map_some, Option.bind_some, Option.some.injEq]
    constructor
    · rintro rfl
      rw [Nat.add_sub_cancel] at hx
      rw [hx, Option.map_some]
    · intro h
      obtain ⟨y, -, hy⟩ := Option.map_eq_some_iff.mp h
      exact (Prod.mk.inj hy).1

/-- The check of the number, and what follows on it. -/
theorem isEntry_iff (hent : IsCInt ent) (hfile : a.header * file.length < 2 ^ a.width)
    (hne : file ≠ []) :
    ((isEntry a ent filename file).bind fun found =>
        removeFound a direct filename remove file
          (if found then some ent else entryLoop filename 1 file)) =
      some (withoutEntry direct filename remove file (fileNumber ent (hasName filename) file)) ↔
      HintFine a ent filename file := by
  have hsearch : removeFound a direct filename remove file (entryLoop filename 1 file) =
      some (withoutEntry direct filename remove file
        ((file.findIdx? (hasName filename)).map (· + 1))) := removeFound_entryLoop hfile
  by_cases hpos : 0 < ent
  case neg =>
    rw [isEntry, if_neg fun h => hpos h.1, fileNumber, if_neg fun h => hpos h.1, Option.bind_some,
      if_neg (by decide), hsearch]
    exact ⟨fun _ => .inl (by omega), fun _ => rfl⟩
  obtain ⟨k, hindex, hmod, hprev, hzero, hcut⟩ := Abi.index_spec hent hpos hfile
  by_cases hk : file.length < k
  · -- the entry seems to be behind the file, and so it is
    rw [isEntry_of_lt hmod hk, fileNumber_of_lt (by omega), Option.bind_some, if_neg (by decide),
      hsearch]
    exact ⟨fun _ => .inr (.inr (.inr (.inl (by omega)))), fun _ => rfl⟩
  by_cases hk0 : k = 0
  · -- the record in front of the file is read
    have hread : cell file (a.index (ent - 1)) = none := by
      have hle := hzero hk0
      rw [cell_of_nonneg (by omega)]
      exact List.getElem?_eq_none (by omega)
    rw [isEntry_of_le hpos hmod (by omega), hread]
    constructor
    · intro h
      cases h
    · rintro (h | h | h | h | h)
      · omega
      · exact absurd h hne
      · rcases hcut with heq | ⟨-, hle⟩
        · omega
        · exact absurd hle (Int.not_le.mpr h)
      · omega
      · omega
  have hkpos : 0 < k := Nat.pos_of_ne_zero hk0
  obtain ⟨x, hx⟩ : ∃ x, file[k - 1]? = some x := ⟨_, List.getElem?_eq_getElem (by omega)⟩
  have hread : cell file (a.index (ent - 1)) = some x := by
    rw [hprev hkpos, cell_of_nonneg (by omega), ← hx]
    congr 1
    omega
  have hfound : removeFound a direct filename remove file (some ent) =
      some (withoutEntry direct filename remove file (some k)) :=
    removeFound_some hkpos (by omega) hindex (hprev hkpos)
  rw [isEntry_of_le hpos hmod (by omega), hread, Option.map_some, Option.bind_some]
  rcases hcut with heq | ⟨hbehind, hwrap⟩
  · -- the entry is the record
    have hfine : HintFine a ent filename file := by
      refine .inr (.inr (.inl ?_))
      rw [heq]
      exact_mod_cast Nat.lt_of_le_of_lt (Nat.mul_le_mul_left _ (by omega)) hfile
    have hhere : (file[ent.toNat - 1]?).map (hasName filename) = some (hasName filename x) := by
      rw [heq, Int.toNat_natCast, hx, Option.map_some]
    refine ⟨fun _ => hfine, fun _ => ?_⟩
    rw [fileNumber, hhere, Option.getD_some]
    by_cases hname : hasName filename x = true
    · rw [if_pos hname, if_pos ⟨hpos, hname⟩, hfound, heq, Int.toNat_natCast]
    · rw [if_neg hname, if_neg fun h => hname h.2, hsearch]
  · -- the product was cut off to that of the record
    rw [fileNumber_of_lt hbehind]
    have hrec : ∀ y, getRecord (a.index ent) file = some y ↔ x = y := by
      intro y
      rw [hindex, getRecord, if_neg (by omega), Int.toNat_natCast, hx, Option.some.injEq]
    by_cases hname : hasName filename x = true
    · rw [if_pos hname, hfound, Option.some.injEq]
      have hsame : withoutEntry direct filename remove file (some k) =
          withoutEntry direct filename remove file
            ((file.findIdx? (hasName filename)).map (· + 1)) ↔
          (file.findIdx? (hasName filename)).map (· + 1) = some k := by
        refine ⟨fun h => ?_, fun h => by rw [h]⟩
        cases hn : (file.findIdx? (hasName filename)).map (· + 1) with
        | none =>
          rw [hn] at h
          cases congrArg DeleteResult.removed h
        | some n =>
          rw [hn] at h
          have hremoved : some (k : Int) = some (n : Int) := congrArg DeleteResult.removed h
          rw [Option.some.injEq, Int.natCast_inj] at hremoved
          rw [hremoved]
      rw [hsame, findIdx?_eq_iff hkpos hx]
      constructor
      · intro h
        refine .inr (.inr (.inr (.inr ⟨by omega, fun y hy _ => ?_⟩)))
        rw [← (hrec y).mp hy, hindex, Int.toNat_natCast]
        exact h
      · rintro (h | h | h | h | ⟨-, h⟩)
        · omega
        · exact absurd h hne
        · exact absurd hwrap (Int.not_le.mpr h)
        · omega
        · have hfirst := h x ((hrec x).mpr rfl) hname
          rwa [hindex, Int.toNat_natCast] at hfirst
    · rw [if_neg hname, hsearch]
      refine ⟨fun _ => .inr (.inr (.inr (.inr ⟨by omega, fun y hy hy' => ?_⟩))), fun _ => rfl⟩
      rw [← (hrec y).mp hy] at hy'
      exact absurd hy' hname

/-- In every index file, for every number and name: the call does what it is to do, just if it comes
to no check of a number, or the check is fine. -/
theorem delete_file_iff (hent : IsCInt ent) (hfile : a.header * file.length < 2 ^ a.width) :
    deleteFileAt a c direct ent filename remove file =
        some (deletedFile c direct ent filename remove file) ↔
      47 ∉ strlcpy (pathMax + 1) direct ∨ c.fails = true ∨ HintFine a ent filename file := by
  by_cases hslash : 47 ∉ strlcpy (pathMax + 1) direct
  · rw [deleteFileAt, deletedFile, if_pos hslash, if_pos (.inl hslash)]
    exact ⟨fun _ => .inl hslash, fun _ => rfl⟩
  by_cases hfails : c.fails = true
  · rw [deleteFileAt, deletedFile, if_neg hslash, if_pos (.inl hfails), if_pos (.inr hfails)]
    exact ⟨fun _ => .inr (.inl hfails), fun _ => rfl⟩
  by_cases hempty : file = []
  · subst hempty
    rw [deleteFileAt, deletedFile, if_neg hslash, if_pos (.inr rfl),
      if_neg (not_or.mpr ⟨hslash, hfails⟩)]
    have hnone : fileNumber ent (hasName filename) [] = none := by simp [fileNumber]
    rw [hnone]
    exact ⟨fun _ => .inr (.inr (.inr (.inl rfl))), fun _ => rfl⟩
  have hiff : (47 ∉ strlcpy (pathMax + 1) direct ∨ c.fails = true ∨ HintFine a ent filename file) ↔
      HintFine a ent filename file := by
    rw [or_iff_right hslash, or_iff_right hfails]
  rw [deleteFileAt, deletedFile, if_neg hslash, if_neg (not_or.mpr ⟨hfails, hempty⟩),
    if_neg (not_or.mpr ⟨hslash, hfails⟩), hiff]
  exact isEntry_iff hent hfile hempty

/-- With 64-bit words no number is cut off. -/
theorem hintFine_lp64 (hent : IsCInt ent) : HintFine .lp64 ent filename file := by
  refine .inr (.inr (.inl ?_))
  have hint : ent < 2 ^ 31 := hent.2
  change (136 : Nat) * ent < 2 ^ 64
  omega

/-- Three articles. -/
def demoArticles : List ArticleHeader :=
  [⟨⟨bytes "M.1.A", 1⟩, 0⟩, ⟨⟨bytes "M.2.A", 2⟩, 0⟩, ⟨⟨bytes "M.3.A", 3⟩, 0⟩]

theorem delete_file_demo :
    deleteFileAt .lp64 ⟨true, true, true⟩ (bytes "boards/test/.DIR") 7 (bytes "M.2.A") true
        demoArticles =
      some ⟨0, [⟨⟨bytes "M.1.A", 1⟩, 0⟩, ⟨⟨bytes "M.3.A", 3⟩, 0⟩], some 2,
        some (bytes "boards/test/M.2.A")⟩ :=
  (delete_file_iff (by decide) (by decide)).mpr (.inr (.inr (hintFine_lp64 (by decide))))

/-- With 32-bit words the product of the number 2 ^ 25 is 0, and the address is in front of the
mapping. -/
theorem delete_file_outside : ¬∀ (a : Abi) (c : DeleteCalls) (direct : Bytes) (ent : Int)
    (filename : Bytes) (remove : Bool) (file : List ArticleHeader), IsCInt ent →
      a.header * file.length < 2 ^ a.width →
        deleteFileAt a c direct ent filename remove file =
          some (deletedFile c direct ent filename remove file) := by
  intro hclaim
  have h := hclaim .ilp32 ⟨true, true, true⟩ (bytes "boards/test/.DIR") (2 ^ 25) (bytes "M.2.A") true
    demoArticles (by decide) (by decide)
  have hnone : deleteFileAt .ilp32 ⟨true, true, true⟩ (bytes "boards/test/.DIR") (2 ^ 25)
      (bytes "M.2.A") true demoArticles = none := by decide +kernel
  rw [hnone] at h
  cases h

end

end ArgoBbs

import ArgoBbs.Consts
import ArgoBbs.Lib.CString
import ArgoBbs.Lib.Cells
import ArgoBbs.Lib.Loop
import ArgoBbs.Record.Search
import Mathlib.Data.Nat.Find
import Mathlib.Order.Nat

/-! # Finding the next article of a thread

`locate_article` goes over the headers of a directory from an entry on, towards its end or its
beginning, to the nearest or to the last one that fits (`read.c`). Towards the beginning it leaves
out headers without a time when it looks for a thread, and gives up at one that is too old to be in
it. -/

namespace ArgoBbs

/-- The fields of a header that the search looks at. -/
structure ListHeader extends FileHeader where
  owner : Bytes
  title : Bytes
  id : BitVec 32
  deriving DecidableEq

/-- The loop of `strstr2`: it does not look at the second byte of a character of two bytes. A `char`
above 127 is negative. -/
def strstr2Loop (s2 : Bytes) : Bytes → Bool
  | [] => false
  | [c] => strncasecmpEq [c] s2 s2.length
  | c :: d :: p =>
    if strncasecmpEq (c :: d :: p) s2 s2.length then true
    else if 0x80 ≤ c ∧ 31 < d ∧ d < 0x80 then strstr2Loop s2 p
    else strstr2Loop s2 (d :: p)

/-- `strstr2(s, s2) != NULL`, after `strcasestr`. -/
def strstr2 (s s2 : Bytes) : Bool :=
  match s.tails.find? fun p => strncasecmpEq p s2 s2.length with
  | some p => strstr2Loop s2 p
  | none => false

/-- `LOCATE_FIRST`, `LOCATE_LAST`, `LOCATE_PREV` and `LOCATE_NEXT` -/
inductive LocateMode
  | first
  | last
  | prev
  | next
  deriving DecidableEq

/-- The criterion and its argument: `LOCATE_THREAD`, `LOCATE_AUTHOR`, `LOCATE_TITLE`, and
`LOCATE_TEXT` with `searchpattern` for the file of that name, which may leave the mapping of it. -/
inductive LocateArg
  | thread (id : BitVec 32)
  | author (name : Bytes)
  | title (s : Bytes)
  | text (searchpattern : Bytes → Option Bool)

def LocateMode.backward : LocateMode → Bool
  | .first | .prev => true
  | .last | .next => false

/-- `LOCATE_PREV` and `LOCATE_NEXT` end with the first match. -/
def LocateMode.nearest : LocateMode → Bool
  | .prev | .next => true
  | .first | .last => false

/-- What the body of the loop makes of a header. -/
inductive Visit
  | pass
  | hit
  /-- `return ent` -/
  | giveUp
  /-- the handler of `TRY` goes on behind the loop -/
  | fault
  deriving DecidableEq

/-- The body of the loop up to `match`. `unread` is `brc_unread`, whose answer does not depend on
earlier calls. -/
def LocateArg.visit (unread : Int → Bool) (new backward : Bool) (arg : LocateArg)
    (current : ListHeader) : Visit :=
  if new && !unread current.filetime then .pass
  else
    match arg with
    | .thread id =>
      if backward && current.filetime ≤ 0 then .pass
      else if backward && current.filetime < id.toInt - maxPostretry then .giveUp
      else if current.id = id then .hit else .pass
    | .author name => if strncasecmpEq current.owner name name.length then .hit else .pass
    | .title s => if strstr2 current.title s then .hit else .pass
    | .text searchpattern =>
      match searchpattern current.filename with
      | some true => .hit
      | some false => .pass
      | none => .fault

section
variable {α : Type}

/-- The entry that the search is at, and the last one that has matched. -/
structure LocateState where
  eid : Int
  ent : Int

/-- The loop: it ends with the result, and with the header that is copied. -/
def locateTurn (visit : α → Visit) (mode : LocateMode) (oldent : Int) (headers : List α)
    (s : LocateState) : Option (LocateState ⊕ (Int × Option α)) :=
  let inc : Int := if mode.backward then -1 else 1
  let behind : Int := if s.ent = oldent then -1 else s.ent
  match cell headers (s.eid - 1) with
  | none => some (.inr (behind, none))
  | some current =>
    match visit current with
    | .pass => some (.inl { s with eid := s.eid + inc })
    | .giveUp => some (.inr (s.ent, none))
    | .fault => some (.inr (behind, none))
    | .hit =>
      if mode.nearest then some (.inr (s.eid, some current))
      else some (.inl ⟨s.eid + inc, s.eid⟩)

end

/-- `locate_article` on a directory that it can map: the result, and what it copies to `header`. -/
def locateArticle (unread : Int → Bool) (headers : List ListHeader) (ent : Int) (mode : LocateMode)
    (new : Bool) (arg : LocateArg) : Option (Int × Option ListHeader) :=
  if headers.length = 0 then some (-1, none)
  else
    loop (locateTurn (arg.visit unread new mode.backward) mode ent headers) (headers.length + 1)
      ⟨ent + if mode.backward then -1 else 1, ent⟩

/-! ## The loop as a search in a list -/

/-- The number of the match that the loop ends with, and whether it gives up, for what its body
makes of the headers. -/
def scanVisits (nearest : Bool) : List Visit → Option Nat × Bool
  | [] => (none, false)
  | .pass :: vs => ((scanVisits nearest vs).1.map (· + 1), (scanVisits nearest vs).2)
  | .giveUp :: _ => (none, true)
  | .fault :: _ => (none, false)
  | .hit :: vs =>
    if nearest then (some 0, false)
    else (some (((scanVisits nearest vs).1.map (· + 1)).getD 0), (scanVisits nearest vs).2)

/-- The loop does not go on behind this header. -/
def Visit.ends (v : Visit) : Prop := v = .giveUp ∨ v = .fault

section
variable {nearest : Bool} {vs : List Visit}

/-- Without a match: none comes before the loop is ended, and it gives up if that is what ends it.
-/
theorem scanVisits_none (h : (scanVisits nearest vs).1 = none) :
    (∀ s : Nat, vs[s]? = some .hit → ∃ r < s, ∃ v, vs[r]? = some v ∧ v.ends) ∧
      ((scanVisits nearest vs).2 = true ↔
        ∃ s : Nat, vs[s]? = some .giveUp ∧ ∀ r < s, vs[r]? ≠ some .fault) := by
  induction vs with
  | nil =>
    refine ⟨fun s hs => ?_, iff_of_false Bool.false_ne_true ?_⟩
    · cases hs
    · rintro ⟨s, hs, -⟩
      cases hs
  | cons v vs ih =>
    cases v with
    | pass =>
      rw [scanVisits, Option.map_eq_none_iff] at h
      obtain ⟨hhit, hgive⟩ := ih h
      constructor
      · rintro (_ | s) hs
        · cases hs
        · obtain ⟨r, hr, v, hv⟩ := hhit s hs
          exact ⟨r + 1, Nat.succ_lt_succ hr, v, hv⟩
      · rw [scanVisits, hgive]
        constructor
        · rintro ⟨s, hs, hno⟩
          refine ⟨s + 1, hs, ?_⟩
          rintro (_ | r) hr
          · exact nofun
          · exact hno r (Nat.lt_of_succ_lt_succ hr)
        · rintro ⟨_ | s, hs, hno⟩
          · cases hs
          · exact ⟨s, hs, fun r hr => hno (r + 1) (Nat.succ_lt_succ hr)⟩
    | giveUp =>
      refine ⟨?_, iff_of_true rfl ⟨0, rfl, fun r hr => absurd hr (Nat.not_lt_zero r)⟩⟩
      rintro (_ | s) hs
      · cases hs
      · exact ⟨0, Nat.succ_pos s, .giveUp, rfl, .inl rfl⟩
    | fault =>
      refine ⟨?_, iff_of_false Bool.false_ne_true ?_⟩
      · rintro (_ | s) hs
        · cases hs
        · exact ⟨0, Nat.succ_pos s, .fault, rfl, .inr rfl⟩
      · rintro ⟨_ | s, hs, hno⟩
        · cases hs
        · exact hno 0 (Nat.succ_pos s) rfl
    | hit =>
      rw [scanVisits] at h
      split at h <;> cases h

/-- A match that the loop ends with: nothing has ended it before, and it is the first one, or the
last one in front of what ends it. -/
theorem scanVisits_some {i : Nat} (h : (scanVisits nearest vs).1 = some i) :
    vs[i]? = some .hit ∧ (∀ s ≤ i, ∀ v, vs[s]? = some v → ¬v.ends) ∧
      (nearest = true → ∀ s < i, vs[s]? ≠ some .hit) ∧
      (nearest = false → ∀ s > i, vs[s]? = some .hit → ∃ r < s, ∃ v, vs[r]? = some v ∧ v.ends) := by
  have hends (v : Visit) (hv : v = .pass ∨ v = .hit) : ¬v.ends := by
    rintro (rfl | rfl) <;> exact hv.elim nofun nofun
  -- what holds of the rest holds behind a header that does not end the loop
  have hcons (v : Visit) (vs : List Visit) (i : Nat) (hv : v = .pass ∨ v = .hit)
      (hfirst : nearest = true → v ≠ .hit)
      (h : vs[i]? = some .hit ∧ (∀ s ≤ i, ∀ v, vs[s]? = some v → ¬v.ends) ∧
        (nearest = true → ∀ s < i, vs[s]? ≠ some .hit) ∧
        (nearest = false → ∀ s > i, vs[s]? = some .hit → ∃ r < s, ∃ v, vs[r]? = some v ∧ v.ends)) :
      (v :: vs)[i + 1]? = some .hit ∧ (∀ s ≤ i + 1, ∀ w, (v :: vs)[s]? = some w → ¬w.ends) ∧
        (nearest = true → ∀ s < i + 1, (v :: vs)[s]? ≠ some .hit) ∧
        (nearest = false → ∀ s > i + 1, (v :: vs)[s]? = some .hit →
          ∃ r < s, ∃ w, (v :: vs)[r]? = some w ∧ w.ends) := by
    obtain ⟨hhit, hgoes, hnear, hfar⟩ := h
    refine ⟨hhit, ?_, fun hn => ?_, fun hn => ?_⟩
    · rintro (_ | s) hs w hw
      · cases hw
        exact hends v hv
      · exact hgoes s (Nat.le_of_succ_le_succ hs) w hw
    · rintro (_ | s) hs hw
      · cases hw
        exact hfirst hn rfl
      · exact hnear hn s (Nat.lt_of_succ_lt_succ hs) hw
    · rintro (_ | s) hs hw
      · exact absurd hs (Nat.not_lt_zero _)
      · obtain ⟨r, hr, w, hw⟩ := hfar hn s (Nat.lt_of_succ_lt_succ hs) hw
        exact ⟨r + 1, Nat.succ_lt_succ hr, w, hw⟩
  induction vs generalizing i with
  | nil => cases h
  | cons v vs ih =>
    cases v with
    | pass =>
      obtain ⟨j, hj, rfl⟩ := Option.map_eq_some_iff.mp h
      exact hcons .pass vs j (.inl rfl) nofun (ih hj)
    | giveUp | fault => cases h
    | hit =>
      rw [scanVisits] at h
      split at h
      case isTrue hn =>
        cases h
        refine ⟨rfl, ?_, fun _ s hs => absurd hs (Nat.not_lt_zero s), fun hf => ?_⟩
        · rintro (_ | s) hs w hw
          · cases hw
            exact hends .hit (.inr rfl)
          · exact absurd hs (Nat.not_succ_le_zero s)
        · rw [hn] at hf
          cases hf
      case isFalse hn =>
        cases hrest : (scanVisits nearest vs).1 with
        | some j =>
          rw [hrest] at h
          cases h
          exact hcons .hit vs j (.inr rfl) (fun h => absurd h hn) (ih hrest)
        | none =>
          rw [hrest] at h
          cases h
          refine ⟨rfl, ?_, fun h => absurd h hn, fun _ => ?_⟩
          · rintro (_ | s) hs w hw
            · cases hw
              exact hends .hit (.inr rfl)
            · exact absurd hs (Nat.not_succ_le_zero s)
          · rintro (_ | s) hs hw
            · exact absurd hs (Nat.not_lt_zero _)
            · obtain ⟨r, hr, w, hw⟩ := (scanVisits_none hrest).1 s hw
              exact ⟨r + 1, Nat.succ_lt_succ hr, w, hw⟩

/-- The first number, or the last one. -/
def IsTarget (nearest : Bool) (fits : Nat → Prop) (t : Nat) : Prop :=
  fits t ∧ ∀ j, fits j → if nearest then t ≤ j else j ≤ t

section
variable {fits : Nat → Prop}

theorem IsTarget.unique {t t' : Nat} (h : IsTarget nearest fits t) (h' : IsTarget nearest fits t') :
    t = t' := by
  have hle := h.2 t' h'.1
  have hge := h'.2 t h.1
  cases nearest with
  | true => exact Nat.le_antisymm hle hge
  | false => exact Nat.le_antisymm hge hle

open Classical in
theorem exists_target (nearest : Bool) {n : Nat} (hlen : ∀ i, fits i → i < n) {i : Nat}
    (hi : fits i) : ∃ t, IsTarget nearest fits t := by
  cases nearest with
  | true => exact ⟨Nat.find ⟨i, hi⟩, Nat.find_spec ⟨i, hi⟩, fun j hj => Nat.find_min' _ hj⟩
  | false =>
    have hle (j : Nat) (hj : fits j) : j ≤ n := Nat.le_of_lt (hlen j hj)
    exact ⟨Nat.findGreatest fits n, Nat.findGreatest_spec (hle i hi) hi,
      fun j hj => Nat.le_findGreatest (hle j hj) hj⟩

/-- The loop ends with the number that is looked for, or with none where there is none, just if that
is a match, nothing ends the loop before it, and the loop does not give up where there is none. -/
theorem scanVisits_target_iff (hfits : ∀ i : Nat, vs[i]? = some .hit → fits i)
    (hlen : ∀ i, fits i → i < vs.length)
    (hmix : ∀ i j : Nat, vs[i]? = some .giveUp → vs[j]? ≠ some .fault) :
    (∃ t, IsTarget nearest fits t ∧ (scanVisits nearest vs).1 = some t) ∨
        (∀ i, ¬fits i) ∧ scanVisits nearest vs = (none, false) ↔
      (∀ t, IsTarget nearest fits t → vs[t]? = some .hit) ∧
        (∀ i : Nat, (∀ t, IsTarget nearest fits t → i ≤ t) → vs[i]? ≠ some .giveUp) ∧
        ∀ t, IsTarget nearest fits t → ∀ i ≤ t, vs[i]? ≠ some .fault := by
  constructor
  · rintro (⟨t, ht, hscan⟩ | ⟨hnone, hscan⟩)
    · obtain ⟨hhit, hgoes, -, -⟩ := scanVisits_some hscan
      refine ⟨fun t' ht' => ht.unique ht' ▸ hhit, fun i hi h => ?_, fun t' ht' i hi h => ?_⟩
      · exact hgoes i (hi t ht) _ h (.inl rfl)
      · exact hgoes i (ht.unique ht' ▸ hi) _ h (.inr rfl)
    · refine ⟨fun t ht => absurd ht.1 (hnone t), fun i _ h => ?_, fun t ht => absurd ht.1 (hnone t)⟩
      have hgive := (scanVisits_none (congrArg Prod.fst hscan)).2.mpr
        ⟨i, h, fun r _ => hmix i r h⟩
      rw [hscan] at hgive
      cases hgive
  · rintro ⟨hhit, hgive, hfault⟩
    by_cases h : ∃ i, fits i
    · obtain ⟨i, hi⟩ := h
      obtain ⟨t, ht⟩ := exists_target nearest hlen hi
      have hgoes : ∀ r ≤ t, ∀ v, vs[r]? = some v → ¬v.ends := by
        rintro r hr v hv (rfl | rfl)
        · exact hgive r (fun t' ht' => ht.unique ht' ▸ hr) hv
        · exact hfault t ht r hr hv
      refine .inl ⟨t, ht, ?_⟩
      cases hscan : (scanVisits nearest vs).1 with
      | none =>
        obtain ⟨r, hr, v, hv, hends⟩ := (scanVisits_none hscan).1 t (hhit t ht)
        exact absurd hends (hgoes r (Nat.le_of_lt hr) v hv)
      | some j =>
        obtain ⟨hj, -, hnear, hfar⟩ := scanVisits_some hscan
        have htj := ht.2 j (hfits j hj)
        rcases Nat.lt_trichotomy j t with hlt | rfl | hlt
        · cases nearest with
          | true => exact absurd hlt (Nat.not_lt.mpr htj)
          | false =>
            obtain ⟨r, hr, v, hv, hends⟩ := hfar rfl t hlt (hhit t ht)
            exact absurd hends (hgoes r (Nat.le_of_lt hr) v hv)
        · rfl
        · cases nearest with
          | true => exact absurd (hhit t ht) (hnear rfl t hlt)
          | false => exact absurd hlt (Nat.not_lt.mpr htj)
    · refine .inr ⟨fun i hi => h ⟨i, hi⟩, ?_⟩
      have hno (t : Nat) : ¬IsTarget nearest fits t := fun ht => h ⟨t, ht.1⟩
      cases hscan : scanVisits nearest vs with
      | mk found gave =>
        cases found with
        | some j => exact absurd ⟨j, hfits j (scanVisits_some (congrArg Prod.fst hscan)).1⟩ h
        | none =>
          cases gave with
          | false => rfl
          | true =>
            obtain ⟨s, hs, -⟩ := (scanVisits_none (congrArg Prod.fst hscan)).2.mp
              (congrArg Prod.snd hscan)
            exact absurd hs (hgive s fun t ht => absurd ht (hno t))

end

end

/-! ## The entries of the directory -/

section
variable {α : Type} {headers : List α} {visit : α → Visit} {mode : LocateMode} {ent : Int}

/-- The entry with the number `k` on the way. -/
def LocateMode.entry (mode : LocateMode) (ent : Int) (k : Nat) : Int :=
  ent + (if mode.backward then -1 else 1) * (k + 1)

/-- The headers on the way. -/
def LocateMode.way (mode : LocateMode) (ent : Int) (headers : List α) : List α :=
  if mode.backward then (headers.take (ent - 1).toNat).reverse else headers.drop ent.toNat

theorem LocateMode.cell_entry (mode : LocateMode) (h1 : 1 ≤ ent) (hn : ent ≤ headers.length)
    (k : Nat) : cell headers (mode.entry ent k - 1) = (mode.way ent headers)[k]? := by
  obtain ⟨i, rfl⟩ : ∃ i : Nat, ent = i + 1 := ⟨(ent - 1).toNat, by omega⟩
  rw [entry, way]
  cases mode.backward with
  | true =>
    rw [if_pos rfl, if_pos rfl, Int.add_sub_cancel, Int.toNat_natCast]
    have hlen : (headers.take i).length = i := List.length_take_of_le (by omega)
    rcases Nat.lt_or_ge k i with hlt | hge
    · rw [List.getElem?_reverse (by omega), hlen, List.getElem?_take_of_lt (by omega),
        show (i : Int) + 1 + -1 * (k + 1) - 1 = (i - 1 - k : Nat) by omega, cell_nat]
    · rw [List.getElem?_eq_none (by rw [List.length_reverse]; omega), cell, if_pos (by omega)]
  | false =>
    rw [if_neg Bool.false_ne_true, if_neg Bool.false_ne_true, List.getElem?_drop,
      show (i : Int) + 1 + 1 * (k + 1) - 1 = (((i : Int) + 1).toNat + k : Nat) by omega, cell_nat]

theorem LocateMode.entry_ne (mode : LocateMode) (ent : Int) (k : Nat) : mode.entry ent k ≠ ent := by
  rw [entry]
  split <;> omega

theorem LocateMode.entry_succ (mode : LocateMode) (ent : Int) (k : Nat) :
    mode.entry ent k + (if mode.backward then -1 else 1) = mode.entry ent (k + 1) := by
  rw [entry, entry]
  split <;> omega

/-- What the call returns for the number of a match on the way. -/
def LocateMode.result (mode : LocateMode) (ent : Int) (headers : List α) (found : Option Nat)
    (gave : Bool) : Int × Option α :=
  (found.elim (if gave then ent else -1) (mode.entry ent),
    if mode.nearest then found.bind fun k => (mode.way ent headers)[k]? else none)

/-- The loop from the number `k` on, with what has matched before. -/
theorem locate_loop (visit : α → Visit) (h1 : 1 ≤ ent) (hn : ent ≤ headers.length) {fuel k : Nat}
    {best : Option Nat} (hbest : mode.nearest = true → best = none)
    (hfuel : (mode.way ent headers).length - k < fuel) :
    loop (locateTurn visit mode ent headers) fuel
        ⟨mode.entry ent k, best.elim ent (mode.entry ent)⟩ =
      some (mode.result ent headers
        (((scanVisits mode.nearest (((mode.way ent headers).drop k).map visit)).1.map (k + ·)).or best)
        (scanVisits mode.nearest (((mode.way ent headers).drop k).map visit)).2) := by
  induction fuel generalizing k best with
  | zero => exact absurd hfuel (Nat.not_lt_zero _)
  | succ fuel ih =>
    have hbehind : (if best.elim ent (mode.entry ent) = ent then -1
        else best.elim ent (mode.entry ent)) = best.elim (-1) (mode.entry ent) := by
      cases best with
      | none => exact if_pos rfl
      | some j => exact if_neg (mode.entry_ne ent j)
    have hcopied : (if mode.nearest = true then best.bind fun k => (mode.way ent headers)[k]?
        else none) = none := by
      split
      case isTrue hnear =>
        rw [hbest hnear]
        rfl
      case isFalse => rfl
    have hshift (o : Option Nat) : (o.map (· + 1)).map (k + ·) = o.map (k + 1 + ·) := by
      rw [Option.map_map]
      refine congrArg (Option.map · o) (funext fun j => ?_)
      exact (Nat.add_right_comm k 1 j).symm ▸ (Nat.add_assoc k j 1).symm
    rw [loop, locateTurn, mode.cell_entry h1 hn k]
    rcases Nat.lt_or_ge k (mode.way ent headers).length with hlt | hge
    · have hget := List.getElem?_eq_getElem hlt
      rw [hget, List.drop_eq_getElem_cons hlt, List.map_cons]
      dsimp only
      cases hv : visit (mode.way ent headers)[k] with
      | pass =>
        dsimp only
        rw [mode.entry_succ, scanVisits, ih hbest (by omega), hshift]
      | giveUp =>
        simp only [scanVisits, Option.map_none, Option.none_or, LocateMode.result, hcopied, if_true]
      | fault =>
        simp only [scanVisits, Option.map_none, Option.none_or, LocateMode.result, hcopied, hbehind,
          Bool.false_eq_true, if_false]
      | hit =>
        dsimp only
        rw [scanVisits]
        by_cases hnear : mode.nearest = true
        · rw [if_pos hnear, if_pos hnear]
          simp only [LocateMode.result, hbest hnear, hnear, if_true, Option.map_some, Nat.add_zero,
            Option.or_none, Option.bind_some, hget, Option.elim_some]
        · have hih := @ih (k + 1) (some k) (fun h => absurd h hnear) (by omega)
          rw [if_neg hnear, if_neg hnear]
          dsimp only
          rw [mode.entry_succ]
          refine hih.trans ?_
          rw [Option.map_some, Option.some_or]
          cases (scanVisits mode.nearest (((mode.way ent headers).drop (k + 1)).map visit)).1 with
          | none => rfl
          | some j => rw [Option.map_some, Option.some_or, Option.map_some, Option.getD_some,
              Nat.add_right_comm, Nat.add_assoc]
    · rw [List.getElem?_eq_none hge, List.drop_eq_nil_of_le hge]
      dsimp only
      rw [hbehind]
      simp only [List.map_nil, scanVisits, Option.map_none, Option.none_or, LocateMode.result,
        hcopied, Bool.false_eq_true, if_false]

end

/-! ## What the call is for -/

/-- The entry is on the side of `ent` to which the search goes. -/
def LocateMode.side (mode : LocateMode) (ent i : Int) : Prop :=
  if mode.backward then i < ent else ent < i

/-- The search comes to `i` no later than to `t`. -/
def LocateMode.upTo (mode : LocateMode) (t i : Int) : Prop := if mode.backward then t ≤ i else i ≤ t

/-- Of two entries that fit, the mode asks for `i` rather than for `j`. -/
def LocateMode.prefers : LocateMode → Int → Int → Prop
  | .first, i, j | .next, i, j => i ≤ j
  | .prev, i, j | .last, i, j => j ≤ i

section
variable {α : Type}

/-- The entry that a call is for, with its header. -/
structure LocateTarget (mode : LocateMode) (ent : Int) (headers : List α) (fits : α → Bool) (i : Int)
    (x : α) : Prop where
  side : mode.side ent i
  header : cell headers (i - 1) = some x
  fitting : fits x = true
  best : ∀ j y, mode.side ent j → cell headers (j - 1) = some y → fits y = true → mode.prefers i j

/-- The call gives this entry, and copies the header where it ends with the first match; or it gives
`-1`, and no entry on that side fits. -/
def Located (mode : LocateMode) (ent : Int) (headers : List α) (fits : α → Bool)
    (out : Int × Option α) : Prop :=
  (∃ i x, LocateTarget mode ent headers fits i x ∧ out.1 = i ∧
    (mode.nearest = true → out.2 = some x)) ∨
  (∀ i x, mode.side ent i → cell headers (i - 1) = some x → fits x = false) ∧ out.1 = -1

variable {headers : List α} {fits : α → Bool} {mode : LocateMode} {ent i : Int} {x : α}

theorem LocateMode.side_entry (mode : LocateMode) (ent : Int) (k : Nat) :
    mode.side ent (mode.entry ent k) := by
  rw [side, entry]
  split <;> omega

theorem LocateMode.side_iff : mode.side ent i ↔ ∃ k, i = mode.entry ent k := by
  constructor
  · intro h
    unfold side at h
    unfold entry
    split at h
    case isTrue hback =>
      refine ⟨(ent - i - 1).toNat, ?_⟩
      rw [if_pos hback]
      omega
    case isFalse hback =>
      refine ⟨(i - ent - 1).toNat, ?_⟩
      rw [if_neg hback]
      omega
  · rintro ⟨k, rfl⟩
    exact mode.side_entry ent k

theorem LocateMode.entry_inj {k k' : Nat} (h : mode.entry ent k = mode.entry ent k') : k = k' := by
  rw [entry, entry] at h
  split at h <;> omega

theorem LocateMode.upTo_entry {k k' : Nat} :
    mode.upTo (mode.entry ent k) (mode.entry ent k') ↔ k' ≤ k := by
  rw [upTo, entry, entry]
  split <;> omega

theorem LocateMode.prefers_entry {k k' : Nat} :
    mode.prefers (mode.entry ent k) (mode.entry ent k') ↔
      if mode.nearest = true then k ≤ k' else k' ≤ k := by
  rw [entry, entry]
  cases mode <;> simp only [prefers, backward, nearest, Bool.false_eq_true, if_true, if_false] <;>
    omega

/-- The number on the way fits. -/
def FitsAt (mode : LocateMode) (ent : Int) (headers : List α) (fits : α → Bool) (k : Nat) : Prop :=
  ∃ x, (mode.way ent headers)[k]? = some x ∧ fits x = true

theorem locateTarget_entry (h1 : 1 ≤ ent) (hn : ent ≤ headers.length) {k : Nat}
    (hx : (mode.way ent headers)[k]? = some x) :
    LocateTarget mode ent headers fits (mode.entry ent k) x ↔
      IsTarget mode.nearest (FitsAt mode ent headers fits) k := by
  constructor
  · intro h
    refine ⟨⟨x, hx, h.fitting⟩, fun j ⟨y, hy, hfits⟩ => ?_⟩
    rw [← mode.cell_entry h1 hn] at hy
    exact LocateMode.prefers_entry.mp (h.best _ y (mode.side_entry ent j) hy hfits)
  · rintro ⟨⟨x', hx', hfits⟩, hbest⟩
    rw [hx] at hx'
    cases hx'
    refine ⟨mode.side_entry ent k, (mode.cell_entry h1 hn k).trans hx, hfits, fun j y hj hy hfy => ?_⟩
    obtain ⟨k', rfl⟩ := LocateMode.side_iff.mp hj
    rw [mode.cell_entry h1 hn] at hy
    exact LocateMode.prefers_entry.mpr (hbest k' ⟨y, hy, hfy⟩)

theorem locateTarget_iff (h1 : 1 ≤ ent) (hn : ent ≤ headers.length) :
    LocateTarget mode ent headers fits i x ↔ ∃ k, i = mode.entry ent k ∧
      (mode.way ent headers)[k]? = some x ∧
        IsTarget mode.nearest (FitsAt mode ent headers fits) k := by
  constructor
  · intro h
    obtain ⟨k, rfl⟩ := LocateMode.side_iff.mp h.side
    have hx := (mode.cell_entry h1 hn k).symm.trans h.header
    exact ⟨k, rfl, hx, (locateTarget_entry h1 hn hx).mp h⟩
  · rintro ⟨k, rfl, hx, ht⟩
    exact (locateTarget_entry h1 hn hx).mpr ht

/-- The result is right just if the loop ends with the number that is looked for, or with none where
there is none. -/
theorem located_iff_scan (h1 : 1 ≤ ent) (hn : ent ≤ headers.length)
    {found : Option Nat} {gave : Bool}
    (hfound : ∀ k, found = some k → k < (mode.way ent headers).length) :
    Located mode ent headers fits (mode.result ent headers found gave) ↔
      (∃ t, IsTarget mode.nearest (FitsAt mode ent headers fits) t ∧ found = some t) ∨
        (∀ k, ¬FitsAt mode ent headers fits k) ∧ (found, gave) = (none, false) := by
  have hpos {k : Nat} (hk : k < (mode.way ent headers).length) : 1 ≤ mode.entry ent k := by
    have hcell := mode.cell_entry h1 hn k
    rw [List.getElem?_eq_getElem hk, cell] at hcell
    split at hcell
    · cases hcell
    · omega
  have hnone : (∀ i x, mode.side ent i → cell headers (i - 1) = some x → fits x = false) ↔
      ∀ k, ¬FitsAt mode ent headers fits k := by
    constructor
    · rintro h k ⟨x, hx, hfits⟩
      rw [h _ x (mode.side_entry ent k) ((mode.cell_entry h1 hn k).trans hx)] at hfits
      cases hfits
    · intro h i x hi hx
      obtain ⟨k, rfl⟩ := LocateMode.side_iff.mp hi
      rw [mode.cell_entry h1 hn] at hx
      exact Bool.eq_false_iff.mpr fun hfits => h k ⟨x, hx, hfits⟩
  refine or_congr ?_ (and_congr hnone ?_)
  · constructor
    · rintro ⟨i, x, ht, hret, -⟩
      obtain ⟨k, rfl, hx, ht⟩ := (locateTarget_iff h1 hn).mp ht
      refine ⟨k, ht, ?_⟩
      have hk := hpos (List.getElem?_eq_some_iff.mp hx).1
      cases found with
      | some j => rw [mode.entry_inj hret]
      | none =>
        have hne := mode.entry_ne ent k
        rw [LocateMode.result, Option.elim_none] at hret
        dsimp only at hret
        split at hret <;> omega
    · rintro ⟨t, ht, rfl⟩
      obtain ⟨x, hx, hfits⟩ := ht.1
      refine ⟨_, x, (locateTarget_entry h1 hn hx).mpr ht, rfl, fun hnear => ?_⟩
      rw [LocateMode.result, if_pos hnear]
      exact hx
  · cases found with
    | some j =>
      have hj := hpos (hfound j rfl)
      refine iff_of_false (fun hret => ?_) nofun
      rw [LocateMode.result, Option.elim_some] at hret
      dsimp only at hret
      omega
    | none =>
      cases gave with
      | false => exact iff_of_true rfl rfl
      | true =>
        refine iff_of_false (fun hret => ?_) nofun
        rw [LocateMode.result, Option.elim_none, if_pos rfl] at hret
        dsimp only at hret
        omega

end

/-- The header fits the criterion and, with `LOCATE_NEW`, is unread. -/
def LocateArg.fits (unread : Int → Bool) (new : Bool) (arg : LocateArg) (x : ListHeader) : Bool :=
  (!new || unread x.filetime) &&
    match arg with
    | .thread id => x.id == id
    | .author name => strncasecmpEq x.owner name name.length
    | .title s => strstr2 x.title s
    | .text searchpattern => searchpattern x.filename == some true

/-- Where a call is right. Towards the beginning of a thread: up to the entry that is looked for, or
up to the first of the directory if there is none, no entry with a time is too old, and the entry
itself has a time. For a text: no file leaves its mapping up to the entry that is looked for. -/
def LocateMeets (unread : Int → Bool) (headers : List ListHeader) (ent : Int) (mode : LocateMode)
    (new : Bool) (arg : LocateArg) : Prop :=
  match arg with
  | .thread id => mode.backward = true →
    (∀ t x, LocateTarget mode ent headers (arg.fits unread new) t x → 0 < x.filetime) ∧
      ∀ i x, mode.side ent i → cell headers (i - 1) = some x →
        (∀ t y, LocateTarget mode ent headers (arg.fits unread new) t y → mode.upTo t i) →
        (new = true → unread x.filetime = true) → 0 < x.filetime →
        id.toInt - maxPostretry ≤ x.filetime
  | .author _ | .title _ => True
  | .text searchpattern => ∀ t y, LocateTarget mode ent headers (arg.fits unread new) t y →
    ∀ i x, mode.side ent i → cell headers (i - 1) = some x → mode.upTo t i →
      (new = true → unread x.filetime = true) → searchpattern x.filename ≠ none

section
variable {unread : Int → Bool} {new : Bool} {arg : LocateArg} {headers : List ListHeader}
  {mode : LocateMode} {ent : Int} {x : ListHeader}

theorem LocateArg.fits_unread (h : arg.fits unread new x = true) :
    new = true → unread x.filetime = true := by
  unfold fits at h
  rintro rfl
  exact (Bool.and_eq_true_iff.mp h).1

theorem LocateArg.visit_giveUp {backward : Bool} :
    arg.visit unread new backward x = .giveUp ↔
      ∃ id, arg = .thread id ∧ backward = true ∧ (new = true → unread x.filetime = true) ∧
        0 < x.filetime ∧ x.filetime < id.toInt - maxPostretry := by
  unfold visit
  cases arg with
  | thread id => cases new <;> cases backward <;> simp <;> grind
  | author name | title s => cases new <;> simp <;> grind
  | text searchpattern => cases new <;> cases h : searchpattern x.filename <;> simp <;> grind

theorem LocateArg.visit_fault {backward : Bool} :
    arg.visit unread new backward x = .fault ↔
      ∃ searchpattern, arg = .text searchpattern ∧ (new = true → unread x.filetime = true) ∧
        searchpattern x.filename = none := by
  unfold visit
  cases arg with
  | thread id => cases new <;> cases backward <;> simp <;> grind
  | author name | title s => cases new <;> simp <;> grind
  | text searchpattern => cases new <;> cases h : searchpattern x.filename <;> simp <;> grind

theorem LocateArg.visit_hit {backward : Bool} :
    arg.visit unread new backward x = .hit ↔ arg.fits unread new x = true ∧
      ∀ id, arg = .thread id → backward = true →
        0 < x.filetime ∧ id.toInt - maxPostretry ≤ x.filetime := by
  unfold visit fits
  cases arg with
  | thread id => cases new <;> cases backward <;> simp <;> grind
  | author name | title s => cases new <;> grind
  | text searchpattern => cases new <;> cases h : searchpattern x.filename <;> grind

/-- What the body makes of the header with the number `k` on the way. -/
theorem getElem?_visits {visit : ListHeader → Visit} {k : Nat} {v : Visit} :
    ((mode.way ent headers).map visit)[k]? = some v ↔
      ∃ x, (mode.way ent headers)[k]? = some x ∧ visit x = v := by
  rw [List.getElem?_map, Option.map_eq_some_iff]

/-- Up to the entry that is looked for, on the way. -/
theorem upTo_target_iff (h1 : 1 ≤ ent) (hn : ent ≤ headers.length) {fits : ListHeader → Bool}
    {k : Nat} :
    (∀ t y, LocateTarget mode ent headers fits t y → mode.upTo t (mode.entry ent k)) ↔
      ∀ t, IsTarget mode.nearest (FitsAt mode ent headers fits) t → k ≤ t := by
  constructor
  · intro h t ht
    obtain ⟨y, hy, -⟩ := ht.1
    exact LocateMode.upTo_entry.mp (h _ y ((locateTarget_entry h1 hn hy).mpr ht))
  · intro h t y ht
    obtain ⟨t, rfl, -, ht⟩ := (locateTarget_iff h1 hn).mp ht
    exact LocateMode.upTo_entry.mpr (h t ht)

/-- The condition says what the body makes of the headers on the way. -/
theorem locateMeets_iff (h1 : 1 ≤ ent) (hn : ent ≤ headers.length) :
    LocateMeets unread headers ent mode new arg ↔
      (∀ t, IsTarget mode.nearest (FitsAt mode ent headers (arg.fits unread new)) t →
        ((mode.way ent headers).map (arg.visit unread new mode.backward))[t]? = some .hit) ∧
      (∀ i : Nat,
        (∀ t, IsTarget mode.nearest (FitsAt mode ent headers (arg.fits unread new)) t → i ≤ t) →
        ((mode.way ent headers).map (arg.visit unread new mode.backward))[i]? ≠ some .giveUp) ∧
      ∀ t, IsTarget mode.nearest (FitsAt mode ent headers (arg.fits unread new)) t → ∀ i ≤ t,
        ((mode.way ent headers).map (arg.visit unread new mode.backward))[i]? ≠ some .fault := by
  constructor
  · intro h
    refine ⟨fun t ht => ?_, fun i hi hv => ?_, fun t ht i hi hv => ?_⟩
    · obtain ⟨x, hx, hfits⟩ := ht.1
      refine getElem?_visits.mpr ⟨x, hx, LocateArg.visit_hit.mpr ⟨hfits, ?_⟩⟩
      rintro id rfl hback
      obtain ⟨htime, hold⟩ := h hback
      have hpos := htime _ x ((locateTarget_entry h1 hn hx).mpr ht)
      refine ⟨hpos, hold _ x (mode.side_entry ent t) ((mode.cell_entry h1 hn t).trans hx) ?_
        (LocateArg.fits_unread hfits) hpos⟩
      exact (upTo_target_iff h1 hn).mpr fun t' ht' => (ht.unique ht').le
    · obtain ⟨x, hx, hv⟩ := getElem?_visits.mp hv
      obtain ⟨id, rfl, hback, hunread, hpos, hlt⟩ := LocateArg.visit_giveUp.mp hv
      have hle := (h hback).2 _ x (mode.side_entry ent i) ((mode.cell_entry h1 hn i).trans hx)
        ((upTo_target_iff h1 hn).mpr hi) hunread hpos
      exact absurd hlt (Int.not_lt.mpr hle)
    · obtain ⟨x, hx, hv⟩ := getElem?_visits.mp hv
      obtain ⟨searchpattern, rfl, hunread, hnone⟩ := LocateArg.visit_fault.mp hv
      obtain ⟨y, hy, -⟩ := ht.1
      exact h _ y ((locateTarget_entry h1 hn hy).mpr ht) _ x (mode.side_entry ent i)
        ((mode.cell_entry h1 hn i).trans hx) (LocateMode.upTo_entry.mpr hi) hunread hnone
  · rintro ⟨hhit, hgive, hfault⟩
    unfold LocateMeets
    cases arg with
    | author name | title s => trivial
    | thread id =>
      intro hback
      refine ⟨fun t x ht => ?_, fun i x hi hx hup hunread hpos => ?_⟩
      · obtain ⟨t, rfl, hx, ht⟩ := (locateTarget_iff h1 hn).mp ht
        obtain ⟨x', hx', hv⟩ := getElem?_visits.mp (hhit t ht)
        rw [hx] at hx'
        cases hx'
        exact ((LocateArg.visit_hit.mp hv).2 id rfl hback).1
      · obtain ⟨k, rfl⟩ := LocateMode.side_iff.mp hi
        rw [mode.cell_entry h1 hn] at hx
        refine Int.not_lt.mp fun hlt => ?_
        refine hgive k ((upTo_target_iff h1 hn).mp hup) (getElem?_visits.mpr ⟨x, hx, ?_⟩)
        exact LocateArg.visit_giveUp.mpr ⟨id, rfl, hback, hunread, hpos, hlt⟩
    | text searchpattern =>
      intro t y ht i x hi hx hup hunread hnone
      obtain ⟨t, rfl, -, ht⟩ := (locateTarget_iff h1 hn).mp ht
      obtain ⟨k, rfl⟩ := LocateMode.side_iff.mp hi
      rw [mode.cell_entry h1 hn] at hx
      refine hfault t ht k (LocateMode.upTo_entry.mp hup) (getElem?_visits.mpr ⟨x, hx, ?_⟩)
      exact LocateArg.visit_fault.mpr ⟨searchpattern, rfl, hunread, hnone⟩

/-- `locate_article` gives the nearest entry, or the first or last one, that fits, and `-1` where
there is none, just under this condition. -/
theorem locateArticle_located_iff (unread : Int → Bool) (headers : List ListHeader) (ent : Int)
    (mode : LocateMode) (new : Bool) (arg : LocateArg) (h1 : 1 ≤ ent) (hn : ent ≤ headers.length) :
    ∃ out, locateArticle unread headers ent mode new arg = some out ∧
      (Located mode ent headers (arg.fits unread new) out ↔
        LocateMeets unread headers ent mode new arg) := by
  have hlen : ¬headers.length = 0 := by omega
  have hway : (mode.way ent headers).length ≤ headers.length := by
    rw [LocateMode.way]
    split
    · rw [List.length_reverse]
      exact List.length_take_le' ..
    · rw [List.length_drop]
      omega
  have hloop := @locate_loop _ headers mode ent (arg.visit unread new mode.backward) h1 hn
    (headers.length + 1) 0 none (fun _ => rfl) (by omega)
  have hstart : mode.entry ent 0 = ent + if mode.backward then -1 else 1 := by
    rw [LocateMode.entry]
    omega
  rw [hstart, List.drop_zero, Option.or_none] at hloop
  have hid (o : Option Nat) : o.map (0 + ·) = o := by
    cases o <;> simp
  rw [hid] at hloop
  refine ⟨_, (if_neg hlen).trans hloop, ?_⟩
  rw [located_iff_scan h1 hn fun k hk => ?_, locateMeets_iff h1 hn]
  · refine scanVisits_target_iff (fun i hi => ?_) (fun i hi => ?_) fun i j hi hj => ?_
    · obtain ⟨x, hx, hv⟩ := getElem?_visits.mp hi
      exact ⟨x, hx, (LocateArg.visit_hit.mp hv).1⟩
    · obtain ⟨x, hx, -⟩ := hi
      rw [List.length_map]
      exact (List.getElem?_eq_some_iff.mp hx).1
    · obtain ⟨x, -, hv⟩ := getElem?_visits.mp hi
      obtain ⟨y, -, hw⟩ := getElem?_visits.mp hj
      obtain ⟨id, rfl, -⟩ := LocateArg.visit_giveUp.mp hv
      obtain ⟨searchpattern, harg, -⟩ := LocateArg.visit_fault.mp hw
      cases harg
  · obtain ⟨x, hx, -⟩ := getElem?_visits.mp (scanVisits_some hk).1
    exact (List.getElem?_eq_some_iff.mp hx).1

/-- An article that is alone in its thread, behind one of an older thread. -/
def loneHeaders : List ListHeader :=
  [⟨⟨[77, 49], 1000⟩, [97], [120], 1000⟩, ⟨⟨[77, 53], 5000⟩, [98], [121], 5000⟩]

theorem locateArticle_located_iff_lone :
    ∃ out, locateArticle (fun _ => true) loneHeaders 1 .next false (.thread 1000) = some out ∧
      (Located .next 1 loneHeaders (LocateArg.fits (fun _ => true) false (.thread 1000)) out ↔
        LocateMeets (fun _ => true) loneHeaders 1 .next false (.thread 1000)) :=
  locateArticle_located_iff (fun _ => true) loneHeaders 1 .next false (.thread 1000) (by decide)
    (by decide)

/-- Asked for the article of the thread before the second one, the call gives the second one. -/
theorem not_located_lone :
    locateArticle (fun _ => true) loneHeaders 2 .prev false (.thread 5000) = some (2, none) ∧
      ¬Located .prev 2 loneHeaders (LocateArg.fits (fun _ => true) false (.thread 5000))
        (2, none) := by
  refine ⟨by decide, ?_⟩
  rintro (⟨i, x, ht, hi, -⟩ | ⟨-, h⟩)
  · have hside : i < 2 := ht.side
    exact absurd hi.symm (Int.ne_of_lt hside)
  · cases h

end

end ArgoBbs

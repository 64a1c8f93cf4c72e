import ArgoBbs.Lib.CString
import ArgoBbs.Lib.Characters

/-! # The conversion of codes

A user may read and write in Big5: what the terminal sends and what it is sent is converted with
two tables, a read or a write at a time (`io.c`). -/

namespace ArgoBbs

def GtoBCount : Nat := 7614
def BtoGCount : Nat := 13973

/-- What tells `write2` and `read2` apart: the first bytes and the second bytes they pass over, and
the entry of the table for two bytes. -/
structure Conversion where
  single : UInt8 → Bool
  unpaired : UInt8 → Bool
  locate : UInt8 → UInt8 → Int

/-- A table in memory; an entry is two bytes. -/
abbrev CodeTable := Int → UInt8 × UInt8

/-- The loop over the bytes, with the entries it looks at. It fails where it touches a byte behind
them. -/
def Conversion.run (v : Conversion) (table : CodeTable) : Bytes → Option (Bytes × List Int)
  | [] => some ([], [])
  | [ch₁] => if v.single ch₁ then some ([ch₁], []) else none
  | ch₁ :: ch₂ :: s =>
    if v.single ch₁ then do
      let (t, entries) ← v.run table (ch₂ :: s)
      some (ch₁ :: t, entries)
    else do
      let (t, entries) ← v.run table s
      if v.unpaired ch₂ then some (ch₁ :: ch₂ :: t, entries)
      else
        let locate := v.locate ch₁ ch₂
        some ((table locate).1 :: (table locate).2 :: t, locate :: entries)

/-- From GB to Big5. -/
def write2 : Conversion where
  single ch₁ := ch₁ < 0xA1 || (0xA9 < ch₁ && ch₁ < 0xB0) || 0xF7 < ch₁
  unpaired ch₂ := ch₂ < 0xA0 || ch₂ = 0xFF
  locate ch₁ ch₂ :=
    if 0xA0 < ch₁ ∧ ch₁ < 0xAA then (ch₁.toNat - 0xA1 : Int) * 94 + (ch₂.toNat - 0xA1 : Int)
    else (ch₁.toNat - 0xB0 + 9 : Int) * 94 + (ch₂.toNat - 0xA1 : Int)

/-- From Big5 to GB. -/
def read2 : Conversion where
  single ch₁ := ch₁ < 0xA1 || ch₁ = 0xFF
  unpaired ch₂ := ch₂ < 0x40 || (0x7E < ch₂ && ch₂ < 0xA1) || ch₂ = 255
  locate ch₁ ch₂ :=
    if 0x40 ≤ ch₂ ∧ ch₂ ≤ 0x7E then (ch₁.toNat - 0xA1 : Int) * 157 + (ch₂.toNat - 0x40 : Int)
    else (ch₁.toNat - 0xA1 : Int) * 157 + (ch₂.toNat - 0xA1 : Int) + 63

/-! ## What should be converted -/

/-- A set of characters of two bytes, by the place of each. -/
structure Charset where
  lead : UInt8 → Bool
  place : UInt8 → UInt8 → Option Nat

/-- The rows of symbols and those of characters, of 94 each. -/
def gb : Charset where
  lead c := (0xA1 ≤ c && c ≤ 0xA9) || (0xB0 ≤ c && c ≤ 0xF7)
  place c d :=
    if d < 0xA1 ∨ 0xFE < d then none
    else if 0xA1 ≤ c ∧ c ≤ 0xA9 then some ((c.toNat - 0xA1) * 94 + (d.toNat - 0xA1))
    else if 0xB0 ≤ c ∧ c ≤ 0xF7 then some ((c.toNat - 0xB0 + 9) * 94 + (d.toNat - 0xA1))
    else none

/-- The 89 rows of 157. -/
def big5 : Charset where
  lead c := 0xA1 ≤ c && c ≤ 0xFE
  place c d :=
    if c < 0xA1 ∨ 0xF9 < c then none
    else if 0x40 ≤ d ∧ d ≤ 0x7E then some ((c.toNat - 0xA1) * 157 + (d.toNat - 0x40))
    else if 0xA1 ≤ d ∧ d ≤ 0xFE then some ((c.toNat - 0xA1) * 157 + (d.toNat - 0xA1 + 63))
    else none

namespace Charset

/-- The place of a character, if it is one of two bytes. -/
def placeOf (set : Charset) : List UInt8 → Option Nat
  | [c, d] => set.place c d
  | _ => none

/-- A character in the other code. -/
def convert (set : Charset) (table : CodeTable) (ch : List UInt8) : List UInt8 :=
  match set.placeOf ch with
  | some k => [(table k).1, (table k).2]
  | none => ch

end Charset

/-- However the text is cut, its characters are converted by their entries of the table and nothing
else is looked at or changed. -/
def Uniform (v : Conversion) (set : Charset) (count : Nat) (table : CodeTable)
    (pieces : List Bytes) : Prop :=
  ∃ results, pieces.mapM (v.run table) = some results ∧
    (results.map Prod.fst).flatten =
      (chars set.lead pieces.flatten).flatMap (set.convert table) ∧
    (results.map Prod.snd).flatten =
      ((chars set.lead pieces.flatten).filterMap set.placeOf).map Int.ofNat ∧
    ∀ k ∈ (results.map Prod.snd).flatten, 0 ≤ k ∧ k < count

/-! ## A piece of the text -/

namespace Conversion
variable (v : Conversion) (table : CodeTable)

/-- The entry for a character. -/
def locateOf : List UInt8 → Option Int
  | [c, d] => if v.unpaired d then none else some (v.locate c d)
  | _ => none

def convert (ch : List UInt8) : List UInt8 :=
  match v.locateOf ch with
  | some k => [(table k).1, (table k).2]
  | none => ch

theorem run_eq {lead : UInt8 → Bool} (hlead : ∀ c, v.single c = !lead c) (s : Bytes) :
    v.run table s = if endsOpen lead s then none else
      some ((chars lead s).flatMap (v.convert table), (chars lead s).filterMap v.locateOf) := by
  induction s using chars_induction lead with
  | nil => rfl
  | last c hc =>
    rw [run, hlead, hc, endsOpen_singleton, hc]
    rfl
  | double c d s hc ih =>
    rw [run, hlead, hc, endsOpen_of_lead hc, chars_of_lead hc, ih]
    cases endsOpen lead s with
    | true => rfl
    | false =>
      rw [List.flatMap_cons, List.filterMap_cons, convert, locateOf]
      cases v.unpaired d with
      | true => rfl
      | false => rfl
  | single c s hc ih =>
    rw [endsOpen_of_single hc, chars_of_single hc]
    cases s with
    | nil =>
      rw [run, hlead, hc]
      rfl
    | cons d s =>
      rw [run, hlead, hc, ih]
      cases endsOpen lead (d :: s) with
      | true => rfl
      | false => rfl
end Conversion

/-! ## The whole text -/

/-- Of two partial functions that agree where the second is defined, the lists of values are the
same exactly if the first is defined nowhere else. -/
theorem filterMap_eq_iff {α β : Type} {f g : α → Option β} (hfg : ∀ a b, g a = some b → f a = some b)
    (l : List α) : l.filterMap f = l.filterMap g ↔ ∀ a ∈ l, f a ≠ none → g a ≠ none := by
  have hlength : ∀ l : List α, (l.filterMap g).length ≤ (l.filterMap f).length := by
    intro l
    induction l with
    | nil => exact Nat.le_refl _
    | cons a l ih =>
      cases hg : g a with
      | none =>
        rw [List.filterMap_cons_none hg]
        exact Nat.le_trans ih ((List.sublist_cons_self a l).filterMap f).length_le
      | some b =>
        rw [List.filterMap_cons_some hg, List.filterMap_cons_some (hfg a b hg)]
        exact Nat.succ_le_succ ih
  induction l with
  | nil => simp
  | cons a l ih =>
    rw [List.forall_mem_cons]
    cases hg : g a with
    | some b =>
      rw [List.filterMap_cons_some hg, List.filterMap_cons_some (hfg a b hg), List.cons_inj_right]
      exact ih.trans (and_iff_right fun _ h => nomatch h).symm
    | none =>
      rw [List.filterMap_cons_none hg]
      cases hf : f a with
      | none =>
        rw [List.filterMap_cons_none hf]
        exact ih.trans (and_iff_right fun h => absurd rfl h).symm
      | some b =>
        rw [List.filterMap_cons_some hf]
        constructor
        · intro h
          have hle := hlength l
          rw [← h, List.length_cons] at hle
          exact absurd hle (Nat.not_succ_le_self _)
        · rintro ⟨h, -⟩
          exact absurd rfl (h fun h => nomatch h)

/-- How a loop of the code and a set of characters belong together. -/
structure Tabulated (v : Conversion) (set : Charset) (count : Nat) : Prop where
  single : ∀ c, v.single c = !set.lead c
  place : ∀ c d k, set.place c d = some k → v.unpaired d = false ∧ v.locate c d = k ∧ k < count

section
variable {v : Conversion} {set : Charset} {count : Nat} {pieces : List Bytes}

theorem Tabulated.locateOf (h : Tabulated v set count) (ch : List UInt8) (k : Nat)
    (hk : set.placeOf ch = some k) : v.locateOf ch = some (k : Int) := by
  match ch, hk with
  | [c, d], hk =>
    obtain ⟨hpaired, hlocate, -⟩ := h.place c d k hk
    rw [Conversion.locateOf, hpaired, hlocate]
    rfl

theorem Tabulated.placeOf_lt (h : Tabulated v set count) {ch : List UInt8} {k : Nat}
    (hk : set.placeOf ch = some k) : k < count := by
  match ch, hk with
  | [c, d], hk => exact (h.place c d k hk).2.2

theorem mapM_run (hlead : ∀ c, v.single c = !set.lead c) (table : CodeTable) :
    pieces.mapM (v.run table) =
      if ∀ piece ∈ pieces, endsOpen set.lead piece = false then
        some (pieces.map fun s => ((chars set.lead s).flatMap (v.convert table),
          (chars set.lead s).filterMap v.locateOf))
      else none := by
  induction pieces with
  | nil => rfl
  | cons s pieces ih =>
    rw [List.mapM_cons, v.run_eq table hlead s, ih]
    simp only [List.forall_mem_cons]
    cases endsOpen set.lead s with
    | true => simp
    | false =>
      by_cases hrest : ∀ piece ∈ pieces, endsOpen set.lead piece = false
      · rw [if_neg Bool.false_ne_true, if_pos hrest, if_pos ⟨rfl, hrest⟩]
        rfl
      · rw [if_neg Bool.false_ne_true, if_neg hrest, if_neg fun h => hrest h.2]
        rfl

theorem chars_flatten {lead : UInt8 → Bool} (h : ∀ piece ∈ pieces, endsOpen lead piece = false) :
    chars lead pieces.flatten = pieces.flatMap (chars lead) := by
  induction pieces with
  | nil => rfl
  | cons s pieces ih =>
    rw [List.forall_mem_cons] at h
    rw [List.flatten_cons, chars_append h.1, ih h.2, List.flatMap_cons]

theorem Tabulated.convert_eq (h : Tabulated v set count) (table : CodeTable) {ch : List UInt8}
    (hch : v.locateOf ch ≠ none → set.placeOf ch ≠ none) :
    v.convert table ch = set.convert table ch := by
  rw [Conversion.convert, Charset.convert]
  cases hk : set.placeOf ch with
  | some k => rw [h.locateOf ch k hk]
  | none =>
    cases hlocate : v.locateOf ch with
    | none => rfl
    | some k => exact absurd hk (hch (by rw [hlocate]; exact Option.some_ne_none k))

/-- A text is converted however it is cut exactly if no piece ends in the middle of a character, and
nothing is looked up but the characters of the table. -/
theorem uniform_iff (h : Tabulated v set count) (table : CodeTable) :
    Uniform v set count table pieces ↔ ∀ piece ∈ pieces, endsOpen set.lead piece = false ∧
      ∀ ch ∈ chars set.lead piece, v.locateOf ch ≠ none → set.placeOf ch ≠ none := by
  rw [Uniform, mapM_run h.single]
  split
  case isFalse hopen =>
    constructor
    · rintro ⟨_, hresults, -⟩
      cases hresults
    · intro hall
      exact absurd (fun piece hpiece => (hall piece hpiece).1) hopen
  case isTrue hclosed =>
    have hplaces : ((pieces.flatMap (chars set.lead)).filterMap set.placeOf).map Int.ofNat =
        (pieces.flatMap (chars set.lead)).filterMap fun ch => (set.placeOf ch).map Int.ofNat :=
      List.map_filterMap
    have hlookups : (pieces.flatMap (chars set.lead)).filterMap v.locateOf =
        ((pieces.flatMap (chars set.lead)).filterMap set.placeOf).map Int.ofNat ↔
        ∀ ch ∈ pieces.flatMap (chars set.lead), v.locateOf ch ≠ none → set.placeOf ch ≠ none := by
      rw [hplaces, filterMap_eq_iff]
      · simp only [ne_eq, Option.map_eq_none_iff]
      · intro ch b hb
        obtain ⟨k, hk, rfl⟩ := Option.map_eq_some_iff.mp hb
        exact h.locateOf ch k hk
    have hall : (∀ piece ∈ pieces, endsOpen set.lead piece = false ∧
        ∀ ch ∈ chars set.lead piece, v.locateOf ch ≠ none → set.placeOf ch ≠ none) ↔
        ∀ ch ∈ pieces.flatMap (chars set.lead), v.locateOf ch ≠ none → set.placeOf ch ≠ none := by
      constructor
      · intro hall ch hch
        obtain ⟨piece, hpiece, hch⟩ := List.mem_flatMap.mp hch
        exact (hall piece hpiece).2 ch hch
      · intro hall piece hpiece
        exact ⟨hclosed piece hpiece, fun ch hch => hall ch (List.mem_flatMap.mpr ⟨piece, hpiece, hch⟩)⟩
    have hbytes : (pieces.map fun s => (chars set.lead s).flatMap (v.convert table)).flatten =
        (pieces.flatMap (chars set.lead)).flatMap (v.convert table) := by
      rw [List.flatMap_assoc, List.flatMap_def]
    have hentries : (pieces.map fun s => (chars set.lead s).filterMap v.locateOf).flatten =
        (pieces.flatMap (chars set.lead)).filterMap v.locateOf := by
      rw [List.filterMap_flatMap, List.flatMap_def]
    simp only [Option.some.injEq, exists_eq_left', List.map_map, Function.comp_def,
      chars_flatten hclosed, hbytes, hentries]
    rw [hall]
    constructor
    · exact fun hu => hlookups.mp hu.2.1
    · intro hplaced
      have heq := hlookups.mpr hplaced
      refine ⟨List.flatMap_congr fun ch hch => h.convert_eq table (hplaced ch hch), heq, ?_⟩
      intro k hk
      rw [heq] at hk
      obtain ⟨k, hplace, rfl⟩ := List.mem_map.mp hk
      obtain ⟨ch, -, hch⟩ := List.mem_filterMap.mp hplace
      exact ⟨Int.natCast_nonneg k, Int.ofNat_lt.mpr (h.placeOf_lt hch)⟩
end

/-! ## The two directions -/

theorem byte_induction {P : UInt8 → Prop} (h : ∀ n : Fin 256, P (.ofFin n)) (c : UInt8) : P c :=
  h c.toFin

theorem write2_fits : Tabulated write2 gb GtoBCount where
  single := byte_induction (by decide +kernel)
  place c d k hk := by
    simp only [gb, UInt8.lt_iff_toNat_lt, UInt8.le_iff_toNat_le, UInt8.reduceToNat] at hk
    simp only [write2, GtoBCount, UInt8.lt_iff_toNat_lt, UInt8.reduceToNat, Bool.or_eq_false_iff,
      decide_eq_false_iff_not, ← UInt8.toNat_inj]
    split at hk
    · cases hk
    · split at hk
      · obtain rfl := Option.some.inj hk
        rw [if_pos (by omega)]
        omega
      · split at hk
        · obtain rfl := Option.some.inj hk
          rw [if_neg (by omega)]
          omega
        · cases hk

theorem read2_fits : Tabulated read2 big5 BtoGCount where
  single := byte_induction (by decide +kernel)
  place c d k hk := by
    simp only [big5, UInt8.lt_iff_toNat_lt, UInt8.le_iff_toNat_le, UInt8.reduceToNat] at hk
    simp only [read2, BtoGCount, UInt8.lt_iff_toNat_lt, UInt8.le_iff_toNat_le, UInt8.reduceToNat,
      Bool.or_eq_false_iff, Bool.and_eq_false_iff, decide_eq_false_iff_not, ← UInt8.toNat_inj]
    split at hk
    · cases hk
    · split at hk
      · obtain rfl := Option.some.inj hk
        rw [if_pos (by omega)]
        omega
      · split at hk
        · obtain rfl := Option.some.inj hk
          rw [if_neg (by omega)]
          omega
        · cases hk

/-- `write2` looks up one character too many in front of each row. -/
theorem gb_place {c d : UInt8} (hc : gb.lead c = true) (hd : write2.unpaired d = false) :
    gb.place c d ≠ none ↔ d ≠ 0xA0 := by
  simp only [gb, Bool.or_eq_true, Bool.and_eq_true, decide_eq_true_eq,
    UInt8.le_iff_toNat_le, UInt8.reduceToNat] at hc
  simp only [write2, Bool.or_eq_false_iff, decide_eq_false_iff_not, UInt8.lt_iff_toNat_lt,
    ← UInt8.toNat_inj, UInt8.reduceToNat] at hd
  have hlt := UInt8.toNat_lt d
  simp only [gb, UInt8.lt_iff_toNat_lt, UInt8.le_iff_toNat_le, ← UInt8.toNat_inj,
    UInt8.reduceToNat, ne_eq]
  split
  · rename_i hout
    exact iff_of_false (not_not_intro rfl) (not_not_intro (by omega))
  · rename_i hin
    split
    · exact iff_of_true (Option.some_ne_none _) (by omega)
    · rw [if_pos (hc.resolve_left ‹_›)]
      exact iff_of_true (Option.some_ne_none _) (by omega)

/-- `read2` looks up the rows behind the table too. -/
theorem big5_place {c d : UInt8} (hc : big5.lead c = true) (hd : read2.unpaired d = false) :
    big5.place c d ≠ none ↔ c ≤ 0xF9 := by
  simp only [big5, Bool.and_eq_true, decide_eq_true_eq, UInt8.le_iff_toNat_le,
    UInt8.reduceToNat] at hc
  simp only [read2, Bool.or_eq_false_iff, Bool.and_eq_false_iff, decide_eq_false_iff_not,
    UInt8.lt_iff_toNat_lt, ← UInt8.toNat_inj, UInt8.reduceToNat] at hd
  have hlt := UInt8.toNat_lt d
  simp only [big5, UInt8.lt_iff_toNat_lt, UInt8.le_iff_toNat_le, UInt8.reduceToNat, ne_eq]
  split
  · rename_i hout
    exact iff_of_false (not_not_intro rfl) (by omega)
  · rename_i hin
    split
    · exact iff_of_true (Option.some_ne_none _) (by omega)
    · rw [if_pos (by omega)]
      exact iff_of_true (Option.some_ne_none _) (by omega)

/-- What is looked up in a piece, by its pairs. -/
theorem forall_placed_iff {v : Conversion} {set : Charset} {s : Bytes} :
    (∀ ch ∈ chars set.lead s, v.locateOf ch ≠ none → set.placeOf ch ≠ none) ↔
      ∀ c d, [c, d] ∈ chars set.lead s → v.unpaired d = false → set.place c d ≠ none := by
  constructor
  · intro h c d hmem hd
    apply h [c, d] hmem
    rw [Conversion.locateOf, hd]
    exact Option.some_ne_none _
  · intro h ch hmem hlocate
    match ch, hmem, hlocate with
    | [c, d], hmem, hlocate =>
      apply h c d hmem
      rw [Conversion.locateOf] at hlocate
      cases hd : v.unpaired d with
      | false => rfl
      | true => exact absurd (if_pos hd) hlocate
    | [], _, hlocate => exact absurd rfl hlocate
    | [_], _, hlocate => exact absurd rfl hlocate
    | _ :: _ :: _ :: _, _, hlocate => exact absurd rfl hlocate

/-- The conversion is uniform exactly if no write and no read ends between the two bytes of a
character, none that is written has the second byte 0xA0, and none that is read has a first byte
behind 0xF9. -/
theorem conversion_uniform_iff (GtoB BtoG : CodeTable) (writes reads : List Bytes) :
    (Uniform write2 gb GtoBCount GtoB writes ↔
      ∀ piece ∈ writes, endsOpen gb.lead piece = false ∧
        ∀ c, [c, 0xA0] ∉ chars gb.lead piece) ∧
    (Uniform read2 big5 BtoGCount BtoG reads ↔
      ∀ piece ∈ reads, endsOpen big5.lead piece = false ∧
        ∀ c d, [c, d] ∈ chars big5.lead piece → read2.unpaired d = false → c ≤ 0xF9) := by
  rw [uniform_iff write2_fits, uniform_iff read2_fits]
  simp only [forall_placed_iff]
  constructor
  · refine forall₂_congr fun piece _ => and_congr_right' ⟨fun h c hmem => ?_, fun h c d hmem hd => ?_⟩
    · exact (gb_place (lead_of_mem_chars hmem) rfl).mp (h c 0xA0 hmem rfl) rfl
    · rw [gb_place (lead_of_mem_chars hmem) hd]
      rintro rfl
      exact h c hmem
  · refine forall₂_congr fun piece _ => and_congr_right' ?_
    refine forall₂_congr fun c d => forall₂_congr fun hmem hd => ?_
    exact big5_place (lead_of_mem_chars hmem) hd

/-- A write that ends behind the first byte of a character touches the byte behind it. -/
theorem conversion_not_uniform :
    ¬ ∀ (GtoB BtoG : CodeTable) (writes reads : List Bytes),
      Uniform write2 gb GtoBCount GtoB writes ∧ Uniform read2 big5 BtoGCount BtoG reads := by
  intro h
  obtain ⟨⟨results, hresults, -⟩, -⟩ :=
    h (fun _ => (0xA1, 0xBC)) (fun _ => (0xA1, 0xF5)) [[0xB0], [0xA1]] []
  cases hresults

end ArgoBbs

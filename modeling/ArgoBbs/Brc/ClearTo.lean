import ArgoBbs.Brc.Marks
import Mathlib.Data.List.Perm.Subperm

/-! # Reading all up to an article

`flag_clearto` marks the 61 seconds up to the time of an article, one after the other (`bbs.c`).
There is not room for so many marks, so one of these seconds is older than all marks at the end, and
then so is everything before them (`seen_of_window`). The seconds are counted by an `int`, which
overflows behind the largest time. -/

namespace ArgoBbs

def donothing : Int := 0
def partupdate : Int := 2

/-- The loop over the seconds, which fails when `i` overflows. -/
def clearLoop (filetime i : Int) (b : Brc) : Option Brc :=
  if i ≤ filetime then
    (brcAddlist i b).bind fun b => if i < 2 ^ 31 - 1 then clearLoop filetime (i + 1) b else none
  else some b
termination_by (2 ^ 31 - i).toNat

/-- `flag_clearto` for the file times of the directory; it fails when it uses a record that it has
not read. -/
def flagClearto (reading : Bool) (ent : Nat) (direct : Option (List Int)) (clearall : Bool)
    (b : Brc) : Option (Int × Brc) :=
  match direct with
  | none => some (donothing, b)
  | some filetimes =>
    if !reading then some (donothing, b)
    else if clearall then
      ((filetimes.drop (filetimes.length - (brcMaxNum + 1))).foldlM (fun b t => brcAddlist t b)
        b).map fun b => (partupdate, b)
    else
      (filetimes[ent - 1]?).bind fun filetime =>
        (clearLoop filetime (toCInt (filetime - brcMaxNum)) b).map fun b => (partupdate, b)

/-- What `brc_unread` answers. -/
def Brc.answer (b : Brc) (t : Int) : Option Bool := (brcUnread t b).map (·.1)

/-- `flag_clearto` leaves what is not later than the article read, and what is later as it was. The
times of articles are those that an `int` holds. -/
def ClearsTo (ent : Nat) (filetimes : List Int) (t : Int) (b : Brc) : Prop :=
  ∃ b', flagClearto true ent (some filetimes) false b = some (partupdate, b') ∧
    (∀ t' ≤ t, IsCInt t' → b'.answer t' = some false) ∧
    ∀ t' > t, IsCInt t' → b'.answer t' = b.answer t'

/-- The marks as every call may find them, also before there are any. -/
structure Brc.Usable (b : Brc) : Prop where
  cells : b.brcList.length = brcMaxNum
  num_nonneg : 0 ≤ b.brcNum
  num_le : b.brcNum ≤ brcMaxNum
  cur_nonneg : 0 ≤ b.brcCur
  sorted : b.marks.Pairwise (· > ·)

/-! ## The seen values -/

section
variable {α : Type*} [LinearOrder α] {l : List α} {t u : α} {cap : Nat}

/-- An insertion changes nothing about larger values. -/
theorem Seen.of_insertMark (ht : ¬Seen l t) (hcap : l.length ≤ cap) (hu : t < u)
    (h : Seen (ArgoBbs.insertMark cap t l) u) : Seen l u := by
  rcases h with h | h
  · exact .inl ((mem_insertMark h).resolve_left (ne_of_gt hu))
  · exact absurd (h t (mem_insertMark_self ht hcap)) (not_lt.mpr hu.le)

end

/-- If more consecutive values are seen than there are marks, then so is everything before them. -/
theorem seen_of_window {l : List Int} {t u : Int} {cap : Nat} (hcap : l.length ≤ cap)
    (hwindow : ∀ v, t - cap ≤ v → v ≤ t → Seen l v) (hu : u ≤ t) : Seen l u := by
  rcases Int.lt_or_le u (t - cap) with hlt | hge
  · obtain ⟨v, hv, hnot⟩ : ∃ v ∈ (List.range (cap + 1)).map (fun k : Nat => t - k), v ∉ l := by
      by_contra hall
      have hsub : (List.range (cap + 1)).map (fun k : Nat => t - k) ⊆ l := fun v hv =>
        not_not.mp fun hnot => hall ⟨v, hv, hnot⟩
      have hnodup : ((List.range (cap + 1)).map (fun k : Nat => t - k)).Nodup :=
        List.nodup_range.map fun i j (hij : t - (i : Int) = t - (j : Int)) => by omega
      have hlength := (hnodup.subperm hsub).length_le
      rw [List.length_map, List.length_range] at hlength
      omega
    obtain ⟨k, hk, rfl⟩ := List.mem_map.mp hv
    have hk := List.mem_range.mp hk
    have hbelow := (hwindow (t - k) (by omega) (by omega)).resolve_left hnot
    exact .inr fun x hx => Int.lt_trans (by omega) (hbelow x hx)
  · exact hwindow u hge hu

/-! ## The loop -/

variable {b : Brc} {i t u filetime : Int}

theorem Brc.WF.answer_eq (H : b.WF) (hu : IsCInt u) :
    b.answer u = some (!decide (Seen b.marks u)) := by
  rw [answer, brcUnread_eq H, toCInt_eq hu]
  rfl

/-- Before there are marks, everything is unread. -/
theorem answer_of_no_marks (h : b.brcNum = 0) (u : Int) : b.answer u = some true := by
  rw [Brc.answer, brcUnread, brcLocate, if_pos h]
  simp [h]

/-- The first mark. -/
theorem brcAddlist_of_no_marks (U : b.Usable) (h : b.brcNum = 0) (ht : 0 < t) (hint : IsCInt t) :
    ∃ b', brcAddlist t b = some b' ∧ b'.WF ∧ b'.marks = [t] := by
  obtain ⟨brcList, brcNum, brcCur, brcChanged⟩ := b
  obtain rfl : brcNum = 0 := h
  have hcells : brcList.length = brcMaxNum := U.cells
  have hmoved : memmove brcList 1 0 0 = some brcList := by
    have hpos : 1 ≤ brcList.length := by
      rw [hcells]
      decide
    have hmove : memmove brcList (1 : Nat) (0 : Nat) (0 : Nat) =
        some (overlay brcList 1 ((brcList.drop 0).take 0)) := memmove_eq hpos (Nat.zero_le _)
    rw [List.take_zero, overlay, List.length_nil, List.append_nil, Nat.add_zero,
      List.take_append_drop] at hmove
    exact hmove
  have hset : setCell brcList 0 t = some (brcList.set 0 t) := setCell_eq (by
    rw [hcells]
    decide) t
  refine ⟨⟨brcList.set 0 t, 1, 0, true⟩, ?_, ?_⟩
  · have hunread : brcUnread t ⟨brcList, 0, brcCur, brcChanged⟩ =
        some (true, ⟨brcList, 0, 0, brcChanged⟩) := by
      rw [brcUnread, brcLocate, if_pos rfl]
      rfl
    have hlt : (0 : Int) < brcMaxNum := by decide
    rw [brcAddlist, if_pos ht, hunread]
    simp only [Option.bind_eq_bind, Option.bind_some, if_true, brcInsert, hlt, toCInt_eq hint,
      Int.zero_add, Int.reduceLT, Int.sub_zero, Int.sub_self, hmoved, hset]
  · have hmarks : (brcList.set 0 t).take 1 = [t] := by
      cases brcList with
      | nil => cases hcells
      | cons x brcList => rfl
    refine ⟨⟨?_, Int.one_pos, by simp only [brcMaxNum]; omega, Int.le_refl 0, ?_⟩, hmarks⟩
    · rw [List.length_set, hcells]
    · rw [Brc.marks]
      exact hmarks ▸ List.pairwise_singleton ..

/-- One second of the loop. -/
theorem Brc.WF.addlist_second (H : b.WF) (hi : 0 < i) (hint : IsCInt i) :
    ∃ b', brcAddlist i b = some b' ∧ b'.WF ∧ Seen b'.marks i ∧
      (∀ u, Seen b.marks u → Seen b'.marks u) ∧ ∀ u > i, Seen b'.marks u → Seen b.marks u := by
  obtain ⟨b', hadd, H', hmarks⟩ := brcAddlist_eq H i
  obtain ⟨b'', hadd', -, hseen, hmono, -⟩ := H.addlist i
  obtain rfl := Option.some.inj (hadd.symm.trans hadd')
  rw [toCInt_eq hint] at hmarks hseen
  refine ⟨b', hadd, H', hseen hi, hmono, fun u hu => ?_⟩
  split at hmarks
  · rename_i hnew
    rw [hmarks.1]
    have hlen := H.length_marks
    have hmax := H.num_le
    exact Seen.of_insertMark hnew.2 (by omega) hu
  · rw [hmarks.1]
    exact id

/-- All seconds of the loop. -/
theorem Brc.WF.clearLoop (H : b.WF) (hi : 0 < i) (hlast : filetime < 2 ^ 31 - 1)
    (hle : i ≤ filetime + 1) :
    ∃ b', clearLoop filetime i b = some b' ∧ b'.WF ∧
      (∀ u, i ≤ u → u ≤ filetime → Seen b'.marks u) ∧ (∀ u, Seen b.marks u → Seen b'.marks u) ∧
      ∀ u > filetime, Seen b'.marks u → Seen b.marks u := by
  obtain ⟨n, hn⟩ : ∃ n : Nat, filetime + 1 - i = n := ⟨(filetime + 1 - i).toNat, by omega⟩
  induction n generalizing b i with
  | zero =>
    rw [ArgoBbs.clearLoop, if_neg (by omega)]
    exact ⟨b, rfl, H, fun u _ _ => by omega, fun _ => id, fun _ _ => id⟩
  | succ n ih =>
    obtain ⟨b₁, hadd, H₁, hseen, hmono, hlater⟩ := H.addlist_second hi ⟨by omega, by omega⟩
    obtain ⟨b', hloop, H', hseen', hmono', hlater'⟩ := ih H₁ (i := i + 1) (by omega) (by omega)
      (by omega)
    refine ⟨b', ?_, H', fun u hge hle => ?_, fun u hu => hmono' u (hmono u hu),
      fun u hu h => hlater u (by omega) (hlater' u hu h)⟩
    · rw [ArgoBbs.clearLoop, if_pos (by omega), hadd, Option.bind_some, if_pos (by omega), hloop]
    · rcases Int.lt_or_eq_of_le hge with hlt | rfl
      · exact hseen' u hlt hle
      · exact hmono' i hseen

/-- Up to the largest time the loop overflows the counter. -/
theorem clearLoop_overflow (hlast : filetime ≥ 2 ^ 31 - 1) (hi : i < 2 ^ 31) (b : Brc) :
    clearLoop filetime i b = none := by
  obtain ⟨n, hn⟩ : ∃ n : Nat, 2 ^ 31 - 1 - i = n := ⟨(2 ^ 31 - 1 - i).toNat, by omega⟩
  induction n generalizing b i with
  | zero =>
    rw [clearLoop, if_pos (by omega), Option.bind_eq_none_iff]
    exact fun b' _ => if_neg (by omega)
  | succ n ih =>
    rw [clearLoop, if_pos (by omega), Option.bind_eq_none_iff]
    intro b' _
    rw [if_pos (by omega)]
    exact ih (by omega) b' (by omega)

/-- The loop marks the last seconds, and later times are answered as before. -/
theorem Brc.Usable.clearLoop (U : b.Usable) (ht : t > brcMaxNum) (hlast : t < 2 ^ 31 - 1) :
    ∃ b', clearLoop t (t - brcMaxNum) b = some b' ∧ b'.WF ∧
      (∀ u, t - brcMaxNum ≤ u → u ≤ t → Seen b'.marks u) ∧
      ∀ u > t, IsCInt u → b'.answer u = b.answer u := by
  simp only [brcMaxNum] at ht ⊢
  rcases Int.lt_or_eq_of_le U.num_nonneg with hpos | hzero
  · have H : b.WF := ⟨U.cells, hpos, U.num_le, U.cur_nonneg, U.sorted⟩
    obtain ⟨b', hloop, H', hseen, hmono, hlater⟩ :=
      H.clearLoop (i := t - (60 : Nat)) (by omega) hlast (by omega)
    refine ⟨b', hloop, H', hseen, fun u hu hint => ?_⟩
    rw [H'.answer_eq hint, H.answer_eq hint, decide_eq_decide.mpr ⟨hlater u hu, hmono u⟩]
  · obtain ⟨b₁, hadd, H₁, hmarks⟩ := brcAddlist_of_no_marks (t := t - (60 : Nat)) U hzero.symm
      (by omega) ⟨by omega, by omega⟩
    obtain ⟨b', hloop, H', hseen, hmono, hlater⟩ :=
      H₁.clearLoop (i := t - (60 : Nat) + 1) (by omega) hlast (by omega)
    refine ⟨b', ?_, H', fun u hge hle => ?_, fun u hu hint => ?_⟩
    · rw [ArgoBbs.clearLoop, if_pos (by omega), hadd, Option.bind_some, if_pos (by omega), hloop]
    · rcases Int.lt_or_eq_of_le hge with hlt | rfl
      · exact hseen u (by omega) hle
      · exact hmono _ (hmarks ▸ .inl (List.mem_singleton_self _))
    · have hunseen : ¬Seen b'.marks u := by
        intro h
        have h₁ := hlater u hu h
        rw [hmarks] at h₁
        rcases h₁ with h₁ | h₁
        · have := List.mem_singleton.mp h₁
          omega
        · have := h₁ _ (List.mem_singleton_self _)
          omega
      rw [H'.answer_eq hint, answer_of_no_marks hzero.symm, decide_eq_false hunseen]
      rfl

/-- `flag_clearto` does what it is meant to do for all times but the largest that an `int` holds.
-/
theorem flag_clearto_iff (U : b.Usable) (ent : Nat) (filetimes : List Int)
    (hfiletime : filetimes[ent - 1]? = some t) (hint : IsCInt t) (ht : t > brcMaxNum) :
    ClearsTo ent filetimes t b ↔ t < 2 ^ 31 - 1 := by
  have hstart : toCInt (t - brcMaxNum) = t - brcMaxNum := by
    obtain ⟨h1, h2⟩ := hint
    exact toCInt_eq ⟨by omega, by simp only [brcMaxNum]; omega⟩
  have hrun : flagClearto true ent (some filetimes) false b =
      (clearLoop t (t - brcMaxNum) b).map fun b => (partupdate, b) := by
    simp only [flagClearto, hfiletime, Option.bind_some, hstart, Bool.not_true, Bool.false_eq_true,
      if_false]
  unfold ClearsTo
  rw [hrun]
  constructor
  · rintro ⟨b', hloop, -, -⟩
    by_contra hlast
    rw [clearLoop_overflow (by omega) (by have := hint.2; simp only [brcMaxNum]; omega)] at hloop
    cases hloop
  · intro hlast
    obtain ⟨b', hloop, H', hseen, hlater⟩ := U.clearLoop ht hlast
    refine ⟨b', by rw [hloop]; rfl, fun u hu hcint => ?_, hlater⟩
    have hlen := H'.length_marks
    have hmax := H'.num_le
    rw [H'.answer_eq hcint, decide_eq_true (seen_of_window (by omega) hseen hu)]
    rfl

/-- A board with a mark of an older article. -/
theorem flag_clearto_older : ClearsTo 1 [1000000000] 1000000000
    (.load [999999000, 1] (List.replicate 58 0) false) :=
  (flag_clearto_iff (b := .load [999999000, 1] (List.replicate 58 0) false)
    ⟨by decide, by decide, by decide, by decide, by decide⟩ 1 [1000000000] rfl (by decide)
    (by decide)).mpr (by decide)

/-- The article of the last second. -/
theorem flag_clearto_last_second : ¬∀ (b : Brc) (ent : Nat) (filetimes : List Int) (t : Int),
    b.Usable → filetimes[ent - 1]? = some t → IsCInt t → t > brcMaxNum →
      ClearsTo ent filetimes t b := by
  intro hclaim
  have U : (Brc.load [1] (List.replicate 59 0) false).Usable :=
    ⟨by decide, by decide, by decide, by decide, by decide⟩
  obtain ⟨b', hrun, -, -⟩ := hclaim _ 1 [2 ^ 31 - 1] (2 ^ 31 - 1) U rfl (by decide) (by decide)
  have hnone : flagClearto true 1 (some [2 ^ 31 - 1]) false (.load [1] (List.replicate 59 0) false) =
      none := by
    simp only [flagClearto, Nat.sub_self, List.getElem?_cons_zero, Option.bind_some, Bool.not_true,
      Bool.false_eq_true, if_false]
    rw [clearLoop_overflow (by decide) (by decide)]
    rfl
  rw [hnone] at hrun
  cases hrun

end ArgoBbs

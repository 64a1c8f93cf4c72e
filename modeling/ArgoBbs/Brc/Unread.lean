import ArgoBbs.Brc.Boardrc
import ArgoBbs.Brc.Marks
import ArgoBbs.Brc.Safety
import ArgoBbs.Lib.Loop

/-! # The first unread article

`brc_unread` answers from the marks alone, wherever an earlier lookup has left the cursor.
`unread_position` looks for the first unread article of a board: back from the end with growing
steps to an article that is read, and then forward (`boards.c`). -/

namespace ArgoBbs

/-- The loop back: the entry, the step and the marks. `num` is the entry that it ends with. -/
def unreadBackTurn (filetimes : List Int) : Int × Int × Brc → Option ((Int × Int × Brc) ⊕ (Int × Brc))
  | (num, step, b) =>
    if num > 0 then
      match cell filetimes num with
      | none => some (.inr (num, b))
      | some filetime => (brcUnread filetime b).map fun (unread, b) =>
        if unread then .inl (num - step, if step < 32 then step + step / 2 else step, b)
        else .inr (num, b)
    else some (.inr (num, b))

/-- The loop forward. -/
def unreadAheadTurn (total : Int) (filetimes : List Int) : Int × Brc → Option ((Int × Brc) ⊕ (Int × Brc))
  | (num, b) =>
    if num < total then
      match cell filetimes num with
      | none => some (.inr (num, b))
      | some filetime => (brcUnread filetime b).map fun (unread, b) =>
        if unread then .inr (num, b) else .inl (num + 1, b)
    else some (.inr (num, b))

/-- `unread_position` for a directory that it can open; `total` is the count of the board. -/
def unreadPosition (boardname : List UInt8) (total : Int) (filetimes : List Int) (s : BrcSession)
    (file : Option (List UInt8)) : Option (Int × BrcSession × Option (List UInt8)) := do
  let (num, s, file) ← brcInitial boardname s file
  if num = 0 then some (1, s, file)
  else
    let (num, brc) ← loop (unreadBackTurn filetimes) (total.toNat + 1) (total - 1, 4, s.brc)
    let num := if num < 0 then 0 else num
    let (num, brc) ← loop (unreadAheadTurn total filetimes) (total.toNat + 1) (num, brc)
    some (if num < 0 then 0 else num, { s with brc }, file)

/-! ## The entries that it looks at -/

/-- The entries that the loop back looks at while it finds none that is read. -/
def probes : Nat → Nat → Nat → List Nat
  | 0, _, _ => []
  | fuel + 1, num, step =>
    if 0 < num then num :: probes fuel (num - step) (if step < 32 then step + step / 2 else step)
    else []

/-- The first of these entries that is read, or the first one of all. -/
def unreadStart (read : Int → Bool) (filetimes : List Int) : Nat :=
  ((probes filetimes.length (filetimes.length - 1) 4).find? fun i => (filetimes[i]?).any read).getD 0

/-- The first entry from there on that is unread. -/
def unreadIndex (read : Int → Bool) (filetimes : List Int) : Nat :=
  let num := unreadStart read filetimes
  num + ((filetimes.drop num).takeWhile read).length

section
variable {b : Brc} {filetimes : List Int} {t : Int}

/-- The loop back ends with the first of the entries that is read, or in front of all. -/
theorem unreadBack_loop (filetimes : List Int) (H : b.WF) (fuel num step fuel' : Nat) (c : Int)
    (hnum : num < filetimes.length ∨ num = 0) (hstep : 0 < step) (hfuel : num < fuel)
    (hfuel' : num ≤ fuel') (hc : c = num ∨ num = 0 ∧ c ≤ 0) :
    ∃ r b', loop (unreadBackTurn filetimes) fuel (c, (step : Int), b) = some (r, b') ∧ b'.WF ∧
      b'.marks = b.marks ∧
      (if r < 0 then 0 else r) = (((probes fuel' num step).find? fun i =>
        (filetimes[i]?).any fun t => decide (Seen b.marks (toCInt t))).getD 0 : Nat) := by
  induction fuel generalizing num step b fuel' c with
  | zero => omega
  | succ fuel ih =>
    rw [loop, unreadBackTurn]
    by_cases hpos : 0 < num
    · obtain rfl : c = num := by omega
      obtain ⟨fuel', rfl⟩ : ∃ k, fuel' = k + 1 := ⟨fuel' - 1, by omega⟩
      have hlt : num < filetimes.length := by omega
      obtain ⟨b', hunread, H', hmarks, -⟩ := brcUnread_wf H filetimes[num]
      rw [if_pos (by omega), cell_nat, List.getElem?_eq_getElem hlt]
      dsimp only
      rw [hunread, Option.map_some, probes, if_pos hpos, List.find?_cons,
        List.getElem?_eq_getElem hlt, Option.any_some]
      by_cases hseen : Seen b.marks (toCInt filetimes[num])
      · rw [decide_eq_true hseen]
        exact ⟨num, b', rfl, H', hmarks, by rw [if_neg (by omega)]; rfl⟩
      · rw [decide_eq_false hseen, Bool.not_false]
        dsimp only
        rw [if_pos rfl]
        dsimp only
        rw [← hmarks]
        have hgrow : (if (step : Int) < 32 then (step : Int) + step / 2 else step) =
            ((if step < 32 then step + step / 2 else step : Nat) : Int) := by
          split <;> split <;> omega
        rw [hgrow]
        exact ih H' _ _ _ _ (by omega) (by split <;> omega) (by omega) (by omega) (by omega)
    · obtain rfl : num = 0 := by omega
      have hprobes : probes fuel' 0 step = [] := by
        cases fuel' with
        | zero => rfl
        | succ fuel' => exact if_neg (Nat.lt_irrefl 0)
      rw [if_neg (by omega), hprobes]
      refine ⟨c, b, rfl, H, rfl, ?_⟩
      rw [List.find?_nil, Option.getD_none]
      split <;> omega

/-- The loop forward goes over the entries that are read. -/
theorem unreadAhead_loop (H : b.WF) (fuel num : Nat) (hnum : num ≤ filetimes.length)
    (hfuel : filetimes.length - num < fuel) :
    ∃ b', loop (unreadAheadTurn filetimes.length filetimes) fuel ((num : Int), b) = some
        (((num + ((filetimes.drop num).takeWhile fun t => decide (Seen b.marks (toCInt t))).length :
          Nat) : Int), b') ∧ b'.WF ∧ b'.marks = b.marks := by
  induction fuel generalizing num b with
  | zero => omega
  | succ fuel ih =>
    rw [loop, unreadAheadTurn]
    by_cases hlt : num < filetimes.length
    · obtain ⟨b', hunread, H', hmarks, -⟩ := brcUnread_wf H filetimes[num]
      rw [if_pos (by omega), cell_nat, List.getElem?_eq_getElem hlt]
      dsimp only
      rw [hunread, Option.map_some, List.drop_eq_getElem_cons hlt, List.takeWhile_cons]
      by_cases hseen : Seen b.marks (toCInt filetimes[num])
      · rw [decide_eq_true hseen, Bool.not_true, if_pos rfl, List.length_cons]
        dsimp only
        rw [if_neg Bool.false_ne_true]
        obtain ⟨b₂, hloop, H₂, hmarks₂⟩ := ih H' (num + 1) hlt (by omega)
        refine ⟨b₂, ?_, H₂, hmarks₂.trans hmarks⟩
        rw [hmarks] at hloop
        have hsum (k : Nat) : num + (k + 1) = num + 1 + k := by omega
        rw [hsum]
        exact hloop
      · rw [decide_eq_false hseen, Bool.not_false, if_neg Bool.false_ne_true]
        exact ⟨b', rfl, H', hmarks⟩
    · rw [if_neg (by omega), List.drop_eq_nil_of_le (by omega)]
      exact ⟨b, rfl, H, rfl⟩

/-- What the entry says: it begins where an article is read or with the first one, and goes on to
the first that is unread. -/
structure Unread.From (read : Int → Bool) (filetimes : List Int) (p r : Nat) : Prop where
  le : p ≤ r
  le_length : r ≤ filetimes.length
  start : p = 0 ∨ ∃ t, filetimes[p]? = some t ∧ read t = true
  between : ∀ i t, p ≤ i → i < r → filetimes[i]? = some t → read t = true
  unread : ∀ t, filetimes[r]? = some t → read t = false

theorem takeWhile_from (read : Int → Bool) (filetimes : List Int) {p : Nat}
    (hp : p ≤ filetimes.length) (hstart : p = 0 ∨ ∃ t, filetimes[p]? = some t ∧ read t = true) :
    Unread.From read filetimes p (p + ((filetimes.drop p).takeWhile read).length) := by
  have hnot := List.head?_dropWhile_not read (filetimes.drop p)
  have hall (x : Int) (hx : x ∈ (filetimes.drop p).takeWhile read) : read x = true :=
    List.mem_takeWhile_imp hx
  obtain ⟨xs, hxs⟩ : ∃ xs, xs = (filetimes.drop p).takeWhile read := ⟨_, rfl⟩
  obtain ⟨ys, hys⟩ : ∃ ys, ys = (filetimes.drop p).dropWhile read := ⟨_, rfl⟩
  have hsplit : xs ++ ys = filetimes.drop p := by
    rw [hxs, hys, List.takeWhile_append_dropWhile]
  have hlen := congrArg List.length hsplit
  rw [List.length_append, List.length_drop] at hlen
  rw [← hys] at hnot
  rw [← hxs] at hall ⊢
  refine ⟨Nat.le_add_right .., by omega, hstart, fun i t hpi hir ht => ?_, fun t ht => ?_⟩
  · obtain ⟨k, rfl⟩ : ∃ k, i = p + k := ⟨i - p, by omega⟩
    rw [← List.getElem?_drop, ← hsplit, List.getElem?_append_left (by omega)] at ht
    exact hall t (List.mem_of_getElem? ht)
  · rw [← List.getElem?_drop, ← hsplit, List.getElem?_append_right (Nat.le_refl _), Nat.sub_self,
      ← List.head?_eq_getElem?] at ht
    rw [ht] at hnot
    exact hnot

theorem unreadIndex_from (read : Int → Bool) (filetimes : List Int) :
    Unread.From read filetimes (unreadStart read filetimes) (unreadIndex read filetimes) := by
  cases hfind : (probes filetimes.length (filetimes.length - 1) 4).find? fun i =>
      (filetimes[i]?).any read with
  | none =>
    have hstart : unreadStart read filetimes = 0 := by rw [unreadStart, hfind]; rfl
    rw [unreadIndex, hstart]
    exact takeWhile_from read filetimes (Nat.zero_le _) (Or.inl rfl)
  | some p =>
    have hstart : unreadStart read filetimes = p := by rw [unreadStart, hfind]; rfl
    obtain ⟨t, ht, hread⟩ : ∃ t, filetimes[p]? = some t ∧ read t = true := by
      have hany := List.find?_some hfind
      cases ht : filetimes[p]? with
      | none =>
        rw [ht] at hany
        cases hany
      | some t =>
        rw [ht] at hany
        exact ⟨t, rfl, hany⟩
    rw [unreadIndex, hstart]
    exact takeWhile_from read filetimes (Nat.le_of_lt (List.getElem?_eq_some_iff.mp ht).1)
      (Or.inr ⟨t, ht, hread⟩)

/-- With a record for the board, the result is the entry that the marks say, whatever the cursor. -/
theorem unreadPosition_eq {boardname : List UInt8} {s s₁ : BrcSession}
    {file file₁ : Option (List UInt8)} {num : Int}
    (hinit : brcInitial boardname s file = some (num, s₁, file₁)) (hnum : num ≠ 0)
    (H : s₁.brc.WF) (filetimes : List Int) :
    ∃ brc, brc.WF ∧ brc.marks = s₁.brc.marks ∧
      unreadPosition boardname filetimes.length filetimes s file = some
        (((unreadIndex (fun t => decide (Seen s₁.brc.marks (toCInt t))) filetimes : Nat) : Int),
          { s₁ with brc }, file₁) := by
  have hfrom := unreadIndex_from (fun t => decide (Seen s₁.brc.marks (toCInt t))) filetimes
  obtain ⟨p, hp⟩ : ∃ p, p = unreadStart (fun t => decide (Seen s₁.brc.marks (toCInt t))) filetimes :=
    ⟨_, rfl⟩
  have hple : p ≤ filetimes.length := hp ▸ Nat.le_trans hfrom.le hfrom.le_length
  obtain ⟨r, b₁, hback, H₁, hmarks₁, hr⟩ := unreadBack_loop filetimes H
    (filetimes.length + 1) (filetimes.length - 1) 4 filetimes.length (filetimes.length - 1)
    (by omega) (by omega) (by omega) (by omega) (by omega)
  rw [← unreadStart, ← hp] at hr
  obtain ⟨b₂, hahead, H₂, hmarks₂⟩ := unreadAhead_loop H₁ (filetimes.length + 1) p hple (by omega)
  rw [hmarks₁] at hahead
  refine ⟨b₂, H₂, hmarks₂.trans hmarks₁, ?_⟩
  rw [unreadPosition, hinit]
  simp only [Option.bind_eq_bind, Option.bind_some]
  rw [if_neg hnum, Int.toNat_natCast]
  rw [show ((4 : Nat) : Int) = 4 from rfl] at hback
  rw [hback, Option.bind_some]
  dsimp only
  rw [hr, hahead, Option.bind_some]
  dsimp only
  rw [if_neg (by omega), unreadIndex, ← hp]

end

/-! ## Boards with and without a record -/

/-- The board is the current one, or its record is in what `brc_initial` decodes. -/
def BrcSession.HasRecord (s : BrcSession) (file : Option (List UInt8)) (boardname : List UInt8) :
    Prop :=
  s.currboard = boardname ∨ ∃ s₁ file₁ s₂ brcName brc, brcUpdate s file = some (s₁, file₁) ∧
    s₂ = (s₁.enter boardname).loadFile file₁ ∧
    brcSearch boardname (s₂.brcBuf.take s₂.brcSize) s₂.brcName { s₂.brc with brcCur := 0 } =
      some (true, brcName, brc)

section
variable {boardname : List UInt8} {s s₁ : BrcSession} {file file₁ : Option (List UInt8)} {num : Int}

/-- The answer of `brc_initial`: the count of the record, or `0` and the default mark. -/
theorem brcInitial_cases (h : brcInitial boardname s file = some (num, s₁, file₁)) :
    s₁.currboard = boardname ∧
      (s.HasRecord file boardname ∧ num = s₁.brc.brcNum ∨
        ¬s.HasRecord file boardname ∧ num = 0 ∧ s₁.brc.brcNum = 1 ∧ s₁.brc.marks = [1]) := by
  rw [brcInitial] at h
  split at h
  case isTrue hcur =>
    cases h
    exact ⟨hcur, .inl ⟨.inl hcur, rfl⟩⟩
  case isFalse hcur =>
    cases hupdate : brcUpdate s file with
    | none =>
      rw [hupdate] at h
      cases h
    | some p =>
      obtain ⟨s', file'⟩ := p
      obtain ⟨s₂, hs₂⟩ : ∃ s₂, s₂ = (s'.enter boardname).loadFile file' := ⟨_, rfl⟩
      have hboard : s₂.currboard = boardname := hs₂ ▸ (@loadFile_fields (s'.enter boardname) file').2.1
      rw [hupdate, Option.bind_eq_bind, Option.bind_some] at h
      dsimp only at h
      rw [← hs₂, BrcSession.find, hboard] at h
      cases hsearch : brcSearch boardname (s₂.brcBuf.take s₂.brcSize) s₂.brcName
          { s₂.brc with brcCur := 0 } with
      | none =>
        rw [hsearch] at h
        cases h
      | some found =>
        obtain ⟨found, brcName, brc⟩ := found
        rw [hsearch] at h
        cases found with
        | true =>
          cases h
          exact ⟨rfl, .inl ⟨.inr ⟨s', file₁, s₂, brcName, brc, hupdate, hs₂, hsearch⟩, rfl⟩⟩
        | false =>
          have hnot : ¬s.HasRecord file boardname := by
            rintro (heq | ⟨s'', file'', s₃, brcName', brc', hupdate', hs₃, hsearch'⟩)
            · exact hcur heq
            · rw [hupdate] at hupdate'
              cases hupdate'
              rw [hs₃, ← hs₂, hsearch] at hsearch'
              cases hsearch'
          cases hl : brc.brcList with
          | nil => simp [hl, setCell] at h
          | cons x l =>
            simp [hl, setCell] at h
            obtain ⟨rfl, rfl, rfl⟩ := h
            exact ⟨rfl, .inr ⟨hnot, rfl, rfl, rfl⟩⟩

/-- `brc_initial` on the current board. -/
theorem brcInitial_current (h : s.currboard = boardname) :
    brcInitial boardname s file = some (s.brc.brcNum, s, file) := if_pos h

end

/-! ## The first unread article -/

/-- The entry is the one in front of which the articles are read: in the directory, on a boundary
between a read and an unread article, and the number of read articles if these come first. -/
structure FirstUnread (marks filetimes : List Int) (r : Int) : Prop where
  nonneg : 0 ≤ r
  le_total : r ≤ filetimes.length
  boundary : r < filetimes.length →
    (∃ t, cell filetimes r = some t ∧ ¬Seen marks (toCInt t)) ∧
      (r = 0 ∨ ∃ t, cell filetimes (r - 1) = some t ∧ Seen marks (toCInt t))
  count : filetimes.Pairwise (· ≤ ·) → ∀ k ≤ filetimes.length,
    (∀ (i : Nat) t, filetimes[i]? = some t → (Seen marks (toCInt t) ↔ i < k)) → r = k

section
variable {marks filetimes : List Int}

theorem Unread.From.firstUnread {p r : Nat}
    (h : Unread.From (fun t => decide (Seen marks (toCInt t))) filetimes p r) :
    FirstUnread marks filetimes r where
  nonneg := by omega
  le_total := by exact_mod_cast h.le_length
  boundary := by
    intro hlt
    have hlt : r < filetimes.length := by omega
    refine ⟨⟨filetimes[r], ?_, ?_⟩, ?_⟩
    · rw [cell_nat, List.getElem?_eq_getElem hlt]
    · exact of_decide_eq_false (h.unread _ (List.getElem?_eq_getElem hlt))
    · rcases Nat.eq_zero_or_pos r with rfl | hpos
      · exact Or.inl rfl
      · obtain ⟨i, rfl⟩ : ∃ i, r = i + 1 := ⟨r - 1, by omega⟩
        have hi : filetimes[i]? = some filetimes[i] := List.getElem?_eq_getElem (by omega)
        refine Or.inr ⟨filetimes[i], ?_, ?_⟩
        · rw [show ((i + 1 : Nat) : Int) - 1 = i by omega, cell_nat, hi]
        · rcases Nat.lt_or_ge i p with hip | hip
          · -- the search forward has begun at an unread article, so at the first
            obtain rfl : p = i + 1 := by have hle := h.le; omega
            obtain ⟨t, ht, hread⟩ := h.start.resolve_left (Nat.succ_ne_zero i)
            rw [h.unread t ht] at hread
            cases hread
          · exact of_decide_eq_true (h.between i _ hip (Nat.lt_succ_self i) hi)
  count := by
    intro _ k hk hread
    have hpk : p ≤ k := by
      rcases h.start with rfl | ⟨t, ht, hseen⟩
      · exact Nat.zero_le k
      · exact Nat.le_of_lt ((hread p t ht).mp (of_decide_eq_true hseen))
    have hle := h.le_length
    rcases Nat.lt_trichotomy r k with hlt | rfl | hlt
    · have hr : filetimes[r]? = some filetimes[r] := List.getElem?_eq_getElem (by omega)
      exact absurd ((hread r _ hr).mpr hlt) (of_decide_eq_false (h.unread _ hr))
    · rfl
    · have hk : filetimes[k]? = some filetimes[k] := List.getElem?_eq_getElem (by omega)
      have hseen := of_decide_eq_true (h.between k _ hpk hlt hk)
      exact absurd ((hread k _ hk).mp hseen) (Nat.lt_irrefl k)

theorem pos_of_mem_probes {fuel num step i : Nat} (h : i ∈ probes fuel num step) : 0 < i := by
  induction fuel generalizing num step with
  | zero => cases h
  | succ fuel ih =>
    rw [probes] at h
    split at h
    case isTrue hpos =>
      rcases List.mem_cons.mp h with rfl | h
      · exact hpos
      · exact ih h
    case isFalse => cases h

/-- The entry is `1` if the first article is read, and neither the second one nor one that the
search looks at. -/
theorem unreadIndex_eq_one (read : Int → Bool) (filetimes : List Int) :
    unreadIndex read filetimes = 1 ↔ (∃ t, filetimes[0]? = some t ∧ read t = true) ∧
      ∀ i ∈ 1 :: probes filetimes.length (filetimes.length - 1) 4, ∀ t, filetimes[i]? = some t →
        read t = false := by
  have h := unreadIndex_from read filetimes
  constructor
  · intro hone
    rw [hone] at h
    have hstart : unreadStart read filetimes = 0 := by
      rcases h.start with hzero | ⟨t, ht, hread⟩
      · exact hzero
      · by_contra hne
        have hle := h.le
        rw [show unreadStart read filetimes = 1 by omega] at ht
        rw [h.unread t ht] at hread
        cases hread
    rw [hstart] at h
    have hlen : 0 < filetimes.length := h.le_length
    have hzero : filetimes[0]? = some filetimes[0] := List.getElem?_eq_getElem hlen
    refine ⟨⟨_, hzero, h.between 0 _ (Nat.le_refl 0) Nat.one_pos hzero⟩, fun i hi t ht => ?_⟩
    rcases List.mem_cons.mp hi with rfl | hi
    · exact h.unread t ht
    · cases hfind : (probes filetimes.length (filetimes.length - 1) 4).find? fun i =>
          (filetimes[i]?).any read with
      | none =>
        have hnone := List.find?_eq_none.mp hfind i hi
        rw [ht, Option.any_some, Bool.not_eq_true] at hnone
        exact hnone
      | some j =>
        have hpos := pos_of_mem_probes (List.mem_of_find?_eq_some hfind)
        rw [unreadStart, hfind, Option.getD_some] at hstart
        omega
  · rintro ⟨⟨t, ht, hread⟩, hnone⟩
    have hstart : unreadStart read filetimes = 0 := by
      have hfind : ((probes filetimes.length (filetimes.length - 1) 4).find? fun i =>
          (filetimes[i]?).any read) = none := by
        refine List.find?_eq_none.mpr fun i hi => ?_
        cases hi' : filetimes[i]? with
        | none => exact Bool.false_ne_true
        | some t => rw [Option.any_some, hnone i (List.mem_cons_of_mem 1 hi) t hi']; decide
      rw [unreadStart, hfind, Option.getD_none]
    rw [hstart] at h
    rcases Nat.lt_trichotomy (unreadIndex read filetimes) 1 with hlt | heq | hlt
    · have hzero : unreadIndex read filetimes = 0 := by omega
      rw [hzero] at h
      rw [h.unread t ht] at hread
      cases hread
    · exact heq
    · have hle := h.le_length
      have hone : filetimes[1]? = some filetimes[1] := List.getElem?_eq_getElem (by omega)
      have hread := h.between 1 _ (Nat.zero_le 1) hlt hone
      rw [hnone 1 List.mem_cons_self _ hone] at hread
      cases hread

theorem seen_default (t : Int) : Seen [1] t ↔ t ≤ 1 := by
  simp only [Seen, List.mem_singleton, forall_eq]
  omega

/-- What `brc_initial` leaves for the first board of a user without a `.boardrc`. -/
theorem brcInitial_start (boardname : List UInt8) (hne : boardname ≠ []) : ∃ s₁,
    brcInitial boardname .start none = some (0, s₁, none) ∧ s₁.brc.marks = [1] := by
  have hupdate : brcUpdate .start none = some (.start, none) := if_pos (Or.inl rfl)
  have hload : (BrcSession.start.enter boardname).loadFile none =
      { BrcSession.start.enter boardname with brcSize := 0 } := if_pos rfl
  have hcur : ¬BrcSession.start.currboard = boardname := fun h => hne h.symm
  rw [brcInitial, if_neg hcur, hupdate, Option.bind_eq_bind, Option.bind_some]
  dsimp only
  rw [hload, BrcSession.find, List.take_zero, brcSearch_nil]
  exact ⟨_, rfl, rfl⟩

end

end ArgoBbs

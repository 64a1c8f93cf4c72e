import ArgoBbs.Edit.Buffer
import Mathlib.Data.List.Perm.Subperm

/-! # Lines that are cut and joined

`split` makes two lines of one; `join` takes to a line what fits of the next one, up to a blank,
and is repeated for what is left of it (`edit.c`). -/

namespace ArgoBbs

open Dlist

/-- The lines of a text, with their addresses; each is as the editor keeps it. -/
structure Editor.Lines (s : Editor) (xs : List (Nat × Textline)) : Prop where
  holds : Dlist.Holds (fun _ => none) s.text xs
  sound : ∀ x ∈ xs, x.2.Sound

/-- The lines one behind the other, some with a blank at their end. -/
inductive Padded : List Bytes → Bytes → Prop
  | nil : Padded [] []
  | line : Padded lines text → Padded (t :: lines) (t ++ text)
  | blank : Padded lines text → Padded (t :: lines) (t ++ 32 :: text)

def texts (xs : List (Nat × Textline)) : List Bytes := xs.map (·.2.text)

theorem texts_cons (p : Nat) (l : Textline) (xs : List (Nat × Textline)) :
    texts ((p, l) :: xs) = l.text :: texts xs := rfl

theorem padded_flatten (lines : List Bytes) : Padded lines lines.flatten := by
  induction lines with
  | nil => exact .nil
  | cons t lines ih => exact .line ih

namespace Textline
variable {l m : Textline} {pos : Nat}

theorem Sound.lt_size (h : l.Sound) : l.len < 256 := Nat.lt_succ_of_lt h.lt

theorem Sound.truncate (h : l.Sound) (hpos : pos ≤ l.len) : (l.truncate pos).Sound :=
  ⟨truncate_exact h.exact h.lt_size hpos, Nat.lt_of_le_of_lt hpos h.lt⟩

theorem Sound.rest (h : l.Sound) (hpos : pos ≤ l.len) : (l.rest pos).Sound :=
  ⟨rest_exact h.exact h.lt_size hpos, Nat.lt_of_le_of_lt (Nat.sub_le _ _) h.lt⟩

theorem Sound.append (h : l.Sound) (hm : m.Sound) (hfit : l.len + m.len < wrapMargin) :
    (l.append m.text m.len).Sound :=
  ⟨append_text_exact h.exact hm.exact (Nat.lt_succ_of_lt hfit), hfit⟩

theorem attr_write (l : Textline) (i : Nat) (t : Bytes) : (l.write i t).attr = l.attr := by
  induction t generalizing l i with
  | nil => rfl
  | cons c t ih => rw [write, ih, attr_store]

theorem Sound.text_append (h : l.Sound) (hm : m.Sound) (hfit : l.len + m.len < wrapMargin) :
    (l.append m.text m.len).text = l.text ++ m.text :=
  Textline.text_append h.exact (hm.exact.notMem hm.lt_size) (by
    rw [hm.exact.length_text]
    exact Nat.lt_succ_of_lt hfit)

/-- The two halves of a line. -/
theorem Sound.text_split (h : l.Sound) (hpos : pos ≤ l.len) :
    (l.truncate pos).text ++ (l.rest pos).text = l.text := by
  rw [text_truncate h.exact h.lt_size hpos, text_rest h.exact h.lt_size hpos, List.take_append_drop]

end Textline

namespace Editor
variable {s : Editor} {pre post : List (Nat × Textline)} {p q : Nat} {l m : Textline} {pos : Nat}

/-! ## One operation -/

theorem Lines.forall_sound (h : s.Lines (pre ++ (p, l) :: post)) :
    (∀ x ∈ pre, x.2.Sound) ∧ l.Sound ∧ ∀ x ∈ post, x.2.Sound := by
  have hsound := h.sound
  rw [List.forall_mem_append, List.forall_mem_cons] at hsound
  exact hsound

theorem Lines.of_sound (holds : Dlist.Holds (fun _ => none) s.text (pre ++ (p, l) :: post))
    (hpre : ∀ x ∈ pre, x.2.Sound) (hl : l.Sound) (hpost : ∀ x ∈ post, x.2.Sound) :
    s.Lines (pre ++ (p, l) :: post) :=
  ⟨holds, List.forall_mem_append.mpr ⟨hpre, List.forall_mem_cons.mpr ⟨hl, hpost⟩⟩⟩

theorem Lines.setVal (h : s.Lines (pre ++ (p, l) :: post)) (hm : m.Sound) :
    ∃ text, s.text.setVal p m = some text ∧
      ({ s with text } : Editor).Lines (pre ++ (p, m) :: post) := by
  obtain ⟨text, htext, holds⟩ := h.holds.setVal m
  obtain ⟨hpre, -, hpost⟩ := h.forall_sound
  exact ⟨text, htext, .of_sound holds hpre hm hpost⟩

/-- `split` on the list of the lines, which need not be as short as the editor keeps them. -/
theorem split_holds (h : Dlist.Holds (fun _ => none) s.text (pre ++ (p, l) :: post)) (hpos : pos ≤ l.len) :
    ∃ s' q, s.split p pos = some s' ∧
      Dlist.Holds (fun _ => none) s'.text (pre ++ (p, l.truncate pos) :: (q, l.rest pos) :: post) ∧
      s'.insertCharacter = s.insertCharacter ∧
      (s'.currline = s.currline ∨ s'.currline = some q) := by
  obtain ⟨halloc, hfresh, -⟩ := h.alloc (l.rest pos)
  obtain ⟨text₁, htext₁, holds₁⟩ := halloc.setVal (l.truncate pos)
  have hnew : text₁.node (s.text.alloc (l.rest pos)).1 = some ⟨none, none, l.rest pos⟩ := by
    have hne : (s.text.alloc (l.rest pos)).1 ≠ p := fun heq => hfresh (by simp [heq])
    obtain rfl := Option.some.inj ((setVal_eq halloc.node _).symm.trans htext₁)
    rw [node_put_ne hne]
    simp [Dlist.node, Dlist.alloc]
  obtain ⟨text₂, htext₂, holds₂⟩ := holds₁.insertAfter hnew (by simpa using hfresh) rfl
  rw [Editor.split, h.node]
  simp only [Option.bind_eq_bind, Option.bind_some, if_neg (Nat.not_lt.mpr hpos), htext₁, htext₂]
  split
  · exact ⟨_, _, rfl, holds₂, rfl, .inr rfl⟩
  · exact ⟨_, _, rfl, holds₂, rfl, .inl rfl⟩

theorem Lines.split (h : s.Lines (pre ++ (p, l) :: post)) (hpos : pos ≤ l.len) :
    ∃ s' q, s.split p pos = some s' ∧
      s'.Lines (pre ++ (p, l.truncate pos) :: (q, l.rest pos) :: post) := by
  obtain ⟨hpre, hl, hpost⟩ := h.forall_sound
  obtain ⟨s', q, hs', holds, -⟩ := split_holds h.holds hpos
  exact ⟨s', q, hs', .of_sound holds hpre (hl.truncate hpos)
    (List.forall_mem_cons.mpr ⟨hl.rest hpos, hpost⟩)⟩

theorem Lines.deleteLine (h : s.Lines (pre ++ (p, l) :: (q, m) :: post)) :
    ∃ s', s.deleteLine q = some s' ∧ s'.Lines (pre ++ (p, l) :: post) := by
  have hsplit : ∀ tail, pre ++ (p, l) :: tail = (pre ++ [(p, l)]) ++ tail := fun _ => by simp
  rw [hsplit] at h ⊢
  obtain ⟨hpre, -, hpost⟩ := h.forall_sound
  obtain ⟨text, htext, holds, -⟩ := h.holds.remove
  have hnode := h.holds.node
  rw [List.getLast?_concat] at hnode
  rw [Editor.deleteLine, hnode]
  simp only [Option.bind_eq_bind, Option.bind_some, Option.map_some, reduceCtorEq, and_false,
    if_false, htext]
  exact ⟨_, rfl, ⟨holds, List.forall_mem_append.mpr ⟨hpre, hpost⟩⟩⟩

theorem Lines.next (h : s.Lines (pre ++ (p, l) :: (q, m) :: post)) :
    s.text.node p = some ⟨pre.getLast?.map Prod.fst, some q, l⟩ ∧
      s.text.node q = some ⟨some p, post.head?.map Prod.fst, m⟩ := by
  have h' : s.Lines ((pre ++ [(p, l)]) ++ (q, m) :: post) := by simpa using h
  refine ⟨h.holds.node, ?_⟩
  rw [h'.holds.node, List.getLast?_concat]
  rfl

/-- Two lines that fit on one. -/
theorem Lines.join_fits (h : s.Lines (pre ++ (p, l) :: (q, m) :: post))
    (hfit : l.len + m.len < wrapMargin) (depth : Nat) :
    ∃ s', s.join p (depth + 1) = some (true, s') ∧
      s'.Lines (pre ++ (p, l.append m.text m.len) :: post) := by
  obtain ⟨-, hl, hrest⟩ := h.forall_sound
  have hm : m.Sound := hrest (q, m) List.mem_cons_self
  obtain ⟨hp, hq⟩ := h.next
  obtain ⟨text, htext, hlines⟩ := h.setVal (hl.append hm hfit)
  obtain ⟨s', hs', hlines'⟩ := hlines.deleteLine
  rw [Editor.join, hp]
  simp only [Option.bind_eq_bind, Option.bind_some, hq, if_pos hfit, htext, hs']
  exact ⟨s', rfl, hlines'⟩

/-- A blank is put behind a line that has room for it. -/
theorem Lines.blankBehind (h : s.Lines (pre ++ (p, l) :: post)) (hroom : l.len + 1 < wrapMargin) :
    ∃ s' l', s.blankBehind p = some s' ∧ s'.Lines (pre ++ (p, l') :: post) ∧
      (l'.text = l.text ∨ l'.text = l.text ++ [32]) := by
  obtain ⟨-, hl, -⟩ := h.forall_sound
  rw [Editor.blankBehind, h.holds.node]
  simp only [Option.bind_eq_bind, Option.bind_some]
  split
  case isFalse => exact ⟨s, l, rfl, h, .inl rfl⟩
  case isTrue =>
    have hsize : l.len + ([32] : Bytes).length < 256 := Nat.lt_succ_of_lt hroom
    have hnul : (0 : UInt8) ∉ ([32] : Bytes) := by decide
    obtain ⟨text, htext, hlines⟩ := h.setVal (m := l.append [32] 1)
      ⟨Textline.append_exact hl.exact hnul hsize, hroom⟩
    rw [htext]
    exact ⟨_, _, rfl, hlines, .inr (Textline.text_append hl.exact hnul hsize)⟩

/-! ## What fits of the next line -/

/-- Either nothing is left to be done, with the same text on the lines, or the words that fit have
gone to the line and what is left of the next one follows it. -/
theorem Lines.join (h : s.Lines (pre ++ (p, l) :: post)) :
    (∃ s' ys, s.join p 2 = some (true, s') ∧ s'.Lines (pre ++ ys) ∧
      (texts ys).flatten = l.text ++ (texts post).flatten) ∨
    ∃ s' l' q m r rest tail, post = (q, m) :: tail ∧ s.join p 2 = some (false, s') ∧
      s'.Lines (pre ++ (p, l') :: (r, rest) :: tail) ∧
      ∃ left, l'.text ++ left = l.text ++ m.text ∧
        (rest.text = left ∨ rest.text = left ++ [32]) := by
  cases post with
  | nil =>
    left
    refine ⟨s, [(p, l)], ?_, h, rfl⟩
    rw [Editor.join, h.holds.node]
    rfl
  | cons x tail =>
    obtain ⟨q, m⟩ := x
    obtain ⟨-, hl, hrest⟩ := h.forall_sound
    have hm : m.Sound := hrest (q, m) List.mem_cons_self
    obtain ⟨hp, hq⟩ := h.next
    by_cases hfit : l.len + m.len < wrapMargin
    · obtain ⟨s', hs', hlines⟩ := h.join_fits hfit 1
      refine .inl ⟨s', _, hs', hlines, ?_⟩
      rw [texts_cons, List.flatten_cons, hl.text_append hm hfit, List.append_assoc]
      rfl
    · have hsplit : ∀ x tail, pre ++ (p, x) :: tail = (pre ++ [(p, x)]) ++ tail := fun _ _ => by simp
      rw [Editor.join, hp]
      simp only [Option.bind_eq_bind, Option.bind_some, hq, if_neg hfit]
      split
      case isTrue => exact .inl ⟨s, _, rfl, h, rfl⟩
      case isFalse hk =>
        obtain ⟨-, hklt⟩ := Textline.lastBlank_spec hk
        generalize m.lastBlank (wrapMargin - 1 - l.len) = k at hk hklt
        have hwrap : wrapMargin = 255 := rfl
        have hlt := hl.lt
        have hmlt := hm.lt
        have hpos : k + 1 ≤ m.len := by omega
        have hfit' : l.len + (m.truncate (k + 1)).len < wrapMargin := by
          change l.len + (k + 1) < wrapMargin
          omega
        obtain ⟨s₁, r, hs₁, hlines₁⟩ := (hsplit l _ ▸ h : s.Lines _).split hpos
        rw [← hsplit] at hlines₁
        obtain ⟨hp₁, hq₁⟩ := hlines₁.next
        obtain ⟨s₂, hs₂, hlines₂⟩ := hlines₁.join_fits hfit' 0
        obtain ⟨hp₂, -⟩ := hlines₂.next
        have hroom : (m.rest (k + 1)).len + 1 < wrapMargin := by
          change m.len - (k + 1) + 1 < wrapMargin
          omega
        obtain ⟨s₃, rest, hs₃, hlines₃, hrest⟩ :=
          (hsplit _ _ ▸ hlines₂ : s₂.Lines _).blankBehind hroom
        rw [← hsplit] at hlines₃
        refine .inr ⟨s₃, _, q, m, r, rest, tail, rfl, ?_, hlines₃, (m.rest (k + 1)).text, ?_, hrest⟩
        · simp only [hs₁, hp₁, hq₁, if_neg (Nat.not_le.mpr hfit'), hs₂, hp₂, hs₃, Option.bind_some]
        · rw [hl.text_append (hm.truncate hpos) hfit', List.append_assoc, hm.text_split hpos]

/-! ## What is left, line by line -/

theorem length_le_mem {d : Dlist Textline} {xs : List (Nat × Textline)}
    (h : Dlist.Holds (fun _ => none) d xs) : xs.length ≤ d.mem.length := by
  have hsub : xs.map Prod.fst ⊆ List.range d.mem.length := fun a ha => by
    obtain ⟨n, hn⟩ := h.isSome ha
    exact List.mem_range.mpr (lt_of_node hn)
  have hle := (h.nodup.subperm hsub).length_le
  rwa [List.length_map, List.length_range] at hle

/-- The loop comes to an end on the lines that follow. -/
theorem Lines.join_loop (h : s.Lines (pre ++ (p, l) :: post)) {fuel : Nat}
    (hfuel : post.length < fuel) :
    ∃ s' ys, loop (fun (p, s) => do
        let (joined, s) ← Editor.join s p 2
        if joined then some (.inr s)
        else
          let n ← s.text.node p
          let q ← n.next
          some (.inl (q, s))) fuel (p, s) = some s' ∧
      s'.Lines (pre ++ ys) ∧
      ∃ text, (texts ys).flatten = l.text ++ text ∧ Padded (texts post) text := by
  induction post generalizing pre p l s fuel with
  | nil =>
    obtain ⟨fuel, rfl⟩ := Nat.exists_eq_succ_of_ne_zero (Nat.ne_zero_of_lt hfuel)
    obtain ⟨s', ys, hs', hlines, htext⟩ | ⟨_, _, _, _, _, _, _, hpost, -⟩ := h.join
    · simp only [loop, hs', Option.bind_eq_bind, Option.bind_some, if_true]
      exact ⟨s', ys, rfl, hlines, _, htext, .nil⟩
    · cases hpost
  | cons x post ih =>
    obtain ⟨fuel, rfl⟩ := Nat.exists_eq_succ_of_ne_zero (Nat.ne_zero_of_lt hfuel)
    obtain ⟨s', ys, hs', hlines, htext⟩ |
      ⟨s', l', q, m, r, rest, tail, hpost, hs', hlines, left, hleft, hrest⟩ := h.join
    · simp only [loop, hs', Option.bind_eq_bind, Option.bind_some, if_true]
      exact ⟨s', ys, rfl, hlines, _, htext, padded_flatten _⟩
    · cases hpost
      obtain ⟨hp, -⟩ := hlines.next
      have hlines' : s'.Lines ((pre ++ [(p, l')]) ++ (r, rest) :: post) := by simpa using hlines
      obtain ⟨s'', ys, hs'', hlines'', text, htext, hpadded⟩ :=
        ih hlines' (Nat.lt_of_succ_lt_succ hfuel)
      simp only [loop, hs', Option.bind_eq_bind, Option.bind_some, Bool.false_eq_true, if_false, hp]
      refine ⟨s'', (p, l') :: ys, hs'', by simpa using hlines'', ?_⟩
      rw [texts_cons, List.flatten_cons, htext, ← List.append_assoc]
      rcases hrest with hrest | hrest
      · refine ⟨m.text ++ text, ?_, .line hpadded⟩
        rw [hrest, hleft, List.append_assoc]
      · refine ⟨m.text ++ 32 :: text, ?_, .blank hpadded⟩
        rw [hrest, ← List.append_assoc, hleft]
        simp only [List.append_assoc, List.singleton_append]

theorem Lines.joinLines (h : s.Lines (pre ++ (p, l) :: post)) :
    ∃ s' ys, s.joinLines p = some s' ∧ s'.Lines (pre ++ ys) ∧
      ∃ text, (texts ys).flatten = l.text ++ text ∧ Padded (texts post) text := by
  apply h.join_loop
  have hle := length_le_mem h.holds
  rw [List.length_append, List.length_cons] at hle
  omega

theorem Lines.split_behind (h : s.Lines (pre ++ (p, l) :: post)) (hpos : l.len < pos) :
    s.split p pos = some s := by
  rw [Editor.split, h.holds.node]
  exact if_pos hpos

theorem Lines.veditInit (insertCharacter enabledbchar : Bool) (lastindent : Option Nat) :
    (veditInit insertCharacter enabledbchar lastindent).Lines [(0, .alloc)] where
  holds := ⟨List.nodup_singleton 0, ⟨rfl, trivial⟩, rfl, rfl, fun _ _ h => nomatch h⟩
  sound x hx := by
    obtain rfl := List.mem_singleton.mp hx
    exact ⟨rfl, Nat.succ_pos _⟩

end Editor

end ArgoBbs

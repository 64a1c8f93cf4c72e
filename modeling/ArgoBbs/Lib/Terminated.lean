import Mathlib.Data.List.Basic
import Mathlib.Data.List.DropRight

/-! # Terminated messages

Messages that are sent one after the other, each with a terminator behind it. A stream is cut into
its complete messages and the piece of a message behind them in exactly one way. -/

namespace ArgoBbs

variable {α : Type} {sep : α}

/-- The messages one after the other, with their terminators. -/
def packed (sep : α) (msgs : List (List α)) : List α := msgs.flatMap (· ++ [sep])

@[simp] theorem packed_nil : packed sep [] = [] := rfl

@[simp] theorem packed_cons (msg : List α) (msgs : List (List α)) :
    packed sep (msg :: msgs) = msg ++ sep :: packed sep msgs := by
  simp [packed, List.flatMap_cons]

theorem packed_append (msgs more : List (List α)) :
    packed sep (msgs ++ more) = packed sep msgs ++ packed sep more := List.flatMap_append

/-- There are as many terminators as messages. -/
theorem count_packed [DecidableEq α] {msgs : List (List α)} (h : ∀ msg ∈ msgs, sep ∉ msg) :
    (packed sep msgs).count sep = msgs.length := by
  induction msgs with
  | nil => rfl
  | cons msg msgs ih =>
    obtain ⟨hmsg, hmsgs⟩ := List.forall_mem_cons.mp h
    rw [packed_cons, List.count_append, List.count_eq_zero_of_not_mem hmsg, List.count_cons_self,
      ih hmsgs, Nat.zero_add, List.length_cons]

theorem packed_eq_nil_or (sep : α) (msgs : List (List α)) :
    msgs = [] ∨ ∃ pre, packed sep msgs = pre ++ [sep] := by
  rcases msgs.eq_nil_or_concat with h | ⟨init, msg, h⟩
  · exact .inl h
  · refine .inr ⟨packed sep init ++ msg, ?_⟩
    rw [h, List.concat_eq_append, packed_append]
    simp

/-- Every stream consists of messages and a piece of one. -/
theorem exists_packed [DecidableEq α] (sep : α) (input : List α) :
    ∃ msgs rest, input = packed sep msgs ++ rest ∧ (∀ msg ∈ msgs, sep ∉ msg) ∧ sep ∉ rest := by
  induction input with
  | nil => exact ⟨[], [], rfl, by simp, by simp⟩
  | cons c input ih =>
    obtain ⟨msgs, rest, hinput, hmsgs, hrest⟩ := ih
    by_cases hc : c = sep
    · refine ⟨[] :: msgs, rest, by simp [hinput, hc], ?_, hrest⟩
      simpa using hmsgs
    · cases msgs with
      | nil =>
        refine ⟨[], c :: rest, by simp [hinput], by simp, ?_⟩
        simp [hrest, Ne.symm hc]
      | cons msg msgs =>
        refine ⟨(c :: msg) :: msgs, rest, by simp [hinput], ?_, hrest⟩
        intro m hm
        rcases List.mem_cons.mp hm with rfl | hm
        · simpa [Ne.symm hc] using hmsgs msg List.mem_cons_self
        · exact hmsgs m (List.mem_cons_of_mem _ hm)

/-- The first terminator ends the first message. -/
theorem append_sep_inj {a b xs ys : List α} (ha : sep ∉ a) (hb : sep ∉ b)
    (h : a ++ sep :: xs = b ++ sep :: ys) : a = b ∧ xs = ys := by
  induction a generalizing b with
  | nil =>
    cases b with
    | nil => exact ⟨rfl, (List.cons.inj h).2⟩
    | cons c b => exact absurd ((List.cons.inj h).1 ▸ List.mem_cons_self) hb
  | cons c a ih =>
    cases b with
    | nil => exact absurd ((List.cons.inj h).1 ▸ List.mem_cons_self) ha
    | cons c' b =>
      obtain ⟨hc, htail⟩ := List.cons.inj h
      obtain ⟨hab, hxy⟩ := ih (fun hm => ha (List.mem_cons_of_mem _ hm))
        (fun hm => hb (List.mem_cons_of_mem _ hm)) htail
      exact ⟨by rw [hc, hab], hxy⟩

/-- The messages of a stream and the piece behind them are determined by the stream. -/
theorem packed_inj {msgs msgs' : List (List α)} {rest rest' : List α}
    (hmsgs : ∀ msg ∈ msgs, sep ∉ msg) (hmsgs' : ∀ msg ∈ msgs', sep ∉ msg)
    (hrest : sep ∉ rest) (hrest' : sep ∉ rest')
    (h : packed sep msgs ++ rest = packed sep msgs' ++ rest') : msgs = msgs' ∧ rest = rest' := by
  induction msgs generalizing msgs' with
  | nil =>
    cases msgs' with
    | nil => exact ⟨rfl, h⟩
    | cons msg msgs' =>
      refine absurd ?_ hrest
      simp only [packed_nil, List.nil_append] at h
      simp [h]
  | cons msg msgs ih =>
    cases msgs' with
    | nil =>
      refine absurd ?_ hrest'
      simp only [packed_nil, List.nil_append] at h
      simp [← h]
    | cons msg' msgs' =>
      simp only [packed_cons, List.append_assoc, List.cons_append] at h
      obtain ⟨hmsg, htail⟩ := append_sep_inj (hmsgs msg List.mem_cons_self)
        (hmsgs' msg' List.mem_cons_self) h
      obtain ⟨hmore, hrest⟩ := ih (fun m hm => hmsgs m (List.mem_cons_of_mem _ hm))
        (fun m hm => hmsgs' m (List.mem_cons_of_mem _ hm)) htail
      exact ⟨by rw [hmsg, hmore], hrest⟩

/-- Memory that holds a terminator starts with a message. -/
theorem exists_terminated [DecidableEq α] {mem : List α} (h : sep ∈ mem) :
    ∃ more, mem = mem.takeWhile (· ≠ sep) ++ sep :: more := by
  induction mem with
  | nil => cases h
  | cons c mem ih =>
    by_cases hc : c = sep
    · exact ⟨mem, by simp [hc]⟩
    · obtain ⟨more, hmore⟩ := ih ((List.mem_cons.mp h).resolve_left (Ne.symm hc))
      refine ⟨more, ?_⟩
      have hhead : (c :: mem).takeWhile (· ≠ sep) = c :: mem.takeWhile (· ≠ sep) := by simp [hc]
      rw [hhead, List.cons_append, ← hmore]

/-- What stands behind the last terminator of a stream. -/
def unfinished [DecidableEq α] (sep : α) (input : List α) : List α := input.rtakeWhile (· ≠ sep)

theorem unfinished_packed [DecidableEq α] {msgs : List (List α)} {rest : List α}
    (hrest : sep ∉ rest) : unfinished sep (packed sep msgs ++ rest) = rest := by
  have hall : rest.reverse.takeWhile (· ≠ sep) = rest.reverse := by
    rw [List.takeWhile_eq_self_iff]
    intro c hc
    have hne : c ≠ sep := by
      rintro rfl
      exact hrest (List.mem_reverse.mp hc)
    exact decide_eq_true hne
  rw [unfinished, List.rtakeWhile, List.reverse_append, List.takeWhile_append, hall, if_pos rfl]
  rcases packed_eq_nil_or sep msgs with h | ⟨pre, hpre⟩
  · simp [h]
  · simp [hpre]

end ArgoBbs

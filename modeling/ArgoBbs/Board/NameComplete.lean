import ArgoBbs.Board.Filters
import Mathlib.Data.List.TakeWhile

/-! # The prompt for names

`namecomplete` reads a name key by key. It takes a key only if a name of the list starts with what
is then typed, and completes what is typed at a blank. When the name is entered, the only name left
is taken, or the name that is typed in full; else what is typed is taken as it is
(`namecomplete.c`). -/

namespace ArgoBbs

/-- `chkstr`: the name starts with the tag, which is in upper case. -/
def chkstr : (tag name : Bytes) → Bool
  | [], _ => true
  | _ :: _, [] => false
  | t :: tag, c :: name => t = toupper c && chkstr tag name

def getSubList (tag : Bytes) (list : List Bytes) : List Bytes := list.filter (chkstr (tag.map toupper))

/-- What `namecomplete` finds in memory that nothing has written: a string in the buffer for the
name, and the bytes behind the names of the list. -/
structure Unwritten where
  data : Bytes
  past : Bytes → Nat → UInt8

/-- `word[i]`. -/
def wordAt (mem : Unwritten) (word : Bytes) (i : Nat) : UInt8 :=
  if i ≤ word.length then word.getD i 0 else mem.past word i

/-- The bytes of the buffer before `temp`, the string from there on, and the names that are left. -/
structure Prompt where
  data : Bytes
  rest : Bytes
  cwlist : List Bytes

namespace Prompt

/-- The string in the buffer. -/
def text (p : Prompt) : Bytes := (p.data ++ p.rest).takeWhile (· ≠ 0)

/-- The byte is added if a name is left. -/
def add (p : Prompt) (ch : UInt8) : Option Prompt :=
  let p' := { p with data := p.data ++ [ch], rest := [] }
  let node := getSubList p'.text p.cwlist
  if node = [] then none else some { p' with cwlist := node }

/-- The loop that completes the name from the byte `i` on, which ends where the names that are left
differ; `left` is how far it is to the end of the buffer. -/
def complete (mem : Unwritten) : (left i : Nat) → Prompt → Prompt
  | 0, _, p => p
  | left + 1, i, p =>
    let ch := wordAt mem (p.cwlist.headD []) i
    if ch = 0 then p
    else if p.cwlist.all fun word => toupper ch = toupper (wordAt mem word i) then
      match p.add ch with
      | some p => complete mem left (i + 1) p
      | none => { p with rest := [] }
    else p

def blank (mem : Unwritten) (p : Prompt) : Prompt :=
  match p.cwlist with
  | [word] => { p with data := word, rest := [] }
  | _ =>
    let i := p.text.length
    if i = 0 then p else complete mem (strlen - i) i p

def backspace (toplev : List Bytes) (p : Prompt) : Prompt :=
  if p.data = [] then p
  else
    let p := { p with data := p.data.dropLast, rest := [] }
    { p with cwlist := getSubList p.text toplev }

def type (p : Prompt) (ch : UInt8) : Prompt :=
  if p.data.length < strlen then (p.add ch).getD { p with rest := [] } else p

/-- The name that is entered. -/
def enter (p : Prompt) : Bytes :=
  let data := { p with rest := [] }.text
  match p.cwlist with
  | [word] => word
  | cwlist => (cwlist.find? (strcasecmpEq data)).getD data

/-- The loop over the keys; `none` if no name is entered. -/
def run (mem : Unwritten) (toplev : List Bytes) : Prompt → List UInt8 → Option Bytes
  | _, [] => none
  | p, ch :: keys =>
    if ch = 10 ∨ ch = 13 then some p.enter
    else if ch = 32 then run mem toplev (p.blank mem) keys
    else if ch = 127 ∨ ch = 8 then run mem toplev (p.backspace toplev) keys
    else run mem toplev (p.type ch) keys

end Prompt

/-- `namecomplete` with the list of names and the keys that `igetkey` returns. -/
def namecomplete (mem : Unwritten) (names : List Bytes) (keys : List UInt8) : Option Bytes :=
  let toplev := if names = [] then addToNameList [] [] else names
  Prompt.run mem toplev ⟨[], mem.data, getSubList [] toplev⟩ keys

/-! ## Names that start with a tag -/

theorem chkstr_iff {tag name : Bytes} :
    chkstr (tag.map toupper) name = true ↔ tag.map toupper <+: name.map toupper := by
  induction tag generalizing name with
  | nil => simp [chkstr]
  | cons t tag ih =>
    cases name with
    | nil => simp [chkstr]
    | cons c name => simp [chkstr, ih, List.cons_prefix_cons]

theorem mem_getSubList {tag word : Bytes} {list : List Bytes} :
    word ∈ getSubList tag list ↔ word ∈ list ∧ tag.map toupper <+: word.map toupper := by
  rw [getSubList, List.mem_filter, chkstr_iff]

/-- The names that start with the longer tag are among those that start with the shorter one. -/
theorem getSubList_getSubList {tag tag' : Bytes} (h : tag.map toupper <+: tag'.map toupper)
    (list : List Bytes) : getSubList tag' (getSubList tag list) = getSubList tag' list := by
  rw [getSubList, getSubList, getSubList, List.filter_filter]
  congr 1
  funext word
  rw [Bool.eq_iff_iff, Bool.and_eq_true, chkstr_iff, chkstr_iff]
  exact ⟨fun hw => hw.1, fun hw => ⟨hw, h.trans hw⟩⟩

theorem getSubList_nil (list : List Bytes) : getSubList [] list = list :=
  List.filter_eq_self.mpr fun _ _ => rfl

/-- Two names or more start with the text, and none is the text. -/
def Ambiguous (names : List Bytes) (text : Bytes) : Prop :=
  2 ≤ (getSubList text names).length ∧ ∀ word ∈ names, strcasecmpEq text word = false

theorem takeWhile_prefix_takeWhile {p : α → Bool} {a b : List α} (h : a <+: b) :
    a.takeWhile p <+: b.takeWhile p := by
  obtain ⟨c, rfl⟩ := h
  rw [List.takeWhile_append]
  split
  case isTrue hall =>
    rw [(List.takeWhile_prefix _).eq_of_length hall]
    exact List.prefix_append _ _
  case isFalse => exact List.prefix_rfl

namespace Prompt

/-- What has been typed. -/
def typed (p : Prompt) : Bytes := p.data.takeWhile (· ≠ 0)

/-- The names that are left are those that start with what has been typed, and there are some. -/
structure Ok (toplev : List Bytes) (p : Prompt) : Prop where
  names : p.cwlist = getSubList p.typed toplev
  left : p.cwlist ≠ []

variable {mem : Unwritten} {toplev : List Bytes} {p p' : Prompt}

theorem Ok.rest (h : p.Ok toplev) (rest : Bytes) : ({ p with rest } : Prompt).Ok toplev :=
  ⟨h.names, h.left⟩

theorem Ok.add (h : p.Ok toplev) {ch : UInt8} (hadd : p.add ch = some p') : p'.Ok toplev := by
  unfold Prompt.add at hadd
  dsimp only at hadd
  split at hadd
  · cases hadd
  case isFalse hne =>
    cases hadd
    refine ⟨?_, hne⟩
    have htext : ({ data := p.data ++ [ch], rest := [], cwlist := p.cwlist } : Prompt).text =
        (p.data ++ [ch]).takeWhile (· ≠ 0) := by
      rw [text, List.append_nil]
    have hstart : p.typed <+: (p.data ++ [ch]).takeWhile (· ≠ 0) :=
      takeWhile_prefix_takeWhile (List.prefix_append _ _)
    rw [htext, h.names, getSubList_getSubList (hstart.map toupper)]
    rfl

theorem Ok.complete {left i : Nat} (h : p.Ok toplev) : (Prompt.complete mem left i p).Ok toplev := by
  induction left generalizing i p with
  | zero => exact h
  | succ left ih =>
    rw [Prompt.complete]
    split
    · exact h
    · split
      · cases hadd : p.add (wordAt mem (p.cwlist.headD []) i) with
        | none => exact h.rest []
        | some p' => exact ih (h.add hadd)
      · exact h

theorem Ok.blank (h : p.Ok toplev) (hfree : ∀ word ∈ toplev, 0 ∉ word) :
    (p.blank mem).Ok toplev := by
  rw [Prompt.blank]
  split
  case h_1 word hword =>
    have hmem : word ∈ toplev := by
      have hin : word ∈ p.cwlist := by simp [hword]
      rw [h.names, mem_getSubList] at hin
      exact hin.1
    have htyped : ({ data := word, rest := [], cwlist := p.cwlist } : Prompt).typed = word := by
      rw [typed, List.takeWhile_eq_self_iff]
      intro c hc
      have hne : c ≠ 0 := fun h0 => hfree word hmem (h0 ▸ hc)
      exact decide_eq_true hne
    refine ⟨?_, h.left⟩
    have honly : getSubList word toplev = [word] := by
      have hstart : word ∈ getSubList p.typed toplev := by simp [← h.names, hword]
      rw [← getSubList_getSubList (mem_getSubList.mp hstart).2, ← h.names, hword]
      refine List.filter_eq_self.mpr fun w hw => ?_
      rw [List.mem_singleton.mp hw]
      exact chkstr_iff.mpr List.prefix_rfl
    exact hword.trans (by rw [htyped, honly])
  case h_2 =>
    dsimp only
    split
    · exact h
    · exact h.complete

theorem Ok.backspace (h : p.Ok toplev) : (p.backspace toplev).Ok toplev := by
  rw [Prompt.backspace]
  split
  · exact h
  · have htext : ({ data := p.data.dropLast, rest := [], cwlist := p.cwlist } : Prompt).text =
        p.data.dropLast.takeWhile (· ≠ 0) := by
      rw [text, List.append_nil]
    refine ⟨congrArg (getSubList · toplev) htext, ?_⟩
    obtain ⟨word, hword⟩ := List.exists_mem_of_ne_nil _ h.left
    rw [h.names, mem_getSubList] at hword
    have hstart : p.data.dropLast.takeWhile (· ≠ 0) <+: p.typed :=
      takeWhile_prefix_takeWhile (List.dropLast_prefix p.data)
    have hin : word ∈ getSubList (p.data.dropLast.takeWhile (· ≠ 0)) toplev :=
      mem_getSubList.mpr ⟨hword.1, (hstart.map toupper).trans hword.2⟩
    rw [← htext] at hin
    exact List.ne_nil_of_mem hin

theorem Ok.type (h : p.Ok toplev) (ch : UInt8) : (p.type ch).Ok toplev := by
  rw [Prompt.type]
  split
  · cases hadd : p.add ch with
    | none => exact h.rest []
    | some p' => exact h.add hadd
  · exact h

/-- The name that is entered is in the list, or what is typed is ambiguous. -/
theorem Ok.enter (h : p.Ok toplev) : p.enter ∈ toplev ∨ Ambiguous toplev p.enter := by
  have htext : ({ p with rest := [] } : Prompt).text = p.typed := by
    rw [text, List.append_nil]
    rfl
  rw [Prompt.enter, htext]
  split
  case h_1 word hword =>
    have hin : word ∈ p.cwlist := by simp [hword]
    rw [h.names, mem_getSubList] at hin
    exact .inl hin.1
  case h_2 hother =>
    cases hfind : p.cwlist.find? (strcasecmpEq p.typed) with
    | some word =>
      have hin := List.mem_of_find?_eq_some hfind
      rw [h.names, mem_getSubList] at hin
      exact .inl hin.1
    | none =>
      refine .inr ⟨?_, ?_⟩
      · dsimp only [Option.getD_none]
        rw [← h.names]
        match hlist : p.cwlist with
        | [] => exact absurd hlist h.left
        | [word] => exact absurd hlist (hother word)
        | _ :: _ :: _ => simp
      · intro word hword
        by_contra hsame
        have hsame := eq_true_of_ne_false hsame
        have hin : word ∈ p.cwlist := by
          rw [h.names, mem_getSubList]
          exact ⟨hword, strcasecmpEq_iff_toupper.mp hsame ▸ List.prefix_rfl⟩
        exact absurd hsame (List.find?_eq_none.mp hfind word hin)

theorem Ok.run (h : p.Ok toplev) (hfree : ∀ word ∈ toplev, 0 ∉ word) {keys : List UInt8}
    {name : Bytes} (hrun : Prompt.run mem toplev p keys = some name) :
    name ∈ toplev ∨ Ambiguous toplev name := by
  induction keys generalizing p with
  | nil => cases hrun
  | cons ch keys ih =>
    rw [Prompt.run] at hrun
    split at hrun
    · rw [← Option.some.inj hrun]
      exact h.enter
    · split at hrun
      · exact ih (h.blank hfree) hrun
      · split at hrun
        · exact ih h.backspace hrun
        · exact ih (h.type ch) hrun

/-! ## Typing a text -/

/-- The byte is none of the keys with another meaning, and ends no string. -/
def plain (ch : UInt8) : Bool := ch ≠ 0 && ch ≠ 8 && ch ≠ 10 && ch ≠ 13 && ch ≠ 32 && ch ≠ 127

/-- A text that names of the list start with can be typed. -/
theorem run_append {text more : Bytes} (hdata : p.data.all plain = true)
    (htext : text.all plain = true) (hlen : (p.data ++ text).length < strlen)
    (hnames : p.cwlist = getSubList p.data toplev) (hleft : getSubList (p.data ++ text) toplev ≠ []) :
    ∃ rest, Prompt.run mem toplev p (text ++ more) = Prompt.run mem toplev
      ⟨p.data ++ text, rest, getSubList (p.data ++ text) toplev⟩ more := by
  induction text generalizing p with
  | nil => exact ⟨p.rest, by rw [List.append_nil, List.nil_append, ← hnames]⟩
  | cons ch text ih =>
    rw [List.all_cons, Bool.and_eq_true] at htext
    obtain ⟨hch, htext⟩ := htext
    have hsplit : p.data ++ ch :: text = p.data ++ [ch] ++ text := by simp
    have hdata' : (p.data ++ [ch]).all plain = true := by simp [hdata, hch]
    have hwhole : (p.data ++ [ch]).takeWhile (· ≠ 0) = p.data ++ [ch] := by
      rw [List.takeWhile_eq_self_iff]
      intro c hc
      have := List.all_eq_true.mp hdata' c hc
      simp only [plain, Bool.and_eq_true] at this
      exact this.1.1.1.1.1
    have hnode : getSubList (p.data ++ [ch]) p.cwlist = getSubList (p.data ++ [ch]) toplev := by
      rw [hnames]
      exact getSubList_getSubList ((List.prefix_append _ _).map toupper) _
    have hne : getSubList (p.data ++ [ch]) toplev ≠ [] := by
      obtain ⟨word, hword⟩ := List.exists_mem_of_ne_nil _ hleft
      rw [hsplit, mem_getSubList] at hword
      apply List.ne_nil_of_mem (a := word)
      exact mem_getSubList.mpr ⟨hword.1, ((List.prefix_append _ _).map toupper).trans hword.2⟩
    have htype : p.type ch = ⟨p.data ++ [ch], [], getSubList (p.data ++ [ch]) toplev⟩ := by
      have hroom : p.data.length < strlen := by
        rw [List.length_append] at hlen
        omega
      rw [Prompt.type, if_pos hroom, Prompt.add]
      simp only [Prompt.text, List.append_nil, hwhole, hnode, if_neg hne, Option.getD_some]
    have hkey : Prompt.run mem toplev p (ch :: text ++ more) =
        Prompt.run mem toplev (p.type ch) (text ++ more) := by
      simp only [plain, Bool.and_eq_true, decide_eq_true_iff] at hch
      rw [List.cons_append, Prompt.run, if_neg (by simp [hch]), if_neg (by simp [hch]),
        if_neg (by simp [hch])]
    rw [hkey, htype, hsplit]
    rw [hsplit] at hlen hleft
    exact ih hdata' htext hlen rfl hleft

end Prompt

/-- What the prompt returns is a name of the list, nothing, or an ambiguous text. -/
theorem namecomplete_mem_or {mem : Unwritten} {names : List Bytes} {keys : List UInt8}
    {name : Bytes} (hfree : ∀ word ∈ names, 0 ∉ word)
    (h : namecomplete mem names keys = some name) :
    name ∈ names ∨ name = [] ∨ Ambiguous names name := by
  have hstart {toplev : List Bytes} (hne : toplev ≠ []) :
      Prompt.Ok toplev ⟨[], mem.data, getSubList [] toplev⟩ :=
    ⟨rfl, by rwa [getSubList_nil]⟩
  unfold namecomplete at h
  by_cases hnames : names = []
  · rw [if_pos hnames] at h
    have hone : addToNameList [] [] = [[]] := rfl
    rw [hone] at h
    rcases (hstart (List.cons_ne_nil _ _)).run (by simp) h with hname | hname
    · exact .inr (.inl (List.mem_singleton.mp hname))
    · have hle : (getSubList name [[]]).length ≤ 1 := List.length_filter_le _ _
      have := hname.1
      omega
  · rw [if_neg hnames] at h
    rcases (hstart hnames).run hfree h with hname | hname
    · exact .inl hname
    · exact .inr (.inr hname)

/-- Every ambiguous text can be entered. -/
theorem namecomplete_ambiguous (mem : Unwritten) {names : List Bytes} {text : Bytes}
    (htext : text.all Prompt.plain = true) (hlen : text.length < strlen)
    (h : Ambiguous names text) : namecomplete mem names (text ++ [10]) = some text := by
  obtain ⟨hmany, hnone⟩ := h
  have hne : names ≠ [] := by
    rintro rfl
    cases hmany
  have hleft : getSubList text names ≠ [] := by
    intro hnil
    rw [hnil] at hmany
    cases hmany
  rw [namecomplete, if_neg hne]
  obtain ⟨rest, hrun⟩ := @Prompt.run_append mem names ⟨[], mem.data, getSubList [] names⟩ text [10]
    rfl htext hlen rfl hleft
  have hwhole : text.takeWhile (· ≠ 0) = text := by
    rw [List.takeWhile_eq_self_iff]
    intro c hc
    have hplain := List.all_eq_true.mp htext c hc
    simp only [Prompt.plain, Bool.and_eq_true] at hplain
    exact hplain.1.1.1.1.1
  have hfind : (getSubList text names).find? (strcasecmpEq text) = none := by
    rw [List.find?_eq_none]
    intro word hword
    rw [hnone word (mem_getSubList.mp hword).1]
    exact Bool.false_ne_true
  rw [hrun, Prompt.run, if_pos (.inl rfl), Prompt.enter]
  simp only [List.nil_append, Prompt.text, List.append_nil, hwhole]
  split
  case h_1 word hword =>
    rw [hword] at hmany
    cases Nat.lt_of_succ_le (Nat.le_of_succ_le_succ hmany)
  case h_2 => rw [hfind, Option.getD_none]

end ArgoBbs

import ArgoBbs.Lib.Fgets
import ArgoBbs.Lib.Tokens

/-! # Lists of hosts

`check_host` reads a file of rules in pieces of 39 bytes, and answers with the first rule that the
name of a host matches (`stuff.c`). -/

namespace ArgoBbs

/-- The delimiters are blanks, newlines, tabs and returns. -/
def isHostDelim (c : UInt8) : Bool := c = 32 || c = 10 || c = 9 || c = 13

/-- The rule of what is in the buffer: its first token, if that is no comment. -/
def hostRule (buf : Bytes) : Option Bytes :=
  match strtok isHostDelim (buf.takeWhile (· ≠ 0)) with
  | none => none
  | some (ptr, _) => if ptr.head? = some 35 then none else some ptr

/-- The verdict of a rule on a name, when a prefix is compared in a certain way. -/
def verdictBy (isPrefix : Bytes → Bytes → Bool) (ptr name : Bytes) : Option Int :=
  if ptr = name then some 1
  else if ptr.head? = some 45 ∧ name = ptr.drop 1 then some 0
  else if ptr.getLast? = some 46 ∧ isPrefix ptr name then some 1
  else if ptr.head? = some 46 ∧ ptr.length < name.length ∧
      ptr = name.drop (name.length - ptr.length) then some 1
  else none

/-- The tests of `check_host`, which compare a prefix without its dot. -/
def hostVerdict (ptr name : Bytes) : Option Int :=
  verdictBy (fun ptr name => strncmpEq ptr name (ptr.length - 1)) ptr name

/-- The loop of `check_host` over what `fgets` reads. -/
def checkHostLoop (name : Bytes) : List Bytes → Int
  | [] => 0
  | buf :: pieces =>
    match hostRule buf with
    | none => checkHostLoop name pieces
    | some ptr => (hostVerdict ptr name).getD (checkHostLoop name pieces)

def checkHost (list : Option Bytes) (name : Bytes) (nofile : Int) : Int :=
  match list with
  | none => nofile
  | some content => checkHostLoop name (fgetsLoop 40 [] content)

/-! ## The lines of the file as rules -/

/-- The verdict that the rule of a line has on a name; a prefix is compared with its dot. -/
def ruleVerdict (name line : Bytes) : Option Int :=
  (hostRule line).bind fun ptr => verdictBy List.isPrefixOf ptr name

/-- What the first of the pieces of a line says that says anything. -/
def piecesVerdict (name line : Bytes) : Option Int :=
  (fgetsLoop 40 [] line).findSome? fun buf => (hostRule buf).bind fun ptr => hostVerdict ptr name

/-- The first line with a verdict, and its verdict. -/
def decideLine (verdict : Bytes → Option Int) : List Bytes → Option (Nat × Int)
  | [] => none
  | line :: rest =>
    match verdict line with
    | some answer => some (0, answer)
    | none => (decideLine verdict rest).map (Prod.map (· + 1) id)

/-- The name starts with the rule but for the dot at its end, and matches it in no way. -/
def MissesDot (ptr name : Bytes) : Prop :=
  ptr.getLast? = some 46 ∧ strncmpEq ptr name (ptr.length - 1) = true ∧
    verdictBy List.isPrefixOf ptr name = none

instance (ptr name : Bytes) : Decidable (MissesDot ptr name) :=
  inferInstanceAs (Decidable (_ ∧ _ ∧ _))

/-- A line that fits the buffer has no rule that misses its dot; of the pieces of a longer one the
first that says anything says what the rule of the line does. -/
def ReadsRight (name line : Bytes) : Prop :=
  if line.length < 40 then ∀ ptr ∈ hostRule line, ¬MissesDot ptr name
  else piecesVerdict name line = ruleVerdict name line

/-- All lines are read right up to the first whose rule the name matches. -/
def RightUpTo (name : Bytes) : List Bytes → Prop
  | [] => True
  | line :: rest => ReadsRight name line ∧ (ruleVerdict name line = none → RightUpTo name rest)

variable {name line ptr : Bytes}

theorem strncmpEq_of_isPrefixOf (hstarts : ptr.isPrefixOf name = true) (n : Nat)
    (hn : n ≤ ptr.length) : strncmpEq ptr name n = true := by
  obtain ⟨rest, rfl⟩ := List.isPrefixOf_iff_prefix.mp hstarts
  rw [strncmpEq, List.take_append_of_le_length hn]
  exact decide_eq_true rfl

/-- Dropping the dot matters for a name that the rule matches in no other way. -/
theorem hostVerdict_eq_iff :
    hostVerdict ptr name = verdictBy List.isPrefixOf ptr name ↔ ¬MissesDot ptr name := by
  rw [MissesDot, hostVerdict]
  by_cases hdot : ptr.getLast? = some 46 ∧ strncmpEq ptr name (ptr.length - 1) = true
  · have hboth : ptr.getLast? = some 46 ∧ strncmpEq ptr name (ptr.length - 1) = true ∧
        verdictBy List.isPrefixOf ptr name = none ↔ verdictBy List.isPrefixOf ptr name = none :=
      ⟨fun h => h.2.2, fun h => ⟨hdot.1, hdot.2, h⟩⟩
    rw [hboth, verdictBy, verdictBy, if_pos hdot]
    split_ifs <;> simp
  · have hrule : ¬(ptr.getLast? = some 46 ∧ ptr.isPrefixOf name = true) := fun h =>
      hdot ⟨h.1, strncmpEq_of_isPrefixOf h.2 _ (Nat.sub_le _ _)⟩
    rw [verdictBy, verdictBy, if_neg hdot, if_neg hrule]
    exact iff_of_true rfl fun h => hdot ⟨h.1, h.2.1⟩

theorem readsRight_iff (hne : line ≠ []) (hline : 10 ∉ line.dropLast) :
    ReadsRight name line ↔ piecesVerdict name line = ruleVerdict name line := by
  rw [ReadsRight]
  split
  case isTrue hfits =>
    have hpiece : fgetsLoop 40 [] line = [line] :=
      fgetsLoop_line hne hline (by rw [List.length_nil]; omega)
    rw [piecesVerdict, hpiece, ruleVerdict, List.findSome?_singleton]
    cases hostRule line with
    | none => exact iff_of_true (fun ptr h => nomatch h) rfl
    | some ptr =>
      rw [Option.bind_some, Option.bind_some, hostVerdict_eq_iff]
      constructor
      · intro h
        exact h ptr rfl
      · rintro h _ ⟨⟩
        exact h
  case isFalse => exact Iff.rfl

theorem checkHostLoop_append (name : Bytes) (pieces rest : List Bytes) :
    checkHostLoop name (pieces ++ rest) =
      (pieces.findSome? fun buf => (hostRule buf).bind fun ptr => hostVerdict ptr name).getD
        (checkHostLoop name rest) := by
  induction pieces with
  | nil => rfl
  | cons buf pieces ih =>
    rw [List.cons_append, checkHostLoop, ih, List.findSome?_cons]
    cases hostRule buf with
    | none => rfl
    | some ptr =>
      rw [Option.bind_some]
      dsimp only
      cases hostVerdict ptr name with
      | none => rfl
      | some answer => rfl

/-- The answer is the verdict of the line on which the loop ends. -/
theorem checkHostLoop_lines (name : Bytes) (lines : List Bytes) :
    checkHostLoop name (lines.flatMap (fgetsLoop 40 [])) =
      ((decideLine (piecesVerdict name) lines).map (·.2)).getD 0 := by
  induction lines with
  | nil => rfl
  | cons line rest ih =>
    rw [List.flatMap_cons, checkHostLoop_append, ih, decideLine]
    change (piecesVerdict name line).getD _ = _
    cases piecesVerdict name line with
    | none =>
      rw [Option.getD_none, Option.map_map]
      rfl
    | some answer => rfl

theorem decideLine_eq_iff (lines : List Bytes)
    (hlines : ∀ line ∈ lines, line ≠ [] ∧ 10 ∉ line.dropLast) :
    decideLine (piecesVerdict name) lines = decideLine (ruleVerdict name) lines ↔
      RightUpTo name lines := by
  induction lines with
  | nil => exact iff_of_true rfl trivial
  | cons line rest ih =>
    obtain ⟨⟨hne, hline⟩, hrest⟩ := List.forall_mem_cons.mp hlines
    have hinj : Function.Injective (Prod.map (· + 1) id : Nat × Int → Nat × Int) := by
      intro p q h
      obtain ⟨hfst, hsnd⟩ := Prod.mk.inj h
      exact Prod.ext (Nat.succ.inj hfst) hsnd
    rw [RightUpTo, readsRight_iff hne hline, ← ih hrest, decideLine, decideLine]
    cases hcode : piecesVerdict name line with
    | none =>
      cases hrule : ruleVerdict name line with
      | none =>
        dsimp only
        rw [(Option.map_injective hinj).eq_iff]
        simp
      | some answer =>
        refine iff_of_false (fun h => ?_) fun h => nomatch h.1
        obtain ⟨p, -, hp⟩ := Option.map_eq_some_iff.mp h
        exact Nat.succ_ne_zero p.1 (congrArg Prod.fst hp)
    | some answer =>
      cases hrule : ruleVerdict name line with
      | none =>
        refine iff_of_false (fun h => ?_) fun h => nomatch h.1
        obtain ⟨p, -, hp⟩ := Option.map_eq_some_iff.mp h.symm
        exact Nat.succ_ne_zero p.1 (congrArg Prod.fst hp)
      | some answer' => simp

end ArgoBbs

import Mathlib.Data.List.Basic

/-! # Streams of telnet

Between the data of a stream stand commands, each behind a byte 255: negotiations of an option,
sub-negotiations with a content that ends at a command of its own, and others. A byte 255 of the
data, or of a content, is doubled. -/

namespace ArgoBbs.Telnet

def IAC : UInt8 := 255
def SB : UInt8 := 250
def SE : UInt8 := 240
def WILL : UInt8 := 251
def WONT : UInt8 := 252
def DO : UInt8 := 253
def DONT : UInt8 := 254

/-- The option of the size of the window. -/
def NAWS : UInt8 := 31

def isVerb (c : UInt8) : Bool := c = DO || c = DONT || c = WILL || c = WONT

inductive Item
  | data (c : UInt8)
  | negotiation (verb option : UInt8)
  | subnegotiation (content : List UInt8)
  | command (c : UInt8)
  deriving DecidableEq

/-- What the bytes read so far have begun. -/
inductive State
  | text
  | command
  | option (verb : UInt8)
  | sub (content : List UInt8)
  | subCommand (content : List UInt8)
  deriving DecidableEq

def step : State → UInt8 → State × Option Item
  | .text, c => if c = IAC then (.command, none) else (.text, some (.data c))
  | .command, c =>
    if isVerb c then (.option c, none)
    else if c = SB then (.sub [], none)
    else if c = IAC then (.text, some (.data c))
    else (.text, some (.command c))
  | .option verb, c => (.text, some (.negotiation verb c))
  | .sub content, c =>
    if c = IAC then (.subCommand content, none) else (.sub (content ++ [c]), none)
  | .subCommand content, c =>
    if c = SE then (.text, some (.subnegotiation content))
    else if c = IAC then (.sub (content ++ [c]), none)
    else (.sub content, none)

def read : State → List UInt8 → State × List Item
  | s, [] => (s, [])
  | s, c :: bytes =>
    let (s₁, item) := step s c
    let (s₂, items) := read s₁ bytes
    (s₂, item.toList ++ items)

def Item.byte? : Item → Option UInt8
  | data c => some c
  | _ => none

/-- The height of a window of which a command gives the size. -/
def Item.height? : Item → Option Nat
  | subnegotiation [option, _, _, h₁, h₂] =>
    if option = NAWS then some (256 * h₁.toNat + h₂.toNat) else none
  | _ => none

/-- The bytes that belong to no command. -/
def plain (items : List Item) : List UInt8 := items.filterMap Item.byte?

def heights (items : List Item) : List Nat := items.filterMap Item.height?

/-- How a content is written. -/
inductive Escapes : List UInt8 → List UInt8 → Prop
  | nil : Escapes [] []
  | byte : c ≠ IAC → Escapes raw content → Escapes (c :: raw) (c :: content)
  | iac : Escapes raw content → Escapes (IAC :: IAC :: raw) (IAC :: content)

section
variable {s : State} {raw content rest : List UInt8}

theorem read_cons (s : State) (c : UInt8) (bytes : List UInt8) :
    read s (c :: bytes) = ((read (step s c).1 bytes).1,
      (step s c).2.toList ++ (read (step s c).1 bytes).2) := rfl

theorem read_append (s : State) (a b : List UInt8) :
    read s (a ++ b) = ((read (read s a).1 b).1, (read s a).2 ++ (read (read s a).1 b).2) := by
  induction a generalizing s with
  | nil => rfl
  | cons c a ih =>
    rw [List.cons_append, read_cons, read_cons, ih, List.append_assoc]

/-- What is read behind a part that ends no command in its middle. -/
theorem read_append_text {a b : List UInt8} {items : List Item}
    (h : read s a = (.text, items)) :
    read s (a ++ b) = ((read .text b).1, items ++ (read .text b).2) := by
  rw [read_append, h]

theorem read_data (h : IAC ∉ rest) : read .text rest = (.text, rest.map .data) := by
  induction rest with
  | nil => rfl
  | cons c rest ih =>
    rw [List.mem_cons, not_or] at h
    rw [read_cons, step, if_neg (Ne.symm h.1), ih h.2]
    rfl

theorem read_negotiation {verb : UInt8} (option : UInt8) (h : isVerb verb = true) :
    read .text [IAC, verb, option] = (.text, [.negotiation verb option]) := by
  simp only [read, step, if_true, h, Option.toList_none, Option.toList_some, List.nil_append,
    List.append_nil]

theorem read_sub (h : Escapes raw content) (front : List UInt8) :
    read (.sub front) (raw ++ [IAC, SE]) = (.text, [.subnegotiation (front ++ content)]) := by
  induction h generalizing front with
  | nil => rw [List.append_nil]; rfl
  | byte hc _ ih =>
    rw [List.cons_append, read_cons, step, if_neg hc, ih, List.append_assoc]
    rfl
  | iac _ ih =>
    rw [List.cons_append, List.cons_append, read_cons, step, if_pos rfl, read_cons, step,
      if_neg (by decide), if_pos rfl, ih, List.append_assoc]
    rfl

theorem read_subnegotiation (h : Escapes raw content) :
    read .text (IAC :: SB :: raw ++ [IAC, SE]) = (.text, [.subnegotiation content]) := by
  rw [List.cons_append, List.cons_append, read_cons, step, if_pos rfl, read_cons, step,
    if_neg (by decide), if_pos rfl, read_sub h]
  rfl

theorem escapes_self (h : IAC ∉ raw) : Escapes raw raw := by
  induction raw with
  | nil => exact .nil
  | cons c raw ih =>
    rw [List.mem_cons, not_or] at h
    exact .byte (Ne.symm h.1) (ih h.2)

theorem plain_data (rest : List UInt8) : plain (rest.map .data) = rest := by
  induction rest with
  | nil => rfl
  | cons c rest ih =>
    exact congrArg (c :: ·) ih

theorem plain_append (a b : List Item) : plain (a ++ b) = plain a ++ plain b :=
  List.filterMap_append

theorem heights_append (a b : List Item) : heights (a ++ b) = heights a ++ heights b :=
  List.filterMap_append
end

end ArgoBbs.Telnet

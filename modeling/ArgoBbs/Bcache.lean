import ArgoBbs.Lib.CString
import Mathlib.Data.List.Basic

/-! # The board cache

The headers of all boards are kept in shared memory, in the first `number` cells of `bcache`;
`resolve_boards` loads them again when the file of boards is newer, and any other process may do so
at any time (`bcache.c`). `getbcache` looks a board up by its name, ignoring case, and remembers the
last name asked for and the last index found. The memo is set before the lookup has succeeded and a
reload leaves it alone: the answer is right exactly when the memo is `Fresh`. -/

namespace ArgoBbs

def strlen : Nat := 80

/-- The names are equal up to case, as `getbcache` compares them. -/
abbrev SameName (a b : List UInt8) : Prop := strncasecmpEq a b strlen = true

section
variable {a b c : List UInt8}

theorem sameName_iff :
    SameName a b ↔ (a.take strlen).map tolower = (b.take strlen).map tolower := by
  rw [SameName, strncasecmpEq, strcasecmpEq, decide_eq_true_iff]

theorem SameName.symm (h : SameName a b) : SameName b a :=
  sameName_iff.mpr (sameName_iff.mp h).symm

theorem SameName.trans (h : SameName a b) (h' : SameName b c) : SameName a c :=
  sameName_iff.mpr ((sameName_iff.mp h).trans (sameName_iff.mp h'))

/-- Names that are equal to the same name are equal to the same names. -/
theorem SameName.congr (h : SameName a b) : SameName a c ↔ SameName b c :=
  ⟨h.symm.trans, h.trans⟩

end

structure BoardHeader where
  filename : List UInt8
  lastpost : Nat
  total : Nat
  deriving DecidableEq, Repr, Inhabited

/-- The shared memory of the cache. -/
structure BcacheShm (maxboard : Nat) where
  bcache : Vector BoardHeader maxboard
  number : Nat
  number_le : number ≤ maxboard
  updating : Bool
  uptime : Int

/-- The boards of the cache. -/
def BcacheShm.current {maxboard : Nat} (shm : BcacheShm maxboard) : List BoardHeader :=
  shm.bcache.toList.take shm.number

/-- What `resolve_boards` asks the system for. -/
structure BoardsEnv where
  /-- `time(NULL)` at the start and at the end. -/
  now : Int
  done : Int
  /-- The modification time of the file of boards, if there is one. -/
  mtime : Option Int
  /-- `bcache.lock` is free. -/
  lock : Bool
  /-- The records of the file of boards, if it can be read. -/
  boards : Option (List BoardHeader)
  /-- The number of articles of a board, with the time of the last one if it can be read. -/
  dir : List UInt8 → Option (Nat × Option Nat)

section
variable {maxboard : Nat}

def getLastpost (env : BoardsEnv) (b : BoardHeader) : BoardHeader :=
  match env.dir b.filename with
  | none => b
  | some (total, none) => { b with total }
  | some (total, some lastpost) => { b with total, lastpost }

/-- Append one board while there is room. -/
def fillbcache (env : BoardsEnv) (shm : BcacheShm maxboard) (fptr : BoardHeader) :
    BcacheShm maxboard :=
  if h : shm.number < maxboard then
    { shm with
      bcache := shm.bcache.set shm.number (getLastpost env fptr)
      number := shm.number + 1
      number_le := h }
  else shm

def reloadBoards (env : BoardsEnv) (shm : BcacheShm maxboard) : BcacheShm maxboard :=
  let shm := (env.boards.getD []).foldl (fillbcache env)
    { shm with number := 0, number_le := Nat.zero_le _ }
  { shm with uptime := env.done, updating := false }

def resolveBoards (env : BoardsEnv) (shm : BcacheShm maxboard) : BcacheShm maxboard :=
  if shm.updating = false ∧ shm.uptime + 300 < env.now then
    match env.mtime with
    | none => shm
    | some mtime =>
      if shm.uptime > mtime then shm
      else if env.lock then reloadBoards env shm
      else shm
  else shm

/-- A process that looks boards up: the shared memory, whether it has attached it, and the memo of
`getbcache`. -/
structure BcacheState (maxboard : Nat) where
  shm : BcacheShm maxboard
  attached : Bool
  lastBname : List UInt8
  lastBindex : Nat

/-- The answer is the index of the board in the cache, or `none` for `NULL`, which is also what
`&bcache[0]` is in a process that has not attached the cache. The copy into `last_bname` leaves the
array on a name of `strlen` or more bytes. -/
def getbcache (bname : List UInt8) (env : BoardsEnv) (st : BcacheState maxboard) :
    Option (Option Nat × BcacheState maxboard) :=
  if strncasecmpEq bname st.lastBname strlen then
    some (if st.attached then some st.lastBindex else none, st)
  else if strlen ≤ bname.length then none
  else
    let st := { st with lastBname := bname, shm := resolveBoards env st.shm, attached := true }
    match st.shm.current.findIdx? fun b => strncasecmpEq bname b.filename strlen with
    | some i => some (some i, { st with lastBindex := i })
    | none => some (none, st)

/-! ## Reloading the cache -/

theorem take_append_take (a b : List BoardHeader) (n : Nat) :
    (a.take n ++ b).take n = (a ++ b).take n := by
  have hsub : n - min n a.length = n - a.length := by omega
  rw [List.take_append, List.take_append, List.take_take, Nat.min_self, List.length_take, hsub]

theorem current_fillbcache (env : BoardsEnv) (shm : BcacheShm maxboard) (b : BoardHeader) :
    (fillbcache env shm b).current = (shm.current ++ [getLastpost env b]).take maxboard := by
  have hlen : shm.current.length = shm.number := by
    simp [BcacheShm.current, shm.number_le]
  unfold fillbcache
  split
  case isTrue h =>
    rw [List.take_of_length_le (by simp [hlen]; omega)]
    simp only [BcacheShm.current, Vector.toList_set]
    rw [List.take_add_one, List.take_set_of_le (Nat.le_refl _), List.getElem?_set_self (by simpa using h)]
    rfl
  case isFalse h =>
    have hnumber : shm.number = maxboard := Nat.le_antisymm shm.number_le (Nat.le_of_not_lt h)
    rw [List.take_left' (hlen.trans hnumber)]

/-- After a reload the cache is the file of boards, as far as there is room for it. -/
theorem current_reloadBoards (env : BoardsEnv) (shm : BcacheShm maxboard) :
    (reloadBoards env shm).current =
      ((env.boards.getD []).map (getLastpost env)).take maxboard := by
  have hfold : ∀ (bs : List BoardHeader) (shm : BcacheShm maxboard),
      (bs.foldl (fillbcache env) shm).current =
        (shm.current ++ bs.map (getLastpost env)).take maxboard := by
    intro bs
    induction bs with
    | nil =>
      intro shm
      have hlen : shm.current.length ≤ maxboard := by
        simp [BcacheShm.current, Nat.min_le_right]
      rw [List.map_nil, List.append_nil, List.take_of_length_le hlen]
      rfl
    | cons b bs ih =>
      intro shm
      rw [List.foldl_cons, ih, current_fillbcache, take_append_take, List.append_assoc]
      rfl
  exact hfold _ _

/-! ## When the answer is right -/

/-- The index is that of a board with this name, and there is no index only if there is no such
board. -/
def Answers (shm : BcacheShm maxboard) (bname : List UInt8) : Option Nat → Prop
  | some i => ∃ b, shm.current[i]? = some b ∧ SameName bname b.filename
  | none => ∀ b ∈ shm.current, ¬ SameName bname b.filename

/-- The call returns, with a right answer about the cache as it is then. -/
def GetbcacheOk (bname : List UInt8) (env : BoardsEnv) (st : BcacheState maxboard) : Prop :=
  ∃ r st', getbcache bname env st = some (r, st') ∧ Answers st'.shm bname r

/-- Either the memo is for another name and this one fits into it, or the memo is still right: its
index is that of a board in the cache with the name in the memo. -/
def Fresh (bname : List UInt8) (st : BcacheState maxboard) : Prop :=
  if SameName bname st.lastBname then
    if st.attached then ∃ b, st.shm.current[st.lastBindex]? = some b ∧ SameName st.lastBname b.filename
    else ∀ b ∈ st.shm.current, ¬ SameName st.lastBname b.filename
  else bname.length < strlen

/-- The scan of the cache answers rightly. -/
theorem answers_findIdx? (shm : BcacheShm maxboard) (bname : List UInt8) :
    Answers shm bname
      (shm.current.findIdx? fun b => strncasecmpEq bname b.filename strlen) := by
  cases hf : shm.current.findIdx? fun b => strncasecmpEq bname b.filename strlen with
  | none => exact fun b hb => by simpa using List.findIdx?_eq_none_iff.mp hf b hb
  | some i =>
    obtain ⟨hi, hb, -⟩ := List.findIdx?_eq_some_iff_getElem.mp hf
    exact ⟨_, List.getElem?_eq_getElem hi, hb⟩

theorem getbcacheOk_iff (bname : List UInt8) (env : BoardsEnv) (st : BcacheState maxboard) :
    GetbcacheOk bname env st ↔ Fresh bname st := by
  by_cases hsame : SameName bname st.lastBname
  · have hget : getbcache bname env st =
        some (if st.attached then some st.lastBindex else none, st) := if_pos hsame
    have hok : GetbcacheOk bname env st ↔
        Answers st.shm bname (if st.attached then some st.lastBindex else none) := by
      simp [GetbcacheOk, hget]
    rw [hok, Fresh, if_pos hsame]
    cases st.attached with
    | true => simp only [if_true, Answers, hsame.congr]
    | false => simp only [Bool.false_eq_true, if_false, Answers, hsame.congr]
  · rw [Fresh, if_neg hsame]
    by_cases hlen : strlen ≤ bname.length
    · have hget : getbcache bname env st = none := by
        rw [getbcache, if_neg hsame, if_pos hlen]
      simp [GetbcacheOk, hget, hlen]
    · have hscan := answers_findIdx? (resolveBoards env st.shm) bname
      refine iff_of_true ?_ (Nat.lt_of_not_le hlen)
      unfold GetbcacheOk
      rw [getbcache, if_neg hsame, if_neg hlen]
      dsimp only
      split
      case h_1 i hf => exact ⟨_, _, rfl, by rwa [hf] at hscan⟩
      case h_2 hf => exact ⟨_, _, rfl, by rwa [hf] at hscan⟩

/-! ## Runs -/

/-- What happens to the process and its cache: a call of `getbcache`, a call of `resolve_boards`, or
anything that another process does to the shared memory. -/
inductive BcacheEvent (maxboard : Nat)
  | call (bname : List UInt8) (env : BoardsEnv)
  | resolve (env : BoardsEnv)
  | other (shm : BcacheShm maxboard)

/-- A call that leaves its array ends the run. -/
def BcacheEvent.exec : BcacheEvent maxboard → BcacheState maxboard → Option (BcacheState maxboard)
  | .call bname env, st => (getbcache bname env st).map (·.2)
  | .resolve env, st => some { st with shm := resolveBoards env st.shm, attached := true }
  | .other shm, st => some { st with shm }

/-- Every call of the run satisfies `P` in the state it is made in. -/
def EveryCall (P : List UInt8 → BoardsEnv → BcacheState maxboard → Prop)
    (st : BcacheState maxboard) : List (BcacheEvent maxboard) → Prop
  | [] => True
  | e :: es => (∀ bname env, e = .call bname env → P bname env st) ∧
    ∀ st', e.exec st = some st' → EveryCall P st' es

theorem everyCall_congr {P Q : List UInt8 → BoardsEnv → BcacheState maxboard → Prop}
    (h : ∀ bname env st, P bname env st ↔ Q bname env st) (st : BcacheState maxboard)
    (es : List (BcacheEvent maxboard)) : EveryCall P st es ↔ EveryCall Q st es := by
  induction es generalizing st with
  | nil => exact Iff.rfl
  | cons e es ih => simp only [EveryCall, h, ih]

/-- In every run, whatever the names, the reloads and the other processes: all calls answer rightly
exactly when each call asks for another name than the one before, of less than `strlen` bytes, or
for the same name while the index found then is still that of a board with this name. -/
theorem getbcache_run_ok_iff (st : BcacheState maxboard) (es : List (BcacheEvent maxboard)) :
    EveryCall GetbcacheOk st es ↔ EveryCall (fun bname _ st => Fresh bname st) st es :=
  everyCall_congr getbcacheOk_iff st es

end

/-- A cache with the only board `aa`, in a process that has just started. -/
def oneBoard : BcacheState 256 where
  shm := {
    bcache := (Vector.replicate 256 default).set 0 ⟨[97, 97], 0, 0⟩
    number := 1
    number_le := by decide
    updating := false
    uptime := 0 }
  attached := false
  lastBname := []
  lastBindex := 0

/-- The file of boards has not changed. -/
def quietEnv : BoardsEnv where
  now := 0
  done := 0
  mtime := none
  lock := false
  boards := none
  dir := fun _ => none

/-- The second of two calls for a name that no board has returns the board found before. -/
theorem getbcache_unknown_twice : ¬ EveryCall GetbcacheOk oneBoard
    [.call [97, 97] quietEnv, .call [98, 98] quietEnv, .call [98, 98] quietEnv] := by
  rintro ⟨-, h₁⟩
  obtain ⟨-, h₂⟩ := h₁ { oneBoard with attached := true, lastBname := [97, 97] } rfl
  obtain ⟨h₃, -⟩ := h₂ { oneBoard with attached := true, lastBname := [98, 98] } rfl
  have hfresh := (getbcacheOk_iff _ _ _).mp (h₃ _ _ rfl)
  rw [Fresh, if_pos (by decide), if_pos rfl] at hfresh
  obtain ⟨b, hb, hname⟩ := hfresh
  have hb : some ⟨[97, 97], 0, 0⟩ = some b := hb
  obtain rfl := Option.some.inj hb
  exact absurd hname (by decide)

end ArgoBbs

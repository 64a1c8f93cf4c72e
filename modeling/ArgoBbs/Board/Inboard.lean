import ArgoBbs.Board.Select
import ArgoBbs.Lib.Reach
import ArgoBbs.Lib.Slots
import Mathlib.Logic.Function.Basic

/-! # Counting the readers of a board

`inboard` counts for every board the sessions that read it. A session adds itself in `Read`, takes
itself off when `Read` ends, and does both in `do_select`; each time the board is found by the name
in `currboard` (`bcache.c`, `bbs.c`, `boards.c`). -/

namespace ArgoBbs

/-- One more than the index of the first board of the name that the user's level admits, or 0. -/
def BoardTable.getbnum (table : BoardTable) (v : Viewer) (bname : Bytes) : Nat :=
  match (List.range table.numboards).find? fun i =>
      levelAdmits v (table.bcache i) && strncasecmpEq bname (table.bcache i).filename strlen with
  | some i => i + 1
  | none => 0

/-- `board_setcurrentuser` with the lock. -/
def boardSetcurrentuser (inboard : Nat → Nat) (idx num : Int) : Nat → Nat :=
  let i := idx.toNat
  if idx < 0 then inboard
  else if num > 0 then Function.update inboard i (inboard i + 1)
  else if num < 0 then Function.update inboard i (if inboard i > 0 then inboard i - 1 else 0)
  else inboard

/-- A call of `choose_board`; of `Read`, inside the board with the name; of `Read`, after the board
has been left for the menu of a group. -/
inductive Frame
  | menu
  | reading (bname : Bytes)
  | left
  deriving DecidableEq

/-- A session with the calls it is in, the innermost first. -/
structure BoardSession where
  viewer : Viewer
  currboard : Bytes
  memo : Memo
  frames : List Frame

/-- What a session does: it opens a menu of boards; the menu looks at a board (`check_newpost`); a
board of the menu is entered; `Read` is called from the main menu; `do_select` or `do_select2` is
called with a name; a menu or a board is left. `firstNew` is `DEF_FIRSTNEW`, `opened` whether the
index of the board can be opened. -/
inductive BoardOp
  | menu
  | check (n : Nat)
  | enter (n : Nat) (firstNew opened : Bool)
  | read
  | select (view : BoardView) (bname : Bytes) (firstNew opened : Bool)
  | quit

namespace BoardSession

/-- The number by which the session finds the current board. -/
def bnum (table : BoardTable) (s : BoardSession) : Nat := table.getbnum s.viewer s.currboard

def joins (table : BoardTable) (s : BoardSession) (inboard : Nat → Nat) : Nat → Nat :=
  boardSetcurrentuser inboard ((s.bnum table : Int) - 1) 1

def leaves (table : BoardTable) (s : BoardSession) (inboard : Nat → Nat) : Nat → Nat :=
  boardSetcurrentuser inboard ((s.bnum table : Int) - 1) (-1)

/-- `Read`, up to the call of `i_read`. -/
def read (table : BoardTable) (s : BoardSession) (inboard : Nat → Nat) :
    BoardSession × (Nat → Nat) :=
  if s.currboard = [] then (s, inboard)
  else ({ s with frames := .reading s.currboard :: s.frames }, s.joins table inboard)

/-- What `choose_board` does before it calls `Read`: `unread_position` makes the board that
`getbcache` finds the current one. -/
def choose (table : BoardTable) (s : BoardSession) (n : Nat) (firstNew opened : Bool) :
    BoardSession :=
  let s := { s with currboard := (table.bcache n).filename }
  if firstNew then
    match table.getbcache s.currboard s.memo with
    | (some bp, memo) =>
      { s with memo, currboard := if opened then (table.bcache bp).filename else s.currboard }
    | (none, memo) => { s with memo }
  else s

/-- `do_select` in an ordinary board, without the frames. -/
def switch (table : BoardTable) (s : BoardSession) (inboard : Nat → Nat) (bname : Bytes) (bp : Nat)
    (firstNew opened : Bool) : BoardSession × (Nat → Nat) :=
  let inboard := s.leaves table inboard
  let s := { s with currboard := bname }
  let inboard := s.joins table inboard
  ({ s with currboard := if firstNew && opened then (table.bcache bp).filename else bname }, inboard)

def act (table : BoardTable) (s : BoardSession) (inboard : Nat → Nat) :
    BoardOp → Option (BoardSession × (Nat → Nat))
  | .menu =>
    match s.frames with
    | [] | .menu :: _ => some ({ s with frames := .menu :: s.frames }, inboard)
    | _ => none
  | .check n =>
    match s.frames with
    | .menu :: _ =>
      match table.getbcache (table.bcache n).filename s.memo with
      | (some _, memo) => some ({ s with memo, currboard := (table.bcache n).filename }, inboard)
      | (none, memo) => some ({ s with memo }, inboard)
    | _ => none
  | .enter n firstNew opened =>
    match s.frames with
    | .menu :: _ =>
      if (table.bcache n).has brdGroup then none
      else some ((s.choose table n firstNew opened).read table inboard)
    | _ => none
  | .read =>
    match s.frames with
    | [] => some (s.read table inboard)
    | _ => none
  | .select view bname firstNew opened =>
    let (selected, memo) := selectBoard table s.viewer view s.memo bname
    let s := { s with memo }
    match s.frames, selected with
    | .reading _ :: _, .nowhere | [], .nowhere => some (s, inboard)
    | .reading _ :: frames, .group _ _ =>
      some ({ s with frames := .menu :: .left :: frames }, s.leaves table inboard)
    | [], .group _ _ => some ({ s with frames := [.menu] }, s.leaves table inboard)
    | .reading _ :: frames, .board bname bp =>
      let (s, inboard) := s.switch table inboard bname bp firstNew opened
      some ({ s with frames := .reading bname :: frames }, inboard)
    | [], .board bname bp => some (s.switch table inboard bname bp firstNew opened)
    | _, _ => none
  | .quit =>
    match s.frames with
    | .reading _ :: frames => some ({ s with frames }, s.leaves table inboard)
    -- `do_select` returns `DOQUIT`, so `Read` ends too
    | .menu :: .left :: frames => some ({ s with frames }, s.leaves table inboard)
    | .menu :: frames => some ({ s with frames }, inboard)
    | _ => none

end BoardSession

/-- The sessions and the counters in shared memory. -/
structure BoardWorld where
  sessions : Nat → BoardSession
  inboard : Nat → Nat

/-- An operation of one of the `n` sessions. -/
def BoardWorld.step (table : BoardTable) (n : Nat) (w : BoardWorld) (op : Nat × BoardOp) :
    Option BoardWorld :=
  if op.1 < n then
    ((w.sessions op.1).act table w.inboard op.2).map fun (s, inboard) =>
      { sessions := Function.update w.sessions op.1 s, inboard }
  else none

/-! ## Who is inside a board -/

/-- The first board of the name. -/
def BoardTable.indexOf (table : BoardTable) (bname : Bytes) : Option Nat :=
  (List.range table.numboards).find? fun i =>
    strncasecmpEq bname (table.bcache i).filename strlen

/-- The session is inside the board. -/
def BoardSession.inside (table : BoardTable) (s : BoardSession) (b : Nat) : Bool :=
  match s.frames with
  | .reading bname :: _ => table.indexOf bname = some b
  | _ => false

/-- The user's level admits the first board of the name, or there is none. -/
def BoardTable.counted (table : BoardTable) (v : Viewer) (bname : Bytes) : Bool :=
  table.getbnum v bname = ((table.indexOf bname).map (· + 1)).getD 0

/-- Nobody is counted in the board with the number. -/
def idle (inboard : Nat → Nat) (bnum : Nat) : Bool := bnum = 0 || inboard (bnum - 1) = 0

namespace BoardSession

/-- The operation does not miscount: a board is entered only if the user's level admits the first
board of its name; `do_select` finds the board with the name; the menu of a group that `do_select`
has opened in a board is left only when nobody is counted in the current board; and `do_select` is
called outside of boards only where what it adds is what it takes off. -/
def proper (table : BoardTable) (s : BoardSession) (inboard : Nat → Nat) : BoardOp → Bool
  | .enter n firstNew opened => table.counted s.viewer (s.choose table n firstNew opened).currboard
  | .read => table.counted s.viewer s.currboard
  | .select view bname firstNew opened =>
    match s.frames, (selectBoard table s.viewer view s.memo bname).1 with
    | .reading _ :: _, .board bname bp => table.counted s.viewer bname &&
        (!(firstNew && opened) ||
          table.getbnum s.viewer (table.bcache bp).filename = table.getbnum s.viewer bname)
    | [], .group _ _ => idle inboard (s.bnum table)
    | [], .board bname _ =>
      let bnum := table.getbnum s.viewer bname
      bnum = 0 && idle inboard (s.bnum table) || bnum = s.bnum table && !idle inboard bnum
    | _, _ => true
  | .quit =>
    match s.frames with
    | .menu :: .left :: _ => idle inboard (s.bnum table)
    | _ => true
  | _ => true

end BoardSession

section
variable {table : BoardTable} {inboard : Nat → Nat} {k : Nat}

theorem joins_apply (b : Nat) :
    boardSetcurrentuser inboard ((k : Int) - 1) 1 b = inboard b + if k = b + 1 then 1 else 0 := by
  rw [boardSetcurrentuser]
  cases k with
  | zero => simp
  | succ i =>
    have hidx : ((i + 1 : Nat) : Int) - 1 = i := by omega
    have hnonneg : ¬((i : Int) < 0) := by omega
    simp only [hidx, Int.toNat_natCast, if_neg hnonneg]
    by_cases hb : b = i
    · subst hb
      simp
    · rw [if_neg (by omega : ¬i + 1 = b + 1)]
      simp [hb]

theorem leaves_apply (b : Nat) :
    boardSetcurrentuser inboard ((k : Int) - 1) (-1) b = inboard b - if k = b + 1 then 1 else 0 := by
  rw [boardSetcurrentuser]
  cases k with
  | zero => simp
  | succ i =>
    have hidx : ((i + 1 : Nat) : Int) - 1 = i := by omega
    have hnonneg : ¬((i : Int) < 0) := by omega
    simp only [hidx, Int.toNat_natCast, if_neg hnonneg]
    by_cases hb : b = i
    · subst hb
      simp
      omega
    · rw [if_neg (by omega : ¬i + 1 = b + 1)]
      simp [hb]

/-- Taking off a board where nobody is counted changes nothing. -/
theorem leaves_idle (h : idle inboard k = true) :
    boardSetcurrentuser inboard ((k : Int) - 1) (-1) = inboard := by
  funext b
  rw [leaves_apply]
  split
  case isTrue hk =>
    have hzero : inboard b = 0 := by simpa [idle, hk] using h
    rw [hzero]
  case isFalse => rfl

/-- Whether a session that reads a board whose name counts is inside a board. -/
theorem toNat_inside {s : BoardSession} {bname : Bytes} {frames : List Frame}
    (hframes : s.frames = .reading bname :: frames) (hcount : table.counted s.viewer bname = true)
    (b : Nat) :
    (s.inside table b).toNat = if table.getbnum s.viewer bname = b + 1 then 1 else 0 := by
  rw [BoardTable.counted, decide_eq_true_iff] at hcount
  rw [BoardSession.inside, hframes, hcount]
  dsimp only
  cases table.indexOf bname with
  | none => simp
  | some i => by_cases hi : i = b <;> simp [hi]

end

namespace BoardSession

/-- None of the calls is inside a board. -/
def Outside (frames : List Frame) : Prop := ∀ bname, Frame.reading bname ∉ frames

theorem outside_nil : Outside [] := fun _ => List.not_mem_nil

theorem Outside.cons {f : Frame} {frames : List Frame} (h : Outside frames)
    (hf : ∀ bname, f ≠ .reading bname) : Outside (f :: frames) := by
  intro bname hin
  rcases List.mem_cons.mp hin with hin | hin
  · exact hf bname hin.symm
  · exact h bname hin

theorem Outside.menu {frames : List Frame} (h : Outside frames) : Outside (.menu :: frames) :=
  h.cons nofun

theorem Outside.tail {f : Frame} {frames : List Frame} (h : Outside (f :: frames)) :
    Outside frames := fun bname hin => h bname (List.mem_cons_of_mem _ hin)

/-- Only the innermost call can be inside a board; the name of this board counts, and the current
board is found at the same place. -/
structure Ok (table : BoardTable) (s : BoardSession) : Prop where
  outer : Outside s.frames.tail
  counted : ∀ bname frames, s.frames = .reading bname :: frames →
    table.counted s.viewer bname = true ∧ s.bnum table = table.getbnum s.viewer bname

/-- The counters change by what the session changes. -/
def Balanced (table : BoardTable) (s s' : BoardSession) (inboard inboard' : Nat → Nat) : Prop :=
  ∀ b, inboard' b + (s.inside table b).toNat = inboard b + (s'.inside table b).toNat

variable {table : BoardTable} {s s' s'' : BoardSession} {inboard inboard' inboard'' : Nat → Nat}
  {bname : Bytes} {frames : List Frame}

theorem inside_of_outside (h : Outside s.frames) (b : Nat) : s.inside table b = false := by
  rw [inside]
  split
  case h_1 bname frames hframes => exact absurd (hframes ▸ List.mem_cons_self) (h bname)
  case h_2 => rfl

theorem ok_of_outside (h : Outside s.frames) : s.Ok table := by
  refine ⟨?_, ?_⟩
  · exact fun bname hin => h bname (List.mem_of_mem_tail hin)
  · exact fun bname frames hframes => absurd (hframes ▸ List.mem_cons_self) (h bname)

theorem Ok.outside (hok : s.Ok table) {f : Frame} (hframes : s.frames = f :: frames) :
    Outside frames := by
  have houter := hok.outer
  rwa [hframes] at houter

theorem Balanced.trans (h : Balanced table s s' inboard inboard')
    (h' : Balanced table s' s'' inboard' inboard'') : Balanced table s s'' inboard inboard'' := by
  intro b
  have hb := h b
  have hb' := h' b
  omega

theorem balanced_outside (h : Outside s.frames) (h' : Outside s'.frames) :
    Balanced table s s' inboard inboard := by
  intro b
  rw [inside_of_outside h, inside_of_outside h']

/-- A session that is not inside a board enters one. -/
theorem balanced_join (hs : Outside s.frames) (hs' : s'.frames = .reading bname :: frames)
    (hcount : table.counted s'.viewer bname = true) :
    Balanced table s s' inboard
      (boardSetcurrentuser inboard ((table.getbnum s'.viewer bname : Int) - 1) 1) := by
  intro b
  rw [inside_of_outside hs, toNat_inside hs' hcount, joins_apply]
  rfl

/-- A session leaves the board that it is inside of. -/
theorem balanced_leave (hok : s.Ok table) (hs : s.frames = .reading bname :: frames)
    (hs' : Outside s'.frames) (hpos : ∀ b, s.inside table b = true → 0 < inboard b) :
    Balanced table s s' inboard (s.leaves table inboard) := by
  obtain ⟨hcount, hbnum⟩ := hok.counted bname frames hs
  intro b
  have hin := toNat_inside hs hcount b
  rw [leaves, hbnum, leaves_apply, inside_of_outside hs', ← hin]
  cases hi : s.inside table b with
  | false => rfl
  | true =>
    have := hpos b hi
    simp only [Bool.toNat_true, Bool.toNat_false]
    omega

theorem choose_frames (n : Nat) (firstNew opened : Bool) :
    (s.choose table n firstNew opened).frames = s.frames ∧
      (s.choose table n firstNew opened).viewer = s.viewer := by
  unfold choose
  dsimp only
  split
  · split <;> exact ⟨rfl, rfl⟩
  · exact ⟨rfl, rfl⟩

/-- `Read` outside of boards. -/
theorem read_ok (hs : Outside s.frames) (hcount : table.counted s.viewer s.currboard = true) :
    (s.read table inboard).1.Ok table ∧
      Balanced table s (s.read table inboard).1 inboard (s.read table inboard).2 := by
  unfold read
  split
  · exact ⟨ok_of_outside hs, balanced_outside hs hs⟩
  · refine ⟨⟨hs, ?_⟩, ?_⟩
    · intro bname frames hframes
      cases hframes
      exact ⟨hcount, rfl⟩
    · exact balanced_join hs rfl hcount

/-- `do_select` moves a session from one board into another. -/
theorem switch_ok (hok : s.Ok table) (hs : s.frames = .reading bname :: frames)
    (hpos : ∀ b, s.inside table b = true → 0 < inboard b) {bname' : Bytes} {bp : Nat}
    {firstNew opened : Bool} (hcount : table.counted s.viewer bname' = true)
    (hfound : (firstNew && opened) = true →
      table.getbnum s.viewer (table.bcache bp).filename = table.getbnum s.viewer bname') :
    let t := s.switch table inboard bname' bp firstNew opened
    let s' := { t.1 with frames := .reading bname' :: frames }
    s'.Ok table ∧ Balanced table s s' inboard t.2 := by
  intro t s'
  have hout := hok.outside hs
  refine ⟨⟨hout, ?_⟩, ?_⟩
  · intro b fs hframes
    cases hframes
    refine ⟨hcount, ?_⟩
    change table.getbnum s.viewer
      (if firstNew && opened then (table.bcache bp).filename else bname') = _
    split
    case isTrue h => exact hfound h
    case isFalse => rfl
  · have hleave : Balanced table s { s with frames } inboard (s.leaves table inboard) :=
      balanced_leave hok hs hout hpos
    have hjoin : Balanced table { s with frames } s' (s.leaves table inboard) t.2 :=
      balanced_join hout rfl hcount
    exact hleave.trans hjoin

/-- `do_select` outside of boards, where what it adds is what it takes off. -/
theorem switch_outside {bp : Nat} {firstNew opened : Bool}
    (h : table.getbnum s.viewer bname = 0 ∧ idle inboard (s.bnum table) = true ∨
      table.getbnum s.viewer bname = s.bnum table ∧
        idle inboard (table.getbnum s.viewer bname) = false) :
    (s.switch table inboard bname bp firstNew opened).2 = inboard := by
  funext b
  change boardSetcurrentuser (s.leaves table inboard)
    ((table.getbnum s.viewer bname : Int) - 1) 1 b = _
  rw [joins_apply]
  rcases h with ⟨hzero, hidle⟩ | ⟨hsame, hbusy⟩
  · rw [leaves, leaves_idle hidle, hzero]
    rfl
  · rw [leaves, leaves_apply, hsame]
    rw [hsame, idle, Bool.or_eq_false_iff] at hbusy
    split
    case isTrue hk =>
      rw [hk] at hbusy
      have hpos : inboard b ≠ 0 := of_decide_eq_false hbusy.2
      omega
    case isFalse => rfl

/-- What one proper operation of a session does. -/
theorem act_ok (hok : s.Ok table) (hpos : ∀ b, s.inside table b = true → 0 < inboard b) {op : BoardOp}
    (hproper : s.proper table inboard op = true)
    (hact : s.act table inboard op = some (s', inboard')) :
    s'.Ok table ∧ Balanced table s s' inboard inboard' := by
  cases op with
  | menu =>
    have hout : Outside s.frames ∧ s' = { s with frames := .menu :: s.frames } ∧
        inboard' = inboard := by
      rw [act] at hact
      split at hact
      case h_1 hframes =>
        cases hact
        exact ⟨hframes ▸ outside_nil, rfl, rfl⟩
      case h_2 hframes =>
        cases hact
        exact ⟨hframes ▸ (hok.outside hframes).menu, rfl, rfl⟩
      case h_3 => cases hact
    obtain ⟨hout, rfl, rfl⟩ := hout
    exact ⟨ok_of_outside hout.menu, balanced_outside hout hout.menu⟩
  | check n =>
    rw [act] at hact
    split at hact
    case h_1 frames hframes =>
      have hout : Outside s.frames := hframes ▸ (hok.outside hframes).menu
      split at hact
      · cases hact
        exact ⟨ok_of_outside hout, balanced_outside hout hout⟩
      · cases hact
        exact ⟨ok_of_outside hout, balanced_outside hout hout⟩
    case h_2 => cases hact
  | enter n firstNew opened =>
    rw [act] at hact
    split at hact
    case h_1 frames hframes =>
      split at hact
      · cases hact
      · have hout : Outside s.frames := hframes ▸ (hok.outside hframes).menu
        obtain ⟨hchoose, hviewer⟩ := @choose_frames table s n firstNew opened
        have hout' : Outside (s.choose table n firstNew opened).frames := hchoose ▸ hout
        have hcount : table.counted (s.choose table n firstNew opened).viewer
            (s.choose table n firstNew opened).currboard = true := hviewer ▸ hproper
        have hread := @read_ok table _ inboard hout' hcount
        rw [Option.some.inj hact] at hread
        exact ⟨hread.1, (balanced_outside hout hout').trans hread.2⟩
    case h_2 => cases hact
  | read =>
    rw [act] at hact
    split at hact
    case h_1 hframes =>
      have hout : Outside s.frames := hframes ▸ outside_nil
      have hread := @read_ok table s inboard hout hproper
      rwa [Option.some.inj hact] at hread
    case h_2 => cases hact
  | select view bname firstNew opened =>
    rw [act] at hact
    rw [proper] at hproper
    cases hselect : selectBoard table s.viewer view s.memo bname with
    | mk selected memo =>
      rw [hselect] at hact hproper
      dsimp only at hact hproper
      have hok' : Ok table { s with memo } := ⟨hok.outer, hok.counted⟩
      split at hact
      case h_1 | h_2 =>
        cases hact
        exact ⟨hok', fun b => rfl⟩
      case h_3 bname' frames _ _ hframes =>
        cases hact
        have hout : Outside (.menu :: .left :: frames) :=
            (@Outside.cons .left _ (hok.outside hframes) nofun).menu
        exact ⟨ok_of_outside hout, balanced_leave hok hframes hout hpos⟩
      case h_4 hframes =>
        cases hact
        rw [hframes] at hproper
        have hout : Outside s.frames := hframes ▸ outside_nil
        have hout' : Outside [.menu] := outside_nil.menu
        have hsame : leaves table { s with memo } inboard = inboard := leaves_idle hproper
        rw [hsame]
        exact ⟨ok_of_outside hout', balanced_outside hout hout'⟩
      case h_5 frames bname' bp hframes =>
        rw [hframes] at hproper
        dsimp only at hproper
        rw [Bool.and_eq_true, Bool.or_eq_true, Bool.not_eq_true'] at hproper
        have hfound (h : (firstNew && opened) = true) :
            table.getbnum s.viewer (table.bcache bp).filename = table.getbnum s.viewer bname' := by
          rcases hproper.2 with hno | hsame
          · rw [h] at hno
            cases hno
          · exact of_decide_eq_true hsame
        have hswitch := @switch_ok table { s with memo } inboard _ frames hok' hframes hpos bname' bp
          firstNew opened hproper.1 hfound
        obtain ⟨rfl, rfl⟩ := Prod.mk.inj (Option.some.inj hact)
        exact hswitch
      case h_6 bname' bp hframes =>
        rw [hframes] at hproper
        dsimp only at hproper
        simp only [Bool.or_eq_true, Bool.and_eq_true, decide_eq_true_iff, Bool.not_eq_true']
          at hproper
        have hsame := @switch_outside table { s with memo } inboard bname' bp firstNew opened hproper
        have hinboard : inboard' = inboard :=
          (congrArg Prod.snd (Option.some.inj hact)).symm.trans hsame
        have hsame' : s'.frames = s.frames := (congrArg (·.1.frames) (Option.some.inj hact)).symm
        have hout : Outside s.frames := hframes ▸ outside_nil
        have hout' : Outside s'.frames := hsame' ▸ hout
        rw [hinboard]
        exact ⟨ok_of_outside hout', balanced_outside hout hout'⟩
      case h_7 => cases hact
  | quit =>
    rw [act] at hact
    rw [proper] at hproper
    split at hact
    case h_1 bname frames hframes =>
      cases hact
      have hout := hok.outside hframes
      exact ⟨ok_of_outside hout, balanced_leave hok hframes hout hpos⟩
    case h_2 frames hframes =>
      cases hact
      rw [hframes] at hproper
      have hout : Outside s.frames := hframes ▸ (hok.outside hframes).menu
      have hout' : Outside frames := (hok.outside hframes).tail
      refine ⟨ok_of_outside hout', ?_⟩
      rw [leaves, leaves_idle hproper]
      exact balanced_outside hout hout'
    case h_3 frames _ hframes =>
      cases hact
      have hout : Outside s.frames := hframes ▸ (hok.outside hframes).menu
      have hout' := hok.outside hframes
      exact ⟨ok_of_outside hout', balanced_outside hout hout'⟩
    case h_4 => cases hact

end BoardSession

/-! ## Runs -/

/-- The counters count. -/
def BoardWorld.Counts (table : BoardTable) (n : Nat) (w : BoardWorld) : Prop :=
  (∀ i, (w.sessions i).Ok table) ∧
    ∀ b, w.inboard b = countSlots n fun i => (w.sessions i).inside table b

theorem BoardWorld.Counts.step {table : BoardTable} {n : Nat} {w w' : BoardWorld}
    {op : Nat × BoardOp} (h : w.Counts table n)
    (hproper : (w.sessions op.1).proper table w.inboard op.2 = true)
    (hstep : w.step table n op = some w') : w'.Counts table n := by
  obtain ⟨hok, hcount⟩ := h
  unfold BoardWorld.step at hstep
  split at hstep
  case isFalse => cases hstep
  case isTrue hlt =>
    obtain ⟨⟨s', inboard'⟩, hact, rfl⟩ := Option.map_eq_some_iff.mp hstep
    have hpos (b : Nat) (hin : (w.sessions op.1).inside table b = true) : 0 < w.inboard b := by
      rw [hcount]
      exact countSlots_pos hlt hin
    obtain ⟨hok', hbalanced⟩ := BoardSession.act_ok (hok op.1) hpos hproper hact
    change BoardWorld.Counts table n ⟨Function.update w.sessions op.1 s', inboard'⟩
    refine ⟨fun i => ?_, fun b => ?_⟩
    · by_cases hi : i = op.1
      · subst hi
        dsimp only
        rw [Function.update_self]
        exact hok'
      · dsimp only
        rw [Function.update_of_ne hi]
        exact hok i
    · have hupdate := @countSlots_update n op.1 (fun i => (w.sessions i).inside table b)
        (fun i => (Function.update w.sessions op.1 s' i).inside table b) hlt
        fun i hi => by rw [Function.update_of_ne hi]
      have hb := hbalanced b
      rw [Function.update_self] at hupdate
      dsimp only
      rw [hcount] at hb
      omega

/-- In every run of sessions whose operations do not miscount, `inboard` is the number of sessions
inside the board. -/
theorem inboard_counts {table : BoardTable} {n : Nat} {w₀ w : BoardWorld}
    (hframes : ∀ i, (w₀.sessions i).frames = []) (hinboard : ∀ b, w₀.inboard b = 0)
    (h : Reach (BoardWorld.step table n)
      (fun w op => (w.sessions op.1).proper table w.inboard op.2 = true) w₀ w) (b : Nat) :
    w.inboard b = countSlots n fun i => (w.sessions i).inside table b := by
  have hstart : w₀.Counts table n := by
    have hout (i : Nat) : BoardSession.Outside (w₀.sessions i).frames :=
      hframes i ▸ BoardSession.outside_nil
    refine ⟨fun i => BoardSession.ok_of_outside (hout i), fun b => ?_⟩
    rw [hinboard, countSlots_zero fun i _ => BoardSession.inside_of_outside (hout i) b]
  exact (h.invariant (·.Counts table n) hstart fun w op w' hw hp hs => hw.step hp hs).2 b

/-- Two ordinary boards and a group. -/
def demoBoards : BoardTable where
  bcache n := [demoBoard (bytes "alpha") 0 0 (by decide),
    demoBoard (bytes "beta") 0 0 (by decide),
    demoBoard (bytes "tools") brdGroup 0 (by decide)].getD n demoNone
  numboards := 3

/-- Sessions in the main menu whose current board is the first one. -/
def demoWorld : BoardWorld where
  sessions _ := ⟨⟨0o31, 1, none⟩, bytes "alpha", ⟨[], 0⟩, []⟩
  inboard _ := 0

/-- Two sessions read the first board, one of them goes to the second. -/
theorem inboard_counts_switch :
    ∃ w, (([(0, .read), (1, .read), (1, .select demoView (bytes "beta") false false)] :
        List (Nat × BoardOp)).foldlM (BoardWorld.step demoBoards 2) demoWorld = some w) ∧
      w.inboard 1 = countSlots 2 fun i => (w.sessions i).inside demoBoards 1 := by
  obtain ⟨w, hrun, hreach⟩ := @Reach.of_meets _ _ (BoardWorld.step demoBoards 2)
    (fun w op => (w.sessions op.1).proper demoBoards w.inboard op.2 = true) demoWorld
    [(0, .read), (1, .read), (1, .select demoView (bytes "beta") false false)] (by decide +kernel)
  exact ⟨w, hrun, inboard_counts (fun _ => rfl) (fun _ => rfl) hreach 1⟩

/-- A session that goes from a board to the menu of a group takes itself off twice, and the other
reader is not counted any more. -/
theorem inboard_twice :
    (([(0, .read), (1, .read), (0, .select demoView (bytes "tools") false false), (0, .quit)] :
        List (Nat × BoardOp)).foldlM (BoardWorld.step demoBoards 2) demoWorld).map
      (fun w => (w.inboard 0, countSlots 2 fun i => (w.sessions i).inside demoBoards 0)) =
        some (0, 1) := by
  decide +kernel

end ArgoBbs

import ArgoBbs.Board.Filters
import ArgoBbs.Lib.Loop
import ArgoBbs.Lib.Reach
import ArgoBbs.Permissions

/-! # Menus

`domenu` moves a cursor over the items of a menu and calls the functions of items; `domenu_screen`
draws the items that the user may use and marks the others in the table with the line -1
(`comm_lists.c`). -/

namespace ArgoBbs

/-- The functions that `domenu` tells apart from the others. -/
inductive MenuFptr
  | goodbye
  | select
  | other (n : Nat)
  deriving DecidableEq

/-- `struct smenuitem`; `none` is the function `NULL`. -/
structure MenuItem where
  line : Int
  col : Int
  level : BitVec 32
  name : Bytes
  desc : Bytes
  arg : Bytes
  fptr : Option MenuFptr

/-- `level >= 0 && HAS_PERM(level)` -/
def usable (user : Viewer) (level : BitVec 32) : Bool := 0 ≤ level.toInt && user.hasPerm level

/-- The items of the menu that starts where the table is given from; the level -1 ends it. -/
def menuOf (menuitem : List MenuItem) : List MenuItem := menuitem.takeWhile (·.level ≠ -1)

/-- An item with the line and the column that `domenu_screen` leaves in it, and the current line and
column behind it. -/
def screenItem (user : Viewer) (line col : Int) (pm : MenuItem) : MenuItem × Int × Int :=
  if pm.level = -2 then (pm, line, col)
  else if 0 ≤ pm.line ∧ user.hasPerm pm.level then
    if pm.line = 0 then ({ pm with line := line, col := col }, line + 1, col)
    else (pm, pm.line + 1, pm.col)
  else if 0 < pm.line then ({ pm with line := -1 }, pm.line, pm.col)
  else ({ pm with line := -1 }, line, col)

def screenLoop (user : Viewer) (line col : Int) : List MenuItem → List MenuItem
  | [] => []
  | pm :: items =>
    let (pm, line, col) := screenItem user line col pm
    pm :: screenLoop user line col items

def domenuScreen (user : Viewer) (items : List MenuItem) : List MenuItem :=
  screenLoop user 3 0 items

/-- The first character of a description that is not `(` and not in a sequence of control. -/
def shortcut (control : Bool) : Bytes → Option UInt8
  | [] => none
  | c :: desc =>
    if control then shortcut (c ≠ 109) desc
    else if c = 27 then shortcut true desc
    else if c ≠ 40 then some c
    else shortcut false desc

/-- The last index of an item that passes a test, or `now`. -/
def lastIndex (p : MenuItem → Bool) (now : Int) (items : List MenuItem) : Int :=
  items.zipIdx.foldl (fun now (pm, i) => if p pm then i else now) now

/-- What a called function does: the users for whom it has this menu drawn, the user it leaves, and
whether the table is loaded anew meanwhile. -/
structure MenuCall where
  screens : List Viewer
  user : Viewer
  reloaded : Bool

/-- The keys of `domenu`: the end of the input with `refscreen`, keys that may call a function with
what it does, `~` with the table that it loads, from the menu on, `!`, control-V, and any other. -/
inductive DomenuKey
  | eof (refscreen : Bool)
  | right (call : MenuCall)
  | enter (call : MenuCall)
  | left
  | down
  | up
  | pgup
  | pgdn
  | reload (menuitem : List MenuItem)
  | goodbye
  | lock
  | other (cmd : Int)

/-- `domenu` while it waits for a key. `outside` is whether memory outside of the menu looks like a
usable item; `read` are the cursors at which an item was read since the last key, each with the
size of the menu. -/
structure Domenu where
  items : List MenuItem
  user : Viewer
  topmenu : Bool
  outside : Int → Bool
  now : Int
  read : List (Int × Int)
  returned : Bool

namespace Domenu
variable (m : Domenu)

def size : Int := m.items.length

def item (i : Int) : Option MenuItem := if 0 ≤ i then m.items[i.toNat]? else none

/-- `pm[i].level < 0 || !HAS_PERM(pm[i].level)`, which holds of the end of the menu. -/
def skips (i : Int) : Bool :=
  match m.item i with
  | some pm => !usable m.user pm.level
  | none => i = m.size || !m.outside i

/-- A turn of a loop that moves the cursor while the item there is not usable. -/
def look (next : Int → Int) (s : Int × List (Int × Int)) :
    Option (Int × List (Int × Int) ⊕ Int × List (Int × Int)) :=
  let read := s.2 ++ [(s.1, m.size)]
  some (if m.skips s.1 then .inl (next s.1, read) else .inr (s.1, read))

def search (next : Int → Int) : Option Domenu :=
  (loop (m.look next) (2 * m.items.length + 2) (m.now, m.read)).map fun (now, read) =>
    { m with now := now, read := read }

/-- The loop before a key is read. -/
def rest : Option Domenu := m.search fun now => if m.size ≤ now + 1 then 0 else now + 1

def screen : Domenu := { m with items := domenuScreen m.user m.items }

def leave : Domenu := { m with returned := true }

/-- The first item to the right of an item. -/
def right (pm : MenuItem) : Option Nat :=
  m.items.findIdx? fun it => it.line = pm.line && usable m.user it.level && pm.col < it.col

def left (pm : MenuItem) : Option Nat :=
  m.items.findIdx? fun it =>
    it.line = pm.line && usable m.user it.level && it.col < pm.col || it.fptr = some .goodbye

def enter (pm : MenuItem) (call : MenuCall) : Option Domenu :=
  if pm.arg = bytes ".." then some m.leave
  else
    match pm.fptr with
    | none => m.rest
    | some fptr =>
      -- the table that `pm` points into has been freed
      if call.reloaded then none
      else
        let items := call.screens.foldl (fun items user => domenuScreen user items) m.items
        let now := if fptr = .select then m.now + 1 else m.now
        { m with items := items, user := call.user, now := now }.screen.rest

/-- Where any other key moves the cursor. -/
def jump (cmd : Int) : Int :=
  let cmd := if 97 ≤ cmd ∧ cmd ≤ 122 then cmd - 32 else cmd
  lastIndex (fun pm => usable m.user pm.level && 0 < pm.line &&
    (shortcut false pm.desc).any (·.toInt8.toInt = cmd)) m.now m.items

def reloads : Bool := m.user.hasPerm permSysop || m.user.hasPerm permAcboard

/-- What `domenu` does with a key at an item until it waits for the next one. -/
def act (pm : MenuItem) : DomenuKey → Option Domenu
  | .eof refscreen => if refscreen then m.screen.rest else some m.leave
  | .right call =>
    match m.right pm with
    | some i => { m with now := i }.rest
    | none => m.enter pm call
  | .enter call => m.enter pm call
  | .left =>
    match m.left pm with
    | some i => { m with now := i }.rest
    | none => some m.leave
  | .down => { m with now := m.now + 1 }.rest
  | .up =>
    let up := { m with now := m.now - 1 }
    (up.search fun now => if 0 < now then now - 1 else m.size - 1).bind rest
  | .pgup => { m with now := 0 }.rest
  | .pgdn => ({ m with now := m.size - 1 }.search (· - 1)).bind rest
  | .reload menuitem =>
    if m.reloads then { m with items := menuOf menuitem, now := 0 }.screen.rest else m.rest
  | .goodbye => if m.topmenu then m.rest else some m.leave
  | .lock => m.rest
  | .other cmd => { m with now := m.jump cmd }.rest

/-- A cursor outside of the menu has no item to go on with. -/
def step (key : DomenuKey) : Option Domenu :=
  if m.returned then none
  else (m.item m.now).bind fun pm => act { m with read := [(m.now, m.size)] } pm key

/-- `domenu` up to the first key, of the menu that the table is given from. -/
def start (menuitem : List MenuItem) (user : Viewer) (topmenu mail : Bool)
    (outside : Int → Bool) : Option Domenu :=
  let items := domenuScreen user (menuOf menuitem)
  let now := if topmenu && mail then
    lastIndex (fun pm => 0 < pm.line && pm.name.head? = some 77) 0 items else 0
  rest ⟨items, user, topmenu, outside, now, [], false⟩

/-- The function that a key calls. -/
def called (key : DomenuKey) : Option (MenuFptr × MenuCall) :=
  (m.item m.now).bind fun pm =>
    let run (call : MenuCall) := if pm.arg = bytes ".." then none else pm.fptr.map (·, call)
    match key with
    | .right call => if (m.right pm).isNone then run call else none
    | .enter call => run call
    | _ => none

/-- Some item stays usable. -/
def staysUsable (key : DomenuKey) : Bool :=
  (match m.called key with
    | some (_, call) => m.items.any fun pm => usable call.user pm.level
    | none => true) &&
  match key with
  | .reload menuitem => !m.reloads || (menuOf menuitem).any fun pm => usable m.user pm.level
  | _ => true

/-- A call leaves the table as it is and the cursor inside of the menu, and every item that is
usable after it was neither hidden before nor is by the screens drawn meanwhile. -/
def keepsDrawn (fptr : MenuFptr) (call : MenuCall) : Bool :=
  !call.reloaded && (fptr ≠ .select || m.now + 1 ≠ m.size) &&
  m.items.all fun pm => !usable call.user pm.level ||
    0 ≤ pm.line && call.screens.all fun user => user.hasPerm pm.level

/-- The condition on a key. -/
def keepsInside (key : DomenuKey) : Bool :=
  (match m.called key with
    | some (fptr, call) => m.keepsDrawn fptr call
    | none => true) &&
  match key with
  | .up => m.now ≠ 0
  | .down => m.now + 1 ≠ m.size
  | .reload menuitem =>
    !m.reloads || (menuOf menuitem).all fun pm => !usable m.user pm.level || 0 ≤ pm.line
  | _ => true

/-- The cursor was inside of the menu whenever an item was read, and it rests on an item that has
been drawn. -/
structure OnDrawn : Prop where
  inside : ∀ r ∈ m.read, 0 ≤ r.1 ∧ r.1 < r.2
  drawn : ∃ pm, m.item m.now = some pm ∧ usable m.user pm.level ∧ 0 < pm.line

/-- Some item is usable, and every usable item has been drawn. -/
structure Ready : Prop where
  some_usable : ∃ pm ∈ m.items, usable m.user pm.level
  drawn : ∀ pm ∈ m.items, usable m.user pm.level → 0 < pm.line
  inside : ∀ r ∈ m.read, 0 ≤ r.1 ∧ r.1 < r.2

structure Resting : Prop extends Ready m where
  on : ∃ pm ∈ m.items, m.item m.now = some pm ∧ usable m.user pm.level

end Domenu

/-! ## The screen -/

theorem usable_ne {user : Viewer} {level : BitVec 32} (h : usable user level) : level ≠ -2 := by
  rintro rfl
  cases h

theorem screenItem_spec (user : Viewer) {line : Int} (hline : 0 < line) (col : Int)
    (pm : MenuItem) :
    0 < (screenItem user line col pm).2.1 ∧ (screenItem user line col pm).1.level = pm.level ∧
      (0 ≤ pm.line → pm.level ≠ -2 → user.hasPerm pm.level →
        0 < (screenItem user line col pm).1.line) := by
  rw [screenItem]
  split
  · next h => exact ⟨hline, rfl, fun _ hne => absurd h hne⟩
  · split
    · next h =>
      split
      · exact ⟨by dsimp only; omega, rfl, fun _ _ _ => hline⟩
      · exact ⟨by dsimp only; omega, rfl, fun _ _ _ => by dsimp only; omega⟩
    · next h =>
      split
      · next hpos => exact ⟨hpos, rfl, fun h₀ _ hperm => absurd ⟨h₀, hperm⟩ h⟩
      · exact ⟨hline, rfl, fun h₀ _ hperm => absurd ⟨h₀, hperm⟩ h⟩

theorem screenLoop_levels (user : Viewer) (line col : Int) (items : List MenuItem) :
    (screenLoop user line col items).map (·.level) = items.map (·.level) := by
  induction items generalizing line col with
  | nil => rfl
  | cons pm items ih =>
    have hlevel : (screenItem user line col pm).1.level = pm.level := by
      simp only [screenItem]
      split_ifs <;> rfl
    rw [screenLoop, List.map_cons, List.map_cons, ih, hlevel]

/-- An item of a screen was in the menu, and is drawn if it was not hidden and the user may use it.
-/
theorem mem_screenLoop (user : Viewer) {line : Int} (hline : 0 < line) (col : Int)
    {items : List MenuItem} {pm' : MenuItem} (h : pm' ∈ screenLoop user line col items) :
    ∃ pm ∈ items, pm'.level = pm.level ∧
      (0 ≤ pm.line → pm.level ≠ -2 → user.hasPerm pm.level → 0 < pm'.line) := by
  induction items generalizing line col with
  | nil => cases h
  | cons pm items ih =>
    obtain ⟨hnext, hlevel, hdrawn⟩ := screenItem_spec user hline col pm
    rcases List.mem_cons.1 h with rfl | h
    · exact ⟨pm, List.mem_cons_self, hlevel, hdrawn⟩
    · obtain ⟨pm₁, hmem, h⟩ := ih hnext _ h
      exact ⟨pm₁, List.mem_cons_of_mem _ hmem, h⟩

theorem domenuScreen_levels (user : Viewer) (items : List MenuItem) :
    (domenuScreen user items).map (·.level) = items.map (·.level) :=
  screenLoop_levels user 3 0 items

theorem length_domenuScreen (user : Viewer) (items : List MenuItem) :
    (domenuScreen user items).length = items.length := by
  simpa using congrArg List.length (domenuScreen_levels user items)

/-- The levels decide whether some item is usable. -/
theorem exists_usable_congr {items items' : List MenuItem}
    (h : items'.map (·.level) = items.map (·.level)) {user : Viewer}
    (husable : ∃ pm ∈ items, usable user pm.level) : ∃ pm ∈ items', usable user pm.level := by
  obtain ⟨pm, hmem, hpm⟩ := husable
  have hlevel : pm.level ∈ items'.map (·.level) := h ▸ List.mem_map_of_mem hmem
  obtain ⟨pm', hmem', heq⟩ := List.mem_map.1 hlevel
  exact ⟨pm', hmem', heq.symm ▸ hpm⟩

/-- Screens for users who may use an item do not hide it. -/
theorem screens_keep {user : Viewer} (screens : List Viewer) {items : List MenuItem}
    (h : ∀ pm ∈ items, usable user pm.level →
      0 ≤ pm.line ∧ ∀ user ∈ screens, user.hasPerm pm.level) :
    (screens.foldl (fun items user => domenuScreen user items) items).map (·.level) =
        items.map (·.level) ∧
      ∀ pm ∈ screens.foldl (fun items user => domenuScreen user items) items,
        usable user pm.level → 0 ≤ pm.line := by
  induction screens generalizing items with
  | nil => exact ⟨rfl, fun pm hmem hpm => (h pm hmem hpm).1⟩
  | cons first screens ih =>
    have hfirst : ∀ pm' ∈ domenuScreen first items, usable user pm'.level →
        0 ≤ pm'.line ∧ ∀ user ∈ screens, user.hasPerm pm'.level := by
      intro pm' hmem' hpm'
      obtain ⟨pm, hmem, hlevel, hdrawn⟩ := mem_screenLoop first (by decide) 0 hmem'
      rw [hlevel] at hpm' ⊢
      obtain ⟨hline, hperm⟩ := h pm hmem hpm'
      have hpos := hdrawn hline (usable_ne hpm') (hperm first List.mem_cons_self)
      exact ⟨Int.le_of_lt hpos, fun user hu => hperm user (List.mem_cons_of_mem _ hu)⟩
    rw [List.foldl_cons]
    obtain ⟨hlevels, hlines⟩ := ih hfirst
    exact ⟨hlevels.trans (domenuScreen_levels first items), hlines⟩

theorem lastIndex_spec (p : MenuItem → Bool) (now : Int) (items : List MenuItem) :
    lastIndex p now items = now ∨
      0 ≤ lastIndex p now items ∧ lastIndex p now items < items.length := by
  have hall : ∀ (l : List (MenuItem × Nat)) (now : Int),
      l.foldl (fun now (pm, i) => if p pm then (i : Int) else now) now = now ∨
        ∃ x ∈ l, l.foldl (fun now (pm, i) => if p pm then (i : Int) else now) now = x.2 := by
    intro l
    induction l with
    | nil => exact fun _ => .inl rfl
    | cons x l ih =>
      intro now
      obtain ⟨pm, i⟩ := x
      simp only [List.foldl_cons]
      rcases ih (if p pm then (i : Int) else now) with h | ⟨y, hy, h⟩
      · by_cases hp : p pm
        · rw [if_pos hp] at h ⊢
          exact .inr ⟨(pm, i), List.mem_cons_self, h⟩
        · rw [if_neg hp] at h ⊢
          exact .inl h
      · exact .inr ⟨y, List.mem_cons_of_mem _ hy, h⟩
  rcases hall items.zipIdx now with h | ⟨x, hx, h⟩
  · exact .inl h
  · have hlt := (List.mem_zipIdx hx).2.1
    rw [lastIndex, h]
    exact .inr ⟨by omega, by omega⟩

/-! ## The cursor -/

namespace Domenu
variable {m : Domenu}

theorem item_inside {i : Int} (h₀ : 0 ≤ i) (h : i < m.size) :
    ∃ pm ∈ m.items, m.item i = some pm := by
  have hlt : i.toNat < m.items.length := by
    rw [size] at h
    omega
  refine ⟨m.items[i.toNat], List.getElem_mem hlt, ?_⟩
  rw [item, if_pos h₀, List.getElem?_eq_getElem hlt]

theorem skips_of_item {i : Int} {pm : MenuItem} (h : m.item i = some pm) :
    m.skips i = !usable m.user pm.level := by
  rw [skips, h]

theorem on_usable {i : Int} (h₀ : 0 ≤ i) (h : i < m.size) (hi : m.skips i = false) :
    ∃ pm ∈ m.items, m.item i = some pm ∧ usable m.user pm.level := by
  obtain ⟨pm, hmem, hpm⟩ := item_inside h₀ h
  rw [skips_of_item hpm] at hi
  exact ⟨pm, hmem, hpm, by simpa using hi⟩

theorem inside_of_item {i : Int} {pm : MenuItem} (h : m.item i = some pm) :
    0 ≤ i ∧ i < m.size := by
  rw [item] at h
  split at h
  · next h₀ =>
    have hlt := (List.getElem?_eq_some_iff.1 h).1
    exact ⟨h₀, by rw [size]; omega⟩
  · cases h

/-- How far a place is ahead of another in a menu that is gone around. -/
def ahead (k size i : Int) : Nat := (if i ≤ k then k - i else k - i + size).toNat

def behind (k size i : Int) : Nat := (if k ≤ i then i - k else i - k + size).toNat

theorem ahead_next {k size i : Int} (hk : 0 ≤ k ∧ k < size) (hi : 0 ≤ i ∧ i < size)
    (hne : i ≠ k) :
    (0 ≤ (if size ≤ i + 1 then 0 else i + 1) ∧ (if size ≤ i + 1 then 0 else i + 1) < size) ∧
      ahead k size (if size ≤ i + 1 then 0 else i + 1) < ahead k size i := by
  simp only [ahead]
  split_ifs <;> omega

theorem behind_next {k size i : Int} (hk : 0 ≤ k ∧ k < size) (hi : 0 ≤ i ∧ i < size)
    (hne : i ≠ k) :
    (0 ≤ (if 0 < i then i - 1 else size - 1) ∧ (if 0 < i then i - 1 else size - 1) < size) ∧
      behind k size (if 0 < i then i - 1 else size - 1) < behind k size i := by
  simp only [behind]
  split_ifs <;> omega

namespace Ready

theorem ne_of_skips {k i : Int} (hk : m.skips k = false) (hi : m.skips i = true) : i ≠ k := by
  rintro rfl
  rw [hk] at hi
  cases hi

/-- Where some usable item is. -/
theorem exists_index (hm : m.Ready) : ∃ k, 0 ≤ k ∧ k < m.size ∧ m.skips k = false := by
  obtain ⟨pm, hmem, hpm⟩ := hm.some_usable
  obtain ⟨k, hk, hget⟩ := List.getElem_of_mem hmem
  have hitem : m.item k = some pm := by
    rw [item, if_pos (Int.natCast_nonneg k), Int.toNat_natCast, List.getElem?_eq_getElem hk, hget]
  refine ⟨k, Int.natCast_nonneg k, Int.ofNat_lt.2 hk, ?_⟩
  rw [skips_of_item hitem, hpm, Bool.not_true]

/-- A search that stays inside of the menu and comes nearer to a usable item ends at one. -/
theorem search (hm : m.Ready) (next : Int → Int) (R : Int → Prop) (μ : Int → Nat)
    (hR : ∀ i, R i → 0 ≤ i ∧ i < m.size) (hμ : ∀ i, R i → μ i ≤ 2 * m.items.length)
    (hnext : ∀ i, R i → m.skips i = true → R (next i) ∧ μ (next i) < μ i) (hnow : R m.now) :
    ∃ now read, m.search next = some { m with now := now, read := read } ∧ R now ∧
      m.skips now = false ∧ ∀ r ∈ read, 0 ≤ r.1 ∧ r.1 < r.2 := by
  have hread : ∀ (i : Int) (read : List (Int × Int)), R i → (∀ r ∈ read, 0 ≤ r.1 ∧ r.1 < r.2) →
      ∀ r ∈ read ++ [(i, m.size)], 0 ≤ r.1 ∧ r.1 < r.2 := by
    intro i read hi hread r hr
    rcases List.mem_append.1 hr with hr | hr
    · exact hread r hr
    · rw [List.mem_singleton.1 hr]
      exact hR i hi
  have hturn : ∀ s, (R s.1 ∧ ∀ r ∈ s.2, 0 ≤ r.1 ∧ r.1 < r.2) → true = true →
      ∃ t, m.look next s = some t ∧
        t.elim (fun s' => (R s'.1 ∧ ∀ r ∈ s'.2, 0 ≤ r.1 ∧ r.1 < r.2) ∧ μ s'.1 < μ s.1)
          fun s' => R s'.1 ∧ m.skips s'.1 = false ∧ ∀ r ∈ s'.2, 0 ≤ r.1 ∧ r.1 < r.2 := by
    rintro ⟨i, read⟩ ⟨hi, hs⟩ -
    refine ⟨_, rfl, ?_⟩
    cases hskip : m.skips i with
    | true =>
      obtain ⟨hi', hlt⟩ := hnext i hi hskip
      exact ⟨⟨hi', hread i read hi hs⟩, hlt⟩
    | false => exact ⟨hi, hskip, hread i read hi hs⟩
  have hfuel : μ m.now < 2 * m.items.length + 2 := Nat.lt_of_le_of_lt (hμ m.now hnow) (by omega)
  obtain ⟨⟨now, read⟩, hloop, hstop, hskips, hinside⟩ := loop_total (C := fun _ => true) _ _
    (fun s => μ s.1) hturn ⟨hnow, hm.inside⟩ (loopAlong_true _ (m.now, m.read)) hfuel
  exact ⟨now, read, by rw [Domenu.search, hloop]; rfl, hstop, hskips, hinside⟩

theorem moved (hm : m.Ready) {now : Int} {read : List (Int × Int)}
    (hread : ∀ r ∈ read, 0 ≤ r.1 ∧ r.1 < r.2) : Ready { m with now := now, read := read } :=
  ⟨hm.some_usable, hm.drawn, hread⟩

/-- The loop before a key is read goes around the menu. -/
theorem rest (hm : m.Ready) (h₀ : 0 ≤ m.now) (h : m.now < m.size) :
    ∃ m', m.rest = some m' ∧ m'.Resting := by
  obtain ⟨k, hk₀, hk, hskips⟩ := hm.exists_index
  obtain ⟨now, read, hsearch, ⟨hnow₀, hnow⟩, hstop, hread⟩ := hm.search _
    (fun i => 0 ≤ i ∧ i < m.size) (ahead k m.size) (fun _ hi => hi)
    (fun i hi => by rw [ahead]; rw [size] at *; split <;> omega)
    (fun i hi hi' => ahead_next ⟨hk₀, hk⟩ hi (ne_of_skips hskips hi')) ⟨h₀, h⟩
  exact ⟨_, hsearch, hm.moved hread, on_usable hnow₀ hnow hstop⟩

/-- A search that ends inside of the menu before the loop. -/
theorem bind_rest (hm : m.Ready) {next : Int → Int} (R : Int → Prop) (μ : Int → Nat)
    (hR : ∀ i, R i → 0 ≤ i ∧ i < m.size) (hμ : ∀ i, R i → μ i ≤ 2 * m.items.length)
    (hnext : ∀ i, R i → m.skips i = true → R (next i) ∧ μ (next i) < μ i) (hnow : R m.now) :
    ∃ m', (m.search next).bind Domenu.rest = some m' ∧ m'.Resting := by
  obtain ⟨now, read, hsearch, hstop, -, hread⟩ := hm.search next R μ hR hμ hnext hnow
  rw [hsearch]
  exact (hm.moved hread).rest (hR now hstop).1 (hR now hstop).2

end Ready

/-! ## The keys -/

/-- The menu of an earlier user is ready when it has been drawn for the present one. -/
theorem ready_screen (husable : ∃ pm ∈ m.items, usable m.user pm.level)
    (hlines : ∀ pm ∈ m.items, usable m.user pm.level → 0 ≤ pm.line)
    (hread : ∀ r ∈ m.read, 0 ≤ r.1 ∧ r.1 < r.2) : m.screen.Ready := by
  refine ⟨exists_usable_congr (domenuScreen_levels m.user m.items) husable, ?_, hread⟩
  intro pm' hmem' hpm'
  obtain ⟨pm, hmem, hlevel, hdrawn⟩ := mem_screenLoop m.user (by decide) 0 hmem'
  rw [hlevel] at hpm'
  apply hdrawn (hlines pm hmem hpm') (usable_ne hpm')
  exact (Bool.and_eq_true_iff.1 hpm').2

theorem size_screen : m.screen.size = m.size := by
  rw [size, size, screen, length_domenuScreen]

/-- The menu is drawn, and the cursor is brought to a usable item. -/
theorem screen_rest (husable : ∃ pm ∈ m.items, usable m.user pm.level)
    (hlines : ∀ pm ∈ m.items, usable m.user pm.level → 0 ≤ pm.line)
    (hread : ∀ r ∈ m.read, 0 ≤ r.1 ∧ r.1 < r.2) (h₀ : 0 ≤ m.now) (h : m.now < m.size) :
    ∃ m', m.screen.rest = some m' ∧ m'.Resting :=
  (ready_screen husable hlines hread).rest h₀ (size_screen.symm ▸ h)

namespace Resting

theorem onDrawn (hm : m.Resting) : m.OnDrawn := by
  obtain ⟨pm, hmem, hitem, hpm⟩ := hm.on
  exact ⟨hm.inside, pm, hitem, hpm, hm.drawn pm hmem hpm⟩

theorem leave (hm : m.Resting) : m.leave.Resting :=
  ⟨⟨hm.some_usable, hm.drawn, hm.inside⟩, hm.on⟩

theorem now_inside (hm : m.Resting) : 0 ≤ m.now ∧ m.now < m.size := by
  obtain ⟨pm, -, hitem, -⟩ := hm.on
  exact inside_of_item hitem

theorem rest (hm : m.Resting) : ∃ m', m.rest = some m' ∧ m'.Resting :=
  hm.toReady.rest hm.now_inside.1 hm.now_inside.2

/-- A key that moves the cursor to another item of the menu. -/
theorem move (hm : m.Resting) {now : Int} (h₀ : 0 ≤ now) (h : now < m.size) :
    ∃ m', Domenu.rest { m with now := now } = some m' ∧ m'.Resting :=
  (hm.moved hm.inside).rest h₀ h

theorem moveTo (hm : m.Resting) {p : MenuItem → Bool} {i : Nat}
    (hi : m.items.findIdx? p = some i) :
    ∃ m', Domenu.rest { m with now := i } = some m' ∧ m'.Resting :=
  hm.move (Int.natCast_nonneg i) (Int.ofNat_lt.2 (List.findIdx?_eq_some_iff_getElem.1 hi).1)

theorem enter (hm : m.Resting) {pm : MenuItem} (call : MenuCall)
    (hcall : pm.arg ≠ bytes ".." → ∀ fptr, pm.fptr = some fptr →
      (∃ pm ∈ m.items, usable call.user pm.level) ∧ m.keepsDrawn fptr call) :
    ∃ m', m.enter pm call = some m' ∧ m'.Resting := by
  rw [Domenu.enter]
  by_cases harg : pm.arg = bytes ".."
  · rw [if_pos harg]
    exact ⟨_, rfl, hm.leave⟩
  rw [if_neg harg]
  cases hfptr : pm.fptr with
  | none => exact hm.rest
  | some fptr =>
    obtain ⟨husable, hkeeps⟩ := hcall harg fptr hfptr
    simp only [keepsDrawn, Bool.and_eq_true, Bool.not_eq_true', Bool.or_eq_true,
      decide_eq_true_eq, List.all_eq_true] at hkeeps
    obtain ⟨⟨hreload, hselect⟩, hitems⟩ := hkeeps
    have hitems : ∀ pm ∈ m.items, usable call.user pm.level →
        0 ≤ pm.line ∧ ∀ user ∈ call.screens, user.hasPerm pm.level := by
      intro pm hmem hpm
      rcases hitems pm hmem with h | h
      · rw [hpm] at h
        cases h
      · exact h
    obtain ⟨hlevels, hlines⟩ := screens_keep call.screens hitems
    dsimp only
    rw [hreload, if_neg Bool.false_ne_true]
    have hsize : (call.screens.foldl (fun items user => domenuScreen user items) m.items).length =
        m.items.length := by simpa using congrArg List.length hlevels
    obtain ⟨h₀, hlt⟩ := hm.now_inside
    apply screen_rest
    · exact exists_usable_congr hlevels husable
    · exact hlines
    · exact hm.inside
    · dsimp only
      split <;> omega
    · simp only [size, hsize] at hlt hselect ⊢
      split
      · next hs =>
        have hne := hselect.resolve_left (not_not.2 hs)
        omega
      · exact hlt

end Resting

theorem jump_spec (cmd : Int) :
    m.jump cmd = m.now ∨ 0 ≤ m.jump cmd ∧ m.jump cmd < m.size := by
  rw [jump]
  exact lastIndex_spec ..

theorem usable_of_called {key : DomenuKey} {fptr : MenuFptr} {call : MenuCall}
    (h : m.staysUsable key) (hcalled : m.called key = some (fptr, call)) :
    ∃ pm ∈ m.items, usable call.user pm.level := by
  have h := (Bool.and_eq_true_iff.1 h).1
  rw [hcalled] at h
  exact List.any_eq_true.1 h

theorem keepsDrawn_of_called {key : DomenuKey} {fptr : MenuFptr} {call : MenuCall}
    (h : m.keepsInside key) (hcalled : m.called key = some (fptr, call)) :
    m.keepsDrawn fptr call := by
  have h := (Bool.and_eq_true_iff.1 h).1
  rwa [hcalled] at h

/-- What a key does at a usable item while the condition holds. -/
theorem Resting.act (hm : m.Resting) {pm : MenuItem} (hitem : m.item m.now = some pm)
    {key : DomenuKey} (hstays : m.staysUsable key) (hkeeps : m.keepsInside key) :
    ∃ m', m.act pm key = some m' ∧ m'.Resting := by
  obtain ⟨h₀, hlt⟩ := hm.now_inside
  have henter : ∀ call,
      m.called key = (if pm.arg = bytes ".." then none else pm.fptr.map (·, call)) →
      ∃ m', m.enter pm call = some m' ∧ m'.Resting := by
    intro call hcalled
    apply hm.enter call
    intro harg fptr hfptr
    rw [if_neg harg, hfptr] at hcalled
    exact ⟨usable_of_called hstays hcalled, keepsDrawn_of_called hkeeps hcalled⟩
  cases key with
  | eof refscreen =>
    cases refscreen with
    | true =>
      exact screen_rest hm.some_usable (fun pm hmem hpm => Int.le_of_lt (hm.drawn pm hmem hpm))
        hm.inside h₀ hlt
    | false => exact ⟨_, rfl, hm.leave⟩
  | right call =>
    rw [Domenu.act]
    cases hright : m.right pm with
    | some i => exact hm.moveTo hright
    | none =>
      apply henter call
      rw [called, hitem, Option.bind_some]
      exact if_pos (hright ▸ rfl)
  | enter call => exact henter call (by rw [called, hitem, Option.bind_some])
  | left =>
    rw [Domenu.act]
    cases hleft : m.left pm with
    | some i => exact hm.moveTo hleft
    | none => exact ⟨_, rfl, hm.leave⟩
  | down =>
    have hne : m.now + 1 ≠ m.size := by simpa [keepsInside, called, hitem] using hkeeps
    exact hm.move (by omega) (by omega)
  | up =>
    have hne : m.now ≠ 0 := by simpa [keepsInside, called, hitem] using hkeeps
    obtain ⟨k, hk₀, hk, hskips⟩ := hm.exists_index
    apply (hm.moved hm.inside).bind_rest (fun i => 0 ≤ i ∧ i < m.size) (behind k m.size)
    · exact fun i hi => hi
    · intro i hi
      rw [behind]
      simp only [size] at *
      split <;> omega
    · exact fun i hi hi' => behind_next ⟨hk₀, hk⟩ hi (Ready.ne_of_skips hskips hi')
    · dsimp only
      omega
  | pgup => exact hm.move (by decide) (Int.lt_of_le_of_lt h₀ hlt)
  | pgdn =>
    obtain ⟨k, hk₀, hk, hskips⟩ := hm.exists_index
    apply (hm.moved hm.inside).bind_rest (fun i => k ≤ i ∧ i < m.size) (fun i => (i - k).toNat)
    · exact fun i hi => ⟨Int.le_trans hk₀ hi.1, hi.2⟩
    · intro i hi
      simp only [size] at *
      omega
    · intro i hi hi'
      have hne := Ready.ne_of_skips hskips hi'
      omega
    · dsimp only
      omega
  | reload menuitem =>
    rw [Domenu.act]
    split
    · next hreloads =>
      simp only [staysUsable, keepsInside, called, hitem, hreloads, Option.bind_some,
        Bool.not_true, Bool.false_or, Bool.true_and, List.any_eq_true, List.all_eq_true,
        Bool.or_eq_true, Bool.not_eq_true', decide_eq_true_eq] at hstays hkeeps
      obtain ⟨pm', hmem', hpm'⟩ := hstays
      apply screen_rest
      · exact ⟨pm', hmem', hpm'⟩
      · intro pm hmem hpm
        exact (hkeeps pm hmem).resolve_left (by rw [hpm]; decide)
      · exact hm.inside
      · exact Int.le_refl 0
      · exact Int.ofNat_lt.2 (List.length_pos_of_mem hmem')
    · exact hm.rest
  | goodbye =>
    rw [Domenu.act]
    split
    · exact hm.rest
    · exact ⟨_, rfl, hm.leave⟩
  | lock => exact hm.rest
  | other cmd =>
    rcases jump_spec (m := m) cmd with h | ⟨hj₀, hj⟩
    · exact hm.move (h.symm ▸ h₀) (h.symm ▸ hlt)
    · exact hm.move hj₀ hj

theorem Resting.step (hm : m.Resting) (hreturned : m.returned = false) {key : DomenuKey}
    (hstays : m.staysUsable key) (hkeeps : m.keepsInside key) :
    ∃ m', m.step key = some m' ∧ m'.Resting := by
  obtain ⟨pm, hmem, hitem, hpm⟩ := hm.on
  have hm' : Resting { m with read := [(m.now, m.size)] } :=
    ⟨⟨hm.some_usable, hm.drawn, fun r hr => List.mem_singleton.1 hr ▸ hm.now_inside⟩, hm.on⟩
  obtain ⟨m', hact, hresting⟩ := hm'.act hitem hstays hkeeps
  refine ⟨m', ?_, hresting⟩
  rw [Domenu.step, if_neg (by rw [hreturned]; exact Bool.false_ne_true), hitem]
  exact hact

/-- `domenu` up to the first key. -/
theorem start_resting {menuitem : List MenuItem} {user : Viewer} (topmenu mail : Bool)
    (outside : Int → Bool) (husable : ∃ pm ∈ menuOf menuitem, usable user pm.level)
    (hlines : ∀ pm ∈ menuOf menuitem, usable user pm.level → 0 ≤ pm.line) :
    ∃ m, start menuitem user topmenu mail outside = some m ∧ m.Resting := by
  have hready : ∀ now, Ready ⟨domenuScreen user (menuOf menuitem), user, topmenu, outside, now, [],
      false⟩ := fun now =>
    ready_screen (m := ⟨menuOf menuitem, user, topmenu, outside, now, [], false⟩) husable hlines
      (fun _ hr => absurd hr List.not_mem_nil)
  obtain ⟨pm, hmem, -⟩ := (hready 0).some_usable
  have hpos : (0 : Int) < (domenuScreen user (menuOf menuitem)).length :=
    Int.ofNat_lt.2 (List.length_pos_of_mem hmem)
  rw [start]
  split
  · rcases lastIndex_spec (fun pm => 0 < pm.line && pm.name.head? = some 77) 0
      (domenuScreen user (menuOf menuitem)) with h | ⟨h₀, hlt⟩
    · exact (hready _).rest (Int.le_of_eq h.symm) (Int.lt_of_le_of_lt (Int.le_of_eq h) hpos)
    · exact (hready _).rest h₀ hlt
  · exact (hready 0).rest (Int.le_refl 0) hpos

/-- In a run in which the menu is loaded with no line below 0 at a usable item, the cursor is not
moved up from the first item or down from the last one, and called functions neither load the table
anew nor let the user use an item that was hidden, the cursor stays inside of the menu, rests on
drawn items, and every search ends. -/
theorem domenu_onDrawn {menuitem : List MenuItem} {user : Viewer} (topmenu mail : Bool)
    (outside : Int → Bool) (husable : ∃ pm ∈ menuOf menuitem, usable user pm.level)
    (hlines : ∀ pm ∈ menuOf menuitem, usable user pm.level → 0 ≤ pm.line) :
    ∃ m₀, start menuitem user topmenu mail outside = some m₀ ∧
      ∀ m, Reach step (fun m key => m.staysUsable key ∧ m.keepsInside key) m₀ m →
        m.OnDrawn ∧ (m.returned = false → ∀ key, m.staysUsable key → m.keepsInside key →
          ∃ m', m.step key = some m') := by
  obtain ⟨m₀, hstart, h₀⟩ := start_resting topmenu mail outside husable hlines
  refine ⟨m₀, hstart, fun m hreach => ?_⟩
  have hm : m.Resting := by
    apply hreach.invariant Resting h₀
    intro m key m' hm ⟨hstays, hkeeps⟩ hstep
    cases hreturned : m.returned with
    | true =>
      rw [Domenu.step, if_pos hreturned] at hstep
      cases hstep
    | false =>
      obtain ⟨m₁, hstep', hm₁⟩ := hm.step hreturned hstays hkeeps
      rw [hstep] at hstep'
      exact Option.some.inj hstep' ▸ hm₁
  refine ⟨hm.onDrawn, fun hreturned key hstays hkeeps => ?_⟩
  obtain ⟨m', hstep, -⟩ := hm.step hreturned hstays hkeeps
  exact ⟨m', hstep⟩

def menuDemo (level : BitVec 32) : MenuItem := ⟨0, 0, level, [], [], [], some (.other 0)⟩

/-- A menu of two items as drawn for a user without permissions, who may use the first one. -/
def domenuDemo (level : BitVec 32) (line : Int) : Domenu :=
  ⟨[{ menuDemo 0 with line := 3 }, { menuDemo level with line := line }], ⟨0, 0, none⟩, false,
    fun _ => false, 0, [(0, 2)], false⟩

theorem domenu_onDrawn_demo :
    ∃ m₀ m, start [menuDemo 0, menuDemo 0] ⟨0, 0, none⟩ false false (fun _ => false) = some m₀ ∧
      [.down, .enter ⟨[], ⟨1, 0, none⟩, false⟩, .up].foldlM step m₀ = some m ∧ m.OnDrawn := by
  have husable : ∃ pm ∈ menuOf [menuDemo 0, menuDemo 0], usable ⟨0, 0, none⟩ pm.level := by decide
  obtain ⟨m₀, hstart, h⟩ := domenu_onDrawn false false (fun _ => false) husable (by decide)
  have hm₀ : domenuDemo 0 4 = m₀ := Option.some.inj hstart
  subst hm₀
  have hmeets : Reach.Meets step (fun m key => m.staysUsable key ∧ m.keepsInside key)
      (domenuDemo 0 4) [.down, .enter ⟨[], ⟨1, 0, none⟩, false⟩, .up] := by decide +kernel
  obtain ⟨m, hrun, hreach⟩ := Reach.of_meets _ hmeets
  exact ⟨_, m, hstart, hrun, (h m hreach).1⟩

/-- Moved up from the first item the cursor is in front of the menu, and an item that was hidden is
not drawn when the user may use it, but the cursor comes to rest on it. -/
theorem domenu_demo :
    (∃ pm ∈ menuOf [menuDemo 0, menuDemo 1], usable ⟨0, 0, none⟩ pm.level) ∧
    ∃ m₀, start [menuDemo 0, menuDemo 1] ⟨0, 0, none⟩ false false (fun _ => false) = some m₀ ∧
      (∃ m, Reach step (fun m key => m.staysUsable key) m₀ m ∧ (-1, 2) ∈ m.read ∧ ¬m.OnDrawn) ∧
      ∃ m, Reach step (fun m key => m.staysUsable key) m₀ m ∧
        (m.item m.now).map (·.line) = some (-1) ∧ ¬m.OnDrawn := by
  refine ⟨⟨menuDemo 0, List.mem_cons_self, rfl⟩, domenuDemo 1 (-1), rfl, ?_, ?_⟩
  · refine ⟨_, Reach.refl.step .up (by decide) rfl, by decide, fun h => ?_⟩
    exact absurd (h.inside (-1, 2) (by decide)).1 (by decide)
  · refine ⟨_, (Reach.refl.step (.enter ⟨[], ⟨1, 0, none⟩, false⟩) (by decide) rfl).step .down
      (by decide) rfl, rfl, fun ⟨_, pm, hitem, _, hline⟩ => ?_⟩
    cases hitem
    exact absurd hline (by decide)

end Domenu

end ArgoBbs

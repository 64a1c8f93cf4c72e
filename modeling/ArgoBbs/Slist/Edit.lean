import ArgoBbs.Slist.File
import ArgoBbs.Lib.Reach

/-! # Editing a list of names

`listedit` shows a list in three columns, a page at a time, with a cursor that keys move and that
adding, removing and clearing must keep on the list (`listedit.c`). What is written around the names
on the screen is left out. -/

namespace ArgoBbs

/-- The local variables and the number of names on a page. -/
structure Listedit where
  list : Slist
  current : Int
  pagetotal : Int
  pagestart : Int
  pageend : Int

/-- Where names are imported from: the users in the friends and rejects of the session, how many
lists of names the user has, and what `fopen` finds of the chosen one; with the names of users and
which names are registered. -/
structure IdSources where
  friends : List Int
  reject : List Int
  listnum : Int
  idlist : Option Bytes
  getuserid : Int → Bytes
  getuser : Bytes → Bool

/-- The keys with what is answered then. `allowed` says that there is no callback or that it returns
`YEA`. -/
inductive ListeditKey
  | help
  | add (uident : Bytes) (allowed : Bool) (alloc : Alloc)
  | del (yes allowed : Bool)
  | importNames (ch : UInt8) (src : IdSources) (allowed : Nat → Bool) (allocs : Nat → Alloc)
  /-- `saves` says whether the list is saved -/
  | exportNames (saves : Bool)
  /-- `calls` says whether there is a callback -/
  | clear (yes calls : Bool)
  | keyHome
  | keyEnd
  | keyLeft
  | keyRight
  | keyUp
  | keyDown
  | keyPgup
  | keyPgdn
  | other

namespace Slist

/-- The names that `listedit_redraw` shows, for as many slots from `i` on. -/
def drawFrom (s : Slist) : Nat → Int → Option (List Bytes)
  | 0, _ => some []
  | n + 1, i => do
    let str ← s.str i
    let rest ← drawFrom s n (i + 1)
    some (str :: rest)

/-- A name is added that is not in the list yet. -/
def addNew (s : Slist) (uident : Bytes) (allowed : Bool) (alloc : Alloc) : Option Slist := do
  let i ← s.slistIndexof uident
  if i = -1 ∧ allowed = true then do
    let (_, s) ← s.slistAdd uident alloc
    some s
  else some s

/-- The key `a` with the name that is typed. -/
def addTyped (s : Slist) (uident : Bytes) (allowed : Bool) (alloc : Alloc) : Option Slist :=
  if uident = [] then some s else s.addNew uident allowed alloc

def addNames : List Bytes → (Nat → Bool) → (Nat → Alloc) → Slist → Option Slist
  | [], _, _, s => some s
  | uident :: names, allowed, allocs, s => do
    let s ← s.addNew uident (allowed 0) (allocs 0)
    addNames names (fun n => allowed (n + 1)) (fun n => allocs (n + 1)) s

end Slist

/-- The names that the loops of `listedit_import` look for in the list. The buffer for a line has
14 bytes. -/
def IdSources.names (src : IdSources) (ch : UInt8) : List Bytes :=
  if ch = 49 then ((src.friends.filter (0 < ·)).map src.getuserid).filter (· ≠ [])
  else if ch = 50 then ((src.reject.filter (0 < ·)).map src.getuserid).filter (· ≠ [])
  else if 51 ≤ ch ∧ ch ≤ 57 ∧ ch.toNat - 51 < src.listnum then
    match src.idlist with
    | none => []
    | some content =>
      ((fgetsLoop 14 [] content).map fun line => Slist.chomp (line.takeWhile (· ≠ 0))).filter
        src.getuser
  else []

namespace Listedit

def listeditRedraw (s : Listedit) : Option (List Bytes) :=
  s.list.drawFrom (min s.pageend s.list.length - s.pagestart).toNat s.pagestart

/-- From the label `redraw` on. -/
def redraw (s : Listedit) : Option Listedit :=
  if s.pagetotal = 0 then none
  else do
    let pagestart := s.current - s.current.tmod s.pagetotal
    let s := { s with pagestart, pageend := pagestart + s.pagetotal }
    let _ ← s.listeditRedraw
    some s

/-- Behind the `switch`. -/
def moved (s : Listedit) : Option Listedit :=
  if s.pagetotal = 0 then none
  else if s.current - s.current.tmod s.pagetotal ≠ s.pagestart ∨
      s.current - s.current.tmod s.pagetotal + s.pagetotal ≠ s.pageend then s.redraw
  else some s

/-- `KEY_PGDN` -/
def pageDown (s : Listedit) : Option Listedit :=
  if s.current ≥ s.list.length - s.pagetotal then some s
  else moved { s with current := s.current + s.pagetotal }

/-- What a key does until the next one is read. -/
def step (s : Listedit) : ListeditKey → Option Listedit
  | .help => do
    let _ ← s.listeditRedraw
    s.moved
  | .add uident allowed alloc => do
    let list ← s.list.addTyped uident allowed alloc
    redraw { s with list, current := if list.length = 1 then 0 else s.current }
  | .del yes allowed => do
    let _ ← s.list.str s.current
    if !yes then some s
    else if allowed then do
      let (_, list) ← s.list.slistRemove s.current
      redraw { s with
        list, current := if s.current ≥ list.length ∧ s.current > 0 then s.current - 1
          else s.current }
    else s.redraw
  | .importNames ch src allowed allocs => do
    let list ← s.list.addNames (src.names ch) allowed allocs
    redraw { s with list }
  | .exportNames saves => do
    let _ ← s.list.slistSavetofile saves none
    s.redraw
  | .clear yes calls =>
    if !yes then some s
    else do
      let _ ← if calls then s.list.drawFrom s.list.length.toNat 0 else some []
      let list ← s.list.slistClear
      redraw { s with list, current := 0 }
  | .keyHome =>
    if s.list.length = 0 ∨ s.current = 0 then some s else moved { s with current := 0 }
  | .keyEnd =>
    if s.list.length = 0 ∨ s.current = s.list.length - 1 then some s
    else moved { s with current := s.list.length - 1 }
  | .keyLeft => if s.current = 0 then some s else moved { s with current := s.current - 1 }
  | .keyRight =>
    if s.current = s.list.length - 1 then some s else moved { s with current := s.current + 1 }
  | .keyUp => if s.current < 3 then some s else moved { s with current := s.current - 3 }
  | .keyDown =>
    if s.current ≥ s.list.length - 3 then some s else moved { s with current := s.current + 3 }
  | .keyPgup =>
    -- falls through
    if s.current < s.pagetotal then some s
    else pageDown { s with current := s.current - s.pagetotal }
  | .keyPgdn => s.pageDown
  | .other => some s

/-- Before the first key; `content` is what `fopen` finds of the file. -/
def start (slots : Nat → Option Nat) (content : Option Bytes) (allocs : Nat → Alloc)
    (tLines : Int) : Option Listedit := do
  let (_, list) ← (Slist.slistInit slots).slistLoadfromfile content allocs
  let s : Listedit := ⟨list, 0, (tLines - 4) * 3, 0, (tLines - 4) * 3 - 1⟩
  let _ ← s.listeditRedraw
  some s

/-- The cursor is on a name, or at the first place if there are none. -/
def InBounds (s : Listedit) : Prop := 0 ≤ s.current ∧ s.current < max 1 s.list.length

/-- There is a name for the keys that do not ask whether there is one, and `KEY_PGUP` is not
pressed a page or more from the top. -/
def Safe (s : Listedit) : ListeditKey → Prop
  | .keyRight | .del .. => 0 < s.list.length
  | .keyPgup => s.current < s.pagetotal
  | _ => True

instance (s : Listedit) : (key : ListeditKey) → Decidable (s.Safe key)
  | .keyRight | .del .. => inferInstanceAs (Decidable (0 < s.list.length))
  | .keyPgup => inferInstanceAs (Decidable (s.current < s.pagetotal))
  | .help | .add .. | .importNames .. | .exportNames _ | .clear .. | .keyHome | .keyEnd | .keyLeft
  | .keyUp | .keyDown | .keyPgdn | .other => isTrue trivial

/-- A name is removed where there is one, `KEY_PGUP` moves up by a page if it is a page from the top
at least, and the cursor stays in its bounds. -/
def Works (s : Listedit) (key : ListeditKey) : Prop :=
  (∃ s', s.step key = some s' ∧ s'.InBounds) ∧
    match key with
    | .del .. => 0 ≤ s.current ∧ s.current < s.list.length
    | .keyPgup => s.current ≥ s.pagetotal →
        ∃ s', s.step .keyPgup = some s' ∧ s'.current = s.current - s.pagetotal
    | _ => True

end Listedit

namespace Slist.Holds
variable {s : Slist} {elems : List (Nat × Bytes)}

theorem drawFrom (H : s.Holds elems) {n i : Nat} (hn : i + n ≤ elems.length) :
    s.drawFrom n i = some (((elems.drop i).take n).map Prod.snd) := by
  induction n generalizing i with
  | zero => rfl
  | succ n ih =>
    have hi : i < elems.length := by omega
    have hx : elems[i]? = some elems[i] := List.getElem?_eq_getElem hi
    have hrest := @ih (i + 1) (by omega)
    rw [Int.natCast_succ] at hrest
    rw [Slist.drawFrom, H.str_eq hx, hrest, List.drop_eq_getElem_cons hi]
    rfl

/-- The names are added that there is not yet a name for, as far as there is room. -/
theorem addNew (H : s.Holds elems) (uident : Bytes) (allowed : Bool) (alloc : Alloc) :
    ∃ s' added, s.addNew uident allowed alloc = some s' ∧ s'.Holds (elems ++ added) := by
  obtain ⟨i, hindex⟩ : ∃ i, s.slistIndexof uident = some i := ⟨_, H.slistIndexof uident⟩
  by_cases hnew : i = -1 ∧ allowed = true
  · obtain ⟨p, s', hadd, H'⟩ := H.add uident alloc
    cases hstring : alloc.string with
    | false =>
      exact ⟨s', [], by simp [Slist.addNew, hindex, hnew, hadd], by simpa [hstring] using H'⟩
    | true =>
      exact ⟨s', [(p, uident.takeWhile (· ≠ 0))], by simp [Slist.addNew, hindex, hnew, hadd],
        by simpa [hstring] using H'⟩
  · refine ⟨s, [], ?_, by simpa using H⟩
    rw [Slist.addNew, hindex, Option.bind_eq_bind, Option.bind_some, if_neg hnew]

theorem addNames (H : s.Holds elems) (names : List Bytes) (allowed : Nat → Bool)
    (allocs : Nat → Alloc) :
    ∃ s' added, Slist.addNames names allowed allocs s = some s' ∧ s'.Holds (elems ++ added) := by
  induction names generalizing s elems allowed allocs with
  | nil => exact ⟨s, [], rfl, by simpa using H⟩
  | cons uident names ih =>
    obtain ⟨s₁, added, hadd, H₁⟩ := H.addNew uident (allowed 0) (allocs 0)
    obtain ⟨s', more, hrest, H'⟩ :=
      ih H₁ (fun n => allowed (n + 1)) fun n => allocs (n + 1)
    refine ⟨s', added ++ more, ?_, by simpa using H'⟩
    rw [Slist.addNames, hadd, Option.bind_eq_bind, Option.bind_some, hrest]

end Slist.Holds

namespace Listedit
variable {s s' : Listedit} {elems : List (Nat × Bytes)}

theorem exists_listeditRedraw (H : s.list.Holds elems) (hstart : 0 ≤ s.pagestart) :
    ∃ names, s.listeditRedraw = some names := by
  obtain ⟨i, hi⟩ := Int.eq_ofNat_of_zero_le hstart
  unfold listeditRedraw
  rw [H.length, hi]
  rcases Nat.eq_zero_or_pos (min s.pageend elems.length - i : Int).toNat with hzero | hpos
  · rw [hzero]
    exact ⟨[], rfl⟩
  · exact ⟨_, H.drawFrom (by omega)⟩

/-- The page with the cursor starts in the list. -/
theorem pagestart_nonneg {c p : Int} (hc : 0 ≤ c) (hp : 0 < p) : 0 ≤ c - c.tmod p := by
  rw [Int.tmod_eq_emod_of_nonneg hc, Int.emod_def, Int.sub_sub_self]
  exact Int.mul_nonneg (Int.le_of_lt hp) (Int.ediv_nonneg hc (Int.le_of_lt hp))

/-- Drawing changes the page only. -/
theorem exists_redraw (H : s.list.Holds elems) (hcurrent : 0 ≤ s.current)
    (hpages : 0 < s.pagetotal) :
    ∃ s', s.redraw = some s' ∧ s'.list = s.list ∧ s'.current = s.current ∧
      s'.pagetotal = s.pagetotal ∧ 0 ≤ s'.pagestart := by
  have hstart := pagestart_nonneg hcurrent hpages
  obtain ⟨names, hdraw⟩ := @exists_listeditRedraw { s with
    pagestart := s.current - s.current.tmod s.pagetotal
    pageend := s.current - s.current.tmod s.pagetotal + s.pagetotal } elems H hstart
  refine ⟨{ s with
    pagestart := s.current - s.current.tmod s.pagetotal
    pageend := s.current - s.current.tmod s.pagetotal + s.pagetotal }, ?_, rfl, rfl, rfl, hstart⟩
  simp only [redraw, if_neg (Int.ne_of_gt hpages), hdraw]
  rfl

theorem exists_moved (H : s.list.Holds elems) (hcurrent : 0 ≤ s.current)
    (hpages : 0 < s.pagetotal) (hstart : 0 ≤ s.pagestart) :
    ∃ s', s.moved = some s' ∧ s'.list = s.list ∧ s'.current = s.current ∧
      s'.pagetotal = s.pagetotal ∧ 0 ≤ s'.pagestart := by
  unfold moved
  rw [if_neg (by omega)]
  split
  · exact exists_redraw H hcurrent hpages
  · exact ⟨s, rfl, rfl, rfl, rfl, hstart⟩

/-- The list is kept and the cursor is in its bounds. -/
structure Inv (s : Listedit) (elems : List (Nat × Bytes)) : Prop where
  holds : s.list.Holds elems
  nonneg : 0 ≤ s.current
  lt : s.current < max 1 (elems.length : Int)
  pages : 0 < s.pagetotal
  start : 0 ≤ s.pagestart

namespace Inv

theorem inBounds (I : s.Inv elems) : s.InBounds := by
  refine ⟨I.nonneg, ?_⟩
  rw [I.holds.length]
  exact I.lt

/-- The state with another cursor or list, before anything is drawn. -/
theorem redraw {list : Slist} {elems' : List (Nat × Bytes)} {c : Int} (I : s.Inv elems)
    (H : list.Holds elems') (hc : 0 ≤ c) (hlt : c < max 1 (elems'.length : Int)) :
    ∃ s', Listedit.redraw { s with list, current := c } = some s' ∧ s'.Inv elems' := by
  obtain ⟨s', hs', hlist, hcurrent, hpages, hstart⟩ :=
    @exists_redraw { s with list, current := c } elems' H hc I.pages
  refine ⟨s', hs', hlist ▸ H, hcurrent ▸ hc, hcurrent ▸ hlt, hpages ▸ I.pages, hstart⟩

theorem moved {c : Int} (I : s.Inv elems) (hc : 0 ≤ c) (hlt : c < max 1 (elems.length : Int)) :
    ∃ s', Listedit.moved { s with current := c } = some s' ∧ s'.Inv elems ∧ s'.current = c := by
  obtain ⟨s', hs', hlist, hcurrent, hpages, hstart⟩ :=
    @exists_moved { s with current := c } elems I.holds hc I.pages I.start
  exact ⟨s', hs', ⟨hlist ▸ I.holds, hcurrent ▸ hc, hcurrent ▸ hlt, hpages ▸ I.pages, hstart⟩,
    hcurrent⟩

/-- A name is removed where the cursor is, which then is on the next name or on the last one. -/
theorem del (I : s.Inv elems) (hne : 0 < s.list.length) (yes allowed : Bool) :
    ∃ s' elems', s.step (.del yes allowed) = some s' ∧ s'.Inv elems' := by
  have hlen := I.holds.length
  have hlt := I.lt
  obtain ⟨n, hn⟩ := Int.eq_ofNat_of_zero_le I.nonneg
  have hlast : n < elems.length := by omega
  obtain ⟨before, x, behind, rfl, hbefore⟩ := exists_append_cons hlast
  have hstr : s.list.str s.current = some x.2 := by
    rw [hn, ← hbefore]
    exact I.holds.str_eq (by simp)
  cases yes with
  | false => exact ⟨s, _, by simp [step, hstr], I⟩
  | true =>
    cases allowed with
    | false =>
      obtain ⟨s', hs', I'⟩ := I.redraw I.holds I.nonneg I.lt
      exact ⟨s', _, by simpa [step, hstr] using hs', I'⟩
    | true =>
      obtain ⟨list, hremove, H'⟩ := I.holds.remove
      have hlen' := H'.length
      simp only [List.length_append, List.length_cons] at hlt hlen'
      have hc : (0 : Int) ≤ if s.current ≥ list.length ∧ s.current > 0 then s.current - 1
          else s.current := by
        split <;> omega
      have hclt : (if s.current ≥ list.length ∧ s.current > 0 then s.current - 1
          else s.current) < max 1 ((before ++ behind).length : Int) := by
        rw [List.length_append]
        split <;> omega
      obtain ⟨s', hs', I'⟩ := I.redraw H' hc hclt
      refine ⟨s', _, ?_, I'⟩
      rw [hbefore, ← hn] at hremove
      simpa [step, hstr, hremove] using hs'

/-- The fall through into `KEY_PGDN` moves the cursor back down. -/
theorem pgup_stays (I : s.Inv elems) (h : s.current ≥ s.pagetotal) :
    ∃ s', s.step .keyPgup = some s' ∧ s'.Inv elems ∧ s'.current = s.current := by
  have hlen := I.holds.length
  have hlt := I.lt
  have hpages := I.pages
  obtain ⟨s', hs', I', hcurrent⟩ := I.moved I.nonneg I.lt
  refine ⟨s', ?_, I', hcurrent⟩
  rw [step, if_neg (by omega), pageDown, if_neg (by dsimp only; omega)]
  simpa using hs'

theorem exists_step (I : s.Inv elems) (key : ListeditKey) (hsafe : s.Safe key) :
    ∃ s' elems', s.step key = some s' ∧ s'.Inv elems' := by
  have hlen := I.holds.length
  have hnonneg := I.nonneg
  have hlt := I.lt
  have hpages := I.pages
  -- a key that moves the cursor unless some condition holds
  have hmove {stay : Prop} [Decidable stay] {c : Int} (hc : ¬stay → 0 ≤ c)
      (hclt : ¬stay → c < max 1 (elems.length : Int)) :
      ∃ s' elems', (if stay then some s else Listedit.moved { s with current := c }) = some s' ∧
        s'.Inv elems' := by
    by_cases hstay : stay
    · exact ⟨s, elems, if_pos hstay, I⟩
    · obtain ⟨s', hs', I', -⟩ := I.moved (hc hstay) (hclt hstay)
      exact ⟨s', elems, by rw [if_neg hstay, hs'], I'⟩
  cases key with
  | help =>
    obtain ⟨names, hdraw⟩ := exists_listeditRedraw I.holds I.start
    obtain ⟨s', hs', I', -⟩ := I.moved hnonneg hlt
    exact ⟨s', elems, by simpa [step, hdraw] using hs', I'⟩
  | add uident allowed alloc =>
    obtain ⟨list, added, hadd, H'⟩ : ∃ list added,
        s.list.addTyped uident allowed alloc = some list ∧ list.Holds (elems ++ added) := by
      unfold Slist.addTyped
      split
      · exact ⟨s.list, [], rfl, by simpa using I.holds⟩
      · exact I.holds.addNew uident allowed alloc
    have hc : 0 ≤ if list.length = 1 then 0 else s.current := by split <;> omega
    have hclt : (if list.length = 1 then 0 else s.current) <
        max 1 ((elems ++ added).length : Int) := by
      rw [List.length_append]
      split <;> omega
    obtain ⟨s', hs', I'⟩ := I.redraw H' hc hclt
    exact ⟨s', _, by rw [step, hadd]; exact hs', I'⟩
  | del yes allowed => exact I.del hsafe yes allowed
  | importNames ch src allowed allocs =>
    obtain ⟨list, added, hadd, H'⟩ := I.holds.addNames (src.names ch) allowed allocs
    have hclt : s.current < max 1 ((elems ++ added).length : Int) := by
      rw [List.length_append]
      omega
    obtain ⟨s', hs', I'⟩ := I.redraw H' hnonneg hclt
    exact ⟨s', _, by rw [step, hadd]; exact hs', I'⟩
  | exportNames saves =>
    obtain ⟨s', hs', I'⟩ := I.redraw I.holds hnonneg hlt
    refine ⟨s', elems, ?_, I'⟩
    rw [step, I.holds.savetofile]
    cases saves <;> exact hs'
  | clear yes calls =>
    cases yes with
    | false => exact ⟨s, elems, rfl, I⟩
    | true =>
      obtain ⟨list, hclear, H'⟩ := I.holds.clear
      obtain ⟨s', hs', I'⟩ := I.redraw H' (Int.le_refl 0) (by decide)
      refine ⟨s', [], ?_, I'⟩
      have hcalls : s.list.drawFrom s.list.length.toNat 0 = some (elems.map Prod.snd) := by
        have hall := @Slist.Holds.drawFrom s.list elems I.holds elems.length 0 (by omega)
        rw [hlen, Int.toNat_natCast]
        simpa using hall
      rw [step, hcalls, hclear]
      cases calls <;> exact hs'
  | keyHome => exact hmove (by omega) (by omega)
  | keyEnd => exact hmove (by omega) (by omega)
  | keyLeft => exact hmove (by omega) (by omega)
  | keyRight =>
    have hne : 0 < s.list.length := hsafe
    exact hmove (by omega) (by omega)
  | keyUp => exact hmove (by omega) (by omega)
  | keyDown => exact hmove (by omega) (by omega)
  | keyPgup => exact ⟨s, elems, if_pos hsafe, I⟩
  | keyPgdn => exact hmove (by omega) (by omega)
  | other => exact ⟨s, elems, rfl, I⟩

/-- Where the list is kept and the cursor is in its bounds, a key works just if it is safe. -/
theorem works_iff (I : s.Inv elems) (key : ListeditKey) : s.Works key ↔ s.Safe key := by
  have hlen := I.holds.length
  have hnonneg := I.nonneg
  have hlt := I.lt
  constructor
  · rintro ⟨⟨s', hs', hbounds⟩, hkey⟩
    cases key with
    | del yes allowed =>
      obtain ⟨hge, hlast⟩ := hkey
      exact Int.lt_of_le_of_lt hge hlast
    | keyRight =>
      by_contra hempty
      have hempty : ¬0 < s.list.length := hempty
      obtain ⟨s₁, hs₁, hlist, hcurrent, -, -⟩ := @exists_moved { s with current := s.current + 1 }
        elems I.holds (by dsimp only; omega) I.pages I.start
      rw [step, if_neg (by omega), hs₁] at hs'
      obtain rfl := Option.some.inj hs'
      obtain ⟨-, hbounds⟩ := hbounds
      rw [hlist, hcurrent] at hbounds
      dsimp only at hbounds
      omega
    | keyPgup =>
      by_contra hpage
      have hpage : s.current ≥ s.pagetotal := Int.not_lt.mp hpage
      obtain ⟨s₁, hs₁, hup⟩ := hkey hpage
      obtain ⟨s₂, hs₂, -, hstays⟩ := I.pgup_stays hpage
      rw [hs₂] at hs₁
      obtain rfl := Option.some.inj hs₁
      have hpages := I.pages
      omega
    | _ => trivial
  · intro hsafe
    obtain ⟨s', elems', hs', I'⟩ := I.exists_step key hsafe
    refine ⟨⟨s', hs', I'.inBounds⟩, ?_⟩
    cases key with
    | del yes allowed =>
      have hne : 0 < s.list.length := hsafe
      exact ⟨hnonneg, by omega⟩
    | keyPgup => exact fun hpage => absurd hsafe (Int.not_lt.mpr hpage)
    | _ => trivial

end Inv

theorem start_inv (slots : Nat → Option Nat) (content : Option Bytes) (allocs : Nat → Alloc)
    {tLines : Int} (hlines : 4 < tLines) :
    ∃ s elems, start slots content allocs tLines = some s ∧ s.Inv elems := by
  obtain ⟨list, elems, hload, H, -⟩ :=
    (Slist.slistInit_holds slots).loadfromfile content allocs
  obtain ⟨names, hdraw⟩ := @exists_listeditRedraw
    ⟨list, 0, (tLines - 4) * 3, 0, (tLines - 4) * 3 - 1⟩ elems H (Int.le_refl 0)
  refine ⟨⟨list, 0, (tLines - 4) * 3, 0, (tLines - 4) * 3 - 1⟩, elems, ?_, H, Int.le_refl 0, ?_, ?_,
    Int.le_refl 0⟩
  · simp [start, hload, hdraw]
  · dsimp only
    omega
  · dsimp only
    omega

/-- On a terminal with a page, a run of safe keys leads to a state with the cursor in its bounds, in
which exactly the safe keys work. -/
theorem listedit_cursor (slots : Nat → Option Nat) (content : Option Bytes) (allocs : Nat → Alloc)
    {tLines : Int} (hlines : 4 < tLines) :
    ∃ s₀, start slots content allocs tLines = some s₀ ∧
      ∀ keys, Reach.Along step Safe s₀ keys →
        ∃ s, keys.foldlM step s₀ = some s ∧ s.InBounds ∧ ∀ key, s.Works key ↔ s.Safe key := by
  obtain ⟨s₀, elems₀, hstart, I₀⟩ := start_inv slots content allocs hlines
  refine ⟨s₀, hstart, fun keys hkeys => ?_⟩
  have hstep (s : Listedit) (_ : Unit) (key : ListeditKey) (hs : ∃ elems, s.Inv elems)
      (hsafe : s.Safe key) : ∃ s', s.step key = some s' ∧ ∃ elems, s'.Inv elems := by
    obtain ⟨elems, I⟩ := hs
    obtain ⟨s', elems', hs', I'⟩ := I.exists_step key hsafe
    exact ⟨s', hs', elems', I'⟩
  obtain ⟨s, hrun, elems, I⟩ :=
    Reach.exists_run (fun s (_ : Unit) => ∃ elems, s.Inv elems) (fun _ _ => ()) hstep () keys
      ⟨elems₀, I₀⟩ hkeys
  exact ⟨s, hrun, I.inBounds, I.works_iff⟩

/-- A name is added to an empty list, and removed. -/
theorem listedit_cursor_demo :
    ∃ s₀, start (fun _ => none) none (fun _ => .fails) 24 = some s₀ ∧
      ∃ s, [.keyPgup, .add (bytes "alice") true (.gives fun _ => none), .del true true].foldlM
          step s₀ = some s ∧ s.InBounds ∧ ∀ key, s.Works key ↔ s.Safe key := by
  obtain ⟨s₀, hstart, hruns⟩ :=
    @listedit_cursor (fun _ => none) none (fun _ => .fails) 24 (by decide)
  have hs₀ : s₀ = ⟨Slist.slistInit fun _ => none, 0, 60, 0, 59⟩ := (Option.some.inj hstart).symm
  refine ⟨s₀, hstart, hruns _ ?_⟩
  subst hs₀
  decide

/-- Without names, `KEY_RIGHT` moves the cursor off the list, and then a name that is not there is
read for the question whether to remove it. -/
theorem listedit_right_empty :
    ∃ s₀ s, start (fun _ => none) none (fun _ => .fails) 24 = some s₀ ∧
      s₀.step .keyRight = some s ∧ s.current = 1 ∧ s.list.length = 0 ∧ ¬s.InBounds ∧
      s.step (.del true true) = none := by
  refine ⟨⟨Slist.slistInit fun _ => none, 0, 60, 0, 59⟩,
    ⟨Slist.slistInit fun _ => none, 1, 60, 0, 60⟩, rfl, rfl, rfl, rfl, ?_, rfl⟩
  rintro ⟨-, hlt⟩
  exact absurd hlt (by decide)

end Listedit

end ArgoBbs

import ArgoBbs.Lib.Bytes
import ArgoBbs.Lib.Cells
import ArgoBbs.Lib.Fgets

/-! # Screens in shared memory

`fill_shmfile` reads the screens of a file, which are divided by separator lines, into a table in
shared memory (`shm.c`). -/

namespace ArgoBbs

def fileBufsize : Nat := 200
def fileMaxline : Nat := 25

/-- `struct FILESHM`; each row of `line` is an array of `FILE_BUFSIZE` bytes. -/
structure FileShm where
  line : List Bytes
  rows : line.length = fileMaxline
  fileline : Nat
  max : Nat
  update : Int

/-- `tmp[..].line[k]` is overwritten. -/
def FileShm.setLine (t : FileShm) (k : Nat) (row : Bytes) : FileShm :=
  { t with
    line := t.line.set k row
    rows := (List.length_set ..).trans t.rows }

/-- The calls: the screens before and behind a session, and of a session that starts. -/
inductive ShmMode
  | issue | goodbye | welcome

def ShmMode.maxnum : ShmMode → Nat
  | .issue => 15
  | .goodbye => 15
  | .welcome => 15

def isSeparator (buf : Bytes) : Bool :=
  strncmpEq buf (bytes "@logout@") 8 || strncmpEq buf (bytes "@login@") 7 ||
    strncmpEq buf (bytes "@issue@") 7

/-- The table, the screen and its next line, and the buffer. -/
structure FillState where
  tmp : List FileShm
  nowfn : Nat
  lines : Nat
  buf : Bytes

/-- The screen is closed. -/
def FillState.close (s : FillState) (now : Int) : Option (List FileShm) :=
  s.tmp[s.nowfn]?.map fun t => s.tmp.set s.nowfn { t with fileline := s.lines, update := now }

/-- `memcpy` of the buffer to the next line. -/
def FillState.store (s : FillState) : Option FillState :=
  if s.lines < fileMaxline then
    s.tmp[s.nowfn]?.map fun t =>
      { s with tmp := s.tmp.set s.nowfn (t.setLine s.lines s.buf), lines := s.lines + 1 }
  else none

/-- The loop over what `fgets` reads; nothing if it stores outside of the table or of the lines of a
screen. -/
def fillLoop (maxnum : Nat) (now : Int) : List Bytes → FillState → Option FillState
  | [], s => some s
  | piece :: rest, s =>
    let s := { s with buf := overlay s.buf 0 (piece ++ [0]) }
    if s.nowfn < maxnum then
      if fileMaxline < s.lines then fillLoop maxnum now rest s
      else if isSeparator piece then
        (s.close now).bind fun tmp =>
          fillLoop maxnum now rest { s with tmp := tmp, nowfn := s.nowfn + 1, lines := 0 }
      else s.store.bind (fillLoop maxnum now rest)
    else some s

/-- The last screen is closed and the screens are counted. -/
def FillState.finish (s : FillState) (now : Int) : Option (List FileShm) :=
  (s.close now).bind fun tmp => tmp[0]?.map fun t => tmp.set 0 { t with max := s.nowfn + 1 }

/-- What the calls answer: the time of the file, the clock, and what can be read. -/
structure FillCalls where
  mtime : Option Int
  now : Int
  content : Option Bytes

/-- What is returned without a look at the file: it is not there, or the table is new enough. -/
def fillEarly (c : FillCalls) (tmp : List FileShm) : Option Int :=
  match c.mtime, tmp[0]? with
  | none, _ => some 0
  | some ftime, some t =>
    if (toCInt (c.now - t.update)).natAbs < 86400 ∧ ftime < t.update then some 1
    else if c.content.isNone then some 0
    else none
  | some _, none => none

/-- `fill_shmfile` on the table and whatever is in its buffer. -/
def fillShmfile (mode : ShmMode) (c : FillCalls) (buf : Bytes) (tmp : List FileShm) :
    Option (Int × List FileShm) :=
  match fillEarly c tmp with
  | some ret => some (ret, tmp)
  | none =>
    ((fillLoop mode.maxnum c.now (fgetsLoop fileBufsize [] (c.content.getD [])) ⟨tmp, 0, 0, buf⟩).bind
      fun s => s.finish c.now).map (1, ·)

/-! ## What is to be in the table -/

/-- The screens of what is read, the first one with what has been read of it. -/
def splitScreens (screen : List Bytes) : List Bytes → List (List Bytes)
  | [] => [screen]
  | piece :: rest =>
    if isSeparator piece then screen :: splitScreens [] rest
    else splitScreens (screen ++ [piece]) rest

def fileScreens (content : Bytes) : List (List Bytes) :=
  splitScreens [] (fgetsLoop fileBufsize [] content)

/-- The string in a buffer. -/
def bufString (buf : Bytes) : Bytes := buf.takeWhile (· ≠ 0)

/-- The first lines are those of the screen. -/
def FileShm.HasLines (t : FileShm) (screen : List Bytes) : Prop :=
  (t.line.take screen.length).map bufString = screen.map bufString

structure FileShm.Holds (now : Int) (t : FileShm) (screen : List Bytes) : Prop where
  fileline : t.fileline = screen.length
  update : t.update = now
  lines : t.HasLines screen

/-- The table has the screens, and their number. -/
structure HasScreens (now : Int) (tmp : List FileShm) (screens : List (List Bytes)) : Prop where
  max : ∃ t : FileShm, tmp[0]? = some t ∧ t.max = screens.length
  screens : ∀ (n : Nat) (screen : List Bytes), screens[n]? = some screen →
    ∃ t : FileShm, tmp[n]? = some t ∧ t.Holds now screen

/-- The screens that fit, each with the lines that fit. -/
def storedScreens (maxnum : Nat) (screens : List (List Bytes)) : List (List Bytes) :=
  (screens.take maxnum).map (·.take fileMaxline)

/-- The call leaves the table alone or puts into it the screens of the file that fit. -/
def FillsRight (mode : ShmMode) (c : FillCalls) (buf : Bytes) (tmp : List FileShm) : Prop :=
  match fillEarly c tmp with
  | some ret => fillShmfile mode c buf tmp = some (ret, tmp)
  | none => ∃ tmp', fillShmfile mode c buf tmp = some (1, tmp') ∧ tmp'.length = tmp.length ∧
      HasScreens c.now tmp' (storedScreens mode.maxnum (fileScreens (c.content.getD [])))

/-- The condition: there are no more screens than fit, and no more lines in each. -/
def ScreensFit (maxnum : Nat) (screens : List (List Bytes)) : Prop :=
  screens.length ≤ maxnum ∧ ∀ screen ∈ screens, screen.length ≤ fileMaxline

instance (maxnum : Nat) (screens : List (List Bytes)) : Decidable (ScreensFit maxnum screens) :=
  inferInstanceAs (Decidable (_ ∧ _))

/-! ## The loop -/

/-- The screens `done` are closed, and `screen` is what has been read of the next one. -/
structure Filling (maxnum : Nat) (now : Int) (s : FillState) (done : List (List Bytes))
    (screen : List Bytes) : Prop where
  size : s.tmp.length = maxnum
  nowfn : s.nowfn = done.length
  lines : s.lines = screen.length
  fits : screen.length ≤ fileMaxline
  closed : ∀ (n : Nat) (x : List Bytes), done[n]? = some x →
    ∃ t : FileShm, s.tmp[n]? = some t ∧ t.Holds now x
  stored : ∀ t, s.tmp[done.length]? = some t → t.HasLines screen

section
variable {maxnum : Nat} {now : Int} {s : FillState} {done : List (List Bytes)}
  {screen piece : List Bytes} {t : FileShm} {row : Bytes}

theorem bufString_overlay (buf line : Bytes) :
    bufString (overlay buf 0 (line ++ [0])) = bufString line := by
  rw [bufString, bufString, overlay, List.take_zero, List.nil_append, List.append_assoc,
    List.takeWhile_append]
  split
  · rename_i hall
    have hself : line.takeWhile (· ≠ 0) = line := (List.takeWhile_prefix _).eq_of_length hall
    rw [hself, List.singleton_append, List.takeWhile_cons_of_neg (by decide), List.append_nil]
  · rfl

theorem FileShm.hasLines_nil (t : FileShm) : t.HasLines [] := rfl

theorem FileShm.HasLines.concat {line : Bytes} (h : t.HasLines screen)
    (hlt : screen.length < fileMaxline) (hrow : bufString row = bufString line) :
    (t.setLine screen.length row).HasLines (screen ++ [line]) := by
  have hlen : screen.length < t.line.length := t.rows.symm ▸ hlt
  rw [HasLines, setLine, List.length_append, List.length_singleton, List.take_add_one,
    List.getElem?_set_self hlen, List.take_set_of_le (Nat.le_refl _), List.map_append,
    List.map_append, h]
  simp only [Option.toList_some, List.map_cons, List.map_nil, hrow]

/-- A screen of the table is closed. -/
theorem Filling.close (F : Filling maxnum now s done screen) (hlt : done.length < maxnum) :
    ∃ tmp, s.close now = some tmp ∧ tmp.length = maxnum ∧
      ∀ (n : Nat) (x : List Bytes), (done ++ [screen])[n]? = some x →
        ∃ t : FileShm, tmp[n]? = some t ∧ t.Holds now x := by
  obtain ⟨t, ht⟩ : ∃ t, s.tmp[done.length]? = some t :=
    ⟨_, List.getElem?_eq_getElem (F.size.symm ▸ hlt)⟩
  refine ⟨s.tmp.set done.length { t with fileline := s.lines, update := now }, ?_,
    (List.length_set ..).trans F.size, fun n x hx => ?_⟩
  · rw [FillState.close, F.nowfn, ht, Option.map_some]
  · rcases Nat.lt_or_ge n done.length with hn | hn
    · rw [List.getElem?_append_left hn] at hx
      rw [List.getElem?_set_ne (Nat.ne_of_gt hn)]
      exact F.closed n x hx
    · rw [List.getElem?_append_right hn] at hx
      obtain ⟨hzero, hsome⟩ := Option.ite_none_right_eq_some.mp (List.getElem?_singleton.symm.trans hx)
      obtain rfl := Option.some.inj hsome
      obtain rfl : n = done.length := by omega
      refine ⟨_, List.getElem?_set_self (F.size.symm ▸ hlt), F.lines, rfl, F.stored t ht⟩

/-- Behind the last screen of the table nothing can be closed. -/
theorem Filling.close_none (F : Filling maxnum now s done screen) (hle : maxnum ≤ done.length) :
    s.close now = none := by
  rw [FillState.close, F.nowfn, List.getElem?_eq_none (F.size.symm ▸ hle), Option.map_none]

theorem Filling.finish_none (F : Filling maxnum now s done screen) (hle : maxnum ≤ done.length) :
    s.finish now = none := by
  rw [FillState.finish, F.close_none hle, Option.bind_none]

/-- The next screen starts. -/
theorem Filling.next {tmp : List FileShm} (F : Filling maxnum now s done screen)
    (htmp : tmp.length = maxnum)
    (hclosed : ∀ (n : Nat) (x : List Bytes), (done ++ [screen])[n]? = some x →
      ∃ t : FileShm, tmp[n]? = some t ∧ t.Holds now x) :
    Filling maxnum now { s with tmp := tmp, nowfn := s.nowfn + 1, lines := 0 } (done ++ [screen])
      [] where
  size := htmp
  nowfn := by rw [F.nowfn, List.length_append, List.length_singleton]
  lines := rfl
  fits := Nat.zero_le _
  closed := hclosed
  stored t _ := t.hasLines_nil

/-- A line of the screen is stored. -/
theorem Filling.store {line : Bytes} (F : Filling maxnum now s done screen)
    (hlt : done.length < maxnum) (hroom : screen.length < fileMaxline)
    (hbuf : bufString s.buf = bufString line) :
    ∃ s', s.store = some s' ∧ Filling maxnum now s' done (screen ++ [line]) := by
  obtain ⟨t, ht⟩ : ∃ t, s.tmp[done.length]? = some t :=
    ⟨_, List.getElem?_eq_getElem (F.size.symm ▸ hlt)⟩
  refine ⟨_, by rw [FillState.store, if_pos (F.lines.symm ▸ hroom), F.nowfn, ht, Option.map_some],
    (List.length_set ..).trans F.size, rfl, ?_, ?_, fun n x hx => ?_, fun t' ht' => ?_⟩
  · rw [F.lines, List.length_append, List.length_singleton]
  · rw [List.length_append]
    exact hroom
  · obtain ⟨hn, -⟩ := List.getElem?_eq_some_iff.mp hx
    rw [List.getElem?_set_ne (Nat.ne_of_gt hn)]
    exact F.closed n x hx
  · rw [List.getElem?_set_self (F.size.symm ▸ hlt)] at ht'
    obtain rfl := Option.some.inj ht'
    rw [F.lines]
    exact (F.stored t ht).concat hroom hbuf

/-- The buffer is read into. -/
theorem Filling.read (F : Filling maxnum now s done screen) (buf : Bytes) :
    Filling maxnum now { s with buf := buf } done screen :=
  ⟨F.size, F.nowfn, F.lines, F.fits, F.closed, F.stored⟩

theorem fillLoop_cons {line : Bytes} {rest : List Bytes} (F : Filling maxnum now s done screen)
    (hlt : done.length < maxnum) :
    fillLoop maxnum now (line :: rest) s =
      let s := { s with buf := overlay s.buf 0 (line ++ [0]) }
      if isSeparator line then
        (s.close now).bind fun tmp =>
          fillLoop maxnum now rest { s with tmp := tmp, nowfn := s.nowfn + 1, lines := 0 }
      else s.store.bind (fillLoop maxnum now rest) := by
  have hlines : ¬fileMaxline < s.lines := Nat.not_lt.mpr (F.lines.symm ▸ F.fits)
  rw [fillLoop]
  dsimp only
  rw [if_pos (F.nowfn.symm ▸ hlt), if_neg hlines]

/-- The first screen goes on with what is read. -/
theorem splitScreens_eq_cons (screen pieces : List Bytes) :
    ∃ x xs, splitScreens screen pieces = x :: xs ∧ screen <+: x := by
  induction pieces generalizing screen with
  | nil => exact ⟨screen, [], rfl, List.prefix_refl screen⟩
  | cons line rest ih =>
    rw [splitScreens]
    split
    · exact ⟨screen, _, rfl, List.prefix_refl screen⟩
    · obtain ⟨x, xs, heq, hprefix⟩ := ih (screen ++ [line])
      exact ⟨x, xs, heq, (List.prefix_append ..).trans hprefix⟩

theorem ScreensFit.length_lt {pieces : List Bytes}
    (h : ScreensFit maxnum (done ++ splitScreens screen pieces)) : done.length < maxnum := by
  obtain ⟨x, xs, heq, -⟩ := splitScreens_eq_cons screen pieces
  have hle := h.1
  rw [heq, List.length_append, List.length_cons] at hle
  omega

theorem ScreensFit.length_le {pieces : List Bytes}
    (h : ScreensFit maxnum (done ++ splitScreens screen pieces)) :
    screen.length ≤ fileMaxline := by
  obtain ⟨x, xs, heq, hprefix⟩ := splitScreens_eq_cons screen pieces
  refine Nat.le_trans hprefix.length_le (h.2 x (List.mem_append_right _ ?_))
  rw [heq]
  exact List.mem_cons_self

/-- Screens that fit are all stored. -/
theorem fillLoop_some (pieces : List Bytes) (F : Filling maxnum now s done screen)
    (hfits : ScreensFit maxnum (done ++ splitScreens screen pieces)) :
    ∃ s' init last, fillLoop maxnum now pieces s = some s' ∧
      done ++ splitScreens screen pieces = init ++ [last] ∧ Filling maxnum now s' init last := by
  induction pieces generalizing s done screen with
  | nil => exact ⟨s, done, screen, rfl, rfl, F⟩
  | cons line rest ih =>
    rw [fillLoop_cons F hfits.length_lt]
    have F' := F.read (overlay s.buf 0 (line ++ [0]))
    have hlt := hfits.length_lt
    rw [splitScreens] at hfits ⊢
    dsimp only
    split
    case isTrue hsep =>
      rw [if_pos hsep, List.append_cons done screen] at hfits
      obtain ⟨tmp, hclose, hlen, hclosed⟩ := F'.close hlt
      rw [hclose, Option.bind_some, List.append_cons done screen]
      exact ih (F'.next hlen hclosed) hfits
    case isFalse hsep =>
      rw [if_neg hsep] at hfits
      have hroom := hfits.length_le
      rw [List.length_append] at hroom
      obtain ⟨s', hs', F''⟩ := F'.store hlt hroom (bufString_overlay s.buf line)
      rw [hs', Option.bind_some]
      exact ih F'' hfits

/-- Screens that do not fit are stored outside. -/
theorem fillLoop_none (pieces : List Bytes) (F : Filling maxnum now s done screen)
    (hmiss : ¬ScreensFit maxnum (done ++ splitScreens screen pieces))
    (hdone : ∀ x ∈ done, x.length ≤ fileMaxline) :
    (fillLoop maxnum now pieces s).bind (·.finish now) = none := by
  induction pieces generalizing s done screen with
  | nil =>
    refine F.finish_none (Nat.not_lt.mp fun hlt => hmiss ⟨?_,
      List.forall_mem_append.mpr ⟨hdone, List.forall_mem_singleton.mpr F.fits⟩⟩)
    rw [splitScreens, List.length_append]
    exact hlt
  | cons line rest ih =>
    have F' := F.read (overlay s.buf 0 (line ++ [0]))
    by_cases hlt : done.length < maxnum
    case neg =>
      rw [fillLoop]
      dsimp only
      rw [if_neg (F.nowfn.symm ▸ hlt), Option.bind_some, F'.finish_none (Nat.not_lt.mp hlt)]
    rw [fillLoop_cons F hlt]
    rw [splitScreens] at hmiss
    dsimp only
    split
    case isTrue hsep =>
      rw [if_pos hsep, List.append_cons done screen] at hmiss
      obtain ⟨tmp, hclose, hlen, hall⟩ := F'.close hlt
      rw [hclose, Option.bind_some]
      exact ih (F'.next hlen hall) hmiss
        (List.forall_mem_append.mpr ⟨hdone, List.forall_mem_singleton.mpr F.fits⟩)
    case isFalse hsep =>
      rw [if_neg hsep] at hmiss
      by_cases hroom : screen.length < fileMaxline
      · obtain ⟨s', hs', F''⟩ := F'.store hlt hroom (bufString_overlay s.buf line)
        rw [hs', Option.bind_some]
        exact ih F'' hmiss hdone
      · -- `lines` is `FILE_MAXLINE`, which the test at the head of the loop lets through
        rw [FillState.store, if_neg (F.lines.symm ▸ hroom), Option.bind_none, Option.bind_none]

/-- The last screen is closed and the screens are counted. -/
theorem Filling.finish (F : Filling maxnum now s done screen) (hlt : done.length < maxnum) :
    ∃ tmp, s.finish now = some tmp ∧ tmp.length = maxnum ∧ HasScreens now tmp (done ++ [screen]) := by
  obtain ⟨tmp, hclose, hlen, hall⟩ := F.close hlt
  obtain ⟨t, ht⟩ : ∃ t, tmp[0]? = some t := ⟨_, List.getElem?_eq_getElem (by omega)⟩
  have hset := List.getElem?_set_self (a := { t with max := s.nowfn + 1 }) (by omega : 0 < tmp.length)
  refine ⟨tmp.set 0 { t with max := s.nowfn + 1 }, ?_, (List.length_set ..).trans hlen,
    ⟨_, hset, ?_⟩, fun n x hx => ?_⟩
  · rw [FillState.finish, hclose, Option.bind_some, ht, Option.map_some]
  · rw [F.nowfn, List.length_append, List.length_singleton]
  · obtain ⟨t', ht', h⟩ := hall n x hx
    cases n with
    | zero =>
      obtain rfl : t = t' := Option.some.inj (ht.symm.trans ht')
      exact ⟨_, hset, h.fileline, h.update, h.lines⟩
    | succ n =>
      rw [List.getElem?_set_ne (by omega)]
      exact ⟨t', ht', h⟩

end

/-! ## The call -/

section
variable {mode : ShmMode} {c : FillCalls} {buf : Bytes} {tmp : List FileShm}

theorem storedScreens_of_fit {maxnum : Nat} {screens : List (List Bytes)}
    (h : ScreensFit maxnum screens) : storedScreens maxnum screens = screens := by
  rw [storedScreens, List.take_of_length_le h.1]
  exact (List.map_congr_left fun x hx => List.take_of_length_le (h.2 x hx)).trans (List.map_id _)

/-- Every file: the call stores the screens and lines that fit, inside of the table, and counts them,
just if it does not come to read the file or all of them fit. -/
theorem fill_shmfile_iff (htmp : tmp.length = mode.maxnum) :
    FillsRight mode c buf tmp ↔
      (fillEarly c tmp).isSome = true ∨
        ScreensFit mode.maxnum (fileScreens (c.content.getD [])) := by
  unfold FillsRight fillShmfile
  cases fillEarly c tmp with
  | some ret => exact ⟨fun _ => .inl rfl, fun _ => rfl⟩
  | none =>
    dsimp only
    rw [Option.isSome_none, or_iff_right Bool.false_ne_true]
    have F : Filling mode.maxnum c.now ⟨tmp, 0, 0, buf⟩ [] [] :=
      ⟨htmp, rfl, rfl, Nat.zero_le _, fun n x hx => (by cases hx), fun t _ => t.hasLines_nil⟩
    by_cases hfit : ScreensFit mode.maxnum (fileScreens (c.content.getD []))
    · refine ⟨fun _ => hfit, fun _ => ?_⟩
      obtain ⟨s', init, last, hloop, heq, F'⟩ :=
        fillLoop_some (fgetsLoop fileBufsize [] (c.content.getD [])) F hfit
      have heq : fileScreens (c.content.getD []) = init ++ [last] := heq
      have hlen : init.length < mode.maxnum := by
        have hle := hfit.1
        rw [heq, List.length_append] at hle
        exact hle
      obtain ⟨tmp', hfinish, hsize, hscreens⟩ := F'.finish hlen
      refine ⟨tmp', ?_, hsize.trans htmp.symm, ?_⟩
      · rw [hloop, Option.bind_some, hfinish, Option.map_some]
      · rwa [storedScreens_of_fit hfit, heq]
    · have hnone := fillLoop_none (fgetsLoop fileBufsize [] (c.content.getD [])) F hfit
        (List.forall_mem_nil _)
      rw [hnone]
      constructor
      · rintro ⟨tmp', h, -⟩
        cases h
      · exact fun h => absurd h hfit

end

/-- A table that has just been attached. -/
def freshShm (mode : ShmMode) : List FileShm :=
  List.replicate mode.maxnum
    ⟨List.replicate fileMaxline (List.replicate fileBufsize 0), List.length_replicate, 0, 0, 0⟩

theorem fill_shmfile_demo :
    FillsRight .goodbye ⟨some 5, 1000000, some (bytes "one\n@logout@\ntwo\nthree\n")⟩
      (List.replicate fileBufsize 0) (freshShm .goodbye) :=
  (fill_shmfile_iff List.length_replicate).mpr (.inr (by decide +kernel))

/-- One line more than fits, and then another screen. -/
theorem fill_shmfile_outside : ¬∀ (mode : ShmMode) (c : FillCalls) (buf : Bytes)
    (tmp : List FileShm), tmp.length = mode.maxnum → FillsRight mode c buf tmp := by
  intro hclaim
  have h := hclaim .goodbye
    ⟨some 5, 1000000, some ((List.replicate 26 (bytes "a\n")).flatten ++ bytes "@logout@\nb\n")⟩
    (List.replicate fileBufsize 0) (freshShm .goodbye) List.length_replicate
  have hnone : fillShmfile .goodbye
      ⟨some 5, 1000000, some ((List.replicate 26 (bytes "a\n")).flatten ++ bytes "@logout@\nb\n")⟩
      (List.replicate fileBufsize 0) (freshShm .goodbye) = none := by decide +kernel
  obtain ⟨tmp', hsome, -⟩ : ∃ tmp', _ = some (1, tmp') ∧ _ := h
  rw [hnone] at hsome
  cases hsome

end ArgoBbs

import ArgoBbs.Sysconf
import Mathlib.Algebra.BigOperators.Group.List.Basic
import Mathlib.Algebra.Order.BigOperators.Group.List

/-! # The limits of the tables

`build_sysconf` makes room for a number of items, of variables and of bytes; only `sysconf_addkey`
and `sysconf_addblock` look whether there is room left, for a variable (`comm_lists.c`). What a
configuration stores is told here by the entries of its files, in the order in which they are
stored. -/

namespace ArgoBbs

/-- What is stored at once: the string in front of each file, the line of a definition, the variable
of a menu, an item, the end of a menu, a block with the lines that follow. -/
inductive SysconfEntry
  | file
  | define (ptr : Bytes)
  | menu (key : Bytes)
  | item (cmd : Bytes) (args : List Bytes)
  | endmenu
  | block (key : Bytes) (lines : List Bytes)

namespace SysconfEntry

/-- The lines of a menu, and the lines behind it. -/
def ofMenu : List Bytes → List SysconfEntry × List Bytes
  | [] => ([endmenu], [])
  | buf :: lines =>
    if buf.head? = some 37 then ([endmenu], lines)
    else
      match strtok (delim (bytes " \t\n")) buf with
      | some (cmd, rest) =>
        if cmd.head? = some 35 then ofMenu lines
        else (item cmd (menuArgs 5 rest) :: (ofMenu lines).1, (ofMenu lines).2)
      | none => ofMenu lines

/-- The lines of a file. -/
def ofLines (parse : Bytes → List SysconfEntry) : Nat → List Bytes → List SysconfEntry
  | 0, _ | _, [] => []
  | n + 1, buf :: lines =>
    let ptr := buf.dropWhile isBlank
    if ptr.head? = some 37 then
      match strtok (delim (bytes " \t\n")) ptr with
      | none => ofLines parse n lines
      | some (ptr, rest) =>
        if ptr = bytes "%menu" then
          match strtok (delim (bytes " \t\n")) rest with
          | none => ofLines parse n lines
          | some (str, _) => menu str :: (ofMenu lines).1 ++ ofLines parse n (ofMenu lines).2
        else block (ptr.drop 1) lines :: ofLines parse n (Sysconf.blockLoop lines).2.2
    else if ptr.head? = some 35 then
      match strtok (delim [32, 9, 34, 10]) ptr with
      | none => ofLines parse n lines
      | some (key, rest) =>
        match strtok (delim [32, 9, 34, 10]) rest with
        | none => ofLines parse n lines
        | some (str, _) => (if key = bytes "#include" then parse str else []) ++ ofLines parse n lines
    else if ptr.head? = some 10 then ofLines parse n lines
    else define ptr :: ofLines parse n lines

/-- The entries of a file and of those that it includes, while files can be opened. -/
def ofFile (files : Bytes → Option Bytes) : Nat → Bytes → List SysconfEntry
  | 0, _ => []
  | n + 1, fname =>
    match files fname with
    | none => []
    | some content =>
      file :: ofLines (ofFile files n) (fgetsLines content).length (fgetsLines content)

/-- What the parser does at an entry. -/
def apply {w : Nat} (m : Malloced) (c : Sysconf w) : SysconfEntry → Sysconf w
  | file => (c.addstr (bytes "(null ptr)")).2
  | define ptr => c.addline ptr
  | menu key => c.addkey key (some (bytes "menu")) (.ofNat 32 c.menuitem.length)
  | item cmd args => c.additem cmd args
  | endmenu => c.endmenu m
  | block key lines => (c.addblock m key lines).1

/-- The name and the string of a definition, if it is one. -/
def definition (ptr : Bytes) : Option (Bytes × Option Bytes) :=
  match strtok (delim (bytes "=#\n")) ptr with
  | none => none
  | some (key, rest) =>
    match strtok (delim (bytes "#\n")) rest with
    | none => none
    | some (str, _) =>
      match str.dropWhile isBlank with
      | 34 :: str => some (cutToken (bytes " \t") key, some (cutToken [34] str))
      | _ => some (cutToken (bytes " \t") key, none)

/-- The size of a string with the byte that ends it. -/
def size (str : Bytes) : Nat := str.length + 1

/-- The items that an entry stores. -/
def items : SysconfEntry → Nat
  | item .. | endmenu => 1
  | _ => 0

/-- The bytes that an entry stores in any case. -/
def plainBytes : SysconfEntry → Nat
  | file => size (bytes "(null ptr)")
  | item (64 :: cmd) args => size (args.getD 3 []) + size (args.getD 4 []) + size cmd
  | item (33 :: cmd) args =>
    size (args.getD 3 []) + size (args.getD 4 []) + size (bytes "domenu") + size cmd
  | item cmd args => size cmd + size (args.getD 2 [])
  | _ => 0

/-- The bytes that an entry stores if there is room for its variable. -/
def keyBytes : SysconfEntry → Option Nat
  | define ptr => (definition ptr).map fun v => size v.1 + (v.2.map size).getD 0
  | menu key => some (size key + size (bytes "menu"))
  | block key lines => some (size key + size (Sysconf.blockLoop lines).1)
  | _ => none

end SysconfEntry

open SysconfEntry

/-- No store of the parser is outside of the tables: they are within their limits after every entry,
and no entry takes anything back. -/
def StoresInside (files : Bytes → Option Bytes) (m : Malloced) (n : Nat) {w : Nat} (buf : BitVec w)
    (configfile : Bytes) : Prop :=
  ∀ es, es <+: ofFile files n configfile → (es.foldl (apply m) ⟨buf, [], [], []⟩).WithinLimits

/-- The bytes that the entries of a configuration need. -/
def neededBytes (es : List SysconfEntry) : Nat :=
  (es.map plainBytes).sum + ((es.filterMap keyBytes).take scKeysize).sum

namespace SysconfEntry
variable {w : Nat} {m : Malloced} {c : Sysconf w}

/-! ## The parser -/

theorem menuLoop_eq (lines : List Bytes) (c : Sysconf w) : Sysconf.menuLoop m lines c =
    ((ofMenu lines).1.foldl (apply m) c, (ofMenu lines).2) := by
  induction lines generalizing c with
  | nil => rfl
  | cons buf lines ih =>
    rw [Sysconf.menuLoop, ofMenu]
    by_cases hline : buf.head? = some 37
    · rw [if_pos hline, if_pos hline]
      rfl
    rw [if_neg hline, if_neg hline]
    cases strtok (delim (bytes " \t\n")) buf with
    | none => exact ih c
    | some token =>
      dsimp only
      by_cases hcomment : token.1.head? = some 35
      · rw [if_pos hcomment, if_pos hcomment]
        exact ih c
      · rw [if_neg hcomment, if_neg hcomment]
        exact ih _

theorem addblock_snd (key : Bytes) (lines : List Bytes) :
    (c.addblock m key lines).2 = (Sysconf.blockLoop lines).2.2 := by
  unfold Sysconf.addblock
  dsimp only
  split <;> rfl

theorem parseLoop_eq {parse : Bytes → Sysconf w → Sysconf w} {parse' : Bytes → List SysconfEntry}
    (hparse : ∀ fname c, parse fname c = (parse' fname).foldl (apply m) c) (n : Nat)
    (lines : List Bytes) (c : Sysconf w) :
    Sysconf.parseLoop m parse n lines c = (ofLines parse' n lines).foldl (apply m) c := by
  induction n generalizing lines c with
  | zero => rfl
  | succ n ih =>
    cases lines with
    | nil => rfl
    | cons buf lines =>
      rw [Sysconf.parseLoop, ofLines]
      dsimp only
      by_cases hpercent : (buf.dropWhile isBlank).head? = some 37
      · rw [if_pos hpercent, if_pos hpercent]
        cases strtok (delim (bytes " \t\n")) (buf.dropWhile isBlank) with
        | none => exact ih lines c
        | some token =>
          dsimp only
          by_cases hmenu : token.1 = bytes "%menu"
          · rw [if_pos hmenu, if_pos hmenu]
            cases strtok (delim (bytes " \t\n")) token.2 with
            | none => exact ih lines c
            | some str =>
              dsimp only
              rw [Sysconf.addmenu, menuLoop_eq, List.cons_append, List.foldl_cons, List.foldl_append]
              exact ih _ _
          · rw [if_neg hmenu, if_neg hmenu, List.foldl_cons, addblock_snd]
            exact ih _ _
      rw [if_neg hpercent, if_neg hpercent]
      by_cases hsharp : (buf.dropWhile isBlank).head? = some 35
      · rw [if_pos hsharp, if_pos hsharp]
        cases strtok (delim [32, 9, 34, 10]) (buf.dropWhile isBlank) with
        | none => exact ih lines c
        | some key =>
          dsimp only
          cases strtok (delim [32, 9, 34, 10]) key.2 with
          | none => exact ih lines c
          | some str =>
            dsimp only
            rw [List.foldl_append, ih]
            by_cases hinclude : key.1 = bytes "#include"
            · rw [if_pos hinclude, if_pos hinclude, hparse]
            · rw [if_neg hinclude, if_neg hinclude]
              rfl
      rw [if_neg hsharp, if_neg hsharp]
      by_cases hempty : (buf.dropWhile isBlank).head? = some 10
      · rw [if_pos hempty, if_pos hempty]
        exact ih lines c
      · rw [if_neg hempty, if_neg hempty]
        exact ih lines _

/-- The parser stores the entries one after the other. -/
theorem parseSysconf_eq (files : Bytes → Option Bytes) (n : Nat) (fname : Bytes) (c : Sysconf w) :
    Sysconf.parseSysconf files m n fname c = (ofFile files n fname).foldl (apply m) c := by
  induction n generalizing fname c with
  | zero => rfl
  | succ n ih =>
    rw [Sysconf.parseSysconf, ofFile]
    cases files fname with
    | none => rfl
    | some content => exact parseLoop_eq (fun fname c => ih fname c) _ _ _

/-! ## Sizes -/

theorem addline_eq (ptr : Bytes) : (definition ptr = none → c.addline ptr = c) ∧
    ∀ key str, definition ptr = some (key, str) → ∃ val, c.addline ptr = c.addkey key str val := by
  unfold Sysconf.addline definition
  cases strtok (delim (bytes "=#\n")) ptr with
  | none => exact ⟨fun _ => rfl, fun _ _ h => by cases h⟩
  | some first =>
    obtain ⟨key, rest⟩ := first
    dsimp only
    cases strtok (delim (bytes "#\n")) rest with
    | none => exact ⟨fun _ => rfl, fun _ _ h => by cases h⟩
    | some second =>
      obtain ⟨str, rest⟩ := second
      dsimp only
      by_cases hquote : ∃ str', str.dropWhile isBlank = 34 :: str'
      · obtain ⟨str', hquote⟩ := hquote
        rw [hquote]
        refine ⟨fun h => absurd h (Option.some_ne_none _), fun key' str hsome => ?_⟩
        obtain ⟨rfl, rfl⟩ := Prod.mk.inj (Option.some.inj hsome)
        exact ⟨_, rfl⟩
      · generalize str.dropWhile isBlank = line at hquote
        have hplain : ∀ str', line = 34 :: str' → False := fun str' h => hquote ⟨str', h⟩
        simp only
        refine ⟨fun h => absurd h (Option.some_ne_none _), fun key' str hsome => ?_⟩
        obtain ⟨rfl, rfl⟩ := Prod.mk.inj (Option.some.inj hsome)
        exact ⟨_, rfl⟩

/-- A variable, if there is room for it. -/
theorem length_addkey (key : Bytes) (str : Option Bytes) (val : BitVec 32) :
    (c.addkey key str val).menuitem.length = c.menuitem.length ∧
      (c.addkey key str val).sysvar.length =
        c.sysvar.length + (if c.sysvar.length < scKeysize then 1 else 0) ∧
      (c.addkey key str val).text.length = c.text.length +
        if c.sysvar.length < scKeysize then size key + (str.map size).getD 0 else 0 := by
  unfold Sysconf.addkey
  split
  case isTrue =>
    cases str with
    | none => simp [Sysconf.addstr, size]
    | some str => simp [Sysconf.addstr, size]; omega
  case isFalse => exact ⟨rfl, rfl, rfl⟩

theorem length_additem (cmd : Bytes) (args : List Bytes) :
    (c.additem cmd args).menuitem.length = c.menuitem.length + 1 ∧
      (c.additem cmd args).sysvar = c.sysvar ∧
      (c.additem cmd args).text.length = c.text.length + (item cmd args).plainBytes := by
  unfold Sysconf.additem plainBytes
  dsimp only
  split <;> simp [Sysconf.addstr, size] <;> omega

theorem length_addblock (key : Bytes) (lines : List Bytes) :
    (c.addblock m key lines).1.menuitem.length = c.menuitem.length ∧
      (c.addblock m key lines).1.sysvar.length =
        c.sysvar.length + (if c.sysvar.length < scKeysize then 1 else 0) ∧
      (c.addblock m key lines).1.text.length = c.text.length +
        if c.sysvar.length < scKeysize then size key + size (Sysconf.blockLoop lines).1 else 0 := by
  unfold Sysconf.addblock
  dsimp only
  split
  case isTrue => simp [Sysconf.addstr, size]; omega
  case isFalse => exact ⟨rfl, rfl, rfl⟩

/-- What an entry adds to the tables. -/
theorem length_apply (e : SysconfEntry) :
    (apply m c e).menuitem.length = c.menuitem.length + e.items ∧
      (apply m c e).sysvar.length = c.sysvar.length +
        (if c.sysvar.length < scKeysize then e.keyBytes.toList.length else 0) ∧
      (apply m c e).text.length = c.text.length + e.plainBytes +
        if c.sysvar.length < scKeysize then e.keyBytes.toList.sum else 0 := by
  cases e with
  | file => simp [apply, items, plainBytes, keyBytes, Sysconf.addstr, size]
  | define ptr =>
    obtain ⟨hnone, hsome⟩ := addline_eq (c := c) ptr
    rw [apply, keyBytes]
    cases hdef : definition ptr with
    | none => rw [hnone hdef]; simp [items, plainBytes]
    | some v =>
      obtain ⟨val, hval⟩ := hsome v.1 v.2 hdef
      obtain ⟨hmenu, hvar, htext⟩ := length_addkey (c := c) v.1 v.2 val
      rw [hval, hmenu, hvar, htext]
      simp [items, plainBytes]
  | menu key =>
    obtain ⟨hmenu, hvar, htext⟩ :=
      length_addkey (c := c) key (some (bytes "menu")) (.ofNat 32 c.menuitem.length)
    rw [apply, hmenu, hvar, htext]
    simp [items, plainBytes, keyBytes]
  | item cmd args =>
    obtain ⟨hmenu, hvar, htext⟩ := length_additem (c := c) cmd args
    rw [apply, hmenu, hvar, htext]
    simp [items, keyBytes]
  | endmenu => simp [apply, Sysconf.endmenu, items, plainBytes, keyBytes]
  | block key lines =>
    obtain ⟨hmenu, hvar, htext⟩ := length_addblock (m := m) (c := c) key lines
    rw [apply, hmenu, hvar, htext]
    simp [items, plainBytes, keyBytes]

/-- What the entries add to the tables. -/
theorem length_foldl (es : List SysconfEntry) (h : c.sysvar.length ≤ scKeysize) :
    (es.foldl (apply m) c).menuitem.length = c.menuitem.length + (es.map items).sum ∧
      (es.foldl (apply m) c).sysvar.length =
        min scKeysize (c.sysvar.length + (es.filterMap keyBytes).length) ∧
      (es.foldl (apply m) c).text.length = c.text.length + (es.map plainBytes).sum +
        ((es.filterMap keyBytes).take (scKeysize - c.sysvar.length)).sum := by
  induction es generalizing c with
  | nil => simp [h]
  | cons e es ih =>
    obtain ⟨hmenu, hvar, htext⟩ := length_apply (m := m) (c := c) e
    have hle : (apply m c e).sysvar.length ≤ scKeysize := by
      have hone : e.keyBytes.toList.length ≤ 1 := by cases e.keyBytes <;> simp
      rw [hvar]
      split <;> omega
    obtain ⟨hmenu', hvar', htext'⟩ := ih hle
    rw [List.foldl_cons, hmenu', hvar', htext', hmenu, hvar, htext]
    cases hkey : e.keyBytes with
    | none => simp [hkey, Nat.add_assoc]
    | some k =>
      simp only [Option.toList_some, List.length_cons, List.length_nil, List.sum_cons,
        List.sum_nil, Nat.zero_add, Nat.add_zero, List.map_cons, List.filterMap_cons_some hkey]
      by_cases hroom : c.sysvar.length < scKeysize
      · obtain ⟨j, hj⟩ : ∃ j, scKeysize - c.sysvar.length = j + 1 :=
          ⟨scKeysize - c.sysvar.length - 1, by omega⟩
        have hj' : scKeysize - (c.sysvar.length + 1) = j := by omega
        rw [if_pos hroom, if_pos hroom, hj, hj', List.take_succ_cons, List.sum_cons]
        omega
      · have hfull : scKeysize - c.sysvar.length = 0 := by omega
        rw [if_neg hroom, if_neg hroom, Nat.add_zero, hfull, List.take_zero, List.take_zero]
        omega

/-- The tables are within the limits after some entries just if these have few items and bytes. -/
theorem withinLimits_foldl (es : List SysconfEntry) (buf : BitVec w) :
    (es.foldl (apply m) ⟨buf, [], [], []⟩).WithinLimits ↔
      (es.map items).sum ≤ scCmdsize ∧ neededBytes es ≤ scBufsize := by
  obtain ⟨hmenu, hvar, htext⟩ :=
    length_foldl (m := m) (c := (⟨buf, [], [], []⟩ : Sysconf w)) es (Nat.zero_le _)
  simp only [List.length_nil, Nat.zero_add, Nat.sub_zero] at hmenu hvar htext
  constructor
  · rintro ⟨hitems, -, hbytes⟩
    rw [hmenu] at hitems
    rw [htext] at hbytes
    exact ⟨hitems, hbytes⟩
  · rintro ⟨hitems, hbytes⟩
    exact ⟨hmenu ▸ hitems, hvar ▸ Nat.min_le_left .., htext ▸ hbytes⟩

theorem items_mono {es es' : List SysconfEntry} (h : es <+: es') :
    (es.map items).sum ≤ (es'.map items).sum := by
  obtain ⟨rest, rfl⟩ := h
  rw [List.map_append, List.sum_append]
  exact Nat.le_add_right ..

theorem neededBytes_mono {es es' : List SysconfEntry} (h : es <+: es') :
    neededBytes es ≤ neededBytes es' := by
  obtain ⟨rest, rfl⟩ := h
  unfold neededBytes
  rw [List.map_append, List.sum_append, List.filterMap_append, List.take_append, List.sum_append]
  omega

end SysconfEntry

/-- The parser, which ends since only `n` more files can be opened, stores the entries of the files
one after the other; no store is outside of the tables if and only if the items and the bytes of all
entries are within the limits. -/
theorem parse_sysconf_iff (files : Bytes → Option Bytes) (m : Malloced) (n : Nat) {w : Nat}
    (buf : BitVec w) (configfile : Bytes) :
    (Sysconf.buildSysconf files m n buf configfile =
        (ofFile files n configfile).foldl (apply m) ⟨buf, [], [], []⟩ ∧
      StoresInside files m n buf configfile) ↔
    ((ofFile files n configfile).map items).sum ≤ scCmdsize ∧
      neededBytes (ofFile files n configfile) ≤ scBufsize := by
  have hbuild : Sysconf.buildSysconf files m n buf configfile =
      (ofFile files n configfile).foldl (apply m) ⟨buf, [], [], []⟩ :=
    parseSysconf_eq files n configfile _
  rw [and_iff_right hbuild]
  constructor
  · exact fun h => (withinLimits_foldl _ buf).mp (h _ List.prefix_rfl)
  · rintro ⟨hitems, hbytes⟩ es hes
    exact (withinLimits_foldl es buf).mpr
      ⟨(items_mono hes).trans hitems, (neededBytes_mono hes).trans hbytes⟩

/-- A menu without items in a file that includes itself. -/
def selfIncluding : Bytes := bytes "%menu M\n%\n#include f\n"

theorem ofFile_selfIncluding (n : Nat) : ofFile (fun _ => some selfIncluding) (n + 1) (bytes "f") =
    [.file, .menu (bytes "M"), .endmenu] ++ ofFile (fun _ => some selfIncluding) n (bytes "f") := by
  have hlines : fgetsLines selfIncluding = [bytes "%menu M\n", bytes "%\n", bytes "#include f\n"] := by
    decide +kernel
  rw [ofFile]
  dsimp only
  rw [hlines]
  generalize ofFile (fun _ => some selfIncluding) n = parse
  show [file, menu (bytes "M"), endmenu] ++ (parse (bytes "f") ++ []) = _
  rw [List.append_nil]

theorem items_selfIncluding (n : Nat) :
    ((ofFile (fun _ => some selfIncluding) n (bytes "f")).map items).sum = n := by
  induction n with
  | zero => rfl
  | succ n ih =>
    rw [ofFile_selfIncluding, List.map_append, List.sum_append, ih]
    exact Nat.add_comm 1 n

/-- The last item of 257 is stored behind the table. -/
theorem menuitem_overflow : ¬∀ (files : Bytes → Option Bytes) (m : Malloced) (n : Nat)
    (buf : BitVec 32) (configfile : Bytes), StoresInside files m n buf configfile := by
  intro h
  have hinside := h (fun _ => some selfIncluding) ⟨fun _ => 0, fun _ => 0, fun _ => 0⟩ 257 0 (bytes "f")
  have hitems := ((withinLimits_foldl _ 0).mp (hinside _ List.prefix_rfl)).1
  rw [items_selfIncluding] at hitems
  exact absurd hitems (by decide)

end ArgoBbs

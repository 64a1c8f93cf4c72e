import ArgoBbs.Lib.CString
import ArgoBbs.Lib.Fgets
import ArgoBbs.Lib.Pointers
import ArgoBbs.Lib.Tokens

/-! # The image of the configuration

`parse_sysconf` reads the menus and variables of the system from a file of text and keeps their
strings one after the other in a buffer, to which the tables point (`comm_lists.c`).
`build_sysconf` writes the tables and the buffer as they are, with the address of the buffer, and
`load_sysconf_image` adds the difference to the address that the buffer has then to every pointer.
`w` is the number of bits of an address and of a `long`. -/

namespace ArgoBbs

def scBufsize : Nat := 20480
def scKeysize : Nat := 256
def scCmdsize : Nat := 256

/-- An item of a menu; `fptr` is the address of the name of its function. -/
structure SMenuItem (w : Nat) where
  line : BitVec 32
  col : BitVec 32
  level : BitVec 32
  name : BitVec w
  desc : BitVec w
  arg : BitVec w
  fptr : BitVec w

structure SDefine (w : Nat) where
  key : BitVec w
  str : BitVec w
  val : BitVec 32

/-- The address and the first `sysconf_len` bytes of `sysconf_buf`, and the two tables. -/
structure Sysconf (w : Nat) where
  buf : BitVec w
  text : Bytes
  menuitem : List (SMenuItem w)
  sysvar : List (SDefine w)

/-- What `malloc` leaves in the buffer and in the items. -/
structure Malloced where
  text : Nat → UInt8
  line : Nat → BitVec 32
  col : Nat → BitVec 32

/-! ## The text of the configuration -/

def isBlank (c : UInt8) : Bool := c = 32 || c = 9

/-- A delimiter of `strtok`, whose delimiters are given as a string. -/
def delim (delims : Bytes) (c : UInt8) : Bool := delims.contains c

/-- What a call of `strtok` makes of the string it works on. -/
def cutToken (delims s : Bytes) : Bytes :=
  s.takeWhile (delim delims) ++ (s.dropWhile (delim delims)).takeWhile (!delim delims ·)

/-- Runs of at least four bytes are encoded. -/
def encodeLoop : Nat → Bytes → Bytes
  | 0, _ | _, [] => []
  | fuel + 1, ch :: str =>
    if str.take 3 = [ch, ch, ch] then
      let more := (((str.drop 3).takeWhile (· = ch)).take 96).length
      1 :: ch :: UInt8.ofNat (4 + more) :: encodeLoop fuel (str.drop (3 + more))
    else ch :: encodeLoop fuel str

def encodestr (str : Bytes) : Bytes := encodeLoop str.length str

/-- An argument of an item, in quotes or up to a blank. -/
def menuArg (ptr : Bytes) : Bytes :=
  match ptr.dropWhile isBlank with
  | 34 :: ptr => ptr.takeWhile (· ≠ 34)
  | ptr => ptr.takeWhile (!isBlank ·)

/-- The arguments behind the command, at most `n`. -/
def menuArgs : Nat → Bytes → List Bytes
  | 0, _ => []
  | n + 1, rest =>
    match strtok (delim (bytes ",\n")) rest with
    | some (ptr, rest) => menuArg ptr :: menuArgs n rest
    | none => []

namespace Sysconf
variable {w : Nat} (c : Sysconf w)

/-- The string at an address of the buffer. -/
def string (p : BitVec w) : Option Bytes := cstr (c.text.drop (p - c.buf).toNat)

/-- `sysconf_addstr`: the address of the string and the buffer with it. -/
def addstr (str : Bytes) : BitVec w × Sysconf w :=
  (c.buf + .ofNat w c.text.length, { c with text := c.text ++ str ++ [0] })

def eval (key : Bytes) : BitVec 32 :=
  match c.sysvar.find? fun v => c.string v.key = some key with
  | some v => v.val
  | none => .ofInt 32 (strtol w 0 key)

def addkey (key : Bytes) (str : Option Bytes) (val : BitVec 32) : Sysconf w :=
  if c.sysvar.length < scKeysize then
    let (str, c) := match str with
      | some str => c.addstr str
      | none => (c.buf, c)
    let (key, c) := c.addstr key
    { c with sysvar := c.sysvar ++ [⟨key, str, val⟩] }
  else c

/-- The item that a line of a menu makes. -/
def additem (cmd : Bytes) (args : List Bytes) : Sysconf w :=
  let arg (n : Nat) := args.getD n []
  let line := c.eval (arg 0)
  let col := c.eval (arg 1)
  match cmd with
  | 64 :: cmd =>
    let level := c.eval (arg 2)
    let (name, c) := c.addstr (arg 3)
    let (desc, c) := c.addstr (arg 4)
    let (fptr, c) := c.addstr cmd
    { c with menuitem := c.menuitem ++ [⟨line, col, level, name, desc, name, fptr⟩] }
  | 33 :: cmd =>
    let level := c.eval (arg 2)
    let (name, c) := c.addstr (arg 3)
    let (desc, c) := c.addstr (arg 4)
    let (fptr, c) := c.addstr (bytes "domenu")
    let (arg, c) := c.addstr cmd
    { c with menuitem := c.menuitem ++ [⟨line, col, level, name, desc, arg, fptr⟩] }
  | cmd =>
    let (name, c) := c.addstr cmd
    let (desc, c) := c.addstr (arg 2)
    { c with menuitem := c.menuitem ++ [⟨line, col, -2, name, desc, c.buf, c.buf⟩] }

/-- The item that ends a menu. -/
def endmenu (m : Malloced) : Sysconf w :=
  let n := c.menuitem.length
  { c with menuitem := c.menuitem ++ [⟨m.line n, m.col n, -1, c.buf, c.buf, c.buf, c.buf⟩] }

/-- The lines of a menu; the second result are the lines behind it. -/
def menuLoop (m : Malloced) : List Bytes → Sysconf w → Sysconf w × List Bytes
  | [], c => (c.endmenu m, [])
  | buf :: lines, c =>
    if buf.head? = some 37 then (c.endmenu m, lines)
    else
      match strtok (delim (bytes " \t\n")) buf with
      | some (cmd, rest) =>
        if cmd.head? = some 35 then menuLoop m lines c
        else menuLoop m lines (c.additem cmd (menuArgs 5 rest))
      | none => menuLoop m lines c

def addmenu (m : Malloced) (key : Bytes) (lines : List Bytes) : Sysconf w × List Bytes :=
  menuLoop m lines (c.addkey key (some (bytes "menu")) (.ofNat 32 c.menuitem.length))

/-- The lines of a block, and whether there is one. -/
def blockLoop : List Bytes → Bytes × Bool × List Bytes
  | [] => ([], false, [])
  | buf :: lines =>
    if buf.head? = some 37 then ([], false, lines)
    else
      let (block, _, lines) := blockLoop lines
      (encodestr buf ++ block, true, lines)

def addblock (m : Malloced) (key : Bytes) (lines : List Bytes) : Sysconf w × List Bytes :=
  let (block, read, lines) := blockLoop lines
  if c.sysvar.length < scKeysize then
    let (key, c) := c.addstr key
    let str := c.buf + .ofNat w c.text.length
    -- `strcpy` of the lines sets the byte behind them; without a line nothing does
    let last := if read then 0 else m.text c.text.length
    ({ c with text := c.text ++ block ++ [last], sysvar := c.sysvar ++ [⟨key, str, -1⟩] }, lines)
  else (c, lines)

/-- The value of the names and numbers in a definition. -/
def evalLoop : Nat → Bytes → BitVec 32 → BitVec 32
  | 0, _, val => val
  | fuel + 1, tmp, val =>
    match strtok (delim (bytes ", \t")) tmp with
    | some (ptr, rest) => evalLoop fuel rest (val ||| c.eval ptr)
    | none => val

/-- A line that defines a variable. -/
def addline (ptr : Bytes) : Sysconf w :=
  match strtok (delim (bytes "=#\n")) ptr with
  | none => c
  | some (key, rest) =>
    match strtok (delim (bytes "#\n")) rest with
    | none => c
    | some (str, _) =>
      let key := cutToken (bytes " \t") key
      match str.dropWhile isBlank with
      | 34 :: str =>
        let str := cutToken [34] str
        c.addkey key (some str) (.ofInt 32 (strtol w 10 str))
      | str => c.addkey key none (c.evalLoop str.length str 0)

/-- The lines of a file; `n` is at least their number. -/
def parseLoop (m : Malloced) (parse : Bytes → Sysconf w → Sysconf w) :
    Nat → List Bytes → Sysconf w → Sysconf w
  | 0, _, c | _, [], c => c
  | n + 1, buf :: lines, c =>
    let ptr := buf.dropWhile isBlank
    if ptr.head? = some 37 then
      match strtok (delim (bytes " \t\n")) ptr with
      | none => parseLoop m parse n lines c
      | some (ptr, rest) =>
        if ptr = bytes "%menu" then
          match strtok (delim (bytes " \t\n")) rest with
          | none => parseLoop m parse n lines c
          | some (str, _) =>
            let (c, lines) := c.addmenu m str lines
            parseLoop m parse n lines c
        else
          let (c, lines) := c.addblock m (ptr.drop 1) lines
          parseLoop m parse n lines c
    else if ptr.head? = some 35 then
      match strtok (delim [32, 9, 34, 10]) ptr with
      | none => parseLoop m parse n lines c
      | some (key, rest) =>
        match strtok (delim [32, 9, 34, 10]) rest with
        | none => parseLoop m parse n lines c
        | some (str, _) =>
          parseLoop m parse n lines (if key = bytes "#include" then parse str c else c)
    else if ptr.head? = some 10 then parseLoop m parse n lines c
    else parseLoop m parse n lines (c.addline ptr)

/-- `parse_sysconf` with a number of files that can still be opened. -/
def parseSysconf (files : Bytes → Option Bytes) (m : Malloced) :
    Nat → Bytes → Sysconf w → Sysconf w
  | 0, _, c => c
  | n + 1, fname, c =>
    match files fname with
    | none => c
    | some content =>
      let lines := fgetsLines content
      parseLoop m (parseSysconf files m n) lines.length lines (c.addstr (bytes "(null ptr)")).2

/-- `build_sysconf`: what is written to the image, with the address of the buffer. -/
def buildSysconf (files : Bytes → Option Bytes) (m : Malloced) (n : Nat) (buf : BitVec w)
    (configfile : Bytes) : Sysconf w :=
  parseSysconf files m n configfile ⟨buf, [], [], []⟩

/-- `load_sysconf_image` when the buffer of the image comes to an address. -/
def loadSysconfImage (buf : BitVec w) (img : Sysconf w) : Sysconf w :=
  let diff := intDiff buf img.buf
  { img with
    buf
    menuitem := img.menuitem.map fun item =>
      { item with
        name := item.name + diff
        desc := item.desc + diff
        arg := item.arg + diff
        fptr := item.fptr + diff }
    sysvar := img.sysvar.map fun v => { v with key := v.key + diff, str := v.str + diff } }

/-- The tables and the buffer are not larger than `build_sysconf` has made room for. -/
structure WithinLimits : Prop where
  menuitem : c.menuitem.length ≤ scCmdsize
  sysvar : c.sysvar.length ≤ scKeysize
  text : c.text.length ≤ scBufsize

end Sysconf

/-- The function with the name in the table of `sysconf_funcptr`. -/
def sysconfFuncptr (cmdlist : List Bytes) (funcName : Bytes) : Option Nat :=
  cmdlist.findIdx? (· = funcName)

section
variable {w : Nat} (mem mem' : BitVec w → UInt8)

/-- The same string stands at an address in one process and at another one in another process. -/
def SameString (p p' : BitVec w) : Prop := ∀ s, StringAt mem' p' s ↔ StringAt mem p s

/-- The function is the one named by the string at the address. -/
def NamesFunction (cmdlist : List Bytes) (p : BitVec w) (f : Option Nat) : Prop :=
  ∃ s, StringAt mem p s ∧ f = sysconfFuncptr cmdlist s

structure SameItem (item item' : SMenuItem w) : Prop where
  line : item'.line = item.line
  col : item'.col = item.col
  level : item'.level = item.level
  name : SameString mem mem' item.name item'.name
  desc : SameString mem mem' item.desc item'.desc
  arg : SameString mem mem' item.arg item'.arg
  fptr : ∀ cmdlist f, NamesFunction mem' cmdlist item'.fptr f ↔ NamesFunction mem cmdlist item.fptr f

structure SameVar (v v' : SDefine w) : Prop where
  key : SameString mem mem' v.key v'.key
  str : SameString mem mem' v.str v'.str
  val : v'.val = v.val

end

namespace Sysconf
variable {w : Nat}

/-- The image has the same menus and variables in a process where its buffer is at the address,
whatever else stands in the memory of the two processes. -/
def LoadsSame (img : Sysconf w) (buf : BitVec w) : Prop :=
  ∀ mem mem', BytesAt mem img.buf img.text → BytesAt mem' buf img.text →
    List.Forall₂ (SameItem mem mem') img.menuitem (loadSysconfImage buf img).menuitem ∧
      List.Forall₂ (SameVar mem mem') img.sysvar (loadSysconfImage buf img).sysvar

/-! ## What is parsed -/

/-- The address is that of a byte of the buffer. -/
def Valid (c : Sysconf w) (p : BitVec w) : Prop := ∃ n < c.text.length, p = c.buf + .ofNat w n

/-- The tables point into the buffer, which ends with a zero byte, or else with the string of a
variable that has not been set. -/
structure Parsed (base : BitVec w) (c : Sysconf w) : Prop where
  base : c.buf = base
  text : c.text ≠ []
  items : ∀ item ∈ c.menuitem,
    c.Valid item.name ∧ c.Valid item.desc ∧ c.Valid item.arg ∧ c.Valid item.fptr
  vars : ∀ v ∈ c.sysvar, c.Valid v.key ∧ c.Valid v.str
  last : c.text.getLast? = some 0 ∨
    ∃ v ∈ c.sysvar, v.str = c.buf + .ofNat w (c.text.length - 1)

/-- A configuration with the buffer of another one and more behind it. -/
structure Extends (c c' : Sysconf w) : Prop where
  buf : c'.buf = c.buf
  length : c.text.length ≤ c'.text.length

section
variable {c c' : Sysconf w} {base p : BitVec w} {str : Bytes}

theorem Valid.mono (h : c.Valid p) (hext : Extends c c') : c'.Valid p := by
  obtain ⟨n, hn, rfl⟩ := h
  exact ⟨n, hn.trans_le hext.length, by rw [hext.buf]⟩

theorem valid_buf (h : c.text ≠ []) : c.Valid c.buf :=
  ⟨0, List.length_pos_iff.mpr h, (BitVec.add_zero c.buf).symm⟩

theorem extends_addstr (c : Sysconf w) (str : Bytes) : Extends c (c.addstr str).2 := by
  refine ⟨rfl, ?_⟩
  simp only [addstr, List.length_append]
  omega

theorem valid_addstr (c : Sysconf w) (str : Bytes) :
    (c.addstr str).2.Valid (c.addstr str).1 := by
  refine ⟨c.text.length, ?_, rfl⟩
  simp only [addstr, List.length_append, List.length_singleton]
  omega

/-- A string is added behind the buffer of tables that point into it. -/
theorem parsed_addstr (hbase : c.buf = base) (hitems : ∀ item ∈ c.menuitem,
      c.Valid item.name ∧ c.Valid item.desc ∧ c.Valid item.arg ∧ c.Valid item.fptr)
    (hvars : ∀ v ∈ c.sysvar, c.Valid v.key ∧ c.Valid v.str) (str : Bytes) :
    Parsed base (c.addstr str).2 := by
  have hext := extends_addstr c str
  constructor
  case base => exact hbase
  case text => exact List.concat_ne_nil _ _
  case items =>
    intro item hitem
    obtain ⟨hname, hdesc, harg, hfptr⟩ := hitems item hitem
    exact ⟨hname.mono hext, hdesc.mono hext, harg.mono hext, hfptr.mono hext⟩
  case vars =>
    intro v hv
    exact ⟨(hvars v hv).1.mono hext, (hvars v hv).2.mono hext⟩
  case last => exact .inl List.getLast?_concat

theorem Parsed.addstr (h : Parsed base c) (str : Bytes) : Parsed base (c.addstr str).2 :=
  parsed_addstr h.base h.items h.vars str

theorem Parsed.push (h : Parsed base c) {item : SMenuItem w}
    (hitem : c.Valid item.name ∧ c.Valid item.desc ∧ c.Valid item.arg ∧ c.Valid item.fptr) :
    Parsed base { c with menuitem := c.menuitem ++ [item] } where
  base := h.base
  text := h.text
  items := List.forall_mem_append.mpr ⟨h.items, List.forall_mem_singleton.mpr hitem⟩
  vars := h.vars
  last := h.last

theorem Parsed.define (h : Parsed base c) {v : SDefine w} (hv : c.Valid v.key ∧ c.Valid v.str) :
    Parsed base { c with sysvar := c.sysvar ++ [v] } where
  base := h.base
  text := h.text
  items := h.items
  vars := List.forall_mem_append.mpr ⟨h.vars, List.forall_mem_singleton.mpr hv⟩
  last := h.last.imp_right fun ⟨u, hu, hstr⟩ => ⟨u, List.mem_append_left _ hu, hstr⟩

theorem Parsed.addkey (h : Parsed base c) (key : Bytes) (str : Option Bytes) (val : BitVec 32) :
    Parsed base (c.addkey key str val) := by
  unfold Sysconf.addkey
  split
  case isFalse => exact h
  case isTrue =>
    cases str with
    | some str =>
      have hstr := h.addstr str
      have hvalid := (valid_addstr c str).mono (extends_addstr (c.addstr str).2 key)
      exact (hstr.addstr key).define ⟨valid_addstr _ key, hvalid⟩
    | none =>
      have hvalid := (valid_buf h.text).mono (extends_addstr c key)
      exact (h.addstr key).define ⟨valid_addstr _ key, hvalid⟩

theorem Parsed.additem (h : Parsed base c) (cmd : Bytes) (args : List Bytes) :
    Parsed base (c.additem cmd args) := by
  -- the buffer with the name, and then with the description
  have hname (name : Bytes) : (c.addstr name).2.Valid (c.addstr name).1 := valid_addstr c name
  have hdesc (name desc : Bytes) := valid_addstr (c.addstr name).2 desc
  unfold Sysconf.additem
  dsimp only
  split
  case h_1 cmd =>
    have hparsed := ((h.addstr (args.getD 3 [])).addstr (args.getD 4 [])).addstr cmd
    have hlast := extends_addstr ((c.addstr (args.getD 3 [])).2.addstr (args.getD 4 [])).2 cmd
    have hname := ((hname (args.getD 3 [])).mono (extends_addstr _ (args.getD 4 []))).mono hlast
    exact hparsed.push ⟨hname, (hdesc ..).mono hlast, hname, valid_addstr _ cmd⟩
  case h_2 cmd =>
    have hparsed :=
      (((h.addstr (args.getD 3 [])).addstr (args.getD 4 [])).addstr (bytes "domenu")).addstr cmd
    have hfptr := extends_addstr ((c.addstr (args.getD 3 [])).2.addstr (args.getD 4 [])).2
      (bytes "domenu")
    have hlast := extends_addstr
      (((c.addstr (args.getD 3 [])).2.addstr (args.getD 4 [])).2.addstr (bytes "domenu")).2 cmd
    have hname := ((hname (args.getD 3 [])).mono (extends_addstr _ (args.getD 4 []))).mono hfptr
    exact hparsed.push ⟨hname.mono hlast, ((hdesc ..).mono hfptr).mono hlast, valid_addstr _ cmd,
      (valid_addstr _ (bytes "domenu")).mono hlast⟩
  case h_3 =>
    have hparsed := (h.addstr cmd).addstr (args.getD 2 [])
    have hbuf := valid_buf hparsed.text
    exact hparsed.push ⟨(hname cmd).mono (extends_addstr _ _), hdesc .., hbuf, hbuf⟩

theorem Parsed.endmenu (h : Parsed base c) (m : Malloced) : Parsed base (c.endmenu m) :=
  have hbuf := valid_buf h.text
  h.push ⟨hbuf, hbuf, hbuf, hbuf⟩

theorem Parsed.menuLoop (m : Malloced) (lines : List Bytes) (h : Parsed base c) :
    Parsed base (menuLoop m lines c).1 := by
  induction lines generalizing c with
  | nil => exact h.endmenu m
  | cons buf lines ih =>
    rw [Sysconf.menuLoop]
    split
    case isTrue => exact h.endmenu m
    case isFalse =>
      split
      case h_1 cmd rest _ =>
        split
        case isTrue => exact ih h
        case isFalse => exact ih (h.additem cmd _)
      case h_2 => exact ih h

theorem Parsed.addmenu (h : Parsed base c) (m : Malloced) (key : Bytes) (lines : List Bytes) :
    Parsed base (c.addmenu m key lines).1 :=
  (h.addkey key _ _).menuLoop m lines

theorem blockLoop_empty {lines : List Bytes} (h : (blockLoop lines).2.1 = false) :
    (blockLoop lines).1 = [] := by
  cases lines with
  | nil => rfl
  | cons buf lines =>
    rw [blockLoop] at h ⊢
    split
    case isTrue => rfl
    case isFalse hline =>
      rw [if_neg hline] at h
      cases h

/-- A block is added that ends with a zero byte, or of which nothing is there. -/
theorem Parsed.block (h : Parsed base c) {key : BitVec w} (hkey : c.Valid key) {block : Bytes}
    {last : UInt8} (hlast : last = 0 ∨ block = []) :
    Parsed base { c with
      text := c.text ++ block ++ [last]
      sysvar := c.sysvar ++ [⟨key, c.buf + .ofNat w c.text.length, -1⟩] } := by
  have hlen : (c.text ++ block ++ [last]).length = c.text.length + block.length + 1 := by
    rw [List.length_append, List.length_append, List.length_singleton]
  have hmono : ∀ p, c.Valid p → ∃ n < (c.text ++ block ++ [last]).length, p = c.buf + .ofNat w n := by
    rintro p ⟨n, hn, rfl⟩
    exact ⟨n, by omega, rfl⟩
  constructor
  case base => exact h.base
  case text => exact List.concat_ne_nil _ _
  case items =>
    intro item hitem
    obtain ⟨hname, hdesc, harg, hfptr⟩ := h.items item hitem
    exact ⟨hmono _ hname, hmono _ hdesc, hmono _ harg, hmono _ hfptr⟩
  case vars =>
    refine List.forall_mem_append.mpr ⟨fun v hv => ?_, List.forall_mem_singleton.mpr ?_⟩
    · exact ⟨hmono _ (h.vars v hv).1, hmono _ (h.vars v hv).2⟩
    · exact ⟨hmono _ hkey, c.text.length, by dsimp only; omega, rfl⟩
  case last =>
    rcases hlast with rfl | rfl
    · exact .inl List.getLast?_concat
    · refine .inr ⟨_, List.mem_append_right _ (List.mem_singleton_self _), ?_⟩
      dsimp only
      rw [List.append_nil, List.length_append, List.length_singleton, Nat.add_sub_cancel]

theorem Parsed.addblock (h : Parsed base c) (m : Malloced) (key : Bytes) (lines : List Bytes) :
    Parsed base (c.addblock m key lines).1 := by
  have hempty := @blockLoop_empty lines
  unfold Sysconf.addblock
  dsimp only
  split
  case isFalse => exact h
  case isTrue =>
    refine (h.addstr key).block (valid_addstr c key) ?_
    cases hread : (blockLoop lines).2.1 with
    | true => exact .inl rfl
    | false => exact .inr (hempty hread)

theorem Parsed.addline (h : Parsed base c) (ptr : Bytes) : Parsed base (c.addline ptr) := by
  unfold Sysconf.addline
  split
  case h_1 => exact h
  case h_2 =>
    split
    case h_1 => exact h
    case h_2 =>
      dsimp only
      split
      case h_1 => exact h.addkey ..
      case h_2 => exact h.addkey ..

theorem Parsed.parseLoop {m : Malloced} {parse : Bytes → Sysconf w → Sysconf w}
    (hparse : ∀ fname c, Parsed base c → Parsed base (parse fname c)) (n : Nat) (lines : List Bytes)
    (h : Parsed base c) : Parsed base (parseLoop m parse n lines c) := by
  induction n generalizing lines c with
  | zero => exact h
  | succ n ih =>
    cases lines with
    | nil => exact h
    | cons buf lines =>
      rw [Sysconf.parseLoop]
      dsimp only
      split
      case isTrue =>
        split
        case h_1 => exact ih lines h
        case h_2 ptr rest _ =>
          split
          case isTrue =>
            split
            case h_1 => exact ih lines h
            case h_2 str _ _ => exact ih _ (h.addmenu m str lines)
          case isFalse => exact ih _ (h.addblock m _ lines)
      case isFalse =>
        split
        case isTrue =>
          split
          case h_1 => exact ih lines h
          case h_2 =>
            split
            case h_1 => exact ih lines h
            case h_2 str _ _ =>
              refine ih lines ?_
              split
              case isTrue => exact hparse str c h
              case isFalse => exact h
        case isFalse =>
          split
          case isTrue => exact ih lines h
          case isFalse => exact ih lines (h.addline _)

/-- Including a file keeps the tables pointing into the buffer. -/
theorem Parsed.parseSysconf {files : Bytes → Option Bytes} {m : Malloced} (n : Nat)
    (fname : Bytes) (h : Parsed base c) : Parsed base (parseSysconf files m n fname c) := by
  induction n generalizing fname c with
  | zero => exact h
  | succ n ih =>
    rw [Sysconf.parseSysconf]
    split
    case h_1 => exact h
    case h_2 => exact (h.addstr _).parseLoop (fun fname c => ih fname) _ _

/-- What is built has empty tables or is as it should be. -/
theorem parsed_buildSysconf (files : Bytes → Option Bytes) (m : Malloced) (n : Nat) (buf : BitVec w)
    (configfile : Bytes) :
    (buildSysconf files m n buf configfile).menuitem = [] ∧
        (buildSysconf files m n buf configfile).sysvar = [] ∨
      Parsed buf (buildSysconf files m n buf configfile) := by
  unfold buildSysconf
  cases n with
  | zero => exact .inl ⟨rfl, rfl⟩
  | succ n =>
    rw [Sysconf.parseSysconf]
    split
    case h_1 => exact .inl ⟨rfl, rfl⟩
    case h_2 =>
      have hstart : Parsed buf ((⟨buf, [], [], []⟩ : Sysconf w).addstr (bytes "(null ptr)")).2 :=
        parsed_addstr (c := ⟨buf, [], [], []⟩) rfl (fun _ h => absurd h List.not_mem_nil)
          (fun _ h => absurd h List.not_mem_nil) _
      exact .inr (hstart.parseLoop (fun fname c h => h.parseSysconf n fname) _ _)

/-! ## What is loaded -/

/-- A memory of which the bytes are known has also known bytes in front. -/
theorem bytesAt_of_append {mem : BitVec w → UInt8} {base : BitVec w} {text rest : Bytes}
    (h : BytesAt mem base (text ++ rest)) : BytesAt mem base text := by
  intro i b hb
  obtain ⟨hi, -⟩ := List.getElem?_eq_some_iff.mp hb
  exact h i b ((List.getElem?_append_left hi).trans hb)

theorem sameString_of_fits (hfits : intDiff p c.buf = p - c.buf) {q : BitVec w}
    (hlast : c.text.getLast? = some 0) (hq : c.Valid q) {mem mem' : BitVec w → UInt8}
    (hmem : BytesAt mem c.buf c.text) (hmem' : BytesAt mem' p c.text) :
    SameString mem mem' q (q + intDiff p c.buf) := by
  obtain ⟨n, hn, rfl⟩ := hq
  obtain ⟨t, ht⟩ := exists_cstr_drop hlast hn
  have hmove : c.buf + .ofNat w n + intDiff p c.buf = p + .ofNat w n := by
    rw [hfits]
    grind
  intro s
  rw [hmove, stringAt_iff hmem ht, stringAt_iff hmem' ht]

/-- Strings that are the same name the same function. -/
theorem named_iff {mem mem' : BitVec w → UInt8} {q q' : BitVec w} (h : SameString mem mem' q q')
    (cmdlist : List Bytes) (f : Option Nat) :
    NamesFunction mem' cmdlist q' f ↔ NamesFunction mem cmdlist q f :=
  exists_congr fun s => and_congr_left' (h s)

theorem loadsSame_of_fits (h : Parsed base c) (hfits : intDiff p c.buf = p - c.buf)
    (hlast : c.text.getLast? = some 0) : c.LoadsSame p := by
  intro mem mem' hmem hmem'
  have hsame {q : BitVec w} (hq : c.Valid q) : SameString mem mem' q (q + intDiff p c.buf) :=
    sameString_of_fits hfits hlast hq hmem hmem'
  constructor
  · refine List.forall₂_map_right_iff.mpr (List.forall₂_same.mpr fun item hitem => ?_)
    obtain ⟨hname, hdesc, harg, hfptr⟩ := h.items item hitem
    exact ⟨rfl, rfl, rfl, hsame hname, hsame hdesc, hsame harg, named_iff (hsame hfptr)⟩
  · refine List.forall₂_map_right_iff.mpr (List.forall₂_same.mpr fun v hv => ?_)
    exact ⟨hsame (h.vars v hv).1, hsame (h.vars v hv).2, rfl⟩

/-- With a difference that is no `int`, no string of the buffer is found again. -/
theorem fits_of_sameString (hw : 32 ≤ w) (hlen : c.text.length ≤ scBufsize) {q : BitVec w}
    (hq : c.Valid q)
    (h : ∀ mem mem', BytesAt mem c.buf c.text → BytesAt mem' p c.text →
      SameString mem mem' q (q + intDiff p c.buf)) : intDiff p c.buf = p - c.buf := by
  by_contra hne
  obtain ⟨n, hn, rfl⟩ := hq
  have hpow : 2 ^ 32 ≤ 2 ^ w := Nat.pow_le_pow_right (by decide) hw
  have hsize : scBufsize < 2 ^ 32 := by decide
  have hfar := le_of_intDiff_ne hw (hn.trans_le (hlen.trans hsize.le)) hne
  -- a memory in which the string ends, and one with another byte where it is looked for
  have hmem : BytesAt (placed c.buf (c.text ++ [0]) fun _ => 0) c.buf (c.text ++ [0]) :=
    bytesAt_placed (by rw [List.length_append, List.length_singleton]; omega)
  obtain ⟨s, hs⟩ : ∃ t, cstr ((c.text ++ [0]).drop n) = some t :=
    exists_cstr_drop List.getLast?_concat (by rw [List.length_append]; omega)
  have hmem' : BytesAt (placed p c.text fun _ => s.headD 0 + 1) p c.text :=
    bytesAt_placed (by omega)
  have hloaded := (h _ _ (bytesAt_of_append hmem) hmem' s).mpr (stringAt_of_cstr hmem hs)
  have hhead := hloaded.head
  rw [placed_of_le (by omega)] at hhead
  grind

/-- A string that does not end in the buffer is not found again. -/
theorem last_of_sameString (hw : 32 ≤ w) (hlen : c.text.length ≤ scBufsize) (hne : c.text ≠ [])
    (hfits : intDiff p c.buf = p - c.buf)
    (h : ∀ mem mem', BytesAt mem c.buf c.text → BytesAt mem' p c.text →
      SameString mem mem' (c.buf + .ofNat w (c.text.length - 1))
        (c.buf + .ofNat w (c.text.length - 1) + intDiff p c.buf)) : c.text.getLast? = some 0 := by
  obtain ⟨init, b, htext⟩ : ∃ init b, c.text = init ++ [b] :=
    ⟨_, _, (List.dropLast_concat_getLast hne).symm⟩
  have hpow : 2 ^ 32 ≤ 2 ^ w := Nat.pow_le_pow_right (by decide) hw
  have hsize : scBufsize < 2 ^ 32 := by decide
  rw [htext] at hlen h ⊢
  rw [List.getLast?_concat]
  by_contra hb
  have hb : b ≠ 0 := fun hzero => hb (congrArg some hzero)
  rw [List.length_append, List.length_singleton, Nat.add_sub_cancel] at h
  rw [List.length_append, List.length_singleton] at hlen
  have hlast (d : UInt8) : (init ++ [b] ++ [d]).length ≤ 2 ^ w := by
    simp only [List.length_append, List.length_singleton]
    omega
  have hmem : BytesAt (placed c.buf (init ++ [b] ++ [0]) fun _ => 0) c.buf (init ++ [b] ++ [0]) :=
    bytesAt_placed (hlast 0)
  have hmem' : BytesAt (placed p (init ++ [b] ++ [1]) fun _ => 0) p (init ++ [b] ++ [1]) :=
    bytesAt_placed (hlast 1)
  have hstring : cstr ((init ++ [b] ++ [0]).drop init.length) = some [b] := by
    rw [List.append_assoc, List.drop_left]
    exact cstr_append (by simpa using hb.symm)
  have hloaded := (h _ _ (bytesAt_of_append hmem) (bytesAt_of_append hmem') [b]).mpr
    (stringAt_of_cstr hmem hstring)
  have hmove : c.buf + .ofNat w init.length + intDiff p c.buf = p + .ofNat w init.length := by
    rw [hfits]
    grind
  have hend := hloaded.2.2
  rw [hmove, add_ofNat_succ] at hend
  have hone := hmem' (init.length + 1) 1 (by simp)
  exact absurd (hone.symm.trans hend) (by decide)

/-- What is loaded of an item and of a variable. -/
theorem LoadsSame.items (h : c.LoadsSame p) {mem mem' : BitVec w → UInt8}
    (hmem : BytesAt mem c.buf c.text) (hmem' : BytesAt mem' p c.text) :
    (∀ item ∈ c.menuitem, SameString mem mem' item.name (item.name + intDiff p c.buf)) ∧
      ∀ v ∈ c.sysvar, SameString mem mem' v.key (v.key + intDiff p c.buf) ∧
        SameString mem mem' v.str (v.str + intDiff p c.buf) := by
  obtain ⟨hitems, hvars⟩ := h mem mem' hmem hmem'
  have hitems := List.forall₂_same.mp (List.forall₂_map_right_iff.mp hitems)
  have hvars := List.forall₂_same.mp (List.forall₂_map_right_iff.mp hvars)
  exact ⟨fun item hitem => (hitems item hitem).name,
    fun v hv => ⟨(hvars v hv).key, (hvars v hv).str⟩⟩

theorem Parsed.fits_of_loadsSame (h : Parsed base c) (hw : 32 ≤ w)
    (hlen : c.text.length ≤ scBufsize) (hne : ¬(c.menuitem = [] ∧ c.sysvar = []))
    (hload : c.LoadsSame p) : intDiff p c.buf = p - c.buf := by
  rcases not_and_or.mp hne with hmenu | hvar
  · obtain ⟨item, hitem⟩ := List.exists_mem_of_ne_nil _ hmenu
    exact fits_of_sameString hw hlen (h.items item hitem).1 fun _ _ hmem hmem' =>
      (hload.items hmem hmem').1 item hitem
  · obtain ⟨v, hv⟩ := List.exists_mem_of_ne_nil _ hvar
    exact fits_of_sameString hw hlen (h.vars v hv).1 fun _ _ hmem hmem' =>
      ((hload.items hmem hmem').2 v hv).1

theorem Parsed.last_of_loadsSame (h : Parsed base c) (hw : 32 ≤ w)
    (hlen : c.text.length ≤ scBufsize) (hfits : intDiff p c.buf = p - c.buf)
    (hload : c.LoadsSame p) : c.text.getLast? = some 0 := by
  rcases h.last with hlast | ⟨v, hv, hstr⟩
  · exact hlast
  · refine last_of_sameString hw hlen h.text hfits fun mem mem' hmem hmem' => ?_
    rw [← hstr]
    exact ((hload.items hmem hmem').2 v hv).2

end

/-- An image has the same menus and variables in another process just if it has none, or the
difference of the addresses of the buffer is an `int` and the text of the configuration ends with a
zero byte. -/
theorem loadsSame_iff (hw : 32 ≤ w) {files : Bytes → Option Bytes} {m : Malloced} {n : Nat}
    {buf buf' : BitVec w} {configfile : Bytes}
    (hlimits : (buildSysconf files m n buf configfile).WithinLimits) :
    (buildSysconf files m n buf configfile).LoadsSame buf' ↔
      (buildSysconf files m n buf configfile).menuitem = [] ∧
          (buildSysconf files m n buf configfile).sysvar = [] ∨
        FitsInt (buf' - buf) ∧
          (buildSysconf files m n buf configfile).text.getLast? = some 0 := by
  obtain ⟨img, himg⟩ : ∃ img, img = buildSysconf files m n buf configfile := ⟨_, rfl⟩
  have hparsed := parsed_buildSysconf files m n buf configfile
  rw [← himg] at hlimits hparsed ⊢
  rcases hparsed with ⟨hmenu, hvar⟩ | h
  · refine iff_of_true (fun mem mem' _ _ => ?_) (.inl ⟨hmenu, hvar⟩)
    rw [loadSysconfImage, hmenu, hvar]
    exact ⟨.nil, .nil⟩
  · rw [← h.base, ← intDiff_eq_iff hw]
    constructor
    · intro hload
      by_cases hempty : img.menuitem = [] ∧ img.sysvar = []
      · exact .inl hempty
      · have hfits := h.fits_of_loadsSame hw hlimits.text hempty hload
        exact .inr ⟨hfits, h.last_of_loadsSame hw hlimits.text hfits hload⟩
    · rintro (⟨hmenu, hvar⟩ | ⟨hfits, hlast⟩)
      · intro mem mem' _ _
        rw [loadSysconfImage, hmenu, hvar]
        exact ⟨.nil, .nil⟩
      · exact loadsSame_of_fits h hfits hlast

/-- Every file has the same text. -/
def demoFiles (text : String) (_ : Bytes) : Option Bytes := some (bytes text)

def demoMalloced : Malloced := ⟨fun _ => 170, fun _ => 0, fun _ => 0⟩

/-- A permission, a menu and a screen. -/
def demoConfig : String := "BASIC = 1\n%menu TOP\n@Talk 3, 2, BASIC, T, talk\n%\n%S_TOP\nhello\n%\n"

theorem loadsSame_demo :
    (buildSysconf (demoFiles demoConfig) demoMalloced 1 0x600000#64 []).menuitem.length = 2 ∧
      (buildSysconf (demoFiles demoConfig) demoMalloced 1 0x600000#64 []).LoadsSame 0x500010#64 := by
  refine ⟨by decide +kernel, (loadsSame_iff (by decide) ?_).mpr (.inr ⟨?_, ?_⟩)⟩
  · exact ⟨by decide +kernel, by decide +kernel, by decide +kernel⟩
  · decide +kernel
  · decide +kernel

/-- A configuration of one variable is built on the heap of one process and loaded on that of
another one. -/
theorem not_loadsSame : ¬∀ (files : Bytes → Option Bytes) (m : Malloced) (n : Nat)
    (buf buf' : BitVec 64) (configfile : Bytes),
      (buildSysconf files m n buf configfile).WithinLimits →
        (buildSysconf files m n buf configfile).LoadsSame buf' := by
  intro hclaim
  have hload := hclaim (demoFiles "A = 1\n") demoMalloced 1 0x555555600000 0x560000400000 []
    ⟨by decide +kernel, by decide +kernel, by decide +kernel⟩
  have hvar : (buildSysconf (demoFiles "A = 1\n") demoMalloced 1 0x555555600000#64 []).sysvar.length =
      1 := by decide +kernel
  have hne : ¬((buildSysconf (demoFiles "A = 1\n") demoMalloced 1 0x555555600000#64 []).menuitem = [] ∧
      (buildSysconf (demoFiles "A = 1\n") demoMalloced 1 0x555555600000#64 []).sysvar = []) := by
    rintro ⟨-, hnil⟩
    rw [hnil] at hvar
    cases hvar
  have hparsed := (parsed_buildSysconf (demoFiles "A = 1\n") demoMalloced 1 0x555555600000#64
    []).resolve_left hne
  have hfits := hparsed.fits_of_loadsSame (by decide) (by decide +kernel) hne hload
  rw [hparsed.base] at hfits
  exact absurd hfits (by decide +kernel)

end Sysconf

end ArgoBbs

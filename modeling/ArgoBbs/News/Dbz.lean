import ArgoBbs.Lib.CString
import ArgoBbs.Lib.Probing

/-! # The database of the news gateway

`dbz.c` stores offsets into a text file, its base, at which their keys are found (`dbz.c`). The
`.pag` file is a hash table, or rather one table behind the other: after `MAXRUN` places of a table
a search goes on in the next one. A slot may have a tag, some more bits of the hash, so that most
slots of other keys are passed over without a look at the base. -/

namespace ArgoBbs.Dbz

def DBZMAXKEY : Nat := 255
def MAXRUN : Nat := 100
def VACANT : BitVec 64 := 0

def BIAS (o : BitVec 64) : BitVec 64 := o + 1
def UNBIAS (o : BitVec 64) : BitVec 64 := o - 1

/-- The configuration in the `.dir` file, but for the record of the usages. -/
structure Conf where
  olddbz : Bool
  tsize : Nat
  casemap : UInt8
  fieldsep : UInt8
  tagenb : BitVec 64
  tagmask : BitVec 64
  tagshift : Nat
  deriving DecidableEq

namespace Conf
variable (conf : Conf)

def tagbits : BitVec 64 := conf.tagmask <<< conf.tagshift
def taghere : BitVec 64 := conf.tagenb <<< conf.tagshift
def tagboth : BitVec 64 := conf.tagbits ||| conf.taghere

def HASTAG (o : BitVec 64) : Bool := o &&& conf.taghere ≠ 0
def TAG (o : BitVec 64) : BitVec 64 := o &&& conf.tagbits
def NOTAG (o : BitVec 64) : BitVec 64 := o &&& ~~~conf.tagboth
def CANTAG (o : BitVec 64) : Bool := o &&& conf.tagboth = 0
def MKTAG (v : BitVec 64) : BitVec 64 := v <<< conf.tagshift &&& conf.tagbits

def okayvalue (value : BitVec 64) : Bool := !conf.HASTAG value

end Conf

/-! ## Sizes of tables -/

def quick : List Nat := [2, 3, 5, 7, 11, 13, 17, 19, 23, 29, 31, 37]

/-- The approximation of the root in `isprime`. -/
def stopLoop (x : Nat) : Nat → Nat
  | stop => if _h : x / stop < stop then stopLoop x (stop / 2) else stop
termination_by stop => stop
decreasing_by exact Nat.div_lt_self (Nat.lt_of_le_of_lt (Nat.zero_le _) _h) (by decide)

/-- The odd numbers up to a bound. -/
def divides (x stop div : Nat) : Bool :=
  if div < stop then x % div = 0 || divides x stop (div + 2) else false
termination_by stop - div

def isprime (x : Nat) : Bool :=
  !quick.any (x % · = 0) && !divides x (2 * stopLoop x x) 37

/-- `dbzsize` without a bound on the search, if it is interrupted after a number of turns. -/
def sizeLoop : Nat → Nat → Option Nat
  | 0, _ => none
  | fuel + 1, n => if isprime n then some n else sizeLoop fuel (n + 2)

def DEFSIZE : Nat := 120011

def dbzsize (fuel : Nat) (contents : Int) : Option Nat :=
  if contents ≤ 0 then some DEFSIZE
  else
    let n := contents.toNat / 2 * 3
    sizeLoop fuel (if n % 2 = 0 then n + 1 else n)

/-! ## Keys -/

def POLY : Nat := 0x48000000

/-- An entry of `CrcTable`. -/
def crcEntry (i : Nat) : Nat :=
  (List.range 7).foldl (fun sum j => if i.testBit j then sum ^^^ POLY >>> j else sum) 0

def hash (name : Bytes) : Nat :=
  name.foldl (fun sum c => sum >>> 7 ^^^ crcEntry ((sum ^^^ c.toNat) &&& 0x7f)) 0

/-- Where a key begins to be read without regard to case. -/
def cipoint (casemap : UInt8) (s : Bytes) : Option Nat :=
  if casemap = 67 then
    match strchr s 64 with
    | none => none
    | some p => if p = 11 ∧ strncasecmpEq s.tail (bytes "postmaster") 10 then some 0 else some p
  else if casemap = 61 then some 0
  else none

def mapcase (casemap : UInt8) (s : Bytes) : Bytes :=
  match cipoint casemap s with
  | none => s
  | some c => s.take c ++ (s.drop c).map tolower

/-! ## Searches -/

/-- A search, or where it has come to; input and output errors are left out. -/
structure Searcher where
  place : Nat
  tabno : Nat
  run : Nat
  hash : Nat
  tag : BitVec 64
  seen : Bool
  deriving DecidableEq

/-- The `.pag` file in words, with the copy of the first table in core. -/
structure Db where
  pag : List (BitVec 64)
  corepag : Option (List (BitVec 64))
  writethrough : Bool
  written : Bool
  prevp : Option Searcher
  deriving DecidableEq

/-- What is read at a place; what lies behind the file is vacant. -/
def Db.slot (conf : Conf) (d : Db) (place : Nat) : BitVec 64 :=
  match d.corepag with
  | some core => if place < conf.tsize then core.getD place VACANT else d.pag.getD place VACANT
  | none => d.pag.getD place VACANT

namespace Searcher

/-- A search from the beginning. -/
def fresh (conf : Conf) (h : Nat) : Searcher where
  place := h % conf.tsize
  tabno := 0
  run := if conf.olddbz then conf.tsize else MAXRUN
  hash := h
  tag := conf.MKTAG (BitVec.ofNat 64 (h / conf.tsize))
  seen := false

def start (conf : Conf) (key : Bytes) (osp : Option Searcher) : Searcher :=
  match osp with
  | some sp =>
    if sp.hash = Dbz.hash key then { sp with seen := false } else fresh conf (Dbz.hash key)
  | none => fresh conf (Dbz.hash key)

/-- The location to be examined. -/
def next (conf : Conf) (sp : Searcher) : Searcher :=
  if sp.seen then
    let tabno := if sp.run - 1 = 0 then sp.tabno + 1 else sp.tabno
    let run := if sp.run - 1 = 0 then MAXRUN else sp.run - 1
    { sp with tabno, run, place := (sp.place + 1) % conf.tsize + tabno * conf.tsize }
  else { sp with seen := true }

/-- The offset that is tried for the word in a slot, if its tag allows it. -/
def candidate (conf : Conf) (tag word : BitVec 64) : Option (BitVec 64) :=
  let value := UNBIAS word
  if !conf.HASTAG value then some value
  else if conf.TAG value = tag then some (conf.NOTAG value)
  else none

/-- `search`: the next offset that may be the one, or none at a vacant place. -/
def search (conf : Conf) (slot : Nat → BitVec 64) : Nat → Searcher → Option (BitVec 64) × Searcher
  | 0, sp => (none, sp)
  | fuel + 1, sp =>
    let sp := sp.next conf
    if slot sp.place = VACANT then (none, sp)
    else
      match candidate conf sp.tag (slot sp.place) with
      | some value => (some value, sp)
      | none => search conf slot fuel sp

end Searcher

/-- A place that is vacant is reached by so many turns. -/
def Db.fuel (conf : Conf) (d : Db) : Nat := conf.tsize + MAXRUN * (d.pag.length + 3)

/-- What `fetch` makes of the text in the base: nothing can be read, it is another key, or the one.
A key that ends with a zero is compared without it, and then the field has to end in the base. -/
def compare (conf : Conf) (base : Bytes) (key : Bytes) (key_ptr : BitVec 64) : Option Bool :=
  let buffer := (base.drop key_ptr.toNat).take key.length
  if buffer.length ≠ key.length then none
  else
    let buffer := mapcase conf.casemap buffer
    if key.getLast? = some 0 then
      some (key.dropLast = buffer.dropLast ∧
        (buffer.getLast? = some conf.fieldsep ∨ buffer.getLast? = some 0))
    else some (key = buffer)

/-- The loop of `fetch`, and where the next search goes on. -/
def fetchLoop (conf : Conf) (base : Bytes) (d : Db) (key : Bytes) :
    Nat → Searcher → Option (BitVec 64) × Option Searcher
  | 0, _ => (none, none)
  | fuel + 1, sp =>
    match sp.search conf (d.slot conf) (d.fuel conf) with
    | (none, sp) => (none, some sp)
    | (some key_ptr, sp) =>
      match compare conf base key key_ptr with
      | none => (none, none)
      | some true => (some key_ptr, none)
      | some false => fetchLoop conf base d key fuel sp

def dbzfetch (conf : Conf) (base : Bytes) (d : Db) (key : Bytes) : Db × Option (BitVec 64) :=
  let key := mapcase conf.casemap (key.take DBZMAXKEY)
  let (found, prevp) := fetchLoop conf base d key (d.fuel conf) (.start conf key none)
  ({ d with prevp }, found)

/-- `store` goes to the end of the places that are taken. -/
def storeLoop (conf : Conf) (slot : Nat → BitVec 64) (fuel : Nat) : Nat → Searcher → Searcher
  | 0, sp => sp
  | turns + 1, sp =>
    match sp.search conf slot fuel with
    | (none, sp) => sp
    | (some _, sp) => storeLoop conf slot fuel turns sp

/-- The slot for an offset. -/
def slotValue (conf : Conf) (tag value : BitVec 64) : BitVec 64 :=
  let v := value ||| (tag ||| conf.taghere)
  BIAS (if conf.CANTAG value && !conf.olddbz && v ≠ UNBIAS VACANT then v else value)

/-- A word in a file, which is as long as it has to be. -/
def putWord (pag : List (BitVec 64)) (place : Nat) (value : BitVec 64) : List (BitVec 64) :=
  (pag ++ List.replicate (place + 1 - pag.length) VACANT).set place value

def Db.set (conf : Conf) (d : Db) (place : Nat) (value : BitVec 64) : Db :=
  match d.corepag with
  | some core =>
    if place < conf.tsize then
      { d with
        corepag := some (core.set place value)
        pag := if d.writethrough then putWord d.pag place value else d.pag }
    else { d with pag := putWord d.pag place value }
  | none => { d with pag := putWord d.pag place value }

def dbzstore (conf : Conf) (d : Db) (key : Bytes) (value : BitVec 64) : Option Db :=
  if DBZMAXKEY ≤ key.length then none
  else if !conf.okayvalue value then none
  else
    let key := mapcase conf.casemap key
    let sp := storeLoop conf (d.slot conf) (d.fuel conf) (d.fuel conf) (.start conf key d.prevp)
    some { d.set conf sp.place (slotValue conf sp.tag value) with prevp := none, written := true }

/-! ## Files -/

/-- The first table is written over the beginning of the file. -/
def dbzsync (d : Db) : Db :=
  match d.corepag with
  | some core =>
    if d.written && !d.writethrough then { d with pag := core ++ d.pag.drop core.length } else d
  | none => d

/-- `dbminit` on a file that `dbmclose` has left. -/
def dbminit (conf : Conf) (incore writethrough : Bool) (pag : List (BitVec 64)) : Db where
  pag := pag
  corepag :=
    if incore then
      some (pag.take conf.tsize ++ List.replicate (conf.tsize - pag.length) VACANT)
    else none
  writethrough := writethrough
  written := false
  prevp := none

/-- The database is closed and opened again. -/
def reopen (conf : Conf) (incore : Bool) (d : Db) : Db :=
  dbminit conf incore d.writethrough (dbzsync d).pag

section
open Searcher (candidate)

variable {conf : Conf} {d : Db} {sp : Searcher} {h n m k place fuel turns : Nat}

/-! ## The places of a key -/

/-- The search for a hash at the places that it comes to one after the other. -/
def Searcher.nth (conf : Conf) (h : Nat) : Nat → Searcher
  | 0 => { fresh conf h with seen := true }
  | n + 1 => (nth conf h n).next conf

def probe (conf : Conf) (h n : Nat) : Nat := (Searcher.nth conf h n).place

@[simp] theorem nth_seen : (Searcher.nth conf h n).seen = true := by
  induction n with
  | zero => rfl
  | succ n ih => rw [Searcher.nth, Searcher.next, if_pos ih, ih]

@[simp] theorem nth_hash : (Searcher.nth conf h n).hash = h := by
  induction n with
  | zero => rfl
  | succ n ih => rw [Searcher.nth, Searcher.next, if_pos nth_seen, ih]

@[simp] theorem nth_tag :
    (Searcher.nth conf h n).tag = conf.MKTAG (BitVec.ofNat 64 (h / conf.tsize)) := by
  induction n with
  | zero => rfl
  | succ n ih => rw [Searcher.nth, Searcher.next, if_pos nth_seen, ih]

/-- A search that begins again looks first where it was. -/
theorem again_next : ({ Searcher.nth conf h n with seen := false } : Searcher).next conf =
    Searcher.nth conf h n := by
  rw [Searcher.next, if_neg (by simp)]
  exact congrArg (fun b => { Searcher.nth conf h n with seen := b }) nth_seen.symm

/-- A search leaves a table after the places it may take there, and never comes back. -/
theorem nth_run (hsize : 0 < conf.tsize) :
    conf.tsize + MAXRUN * (Searcher.nth conf h n).tabno + MAXRUN ≥
        n + (Searcher.nth conf h n).run ∧
      0 < (Searcher.nth conf h n).run ∧
      (Searcher.nth conf h n).tabno * conf.tsize ≤ (Searcher.nth conf h n).place := by
  induction n with
  | zero =>
    have hzero : 0 * conf.tsize ≤ (Searcher.nth conf h 0).place := by
      rw [Nat.zero_mul]
      exact Nat.zero_le _
    refine ⟨?_, ?_, hzero⟩
    all_goals
      simp only [Searcher.nth, Searcher.fresh, MAXRUN]
      split <;> omega
  | succ n ih =>
    obtain ⟨hrun, hpos, -⟩ := ih
    rw [Searcher.nth, Searcher.next, if_pos nth_seen]
    by_cases hlast : (Searcher.nth conf h n).run - 1 = 0
    · simp only [hlast, if_true, Nat.mul_add]
      exact ⟨by omega, by decide, Nat.le_add_left ..⟩
    · simp only [hlast, if_false]
      exact ⟨by omega, by omega, Nat.le_add_left ..⟩

theorem slot_behind (hsize : conf.tsize ≤ place) (hlen : d.pag.length ≤ place) :
    d.slot conf place = VACANT := by
  have hpag : d.pag.getD place VACANT = VACANT := by
    rw [List.getD_eq_getElem?_getD, List.getElem?_eq_none hlen, Option.getD_none]
  rw [Db.slot]
  split
  · rw [if_neg (Nat.not_lt.mpr hsize), hpag]
  · exact hpag

/-- A search comes to a vacant place. -/
theorem exists_slot_vacant (hsize : 0 < conf.tsize) (d : Db) (h : Nat) :
    ∃ m, m < d.fuel conf ∧ d.slot conf (probe conf h m) = VACANT := by
  refine ⟨conf.tsize + MAXRUN * (d.pag.length + 2), ?_, ?_⟩
  · rw [Db.fuel]
    simp only [MAXRUN]
    omega
  · obtain ⟨hrun, hpos, hplace⟩ := @nth_run conf h (conf.tsize + MAXRUN * (d.pag.length + 2)) hsize
    have htab : d.pag.length + 1 ≤
        (Searcher.nth conf h (conf.tsize + MAXRUN * (d.pag.length + 2))).tabno := by
      simp only [MAXRUN] at hrun hpos ⊢
      omega
    have hfar := Nat.le_trans (Nat.mul_le_mul_right conf.tsize htab) hplace
    rw [Nat.add_mul, Nat.one_mul] at hfar
    exact slot_behind (Nat.le_trans (Nat.le_add_left ..) hfar)
      (Nat.le_trans (Nat.le_mul_of_pos_right _ hsize) (Nat.le_trans (Nat.le_add_right ..) hfar))

/-! ## What the loops find -/

def hashTag (conf : Conf) (h : Nat) : BitVec 64 := conf.MKTAG (BitVec.ofNat 64 (h / conf.tsize))

theorem search_succ {slot : Nat → BitVec 64} (hsp : sp.next conf = .nth conf h n) :
    sp.search conf slot (fuel + 1) =
      if slot (probe conf h n) = VACANT then (none, .nth conf h n)
      else
        match candidate conf (hashTag conf h) (slot (probe conf h n)) with
        | some value => (some value, .nth conf h n)
        | none => (Searcher.nth conf h n).search conf slot fuel := by
  rw [Searcher.search, hsp, nth_tag]
  rfl

theorem search_spec (fuel : Nat) {slot : Nat → BitVec 64}
    (hvacant : slot (probe conf h m) = VACANT) (hle : n ≤ m) (hfuel : m - n < fuel)
    (hsp : sp.next conf = .nth conf h n) :
    ∃ k, n ≤ k ∧ k ≤ m ∧ (sp.search conf slot fuel).2 = .nth conf h k ∧
      (∀ i, n ≤ i → i < k → slot (probe conf h i) ≠ VACANT ∧
        candidate conf (hashTag conf h) (slot (probe conf h i)) = none) ∧
      (slot (probe conf h k) = VACANT ∧ (sp.search conf slot fuel).1 = none ∨
        slot (probe conf h k) ≠ VACANT ∧ k < m ∧ ∃ v, (sp.search conf slot fuel).1 = some v ∧
          candidate conf (hashTag conf h) (slot (probe conf h k)) = some v) := by
  induction fuel generalizing n sp with
  | zero => exact absurd hfuel (Nat.not_lt_zero _)
  | succ fuel ih =>
    have hhere : ∀ i, n ≤ i → i < n → slot (probe conf h i) ≠ VACANT ∧
        candidate conf (hashTag conf h) (slot (probe conf h i)) = none :=
      fun i hi hi' => absurd hi (Nat.not_le.mpr hi')
    rw [search_succ hsp]
    split
    case isTrue hslot => exact ⟨n, Nat.le_refl n, hle, rfl, hhere, .inl ⟨hslot, rfl⟩⟩
    case isFalse hslot =>
      have hlt : n < m := Nat.lt_of_le_of_ne hle fun heq => hslot (heq ▸ hvacant)
      cases hword : candidate conf (hashTag conf h) (slot (probe conf h n)) with
      | some v =>
        exact ⟨n, Nat.le_refl n, hle, rfl, hhere, .inr ⟨hslot, hlt, v, rfl, hword⟩⟩
      | none =>
        obtain ⟨k, hk, hkm, hsnd, hpassed, hfst⟩ := ih (n := n + 1) hlt (by omega) rfl
        refine ⟨k, Nat.le_of_succ_le hk, hkm, hsnd, fun i hi hi' => ?_, hfst⟩
        obtain rfl | hi := Nat.eq_or_lt_of_le hi
        · exact ⟨hslot, hword⟩
        · exact hpassed i hi hi'

/-- The word at a place is passed over in a search for a key. -/
def Passes (conf : Conf) (base key : Bytes) (h : Nat) (word : BitVec 64) : Prop :=
  word ≠ VACANT ∧ ∀ v ∈ candidate conf (hashTag conf h) word, compare conf base key v = some false

theorem fetchLoop_spec (base key : Bytes) (hvacant : d.slot conf (probe conf h m) = VACANT)
    (hle : n ≤ m) (hturns : m - n < turns) (hfuel : m < d.fuel conf)
    (hsp : sp.next conf = .nth conf h n) :
    ∃ k, n ≤ k ∧
      (∀ i, n ≤ i → i < k → Passes conf base key h (d.slot conf (probe conf h i))) ∧
      (d.slot conf (probe conf h k) = VACANT ∧
          fetchLoop conf base d key turns sp = (none, some (.nth conf h k)) ∨
        ∃ v ∈ candidate conf (hashTag conf h) (d.slot conf (probe conf h k)),
          d.slot conf (probe conf h k) ≠ VACANT ∧
          (compare conf base key v = none ∧ fetchLoop conf base d key turns sp = (none, none) ∨
            compare conf base key v = some true ∧
              fetchLoop conf base d key turns sp = (some v, none))) := by
  induction turns generalizing n sp with
  | zero => exact absurd hturns (Nat.not_lt_zero _)
  | succ turns ih =>
    obtain ⟨k, hk, hkm, hsnd, hpassed, hfst⟩ :=
      search_spec (d.fuel conf) hvacant hle (by omega) hsp
    have hpasses : ∀ i, n ≤ i → i < k → Passes conf base key h (d.slot conf (probe conf h i)) :=
      fun i hi hi' => ⟨(hpassed i hi hi').1, fun v hv => by
        rw [(hpassed i hi hi').2] at hv
        cases hv⟩
    rw [fetchLoop]
    generalize sp.search conf (d.slot conf) (d.fuel conf) = found at hsnd hfst
    obtain ⟨found, sp'⟩ := found
    cases hsnd
    obtain ⟨hend, rfl⟩ | ⟨hslot, hlt, v, rfl, hv⟩ := hfst
    · exact ⟨k, hk, hpasses, .inl ⟨hend, rfl⟩⟩
    · simp only
      split
      · rename_i hnone
        exact ⟨k, hk, hpasses, .inr ⟨v, hv, hslot, .inl ⟨hnone, rfl⟩⟩⟩
      · rename_i htrue
        exact ⟨k, hk, hpasses, .inr ⟨v, hv, hslot, .inr ⟨htrue, rfl⟩⟩⟩
      · rename_i hfalse
        obtain ⟨k', hk', hpasses', hend⟩ := ih (n := k + 1) hlt (by omega) rfl
        refine ⟨k', by omega, fun i hi hi' => ?_, hend⟩
        obtain hi'' | rfl | hi'' := Nat.lt_trichotomy i k
        · exact hpasses i hi hi''
        · refine ⟨hslot, fun v' hv' => ?_⟩
          cases hv.symm.trans hv'
          exact hfalse
        · exact hpasses' i hi'' hi'

/-- A new entry goes to the first place that is vacant. -/
theorem storeLoop_spec {slot : Nat → BitVec 64} (hvacant : slot (probe conf h m) = VACANT)
    (hle : n ≤ m) (hturns : m - n < turns) (hfuel : m < fuel)
    (hsp : sp.next conf = .nth conf h n) :
    ∃ k, storeLoop conf slot fuel turns sp = .nth conf h k ∧
      slot (probe conf h k) = VACANT ∧ ∀ i, n ≤ i → i < k → slot (probe conf h i) ≠ VACANT := by
  induction turns generalizing n sp with
  | zero => exact absurd hturns (Nat.not_lt_zero _)
  | succ turns ih =>
    obtain ⟨k, hk, hkm, hsnd, hpassed, hfst⟩ := search_spec fuel hvacant hle (by omega) hsp
    rw [storeLoop]
    generalize sp.search conf slot fuel = found at hsnd hfst
    obtain ⟨found, sp'⟩ := found
    cases hsnd
    obtain ⟨hend, rfl⟩ | ⟨hslot, hlt, v, rfl, hv⟩ := hfst
    · exact ⟨k, rfl, hend, fun i hi hi' => (hpassed i hi hi').1⟩
    · obtain ⟨k', hstore, hend, hbefore⟩ := ih (n := k + 1) hlt (by omega) rfl
      refine ⟨k', hstore, hend, fun i hi hi' => ?_⟩
      obtain hi'' | rfl | hi'' := Nat.lt_trichotomy i k
      · exact (hpassed i hi hi'').1
      · exact hslot
      · exact hbefore i hi'' hi'

/-! ## The table in the files -/

theorem getD_putWord (pag : List (BitVec 64)) (place : Nat) (value : BitVec 64) (p : Nat) :
    (putWord pag place value).getD p VACANT =
      if p = place then value else pag.getD p VACANT := by
  have hlen : place < (pag ++ List.replicate (place + 1 - pag.length) VACANT).length := by
    rw [List.length_append, List.length_replicate]
    omega
  simp only [putWord, List.getD_eq_getElem?_getD, List.getElem?_set, if_pos hlen]
  split
  case isTrue h => rw [if_pos h.symm, Option.getD_some]
  case isFalse h =>
    rw [if_neg (Ne.symm h), List.getElem?_append]
    split
    case isTrue => rfl
    case isFalse hp =>
      rw [List.getElem?_eq_none (Nat.le_of_not_lt hp), List.getElem?_replicate]
      split <;> rfl

theorem getD_set {core : List (BitVec 64)} (hplace : place < core.length) (value : BitVec 64)
    (p : Nat) :
    (core.set place value).getD p VACANT = if p = place then value else core.getD p VACANT := by
  simp only [List.getD_eq_getElem?_getD, List.getElem?_set, if_pos hplace]
  split
  case isTrue h => rw [if_pos h.symm, Option.getD_some]
  case isFalse h => rw [if_neg (Ne.symm h)]

/-- The copy of the first table has its size, and as long as it need not be written it is the one in
the file. -/
structure Db.InCore (conf : Conf) (d : Db) : Prop where
  length : ∀ core ∈ d.corepag, core.length = conf.tsize
  same : ∀ core ∈ d.corepag, d.writethrough = true ∨ d.written = false →
    ∀ p < conf.tsize, core.getD p VACANT = d.pag.getD p VACANT

theorem slot_set (hcore : d.InCore conf) (value : BitVec 64) (p : Nat) :
    (d.set conf place value).slot conf p = if p = place then value else d.slot conf p := by
  cases hc : d.corepag with
  | none => simp only [Db.set, Db.slot, hc, getD_putWord]
  | some core =>
    have hlen := hcore.length core hc
    simp only [Db.set, hc]
    split
    case isTrue hplace =>
      simp only [Db.slot, hc, getD_set (hlen ▸ hplace)]
      split
      case isTrue => rfl
      case isFalse hp =>
        have hne : p ≠ place := fun heq => hp (heq ▸ hplace)
        rw [if_neg hne]
        split
        · rw [getD_putWord, if_neg hne]
        · rfl
    case isFalse hplace =>
      simp only [Db.slot, hc, getD_putWord]
      split
      case isTrue hp => rw [if_neg fun heq : p = place => hplace (heq ▸ hp)]
      case isFalse => rfl

theorem set_inCore (hcore : d.InCore conf) (value : BitVec 64) :
    ({ d.set conf place value with prevp := none, written := true } : Db).InCore conf := by
  cases hc : d.corepag with
  | none => exact ⟨by simp [Db.set, hc], by simp [Db.set, hc]⟩
  | some core =>
    have hlen := hcore.length core hc
    simp only [Db.set, hc]
    split
    case isTrue hplace =>
      refine ⟨?_, ?_⟩
      · rintro _ ⟨⟩
        rw [List.length_set, hlen]
      · rintro _ ⟨⟩ (hthrough | hwritten) p hp
        · simp only at hthrough
          rw [getD_set (hlen ▸ hplace), hthrough, if_pos rfl, getD_putWord]
          split
          · rfl
          · exact hcore.same core hc (.inl hthrough) p hp
        · cases hwritten
    case isFalse hplace =>
      refine ⟨fun _ h => hcore.length _ (hc.trans (Option.mem_def.mp h)), ?_⟩
      rintro _ ⟨⟩ (hthrough | hwritten) p hp
      · have hne : p ≠ place := fun heq => hplace (heq ▸ hp)
        simp only at hthrough
        rw [getD_putWord, if_neg hne]
        exact hcore.same core hc (.inl hthrough) p hp
      · cases hwritten

/-- What is in the file after a sync is what was read before. -/
theorem getD_dbzsync (hcore : d.InCore conf) (p : Nat) :
    (dbzsync d).pag.getD p VACANT = d.slot conf p := by
  cases hc : d.corepag with
  | none => simp only [dbzsync, Db.slot, hc]
  | some core =>
    have hlen := hcore.length core hc
    have hsame := hcore.same core hc
    simp only [dbzsync, Db.slot, hc]
    split
    case isTrue =>
      simp only [List.getD_eq_getElem?_getD, List.getElem?_append, hlen]
      split
      case isTrue => rfl
      case isFalse hp => rw [List.getElem?_drop, Nat.add_sub_cancel' (Nat.le_of_not_lt hp)]
    case isFalse hclean =>
      split
      case isTrue hp =>
        refine (hsame ?_ p hp).symm
        cases hw : d.written
        · exact .inr rfl
        · exact .inl (by simpa [hw] using hclean)
      case isFalse => rfl

theorem dbminit_inCore (conf : Conf) (incore writethrough : Bool) (pag : List (BitVec 64)) :
    (dbminit conf incore writethrough pag).InCore conf ∧
      ∀ p, (dbminit conf incore writethrough pag).slot conf p = pag.getD p VACANT := by
  cases incore with
  | false => exact ⟨⟨nofun, nofun⟩, fun _ => rfl⟩
  | true =>
    have hcopy : ∀ p < conf.tsize,
        (pag.take conf.tsize ++ List.replicate (conf.tsize - pag.length) VACANT).getD p VACANT =
          pag.getD p VACANT := fun p hp => by
      simp only [List.getD_eq_getElem?_getD, List.getElem?_append, List.length_take]
      split
      case isTrue => rw [List.getElem?_take_of_lt hp]
      case isFalse hlt =>
        have hlen : pag.length ≤ p := by omega
        rw [List.getElem?_eq_none hlen, List.getElem?_replicate]
        split <;> rfl
    refine ⟨⟨?_, ?_⟩, fun p => ?_⟩
    · rintro _ ⟨⟩
      rw [List.length_append, List.length_take, List.length_replicate]
      omega
    · rintro _ ⟨⟩ - p hp
      exact hcopy p hp
    · simp only [dbminit, Db.slot, if_true]
      split
      case isTrue hp => exact hcopy p hp
      case isFalse => rfl

/-! ## Words and keys -/

variable {value : BitVec 64}

theorem UNBIAS_BIAS (o : BitVec 64) : UNBIAS (BIAS o) = o := BitVec.add_sub_cancel ..

/-- The bit that says that there is a tag is none of its bits, and without it there are no tags. -/
structure Conf.Ok (conf : Conf) : Prop where
  size : 0 < conf.tsize
  disjoint : conf.tagbits &&& conf.taghere = 0
  enabled : conf.taghere = 0 → conf.tagbits = 0

/-- What the code says of single bits. -/
theorem and_not_tagboth {v t tb th : BitVec 64} (hcan : v &&& (tb ||| th) = 0)
    (htag : t &&& tb = t) : (v ||| (t ||| th)) &&& ~~~(tb ||| th) = v := by
  ext i hi
  have h1 := congrArg (fun x : BitVec 64 => x[i]) hcan
  have h2 := congrArg (fun x : BitVec 64 => x[i]) htag
  simp at h1 h2 ⊢
  grind

theorem and_tagbits {v t tb th : BitVec 64} (hcan : v &&& (tb ||| th) = 0) (htag : t &&& tb = t)
    (hdisjoint : tb &&& th = 0) : (v ||| (t ||| th)) &&& tb = t := by
  ext i hi
  have h1 := congrArg (fun x : BitVec 64 => x[i]) hcan
  have h2 := congrArg (fun x : BitVec 64 => x[i]) htag
  have h3 := congrArg (fun x : BitVec 64 => x[i]) hdisjoint
  simp at h1 h2 h3 ⊢
  grind

theorem and_taghere {v t th : BitVec 64} : (v ||| (t ||| th)) &&& th = th := by
  ext i hi
  simp
  grind

theorem MKTAG_and (conf : Conf) (v : BitVec 64) :
    conf.MKTAG v &&& conf.tagbits = conf.MKTAG v := by
  rw [Conf.MKTAG, BitVec.and_assoc, BitVec.and_self]

/-- A slot gives back the offset that was put into it, unless the search is for another tag. -/
theorem candidate_slotValue (hconf : conf.Ok) (hok : conf.okayvalue value = true)
    (t u : BitVec 64) :
    candidate conf (conf.MKTAG t) (slotValue conf (conf.MKTAG u) value) = some value ∨
      candidate conf (conf.MKTAG t) (slotValue conf (conf.MKTAG u) value) = none ∧
        conf.MKTAG t ≠ conf.MKTAG u := by
  rw [slotValue, candidate, UNBIAS_BIAS]
  split
  case isFalse => exact .inl (if_pos hok)
  case isTrue htagged =>
    have hcan : value &&& (conf.tagbits ||| conf.taghere) = 0 := by
      simp only [Bool.and_eq_true] at htagged
      exact of_decide_eq_true htagged.1.1
    have hhas : conf.HASTAG (value ||| (conf.MKTAG u ||| conf.taghere)) =
        decide (conf.taghere ≠ 0) := by
      rw [Conf.HASTAG, and_taghere]
    have htag : conf.TAG (value ||| (conf.MKTAG u ||| conf.taghere)) = conf.MKTAG u :=
      and_tagbits hcan (MKTAG_and conf u) hconf.disjoint
    have hno : conf.NOTAG (value ||| (conf.MKTAG u ||| conf.taghere)) = value :=
      and_not_tagboth hcan (MKTAG_and conf u)
    simp only [hhas, htag, hno]
    by_cases hhere : conf.taghere = 0
    · have hzero : conf.MKTAG u = 0 := by
        rw [Conf.MKTAG, hconf.enabled hhere]
        exact BitVec.and_zero
      left
      rw [hhere, hzero]
      simp
    · rw [decide_eq_true hhere]
      by_cases heq : conf.MKTAG u = conf.MKTAG t
      · exact .inl (if_pos heq)
      · exact .inr ⟨if_neg heq, Ne.symm heq⟩

theorem slotValue_ne_vacant {tag value : BitVec 64} (hvalue : value ≠ UNBIAS VACANT) :
    slotValue conf tag value ≠ VACANT := by
  have hne : ∀ v, v ≠ UNBIAS VACANT → BIAS v ≠ VACANT := fun v hv hzero =>
    hv (by rw [← hzero, UNBIAS_BIAS])
  rw [slotValue]
  split
  case isTrue h =>
    refine hne _ ?_
    simp only [Bool.and_eq_true, decide_eq_true_eq] at h
    exact h.2
  case isFalse => exact hne _ hvalue

theorem mapcase_cases (casemap : UInt8) (s : Bytes) :
    ∃ c, mapcase casemap s = s.take c ++ (s.drop c).map tolower := by
  rw [mapcase]
  split
  · exact ⟨s.length, by rw [List.take_length, List.drop_length, List.map_nil, List.append_nil]⟩
  · exact ⟨_, rfl⟩

@[simp] theorem length_mapcase (casemap : UInt8) (s : Bytes) :
    (mapcase casemap s).length = s.length := by
  obtain ⟨c, hc⟩ := mapcase_cases casemap s
  rw [hc, List.length_append, List.length_map, ← List.length_append, List.take_append_drop]

theorem tolower_eq_gt_iff (c : UInt8) : tolower c = 62 ↔ c = 62 :=
  (by decide +kernel : ∀ n : Fin 256, tolower (.ofFin n) = 62 ↔ UInt8.ofFin n = 62) c.toFin

/-- A closing bracket is no letter. -/
theorem mapcase_gt_iff (casemap : UInt8) (s : Bytes) (i : Nat) :
    (mapcase casemap s)[i]? = some 62 ↔ s[i]? = some 62 := by
  obtain ⟨c, hc⟩ := mapcase_cases casemap s
  rw [hc, List.getElem?_append, List.length_take]
  split
  case isTrue h => rw [List.getElem?_take_of_lt (by omega)]
  case isFalse h =>
    rw [List.getElem?_map, List.getElem?_drop]
    by_cases hlen : c ≤ s.length
    · rw [show c + (i - min c s.length) = i by omega]
      cases s[i]? with
      | none => exact iff_of_false nofun nofun
      | some d => simp [tolower_eq_gt_iff]
    · rw [List.getElem?_eq_none (by omega), List.getElem?_eq_none (l := s) (by omega)]
      exact iff_of_false nofun nofun

/-- A bracket closes a key, at its end and nowhere else, so that no key is the beginning of another
one. -/
def Closed (key : Bytes) : Prop := key ≠ [] ∧ ∀ i, key[i]? = some 62 ↔ i + 1 = key.length

theorem closed_append {s : Bytes} (hs : 62 ∉ s) : Closed (s ++ [62]) := by
  refine ⟨List.append_ne_nil_of_right_ne_nil s nofun, fun i => ?_⟩
  rw [List.length_append, List.length_singleton, List.getElem?_append]
  split
  case isTrue hlt =>
    refine iff_of_false (fun h => hs (List.mem_of_getElem? h)) ?_
    exact fun h => Nat.ne_of_lt hlt (Nat.succ.inj h)
  case isFalse hge =>
    rw [List.getElem?_singleton]
    split
    case isTrue => exact iff_of_true rfl (by omega)
    case isFalse => exact iff_of_false nofun (by omega)

/-- The text behind an offset is the key just if the one that is there is, as far as there is enough
of it. -/
theorem compare_closed {base key key' rest : Bytes} {v : BitVec 64} (hkey : Closed key)
    (hkey' : Closed key') (hbase : base.drop v.toNat = key' ++ rest) :
    compare conf base (mapcase conf.casemap key) v =
      if key.length ≤ (key' ++ rest).length then
        some (decide (mapcase conf.casemap key = mapcase conf.casemap key'))
      else none := by
  have hlast : (mapcase conf.casemap key).getLast? ≠ some 0 := by
    have hpos := List.length_pos_iff.mpr hkey.1
    rw [List.getLast?_eq_getElem?, length_mapcase]
    have h62 := (mapcase_gt_iff conf.casemap key (key.length - 1)).mpr
      ((hkey.2 _).mpr (by omega))
    rw [h62]
    decide
  rw [compare, hbase, length_mapcase, List.length_take, if_neg hlast]
  by_cases hlen : key.length ≤ (key' ++ rest).length
  · rw [if_pos hlen, if_neg (by omega)]
    refine congrArg some (decide_eq_decide.mpr ⟨fun heq => ?_, fun heq => ?_⟩)
    · have hget : ∀ i, i < key.length → ((key' ++ rest)[i]? = some 62 ↔ i + 1 = key.length) :=
        fun i hi => by
          rw [← List.getElem?_take_of_lt hi, ← mapcase_gt_iff conf.casemap, ← heq, mapcase_gt_iff,
            hkey.2]
      have hpos := List.length_pos_iff.mpr hkey.1
      have hpos' := List.length_pos_iff.mpr hkey'.1
      have hsame : key.length = key'.length := by
        obtain hlt | heq | hgt := Nat.lt_trichotomy key.length key'.length
        · have h62 := (hget (key.length - 1) (by omega)).mpr (by omega)
          rw [List.getElem?_append_left (by omega), hkey'.2] at h62
          omega
        · exact heq
        · have h62 := (hkey'.2 (key'.length - 1)).mpr (by omega)
          have hright := (hget (key'.length - 1) (by omega)).mp (by
            rw [List.getElem?_append_left (by omega), h62])
          omega
      rw [heq, hsame, List.take_left]
    · have hsame := congrArg List.length heq
      rw [length_mapcase, length_mapcase] at hsame
      rw [heq, hsame, List.take_left]
  · rw [if_neg hlen, if_pos (by omega)]

/-! ## What the operations do to the table -/

variable {ε : Type} {word : ε → BitVec 64} {table : Nat → Option ε} {key : Bytes} {e : ε}

/-- The slots are a table with open addressing; a search that may go on has come to the first vacant
place of its key. -/
structure Holds (conf : Conf) (word : ε → BitVec 64) (table : Nat → Option ε) (d : Db) : Prop where
  slots : ∀ p, d.slot conf p = (table p).elim VACANT word
  words : ∀ p, ∀ e ∈ table p, word e ≠ VACANT
  core : d.InCore conf
  resume : ∀ sp ∈ d.prevp, ∃ k, sp = .nth conf sp.hash k ∧
    Probing.Vacant table (probe conf sp.hash) k

theorem Holds.vacant_iff (hd : Holds conf word table d) {p : Nat} :
    d.slot conf p = VACANT ↔ table p = none := by
  rw [hd.slots p]
  cases hp : table p with
  | none => exact iff_of_true rfl rfl
  | some e => exact iff_of_false (hd.words p e hp) nofun

theorem Holds.vacant (hd : Holds conf word table d)
    (hvacant : d.slot conf (probe conf h k) = VACANT)
    (hbefore : ∀ i < k, d.slot conf (probe conf h i) ≠ VACANT) :
    Probing.Vacant table (probe conf h) k :=
  ⟨hd.vacant_iff.mp hvacant, fun i hi =>
    Option.ne_none_iff_exists'.mp fun hnone => hbefore i hi (hd.vacant_iff.mpr hnone)⟩

/-- A search begins at the first place of its key, or behind places that are taken. -/
theorem Holds.start (hd : Holds conf word table d) (key : Bytes) :
    ∃ n, (Searcher.start conf key d.prevp).next conf = .nth conf (hash key) n ∧
      (∀ i < n, d.slot conf (probe conf (hash key) i) ≠ VACANT) ∧
      ∀ m, d.slot conf (probe conf (hash key) m) = VACANT → n ≤ m := by
  have hfresh : ∃ n, (Searcher.fresh conf (hash key)).next conf = .nth conf (hash key) n ∧
      (∀ i < n, d.slot conf (probe conf (hash key) i) ≠ VACANT) ∧
      ∀ m, d.slot conf (probe conf (hash key) m) = VACANT → n ≤ m :=
    ⟨0, rfl, fun _ hi => absurd hi (Nat.not_lt_zero _), fun _ _ => Nat.zero_le _⟩
  cases hprevp : d.prevp with
  | none => exact hfresh
  | some sp =>
    rw [Searcher.start]
    split
    case isFalse => exact hfresh
    case isTrue hhash =>
      obtain ⟨k, hsp, hvacant⟩ := hd.resume sp hprevp
      rw [hhash] at hsp hvacant
      refine ⟨k, ?_, fun i hi hslot => ?_, fun m hm => hvacant.le (hd.vacant_iff.mp hm)⟩
      · rw [hsp]
        exact again_next
      · exact absurd (hvacant.le (hd.vacant_iff.mp hslot)) (Nat.not_le.mpr hi)

/-- A key is put into the first vacant one of its places, wherever the search for it begins. -/
theorem Holds.store (hsize : 0 < conf.tsize) (hd : Holds conf word table d)
    (hkey : key.length < DBZMAXKEY) (hok : conf.okayvalue value = true)
    (hword : word e = slotValue conf (hashTag conf (hash (mapcase conf.casemap key))) value)
    (hne : word e ≠ VACANT) :
    ∃ n d', dbzstore conf d key value = some d' ∧
      Probing.Vacant table (probe conf (hash (mapcase conf.casemap key))) n ∧
      Holds conf word
        (Probing.put table (probe conf (hash (mapcase conf.casemap key)) n) e) d' := by
  rw [dbzstore, if_neg (Nat.not_le.mpr hkey), hok]
  generalize mapcase conf.casemap key = key at hword ⊢
  obtain ⟨n, hnext, hbefore, hfirst⟩ := hd.start key
  obtain ⟨m, hm, hvacant⟩ := exists_slot_vacant hsize d (hash key)
  obtain ⟨k, hloop, hk, hpassed⟩ :=
    storeLoop_spec hvacant (hfirst m hvacant) (Nat.lt_of_le_of_lt (Nat.sub_le ..) hm) hm hnext
  have hvac : Probing.Vacant table (probe conf (hash key)) k :=
    hd.vacant hk fun i hi => if hni : n ≤ i then hpassed i hni hi
      else hbefore i (Nat.not_le.mp hni)
  refine ⟨k, _, rfl, hvac, ?_⟩
  rw [hloop, nth_tag]
  refine ⟨fun p => ?_, fun p x hx => ?_, set_inCore hd.core _, nofun⟩
  · refine (slot_set hd.core _ p).trans ?_
    rw [Probing.put, Function.update_apply]
    by_cases hp : p = probe conf (hash key) k
    · rw [if_pos hp]
      exact (if_pos hp).trans hword.symm
    · rw [if_neg hp]
      exact (if_neg hp).trans (hd.slots p)
  · obtain ⟨-, rfl⟩ | hx := Probing.some_of_put hx
    · exact hne
    · exact hd.words p x hx

/-- A key is looked for in its places one after the other, up to the first one that is vacant, that
has it, or that has an offset behind which there is too little text. -/
theorem Holds.fetch (hsize : 0 < conf.tsize) (hd : Holds conf word table d) (base key : Bytes) :
    let mapped := mapcase conf.casemap (key.take DBZMAXKEY)
    Holds conf word table (dbzfetch conf base d key).1 ∧
      ∃ k, (∀ i < k, ∃ x ∈ table (probe conf (hash mapped) i),
          ∀ v ∈ candidate conf (hashTag conf (hash mapped)) (word x),
            compare conf base mapped v = some false) ∧
        ((dbzfetch conf base d key).2 = none ∧
            (table (probe conf (hash mapped) k) = none ∨
              ∃ x ∈ table (probe conf (hash mapped) k),
                ∃ v ∈ candidate conf (hashTag conf (hash mapped)) (word x),
                  compare conf base mapped v = none) ∨
          ∃ x ∈ table (probe conf (hash mapped) k),
            ∃ v ∈ candidate conf (hashTag conf (hash mapped)) (word x),
              compare conf base mapped v = some true ∧
                (dbzfetch conf base d key).2 = some v) := by
  intro mapped
  obtain ⟨m, hm, hvacant⟩ := exists_slot_vacant hsize d (hash mapped)
  have hsp : (Searcher.start conf mapped none).next conf = .nth conf (hash mapped) 0 := rfl
  obtain ⟨k, -, hpasses, hend⟩ :=
    fetchLoop_spec base mapped hvacant (Nat.zero_le m) hm hm hsp
  have hentry : ∀ i, d.slot conf (probe conf (hash mapped) i) ≠ VACANT →
      ∃ x ∈ table (probe conf (hash mapped) i),
        word x = d.slot conf (probe conf (hash mapped) i) := fun i hi => by
    obtain ⟨x, hx⟩ := Option.ne_none_iff_exists'.mp fun hnone => hi (hd.vacant_iff.mpr hnone)
    exact ⟨x, hx, by rw [hd.slots, hx, Option.elim_some]⟩
  have hbefore : ∀ i < k, ∃ x ∈ table (probe conf (hash mapped) i),
      ∀ v ∈ candidate conf (hashTag conf (hash mapped)) (word x),
        compare conf base mapped v = some false := fun i hi => by
    obtain ⟨hne, hfalse⟩ := hpasses i (Nat.zero_le i) hi
    obtain ⟨x, hx, hword⟩ := hentry i hne
    exact ⟨x, hx, hword ▸ hfalse⟩
  have hkeep : ∀ prevp found, (∀ sp ∈ prevp, ∃ k, sp = .nth conf sp.hash k ∧
        Probing.Vacant table (probe conf sp.hash) k) →
      fetchLoop conf base d mapped (d.fuel conf) (.start conf mapped none) = (found, prevp) →
      Holds conf word table (dbzfetch conf base d key).1 ∧
        (dbzfetch conf base d key).2 = found := fun prevp found hresume hloop => by
    simp only [dbzfetch]
    rw [hloop]
    exact ⟨⟨hd.slots, hd.words, ⟨hd.core.length, hd.core.same⟩, hresume⟩, rfl⟩
  obtain ⟨hvac, hloop⟩ | ⟨v, hv, hne, hend⟩ := hend
  · have hplace := hd.vacant hvac fun i hi => (hpasses i (Nat.zero_le i) hi).1
    obtain ⟨hholds, hfound⟩ := hkeep _ _ (by
      rintro _ ⟨⟩
      rw [nth_hash]
      exact ⟨k, rfl, hplace⟩) hloop
    exact ⟨hholds, k, hbefore, .inl ⟨hfound, .inl hplace.none⟩⟩
  · obtain ⟨x, hx, hword⟩ := hentry k hne
    rw [← hword] at hv
    obtain ⟨hnone, hloop⟩ | ⟨htrue, hloop⟩ := hend
    · obtain ⟨hholds, hfound⟩ := hkeep none none (fun _ h => nomatch h) hloop
      exact ⟨hholds, k, hbefore, .inl ⟨hfound, .inr ⟨x, hx, v, hv, hnone⟩⟩⟩
    · obtain ⟨hholds, hfound⟩ := hkeep none (some v) (fun _ h => nomatch h) hloop
      exact ⟨hholds, k, hbefore, .inr ⟨x, hx, v, hv, htrue, hfound⟩⟩

/-- What is written stays in core as well. -/
theorem Holds.sync (hd : Holds conf word table d) : Holds conf word table (dbzsync d) := by
  have hslot : ∀ p, (dbzsync d).slot conf p = d.slot conf p := fun p => by
    have hfile := getD_dbzsync hd.core p
    cases hc : d.corepag with
    | none => simp only [dbzsync, hc]
    | some core =>
      simp only [dbzsync, hc] at hfile ⊢
      split at hfile
      case isTrue hdirty =>
        rw [if_pos hdirty]
        simp only [Db.slot, hc] at hfile ⊢
        rw [hfile]
        split <;> rfl
      case isFalse hclean => rw [if_neg hclean]
  refine ⟨fun p => (hslot p).trans (hd.slots p), hd.words, ?_, ?_⟩
  · cases hc : d.corepag with
    | none => simpa only [dbzsync, hc] using hd.core
    | some core =>
      simp only [dbzsync, hc]
      split
      case isTrue hdirty =>
        rw [Bool.and_eq_true, Bool.not_eq_true'] at hdirty
        refine ⟨fun _ h => hd.core.length _ (hc.trans (Option.mem_def.mp h)), fun _ _ hclean => ?_⟩
        obtain hthrough | hwritten := hclean
        · cases hthrough.symm.trans hdirty.2
        · cases hwritten.symm.trans hdirty.1
      case isFalse => exact hd.core
  · have hprevp : (dbzsync d).prevp = d.prevp := by
      unfold dbzsync
      repeat' split
      all_goals rfl
    rw [hprevp]
    exact hd.resume

/-- Nothing is lost when the database is closed, with the first table in core or without. -/
theorem Holds.reopen (hd : Holds conf word table d) (incore : Bool) :
    Holds conf word table (reopen conf incore d) := by
  obtain ⟨hcore, hslot⟩ := dbminit_inCore conf incore d.writethrough (dbzsync d).pag
  exact ⟨fun p => (hslot p).trans ((getD_dbzsync hd.core p).trans (hd.slots p)), hd.words, hcore,
    nofun⟩

end

end ArgoBbs.Dbz

import ArgoBbs.Lib.Keyed
import ArgoBbs.News.Sizes

/-! # The history of the news gateway

`his.c` keeps a line for each article that the gateway has seen, with its identification first, and
stores the offsets of the lines in the database (`his.c`, `dbztool.c`). Together they are to be a
map that keeps what was stored first. -/

namespace ArgoBbs.News

open Dbz Probing

def HIS_FIELDSEP : UInt8 := 9

def LEN : Nat := 1024

/-- The text file with its database. -/
structure History where
  base : Bytes
  db : Db

/-- What stands in the line behind the key; a line is not longer than what is read at once. -/
def HISfilesfor (conf : Conf) (h : History) (key : Bytes) : History × Option Bytes :=
  let (db, val) := dbzfetch conf h.base h.db key
  let h := { h with db }
  match val with
  | none => (h, none)
  | some offset =>
    let text := ((h.base.drop offset.toNat).take (LEN - 1)).takeWhile (· ≠ 0)
    match strchr text 10 with
    | none => (h, none)
    | some p =>
      match strchr (text.take p) HIS_FIELDSEP with
      | none => (h, none)
      | some q => (h, some ((text.take p).drop (q + 1)))

/-- What `HISwrite` prints into the file. -/
structure Line where
  key : Bytes
  date : Int
  paths : Bytes
  deriving DecidableEq

def Line.value (l : Line) : Bytes := printInt l.date ++ HIS_FIELDSEP :: l.paths

def Line.text (l : Line) : Bytes := l.key ++ HIS_FIELDSEP :: l.value ++ [10]

/-- The line stays in the file when the database does not take its offset. -/
def HISwrite (conf : Conf) (h : History) (l : Line) : History × Bool :=
  let offset := h.base.length
  let base := h.base ++ l.text
  match dbzstore conf h.db l.key (BitVec.ofNat 64 offset) with
  | none => ({ h with base }, false)
  | some db => ({ base, db := dbzsync db }, true)

def DBfetch (conf : Conf) (h : History) (key : Bytes) : History × Option Bytes :=
  HISfilesfor conf h (key.take 510)

def storeDB (conf : Conf) (h : History) (l : Line) : History × Int :=
  match DBfetch conf h l.key with
  | (h, some _) => (h, 0)
  | (h, none) =>
    match HISwrite conf h { l with key := l.key.take 510 } with
    | (h, true) => (h, 0)
    | (h, false) => (h, -1)

inductive Event
  | storeDB (l : Line)
  | DBfetch (key : Bytes)
  /-- The files are closed, and opened again with the first table in core or not. -/
  | reopen (incore : Bool)

inductive Answer
  | stored (result : Int)
  | fetched (value : Option Bytes)
  | done
  deriving DecidableEq

def History.exec (conf : Conf) (h : History) : Event → History × Answer
  | .storeDB l =>
    let (h, result) := storeDB conf h l
    (h, .stored result)
  | .DBfetch key =>
    let (h, value) := DBfetch conf h key
    (h, .fetched value)
  | .reopen incore => ({ h with db := Dbz.reopen conf incore h.db }, .done)

/-- An empty file and a fresh database. -/
def History.start (conf : Conf) (incore : Bool) : History := ⟨[], dbminit conf incore true []⟩

/-- The answers in a run. -/
def answers {σ : Type} (exec : σ → Event → σ × Answer) : σ → List Event → List Answer
  | _, [] => []
  | s, e :: es => (exec s e).2 :: answers exec (exec s e).1 es

/-! ## The map -/

/-- What was stored, each key once. -/
abbrev Journal : Type := List (Bytes × Bytes)

def Journal.exec (casemap : UInt8) (j : Journal) : Event → Journal × Answer
  | .storeDB l =>
    match j.lookup (mapcase casemap l.key) with
    | some _ => (j, .stored 0)
    | none => (j ++ [(mapcase casemap l.key, l.value)], .stored 0)
  | .DBfetch key => (j, .fetched (j.lookup (mapcase casemap key)))
  | .reopen _ => (j, .done)

/-- Identifications of articles end with their only closing bracket. -/
structure IsMessageId (key : Bytes) : Prop where
  closed : Closed key
  short : key.length < DBZMAXKEY
  noSep : HIS_FIELDSEP ∉ key
  noNewline : 10 ∉ key
  nonzero : 0 ∉ key

structure Line.Valid (l : Line) : Prop where
  key : IsMessageId l.key
  noNewline : 10 ∉ l.paths
  nonzero : 0 ∉ l.paths
  short : l.text.length < LEN

def Event.Valid : Event → Prop
  | .storeDB l => l.Valid
  | .DBfetch key => IsMessageId key
  | .reopen _ => True

def Event.size : Event → Nat
  | .storeDB l => l.text.length
  | _ => 0

/-- An offset can be stored. -/
def Room (conf : Conf) (n : Nat) : Prop :=
  n < 2 ^ 63 ∧ conf.okayvalue (BitVec.ofNat 64 n) = true

section
variable {conf : Conf} {h : History} {key : Bytes} {l : Line} {j : Journal}

/-! ## Lines -/

theorem notMem_printInt {c : UInt8} (hc : c.toNat < 45) (n : Int) : c ∉ printInt n := by
  have hdecimal : ∀ k : Nat, c ∉ decimal k := fun k hmem => by
    obtain ⟨d, hd, rfl⟩ := List.mem_map.mp hmem
    obtain ⟨hlow, hhigh⟩ := toNat_of_mem_toDigits hd
    rw [UInt8.toNat_ofNat', Nat.mod_eq_of_lt (by omega)] at hc
    omega
  rw [printInt]
  split
  · refine List.not_mem_cons_of_ne_of_not_mem ?_ (hdecimal _)
    rintro rfl
    exact absurd hc (by decide)
  · exact hdecimal _

theorem notMem_field {c : UInt8} (hc : c.toNat < 45) (hsep : c ≠ HIS_FIELDSEP) (hkey : c ∉ l.key)
    (hpaths : c ∉ l.paths) : c ∉ l.key ++ HIS_FIELDSEP :: l.value := by
  simp only [Line.value, List.mem_append, List.mem_cons, not_or]
  exact ⟨hkey, hsep, notMem_printInt hc _, hsep, hpaths⟩

/-- A line that is read gives what it was written with. -/
theorem HISfilesfor_line {offset : BitVec 64} {rest : Bytes} (hl : l.Valid)
    (hfound : (dbzfetch conf h.base h.db key).2 = some offset)
    (hline : h.base.drop offset.toNat = l.text ++ rest) :
    HISfilesfor conf h key =
      ({ h with db := (dbzfetch conf h.base h.db key).1 }, some l.value) := by
  have hshort := hl.short
  have htext : ((l.text ++ rest).take (LEN - 1)).takeWhile (· ≠ 0) =
      (l.key ++ HIS_FIELDSEP :: l.value) ++
        10 :: (rest.take (LEN - 1 - l.text.length)).takeWhile (· ≠ 0) := by
    have hzero := notMem_field (by decide) (by decide) hl.key.nonzero hl.nonzero
    have hnonzero : ∀ c ∈ l.text, decide (c ≠ 0) = true := fun c hc => decide_eq_true <| by
      rintro rfl
      obtain hc | hc := List.mem_append.mp hc
      · exact hzero hc
      · cases List.mem_singleton.mp hc
    rw [List.take_append, List.take_of_length_le (by omega),
      List.takeWhile_append_of_pos hnonzero, Line.text, List.append_assoc]
    rfl
  have hnewline : strchr ((l.key ++ HIS_FIELDSEP :: l.value) ++
      10 :: (rest.take (LEN - 1 - l.text.length)).takeWhile (· ≠ 0)) 10 =
        some (l.key ++ HIS_FIELDSEP :: l.value).length :=
    strchr_eq_some_iff.mpr ⟨_, _, rfl,
      notMem_field (by decide) (by decide) hl.key.noNewline hl.noNewline, rfl⟩
  have hsep : strchr (l.key ++ HIS_FIELDSEP :: l.value) HIS_FIELDSEP = some l.key.length :=
    strchr_eq_some_iff.mpr ⟨_, _, rfl, hl.key.noSep, rfl⟩
  have hvalue : (l.key ++ HIS_FIELDSEP :: l.value).drop (l.key.length + 1) = l.value := by
    rw [List.append_cons]
    exact List.drop_left' (by rw [List.length_append]; rfl)
  rw [HISfilesfor]
  simp only [hfound, hline, htext, hnewline, List.take_left, hsep, hvalue]

/-! ## Lines in the database -/

/-- A line that the database has, where it is in the file. -/
structure Entry where
  line : Line
  offset : Nat

namespace Entry

def mapped (conf : Conf) (e : Entry) : Bytes := mapcase conf.casemap e.line.key

/-- The slot of the line. -/
def word (conf : Conf) (e : Entry) : BitVec 64 :=
  slotValue conf (hashTag conf (hash (e.mapped conf))) (BitVec.ofNat 64 e.offset)

def pair (conf : Conf) (e : Entry) : Bytes × Bytes := (e.mapped conf, e.line.value)

end Entry

variable {es : List Entry} {e : Entry}

structure Entry.In (conf : Conf) (base : Bytes) (e : Entry) : Prop where
  valid : e.line.Valid
  room : Room conf e.offset
  lt : e.offset < base.length
  text : ∃ rest, base.drop e.offset = e.line.text ++ rest

/-- The lines in the database have different keys. Each is found in its places behind older ones,
for which there is more text in the file. -/
structure Inv (conf : Conf) (es : List Entry) (h : History) : Prop where
  lines : ∀ e ∈ es, e.In conf h.base
  nodup : (es.map (Entry.mapped conf)).Nodup
  table : ∃ table, Dbz.Holds conf (Entry.word conf) table h.db ∧ (∀ p, ∀ e ∈ table p, e ∈ es) ∧
    ∀ e ∈ es, Placed (fun x e => x.offset < e.offset) table
      (probe conf (hash (e.mapped conf))) e

theorem Room.toNat {n : Nat} (hn : Room conf n) : (BitVec.ofNat 64 n).toNat = n := by
  rw [BitVec.toNat_ofNat, Nat.mod_eq_of_lt (Nat.lt_trans hn.1 (by decide))]

theorem Room.word_ne_vacant (hroom : Room conf e.offset) : e.word conf ≠ VACANT := by
  refine slotValue_ne_vacant fun hminus => ?_
  have htoNat := congrArg BitVec.toNat hminus
  rw [hroom.toNat] at htoNat
  exact absurd (htoNat ▸ hroom.1) (by decide)

theorem Entry.In.append (he : e.In conf h.base) (more : Bytes) : e.In conf (h.base ++ more) where
  valid := he.valid
  room := he.room
  lt := Nat.lt_of_lt_of_le he.lt (by rw [List.length_append]; exact Nat.le_add_right ..)
  text := by
    obtain ⟨rest, hrest⟩ := he.text
    refine ⟨rest ++ more, ?_⟩
    rw [List.drop_append_of_le_length (Nat.le_of_lt he.lt), hrest, List.append_assoc]

/-- A line is found by its key, as long as the file goes on long enough behind it. -/
theorem Entry.In.compare (he : e.In conf h.base) (hkey : IsMessageId key) :
    compare conf h.base (mapcase conf.casemap key) (BitVec.ofNat 64 e.offset) =
      if key.length ≤ h.base.length - e.offset then
        some (decide (mapcase conf.casemap key = e.mapped conf))
      else none := by
  obtain ⟨rest, hrest⟩ := he.text
  have hdrop : h.base.drop (BitVec.ofNat 64 e.offset).toNat =
      e.line.key ++ (HIS_FIELDSEP :: e.line.value ++ [10] ++ rest) := by
    rw [he.room.toNat, hrest, Line.text]
    simp only [List.append_assoc]
  rw [compare_closed hkey.closed he.valid.key.closed hdrop, ← hdrop, List.length_drop,
    he.room.toNat]
  rfl

/-- A slot is passed over, or leads to its line. -/
theorem Entry.candidate_word (hconf : conf.Ok) (hroom : Room conf e.offset) (k : Bytes) :
    Searcher.candidate conf (hashTag conf (hash k)) (e.word conf) =
        some (BitVec.ofNat 64 e.offset) ∨
      Searcher.candidate conf (hashTag conf (hash k)) (e.word conf) = none ∧
        k ≠ e.mapped conf := by
  refine (candidate_slotValue hconf hroom.2 _ _).imp_right fun hnone => ⟨hnone.1, ?_⟩
  rintro rfl
  exact hnone.2 rfl

/-! ## Fetching and storing -/

/-- The slot lets the search for a key go on. -/
def Passes (conf : Conf) (base mapped : Bytes) (e : Entry) : Prop :=
  ∀ v ∈ Searcher.candidate conf (hashTag conf (hash mapped)) (e.word conf),
    compare conf base mapped v = some false

/-- The search does not end at a line of another key unless the file does. -/
theorem Entry.In.passes (hconf : conf.Ok) (he : e.In conf h.base) (hkey : IsMessageId key)
    (hlong : key.length ≤ h.base.length - e.offset)
    (hne : mapcase conf.casemap key ≠ e.mapped conf) :
    Passes conf h.base (mapcase conf.casemap key) e := by
  intro v hv
  obtain hsome | ⟨hnone, -⟩ := Entry.candidate_word hconf he.room (mapcase conf.casemap key)
  · cases hsome.symm.trans hv
    rw [he.compare hkey, if_pos hlong, decide_eq_false hne]
  · cases hnone.symm.trans hv

/-- From a line on there is text enough for its key. -/
theorem Entry.In.long (he : e.In conf h.base) (heq : mapcase conf.casemap key = e.mapped conf) :
    key.length ≤ h.base.length - e.offset := by
  have hsame := congrArg List.length heq
  rw [Entry.mapped, length_mapcase, length_mapcase] at hsame
  obtain ⟨rest, hrest⟩ := he.text
  have hdrop := congrArg List.length hrest
  simp only [List.length_drop, List.length_append, Line.text] at hdrop
  omega

/-- `dbzfetch` finds the line of the key if there is one. -/
theorem Inv.dbzfetch (hconf : conf.Ok) (hinv : Inv conf es h) (hkey : IsMessageId key) :
    Inv conf es { h with db := (dbzfetch conf h.base h.db key).1 } ∧
      ((∃ e ∈ es, mapcase conf.casemap key = e.mapped conf ∧
          (dbzfetch conf h.base h.db key).2 = some (BitVec.ofNat 64 e.offset)) ∨
        (∀ e ∈ es, mapcase conf.casemap key ≠ e.mapped conf) ∧
          (dbzfetch conf h.base h.db key).2 = none) := by
  obtain ⟨table, hholds, hmem, hplaced⟩ := hinv.table
  obtain ⟨hholds', k, hbefore, hend⟩ := hholds.fetch hconf.size h.base key
  rw [List.take_of_length_le (Nat.le_of_lt hkey.short)] at hbefore hend
  refine ⟨⟨hinv.lines, hinv.nodup, table, hholds', hmem, hplaced⟩, ?_⟩
  by_cases hthere : ∃ e ∈ es, mapcase conf.casemap key = e.mapped conf
  · obtain ⟨e, he, heq⟩ := hthere
    refine .inl ⟨e, he, heq, ?_⟩
    have hcand := (Entry.candidate_word hconf (hinv.lines e he).room
      (mapcase conf.casemap key)).resolve_right fun hno => hno.2 heq
    have htrue := (hinv.lines e he).compare hkey
    rw [if_pos ((hinv.lines e he).long heq), decide_eq_true heq] at htrue
    have hplace := hplaced e he
    rw [← heq] at hplace
    have hreached : table (probe conf (hash (mapcase conf.casemap key)) k) = some e := by
      refine @Placed.reached _ _ _ _ _ e k (Passes conf h.base (mapcase conf.casemap key))
        hplace hbefore ?_ (fun hpass => ?_) fun i x hx holder => ?_
      · intro x hx hpass
        obtain ⟨-, hnone | ⟨y, hy, v, hv, hnone⟩⟩ | ⟨y, hy, v, hv, hyes, -⟩ := hend
        · cases hnone.symm.trans hx
        · cases hx.symm.trans hy
          cases (hpass v hv).symm.trans hnone
        · cases hx.symm.trans hy
          cases (hpass v hv).symm.trans hyes
      · cases htrue.symm.trans (hpass _ hcand)
      · -- an older line has the newer one behind it
        have hx' := hmem _ x hx
        refine (hinv.lines x hx').passes hconf hkey
          (Nat.le_trans ((hinv.lines e he).long heq)
            (Nat.sub_le_sub_left (Nat.le_of_lt holder) _)) fun heq' => ?_
        cases List.inj_on_of_nodup_map hinv.nodup hx' he (heq'.symm.trans heq)
        exact Nat.lt_irrefl _ holder
    obtain ⟨-, hnone | ⟨y, hy, v, hv, hnone⟩⟩ | ⟨y, hy, v, hv, -, hfound⟩ := hend
    · cases hnone.symm.trans hreached
    · cases hreached.symm.trans hy
      cases hcand.symm.trans hv
      cases htrue.symm.trans hnone
    · cases hreached.symm.trans hy
      cases hcand.symm.trans hv
      exact hfound
  · have hno : ∀ e ∈ es, mapcase conf.casemap key ≠ e.mapped conf := fun e he heq =>
      hthere ⟨e, he, heq⟩
    refine .inr ⟨hno, ?_⟩
    obtain ⟨hnone, -⟩ | ⟨y, hy, v, hv, hyes, -⟩ := hend
    · exact hnone
    · have hy' := hmem _ y hy
      obtain hsome | ⟨hnone, -⟩ :=
        Entry.candidate_word hconf (hinv.lines y hy').room (mapcase conf.casemap key)
      · cases hsome.symm.trans hv
        rw [(hinv.lines y hy').compare hkey] at hyes
        split at hyes
        · exact absurd (of_decide_eq_true (Option.some.inj hyes)) (hno y hy')
        · cases hyes
      · cases hnone.symm.trans hv

/-- A new key is added at the end. -/
theorem Inv.HISwrite (hconf : conf.Ok) (hinv : Inv conf es h) (hl : l.Valid)
    (hroom : Room conf h.base.length)
    (hnew : ∀ e ∈ es, mapcase conf.casemap l.key ≠ e.mapped conf) :
    (HISwrite conf h l).2 = true ∧ (HISwrite conf h l).1.base = h.base ++ l.text ∧
      Inv conf (es ++ [⟨l, h.base.length⟩]) (HISwrite conf h l).1 := by
  obtain ⟨table, hholds, hmem, hplaced⟩ := hinv.table
  obtain ⟨n, db, hstore, hvacant, hholds'⟩ :=
    @Dbz.Holds.store conf h.db _ _ _ table l.key ⟨l, h.base.length⟩ hconf.size hholds hl.key.short
      hroom.2 rfl (@Room.word_ne_vacant conf ⟨l, h.base.length⟩ hroom)
  have hwrite : (News.HISwrite conf h l).1.base = h.base ++ l.text ∧
      (News.HISwrite conf h l).1.db = dbzsync db ∧ (News.HISwrite conf h l).2 = true := by
    simp only [News.HISwrite, hstore, and_self]
  obtain ⟨hbase, hdb, htrue⟩ := hwrite
  refine ⟨htrue, hbase, ?_, ?_, ?_⟩
  · intro e he
    rw [hbase]
    obtain he | he := List.mem_append.mp he
    · exact (hinv.lines e he).append l.text
    · cases List.mem_singleton.mp he
      refine ⟨hl, hroom, ?_, [], ?_⟩
      · rw [List.length_append, Line.text, List.length_append]
        exact Nat.lt_add_of_pos_right (Nat.lt_of_lt_of_le Nat.one_pos (Nat.le_add_left ..))
      · rw [List.drop_left, List.append_nil]
  · rw [List.map_append, List.nodup_append]
    refine ⟨hinv.nodup, List.nodup_singleton _, fun a ha b hb hab => ?_⟩
    obtain ⟨e, he, rfl⟩ := List.mem_map.mp ha
    cases List.mem_singleton.mp hb
    exact hnew e he hab.symm
  · rw [hdb]
    refine ⟨_, hholds'.sync, fun p e he => List.mem_append.mpr ?_, fun e he => ?_⟩
    · obtain ⟨-, rfl⟩ | he := some_of_put he
      · exact .inr (List.mem_singleton_self _)
      · exact .inl (hmem p e he)
    · obtain he | he := List.mem_append.mp he
      · exact (hplaced e he).put_old hvacant.none
      · cases List.mem_singleton.mp he
        exact hvacant.put_new fun p x hx => (hinv.lines x (hmem p x hx)).lt

/-! ## Runs -/

def journal (conf : Conf) (es : List Entry) : Journal := es.map (Entry.pair conf)

theorem lookup_journal (hnodup : (es.map (Entry.mapped conf)).Nodup) (he : e ∈ es) :
    (journal conf es).lookup (e.mapped conf) = some e.line.value := by
  obtain ⟨before, after, rfl⟩ := List.append_of_mem he
  refine List.lookup_eq_some_iff.mpr
    ⟨before.map (Entry.pair conf), after.map (Entry.pair conf), List.map_append, fun p hp => ?_⟩
  obtain ⟨x, hx, rfl⟩ := List.mem_map.mp hp
  rw [List.map_append, List.nodup_append] at hnodup
  refine bne_iff_ne.mpr fun heq => ?_
  exact hnodup.2.2 _ (List.mem_map_of_mem hx) _
    (List.mem_map_of_mem (List.mem_cons_self ..)) heq.symm

theorem lookup_journal_none {k : Bytes} (hno : ∀ e ∈ es, k ≠ e.mapped conf) :
    (journal conf es).lookup k = none := by
  refine List.lookup_eq_none_iff.mpr fun p hp => ?_
  obtain ⟨e, he, rfl⟩ := List.mem_map.mp hp
  exact bne_iff_ne.mpr (hno e he)

/-- What is fetched is what the map has. -/
theorem Inv.DBfetch (hconf : conf.Ok) (hinv : Inv conf es h) (hkey : IsMessageId key) :
    Inv conf es (DBfetch conf h key).1 ∧ (DBfetch conf h key).1.base = h.base ∧
      (DBfetch conf h key).2 = (journal conf es).lookup (mapcase conf.casemap key) ∧
      ((DBfetch conf h key).2 = none → ∀ e ∈ es, mapcase conf.casemap key ≠ e.mapped conf) := by
  have hshort : key.take 510 = key := List.take_of_length_le
    (Nat.le_of_lt (Nat.lt_trans hkey.short (by decide)))
  obtain ⟨hinv', hfound⟩ := hinv.dbzfetch hconf hkey
  rw [News.DBfetch, hshort]
  obtain ⟨e, he, heq, hoffset⟩ | ⟨hno, hnone⟩ := hfound
  · obtain ⟨rest, hrest⟩ := (hinv.lines e he).text
    rw [HISfilesfor_line (hinv.lines e he).valid hoffset
      (by rw [(hinv.lines e he).room.toNat, hrest]), heq, lookup_journal hinv.nodup he]
    exact ⟨hinv', rfl, rfl, nofun⟩
  · have hnothing : HISfilesfor conf h key =
        ({ h with db := (Dbz.dbzfetch conf h.base h.db key).1 }, none) := by
      simp only [HISfilesfor, hnone]
    rw [hnothing, lookup_journal_none hno]
    exact ⟨hinv', rfl, rfl, fun _ => hno⟩

/-- What is stored is added to the map, unless it is there. -/
theorem Inv.storeDB (hconf : conf.Ok) (hinv : Inv conf es h) (hl : l.Valid)
    (hroom : Room conf h.base.length) :
    ∃ es', Inv conf es' (storeDB conf h l).1 ∧ (storeDB conf h l).2 = 0 ∧
      (journal conf es).exec conf.casemap (.storeDB l) = (journal conf es', .stored 0) ∧
      (storeDB conf h l).1.base.length ≤ h.base.length + l.text.length := by
  obtain ⟨hinv', hbase, hlookup, hno⟩ := hinv.DBfetch hconf hl.key
  rw [News.storeDB]
  generalize News.DBfetch conf h l.key = fetched at *
  obtain ⟨h', found⟩ := fetched
  simp only at hinv' hbase hlookup hno ⊢
  have hshort : l.key.take 510 = l.key := List.take_of_length_le
    (Nat.le_of_lt (Nat.lt_trans hl.key.short (by decide)))
  cases found with
  | some value =>
    refine ⟨es, hinv', rfl, ?_, ?_⟩
    · rw [Journal.exec, ← hlookup]
    · rw [hbase]
      exact Nat.le_add_right ..
  | none =>
    rw [← hbase] at hroom
    obtain ⟨htrue, htext, hinv''⟩ := hinv'.HISwrite hconf hl hroom (hno rfl)
    have hwrite : News.HISwrite conf h' { l with key := l.key.take 510 } =
        ((News.HISwrite conf h' l).1, true) := by
      rw [hshort, ← htrue]
    simp only [hwrite, true_and]
    refine ⟨_, hinv'', ?_, ?_⟩
    · rw [Journal.exec, ← hlookup, journal, journal, List.map_append]
      rfl
    · rw [htext, hbase, List.length_append]

/-- One event does to the file and the database what it does to the map. -/
theorem Inv.exec (hconf : conf.Ok) (hinv : Inv conf es h) {ev : Event} (hev : ev.Valid)
    (hroom : Room conf h.base.length) :
    ∃ es', Inv conf es' (h.exec conf ev).1 ∧
      (journal conf es).exec conf.casemap ev = (journal conf es', (h.exec conf ev).2) ∧
      (h.exec conf ev).1.base.length ≤ h.base.length + ev.size := by
  cases ev with
  | storeDB l =>
    obtain ⟨es', hinv', hzero, hjournal, hlen⟩ := hinv.storeDB hconf hev hroom
    exact ⟨es', hinv', by rw [hjournal, ← hzero]; rfl, hlen⟩
  | DBfetch key =>
    obtain ⟨hinv', hbase, hlookup, -⟩ := hinv.DBfetch hconf hev
    exact ⟨es, hinv', by rw [Journal.exec, ← hlookup]; rfl,
      Nat.le_of_eq (congrArg List.length hbase)⟩
  | reopen incore =>
    obtain ⟨table, hholds, hrest⟩ := hinv.table
    exact ⟨es, ⟨hinv.lines, hinv.nodup, table, hholds.reopen incore, hrest⟩, rfl, Nat.le_refl _⟩

theorem Inv.start (conf : Conf) (incore : Bool) :
    Inv conf [] (.start conf incore) := by
  obtain ⟨hcore, hslot⟩ := dbminit_inCore conf incore true []
  refine ⟨nofun, List.nodup_nil, fun _ => none, ⟨fun p => ?_, nofun, hcore, nofun⟩, nofun, nofun⟩
  exact hslot p

end

end ArgoBbs.News

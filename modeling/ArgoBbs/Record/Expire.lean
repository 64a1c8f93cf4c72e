import ArgoBbs.Board.Digest
import Mathlib.Data.List.Perm.Subperm

/-! # Expiry of old posts

`expire` reads `.DIR` record by record, writes the records that it keeps to `.DIR.new`, and renames
`.DIR` to `.DIR.old` and `.DIR.new` to `.DIR` (`util/expire.c`). It locks `.DIR.lock`, and a poster
in `append_record` the file that it has opened as `.DIR` (`record.c`); so the two do not exclude
each other. -/

namespace ArgoBbs

structure PostHeader extends ArticleHeader where
  owner : Bytes
  deriving DecidableEq

/-- The limits of a board. -/
structure Life where
  days : Int
  maxp : Int
  minp : Int

def Life.duetime (brd : Life) (now : Int) : Int := toCInt (now - brd.days * 24 * 60 * 60)

/-- `total` counts the records without those removed so far. -/
def Life.keeps (brd : Life) (duetime total : Int) (head : PostHeader) : Bool :=
  if head.owner.head? = some 45 then false
  else if head.has fileMarked ∨ total ≤ brd.minp then true
  else if toCInt head.filetime < duetime ∨ brd.maxp < total then false
  else true

/-- A process in `append_record`, with the file that it has opened and the record. -/
inductive PosterPc
  | idle
  | opened (fd : Nat) (r : PostHeader)
  | locked (fd : Nat) (r : PostHeader)

/-- Where `expire` is: it has opened `.DIR`, knows its size, reads the record after the first `pos`,
has read the last one, is between the two calls of `rename`. -/
inductive ExpirePc
  | start
  | opened (fdr : Nat)
  | sized (fdr : Nat) (total : Int)
  | reading (fdr fdw pos : Nat) (total : Int)
  | ended (fdr fdw : Nat)
  | between (fdr fdw : Nat)
  | finished
  deriving DecidableEq

/-- `expire` has read the last record, and not yet renamed both files. -/
def ExpirePc.renames : ExpirePc → Bool
  | .ended .. | .between .. => true
  | _ => false

/-- The files by their numbers, of which those from `fresh` on are unused; the files that have the
names `.DIR`, `.DIR.old` and `.DIR.new`; who has locked a file. `appended` are the records whose
`append_record` has returned 0, and `selected` those that `expire` has not kept. -/
structure ExpireState (ι : Type) where
  files : Nat → List PostHeader
  fresh : Nat
  dir : Option Nat
  old : Option Nat
  new : Option Nat
  locks : Nat → Option ι
  posters : ι → PosterPc
  expire : ExpirePc
  appended : List PostHeader
  selected : List PostHeader

inductive ExpireEvent (ι : Type)
  | openDir (i : ι) (r : PostHeader)
  | lock (i : ι)
  | write (i : ι) (ok : Bool)
  | openIndex
  | fstat
  | create (ok : Bool)
  | read (ok : Bool)
  | renameOld (ok : Bool)
  | renameNew (ok : Bool)

namespace ExpireState
variable {ι : Type}

def start (index : List PostHeader) : ExpireState ι where
  files n := if n = 0 then index else []
  fresh := 1
  dir := some 0
  old := none
  new := none
  locks _ := none
  posters _ := .idle
  expire := .start
  appended := []
  selected := []

section
variable [DecidableEq ι]

def goTo (s : ExpireState ι) (i : ι) (pc : PosterPc) : ExpireState ι :=
  { s with posters := Function.update s.posters i pc }

def setFile (s : ExpireState ι) (n : Nat) (content : List PostHeader) : ExpireState ι :=
  { s with files := Function.update s.files n content }

def step (brd : Life) (now : Int) (s : ExpireState ι) : ExpireEvent ι → Option (ExpireState ι)
  | .openDir i r =>
    match s.posters i with
    | .idle =>
      match s.dir with
      | some n => some (s.goTo i (.opened n r))
      | none =>
        some { (s.setFile s.fresh []).goTo i (.opened s.fresh r) with
          dir := some s.fresh, fresh := s.fresh + 1 }
    | _ => none
  | .lock i =>
    match s.posters i with
    | .opened n r =>
      match s.locks n with
      | none => some { s.goTo i (.locked n r) with locks := Function.update s.locks n (some i) }
      | some _ => none
    | _ => none
  | .write i ok =>
    match s.posters i with
    | .locked n r =>
      let s := { s.goTo i .idle with locks := Function.update s.locks n none }
      some (if ok then { s.setFile n (s.files n ++ [r]) with appended := s.appended ++ [r] } else s)
    | _ => none
  | .openIndex =>
    match s.expire with
    | .start =>
      match s.dir with
      | some n => some { s with expire := .opened n }
      | none => some { s with expire := .finished }
    | _ => none
  | .fstat =>
    match s.expire with
    | .opened fdr => some { s with expire := .sized fdr (s.files fdr).length }
    | _ => none
  | .create ok =>
    match s.expire with
    | .sized fdr total =>
      some (if ok then
        { s.setFile s.fresh [] with
          new := some s.fresh, fresh := s.fresh + 1, expire := .reading fdr s.fresh 0 total }
      else { s with new := none, expire := .finished })
    | _ => none
  | .read ok =>
    match s.expire with
    | .reading fdr fdw pos total =>
      match (s.files fdr)[pos]? with
      | none => some { s with expire := if 0 < pos then .ended fdr fdw else .finished }
      | some head =>
        if brd.keeps (brd.duetime now) total head then
          some (if ok then
            { s.setFile fdw (s.files fdw ++ [head]) with expire := .reading fdr fdw (pos + 1) total }
          else { s with expire := .finished })
        else
          some { s with
            selected := s.selected ++ [head], expire := .reading fdr fdw (pos + 1) (total - 1) }
    | _ => none
  | .renameOld ok =>
    match s.expire with
    | .ended fdr fdw =>
      match s.dir, ok with
      | some n, true => some { s with dir := none, old := some n, expire := .between fdr fdw }
      | _, _ => some { s with expire := .finished }
    | _ => none
  | .renameNew ok =>
    match s.expire with
    | .between _ _ =>
      match s.new, ok with
      | some n, true => some { s with dir := some n, new := none, expire := .finished }
      | _, _ => some { s with expire := .finished }
    | _ => none

end

/-- A poster writes only to the file that is `.DIR` at this time, and not while `expire` renames;
and the second `rename` succeeds. -/
def MayStep (s : ExpireState ι) : ExpireEvent ι → Prop
  | .write i ok =>
    match s.posters i with
    | .locked n _ => ok = true → s.dir = some n ∧ s.expire.renames = false
    | _ => True
  | .renameNew ok => ok = true
  | _ => True

instance (s : ExpireState ι) (e : ExpireEvent ι) : Decidable (s.MayStep e) := by
  unfold MayStep
  split
  all_goals first
    | infer_instance
    | (split <;> infer_instance)

/-! ## What is in the files -/

section
variable {files : Nat → List PostHeader} {fresh fdr fdw n pos : Nat} {new : Option Nat}
  {all selected content : List PostHeader} {r head : PostHeader}

/-- The file has all records, in order. -/
structure Whole (files : Nat → List PostHeader) (fresh : Nat) (all : List PostHeader) (n : Nat) :
    Prop where
  used : n < fresh
  content : files n = all

/-- The new file has the first records of the old one without those selected. -/
structure Copied (files : Nat → List PostHeader) (fresh : Nat) (new : Option Nat)
    (selected : List PostHeader) (fdr fdw pos : Nat) : Prop where
  used : fdw < fresh
  new : new = some fdw
  ne : fdr ≠ fdw
  le : pos ≤ (files fdr).length
  content : (files fdw ++ selected).Perm ((files fdr).take pos)

/-- Every record that was there or was appended is in the file or was selected. -/
def Has (files : Nat → List PostHeader) (selected all : List PostHeader) (n : Nat) : Prop :=
  all.Subperm (files n ++ selected)

theorem Whole.has (h : Whole files fresh all n) (selected : List PostHeader) :
    Has files selected all n := by
  unfold Has
  rw [h.content]
  exact (List.sublist_append_left ..).subperm

theorem Copied.has (h : Whole files fresh all fdr)
    (hcopy : Copied files fresh new selected fdr fdw all.length) : Has files selected all fdw := by
  have hperm := hcopy.content
  rw [h.content, List.take_length] at hperm
  exact hperm.symm.subperm

theorem Whole.update (h : Whole files fresh all n) (hne : n ≠ fdw) (content : List PostHeader) :
    Whole (Function.update files fdw content) fresh all n :=
  ⟨h.used, by rw [Function.update_of_ne hne, h.content]⟩

theorem Whole.create (h : Whole files fresh all n) :
    Whole (Function.update files fresh []) (fresh + 1) all n :=
  have ⟨_, hcontent⟩ := h.update (Nat.ne_of_lt h.used) []
  ⟨Nat.lt_succ_of_lt h.used, hcontent⟩

theorem Whole.append (h : Whole files fresh all n) (r : PostHeader) :
    Whole (Function.update files n (files n ++ [r])) fresh (all ++ [r]) n :=
  ⟨h.used, by rw [Function.update_self, h.content]⟩

theorem Copied.create (h : Copied files fresh new selected fdr fdw pos) (hused : fdr < fresh) :
    Copied (Function.update files fresh []) (fresh + 1) new selected fdr fdw pos where
  used := Nat.lt_succ_of_lt h.used
  new := h.new
  ne := h.ne
  le := by rw [Function.update_of_ne (Nat.ne_of_lt hused)]; exact h.le
  content := by
    rw [Function.update_of_ne (Nat.ne_of_lt hused), Function.update_of_ne (Nat.ne_of_lt h.used)]
    exact h.content

/-- A record appended to the old file is one of those yet to be read. -/
theorem Copied.append (h : Copied files fresh new selected fdr fdw pos) (r : PostHeader) :
    Copied (Function.update files fdr (files fdr ++ [r])) fresh new selected fdr fdw pos where
  used := h.used
  new := h.new
  ne := h.ne
  le := by
    rw [Function.update_self, List.length_append]
    exact Nat.le_add_right_of_le h.le
  content := by
    rw [Function.update_self, Function.update_of_ne h.ne.symm, List.take_append_of_le_length h.le]
    exact h.content

theorem Copied.take_succ (hhead : (files fdr)[pos]? = some head) :
    (files fdr).take (pos + 1) = (files fdr).take pos ++ [head] := by
  rw [List.take_add_one, hhead]
  rfl

theorem Copied.keep (h : Copied files fresh new selected fdr fdw pos)
    (hhead : (files fdr)[pos]? = some head) :
    Copied (Function.update files fdw (files fdw ++ [head])) fresh new selected fdr fdw (pos + 1) where
  used := h.used
  new := h.new
  ne := h.ne
  le := by
    rw [Function.update_of_ne h.ne]
    exact (List.getElem?_eq_some_iff.mp hhead).1
  content := by
    rw [Function.update_self, Function.update_of_ne h.ne, take_succ hhead, List.append_assoc]
    calc files fdw ++ ([head] ++ selected)
      _ |>.Perm (files fdw ++ (selected ++ [head])) := .append_left _ List.perm_append_comm
      _ |>.Perm ((files fdr).take pos ++ [head]) := by
        rw [← List.append_assoc]
        exact h.content.append_right _

theorem Copied.select (h : Copied files fresh new selected fdr fdw pos)
    (hhead : (files fdr)[pos]? = some head) :
    Copied files fresh new (selected ++ [head]) fdr fdw (pos + 1) where
  used := h.used
  new := h.new
  ne := h.ne
  le := (List.getElem?_eq_some_iff.mp hhead).1
  content := by
    rw [take_succ hhead, ← List.append_assoc]
    exact h.content.append_right _

end

/-! ## Steps -/

section
variable {brd : Life} {now : Int} {s s' : ExpireState ι} {index : List PostHeader}

/-- What holds as long as all steps meet the condition, for each place where `expire` may be. -/
def ExpireOk (index : List PostHeader) (s : ExpireState ι) : ExpirePc → Prop
  | .start => s.selected = [] ∧ ∃ n, s.dir = some n ∧ Whole s.files s.fresh (index ++ s.appended) n
  | .opened fdr | .sized fdr _ =>
    s.selected = [] ∧ s.dir = some fdr ∧ Whole s.files s.fresh (index ++ s.appended) fdr
  | .reading fdr fdw pos _ =>
    s.dir = some fdr ∧ Whole s.files s.fresh (index ++ s.appended) fdr ∧
      Copied s.files s.fresh s.new s.selected fdr fdw pos
  | .ended fdr fdw =>
    s.dir = some fdr ∧ Whole s.files s.fresh (index ++ s.appended) fdr ∧
      Copied s.files s.fresh s.new s.selected fdr fdw (index ++ s.appended).length
  | .between fdr fdw =>
    s.old = some fdr ∧ Whole s.files s.fresh (index ++ s.appended) fdr ∧
      Copied s.files s.fresh s.new s.selected fdr fdw (index ++ s.appended).length ∧
        ∀ n, s.dir = some n → s.files n = []
  | .finished => ∃ n, s.dir = some n ∧ Has s.files s.selected (index ++ s.appended) n

theorem expireOk_start (index : List PostHeader) :
    ExpireOk index (start (ι := ι) index) (start (ι := ι) index).expire :=
  ⟨rfl, 0, rfl, Nat.zero_lt_one, (List.append_nil index).symm⟩

/-- What the file `.DIR` has, if `expire` is not between its renames. -/
theorem ExpireOk.dir {pc : ExpirePc} (I : ExpireOk index s pc)
    (hpc : ∀ fdr fdw, pc ≠ .between fdr fdw) :
    ∃ n, s.dir = some n ∧ Has s.files s.selected (index ++ s.appended) n := by
  cases pc with
  | start =>
    obtain ⟨-, n, hdir, hwhole⟩ := I
    exact ⟨n, hdir, hwhole.has _⟩
  | opened fdr | sized fdr total => exact ⟨fdr, I.2.1, I.2.2.has _⟩
  | reading fdr fdw pos total | ended fdr fdw => exact ⟨fdr, I.1, I.2.1.has _⟩
  | between fdr fdw => exact absurd rfl (hpc fdr fdw)
  | finished => exact I

theorem Has.append {files : Nat → List PostHeader} {selected all : List PostHeader} {n : Nat}
    (h : Has files selected all n) (r : PostHeader) :
    Has (Function.update files n (files n ++ [r])) selected (all ++ [r]) n := by
  unfold Has at h ⊢
  rw [Function.update_self]
  apply ((List.subperm_append_right [r]).mpr h).trans
  rw [List.append_assoc, List.append_assoc]
  exact (List.Perm.append_left _ List.perm_append_comm).subperm

/-- A record is written to the file that is `.DIR`. -/
theorem ExpireOk.write {pc : ExpirePc} (I : ExpireOk index s pc) {n : Nat} (hdir : s.dir = some n)
    (hpc : pc.renames = false) (r : PostHeader) :
    ExpireOk index
      { s with
        files := Function.update s.files n (s.files n ++ [r])
        appended := s.appended ++ [r] } pc := by
  have hn : ∀ {m}, s.dir = some m → m = n := fun hm => Option.some.inj (hm.symm.trans hdir)
  unfold ExpireOk at I ⊢
  dsimp only at I ⊢
  rw [← List.append_assoc]
  cases pc with
  | start =>
    obtain ⟨hsel, m, hm, hwhole⟩ := I
    obtain rfl := hn hm
    exact ⟨hsel, m, hm, hwhole.append r⟩
  | opened fdr | sized fdr total =>
    obtain ⟨hsel, hm, hwhole⟩ := I
    obtain rfl := hn hm
    exact ⟨hsel, hm, hwhole.append r⟩
  | reading fdr fdw pos total =>
    obtain ⟨hm, hwhole, hcopy⟩ := I
    obtain rfl := hn hm
    exact ⟨hm, hwhole.append r, hcopy.append r⟩
  | ended fdr fdw => cases hpc
  | between fdr fdw => cases hpc
  | finished =>
    obtain ⟨m, hm, hhas⟩ := I
    obtain rfl := hn hm
    exact ⟨m, hm, hhas.append r⟩

variable [DecidableEq ι]

theorem ExpireOk.step (I : ExpireOk index s s.expire) {e : ExpireEvent ι} (hok : s.MayStep e)
    (hs : s.step brd now e = some s') : ExpireOk index s' s'.expire := by
  cases e with
  | openDir i r =>
    simp only [ExpireState.step] at hs
    split at hs
    · split at hs
      · obtain rfl := Option.some.inj hs
        exact I
      · rename_i hdir
        obtain rfl := Option.some.inj hs
        cases hpc : s.expire with
        | between fdr fdw =>
          rw [hpc] at I
          obtain ⟨hold, hwhole, hcopy, -⟩ := I
          show ExpireOk index _ s.expire
          rw [hpc]
          refine ⟨hold, hwhole.create, hcopy.create hwhole.used, fun n hn => ?_⟩
          rw [← Option.some.inj hn]
          exact Function.update_self ..
        | _ =>
          obtain ⟨n, hn, -⟩ := I.dir (by rw [hpc]; nofun)
          rw [hdir] at hn
          cases hn
    · cases hs
  | lock i =>
    simp only [ExpireState.step] at hs
    split at hs
    · split at hs
      · obtain rfl := Option.some.inj hs
        exact I
      · cases hs
    · cases hs
  | write i ok =>
    simp only [ExpireState.step] at hs
    split at hs
    · rename_i n r hpc
      rw [MayStep, hpc] at hok
      obtain rfl := Option.some.inj hs
      split
      · rename_i hyes
        obtain ⟨hdir, hren⟩ := hok hyes
        exact I.write hdir hren r
      · exact I
    · cases hs
  | openIndex =>
    simp only [ExpireState.step] at hs
    split at hs
    · rename_i hpc
      rw [hpc] at I
      obtain ⟨hsel, n, hdir, hwhole⟩ := I
      rw [hdir] at hs
      exact Option.some.inj hs ▸ ⟨hsel, rfl, hwhole⟩
    · cases hs
  | fstat =>
    simp only [ExpireState.step] at hs
    split at hs
    · rename_i fdr hpc
      rw [hpc] at I
      exact Option.some.inj hs ▸ I
    · cases hs
  | create ok =>
    simp only [ExpireState.step] at hs
    split at hs
    · rename_i fdr total hpc
      rw [hpc] at I
      obtain ⟨hsel, hdir, hwhole⟩ := I
      obtain rfl := Option.some.inj hs
      split
      · refine ⟨hdir, hwhole.create, Nat.lt_succ_self _, rfl, Nat.ne_of_lt hwhole.used,
          Nat.zero_le _, ?_⟩
        rw [List.take_zero]
        dsimp only [setFile]
        rw [Function.update_self, hsel]
        exact .refl _
      · exact ⟨fdr, hdir, hwhole.has _⟩
    · cases hs
  | read ok =>
    simp only [ExpireState.step] at hs
    split at hs
    · rename_i fdr fdw pos total hpc
      rw [hpc] at I
      obtain ⟨hdir, hwhole, hcopy⟩ := I
      split at hs
      · rename_i hend
        obtain rfl := Option.some.inj hs
        have hpos : pos = (index ++ s.appended).length := by
          rw [← hwhole.content]
          exact Nat.le_antisymm hcopy.le (List.getElem?_eq_none_iff.mp hend)
        show ExpireOk index _ (if 0 < pos then .ended fdr fdw else .finished)
        split
        · exact ⟨hdir, hwhole, hpos ▸ hcopy⟩
        · exact ⟨fdr, hdir, hwhole.has _⟩
      · rename_i head hhead
        split at hs
        · obtain rfl := Option.some.inj hs
          split
          · exact ⟨hdir, hwhole.update hcopy.ne _, hcopy.keep hhead⟩
          · exact ⟨fdr, hdir, hwhole.has _⟩
        · exact Option.some.inj hs ▸ ⟨hdir, hwhole, hcopy.select hhead⟩
    · cases hs
  | renameOld ok =>
    simp only [ExpireState.step] at hs
    split at hs
    · rename_i fdr fdw hpc
      rw [hpc] at I
      obtain ⟨hdir, hwhole, hcopy⟩ := I
      rw [hdir] at hs
      cases ok with
      | true => exact Option.some.inj hs ▸ ⟨rfl, hwhole, hcopy, nofun⟩
      | false => exact Option.some.inj hs ▸ ⟨fdr, rfl, hwhole.has _⟩
    · cases hs
  | renameNew ok =>
    obtain rfl : ok = true := hok
    simp only [ExpireState.step] at hs
    split at hs
    · rename_i fdr fdw hpc
      rw [hpc] at I
      obtain ⟨hold, hwhole, hcopy, -⟩ := I
      rw [hcopy.new] at hs
      exact Option.some.inj hs ▸ ⟨fdw, rfl, Copied.has hwhole hcopy⟩
    · cases hs

/-- In every run of `expire` and any number of posters all of whose steps meet the condition: `.DIR`
exists and has every record that was there or that an `append_record` has appended, up to those that
`expire` has selected. Between the two renames only it is missing, or an empty file that a poster
has created; then `.DIR.old` has all records, and `.DIR.new` those not selected. -/
theorem expire_keeps (hs : Reach (step brd now) MayStep (start index) s) :
    ((∀ fdr fdw, s.expire ≠ .between fdr fdw) → ∃ n, s.dir = some n ∧
      (index ++ s.appended).Subperm (s.files n ++ s.selected)) ∧
    ∀ fdr fdw, s.expire = .between fdr fdw → (∀ n, s.dir = some n → s.files n = []) ∧
      s.old = some fdr ∧ s.files fdr = index ++ s.appended ∧
      s.new = some fdw ∧ (index ++ s.appended).Subperm (s.files fdw ++ s.selected) := by
  have I := hs.invariant (fun s => ExpireOk index s s.expire) (expireOk_start index)
    fun _ _ _ I hok hs => I.step hok hs
  refine ⟨I.dir, fun fdr fdw hpc => ?_⟩
  rw [hpc] at I
  obtain ⟨hold, hwhole, hcopy, hdir⟩ := I
  exact ⟨hdir, hold, hwhole.content, hcopy.new, Copied.has hwhole hcopy⟩

/-- Posts are kept for ten days, and a marked one longer. -/
def demoLife : Life := ⟨10, 2000, 0⟩

def demoPost (filename : String) (filetime : Int) (flag : BitVec 32) : PostHeader :=
  ⟨⟨⟨bytes filename, filetime⟩, flag⟩, bytes "guest"⟩

def demoBoard : ExpireState (Fin 2) :=
  start [demoPost "M.1.A" 1 0, demoPost "M.2.A" 2 fileMarked]

/-- A post is appended while `expire` reads, and another one when it has finished. -/
def demoExpire {ι : Type} (i j : ι) : List (ExpireEvent ι) :=
  [.openIndex, .fstat, .openDir i (demoPost "M.3.A" 1000000 0), .create true, .read true, .lock i,
    .write i true, .read true, .read true, .read true, .renameOld true, .renameNew true,
    .openDir j (demoPost "M.4.A" 1000001 0), .lock j, .write j true]

theorem expire_keeps_appended : ∃ s : ExpireState (Fin 2),
    (s.dir.map s.files).map (fun file => file.map (·.filename)) =
      some [bytes "M.2.A", bytes "M.3.A", bytes "M.4.A"] ∧
    ((∀ fdr fdw, s.expire ≠ .between fdr fdw) → ∃ n, s.dir = some n ∧
      ([demoPost "M.1.A" 1 0, demoPost "M.2.A" 2 fileMarked] ++ s.appended).Subperm
        (s.files n ++ s.selected)) := by
  have hrun : Reach.Meets (step demoLife 1000000) MayStep demoBoard (demoExpire 0 1) := by
    decide +kernel
  obtain ⟨s, hs, h⟩ := Reach.of_meets _ hrun
  have hend : ((demoExpire 0 1).foldlM (step demoLife 1000000) demoBoard).map
      (fun s => (s.dir.map s.files).map fun file => file.map (·.filename)) =
      some (some [bytes "M.2.A", bytes "M.3.A", bytes "M.4.A"]) := by decide +kernel
  rw [hs] at hend
  exact ⟨s, Option.some.inj hend, (expire_keeps h).1⟩

/-- A post is appended when `expire` has read the last one, before it renames the files. -/
def demoLost {ι : Type} (i : ι) : List (ExpireEvent ι) :=
  [.openIndex, .fstat, .create true, .read true, .read true, .read true,
    .openDir i (demoPost "M.3.A" 1000000 0), .lock i, .write i true, .renameOld true, .renameNew true]

theorem post_lost : ¬∀ s : ExpireState (Fin 2),
    Reach (step demoLife 1000000) (fun _ _ => True) demoBoard s →
      s.dir ≠ none ∧ (s.expire = .finished → ∃ n, s.dir = some n ∧
        ([demoPost "M.1.A" 1 0, demoPost "M.2.A" 2 fileMarked] ++ s.appended).Subperm
          (s.files n ++ s.selected)) := by
  intro hclaim
  have hrun : Reach.Meets (step demoLife 1000000) (fun _ _ => True) demoBoard (demoLost 0) := by
    decide +kernel
  obtain ⟨s, hs, h⟩ := Reach.of_meets _ hrun
  have hend : ((demoLost 0).foldlM (step demoLife 1000000) demoBoard).map
      (fun s => (decide (s.expire = .finished), s.dir.map s.files, s.appended, s.selected)) =
      some (true, some [demoPost "M.2.A" 2 fileMarked], [demoPost "M.3.A" 1000000 0],
        [demoPost "M.1.A" 1 0]) := by decide +kernel
  rw [hs] at hend
  obtain ⟨hpc, hrest⟩ := Prod.mk.inj (Option.some.inj hend)
  obtain ⟨hfile, hrest⟩ := Prod.mk.inj hrest
  obtain ⟨happended, hselected⟩ := Prod.mk.inj hrest
  obtain ⟨n, hn, hsub⟩ := (hclaim s h).2 (of_decide_eq_true hpc)
  rw [hn, Option.map_some] at hfile
  rw [Option.some.inj hfile, happended, hselected] at hsub
  exact absurd hsub.length_le (by decide)

end

end ExpireState

end ArgoBbs

import ArgoBbs.Lib.Keyed
import ArgoBbs.Permissions
import ArgoBbs.Lib.CString
import ArgoBbs.Record.Access
import Mathlib.Data.List.Dedup

/-! # The ballots of a poll

Any number of sessions vote in one poll with `user_vote` (`vote.c`), also several of one user. A
session looks for its user's ballot in the flag file, lets the user fill it in, looks again, and
appends the ballot or writes it over the one found. Only the single write is under a lock. -/

namespace ArgoBbs

inductive VoteType
  | yn
  | single
  | multi
  | value
  | asking
  deriving DecidableEq

/-- `LISTMASK`, `VOTEMASK`. -/
def listMask : BitVec 32 := permPostmask
def voteMask : BitVec 32 := permNozap

/-- `struct votebal`, as far as voters are concerned with it. -/
structure Votebal where
  type : VoteType
  maxtkt : Nat
  opendate : Int
  level : BitVec 32
  xLogins : Nat
  xPosts : Nat
  xStay : Nat
  xLive : Nat
  deriving DecidableEq

structure Ballot where
  uid : Bytes
  voted : Nat
  msg : List Bytes
  votehost : Bytes
  votetime : Int
  deriving DecidableEq

/-- `memset(&uservote, 0, sizeof(uservote))` -/
def Ballot.zero : Ballot := ⟨[], 0, [[], [], []], [], 0⟩

instance : Inhabited Ballot := ⟨.zero⟩

/-- What `user_vote` looks at of `currentuser`, and whether `vote.list` has the user. -/
structure Voter where
  userid : Bytes
  userlevel : BitVec 32
  firstlogin : Int
  numlogins : Nat
  numposts : Nat
  stay : Nat
  lasthost : Bytes
  listed : Bool

def Votebal.admits (v : Votebal) (u : Voter) : Bool :=
  let level := v.level &&& ~~~(listMask ||| voteMask)
  if v.opendate < u.firstlogin then false
  else if level ≠ 0 ∧ u.userlevel &&& level = 0 then false
  else if v.level &&& listMask ≠ 0 then u.listed
  else if v.level &&& voteMask ≠ 0 then
    -- The products are computed in 32 bits.
    !(u.numlogins < v.xLogins || u.numposts < v.xPosts || u.stay < v.xStay * 3600 % 2 ^ 32 ||
      v.opendate - (v.xLive * 86400 % 2 ^ 32 : Nat) < u.firstlogin)
  else true

/-- What the user enters: the choices; the last text for a number, which is within the bound or
empty; the three lines of advice. -/
structure Answer where
  choices : Nat
  value : Bytes
  sug : List Bytes

/-- The lines are read up to the first empty one; their number. -/
def getsug : List Bytes → List Bytes → List Bytes × Nat
  | t :: ts, _ :: ms =>
    if t = [] then (t :: ms, 0)
    else
      let (rest, n) := getsug ts ms
      (t :: rest, n + 1)
  | _, ms => (ms, 0)

/-- The ballot after the user has filled it in, unless this was broken off. -/
def Votebal.fill (v : Votebal) (u : Voter) (now : Int) (a : Answer) (b : Ballot) : Option Ballot :=
  match v.type with
  | .yn | .single | .multi =>
    if a.choices = b.voted then none
    else some { b with
      voted := a.choices, votehost := u.lasthost, votetime := now, msg := (getsug a.sug b.msg).1 }
  | .value =>
    let voted := (atoi a.value).natAbs
    if a.value = [] ∨ voted = b.voted then none
    else some { b with
      voted, votehost := u.lasthost, votetime := now, msg := (getsug a.sug b.msg).1 }
  | .asking =>
    let (msg, n) := getsug a.sug b.msg
    if n = 0 then none
    else some { b with voted := 0, msg, votehost := u.lasthost, votetime := now }

/-- What `count_result` does to the counters: 0 to 31 for the choices or the value, 32 for the
voters. -/
def Votebal.countResult (v : Votebal) (result : Nat → Nat) (b : Ballot) (i : Nat) : Nat :=
  let voters := if i = 32 then 1 else 0
  match v.type with
  | .asking => result i + voters
  | .value =>
    result i + voters + (if i = 31 then b.voted else 0) +
      (if i = b.voted * 10 / (v.maxtkt + 1) then 1 else 0)
  | .yn | .single | .multi => result i + voters + (if i < 32 ∧ b.voted.testBit i then 1 else 0)

/-- `apply_record(fname, count_result, ..)`, with the counters at 0. -/
def Votebal.tally (v : Votebal) (file : List Ballot) : Nat → Nat :=
  file.foldl v.countResult fun _ => 0

namespace Votebal
variable {v : Votebal} {file : List Ballot}

/-- In the poll the value of a ballot is not counted as a voter. -/
def Counts (v : Votebal) (file : List Ballot) : Prop :=
  v.type = .value → ∀ b ∈ file, b.voted ≤ v.maxtkt

theorem countResult_voters {result : Nat → Nat} {b : Ballot}
    (h : v.type = .value → b.voted ≤ v.maxtkt) : v.countResult result b 32 = result 32 + 1 := by
  simp only [countResult]
  cases htype : v.type with
  | value =>
    have hle := h htype
    have hindex : b.voted * 10 / (v.maxtkt + 1) < 32 := Nat.div_lt_of_lt_mul (by omega)
    dsimp only
    rw [if_pos trivial, if_neg (by decide), if_neg (by omega)]
  | _ => rfl

/-- Every ballot counts as one voter. -/
theorem tally_voters (h : v.Counts file) : v.tally file 32 = file.length := by
  have hfold : ∀ (file : List Ballot) (result : Nat → Nat), v.Counts file →
      file.foldl v.countResult result 32 = result 32 + file.length := by
    intro file
    induction file with
    | nil => exact fun _ _ => rfl
    | cons b file ih =>
      intro result hcounts
      rw [List.foldl_cons, ih _ fun ht c hc => hcounts ht c (List.mem_cons_of_mem b hc),
        countResult_voters fun ht => hcounts ht b List.mem_cons_self, List.length_cons]
      omega
  rw [tally, hfold file _ h]
  exact Nat.zero_add _

end Votebal

/-- Where a session is in `user_vote`: it has looked for the user's ballot; the user has filled it
in; it has looked again and appends, or overwrites the ballot with the number. -/
inductive VotePc
  | idle
  | filling (uservote : Ballot)
  | filled (uservote : Ballot)
  | appending (uservote : Ballot)
  | substituting (uservote : Ballot) (pos : Nat)

def VotePc.ballot? : VotePc → Option Ballot
  | .idle => none
  | .filling b | .filled b | .appending b | .substituting b _ => some b

/-- The flag file and the sessions; `cast` is the last ballot that a session of the user has
written. -/
structure Poll (ι : Type) where
  file : List Ballot
  procs : ι → VotePc
  cast : Bytes → Option Ballot

inductive VoteEvent (ι : Type)
  | begin (i : ι)
  | fill (i : ι) (now : Int) (a : Answer)
  | search (i : ι)
  | append (i : ι)
  | substitute (i : ι)
  | breakOff (i : ι)

namespace Poll
variable {ι : Type} {poll : Votebal} {voter : ι → Voter}

/-- The ballot of the user. -/
def find (file : List Ballot) (uid : Bytes) : Option Ballot := file.find? (·.uid = uid)

def start (ι : Type) (file : List Ballot) : Poll ι := ⟨file, fun _ => .idle, find file⟩

section
variable [DecidableEq ι]

def goTo (s : Poll ι) (i : ι) (pc : VotePc) : Poll ι :=
  { s with procs := Function.update s.procs i pc }

/-- The session has written the ballot. -/
def wrote (s : Poll ι) (i : ι) (uid : Bytes) (b : Ballot) (file : List Ballot) : Poll ι :=
  { s.goTo i .idle with file, cast := Function.update s.cast uid (some b) }

def step (poll : Votebal) (voter : ι → Voter) (s : Poll ι) : VoteEvent ι → Option (Poll ι)
  | .begin i =>
    match s.procs i with
    | .idle =>
      if poll.admits (voter i) then
        let uservote := match searchRecord (·.uid = (voter i).userid) s.file with
          | some (_, b) => b
          | none => .zero
        some (s.goTo i (.filling { uservote with uid := (voter i).userid }))
      else none
    | _ => none
  | .fill i now a =>
    match s.procs i with
    | .filling b =>
      match poll.fill (voter i) now a b with
      | some b => some (s.goTo i (.filled b))
      | none => some (s.goTo i .idle)
    | _ => none
  | .search i =>
    match s.procs i with
    | .filled b =>
      match searchRecord (·.uid = (voter i).userid) s.file with
      | some (pos, _) => some (s.goTo i (.substituting b pos))
      | none => some (s.goTo i (.appending b))
    | _ => none
  | .append i =>
    match s.procs i with
    | .appending b => some (s.wrote i (voter i).userid b (s.file ++ [b]))
    | _ => none
  | .substitute i =>
    match s.procs i with
    | .substituting b pos =>
      (substituteRecord pos b s.file).map (s.wrote i (voter i).userid b)
    | _ => none
  | .breakOff i => some (s.goTo i .idle)

end

/-- A ballot is appended only if the user has none in the file. -/
def MayAppend (s : Poll ι) : VoteEvent ι → Prop
  | .append i =>
    match s.procs i with
    | .appending b => ∀ c ∈ s.file, c.uid ≠ b.uid
    | _ => True
  | _ => True

instance (s : Poll ι) (e : VoteEvent ι) : Decidable (s.MayAppend e) := by
  unfold MayAppend
  split
  · split <;> infer_instance
  · infer_instance

/-- What holds as long as ballots are appended only for users without one. -/
structure VoteInv (voter : ι → Voter) (s : Poll ι) : Prop where
  nodup : (s.file.map Ballot.uid).Nodup
  cast : ∀ u b, s.cast u = some b ↔ b ∈ s.file ∧ b.uid = u
  own : ∀ i b, (s.procs i).ballot? = some b → b.uid = (voter i).userid
  pos : ∀ i b pos, s.procs i = .substituting b pos →
    ∃ c, getRecord pos s.file = some c ∧ c.uid = b.uid

section
variable {s s' : Poll ι} {i : ι} {b c : Ballot} {pc : VotePc} {file : List Ballot} {u : Bytes}

theorem voteInv_start (h : (file.map Ballot.uid).Nodup) : VoteInv voter (start ι file) :=
  ⟨h, fun _ _ => find?_eq_some_iff_key h, nofun, nofun⟩

/-- What stands under a number keeps its user when a ballot is overwritten by one of the same user.
-/
theorem getRecord_set {file : List Ballot} {id : Int} {n : Nat} (h : getRecord id file = some c)
    {old : Ballot} (hn : file[n]? = some old) (hb : b.uid = old.uid) :
    ∃ c', getRecord id (file.set n b) = some c' ∧ c'.uid = c.uid := by
  obtain ⟨hpos, hc⟩ := getRecord_some h
  obtain ⟨hlt, -⟩ := List.getElem?_eq_some_iff.mp hn
  rw [getRecord, if_neg (by omega)]
  by_cases heq : n = id.toNat - 1
  · subst heq
    rw [hn] at hc
    cases hc
    exact ⟨b, List.getElem?_set_self hlt, hb⟩
  · exact ⟨c, by rw [List.getElem?_set_ne heq, hc], rfl⟩

variable [DecidableEq ι]

/-- A session goes on in `user_vote`. -/
theorem VoteInv.goTo (I : VoteInv voter s) (hown : ∀ b, pc.ballot? = some b → b.uid = (voter i).userid)
    (hpos : ∀ b pos, pc = .substituting b pos →
      ∃ c, getRecord pos s.file = some c ∧ c.uid = b.uid) : VoteInv voter (s.goTo i pc) where
  nodup := I.nodup
  cast := I.cast
  own := (Function.forall_update_iff s.procs (p := fun j pc =>
    ∀ b, pc.ballot? = some b → b.uid = (voter j).userid)).mpr ⟨hown, fun j _ => I.own j⟩
  pos := (Function.forall_update_iff s.procs (p := fun _ pc => ∀ b pos, pc = .substituting b pos →
    ∃ c, getRecord pos s.file = some c ∧ c.uid = b.uid)).mpr ⟨hpos, fun j _ => I.pos j⟩

/-- A ballot is written: the others stay as they are. -/
theorem VoteInv.wrote (I : VoteInv voter s) (hb : b.uid = u)
    (hnodup : (file.map Ballot.uid).Nodup)
    (hmem : ∀ c, c ∈ file ↔ c = b ∨ c ∈ s.file ∧ c.uid ≠ b.uid)
    (hpos : ∀ pos c, getRecord pos s.file = some c →
      ∃ c', getRecord pos file = some c' ∧ c'.uid = c.uid) :
    VoteInv voter (s.wrote i u b file) := by
  have I' : VoteInv voter (s.goTo i .idle) := I.goTo nofun nofun
  refine ⟨hnodup, fun v c => ?_, I'.own, fun j c pos hj => ?_⟩
  · change Function.update s.cast u (some b) v = some c ↔ c ∈ file ∧ c.uid = v
    rw [hmem]
    by_cases hv : v = u
    · subst hv
      rw [Function.update_self]
      constructor
      · intro h
        cases h
        exact ⟨.inl rfl, hb⟩
      · rintro ⟨rfl | ⟨-, hne⟩, hc⟩
        · rfl
        · exact absurd (hc.trans hb.symm) hne
    · rw [Function.update_of_ne hv, I.cast]
      constructor
      · rintro ⟨hc, rfl⟩
        exact ⟨.inr ⟨hc, fun heq => hv (heq.trans hb)⟩, rfl⟩
      · rintro ⟨rfl | ⟨hc, -⟩, rfl⟩
        · exact absurd hb hv
        · exact ⟨hc, rfl⟩
  · obtain ⟨d, hd, huid⟩ := I'.pos j c pos hj
    obtain ⟨d', hd', huid'⟩ := hpos pos d hd
    exact ⟨d', hd', huid'.trans huid⟩

theorem Votebal.fill_uid {v : Votebal} {w : Voter} {now : Int} {a : Answer}
    (h : v.fill w now a b = some c) : c.uid = b.uid := by
  unfold Votebal.fill at h
  split at h <;> (try dsimp only at h) <;> split at h
  all_goals first
    | (cases h; done)
    | (rw [← Option.some.inj h])

/-! What each step does. -/

theorem begin_some (h : s.step poll voter (.begin i) = some s') :
    ∃ old : Ballot, (old ∈ s.file ∨ old = .zero) ∧
      s' = s.goTo i (.filling { old with uid := (voter i).userid }) := by
  simp only [step] at h
  split at h
  · split at h
    · refine ⟨_, ?_, (Option.some.inj h).symm⟩
      split
      · rename_i pos b hsearch
        exact .inl (List.mem_of_getElem? (searchRecord_some hsearch).2.1)
      · exact .inr rfl
    · cases h
  · cases h

theorem fill_some {now : Int} {a : Answer} (h : s.step poll voter (.fill i now a) = some s') :
    ∃ b, s.procs i = .filling b ∧
      ((∃ c, poll.fill (voter i) now a b = some c ∧ s' = s.goTo i (.filled c)) ∨
        s' = s.goTo i .idle) := by
  simp only [step] at h
  split at h
  · rename_i b hpc
    refine ⟨b, hpc, ?_⟩
    split at h
    · rename_i c hfill
      exact .inl ⟨c, hfill, (Option.some.inj h).symm⟩
    · exact .inr (Option.some.inj h).symm
  · cases h

theorem search_some (h : s.step poll voter (.search i) = some s') :
    ∃ b, s.procs i = .filled b ∧
      ((∃ pos c, searchRecord (·.uid = (voter i).userid) s.file = some (pos, c) ∧
        s' = s.goTo i (.substituting b pos)) ∨ s' = s.goTo i (.appending b)) := by
  simp only [step] at h
  split at h
  · rename_i b hpc
    refine ⟨b, hpc, ?_⟩
    split at h
    · rename_i pos c hsearch
      exact .inl ⟨pos, c, hsearch, (Option.some.inj h).symm⟩
    · exact .inr (Option.some.inj h).symm
  · cases h

theorem append_some (h : s.step poll voter (.append i) = some s') :
    ∃ b, s.procs i = .appending b ∧ s' = s.wrote i (voter i).userid b (s.file ++ [b]) := by
  simp only [step] at h
  split at h
  · rename_i b hpc
    exact ⟨b, hpc, (Option.some.inj h).symm⟩
  · cases h

theorem substitute_some (h : s.step poll voter (.substitute i) = some s') :
    ∃ b pos file, s.procs i = .substituting b pos ∧ substituteRecord pos b s.file = some file ∧
      s' = s.wrote i (voter i).userid b file := by
  simp only [step] at h
  split at h
  · rename_i b pos hpc
    obtain ⟨file, hfile, rfl⟩ := Option.map_eq_some_iff.mp h
    exact ⟨b, pos, file, hpc, hfile, rfl⟩
  · cases h

theorem VoteInv.step (I : VoteInv voter s) {e : VoteEvent ι} (hok : s.MayAppend e)
    (h : s.step poll voter e = some s') : VoteInv voter s' := by
  cases e with
  | begin i =>
    obtain ⟨old, -, rfl⟩ := begin_some h
    refine I.goTo (fun b hb => ?_) nofun
    cases hb
    rfl
  | fill i now a =>
    obtain ⟨b, hpc, ⟨c, hfill, rfl⟩ | rfl⟩ := fill_some h
    · refine I.goTo (fun d hd => ?_) nofun
      cases hd
      exact (Votebal.fill_uid hfill).trans (I.own i b (by rw [hpc]; rfl))
    · exact I.goTo nofun nofun
  | search i =>
    obtain ⟨b, hpc, hgo⟩ := search_some h
    have hown := I.own i b (by rw [hpc]; rfl)
    have hsame (c : Ballot) (hc : some b = some c) : c.uid = (voter i).userid :=
      Option.some.inj hc ▸ hown
    obtain ⟨pos, c, hsearch, rfl⟩ | rfl := hgo
    · obtain ⟨hpos, hc, huid⟩ := searchRecord_some hsearch
      refine I.goTo hsame fun d p hd => ?_
      cases hd
      refine ⟨c, ?_, (of_decide_eq_true huid).trans hown.symm⟩
      rw [getRecord, if_neg (by omega), Int.toNat_natCast, hc]
    · refine I.goTo hsame fun d p hd => ?_
      cases hd
  | append i =>
    obtain ⟨b, hpc, rfl⟩ := append_some h
    rw [MayAppend, hpc] at hok
    have hfresh : ∀ c ∈ s.file, c.uid ≠ b.uid := hok
    refine I.wrote (I.own i b (by rw [hpc]; rfl)) ?_ (fun c => ?_) fun pos c hc =>
      ⟨c, getRecord_append hc b, rfl⟩
    · rw [List.map_append, List.map_cons, List.map_nil]
      refine List.nodup_append.mpr ⟨I.nodup, List.nodup_singleton _, fun x hx y hy => ?_⟩
      obtain ⟨c, hc, rfl⟩ := List.mem_map.mp hx
      rw [List.mem_singleton.mp hy]
      exact hfresh c hc
    · rw [List.mem_append, List.mem_singleton]
      constructor
      · rintro (hc | rfl)
        · exact .inr ⟨hc, hfresh c hc⟩
        · exact .inl rfl
      · rintro (rfl | ⟨hc, -⟩)
        · exact .inr rfl
        · exact .inl hc
  | substitute i =>
    obtain ⟨b, pos, file, hpc, hfile, rfl⟩ := substitute_some h
    obtain ⟨old, hold, huid⟩ := I.pos i b pos hpc
    obtain ⟨-, hn⟩ := getRecord_some hold
    rw [substituteRecord_set hold] at hfile
    obtain rfl := Option.some.inj hfile
    refine I.wrote (I.own i b (by rw [hpc]; rfl)) ?_ (fun c => ?_) fun p c hc =>
      getRecord_set hc hn huid.symm
    · rw [map_key_set hn huid.symm]
      exact I.nodup
    · rw [mem_set_iff_key I.nodup hn, huid]
  | breakOff i => exact Option.some.inj h ▸ I.goTo nofun nofun

/-- A poll with several choices, open to all; two sessions of one user and one of another. -/
def demoPoll : Votebal := ⟨.multi, 0, 1000, 0, 0, 0, 0, 0⟩

def demoVoter (i : Fin 3) : Voter :=
  ⟨if i = 2 then bytes "Bob" else bytes "Ann", 1, 0, 10, 0, 3600, bytes "a.site", false⟩

/-- The user votes for the choices. -/
def demoVote (i : Fin 3) (choices : Nat) : List (VoteEvent (Fin 3)) :=
  [.begin i, .fill i 2000 ⟨choices, [], []⟩, .search i]

/-- The second session of the user looks again after the first one has appended the ballot. -/
def demoVotes : List (VoteEvent (Fin 3)) :=
  demoVote 0 1 ++ [.append 0] ++ demoVote 2 2 ++ [.append 2] ++ demoVote 1 3 ++ [.substitute 1]

/-- Both sessions of the user look before one of them has appended the ballot. -/
def demoTwice : List (VoteEvent (Fin 3)) :=
  demoVote 0 1 ++ demoVote 1 2 ++ [.append 0, .append 1]

end

end Poll

end ArgoBbs

import ArgoBbs.Board.Ballots

/-! # Polls for a value

In a poll of the kind `VOTE_VALUE` a user votes with a number up to a maximum (`valuevote`), and the
board manager can change the maximum while the poll is open (`makevote`). `mk_result` prints how
many of the numbers lie in each tenth up to the maximum; the counters of the tenths are those of
`count_result` (`vote.c`). -/

namespace ArgoBbs

/-- The loop of `valuevote`: the text that is taken of those typed in, each of four characters at
most. -/
def valuevote (maxtkt : Nat) : List Bytes → Option Bytes
  | [] => none
  | buf :: bufs =>
    if 4 < buf.length then none
    else if maxtkt < (atoi buf).natAbs ∧ buf ≠ [] then valuevote maxtkt bufs
    else some buf

/-- What `makevote` makes of the text typed in for the maximum. -/
def makevoteMaxtkt (buf : Bytes) : Nat := if atoi buf ≤ 0 then 100 else (atoi buf).toNat

/-- The range that `mk_result` prints for a counter. -/
def printedRange (maxtkt i : Nat) : Nat × Nat :=
  (i * maxtkt / 10 + (if i = 0 then 0 else 1), (i + 1) * maxtkt / 10)

/-- The control file and the flag file with the sessions; `currvote` is what a session has read of
the control file. -/
structure ValuePoll (ι : Type) where
  poll : Votebal
  votes : Poll ι
  currvote : ι → Votebal

/-- A step of `user_vote`, where the number is typed in with `valuevote`, and the `M` command of
`vote_key`; without a text `makevote` is broken off. -/
inductive ValuePollEvent (ι : Type)
  | vote (e : VoteEvent ι)
  | valuevote (i : ι) (now : Int) (bufs : List Bytes) (sug : List Bytes)
  | modify (buf : Option Bytes)

namespace ValuePoll
variable {ι : Type}

def start (ι : Type) (poll : Votebal) : ValuePoll ι := ⟨poll, .start ι [], fun _ => poll⟩

/-- A counter of `result` of those for the tenths is incremented for the ballot, the one with the
value in the range that is printed for it; and the sum and the number of voters. -/
def CountsInRange (v : Votebal) (b : Ballot) : Prop :=
  ∃ i < 10, (printedRange v.maxtkt i).1 ≤ b.voted ∧ b.voted ≤ (printedRange v.maxtkt i).2 ∧
    ∀ result, v.countResult result b = fun k => result k + (if k = i then 1 else 0) +
      (if k = 31 then b.voted else 0) + if k = 32 then 1 else 0

def Counted (s : ValuePoll ι) : Prop := ∀ b ∈ s.votes.file, CountsInRange s.poll b

/-- The value is within the maximum, and ten times the value is not between a multiple of the
maximum and the same one of the number behind it. -/
def InTenth (maxtkt voted : Nat) : Prop :=
  voted ≤ maxtkt ∧ ∀ j, ¬(j * maxtkt < 10 * voted ∧ 10 * voted < j * (maxtkt + 1))

section
variable [DecidableEq ι] {voter : ι → Voter}

def step (voter : ι → Voter) (s : ValuePoll ι) : ValuePollEvent ι → Option (ValuePoll ι)
  | .vote (.begin i) =>
    (s.votes.step s.poll voter (.begin i)).map fun votes =>
      { s with votes, currvote := Function.update s.currvote i s.poll }
  | .vote (.fill ..) => none
  | .vote e => (s.votes.step s.poll voter e).map fun votes => { s with votes }
  | .valuevote i now bufs sug =>
    match ArgoBbs.valuevote (s.currvote i).maxtkt bufs with
    | some value =>
      (s.votes.step (s.currvote i) voter (.fill i now ⟨0, value, sug⟩)).map fun votes =>
        { s with votes }
    | none => none
  | .modify buf =>
    match buf with
    | some buf =>
      if 3 < buf.length then none
      else some { s with poll := { s.poll with maxtkt := makevoteMaxtkt buf } }
    | none => some s

end

/-! ## The counter and the range -/

section
variable {v : Votebal} {b : Ballot} {maxtkt voted : Nat}

theorem countsInRange_iff (htype : v.type = .value) :
    CountsInRange v b ↔ InTenth v.maxtkt b.voted := by
  have hcounter (result : Nat → Nat) (k : Nat) : v.countResult result b k =
      result k + (if k = b.voted * 10 / (v.maxtkt + 1) then 1 else 0) +
        (if k = 31 then b.voted else 0) + if k = 32 then 1 else 0 := by
    rw [Votebal.countResult, htype]
    dsimp only
    omega
  have hle := Nat.div_mul_le_self (b.voted * 10) (v.maxtkt + 1)
  constructor
  · rintro ⟨i, hi, -, hhi, hcount⟩
    have heq : i = b.voted * 10 / (v.maxtkt + 1) := by
      have hone := congrFun (hcount fun _ => 0) i
      rw [hcounter, if_pos rfl] at hone
      by_contra hne
      rw [if_neg hne] at hone
      omega
    rw [← heq] at hle
    have hhi : b.voted * 10 ≤ (i + 1) * v.maxtkt :=
      (Nat.le_div_iff_mul_le (by decide)).mp hhi
    refine ⟨?_, fun j hbetween => ?_⟩
    · have hten : (i + 1) * v.maxtkt ≤ 10 * v.maxtkt := Nat.mul_le_mul_right _ hi
      omega
    · obtain ⟨hj, hj'⟩ := hbetween
      cases Nat.lt_or_ge i j with
      | inl hij =>
        have hmul : (i + 1) * v.maxtkt ≤ j * v.maxtkt := Nat.mul_le_mul_right _ hij
        omega
      | inr hij =>
        have hmul : j * (v.maxtkt + 1) ≤ i * (v.maxtkt + 1) := Nat.mul_le_mul_right _ hij
        omega
  · rintro ⟨hmax, hbetween⟩
    have hlt := Nat.lt_mul_div_succ (b.voted * 10) (Nat.succ_pos v.maxtkt)
    have hten : b.voted * 10 / (v.maxtkt + 1) < 10 := Nat.div_lt_of_lt_mul (by omega)
    obtain ⟨i, hi⟩ : ∃ i, b.voted * 10 / (v.maxtkt + 1) = i := ⟨_, rfl⟩
    simp only [Nat.succ_eq_add_one, hi] at hcounter hle hlt hten
    rw [Nat.mul_comm (v.maxtkt + 1)] at hlt
    refine ⟨i, hten, ?_, ?_, fun result => funext (hcounter result)⟩
    · dsimp only [printedRange]
      split
      case isTrue hzero =>
        rw [hzero, Nat.zero_mul, Nat.zero_div]
        exact Nat.zero_le _
      case isFalse hpos =>
        apply Nat.succ_le_of_lt
        rw [Nat.div_lt_iff_lt_mul (by decide)]
        rw [Nat.mul_succ] at hle
        omega
    · apply (Nat.le_div_iff_mul_le (by decide)).mpr
      have hnot := hbetween (i + 1)
      omega

/-- Every value up to the maximum is counted in its tenth just if the last digit of the maximum is 0
or 9. -/
theorem inTenth_all_iff :
    (∀ voted ≤ maxtkt, InTenth maxtkt voted) ↔ maxtkt % 10 = 0 ∨ maxtkt % 10 = 9 := by
  obtain ⟨q, r, hr, rfl⟩ : ∃ q r, r < 10 ∧ maxtkt = 10 * q + r :=
    ⟨maxtkt / 10, maxtkt % 10, Nat.mod_lt _ (by decide), (Nat.div_add_mod _ _).symm⟩
  constructor
  · intro h
    have hbetween := (h (9 * q + r) (by omega)).2 9
    omega
  · refine fun hdigit voted hvoted => ⟨hvoted, fun j ⟨hj, hj'⟩ => ?_⟩
    have hlt : j < 10 := by
      apply Nat.lt_of_mul_lt_mul_right (a := 10 * q + r)
      omega
    have hr : r = 0 ∨ r = 9 := by omega
    have hmul : j * (10 * q) = 10 * (j * q) := Nat.mul_left_comm j 10 q
    rw [Nat.mul_add] at hj
    rw [Nat.mul_succ, Nat.mul_add] at hj'
    obtain rfl | rfl := hr <;> omega

end

/-! ## The runs -/

section
variable {P : Nat → Prop} {s s' : Poll ι} {i : ι} {pc : VotePc} {b : Ballot} {file : List Ballot}

/-- The values of all ballots, in the file and with the sessions. -/
def AllVoted (P : Nat → Prop) (s : Poll ι) : Prop :=
  (∀ b ∈ s.file, P b.voted) ∧ ∀ i b, (s.procs i).ballot? = some b → P b.voted

theorem busy_of_eq (hpc : s.procs i = pc) (hne : pc ≠ .idle) : s.procs i ≠ .idle := hpc ▸ hne

variable [DecidableEq ι] {voter : ι → Voter} {poll : Votebal}

theorem AllVoted.goTo (I : AllVoted P s) (hpc : ∀ b, pc.ballot? = some b → P b.voted) :
    AllVoted P (s.goTo i pc) :=
  ⟨I.1, (Function.forall_update_iff s.procs (p := fun _ pc =>
    ∀ b, pc.ballot? = some b → P b.voted)).mpr ⟨hpc, fun j _ => I.2 j⟩⟩

theorem AllVoted.idle (I : AllVoted P s) : AllVoted P (s.goTo i .idle) :=
  I.goTo fun b hb => by cases hb

theorem AllVoted.wrote (I : AllVoted P s) (hzero : P 0)
    (hfile : ∀ c ∈ file, c = b ∨ c ∈ s.file ∨ c = .zero) (hb : P b.voted) {uid : Bytes} :
    AllVoted P (s.wrote i uid b file) := by
  refine ⟨fun c hc => ?_, (I.idle (i := i)).2⟩
  obtain rfl | hc | rfl := hfile c hc
  · exact hb
  · exact I.1 c hc
  · exact hzero

/-- `substitute_record` changes one record, or appends it behind empty ones. -/
theorem mem_substituteRecord {id : Int} {old : List Ballot} {c : Ballot}
    (h : substituteRecord id b old = some file) (hc : c ∈ file) :
    c = b ∨ c ∈ old ∨ c = .zero := by
  rw [substituteRecord] at h
  split at h
  · cases h
  · split at h
    all_goals rw [← Option.some.inj h] at hc
    · obtain hc | rfl := List.mem_or_eq_of_mem_set hc
      · exact .inr (.inl hc)
      · exact .inl rfl
    · rw [List.mem_append, List.mem_singleton] at hc
      obtain hc | rfl := hc
      · have hc := List.mem_of_mem_take hc
        rw [List.mem_append, List.mem_replicate] at hc
        obtain hc | ⟨-, rfl⟩ := hc
        · exact .inr (.inl hc)
        · exact .inr (.inr rfl)
      · exact .inl rfl

/-- A new value comes from `fill` only. -/
theorem AllVoted.step {e : VoteEvent ι} (I : AllVoted P s) (hzero : P 0)
    (hfill : ∀ i now a b c, e = .fill i now a → poll.fill (voter i) now a b = some c → P c.voted)
    (h : s.step poll voter e = some s') : AllVoted P s' := by
  cases e with
  | begin i =>
    obtain ⟨old, hold, rfl⟩ := Poll.begin_some h
    refine I.goTo fun b hb => ?_
    cases hb
    obtain hold | rfl := hold
    · exact I.1 old hold
    · exact hzero
  | fill i now a =>
    obtain ⟨b, -, ⟨c, hc, rfl⟩ | rfl⟩ := Poll.fill_some h
    · refine I.goTo fun d hd => ?_
      cases hd
      exact hfill i now a b c rfl hc
    · exact I.idle
  | search i =>
    obtain ⟨b, hpc, hgo⟩ := Poll.search_some h
    have hb := I.2 i b (by rw [hpc]; rfl)
    obtain ⟨pos, c, -, rfl⟩ | rfl := hgo
    all_goals
      refine I.goTo fun d hd => ?_
      cases hd
      exact hb
  | append i =>
    obtain ⟨b, hpc, rfl⟩ := Poll.append_some h
    refine I.wrote hzero (fun c hc => ?_) (I.2 i b (by rw [hpc]; rfl))
    obtain hc | hc := List.mem_append.mp hc
    · exact .inr (.inl hc)
    · exact .inl (List.mem_singleton.mp hc)
  | substitute i =>
    obtain ⟨b, pos, file, hpc, hfile, rfl⟩ := Poll.substitute_some h
    exact I.wrote hzero (fun c => mem_substituteRecord hfile) (I.2 i b (by rw [hpc]; rfl))
  | breakOff i => exact Option.some.inj h ▸ I.idle

theorem goTo_busy {j : ι} (hi : s.procs i ≠ .idle) (hj : (s.goTo i pc).procs j ≠ .idle) :
    s.procs j ≠ .idle := by
  by_cases heq : j = i
  · exact heq ▸ hi
  · change Function.update s.procs i pc j ≠ .idle at hj
    rwa [Function.update_of_ne heq] at hj

theorem fill_busy {i : ι} {now : Int} {a : Answer} (h : s.step poll voter (.fill i now a) = some s') :
    s.procs i ≠ .idle := by
  obtain ⟨b, hpc, -⟩ := Poll.fill_some h
  exact busy_of_eq hpc VotePc.noConfusion

/-- A session that goes on has started before. -/
theorem step_busy {e : VoteEvent ι} {j : ι} (h : s.step poll voter e = some s')
    (hbegin : ∀ i, e = .begin i → i ≠ j) (hj : s'.procs j ≠ .idle) : s.procs j ≠ .idle := by
  cases e with
  | begin i =>
    obtain ⟨old, -, rfl⟩ := Poll.begin_some h
    change Function.update s.procs i _ j ≠ .idle at hj
    rwa [Function.update_of_ne (hbegin i rfl).symm] at hj
  | fill i now a =>
    have hi := fill_busy h
    obtain ⟨b, -, ⟨c, -, rfl⟩ | rfl⟩ := Poll.fill_some h
    · exact goTo_busy hi hj
    · exact goTo_busy hi hj
  | search i =>
    obtain ⟨b, hpc, hgo⟩ := Poll.search_some h
    have hi := busy_of_eq hpc VotePc.noConfusion
    obtain ⟨pos, c, -, rfl⟩ | rfl := hgo
    · exact goTo_busy hi hj
    · exact goTo_busy hi hj
  | append i =>
    obtain ⟨b, hpc, rfl⟩ := Poll.append_some h
    have hi := busy_of_eq hpc VotePc.noConfusion
    exact goTo_busy hi (show (s.goTo i .idle).procs j ≠ .idle from hj)
  | substitute i =>
    obtain ⟨b, pos, file, hpc, -, rfl⟩ := Poll.substitute_some h
    have hi := busy_of_eq hpc VotePc.noConfusion
    exact goTo_busy hi (show (s.goTo i .idle).procs j ≠ .idle from hj)
  | breakOff i =>
    rw [← Option.some.inj h] at hj
    change Function.update s.procs i .idle j ≠ .idle at hj
    by_cases heq : j = i
    · rw [heq, Function.update_self] at hj
      exact absurd rfl hj
    · rwa [Function.update_of_ne heq] at hj

theorem valuevote_some {maxtkt : Nat} {bufs : List Bytes} {buf : Bytes}
    (h : ArgoBbs.valuevote maxtkt bufs = some buf) : (atoi buf).natAbs ≤ maxtkt ∨ buf = [] := by
  induction bufs with
  | nil => cases h
  | cons first bufs ih =>
    rw [ArgoBbs.valuevote] at h
    split at h
    · cases h
    · split at h
      · exact ih h
      · rename_i hend
        rw [← Option.some.inj h]
        obtain hle | hnil := Classical.not_and_iff_not_or_not.mp hend
        · exact .inl (Nat.not_lt.mp hle)
        · exact .inr (Classical.not_not.mp hnil)

/-- The value of a ballot that is filled in is the number typed in. -/
theorem fill_value {v : Votebal} {u : Voter} {now : Int} {a : Answer} {b c : Ballot}
    (htype : v.type = .value) (h : v.fill u now a b = some c) :
    a.value ≠ [] ∧ c.voted = (atoi a.value).natAbs := by
  rw [Votebal.fill, htype] at h
  dsimp only at h
  split at h
  · cases h
  · rename_i hvalue
    rw [← Option.some.inj h]
    exact ⟨fun hnil => hvalue (.inl hnil), rfl⟩

end

section
variable [DecidableEq ι] {voter : ι → Voter} {s s' : ValuePoll ι} {poll : Votebal}

/-- The maximum holds for all ballots and for the sessions. -/
structure Within (s : ValuePoll ι) (maxtkt : Nat) : Prop where
  voted : AllVoted (· ≤ maxtkt) s.votes
  currvote : ∀ i, s.votes.procs i ≠ .idle → (s.currvote i).maxtkt ≤ maxtkt

/-- A new maximum ends with 0 or 9, and is not less than a number that a user has voted with or may
still enter. -/
def KeepsCount (s : ValuePoll ι) : ValuePollEvent ι → Prop
  | .modify (some buf) =>
    (makevoteMaxtkt buf % 10 = 0 ∨ makevoteMaxtkt buf % 10 = 9) ∧ s.Within (makevoteMaxtkt buf)
  | _ => True

structure CountInv (s : ValuePoll ι) : Prop where
  type : s.poll.type = .value ∧ ∀ i, (s.currvote i).type = .value
  digit : s.poll.maxtkt % 10 = 0 ∨ s.poll.maxtkt % 10 = 9
  within : s.Within s.poll.maxtkt

/-- What a step of `user_vote` changes. -/
theorem step_vote {e : VoteEvent ι} (h : s.step voter (.vote e) = some s') :
    ∃ votes currvote, s.votes.step s.poll voter e = some votes ∧
      (∀ i now a, e ≠ .fill i now a) ∧
        (∀ j, currvote j = s.poll ∨ currvote j = s.currvote j ∧
          (votes.procs j ≠ .idle → s.votes.procs j ≠ .idle)) ∧
          s' = { s with votes, currvote } := by
  cases e with
  | fill => cases h
  | begin i =>
    obtain ⟨votes, hvotes, rfl⟩ := Option.map_eq_some_iff.mp h
    refine ⟨votes, _, hvotes, nofun, fun j => ?_, rfl⟩
    by_cases hj : j = i
    · exact .inl (hj ▸ Function.update_self ..)
    · refine .inr ⟨Function.update_of_ne hj .., fun hbusy => ?_⟩
      exact step_busy hvotes (fun k hk heq => hj (heq ▸ VoteEvent.begin.inj hk).symm) hbusy
  | _ =>
    dsimp only [step] at h
    obtain ⟨votes, hvotes, rfl⟩ := Option.map_eq_some_iff.mp h
    exact ⟨votes, _, hvotes, nofun, fun j => .inr ⟨rfl, step_busy hvotes nofun⟩, rfl⟩

theorem step_valuevote {i : ι} {now : Int} {bufs sug : List Bytes}
    (h : s.step voter (.valuevote i now bufs sug) = some s') :
    ∃ value votes, ArgoBbs.valuevote (s.currvote i).maxtkt bufs = some value ∧
      s.votes.step (s.currvote i) voter (.fill i now ⟨0, value, sug⟩) = some votes ∧
        s' = { s with votes } := by
  dsimp only [step] at h
  split at h
  · rename_i value hvalue
    obtain ⟨votes, hvotes, rfl⟩ := Option.map_eq_some_iff.mp h
    exact ⟨value, votes, hvalue, hvotes, rfl⟩
  · cases h

theorem step_modify {buf : Option Bytes} (h : s.step voter (.modify buf) = some s') :
    s' = s ∨ ∃ text, buf = some text ∧
      s' = { s with poll := { s.poll with maxtkt := makevoteMaxtkt text } } := by
  cases buf with
  | none => exact .inl (Option.some.inj h).symm
  | some text =>
    dsimp only [step] at h
    split at h
    · cases h
    · exact .inr ⟨text, rfl, (Option.some.inj h).symm⟩

theorem step_type {e : ValuePollEvent ι} (h : s.step voter e = some s') :
    s'.poll.type = s.poll.type := by
  cases e with
  | vote e =>
    obtain ⟨votes, currvote, -, -, -, rfl⟩ := step_vote h
    rfl
  | valuevote =>
    obtain ⟨value, votes, -, -, rfl⟩ := step_valuevote h
    rfl
  | modify =>
    obtain rfl | ⟨text, -, rfl⟩ := step_modify h <;> rfl

theorem CountInv.step {e : ValuePollEvent ι} (I : CountInv s) (hok : s.KeepsCount e)
    (h : s.step voter e = some s') : CountInv s' := by
  obtain ⟨⟨htype, hcurrvote⟩, hdigit, W⟩ := I
  cases e with
  | vote e =>
    obtain ⟨votes, currvote, hvotes, hfill, hread, rfl⟩ := step_vote h
    have hall : AllVoted (· ≤ s.poll.maxtkt) votes :=
      W.voted.step (Nat.zero_le _) (fun i now a _ _ he => absurd he (hfill i now a)) hvotes
    refine ⟨⟨htype, fun j => ?_⟩, hdigit, hall, fun j hj => ?_⟩
    all_goals
      dsimp only
      obtain heq | ⟨heq, hbusy⟩ := hread j
      all_goals rw [heq]
    · exact htype
    · exact hcurrvote j
    · exact W.currvote j (hbusy hj)
  | valuevote i now bufs sug =>
    obtain ⟨value, votes, hvalue, hvotes, rfl⟩ := step_valuevote h
    have hbusy (j : ι) (hj : votes.procs j ≠ .idle) : s.votes.procs j ≠ .idle :=
      step_busy hvotes nofun hj
    have hall : AllVoted (· ≤ s.poll.maxtkt) votes := by
      refine W.voted.step (Nat.zero_le _) (fun j now' a b c he hc => ?_) hvotes
      cases he
      obtain ⟨hnonempty, hvoted⟩ := fill_value (hcurrvote i) hc
      have hmax := W.currvote i (fill_busy hvotes)
      have hle := (valuevote_some hvalue).resolve_right hnonempty
      dsimp only at hvoted
      omega
    exact ⟨⟨htype, hcurrvote⟩, hdigit, hall, fun j hj => W.currvote j (hbusy j hj)⟩
  | modify buf =>
    obtain rfl | ⟨text, rfl, rfl⟩ := step_modify h
    · exact ⟨⟨htype, hcurrvote⟩, hdigit, W⟩
    · obtain ⟨hdigit, W⟩ : _ ∧ _ := hok
      exact ⟨⟨htype, hcurrvote⟩, hdigit, W.voted, W.currvote⟩

/-- The values in the file decide, whatever has been done before. -/
theorem counted_iff (htype : poll.type = .value)
    (h : Reach (step voter) (fun _ _ => True) (start ι poll) s) :
    s.Counted ↔ ∀ b ∈ s.votes.file, InTenth s.poll.maxtkt b.voted := by
  have hvalue : s.poll.type = .value :=
    h.invariant (·.poll.type = .value) htype fun _ _ _ I _ hs => (step_type hs).trans I
  exact forall₂_congr fun b _ => countsInRange_iff hvalue

/-- Where every maximum ends with 0 or 9 and none is less than a number already given, all ballots
are counted in the ranges that are printed. -/
theorem counted_of_keepsCount (htype : poll.type = .value)
    (hdigit : poll.maxtkt % 10 = 0 ∨ poll.maxtkt % 10 = 9)
    (h : Reach (step voter) KeepsCount (start ι poll) s) : s.Counted := by
  have hstart : CountInv (start ι poll) :=
    ⟨⟨htype, fun _ => htype⟩, hdigit, ⟨nofun, nofun⟩, fun i hi => absurd rfl hi⟩
  have I := h.invariant CountInv hstart fun _ _ _ I hok hs => I.step hok hs
  exact fun b hb => (countsInRange_iff I.type.1).mpr
    (inTenth_all_iff.mpr I.digit b.voted (I.within.voted.1 b hb))

/-- In every run, with any number of sessions and any changes of the maximum: `count_result` counts
the ballots in the ranges that are printed just if all values are within the maximum and none is at
a bound of a tenth. So it does where every maximum ends with 0 or 9 and none is less than a number
already given. -/
theorem count_result_value_iff (htype : poll.type = .value) :
    (∀ s, Reach (step voter) (fun _ _ => True) (start ι poll) s →
      (s.Counted ↔ ∀ b ∈ s.votes.file, InTenth s.poll.maxtkt b.voted)) ∧
    (poll.maxtkt % 10 = 0 ∨ poll.maxtkt % 10 = 9 →
      ∀ s, Reach (step voter) KeepsCount (start ι poll) s → s.Counted) :=
  ⟨fun _ => counted_iff htype, fun hdigit _ => counted_of_keepsCount htype hdigit⟩

end

/-! ## Two polls -/

def demoPoll (maxtkt : Nat) : Votebal := ⟨.value, maxtkt, 1000, 0, 0, 0, 0, 0⟩

def demoVoter (_ : Fin 1) : Voter := ⟨bytes "Ann", 1, 0, 10, 0, 3600, bytes "a.site", false⟩

/-- A user votes with a number. -/
def demoVote (text : String) : List (ValuePollEvent (Fin 1)) :=
  [.vote (.begin 0), .valuevote 0 2000 [bytes text] [], .vote (.search 0), .vote (.append 0)]

theorem demoVote_reach {maxtkt : Nat} {text : String} {n : Nat}
    (hmeets : Reach.Meets (step demoVoter) (fun _ _ => True) (start (Fin 1) (demoPoll maxtkt))
      (demoVote text))
    (hrun : ((demoVote text).foldlM (step demoVoter) (start (Fin 1) (demoPoll maxtkt))).map
      (fun s => (s.poll.maxtkt, s.votes.file.map Ballot.voted)) = some (maxtkt, [n])) :
    ∃ s : ValuePoll (Fin 1),
      Reach (step demoVoter) (fun _ _ => True) (start (Fin 1) (demoPoll maxtkt)) s ∧
        s.poll.maxtkt = maxtkt ∧ s.votes.file.map Ballot.voted = [n] := by
  obtain ⟨s, hs, h⟩ := Reach.of_meets _ hmeets
  rw [hs] at hrun
  obtain ⟨hmax, hfile⟩ := Prod.mk.inj (Option.some.inj hrun)
  exact ⟨s, h, hmax, hfile⟩

/-- The 7 of at most 9 is counted in its range. -/
theorem count_result_value_nine : ∃ s : ValuePoll (Fin 1),
    s.votes.file.map Ballot.voted = [7] ∧ s.Counted := by
  obtain ⟨s, h, hmax, hfile⟩ := @demoVote_reach 9 "7" 7 (by decide +kernel) (by decide +kernel)
  refine ⟨s, hfile, ((count_result_value_iff rfl).1 s h).mpr fun b hb => ?_⟩
  have hb : b.voted ∈ s.votes.file.map Ballot.voted := List.mem_map_of_mem hb
  rw [hfile, List.mem_singleton] at hb
  rw [hb, hmax]
  exact inTenth_all_iff.mpr (.inr rfl) 7 (by decide)

/-- The 3 of at most 7 is counted for the range from 3 to 2. -/
theorem count_result_value_seven : ¬∀ s : ValuePoll (Fin 1),
    Reach (step demoVoter) (fun _ _ => True) (start (Fin 1) (demoPoll 7)) s → s.Counted := by
  intro hclaim
  obtain ⟨s, h, hmax, hfile⟩ := @demoVote_reach 7 "3" 3 (by decide +kernel) (by decide +kernel)
  obtain ⟨b, hb, hvoted⟩ : ∃ b ∈ s.votes.file, b.voted = 3 :=
    List.mem_map.mp (hfile ▸ List.mem_singleton_self 3)
  have htype : s.poll.type = .value :=
    h.invariant (·.poll.type = .value) rfl fun _ _ _ I _ hs => (step_type hs).trans I
  have hbetween := ((countsInRange_iff htype).mp (hclaim s h b hb)).2 4
  rw [hmax, hvoted] at hbetween
  omega

end ValuePoll

end ArgoBbs

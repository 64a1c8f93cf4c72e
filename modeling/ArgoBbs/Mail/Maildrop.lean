import ArgoBbs.Mail.Pop3

/-! # What a session takes out of a mailbox

The marks of a session are made on the snapshot that it took when the password was accepted.
`do_delete` goes over the mailbox as it is at the end and takes the marks by their places. -/

namespace ArgoBbs.Pop3

/-- The commands that a session is given, and the messages that come into a mailbox. -/
def commands (es : List Event) : List Command :=
  es.filterMap fun
    | .line inbuf => command? inbuf
    | .arrive .. => none

def arrivals (user : Bytes) (es : List Event) : List Mail :=
  es.filterMap fun
    | .line _ => none
    | .arrive u m _ => if u = user then some m else none

/-- What a command does to the mark at a place. -/
def mark (i : Nat) (marked : Bool) : Command → Bool
  | .Rset => false
  | .Dele arg => marked || atoi arg = i + 1
  | _ => marked

/-- The message is marked after the commands: the last of them that matter are no `RSET`. -/
def deleted (cmds : List Command) (m : Mail) (i : Nat) : Bool :=
  cmds.foldl (mark i) (isDeleted m.flag)

/-- Some message was marked that is still marked. -/
def touched (cmds : List Command) (dir : List Mail) : Bool :=
  dir.zipIdx.any fun p => deleted cmds p.1 p.2 && (!isDeleted p.1.flag || cmds.contains .Rset)

/-- A message of the snapshot goes. -/
def goes (cmds : List Command) (dir : List Mail) (p : Mail × Nat) : Bool :=
  touched cmds dir && deleted cmds p.1 p.2 && p.1.flag &&& FILE_MARKED = 0

def remaining (cmds : List Command) (dir : List Mail) : List Mail :=
  (dir.zipIdx.filter (!goes cmds dir ·)).map Prod.fst

def removed (cmds : List Command) (dir : List Mail) : List Mail :=
  (dir.zipIdx.filter (goes cmds dir ·)).map Prod.fst

/-! ## The marks -/

section
variable {cmds : List Command} {cmd : Command} {m : Mail} {i : Nat} {dir : List Mail}

theorem deleted_append : deleted (cmds ++ [cmd]) m i = mark i (deleted cmds m i) cmd := by
  rw [deleted, List.foldl_append]
  rfl

/-- Only `RSET` takes away a mark that was there from the start. -/
theorem deleted_of_isDeleted (hflag : isDeleted m.flag = true) (hno : .Rset ∉ cmds) :
    deleted cmds m i = true := by
  induction cmds using List.reverseRecOn with
  | nil => exact hflag
  | append_singleton cmds cmd ih =>
    rw [List.mem_append, List.mem_singleton, not_or] at hno
    rw [deleted_append, ih hno.1]
    cases cmd with
    | Rset => exact absurd rfl hno.2
    | _ => rfl

theorem touched_iff : touched cmds dir = true ↔
    ∃ i, ∃ m ∈ dir[i]?, deleted cmds m i = true ∧ (isDeleted m.flag = false ∨ .Rset ∈ cmds) := by
  rw [touched, List.any_eq_true]
  simp only [Bool.and_eq_true, Bool.or_eq_true, Bool.not_eq_true', List.contains_iff_mem,
    Prod.exists, List.mem_zipIdx_iff_getElem?, Option.mem_def]
  exact ⟨fun ⟨m, i, hm, h⟩ => ⟨i, m, hm, h⟩, fun ⟨i, m, hm, h⟩ => ⟨m, i, hm, h⟩⟩

theorem isDeleted_or (flag : BitVec 32) : isDeleted (flag ||| FILE_DIGEST) = true := by
  have hbit : (flag ||| FILE_DIGEST) &&& FILE_DIGEST = FILE_DIGEST := by
    ext i hi
    simpa using .inr
  rw [isDeleted, hbit]
  decide

theorem isDeleted_clear (flag : BitVec 32) : isDeleted (flag &&& ~~~FILE_DIGEST) = false := by
  rw [isDeleted, BitVec.and_assoc, show ~~~FILE_DIGEST &&& FILE_DIGEST = 0#32 by decide,
    BitVec.and_zero]
  rfl

theorem marked_or (flag : BitVec 32) :
    (flag ||| FILE_DIGEST) &&& FILE_MARKED = flag &&& FILE_MARKED := by
  rw [BitVec.and_comm, BitVec.and_or_distrib_left,
    show FILE_MARKED &&& FILE_DIGEST = 0#32 by decide, BitVec.or_zero, BitVec.and_comm]

theorem marked_clear (flag : BitVec 32) :
    flag &&& ~~~FILE_DIGEST &&& FILE_MARKED = flag &&& FILE_MARKED := by
  rw [BitVec.and_assoc, show ~~~FILE_DIGEST &&& FILE_MARKED = FILE_MARKED by decide]

variable {cfg : Config} {site : Site} {s : Session}

/-- The marks of a session are those that its commands make on the mailbox it has read. -/
structure Marks (cmds : List Command) (dir : List Mail) (s : Session) : Prop where
  length : s.fcache.length = dir.length
  flags : ∀ i, ∀ m ∈ dir[i]?, ∀ m' ∈ s.fcache[i]?, isDeleted m'.flag = deleted cmds m i ∧
    m'.flag &&& FILE_MARKED = m.flag &&& FILE_MARKED
  markdel : s.markdel ≠ 0 ↔ touched cmds dir = true

/-- A command that changes no mark. -/
theorem Marks.keep (h : Marks cmds dir s) (hreset : cmd ≠ .Rset)
    (hmark : ∀ i, ∀ m ∈ dir[i]?, mark i (deleted cmds m i) cmd = deleted cmds m i) :
    Marks (cmds ++ [cmd]) dir s := by
  refine ⟨h.length, fun i m hm m' hm' => ?_, ?_⟩
  · rw [deleted_append, hmark i m hm]
    exact h.flags i m hm m' hm'
  · rw [h.markdel, touched_iff, touched_iff]
    refine exists_congr fun i => exists_congr fun m => and_congr_right fun hm => ?_
    rw [deleted_append, hmark i m hm, List.mem_append, List.mem_singleton]
    simp [Ne.symm hreset]

theorem Marks.rset (h : Marks cmds dir s) :
    Marks (cmds ++ [.Rset]) dir (s.exec cfg site .Rset).1 := by
  refine ⟨(List.length_map _).trans h.length, fun i m hm m' hm' => ?_, ?_⟩
  · obtain ⟨c, hc, rfl⟩ := Option.map_eq_some_iff.mp (List.getElem?_map .. ▸ hm')
    refine ⟨?_, (marked_clear c.flag).trans (h.flags i m hm c hc).2⟩
    rw [deleted_append]
    exact isDeleted_clear c.flag
  · rw [touched_iff]
    refine iff_of_false (fun hne => hne rfl) ?_
    rintro ⟨i, m, -, hdel, -⟩
    rw [deleted_append] at hdel
    cases hdel

/-- A message is marked that was not. -/
theorem Marks.dele {arg : Bytes} {num : Nat} {text : String} {c : Mail} (h : Marks cmds dir s)
    (hfind : s.find arg text = .ok num) (hc : s.fcache[num]? = some c) :
    Marks (cmds ++ [.Dele arg]) dir
      { s with fcache := s.fcache.set num { c with flag := c.flag ||| FILE_DIGEST }
               markdel := s.markdel + 1 } := by
  obtain ⟨htotal, harg, hkept⟩ := find_ok hfind
  have hnum : num < s.fcache.length := htotal
  have hplace (i : Nat) : atoi arg = i + 1 ↔ i = num := by omega
  refine ⟨(List.length_set ..).trans h.length, fun i m hm m' hm' => ?_, ?_⟩
  · rw [deleted_append, mark]
    rw [Option.mem_def, List.getElem?_set] at hm'
    split at hm'
    · rename_i hi
      subst hi
      cases hm'
      rw [(hplace num).mpr rfl]
      exact ⟨by simpa using isDeleted_or c.flag,
        (marked_or c.flag).trans (h.flags num m hm c hc).2⟩
    · rename_i hi
      obtain ⟨hdel, hmarked⟩ := h.flags i m hm m' hm'
      refine ⟨?_, hmarked⟩
      rw [hdel, decide_eq_false (fun heq => hi ((hplace i).mp heq).symm), Bool.or_false]
  · refine iff_of_true (Nat.succ_ne_zero _) (touched_iff.mpr ?_)
    have hlt : num < dir.length := h.length ▸ hnum
    have hm := List.getElem?_eq_getElem hlt
    have hnot : deleted cmds dir[num] num = false :=
      (h.flags num _ hm c hc).1.symm.trans (hkept c hc)
    refine ⟨num, dir[num], hm, ?_, ?_⟩
    · rw [deleted_append, mark, decide_eq_true ((hplace num).mpr rfl), Bool.or_true]
    · cases hflag : isDeleted dir[num].flag with
      | false => exact .inl rfl
      | true =>
        refine .inr (List.mem_append_left _ (Decidable.byContradiction fun hno => ?_))
        rw [deleted_of_isDeleted hflag hno] at hnot
        cases hnot

/-- A message that cannot be marked is none, or has a mark. -/
theorem Marks.dele_none {arg : Bytes} {text : String} {answer : Bytes} (h : Marks cmds dir s)
    (hfind : s.find arg text = .error answer) : Marks (cmds ++ [.Dele arg]) dir s := by
  refine h.keep (by simp) fun i m hm => ?_
  rw [mark, Bool.or_eq_left_iff_imp, decide_eq_true_eq]
  intro harg
  have hlt : i < s.fcache.length := h.length ▸ (List.getElem?_eq_some_iff.mp hm).1
  rw [← (h.flags i m hm _ (List.getElem?_eq_getElem hlt)).1]
  rw [Session.find] at hfind
  split at hfind
  case isTrue hrange =>
    rw [harg] at hrange
    simp only [Session.totalnum] at hrange
    omega
  case isFalse =>
    split at hfind
    case isTrue hdel =>
      rw [harg, show ((i + 1 : Int)).toNat - 1 = i by omega, List.getElem?_eq_getElem hlt] at hdel
      exact hdel
    case isFalse => cases hfind

theorem Marks.exec (h : Marks cmds dir s) :
    Marks (cmds ++ [cmd]) dir (s.exec cfg site cmd).1 := by
  cases cmd with
  | Rset => exact h.rset
  | Dele arg =>
    simp only [Session.exec]
    split
    · rename_i harg
      refine h.keep (by simp) fun i m hm => ?_
      have hnone : atoi [] ≠ (i : Int) + 1 := by
        rw [show atoi [] = 0 from rfl]
        omega
      rw [mark, harg, decide_eq_false hnone, Bool.or_false]
    · split
      · rename_i hfind
        exact h.dele_none hfind
      · rename_i num hfind
        have hnum : num < s.fcache.length := (find_ok hfind).1
        have hc := List.getElem?_eq_getElem hnum
        simp only [List.getD_eq_getElem?_getD, hc, Option.getD_some]
        exact h.dele hfind hc
  | Retr arg | List arg | Uidl arg =>
    simp only [Session.exec]
    repeat' split
    all_goals exact h.keep (by simp) fun _ _ _ => rfl
  | _ => exact h.keep (by simp) fun _ _ _ => rfl

/-! ## A session -/

variable {user : Bytes} {es : List Event} {e : Event} {w₀ w w' : World}

theorem commands_append : commands (es ++ [e]) = commands es ++ commands [e] :=
  List.filterMap_append ..

theorem arrivals_append : arrivals user (es ++ [e]) = arrivals user es ++ arrivals user [e] :=
  List.filterMap_append ..

/-- A session that was entered with a mailbox, after some events. -/
structure Reading (user : Bytes) (dir : List Mail) (es : List Event) (w : World) : Prop where
  login : w.session.login = true
  name : w.session.LowUserid = user
  opened : w.closed = false
  marks : Marks (commands es) dir w.session
  mailbox : (w.site.dir user).getD [] = dir ++ arrivals user es
  left : w.site.pop3 user = []

theorem Reading.step (h : Reading user dir es w) (hstep : w.step cfg e = some w')
    (hopen : w'.closed = false) : Reading user dir (es ++ [e]) w' := by
  obtain ⟨u, m, content, rfl, rfl⟩ | ⟨inbuf, rfl, -, ⟨hnone, rfl⟩ | ⟨-, hclosed, -, -⟩ |
    ⟨cmd, hcmd, -, rfl⟩⟩ := step_cases hstep
  · refine ⟨h.login, h.name, hopen, ?_, ?_, h.left⟩
    · rw [commands_append]
      exact (List.append_nil _).symm ▸ h.marks
    · rw [arrivals_append, ← List.append_assoc, ← h.mailbox]
      simp only [Site.arrive, arrivals, List.filterMap_cons, List.filterMap_nil]
      by_cases hu : u = user
      · rw [if_pos hu.symm, if_pos hu]
        rfl
      · rw [if_neg (Ne.symm hu), if_neg hu, List.append_nil]
  · refine ⟨h.login, h.name, hopen, ?_, ?_, h.left⟩
    · rw [commands_append]
      simp only [commands, List.filterMap_cons, hnone, List.filterMap_nil, List.append_nil]
      exact h.marks
    · rw [arrivals_append]
      exact (List.append_nil _).symm ▸ h.mailbox
  · rw [hclosed] at hopen
    cases hopen
  · simp only [h.login, if_true] at hopen ⊢
    refine ⟨?_, ?_, hopen, ?_, ?_, h.left⟩
    · rw [exec_session]
      exact h.login
    · rw [exec_session]
      exact h.name
    · rw [commands_append]
      simp only [commands, List.filterMap_cons, hcmd, List.filterMap_nil]
      exact h.marks.exec
    · rw [arrivals_append]
      exact (List.append_nil _).symm ▸ h.mailbox

theorem step_open (hstep : w.step cfg e = some w') (hopen : w'.closed = false) :
    w.closed = false := by
  obtain ⟨_, _, _, -, rfl⟩ | ⟨_, -, h, -⟩ := step_cases hstep
  · exact hopen
  · exact h

theorem Reading.run (h : Reading user dir [] w) (hrun : es.foldlM (World.step cfg) w = some w')
    (hopen : w'.closed = false) : Reading user dir es w' := by
  induction es using List.reverseRecOn generalizing w' with
  | nil =>
    cases hrun
    exact h
  | append_singleton es e ih =>
    rw [List.foldlM_append] at hrun
    obtain ⟨w₁, hw₁, hlast⟩ := Option.bind_eq_some_iff.mp hrun
    have hstep : w₁.step cfg e = some w' := by simpa using hlast
    exact (ih hw₁ (step_open hstep hopen)).step hstep hopen

/-- Without a password nothing is marked, and until the end nothing is left in `pop3.DIR`. -/
theorem untouched (h : Reach (World.step cfg) (fun _ _ => True) (World.start cfg site) w) :
    (w.session.login = false → w.session.markdel = 0) ∧
      (w.closed = false → w.site.pop3 = site.pop3) := by
  refine h.invariant (fun w => (w.session.login = false → w.session.markdel = 0) ∧
    (w.closed = false → w.site.pop3 = site.pop3)) ⟨fun _ => rfl, fun _ => rfl⟩
    fun w e w' hw _ hstep => ?_
  obtain ⟨u, m, content, rfl, rfl⟩ | ⟨inbuf, rfl, hopen, ⟨-, rfl⟩ | ⟨-, hclosed, hsession, -⟩ |
    ⟨cmd, -, -, rfl⟩⟩ := step_cases hstep
  · exact hw
  · exact hw
  · rw [hsession, hclosed]
    exact ⟨hw.1, nofun⟩
  · refine ⟨fun hout => ?_, fun _ => hw.2 hopen⟩
    cases hlogin : w.session.login with
    | true =>
      simp only [hlogin, if_true] at hout
      rw [exec_session] at hout
      cases hlogin.symm.trans hout
    | false =>
      simp only [hlogin, Bool.false_eq_true, if_false] at hout ⊢
      rw [← hw.1 hlogin]
      cases cmd <;> simp only [Session.enter]
      all_goals repeat' split
      all_goals rfl

/-- Who enters gets the mailbox as it is. -/
theorem enter_login (hlogin : s.login = false) (hin : (s.enter cfg site cmd).1.login = true) :
    (s.enter cfg site cmd).1 = Login_init cfg site { s with login := true } := by
  have hno : ∀ s' : Session, s'.login = s.login → s'.login = true → False := fun s' hs' hin => by
    rw [hs', hlogin] at hin
    cases hin
  cases cmd with
  | Pass arg =>
    rw [Session.enter] at hin ⊢
    split at hin
    · exact (hno s rfl hin).elim
    · rename_i harg
      rw [if_neg harg]
      split at hin
      · exact (hno s rfl hin).elim
      · rename_i hname
        rw [if_neg hname]
        split at hin
        · exact (hno { s with LowUserid := [] } rfl hin).elim
        · rename_i hcheck
          rw [if_neg hcheck]
  | User arg =>
    simp only [Session.enter] at hin
    repeat' split at hin
    all_goals exact (hno _ (by rfl) hin).elim
  | _ => exact (hno s rfl hin).elim

/-- A session begins with the mailbox of the user. -/
theorem Reading.start {inbuf : Bytes}
    (h : Reach (World.step cfg) (fun _ _ => True) (World.start cfg site) w₀)
    (hout : w₀.session.login = false) (hpass : w₀.step cfg (.line inbuf) = some w)
    (hin : w.session.login = true) (hleft : site.pop3 w.session.LowUserid = []) :
    Reading w.session.LowUserid ((w.site.dir w.session.LowUserid).getD []) [] w := by
  obtain ⟨_, _, _, he, -⟩ | ⟨_, -, hopen, ⟨-, rfl⟩ | ⟨-, -, hsession, -⟩ | ⟨cmd, -, -, rfl⟩⟩ :=
    step_cases hpass
  · cases he
  · cases hout.symm.trans hin
  · rw [hsession] at hin
    cases hout.symm.trans hin
  · obtain ⟨hmarkdel, hpop3⟩ := untouched h
    simp only [hout, Bool.false_eq_true, if_false] at hin hleft ⊢
    rw [enter_login hout hin] at hleft ⊢
    refine ⟨rfl, rfl, hopen, ⟨List.length_map _, fun i m hm m' hm' => ?_, ?_⟩,
      (List.append_nil _).symm, ?_⟩
    · obtain ⟨c, hc, rfl⟩ := Option.map_eq_some_iff.mp (List.getElem?_map .. ▸ hm')
      cases hm.symm.trans hc
      exact ⟨rfl, rfl⟩
    · refine iff_of_false (fun hne => hne (hmarkdel hout)) fun htouched => ?_
      obtain ⟨i, m, -, hdel, hno | hmem⟩ := touched_iff.mp htouched
      · cases hno.symm.trans hdel
      · cases hmem
    · exact (congrFun (hpop3 hopen) _).trans hleft

/-! ## The end -/

theorem sweep_eq (stays : Nat → Bool) (k : Nat) (l : List Mail) :
    sweep stays k l = (((l.zipIdx k).filter (stays ·.2)).map Prod.fst,
      ((l.zipIdx k).filter (!stays ·.2)).map Prod.fst) := by
  induction l generalizing k with
  | nil => rfl
  | cons m l ih =>
    rw [sweep, ih, List.zipIdx_cons, List.filter_cons, List.filter_cons]
    cases stays k <;> rfl

/-- At the end of a session that has marked something, what the marks say is taken out of the
mailbox that was read; what came in later stays. -/
theorem sweep_marks {flag : Nat → BitVec 32} (h : Marks cmds dir s)
    (htouched : touched cmds dir = true) (hflag : ∀ i, ∀ c ∈ s.fcache[i]?, flag i = c.flag)
    (new : List Mail) :
    sweep (stays s.totalnum flag) 0 (dir ++ new) =
      (remaining cmds dir ++ new, removed cmds dir) := by
  have hold : ∀ p ∈ dir.zipIdx, stays s.totalnum flag p.2 = !goes cmds dir p := by
    rintro ⟨m, i⟩ hp
    rw [List.mem_zipIdx_iff_getElem?] at hp
    have hi : i < s.fcache.length := h.length ▸ (List.getElem?_eq_some_iff.mp hp).1
    have hc := List.getElem?_eq_getElem hi
    obtain ⟨hdel, hmarked⟩ := h.flags i m hp _ hc
    simp only [stays, goes, Session.totalnum, hflag i _ hc, htouched, ← hdel, hmarked,
      Nat.not_le.mpr hi, Bool.true_and]
    cases isDeleted s.fcache[i].flag <;> simp
  have hnew : ∀ p ∈ new.zipIdx (0 + dir.length), stays s.totalnum flag p.2 = true := by
    rintro ⟨m, i⟩ hp
    have hi : s.totalnum ≤ i := by
      rw [Session.totalnum, h.length, ← Nat.zero_add dir.length]
      exact List.le_snd_of_mem_zipIdx hp
    rw [stays, decide_eq_true hi]
    rfl
  have hgone : ∀ p ∈ dir.zipIdx, (!stays s.totalnum flag p.2) = goes cmds dir p := fun p hp => by
    rw [hold p hp, Bool.not_not]
  have hnone : ∀ p ∈ new.zipIdx (0 + dir.length), ¬(!stays s.totalnum flag p.2) = true :=
    fun p hp => by simp [hnew p hp]
  rw [sweep_eq, List.zipIdx_append, List.filter_append, List.filter_append,
    List.filter_congr hold, List.filter_congr hgone, List.filter_eq_self.mpr hnew,
    List.filter_eq_nil_iff.mpr hnone, List.map_append, List.zipIdx_map_fst, List.append_nil]
  rfl

theorem goes_untouched (h : ¬touched cmds dir = true) (p : Mail × Nat) :
    goes cmds dir p = false := by
  rw [goes, Bool.eq_false_iff.mpr h]
  rfl

theorem remaining_untouched (h : ¬touched cmds dir = true) : remaining cmds dir = dir := by
  rw [remaining, List.filter_eq_self.mpr fun p _ => by rw [goes_untouched h]; rfl,
    List.zipIdx_map_fst]

theorem removed_untouched (h : ¬touched cmds dir = true) : removed cmds dir = [] := by
  rw [removed, List.filter_eq_nil_iff.mpr fun p _ => by rw [goes_untouched h]; nofun, List.map_nil]

theorem do_delete_right {totalnum : Nat} {flag : Nat → BitVec 32} {kept gone new : List Mail}
    (hswept : sweep (stays totalnum flag) 0 (dir ++ new) = (kept, gone))
    (hmailbox : (site.dir user).getD [] = dir ++ new) (hleft : site.pop3 user = []) :
    ((do_delete totalnum flag user site).dir user).getD [] = kept ∧
      (∀ name, (do_delete totalnum flag user site).file user name =
        if name ∈ gone.map Mail.filename then none else site.file user name) ∧
      ∀ u, u ≠ user → (do_delete totalnum flag user site).dir u = site.dir u ∧
        (do_delete totalnum flag user site).file u = site.file u := by
  unfold do_delete
  split
  case h_1 hnone =>
    rw [hnone, Option.getD_none] at hmailbox
    rw [← hmailbox] at hswept
    cases hswept
    rw [hnone]
    exact ⟨rfl, fun name => (if_neg List.not_mem_nil).symm, fun _ _ => ⟨rfl, rfl⟩⟩
  case h_2 dir' hsome =>
    rw [hsome, Option.getD_some] at hmailbox
    rw [hmailbox, hswept]
    refine ⟨?_, fun name => ?_, fun u hu => ⟨if_neg hu, funext fun name => ?_⟩⟩
    · simp only [if_true, hleft, List.drop_nil, List.append_nil]
      split
      case isTrue hnil => rw [hnil]; rfl
      case isFalse => rfl
    · simp only [true_and, List.mem_map]
    · exact if_neg fun h => hu h.1

end

end ArgoBbs.Pop3

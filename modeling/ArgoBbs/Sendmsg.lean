import ArgoBbs.Lib.CString
import ArgoBbs.Lib.Reach
import ArgoBbs.Record.Access

/-! # Messages between users

A sender appends a message to the receiver's `msgfile` and then sends the receiver a `SIGUSR2`
(`do_sendmsg`). The handler `r_msg` counts the signal and displays messages until the count is 0;
while it runs, signals are only counted, by `count_msg` (`sendmsg.c`). It computes the record to
display from the number of records and the count. -/

namespace ArgoBbs

/-- Where a call of `r_msg` is: it has been entered; `count_msg` is the handler; it tests the count;
it is in the loop; it has read the number of records; it has displayed one; the loop has ended;
`r_msg` is the handler again. -/
inductive RmsgPc
  | entered
  | signalled
  | testing
  | looping
  | sized (i : Nat)
  | displayed
  | restoring
  | returning
  deriving DecidableEq

namespace RmsgPc

/-- The signal that the call is for has not been counted. -/
def uncounted : RmsgPc → Bool
  | .entered | .signalled => true
  | _ => false

/-- The message that the call has displayed is still counted. -/
def stillCounted : RmsgPc → Bool
  | .displayed => true
  | _ => false

/-- The handler is `count_msg`. -/
def counting : RmsgPc → Bool
  | .entered | .returning => false
  | _ => true

/-- The call is in the loop, with the count not at 0. -/
def inLoop : RmsgPc → Bool
  | .looping | .sized _ | .displayed => true
  | _ => false

theorem of_not_counting {pc : RmsgPc} (h : pc.counting = false) :
    pc = .entered ∨ pc = .returning := by
  cases pc with
  | entered => exact .inl rfl
  | returning => exact .inr rfl
  | _ => cases h

end RmsgPc

/-- The messages and the receiver. `unsent` senders have appended a message and not sent the signal
for it; `pending` says that a signal waits for its delivery, and there can be one only. `counting`
says that the handler is `count_msg`, `frames` are the calls of `r_msg`, which a signal can
interrupt before and after that, and `shown` what they have displayed; where reading fails this is
whatever is in the buffer. -/
structure Msgs (μ : Type) where
  file : List μ
  unsent : Nat
  pending : Bool
  counting : Bool
  msgNum : Nat
  frames : List RmsgPc
  shown : List (Option μ)

inductive MsgEvent (μ : Type)
  | append (m : μ)
  | kill
  | deliver
  | run

namespace Msgs
variable {μ : Type}

/-- The messages in the file have been displayed. -/
def start (file : List μ) : Msgs μ := ⟨file, 0, false, false, 0, [], []⟩

/-- The innermost call of `r_msg` goes on. -/
def runFrame (s : Msgs μ) (frames : List RmsgPc) : RmsgPc → Msgs μ
  | .entered => { s with counting := true, frames := .signalled :: frames }
  | .signalled => { s with msgNum := s.msgNum + 1, frames := .testing :: frames }
  | .testing => { s with frames := (if s.msgNum = 0 then .restoring else .looping) :: frames }
  | .looping =>
    let i := s.file.length
    { s with frames := (if i = 0 then .restoring else .sized i) :: frames }
  | .sized i =>
    { s with
      shown := s.shown ++ [getRecord ((i : Int) - s.msgNum + 1) s.file]
      frames := .displayed :: frames }
  | .displayed => { s with msgNum := s.msgNum - 1, frames := .testing :: frames }
  | .restoring => { s with counting := false, frames := .returning :: frames }
  | .returning => { s with frames }

def step (s : Msgs μ) : MsgEvent μ → Option (Msgs μ)
  | .append m => some { s with file := s.file ++ [m], unsent := s.unsent + 1 }
  | .kill => if s.unsent = 0 then none else some { s with unsent := s.unsent - 1, pending := true }
  | .deliver =>
    if s.pending then
      some (if s.counting then { s with pending := false, msgNum := s.msgNum + 1 }
        else { s with pending := false, frames := .entered :: s.frames })
    else none
  | .run =>
    match s.frames with
    | pc :: frames => some (s.runFrame frames pc)
    | [] => none

/-- The messages in the file whose signal the receiver has not counted. -/
def uncounted (s : Msgs μ) : Nat :=
  s.unsent + s.pending.toNat + s.frames.countP RmsgPc.uncounted

/-- A signal is sent only when none waits for its delivery. A record is read only when the number of
records was that of the messages counted; and the handler is `r_msg` again only with the count at 0.
-/
def MayStep (s : Msgs μ) : MsgEvent μ → Prop
  | .kill => s.pending = false
  | .run =>
    match s.frames with
    | .sized i :: _ => s.file.length = i + s.uncounted
    | .restoring :: _ => s.msgNum = 0
    | _ => True
  | _ => True

instance (s : Msgs μ) (e : MsgEvent μ) : Decidable (s.MayStep e) := by
  unfold MayStep
  split
  · infer_instance
  · split <;> infer_instance
  · infer_instance

/-- What holds as long as all steps are such. The calls that were interrupted count no signals, and
every message appended has been displayed, or is counted, or its signal is still to be counted. -/
structure MsgInv (old : List μ) (s : Msgs μ) : Prop where
  rest : ∀ pc ∈ s.frames.tail, pc.counting = false
  handler : s.counting = s.frames.head?.any RmsgPc.counting
  zero : s.counting = false → s.msgNum = 0
  positive : s.frames.head?.any RmsgPc.inLoop = true → 0 < s.msgNum
  balance : s.file.length + s.frames.countP RmsgPc.stillCounted =
    old.length + s.shown.length + s.msgNum + s.uncounted
  shown : ∃ new, s.file = old ++ new ∧ s.shown <+: new.map some

theorem msgInv_start (old : List μ) : MsgInv old (start old) where
  rest := nofun
  handler := rfl
  zero _ := rfl
  positive h := by cases h
  balance := rfl
  shown := ⟨[], (List.append_nil old).symm, List.prefix_refl _⟩

section
variable {old : List μ} {s s' : Msgs μ} {pc : RmsgPc} {frames : List RmsgPc}

/-- A prefix goes on with the element behind it. -/
theorem prefix_append_getElem? {α : Type} {l₁ l₂ : List α} {x : α} (h : l₁ <+: l₂)
    (hx : l₂[l₁.length]? = some x) : l₁ ++ [x] <+: l₂ := by
  obtain ⟨rest, rfl⟩ := h
  rw [List.getElem?_append_right (Nat.le_refl _), Nat.sub_self] at hx
  cases rest with
  | nil => cases hx
  | cons y rest =>
    cases hx
    exact ⟨rest, by rw [List.append_assoc]; rfl⟩

/-- None of the calls that were interrupted has displayed a message that is still counted. -/
theorem countP_stillCounted (h : ∀ pc ∈ frames, pc.counting = false) :
    frames.countP RmsgPc.stillCounted = 0 := by
  refine List.countP_eq_zero.mpr fun pc hpc hd => ?_
  rcases RmsgPc.of_not_counting (h pc hpc) with rfl | rfl <;> cases hd

/-- The record read is that of the first message that has not been displayed. -/
theorem MsgInv.record {i : Nat} (I : MsgInv old s) (hframes : s.frames = .sized i :: frames)
    (hok : s.file.length = i + s.uncounted) {new : List μ} (hfile : s.file = old ++ new) :
    ∃ m, getRecord ((i : Int) - s.msgNum + 1) s.file = some m ∧ new[s.shown.length]? = some m := by
  have hpos : 0 < s.msgNum := I.positive (by rw [hframes]; rfl)
  have hrest : frames.countP RmsgPc.stillCounted = 0 := countP_stillCounted fun pc hpc =>
    I.rest pc (by rw [hframes]; exact hpc)
  have hbalance := I.balance
  rw [hframes, List.countP_cons_of_neg Bool.false_ne_true, hrest] at hbalance
  have hlen : s.file.length = old.length + new.length := by rw [hfile, List.length_append]
  have hlt : s.shown.length < new.length := by omega
  refine ⟨new[s.shown.length], ?_, List.getElem?_eq_getElem hlt⟩
  rw [getRecord, if_neg (by omega), hfile, List.getElem?_append_right (by omega),
    ← List.getElem?_eq_getElem hlt]
  congr 1
  omega

/-- What a step of the innermost call has to keep. -/
theorem MsgInv.withFrame (I : MsgInv old s) (hframes : s.frames = pc :: frames) {pc' : RmsgPc}
    (hframes' : s'.frames = pc' :: frames) (hhandler : s'.counting = pc'.counting)
    (hzero : s'.counting = false → s'.msgNum = 0) (hpositive : pc'.inLoop = true → 0 < s'.msgNum)
    (hfile : s'.file = s.file) (hpending : s'.pending = s.pending) (hunsent : s'.unsent = s.unsent)
    (hbalance : s.shown.length + s.msgNum + pc.uncounted.toNat + pc'.stillCounted.toNat =
      s'.shown.length + s'.msgNum + pc'.uncounted.toNat + pc.stillCounted.toNat)
    (hshown : ∃ new, s'.file = old ++ new ∧ s'.shown <+: new.map some) : MsgInv old s' := by
  have hcount (f : RmsgPc → Bool) (pc : RmsgPc) :
      (pc :: frames).countP f = frames.countP f + (f pc).toNat := by
    rw [List.countP_cons]
    cases f pc <;> rfl
  refine ⟨?_, ?_, hzero, ?_, ?_, hshown⟩
  · rw [hframes']
    exact fun pc hpc => I.rest pc (by rw [hframes]; exact hpc)
  · rw [hframes', hhandler]
    rfl
  · rw [hframes']
    exact hpositive
  · have hold := I.balance
    rw [Msgs.uncounted, hframes, hcount, hcount] at hold
    rw [Msgs.uncounted, hframes', hcount, hcount, hfile, hpending, hunsent]
    omega

theorem MsgInv.runFrame (I : MsgInv old s) (hframes : s.frames = pc :: frames)
    (hok : s.MayStep .run) : MsgInv old (s.runFrame frames pc) := by
  have hhandler : s.counting = pc.counting := by
    rw [I.handler, hframes]
    rfl
  have hpositive : pc.inLoop = true → 0 < s.msgNum := fun h => I.positive (by rw [hframes]; exact h)
  have hcounting {p : Prop} (h : pc.counting = true) (hno : s.counting = false) : p := by
    rw [hhandler, h] at hno
    cases hno
  have hrest : ∀ pc ∈ frames, pc.counting = false := fun pc hpc =>
    I.rest pc (by rw [hframes]; exact hpc)
  rw [MayStep, hframes] at hok
  cases pc with
  | entered => exact I.withFrame hframes rfl rfl nofun nofun rfl rfl rfl rfl I.shown
  | signalled =>
    refine I.withFrame hframes rfl hhandler (hcounting rfl) nofun rfl rfl rfl ?_ I.shown
    simp only [Msgs.runFrame, RmsgPc.uncounted, RmsgPc.stillCounted, Bool.toNat_true,
      Bool.toNat_false]
    omega
  | testing =>
    by_cases hmsg : s.msgNum = 0
    · rw [Msgs.runFrame, if_pos hmsg]
      exact I.withFrame hframes rfl hhandler (hcounting rfl) nofun rfl rfl rfl rfl I.shown
    · rw [Msgs.runFrame, if_neg hmsg]
      exact I.withFrame hframes rfl hhandler (hcounting rfl)
        (fun _ => Nat.pos_of_ne_zero hmsg) rfl rfl rfl rfl I.shown
  | looping =>
    dsimp only [Msgs.runFrame]
    split
    · exact I.withFrame hframes rfl hhandler (hcounting rfl) nofun rfl rfl rfl rfl I.shown
    · exact I.withFrame hframes rfl hhandler (hcounting rfl) (fun _ => hpositive rfl) rfl rfl rfl
        rfl I.shown
  | sized i =>
    obtain ⟨new, hfile, hprefix⟩ := I.shown
    obtain ⟨m, hm, hnew⟩ := I.record hframes hok hfile
    refine I.withFrame hframes rfl hhandler (hcounting rfl) (fun _ => hpositive rfl) rfl rfl rfl
      ?_ ⟨new, hfile, ?_⟩
    · simp only [Msgs.runFrame, RmsgPc.uncounted, RmsgPc.stillCounted, Bool.toNat_true,
        Bool.toNat_false, List.length_append, List.length_singleton]
      omega
    · dsimp only [Msgs.runFrame]
      rw [hm]
      exact prefix_append_getElem? hprefix (by rw [List.getElem?_map, hnew]; rfl)
  | displayed =>
    have hmsg := hpositive rfl
    refine I.withFrame hframes rfl hhandler (hcounting rfl) nofun rfl rfl rfl ?_ I.shown
    simp only [Msgs.runFrame, RmsgPc.uncounted, RmsgPc.stillCounted, Bool.toNat_true,
      Bool.toNat_false]
    omega
  | restoring => exact I.withFrame hframes rfl rfl (fun _ => hok) nofun rfl rfl rfl rfl I.shown
  | returning =>
    have hhead (f : RmsgPc → Bool) (hf : ∀ pc, pc.counting = false → f pc = false) :
        frames.head?.any f = false := by
      cases frames with
      | nil => rfl
      | cons pc rest => exact hf pc (hrest pc List.mem_cons_self)
    refine ⟨fun pc hpc => hrest pc (List.mem_of_mem_tail hpc), ?_, I.zero, fun h => ?_, ?_,
      I.shown⟩
    · exact hhandler.trans (hhead _ fun _ h => h).symm
    · have hno : frames.head?.any RmsgPc.inLoop = false := hhead _ fun pc hpc => by
        rcases RmsgPc.of_not_counting hpc with rfl | rfl <;> rfl
      exact absurd (h.symm.trans hno) nofun
    · have hold := I.balance
      rw [Msgs.uncounted, hframes, List.countP_cons_of_neg Bool.false_ne_true,
        List.countP_cons_of_neg Bool.false_ne_true] at hold
      exact hold

theorem MsgInv.step (I : MsgInv old s) {e : MsgEvent μ} (hok : s.MayStep e)
    (h : s.step e = some s') : MsgInv old s' := by
  cases e with
  | append m =>
    rw [← Option.some.inj h]
    obtain ⟨new, hfile, hprefix⟩ := I.shown
    refine ⟨I.rest, I.handler, I.zero, I.positive, ?_, new ++ [m], ?_, ?_⟩
    · have hold := I.balance
      simp only [Msgs.uncounted, List.length_append, List.length_singleton] at hold ⊢
      omega
    · rw [← List.append_assoc, ← hfile]
    · rw [List.map_append]
      exact hprefix.trans (List.prefix_append ..)
  | kill =>
    simp only [Msgs.step] at h
    split at h
    · cases h
    · rename_i hunsent
      rw [← Option.some.inj h]
      have hpending : s.pending = false := hok
      refine ⟨I.rest, I.handler, I.zero, I.positive, ?_, I.shown⟩
      have hold := I.balance
      rw [Msgs.uncounted, hpending, Bool.toNat_false] at hold
      simp only [Msgs.uncounted, Bool.toNat_true]
      omega
  | deliver =>
    simp only [Msgs.step] at h
    split at h
    · rename_i hpending
      have hold := I.balance
      rw [Msgs.uncounted, hpending, Bool.toNat_true] at hold
      rw [← Option.some.inj h]
      split
      · rename_i hcounting
        refine ⟨I.rest, I.handler, fun hno => ?_, fun _ => Nat.succ_pos _, ?_, I.shown⟩
        · exact absurd (hcounting.symm.trans hno) nofun
        · simp only [Msgs.uncounted, Bool.toNat_false]
          omega
      · -- The handler is `r_msg`: a call that is going on is interrupted.
        rename_i hcounting
        have hno : s.counting = false := Bool.eq_false_iff.mpr hcounting
        refine ⟨fun pc hpc => ?_, hno, I.zero, nofun, ?_, I.shown⟩
        · change pc ∈ s.frames at hpc
          cases hframes : s.frames with
          | nil =>
            rw [hframes] at hpc
            cases hpc
          | cons top rest =>
            have hhandler := I.handler
            rw [hframes, hno] at hhandler
            rw [hframes] at hpc
            rcases List.mem_cons.mp hpc with rfl | hpc
            · exact hhandler.symm
            · exact I.rest pc (by rw [hframes]; exact hpc)
        · simp only [Msgs.uncounted, Bool.toNat_false]
          rw [List.countP_cons_of_neg Bool.false_ne_true, List.countP_cons_of_pos rfl]
          omega
    · cases h
  | run =>
    simp only [Msgs.step] at h
    split at h
    · rename_i hframes
      exact Option.some.inj h ▸ I.runFrame hframes hok
    · cases h

/-- In every run all of whose steps meet the condition the messages appended are displayed in the
order of the file, none is left out and none displayed twice; and once all signals are sent and
delivered and `r_msg` has returned, all of them have been displayed. -/
theorem messages_shown_once (h : Reach Msgs.step MayStep (start old) s) :
    ∃ new, s.file = old ++ new ∧ s.shown <+: new.map some ∧
      (s.unsent = 0 → s.pending = false → s.frames = [] → s.shown = new.map some) := by
  have I : MsgInv old s :=
    h.invariant (MsgInv old) (msgInv_start old) fun _ _ _ I hok hs => I.step hok hs
  obtain ⟨new, hfile, hprefix⟩ := I.shown
  refine ⟨new, hfile, hprefix, fun hunsent hpending hframes => ?_⟩
  have hhandler := I.handler
  have hbalance := I.balance
  rw [hframes] at hhandler
  rw [Msgs.uncounted, hunsent, hpending, hframes, I.zero hhandler, hfile] at hbalance
  refine hprefix.eq_of_length ?_
  rw [List.length_map]
  simp only [List.length_append, List.countP_nil, Bool.toNat_false] at hbalance
  omega

/-- Steps of the receiver. -/
def runs (n : Nat) : List (MsgEvent Nat) := List.replicate n .run

/-- A second message comes while the first one is displayed. -/
def demoMessages : List (MsgEvent Nat) :=
  [.append 1, .kill, .deliver] ++ runs 5 ++ [.append 2, .kill, .deliver] ++ runs 8

theorem messages_shown_once_two : ∃ s : Msgs Nat, s.shown = [some 1, some 2] ∧
    ∃ new, s.file = [0] ++ new ∧ s.shown <+: new.map some := by
  have hrun : Reach.Meets Msgs.step MayStep (start [0]) demoMessages := by decide +kernel
  obtain ⟨s, hs, h⟩ := Reach.of_meets _ hrun
  have hend : (demoMessages.foldlM Msgs.step (start [0])).map (·.shown) =
      some [some 1, some 2] := by decide +kernel
  rw [hs] at hend
  obtain ⟨new, hfile, hprefix, -⟩ := messages_shown_once h
  exact ⟨s, Option.some.inj hend, new, hfile, hprefix⟩

/-- The second signal is sent before the first one is delivered. -/
def demoMerged : List (MsgEvent Nat) :=
  [.append 1, .append 2, .kill, .kill, .deliver] ++ runs 9

theorem messages_merged : ¬∀ s : Msgs Nat, Reach Msgs.step (fun _ _ => True) (start [0]) s →
    ∃ new, s.file = [0] ++ new ∧ s.shown <+: new.map some := by
  intro hclaim
  have hrun : Reach.Meets Msgs.step (fun _ _ => True) (start [0]) demoMerged := by
    decide +kernel
  obtain ⟨s, hs, h⟩ := Reach.of_meets _ hrun
  have hend : (demoMerged.foldlM Msgs.step (start [0])).map (fun s => (s.file, s.shown)) =
      some ([0, 1, 2], [some 2]) := by decide +kernel
  rw [hs] at hend
  obtain ⟨hfile, hshown⟩ := Prod.mk.inj (Option.some.inj hend)
  obtain ⟨new, hnew, hprefix⟩ := hclaim s h
  rw [hfile] at hnew
  obtain rfl : new = [1, 2] := (List.cons.inj hnew).2.symm
  rw [hshown] at hprefix
  exact absurd hprefix (by decide)

end

end Msgs

end ArgoBbs

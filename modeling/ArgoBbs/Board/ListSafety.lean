import ArgoBbs.Board.ListReader

/-! # Reading entries of the page

When a reader may rely on its page: what the functions that it calls, other processes and the
window must not do in the meantime, and that the reader then never leaves its page. -/

namespace ArgoBbs

/-- A reader in a list that is not empty: it has drawn the page, half as long in the preview. -/
structure Active (p : ListPage) (reading : Bool) : Prop where
  lastLine : 0 < p.lastLine
  settled : p.Settled
  half : reading = true → p.previewmode = true → p.screenLen = p.room / 2

/-- Only the lists of the digest are shown empty. -/
def Idle (p : ListPage) (cmdmode : CmdMode) : Prop :=
  Active p (cmdmode = .reading) ∨ p.lastLine = 0 ∧ p.entries = 0 ∧ cmdmode = .digest

def PendingOk (ch : ListKey) (mode : ListMode) (p : ListPage) (cmdmode : CmdMode) : Prop :=
  match mode with
  | .doNothing => Idle p cmdmode
  | .preUpdate => Active p (cmdmode = .reading)
  | .readNext | .readPrev => ch.isCommand = true ∧ Active p (cmdmode = .reading)
  | .partUpdate | .gotoNext => 0 < p.lastLine → p.Full
  | _ => True

section
variable {δ : Type}

/-- The page with which a reader has called a function of its table. -/
structure Called (r : ListReader δ) (ch : ListKey) (p : ListPage) : Prop where
  command : ch.isCommand = true
  active : Active p (r.cmdmode = .reading)
  entries : p.entries = r.entries
  recbase : p.recbase = r.recbase
  room : p.room = r.room

def ControlOk (r : ListReader δ) (p : ListPage) : Prop :=
  match r.control with
  | .waiting => Idle p r.cmdmode
  | .running ch .table called => Called r ch called
  | .running .. => True
  | .pending ch mode => PendingOk ch mode p r.cmdmode

/-- A function is running, and the page with which it has been called is good. -/
def RunningOk (r : ListReader δ) : Prop :=
  (∃ ch call called, r.control = .running ch call called) ∧ ∀ p, ControlOk r p

/-- The invariant, but for the kept positions and the innermost reader. -/
structure ListBase (s : ListState δ) : Prop where
  lines : 24 ≤ s.tLines
  lastLine : 0 ≤ s.lastLine
  sized : ∀ r ∈ s.readers, 20 ≤ r.room ∧
    (s.screenLen = r.room ∨ s.screenLen = r.room / 2 ∧ s.previewmode = true)
  same : ∀ r ∈ s.readers, ∀ r' ∈ s.readers, r.room = r'.room
  tail : ∀ r ∈ s.readers.tail, RunningOk r
  safe : ∀ a ∈ s.log, a.Safe

/-- The position can be kept while these readers are running. -/
def KeptFor (s : ListState δ) (k : KeepLoc) : Prop :=
  k.WellKept ∧ ∀ r ∈ s.readers, k.Fits r.room

structure ListInv (s : ListState δ) : Prop extends ListBase s where
  kept : ∀ d k, s.keeplist d = some k → KeptFor s k
  head : ∀ r ∈ s.readers.head?, ControlOk r (s.page r)

/-! ## The conditions -/

/-- A function of the table that returns a mode without a new page leaves the page as it was when
the function was called, or its length and the last line if the position is looked at again. -/
def ReturnMeets (s : ListState δ) (r : ListReader δ) (mode : ListMode) (called : ListPage) : Prop :=
  match mode with
  | .doNothing | .preUpdate | .readNext | .readPrev => s.page r = called
  | .partUpdate | .gotoNext =>
    s.lastLine = called.lastLine ∧ s.screenLen = called.screenLen
  | _ => True

/-- A page to which `move_cursor_line` turns is not cut off by the end of the file. -/
def ReadMeets (file : Option Nat) (p : ListPage) (next : Bool) : Prop :=
  (p.moveCursorLine next).2 = .reload →
    min p.lastLine ((p.moveCursorLine next).1.topLine + p.screenLen - 1) ≤ numRecords file

def TurnMeets (s : ListState δ) (r : ListReader δ) (mode : ListMode) : Prop :=
  match mode with
  | .fullUpdate =>
    (s.page r).UpdateMeets (s.records s.currdirect) (r.cmdmode = .reading) true s.tLines
  | .partUpdate =>
    (s.page r).UpdateMeets (s.records s.currdirect) (r.cmdmode = .reading) false s.tLines
  | .readNext => ReadMeets (s.records s.currdirect) (s.page r) true
  | .readPrev => ReadMeets (s.records s.currdirect) (s.page r) false
  | _ => True

/-- The window has the size for which the innermost reader has been called. -/
def Unresized (s : ListState δ) : Prop := ∀ r ∈ s.readers.head?, s.tLines - 4 = r.room

/-- The condition on a step. -/
def ListMeets (s : ListState δ) : ListEvent δ → Prop
  | .key ch _ => (ch = .command → 0 < s.lastLine) ∧ (ch = .quit ∨ ch = .preview → Unresized s)
  | .ret mode => ∀ r ∈ s.readers.head?, ∀ ch called, r.control = .running ch .table called →
    ReturnMeets s r mode called
  | .turn _ => ∀ r ∈ s.readers.head?, ∀ ch mode, r.control = .pending ch mode → TurnMeets s r mode
  | .setkeep .. | .fixkeep .. | .select .. => Unresized s
  | .enter cmdmode _ direct _ => Unresized s ∧
    (s.readers = [] → ∀ d k, s.keeplist d = some k →
      d = direct ∧ (cmdmode = .digest → numRecords (s.records direct) ≠ 0) ∨
        k.Fits (s.tLines - 4))
  | .resize _ | .write _ | .talk | .eof | .chdir _ | .digest _ => True

end

/-! ## What keeps the invariant -/

section
variable {δ : Type} {s : ListState δ} {r r₀ : ListReader δ} {control : ListControl δ}

theorem ListInv.keep (I : ListInv s) (d : δ) : KeptFor s (s.keep d) := by
  unfold ListState.keep
  cases hd : s.keeplist d with
  | some k => exact I.kept d k hd
  | none =>
    refine ⟨⟨Int.le_refl 1, .inl (Int.le_refl 1)⟩, fun r hr => ?_⟩
    have h20 := (I.sized r hr).1
    unfold KeepLoc.Fits
    dsimp only [Option.getD_none]
    omega

/-- The innermost reader leaves its page as it is. -/
theorem ListInv.goTo (I : ListInv s) {rest : List (ListReader δ)} (hr : s.readers = r₀ :: rest)
    (hroom : r.room = r₀.room)
    (hcontrol : ControlOk { r with control := control } (s.page r)) :
    ListInv (s.goTo r control) := by
  have hrooms : ∀ r' ∈ (s.goTo r control).readers, ∃ r'' ∈ s.readers, r'.room = r''.room := by
    intro r' hr'
    rcases List.mem_cons.mp hr' with rfl | hr'
    · exact ⟨r₀, hr ▸ List.mem_cons_self, hroom⟩
    · exact ⟨r', List.mem_of_mem_tail hr', rfl⟩
  refine ⟨⟨I.lines, I.lastLine, fun r' hr' => ?_, fun r' hr' r'' hr'' => ?_, I.tail, I.safe⟩,
    fun d k hk => ⟨(I.kept d k hk).1, fun r' hr' => ?_⟩, fun r' hr' => ?_⟩
  · obtain ⟨q, hq, hroom⟩ := hrooms r' hr'
    rw [hroom]
    exact I.sized q hq
  · obtain ⟨q, hq, hroom⟩ := hrooms r' hr'
    obtain ⟨q', hq', hroom'⟩ := hrooms r'' hr''
    rw [hroom, hroom']
    exact I.same q hq q' hq'
  · obtain ⟨q, hq, hroom⟩ := hrooms r' hr'
    rw [hroom]
    exact (I.kept d k hk).2 q hq
  · cases Option.some.inj hr'
    exact hcontrol

/-- The innermost reader returns. -/
theorem ListInv.leaveList (I : ListInv s) : ListInv s.leaveList where
  lines := I.lines
  lastLine := I.lastLine
  sized r hr := I.sized r (List.mem_of_mem_tail hr)
  same r hr r' hr' := I.same r (List.mem_of_mem_tail hr) r' (List.mem_of_mem_tail hr')
  tail r hr := I.tail r (List.mem_of_mem_tail hr)
  safe := I.safe
  kept d k hk := ⟨(I.kept d k hk).1, fun r hr => (I.kept d k hk).2 r (List.mem_of_mem_tail hr)⟩
  head r hr := (I.tail r (List.mem_of_mem_head? hr)).2 _

/-- What holds of the innermost reader does not depend on the page. -/
def Detached (s : ListState δ) : Prop := ∀ r ∈ s.readers.head?, ∀ p, ControlOk r p

theorem ListInv.page (I : ListInv s) {rest : List (ListReader δ)} (hr : s.readers = r₀ :: rest)
    (hroom : r.room = r₀.room) :
    (s.page r).WellKept ∧ (s.page r).Fits r.room ∧ (s.page r).Sized := by
  have hr₀ : r₀ ∈ s.readers := hr ▸ List.mem_cons_self
  obtain ⟨hkept, hfits⟩ := I.keep r.locmem
  obtain ⟨h20, hsize⟩ := I.sized r₀ hr₀
  rw [← hroom] at h20 hsize
  exact ⟨hkept, hroom ▸ hfits r₀ hr₀, ⟨h20, hsize⟩⟩

theorem ListInv.goodbye (I : ListInv s) : ListInv { s with readers := [] } where
  lines := I.lines
  lastLine := I.lastLine
  sized _ hr := absurd hr List.not_mem_nil
  same _ hr := absurd hr List.not_mem_nil
  tail _ hr := absurd hr List.not_mem_nil
  safe := I.safe
  kept d k hk := ⟨(I.kept d k hk).1, fun _ hr => absurd hr List.not_mem_nil⟩
  head _ hr := nomatch hr

theorem ListInv.left (I : ListInv s) {rest : List (ListReader δ)} (hr : s.readers = r₀ :: rest)
    (hroom : r.room = r₀.room) {ch : ListKey} (input : ListInput δ) : ListInv (s.left r ch input) := by
  unfold ListState.left
  split
  · have I' : ListInv (s.goTo r (.pending ch .newDirect)) := I.goTo hr hroom trivial
    exact ⟨⟨I'.lines, I'.lastLine, I'.sized, I'.same, I'.tail, I'.safe⟩, I'.kept, I'.head⟩
  · exact I.goTo hr hroom trivial

/-- `digestmode` and `currdirect` have no part in the invariant. -/
theorem ListInv.leaveDigest (I : ListInv s) (home : δ) : ListInv (s.leaveDigest home) :=
  ⟨⟨I.lines, I.lastLine, I.sized, I.same, I.tail, I.safe⟩, I.kept, I.head⟩

theorem ListInv.togglePreviewmode (I : ListInv s) (hd : Detached s)
    (hwindow : ∀ r ∈ s.readers, s.tLines - 4 = r.room)
    (hhalf : ∀ r ∈ s.readers, s.previewmode = true → s.screenLen = r.room / 2) :
    ListInv s.togglePreviewmode := by
  refine ⟨⟨I.lines, I.lastLine, fun r hr => ?_, I.same, I.tail, I.safe⟩, I.kept, fun r hr => hd r hr _⟩
  obtain ⟨h20, hsize⟩ := I.sized r hr
  refine ⟨h20, ?_⟩
  have hwin := hwindow r hr
  have hhalf := hhalf r hr
  unfold ListState.togglePreviewmode
  dsimp only
  split
  case isTrue hwhole =>
    refine .inr ⟨by omega, ?_⟩
    cases hpreview : s.previewmode with
    | false => rfl
    | true =>
      have hshort := hhalf hpreview
      omega
  case isFalse hshort => exact .inl hwin

/-- A position that fits in the window can be kept if the window has its size. -/
theorem ListBase.keptFor (B : ListBase s) (hwindow : Unresized s) {k : KeepLoc} (hk : k.WellKept)
    (hfits : k.Fits (s.tLines - 4)) : KeptFor s k := by
  refine ⟨hk, fun r hr => ?_⟩
  cases hs : s.readers with
  | nil => exact absurd (hs ▸ hr) List.not_mem_nil
  | cons r' rest =>
    have hroom := hwindow r' (hs ▸ rfl)
    rwa [B.same r hr r' (hs ▸ List.mem_cons_self), ← hroom]

theorem ListBase.keptFor_first (B : ListBase s) : KeptFor s ⟨1, 1⟩ := by
  refine ⟨⟨Int.le_refl 1, .inl (Int.le_refl 1)⟩, fun r hr => ?_⟩
  have h20 := (B.sized r hr).1
  unfold KeepLoc.Fits
  dsimp only
  omega

theorem ListInv.recountDirect (I : ListInv s) (hd : Detached s) (input : ListInput δ) :
    ListInv (s.recountDirect input) ∧ (s.recountDirect input).readers = s.readers := by
  have hnum : 0 ≤ numRecords (s.records s.currdirect) := Int.natCast_nonneg _
  have I' : ListInv { s with lastLine := numRecords (s.records s.currdirect) } :=
    ⟨⟨I.lines, hnum, I.sized, I.same, I.tail, I.safe⟩, I.kept, fun r hr => hd r hr _⟩
  unfold ListState.recountDirect
  dsimp only
  split
  · exact ⟨I'.leaveDigest input.home, rfl⟩
  · exact ⟨I', rfl⟩

/-- All readers have called a function, if the innermost one has. -/
theorem ListInv.running (I : ListInv s) (hcalls : s.calls = true) :
    ∀ r ∈ s.readers, RunningOk r := by
  unfold ListState.calls at hcalls
  cases hs : s.running with
  | none =>
    rw [hs, Option.isSome_none, Bool.or_false, List.isEmpty_iff] at hcalls
    rw [hcalls]
    exact fun r hr => absurd hr List.not_mem_nil
  | some r =>
    obtain ⟨⟨rest, hr⟩, ch, call, called, hc⟩ := ListState.running_eq_some hs
    have hhead : RunningOk r := by
      have h := I.head r (hr ▸ rfl)
      unfold RunningOk ControlOk at *
      rw [hc] at h ⊢
      exact ⟨⟨ch, call, called, rfl⟩, fun _ => by cases call <;> exact h⟩
    intro r' hr'
    rw [hr] at hr'
    rcases List.mem_cons.mp hr' with rfl | hr'
    · exact hhead
    · exact I.tail r' (by rwa [hr])

theorem ListInv.detached (I : ListInv s) (hcalls : s.calls = true) : Detached s :=
  fun r hr => (I.running hcalls r (List.mem_of_mem_head? hr)).2

/-- Nor on the position alone. -/
def KeepFree (s : ListState δ) : Prop :=
  ∀ r ∈ s.readers.head?, ∀ k, ControlOk r { s.page r with toKeepLoc := k }

theorem Detached.keepFree (hd : Detached s) : KeepFree s := fun r hr _ => hd r hr _

/-- What a function of the table returns under its condition. -/
theorem pendingOk_ret {ch : ListKey} {mode : ListMode} {called : ListPage} (hcalled : Called r ch called)
    (hmeets : ReturnMeets s r mode called) : PendingOk ch mode (s.page r) r.cmdmode := by
  cases mode with
  | doNothing =>
    have hsame : s.page r = called := hmeets
    exact .inl (hsame.symm ▸ hcalled.active)
  | preUpdate =>
    have hsame : s.page r = called := hmeets
    exact hsame.symm ▸ hcalled.active
  | readNext | readPrev =>
    have hsame : s.page r = called := hmeets
    exact ⟨hcalled.command, hsame.symm ▸ hcalled.active⟩
  | partUpdate | gotoNext =>
    obtain ⟨hlast, hlen⟩ := hmeets
    intro _
    have hfull := hcalled.active.settled.full
    unfold ListPage.Full at *
    rw [hcalled.entries, hcalled.recbase, ← hlast, ← hlen] at hfull
    exact hfull
  | _ => trivial

theorem ListInv.ret (I : ListInv s) {rest : List (ListReader δ)} (hr : s.readers = r :: rest)
    {mode : ListMode}
    (hmeets : ∀ ch called, r.control = .running ch .table called → ReturnMeets s r mode called) :
    ListInv (s.ret r mode) := by
  have hok := I.head r (hr ▸ rfl)
  unfold ControlOk at hok
  unfold ListState.ret
  split
  case h_1 ch called hc =>
    rw [hc] at hok
    exact I.goTo hr rfl (pendingOk_ret hok (hmeets ch called hc))
  case h_2 => exact I.goTo hr rfl trivial
  case h_3 ch sdirect called hc =>
    have I' : ListInv { s with currdirect := sdirect } :=
      ⟨⟨I.lines, I.lastLine, I.sized, I.same, I.tail, I.safe⟩, I.kept, I.head⟩
    exact I'.goTo hr rfl trivial
  case h_4 => exact I

end

section
variable {δ : Type} [DecidableEq δ] {s : ListState δ} {r r₀ : ListReader δ} {p : ListPage}
  {ch : ListKey} {control : ListControl δ} {accesses : List ListPage.Access}

@[simp] theorem keeplist_leave : (s.leave r p control accesses).keeplist =
    Function.update s.keeplist r.locmem (some p.toKeepLoc) := rfl

@[simp] theorem keeplist_putKeep (d : δ) (k : KeepLoc) :
    (s.putKeep d k).keeplist = Function.update s.keeplist d (some k) := rfl

/-- The page that a reader sees after it has left its list so. -/
theorem page_leave (hloc : r₀.locmem = r.locmem) (hentries : r₀.entries = p.entries)
    (hbase : r₀.recbase = p.recbase) (hroom : r₀.room = p.room) :
    (s.leave r p control accesses).page r₀ = p := by
  unfold ListState.page ListState.keep ListState.leave
  dsimp only
  rw [hloc, Function.update_self, hentries, hbase, hroom]
  rfl

variable {rest : List (ListReader δ)}

theorem ListBase.rooms_leave (B : ListBase s) (hr : s.readers = r₀ :: rest)
    (hroom : r.room = r₀.room) (p : ListPage) (control : ListControl δ)
    (accesses : List ListPage.Access) :
    ∀ r' ∈ (s.leave r p control accesses).readers, r'.room = r.room := by
  intro r' hr'
  rcases List.mem_cons.mp hr' with rfl | hr'
  · rfl
  · exact (B.same r' (List.mem_of_mem_tail hr') r₀ (hr ▸ List.mem_cons_self)).trans hroom.symm

/-- The innermost reader changes its page. -/
theorem ListBase.leave (B : ListBase s) (hr : s.readers = r₀ :: rest) (hroom : r.room = r₀.room)
    (hkept : ∀ d k, d ≠ r.locmem → s.keeplist d = some k → KeptFor s k)
    (hp : p.WellKept) (hfits : p.Fits r.room) (hproom : p.room = r.room) (hsized : p.Sized)
    (hlast : 0 ≤ p.lastLine)
    (hcontrol : ControlOk { r with entries := p.entries, recbase := p.recbase, control := control } p)
    (hsafe : ∀ a ∈ accesses, a.Safe) :
    ListInv (s.leave r p control accesses) := by
  have hrooms := B.rooms_leave hr hroom p control accesses
  refine ⟨⟨B.lines, hlast, fun r' hr' => ?_, fun r' hr' r'' hr'' => ?_, B.tail, fun a ha => ?_⟩,
    fun d k hk => ?_, fun r' hr' => ?_⟩
  · rw [hrooms r' hr', ← hproom]
    exact ⟨hsized.room, hsized.size⟩
  · rw [hrooms r' hr', hrooms r'' hr'']
  · exact (List.mem_append.mp ha).elim (B.safe a) (hsafe a)
  · rcases eq_or_ne d r.locmem with rfl | hne
    · rw [keeplist_leave, Function.update_self] at hk
      cases hk
      exact ⟨hp, fun r' hr' => (hrooms r' hr').symm ▸ hfits⟩
    · rw [keeplist_leave, Function.update_of_ne hne] at hk
      have hk := hkept d k hne hk
      refine ⟨hk.1, fun r' hr' => ?_⟩
      rw [hrooms r' hr', hroom]
      exact hk.2 r₀ (hr ▸ List.mem_cons_self)
  · cases Option.some.inj hr'
    have hpage : (s.leave r p control accesses).page
        { r with entries := p.entries, recbase := p.recbase, control := control } = p :=
      page_leave rfl rfl rfl hproom.symm
    rw [hpage]
    exact hcontrol

theorem ListInv.leave (I : ListInv s) (hr : s.readers = r₀ :: rest) (hroom : r.room = r₀.room)
    (hp : p.WellKept) (hfits : p.Fits r.room) (hproom : p.room = r.room) (hsized : p.Sized)
    (hlast : 0 ≤ p.lastLine)
    (hcontrol : ControlOk { r with entries := p.entries, recbase := p.recbase, control := control } p)
    (hsafe : ∀ a ∈ accesses, a.Safe) :
    ListInv (s.leave r p control accesses) :=
  I.toListBase.leave hr hroom (fun d k _ hk => I.kept d k hk) hp hfits hproom hsized hlast hcontrol
    hsafe

theorem ListInv.putKeep (I : ListInv s) (hd : KeepFree s) {d : δ} {k : KeepLoc} (hk : KeptFor s k) :
    ListInv (s.putKeep d k) where
  lines := I.lines
  lastLine := I.lastLine
  sized := I.sized
  same := I.same
  tail := I.tail
  safe := I.safe
  kept d' k' hk' := by
    rcases eq_or_ne d' d with rfl | hne
    · rw [keeplist_putKeep, Function.update_self] at hk'
      cases hk'
      exact hk
    · rw [keeplist_putKeep, Function.update_of_ne hne] at hk'
      exact I.kept d' k' hk'
  head r hr := hd r hr _

theorem ListInv.getkeep (I : ListInv s) (hd : KeepFree s) {d : δ} {k : KeepLoc} (hk : KeptFor s k) :
    ListInv (s.getkeep d k) := by
  unfold ListState.getkeep
  split
  · exact I.putKeep hd hk
  · split
    case isTrue hcrs =>
      obtain ⟨⟨hpos, hle⟩, hfits⟩ := I.keep d
      refine I.putKeep hd ⟨⟨hpos, .inl ?_⟩, fun r hr => ?_⟩
      · dsimp only
        omega
      · have h20 := (I.sized r hr).1
        unfold KeepLoc.Fits
        dsimp only
        omega
    case isFalse => exact I

@[simp] theorem readers_getkeep (d : δ) (k : KeepLoc) : (s.getkeep d k).readers = s.readers := by
  unfold ListState.getkeep
  split
  · rfl
  · split <;> rfl

@[simp] theorem tLines_getkeep (d : δ) (k : KeepLoc) : (s.getkeep d k).tLines = s.tLines := by
  unfold ListState.getkeep
  split
  · rfl
  · split <;> rfl

theorem ListInv.setkeep (I : ListInv s) (hd : Detached s) (hwindow : Unresized s) (d : δ) (pos : Int) :
    ListInv ((s.getkeep d ⟨1, 1⟩).putKeep d
      (((s.getkeep d ⟨1, 1⟩).keep d).setkeep (s.getkeep d ⟨1, 1⟩).tLines pos)) := by
  have I' := I.getkeep hd.keepFree I.keptFor_first (d := d)
  have hd' : Detached (s.getkeep d ⟨1, 1⟩) := by
    unfold Detached
    rwa [readers_getkeep]
  have hwindow' : Unresized (s.getkeep d ⟨1, 1⟩) := by
    unfold Unresized
    rwa [readers_getkeep, tLines_getkeep]
  exact I'.putKeep hd'.keepFree (I'.keptFor hwindow' ((I'.keep d).1.setkeep I'.lines)
    (KeepLoc.fits_setkeep I'.lines))

theorem ListInv.fixkeep (I : ListInv s) (hd : Detached s) (hwindow : Unresized s) (d : δ)
    (first : Int) :
    ListInv ((s.getkeep d ⟨1, 1⟩).putKeep d
      (((s.getkeep d ⟨1, 1⟩).keep d).fixkeep (s.getkeep d ⟨1, 1⟩).tLines first)) := by
  have I' := I.getkeep hd.keepFree I.keptFor_first (d := d)
  have hd' : Detached (s.getkeep d ⟨1, 1⟩) := by
    unfold Detached
    rwa [readers_getkeep]
  obtain ⟨hkept, hfits⟩ := I'.keep d
  refine I'.putKeep hd'.keepFree ⟨hkept.fixkeep I'.lines, fun r hr => ?_⟩
  have hroom : (s.getkeep d ⟨1, 1⟩).tLines - 4 = r.room := by
    rw [readers_getkeep] at hr
    rw [tLines_getkeep]
    cases hs : s.readers with
    | nil => exact absurd (hs ▸ hr) List.not_mem_nil
    | cons r' rest =>
      rw [I.same r hr r' (hs ▸ List.mem_cons_self)]
      exact hwindow r' (hs ▸ rfl)
  rw [← hroom]
  exact KeepLoc.Fits.fixkeep (hroom ▸ hfits r hr) I'.lines

/-! ## The keys -/

theorem ListInv.moved (I : ListInv s) (hr : s.readers = r₀ :: rest) (hroom : r.room = r₀.room)
    (ha : Active (s.page r) (r.cmdmode = .reading)) {res : ListPage × ListMode}
    (hmoved : (s.page r).Moved (r.cmdmode = .reading) res) : ListInv (s.moved r ch res) := by
  obtain ⟨-, -, hsized⟩ := I.page hr hroom
  obtain ⟨res, mode⟩ := res
  obtain ⟨hkept, hfits, hpage, hmode⟩ := hmoved
  dsimp only at hkept hfits hpage hmode
  have hfull : res.Full := by
    rw [hpage]
    exact ha.settled.full
  have hactive (hs : res.Settled) : Active res (r.cmdmode = .reading) := by
    refine ⟨?_, hs, ?_⟩
    · rw [hpage]
      exact ha.lastLine
    · rw [hpage]
      exact ha.half
  refine I.leave hr hroom hkept (hfits r.room hsized.bounds.2 hsized.room) ?_ ?_ ?_ ?_
    (List.forall_mem_nil _)
  · rw [hpage]
    rfl
  · rw [hpage]
    exact ⟨hsized.room, hsized.size⟩
  · rw [hpage]
    exact I.lastLine
  · dsimp only
    rcases hmode with rfl | ⟨rfl, hs⟩
    · exact fun _ => hfull
    · unfold ListPage.shown
      split
      · exact hactive hs
      · exact .inl (hactive hs)

theorem ListInv.call (I : ListInv s) (hr : s.readers = r₀ :: rest) (hroom : r.room = r₀.room)
    (ha : Active (s.page r) (r.cmdmode = .reading)) (hch : ch.isCommand = true) :
    ListInv (s.call r ch) := by
  obtain ⟨hkept, hfits, hsized⟩ := I.page hr hroom
  refine I.leave hr hroom hkept hfits rfl hsized I.lastLine ⟨hch, ha, rfl, rfl, rfl⟩ ?_
  intro a h
  rw [List.mem_singleton.mp h]
  exact ha.settled.safe

/-- A reader in a list that is not empty. -/
theorem Idle.active {cmdmode : CmdMode} (h : Idle p cmdmode) (hlast : ¬p.lastLine ≤ 0) :
    Active p (cmdmode = .reading) :=
  h.resolve_right fun h => hlast (Int.le_of_eq h.1)

theorem ListInv.iReadKey (I : ListInv s) (hr : s.readers = r₀ :: rest) (hroom : r.room = r₀.room)
    (hidle : Idle (s.page r) r.cmdmode) (hcommand : ch = .command → 0 < s.lastLine)
    (hwindow : ch = .quit ∨ ch = .preview → s.tLines - 4 = r.room) (input : ListInput δ) :
    ListInv (s.iReadKey r ch input) := by
  obtain ⟨hkept, hfits, hsized⟩ := I.page hr hroom
  obtain ⟨hten, hle⟩ := hsized.bounds
  have hnothing : ListInv (s.goTo r (.pending ch .doNothing)) := I.goTo hr hroom hidle
  -- a key that moves the cursor in a list that is not empty
  have hmove (res : ListPage × ListMode) (hres : Active (s.page r) (r.cmdmode = .reading) →
      (s.page r).Moved (r.cmdmode = .reading) res) :
      ListInv (if (s.page r).lastLine ≤ 0 then s.goTo r (.pending ch .doNothing)
        else s.moved r ch res) := by
    split
    · exact hnothing
    case isFalse hlast =>
      have ha := hidle.active hlast
      exact I.moved hr hroom ha (hres ha)
  unfold ListState.iReadKey
  cases ch with
  | up => exact hmove _ fun ha => ha.settled.goTo ha.lastLine (by omega) (.inl (by omega))
  | down => exact hmove _ fun ha => ha.settled.goTo ha.lastLine (Int.le_refl 0) (.inl (by omega))
  | pageDown => exact hmove (ListPage.pageDown _ _) fun ha => ha.settled.pageDown (by omega)
  | pageUp => exact hmove (ListPage.pageUp _ _) fun ha => ha.settled.pageUp (by omega)
  | home => exact hmove (ListPage.home _) fun _ => ListPage.moved_home
  | toEnd => exact hmove (ListPage.toEnd _ _) fun ha => ha.settled.toEnd
  | digit | erase | other => exact hnothing
  | goodbye =>
    exact I.goodbye
  | screen => exact I.goTo hr hroom trivial
  | mail =>
    dsimp only
    split
    · exact hnothing
    · exact I.goTo hr hroom trivial
  | left => exact I.left hr hroom input
  | enter | right =>
    dsimp only
    split
    · exact hnothing
    case isFalse hlast => exact I.call hr hroom (hidle.active hlast) rfl
  | command => exact I.call hr hroom (hidle.active (Int.not_le.mpr (hcommand rfl))) rfl
  | quit =>
    dsimp only
    split
    case isFalse => exact I.left hr hroom input
    case isTrue hdigest =>
      have ha : Active (s.page r) (r.cmdmode = .reading) := by
        refine hidle.resolve_right fun h => ?_
        rw [h.2.2] at hdigest
        exact absurd hdigest.2.2 Bool.false_ne_true
      have I' : ListInv (s.leave r (s.page r) (.pending .quit .newDirect) [.read (s.page r)]) := by
        refine I.leave hr hroom hkept hfits rfl hsized I.lastLine trivial fun a h => ?_
        rw [List.mem_singleton.mp h]
        exact ha.settled.safe
      refine (I'.leaveDigest input.home).setkeep (fun r' hr' => ?_) (fun r' hr' => ?_) _ _
      · cases Option.some.inj hr'
        exact fun _ => trivial
      · cases Option.some.inj hr'
        exact hwindow (.inl rfl)
  | preview =>
    dsimp only
    split
    case isFalse => exact hnothing
    case isTrue hreading =>
      have hreading : r.cmdmode = .reading := hreading
      have ha : Active (s.page r) (r.cmdmode = .reading) := by
        refine hidle.resolve_right fun h => ?_
        rw [h.2.2] at hreading
        cases hreading
      have I' : ListInv
          (s.leave r (s.page r) (.pending .preview .modeChanged) [.read (s.page r)]) := by
        refine I.leave hr hroom hkept hfits rfl hsized I.lastLine trivial fun a h => ?_
        rw [List.mem_singleton.mp h]
        exact ha.settled.safe
      have hrooms := I.rooms_leave hr hroom (s.page r) (.pending .preview .modeChanged)
        [.read (s.page r)]
      refine I'.togglePreviewmode (fun r' hr' => ?_) (fun r' hr' => ?_) fun r' hr' hpreview => ?_
      · cases Option.some.inj hr'
        exact fun _ => trivial
      · rw [hrooms r' hr']
        exact hwindow (.inr rfl)
      · rw [hrooms r' hr']
        exact ha.half (decide_eq_true hreading) hpreview

/-- The jump to a number, also in an empty list -/
theorem ListInv.jump (I : ListInv s) (hr : s.readers = r₀ :: rest) (hroom : r.room = r₀.room)
    (hidle : Idle (s.page r) r.cmdmode) (circle : Bool) (val : Int) :
    ListInv (s.moved r ch ((s.page r).goTo circle (r.cmdmode = .reading) val 10)) := by
  rcases hidle with ha | ⟨hlast, hentries, hdigest⟩
  · exact I.moved hr hroom ha
      (ha.settled.goTo ha.lastLine (Int.le_of_lt (by decide)) (.inr (by decide)))
  · obtain ⟨hkept, hfits, hsized⟩ := I.page hr hroom
    have h20 : 20 ≤ r.room := hsized.room
    have hcursor : ((s.page r).cursorPos circle val 10).1.WellKept ∧
        ((s.page r).cursorPos circle val 10).1.Fits r.room :=
      ListPage.cursorPos_kept hkept.1 I.lastLine (Int.le_of_lt (by decide)) hsized.bounds.2
        (by omega)
    obtain ⟨hkept', hfits'⟩ := hcursor
    have hpage := ListPage.cursorPos_page (s.page r) circle val 10
    refine I.leave hr hroom hkept' hfits' ?_ ?_ ?_ ?_ (List.forall_mem_nil _)
    · unfold ListPage.goTo
      rw [hpage]
      rfl
    · unfold ListPage.goTo
      rw [hpage]
      exact ⟨hsized.room, hsized.size⟩
    · unfold ListPage.goTo
      rw [hpage]
      exact I.lastLine
    · have hshown : (s.page r).shown (r.cmdmode = .reading) = .doNothing := by
        unfold ListPage.shown
        rw [hdigest]
        exact if_neg (by simp)
      unfold ListPage.goTo
      dsimp only
      rw [hshown, hpage]
      split
      · exact fun h => absurd h (Int.not_lt.mpr (Int.le_of_eq hlast))
      · exact .inr ⟨hlast, hentries, hdigest⟩

theorem ListInv.key (I : ListInv s) (hr : s.readers = r :: rest) (hc : r.control = .waiting)
    {input : ListInput δ} (hmeets : ListMeets s (.key ch input)) :
    ListInv (s.key r ch input) := by
  have hidle : Idle (s.page r) r.cmdmode := by
    have h := I.head r (hr ▸ rfl)
    unfold ControlOk at h
    rwa [hc] at h
  have hwindow (h : ch = .quit ∨ ch = .preview) : s.tLines - 4 = r.room :=
    hmeets.2 h r (hr ▸ rfl)
  unfold ListState.key
  split
  · exact I.goTo hr rfl hidle
  · split
    · exact I.iReadKey hr rfl hidle hmeets.1 hwindow input
    · exact I.goTo hr rfl hidle
  · split
    · exact I.iReadKey hr rfl hidle hmeets.1 hwindow input
    · exact I.jump (r := { r with lbuf := [] }) hr rfl hidle _ _
  · exact I.iReadKey (r := { r with lbuf := [] }) hr rfl hidle hmeets.1 hwindow input

/-! ## What the keys return -/

/-- A page whose first entry and those behind it are there has an entry under the cursor. -/
theorem settled_entries (h : p.Settled) : 0 < p.entries := by
  obtain ⟨hle, hlt, -⟩ := h.safe
  omega

/-- `READ_NEXT` and `READ_PREV` from a page that has been drawn -/
theorem ListInv.readOn (I : ListInv s) (hr : s.readers = r₀ :: rest) (hroom : r.room = r₀.room)
    (ha : Active (s.page r) (r.cmdmode = .reading)) (hch : ch.isCommand = true) (next : Bool)
    (hmeets : ReadMeets (s.records s.currdirect) (s.page r) next) (input : ListInput δ) :
    ListInv (s.readOn r ch next input) := by
  obtain ⟨-, -, hsized⟩ := I.page hr hroom
  obtain ⟨hten, hle⟩ := hsized.bounds
  have hstep := ha.settled.moveCursorLine (by omega) next
  unfold ReadMeets at hmeets
  unfold ListState.readOn
  generalize (s.page r).moveCursorLine next = res at *
  obtain ⟨q, move⟩ := res
  obtain ⟨hkept, hfits, hpage, hin, hload⟩ := hstep
  dsimp only at *
  have hroom' : q.room = r.room := hpage ▸ rfl
  have hqsized : q.Sized := by
    rw [hpage]
    exact ⟨hsized.room, hsized.size⟩
  have hqlast : q.lastLine = s.lastLine := hpage ▸ rfl
  have hqlen : q.screenLen = s.screenLen := hpage ▸ rfl
  have hqfits : q.Fits r.room := hfits r.room hle
  have hpos : 0 < s.lastLine := ha.lastLine
  -- the key is looked up again
  have hagain (q' : ListPage) (r' : ListReader δ) (accesses : List ListPage.Access)
      (hr' : r' = { r with entries := q'.entries, recbase := q'.recbase })
      (heq : q'.toKeepLoc = q.toKeepLoc ∧ q'.lastLine = q.lastLine ∧ q'.screenLen = q.screenLen ∧
        q'.previewmode = q.previewmode ∧ q'.room = q.room)
      (hs : q'.Settled) (hsafe : ∀ a ∈ accesses, a.Safe) :
      ListInv ((s.leave r q' .waiting accesses).iReadKey r' ch input) := by
    subst hr'
    obtain ⟨hkeep, hlast', hlen', hpreview', hroom''⟩ := heq
    have hactive : Active q' (r.cmdmode = .reading) := by
      refine ⟨(hlast'.trans hqlast).symm ▸ hpos, hs, fun hreading hpreview => ?_⟩
      rw [hlen', hqlen, hroom'', hroom']
      refine ha.half hreading ?_
      rw [hpreview', hpage] at hpreview
      exact hpreview
    have I' : ListInv (s.leave r q' .waiting accesses) := by
      refine I.leave hr hroom (ListPage.wellKept_of_settled hs) ?_ (hroom''.trans hroom') ?_
        ((hlast'.trans hqlast).symm ▸ I.lastLine) (.inl hactive) hsafe
      · rw [hkeep]
        exact hqfits
      · refine ⟨?_, ?_⟩
        · rw [hroom'']
          exact hqsized.room
        · rw [hlen', hroom'', hpreview']
          exact hqsized.size
    have hpage' : (s.leave r q' .waiting accesses).page
        { r with entries := q'.entries, recbase := q'.recbase } = q' :=
      page_leave rfl rfl rfl (hroom''.trans hroom').symm
    refine I'.iReadKey (r := { r with entries := q'.entries, recbase := q'.recbase }) rfl rfl ?_
      (fun _ => hactive.lastLine) (fun h => ?_) input
    · rw [hpage']
      exact .inl hactive
    · rcases h with rfl | rfl <;> cases hch
  cases move with
  | refused =>
    exact I.leave hr hroom hkept hqfits hroom' hqsized (hqlast ▸ I.lastLine) trivial
      (List.forall_mem_nil _)
  | inPage =>
    refine hagain q r [] ?_ ⟨rfl, rfl, rfl, rfl, rfl⟩ (hin rfl) (List.forall_mem_nil _)
    rw [hpage]
    rfl
  | reload =>
    dsimp only
    have hplaced := hload rfl
    have hs : (({ q with recbase := q.topLine } : ListPage).load r.src
        (s.records s.currdirect)).Settled := by
      refine ⟨⟨hplaced.top_pos, hplaced.top_le, hplaced.le_last⟩, hfits _ (Int.le_of_eq hqlen.symm), rfl,
        ListPage.load_full ?_ hplaced.top_pos ?_ ?_⟩
      · dsimp only
        omega
      · dsimp only
        have h10 : 10 ≤ s.screenLen := hten
        omega
      · dsimp only
        rw [hqlast, hqlen]
        exact hmeets rfl
    rw [if_neg (Int.not_le.mpr (settled_entries hs))]
    refine hagain _ _ _ rfl ⟨rfl, rfl, rfl, rfl, rfl⟩ hs fun a h => ?_
    rw [List.mem_singleton.mp h]
    exact ListPage.loaded_safe (Int.le_trans (by decide) hqsized.bounds.1) hqsized.bounds.2

theorem keeplist_getkeep_ne {d d' : δ} (k : KeepLoc) (hne : d' ≠ d) :
    (s.getkeep d k).keeplist d' = s.keeplist d' := by
  unfold ListState.getkeep
  split
  · exact Function.update_of_ne hne ..
  · split
    · exact Function.update_of_ne hne ..
    · rfl

theorem keep_putKeep (d : δ) (k : KeepLoc) : (s.putKeep d k).keep d = k := by
  unfold ListState.keep
  rw [keeplist_putKeep, Function.update_self]
  rfl

/-- What `getkeep` gives has the cursor in the list, or is new. -/
theorem keep_getkeep (d : δ) (k : KeepLoc) : (s.getkeep d k).keep d = k ∨
    1 ≤ ((s.getkeep d k).keep d).crsLine ∧
      ∃ k', s.keeplist d = some k' ∧ ((s.getkeep d k).keep d).topLine = k'.topLine ∧
        (k'.WellKept → ((s.getkeep d k).keep d).WellKept) := by
  unfold ListState.getkeep
  cases hd : s.keeplist d with
  | none => exact .inl (keep_putKeep d k)
  | some k' =>
    have hkeep : s.keep d = k' := by
      unfold ListState.keep
      rw [hd]
      rfl
    rw [if_neg (by simp), hkeep]
    refine .inr ?_
    split
    · rw [keep_putKeep]
      refine ⟨Int.le_refl 1, k', rfl, rfl, fun hk => ⟨hk.1, .inl ?_⟩⟩
      have h := hk.2
      dsimp only
      omega
    · rw [hkeep]
      exact ⟨by omega, k', rfl, rfl, id⟩

theorem ListBase.getkeep (B : ListBase s) (d : δ) (k : KeepLoc) : ListBase (s.getkeep d k) := by
  unfold ListState.getkeep
  split
  · exact ⟨B.lines, B.lastLine, B.sized, B.same, B.tail, B.safe⟩
  · split
    · exact ⟨B.lines, B.lastLine, B.sized, B.same, B.tail, B.safe⟩
    · exact B

/-- The position in a directory for which nothing has been kept. -/
theorem keptFor_new {screenLen last room : Int} (hten : 10 ≤ screenLen) (hle : screenLen ≤ room)
    (hlast : 0 ≤ last) :
    let k : KeepLoc := ⟨if last - screenLen + 1 < 1 then 1 else last - screenLen + 1, last⟩
    k.WellKept ∧ k.Fits room := by
  unfold KeepLoc.WellKept KeepLoc.Fits
  dsimp only
  split <;> omega

theorem top_getkeep (I : ListInv s) {k : KeepLoc} (htop : 1 ≤ k.topLine) (d : δ) :
    1 ≤ ((s.getkeep d k).keep d).topLine := by
  rcases keep_getkeep d k with h | ⟨-, k', hk', htop', -⟩
  · rw [h]
    exact htop
  · rw [htop']
    exact (I.kept d k' hk').1.1

/-- `cursor_pos` looks only at the first entry of the page that it leaves. -/
theorem ListBase.leaveCursor (B : ListBase s) (hr : s.readers = r₀ :: rest) (hroom : r.room = r₀.room)
    (hkept : ∀ d k, d ≠ r.locmem → s.keeplist d = some k → KeptFor s k) (htop : 1 ≤ p.topLine)
    (hproom : p.room = r.room) (hsized : p.Sized) (hlast : 0 ≤ p.lastLine) (circle : Bool)
    (val base : Int) (hcontrol : ∀ r' : ListReader δ, ∀ q : ListPage, r'.control = control →
      q.lastLine = p.lastLine → q.screenLen = p.screenLen → q.entries = p.entries →
        q.recbase = base → ControlOk r' q) :
    ListInv (s.leave r { (p.cursorPos circle val 1).1 with recbase := base } control []) := by
  have h20 := hsized.room
  obtain ⟨hkept', hfits'⟩ := @ListPage.cursorPos_kept p circle val 1 htop hlast
    (Int.le_of_lt (by decide)) p.room hsized.bounds.2 (by omega)
  have hpage := ListPage.cursorPos_page p circle val 1
  refine B.leave hr hroom hkept hkept' (hproom ▸ hfits') ?_ ?_ ?_ (hcontrol _ _ rfl ?_ ?_ ?_ rfl)
    (List.forall_mem_nil _)
  · rw [hpage]
    exact hproom
  · rw [hpage]
    exact ⟨hsized.room, hsized.size⟩
  · rw [hpage]
    exact hlast
  all_goals
    rw [hpage]

theorem ListInv.changeDirect (I : ListInv s) (hd : Detached s) (hr : s.readers = r :: rest)
    (mode : ListMode) (input : ListInput δ) : ListInv (s.changeDirect r ch mode input) := by
  obtain ⟨I', hreaders⟩ := I.recountDirect hd input
  unfold ListState.changeDirect
  generalize s.recountDirect input = s' at *
  have hr' : s'.readers = r :: rest := hreaders.trans hr
  have hd' : Detached s' := by
    unfold Detached
    rwa [hreaders]
  obtain ⟨hkept, hfits, hsized⟩ := I'.page hr' rfl
  obtain ⟨hten, hle⟩ := hsized.bounds
  have h20 : 20 ≤ r.room := hsized.room
  have hlast := I'.lastLine
  dsimp only
  split
  · exact I'.leave hr' rfl hkept hfits rfl ⟨hsized.room, hsized.size⟩ hlast trivial
      (List.forall_mem_nil _)
  · -- `cursor_pos` looks at the first entry of the page only
    unfold ListState.openDirect
    dsimp only
    have hk : 1 ≤ (if input.number < 1 then 1 else input.number) := by
      split <;> omega
    generalize (if input.number < 1 then 1 else input.number) = line at *
    have B := I'.toListBase.getkeep s'.currdirect ⟨line, s'.lastLine⟩
    have hr'' := (readers_getkeep s'.currdirect ⟨line, s'.lastLine⟩).trans hr'
    obtain ⟨h20, hsize⟩ := B.sized r (hr'' ▸ List.mem_cons_self)
    refine B.leaveCursor (r := { r with locmem := s'.currdirect })
      (p := (s'.getkeep s'.currdirect ⟨line, s'.lastLine⟩).page { r with locmem := s'.currdirect })
      hr'' rfl (fun d k hne hk => ?_) (top_getkeep I' hk _) rfl ⟨h20, hsize⟩ B.lastLine _ _ (-1)
      fun r' q hc _ _ _ _ => ?_
    · rw [keeplist_getkeep_ne _ hne] at hk
      refine ⟨(I'.kept d k hk).1, fun r' hr' => (I'.kept d k hk).2 r' ?_⟩
      rwa [readers_getkeep] at hr'
    · unfold ControlOk
      rw [hc]
      trivial
  · unfold ListState.openDirect
    dsimp only
    have hnew : KeepLoc.WellKept
          ⟨if s'.lastLine - s'.screenLen + 1 < 1 then 1 else s'.lastLine - s'.screenLen + 1,
            s'.lastLine⟩ ∧
        KeepLoc.Fits
          ⟨if s'.lastLine - s'.screenLen + 1 < 1 then 1 else s'.lastLine - s'.screenLen + 1,
            s'.lastLine⟩ r.room :=
      keptFor_new hten hle hlast
    generalize (if s'.lastLine - s'.screenLen + 1 < 1 then 1 else s'.lastLine - s'.screenLen + 1) =
      line at *
    have I'' : ListInv (s'.getkeep s'.currdirect ⟨line, s'.lastLine⟩) := by
      refine I'.getkeep hd'.keepFree ⟨hnew.1, fun r' hr'' => ?_⟩
      rw [I'.same r' hr'' r (hr' ▸ List.mem_cons_self)]
      exact hnew.2
    have hr'' := (readers_getkeep s'.currdirect ⟨line, s'.lastLine⟩).trans hr'
    obtain ⟨hkept, hfits, hsized⟩ := I''.page (r := { r with locmem := s'.currdirect }) hr'' rfl
    exact I''.leave (r := { r with locmem := s'.currdirect }) hr'' rfl hkept hfits rfl
      ⟨hsized.room, hsized.size⟩ I''.lastLine trivial (List.forall_mem_nil _)

/-- The loop ends with a page that has been drawn, or with an empty list. -/
theorem ListInv.update (I : ListInv s) (hr : s.readers = r₀ :: rest) (hroom : r.room = r₀.room)
    {res : ListPage × List ListPage.Access} (hsafe : ∀ a ∈ res.2, a.Safe)
    (hproom : res.1.room = r.room) (hsized : res.1.Sized)
    (hlist : (res.1.lastLine = 0 ∧ res.1.entries = 0 ∧ res.1.WellKept ∧ res.1.Fits r.room) ∨
      Active res.1 (r.cmdmode = .reading)) (input : ListInput δ) :
    ListInv (s.update r res input) := by
  have hplace : res.1.WellKept ∧ res.1.Fits r.room ∧ 0 ≤ res.1.lastLine := by
    rcases hlist with ⟨hlast, -, hkept, hfits⟩ | ha
    · exact ⟨hkept, hfits, Int.le_of_eq hlast.symm⟩
    · refine ⟨ListPage.wellKept_of_settled ha.settled, ?_, Int.le_of_lt ha.lastLine⟩
      have hfits := ha.settled.fits
      have hle := hsized.bounds.2
      unfold KeepLoc.Fits at *
      omega
  obtain ⟨hkept, hfits, hlast⟩ := hplace
  unfold ListState.update ListState.loopEnd
  split
  case isTrue hempty =>
    have I' : ListInv (s.leave r res.1 (.pending .other .doQuit) res.2) :=
      I.leave hr hroom hkept hfits hproom hsized hlast trivial hsafe
    split
    · exact (I'.leaveDigest input.home).leaveList
    · exact I'.leaveList
  case isFalse hstay =>
    have I' : ListInv (s.leave r res.1 .waiting res.2) := by
      refine I.leave hr hroom hkept hfits hproom hsized hlast ?_ hsafe
      rcases hlist with ⟨hlast, hentries, -⟩ | ha
      · refine .inr ⟨hlast, hentries, ?_⟩
        exact Decidable.byContradiction fun hne => hstay ⟨hentries, hne⟩
      · exact .inl ha
    exact I'

/-- What a drawn page leaves to the loop. -/
theorem ListInv.updated (I : ListInv s) (hr : s.readers = r :: rest)
    {res : ListPage × List ListPage.Access}
    (h : (s.page r).Updated (r.cmdmode = .reading) res) (input : ListInput δ) :
    ListInv (s.update r res input) := by
  obtain ⟨hkept, hfits, -⟩ := I.page hr rfl
  refine I.update hr rfl h.safe h.room h.sized ?_ input
  rcases h.list with ⟨hlast, hentries, hkeep⟩ | ⟨hlast, hs, hhalf⟩
  · rw [hkeep]
    exact .inl ⟨hlast, hentries, hkept, hfits⟩
  · exact .inr ⟨hlast, hs, hhalf⟩

theorem ListInv.turn (I : ListInv s) (hr : s.readers = r :: rest) {mode : ListMode}
    (hc : r.control = .pending ch mode) (hmeets : TurnMeets s r mode) (input : ListInput δ) :
    ListInv (s.turn r ch mode input) := by
  have hok : PendingOk ch mode (s.page r) r.cmdmode := by
    have h := I.head r (hr ▸ rfl)
    unfold ControlOk at h
    rwa [hc] at h
  have hd (hall : ∀ p, PendingOk ch mode p r.cmdmode) : Detached s := by
    intro r' hr' p
    rw [hr] at hr'
    cases Option.some.inj hr'
    unfold ControlOk
    rw [hc]
    exact hall p
  obtain ⟨hkept, hfits, hsized⟩ := I.page hr rfl
  have hidle (ha : Idle (s.page r) r.cmdmode) (accesses : List ListPage.Access)
      (hsafe : ∀ a ∈ accesses, a.Safe) : ListInv (s.update r (s.page r, accesses) input) := by
    refine I.update hr rfl hsafe rfl hsized ?_ input
    rcases ha with ha | ⟨hlast, hentries, -⟩
    · exact .inr ha
    · exact .inl ⟨hlast, hentries, hkept, hfits⟩
  unfold ListState.turn
  cases mode with
  | readNext => exact I.readOn hr rfl hok.2 hok.1 true hmeets input
  | readPrev => exact I.readOn hr rfl hok.2 hok.1 false hmeets input
  | doQuit => exact I.leaveList
  | gotoNext =>
    have hsame : { ((s.page r).cursorPos input.circle ((s.page r).crsLine + 1) 1).1 with
          recbase := (s.page r).recbase } =
        ((s.page r).cursorPos input.circle ((s.page r).crsLine + 1) 1).1 := by
      rw [ListPage.cursorPos_page]
    have I' : ListInv (s.leave r { ((s.page r).cursorPos input.circle ((s.page r).crsLine + 1) 1).1
        with recbase := (s.page r).recbase } (.pending ch .partUpdate) []) := by
      refine I.toListBase.leaveCursor hr rfl (fun d k _ hk => I.kept d k hk) hkept.1 rfl hsized
        I.lastLine _ _ _ fun r' q hc hlast hlen hentries hbase => ?_
      unfold ControlOk
      rw [hc]
      intro hpos
      have hfull := hok (hlast ▸ hpos)
      unfold ListPage.Full at *
      rwa [hlast, hlen, hentries, hbase]
    rw [hsame] at I'
    exact I'
  | newDirect | newDirect2 | dirChanged | modeChanged =>
    exact I.changeDirect (hd fun _ => trivial) hr _ input
  | fullUpdate => exact I.updated hr (ListPage.fullUpdate_spec r.src hsized hkept hfits hmeets) input
  | partUpdate =>
    exact I.updated hr
      (ListPage.partUpdate_spec r.src hsized hkept hfits (fun _ _ => hok) hmeets) input
  | preUpdate =>
    refine hidle (.inl hok) _ fun a h => ?_
    rw [List.mem_singleton.mp h]
    exact hok.settled.safe
  | doNothing => exact hidle hok [] nofun

/-! ## A reader is called -/

/-- What holds when a reader is called in a directory that is not empty. -/
structure Entering (s : ListState δ) : Prop extends ListBase s where
  running : ∀ r ∈ s.readers, RunningOk r
  window : ∀ r ∈ s.readers, s.tLines - 4 = r.room
  screenLen : s.screenLen = s.tLines - 4
  kept : ∀ d k, s.keeplist d = some k → k.WellKept ∧ (d ≠ s.currdirect → k.Fits (s.tLines - 4))
  nonempty : 0 < s.lastLine
  counted : s.lastLine = numRecords (s.records s.currdirect)

/-- The first page is in the list, and the cursor on it. -/
theorem Entering.firstPage (E : Entering s) (cmdmode : CmdMode) :
    (s.firstPage cmdmode).Placed ∧ (s.firstPage cmdmode).Fits (s.firstPage cmdmode).screenLen ∧
      (s.firstPage cmdmode).Sized ∧
      (decide (cmdmode = .reading) = true → s.previewmode = true →
        (s.firstPage cmdmode).screenLen = (s.tLines - 4) / 2) := by
  have hlines := E.lines
  have hlast := E.nonempty
  unfold ListState.firstPage
  dsimp only
  have hsize : ∃ screenLen : Int,
      (if (decide (cmdmode = .reading) && s.previewmode) = true then (s.tLines - 4) / 2
        else s.tLines - 4) = screenLen ∧
      (screenLen = s.tLines - 4 ∨ screenLen = (s.tLines - 4) / 2 ∧ s.previewmode = true) ∧
      (decide (cmdmode = .reading) = true → s.previewmode = true →
        screenLen = (s.tLines - 4) / 2) := by
    refine ⟨_, rfl, ?_, fun hreading hpreview => if_pos (Bool.and_eq_true_iff.mpr ⟨hreading, hpreview⟩)⟩
    split
    case isTrue h => exact .inr ⟨rfl, (Bool.and_eq_true_iff.mp h).2⟩
    case isFalse => exact .inl rfl
  obtain ⟨screenLen, hlen, hsize, hhalf⟩ := hsize
  rw [hlen]
  have hten : 10 ≤ screenLen := by omega
  have htotal : 1 ≤ (if cmdmode = .digest then 1 else s.lastLine) ∧
      (if cmdmode = .digest then 1 else s.lastLine) ≤ s.lastLine := by
    split <;> omega
  have htop : 1 ≤ (if cmdmode = .digest then 1 else
        if s.lastLine - screenLen + 2 < 1 then 1 else s.lastLine - screenLen + 2) ∧
      (if cmdmode = .digest then 1 else
        if s.lastLine - screenLen + 2 < 1 then 1 else s.lastLine - screenLen + 2) ≤ s.lastLine := by
    split <;> (try split) <;> omega
  generalize (if cmdmode = .digest then 1 else s.lastLine) = total at *
  generalize (if cmdmode = .digest then 1 else
    if s.lastLine - screenLen + 2 < 1 then 1 else s.lastLine - screenLen + 2) = top at *
  have hkeep : ((s.getkeep s.currdirect ⟨top, s.lastLine⟩).keep s.currdirect).WellKept ∧
      1 ≤ ((s.getkeep s.currdirect ⟨top, s.lastLine⟩).keep s.currdirect).crsLine := by
    rcases keep_getkeep s.currdirect ⟨top, s.lastLine⟩ with h | ⟨hcrs, k', hk', -, hwell⟩
    · rw [h]
      exact ⟨⟨htop.1, .inl htop.2⟩, hlast⟩
    · exact ⟨hwell (E.kept _ _ hk').1, hcrs⟩
  obtain ⟨hpos, hle, hcrs, hfits⟩ := @KeepLoc.WellKept.modifyLocmem _ s.tLines screenLen total
    hkeep.1 hkeep.2 (by omega) (by omega) htotal.1
  exact ⟨⟨hpos, hle, Int.le_trans hcrs htotal.2⟩, hfits, ⟨by dsimp only; omega, hsize⟩, hhalf⟩

/-- A new reader draws its first page. -/
theorem Entering.readList (E : Entering s) (cmdmode : CmdMode) (src : RecordSource) :
    ListInv (s.readList cmdmode src) := by
  obtain ⟨hplaced, hfits, hsized, hhalf⟩ := E.firstPage cmdmode
  have hsame : (s.firstPage cmdmode).lastLine = s.lastLine ∧
      (s.firstPage cmdmode).recbase = (s.firstPage cmdmode).topLine ∧
      (s.firstPage cmdmode).room = s.tLines - 4 ∧
      (s.firstPage cmdmode).previewmode = s.previewmode := ⟨rfl, rfl, rfl, rfl⟩
  unfold ListState.readList
  generalize s.firstPage cmdmode = p at *
  obtain ⟨hlast, hbase, hroom, hpreview⟩ := hsame
  obtain ⟨hten, hle⟩ := hsized.bounds
  have hs : (p.load src (s.records s.currdirect)).Settled := by
    refine ⟨⟨hplaced.top_pos, hplaced.top_le, hplaced.le_last⟩, hfits, hbase,
      ListPage.load_full (hlast ▸ E.nonempty) (hbase ▸ hplaced.top_pos) (by omega) ?_⟩
    rw [← E.counted, hlast]
    exact min_le_left ..
  have ha : Active (p.load src (s.records s.currdirect)) (cmdmode = .reading) := by
    refine ⟨hlast ▸ E.nonempty, hs, fun hreading hp => ?_⟩
    exact (hhalf hreading (hpreview ▸ hp)).trans (hroom ▸ rfl)
  dsimp only
  generalize hq : p.load src (s.records s.currdirect) = q at *
  have hqsame : q.room = p.room ∧ q.screenLen = p.screenLen ∧ q.previewmode = p.previewmode ∧
      q.lastLine = p.lastLine ∧ q.toKeepLoc = p.toKeepLoc := hq ▸ ⟨rfl, rfl, rfl, rfl, rfl⟩
  obtain ⟨hqroom, hqlen, hqpreview, hqlast, hqkeep⟩ := hqsame
  have hlines := E.lines
  let r : ListReader δ :=
    ⟨cmdmode, src, s.tLines - 4, s.currdirect, q.entries, q.recbase, [], .waiting⟩
  have hrooms : ∀ r' ∈ r :: s.readers, r'.room = s.tLines - 4 := by
    intro r' hr'
    rcases List.mem_cons.mp hr' with rfl | hr'
    · rfl
    · exact (E.window r' hr').symm
  have B : ListBase { s with readers := r :: s.readers } := by
    refine ⟨E.lines, E.lastLine, fun r' hr' => ?_, fun r' hr' r'' hr'' => ?_, E.running, E.safe⟩
    · rw [hrooms r' hr']
      exact ⟨by omega, .inl E.screenLen⟩
    · rw [hrooms r' hr', hrooms r'' hr'']
  refine B.leave (r := r) rfl rfl (fun d k hne hk => ?_) (ListPage.wellKept_of_settled hs) ?_
    (hqroom.trans hroom) ⟨hqroom ▸ hsized.room, ?_⟩ ?_ (.inl ha) fun a h => ?_
  · obtain ⟨hkept, hfits⟩ := E.kept d k hk
    exact ⟨hkept, fun r' hr' => (hrooms r' hr').symm ▸ hfits hne⟩
  · have hfits := hs.fits
    unfold KeepLoc.Fits at *
    have hroom' : r.room = s.tLines - 4 := rfl
    omega
  · rw [hqlen, hqroom, hqpreview]
    exact hsized.size
  · rw [hqlast, hlast]
    exact E.lastLine
  · rcases List.mem_cons.mp h with rfl | h
    · exact ListPage.loaded_safe (by omega) hle
    · unfold ListPage.drawEntry at h
      split at h
      · rw [List.mem_singleton.mp h]
        exact hs.safe
      · cases h

/-- `i_read` is called. -/
theorem ListInv.iRead (I : ListInv s) (hcalls : s.calls = true) {cmdmode : CmdMode}
    {src : RecordSource} {direct : δ} {answered : δ → Option Nat}
    (hmeets : ListMeets s (.enter cmdmode src direct answered)) :
    ListInv (s.iRead cmdmode src direct answered) := by
  obtain ⟨hresized, hfirst⟩ := hmeets
  have hlines := I.lines
  have hrunning := I.running hcalls
  have hd := I.detached hcalls
  have hwindow : ∀ r ∈ s.readers, s.tLines - 4 = r.room := by
    intro r hr
    cases hs : s.readers with
    | nil => exact absurd (hs ▸ hr) List.not_mem_nil
    | cons r' rest =>
      rw [I.same r hr r' (hs ▸ List.mem_cons_self)]
      exact hresized r' (hs ▸ rfl)
  -- the readers that are running keep their invariant whatever is counted
  have hcount (direct : δ) (records : δ → Option Nat) (last : Int) (hlast : 0 ≤ last) :
      ListInv { s with
        screenLen := s.tLines - 4
        currdirect := direct
        lastLine := last
        records := records } := by
    refine ⟨⟨I.lines, hlast, fun r hr => ?_, I.same, I.tail, I.safe⟩, I.kept, fun r hr => hd r hr _⟩
    exact ⟨(I.sized r hr).1, .inl (hwindow r hr)⟩
  have hkept (d : δ) (k : KeepLoc) (hk : s.keeplist d = some k) :
      k.WellKept ∧ (d = direct ∧ (cmdmode = .digest → numRecords (s.records direct) ≠ 0) ∨
        k.Fits (s.tLines - 4)) := by
    refine ⟨(I.kept d k hk).1, ?_⟩
    cases hs : s.readers with
    | nil => exact hfirst hs d k hk
    | cons r rest =>
      have hr : r ∈ s.readers := hs ▸ List.mem_cons_self
      exact .inr (hwindow r hr ▸ (I.kept d k hk).2 r hr)
  have henter (records : δ → Option Nat) (hlast : 0 < numRecords (records direct)) :
      Entering { s with
        screenLen := s.tLines - 4
        currdirect := direct
        lastLine := numRecords (records direct)
        records := records } := by
    refine ⟨(hcount direct records _ (Int.le_of_lt hlast)).toListBase, hrunning, hwindow, rfl,
      fun d k hk => ?_, hlast, rfl⟩
    obtain ⟨hwell, hfits⟩ := hkept d k hk
    exact ⟨hwell, fun hne => hfits.resolve_left fun h => hne h.1⟩
  have hnum (file : Option Nat) : 0 ≤ numRecords file := Int.natCast_nonneg _
  unfold ListState.iRead
  split
  · exact I
  · dsimp only
    split
    case isTrue hzero =>
      cases cmdmode with
      | digest =>
        let r : ListReader δ := ⟨.digest, src, s.tLines - 4, direct, 0, 0, [], .waiting⟩
        have I' := hcount direct s.records (numRecords (s.records direct)) (hnum _)
        have hrooms : ∀ r' ∈ r :: s.readers, r'.room = s.tLines - 4 := by
          intro r' hr'
          rcases List.mem_cons.mp hr' with rfl | hr'
          · rfl
          · exact (hwindow r' hr').symm
        have hidle (k : KeepLoc) : Idle ⟨k, numRecords (s.records direct), s.tLines - 4,
            s.previewmode, 0, 0, s.tLines - 4⟩ .digest := .inr ⟨hzero, rfl, rfl⟩
        have I'' : ListInv { s with
            screenLen := s.tLines - 4
            currdirect := direct
            lastLine := numRecords (s.records direct)
            readers := r :: s.readers } := by
          refine ⟨⟨I.lines, hnum _, fun r' hr' => ?_, fun r' hr' r'' hr'' => ?_, hrunning, I.safe⟩,
            fun d k hk => ?_, fun r' hr' => ?_⟩
          · rw [hrooms r' hr']
            exact ⟨by omega, .inl rfl⟩
          · rw [hrooms r' hr', hrooms r'' hr'']
          · obtain ⟨hwell, hfits⟩ := hkept d k hk
            have hfits := hfits.resolve_left fun h => h.2 rfl hzero
            exact ⟨hwell, fun r' hr' => (hrooms r' hr').symm ▸ hfits⟩
          · cases Option.some.inj hr'
            exact hidle _
        refine I''.getkeep (fun r' hr' k => ?_) I''.keptFor_first
        cases Option.some.inj hr'
        exact hidle k
      | reading =>
        dsimp only
        split
        case isTrue hpos => exact (henter answered hpos).readList .reading src
        case isFalse => exact hcount direct answered _ (hnum _)
      | rmail | gmenu | admin | digestrace => exact hcount direct answered _ (hnum _)
    case isFalse hne =>
      have hpos : 0 < numRecords (s.records direct) := by
        have h := hnum (s.records direct)
        omega
      exact (henter s.records hpos).readList cmdmode src

theorem ListInv.step {s' : ListState δ} {e : ListEvent δ} (I : ListInv s) (hmeets : ListMeets s e)
    (hstep : s.step e = some s') : ListInv s' := by
  cases e with
  | resize lines =>
    obtain ⟨hlines, hstep⟩ := Option.ite_none_right_eq_some.mp hstep
    cases hstep
    exact ⟨⟨hlines.1, I.lastLine, I.sized, I.same, I.tail, I.safe⟩, I.kept, I.head⟩
  | write records =>
    cases hstep
    exact ⟨⟨I.lines, I.lastLine, I.sized, I.same, I.tail, I.safe⟩, I.kept, I.head⟩
  | key ch input =>
    obtain ⟨r, hr, rfl⟩ := Option.map_eq_some_iff.mp hstep
    obtain ⟨⟨rest, hr⟩, hc⟩ := ListState.waiting_eq_some hr
    exact I.key hr hc hmeets
  | talk =>
    obtain ⟨r, hr, rfl⟩ := Option.map_eq_some_iff.mp hstep
    obtain ⟨⟨rest, hr⟩, hc⟩ := ListState.waiting_eq_some hr
    exact I.goTo hr rfl trivial
  | eof =>
    obtain ⟨r, hr, rfl⟩ := Option.map_eq_some_iff.mp hstep
    exact I.leaveList
  | ret mode =>
    obtain ⟨r, hr, rfl⟩ := Option.map_eq_some_iff.mp hstep
    obtain ⟨⟨rest, hr⟩, -⟩ := ListState.running_eq_some hr
    exact I.ret hr (hmeets r (hr ▸ rfl))
  | turn input =>
    obtain ⟨r, hr, rfl⟩ := Option.map_eq_some_iff.mp hstep
    obtain ⟨⟨rest, hr⟩, ch, mode, hc⟩ := ListState.pending_eq_some hr
    unfold ListState.goOn
    rw [hc]
    exact I.turn hr hc (hmeets r (hr ▸ rfl) ch mode hc) input
  | setkeep d pos =>
    obtain ⟨hcalls, hstep⟩ := Option.ite_none_right_eq_some.mp hstep
    cases hstep
    exact I.setkeep (I.detached hcalls) hmeets d pos
  | fixkeep d first =>
    obtain ⟨hcalls, hstep⟩ := Option.ite_none_right_eq_some.mp hstep
    cases hstep
    exact I.fixkeep (I.detached hcalls) hmeets d first
  | select d tmp =>
    obtain ⟨hcalls, hstep⟩ := Option.ite_none_right_eq_some.mp hstep
    cases hstep
    exact I.getkeep (I.detached hcalls).keepFree (I.keptFor hmeets
      (KeepLoc.wellKept_firstNew _ tmp I.lines) (KeepLoc.fits_firstNew _ tmp I.lines))
  | chdir d =>
    obtain ⟨-, hstep⟩ := Option.ite_none_right_eq_some.mp hstep
    cases hstep
    exact ⟨⟨I.lines, I.lastLine, I.sized, I.same, I.tail, I.safe⟩, I.kept, I.head⟩
  | digest mode =>
    obtain ⟨-, hstep⟩ := Option.ite_none_right_eq_some.mp hstep
    cases hstep
    exact ⟨⟨I.lines, I.lastLine, I.sized, I.same, I.tail, I.safe⟩, I.kept, I.head⟩
  | enter cmdmode src direct answered =>
    obtain ⟨hcalls, hstep⟩ := Option.ite_none_right_eq_some.mp hstep
    cases hstep
    exact I.iRead hcalls hmeets

/-- Entries have been read and put only where the page has them and `pnt` has room for them, and at
`egetch` the page and the cursor are in a list that is not empty. -/
structure ListSafe (s : ListState δ) : Prop where
  safe : ∀ a ∈ s.log, a.Safe
  placed : ∀ r ∈ s.readers.head?, r.control = .waiting → 0 < s.lastLine → (s.page r).Placed

omit [DecidableEq δ] in
theorem ListInv.listSafe (I : ListInv s) : ListSafe s where
  safe := I.safe
  placed r hr hc hlast := by
    have h := I.head r hr
    unfold ControlOk at h
    rw [hc] at h
    rcases h with ha | ⟨hzero, -⟩
    · exact ha.settled.toPlaced
    · exact absurd hlast (Int.not_lt.mpr (Int.le_of_eq hzero))

omit [DecidableEq δ] in
theorem listInv_start (d : δ) (records : δ → Option Nat) : ListInv (ListState.start d records) where
  lines := Int.le_refl 24
  lastLine := Int.le_refl 0
  sized _ hr := absurd hr List.not_mem_nil
  same _ hr := absurd hr List.not_mem_nil
  tail _ hr := absurd hr List.not_mem_nil
  safe _ ha := absurd ha List.not_mem_nil
  kept _ _ hk := nomatch hk
  head _ hr := nomatch hr

/-- In a run whose steps meet the condition no reader leaves its page, whatever keys are pressed,
whatever is written to the files and whatever readers are called by others. -/
theorem list_placed {d : δ} {records : δ → Option Nat}
    (h : Reach ListState.step ListMeets (ListState.start d records) s) : ListSafe s :=
  (h.invariant ListInv (listInv_start d records) fun _ _ _ I hC hstep => I.step hC hstep).listSafe

end

def demoInput : ListInput Nat := ⟨false, 0, 0, 0⟩

def demoStart : ListState Nat := .start 0 fun _ => some 25

/-- A board with 25 articles is entered. -/
def demoEnter : ListEvent Nat := .enter .reading fileRecords 0 fun _ => none

/-- The last article is read. -/
theorem list_placed_read : ∃ s : ListState Nat,
    s.log = [.load 19 20, .read ⟨⟨7, 25⟩, 25, 20, false, 19, 7, 20⟩] ∧ ListSafe s := by
  have henter : (demoStart.step demoEnter).isSome = true := by decide +kernel
  obtain ⟨s, hs⟩ := Option.isSome_iff_exists.mp henter
  have hread : ((demoStart.step demoEnter).bind fun s =>
      s.step (.key .right demoInput)).isSome = true := by decide +kernel
  rw [hs, Option.bind_some] at hread
  obtain ⟨s', hs'⟩ := Option.isSome_iff_exists.mp hread
  have hlog : ((demoStart.step demoEnter).bind fun s =>
      s.step (.key .right demoInput)).map (·.log) =
        some [.load 19 20, .read ⟨⟨7, 25⟩, 25, 20, false, 19, 7, 20⟩] := by decide +kernel
  rw [hs, Option.bind_some, hs', Option.map_some] at hlog
  have hmeets : ListMeets demoStart demoEnter := by
    refine ⟨fun r hr => ?_, fun _ d k hk => ?_⟩
    · cases hr
    · cases hk
  have hreach : Reach ListState.step ListMeets demoStart s := Reach.refl.step demoEnter hmeets hs
  refine ⟨s', Option.some.inj hlog, list_placed (hreach.step (.key .right demoInput) ?_ hs')⟩
  exact ⟨nofun, fun h => by rcases h with h | h <;> cases h⟩

/-- While the reader is at the first article ten of them are deleted, and the page is drawn again
for a message; then the user goes down by 15 articles and reads. -/
def demoShrink : List (ListEvent Nat) :=
  [demoEnter, .key .home demoInput, .turn demoInput, .write fun _ => some 15, .talk,
      .turn demoInput] ++
    (List.replicate 15 [.key .down demoInput, .turn demoInput]).flatten ++ [.key .right demoInput]

theorem list_behind_page : ¬∀ s : ListState Nat,
    Reach ListState.step (fun _ _ => True) demoStart s → ListSafe s := by
  intro hclaim
  have hrun : Reach.Meets ListState.step (fun _ _ => True) demoStart demoShrink := by
    decide +kernel
  obtain ⟨s, hs, h⟩ := Reach.of_meets _ hrun
  have hend : (demoShrink.foldlM ListState.step demoStart).map (·.log) =
      some [.load 19 20, .load 20 20, .load 15 20, .read ⟨⟨1, 16⟩, 25, 20, false, 15, 1, 20⟩] := by
    decide +kernel
  rw [hs] at hend
  have hlog : s.log =
      [.load 19 20, .load 20 20, .load 15 20, .read ⟨⟨1, 16⟩, 25, 20, false, 15, 1, 20⟩] :=
    Option.some.inj hend
  have hread := (hclaim s h).safe (.read ⟨⟨1, 16⟩, 25, 20, false, 15, 1, 20⟩) (by simp [hlog])
  exact absurd hread.2.1 (by decide)

end ArgoBbs

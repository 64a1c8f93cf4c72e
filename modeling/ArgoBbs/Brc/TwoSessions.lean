import ArgoBbs.Brc.Refinement

/-! # Two sessions of one user

Two sessions share the file. `brc_update` reads it, rewrites its own buffer, truncates the file and
writes the buffer; the other session may do anything between these steps, and nothing is locked.
Each session marks articles on its own boards only.

The history of a run keeps what should be saved: the map of the lists last written, and the marks
made and flushed. As long as no session reads the file while the other is rewriting it, the file is
that map and no flushed mark is lost (`brc_two_sessions`); two updates that both read before either
writes lose one (`brc_two_sessions_lost`). -/

namespace ArgoBbs

/-- Where a session is in `brc_update` and `brc_initial`; `next` is the board that `brc_initial`
goes on to after the update. -/
inductive Pc
  | idle
  | merged (next : Option (List UInt8))
  | truncated (next : Option (List UInt8))
  | entering (boardname : List UInt8)

namespace Pc

def resume : Option (List UInt8) → Pc
  | none => idle
  | some b => entering b

def next : Pc → Option (List UInt8)
  | idle => none
  | merged next | truncated next => next
  | entering b => some b

/-- The file has been truncated and not yet written. -/
def cut : Pc → Bool
  | truncated _ => true
  | _ => false

/-- The session has read the file and not yet written it back. -/
def rewriting : Pc → Bool
  | merged _ | truncated _ => true
  | _ => false

end Pc

structure Proc where
  sess : BrcSession
  pc : Pc

inductive Action
  | visit (boardname : List UInt8)
  | mark (filetime : Int)
  | update
  | truncate
  | write
  | load

/-- `brc_update` up to the point where it has rebuilt its buffer. -/
def Proc.startUpdate (p : Proc) (file : Option (List UInt8)) (next : Option (List UInt8)) :
    Option Proc :=
  if p.sess.brc.brcChanged = false ∨ p.sess.guestuser = true then some ⟨p.sess, .resume next⟩
  else do
    let (buf, size) ← brcRebuild p.sess (brcReadback file)
    some ⟨p.sess.rebuilt buf size, .merged next⟩

/-- One step of a session on the file. The file is written from its beginning on, over whatever it
holds by then. -/
def Proc.exec (p : Proc) (file : Option (List UInt8)) :
    Action → Option (Proc × Option (List UInt8))
  | .visit b =>
    match p.pc with
    | .idle =>
      if p.sess.currboard = b then some (p, file)
      else (p.startUpdate file (some b)).map (·, file)
    | _ => none
  | .mark t =>
    match p.pc with
    | .idle => (brcAddlist t p.sess.brc).map fun brc => (⟨{ p.sess with brc }, .idle⟩, file)
    | _ => none
  | .update =>
    match p.pc with
    | .idle => (p.startUpdate file none).map (·, file)
    | _ => none
  | .truncate =>
    match p.pc with
    | .merged next => some (⟨p.sess, .truncated next⟩, some [])
    | _ => none
  | .write =>
    match p.pc with
    | .truncated next =>
      some (⟨p.sess, .resume next⟩,
        some (overlay (file.getD []) 0 (p.sess.brcBuf.take p.sess.brcSize)))
    | _ => none
  | .load =>
    match p.pc with
    | .entering b => (((p.sess.enter b).loadFile file).find b).map fun (_, s) => (⟨s, .idle⟩, file)
    | _ => none

structure TwoSessions where
  procs : Bool → Proc
  file : Option (List UInt8)

def TwoSessions.start (file : Option (List UInt8)) : TwoSessions := ⟨fun _ => ⟨.start, .idle⟩, file⟩

def TwoSessions.set (st : TwoSessions) (i : Bool) (p : Proc) (file : Option (List UInt8)) :
    TwoSessions := ⟨Function.update st.procs i p, file⟩

@[simp] theorem TwoSessions.set_self {st : TwoSessions} {i : Bool} {p : Proc}
    {file : Option (List UInt8)} : (st.set i p file).procs i = p := Function.update_self ..

@[simp] theorem TwoSessions.set_other {st : TwoSessions} {i : Bool} {p : Proc}
    {file : Option (List UInt8)} : (st.set i p file).procs (!i) = st.procs !i :=
  Function.update_of_ne (by simp) ..

def TwoSessions.exec (st : TwoSessions) (i : Bool) (a : Action) : Option TwoSessions :=
  ((st.procs i).exec st.file a).map fun (p, file) => st.set i p file

/-- An update that nobody interrupts is `brc_update`. -/
theorem brcUpdate_uninterrupted (s : BrcSession) (file : Option (List UInt8))
    (hchanged : s.brc.brcChanged = true) (hguest : s.guestuser = false) :
    brcUpdate s file = (do
      let (p, file) ← (Proc.mk s .idle).exec file .update
      let (p, file) ← p.exec file .truncate
      let (p, file) ← p.exec file .write
      some (p.sess, file)) := by
  have hdirty : ¬ (s.brc.brcChanged = false ∨ s.guestuser = true) := by simp [hchanged, hguest]
  simp only [Proc.exec, Proc.startUpdate, brcUpdate, if_neg hdirty]
  cases brcRebuild s (brcReadback file) with
  | none => rfl
  | some out => simp [overlay, BrcSession.rebuilt]

/-! ## The history of a run -/

structure History where
  saved : MarkMap
  /-- The marks a session has made on its current board since its last update. -/
  pending : Bool → List Int
  flushed : List (List UInt8 × Int)

def History.start (m : MarkMap) : History := ⟨m, fun _ => [], []⟩

def History.flush (h : History) (i : Bool) (board : List UInt8) : History :=
  { h with
    pending := Function.update h.pending i []
    flushed := (h.pending i).map (board, ·) ++ h.flushed }

/-- What the step of session `i` adds to the history. A `brc_update` that has nothing to write is
done at once; otherwise it is done when it has written the file. -/
def History.record (h : History) (s : BrcSession) (i : Bool) : Action → History
  | .visit b => if s.currboard = b ∨ s.brc.brcChanged = true then h else h.flush i s.currboard
  | .mark t => if t > 0 then { h with pending := Function.update h.pending i (t :: h.pending i) } else h
  | .update => if s.brc.brcChanged = true then h else h.flush i s.currboard
  | .write =>
    { h.flush i s.currboard with
      saved := Function.update h.saved s.currboard (some s.brc.marks) }
  | .truncate | .load => h

/-- A run of the two sessions with its history. -/
def TwoSessions.run (st : TwoSessions) (h : History) :
    List (Bool × Action) → Option (TwoSessions × History)
  | [] => some (st, h)
  | (i, a) :: acts => do
    let st' ← st.exec i a
    st'.run (h.record (st.procs i).sess i a) acts

/-- The file is the map of the lists last written, and every mark made and flushed is read. -/
def Kept (st : TwoSessions) (h : History) : Prop :=
  Holds (st.file.getD []) h.saved ∧
  ∀ p ∈ h.flushed, Seen ((h.saved p.1).getD [1]) (toCInt p.2)

/-- The step is one that the code can take here, on a board of the session if it is a mark, with
records that fit, and it reads the file only while the other session is not rewriting it:
`brc_update` not between the other's reading and writing, `brc_initial` not between the other's
truncation and writing. -/
def TwoSessions.Calm (own : Bool → List UInt8 → Prop) (st : TwoSessions) (h : History) (i : Bool)
    (a : Action) : Prop :=
  let p := st.procs i
  let other := st.procs !i
  Fits (h.record p.sess i a).saved ∧
  match p.pc, a with
  | .idle, .visit b => ValidName b ∧
    (p.sess.currboard ≠ b → p.sess.brc.brcChanged = true → other.pc.rewriting = false)
  | .idle, .mark _ => p.sess.currboard ≠ [] ∧ own i p.sess.currboard
  | .idle, .update => p.sess.brc.brcChanged = true → other.pc.rewriting = false
  | .merged _, .truncate => True
  | .truncated _, .write => True
  | .entering _, .load => p.sess.brcBuf.head? = some 0 → other.pc.cut = false
  | _, _ => False

def TwoSessions.CalmRun (own : Bool → List UInt8 → Prop) (st : TwoSessions) (h : History) :
    List (Bool × Action) → Prop
  | [] => True
  | (i, a) :: acts => st.Calm own h i a ∧
    ∀ st', st.exec i a = some st' → st'.CalmRun own (h.record (st.procs i).sess i a) acts

/-! ## The invariant -/

/-- The map once the update that the session is in is done. -/
def Proc.result (p : Proc) (saved : MarkMap) : MarkMap :=
  if p.pc.rewriting then Function.update saved p.sess.currboard (some p.sess.brc.marks) else saved

/-- One session: its cache agrees with the map on its own boards, and on a board of its own it has
at least the marks of the map, and exactly these when there is nothing to save. -/
structure SessionInv (own : List UInt8 → Prop) (saved : MarkMap) (pending : List Int) (p : Proc) :
    Prop where
  guest : p.sess.guestuser = false
  cells : p.sess.brc.brcList.length = brcMaxNum
  buf : p.sess.brcBuf.length = brcMaxSize
  current : p.sess.currboard ≠ [] → Current p.sess p.sess.currboard p.sess.brc.marks
  cache : p.sess.brcBuf.head? = some 0 ∨
    ∃ m, Holds (p.sess.brcBuf.take p.sess.brcSize) m ∧ ∀ b, own b → m b = p.result saved b
  rebuilt : p.pc.rewriting = true → own p.sess.currboard ∧ p.sess.currboard ≠ [] ∧
    Holds (p.sess.brcBuf.take p.sess.brcSize) (p.result saved)
  sync : p.sess.currboard ≠ [] → own p.sess.currboard → p.sess.brc.brcChanged = false →
    (p.result saved p.sess.currboard).getD [1] = p.sess.brc.marks
  grown : p.sess.currboard ≠ [] → own p.sess.currboard →
    ∀ u, Seen ((saved p.sess.currboard).getD [1]) u → Seen p.sess.brc.marks u
  dirty : p.sess.brc.brcChanged = true → p.sess.currboard ≠ [] ∧ own p.sess.currboard
  made : ∀ t ∈ pending, p.sess.currboard ≠ [] ∧ own p.sess.currboard ∧
    Seen p.sess.brc.marks (toCInt t)
  next : ∀ b, p.pc.next = some b → ValidName b
  settled : ∀ b, p.pc = .entering b → pending = []

namespace SessionInv
variable {own : List UInt8 → Prop} {saved saved' : MarkMap} {pending : List Int} {p : Proc}
  {file : Option (List UInt8)} {next : Option (List UInt8)}

/-- A session that is not rewriting the file depends on its own boards only. -/
theorem frame (h : SessionInv own saved pending p) (hpc : p.pc.rewriting = false)
    (hown : ∀ b, own b → saved' b = saved b) : SessionInv own saved' pending p := by
  have hresult : ∀ m, p.result m = m := fun m => by simp [Proc.result, hpc]
  have hcache := h.cache
  have hsync := h.sync
  rw [hresult] at hcache hsync
  refine { h with cache := ?_, rebuilt := ?_, sync := ?_, grown := ?_ }
  · rw [hresult]
    rcases hcache with hcache | ⟨m, hm, hagree⟩
    · exact .inl hcache
    · exact .inr ⟨m, hm, fun b hb => (hagree b hb).trans (hown b hb).symm⟩
  · intro hpc'
    rw [hpc] at hpc'
    cases hpc'
  · intro hne hb hc
    rw [hresult, hown _ hb]
    exact hsync hne hb hc
  · intro hne hb
    rw [hown _ hb]
    exact h.grown hne hb

theorem start (own : List UInt8 → Prop) (saved : MarkMap) :
    SessionInv own saved [] ⟨.start, .idle⟩ where
  guest := rfl
  cells := List.length_replicate
  buf := List.length_replicate
  current := fun hb => absurd rfl hb
  cache := .inl rfl
  rebuilt := fun h => nomatch h
  sync := fun hb => absurd rfl hb
  grown := fun hb => absurd rfl hb
  dirty := fun h => nomatch h
  made := fun _ h => nomatch h
  next := fun _ h => nomatch h
  settled := fun _ h => nomatch h

/-- A `brc_update` with nothing to write is done. -/
theorem flush_clean (h : SessionInv own saved pending p) (hpc : p.pc = .idle)
    (hnext : ∀ b, next = some b → ValidName b) :
    SessionInv own saved [] ⟨p.sess, .resume next⟩ := by
  have hresult : ∀ m, (Proc.mk p.sess (.resume next)).result m = p.result m := by
    intro m
    cases next <;> simp [Proc.result, Pc.resume, Pc.rewriting, hpc]
  refine { h with
    cache := by simpa only [hresult] using h.cache
    rebuilt := ?_
    sync := by simpa only [hresult] using h.sync
    made := fun _ h => nomatch h
    next := ?_
    settled := fun _ _ => rfl }
  · intro hrew
    cases next <;> cases hrew
  · intro b hb
    cases next with
    | none => cases hb
    | some b' => exact hnext b hb

/-- A `brc_update` that reads the whole map rebuilds its buffer with the entry of its board. -/
theorem startUpdate (h : SessionInv own saved pending p)
    (hchanged : p.sess.brc.brcChanged = true)
    (hfile : Holds (file.getD []) saved) (hfits : Fits saved)
    (hnext : ∀ b, next = some b → ValidName b) :
    ∃ p', p.startUpdate file next = some p' ∧ p'.pc = .merged next ∧
      p'.sess.currboard = p.sess.currboard ∧ SessionInv own saved pending p' := by
  obtain ⟨hb, hown⟩ := h.dirty hchanged
  have hcur := h.current hb
  have hlen := hfile.length_le hfits
  have hread : brcReadback file = file.getD [] := List.take_of_length_le hlen
  obtain ⟨buf, bytes, hre, hbuf, hholds, htake⟩ := brcRebuild_holds rfl hcur h.buf hfile hlen
  have hstart : p.startUpdate file next =
      some ⟨p.sess.rebuilt buf bytes.length, .merged next⟩ := by
    rw [Proc.startUpdate, if_neg (by simp [hchanged, h.guest]), hread]
    simp only [hre, Option.bind_eq_bind, Option.bind_some]
  have hwf : { p.sess.brc with brcChanged := false }.WF :=
    ⟨hcur.wf.cells, hcur.wf.num_pos, hcur.wf.num_le, hcur.wf.cur_nonneg, hcur.wf.sorted⟩
  refine ⟨_, hstart, rfl, rfl, ?_⟩
  exact {
    guest := h.guest
    cells := h.cells
    buf := hbuf
    current := fun _ => ⟨hcur.valid, hcur.name, hwf, rfl, hcur.ints⟩
    cache := .inr ⟨_, htake.symm ▸ hholds, fun _ _ => rfl⟩
    rebuilt := fun _ => ⟨hown, hb, htake.symm ▸ hholds⟩
    sync := fun _ _ _ => by simp [Proc.result, Pc.rewriting, BrcSession.rebuilt, Brc.marks]
    grown := h.grown
    dirty := fun hc => nomatch hc
    made := h.made
    next := hnext
    settled := fun _ hs => nomatch hs }

theorem truncate (h : SessionInv own saved pending p) (hpc : p.pc = .merged next) :
    SessionInv own saved pending ⟨p.sess, .truncated next⟩ := by
  have hresult : ∀ m, (Proc.mk p.sess (.truncated next)).result m = p.result m := by
    intro m
    simp [Proc.result, Pc.rewriting, hpc]
  exact { h with
    cache := by simpa only [hresult] using h.cache
    rebuilt := fun _ => by simpa only [hresult] using h.rebuilt (hpc ▸ rfl)
    sync := by simpa only [hresult] using h.sync
    next := fun b hb => h.next b (hpc ▸ hb)
    settled := fun _ hs => nomatch hs }

/-- Writing the buffer puts the list of the board into the map. -/
theorem write (h : SessionInv own saved pending p) (hpc : p.pc = .truncated next) :
    SessionInv own (Function.update saved p.sess.currboard (some p.sess.brc.marks)) []
      ⟨p.sess, .resume next⟩ := by
  have hresult : ∀ m, (Proc.mk p.sess (.resume next)).result m = m := by
    intro m
    cases next <;> simp [Proc.result, Pc.resume, Pc.rewriting]
  have hres : p.result saved =
      Function.update saved p.sess.currboard (some p.sess.brc.marks) := if_pos (hpc ▸ rfl)
  obtain ⟨hown, hb, hholds⟩ := h.rebuilt (hpc ▸ rfl)
  exact {
    guest := h.guest
    cells := h.cells
    buf := h.buf
    current := h.current
    cache := .inr ⟨_, hholds, fun b _ => by rw [hresult, hres]⟩
    rebuilt := fun hrew => by cases next <;> cases hrew
    sync := fun _ _ _ => by rw [hresult, Function.update_self]; rfl
    grown := fun _ _ u hu => by rw [Function.update_self] at hu; exact hu
    dirty := h.dirty
    made := fun _ ht => nomatch ht
    next := by
      have := h.next
      rw [hpc] at this
      cases next with
      | none => exact fun _ hn => nomatch hn
      | some b => exact this
    settled := fun _ _ => rfl }

/-- Entering a board finds the marks of the map, if the board is one's own. -/
theorem load {b : List UInt8} (h : SessionInv own saved pending p) (hpc : p.pc = .entering b)
    (hfile : p.sess.brcBuf.head? = some 0 → Holds (file.getD []) saved) (hfits : Fits saved) :
    ∃ num s, ((p.sess.enter b).loadFile file).find b = some (num, s) ∧ s.currboard = b ∧
      s.brc.brcChanged = false ∧ SessionInv own saved pending ⟨s, .idle⟩ := by
  have hb : ValidName b := h.next b (hpc ▸ rfl)
  have hres : p.result saved = saved := if_neg (by simp [hpc, Pc.rewriting])
  obtain ⟨s₂, hs₂⟩ : ∃ s₂, s₂ = (p.sess.enter b).loadFile file := ⟨_, rfl⟩
  obtain ⟨hbrc, hcur, hguest⟩ := hs₂ ▸ @loadFile_fields (p.sess.enter b) file
  -- what is decoded agrees with the map on the boards of the session
  obtain ⟨m, hm, hagree⟩ : ∃ m, Holds (p.sess.decoded file) m ∧ ∀ c, own c → m c = saved c := by
    rw [BrcSession.decoded]
    split
    case isTrue hhead =>
      have hlen := (hfile hhead).length_le hfits
      rw [List.take_of_length_le (hlen.trans (Nat.sub_le _ _))]
      exact ⟨saved, hfile hhead, fun _ _ => rfl⟩
    case isFalse hhead =>
      obtain ⟨m, hm, hagree⟩ := h.cache.resolve_left hhead
      exact ⟨m, hm, hres ▸ hagree⟩
  have htake : s₂.brcBuf.take s₂.brcSize = p.sess.decoded file :=
    hs₂ ▸ @take_loadFile (p.sess.enter b) file
  obtain ⟨num, brc, hfind, hchanged, hcurrent⟩ :=
    @find_of_holds s₂ _ b hb hcur (hbrc ▸ h.cells) (htake ▸ hm)
  have hmarks : own b → (saved b).getD [1] = brc.marks := fun hown =>
    hagree b hown ▸ hcurrent.marks_eq.symm
  have hclean : brc.brcChanged = false := hchanged.trans (hbrc ▸ rfl)
  have hbuf : s₂.brcBuf.length = brcMaxSize := hs₂ ▸ @length_loadFile (p.sess.enter b) file h.buf
  have hpending : pending = [] := h.settled b hpc
  refine ⟨num, { s₂ with brcName := b, brc }, hs₂ ▸ hfind, hcur, hclean, ?_⟩
  obtain rfl : s₂.currboard = b := hcur
  exact {
    guest := hguest.trans h.guest
    cells := hcurrent.wf.cells
    buf := hbuf
    current := fun _ => ⟨hb, rfl, hcurrent.wf, rfl, hcurrent.marks_eq ▸ hcurrent.ints⟩
    cache := .inr ⟨m, htake.symm ▸ hm, hagree⟩
    rebuilt := fun hrew => by cases hrew
    sync := fun _ hown _ => hmarks hown
    grown := fun _ hown u hu => hmarks hown ▸ hu
    dirty := fun hc => by rw [hclean] at hc; cases hc
    made := fun _ ht => by rw [hpending] at ht; cases ht
    next := fun _ hn => by cases hn
    settled := fun _ hs => by cases hs }

/-- A mark on one's own board. -/
theorem mark (h : SessionInv own saved pending p) (hpc : p.pc = .idle)
    (hb : p.sess.currboard ≠ []) (hown : own p.sess.currboard) (t : Int) :
    ∃ brc, brcAddlist t p.sess.brc = some brc ∧
      SessionInv own saved (if t > 0 then t :: pending else pending)
        ⟨{ p.sess with brc }, .idle⟩ := by
  have hcur := h.current hb
  have hres : p.result saved = saved := if_neg (by simp [hpc, Pc.rewriting])
  obtain ⟨brc, hadd, hwf, hseen, hkeep, hmem, hchanged⟩ := hcur.wf.addlist t
  refine ⟨brc, hadd, ?_⟩
  have hints : ∀ x ∈ brc.marks, IsCInt x := by
    intro x hx
    rcases hmem x hx with hx | hx
    · exact hx ▸ isCInt_toCInt t
    · exact hcur.ints x hx
  exact {
    guest := h.guest
    cells := hwf.cells
    buf := h.buf
    current := fun _ => ⟨hcur.valid, hcur.name, hwf, rfl, hints⟩
    cache := hres ▸ h.cache
    rebuilt := fun hrew => nomatch hrew
    sync := fun _ _ hc => by
      obtain ⟨hsame, hmarks⟩ := hchanged.resolve_left (by simp [show brc.brcChanged = false from hc])
      exact hmarks ▸ hres ▸ h.sync hb hown (hsame ▸ hc)
    grown := fun _ _ u hu => hkeep u (h.grown hb hown u hu)
    dirty := fun _ => ⟨hb, hown⟩
    made := by
      intro u hu
      refine ⟨hb, hown, ?_⟩
      split at hu
      case isTrue ht =>
        rcases List.mem_cons.mp hu with hu | hu
        · exact hu ▸ hseen ht
        · exact hkeep _ (h.made u hu).2.2
      case isFalse => exact hkeep _ (h.made u hu).2.2
    next := fun _ hn => nomatch hn
    settled := fun _ hs => nomatch hs }

end SessionInv

/-- Both sessions, the file and the history. -/
structure TwoSessions.Inv (own : Bool → List UInt8 → Prop) (st : TwoSessions) (h : History) :
    Prop where
  session : ∀ i, SessionInv (own i) h.saved (h.pending i) (st.procs i)
  alone : ∀ i, (st.procs i).pc.rewriting = true → (st.procs !i).pc.rewriting = false
  disk : (∀ i, (st.procs i).pc.cut = false) → Holds (st.file.getD []) h.saved
  empty : ∀ i, (st.procs i).pc.cut = true → st.file.getD [] = []
  fits : Fits h.saved
  flushed : ∀ p ∈ h.flushed, Seen ((h.saved p.1).getD [1]) (toCInt p.2)

namespace TwoSessions
variable {own : Bool → List UInt8 → Prop} {st : TwoSessions} {h : History}

theorem inv_start {file : Option (List UInt8)} {m : MarkMap} (own : Bool → List UInt8 → Prop)
    (hfile : Holds (file.getD []) m) (hfits : Fits m) :
    (start file).Inv own (.start m) where
  session := fun i => .start (own i) m
  alone := fun _ hr => nomatch hr
  disk := fun _ => hfile
  empty := fun _ hc => nomatch hc
  fits := hfits
  flushed := fun _ hp => nomatch hp

/-- The invariant after a step of session `i`, from what the step does to that session, to the file
and to the history. -/
theorem inv_set {i : Bool} {p : Proc} {file : Option (List UInt8)} {h' : History}
    (hi : SessionInv (own i) h'.saved (h'.pending i) p)
    (hj : SessionInv (own !i) h'.saved (h'.pending !i) (st.procs !i))
    (halone : p.pc.rewriting = true → (st.procs !i).pc.rewriting = false)
    (hdisk : p.pc.cut = false → (st.procs !i).pc.cut = false → Holds (file.getD []) h'.saved)
    (hempty : p.pc.cut = true ∨ (st.procs !i).pc.cut = true → file.getD [] = [])
    (hfits : Fits h'.saved)
    (hflushed : ∀ p ∈ h'.flushed, Seen ((h'.saved p.1).getD [1]) (toCInt p.2)) :
    (st.set i p file).Inv own h' := by
  have hcases : ∀ k, k = i ∨ k = !i := fun k => by cases k <;> cases i <;> simp
  refine ⟨fun k => ?_, fun k hk => ?_, fun hk => ?_, fun k hk => ?_, hfits, hflushed⟩
  · rcases hcases k with rfl | rfl
    · rwa [set_self]
    · rwa [set_other]
  · rcases hcases k with rfl | rfl
    · rw [set_self] at hk
      rw [set_other]
      exact halone hk
    · rw [set_other] at hk
      rw [Bool.not_not, set_self]
      cases hp : p.pc.rewriting with
      | false => rfl
      | true => rw [halone hp] at hk; cases hk
  · have hself := hk i
    have hother := hk !i
    rw [set_self] at hself
    rw [set_other] at hother
    exact hdisk hself hother
  · rcases hcases k with rfl | rfl
    · rw [set_self] at hk
      exact hempty (.inl hk)
    · rw [set_other] at hk
      exact hempty (.inr hk)

end TwoSessions

theorem Pc.rewriting_of_cut {pc : Pc} (h : pc.cut = true) : pc.rewriting = true := by
  cases pc <;> first | rfl | cases h

theorem Pc.cut_eq_false {pc : Pc} (h : pc.rewriting = false) : pc.cut = false := by
  cases hc : pc.cut with
  | false => rfl
  | true => rw [rewriting_of_cut hc] at h; cases h

theorem Pc.resume_rewriting (next : Option (List UInt8)) : (resume next).rewriting = false := by
  cases next <;> rfl

namespace History
variable {h : History} {i : Bool} {board : List UInt8}

theorem flush_pending_self : (h.flush i board).pending i = [] := Function.update_self ..

theorem flush_pending_other : (h.flush i board).pending (!i) = h.pending !i :=
  Function.update_of_ne (by simp) ..

theorem mem_flushed {q : List UInt8 × Int} (hq : q ∈ (h.flush i board).flushed) :
    (q.1 = board ∧ q.2 ∈ h.pending i) ∨ q ∈ h.flushed := by
  rcases List.mem_append.mp hq with hq | hq
  · obtain ⟨t, ht, rfl⟩ := List.mem_map.mp hq
    exact .inl ⟨rfl, ht⟩
  · exact .inr hq

end History

namespace TwoSessions
variable {own : Bool → List UInt8 → Prop} {st : TwoSessions} {h : History} {i : Bool}

theorem exec_eq {a : Action} {p : Proc} {file : Option (List UInt8)}
    (hexec : (st.procs i).exec st.file a = some (p, file)) :
    st.exec i a = some (st.set i p file) := by
  rw [exec, hexec]
  rfl

/-- While neither session is rewriting the file, it holds the map. -/
theorem Inv.holds (H : st.Inv own h) (hi : (st.procs i).pc.cut = false)
    (hj : (st.procs !i).pc.cut = false) : Holds (st.file.getD []) h.saved := by
  refine H.disk fun k => ?_
  cases k <;> cases i <;> first | exact hi | exact hj

/-- A `brc_update` that finds nothing to write. -/
theorem Inv.flush_clean (H : st.Inv own h) (hpc : (st.procs i).pc = .idle)
    (hclean : (st.procs i).sess.brc.brcChanged = false) {next : Option (List UInt8)}
    (hnext : ∀ b, next = some b → ValidName b) :
    ∃ p, (st.procs i).startUpdate st.file next = some p ∧
      (st.set i p st.file).Inv own (h.flush i (st.procs i).sess.currboard) := by
  have hs := H.session i
  have hrew : (st.procs i).pc.rewriting = false := hpc ▸ rfl
  refine ⟨_, if_pos (.inl hclean), inv_set ?_ ?_ ?_ ?_ ?_ H.fits ?_⟩
  · rw [History.flush_pending_self]
    exact hs.flush_clean hpc hnext
  · rw [History.flush_pending_other]
    exact H.session !i
  · intro hr
    rw [Pc.resume_rewriting] at hr
    cases hr
  · intro _ hcut
    exact H.holds (Pc.cut_eq_false hrew) hcut
  · rintro (hcut | hcut)
    · rw [Pc.cut_eq_false (Pc.resume_rewriting next)] at hcut
      cases hcut
    · exact H.empty _ hcut
  · intro q hq
    rcases History.mem_flushed hq with ⟨hb, ht⟩ | hq
    · obtain ⟨hne, hown, hseen⟩ := hs.made q.2 ht
      have hsync := hs.sync hne hown hclean
      rw [Proc.result, if_neg (by simp [hrew])] at hsync
      show Seen ((h.saved q.1).getD [1]) (toCInt q.2)
      rw [hb, hsync]
      exact hseen
    · exact H.flushed q hq

/-- A `brc_update` that reads the file while the other session is not rewriting it. -/
theorem Inv.startUpdate (H : st.Inv own h) (hpc : (st.procs i).pc = .idle)
    (hchanged : (st.procs i).sess.brc.brcChanged = true)
    (hother : (st.procs !i).pc.rewriting = false) {next : Option (List UInt8)}
    (hnext : ∀ b, next = some b → ValidName b) :
    ∃ p, (st.procs i).startUpdate st.file next = some p ∧ (st.set i p st.file).Inv own h := by
  have hs := H.session i
  have hfile := @Inv.holds own st h i H (hpc ▸ rfl) (Pc.cut_eq_false hother)
  obtain ⟨p, hstart, hpc', -, hs'⟩ := hs.startUpdate hchanged hfile H.fits hnext
  refine ⟨p, hstart, inv_set hs' (H.session !i) (fun _ => hother) (fun _ _ => hfile) ?_ H.fits
    H.flushed⟩
  rintro (hcut | hcut)
  · rw [hpc'] at hcut
    cases hcut
  · exact H.empty _ hcut

theorem Inv.mark (H : st.Inv own h) (hpc : (st.procs i).pc = .idle)
    (hb : (st.procs i).sess.currboard ≠ []) (hown : own i (st.procs i).sess.currboard) (t : Int) :
    ∃ brc, brcAddlist t (st.procs i).sess.brc = some brc ∧
      (st.set i ⟨{ (st.procs i).sess with brc }, .idle⟩ st.file).Inv own
        (h.record (st.procs i).sess i (.mark t)) := by
  obtain ⟨brc, hadd, hs⟩ := (H.session i).mark hpc hb hown t
  obtain ⟨h', hh'⟩ : ∃ h', h' = h.record (st.procs i).sess i (.mark t) := ⟨_, rfl⟩
  have hsaved : h'.saved = h.saved := by rw [hh', History.record]; split <;> rfl
  have hflushed : h'.flushed = h.flushed := by rw [hh', History.record]; split <;> rfl
  have hpending : h'.pending i = if t > 0 then t :: h.pending i else h.pending i := by
    rw [hh', History.record]
    split
    · exact Function.update_self ..
    · rfl
  have hother : h'.pending (!i) = h.pending !i := by
    rw [hh', History.record]
    split
    · exact Function.update_of_ne (by simp) ..
    · rfl
  refine ⟨brc, hadd, hh' ▸ inv_set ?_ ?_ ?_ ?_ ?_ (hsaved ▸ H.fits) ?_⟩
  · rwa [hsaved, hpending]
  · rw [hsaved, hother]
    exact H.session !i
  · exact fun hr => nomatch hr
  · exact fun _ hcut => hsaved ▸ H.holds (hpc ▸ rfl) hcut
  · exact fun hcut => H.empty _ (hcut.resolve_left Bool.false_ne_true)
  · rw [hsaved, hflushed]
    exact H.flushed

theorem Inv.truncate (H : st.Inv own h) {next : Option (List UInt8)}
    (hpc : (st.procs i).pc = .merged next) :
    (st.set i ⟨(st.procs i).sess, .truncated next⟩ (some [])).Inv own h := by
  refine inv_set ((H.session i).truncate hpc) (H.session !i) ?_ ?_ ?_ H.fits H.flushed
  · exact fun _ => H.alone i (hpc ▸ rfl)
  · exact fun hcut => nomatch hcut
  · exact fun _ => rfl

/-- The write of a session that has rebuilt its buffer from the whole map. -/
theorem Inv.write (H : st.Inv own h) (hdisj : ∀ b, own i b → ¬ own (!i) b)
    {next : Option (List UInt8)} (hpc : (st.procs i).pc = .truncated next)
    (hfits : Fits (h.record (st.procs i).sess i .write).saved) :
    (st.set i ⟨(st.procs i).sess, .resume next⟩ (some (overlay (st.file.getD []) 0
        ((st.procs i).sess.brcBuf.take (st.procs i).sess.brcSize)))).Inv own
      (h.record (st.procs i).sess i .write) := by
  have hs := H.session i
  have hother : (st.procs !i).pc.rewriting = false := H.alone i (hpc ▸ rfl)
  obtain ⟨hown, hb, hholds⟩ := hs.rebuilt (hpc ▸ rfl)
  have hresult : (st.procs i).result h.saved =
      Function.update h.saved (st.procs i).sess.currboard (some (st.procs i).sess.brc.marks) :=
    if_pos (hpc ▸ rfl)
  refine inv_set ?_ ?_ ?_ ?_ ?_ hfits ?_
  · have hpending := @History.flush_pending_self h i (st.procs i).sess.currboard
    exact hpending.symm ▸ hs.write hpc
  · have hpending := @History.flush_pending_other h i (st.procs i).sess.currboard
    refine hpending.symm ▸ (H.session !i).frame hother fun b hb' => ?_
    have hne : b ≠ (st.procs i).sess.currboard := fun he => hdisj _ hown (he ▸ hb')
    exact Function.update_of_ne hne ..
  · intro hr
    rw [Pc.resume_rewriting] at hr
    cases hr
  · intro _ _
    rw [H.empty i (hpc ▸ rfl)]
    simpa [overlay, History.record, ← hresult] using hholds
  · rintro (hcut | hcut)
    · rw [Pc.cut_eq_false (Pc.resume_rewriting next)] at hcut
      cases hcut
    · rw [Pc.cut_eq_false hother] at hcut
      cases hcut
  · intro q hq
    show Seen ((Function.update h.saved (st.procs i).sess.currboard
      (some (st.procs i).sess.brc.marks) q.1).getD [1]) (toCInt q.2)
    rcases History.mem_flushed hq with ⟨hboard, ht⟩ | hq
    · rw [hboard, Function.update_self]
      exact (hs.made q.2 ht).2.2
    · by_cases hboard : q.1 = (st.procs i).sess.currboard
      · rw [hboard, Function.update_self]
        exact hs.grown hb hown _ (hboard ▸ H.flushed q hq)
      · rw [Function.update_of_ne hboard]
        exact H.flushed q hq

theorem Inv.load (H : st.Inv own h) {b : List UInt8} (hpc : (st.procs i).pc = .entering b)
    (hother : (st.procs i).sess.brcBuf.head? = some 0 → (st.procs !i).pc.cut = false) :
    ∃ num s, (((st.procs i).sess.enter b).loadFile st.file).find b = some (num, s) ∧
      (st.set i ⟨s, .idle⟩ st.file).Inv own h := by
  have hcut : (st.procs i).pc.cut = false := hpc ▸ rfl
  obtain ⟨num, s, hfind, -, -, hs⟩ := (H.session i).load hpc
    (fun hhead => H.holds hcut (hother hhead)) H.fits
  refine ⟨num, s, hfind, inv_set hs (H.session !i) ?_ ?_ ?_ H.fits H.flushed⟩
  · exact fun hr => nomatch hr
  · exact fun _ hcut' => H.holds hcut hcut'
  · exact fun hcut' => H.empty _ (hcut'.resolve_left Bool.false_ne_true)

/-- Every calm step can be taken and keeps the invariant. -/
theorem Inv.exec (H : st.Inv own h) (hdisj : ∀ b, own i b → ¬ own (!i) b) {a : Action}
    (hcalm : st.Calm own h i a) :
    ∃ st', st.exec i a = some st' ∧ st'.Inv own (h.record (st.procs i).sess i a) := by
  obtain ⟨hfits, hcalm⟩ := hcalm
  cases hpc : (st.procs i).pc with
  | idle =>
    rw [hpc] at hcalm
    cases a with
    | visit b =>
      obtain ⟨hb, hother⟩ := hcalm
      have hnext : ∀ c, some b = some c → ValidName c := fun c hc => Option.some.inj hc ▸ hb
      rw [History.record]
      by_cases hboard : (st.procs i).sess.currboard = b
      · rw [if_pos (.inl hboard)]
        refine ⟨st.set i (st.procs i) st.file, exec_eq ?_, ?_⟩
        · rw [Proc.exec, hpc]
          exact if_pos hboard
        · rw [set, Function.update_eq_self]
          exact H
      cases hchanged : (st.procs i).sess.brc.brcChanged with
      | true =>
        obtain ⟨p, hstart, hinv⟩ := H.startUpdate hpc hchanged (hother hboard hchanged) hnext
        rw [if_pos (.inr rfl)]
        refine ⟨_, exec_eq ?_, hinv⟩
        rw [Proc.exec, hpc]
        simp only [if_neg hboard, hstart, Option.map_some]
      | false =>
        obtain ⟨p, hstart, hinv⟩ := H.flush_clean hpc hchanged hnext
        rw [if_neg (by simp [hboard])]
        refine ⟨_, exec_eq ?_, hinv⟩
        rw [Proc.exec, hpc]
        simp only [if_neg hboard, hstart, Option.map_some]
    | mark t =>
      obtain ⟨brc, hadd, hinv⟩ := H.mark hpc hcalm.1 hcalm.2 t
      refine ⟨_, exec_eq ?_, hinv⟩
      rw [Proc.exec, hpc]
      simp only [hadd, Option.map_some]
    | update =>
      have hnext : ∀ c, (none : Option (List UInt8)) = some c → ValidName c :=
        fun _ hc => nomatch hc
      rw [History.record]
      cases hchanged : (st.procs i).sess.brc.brcChanged with
      | true =>
        obtain ⟨p, hstart, hinv⟩ := H.startUpdate hpc hchanged (hcalm hchanged) hnext
        refine ⟨_, exec_eq ?_, hinv⟩
        rw [Proc.exec, hpc]
        simp only [hstart, Option.map_some]
      | false =>
        obtain ⟨p, hstart, hinv⟩ := H.flush_clean hpc hchanged hnext
        refine ⟨_, exec_eq ?_, hinv⟩
        rw [Proc.exec, hpc]
        simp only [hstart, Option.map_some]
    | truncate | write | load => exact hcalm.elim
  | merged next =>
    rw [hpc] at hcalm
    cases a with
    | truncate => exact ⟨_, exec_eq (by rw [Proc.exec, hpc]), H.truncate hpc⟩
    | visit | mark | update | write | load => exact hcalm.elim
  | truncated next =>
    rw [hpc] at hcalm
    cases a with
    | write => exact ⟨_, exec_eq (by rw [Proc.exec, hpc]), H.write hdisj hpc hfits⟩
    | visit | mark | update | truncate | load => exact hcalm.elim
  | entering b =>
    rw [hpc] at hcalm
    cases a with
    | load =>
      obtain ⟨num, s, hfind, hinv⟩ := H.load hpc hcalm
      refine ⟨_, exec_eq ?_, hinv⟩
      rw [Proc.exec, hpc]
      simp only [hfind, Option.map_some]
    | visit | mark | update | truncate | write => exact hcalm.elim

/-- A run of calm steps keeps the invariant. -/
theorem Inv.run (H : st.Inv own h) (hdisj : ∀ i b, own i b → ¬ own (!i) b)
    {acts : List (Bool × Action)} (hcalm : st.CalmRun own h acts) :
    ∃ st' h', st.run h acts = some (st', h') ∧ st'.Inv own h' := by
  induction acts generalizing st h with
  | nil => exact ⟨st, h, rfl, H⟩
  | cons act acts ih =>
    obtain ⟨st₁, hexec, H₁⟩ := H.exec (hdisj act.1) hcalm.1
    obtain ⟨st', h', hrun, H'⟩ := ih H₁ (hcalm.2 st₁ hexec)
    refine ⟨st', h', ?_, H'⟩
    rw [TwoSessions.run, hexec]
    exact hrun

end TwoSessions

/-- In every run of two sessions with disjoint boards, from any file that holds a map, in which no
session reads the file while the other is rewriting it: no step leaves its arrays, and in every
state with no update between its truncation and its write the file is the map of the lists last
written and shows every mark that a session has made and flushed. -/
theorem brc_two_sessions (own : Bool → List UInt8 → Prop) (hdisj : ∀ i b, own i b → ¬ own (!i) b)
    (file : Option (List UInt8)) (m : MarkMap) (hfile : Holds (file.getD []) m) (hfits : Fits m)
    (acts : List (Bool × Action))
    (hcalm : (TwoSessions.start file).CalmRun own (.start m) acts) :
    ∃ st h, (TwoSessions.start file).run (.start m) acts = some (st, h) ∧
      ((∀ i, (st.procs i).pc.cut = false) → Kept st h) := by
  obtain ⟨st, h, hrun, H⟩ := (TwoSessions.inv_start own hfile hfits).run hdisj hcalm
  exact ⟨st, h, hrun, fun hcut => ⟨H.disk hcut, H.flushed⟩⟩

/-! ## Two updates that both read before either writes -/

/-- The empty map. -/
theorem holds_nil : Holds [] (fun _ => none) := ⟨[], .nil, nofun, .nil⟩

theorem fits_nil : Fits (fun _ => none) := ⟨[], .nil, Nat.zero_le _⟩

/-- A new session marks an article on a board of its own and reads the empty file in
`brc_update`. -/
theorem mark_and_merge {b : List UInt8} {t : Int} (hb : ValidName b) (ht : 1 < toCInt t)
    (ht' : 0 < t) :
    ∃ s₁ s₂ s₃, (Proc.mk .start (.entering b)).exec none .load = some (⟨s₁, .idle⟩, none) ∧
      s₁.currboard = b ∧
      (Proc.mk s₁ .idle).exec none (.mark t) = some (⟨s₂, .idle⟩, none) ∧
      s₂.currboard = b ∧ s₂.brc.brcChanged = true ∧
      (Proc.mk s₂ .idle).exec none .update = some (⟨s₃, .merged none⟩, none) ∧
      s₃.currboard = b ∧ Holds (s₃.brcBuf.take s₃.brcSize)
        (Function.update (fun _ => none) b (some s₃.brc.marks)) ∧
      Fits (Function.update (fun _ => none) b (some s₃.brc.marks)) := by
  have hne : b ≠ [] := fun hn => by
    obtain ⟨c, hc, -⟩ := hb.start
    rw [hn] at hc
    cases hc
  have h₀ : SessionInv (· = b) (fun _ => none) [] ⟨.start, .entering b⟩ :=
    (SessionInv.start _ _).flush_clean rfl fun c hc => Option.some.inj hc ▸ hb
  obtain ⟨num, s₁, hload, hcur₁, hclean, h₁⟩ := @SessionInv.load _ _ _ _ none b h₀ rfl
    (fun _ => holds_nil) fits_nil
  have hne₁ : s₁.currboard ≠ [] := hcur₁ ▸ hne
  have hmarks : [1] = s₁.brc.marks := h₁.sync hne₁ hcur₁ hclean
  obtain ⟨brc, hadd, h₂⟩ := h₁.mark rfl hne₁ hcur₁ t
  obtain ⟨brc', hadd', -, hdirty⟩ := brcAddlist_eq (h₁.current hne₁).wf t
  obtain rfl : brc = brc' := Option.some.inj (hadd.symm.trans hadd')
  have hunseen : ¬ Seen s₁.brc.marks (toCInt t) := by
    rw [← hmarks]
    rintro (h | h)
    · rw [List.mem_singleton] at h
      omega
    · exact absurd (h 1 (List.mem_singleton_self 1)) (by omega)
  rw [if_pos ⟨ht', hunseen⟩] at hdirty
  obtain ⟨p, hstart, hpc, hcur₃, h₃⟩ := @SessionInv.startUpdate _ _ _ _ none none h₂ hdirty.2
    holds_nil fits_nil nofun
  refine ⟨s₁, { s₁ with brc }, p.sess, ?_, hcur₁, ?_, hcur₁, hdirty.2, ?_, hcur₃.trans hcur₁,
    ?_, ?_⟩
  · simp only [Proc.exec]
    rw [hload]
    rfl
  · simp only [Proc.exec, hadd, Option.map_some]
  · simp only [Proc.exec]
    rw [hstart, ← hpc]
    rfl
  · obtain ⟨-, -, hholds⟩ := h₃.rebuilt (hpc ▸ rfl)
    have hres : p.result (fun _ => none) =
        Function.update (fun _ => none) p.sess.currboard (some p.sess.brc.marks) :=
      if_pos (hpc ▸ rfl)
    rw [hres, hcur₃.trans hcur₁] at hholds
    exact hholds
  · refine ⟨_, Represents.nil.update b p.sess.brc.marks, ?_⟩
    have hlen := (h₃.current (hcur₃ ▸ hne₁)).valid_record.length_le
    simp only [List.filter_nil, List.map_cons, List.map_nil, List.sum_cons, List.sum_nil,
      BrcRecord.size, brcMaxSize, brcItemSize, brcStrlen, brcMaxNum] at hlen ⊢
    omega

theorem exec_visit_start {b : List UInt8} (hb : b ≠ []) :
    (Proc.mk .start .idle).exec none (.visit b) = some (⟨.start, .entering b⟩, none) := by
  have hne : ¬ BrcSession.start.currboard = b := Ne.symm hb
  simp only [Proc.exec, if_neg hne]
  rfl

theorem TwoSessions.run_cons {st : TwoSessions} {h : History} {i : Bool} {a : Action}
    {acts : List (Bool × Action)} {p : Proc} {file : Option (List UInt8)}
    {out : Option (TwoSessions × History)}
    (hexec : (st.procs i).exec st.file a = some (p, file))
    (hrun : (st.set i p file).run (h.record (st.procs i).sess i a) acts = out) :
    st.run h ((i, a) :: acts) = out := by
  rw [run, exec_eq hexec, ← hrun]
  rfl

theorem TwoSessions.calmRun_cons {own : Bool → List UInt8 → Prop} {st : TwoSessions}
    {h h' : History} {i : Bool} {a : Action} {acts : List (Bool × Action)} {p : Proc}
    {file : Option (List UInt8)} (hexec : (st.procs i).exec st.file a = some (p, file))
    (hrecord : h.record (st.procs i).sess i a = h') (hcalm : st.Calm own h i a)
    (hrun : (st.set i p file).CalmRun own h' acts) : st.CalmRun own h ((i, a) :: acts) := by
  refine ⟨hcalm, fun st' hst' => ?_⟩
  rw [exec_eq hexec] at hst'
  exact Option.some.inj hst' ▸ hrecord ▸ hrun

/-- A session that flushes a mark while the other one enters a board. -/
theorem brc_two_sessions_one_writer :
    ∃ st h, (TwoSessions.start none).run (.start fun _ => none)
        [(false, .visit [65]), (false, .load), (false, .mark 5), (true, .visit [66]),
          (false, .update), (true, .load), (false, .truncate), (false, .write)] = some (st, h) ∧
      ((∀ i, (st.procs i).pc.cut = false) → Kept st h) := by
  obtain ⟨a₁, a₂, a₃, ha₁, hca₁, ha₂, hca₂, hda₂, ha₃, hca₃, -, hfits⟩ :=
    @mark_and_merge [65] 5 (by decide) (by decide) (by decide)
  obtain ⟨b₁, -, -, hb₁, -⟩ := @mark_and_merge [66] 7 (by decide) (by decide) (by decide)
  refine brc_two_sessions (fun i b => b = if i then [66] else [65]) ?_ none (fun _ => none)
    holds_nil fits_nil _ ?_
  · intro i b
    cases i <;> rintro rfl <;> decide
  have hupdate : ∀ h : History, h.record a₂ false .update = h := fun h => if_pos hda₂
  have hne₁ : a₁.currboard ≠ [] := by rw [hca₁]; decide
  have hfits₃ : Fits (Function.update (fun _ => none) a₃.currboard (some a₃.brc.marks)) := by
    rwa [hca₃]
  refine TwoSessions.calmRun_cons (exec_visit_start (by decide)) rfl
    ⟨fits_nil, by decide, nofun⟩ ?_
  refine TwoSessions.calmRun_cons ha₁ rfl ⟨fits_nil, fun _ => rfl⟩ ?_
  refine TwoSessions.calmRun_cons ha₂ rfl ⟨fits_nil, hne₁, hca₁⟩ ?_
  refine TwoSessions.calmRun_cons (exec_visit_start (by decide)) rfl
    ⟨fits_nil, by decide, nofun⟩ ?_
  refine TwoSessions.calmRun_cons ha₃ (hupdate _) ⟨(hupdate _).symm ▸ fits_nil, fun _ => rfl⟩ ?_
  refine TwoSessions.calmRun_cons hb₁ rfl ⟨fits_nil, fun _ => rfl⟩ ?_
  refine TwoSessions.calmRun_cons rfl rfl ⟨fits_nil, trivial⟩ ?_
  refine TwoSessions.calmRun_cons rfl rfl ⟨hfits₃, trivial⟩ trivial

/-- Two sessions mark one article each on different boards, and both updates read the file before
either has written it: the mark that the first one has flushed is not in the file. -/
theorem brc_two_sessions_lost :
    ∃ st h, (TwoSessions.start none).run (.start fun _ => none)
        [(false, .visit [65]), (false, .load), (false, .mark 5), (false, .update),
          (true, .visit [66]), (true, .load), (true, .mark 7), (true, .update),
          (false, .truncate), (false, .write), (true, .truncate), (true, .write)] =
          some (st, h) ∧
      (∀ i, (st.procs i).pc = .idle) ∧ ([65], 5) ∈ h.flushed ∧
      ∃ m, Holds (st.file.getD []) m ∧ ¬ Seen ((m [65]).getD [1]) (toCInt 5) := by
  obtain ⟨a₁, a₂, a₃, ha₁, -, ha₂, -, hda₂, ha₃, hca₃, -⟩ :=
    @mark_and_merge [65] 5 (by decide) (by decide) (by decide)
  obtain ⟨b₁, b₂, b₃, hb₁, -, hb₂, -, hdb₂, hb₃, -, hholds, -⟩ :=
    @mark_and_merge [66] 7 (by decide) (by decide) (by decide)
  refine ⟨_, _, TwoSessions.run_cons (exec_visit_start (by decide)) <| TwoSessions.run_cons ha₁ <|
    TwoSessions.run_cons ha₂ <|
    TwoSessions.run_cons ha₃ <| TwoSessions.run_cons (exec_visit_start (by decide)) <|
    TwoSessions.run_cons hb₁ <| TwoSessions.run_cons hb₂ <|
    TwoSessions.run_cons hb₃ <| TwoSessions.run_cons rfl <| TwoSessions.run_cons rfl <|
    TwoSessions.run_cons rfl <| TwoSessions.run_cons rfl rfl,
    ?_, ?_, Function.update (fun _ => none) [66] (some b₃.brc.marks), ?_, ?_⟩
  · intro i
    cases i <;> rfl
  · simp [History.record, History.flush, History.start, TwoSessions.set, TwoSessions.start,
      BrcSession.start, Function.update, hda₂, hdb₂, hca₃]
  · show Holds (overlay [] 0 (b₃.brcBuf.take b₃.brcSize)) _
    simpa [overlay] using hholds
  · rw [Function.update_of_ne (by decide)]
    decide

end ArgoBbs

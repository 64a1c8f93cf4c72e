import ArgoBbs.Brc.Encoding
import Mathlib.Data.List.Nodup
import Mathlib.Data.List.Perm.Basic

/-! # The map of read marks

What `.boardrc` is for: a map from board names to the marks of the board. A session works on the
marks of one board at a time and puts them back into the map when it leaves the board
(`MarkSession`). -/

namespace ArgoBbs

abbrev MarkMap := List UInt8 → Option (List Int)

/-- The records are the entries of the map, each once. -/
structure Represents (rs : List BrcRecord) (m : MarkMap) : Prop where
  nodup : (rs.map BrcRecord.name).Nodup
  mem_iff : ∀ r, r ∈ rs ↔ m r.name = some r.list

namespace Represents
variable {rs rs' : List BrcRecord} {m : MarkMap} {b : List UInt8} {l : List Int}

theorem nil : Represents [] (fun _ => none) := ⟨List.nodup_nil, by simp⟩

/-- Looking a record up by its name is looking the name up in the map. -/
theorem find? (h : Represents rs m) (b : List UInt8) :
    rs.find? (·.name = b) = (m b).map fun l => ⟨b, l⟩ := by
  cases hf : rs.find? (·.name = b) with
  | some r =>
    obtain rfl : r.name = b := by simpa using List.find?_some hf
    rw [(h.mem_iff r).mp (List.mem_of_find?_eq_some hf)]
    rfl
  | none =>
    cases hm : m b with
    | none => rfl
    | some l =>
      have := List.find?_eq_none.mp hf _ ((h.mem_iff ⟨b, l⟩).mpr hm)
      simp at this

/-- A record put in front of the others replaces the entry of its board. -/
theorem update (h : Represents rs m) (b : List UInt8) (l : List Int) :
    Represents (⟨b, l⟩ :: rs.filter (·.name ≠ b)) (Function.update m b (some l)) := by
  constructor
  · rw [List.map_cons, List.nodup_cons]
    refine ⟨by simp, ?_⟩
    exact h.nodup.sublist (List.filter_sublist.map _)
  · intro r
    rw [List.mem_cons, List.mem_filter, h.mem_iff]
    by_cases hb : r.name = b
    · subst hb
      rw [Function.update_self, Option.some_inj]
      constructor
      · rintro (hr | ⟨-, hr⟩)
        · rw [hr]
        · simp at hr
      · intro hl
        exact .inl (by rw [hl])
    · rw [Function.update_of_ne hb]
      constructor
      · rintro (hr | ⟨hr, -⟩)
        · exact absurd (by rw [hr]) hb
        · exact hr
      · intro hr
        exact .inr ⟨hr, by simpa using hb⟩

/-- The records of a map are determined up to their order. -/
theorem perm (h : Represents rs m) (h' : Represents rs' m) : rs.Perm rs' :=
  (List.perm_ext_iff_of_nodup h.nodup.of_map h'.nodup.of_map).mpr fun r =>
    (h.mem_iff r).trans (h'.mem_iff r).symm

end Represents

/-- The records of the map together fit into what `brc_update` reads back. -/
def Fits (m : MarkMap) : Prop :=
  ∃ rs, Represents rs m ∧ (rs.map BrcRecord.size).sum ≤ brcMaxSize - brcItemSize

theorem Represents.size_le {rs : List BrcRecord} {m : MarkMap} (h : Represents rs m) (hm : Fits m) :
    (rs.map BrcRecord.size).sum ≤ brcMaxSize - brcItemSize := by
  obtain ⟨rs', h', hsize⟩ := hm
  rwa [((h.perm h').map BrcRecord.size).sum_nat]

/-! ## Sessions on the map -/

/-- A session on board `board` with marks that are newer than those of the map if `dirty`. -/
structure MarkSession where
  saved : MarkMap
  board : List UInt8
  marks : List Int
  dirty : Bool

inductive SessionOp
  | visit (boardname : List UInt8)
  | mark (filetime : Int)
  | update
  | login
  deriving DecidableEq, Repr

namespace MarkSession

/-- Before the first board is entered. -/
def login (saved : MarkMap) : MarkSession := ⟨saved, [], [], false⟩

def flush (st : MarkSession) : MarkSession :=
  if st.dirty then
    { st with saved := Function.update st.saved st.board (some st.marks), dirty := false }
  else st

/-- The marks of a board that the session is not on. -/
def lookup (st : MarkSession) (b : List UInt8) : List Int := (st.saved b).getD [1]

def visit (st : MarkSession) (b : List UInt8) : MarkSession :=
  if st.board = b then st else ⟨st.flush.saved, b, st.flush.lookup b, false⟩

def mark (st : MarkSession) (filetime : Int) : MarkSession :=
  if filetime > 0 ∧ ¬ Seen st.marks (toCInt filetime) then
    { st with marks := insertMark brcMaxNum (toCInt filetime) st.marks, dirty := true }
  else st

def exec (st : MarkSession) : SessionOp → MarkSession
  | .visit b => st.visit b
  | .mark t => st.mark t
  | .update => st.flush
  | .login => login st.saved

def run (st : MarkSession) (ops : List SessionOp) : MarkSession := ops.foldl exec st

/-- Boards have valid names, marks are made on a board, and the records fit. -/
def Allows (st : MarkSession) (op : SessionOp) : Prop :=
  Fits (st.exec op).saved ∧
  match op with
  | .visit b => ValidName b
  | .mark _ => st.board ≠ []
  | .update | .login => True

/-- Every operation of a run is allowed when it comes. -/
def AllowsRun (st : MarkSession) : List SessionOp → Prop
  | [] => True
  | op :: ops => st.Allows op ∧ (st.exec op).AllowsRun ops

/-- The operations make no mark on board `b`. -/
def LeavesAlone (b : List UInt8) (st : MarkSession) : List SessionOp → Prop
  | [] => True
  | op :: ops => (∀ t, op = .mark t → st.board ≠ b) ∧ (st.exec op).LeavesAlone b ops

/-- Board `b` would be found with the marks `l`, now and by a later session. -/
structure Keeps (b : List UInt8) (l : List Int) (st : MarkSession) : Prop where
  ne_nil : b ≠ []
  saved : st.lookup b = l
  here : st.board = b → st.marks = l ∧ st.dirty = false

section
variable {st : MarkSession} {b : List UInt8} {l : List Int}

theorem Keeps.flush (h : Keeps b l st) : Keeps b l st.flush := by
  unfold MarkSession.flush
  split
  case isTrue hd =>
    have hb : b ≠ st.board := fun hb => by rw [(h.here hb.symm).2] at hd; cases hd
    refine ⟨h.ne_nil, ?_, fun hb' => absurd hb'.symm hb⟩
    rw [← h.saved]
    simp only [lookup, Function.update_of_ne hb]
  case isFalse => exact h

/-- An operation that makes no mark on a board keeps its marks. -/
theorem Keeps.exec (h : Keeps b l st) (op : SessionOp) (hop : ∀ t, op = .mark t → st.board ≠ b) :
    Keeps b l (st.exec op) := by
  cases op with
  | visit c =>
    rw [MarkSession.exec, visit]
    split
    case isTrue => exact h
    case isFalse =>
      refine ⟨h.ne_nil, h.flush.saved, fun hc => ⟨?_, rfl⟩⟩
      rw [← h.flush.saved, ← show c = b from hc]
  | mark t =>
    have hb := hop t rfl
    rw [MarkSession.exec, mark]
    split
    · exact ⟨h.ne_nil, h.saved, fun hb' => absurd hb' hb⟩
    · exact h
  | update => exact h.flush
  | login =>
    exact ⟨h.ne_nil, h.saved, fun hb => absurd hb.symm h.ne_nil⟩

theorem Keeps.run (h : Keeps b l st) {ops : List SessionOp} (hops : st.LeavesAlone b ops) :
    Keeps b l (st.run ops) := by
  induction ops generalizing st with
  | nil => exact h
  | cons op ops ih => exact ih (h.exec op hops.1) hops.2

/-- Unless it is dirty, the session has the marks that the map gives its board. -/
def InSync (st : MarkSession) : Prop :=
  st.board ≠ [] → st.dirty = false → st.lookup st.board = st.marks

theorem InSync.flush (h : st.InSync) : st.flush.InSync := by
  unfold MarkSession.flush
  split
  case isTrue => exact fun _ _ => by simp [lookup]
  case isFalse => exact h

theorem InSync.exec (h : st.InSync) (op : SessionOp) : (st.exec op).InSync := by
  cases op with
  | visit b =>
    rw [MarkSession.exec, visit]
    split
    · exact h
    · exact fun _ _ => rfl
  | mark t =>
    rw [MarkSession.exec, mark]
    split
    · intro _ hd
      cases hd
    · exact h
  | update => exact h.flush
  | login => exact fun hb => absurd rfl hb

theorem InSync.run (h : st.InSync) (ops : List SessionOp) : (st.run ops).InSync := by
  induction ops generalizing st with
  | nil => exact h
  | cons op ops ih => exact ih (h.exec op)

/-- After `brc_update` the board of the session would be found as it is. -/
theorem InSync.keeps_flush (h : st.InSync) (hb : st.board ≠ []) :
    Keeps st.board st.marks st.flush := by
  unfold MarkSession.flush
  split
  case isTrue => exact ⟨hb, by simp [lookup], fun _ => ⟨rfl, rfl⟩⟩
  case isFalse hd =>
    have hd := Bool.not_eq_true _ ▸ hd
    exact ⟨hb, h hb hd, fun _ => ⟨rfl, hd⟩⟩

/-- Entering a board finds its marks. -/
theorem Keeps.visit (h : Keeps b l st) : (st.visit b).board = b ∧ (st.visit b).marks = l := by
  unfold MarkSession.visit
  split
  case isTrue hb => exact ⟨hb, (h.here hb).1⟩
  case isFalse => exact ⟨rfl, h.flush.saved⟩

/-- Coming back to a board after `brc_update`, in this session or a later one, finds the marks it
was left with. -/
theorem run_back (hb : b ≠ []) (m : MarkMap) (before after : List SessionOp)
    (hboard : ((login m).run before).board = b)
    (hafter : ((login m).run before).flush.LeavesAlone b after) :
    ((login m).run (before ++ .update :: after ++ [.visit b])).board = b ∧
    ((login m).run (before ++ .update :: after ++ [.visit b])).marks =
      ((login m).run before).marks := by
  have hsync : (login m).InSync := fun hb => absurd rfl hb
  have hkeeps : Keeps b ((login m).run before).marks ((login m).run before).flush :=
    hboard ▸ (hsync.run before).keeps_flush (hboard ▸ hb)
  have hrun : (login m).run (before ++ .update :: after ++ [.visit b]) =
      (((login m).run before).flush.run after).visit b := by
    simp [run, exec]
  exact hrun ▸ (hkeeps.run hafter).visit

end

end MarkSession

end ArgoBbs

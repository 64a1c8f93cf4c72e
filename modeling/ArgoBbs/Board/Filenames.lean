import ArgoBbs.Board.Thread
import ArgoBbs.Consts

/-! # The names and threads of new articles

A new article gets the time as its name and as the number of the thread that it begins.
`getfilename` (`stuff.c`) and `postfile_internal` of the library (`post.c`) go on to the next number
as long as the name is taken; the library looks whether it is before it creates the file, and has
already counted on when it takes the number of the thread. -/

namespace ArgoBbs

/-- `M.%d.A` of the time as an `int`. -/
def articleFname (now : BitVec 32) : Bytes := bytes "M." ++ printInt now.toInt ++ bytes ".A"

/-- An article that begins a thread, by the number in its name and who has named it. -/
structure NewArticle where
  library : Bool
  number : BitVec 32
  deriving DecidableEq

namespace NewArticle

def id (a : NewArticle) : BitVec 32 := if a.library then a.number + 1 else a.number

/-- The article named the other way that would begin the same thread. -/
def twin (a : NewArticle) : NewArticle :=
  if a.library then ⟨false, a.number + 1⟩ else ⟨true, a.number - 1⟩

def header (a : NewArticle) (filetime : Int) : ThreadHeader :=
  ⟨⟨articleFname a.number, filetime⟩, a.id, 0, []⟩

end NewArticle

/-- Where a process is: outside; before an `open` of `getfilename` with the time and the number of
the tries; before a `dashf` and before the `open` of `postfile_internal`; and between the creation
of the file and `append_record`. -/
inductive FilenamePc
  | idle
  | trying (now : BitVec 32) (count : Nat)
  | probing (now : BitVec 32)
  | chosen (now : BitVec 32)
  | named (a : NewArticle)
  deriving DecidableEq

/-- The names of the files in the directory of a board, the headers of the new articles in `.DIR`,
and all articles that have got a name. -/
structure FilenameState (ι : Type) where
  files : Bytes → Bool
  dir : List ThreadHeader
  clock : Int
  procs : ι → FilenamePc
  created : List NewArticle

inductive FilenameEvent (ι : Type)
  | tick (seconds : Nat)
  | other (fname : Bytes)
  | getfilename (i : ι)
  | postfileInternal (i : ι)
  | attempt (i : ι) (error : Bool)
  | dashf (i : ι)
  | create (i : ι) (error : Bool)
  | append (i : ι) (ok : Bool)

namespace FilenameState
variable {ι : Type}

def start (files : Bytes → Bool) (clock : Int) : FilenameState ι :=
  ⟨files, [], clock, fun _ => .idle, []⟩

section
variable [DecidableEq ι]

def goTo (s : FilenameState ι) (i : ι) (pc : FilenamePc) : FilenameState ι :=
  { s with procs := Function.update s.procs i pc }

/-- The file of the article is created. -/
def name (s : FilenameState ι) (i : ι) (a : NewArticle) : FilenameState ι :=
  { s.goTo i (.named a) with
    files := Function.update s.files (articleFname a.number) true
    created := s.created ++ [a] }

def step (s : FilenameState ι) : FilenameEvent ι → Option (FilenameState ι)
  | .tick seconds => some { s with clock := s.clock + seconds }
  | .other fname => some { s with files := Function.update s.files fname true }
  | .getfilename i =>
    match s.procs i with
    | .idle => some (s.goTo i (.trying (.ofInt 32 s.clock) 0))
    | _ => none
  | .postfileInternal i =>
    match s.procs i with
    | .idle => some (s.goTo i (.probing (.ofInt 32 s.clock)))
    | _ => none
  | .attempt i error =>
    match s.procs i with
    | .trying now count =>
      if maxPostretry < count ∨ error then some (s.goTo i .idle)
      else if s.files (articleFname now) then some (s.goTo i (.trying (now + 1) (count + 1)))
      else some (s.name i ⟨false, now⟩)
    | _ => none
  | .dashf i =>
    match s.procs i with
    | .probing now =>
      if s.files (articleFname now) then some (s.goTo i (.probing (now + 1)))
      else some (s.goTo i (.chosen now))
    | _ => none
  | .create i error =>
    match s.procs i with
    | .chosen now =>
      if error ∨ s.files (articleFname now) then some (s.goTo i .idle)
      else some (s.name i ⟨true, now⟩)
    | _ => none
  | .append i ok =>
    match s.procs i with
    | .named a =>
      some (if ok then { s.goTo i .idle with dir := s.dir ++ [a.header s.clock] }
        else s.goTo i .idle)
    | _ => none

end

/-- The articles named since the start have names of their own, none of a file that was there, and
threads of their own; so `make_thread` begins a thread with every header. -/
structure Separate (files : Bytes → Bool) (s : FilenameState ι) : Prop where
  names : (s.created.map fun a => articleFname a.number).Nodup
  fresh : ∀ a ∈ s.created, files (articleFname a.number) = false
  ids : (s.created.map (·.id)).Nodup
  threads : ∀ tdir, IsThreadList s.dir tdir → ∀ hdr ∈ tdir, hdr.mark = threadBegin

/-- No article of the library gets the number before that of one that `getfilename` has named, and
none is named by `getfilename` with the number after that of one of the library. -/
def MayStep (s : FilenameState ι) : FilenameEvent ι → Prop
  | .attempt i _ =>
    match s.procs i with
    | .trying now _ => s.files (articleFname now) = false → NewArticle.twin ⟨false, now⟩ ∉ s.created
    | _ => True
  | .create i _ =>
    match s.procs i with
    | .chosen now => s.files (articleFname now) = false → NewArticle.twin ⟨true, now⟩ ∉ s.created
    | _ => True
  | _ => True

instance (s : FilenameState ι) : (e : FilenameEvent ι) → Decidable (s.MayStep e)
  | .attempt i _ =>
    have : Decidable (match s.procs i with
        | .trying now _ =>
          s.files (articleFname now) = false → NewArticle.twin ⟨false, now⟩ ∉ s.created
        | _ => True) :=
      match s.procs i with
      | .trying .. => inferInstanceAs (Decidable (_ → _))
      | .idle | .probing _ | .chosen _ | .named _ => isTrue trivial
    this
  | .create i _ =>
    have : Decidable (match s.procs i with
        | .chosen now =>
          s.files (articleFname now) = false → NewArticle.twin ⟨true, now⟩ ∉ s.created
        | _ => True) :=
      match s.procs i with
      | .chosen _ => inferInstanceAs (Decidable (_ → _))
      | .idle | .probing _ | .trying .. | .named _ => isTrue trivial
    this
  | .tick _ | .other _ | .getfilename _ | .postfileInternal _ | .dashf _ | .append .. =>
    isTrue trivial

end FilenameState

theorem articleFname_injective {m n : BitVec 32} (h : articleFname m = articleFname n) : m = n := by
  have hdigits := (List.append_cancel_left_eq ..).mp ((List.append_cancel_right_eq ..).mp h)
  exact BitVec.eq_of_toInt_eq (printInt_injective hdigits)

/-- Headers of different threads are all marked as the first of their thread. -/
theorem mark_eq_threadBegin {dir tdir : List ThreadHeader} (hids : (dir.map (·.id)).Nodup)
    (h : IsThreadList dir tdir) : ∀ hdr ∈ tdir, hdr.mark = threadBegin := by
  obtain ⟨sorted, hperm, -, rfl⟩ := h
  have hnodup : (sorted.map (·.id)).Nodup := (hperm.map _).nodup_iff.mpr hids
  have hne : ∀ i, i ≠ 0 → i < sorted.length →
      (sorted.getD (i - 1) .zero).id ≠ (sorted.getD i .zero).id := by
    intro i hi hlt heq
    have hprev : i - 1 < sorted.length := by omega
    rw [List.getD_eq_getElem?_getD, List.getD_eq_getElem?_getD, List.getElem?_eq_getElem hlt,
      List.getElem?_eq_getElem hprev] at heq
    have hinj := List.nodup_iff_injective_get.mp hnodup
    have hindex := @hinj ⟨i - 1, by rwa [List.length_map]⟩ ⟨i, by rwa [List.length_map]⟩
      (by simpa using heq)
    have hindex := Fin.mk.inj hindex
    omega
  intro hdr hmem
  obtain ⟨i, hi, rfl⟩ := List.mem_mapIdx.mp hmem
  show threadMark sorted i = threadBegin
  unfold threadMark
  split
  case isTrue => rfl
  case isFalse hzero =>
    have hother := hne i hzero hi
    split
    · rw [if_neg fun hsame => hother hsame.1]
    · rw [if_neg hother]

/-- Articles of one thread have the same number, or are named in different ways. -/
theorem eq_or_eq_twin {a b : NewArticle} (h : b.id = a.id) : b.number = a.number ∨ b = a.twin := by
  obtain ⟨library, m⟩ := b
  obtain ⟨library', n⟩ := a
  cases library <;> cases library'
  · exact .inl h
  · exact .inr (congrArg (NewArticle.mk false) h)
  · exact .inr (congrArg (NewArticle.mk true) (BitVec.eq_sub_iff_add_eq.mpr h))
  · exact .inl ((BitVec.add_left_inj _).mp h)

namespace FilenameState
variable {ι : Type} {files : Bytes → Bool} {s s' : FilenameState ι} {i : ι} {a : NewArticle}

/-- What the articles named since the start have of their own: each its file, and at most one header
or one process that is about to append it. -/
structure FilenameInv (files : Bytes → Bool) (s : FilenameState ι) : Prop where
  kept : ∀ fname, files fname = true → s.files fname = true
  taken : ∀ a ∈ s.created, s.files (articleFname a.number) = true
  fresh : ∀ a ∈ s.created, files (articleFname a.number) = false
  numbers : (s.created.map (·.number)).Nodup
  dir : ∀ hdr ∈ s.dir, ∃ a ∈ s.created, hdr.filename = articleFname a.number ∧ hdr.id = a.id
  once : s.dir.Pairwise fun hdr hdr' => hdr.filename ≠ hdr'.filename
  pending : ∀ i a, s.procs i = .named a →
    a ∈ s.created ∧ ∀ hdr ∈ s.dir, hdr.filename ≠ articleFname a.number
  owner : ∀ i j a, s.procs i = .named a → s.procs j = .named a → i = j

/-- The headers in `.DIR` are of different threads. -/
theorem FilenameInv.dir_ids (I : FilenameInv files s) (hids : (s.created.map (·.id)).Nodup) :
    (s.dir.map (·.id)).Nodup := by
  refine List.pairwise_map.mpr (I.once.imp_of_mem fun {hdr hdr'} hmem hmem' hname hid => hname ?_)
  obtain ⟨a, ha, hfname, haid⟩ := I.dir hdr hmem
  obtain ⟨b, hb, hfname', hbid⟩ := I.dir hdr' hmem'
  have hsame : a = b := List.inj_on_of_nodup_map hids ha hb (by rw [← haid, ← hbid, hid])
  rw [hfname, hfname', hsame]

theorem FilenameInv.names (I : FilenameInv files s) :
    (s.created.map fun a => articleFname a.number).Nodup := by
  rw [show (fun a : NewArticle => articleFname a.number) = articleFname ∘ (·.number) from rfl,
    ← List.map_map]
  exact I.numbers.map fun _ _ => articleFname_injective

theorem filenameInv_start (files : Bytes → Bool) (clock : Int) :
    FilenameInv files (start files clock : FilenameState ι) where
  kept _ := id
  taken := nofun
  fresh := nofun
  numbers := .nil
  dir := nofun
  once := .nil
  pending := nofun
  owner := nofun

/-- The article that gets a free name is another one than all before. -/
theorem FilenameInv.other (I : FilenameInv files s)
    (hfree : s.files (articleFname a.number) = false) {b : NewArticle} (hb : b ∈ s.created) :
    b.number ≠ a.number := by
  intro hnumber
  have htaken := I.taken b hb
  rw [hnumber, hfree] at htaken
  exact Bool.false_ne_true htaken

section
variable [DecidableEq ι]

theorem procs_goTo {pc pc' : FilenamePc} {j : ι} (h : (s.goTo i pc).procs j = pc') :
    j = i ∧ pc = pc' ∨ j ≠ i ∧ s.procs j = pc' := by
  rcases eq_or_ne j i with rfl | hne
  · exact .inl ⟨rfl, (Function.update_self ..).symm.trans h⟩
  · exact .inr ⟨hne, (Function.update_of_ne hne ..).symm.trans h⟩

/-- A process goes to a place where it has no article to append. -/
theorem FilenameInv.goTo (I : FilenameInv files s) {pc : FilenamePc} (hpc : ∀ a, pc ≠ .named a) :
    FilenameInv files (s.goTo i pc) where
  kept := I.kept
  taken := I.taken
  fresh := I.fresh
  numbers := I.numbers
  dir := I.dir
  once := I.once
  pending j a hj := by
    rcases procs_goTo hj with ⟨-, h⟩ | ⟨-, h⟩
    · exact absurd h (hpc a)
    · exact I.pending j a h
  owner j k a hj hk := by
    rcases procs_goTo hj with ⟨-, h⟩ | ⟨-, h⟩
    · exact absurd h (hpc a)
    · rcases procs_goTo hk with ⟨-, h'⟩ | ⟨-, h'⟩
      · exact absurd h' (hpc a)
      · exact I.owner j k a h h'

theorem FilenameInv.name (I : FilenameInv files s)
    (hfree : s.files (articleFname a.number) = false) : FilenameInv files (s.name i a) := by
  have hgrow : ∀ fname, s.files fname = true → (s.name i a).files fname = true := by
    intro fname htaken
    rcases eq_or_ne fname (articleFname a.number) with rfl | hne
    · exact Function.update_self ..
    · exact (Function.update_of_ne hne ..).trans htaken
  have hdir : ∀ hdr ∈ s.dir, hdr.filename ≠ articleFname a.number := by
    intro hdr hmem hfname
    obtain ⟨b, hb, hbname, -⟩ := I.dir hdr hmem
    exact I.other hfree hb (articleFname_injective (hbname.symm.trans hfname))
  have hnew : ∀ j b, s.procs j = .named b → b ≠ a := by
    rintro j b hj rfl
    exact I.other hfree (I.pending j b hj).1 rfl
  constructor
  case kept => exact fun fname h => hgrow fname (I.kept fname h)
  case taken =>
    refine List.forall_mem_append.mpr ⟨fun b hb => hgrow _ (I.taken b hb), ?_⟩
    exact List.forall_mem_singleton.mpr (Function.update_self ..)
  case fresh =>
    refine List.forall_mem_append.mpr ⟨I.fresh, List.forall_mem_singleton.mpr ?_⟩
    rw [← Bool.not_eq_true]
    intro hold
    exact Bool.false_ne_true (hfree.symm.trans (I.kept _ hold))
  case numbers =>
    refine List.map_append ▸ I.numbers.append (List.nodup_singleton _) ?_
    intro n hn hn'
    obtain ⟨b, hb, rfl⟩ := List.mem_map.mp hn
    exact I.other hfree hb (List.mem_singleton.mp hn')
  case dir =>
    intro hdr hmem
    obtain ⟨b, hb, hsame⟩ := I.dir hdr hmem
    exact ⟨b, List.mem_append_left _ hb, hsame⟩
  case once => exact I.once
  case pending =>
    intro j b hj
    rcases procs_goTo hj with ⟨-, h⟩ | ⟨-, h⟩
    · cases h
      exact ⟨List.mem_append_right _ (List.mem_singleton_self _), hdir⟩
    · obtain ⟨hb, hbdir⟩ := I.pending j b h
      exact ⟨List.mem_append_left _ hb, hbdir⟩
  case owner =>
    intro j k b hj hk
    rcases procs_goTo hj with ⟨hj, h⟩ | ⟨-, h⟩
    · rcases procs_goTo hk with ⟨hk, -⟩ | ⟨-, h'⟩
      · rw [hj, hk]
      · cases h
        exact absurd rfl (hnew k a h')
    · rcases procs_goTo hk with ⟨-, h'⟩ | ⟨-, h'⟩
      · cases h'
        exact absurd rfl (hnew j a h)
      · exact I.owner j k b h h'

theorem FilenameInv.append (I : FilenameInv files s) (hpc : s.procs i = .named a) :
    FilenameInv files { s.goTo i .idle with dir := s.dir ++ [a.header s.clock] } := by
  obtain ⟨ha, hdir⟩ := I.pending i a hpc
  have hidle : FilenameInv files (s.goTo i .idle) := I.goTo nofun
  constructor
  case kept => exact I.kept
  case taken => exact I.taken
  case fresh => exact I.fresh
  case numbers => exact I.numbers
  case dir =>
    exact List.forall_mem_append.mpr ⟨I.dir, List.forall_mem_singleton.mpr ⟨a, ha, rfl, rfl⟩⟩
  case once =>
    refine List.pairwise_append.mpr ⟨I.once, List.pairwise_singleton .., ?_⟩
    intro hdr hmem hdr' hmem'
    rw [List.mem_singleton.mp hmem']
    exact hdir hdr hmem
  case pending =>
    intro j b hj
    obtain ⟨hb, hbdir⟩ := hidle.pending j b hj
    refine ⟨hb, List.forall_mem_append.mpr ⟨hbdir, List.forall_mem_singleton.mpr ?_⟩⟩
    intro hfname
    have hsame : a = b := List.inj_on_of_nodup_map I.numbers ha hb (articleFname_injective hfname)
    rcases procs_goTo hj with ⟨-, h⟩ | ⟨hne, h⟩
    · cases h
    · exact hne (I.owner j i b h (hsame ▸ hpc))
  case owner => exact hidle.owner

theorem FilenameInv.step {e : FilenameEvent ι} (I : FilenameInv files s)
    (hstep : s.step e = some s') : FilenameInv files s' := by
  cases e with
  | tick seconds =>
    cases hstep
    exact ⟨I.kept, I.taken, I.fresh, I.numbers, I.dir, I.once, I.pending, I.owner⟩
  | other fname =>
    cases hstep
    have hgrow : ∀ x, s.files x = true → Function.update s.files fname true x = true := by
      intro x htaken
      rcases eq_or_ne x fname with rfl | hne
      · exact Function.update_self ..
      · exact (Function.update_of_ne hne ..).trans htaken
    exact ⟨fun x h => hgrow x (I.kept x h), fun a ha => hgrow _ (I.taken a ha), I.fresh, I.numbers,
      I.dir, I.once, I.pending, I.owner⟩
  | getfilename i =>
    rw [FilenameState.step] at hstep
    split at hstep
    case h_2 => cases hstep
    case h_1 =>
      cases hstep
      exact I.goTo nofun
  | postfileInternal i =>
    rw [FilenameState.step] at hstep
    split at hstep
    case h_2 => cases hstep
    case h_1 =>
      cases hstep
      exact I.goTo nofun
  | attempt i error =>
    rw [FilenameState.step] at hstep
    split at hstep
    case h_2 => cases hstep
    case h_1 now count hpc =>
      split at hstep
      case isTrue =>
        cases hstep
        exact I.goTo nofun
      case isFalse =>
        split at hstep
        case isTrue =>
          cases hstep
          exact I.goTo nofun
        case isFalse hfree =>
          cases hstep
          exact I.name (Bool.eq_false_iff.mpr hfree)
  | dashf i =>
    rw [FilenameState.step] at hstep
    split at hstep
    case h_2 => cases hstep
    case h_1 =>
      split at hstep
      all_goals
        cases hstep
        exact I.goTo nofun
  | create i error =>
    rw [FilenameState.step] at hstep
    split at hstep
    case h_2 => cases hstep
    case h_1 now hpc =>
      split at hstep
      case isTrue =>
        cases hstep
        exact I.goTo nofun
      case isFalse hfree =>
        cases hstep
        exact I.name (Bool.eq_false_iff.mpr (not_or.mp hfree).2)
  | append i ok =>
    rw [FilenameState.step] at hstep
    split at hstep
    case h_2 => cases hstep
    case h_1 a hpc =>
      cases hstep
      cases ok with
      | true => exact I.append hpc
      | false => exact I.goTo nofun

/-- A step names no article, or one with a free name. -/
theorem step_created {e : FilenameEvent ι} (hstep : s.step e = some s') :
    s'.created = s.created ∨ ∃ a, s'.created = s.created ++ [a] ∧
      s.files (articleFname a.number) = false ∧ (s.MayStep e → a.twin ∉ s.created) := by
  cases e with
  | tick | other =>
    cases hstep
    exact .inl rfl
  | getfilename i | postfileInternal i =>
    rw [FilenameState.step] at hstep
    split at hstep
    case h_2 => cases hstep
    case h_1 =>
      cases hstep
      exact .inl rfl
  | attempt i error =>
    rw [FilenameState.step] at hstep
    split at hstep
    case h_2 => cases hstep
    case h_1 now count hpc =>
      split at hstep
      case isTrue =>
        cases hstep
        exact .inl rfl
      case isFalse =>
        split at hstep
        case isTrue =>
          cases hstep
          exact .inl rfl
        case isFalse hfree =>
          cases hstep
          have hfree := Bool.eq_false_iff.mpr hfree
          refine .inr ⟨⟨false, now⟩, rfl, hfree, fun hmay => ?_⟩
          rw [MayStep, hpc] at hmay
          exact hmay hfree
  | dashf i =>
    rw [FilenameState.step] at hstep
    split at hstep
    case h_2 => cases hstep
    case h_1 =>
      split at hstep
      all_goals
        cases hstep
        exact .inl rfl
  | create i error =>
    rw [FilenameState.step] at hstep
    split at hstep
    case h_2 => cases hstep
    case h_1 now hpc =>
      split at hstep
      case isTrue =>
        cases hstep
        exact .inl rfl
      case isFalse hfree =>
        cases hstep
        have hfree := Bool.eq_false_iff.mpr (not_or.mp hfree).2
        refine .inr ⟨⟨true, now⟩, rfl, hfree, fun hmay => ?_⟩
        rw [MayStep, hpc] at hmay
        exact hmay hfree
  | append i ok =>
    rw [FilenameState.step] at hstep
    split at hstep
    case h_2 => cases hstep
    case h_1 =>
      cases hstep
      cases ok <;> exact .inl rfl

theorem FilenameInv.ids_step {e : FilenameEvent ι} (I : FilenameInv files s) (hmay : s.MayStep e)
    (hstep : s.step e = some s') (hids : (s.created.map (·.id)).Nodup) :
    (s'.created.map (·.id)).Nodup := by
  rcases step_created hstep with hsame | ⟨a, hnew, hfree, htwin⟩
  · rwa [hsame]
  · rw [hnew, List.map_append]
    refine hids.append (List.nodup_singleton _) fun n hn hn' => ?_
    obtain ⟨b, hb, rfl⟩ := List.mem_map.mp hn
    rcases eq_or_eq_twin (List.mem_singleton.mp hn') with hnumber | rfl
    · exact I.other hfree hb hnumber
    · exact htwin hmay hb

/-- Whatever the processes do, no two articles get the same name, and none that of a file that was
there. -/
theorem names_fresh {C : FilenameState ι → FilenameEvent ι → Prop} {clock : Int}
    (h : Reach FilenameState.step C (start files clock) s) : FilenameInv files s :=
  h.invariant (FilenameInv files) (filenameInv_start files clock) fun _ _ _ I _ hstep =>
    I.step hstep

end

/-- As long as no article of the library gets the number before that of one named by `getfilename`,
the articles that any processes name have names and threads of their own. -/
theorem names_separate [DecidableEq ι] {clock : Int}
    (h : Reach FilenameState.step MayStep (start files clock) s) : Separate files s := by
  obtain ⟨I, hids⟩ := h.invariant
    (fun s => FilenameInv files s ∧ (s.created.map (·.id)).Nodup)
    ⟨filenameInv_start files clock, .nil⟩
    fun _ _ _ ⟨I, hids⟩ hmay hstep => ⟨I.step hstep, I.ids_step hmay hstep hids⟩
  exact ⟨I.names, I.fresh, hids, fun _ => mark_eq_threadBegin (I.dir_ids hids)⟩

/-- Two processes look for names in one second; the library finds its one taken and tries again. -/
def demoNames {κ : Type} (i j : κ) : List (FilenameEvent κ) :=
  [.getfilename i, .postfileInternal j, .dashf j, .attempt i false, .create j false,
    .postfileInternal j, .dashf j, .dashf j, .create j false, .append j true, .append i true]

theorem names_separate_demo : ∃ s : FilenameState (Fin 2),
    s.dir.map (·.id) = [7, 5] ∧ Separate (fun _ => false) s := by
  have hrun : Reach.Meets FilenameState.step MayStep (start (fun _ => false) 5)
      (demoNames (0 : Fin 2) 1) := by decide +kernel
  obtain ⟨s, hs, h⟩ := Reach.of_meets _ hrun
  have hend : ((demoNames (0 : Fin 2) 1).foldlM FilenameState.step (start (fun _ => false) 5)).map
      (fun s => s.dir.map (·.id)) = some [7, 5] := by decide +kernel
  rw [hs] at hend
  exact ⟨s, Option.some.inj hend, names_separate h⟩

/-- The library names an article in second 5, and a session one in second 6. -/
def demoMerged {κ : Type} (i j : κ) : List (FilenameEvent κ) :=
  [.postfileInternal j, .dashf j, .create j false, .append j true, .tick 1, .getfilename i,
    .attempt i false, .append i true]

theorem threads_merged : ¬∀ s : FilenameState (Fin 2),
    Reach FilenameState.step (fun _ _ => True) (start (fun _ => false) 5) s →
      Separate (fun _ => false) s := by
  intro hclaim
  have hrun : Reach.Meets FilenameState.step (fun _ _ => True) (start (fun _ => false) 5)
      (demoMerged (0 : Fin 2) 1) := by decide +kernel
  obtain ⟨s, hs, h⟩ := Reach.of_meets _ hrun
  have hend : ((demoMerged (0 : Fin 2) 1).foldlM FilenameState.step (start (fun _ => false) 5)).map
      (fun s => s.created.map (·.id)) = some [6, 6] := by decide +kernel
  rw [hs] at hend
  have hids := (hclaim s h).ids
  rw [show s.created.map (·.id) = [6, 6] from Option.some.inj hend] at hids
  exact absurd hids (by decide)

end FilenameState

end ArgoBbs

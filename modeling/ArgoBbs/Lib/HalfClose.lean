import Mathlib.Algebra.GroupWithZero.Nat
import Mathlib.Data.List.Infix
import Mathlib.Logic.Relation

/-! # A stream that either end may close

One direction of a connection. The source takes in data and sends it on, with an end behind the last
of it; the sink gives the data out, and may refuse more at any time. What is under way to the sink
keeps its order. Each end lets the other one know once when it has closed, and does not forget the
stream before it has heard the same. -/

namespace ArgoBbs.HalfClose

inductive Source
  | flowing
  /-- Nothing more is taken in. -/
  | draining
  /-- The end has been sent. -/
  | ended
  /-- The sink is known to be closed. -/
  | closed
  deriving DecidableEq

inductive Sink
  | flowing
  /-- The end has come. -/
  | draining
  /-- Nothing more is given out, though the end has not come. -/
  | refused
  | closed
  deriving DecidableEq

@[simp] def Source.sentEnd : Source → Bool
  | .flowing | .draining => false
  | .ended | .closed => true

@[simp] def Sink.sawEnd : Sink → Bool
  | .flowing | .refused => false
  | .draining | .closed => true

@[simp] def Sink.refuses : Sink → Bool
  | .flowing | .draining => false
  | .refused | .closed => true

structure Stream (α : Type) where
  source : Source
  input : List α
  /-- All that was taken in. -/
  taken : List α
  sink : Sink
  output : List α
  /-- All that was given out. -/
  given : List α
  /-- What is under way to the sink; an end is `none`. -/
  forward : List (Option (List α))
  /-- The refusals that are under way to the source. -/
  back : Nat
  /-- The sink was closed before it had given out what it had. -/
  broken : Bool

inductive Step {α : Type} : Stream α → Stream α → Prop
  | take (hs : s.source = .flowing) (data : List α) (hdata : data ≠ []) :
    Step s { s with input := s.input ++ data, taken := s.taken ++ data }
  | exhaust (hs : s.source = .flowing) : Step s { s with source := .draining }
  | send (hs : s.source.sentEnd = false) (data rest : List α) (hinput : s.input = data ++ rest)
    (hdata : data ≠ []) : Step s { s with input := rest, forward := s.forward ++ [some data] }
  | finish (hs : s.source = .draining) (hinput : s.input = []) :
    Step s { s with source := .ended, forward := s.forward ++ [none] }
  | abandon (hs : s.source.sentEnd = false) (n : Nat) (hback : s.back = n + 1) :
    Step s { s with source := .closed, input := [], forward := s.forward ++ [none], back := n }
  | acknowledge (hs : s.source = .ended) (n : Nat) (hback : s.back = n + 1) :
    Step s { s with source := .closed, input := [], back := n }
  | receive (hs : s.sink = .flowing) (data : List α) (rest : List (Option (List α)))
    (hforward : s.forward = some data :: rest) :
    Step s { s with output := s.output ++ data, forward := rest }
  | drop (hs : s.sink ≠ .flowing) (data : List α) (rest : List (Option (List α)))
    (hforward : s.forward = some data :: rest) : Step s { s with forward := rest }
  | drain (hs : s.sink = .flowing) (rest : List (Option (List α)))
    (hforward : s.forward = none :: rest) : Step s { s with sink := .draining, forward := rest }
  | release (hs : s.sink = .refused) (rest : List (Option (List α)))
    (hforward : s.forward = none :: rest) : Step s { s with sink := .closed, forward := rest }
  | give (hs : s.sink.refuses = false) (data rest : List α) (houtput : s.output = data ++ rest)
    (hdata : data ≠ []) : Step s { s with output := rest, given := s.given ++ data }
  | refuse (hs : s.sink = .flowing) :
    Step s { s with sink := .refused, output := [], back := s.back + 1, broken := true }
  | break_ (hs : s.sink = .draining) :
    Step s { s with sink := .closed, output := [], back := s.back + 1, broken := true }
  | complete (hs : s.sink = .draining) (houtput : s.output = []) :
    Step s { s with sink := .closed, back := s.back + 1 }

variable {α : Type} {s s' : Stream α}

/-- The end that is under way. -/
@[simp] def pending : Source → Sink → List (Option (List α))
  | .flowing, _ | .draining, _ => []
  | .ended, k | .closed, k => bif k.sawEnd then [] else [none]

/-- The refusals that are under way. -/
@[simp] def owed : Source → Sink → Nat
  | .closed, _ => 0
  | .flowing, k | .draining, k | .ended, k => bif k.refuses then 1 else 0

/-- What is under way and what has come to be known agree at the two ends. -/
structure Inv (s : Stream α) : Prop where
  sawEnd : s.sink.sawEnd = true → s.source.sentEnd = true
  closed : s.source = .closed → s.sink.refuses = true
  back : s.back = owed s.source s.sink
  forward : ∃ ds : List (List α), s.forward = ds.map some ++ pending s.source s.sink ∧
    (s.sink.sawEnd = true → ds = []) ∧
    (s.sink.refuses = false → s.given ++ s.output ++ ds.flatten ++ s.input = s.taken)
  input : s.source = .ended → s.input = []
  pre : s.given <+: s.taken
  whole : s.sink = .closed → s.broken = false → s.given = s.taken
  refused : s.sink = .refused → s.broken = true

def Stream.start : Stream α := ⟨.flowing, [], [], .flowing, [], [], [], 0, false⟩

theorem Inv.start : Inv (.start : Stream α) :=
  ⟨nofun, nofun, rfl, ⟨[], rfl, fun _ => rfl, fun _ => rfl⟩, fun _ => rfl, List.prefix_rfl, nofun,
    nofun⟩

theorem pending_of_not_sentEnd {source : Source} (h : source.sentEnd = false) (k : Sink) :
    (pending source k : List (Option (List α))) = [] := by
  cases source <;> first | rfl | cases h

/-- An end is all that may be under way behind the data. -/
theorem pending_eq (source : Source) (k : Sink) :
    (pending source k : List (Option (List α))) = [] ∨
      (pending source k : List (Option (List α))) = [none] ∧ source.sentEnd = true ∧
        k.sawEnd = false := by
  cases source with
  | flowing | draining => exact .inl rfl
  | ended | closed =>
    cases k with
    | flowing | refused => exact .inr ⟨rfl, rfl, rfl⟩
    | draining | closed => exact .inl rfl

theorem refuses_of_owed {source : Source} {k : Sink} {n : Nat} (h : n + 1 = owed source k) :
    k.refuses = true ∧ n = 0 := by
  cases source with
  | closed => cases h
  | flowing | draining | ended =>
    cases k with
    | flowing | draining => cases h
    | refused | closed => exact ⟨rfl, Nat.succ.inj h⟩

/-- Data under way stands at the head of the line. -/
theorem eq_cons_of_forward {ds : List (List α)} {source : Source} {k : Sink} {data : List α}
    {rest : List (Option (List α))} (h : some data :: rest = ds.map some ++ pending source k) :
    ∃ ds', ds = data :: ds' ∧ rest = ds'.map some ++ pending source k := by
  cases ds with
  | nil =>
    obtain hnone | ⟨hend, -⟩ := @pending_eq α source k
    · rw [hnone] at h
      cases h
    · rw [hend] at h
      cases h
  | cons d ds =>
    obtain ⟨hd, hrest⟩ := List.cons.inj h
    cases hd
    exact ⟨ds, rfl, hrest⟩

theorem eq_nil_of_forward {ds : List (List α)} {source : Source} {k : Sink}
    {rest : List (Option (List α))} (h : none :: rest = ds.map some ++ pending source k) :
    ds = [] ∧ rest = [] ∧ source.sentEnd = true := by
  cases ds with
  | nil =>
    obtain hnone | ⟨hend, hsent, -⟩ := @pending_eq α source k
    · rw [hnone] at h
      cases h
    · rw [hend] at h
      exact ⟨rfl, (List.cons.inj h).2, hsent⟩
  | cons d ds => cases (List.cons.inj h).1

theorem Inv.step (h : Inv s) (hstep : Step s s') : Inv s' := by
  obtain ⟨ds, hforward, hsaw, htaken⟩ := h.forward
  obtain ⟨hsawEnd, hclosed, hback, -, hinput, hpre, hwhole, hrefused⟩ := h
  obtain ⟨source, input, taken, sink, output, given, forward, back, broken⟩ := s
  cases hstep with
  | take hs data hdata =>
    cases hs
    refine ⟨hsawEnd, hclosed, hback, ⟨ds, hforward, hsaw, fun hopen => ?_⟩, nofun,
      hpre.trans (List.prefix_append ..), ?_, hrefused⟩
    · exact (List.append_assoc ..).symm.trans (congrArg (· ++ data) (htaken hopen))
    · rintro rfl
      cases hsawEnd rfl
  | exhaust hs =>
    cases hs
    exact ⟨hsawEnd, nofun, hback, ⟨ds, hforward, hsaw, htaken⟩, nofun, hpre, hwhole, hrefused⟩
  | send hs data rest hdata =>
    have hnotyet : sink.sawEnd = false :=
      Bool.eq_false_iff.mpr fun hsink => nomatch hs.symm.trans (hsawEnd hsink)
    simp only at hdata
    subst hdata
    simp only [pending_of_not_sentEnd hs, List.append_nil] at hforward
    refine ⟨hsawEnd, hclosed, hback, ⟨ds ++ [data], ?_, ?_, fun hopen => ?_⟩, ?_, hpre, hwhole,
      hrefused⟩
    · simp only [hforward, pending_of_not_sentEnd hs, List.append_nil, List.map_append,
        List.map_cons, List.map_nil]
    · exact fun hsink => nomatch hnotyet.symm.trans hsink
    · rw [← htaken hopen, List.flatten_append, List.flatten_singleton]
      simp only [List.append_assoc]
    · rintro rfl
      cases hs
  | finish hs hnone =>
    cases hs
    cases hnone
    have hnotyet : sink.sawEnd = false := Bool.eq_false_iff.mpr fun hsink => nomatch hsawEnd hsink
    have hdata : forward = ds.map some := hforward.trans (List.append_nil _)
    refine ⟨fun _ => rfl, nofun, hback, ⟨ds, ?_, hsaw, htaken⟩, fun _ => rfl, hpre, hwhole,
      hrefused⟩
    simp only [hdata, pending, hnotyet, cond_false]
  | abandon hs n hn =>
    have hnotyet : sink.sawEnd = false :=
      Bool.eq_false_iff.mpr fun hsink => nomatch hs.symm.trans (hsawEnd hsink)
    obtain ⟨hrefuses, rfl⟩ := refuses_of_owed (hn.symm.trans hback)
    simp only [pending_of_not_sentEnd hs, List.append_nil] at hforward
    refine ⟨fun _ => rfl, fun _ => hrefuses, rfl, ⟨ds, ?_, hsaw, fun hopen => ?_⟩, nofun, hpre,
      hwhole, hrefused⟩
    · simp only [hforward, pending, hnotyet, cond_false]
    · cases hrefuses.symm.trans hopen
  | acknowledge hs n hn =>
    cases hs
    obtain ⟨hrefuses, rfl⟩ := refuses_of_owed (hn.symm.trans hback)
    refine ⟨fun _ => rfl, fun _ => hrefuses, rfl, ⟨ds, hforward, hsaw, fun hopen => ?_⟩, nofun,
      hpre, hwhole, hrefused⟩
    cases hrefuses.symm.trans hopen
  | receive hs data rest hdata =>
    cases hs
    obtain ⟨ds, rfl, hrest⟩ := eq_cons_of_forward (hdata.symm.trans hforward)
    refine ⟨hsawEnd, hclosed, hback, ⟨ds, hrest, nofun, fun _ => ?_⟩, hinput, hpre, nofun, nofun⟩
    rw [← htaken rfl, List.flatten_cons]
    simp only [List.append_assoc]
  | drop hs data rest hdata =>
    obtain ⟨ds, rfl, hrest⟩ := eq_cons_of_forward (hdata.symm.trans hforward)
    have hrefuses : sink.refuses = true := by
      cases sink with
      | flowing => exact absurd rfl hs
      | draining => cases hsaw rfl
      | refused | closed => rfl
    refine ⟨hsawEnd, hclosed, hback, ⟨ds, hrest, fun hsink => ?_, fun hopen => ?_⟩, hinput, hpre,
      hwhole, hrefused⟩
    · cases hsaw hsink
    · cases hrefuses.symm.trans hopen
  | drain hs rest hend =>
    cases hs
    obtain ⟨rfl, rfl, hsent⟩ := eq_nil_of_forward (hend.symm.trans hforward)
    refine ⟨fun _ => hsent, hclosed, ?_, ⟨[], ?_, fun _ => rfl, fun _ => htaken rfl⟩, hinput, hpre,
      nofun, nofun⟩
    · cases source <;> exact hback
    · cases source <;> rfl
  | release hs rest hend =>
    cases hs
    obtain ⟨rfl, rfl, hsent⟩ := eq_nil_of_forward (hend.symm.trans hforward)
    refine ⟨fun _ => hsent, fun _ => rfl, ?_, ⟨[], ?_, fun _ => rfl, nofun⟩, hinput, hpre,
      fun _ hwell => ?_, nofun⟩
    · cases source <;> exact hback
    · cases source <;> rfl
    · cases (hrefused rfl).symm.trans hwell
  | give hs data rest hdata =>
    simp only at hdata
    subst hdata
    refine ⟨hsawEnd, hclosed, hback, ⟨ds, hforward, hsaw, fun hopen => ?_⟩, hinput, ?_, ?_, hrefused⟩
    · rw [← htaken hopen]
      simp only [List.append_assoc]
    · have hsplit := htaken hs
      simp only [List.append_assoc] at hsplit
      exact ⟨rest ++ (ds.flatten ++ input), (List.append_assoc ..).trans hsplit⟩
    · rintro rfl
      cases hs
  | refuse hs =>
    cases hs
    have hsource : source ≠ .closed := fun h => nomatch hclosed h
    refine ⟨hsawEnd, fun _ => rfl, ?_, ⟨ds, ?_, nofun, nofun⟩, hinput, hpre, nofun, fun _ => rfl⟩
    · cases source <;> first | exact congrArg (· + 1) hback | exact absurd rfl hsource
    · cases source <;> exact hforward
  | break_ hs =>
    cases hs
    have hsource : source ≠ .closed := fun h => nomatch hclosed h
    refine ⟨hsawEnd, fun _ => rfl, ?_, ⟨ds, ?_, hsaw, nofun⟩, hinput, hpre, fun _ => nofun, nofun⟩
    · cases source <;> first | exact congrArg (· + 1) hback | exact absurd rfl hsource
    · cases source <;> exact hforward
  | complete hs houtput =>
    cases hs
    cases houtput
    have hsource : source ≠ .closed := fun h => nomatch hclosed h
    refine ⟨hsawEnd, fun _ => rfl, ?_, ⟨ds, ?_, hsaw, nofun⟩, hinput, hpre, fun _ _ => ?_, nofun⟩
    · cases source <;> first | exact congrArg (· + 1) hback | exact absurd rfl hsource
    · cases source <;> exact hforward
    · have hended : source = .ended := by
        cases source with
        | flowing | draining => cases hsawEnd rfl
        | ended => rfl
        | closed => exact absurd rfl hsource
      cases hinput hended
      cases hsaw rfl
      have hall := htaken rfl
      simp only [List.flatten_nil, List.append_nil] at hall
      exact hall

/-- Nothing comes to a sink behind the end. -/
theorem Inv.forward_eq_nil (h : Inv s) (hs : s.sink.sawEnd = true) : s.forward = [] := by
  obtain ⟨ds, hforward, hsaw, -⟩ := h.forward
  rw [hforward, hsaw hs]
  cases hsource : s.source with
  | flowing | draining => rfl
  | ended | closed => simp only [pending, hs, cond_true, List.map_nil, List.append_nil]

/-- No refusal comes to a source that is closed. -/
theorem Inv.back_eq_zero (h : Inv s) (hs : s.source = .closed) : s.back = 0 := by
  rw [h.back, hs, owed]

/-! ## The end of a stream -/

def Source.rank : Source → Nat
  | .flowing => 4
  | .draining => 3
  | .ended => 1
  | .closed => 0

def Sink.rank : Sink → Nat
  | .flowing => 3
  | .draining => 2
  | .refused => 1
  | .closed => 0

/-- What there is to do for a stream that takes nothing in any more. -/
def Stream.weight (s : Stream α) : Nat :=
  3 * s.input.length + (s.forward.map fun d => 1 + (d.getD []).length).sum + s.output.length +
    s.back + s.source.rank + s.sink.rank

theorem Step.weight_lt (hstep : Step s s') (hs : s.source ≠ .flowing) : s'.weight < s.weight := by
  have hpos : ∀ data : List α, data ≠ [] → 0 < data.length := fun _ => List.length_pos_iff.mpr
  cases hstep with
  | take h | exhaust h => exact absurd h hs
  | send h data rest hinput hdata =>
    have := hpos data hdata
    simp only [Stream.weight, hinput, List.map_append, List.sum_append, List.length_append,
      List.map_cons, List.map_nil, List.sum_cons, List.sum_nil, Option.getD_some]
    omega
  | finish h =>
    simp only [Stream.weight, h, List.map_append, List.sum_append, List.map_cons, List.map_nil,
      List.sum_cons, List.sum_nil, Option.getD_none, List.length_nil, Source.rank]
    omega
  | abandon h n hback =>
    have hrank : 0 < s.source.rank := by
      cases hsource : s.source with
      | flowing | draining => exact Nat.succ_pos _
      | ended | closed =>
        rw [hsource] at h
        cases h
    simp only [Stream.weight, hback, List.map_append, List.sum_append, List.map_cons, List.map_nil,
      List.sum_cons, List.sum_nil, Option.getD_none, List.length_nil]
    simp only [Source.rank] at *
    omega
  | acknowledge h n hback =>
    simp only [Stream.weight, hback, h, List.length_nil, Source.rank]
    omega
  | receive h data rest hforward =>
    simp only [Stream.weight, hforward, List.length_append, List.map_cons, List.sum_cons,
      Option.getD_some]
    omega
  | drop h data rest hforward =>
    simp only [Stream.weight, hforward, List.map_cons, List.sum_cons]
    omega
  | drain h rest hforward | release h rest hforward =>
    simp only [Stream.weight, hforward, h, List.map_cons, List.sum_cons, Sink.rank]
    omega
  | give h data rest houtput hdata =>
    have := hpos data hdata
    simp only [Stream.weight, houtput, List.length_append]
    omega
  | refuse h | break_ h =>
    simp only [Stream.weight, h, List.length_nil, Sink.rank]
    omega
  | complete h =>
    simp only [Stream.weight, h, Sink.rank]
    omega

theorem Step.source_ne_flowing (hstep : Step s s') (hs : s.source ≠ .flowing) :
    s'.source ≠ .flowing := by
  cases hstep with
  | take h | exhaust h => exact absurd h hs
  | finish | abandon | acknowledge => exact nofun
  | send | receive | drop | drain | release | give | refuse | break_ | complete => exact hs

/-- Where nothing is under way, the ends wait for each other only as long as there is something to
be sent or given out. -/
theorem Inv.closed_of_quiet (h : Inv s) (hforward : s.forward = []) (hback : s.back = 0)
    (hsource : s.source ≠ .flowing) (hsent : s.source ≠ .draining)
    (hgiven : s.sink ≠ .draining) : s.source = .closed ∧ s.sink = .closed := by
  obtain ⟨ds, hds, -⟩ := h.forward
  have hpending : (pending s.source s.sink : List (Option (List α))) = [] :=
    (List.append_eq_nil_iff.mp (hds.symm.trans hforward)).2
  have howed := h.back.symm.trans hback
  cases hsrc : s.source with
  | flowing => exact absurd hsrc hsource
  | draining => exact absurd hsrc hsent
  | ended | closed =>
    rw [hsrc] at hpending howed
    cases hsnk : s.sink with
    | draining => exact absurd hsnk hgiven
    | flowing | refused =>
      rw [hsnk] at hpending
      cases hpending
    | closed =>
      rw [hsnk] at howed
      first
        | exact ⟨rfl, rfl⟩
        | cases howed

end ArgoBbs.HalfClose

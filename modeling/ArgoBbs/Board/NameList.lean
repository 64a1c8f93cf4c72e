import ArgoBbs.Lib.CString
import ArgoBbs.Lib.Chain
import ArgoBbs.Lib.Reach

/-! # The list of names in memory

The names that `namecomplete` offers are in a linked list with pointers to its first node and to the
one behind which the next name is linked in (`namecomplete.c`). A removal sets the second pointer to
the node before the removed one, or to the new first node, and these need not be the last. -/

namespace ArgoBbs

/-- `toplev`, `current` and the nodes. -/
structure NameList where
  mem : Links Bytes
  toplev : Option Nat
  current : Option Nat

inductive NameOp
  | create
  /-- `room` says that `malloc` succeeds -/
  | add (name : Bytes) (room : Bool)
  | del (name : Bytes)

namespace NameList

def start : NameList := ⟨[], none, none⟩

def freeNameList (s : NameList) : Option NameList := do
  let mem ← s.mem.freeFrom s.mem.fuel s.toplev
  some { s with mem, toplev := none }

def createNameList (s : NameList) : Option NameList := do
  let s ← if s.toplev.isSome then s.freeNameList else some s
  some { s with toplev := none, current := none }

def seekInNameList (s : NameList) (name : Bytes) : Option Bool :=
  if name = [] then some false
  else do
    let (_, p) ← s.mem.find (strcasecmpEq · name) s.mem.fuel none s.toplev
    some p.isSome

def delFromNameList (s : NameList) (name : Bytes) : Option (Bool × NameList) :=
  if name = [] then some (false, s)
  else do
    let (pre, node) ← s.mem.find (strcasecmpEq · name) s.mem.fuel none s.toplev
    match node with
    | none => some (false, s)
    | some node => do
      let n ← s.mem.node node
      if s.toplev = some node then
        some (true, ⟨s.mem.free node, n.next, n.next⟩)
      else do
        let pre ← pre
        let w ← s.mem.node pre
        some (true, ⟨(s.mem.put pre { w with next := n.next }).free node, s.toplev, some pre⟩)

def addToNameList (s : NameList) (name : Bytes) (room : Bool) : Option (Bool × NameList) := do
  let found ← s.seekInNameList name
  if found then some (false, s)
  else if !room then some (false, s)
  else
    let (node, mem) := s.mem.alloc name
    if s.toplev = none then some (true, ⟨mem, some node, some node⟩)
    else do
      let current ← s.current
      let w ← mem.node current
      some (true, ⟨mem.put current { w with next := some node }, s.toplev, some node⟩)

def numInList (s : NameList) : Option Nat := (s.mem.vals s.mem.fuel s.toplev).map List.length

/-- The names that `ApplyToNameList` calls its function with. -/
def applyToNameList (s : NameList) : Option (List Bytes) := s.mem.vals s.mem.fuel s.toplev

def step (s : NameList) : NameOp → Option NameList
  | .create => s.createNameList
  | .add name room => (s.addToNameList name room).map (·.2)
  | .del name => (s.delFromNameList name).map (·.2)

end NameList

/-- What a call does to the names. -/
def NameOp.apply (names : List Bytes) : NameOp → List Bytes
  | .create => []
  | .add name room =>
    if !room || names.any (strcasecmpEq · name) then names else names ++ [name]
  | .del name => names.eraseP (strcasecmpEq · name)

namespace NameList

/-- The list shows these names, each of them once, and there are no other nodes in the memory. -/
structure Shows (s : NameList) (names : List Bytes) : Prop where
  seek : ∀ name, s.seekInNameList name = some (names.any (strcasecmpEq · name))
  num : s.numInList = some names.length
  apply : s.applyToNameList = some names
  once : names.Pairwise fun word name => strcasecmpEq word name = false
  kept : ∃ nodes : List (Nat × Bytes), s.mem.Chain s.toplev nodes none ∧ nodes.map Prod.snd = names ∧
    ∀ p n, s.mem.node p = some n → p ∈ nodes.map Prod.fst

/-- `current` is the last node where a name is linked in behind it, and the name is not empty. -/
def TailLast (s : NameList) : NameOp → Prop
  | .add name room => room = true → name ≠ [] ∧
      (s.seekInNameList name = some true ∨ s.toplev = none ∨
        (s.current.bind s.mem.node).any (·.next.isNone))
  | _ => True

instance (s : NameList) : (op : NameOp) → Decidable (s.TailLast op)
  | .add .. => inferInstanceAs (Decidable (_ → _ ∧ (_ ∨ _ ∨ _)))
  | .create | .del _ => isTrue trivial

/-- The nodes are linked one behind the other, `current` is one of them if there are any, and no two
names are equal. -/
structure Inv (s : NameList) (nodes : List (Nat × Bytes)) : Prop where
  chain : s.mem.Chain s.toplev nodes none
  nodup : (nodes.map Prod.fst).Nodup
  current : nodes ≠ [] → ∃ c ∈ nodes.map Prod.fst, s.current = some c
  kept : ∀ p n, s.mem.node p = some n → p ∈ nodes.map Prod.fst
  once : (nodes.map Prod.snd).Pairwise fun word name => strcasecmpEq word name = false
  nonempty : [] ∉ nodes.map Prod.snd

variable {s s' : NameList} {nodes : List (Nat × Bytes)} {name : Bytes}

namespace Inv

theorem fuel (I : s.Inv nodes) : nodes.length < s.mem.fuel := I.chain.length_lt_fuel I.nodup

/-- The search for a name finds the node of the name with the node before it, or no node. -/
theorem find (I : s.Inv nodes) (name : Bytes) :
    (∃ last, s.mem.find (strcasecmpEq · name) s.mem.fuel none s.toplev = some (last, none) ∧
      ∀ x ∈ nodes, strcasecmpEq x.2 name = false) ∨
    ∃ before p word behind, nodes = before ++ (p, word) :: behind ∧
      (∀ x ∈ before, strcasecmpEq x.2 name = false) ∧ strcasecmpEq word name = true ∧
      s.mem.find (strcasecmpEq · name) s.mem.fuel none s.toplev =
        some (before.getLast?.map Prod.fst, some p) := by
  cases hfind : nodes.find? fun x => strcasecmpEq x.2 name with
  | none =>
    have hall (x) (hx : x ∈ nodes) : strcasecmpEq x.2 name = false := by
      simpa using List.find?_eq_none.mp hfind x hx
    have hlast : ∃ last, s.mem.find (strcasecmpEq · name) s.mem.fuel none s.toplev =
        some (last, none) := I.chain.find_none I.fuel hall
    obtain ⟨last, hlast⟩ := hlast
    exact .inl ⟨last, hlast, hall⟩
  | some x =>
    obtain ⟨hx, before, behind, rfl, hbefore⟩ := List.find?_eq_some_iff_append.mp hfind
    have hbefore (y) (hy : y ∈ before) : strcasecmpEq y.2 name = false := by
      simpa using hbefore y hy
    refine .inr ⟨before, x.1, x.2, behind, rfl, hbefore, hx, ?_⟩
    rw [I.chain.find_some I.fuel hbefore hx, Option.or_none]

theorem any_of_nil (I : s.Inv nodes) : (nodes.map Prod.snd).any (strcasecmpEq · []) = false := by
  rw [List.any_eq_false]
  intro word hword hsame
  rw [strcasecmpEq_iff, List.map_nil, List.map_eq_nil_iff] at hsame
  exact I.nonempty (hsame ▸ hword)

theorem seek (I : s.Inv nodes) (name : Bytes) :
    s.seekInNameList name = some ((nodes.map Prod.snd).any (strcasecmpEq · name)) := by
  unfold seekInNameList
  split
  · rename_i hname
    rw [hname, I.any_of_nil]
  · rcases I.find name with ⟨last, hfind, hall⟩ | ⟨before, p, word, behind, rfl, -, hword, hfind⟩
    · rw [hfind, List.any_map, List.any_eq_false.mpr fun x hx => by simp [hall x hx]]
      rfl
    · simp [hfind, hword]

theorem shows (I : s.Inv nodes) : s.Shows (nodes.map Prod.snd) where
  seek := I.seek
  num := by rw [numInList, I.chain.vals I.fuel, Option.map_some]
  apply := I.chain.vals I.fuel
  once := I.once
  kept := ⟨nodes, I.chain, rfl, I.kept⟩

theorem nodes_eq_nil (I : s.Inv nodes) (h : s.toplev = none) : nodes = [] := by
  cases nodes with
  | nil => rfl
  | cons x nodes =>
    have htop := I.chain.1
    rw [h] at htop
    cases htop

/-- The node without a next one is the last. -/
theorem current_last (I : s.Inv nodes) (hne : nodes ≠ [])
    (htail : (s.current.bind s.mem.node).any (·.next.isNone) = true) :
    ∃ before c word, nodes = before ++ [(c, word)] ∧ s.current = some c ∧
      s.mem.node c = some ⟨word, none⟩ := by
  obtain ⟨c, hc, hcurrent⟩ := I.current hne
  obtain ⟨⟨c, word⟩, hx, rfl⟩ := List.mem_map.mp hc
  obtain ⟨before, behind, rfl⟩ := List.append_of_mem hx
  obtain ⟨r, -, -, next, hnode, hbehind⟩ := Links.chain_append.mp I.chain
  simp only [hcurrent, Option.bind_some, hnode, Option.any_some, Option.isNone_iff_eq_none] at htail
  subst htail
  cases behind with
  | nil => exact ⟨before, c, word, rfl, hcurrent, hnode⟩
  | cons y behind => cases hbehind.1

theorem alloc_notMem (I : s.Inv nodes) (name : Bytes) :
    (s.mem.alloc name).1 ∉ nodes.map Prod.fst := by
  intro hmem
  obtain ⟨n, hn⟩ := I.chain.node_of_mem hmem
  exact Nat.lt_irrefl _ (Links.lt_of_node hn)

/-- What a new node behind the others leaves to show. -/
theorem concat (I : s.Inv nodes) {n : Nat} (hname : name ≠ [])
    (hnew : (nodes.map Prod.snd).any (strcasecmpEq · name) = false) (hn : n ∉ nodes.map Prod.fst)
    (hchain : s'.mem.Chain s'.toplev (nodes ++ [(n, name)]) none) (hcurrent : s'.current = some n)
    (hkept : ∀ p w, s'.mem.node p = some w → p = n ∨ p ∈ nodes.map Prod.fst) :
    s'.Inv (nodes ++ [(n, name)]) where
  chain := hchain
  nodup := by
    rw [List.map_append, List.nodup_append]
    refine ⟨I.nodup, List.nodup_singleton _, ?_⟩
    rintro a ha b hb rfl
    obtain rfl : a = n := List.mem_singleton.mp hb
    exact hn ha
  current _ := ⟨n, by simp, hcurrent⟩
  kept p w h := by
    rw [List.map_append, List.mem_append]
    exact (hkept p w h).symm.imp_right List.mem_singleton.mpr
  once := by
    rw [List.map_append, List.pairwise_append]
    refine ⟨I.once, List.pairwise_singleton .., fun word hword other hother => ?_⟩
    obtain rfl := List.mem_singleton.mp hother
    simpa using List.any_eq_false.mp hnew word hword
  nonempty := by simpa [Ne.symm hname] using I.nonempty

/-- The last node gets a new one behind it. -/
theorem addLast (I : s.Inv nodes) (hname : name ≠ [])
    (hnew : (nodes.map Prod.snd).any (strcasecmpEq · name) = false)
    (htail : s.toplev = none ∨ (s.current.bind s.mem.node).any (·.next.isNone)) :
    ∃ s', s.addToNameList name true = some (true, s') ∧
      s'.Inv (nodes ++ [((s.mem.alloc name).1, name)]) := by
  have hn := I.alloc_notMem name
  have hseek : s.seekInNameList name = some false := by rw [I.seek, hnew]
  by_cases htop : s.toplev = none
  · obtain rfl := I.nodes_eq_nil htop
    refine ⟨⟨(s.mem.alloc name).2, some (s.mem.alloc name).1, some (s.mem.alloc name).1⟩, ?_, ?_⟩
    · simp [addToNameList, hseek, htop]
    · refine I.concat hname hnew hn ?_ rfl fun p w hw => ?_
      · exact Links.chain_singleton.mpr ⟨rfl, Links.node_alloc ..⟩
      · by_cases hp : p = (s.mem.alloc name).1
        · exact .inl hp
        · exact .inr (I.kept p w (Links.node_alloc_ne hp ▸ hw))
  · have hne : nodes ≠ [] := by
      rintro rfl
      exact htop I.chain
    obtain ⟨before, c, word, rfl, hcurrent, hnode⟩ :=
      I.current_last hne (htail.resolve_left htop)
    have hcn : c ≠ (s.mem.alloc name).1 := fun heq => hn (by simp [heq])
    have hnode' : (s.mem.alloc name).2.node c = some ⟨word, none⟩ := by
      rw [Links.node_alloc_ne hcn, hnode]
    refine ⟨⟨(s.mem.alloc name).2.put c ⟨word, some (s.mem.alloc name).1⟩, s.toplev,
      some (s.mem.alloc name).1⟩, ?_, ?_⟩
    · simp [addToNameList, hseek, htop, hcurrent, hnode']
    · refine I.concat hname hnew hn ?_ rfl fun p w hw => ?_
      · obtain ⟨r, hbefore, hlast⟩ := Links.chain_append.mp I.chain
        obtain ⟨rfl, -⟩ := Links.chain_singleton.mp hlast
        obtain ⟨-, -, hnodup⟩ := List.nodup_append.mp (List.map_append ▸ I.nodup)
        rw [List.append_assoc, Links.chain_append]
        refine ⟨some c, hbefore.congr fun x hx => ?_, rfl, some (s.mem.alloc name).1, ?_, rfl, none,
          ?_, rfl⟩
        · have hx := List.mem_map_of_mem (f := Prod.fst) hx
          have hxc : x.1 ≠ c := hnodup _ hx _ (List.mem_singleton_self _)
          have hxn : x.1 ≠ (s.mem.alloc name).1 := fun heq => hn (by simp [← heq, hx])
          rw [Links.node_put_ne hxc, Links.node_alloc_ne hxn]
        · exact Links.node_put_self hnode'
        · rw [Links.node_put_ne hcn.symm, Links.node_alloc]
      · by_cases hp : p = (s.mem.alloc name).1
        · exact .inl hp
        · by_cases hpc : p = c
          · exact .inr (by simp [hpc])
          · rw [Links.node_put_ne hpc, Links.node_alloc_ne hp] at hw
            exact .inr (I.kept p w hw)

/-- A name is added at the end if it is not there and there is memory for it. -/
theorem add (I : s.Inv nodes) (room : Bool) (hC : s.TailLast (.add name room)) :
    ∃ s' nodes', s.step (.add name room) = some s' ∧ s'.Inv nodes' ∧
      nodes'.map Prod.snd = NameOp.apply (nodes.map Prod.snd) (.add name room) := by
  cases hfound : (nodes.map Prod.snd).any (strcasecmpEq · name) with
  | true =>
    refine ⟨s, nodes, ?_, I, ?_⟩
    · simp [step, addToNameList, I.seek, hfound]
    · rw [NameOp.apply, hfound, Bool.or_true, if_pos rfl]
  | false =>
    cases room with
    | false =>
      refine ⟨s, nodes, ?_, I, ?_⟩
      · simp [step, addToNameList, I.seek, hfound]
      · rfl
    | true =>
      obtain ⟨hname, htail⟩ := hC rfl
      rw [I.seek, hfound] at htail
      obtain ⟨s', hadd, I'⟩ := I.addLast hname hfound (htail.resolve_left nofun)
      refine ⟨s', _, ?_, I', ?_⟩
      · rw [step, hadd]
        rfl
      · rw [NameOp.apply, hfound, List.map_append]
        rfl

section
variable {before behind : List (Nat × Bytes)} {p : Nat} {word : Bytes}

/-- What the nodes without one of them show. -/
theorem erase (I : s.Inv (before ++ (p, word) :: behind))
    (hchain : s'.mem.Chain s'.toplev (before ++ behind) none)
    (hcurrent : before ++ behind ≠ [] → ∃ c ∈ (before ++ behind).map Prod.fst, s'.current = some c)
    (hkept : ∀ q w, s'.mem.node q = some w → q ≠ p ∧ ∃ w, s.mem.node q = some w) :
    s'.Inv (before ++ behind) := by
  have hsub : (before ++ behind).Sublist (before ++ (p, word) :: behind) :=
    (List.sublist_cons_self ..).append_left before
  refine ⟨hchain, I.nodup.sublist (hsub.map _), hcurrent, fun q w h => ?_,
    I.once.sublist (hsub.map _), fun hmem => I.nonempty ((hsub.map _).subset hmem)⟩
  obtain ⟨hq, w, hw⟩ := hkept q w h
  have hmem := I.kept q w hw
  simp only [List.map_append, List.map_cons, List.mem_append, List.mem_cons] at hmem ⊢
  exact hmem.imp_right fun hmem => hmem.resolve_left hq

/-- The first node is linked out. -/
theorem delFirst (I : s.Inv ((p, word) :: behind)) {next : Option Nat}
    (hbehind : s.mem.Chain next behind none) :
    (⟨s.mem.free p, next, next⟩ : NameList).Inv behind := by
  obtain ⟨hp, -⟩ := List.nodup_cons.mp I.nodup
  have I : s.Inv ([] ++ (p, word) :: behind) := I
  refine I.erase ?_ (fun hne => ?_) fun q w hw => ?_
  · refine hbehind.congr fun x hx => Links.node_free_ne fun heq => ?_
    have hx := List.mem_map_of_mem (f := Prod.fst) hx
    exact hp (heq ▸ hx)
  · cases behind with
    | nil => exact absurd rfl hne
    | cons x behind => exact ⟨x.1, List.mem_cons_self, hbehind.1⟩
  · by_cases hq : q = p
    · rw [hq, Links.node_free_self] at hw
      cases hw
    · exact ⟨hq, w, Links.node_free_ne hq ▸ hw⟩

/-- A node behind another is linked out. -/
theorem delNext {c : Nat} {v : Bytes} (I : s.Inv (before ++ [(c, v)] ++ (p, word) :: behind))
    {next : Option Nat} (hnode : s.mem.node p = some ⟨word, next⟩) :
    s.mem.node c = some ⟨v, some p⟩ ∧ (⟨(s.mem.put c ⟨v, next⟩).free p, s.toplev, some c⟩ :
      NameList).Inv (before ++ [(c, v)] ++ behind) := by
  obtain ⟨r, hfront, hrest⟩ := Links.chain_append.mp I.chain
  obtain ⟨r', hbefore, hlast⟩ := Links.chain_append.mp hfront
  obtain ⟨rfl, hc⟩ := Links.chain_singleton.mp hlast
  obtain ⟨rfl, next', hnode', hbehind⟩ := hrest
  rw [hnode] at hnode'
  obtain rfl := (Link.mk.inj (Option.some.inj hnode')).2
  -- where the addresses differ
  have hnodup := I.nodup
  simp only [List.map_append, List.map_cons, List.append_assoc, List.singleton_append,
    List.nodup_append, List.nodup_cons, List.mem_cons, not_or] at hnodup
  obtain ⟨-, ⟨⟨hcp, hcbehind⟩, hpbehind, -⟩, hdiffer⟩ := hnodup
  have hnew (q : Nat) (hqc : q ≠ c) (hqp : q ≠ p) :
      ((s.mem.put c ⟨v, next⟩).free p).node q = s.mem.node q := by
    rw [Links.node_free_ne hqp, Links.node_put_ne hqc]
  have hchanged : ((s.mem.put c ⟨v, next⟩).free p).node c = some ⟨v, next⟩ := by
    rw [Links.node_free_ne hcp, Links.node_put_self hc]
  refine ⟨hc, I.erase ?_ (fun _ => ⟨c, by simp, rfl⟩) fun q w hw => ?_⟩
  · refine Links.chain_append.mpr ⟨next, Links.chain_append.mpr ⟨some c, ?_, ?_⟩, ?_⟩
    · refine hbefore.congr fun x hx => ?_
      have hx := List.mem_map_of_mem (f := Prod.fst) hx
      exact hnew _ (hdiffer _ hx _ (.inl rfl)) (hdiffer _ hx _ (.inr (.inl rfl)))
    · exact Links.chain_singleton.mpr ⟨rfl, hchanged⟩
    · refine hbehind.congr fun x hx => ?_
      have hx := List.mem_map_of_mem (f := Prod.fst) hx
      exact hnew _ (fun heq => hcbehind (heq ▸ hx)) fun heq => hpbehind (heq ▸ hx)
  · by_cases hqp : q = p
    · rw [hqp, Links.node_free_self] at hw
      cases hw
    · by_cases hqc : q = c
      · exact ⟨hqp, _, hqc ▸ hc⟩
      · exact ⟨hqp, w, hnew q hqc hqp ▸ hw⟩

end

/-- The node of the name is linked out. -/
theorem del (I : s.Inv nodes) (name : Bytes) : ∃ s' nodes', s.step (.del name) = some s' ∧
    s'.Inv nodes' ∧ nodes'.map Prod.snd = NameOp.apply (nodes.map Prod.snd) (.del name) := by
  by_cases hname : name = []
  · subst hname
    refine ⟨s, nodes, rfl, I, ?_⟩
    rw [NameOp.apply, List.eraseP_of_forall_not]
    exact List.any_eq_false.mp I.any_of_nil
  rcases I.find name with ⟨last, hfind, hall⟩ | ⟨before, p, word, behind, rfl, hbefore, hword, hfind⟩
  · refine ⟨s, nodes, by simp [step, delFromNameList, hname, hfind], I, ?_⟩
    rw [NameOp.apply, List.eraseP_of_forall_not]
    intro other hother
    obtain ⟨x, hx, rfl⟩ := List.mem_map.mp hother
    simp [hall x hx]
  · have herase : NameOp.apply ((before ++ (p, word) :: behind).map Prod.snd) (.del name) =
        (before ++ behind).map Prod.snd := by
      rw [NameOp.apply, List.map_append, List.map_cons, List.eraseP_append_right,
        List.eraseP_cons_of_pos (p := (strcasecmpEq · name)) hword, List.map_append]
      intro other hother
      obtain ⟨x, hx, rfl⟩ := List.mem_map.mp hother
      simp [hbefore x hx]
    obtain ⟨r, hchain, htop, next, hnode, hbehind⟩ := Links.chain_append.mp I.chain
    subst htop
    rcases List.eq_nil_or_concat' before with rfl | ⟨before, ⟨c, v⟩, rfl⟩
    · have htop : s.toplev = some p := hchain
      refine ⟨_, behind, ?_, I.delFirst hbehind, herase.symm⟩
      rw [step, delFromNameList, if_neg hname, hfind]
      simp only [Option.bind_eq_bind, Option.bind_some, hnode, if_pos htop, Option.map_some]
    · obtain ⟨hc, I'⟩ := I.delNext hnode
      have htop : s.toplev ≠ some p := by
        intro htop
        have hp : p ∉ (before ++ [(c, v)]).map Prod.fst := by
          have hnodup := I.nodup
          rw [List.map_append, List.map_cons, List.nodup_append] at hnodup
          exact fun hmem => hnodup.2.2 p hmem p List.mem_cons_self rfl
        cases before with
        | nil => exact hp (by simp [Option.some.inj (htop.symm.trans hchain.1)])
        | cons x before => exact hp (by simp [Option.some.inj (htop.symm.trans hchain.1)])
      have hpre : ((before ++ [(c, v)]).getLast?.map Prod.fst) = some c := by simp
      refine ⟨_, _, ?_, I', herase.symm⟩
      rw [step, delFromNameList, if_neg hname, hfind]
      simp only [Option.bind_eq_bind, Option.bind_some, hnode, if_neg htop, hpre, hc,
        Option.map_some]

theorem create (I : s.Inv nodes) : ∃ s', s.step .create = some s' ∧ s'.Inv [] := by
  have hempty (mem : Links Bytes) (hmem : ∀ a, mem.node a = none) :
      (⟨mem, none, none⟩ : NameList).Inv [] :=
    ⟨rfl, List.nodup_nil, fun h => absurd rfl h, fun a n h => by simp [hmem] at h, .nil,
      List.not_mem_nil⟩
  by_cases htop : s.toplev = none
  · refine ⟨⟨s.mem, none, none⟩, by simp [step, createNameList, htop], hempty _ fun a => ?_⟩
    obtain rfl := I.nodes_eq_nil htop
    cases hnode : s.mem.node a with
    | none => rfl
    | some n => cases I.kept a n hnode
  · obtain ⟨mem, hfree, hmem⟩ := I.chain.freeFrom I.fuel I.nodup
    have hsome : s.toplev.isSome = true := Option.isSome_iff_ne_none.mpr htop
    refine ⟨⟨mem, none, none⟩, by simp [step, createNameList, freeNameList, hsome, hfree],
      hempty _ fun a => ?_⟩
    rw [hmem]
    split
    · rfl
    · rename_i hnot
      cases hnode : s.mem.node a with
      | none => rfl
      | some n => exact absurd (I.kept a n hnode) hnot

end Inv

theorem start_inv : start.Inv [] :=
  ⟨rfl, List.nodup_nil, fun h => absurd rfl h, fun p n h => by simp [start, Links.node] at h,
    .nil, List.not_mem_nil⟩

/-- In every run in which a name is linked in behind the last node only, the list shows the names
that have been added and not removed, in their order. -/
theorem name_list_shows (ops : List NameOp) (h : Reach.Along step TailLast start ops) :
    ∃ s, ops.foldlM step start = some s ∧ s.Shows (ops.foldl NameOp.apply []) := by
  have hstep (s : NameList) (names : List Bytes) (op : NameOp)
      (hs : ∃ nodes, s.Inv nodes ∧ nodes.map Prod.snd = names) (hC : s.TailLast op) :
      ∃ s', s.step op = some s' ∧
        ∃ nodes, s'.Inv nodes ∧ nodes.map Prod.snd = NameOp.apply names op := by
    obtain ⟨nodes, I, rfl⟩ := hs
    cases op with
    | create =>
      obtain ⟨s', hs', I'⟩ := I.create
      exact ⟨s', hs', [], I', rfl⟩
    | add name room =>
      obtain ⟨s', nodes', hs', I', hnames⟩ := I.add room hC
      exact ⟨s', hs', nodes', I', hnames⟩
    | del name =>
      obtain ⟨s', nodes', hs', I', hnames⟩ := I.del name
      exact ⟨s', hs', nodes', I', hnames⟩
  obtain ⟨s, hs, nodes, I, hnames⟩ :=
    Reach.exists_run (fun s names => ∃ nodes, s.Inv nodes ∧ nodes.map Prod.snd = names)
      NameOp.apply hstep [] ops ⟨[], start_inv, rfl⟩ h
  exact ⟨s, hs, hnames ▸ I.shows⟩

/-- The last name is removed and the first of two. -/
def demoOps : List NameOp :=
  [.add (bytes "alice") true, .add (bytes "bob") true, .add (bytes "carol") true,
    .del (bytes "CAROL"), .add (bytes "dave") true, .del (bytes "alice"), .del (bytes "bob"),
    .add (bytes "erin") true]

theorem name_list_shows_demo : ∃ s, demoOps.foldlM step start = some s ∧
    s.Shows (demoOps.foldl NameOp.apply []) := name_list_shows demoOps (by decide +kernel)

/-- The name in the middle is removed, and the last one is lost with the next name. -/
theorem name_list_loses : ¬∀ ops : List NameOp, (∀ op ∈ ops, op ≠ .add [] true) →
    ∃ s, ops.foldlM step start = some s ∧ s.Shows (ops.foldl NameOp.apply []) := by
  intro hclaim
  obtain ⟨s, hs, hshows⟩ := hclaim [.add (bytes "alice") true, .add (bytes "bob") true,
    .add (bytes "carol") true, .del (bytes "bob"), .add (bytes "dave") true] (by simp [bytes])
  have hlost : (List.foldlM step start [.add (bytes "alice") true, .add (bytes "bob") true,
      .add (bytes "carol") true, .del (bytes "bob"), .add (bytes "dave") true]).bind
      applyToNameList = some [bytes "alice", bytes "dave"] := by decide +kernel
  rw [hs, Option.bind_some, hshows.apply] at hlost
  exact absurd (Option.some.inj hlost) (by decide +kernel)

end NameList

end ArgoBbs

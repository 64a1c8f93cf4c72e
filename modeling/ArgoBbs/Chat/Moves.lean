import ArgoBbs.Chat.Framing

/-! # Rights in rooms

A move takes the tables of the server from one state to another on behalf of one user. From the
moves so far it can be seen who has come into a locked room and how, who has been invited, and where
a user has become an operator. If every move does only what is permitted, these justify all rights
that users hold (`Justified.next`). -/

namespace ArgoBbs

/-- The tables before and after something that the server has done for a user. -/
structure Move where
  actor : Nat
  before : Hall
  after : Hall

/-- The user may rule the room: as its operator, or everywhere. -/
def Hall.rules (s : Hall) (u : Nat) (r : Int) : Bool :=
  s.sysop u || (s.roomop u && (s.users u).room = r)

namespace Move
variable (m : Move)

/-- The user is connected and stays where it is. -/
def stays (v : Nat) : Bool :=
  m.before.connected v && m.after.connected v && (m.after.users v).room = (m.before.users v).room

/-- The room, which is not the main room, gets its first user. -/
def creates (r : Int) : Bool :=
  r ≠ 0 && (m.before.rooms r).occupants = 0 && (m.after.rooms r).occupants ≠ 0

/-- The user comes into the room. -/
def enters (v : Nat) (r : Int) : Bool := !m.stays v && (m.after.users v).room = r

end Move

/-- What is known from the moves so far. -/
structure ChatHistory where
  /-- The user was in its room when it was locked. -/
  present : Nat → Bool
  /-- An invitation to the room, made by one who ruled it, that stands: the room has not been created
  again, and the user has neither left the server nor come in. -/
  granted : Int → Nat → Bool
  /-- The user came into its room with an invitation that stood. -/
  invited : Nat → Bool
  /-- The room in which the user, who is still in it, has become its operator, or `-1`. -/
  acquired : Nat → Int

def ChatHistory.empty : ChatHistory where
  present := fun _ => false
  granted := fun _ _ => false
  invited := fun _ => false
  acquired := fun _ => -1

def ChatHistory.next (h : ChatHistory) (m : Move) : ChatHistory where
  present v := m.stays v &&
    (h.present v || !m.before.locked (m.before.users v).room && m.after.locked (m.after.users v).room)
  granted r v := m.after.connected v && (m.after.rooms r).invites v && !m.enters v r &&
    (h.granted r v && !m.creates r || !(m.before.rooms r).invites v && m.before.rules m.actor r)
  invited v := if m.stays v then h.invited v
    else m.after.connected v && h.granted (m.after.users v).room v
  acquired v :=
    let room := (m.after.users v).room
    if m.stays v then
      if !m.before.roomop v && m.after.roomop v && room ≠ -1 && m.before.rules m.actor room then room
      else h.acquired v
    else if m.after.connected v && m.actor = v && m.creates room then room
    else -1

/-- What a move may do to the place and the rights of a user who is connected after it. -/
inductive SeatChange (m : Move) (v : Nat) : Prop
  | stays : m.before.connected v = true → (m.after.users v).room = (m.before.users v).room →
    (m.after.roomop v = true → m.before.roomop v = true ∨
      (m.after.users v).room ≠ -1 ∧ m.before.rules m.actor (m.after.users v).room = true) →
    SeatChange m v
  | outside : (m.after.users v).room = -1 → m.after.roomop v = false → SeatChange m v
  | enters : m.after.roomop v = false →
    m.after.sysop v = true ∨ m.before.locked (m.after.users v).room = false ∨
      (m.before.rooms (m.after.users v).room).invites v = true →
    m.after.locked (m.after.users v).room = m.before.locked (m.after.users v).room →
    SeatChange m v
  | creates : m.actor = v → (m.after.users v).room ≠ -1 →
    (m.before.users v).room ≠ (m.after.users v).room → m.creates (m.after.users v).room = true →
    m.after.locked (m.after.users v).room = false → SeatChange m v

/-- What a move may do to a user. -/
structure UserPermitted (m : Move) (v : Nat) : Prop where
  seat : m.after.connected v = true → SeatChange m v
  sysop : m.before.connected v = true → m.after.connected v = true →
    (m.before.users v).room ≠ -1 → m.after.sysop v = m.before.sysop v
  talk : m.before.connected v = true → m.after.connected v = true →
    (m.before.users v).room ≠ -1 → m.after.cantalk v ≠ m.before.cantalk v →
    m.before.rules m.actor (m.before.users v).room = true
  invites : ∀ r, r ≠ -1 → ((m.after.rooms r).invites v = true →
    m.after.connected v = true ∧ m.enters v r = false)

/-- What a move may do to a room. -/
structure RoomPermitted (m : Move) (r : Int) : Prop where
  rules : r = 0 ∨ (m.before.rooms r).occupants ≠ 0 →
    (m.after.rooms r).name = (m.before.rooms r).name ∧
      (m.after.rooms r).topic = (m.before.rooms r).topic ∧
      (m.after.rooms r).flags = (m.before.rooms r).flags ∨ m.before.rules m.actor r = true
  invites : ∀ v, (m.after.rooms r).invites v = true →
    (m.before.rooms r).invites v = true ∧ m.creates r = false ∨
      (m.before.rooms r).invites v = false ∧ m.before.rules m.actor r = true

/-- What a move may do. -/
structure Permitted (m : Move) : Prop where
  user : ∀ v, UserPermitted m v
  room : ∀ r, r ≠ -1 → RoomPermitted m r

/-- The rights that users hold are justified by what is known from the moves. -/
structure Justified (h : ChatHistory) (s : Hall) : Prop where
  inside : ∀ v, s.connected v = true → s.sysop v = false → (s.users v).room ≠ -1 →
    s.locked (s.users v).room = true → h.present v = true ∨ h.invited v = true
  operator : ∀ v, s.connected v = true → s.roomop v = true →
    (s.users v).room ≠ -1 ∧ h.acquired v = (s.users v).room
  invites : ∀ r, r ≠ -1 → ∀ v, (s.rooms r).invites v = true → h.granted r v = true

section
variable {m : Move} {h : ChatHistory} {v : Nat}

theorem Move.stays_iff : m.stays v = true ↔ m.before.connected v = true ∧
    m.after.connected v = true ∧ (m.after.users v).room = (m.before.users v).room := by
  simp [stays, and_assoc]

/-- A user who is in a locked room has been there when it was locked, or has had an invitation. -/
theorem Justified.inside_next (J : Justified h m.before) (P : Permitted m)
    (hv : m.after.connected v = true) (hsysop : m.after.sysop v = false)
    (hroom : (m.after.users v).room ≠ -1) (hlocked : m.after.locked (m.after.users v).room = true) :
    (h.next m).present v = true ∨ (h.next m).invited v = true := by
  by_cases hstays : m.stays v = true
  · obtain ⟨hbefore, -, hsame⟩ := Move.stays_iff.mp hstays
    by_cases hlock : m.before.locked (m.before.users v).room = true
    · have hnot : m.before.sysop v = false := by
        rw [← (P.user v).sysop hbefore hv (hsame ▸ hroom), hsysop]
      rcases J.inside v hbefore hnot (hsame ▸ hroom) hlock with hpresent | hinvited
      · left
        simp [ChatHistory.next, hstays, hpresent]
      · right
        simp [ChatHistory.next, hstays, hinvited]
    · left
      simp [ChatHistory.next, hstays, hlock, hlocked]
  · right
    have hgranted : h.granted (m.after.users v).room v = true := by
      rcases (P.user v).seat hv with
          ⟨hbefore, hsame, -⟩ | ⟨hout, -⟩ | ⟨-, hfree, hsame⟩ |
          ⟨-, -, -, -, hfree⟩
      · exact absurd (Move.stays_iff.mpr ⟨hbefore, hv, hsame⟩) hstays
      · exact absurd hout hroom
      · rcases hfree with hfree | hfree | hfree
        · rw [hfree] at hsysop
          cases hsysop
        · rw [hsame, hfree] at hlocked
          cases hlocked
        · exact J.invites _ hroom _ hfree
      · rw [hfree] at hlocked
        cases hlocked
    simp [ChatHistory.next, hstays, hv, hgranted]

/-- A user who is an operator has become one where he is. -/
theorem Justified.operator_next (J : Justified h m.before) (P : Permitted m)
    (hv : m.after.connected v = true) (hop : m.after.roomop v = true) :
    (m.after.users v).room ≠ -1 ∧ (h.next m).acquired v = (m.after.users v).room := by
  rcases (P.user v).seat hv with
      ⟨hbefore, hsame, hkeep⟩ | ⟨-, hnot⟩ | ⟨hnot, -⟩ |
      ⟨hactor, hroom, hother, hcreates, -⟩
  · have hstays : m.stays v = true := Move.stays_iff.mpr ⟨hbefore, hv, hsame⟩
    by_cases hwas : m.before.roomop v = true
    · obtain ⟨hroom, hacquired⟩ := J.operator v hbefore hwas
      refine ⟨hsame ▸ hroom, ?_⟩
      simp [ChatHistory.next, hstays, hwas, hacquired, hsame]
    · obtain ⟨hroom, hrules⟩ := (hkeep hop).resolve_left hwas
      refine ⟨hroom, ?_⟩
      simp [ChatHistory.next, hstays, hwas, hop, hroom, hrules]
  · rw [hnot] at hop
    cases hop
  · rw [hnot] at hop
    cases hop
  · have hmoved : ¬ m.stays v = true := fun hstays => hother (Move.stays_iff.mp hstays).2.2.symm
    refine ⟨hroom, ?_⟩
    simp [ChatHistory.next, hmoved, hv, hactor, hcreates]

theorem Justified.next (J : Justified h m.before) (P : Permitted m) :
    Justified (h.next m) m.after := by
  refine ⟨fun v => J.inside_next P, fun v => J.operator_next P, fun r hr v hinvite => ?_⟩
  obtain ⟨hv, henters⟩ := (P.user v).invites r hr hinvite
  rcases (P.room r hr).invites v hinvite with ⟨hbefore, hcreates⟩ | ⟨hbefore, hrules⟩
  · simp [ChatHistory.next, hv, hinvite, henters, hcreates, J.invites r hr v hbefore]
  · simp [ChatHistory.next, hv, hinvite, henters, hbefore, hrules]

/-- A move may leave a user as it was. -/
theorem UserPermitted.same (h : m.after.users v = m.before.users v)
    (hinvites : ∀ r, r ≠ -1 → (m.after.rooms r).invites v = true → m.before.connected v = true) :
    UserPermitted m v := by
  have hconn : m.after.connected v = m.before.connected v := by
    rw [Hall.connected, h, Hall.connected]
  have hhas : ∀ perm, m.after.has v perm = m.before.has v perm := fun perm => by
    rw [Hall.has, h, Hall.has]
  refine ⟨fun hv => ?_, fun _ _ _ => hhas _, fun _ _ _ hne => absurd (hhas _) hne,
    fun r hr hinvite => ?_⟩
  · refine .stays (hconn ▸ hv) (by rw [h]) fun hop => .inl ?_
    exact (hhas _).symm.trans hop
  · have hv := hinvites r hr hinvite
    have hstays : m.stays v = true := Move.stays_iff.mpr ⟨hv, hconn.trans hv, by rw [h]⟩
    refine ⟨hconn.trans hv, ?_⟩
    simp [Move.enters, hstays]

/-- A move may leave the name, the topic and the flags of a room as they were, and take back
invitations. -/
theorem RoomPermitted.same {r : Int} (hname : (m.after.rooms r).name = (m.before.rooms r).name)
    (htopic : (m.after.rooms r).topic = (m.before.rooms r).topic)
    (hflags : (m.after.rooms r).flags = (m.before.rooms r).flags)
    (hinvites : ∀ v, (m.after.rooms r).invites v = true → (m.before.rooms r).invites v = true)
    (hcreates : m.creates r = false) : RoomPermitted m r :=
  ⟨fun _ => .inl ⟨hname, htopic, hflags⟩, fun v hinvite => .inl ⟨hinvites v hinvite, hcreates⟩⟩

end

end ArgoBbs

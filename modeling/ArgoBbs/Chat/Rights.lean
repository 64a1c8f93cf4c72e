import ArgoBbs.Chat.Moves
import ArgoBbs.Lib.Flags

/-! # The rights of users over whole runs

What a line can do is permitted unless it gives or takes the right to talk in another room, or logs
its user in as an operator in front of a locked main room (`LineEffect.permitted`). In every run
without such lines the rights of all users are justified (`chat_rights`). -/

namespace ArgoBbs

/-- The rights over all rooms. -/
abbrev permRuler : BitVec 32 := permAchatroom ||| permSysop

section
variable {u : ChatUser} {perm : BitVec 32}

theorem ChatUser.outside_and (h : permChatroom &&& perm = 0) :
    u.outside.flags &&& perm = u.flags &&& perm := and_not_and h

theorem ChatUser.inside_and {r : Int} {op : Bool} (h : permChatroom &&& perm = 0) :
    (u.inside r op).flags &&& perm = u.flags &&& perm := by
  unfold inside
  cases op
  · rfl
  · exact or_and h

end

/-! ## Coming into a room -/

namespace Hall
variable {s : Hall} {v w : Nat} {r r' : Int} {op : Bool}

theorem users_tryEnter_ne (h : w ≠ v) : (s.tryEnter v r op).users w = s.users w := by
  unfold tryEnter
  split
  · rfl
  · rw [users_seat_ne _ _ _ h, users_leave_ne _ _ h]

theorem users_tryEnter (h : s.barred v r = false) :
    (s.tryEnter v r op).users v = (s.users v).outside.inside r op := by
  rw [tryEnter, if_neg (by rw [h]; exact Bool.false_ne_true), users_seat, users_leave]

theorem rooms_tryEnter :
    ((s.tryEnter v r op).rooms r').name = (s.rooms r').name ∧
      ((s.tryEnter v r op).rooms r').topic = (s.rooms r').topic ∧
      ((s.tryEnter v r op).rooms r').flags = (s.rooms r').flags := by
  unfold tryEnter
  split
  · exact ⟨rfl, rfl, rfl⟩
  · by_cases hr : r' = r
    · rw [hr, rooms_seat, rooms_leave]
      split <;> exact ⟨rfl, rfl, rfl⟩
    · rw [rooms_seat_ne _ _ _ hr, rooms_leave]
      split <;> exact ⟨rfl, rfl, rfl⟩

/-- Entering takes an invitation back. -/
theorem invites_tryEnter (h : ((s.tryEnter v r op).rooms r').invites w = true) :
    (s.rooms r').invites w = true ∧ (s.barred v r = false → r' = r → w ≠ v) := by
  unfold tryEnter at h
  split at h
  case isTrue hbarred => exact ⟨h, fun hfree => absurd (hbarred.symm.trans hfree) (by decide)⟩
  case isFalse =>
    have hleft : ((s.leave v).rooms r').invites = (s.rooms r').invites := by
      rw [rooms_leave]
      split <;> rfl
    by_cases hr : r' = r
    · rw [hr, rooms_seat] at h
      change Function.update ((s.leave v).rooms r).invites v false w = true at h
      have hne : w ≠ v := by
        rintro rfl
        rw [Function.update_self] at h
        cases h
      rw [Function.update_of_ne hne, ← hr, hleft] at h
      exact ⟨h, fun _ _ => hne⟩
    · rw [rooms_seat_ne _ _ _ hr, hleft] at h
      exact ⟨h, fun _ hr' => absurd hr' hr⟩

/-- Only the room entered and the room left have another number of users. -/
theorem occupants_tryEnter (hr : r' ≠ r) (hleft : r' ≠ (s.users v).room) :
    ((s.tryEnter v r op).rooms r').occupants = (s.rooms r').occupants := by
  unfold tryEnter
  split
  · rfl
  · rw [rooms_seat_ne _ _ _ hr, rooms_leave, if_neg fun h => hleft h.1]

end Hall

/-- The room that a user is in has users. -/
theorem HallInv.occupied {cfg : ChatConfig} {used : Nat → Bool} {s : Hall} {v : Nat}
    (H : HallInv cfg used s) (hlt : v < cfg.maxActive) (hv : s.connected v = true)
    (hroom : (s.users v).room ≠ -1) : (s.rooms (s.users v).room).occupants ≠ 0 := by
  obtain ⟨r, hr, hin⟩ := (H.room v hv).resolve_left hroom
  have hpos : 0 < s.inRoom cfg r := countSlots_pos hlt (by rw [hv, hin]; simp)
  rw [hin, H.occupants r hr]
  omega

/-- The tables `s₁` are the tables `s` with the user `v` made ready to come into a room: he may have
left his room or have logged in. -/
structure Ready (m : Move) (v : Nat) : Prop where
  here : m.before.connected v = true
  users : ∀ w, w ≠ v → m.after.users w = m.before.users w
  connected : m.after.connected v = true
  room : (m.after.users v).room = (m.before.users v).room ∨ (m.after.users v).room = -1
  flags : (m.before.users v).room ≠ -1 → ∀ perm, permChatroom &&& perm = 0 →
    (m.after.users v).flags &&& perm = (m.before.users v).flags &&& perm
  name : ∀ r, (m.after.rooms r).name = (m.before.rooms r).name
  topic : ∀ r, (m.after.rooms r).topic = (m.before.rooms r).topic
  roomFlags : ∀ r, (m.after.rooms r).flags = (m.before.rooms r).flags
  invites : ∀ r, (m.after.rooms r).invites = (m.before.rooms r).invites
  occupants : ∀ r, r ≠ -1 → (m.before.rooms r).occupants = 0 → (m.after.rooms r).occupants = 0

theorem has_eq {s s' : Hall} {v : Nat} {perm : BitVec 32}
    (h : (s'.users v).flags &&& perm = (s.users v).flags &&& perm) : s'.has v perm = s.has v perm := by
  rw [Hall.has, h, Hall.has]

/-- Only a user with a connection has an invitation. -/
theorem HallInv.of_invite {cfg : ChatConfig} {used : Nat → Bool} {s : Hall} {v : Nat} {r : Int}
    (H : HallInv cfg used s) (h : (s.rooms r).invites v = true) : s.connected v = true := by
  by_contra hv
  rw [H.invites v (Bool.eq_false_iff.mpr hv) r] at h
  cases h

section
variable {m : Move} {v : Nat} {r : Int}

theorem Move.creates_eq_false
    (h : r ≠ 0 → (m.before.rooms r).occupants = 0 → (m.after.rooms r).occupants = 0) :
    m.creates r = false := by
  rw [creates]
  by_cases hr : r = 0
  · simp [hr]
  · by_cases hocc : (m.before.rooms r).occupants = 0
    · simp [h hr hocc]
    · simp [hocc]

theorem Move.enters_eq_false (h : m.stays v = true ∨ (m.after.users v).room ≠ r) :
    m.enters v r = false := by
  rcases h with h | h <;> simp [enters, h]

end

section
variable {cfg : ChatConfig} {used : Nat → Bool} {s s₁ : Hall} {u v r : Nat}

/-- The user who is ready finds the room locked. -/
theorem Ready.barred (R : Ready ⟨u, s, s₁⟩ v) (H : HallInv cfg used s)
    (hseat : SeatChange ⟨u, s, s₁⟩ v) : Permitted ⟨u, s, s₁⟩ := by
  refine ⟨fun w => ?_, fun r' hr' => ?_⟩
  · by_cases hw : w = v
    · subst hw
      refine ⟨fun _ => hseat, fun _ _ hroom => has_eq (R.flags hroom _ (by decide)),
        fun _ _ hroom hne => absurd (has_eq (R.flags hroom _ (by decide))) hne, fun r' hr' hinvite => ?_⟩
      refine ⟨R.connected, Move.enters_eq_false ?_⟩
      rcases R.room with hroom | hroom
      · exact .inl (Move.stays_iff.mpr ⟨R.here, R.connected, hroom⟩)
      · exact .inr (by rw [hroom]; exact hr'.symm)
    · refine .same (R.users w hw) fun r' _ hinvite => @HallInv.of_invite _ _ _ _ r' H ?_
      rw [← R.invites]
      exact hinvite
  · refine .same (R.name r') (R.topic r') (R.roomFlags r') (fun w hinvite => ?_)
      (Move.creates_eq_false fun _ => R.occupants r' hr')
    rw [← R.invites]
    exact hinvite

/-- The user who is ready comes into a room that is there. -/
theorem Ready.entry (R : Ready ⟨u, s, s₁⟩ v) (H : HallInv cfg used s) (hlt : v < cfg.maxActive)
    (hr : r = 0 ∨ (s.rooms r).occupants ≠ 0)
    (hbarred : s₁.barred v r = true → SeatChange ⟨u, s, s₁⟩ v) :
    Permitted ⟨u, s, s₁.tryEnter v r false⟩ := by
  by_cases h : s₁.barred v r = true
  · have hsame : s₁.tryEnter v r false = s₁ := if_pos h
    rw [hsame]
    exact R.barred H (hbarred h)
  · have hfree : s₁.barred v r = false := Bool.eq_false_iff.mpr h
    have hself : (s₁.tryEnter v r false).users v = (s₁.users v).outside.inside r false :=
      Hall.users_tryEnter hfree
    have hflags : ∀ perm, permChatroom &&& perm = 0 →
        ((s₁.tryEnter v r false).users v).flags &&& perm = (s₁.users v).flags &&& perm := by
      intro perm hperm
      rw [hself, ChatUser.inside_and hperm, ChatUser.outside_and hperm]
    have hrooms : ∀ r' : Int, ((s₁.tryEnter v r false).rooms r').flags = (s.rooms r').flags :=
      fun r' => Hall.rooms_tryEnter.2.2.trans (R.roomFlags r')
    refine ⟨fun w => ?_, fun r' hr' => ?_⟩
    · by_cases hw : w = v
      · subst hw
        refine ⟨fun _ => ?_, fun _ _ hroom => ?_, fun _ _ hroom hne => ?_, fun r' hr' hinvite => ?_⟩
        · have hin : ((s₁.tryEnter w r false).users w).room = r := by
            rw [hself]
            rfl
          refine .enters ?_ ?_ ?_
          · dsimp only
            rw [Hall.roomop, Hall.has, hself]
            exact decide_eq_false (not_not.mpr and_not_self)
          · dsimp only
            rw [hin]
            have hsysop : (s₁.tryEnter w r false).sysop w = s₁.sysop w := has_eq (hflags _ (by decide))
            have hlocked : s₁.locked r = s.locked r := by
              rw [Hall.locked, Hall.roomHas, R.roomFlags, Hall.locked, Hall.roomHas]
            rw [Hall.barred, hlocked, R.invites, ← hsysop] at hfree
            cases hs : (s₁.tryEnter w r false).sysop w
            · cases hl : s.locked r
              · exact .inr (.inl rfl)
              · rw [hs, hl] at hfree
                exact .inr (.inr (by simpa using hfree))
            · exact .inl rfl
          · dsimp only
            rw [hin, Hall.locked, Hall.roomHas, hrooms, Hall.locked, Hall.roomHas]
        · exact has_eq ((hflags _ (by decide)).trans (R.flags hroom _ (by decide)))
        · exact absurd (has_eq ((hflags _ (by decide)).trans (R.flags hroom _ (by decide)))) hne
        · have hother : r' ≠ r := fun h => (Hall.invites_tryEnter hinvite).2 hfree h rfl
          refine ⟨?_, Move.enters_eq_false (.inr ?_)⟩
          · dsimp only
            rw [Hall.connected_tryEnter]
            exact R.connected
          · dsimp only
            rw [hself]
            exact hother.symm
      · refine .same ((Hall.users_tryEnter_ne hw).trans (R.users w hw)) fun r' _ hinvite => ?_
        refine @HallInv.of_invite _ _ _ _ r' H ?_
        rw [← R.invites]
        exact (Hall.invites_tryEnter hinvite).1
    · refine .same (Hall.rooms_tryEnter.1.trans (R.name r')) (Hall.rooms_tryEnter.2.1.trans (R.topic r'))
        (hrooms r') (fun w hinvite => ?_) (Move.creates_eq_false fun hne hocc => ?_)
      · rw [← R.invites]
        exact (Hall.invites_tryEnter hinvite).1
      · have hother : r' ≠ r := by
          rintro rfl
          exact (hr.resolve_left fun h => hne (by rw [h]; rfl)) hocc
        have hroom : r' ≠ (s₁.users v).room := by
          rintro rfl
          rcases R.room with hroom | hroom
          · dsimp only at hroom hocc
            rw [hroom] at hocc hr'
            exact H.occupied hlt R.here hr' hocc
          · exact hr' hroom
        exact (Hall.occupants_tryEnter hother hroom).trans (R.occupants r' hr' hocc)

end

/-! ## What a line can do is permitted -/

/-- The line in the input buffer is an operator's command to give or take the right to talk of a
user in another room. -/
def Hall.TalksAcross (cfg : ChatConfig) (s : Hall) (u : Nat) : Prop :=
  s.roomop u = true ∧ s.sysop u = false ∧ ∃ v < cfg.maxActive, s.Names u v cfg .talk ∧
    (s.users v).room ≠ (s.users u).room ∧ (s.users v).room ≠ -1

instance (cfg : ChatConfig) (s : Hall) (u : Nat) : Decidable (s.TalksAcross cfg u) :=
  inferInstanceAs (Decidable (_ ∧ _ ∧ _))

/-- Whether the line in the input buffer is a login that is answered in a certain way. -/
@[reducible] def decideLogin (cfg : ChatConfig) (s : Hall) (u : Nat)
    (P : BitVec 32 → Int → Int → Bytes → Bytes → Prop)
    [∀ flags cloak utent userid chatid, Decidable (P flags cloak utent userid chatid)] :
    Decidable (match (s.users u).line with
      | 47 :: 33 :: msg =>
        match loginAnswer cfg s u msg with
        | .ok flags cloak utent userid chatid => P flags cloak utent userid chatid
        | _ => False
      | _ => False) := by
  split
  · split <;> infer_instance
  · infer_instance

/-- The line in the input buffer is a login with the flag of an operator while the main room is
locked. -/
def Hall.LogsInBarred (cfg : ChatConfig) (s : Hall) (u : Nat) : Prop :=
  (s.users u).room = -1 ∧
    match (s.users u).line with
    | 47 :: 33 :: msg =>
      match loginAnswer cfg s u msg with
      | .ok flags cloak utent userid chatid => flags &&& permChatroom ≠ 0 ∧
        (s.setUser u (ChatUser.loggedIn flags cloak utent userid chatid)).barred u 0 = true
      | _ => False
    | _ => False

instance (cfg : ChatConfig) (s : Hall) (u : Nat) : Decidable (s.LogsInBarred cfg u) := by
  unfold Hall.LogsInBarred
  exact @instDecidableAnd _ _ _ (decideLogin cfg s u fun flags cloak utent userid chatid =>
    flags &&& permChatroom ≠ 0 ∧
      (s.setUser u (ChatUser.loggedIn flags cloak utent userid chatid)).barred u 0 = true)

section
variable {cfg : ChatConfig} {used : Nat → Bool} {s s' : Hall} {u v : Nat}

/-- A change of the flags of a user who stays where he is. -/
theorem UserPermitted.flags {m : Move} (hbefore : m.before.connected v = true)
    (hafter : m.after.connected v = true)
    (hroom : (m.after.users v).room = (m.before.users v).room)
    (hsysop : (m.after.users v).flags &&& permRuler = (m.before.users v).flags &&& permRuler)
    (hop : m.after.roomop v = true → m.before.roomop v = true ∨
      (m.after.users v).room ≠ -1 ∧ m.before.rules m.actor (m.after.users v).room = true)
    (htalk : (m.before.users v).room ≠ -1 → m.after.cantalk v ≠ m.before.cantalk v →
      m.before.rules m.actor (m.before.users v).room = true) : UserPermitted m v :=
  ⟨fun _ => .stays hbefore hroom hop, fun _ _ _ => has_eq hsysop, fun _ _ hin hne => htalk hin hne,
    fun _ _ _ => ⟨hafter, Move.enters_eq_false (.inl (Move.stays_iff.mpr ⟨hbefore, hafter, hroom⟩))⟩⟩

theorem Hall.rules_of_mayRule (h : s.mayRule u = true) : s.rules u (s.users u).room = true := by
  unfold mayRule at h
  unfold rules
  cases hop : s.roomop u
  · rw [hop] at h
    rw [show s.sysop u = true from h]
    rfl
  · simp

theorem HallInv.permitted_nothing (H : HallInv cfg used s) : Permitted ⟨u, s, s⟩ :=
  ⟨fun _ => .same rfl fun _ _ hinvite => H.of_invite hinvite,
    fun _ _ => .same rfl rfl rfl (fun _ h => h) (Move.creates_eq_false fun _ h => h)⟩

/-- Nothing happens to the rooms. -/
theorem HallInv.permitted_users (H : HallInv cfg used s) (hrooms : s'.rooms = s.rooms)
    (h : ∀ w, s'.users w = s.users w ∨ UserPermitted ⟨u, s, s'⟩ w) : Permitted ⟨u, s, s'⟩ := by
  refine ⟨fun w => ?_, fun r _ => ?_⟩
  · rcases h w with hsame | hw
    · refine .same hsame fun r _ hinvite => @HallInv.of_invite _ _ _ _ r H ?_
      rw [← hrooms]
      exact hinvite
    · exact hw
  · have hroom : s'.rooms r = s.rooms r := by rw [hrooms]
    refine .same (by rw [hroom]) (by rw [hroom]) (by rw [hroom]) (fun w hinvite => ?_)
      (Move.creates_eq_false fun _ hocc => ?_)
    · rw [← hroom]
      exact hinvite
    · dsimp only
      rw [hroom]
      exact hocc

/-- Nothing happens to the users. -/
theorem HallInv.permitted_room (H : HallInv cfg used s) {r : Int} {f : ChatRoom → ChatRoom}
    (hr : RoomPermitted ⟨u, s, s.setRoom r f⟩ r)
    (hinvites : ∀ w, (f (s.rooms r)).invites w = true → s.connected w = true) :
    Permitted ⟨u, s, s.setRoom r f⟩ := by
  refine ⟨fun w => .same rfl fun r' _ hinvite => ?_, fun r' _ => ?_⟩
  · by_cases h : r' = r
    · dsimp only at hinvite
      rw [h, Hall.rooms_setRoom] at hinvite
      exact hinvites w hinvite
    · dsimp only at hinvite
      rw [Hall.rooms_setRoom_ne _ _ h] at hinvite
      exact H.of_invite hinvite
  · by_cases h : r' = r
    · exact h ▸ hr
    · have hsame : (s.setRoom r f).rooms r' = s.rooms r' := Hall.rooms_setRoom_ne _ _ h
      refine .same (by rw [hsame]) (by rw [hsame]) (by rw [hsame]) (fun w hinvite => ?_)
        (Move.creates_eq_false fun _ hocc => ?_)
      · rw [← hsame]
        exact hinvite
      · dsimp only
        rw [hsame]
        exact hocc

theorem Ready.refl (hv : s.connected v = true) : Ready ⟨u, s, s⟩ v where
  here := hv
  users _ _ := rfl
  connected := hv
  room := .inl rfl
  flags _ _ _ := rfl
  name _ := rfl
  topic _ := rfl
  roomFlags _ := rfl
  invites _ := rfl
  occupants _ _ h := h

theorem Ready.leave (H : HallInv cfg used s) (hlt : v < cfg.maxActive)
    (hv : s.connected v = true) : Ready ⟨u, s, s.leave v⟩ v := by
  have hrooms : ∀ r : Int, ((s.leave v).rooms r).name = (s.rooms r).name ∧
      ((s.leave v).rooms r).topic = (s.rooms r).topic ∧
      ((s.leave v).rooms r).flags = (s.rooms r).flags ∧
      ((s.leave v).rooms r).invites = (s.rooms r).invites := by
    intro r
    rw [Hall.rooms_leave]
    split <;> exact ⟨rfl, rfl, rfl, rfl⟩
  refine ⟨hv, fun w hw => Hall.users_leave_ne _ _ hw, Hall.connected_leave.trans hv, .inr ?_,
    fun _ perm hperm => ?_, fun r => (hrooms r).1, fun r => (hrooms r).2.1,
    fun r => (hrooms r).2.2.1, fun r => (hrooms r).2.2.2, fun r hr hocc => ?_⟩
  · dsimp only
    rw [Hall.users_leave]
    rfl
  · dsimp only
    rw [Hall.users_leave]
    exact ChatUser.outside_and hperm
  · dsimp only at hocc ⊢
    have hother : ¬ (r = (s.users v).room ∧ r ≠ -1) := by
      rintro ⟨rfl, hroom⟩
      exact H.occupied hlt hv hroom hocc
    rw [Hall.rooms_leave, if_neg hother]
    exact hocc

theorem Ready.login (hv : s.connected v = true) (hroom : (s.users v).room = -1)
    (flags : BitVec 32) (cloak utent : Int) (userid chatid : Bytes) :
    Ready ⟨u, s, s.setUser v (ChatUser.loggedIn flags cloak utent userid chatid)⟩ v where
  here := hv
  users w hw := Hall.users_setUser_ne _ _ hw
  connected := (Hall.connected_setUser (ChatUser.loggedIn _ _ _ _ _) fun _ => rfl).trans hv
  room := .inl (by rw [Hall.users_setUser]; rfl)
  flags h := absurd hroom h
  name _ := rfl
  topic _ := rfl
  roomFlags _ := rfl
  invites _ := rfl
  occupants _ _ h := h

theorem Hall.roomop_outside (h : s'.users v = (s.users v).outside) : s'.roomop v = false := by
  rw [roomop, has, h]
  exact decide_eq_false (not_not.mpr and_not_self)

/-- A user leaves the server. -/
theorem HallInv.permitted_logout (H : HallInv cfg used s) (hlt : v < cfg.maxActive)
    (hv : s.connected v = true) : Permitted ⟨u, s, (s.leave v).logout v⟩ := by
  have R : Ready ⟨u, s, s.leave v⟩ v := .leave H hlt hv
  have hself : ((s.leave v).logout v).users v = .gone := Function.update_self ..
  have hgone : ((s.leave v).logout v).connected v = false := by
    rw [Hall.connected, hself]
    rfl
  have hinvites : ∀ (r : Int) w, (((s.leave v).logout v).rooms r).invites w = true →
      w ≠ v ∧ (s.rooms r).invites w = true := by
    intro r w hinvite
    change Function.update ((s.leave v).rooms r).invites v false w = true at hinvite
    have hne : w ≠ v := by
      rintro rfl
      rw [Function.update_self] at hinvite
      cases hinvite
    rw [Function.update_of_ne hne, R.invites] at hinvite
    exact ⟨hne, hinvite⟩
  refine ⟨fun w => ?_, fun r hr => ?_⟩
  · by_cases hw : w = v
    · subst hw
      refine ⟨fun h => ?_, fun _ h => ?_, fun _ h => ?_, fun r _ hinvite => ?_⟩
      · exact absurd (hgone.symm.trans h) Bool.false_ne_true
      · exact absurd (hgone.symm.trans h) Bool.false_ne_true
      · exact absurd (hgone.symm.trans h) Bool.false_ne_true
      · exact absurd rfl (hinvites r w hinvite).1
    · exact .same ((Function.update_of_ne hw ..).trans (R.users w hw)) fun r _ hinvite =>
        H.of_invite (hinvites r w hinvite).2
  · exact .same (R.name r) (R.topic r) (R.roomFlags r) (fun w hinvite => (hinvites r w hinvite).2)
      (Move.creates_eq_false fun _ => R.occupants r hr)

/-- A new room is not locked. -/
theorem Hall.barred_create {r : Nat} {room : Bytes} :
    (s.setRoom r (ChatRoom.create cfg room)).locked r = false ∧
      (s.setRoom r (ChatRoom.create cfg room)).barred u r = false := by
  have hunlocked : (s.setRoom r (ChatRoom.create cfg room)).locked r = false := by
    rw [locked, roomHas, rooms_setRoom]
    exact decide_eq_false (not_not.mpr BitVec.zero_and)
  exact ⟨hunlocked, by simp [barred, hunlocked]⟩

/-- A user comes into a room of his own. -/
theorem HallInv.permitted_create (H : HallInv cfg used s) (hlt : u < cfg.maxActive)
    (hu : s.connected u = true) {r : Nat} {room : Bytes} (hpos : 0 < r)
    (hocc : (s.rooms r).occupants = 0) :
    Permitted ⟨u, s, (s.setRoom r (ChatRoom.create cfg room)).tryEnter u r true⟩ := by
  obtain ⟨s₁, hs₁⟩ : ∃ s₁, s₁ = s.setRoom r (ChatRoom.create cfg room) := ⟨_, rfl⟩
  rw [← hs₁]
  have hnew : s₁.rooms r = ChatRoom.create cfg room (s.rooms r) := by rw [hs₁, Hall.rooms_setRoom]
  have hold : ∀ r' : Int, r' ≠ r → s₁.rooms r' = s.rooms r' := fun r' h => by
    rw [hs₁, Hall.rooms_setRoom_ne _ _ h]
  have husers : s₁.users = s.users := by
    rw [hs₁]
    rfl
  have hroom : (s.users u).room ≠ r := by
    intro h
    rw [← h] at hocc
    exact H.occupied hlt hu (by omega) hocc
  obtain ⟨hunlocked, hfree⟩ : s₁.locked r = false ∧ s₁.barred u r = false := by
    rw [hs₁]
    exact Hall.barred_create
  have hself : (s₁.tryEnter u r true).users u = (s.users u).outside.inside r true := by
    rw [Hall.users_tryEnter hfree, husers]
  have hin : ((s₁.tryEnter u r true).users u).room = r := by
    rw [hself]
    rfl
  have hflags : ∀ perm, permChatroom &&& perm = 0 →
      ((s₁.tryEnter u r true).users u).flags &&& perm = (s.users u).flags &&& perm := by
    intro perm hperm
    rw [hself, ChatUser.inside_and hperm, ChatUser.outside_and hperm]
  have hcreates : Move.creates ⟨u, s, s₁.tryEnter u r true⟩ r = true := by
    have hafter : ((s₁.tryEnter u r true).rooms r).occupants ≠ 0 := by
      rw [Hall.tryEnter, if_neg (by rw [hfree]; exact Bool.false_ne_true), Hall.rooms_seat,
        Hall.rooms_leave, if_neg (by rw [husers]; exact fun h => hroom h.1.symm), hnew]
      change (s.rooms r).occupants + 1 ≠ 0
      omega
    simp [Move.creates, hocc, hafter, Nat.pos_iff_ne_zero.mp hpos]
  have hinvites : ∀ (r' : Int) w, ((s₁.tryEnter u r true).rooms r').invites w = true →
      r' ≠ r ∧ (s.rooms r').invites w = true := by
    intro r' w hinvite
    have hbefore := (Hall.invites_tryEnter hinvite).1
    by_cases h : r' = r
    · rw [h, hnew] at hbefore
      cases hbefore
    · rw [hold r' h] at hbefore
      exact ⟨h, hbefore⟩
  refine ⟨fun w => ?_, fun r' hr' => ?_⟩
  · by_cases hw : w = u
    · subst hw
      refine ⟨fun _ => .creates rfl ?_ ?_ ?_ ?_, fun _ _ _ => has_eq (hflags _ (by decide)),
        fun _ _ _ hne => absurd (has_eq (hflags _ (by decide))) hne, fun r' _ hinvite => ⟨?_, ?_⟩⟩
      · dsimp only
        rw [hin]
        omega
      · dsimp only
        rw [hin]
        exact hroom
      · dsimp only
        rw [hin]
        exact hcreates
      · dsimp only
        rw [hin, Hall.locked, Hall.roomHas, Hall.rooms_tryEnter.2.2]
        exact hunlocked
      · dsimp only
        rw [Hall.connected_tryEnter, Hall.connected, husers]
        exact hu
      · exact Move.enters_eq_false (.inr (by rw [hin]; exact (hinvites r' w hinvite).1.symm))
    · refine .same ((Hall.users_tryEnter_ne hw).trans (by rw [husers])) fun r' _ hinvite =>
        H.of_invite (hinvites r' w hinvite).2
  · by_cases h : r' = r
    · subst h
      refine ⟨fun hthere => ?_, fun w hinvite => absurd rfl (hinvites r w hinvite).1⟩
      rcases hthere with hzero | hthere
      · omega
      · exact absurd hocc hthere
    · refine .same (Hall.rooms_tryEnter.1.trans (by rw [hold r' h]))
        (Hall.rooms_tryEnter.2.1.trans (by rw [hold r' h]))
        (Hall.rooms_tryEnter.2.2.trans (by rw [hold r' h]))
        (fun w hinvite => (hinvites r' w hinvite).2) (Move.creates_eq_false fun _ hzero => ?_)
      have hother : r' ≠ (s₁.users u).room := by
        rw [husers]
        rintro rfl
        exact H.occupied hlt hu hr' hzero
      exact (Hall.occupants_tryEnter h hother).trans ((congrArg _ (hold r' h)).trans hzero)

/-- Everything that a line of a user in a room does is permitted. -/
theorem LineEffect.permitted (h : LineEffect cfg s u s') (H : HallInv cfg used s)
    (hlt : u < cfg.maxActive) (hu : s.connected u = true) (hroom : (s.users u).room ≠ -1)
    (htalk : ¬ s.TalksAcross cfg u) : Permitted ⟨u, s, s'⟩ := by
  cases h with
  | nothing => exact H.permitted_nothing
  | @own f hkeep _ =>
    have hself : (s.setUser u f).users u = f (s.users u) := Hall.users_setUser ..
    have hperm : ∀ perm, permMessage &&& perm = 0 →
        ((s.setUser u f).users u).flags &&& perm = (s.users u).flags &&& perm := by
      intro perm hperm
      rw [hself]
      rcases hkeep.flags with hflags | hflags
      · rw [hflags]
      · rw [hflags, xor_and hperm]
    refine H.permitted_users rfl fun w => ?_
    by_cases hw : w = u
    · subst hw
      refine .inr (.flags hu ?_ ?_ (hperm _ (by decide)) (fun hop => .inl ?_) fun _ hne => ?_)
      · dsimp only
        rw [Hall.connected, hself, hkeep.sockfd]
        exact hu
      · dsimp only
        rw [hself, hkeep.room]
      · exact (has_eq (hperm _ (by decide))).symm.trans hop
      · exact absurd (has_eq (hperm _ (by decide))) hne
    · exact .inl (Hall.users_setUser_ne _ _ hw)
  | @rule f hrule hkeep =>
    refine H.permitted_room ⟨fun _ => .inr (Hall.rules_of_mayRule hrule), fun v hinvite => .inl ⟨?_, ?_⟩⟩
      fun w hinvite => ?_
    · dsimp only at hinvite
      rw [Hall.rooms_setRoom, hkeep.invites] at hinvite
      exact hinvite
    · refine Move.creates_eq_false fun _ hocc => ?_
      dsimp only at hocc ⊢
      rw [Hall.rooms_setRoom, hkeep.occupants, hocc]
    · rw [hkeep.invites] at hinvite
      exact H.of_invite hinvite
  | @talk v hrule hname hne =>
    obtain ⟨hltv, hv⟩ := hname.spec
    have hself : (s.setUser v (ChatUser.toggle permTalk)).users v =
      (s.users v).toggle permTalk := Hall.users_setUser ..
    have hperm : ∀ perm, permTalk &&& perm = 0 →
        ((s.setUser v (ChatUser.toggle permTalk)).users v).flags &&& perm =
          (s.users v).flags &&& perm := by
      intro perm hperm
      rw [hself]
      exact xor_and hperm
    refine H.permitted_users rfl fun w => ?_
    by_cases hw : w = v
    · subst hw
      refine .inr (.flags hv ?_ ?_ (hperm _ (by decide)) (fun hop => .inl ?_) fun hin _ => ?_)
      · exact (Hall.connected_setUser (ChatUser.toggle _) fun _ => rfl).trans hv
      · dsimp only
        rw [hself]
        rfl
      · exact (has_eq (hperm _ (by decide))).symm.trans hop
      · -- the line names a user in the same room, or its user rules all rooms
        have hrules := Hall.rules_of_mayRule hrule
        by_cases hsame : (s.users w).room = (s.users u).room
        · dsimp only
          rw [hsame]
          exact hrules
        · have hsysop : s.sysop u = true := by
            by_contra hnot
            have hnot := Bool.eq_false_iff.mpr hnot
            rw [Hall.mayRule, hnot, Bool.or_false] at hrule
            exact htalk ⟨hrule, hnot, w, hltv, hname, hsame, hin⟩
          dsimp only
          rw [Hall.rules, hsysop]
          rfl
    · exact .inl (Hall.users_setUser_ne _ _ hw)
  | @operator v hrule hname hne hsame =>
    obtain ⟨-, hv⟩ := hname.spec
    obtain ⟨s', hs'⟩ : ∃ s', s' = (s.setUser u ChatUser.dropOp).setUser v ChatUser.takeOp := ⟨_, rfl⟩
    rw [← hs']
    have hconn : ∀ w, s'.connected w = s.connected w := fun w => by
      rw [hs']
      exact (Hall.connected_setUser ChatUser.takeOp fun _ => rfl).trans
        (Hall.connected_setUser ChatUser.dropOp fun _ => rfl)
    have hop : s'.users v = (s.users v).takeOp := by
      rw [hs', Hall.users_setUser, Hall.users_setUser_ne _ _ hne.symm]
    have hdrop : s'.users u = (s.users u).dropOp := by
      rw [hs', Hall.users_setUser_ne _ _ hne, Hall.users_setUser]
    refine H.permitted_users (by rw [hs']; rfl) fun w => ?_
    by_cases hw : w = v
    · subst hw
      have hperm : ∀ perm, permChatroom &&& perm = 0 →
          (s'.users w).flags &&& perm = (s.users w).flags &&& perm := by
        intro perm hperm
        rw [hop]
        exact or_and hperm
      refine .inr (.flags hv ((hconn w).trans hv) ?_ (hperm _ (by decide)) (fun _ => .inr ?_)
        fun _ hne => absurd (has_eq (hperm _ (by decide))) hne)
      · dsimp only
        rw [hop]
        rfl
      · dsimp only
        rw [hop, show (s.users w).takeOp.room = (s.users u).room from hsame.symm]
        exact ⟨hroom, Hall.rules_of_mayRule hrule⟩
    · by_cases hw' : w = u
      · subst hw'
        have hperm : ∀ perm, permChatroom &&& perm = 0 →
            (s'.users w).flags &&& perm = (s.users w).flags &&& perm := by
          intro perm hperm
          rw [hdrop]
          exact and_not_and hperm
        refine .inr (.flags hu ((hconn w).trans hu) ?_ (hperm _ (by decide)) (fun hkept => ?_)
          fun _ hne => absurd (has_eq (hperm _ (by decide))) hne)
        · dsimp only
          rw [hdrop]
          rfl
        · dsimp only at hkept
          rw [Hall.roomop, Hall.has, hdrop] at hkept
          exact absurd and_not_self (of_decide_eq_true hkept)
      · left
        rw [hs', Hall.users_setUser_ne _ _ hw, Hall.users_setUser_ne _ _ hw']
  | @invite v hrule hname =>
    obtain ⟨-, hv⟩ := hname.spec
    have hself : (s.setRoom (s.users u).room (ChatRoom.invite v)).rooms (s.users u).room =
      (s.rooms (s.users u).room).invite v := Hall.rooms_setRoom ..
    have hold : ∀ w, ((s.rooms (s.users u).room).invite v).invites w = true →
        w = v ∨ (s.rooms (s.users u).room).invites w = true := by
      intro w hinvite
      change Function.update (s.rooms (s.users u).room).invites v true w = true at hinvite
      by_cases hw : w = v
      · exact .inl hw
      · rw [Function.update_of_ne hw] at hinvite
        exact .inr hinvite
    have hcreates : Move.creates ⟨u, s, s.setRoom (s.users u).room (ChatRoom.invite v)⟩
        (s.users u).room = false := by
      refine Move.creates_eq_false fun _ hocc => ?_
      dsimp only at hocc ⊢
      rw [hself]
      exact hocc
    refine H.permitted_room ⟨fun _ => .inl ?_, fun w hinvite => ?_⟩ fun w hinvite => ?_
    · dsimp only
      rw [hself]
      exact ⟨rfl, rfl, rfl⟩
    · by_cases hbefore : (s.rooms (s.users u).room).invites w = true
      · exact .inl ⟨hbefore, hcreates⟩
      · exact .inr ⟨Bool.eq_false_iff.mpr hbefore, Hall.rules_of_mayRule hrule⟩
    · rcases hold w hinvite with rfl | hbefore
      · exact hv
      · exact H.of_invite hbefore
  | bye =>
    refine Ready.barred (.leave H hlt hu) H (.outside ?_ (Hall.roomop_outside (Hall.users_leave ..)))
    rw [Hall.users_leave]
    rfl
  | join hr hocc =>
    exact (Ready.refl hu).entry H hlt (hocc.imp_left fun h => h) fun _ => .stays hu rfl .inl
  | create hpos _ hocc => exact H.permitted_create hlt hu hpos hocc
  | kick hrule hname hsame hzero =>
    obtain ⟨hltv, hv⟩ := hname.spec
    refine (Ready.leave H hltv hv).entry H hltv (.inl rfl) fun _ => .outside ?_
      (Hall.roomop_outside (Hall.users_leave ..))
    rw [Hall.users_leave]
    rfl
  | kickOut hrule hname =>
    obtain ⟨hltv, hv⟩ := hname.spec
    exact H.permitted_logout hltv hv
  | login hout => exact absurd hout hroom

/-- A login that is permitted. -/
theorem HallInv.permitted_login (H : HallInv cfg used s) (hlt : u < cfg.maxActive)
    (hu : s.connected u = true) (hroom : (s.users u).room = -1)
    {msg userid chatid : Bytes} {flags : BitVec 32} {cloak utent : Int}
    (hline : (s.users u).line = 47 :: 33 :: msg)
    (hans : loginAnswer cfg s u msg = .ok flags cloak utent userid chatid)
    (hbarred : ¬ s.LogsInBarred cfg u) :
    Permitted ⟨u, s,
      (s.setUser u (ChatUser.loggedIn flags cloak utent userid chatid)).tryEnter u 0 false⟩ := by
  refine (Ready.login hu hroom flags cloak utent userid chatid).entry H hlt (.inl rfl) fun h => ?_
  have hself : (s.setUser u (ChatUser.loggedIn flags cloak utent userid chatid)).users u =
    (s.users u).loggedIn flags cloak utent userid chatid := Hall.users_setUser ..
  refine .outside ?_ ?_
  · rw [hself]
    exact hroom
  · by_contra hop
    refine hbarred ⟨hroom, ?_⟩
    have hop := of_decide_eq_true (eq_true_of_ne_false hop)
    rw [hself] at hop
    split
    case h_1 msg' hline' =>
      cases hline.symm.trans hline'
      rw [hans]
      exact ⟨hop, h⟩
    case h_2 hother => exact hother msg hline

/-- A new connection. -/
theorem HallInv.permitted_accept (H : HallInv cfg used s) (hv : s.connected v = false) (fd : Nat)
    (host : Bytes) :
    Permitted ⟨v, s, { s.setUser v (ChatUser.connect fd host) with numConns := s.numConns + 1 }⟩ := by
  obtain ⟨s', hs'⟩ : ∃ s' : Hall, s' =
      { s.setUser v (ChatUser.connect fd host) with numConns := s.numConns + 1 } := ⟨_, rfl⟩
  rw [← hs']
  have hrooms : s'.rooms = s.rooms := by
    rw [hs']
    rfl
  refine H.permitted_users hrooms fun w => ?_
  by_cases hw : w = v
  · subst hw
    have hself : s'.users w = (s.users w).connect fd host := by
      rw [hs']
      exact Hall.users_setUser ..
    refine .inr ⟨fun _ => .outside ?_ ?_, fun h => ?_, fun h => ?_, fun r _ hinvite => ?_⟩
    · rw [hself]
      rfl
    · dsimp only
      rw [Hall.roomop, Hall.has, hself, show ((s.users w).connect fd host).flags = 0 from
        H.flags_gone w hv]
      rfl
    · exact absurd (hv.symm.trans h) Bool.false_ne_true
    · exact absurd (hv.symm.trans h) Bool.false_ne_true
    · dsimp only at hinvite
      rw [hrooms, H.invites w hv r] at hinvite
      cases hinvite
  · left
    rw [hs']
    exact Hall.users_setUser_ne _ _ hw

end

/-! ## Runs -/

/-- The move of a line. -/
def Execution.move (cfg : ChatConfig) (unum : Nat) (e : Execution) : Move where
  actor := unum
  before := e.chat.toHall
  after := (commandExecute cfg { e.chat with replies := [] } unum).1.toHall

/-- The moves of an event, in order. -/
def ChatServer.moves (cfg : ChatConfig) (s : ChatServer) : ChatEvent → List Move
  | .accept fd host =>
    match freeSlot cfg s.chat.toHall with
    | none => []
    | some i => [⟨i, s.chat.toHall, (s.chat.accept cfg i fd host).toHall⟩]
  | .recv unum chunk =>
    let p := processChatCommand cfg s.chat s.chatbuf unum chunk
    p.executions.map (Execution.move cfg unum) ++
      if p.rc = -1 then [⟨unum, p.chat.toHall, (logoutUser p.chat unum).toHall⟩] else []
  | .hangup unum =>
    let chat := exitRoom cfg { s.chat with replies := [] } unum .lostconn none
    [⟨unum, s.chat.toHall, (logoutUser chat unum).toHall⟩]

/-- A server, and all moves that it has made. -/
structure WatchedServer where
  server : ChatServer
  log : List Move

def WatchedServer.start (cfg : ChatConfig) : WatchedServer := ⟨.start cfg, []⟩

def WatchedServer.step (cfg : ChatConfig) (w : WatchedServer) (e : ChatEvent) :
    Option WatchedServer :=
  (w.server.step cfg e).map fun s => ⟨s, w.log ++ w.server.moves cfg e⟩

/-- What is known from a list of moves. -/
def ChatHistory.of (log : List Move) : ChatHistory := log.foldl ChatHistory.next .empty

/-- No line that is executed kicks its user out of the main room, gives or takes the right to talk
in another room, or is a login with the flag of an operator while the main room is locked. -/
def Proper (cfg : ChatConfig) (w : WatchedServer) : ChatEvent → Prop
  | .recv unum chunk =>
    ∀ e ∈ (processChatCommand cfg w.server.chat w.server.chatbuf unum chunk).executions,
      ¬ e.chat.KicksItself cfg unum ∧ ¬ e.chat.TalksAcross cfg unum ∧ ¬ e.chat.LogsInBarred cfg unum
  | _ => True

instance (cfg : ChatConfig) (w : WatchedServer) : (e : ChatEvent) → Decidable (Proper cfg w e)
  | .recv .. => inferInstanceAs (Decidable (∀ e ∈ _, ¬ _ ∧ ¬ _ ∧ ¬ _))
  | .accept .. | .hangup _ => isTrue trivial

/-- Every move of the list was permitted, and after it the rights were justified. -/
def Lawful (log : List Move) : Prop :=
  ∀ pre m post, log = pre ++ m :: post →
    Permitted m ∧ Justified ((ChatHistory.of pre).next m) m.after

section
variable {cfg : ChatConfig} {used : Nat → Bool} {s s' : Hall} {u v : Nat} {log : List Move}
  {h : ChatHistory}

theorem ChatHistory.of_snoc (log : List Move) (m : Move) : of (log ++ [m]) = (of log).next m := by
  rw [of, List.foldl_append]
  rfl

/-- One more move. -/
theorem Lawful.snoc (L : Lawful log) {m : Move} (J : Justified (.of log) m.before)
    (P : Permitted m) : Lawful (log ++ [m]) ∧ Justified (.of (log ++ [m])) m.after := by
  have hnext := J.next P
  refine ⟨fun pre m' post hsplit => ?_, ChatHistory.of_snoc log m ▸ hnext⟩
  rcases List.eq_nil_or_concat post with rfl | ⟨post, last, rfl⟩
  · obtain ⟨rfl, hm⟩ := List.append_inj' hsplit rfl
    cases hm
    exact ⟨P, hnext⟩
  · rw [List.concat_eq_append, ← List.cons_append, ← List.append_assoc] at hsplit
    exact L pre m' post (List.append_inj' hsplit rfl).1

/-- Rights depend on the connections, the rooms and the flags only. -/
theorem Justified.congr (J : Justified h s) (hrooms : s'.rooms = s.rooms)
    (husers : ∀ w, (s'.users w).sockfd = (s.users w).sockfd ∧ (s'.users w).room = (s.users w).room ∧
      (s'.users w).flags = (s.users w).flags) : Justified h s' := by
  have hconn : ∀ w, s'.connected w = s.connected w := fun w => by
    rw [Hall.connected, (husers w).1, Hall.connected]
  have hhas : ∀ w perm, s'.has w perm = s.has w perm := fun w perm => by
    rw [Hall.has, (husers w).2.2, Hall.has]
  refine ⟨fun w hw hsysop hroom hlocked => ?_, fun w hw hop => ?_, fun r hr w hinvite => ?_⟩
  · rw [(husers w).2.1] at hroom
    rw [(husers w).2.1, Hall.locked, Hall.roomHas, hrooms] at hlocked
    exact J.inside w ((hconn w).symm.trans hw) ((hhas w _).symm.trans hsysop) hroom hlocked
  · rw [(husers w).2.1]
    exact J.operator w ((hconn w).symm.trans hw) ((hhas w _).symm.trans hop)
  · rw [hrooms] at hinvite
    exact J.invites r hr w hinvite

theorem Justified.setUser (J : Justified h s) {f : ChatUser → ChatUser}
    (hf : ∀ w, (f w).sockfd = w.sockfd ∧ (f w).room = w.room ∧ (f w).flags = w.flags) :
    Justified h (s.setUser v f) := by
  refine J.congr rfl fun w => ?_
  by_cases hw : w = v
  · rw [hw, Hall.users_setUser]
    exact hf _
  · rw [Hall.users_setUser_ne _ _ hw]
    exact ⟨rfl, rfl, rfl⟩

/-- Everything that a line does is permitted. -/
theorem HallInv.permitted_line {s : Chat} (H : HallInv cfg used s.toHall) (hlt : u < cfg.maxActive)
    (hu : s.connected u = true) (htalk : ¬ s.TalksAcross cfg u) (hlogin : ¬ s.LogsInBarred cfg u) :
    Permitted ⟨u, s.toHall, (commandExecute cfg { s with replies := [] } u).1.toHall⟩ := by
  by_cases hroom : (s.users u).room = -1
  · rcases @commandExecute_outside cfg { s with replies := [] } u hu H.main hroom with
      hsame | ⟨msg, flags, cloak, utent, userid, chatid, hline, hans, hdone⟩
    · rw [hsame]
      exact H.permitted_nothing
    · rw [hdone]
      exact H.permitted_login hlt hu hroom hline hans hlogin
  · exact (H.execute hlt hu).1.permitted H hlt hu hroom htalk

/-- What holds of the tables with the moves made so far. -/
structure Watching (cfg : ChatConfig) (used : Nat → Bool) (s : Hall) (log : List Move) : Prop where
  hall : HallInv cfg used s
  justified : Justified (.of log) s
  lawful : Lawful log

theorem Watching.move (W : Watching cfg used s log) (P : Permitted ⟨u, s, s'⟩)
    {used' : Nat → Bool} (H : HallInv cfg used' s') : Watching cfg used' s' (log ++ [⟨u, s, s'⟩]) := by
  obtain ⟨hlawful, hjustified⟩ := @Lawful.snoc log W.lawful ⟨u, s, s'⟩ W.justified P
  exact ⟨H, hjustified, hlawful⟩

theorem Watching.setUser (W : Watching cfg used s log) (hv : s.connected v = true)
    {f : ChatUser → ChatUser}
    (hf : ∀ w, (f w).sockfd = w.sockfd ∧ (f w).room = w.room ∧ (f w).flags = w.flags) :
    Watching cfg used (s.setUser v f) log :=
  ⟨W.hall.setUser hv (hf _).1 (hf _).2.1, W.justified.setUser hf, W.lawful⟩

theorem Watching.line {s : Chat} (W : Watching cfg used s.toHall log) (hlt : u < cfg.maxActive)
    (hu : s.connected u = true) (htalk : ¬ s.TalksAcross cfg u) (hlogin : ¬ s.LogsInBarred cfg u)
    {e : Execution} (he : e.chat = s) :
    Watching cfg used (commandExecute cfg { s with replies := [] } u).1.toHall
      (log ++ [e.move cfg u]) := by
  subst he
  exact W.move (W.hall.permitted_line hlt hu htalk hlogin) (W.hall.execute hlt hu).2.1

theorem Hall.logout_leave (h : (s.users v).room = -1) : (s.leave v).logout v = s.logout v := by
  have hleave : s.leave v = s.setUser v ChatUser.outside := by
    unfold leave
    rw [if_neg (not_not.mpr h)]
  rw [hleave]
  simp [logout, setUser, Function.update_idem]

/-- The moves of a chunk. -/
theorem Watching.recv {s : ChatServer} {unum : Nat} {chunk : Bytes}
    (W : Watching cfg s.used s.chat.toHall log) (hstale : s.chat.stale = false)
    (hlt : unum < cfg.maxActive) (hu : s.chat.connected unum = true)
    (hok : Proper cfg ⟨s, log⟩ (.recv unum chunk)) {p : Processed}
    (hp : p = processChatCommand cfg s.chat s.chatbuf unum chunk) :
    let chat := if p.rc = -1 then logoutUser p.chat unum else p.chat
    Watching cfg s.used chat.toHall (log ++ s.moves cfg (.recv unum chunk)) ∧ chat.stale = false := by
  let P : Chat → List Execution → Prop := fun c es =>
    Reading cfg s.used unum c ∧ Watching cfg s.used c.toHall (log ++ es.map (Execution.move cfg unum))
  let Q : Chat → List Execution → Prop := fun c es => P c es ∧ (c.users unum).room = -1
  have hstart : P s.chat [] := by
    refine ⟨⟨W.hall, hstale, hu⟩, ?_⟩
    rw [List.map_nil, List.append_nil]
    exact W
  have hrun := @processChatLoop_trace_rule cfg unum P Q
    (fun c => ¬ c.KicksItself cfg unum ∧ ¬ c.TalksAcross cfg unum ∧ ¬ c.LogsInBarred cfg unum)
    ?_ ?_ chunk.length 0 s.chat (overlay s.chatbuf 0 chunk) [] hstart hok
  · dsimp only
    have hrun' : if p.rc = -1 then Q p.chat p.executions else P p.chat p.executions := by
      rw [hp]
      exact hrun
    have hmoves : s.moves cfg (.recv unum chunk) = p.executions.map (Execution.move cfg unum) ++
        if p.rc = -1 then [⟨unum, p.chat.toHall, (logoutUser p.chat unum).toHall⟩] else [] := by
      rw [hp]
      rfl
    rw [hmoves]
    by_cases hrc : p.rc = -1
    · rw [if_pos hrc] at hrun' ⊢
      obtain ⟨⟨hread, hwatch⟩, hroom⟩ := hrun'
      have hleaving : Leaving cfg s.used unum p.chat := ⟨hread, hroom⟩
      have hpermitted := @HallInv.permitted_logout cfg _ _ unum unum hread.hall hlt hread.here
      rw [Hall.logout_leave hroom] at hpermitted
      obtain ⟨hhall, hstale⟩ := hleaving.logout hlt
      rw [if_pos hrc, ← List.append_assoc]
      exact ⟨hwatch.move hpermitted hhall, hstale⟩
    · rw [if_neg hrc] at hrun' ⊢
      rw [if_neg hrc, List.append_nil]
      exact ⟨hrun'.2, hrun'.1.stale⟩
  · rintro c es b ⟨hread, hwatch⟩
    refine ⟨hread.add b, hwatch.setUser hread.here fun w => ?_⟩
    unfold ChatUser.add
    split <;> exact ⟨rfl, rfl, rfl⟩
  · rintro c es e ⟨hread, hwatch⟩ he ⟨hkick, htalk, hlogin⟩ s' rfl
    have hline := hread.line hlt hkick
    have hmoved := hwatch.line hlt hread.here htalk hlogin he
    have hmap : es.map (Execution.move cfg unum) ++ [e.move cfg unum] =
        (es ++ [e]).map (Execution.move cfg unum) := by
      rw [List.map_append]
      rfl
    rw [List.append_assoc, hmap] at hmoved
    split
    case isTrue hrc =>
      obtain ⟨-, -, -, hclosed⟩ := hread.hall.execute hlt hread.here
      obtain ⟨hroom, hsame⟩ := hclosed hrc
      refine ⟨⟨hline, hmoved⟩, ?_⟩
      rw [hsame]
      exact hroom
    case isFalse =>
      exact ⟨hline.set (fun _ => rfl) fun _ => rfl, hmoved.setUser hline.here fun _ => ⟨rfl, rfl, rfl⟩⟩

end

section
variable {cfg : ChatConfig} {w w' : WatchedServer} {e : ChatEvent}

theorem watching_start : Watching cfg (ChatServer.start cfg).used (Hall.start cfg) [] := by
  refine ⟨serverInv_start.hall, ⟨nofun, nofun, fun r _ v h => ?_⟩, fun pre m post h => ?_⟩
  · unfold Hall.start at h
    dsimp only at h
    split at h <;> cases h
  · exact absurd h (by simp)

/-- Every event keeps the log lawful. -/
theorem watching_step
    (W : Watching cfg w.server.used w.server.chat.toHall w.log ∧ w.server.chat.stale = false)
    (hok : Proper cfg w e) (h : w.step cfg e = some w') :
    Watching cfg w'.server.used w'.server.chat.toHall w'.log ∧ w'.server.chat.stale = false := by
  obtain ⟨W, hstale⟩ := W
  rw [WatchedServer.step, Option.map_eq_some_iff] at h
  obtain ⟨s', hs', rfl⟩ := h
  dsimp only
  cases e with
  | accept fd host =>
    unfold ChatServer.step at hs'
    unfold ChatServer.moves
    dsimp only at hs' ⊢
    cases hslot : freeSlot cfg w.server.chat.toHall with
    | none =>
      simp only [hslot] at hs' ⊢
      cases hs'
      rw [List.append_nil]
      exact ⟨W, hstale⟩
    | some i =>
      have hfree := List.find?_some hslot
      have hlt := List.mem_range.mp (List.mem_of_find?_eq_some hslot)
      have hv : w.server.chat.connected i = false := by simpa using hfree
      simp only [hslot] at hs' ⊢
      cases hs'
      exact ⟨W.move (W.hall.permitted_accept hv fd _) (W.hall.accept hlt hv fd _), hstale⟩
  | recv unum chunk =>
    unfold ChatServer.step at hs'
    dsimp only at hs'
    split at hs'
    case isTrue hrecv =>
      cases hs'
      exact W.recv hstale hrecv.1 hrecv.2.1 hok rfl
    case isFalse => cases hs'
  | hangup unum =>
    unfold ChatServer.step at hs'
    dsimp only at hs'
    split at hs'
    case isTrue hlost =>
      cases hs'
      have hleave : (exitRoom cfg { w.server.chat with replies := [] } unum .lostconn none).toHall =
          w.server.chat.toHall.leave unum := exitRoom_toHall
      have hconn : (exitRoom cfg { w.server.chat with replies := [] } unum .lostconn none).connected
          unum = true := by
        rw [hleave, Hall.connected_leave]
        exact hlost.2
      obtain ⟨hlogout, hquiet⟩ := logoutUser_spec hconn
      have hafter : (logoutUser (exitRoom cfg { w.server.chat with replies := [] } unum .lostconn none)
          unum).toHall = (w.server.chat.toHall.leave unum).logout unum := by
        rw [hlogout, hleave]
      refine ⟨?_, hquiet.trans (exitRoom_stale.trans hstale)⟩
      rw [ChatServer.moves, hafter]
      refine W.move (W.hall.permitted_logout hlost.1 hlost.2)
        ((W.hall.leave hlost.1 hlost.2).logout hlost.1 (Hall.connected_leave.trans hlost.2) ?_)
      rw [Hall.users_leave]
      rfl
    case isFalse => cases hs'

/-- In every run of the server whose lines are all proper, after each thing that the server does for
a user (a line executed, a connection taken or ended): a user who may not rule all rooms and is in a
locked room was in it when it was locked or has come in with an invitation that stood, an operator
is in the room in which he has become one, and the name, the topic and the flags of a room and the
right to talk of the users in it are only changed for one who rules the room. -/
theorem chat_rights (h : Reach (WatchedServer.step cfg) (Proper cfg) (.start cfg) w)
    {pre post : List Move} {m : Move} (hlog : w.log = pre ++ m :: post) :
    (∀ v, m.after.connected v = true → m.after.sysop v = false → (m.after.users v).room ≠ -1 →
      m.after.locked (m.after.users v).room = true →
      ((ChatHistory.of pre).next m).present v = true ∨
        ((ChatHistory.of pre).next m).invited v = true) ∧
    (∀ v, m.after.connected v = true → m.after.roomop v = true → (m.after.users v).room ≠ -1 ∧
      ((ChatHistory.of pre).next m).acquired v = (m.after.users v).room) ∧
    (∀ r : Nat, r = 0 ∨ (m.before.rooms r).occupants ≠ 0 →
      (m.after.rooms r).name = (m.before.rooms r).name ∧
        (m.after.rooms r).topic = (m.before.rooms r).topic ∧
        (m.after.rooms r).flags = (m.before.rooms r).flags ∨ m.before.rules m.actor r = true) ∧
    (∀ v, m.before.connected v = true → m.after.connected v = true → (m.before.users v).room ≠ -1 →
      m.after.cantalk v ≠ m.before.cantalk v →
      m.before.rules m.actor (m.before.users v).room = true) := by
  have W := h.invariant
    (fun w => Watching cfg w.server.used w.server.chat.toHall w.log ∧ w.server.chat.stale = false)
    ⟨watching_start, rfl⟩ fun _ _ _ W hok hstep => watching_step W hok hstep
  obtain ⟨P, J⟩ := W.1.lawful pre m post hlog
  refine ⟨J.inside, J.operator, fun r hr => ?_, fun v => (P.user v).talk⟩
  exact (P.room r (by omega)).rules (hr.imp_left fun h => by rw [h]; rfl)

/-- The operator of a new room locks it and invites a user, who comes in. -/
def inviteRun : List ChatEvent :=
  [.accept 5 [], .recv 0 (bytes "/!1 16 alice al 0\n"), .accept 6 [],
    .recv 1 (bytes "/!2 16 bob bo 0\n"), .recv 0 (bytes "/join x\n"), .recv 0 (bytes "/flags +l\n"),
    .recv 0 (bytes "/invite bo\n"), .recv 1 (bytes "/join x\n")]

theorem chat_rights_invited : ∃ (h : ChatHistory) (s : Hall), (s.users 1).room = 1 ∧
    s.locked 1 = true ∧ (h.present 1 = true ∨ h.invited 1 = true) := by
  obtain ⟨w, hw, hreach⟩ :=
    @Reach.of_meets _ _ (WatchedServer.step demoConfig) (Proper demoConfig) (.start demoConfig)
      inviteRun (by decide +kernel)
  have hend : (inviteRun.foldlM (WatchedServer.step demoConfig) (.start demoConfig)).map
      (fun w => w.log.getLast?.map fun m => (m.after.connected 1, m.after.sysop 1,
        (m.after.users 1).room, m.after.locked 1)) = some (some (true, false, 1, true)) := by
    decide +kernel
  rw [hw] at hend
  obtain ⟨m, hm, hend⟩ := Option.map_eq_some_iff.mp (Option.some.inj hend)
  obtain ⟨hconn, hend⟩ := Prod.mk.inj hend
  obtain ⟨hsysop, hend⟩ := Prod.mk.inj hend
  obtain ⟨hroom, hlocked⟩ := Prod.mk.inj hend
  obtain ⟨pre, hlog⟩ := List.getLast?_eq_some_iff.mp hm
  have hrights := (chat_rights hreach hlog).1 1 hconn hsysop
  rw [hroom] at hrights
  exact ⟨_, _, hroom, hlocked, hrights (by decide) hlocked⟩

/-- The operator of a new room gives a user in the main room the right to talk. -/
def talkAcrossRun : List ChatEvent :=
  [.accept 5 [], .recv 0 (bytes "/!1 16 alice al 0\n"), .accept 6 [],
    .recv 1 (bytes "/!2 16 bob bo 0\n"), .recv 0 (bytes "/join x\n"), .recv 0 (bytes "/talk bo\n")]

/-- The right of a user in the main room is changed for one who does not rule it. -/
theorem chat_rights_talkAcross : ∃ (w : WatchedServer) (pre : List Move) (m : Move),
    Reach (WatchedServer.step demoConfig) (fun _ _ => True) (.start demoConfig) w ∧
      w.log = pre ++ [m] ∧ m.before.connected 1 = true ∧ m.after.connected 1 = true ∧
      (m.before.users 1).room = 0 ∧ m.after.cantalk 1 ≠ m.before.cantalk 1 ∧
      m.before.rules m.actor 0 = false := by
  obtain ⟨w, hw, hreach⟩ :=
    @Reach.of_meets _ _ (WatchedServer.step demoConfig) (fun _ _ => True) (.start demoConfig)
      talkAcrossRun (by decide +kernel)
  have hend : (talkAcrossRun.foldlM (WatchedServer.step demoConfig) (.start demoConfig)).map
      (fun w => w.log.getLast?.map fun m => decide (m.before.connected 1 = true ∧
        m.after.connected 1 = true ∧ (m.before.users 1).room = 0 ∧
        m.after.cantalk 1 ≠ m.before.cantalk 1 ∧ m.before.rules m.actor 0 = false)) =
        some (some true) := by decide +kernel
  rw [hw] at hend
  obtain ⟨m, hm, hend⟩ := Option.map_eq_some_iff.mp (Option.some.inj hend)
  obtain ⟨pre, hlog⟩ := List.getLast?_eq_some_iff.mp hm
  exact ⟨w, pre, m, hreach, hlog, of_decide_eq_true hend⟩

end

end ArgoBbs

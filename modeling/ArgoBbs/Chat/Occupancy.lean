import ArgoBbs.Chat.Effects
import ArgoBbs.Lib.Slots

/-! # Who is in which room

The numbers of users that the server keeps for its rooms and for itself are those of the connections
in its slots, and a slot is left in order when its connection ends (`chat_counts`). An operator of
the main room who kicks himself goes on using the slot that he has been logged out of
(`chat_counts_off`). -/

namespace ArgoBbs

/-- The connections in the room. -/
def Hall.inRoom (cfg : ChatConfig) (s : Hall) (r : Int) : Nat :=
  countSlots cfg.maxActive fun u => s.connected u && (s.users u).room = r

/-- The connections. -/
def Hall.connections (cfg : ChatConfig) (s : Hall) : Nat := countSlots cfg.maxActive s.connected

/-- The tables agree with each other; `used` are the slots that have had a connection. -/
structure HallInv (cfg : ChatConfig) (used : Nat → Bool) (s : Hall) : Prop where
  occupants : ∀ r : Nat, r < maxRoom → (s.rooms r).occupants = s.inRoom cfg r
  room : ∀ u, s.connected u = true →
    (s.users u).room = -1 ∨ ∃ r : Nat, r < maxRoom ∧ (s.users u).room = r
  numConns : s.numConns = s.connections cfg
  gone : ∀ u, s.connected u = false → s.users u = if used u then .gone else .unused
  used : ∀ u, s.connected u = true → used u = true
  invites : ∀ u, s.connected u = false → ∀ r, (s.rooms r).invites u = false
  main : (s.rooms 0).name = mainroom

section
variable {cfg : ChatConfig} {used : Nat → Bool} {s s' : Hall} {u v : Nat} {r : Int}

/-- A user changes rooms. -/
theorem inRoom_update (hlt : v < cfg.maxActive) (hv : s.connected v = true)
    (hconn : ∀ w, s'.connected w = s.connected w) (hne : ∀ w, w ≠ v → s'.users w = s.users w)
    (r : Int) : s'.inRoom cfg r + (decide ((s.users v).room = r)).toNat =
      s.inRoom cfg r + (decide ((s'.users v).room = r)).toNat := by
  have h := @countSlots_update cfg.maxActive v (fun u => s.connected u && (s.users u).room = r)
    (fun u => s'.connected u && (s'.users u).room = r) hlt fun w hw => by rw [hconn w, hne w hw]
  rwa [hconn, hv, Bool.true_and, Bool.true_and] at h

theorem inRoom_congr (hconn : ∀ w, s'.connected w = s.connected w)
    (hroom : ∀ w, (s'.users w).room = (s.users w).room) (r : Int) :
    s'.inRoom cfg r = s.inRoom cfg r :=
  countSlots_congr fun w _ => by rw [hconn w, hroom w]

theorem connections_congr (hconn : ∀ w, s'.connected w = s.connected w) :
    s'.connections cfg = s.connections cfg :=
  countSlots_congr fun w _ => hconn w

/-- A change of a user's fields that leaves the connection and the room alone. -/
theorem HallInv.setUser (H : HallInv cfg used s) (hv : s.connected v = true)
    {f : ChatUser → ChatUser} (hsock : (f (s.users v)).sockfd = (s.users v).sockfd)
    (hroom : (f (s.users v)).room = (s.users v).room) : HallInv cfg used (s.setUser v f) := by
  have hrooms : ∀ w, ((s.setUser v f).users w).room = (s.users w).room := by
    intro w
    by_cases hw : w = v
    · rw [hw, Hall.users_setUser, hroom]
    · rw [Hall.users_setUser_ne _ _ hw]
  have hconn : ∀ w, (s.setUser v f).connected w = s.connected w := by
    intro w
    unfold Hall.connected
    by_cases hw : w = v
    · rw [hw, Hall.users_setUser, hsock]
    · rw [Hall.users_setUser_ne _ _ hw]
  constructor
  · intro r hr
    rw [inRoom_congr hconn hrooms]
    exact H.occupants r hr
  · intro w hw
    rw [hrooms]
    exact H.room w (hconn w ▸ hw)
  · rw [connections_congr hconn]
    exact H.numConns
  · intro w hw
    rw [hconn] at hw
    have hne : w ≠ v := by
      rintro rfl
      rw [hv] at hw
      cases hw
    rw [Hall.users_setUser_ne _ _ hne]
    exact H.gone w hw
  · exact fun w hw => H.used w (hconn w ▸ hw)
  · exact fun w hw => H.invites w (hconn w ▸ hw)
  · exact H.main

/-- A change of a room that leaves its users and its name alone, and invites nobody who is not
connected. -/
theorem HallInv.setRoom (H : HallInv cfg used s) {f : ChatRoom → ChatRoom}
    (hocc : (f (s.rooms r)).occupants = (s.rooms r).occupants)
    (hinv : ∀ w, s.connected w = false → (f (s.rooms r)).invites w = false)
    (hname : r = 0 → (f (s.rooms r)).name = (s.rooms r).name) :
    HallInv cfg used (s.setRoom r f) := by
  refine ⟨fun r' hr' => ?_, H.room, H.numConns, H.gone, H.used, fun w hw r' => ?_, ?_⟩
  · by_cases h : (r' : Int) = r
    · rw [h, Hall.rooms_setRoom, hocc, ← h]
      exact H.occupants r' hr'
    · rw [Hall.rooms_setRoom_ne _ _ h]
      exact H.occupants r' hr'
  · by_cases h : r' = r
    · rw [h, Hall.rooms_setRoom]
      exact hinv w hw
    · rw [Hall.rooms_setRoom_ne _ _ h]
      exact H.invites w hw r'
  · by_cases h : 0 = r
    · subst h
      rw [Hall.rooms_setRoom, hname rfl]
      exact H.main
    · rw [Hall.rooms_setRoom_ne _ _ h]
      exact H.main

/-- What a slot without a connection looks like stays as it is when connections and the other slots
do. -/
theorem HallInv.gone_of_ne (H : HallInv cfg used s) (hv : s.connected v = true)
    (hconn : ∀ w, s'.connected w = s.connected w) (hne : ∀ w, w ≠ v → s'.users w = s.users w)
    (hw : s'.connected u = false) : s'.users u = if used u then .gone else .unused := by
  rw [hconn] at hw
  rw [hne u fun h => ?_]
  · exact H.gone u hw
  · rw [h, hv] at hw
    cases hw

theorem HallInv.leave (H : HallInv cfg used s) (hlt : v < cfg.maxActive)
    (hv : s.connected v = true) : HallInv cfg used (s.leave v) := by
  have hconn : ∀ w, (s.leave v).connected w = s.connected w := fun w => Hall.connected_leave
  have hne : ∀ w, w ≠ v → (s.leave v).users w = s.users w := fun w hw => Hall.users_leave_ne _ _ hw
  constructor
  · intro r hr
    have hcount := inRoom_update hlt hv hconn hne r
    have hout : (decide (((s.leave v).users v).room = (r : Int))).toNat = 0 := by
      rw [Hall.users_leave]
      simp [ChatUser.outside]
    have hocc := H.occupants r hr
    rw [Hall.rooms_leave]
    by_cases hroom : (r : Int) = (s.users v).room
    · rw [if_pos ⟨hroom, by omega⟩]
      change (s.rooms r).occupants - 1 = _
      rw [hout, ← hroom, decide_eq_true rfl] at hcount
      simp only [Bool.toNat_true] at hcount
      omega
    · rw [if_neg fun h => hroom h.1]
      rw [hout, decide_eq_false (Ne.symm hroom)] at hcount
      simp only [Bool.toNat_false] at hcount
      omega
  · intro w hw
    by_cases h : w = v
    · rw [h, Hall.users_leave]
      exact .inl rfl
    · rw [hne w h]
      exact H.room w (hconn w ▸ hw)
  · rw [connections_congr hconn, ← H.numConns]
    unfold Hall.leave
    split <;> rfl
  · exact fun w hw => H.gone_of_ne hv hconn hne hw
  · exact fun w hw => H.used w (hconn w ▸ hw)
  · intro w hw r
    rw [Hall.rooms_leave]
    split
    · exact H.invites w (hconn w ▸ hw) r
    · exact H.invites w (hconn w ▸ hw) r
  · rw [Hall.name_leave]
    exact H.main

theorem HallInv.seat (H : HallInv cfg used s) (hlt : v < cfg.maxActive)
    (hv : s.connected v = true) (hout : (s.users v).room = -1) {r : Nat} (hr : r < maxRoom)
    (op : Bool) : HallInv cfg used (s.seat v r op) := by
  have hconn : ∀ w, (s.seat v r op).connected w = s.connected w := fun w => Hall.connected_seat
  have hne : ∀ w, w ≠ v → (s.seat v r op).users w = s.users w := fun w hw => Hall.users_seat_ne _ _ _ hw
  constructor
  · intro r' hr'
    have hcount := inRoom_update hlt hv hconn hne r'
    have hbefore : (decide ((s.users v).room = (r' : Int))).toNat = 0 := by
      rw [hout]
      simp
    have hocc := H.occupants r' hr'
    have hin : ((s.seat v r op).users v).room = r := by
      rw [Hall.users_seat]
      rfl
    rw [hbefore, hin] at hcount
    by_cases h : (r' : Int) = r
    · rw [h, Hall.rooms_seat]
      change (s.rooms r).occupants + 1 = _
      rw [h, decide_eq_true rfl] at hcount
      rw [h] at hocc
      simp only [Bool.toNat_true] at hcount
      omega
    · rw [Hall.rooms_seat_ne _ _ _ h]
      rw [decide_eq_false (Ne.symm h)] at hcount
      simp only [Bool.toNat_false] at hcount
      omega
  · intro w hw
    by_cases h : w = v
    · rw [h, Hall.users_seat]
      exact .inr ⟨r, hr, rfl⟩
    · rw [hne w h]
      exact H.room w (hconn w ▸ hw)
  · rw [connections_congr hconn]
    exact H.numConns
  · exact fun w hw => H.gone_of_ne hv hconn hne hw
  · exact fun w hw => H.used w (hconn w ▸ hw)
  · intro w hw r'
    have hinv := H.invites w (hconn w ▸ hw)
    by_cases h : r' = r
    · rw [h, Hall.rooms_seat]
      change Function.update (s.rooms r).invites v false w = false
      rw [Function.update_apply]
      split
      · rfl
      · exact hinv r
    · rw [Hall.rooms_seat_ne _ _ _ h]
      exact hinv r'
  · unfold Hall.seat
    rw [Hall.name_setRoom (ChatRoom.entered v) fun _ => rfl]
    exact H.main

theorem HallInv.logout (H : HallInv cfg used s) (hlt : v < cfg.maxActive)
    (hv : s.connected v = true) (hout : (s.users v).room = -1) : HallInv cfg used (s.logout v) := by
  have hself : (s.logout v).users v = .gone := Function.update_self ..
  have hne : ∀ w, w ≠ v → (s.logout v).users w = s.users w := fun w hw => Function.update_of_ne hw ..
  have hconn : ∀ w, w ≠ v → (s.logout v).connected w = s.connected w := by
    intro w hw
    rw [Hall.connected, hne w hw, Hall.connected]
  have hgone : (s.logout v).connected v = false := by
    rw [Hall.connected, hself]
    rfl
  have hof : ∀ w, (s.logout v).connected w = true → w ≠ v ∧ s.connected w = true := by
    intro w hw
    have h : w ≠ v := by
      rintro rfl
      rw [hgone] at hw
      cases hw
    exact ⟨h, hconn w h ▸ hw⟩
  constructor
  · intro r hr
    have hcount := @countSlots_update cfg.maxActive v
      (fun u => s.connected u && (s.users u).room = (r : Int))
      (fun u => (s.logout v).connected u && ((s.logout v).users u).room = (r : Int)) hlt
      fun w hw => by rw [hconn w hw, hne w hw]
    have hnot : ¬ (s.users v).room = (r : Int) := by
      rw [hout]
      omega
    rw [hgone, hv, Bool.false_and, Bool.true_and, decide_eq_false hnot] at hcount
    rw [show ((s.logout v).rooms r).occupants = (s.rooms r).occupants from rfl, H.occupants r hr]
    exact congrArg Int.ofNat hcount.symm
  · intro w hw
    obtain ⟨h, hw⟩ := hof w hw
    rw [hne w h]
    exact H.room w hw
  · have hcount := @countSlots_update cfg.maxActive v s.connected (s.logout v).connected hlt hconn
    rw [hgone, hv] at hcount
    change s.numConns - 1 = _
    rw [H.numConns]
    unfold Hall.connections
    simp only [Bool.toNat_true, Bool.toNat_false] at hcount
    omega
  · intro w hw
    by_cases h : w = v
    · rw [h, hself, H.used v hv]
      rfl
    · rw [hne w h]
      exact H.gone w (hconn w h ▸ hw)
  · intro w hw
    exact H.used w (hof w hw).2
  · intro w hw r
    change Function.update (s.rooms r).invites v false w = false
    rw [Function.update_apply]
    split
    · rfl
    case isFalse h => exact H.invites w (hconn w h ▸ hw) r
  · exact H.main

theorem HallInv.tryEnter (H : HallInv cfg used s) (hlt : v < cfg.maxActive)
    (hv : s.connected v = true) {r : Nat} (hr : r < maxRoom) (op : Bool) :
    HallInv cfg used (s.tryEnter v r op) := by
  unfold Hall.tryEnter
  split
  · exact H
  · have hout : ((s.leave v).users v).room = -1 := by
      rw [Hall.users_leave]
      rfl
    exact (H.leave hlt hv).seat hlt (Hall.connected_leave.trans hv) hout hr op

/-- A new connection takes a free slot. -/
theorem HallInv.accept (H : HallInv cfg used s) (hlt : v < cfg.maxActive)
    (hv : s.connected v = false) (fd : Nat) (host : Bytes) :
    HallInv cfg (Function.update used v true)
      { s.setUser v (ChatUser.connect fd host) with numConns := s.numConns + 1 } := by
  obtain ⟨s', hs'⟩ : ∃ s' : Hall, s' =
      { s.setUser v (ChatUser.connect fd host) with numConns := s.numConns + 1 } := ⟨_, rfl⟩
  rw [← hs']
  have hself : s'.users v = (s.users v).connect fd host := by
    rw [hs']
    exact Hall.users_setUser ..
  have hne : ∀ w, w ≠ v → s'.users w = s.users w := by
    intro w hw
    rw [hs']
    exact Hall.users_setUser_ne _ _ hw
  have hrooms : s'.rooms = s.rooms := hs' ▸ rfl
  have hconn : ∀ w, w ≠ v → s'.connected w = s.connected w := by
    intro w hw
    rw [Hall.connected, hne w hw, Hall.connected]
  have hhere : s'.connected v = true := by
    rw [Hall.connected, hself]
    exact decide_eq_true (show (fd : Int) ≠ -1 by omega)
  have hof : ∀ w, s'.connected w = false → w ≠ v ∧ s.connected w = false := by
    intro w hw
    have h : w ≠ v := by
      rintro rfl
      rw [hhere] at hw
      cases hw
    exact ⟨h, hconn w h ▸ hw⟩
  constructor
  · intro r hr
    have hcount := @countSlots_update cfg.maxActive v
      (fun u => s.connected u && (s.users u).room = (r : Int))
      (fun u => s'.connected u && (s'.users u).room = (r : Int)) hlt
      fun w hw => by rw [hconn w hw, hne w hw]
    have hnot : ¬ ((s.users v).connect fd host).room = (r : Int) := by
      change ¬ (-1 : Int) = r
      omega
    rw [hhere, hself, hv, Bool.false_and, Bool.true_and, decide_eq_false hnot] at hcount
    rw [hrooms, H.occupants r hr]
    exact congrArg Int.ofNat hcount.symm
  · intro w hw
    by_cases h : w = v
    · rw [h, hself]
      exact .inl rfl
    · rw [hne w h]
      exact H.room w (hconn w h ▸ hw)
  · have hcount := @countSlots_update cfg.maxActive v s.connected s'.connected hlt hconn
    rw [hhere, hv] at hcount
    rw [show s'.numConns = s.numConns + 1 from hs' ▸ rfl, H.numConns]
    unfold Hall.connections
    simp only [Bool.toNat_true, Bool.toNat_false] at hcount
    omega
  · intro w hw
    obtain ⟨h, hw⟩ := hof w hw
    rw [hne w h, Function.update_of_ne h]
    exact H.gone w hw
  · intro w hw
    rw [Function.update_apply]
    split
    · rfl
    case isFalse h => exact H.used w (hconn w h ▸ hw)
  · intro w hw r
    rw [hrooms]
    exact H.invites w (hof w hw).2 r
  · rw [hrooms]
    exact H.main

/-- Every line keeps the tables in order. -/
theorem HallInv.line (H : HallInv cfg used s) (hlt : u < cfg.maxActive)
    (hu : s.connected u = true) (h : LineEffect cfg s u s') : HallInv cfg used s' := by
  cases h with
  | nothing => exact H
  | own hkeep _ => exact H.setUser hu hkeep.sockfd hkeep.room
  | rule _ hkeep =>
    exact H.setRoom hkeep.occupants (fun w hw => hkeep.invites ▸ H.invites w hw _) fun _ => hkeep.name
  | talk _ hname _ => exact H.setUser hname.spec.2 rfl rfl
  | @operator v _ hname _ _ =>
    have hdrop : HallInv cfg used (s.setUser u ChatUser.dropOp) := H.setUser hu rfl rfl
    have hv : (s.setUser u ChatUser.dropOp).connected v = true :=
      (Hall.connected_setUser ChatUser.dropOp fun _ => rfl).trans hname.spec.2
    exact hdrop.setUser hv rfl rfl
  | @invite v _ hname =>
    refine H.setRoom rfl (fun w hw => ?_) fun _ => rfl
    have hne : w ≠ v := by
      rintro rfl
      rw [hname.spec.2] at hw
      cases hw
    exact (Function.update_of_ne hne ..).trans (H.invites w hw _)
  | bye => exact H.leave hlt hu
  | join hr _ => exact H.tryEnter hlt hu hr false
  | @create r room _ hpos hr _ =>
    have hcreate : HallInv cfg used (s.setRoom r (ChatRoom.create cfg room)) :=
      H.setRoom rfl (fun _ _ => rfl) fun h => absurd h (by omega)
    exact hcreate.tryEnter hlt hu hr true
  | kick _ hname _ _ =>
    obtain ⟨hltv, hv⟩ := hname.spec
    exact (H.leave hltv hv).tryEnter hltv (Hall.connected_leave.trans hv) (by decide : 0 < maxRoom) false
  | kickOut _ hname _ _ =>
    obtain ⟨hltv, hv⟩ := hname.spec
    refine (H.leave hltv hv).logout hltv (Hall.connected_leave.trans hv) ?_
    rw [Hall.users_leave]
    rfl
  | @login flags cloak utent userid chatid _ _ _ _ =>
    have hlogin : HallInv cfg used
        (s.setUser u (ChatUser.loggedIn flags cloak utent userid chatid)) := H.setUser hu rfl rfl
    have hconn : (s.setUser u (ChatUser.loggedIn flags cloak utent userid chatid)).connected u =
        true := (Hall.connected_setUser (ChatUser.loggedIn _ _ _ _ _) fun _ => rfl).trans hu
    exact hlogin.tryEnter hlt hconn (by decide : 0 < maxRoom) false

/-! ## Connections -/

/-- The line in the input buffer is a kick of its own user out of the main room. -/
def Hall.KicksItself (cfg : ChatConfig) (s : Hall) (u : Nat) : Prop :=
  s.mayRule u = true ∧ s.Names u u cfg .kick ∧ (s.users u).room = 0

instance : Decidable (s.KicksItself cfg u) := inferInstanceAs (Decidable (_ ∧ _ ∧ _))

theorem Hall.connected_tryEnter {op : Bool} : (s.tryEnter v r op).connected u = s.connected u := by
  unfold tryEnter
  split
  · rfl
  · exact connected_seat.trans connected_leave

/-- Lines open no connection and change no slot without one, and they close only the connection of a
user kicked out of the main room. -/
theorem LineEffect.connected (h : LineEffect cfg s u s') (w : Nat) :
    s'.connected w = s.connected w ∨
      s'.users w = .gone ∧ s.connected w = true ∧ (w = u → s.KicksItself cfg u) := by
  cases h with
  | nothing => exact .inl rfl
  | @own f hkeep _ =>
    left
    unfold Hall.connected
    by_cases hw : w = u
    · rw [hw, Hall.users_setUser, hkeep.sockfd]
    · rw [Hall.users_setUser_ne _ _ hw]
  | rule => exact .inl rfl
  | talk => exact .inl (Hall.connected_setUser (ChatUser.toggle _) fun _ => rfl)
  | operator =>
    exact .inl ((Hall.connected_setUser ChatUser.takeOp fun _ => rfl).trans
      (Hall.connected_setUser ChatUser.dropOp fun _ => rfl))
  | invite => exact .inl rfl
  | bye => exact .inl Hall.connected_leave
  | join => exact .inl Hall.connected_tryEnter
  | create => exact .inl Hall.connected_tryEnter
  | kick => exact .inl (Hall.connected_tryEnter.trans Hall.connected_leave)
  | @kickOut v hrule hname hzero _ =>
    by_cases hw : w = v
    · subst hw
      refine .inr ⟨Function.update_self .., hname.spec.2, ?_⟩
      rintro rfl
      exact ⟨hrule, hname, hzero⟩
    · have hsame : ((s.leave v).logout v).users w = s.users w :=
        (Function.update_of_ne hw ..).trans (Hall.users_leave_ne _ _ hw)
      exact .inl (by rw [Hall.connected, hsame, Hall.connected])
  | login =>
    exact .inl (Hall.connected_tryEnter.trans
      (Hall.connected_setUser (ChatUser.loggedIn _ _ _ _ _) fun _ => rfl))

/-! ## What lines keep of the users -/

section
variable {α : Type} {p : ChatUser → α} {w : Nat} {op : Bool}

theorem Hall.field_setUser {f : ChatUser → ChatUser} (hf : ∀ x, p (f x) = p x) :
    p ((s.setUser v f).users w) = p (s.users w) := by
  by_cases h : w = v
  · rw [h, users_setUser, hf]
  · rw [users_setUser_ne _ _ h]

variable (hp : ∀ (x : ChatUser) room flags, p { x with room, flags } = p x)
include hp

theorem Hall.field_leave : p ((s.leave v).users w) = p (s.users w) := by
  unfold leave
  split
  · exact field_setUser fun x => hp x _ _
  · exact field_setUser fun x => hp x _ _

theorem Hall.field_tryEnter : p ((s.tryEnter v r op).users w) = p (s.users w) := by
  unfold tryEnter
  split
  · rfl
  · exact (field_setUser fun x => hp x _ _).trans (field_leave hp)

/-- A line changes nothing of a user but the room and the flags, unless it is the user's own. -/
theorem LineEffect.field (h : LineEffect cfg s u s') (hconn : s'.connected w = true) :
    s.connected w = true ∧ (p (s'.users w) = p (s.users w) ∨
      w = u ∧ ((∃ f : ChatUser → ChatUser,
          NameAccepted cfg s u (f (s.users u)).chatid ∧ s'.users u = f (s.users u)) ∨
        ∃ msg flags cloak utent userid chatid, (s.users u).room = -1 ∧
          (s.users u).line = 47 :: 33 :: msg ∧
          loginAnswer cfg s u msg = .ok flags cloak utent userid chatid ∧
          p (s'.users u) = p ((s.users u).loggedIn flags cloak utent userid chatid))) := by
  have hbefore : s.connected w = true := by
    rcases h.connected w with hsame | ⟨hgone, hbefore, -⟩
    · rw [← hsame, hconn]
    · exact hbefore
  refine ⟨hbefore, ?_⟩
  cases h with
  | nothing => exact .inl rfl
  | @own f _ hname =>
    by_cases hw : w = u
    · exact .inr ⟨hw, .inl ⟨f, hname, Hall.users_setUser ..⟩⟩
    · exact .inl (by rw [Hall.users_setUser_ne _ _ hw])
  | rule => exact .inl rfl
  | talk => exact .inl (Hall.field_setUser fun x => hp x _ _)
  | operator =>
    exact .inl ((Hall.field_setUser fun x => hp x _ _).trans (Hall.field_setUser fun x => hp x _ _))
  | invite => exact .inl rfl
  | bye => exact .inl (Hall.field_leave hp)
  | join => exact .inl (Hall.field_tryEnter hp)
  | create => exact .inl (Hall.field_tryEnter hp)
  | kick => exact .inl ((Hall.field_tryEnter hp).trans (Hall.field_leave hp))
  | @kickOut v =>
    have hv : w ≠ v := by
      rintro rfl
      rw [Hall.connected, show ((s.leave w).logout w).users w = .gone from Function.update_self ..]
        at hconn
      cases hconn
    exact .inl ((congrArg p (Function.update_of_ne hv ..)).trans (Hall.field_leave hp))
  | @login flags cloak utent userid chatid msg hroom hline hans =>
    by_cases hw : w = u
    · subst hw
      refine .inr ⟨rfl, .inr ⟨msg, flags, cloak, utent, userid, chatid, hroom, hline, hans, ?_⟩⟩
      exact (Hall.field_tryEnter hp).trans (congrArg p (Hall.users_setUser ..))
    · exact .inl ((Hall.field_tryEnter hp).trans (by rw [Hall.users_setUser_ne _ _ hw]))

end

end

/-! ## Runs of the server -/

section
variable {cfg : ChatConfig} {used : Nat → Bool} {s : Chat} {u : Nat}

theorem HallInv.flags_gone {s : Hall} (H : HallInv cfg used s) (i : Nat)
    (hi : s.connected i = false) : (s.users i).flags = 0 := by
  rw [H.gone i hi]
  split <;> rfl

/-- What executing a line of a user with a connection keeps. -/
theorem HallInv.execute (H : HallInv cfg used s.toHall) (hlt : u < cfg.maxActive)
    (hu : s.connected u = true) :
    LineEffect cfg s.toHall u (commandExecute cfg { s with replies := [] } u).1.toHall ∧
      HallInv cfg used (commandExecute cfg { s with replies := [] } u).1.toHall ∧
      (commandExecute cfg { s with replies := [] } u).1.stale = s.stale ∧
      ((commandExecute cfg { s with replies := [] } u).2 = -1 → (s.users u).room = -1 ∧
        (commandExecute cfg { s with replies := [] } u).1.toHall = s.toHall) := by
  obtain ⟨hdoes, hclosed⟩ :=
    @commandExecute_spec cfg { s with replies := [] } u hu H.main fun i => H.flags_gone i
  exact ⟨hdoes.effect, H.line hlt hu hdoes.effect, hdoes.stale, hclosed⟩

/-- What holds while the bytes of a user with a connection are read. -/
structure Reading (cfg : ChatConfig) (used : Nat → Bool) (u : Nat) (s : Chat) : Prop where
  hall : HallInv cfg used s.toHall
  stale : s.stale = false
  here : s.connected u = true

theorem Reading.set (H : Reading cfg used u s) {f : ChatUser → ChatUser}
    (hsock : ∀ w, (f w).sockfd = w.sockfd) (hroom : ∀ w, (f w).room = w.room) :
    Reading cfg used u ((s.use u).setUser u f) :=
  ⟨H.hall.setUser H.here (hsock _) (hroom _), (Quiet.refl.use H.here).stale.trans H.stale,
    (Hall.connected_setUser f hsock).trans H.here⟩

theorem Reading.add (H : Reading cfg used u s) (c : UInt8) :
    Reading cfg used u ((s.use u).setUser u (ChatUser.add c)) := by
  refine H.set (fun w => ?_) fun w => ?_
  · unfold ChatUser.add
    split <;> rfl
  · unfold ChatUser.add
    split <;> rfl

/-- A line that is not a kick of the user by himself out of the main room leaves the connection. -/
theorem Reading.line (H : Reading cfg used u s) (hlt : u < cfg.maxActive)
    (hkick : ¬ s.KicksItself cfg u) :
    Reading cfg used u (commandExecute cfg { s with replies := [] } u).1 := by
  obtain ⟨heffect, hhall, hstale, -⟩ := H.hall.execute hlt H.here
  refine ⟨hhall, hstale.trans H.stale, ?_⟩
  rcases heffect.connected u with h | ⟨-, -, h⟩
  · exact h.trans H.here
  · exact absurd (h rfl) hkick

/-- Before `logout_user` the user has no room. -/
def Leaving (cfg : ChatConfig) (used : Nat → Bool) (u : Nat) (s : Chat) : Prop :=
  Reading cfg used u s ∧ (s.users u).room = -1

theorem Leaving.logout (H : Leaving cfg used u s) (hlt : u < cfg.maxActive) :
    HallInv cfg used (logoutUser s u).toHall ∧ (logoutUser s u).stale = false := by
  obtain ⟨htoHall, hstale⟩ := logoutUser_spec H.1.here
  exact ⟨htoHall ▸ H.1.hall.logout hlt H.1.here H.2, hstale.trans H.1.stale⟩

end

/-- No line that is executed kicks its user out of the main room. -/
def NoSelfKick (cfg : ChatConfig) (s : ChatServer) : ChatEvent → Prop
  | .recv unum chunk => ∀ e ∈ (processChatCommand cfg s.chat s.chatbuf unum chunk).executions,
    ¬ e.chat.KicksItself cfg unum
  | _ => True

instance (cfg : ChatConfig) (s : ChatServer) : (e : ChatEvent) → Decidable (NoSelfKick cfg s e)
  | .recv .. => inferInstanceAs (Decidable (∀ e ∈ _, ¬ _))
  | .accept .. | .hangup _ => isTrue trivial

structure ServerInv (cfg : ChatConfig) (s : ChatServer) : Prop where
  hall : HallInv cfg s.used s.chat.toHall
  stale : s.chat.stale = false

section
variable {cfg : ChatConfig} {s s' : ChatServer} {e : ChatEvent}

theorem serverInv_start : ServerInv cfg (.start cfg) := by
  have hzero : ∀ r : Int, ((Hall.start cfg).rooms r).occupants = 0 ∧
      ∀ w, ((Hall.start cfg).rooms r).invites w = false := by
    intro r
    unfold Hall.start
    dsimp only
    split
    · exact ⟨rfl, fun _ => rfl⟩
    · exact ⟨rfl, fun _ => rfl⟩
  refine ⟨⟨fun r _ => ?_, nofun, ?_, fun _ _ => rfl, nofun, fun w _ r => (hzero r).2 w, rfl⟩, rfl⟩
  · exact (hzero r).1.trans (congrArg Int.ofNat (countSlots_zero fun i _ => rfl).symm)
  · exact congrArg Int.ofNat (countSlots_zero fun i _ => rfl).symm

theorem processChatCommand_reading {unum : Nat} {chunk : Bytes} (H : ServerInv cfg s)
    (hlt : unum < cfg.maxActive) (hu : s.chat.connected unum = true)
    (hok : NoSelfKick cfg s (.recv unum chunk)) :
    if (processChatCommand cfg s.chat s.chatbuf unum chunk).rc = -1 then
      Leaving cfg s.used unum (processChatCommand cfg s.chat s.chatbuf unum chunk).chat
    else Reading cfg s.used unum (processChatCommand cfg s.chat s.chatbuf unum chunk).chat := by
  refine @processChatLoop_rule cfg unum (Reading cfg s.used unum) (Leaving cfg s.used unum)
    (fun c => ¬ c.KicksItself cfg unum) (fun c b h => h.add b) ?_ _ _ _ _ ⟨H.hall, H.stale, hu⟩ hok
  rintro c hc hkick s' rfl
  have hline := hc.line hlt hkick
  obtain ⟨-, -, -, hclosed⟩ := hc.hall.execute hlt hc.here
  split
  case isTrue hrc =>
    obtain ⟨hroom, hsame⟩ := hclosed hrc
    refine ⟨hline, ?_⟩
    rw [hsame]
    exact hroom
  case isFalse => exact hline.set (fun _ => rfl) fun _ => rfl

/-- Every event keeps the tables in order. -/
theorem ServerInv.step (H : ServerInv cfg s) (hok : NoSelfKick cfg s e)
    (h : s.step cfg e = some s') : ServerInv cfg s' := by
  cases e with
  | accept fd host =>
    unfold ChatServer.step at h
    dsimp only at h
    split at h
    case h_1 => cases h; exact H
    case h_2 i hi =>
      cases h
      have hfree := List.find?_some hi
      have hlt := List.mem_range.mp (List.mem_of_find?_eq_some hi)
      exact ⟨H.hall.accept hlt (by simpa using hfree) fd _, H.stale⟩
  | recv unum chunk =>
    unfold ChatServer.step at h
    dsimp only at h
    split at h
    case isTrue hrecv =>
      cases h
      have hread := processChatCommand_reading H hrecv.1 hrecv.2.1 hok
      split at hread
      case isTrue hrc =>
        obtain ⟨hhall, hstale⟩ := hread.logout hrecv.1
        exact ⟨(if_pos hrc).symm ▸ hhall, (if_pos hrc).symm ▸ hstale⟩
      case isFalse hrc =>
        exact ⟨(if_neg hrc).symm ▸ hread.hall, (if_neg hrc).symm ▸ hread.stale⟩
    case isFalse => cases h
  | hangup unum =>
    unfold ChatServer.step at h
    dsimp only at h
    split at h
    case isTrue hlost =>
      cases h
      have hleave : Leaving cfg s.used unum
          (exitRoom cfg { s.chat with replies := [] } unum .lostconn none) := by
        refine ⟨⟨?_, exitRoom_stale.trans H.stale, ?_⟩, ?_⟩
        · rw [exitRoom_toHall]
          exact H.hall.leave hlost.1 hlost.2
        · rw [exitRoom_toHall]
          exact Hall.connected_leave.trans hlost.2
        · rw [exitRoom_toHall, Hall.users_leave]
          rfl
      obtain ⟨hhall, hstale⟩ := hleave.logout hlost.1
      exact ⟨hhall, hstale⟩
    case isFalse => cases h

/-- In every run of the server in which no user kicks himself out of the main room, after each
event: the occupants of every room are the connected users in it, every connected user is in a room
of the table or in none, the number of connections is that of the slots with a socket, a slot whose
connection has ended has no room, no slot without a connection has an invitation, and no slot has
been logged out or used without a connection. -/
theorem chat_counts (h : Reach (ChatServer.step cfg) (NoSelfKick cfg) (.start cfg) s) :
    (∀ r : Nat, r < maxRoom → (s.chat.rooms r).occupants =
      (countSlots cfg.maxActive fun u => s.chat.connected u && (s.chat.users u).room = r : Nat)) ∧
    (∀ u, s.chat.connected u = true →
      (s.chat.users u).room = -1 ∨ 0 ≤ (s.chat.users u).room ∧ (s.chat.users u).room < maxRoom) ∧
    s.chat.numConns = (countSlots cfg.maxActive s.chat.connected : Nat) ∧
    (∀ u, s.chat.connected u = false → (s.used u = true → (s.chat.users u).room = -1) ∧
      ∀ r, (s.chat.rooms r).invites u = false) ∧
    s.chat.stale = false := by
  have H : ServerInv cfg s :=
    h.invariant (ServerInv cfg) serverInv_start fun _ _ _ H hok hstep => H.step hok hstep
  refine ⟨H.hall.occupants, fun u hu => ?_, H.hall.numConns, fun u hu => ⟨fun hused => ?_, ?_⟩,
    H.stale⟩
  · rcases H.hall.room u hu with hroom | ⟨r, hr, hroom⟩
    · exact .inl hroom
    · rw [hroom]
      exact .inr ⟨by omega, by omega⟩
  · rw [H.hall.gone u hu, hused]
    rfl
  · exact H.hall.invites u hu

/-- Two users come; the first one, who may rule all rooms, kicks the second one out. -/
def kickOtherRun : List ChatEvent :=
  [.accept 5 [], .recv 0 (bytes "/!1 16384 alice al 0\n"), .accept 6 [],
    .recv 1 (bytes "/!2 16 bob bo 0\n"), .recv 0 (bytes "/kick bo\nhello\n")]

theorem chat_counts_kickOther : ∃ s : ChatServer,
    s.chat.numConns = (countSlots 40 s.chat.connected : Nat) ∧ s.chat.numConns = 1 := by
  obtain ⟨s, hs, hreach⟩ :=
    @Reach.of_meets _ _ (ChatServer.step demoConfig) (NoSelfKick demoConfig) (.start demoConfig)
      kickOtherRun (by decide +kernel)
  have hnum : (kickOtherRun.foldlM (ChatServer.step demoConfig) (.start demoConfig)).map
      (fun s => s.chat.numConns) = some 1 := by decide +kernel
  rw [hs] at hnum
  exact ⟨s, (chat_counts hreach).2.2.1, Option.some.inj hnum⟩

/-- A user alone in the main room kicks himself and sends one more line in the same chunk. -/
def kickItselfRun : List ChatEvent :=
  [.accept 5 [], .recv 0 (bytes "/!1 16384 alice al 0\n"), .recv 0 (bytes "/kick al\nhello\n")]

/-- The slot is used after its logout and logged out twice, and the number of connections is
wrong. -/
theorem chat_counts_off : ∃ s : ChatServer,
    Reach (ChatServer.step demoConfig) (fun _ _ => True) (.start demoConfig) s ∧
      s.chat.stale = true ∧ countSlots 40 s.chat.connected = 0 ∧ s.chat.numConns = -1 := by
  obtain ⟨s, hs, hreach⟩ :=
    @Reach.of_meets _ _ (ChatServer.step demoConfig) (fun _ _ => True) (.start demoConfig)
      kickItselfRun (by decide +kernel)
  have hend : (kickItselfRun.foldlM (ChatServer.step demoConfig) (.start demoConfig)).map
      (fun s => (s.chat.stale, countSlots 40 s.chat.connected, s.chat.numConns)) =
        some (true, 0, -1) := by decide +kernel
  rw [hs] at hend
  obtain ⟨hstale, hend⟩ := Prod.mk.inj (Option.some.inj hend)
  obtain ⟨hconn, hnum⟩ := Prod.mk.inj hend
  exact ⟨s, hreach, hstale, hconn, hnum⟩

end

end ArgoBbs

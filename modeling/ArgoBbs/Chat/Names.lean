import ArgoBbs.Chat.Rights

/-! # The names of users and rooms

No two users have the same chat id and no two rooms the same name, but for names that are compared
in full and stored cut, and for the ids of cloaked users where the test does not see them
(`chat_names`). `chat_rename` announces a name that it does not store. -/

namespace ArgoBbs

/-- There is a room with the number: the main room, or one with users. -/
def Hall.occupied (s : Hall) (r : Int) : Prop := r = 0 ∨ (s.rooms r).occupants ≠ 0

instance (s : Hall) (r : Int) : Decidable (s.occupied r) := inferInstanceAs (Decidable (_ ∨ _))

/-- The chat ids of the users who have logged in differ, the names of the rooms differ, whatever the
case, and `main` is the name of the main room. -/
structure Hall.DistinctNames (cfg : ChatConfig) (s : Hall) : Prop where
  users : ∀ u v, u < cfg.maxActive → v < cfg.maxActive → u ≠ v → s.connected u = true →
    s.connected v = true → (s.users u).chatid ≠ [] →
    strcasecmpEq (s.users u).chatid (s.users v).chatid = false
  rooms : ∀ r r' : Nat, r < maxRoom → r' < maxRoom → r ≠ r' → s.occupied r → s.occupied r' →
    strcasecmpEq (s.rooms r).name (s.rooms r').name = false
  main : roomidToIndx s mainroom = some 0

/-- The name that the line makes the server announce is the one that it stores. -/
def Chat.Announces (cfg : ChatConfig) (s : Chat) (u : Nat) : Prop :=
  let s' := (commandExecute cfg { s with replies := [] } u).1
  (s.users u).room ≠ -1 →
    match parseLine (s.users u).line with
    | .command .nick _ => ∀ r ∈ s'.replies, ∀ name, r.text = bytes "/n" ++ name →
      (s'.users u).chatid = name
    | .command .rname _ => ∀ r ∈ s'.replies, ∀ name, r.text = bytes "/r" ++ name →
      (s'.rooms (s'.users u).room).name = name
    | _ => True

/-- Another user has the chat id as it will be stored, and the test for it does not see that: the id
is longer than what is stored, or the other user is cloaked and slot 0 has the right to cloak. -/
def Hall.Overlooks (cfg : ChatConfig) (s : Hall) (u : Nat) (id : Bytes) : Prop :=
  ∃ v < cfg.maxActive, v ≠ u ∧ s.connected v = true ∧
    strcasecmpEq (id.take (chatIdLen - 1)) (s.users v).chatid = true ∧
    (chatIdLen - 1 < id.length ∨ (s.users v).cloak ≠ 0 ∧ s.cloak 0 = true)

instance (cfg : ChatConfig) (s : Hall) (u : Nat) (id : Bytes) : Decidable (s.Overlooks cfg u id) :=
  inferInstanceAs (Decidable (∃ _, _))

/-- A new room is opened under a name that is longer than what is stored, and another room, which
will still have users, has the name as it will be stored. -/
def Hall.CutsRoomName (s : Hall) (u : Nat) (room : Bytes) : Prop :=
  idLen - 1 < room.length ∧ roomidToIndx s room = none ∧ s.outsider u = false ∧
    ∃ r < maxRoom, s.occupied r ∧ strcasecmpEq (room.take (idLen - 1)) (s.rooms r).name = true ∧
      ¬ ((s.users u).room = r ∧ (s.rooms r).occupants = 1)

instance (s : Hall) (u : Nat) (room : Bytes) : Decidable (s.CutsRoomName u room) :=
  inferInstanceAs (Decidable (_ ∧ _ ∧ _ ∧ ∃ _, _))

/-- The line in the input buffer is a login or a change of the chat id that overlooks another user,
opens a room whose name is cut to that of another one, or renames a room. -/
def Hall.Misnames (cfg : ChatConfig) (s : Hall) (u : Nat) : Prop :=
  if (s.users u).room = -1 then
    match (s.users u).line with
    | 47 :: 33 :: msg =>
      match loginAnswer cfg s u msg with
      | .ok _ _ _ _ id => s.Overlooks cfg u id
      | _ => False
    | _ => False
  else
    match parseLine (s.users u).line with
    | .command .nick msg => s.Overlooks cfg u ((nextword msg).1.take (chatIdLen - 1))
    | .command .join msg => s.restricted u = false ∧ isValidChatid (nextword msg).1 = true ∧
      s.CutsRoomName u (nextword msg).1
    | .command .rname msg => s.mayRule u = true ∧ msg ≠ [] ∧
      msg.take (idLen - 1) ≠ (s.rooms (s.users u).room).name
    | _ => False

instance (cfg : ChatConfig) (s : Hall) (u : Nat) : Decidable (s.Misnames cfg u) := by
  unfold Hall.Misnames
  split
  · exact decideLogin cfg s u fun _ _ _ _ id => s.Overlooks cfg u id
  · split <;> infer_instance

section
variable {cfg : ChatConfig} {used : Nat → Bool} {s s' : Hall} {u v : Nat} {id a b c : Bytes}

/-- A test that finds nobody, or the user himself, and overlooks nobody: no other user has the id.
-/
theorem Hall.DistinctNames.unused (D : s.DistinctNames cfg) (hu : u < cfg.maxActive)
    (hconn : s.connected u = true) (hid : id ≠ [])
    (htest : chatidToIndx cfg s 0 id = none ∨ chatidToIndx cfg s 0 id = some u)
    (hsees : ¬ s.Overlooks cfg u id) (hv : v < cfg.maxActive) (hne : v ≠ u)
    (hvconn : s.connected v = true) :
    strcasecmpEq (id.take (chatIdLen - 1)) (s.users v).chatid = false := by
  by_contra hsame
  have hsame := eq_true_of_ne_false hsame
  obtain ⟨hshort, hvisible⟩ :
      id.length ≤ chatIdLen - 1 ∧ ((s.users v).cloak = 0 ∨ s.cloak 0 = false) := by
    by_contra hnot
    refine hsees ⟨v, hv, hne, hvconn, hsame, ?_⟩
    by_cases hlong : chatIdLen - 1 < id.length
    · exact .inl hlong
    · right
      by_contra hseen
      refine hnot ⟨Nat.le_of_not_lt hlong, ?_⟩
      by_cases hcloak : (s.users v).cloak = 0
      · exact .inl hcloak
      · exact .inr (Bool.eq_false_iff.mpr fun h => hseen ⟨hcloak, h⟩)
  rw [List.take_of_length_le hshort] at hsame
  have hfound : (s.connected v && strcasecmpEq id (s.users v).chatid &&
      ((s.users v).cloak = 0 || !s.cloak 0)) = true := by
    rw [hvconn, hsame]
    rcases hvisible with h | h <;> simp [h]
  rcases htest with htest | htest
  · have hnone := List.find?_eq_none.mp htest v (List.mem_range.mpr hv)
    exact hnone hfound
  · have hself := List.find?_some htest
    simp only [Bool.and_eq_true] at hself
    have hmine : (s.users u).chatid ≠ [] := by
      intro hempty
      have hlen := congrArg List.length (strcasecmpEq_iff.mp hself.1.2)
      rw [hempty, List.length_map] at hlen
      exact hid (List.length_eq_zero_iff.mp hlen)
    have hdiffer := D.users u v hu hv hne.symm hconn hvconn hmine
    rw [strcasecmpEq_trans (strcasecmpEq_symm hself.1.2) hsame] at hdiffer
    cases hdiffer

theorem ne_nil_of_valid (h : isValidChatid id = true) : id ≠ [] := by
  rintro rfl
  cases h

/-- An id that a login takes is valid, and nobody is found under it. -/
theorem loginAnswer_ok {msg userid : Bytes} {flags : BitVec 32} {cloak utent : Int}
    (h : loginAnswer cfg s u msg = .ok flags cloak utent userid id) :
    isValidChatid id = true ∧ chatidToIndx cfg s 0 id = none := by
  unfold loginAnswer at h
  dsimp only at h
  split at h
  · cases h
  · split at h
    · cases h
    case isFalse hvalid =>
      split at h
      · cases h
      case isFalse hfree =>
        have hid : id = (nextword (nextword (nextword (nextword msg).2).2).2).1 := by
          split at h
          · cases h
            rfl
          · split at h
            · cases h
            · cases h
              rfl
        rw [hid]
        exact ⟨by simpa using hvalid, by simpa using hfree⟩

/-- What a line of a user without a room can do. -/
def Outside (cfg : ChatConfig) (u : Nat) (s s' : Hall) : Prop :=
  (s.users u).room = -1 → s' = s ∨ ∃ msg flags cloak utent userid chatid,
    (s.users u).line = 47 :: 33 :: msg ∧
      loginAnswer cfg s u msg = .ok flags cloak utent userid chatid ∧
      s' = (s.setUser u (ChatUser.loggedIn flags cloak utent userid chatid)).tryEnter u 0 false

/-- The chat id of a user after a line is the one before it, or the user's own line has given him
one that no other user has. -/
theorem LineEffect.chatid (h : LineEffect cfg s u s') (hout : Outside cfg u s s')
    (D : s.DistinctNames cfg) (hlt : u < cfg.maxActive) (hu : s.connected u = true)
    (hname : ¬ s.Misnames cfg u) {w : Nat} (hconn : s'.connected w = true) :
    s.connected w = true ∧ ((s'.users w).chatid = (s.users w).chatid ∨
      w = u ∧ ∀ v, v < cfg.maxActive → v ≠ u → s.connected v = true →
        strcasecmpEq (s'.users w).chatid (s.users v).chatid = false) := by
  obtain ⟨hbefore, hfield⟩ := @LineEffect.field _ _ _ _ _ ChatUser.chatid _ (fun _ _ _ => rfl) h hconn
  refine ⟨hbefore, ?_⟩
  by_cases hroom : (s.users u).room = -1
  · rcases hout hroom with rfl | ⟨msg, flags, cloak, utent, userid, chatid, hline, hans, rfl⟩
    · exact .inl rfl
    · have hfield : ((((s.setUser u (ChatUser.loggedIn flags cloak utent userid chatid)).tryEnter u 0
          false).users w).chatid) =
            ((s.setUser u (ChatUser.loggedIn flags cloak utent userid chatid)).users w).chatid :=
        @Hall.field_tryEnter _ _ _ _ ChatUser.chatid _ _ fun _ _ _ => rfl
      rw [hfield]
      by_cases hw : w = u
      · subst hw
        refine .inr ⟨rfl, fun v hv hne hvconn => ?_⟩
        rw [Hall.users_setUser]
        obtain ⟨hvalid, htest⟩ := loginAnswer_ok hans
        refine D.unused hlt hu (ne_nil_of_valid hvalid) (.inl htest) (fun hover => hname ?_) hv hne hvconn
        rw [Hall.Misnames, if_pos hroom]
        split
        case h_1 msg' hline' =>
          cases hline.symm.trans hline'
          rw [hans]
          exact hover
        case h_2 hother => exact hother msg hline
      · rw [Hall.users_setUser_ne _ _ hw]
        exact .inl rfl
  · rcases hfield with hsame | ⟨rfl, ⟨f, hname', hself⟩ | ⟨_, _, _, _, _, _, hlogin, -⟩⟩
    · exact .inl hsame
    · rcases hname' with hsame | ⟨msg, hline, hid, hvalid, htest⟩
      · exact .inl (by rw [hself, hsame])
      · refine .inr ⟨rfl, fun v hv hne hvconn => ?_⟩
        have hsees : ¬ s.Overlooks cfg w (f (s.users w)).chatid := by
          intro hover
          refine hname ?_
          rw [Hall.Misnames, if_neg hroom, hline]
          dsimp only
          rw [← hid]
          exact hover
        have hunused := D.unused hlt hu (ne_nil_of_valid hvalid) htest hsees hv hne hvconn
        have hshort : (f (s.users w)).chatid.length ≤ chatIdLen - 1 := by
          rw [hid]
          exact List.length_take_le _ _
        rw [List.take_of_length_le hshort] at hunused
        rw [hself]
        exact hunused
    · exact absurd hlogin hroom

/-- A line keeps the chat ids apart. -/
theorem LineEffect.users (h : LineEffect cfg s u s') (hout : Outside cfg u s s')
    (D : s.DistinctNames cfg) (hlt : u < cfg.maxActive) (hu : s.connected u = true)
    (hname : ¬ s.Misnames cfg u) {v w : Nat} (hv : v < cfg.maxActive) (hw : w < cfg.maxActive)
    (hne : v ≠ w) (hvconn : s'.connected v = true) (hwconn : s'.connected w = true)
    (hid : (s'.users v).chatid ≠ []) :
    strcasecmpEq (s'.users v).chatid (s'.users w).chatid = false := by
  obtain ⟨hvbefore, hvid⟩ := h.chatid hout D hlt hu hname hvconn
  obtain ⟨hwbefore, hwid⟩ := h.chatid hout D hlt hu hname hwconn
  rcases hvid with hvsame | ⟨rfl, hvnew⟩
  · rcases hwid with hwsame | ⟨rfl, hwnew⟩
    · rw [hvsame] at hid ⊢
      rw [hwsame]
      exact D.users v w hv hw hne hvbefore hwbefore hid
    · rw [hvsame]
      by_contra hsame
      have hsame := strcasecmpEq_symm (eq_true_of_ne_false hsame)
      rw [hwnew v hv hne hvbefore] at hsame
      cases hsame
  · rcases hwid with hwsame | ⟨rfl, -⟩
    · rw [hwsame]
      exact hvnew w hw hne.symm hwbefore
    · exact absurd rfl hne

theorem Hall.occupants_leave {r : Int} (h : r ≠ (s.users v).room) :
    ((s.leave v).rooms r).occupants = (s.rooms r).occupants := by
  rw [rooms_leave, if_neg fun hr => h hr.1]

/-- The user is in no room that is empty. -/
theorem HallInv.not_in_empty (H : HallInv cfg used s) {r : Nat} (hv : v < cfg.maxActive)
    (hconn : s.connected v = true) (hocc : (s.rooms r).occupants = 0) :
    (r : Int) ≠ (s.users v).room := by
  intro hin
  refine H.occupied hv hconn (by omega) ?_
  rw [← hin]
  exact hocc

/-- Where the names of the rooms are kept and empty rooms stay empty, there are no new rooms. -/
theorem occupied_of_empty (h : ∀ r : Nat, (s'.rooms r).name = (s.rooms r).name ∧
    (r ≠ 0 → (s.rooms r).occupants = 0 → (s'.rooms r).occupants = 0)) (r : Nat) :
    (s'.rooms r).name = (s.rooms r).name ∧ (s'.occupied r → s.occupied r) := by
  refine ⟨(h r).1, fun hocc => ?_⟩
  by_contra hnot
  obtain ⟨hr, hzero⟩ := not_or.mp hnot
  rcases hocc with hr' | hocc
  · exact hr hr'
  · exact hocc ((h r).2 (by omega) (not_not.mp hzero))

/-- A login opens no room. -/
theorem HallInv.login_rooms (H : HallInv cfg used s) (hlt : u < cfg.maxActive)
    (hu : s.connected u = true) (flags : BitVec 32) (cloak utent : Int) (userid chatid : Bytes)
    {t : Hall} (ht : t = (s.setUser u (ChatUser.loggedIn flags cloak utent userid chatid)).tryEnter u 0
      false) (r : Nat) :
    (t.rooms r).name = (s.rooms r).name ∧ (t.occupied r → s.occupied r) := by
  refine occupied_of_empty (fun r => ?_) r
  rw [ht]
  refine ⟨Hall.rooms_tryEnter.1, fun hr hocc => ?_⟩
  have hnowhere : (r : Int) ≠
      ((s.setUser u (ChatUser.loggedIn flags cloak utent userid chatid)).users u).room := by
    rw [Hall.users_setUser]
    exact H.not_in_empty hlt hu hocc
  exact (Hall.occupants_tryEnter (by omega) hnowhere).trans hocc

/-- A line that opens no room keeps the names of the rooms, and leaves rooms without users empty. -/
theorem LineEffect.room (h : LineEffect cfg s u s') (H : HallInv cfg used s)
    (hlt : u < cfg.maxActive) (hu : s.connected u = true) :
    (∀ r : Nat, (s'.rooms r).name = (s.rooms r).name ∧
      (s'.occupied r → s.occupied r)) ∨
    ∃ (r : Nat) (room msg : Bytes), 0 < r ∧ (s.rooms r).occupants = 0 ∧
      parseLine (s.users u).line = .command .join msg ∧ room = (nextword msg).1 ∧
      s.restricted u = false ∧ isValidChatid room = true ∧ s.outsider u = false ∧
      roomidToIndx s room = none ∧
      s' = (s.setRoom r (ChatRoom.create cfg room)).tryEnter u r true := by
  cases h with
  | nothing => exact .inl fun r => ⟨rfl, id⟩
  | own => exact .inl fun r => ⟨rfl, id⟩
  | @rule f _ hsame =>
    refine .inl (occupied_of_empty fun r => ?_)
    by_cases hr : (r : Int) = (s.users u).room
    · rw [hr, Hall.rooms_setRoom]
      exact ⟨hsame.name, fun _ hocc => hsame.occupants.trans hocc⟩
    · rw [Hall.rooms_setRoom_ne _ _ hr]
      exact ⟨rfl, fun _ hocc => hocc⟩
  | talk => exact .inl fun r => ⟨rfl, id⟩
  | operator => exact .inl fun r => ⟨rfl, id⟩
  | invite =>
    refine .inl (occupied_of_empty fun r => ?_)
    by_cases hr : (r : Int) = (s.users u).room
    · rw [hr, Hall.rooms_setRoom]
      exact ⟨rfl, fun _ hocc => hocc⟩
    · rw [Hall.rooms_setRoom_ne _ _ hr]
      exact ⟨rfl, fun _ hocc => hocc⟩
  | bye =>
    exact .inl (occupied_of_empty fun r => ⟨Hall.name_leave, fun _ hocc =>
      (Hall.occupants_leave (H.not_in_empty hlt hu hocc)).trans hocc⟩)
  | @join r _ hthere =>
    refine .inl (occupied_of_empty fun r' => ⟨Hall.rooms_tryEnter.1, fun hr' hocc => ?_⟩)
    have hother : (r' : Int) ≠ r := by
      intro hsame
      rw [hsame] at hocc
      exact hthere.elim (fun h => hr' (by omega)) fun h => h hocc
    exact (Hall.occupants_tryEnter hother (H.not_in_empty hlt hu hocc)).trans hocc
  | @create r room msg hpos _ hocc hline hroom hrestricted hvalid houtsider hnew =>
    exact .inr ⟨r, room, msg, hpos, hocc, hline, hroom, hrestricted, hvalid, houtsider, hnew, rfl⟩
  | @kick v _ hname _ _ =>
    obtain ⟨hltv, hv⟩ := hname.spec
    refine .inl (occupied_of_empty fun r => ⟨Hall.rooms_tryEnter.1.trans Hall.name_leave,
      fun hr hocc => ?_⟩)
    have hleft : (r : Int) ≠ ((s.leave v).users v).room := by
      rw [Hall.users_leave]
      exact fun h => absurd h (by change ¬ (r : Int) = -1; omega)
    exact (Hall.occupants_tryEnter (by omega) hleft).trans
      ((Hall.occupants_leave (H.not_in_empty hltv hv hocc)).trans hocc)
  | @kickOut v _ hname _ _ =>
    obtain ⟨hltv, hv⟩ := hname.spec
    exact .inl (occupied_of_empty fun r => ⟨Hall.name_leave, fun _ hocc =>
      (Hall.occupants_leave (H.not_in_empty hltv hv hocc)).trans hocc⟩)
  | @login flags cloak utent userid chatid _ _ _ _ =>
    exact .inl (H.login_rooms hlt hu flags cloak utent userid chatid rfl)

/-- The name under which a room is opened is not that of another room that will have users. -/
theorem HallInv.fresh (H : HallInv cfg used s) {room : Bytes}
    (hnew : roomidToIndx s room = none) (hcut : ¬ s.CutsRoomName u room)
    (houtsider : s.outsider u = false)
    {r : Nat} (hr : r < maxRoom) (hocc : s.occupied r)
    (hstays : ¬ (r ≠ 0 ∧ (s.users u).room = r ∧ (s.rooms r).occupants = 1)) :
    strcasecmpEq (room.take (idLen - 1)) (s.rooms r).name = false := by
  by_contra hsame
  have hsame := eq_true_of_ne_false hsame
  by_cases hlong : idLen - 1 < room.length
  · by_cases hmain : r = 0
    · -- the name that is stored is longer than that of the main room
      subst hmain
      have hlen := congrArg List.length (strcasecmpEq_iff.mp hsame)
      rw [List.length_map, List.length_map, List.length_take, Nat.min_eq_left (Nat.le_of_lt hlong),
        show (s.rooms ((0 : Nat) : Int)).name = mainroom from H.main] at hlen
      exact absurd hlen (by decide)
    · exact hcut ⟨hlong, hnew, houtsider, r, hr, hocc, hsame, fun h => hstays ⟨hmain, h⟩⟩
  · rw [List.take_of_length_le (Nat.le_of_not_lt hlong)] at hsame
    have hnone := List.find?_eq_none.mp hnew r (List.mem_range.mpr hr)
    refine hnone ?_
    rw [hsame, Bool.and_true]
    rcases hocc with h | h
    · simp [Int.natCast_eq_zero.mp h]
    · simp [h]

/-- A line keeps the names of the rooms apart. -/
theorem LineEffect.rooms (h : LineEffect cfg s u s') (hout : Outside cfg u s s')
    (D : s.DistinctNames cfg) (H : HallInv cfg used s) (hlt : u < cfg.maxActive)
    (hu : s.connected u = true) (hname : ¬ s.Misnames cfg u) {r r' : Nat} (hr : r < maxRoom)
    (hr' : r' < maxRoom) (hne : r ≠ r') (hocc : s'.occupied r) (hocc' : s'.occupied r') :
    strcasecmpEq (s'.rooms r).name (s'.rooms r').name = false := by
  have hkept : (∀ r : Nat, (s'.rooms r).name = (s.rooms r).name ∧ (s'.occupied r → s.occupied r)) →
      strcasecmpEq (s'.rooms r).name (s'.rooms r').name = false := by
    intro hkeep
    rw [(hkeep r).1, (hkeep r').1]
    exact D.rooms r r' hr hr' hne ((hkeep r).2 hocc) ((hkeep r').2 hocc')
  by_cases hroom : (s.users u).room = -1
  · rcases hout hroom with rfl | ⟨msg, flags, cloak, utent, userid, chatid, -, -, hlogin⟩
    · exact D.rooms r r' hr hr' hne hocc hocc'
    · exact hkept (H.login_rooms hlt hu flags cloak utent userid chatid hlogin)
  · rcases h.room H hlt hu with hkeep |
      ⟨i, room, msg, hpos, hempty, hline, hroomname, hrestricted, hvalid, houtsider, hnew, hs'⟩
    · exact hkept hkeep
    · have hcut : ¬ s.CutsRoomName u room := by
        intro hcut
        refine hname ?_
        rw [Hall.Misnames, if_neg hroom, hline]
        rw [hroomname] at hvalid hcut
        exact ⟨hrestricted, hvalid, hcut⟩
      -- another room keeps its name, and the user is not its only one if he leaves it
      have hother : ∀ j : Nat, j < maxRoom → j ≠ i → s'.occupied j →
          (s'.rooms j).name = (s.rooms j).name ∧
            strcasecmpEq (room.take (idLen - 1)) (s.rooms j).name = false ∧ s.occupied j := by
        intro j hj hji hoccj
        have hji : (j : Int) ≠ i := by omega
        have hsame : (s'.rooms j).name = (s.rooms j).name := by
          rw [hs', Hall.rooms_tryEnter.1, Hall.rooms_setRoom_ne _ _ hji]
        have hbefore : s.occupied j ∧
            ¬ (j ≠ 0 ∧ (s.users u).room = j ∧ (s.rooms j).occupants = 1) := by
          by_cases hin : (s.users u).room = j
          · refine ⟨.inr (hin ▸ H.occupied hlt hu hroom), ?_⟩
            rintro ⟨hne, -, hone⟩
            refine (hoccj.resolve_left (by omega)) ?_
            rw [hs', Hall.tryEnter, if_neg (by rw [Hall.barred_create.2]; exact Bool.false_ne_true),
              Hall.rooms_seat_ne _ _ _ hji, Hall.rooms_leave,
              if_pos ⟨hin.symm, by omega⟩, Hall.rooms_setRoom_ne _ _ hji]
            change (s.rooms j).occupants - 1 = 0
            omega
          · refine ⟨hoccj.imp_right fun h => ?_, fun h => hin h.2.1⟩
            have hocc := @Hall.occupants_tryEnter (s.setRoom i (ChatRoom.create cfg room)) u i j true
              hji fun h => hin h.symm
            rw [← hs', Hall.rooms_setRoom_ne _ _ hji] at hocc
            rwa [← hocc]
        exact ⟨hsame, H.fresh hnew hcut houtsider hj hbefore.1 hbefore.2, hbefore.1⟩
      have hself : (s'.rooms i).name = room.take (idLen - 1) := by
        rw [hs', Hall.rooms_tryEnter.1, Hall.rooms_setRoom]
        rfl
      by_cases hri : r = i
      · subst hri
        obtain ⟨hsame, hdiffer, -⟩ := hother r' hr' hne.symm hocc'
        rw [hself, hsame]
        exact hdiffer
      · by_cases hri' : r' = i
        · subst hri'
          obtain ⟨hsame, hdiffer, -⟩ := hother r hr hne hocc
          rw [hself, hsame]
          by_contra hequal
          have hequal := strcasecmpEq_symm (eq_true_of_ne_false hequal)
          rw [hdiffer] at hequal
          cases hequal
        · obtain ⟨hsame, -, hbefore⟩ := hother r hr hri hocc
          obtain ⟨hsame', -, hbefore'⟩ := hother r' hr' hri' hocc'
          rw [hsame, hsame']
          exact D.rooms r r' hr hr' hne hbefore hbefore'

/-- The main room is found under its name whatever the other rooms are called. -/
theorem HallInv.distinct_main (H : HallInv cfg used s) : roomidToIndx s mainroom = some 0 :=
  roomidToIndx_main H.main

end

/-! ## What is announced -/

section
variable {cfg : ChatConfig} {s : Chat} {u : Nat} {msg : Bytes}

/-- A text that starts with an escape sequence announces nothing. -/
theorem not_announced {text tag name : Bytes} (h : text.head? = some 27) (htag : tag.head? = some 47) :
    text ≠ tag ++ name := by
  intro htext
  rw [htext, List.head?_append, htag] at h
  cases h

theorem head_bytes_n : (bytes "/n").head? = some 47 := rfl

theorem head_bytes_r : (bytes "/r").head? = some 47 := rfl

/-- The refusals, and the first bytes of what is announced in place of a name. -/
theorem head_texts : msgBadNick.head? = some 27 ∧ msgNickTaken.head? = some 27 ∧
    msgNotOp.head? = some 27 ∧ msgWhichName.head? = some 27 ∧
    (bytes "\x1b[1;31m\xa1\xf2 \x1b[36m").head? = some 27 ∧
    (bytes "\x1b[1;37m\xa1\xef \x1b[32m[\x1b[36m").head? = some 27 := by decide +kernel

theorem head_msgNewNick (chatid nick : Bytes) :
    ((msgNewNick chatid nick).take 255).head? = some 27 := by
  obtain ⟨-, -, -, -, hfirst, -⟩ := head_texts
  rw [msgNewNick]
  simp [List.head?_append, List.head?_take, hfirst]

theorem head_msgRenames (chatid name : Bytes) :
    ((msgRenames chatid name).take 255).head? = some 27 := by
  obtain ⟨-, -, -, -, -, hfirst⟩ := head_texts
  rw [msgRenames]
  simp [List.head?_append, List.head?_take, hfirst]

/-- A change of the chat id announces what is stored. -/
theorem chatNick_announces (hs : s.replies = []) {r : Reply} (hr : r ∈ (chatNick cfg s u msg).replies)
    {name : Bytes} (htext : r.text = bytes "/n" ++ name) :
    ((chatNick cfg s u msg).users u).chatid = name := by
  unfold chatNick at hr ⊢
  dsimp only at hr ⊢
  obtain ⟨hbad, htaken, -⟩ := head_texts
  have hrefused : ∀ t, r ∈ (s.replies ++ [t]) → t.text.head? = some 27 → False := by
    intro t hr hfirst
    rw [hs, List.nil_append, List.mem_singleton] at hr
    rw [hr] at htext
    exact not_announced hfirst head_bytes_n htext
  split at hr
  · exact (hrefused _ hr hbad).elim
  case isFalse hvalid =>
    rw [if_neg hvalid]
    split at hr
    · exact (hrefused _ hr htaken).elim
    case isFalse hfree =>
      rw [if_neg hfree]
      change r ∈ (s.replies ++ [_]) ++ [_] at hr
      rw [hs, List.nil_append, List.mem_append, List.mem_singleton, List.mem_singleton] at hr
      rcases hr with rfl | rfl
      · exact absurd htext (not_announced (head_msgNewNick _ _) head_bytes_n)
      · have hshort : (bytes "/n" ++ (nextword msg).1.take (chatIdLen - 1)).length ≤ 255 := by
          rw [List.length_append, List.length_take, show (bytes "/n").length = 2 from rfl]
          exact Nat.le_trans (Nat.add_le_add_left (Nat.min_le_left _ _) _) (by decide)
        dsimp only at htext
        rw [List.take_of_length_le hshort] at htext
        rw [← List.append_cancel_left htext]
        exact congrArg ChatUser.chatid (Hall.users_setUser ..)

/-- A change of the name of a room to another name announces what is not stored. -/
theorem chatRename_announces (hs : s.replies = []) (hu : s.connected u = true)
    (hsame : s.mayRule u = true → msg ≠ [] → msg.take (idLen - 1) = (s.rooms (s.users u).room).name)
    {r : Reply} (hr : r ∈ (chatRename cfg s u msg).replies) {name : Bytes}
    (htext : r.text = bytes "/r" ++ name) :
    ((chatRename cfg s u msg).rooms ((chatRename cfg s u msg).users u).room).name = name := by
  rw [(chatRename_quiet hu).toHall]
  unfold chatRename at hr
  dsimp only at hr
  obtain ⟨-, -, hnotOp, hwhich, -⟩ := head_texts
  have hrefused : ∀ t, r ∈ (s.replies ++ [t]) → t.text.head? = some 27 → False := by
    intro t hr hfirst
    rw [hs, List.nil_append, List.mem_singleton] at hr
    rw [hr] at htext
    exact not_announced hfirst head_bytes_r htext
  split at hr
  · exact (hrefused _ hr hnotOp).elim
  case isFalse hrule =>
    split at hr
    · exact (hrefused _ hr hwhich).elim
    case isFalse hempty =>
      change r ∈ (s.replies ++ [_]) ++ [_] at hr
      rw [hs, List.nil_append, List.mem_append, List.mem_singleton, List.mem_singleton] at hr
      rcases hr with rfl | rfl
      · have hshort : (bytes "/r" ++ msg.take 11).length ≤ 255 := by
          rw [List.length_append, List.length_take, show (bytes "/r").length = 2 from rfl]
          exact Nat.le_trans (Nat.add_le_add_left (Nat.min_le_left _ _) _) (by decide)
        dsimp only at htext
        rw [List.take_of_length_le hshort] at htext
        rw [← hsame (mayRule_of_not hrule) hempty, ← List.append_cancel_left htext]
        rfl
      · exact absurd htext (not_announced (head_msgRenames _ _) head_bytes_r)

theorem announces_of_not_misnames (hu : s.connected u = true) (hname : ¬ s.Misnames cfg u) :
    s.Announces cfg u := by
  intro hroom
  have hrun : ∀ command msg, parseLine (s.users u).line = .command command msg →
      (commandExecute cfg { s with replies := [] } u).1 =
        command.run cfg { s with replies := [] } u msg := by
    intro command msg hline
    unfold commandExecute
    dsimp only
    rw [if_neg hroom, hline]
  unfold Hall.Misnames at hname
  rw [if_neg hroom] at hname
  cases hline : parseLine (s.users u).line with
  | say _ => trivial
  | social _ _ => trivial
  | unknown _ => trivial
  | command command msg =>
    rw [hrun command msg hline]
    rw [hline] at hname
    cases command with
    | nick =>
      intro r hr name htext
      exact chatNick_announces rfl hr htext
    | rname =>
      intro r hr name htext
      refine @chatRename_announces cfg { s with replies := [] } u msg rfl hu (fun hrule hmsg => ?_)
        r hr name htext
      by_contra hne
      exact hname ⟨hrule, hmsg, hne⟩
    | _ => trivial

end

/-! ## Runs -/

/-- No line that is executed kicks its user out of the main room or misnames anything. -/
def Named (cfg : ChatConfig) (s : ChatServer) : ChatEvent → Prop
  | .recv unum chunk => ∀ e ∈ (processChatCommand cfg s.chat s.chatbuf unum chunk).executions,
    ¬ e.chat.KicksItself cfg unum ∧ ¬ e.chat.Misnames cfg unum
  | _ => True

instance (cfg : ChatConfig) (s : ChatServer) : (e : ChatEvent) → Decidable (Named cfg s e)
  | .recv .. => inferInstanceAs (Decidable (∀ e ∈ _, ¬ _ ∧ ¬ _))
  | .accept .. | .hangup _ => isTrue trivial

section
variable {cfg : ChatConfig} {used : Nat → Bool} {s s' : Hall} {u v : Nat}

/-- Users may go or lose their ids, and rooms may empty. -/
theorem Hall.DistinctNames.mono (D : s.DistinctNames cfg) (H : HallInv cfg used s')
    (husers : ∀ w, s'.connected w = true →
      (s'.users w).chatid = [] ∨ s.connected w = true ∧ (s'.users w).chatid = (s.users w).chatid)
    (hrooms : ∀ r : Nat, (s'.rooms r).name = (s.rooms r).name ∧ (s'.occupied r → s.occupied r)) :
    s'.DistinctNames cfg := by
  refine ⟨fun u v hu hv hne huconn hvconn hid => ?_, fun r r' hr hr' hne hocc hocc' => ?_,
    H.distinct_main⟩
  · obtain ⟨hubefore, husame⟩ := (husers u huconn).resolve_left hid
    rcases husers v hvconn with hvempty | ⟨hvbefore, hvsame⟩
    · rw [hvempty]
      by_contra hsame
      have hlen := congrArg List.length (strcasecmpEq_iff.mp (eq_true_of_ne_false hsame))
      rw [List.length_map] at hlen
      exact hid (List.length_eq_zero_iff.mp hlen)
    · rw [husame] at hid ⊢
      rw [hvsame]
      exact D.users u v hu hv hne hubefore hvbefore hid
  · rw [(hrooms r).1, (hrooms r').1]
    exact D.rooms r r' hr hr' hne ((hrooms r).2 hocc) ((hrooms r').2 hocc')

theorem Hall.DistinctNames.setUser (D : s.DistinctNames cfg) {f : ChatUser → ChatUser}
    (H : HallInv cfg used (s.setUser v f)) (hf : ∀ w, (f w).sockfd = w.sockfd ∧ (f w).chatid = w.chatid) :
    (s.setUser v f).DistinctNames cfg := by
  refine D.mono H (fun w hw => .inr ⟨?_, ?_⟩) fun r => ⟨rfl, id⟩
  · exact (Hall.connected_setUser f fun w => (hf w).1).symm.trans hw
  · exact @Hall.field_setUser _ _ _ ChatUser.chatid _ _ fun w => (hf w).2

/-- A line that misnames nothing keeps the names apart. -/
theorem Hall.DistinctNames.line {s : Chat} (D : s.DistinctNames cfg) (H : HallInv cfg used s.toHall)
    (hlt : u < cfg.maxActive) (hu : s.connected u = true) (hname : ¬ s.Misnames cfg u) :
    (commandExecute cfg { s with replies := [] } u).1.DistinctNames cfg := by
  obtain ⟨heffect, hhall, -, -⟩ := H.execute hlt hu
  have hout : Outside cfg u s.toHall (commandExecute cfg { s with replies := [] } u).1.toHall :=
    fun hroom => @commandExecute_outside cfg { s with replies := [] } u hu H.main hroom
  exact ⟨fun v w hv hw hne hvconn hwconn hid =>
      heffect.users hout D hlt hu hname hv hw hne hvconn hwconn hid,
    fun r r' hr hr' hne hocc hocc' => heffect.rooms hout D H hlt hu hname hr hr' hne hocc hocc',
    hhall.distinct_main⟩

end

section
variable {cfg : ChatConfig} {s s' : ChatServer} {e : ChatEvent} {unum : Nat} {chunk : Bytes}

/-- The lines of a chunk. -/
theorem names_recv (H : ServerInv cfg s) (D : s.chat.DistinctNames cfg) (hlt : unum < cfg.maxActive)
    (hu : s.chat.connected unum = true) (hok : Named cfg s (.recv unum chunk)) :
    (processChatCommand cfg s.chat s.chatbuf unum chunk).chat.DistinctNames cfg ∧
      ∀ e ∈ (processChatCommand cfg s.chat s.chatbuf unum chunk).executions,
        e.chat.DistinctNames cfg ∧ e.chat.Announces cfg unum := by
  let P : Chat → List Execution → Prop := fun c es =>
    Reading cfg s.used unum c ∧ c.DistinctNames cfg ∧
      ∀ e ∈ es, e.chat.DistinctNames cfg ∧ e.chat.Announces cfg unum
  have hrun := @processChatLoop_trace_rule cfg unum P P
    (fun c => ¬ c.KicksItself cfg unum ∧ ¬ c.Misnames cfg unum)
    ?_ ?_ chunk.length 0 s.chat (overlay s.chatbuf 0 chunk) [] ⟨⟨H.hall, H.stale, hu⟩, D, nofun⟩ hok
  · dsimp only at hrun
    rw [List.nil_append] at hrun
    split at hrun <;> exact hrun.2
  · rintro c es b ⟨hread, hnames, hlines⟩
    have hadd := hread.add b
    refine ⟨hadd, hnames.setUser hadd.hall fun w => ?_, hlines⟩
    unfold ChatUser.add
    split <;> exact ⟨rfl, rfl⟩
  · rintro c es e ⟨hread, hnames, hlines⟩ rfl ⟨hkick, hname⟩ s' rfl
    have hread' := hread.line hlt hkick
    have hnames' := hnames.line hread.hall hlt hread.here hname
    have hlines' : ∀ e' ∈ es ++ [e], e'.chat.DistinctNames cfg ∧ e'.chat.Announces cfg unum := by
      intro e' he'
      rcases List.mem_append.mp he' with he' | he'
      · exact hlines e' he'
      · rw [List.mem_singleton.mp he']
        exact ⟨hnames, announces_of_not_misnames hread.here hname⟩
    split
    · exact ⟨hread', hnames', hlines'⟩
    · have hclear := @Reading.set _ _ _ _ hread' ChatUser.clear (fun _ => rfl) fun _ => rfl
      exact ⟨hclear, hnames'.setUser hclear.hall fun _ => ⟨rfl, rfl⟩, hlines'⟩

theorem names_start : (Hall.start cfg).DistinctNames cfg := by
  refine ⟨nofun, fun r r' _ _ hne hocc hocc' => ?_, serverInv_start.hall.distinct_main⟩
  have hzero : ∀ r : Nat, (Hall.start cfg).occupied r → r = 0 := by
    intro r hocc
    by_contra hr
    refine hocc.elim (fun h => hr (by omega)) fun h => h ?_
    unfold Hall.start
    dsimp only
    split <;> rfl
  rw [hzero r hocc, hzero r' hocc'] at hne
  exact absurd rfl hne

/-- The end of a connection. -/
theorem Hall.DistinctNames.logout {s s' : Hall} {used : Nat → Bool} {v : Nat} (D : s.DistinctNames cfg)
    (H : HallInv cfg used s') (hrooms : ∀ r : Nat, (s'.rooms r).name = (s.rooms r).name ∧
      (s'.occupied r → s.occupied r)) (hself : s'.users v = .gone)
    (hother : ∀ w, w ≠ v → (s'.users w).sockfd = (s.users w).sockfd ∧
      (s'.users w).chatid = (s.users w).chatid) : s'.DistinctNames cfg := by
  refine D.mono H (fun w hw => ?_) hrooms
  by_cases h : w = v
  · rw [h, hself]
    exact .inl rfl
  · rw [Hall.connected, (hother w h).1] at hw
    exact .inr ⟨hw, (hother w h).2⟩

theorem names_step (W : ServerInv cfg s ∧ s.chat.DistinctNames cfg) (hok : Named cfg s e)
    (h : s.step cfg e = some s') : ServerInv cfg s' ∧ s'.chat.DistinctNames cfg := by
  obtain ⟨H, D⟩ := W
  have hkick : NoSelfKick cfg s e := by
    cases e with
    | recv unum chunk => exact fun x hx => (hok x hx).1
    | accept => trivial
    | hangup => trivial
  have H' := H.step hkick h
  refine ⟨H', ?_⟩
  cases e with
  | accept fd host =>
    unfold ChatServer.step at h
    dsimp only at h
    split at h
    case h_1 => cases h; exact D
    case h_2 i hi =>
      cases h
      have hfree := List.find?_some hi
      have hempty : (s.chat.users i).chatid = [] := by
        rw [H.hall.gone i (by simpa using hfree)]
        split <;> rfl
      refine D.mono H'.hall (fun w hw => ?_) fun r => ⟨rfl, id⟩
      by_cases hwi : w = i
      · left
        rw [hwi]
        exact (congrArg ChatUser.chatid (Hall.users_setUser ..)).trans hempty
      · have hsame : (s.chat.accept cfg i fd host).users w = s.chat.users w :=
          Hall.users_setUser_ne _ _ hwi
        dsimp only at hw ⊢
        rw [Hall.connected, hsame] at hw
        exact .inr ⟨hw, congrArg ChatUser.chatid hsame⟩
  | recv unum chunk =>
    unfold ChatServer.step at h
    dsimp only at h
    split at h
    case isTrue hrecv =>
      cases h
      obtain ⟨D', -⟩ := names_recv H D hrecv.1 hrecv.2.1 hok
      dsimp only at H' ⊢
      split
      case isTrue hrc =>
        have hhall := H'.hall
        dsimp only at hhall
        rw [if_pos hrc] at hhall
        exact D'.logout hhall (fun r => ⟨rfl, id⟩) (Function.update_self ..)
          fun w hw => ⟨congrArg ChatUser.sockfd (Function.update_of_ne hw ..),
            congrArg ChatUser.chatid (Function.update_of_ne hw ..)⟩
      case isFalse => exact D'
    case isFalse => cases h
  | hangup unum =>
    unfold ChatServer.step at h
    dsimp only at h
    split at h
    case isTrue hlost =>
      cases h
      have hleave : (exitRoom cfg { s.chat with replies := [] } unum .lostconn none).toHall =
          s.chat.toHall.leave unum := exitRoom_toHall
      refine @Hall.DistinctNames.logout cfg _ _ _ unum D H'.hall
          (fun r => ?_) (Function.update_self ..) fun w hw => ?_
      · refine occupied_of_empty (fun r => ?_) r
        change ((exitRoom cfg { s.chat with replies := [] } unum .lostconn none).rooms r).name = _ ∧
          (_ → _ → ((exitRoom cfg { s.chat with replies := [] } unum .lostconn none).rooms r).occupants = 0)
        rw [hleave]
        exact ⟨Hall.name_leave, fun _ hocc =>
          (Hall.occupants_leave (H.hall.not_in_empty hlost.1 hlost.2 hocc)).trans hocc⟩
      · have hsame : (logoutUser (exitRoom cfg { s.chat with replies := [] } unum .lostconn none)
            unum).users w = s.chat.users w := by
          refine (Function.update_of_ne hw ..).trans ?_
          change (exitRoom cfg { s.chat with replies := [] } unum .lostconn none).users w = _
          rw [hleave, Hall.users_leave_ne _ _ hw]
        exact ⟨congrArg ChatUser.sockfd hsame, congrArg ChatUser.chatid hsame⟩
    case isFalse => cases h

/-- In every run of the server whose lines misname nothing, after each event and before each line
that is then executed: the chat ids of the users who have logged in differ, the names of the rooms
with users and of the main room differ, `main` is the main room, and a change of a chat id or of the
name of a room announces the name that is stored. -/
theorem chat_names (h : Reach (ChatServer.step cfg) (Named cfg) (.start cfg) s) :
    s.chat.DistinctNames cfg ∧ ∀ unum chunk, unum < cfg.maxActive → s.chat.connected unum = true →
      Named cfg s (.recv unum chunk) →
      ∀ e ∈ (processChatCommand cfg s.chat s.chatbuf unum chunk).executions,
        e.chat.DistinctNames cfg ∧ e.chat.Announces cfg unum := by
  obtain ⟨H, D⟩ := h.invariant (fun s => ServerInv cfg s ∧ s.chat.DistinctNames cfg)
    ⟨serverInv_start, names_start⟩ fun _ _ _ W hok hstep => names_step W hok hstep
  exact ⟨D, fun unum chunk hlt hu hok => (names_recv H D hlt hu hok).2⟩

/-- Two users log in; the second one takes another chat id and opens a room. -/
def nickRun : List ChatEvent :=
  [.accept 5 [], .recv 0 (bytes "/!1 16 alice al 0\n"), .accept 6 [],
    .recv 1 (bytes "/!2 16 bob bo 0\n"), .recv 1 (bytes "/nick bobby\n"),
    .recv 1 (bytes "/join lounge\n")]

theorem chat_names_nick : ∃ s : ChatServer, s.chat.connected 0 = true ∧ s.chat.connected 1 = true ∧
    (s.chat.users 1).chatid = bytes "bobby" ∧
    strcasecmpEq (s.chat.users 1).chatid (s.chat.users 0).chatid = false := by
  obtain ⟨s, hs, hreach⟩ :=
    @Reach.of_meets _ _ (ChatServer.step demoConfig) (Named demoConfig) (.start demoConfig)
      nickRun (by decide +kernel)
  have hend : (nickRun.foldlM (ChatServer.step demoConfig) (.start demoConfig)).map
      (fun s => (s.chat.connected 0, s.chat.connected 1, (s.chat.users 1).chatid)) =
        some (true, true, bytes "bobby") := by decide +kernel
  rw [hs] at hend
  obtain ⟨hzero, hend⟩ := Prod.mk.inj (Option.some.inj hend)
  obtain ⟨hone, hid⟩ := Prod.mk.inj hend
  refine ⟨s, hzero, hone, hid, (chat_names hreach).1.users 1 0 (by decide) (by decide) (by decide) hone
    hzero ?_⟩
  rw [hid]
  decide +kernel

/-- Two users log in with ids that are the same up to the last of nine bytes. -/
def longIdRun : List ChatEvent :=
  [.accept 5 [], .recv 0 (bytes "/!1 16 alice alexander 0\n"), .accept 6 [],
    .recv 1 (bytes "/!2 16 bob alexandes 0\n")]

/-- Both are stored as the same eight bytes. -/
theorem chat_names_longId : ∃ s : ChatServer,
    Reach (ChatServer.step demoConfig) (fun _ _ => True) (.start demoConfig) s ∧
      s.chat.connected 0 = true ∧ s.chat.connected 1 = true ∧
      (s.chat.users 0).room = 0 ∧ (s.chat.users 1).room = 0 ∧
      (s.chat.users 0).chatid = bytes "alexande" ∧ (s.chat.users 1).chatid = bytes "alexande" := by
  obtain ⟨s, hs, hreach⟩ :=
    @Reach.of_meets _ _ (ChatServer.step demoConfig) (fun _ _ => True) (.start demoConfig)
      longIdRun (by decide +kernel)
  have hend : (longIdRun.foldlM (ChatServer.step demoConfig) (.start demoConfig)).map
      (fun s => decide (s.chat.connected 0 = true ∧ s.chat.connected 1 = true ∧
        (s.chat.users 0).room = 0 ∧ (s.chat.users 1).room = 0 ∧
        (s.chat.users 0).chatid = bytes "alexande" ∧ (s.chat.users 1).chatid = bytes "alexande")) =
        some true := by decide +kernel
  rw [hs] at hend
  exact ⟨s, hreach, of_decide_eq_true (Option.some.inj hend)⟩

end

end ArgoBbs

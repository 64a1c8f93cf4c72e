import ArgoBbs.Chat.Cloak
import Mathlib.Data.List.Forall2

/-! # What reveals a cloaked user

For each command that lists or names users: what in its answers to a user who may not see cloaked
users differs with a cloaked user on the server from what he is told without. -/

namespace ArgoBbs

/-- The texts are the same, or rows of the list of rooms that differ in the number of users. -/
inductive SameButTotal : Bytes → Bytes → Prop
  | same (text : Bytes) : SameButTotal text text
  | row (name topic marks : Bytes) (n n' : Nat) : SameButTotal
      (((msgRoomRow name n topic).take 255 ++ marks).take 255)
      (((msgRoomRow name n' topic).take 255 ++ marks).take 255)

/-- The same comes to the socket, but for the numbers of users in the rooms. -/
def SameReplies (fd : Int) (s s' : Chat) : Prop :=
  List.Forall₂ SameButTotal (s.seenBy fd) (s'.seenBy fd)

theorem Chat.Alike.sameReplies {c : Nat} {fd : Int} {s s' : Chat} (h : Alike c fd [] s s') :
    SameReplies fd s s' := by
  rw [SameReplies, h.seen, List.nil_append, List.forall₂_same]
  exact fun text _ => .same text

/-! ## The list of rooms -/

/-- The list of rooms shows the room to the user. -/
def Hall.seesRoom (s : Hall) (u i : Nat) : Bool :=
  0 < (s.rooms i).occupants && (s.sysop u || !(s.secret i && (s.users u).room ≠ i))

def roomRow (r : ChatRoom) : Bytes :=
  (msgRoomRow r.name r.occupants.toNat r.topic).take 255 ++ roomMarks r.flags

section
variable {cfg : ChatConfig} {c u : Nat} {fd : Int} {s s' : Chat}

theorem roomRows_eq (s : Hall) : roomRows s u =
    ((List.range maxRoom).filter (s.seesRoom u)).map fun i : Nat => roomRow (s.rooms i) := by
  rw [roomRows]
  dsimp only
  induction List.range maxRoom with
  | nil => rfl
  | cons i l ih =>
    change List.filterMap (fun i => if s.seesRoom u i = true then some (roomRow (s.rooms i))
      else none) l = _ at ih
    change List.filterMap (fun i => if s.seesRoom u i = true then some (roomRow (s.rooms i))
      else none) (i :: l) = _
    cases hi : s.seesRoom u i <;> simp [hi, ih]

theorem seenBy_chatListRooms (hfd : (s.users u).sockfd = fd) (hseen : s.seenBy fd = [])
    (hfree : s.restricted u = false) : (chatListRooms s u).seenBy fd =
      msgRoomsHead :: (roomRows s.toHall u).map (·.take 255) := by
  rw [chatListRooms, if_neg (by simp [hfree])]
  dsimp only
  rw [seenBy_printAll (s := s.sendToUnum u msgRoomsHead) hfd, seenBy_sendToUnum hfd, hseen]
  rfl

theorem seesRoom_eq (h : s.Lacks c s'.toHall) (hu : u ≠ c) {r : Nat}
    (hshown : 0 < (s'.rooms r).occupants ↔ 0 < (s.rooms r).occupants) :
    s'.seesRoom u r = s.seesRoom u r := by
  have hsysop : s'.sysop u = s.sysop u := h.has hu _
  have hsecret : s'.secret r = s.secret r := h.roomHas r _
  rw [Hall.seesRoom, Hall.seesRoom, hsysop, hsecret, h.users u hu]
  congr 1
  rw [decide_eq_decide, hshown]

/-- The list of rooms hides `c` just if no room is in it in which `c` is alone. -/
theorem chatListRooms_iff (h : Chat.Alike c fd [] s s') (hu : u ≠ c) (hcount : s'.Counted cfg)
    (hfd : (s.users u).sockfd = fd) (hseen : s'.seenBy fd = []) (hsysop : s.sysop u = false) :
    SameReplies fd (chatListRooms s u) (chatListRooms s' u) ↔
      ∀ r : Nat, r < maxRoom → s.AloneIn c r →
        s.restricted u = true ∨ s.secret r = true ∧ (s.users u).room ≠ r := by
  have hrestricted : s'.restricted u = s.restricted u := by
    rw [Hall.restricted, h.hall.users u hu]
    rfl
  cases hfree : s.restricted u with
  | true =>
    refine ⟨fun _ _ _ _ => .inl rfl, fun _ => ?_⟩
    rw [chatListRooms, chatListRooms, hrestricted, hfree, if_pos rfl, if_pos rfl]
    exact (h.sendToUnum hu _).sameReplies
  | false =>
    have hfd' : (s'.users u).sockfd = fd := by rw [h.hall.users u hu, hfd]
    rw [SameReplies, seenBy_chatListRooms hfd (h.seen.trans hseen) hfree,
      seenBy_chatListRooms hfd' hseen (hrestricted.trans hfree), roomRows_eq, roomRows_eq]
    constructor
    · rintro hsame r hr ⟨hroom, hone⟩
      have hocc := (h.hall.rooms r).occupants
      rw [if_pos hroom] at hocc
      have hlen := hsame.length_eq
      simp only [List.length_cons, List.length_map, ← List.countP_eq_length_filter] at hlen
      -- the lists differ in this room at most
      have hcounts := @countSlots_update maxRoom r (s.seesRoom u) (s'.seesRoom u) hr
        fun i hi => by
          have hother := (h.hall.rooms i).occupants
          rw [if_neg (by rw [hroom]; exact_mod_cast hi.symm), Int.add_zero] at hother
          exact seesRoom_eq h.hall hu (by rw [hother])
      have hnone : s'.seesRoom u r = false := by
        rw [Hall.seesRoom, decide_eq_false (by omega), Bool.false_and]
      have hsees : s.seesRoom u r = false := by
        rw [hnone, countSlots, countSlots, ← Nat.succ.inj hlen] at hcounts
        exact Bool.toNat_eq_zero.mp (Nat.add_left_cancel hcounts)
      simpa [Hall.seesRoom, hone, hsysop] using hsees
    · intro hsecret
      have hsees : (List.range maxRoom).filter (s'.seesRoom u) =
          (List.range maxRoom).filter (s.seesRoom u) := by
        refine List.filter_congr fun r hr => ?_
        have hocc := (h.hall.rooms r).occupants
        have hnonneg := hcount.occupants r (List.mem_range.mp hr)
        by_cases halone : s.AloneIn c r
        · obtain hbad | ⟨hsecret, hroom⟩ := hsecret r (List.mem_range.mp hr) halone
          · cases hbad
          · have hsysop' : s'.sysop u = false := (h.hall.has hu _).trans hsysop
            have hsecret' : s'.secret r = true := (h.hall.roomHas r _).trans hsecret
            simp [Hall.seesRoom, hsysop', hsysop, hsecret', hsecret, hroom, h.hall.users u hu]
        · refine seesRoom_eq h.hall hu ?_
          split at hocc
          · rename_i hc
            have hmany : (s.rooms r).occupants ≠ 1 := fun hone => halone ⟨hc, hone⟩
            omega
          · omega
      rw [hsees]
      refine .cons (.same _) ?_
      simp only [List.map_map, List.forall₂_map_left_iff, List.forall₂_map_right_iff,
        List.forall₂_same]
      intro r _
      have hroom := h.hall.rooms r
      dsimp only [Function.comp_apply, roomRow]
      rw [hroom.name, hroom.topic, hroom.flags]
      exact .row ..

end

/-! ## Texts that tell one answer from the other -/

/-- Texts that start with an escape and differ at some place. -/
theorem not_sameButTotal {a b : Bytes} (ha : a.head? = some 27) (k : Nat) {x y : UInt8}
    (hx : a[k]? = some x) (hy : b[k]? = some y) (hxy : x ≠ y) : ¬SameButTotal a b := by
  rintro (_ | _)
  · exact hxy (Option.some.inj (hx.symm.trans hy))
  · cases ha

theorem not_sameReplies {fd : Int} {s s' : Chat} {a b : Bytes} {l l' : List Bytes}
    (hs : s.seenBy fd = a :: l) (hs' : s'.seenBy fd = b :: l') (h : ¬SameButTotal a b) :
    ¬SameReplies fd s s' := by
  rw [SameReplies, hs, hs', List.forall₂_cons]
  exact fun hsame => h hsame.1

/-- The one answer differs from every text on the other side. -/
theorem not_sameReplies_of_forall {fd : Int} {s s' : Chat} {a : Bytes}
    (hs : s.seenBy fd = [a]) (h : ∀ b ∈ s'.seenBy fd, ¬SameButTotal a b) : ¬SameReplies fd s s' := by
  rw [SameReplies, hs]
  intro hsame
  obtain ⟨b, l, hab, -, hs'⟩ := List.forall₂_cons_left_iff.mp hsame
  exact h b (by rw [hs']; exact List.mem_cons_self) hab

theorem not_sameReplies_of_length {fd : Int} {s s' : Chat}
    (h : (s.seenBy fd).length ≠ (s'.seenBy fd).length) : ¬SameReplies fd s s' :=
  fun hsame => h hsame.length_eq

/-- The user `u` is in a room of both states, of which the first has the cloaked user `c`; nothing
has been sent yet. -/
structure Watches (cfg : ChatConfig) (c u : Nat) (s s' : Chat) : Prop where
  lacks : s.Lacks c s'.toHall
  ne : u ≠ c
  lt : u < cfg.maxActive
  here : s.connected u = true
  room : (s.users u).room ≠ -1
  socket : (s.users c).sockfd ≠ (s.users u).sockfd
  counted : s'.Counted cfg
  silent : s.replies = []
  silent' : s'.replies = []

namespace Watches
variable {cfg : ChatConfig} {c u : Nat} {fd : Int} {s s' : Chat} {msg : Bytes}

theorem seen (W : Watches cfg c u s s') : s.seenBy (s.users u).sockfd = [] := by
  rw [Chat.seenBy, W.silent]
  rfl

theorem seen' (W : Watches cfg c u s s') : s'.seenBy (s.users u).sockfd = [] := by
  rw [Chat.seenBy, W.silent']
  rfl

theorem alike (W : Watches cfg c u s s') : Chat.Alike c (s.users u).sockfd [] s s' :=
  ⟨W.lacks, W.socket, W.seen.trans W.seen'.symm⟩

theorem user (W : Watches cfg c u s s') : s'.users u = s.users u := W.lacks.users u W.ne

theorem main (W : Watches cfg c u s s') : (s.rooms 0).name = mainroom :=
  (W.lacks.rooms 0).name.symm.trans W.counted.main

theorem mem_roomSockets (W : Watches cfg c u s s') :
    (s.users u).sockfd ∈ Chat.roomSockets cfg s.toHall (s.users u).room := by
  rw [Chat.roomSockets, List.mem_map]
  refine ⟨u, List.mem_filter.mpr ⟨List.mem_range.mpr W.lt, ?_⟩, rfl⟩
  simp [W.here]

/-- What `u` is told when nobody has the chat id. -/
theorem told' (W : Watches cfg c u s s') (text : Bytes) :
    (s'.printToUnum u text).seenBy (s.users u).sockfd = [text.take 255] := by
  rw [seenBy_printToUnum (by rw [W.user]), W.seen']
  rfl

theorem told (W : Watches cfg c u s s') (text : Bytes) :
    (s.printToUnum u text).seenBy (s.users u).sockfd = [text.take 255] := by
  rw [seenBy_printToUnum rfl, W.seen]
  rfl

/-- An invitation of `c` succeeds. -/
theorem chatInvite (W : Watches cfg c u s s') (hrule : s.mayRule u = true)
    (hfound : chatidToIndx cfg s.toHall u (nextword msg).1 = some c)
    (hnone : chatidToIndx cfg s'.toHall u (nextword msg).1 = none) :
    ¬SameReplies (s.users u).sockfd (chatInvite cfg s u msg) (chatInvite cfg s' u msg) := by
  have hs : (ArgoBbs.chatInvite cfg s u msg).seenBy (s.users u).sockfd =
      [(msgComesSoon (s.users c).chatid).take 255] := by
    rw [ArgoBbs.chatInvite]
    dsimp only
    rw [if_neg (by simp [hrule]), hfound]
    dsimp only
    split
    · exact W.told _
    · rw [seenBy_printToUnum (by rfl), seenBy_printToUnum_ne (by exact W.socket)]
      change s.seenBy _ ++ _ = _
      rw [W.seen]
      rfl
  have hs' : (ArgoBbs.chatInvite cfg s' u msg).seenBy (s.users u).sockfd =
      [(msgNotHere (nextword msg).1).take 255] := by
    rw [ArgoBbs.chatInvite]
    dsimp only
    rw [if_neg (by simp [W.lacks.mayRule W.ne, hrule]), hnone]
    exact W.told' _
  exact not_sameReplies hs hs' (not_sameButTotal rfl 13 (show _ = some 54 from rfl)
    (show _ = some 50 from rfl) (by decide))

/-- What a cloaked user who is found lets `u` be told is not what he is told when nobody is found.
-/
theorem noSuchId (W : Watches cfg c u s s') (word : Bytes) {t t' : Chat}
    (ht : ∀ a ∈ t.seenBy (s.users u).sockfd, a.head? = some 27 ∧ a[9]? = some 32)
    (ht' : t' = s'.printToUnum u (msgNoSuchId word)) :
    ¬SameReplies (s.users u).sockfd t t' := by
  have hs' := W.told' (msgNoSuchId word)
  rw [← ht'] at hs'
  cases hs : t.seenBy (s.users u).sockfd with
  | nil => exact not_sameReplies_of_length (by rw [hs, hs']; exact nofun)
  | cons a l =>
    obtain ⟨hhead, hplace⟩ := ht a (by rw [hs]; exact List.mem_cons_self)
    exact not_sameReplies hs hs'
      (not_sameButTotal hhead 9 hplace (show _ = some 27 from rfl) (by decide))

theorem told_room {t : Chat} {fd r : Int} {text a : Bytes} (ht : t.seenBy fd = [])
    (ha : a ∈ (t.printToRoom cfg r text).seenBy fd) : a = text.take 255 := by
  rw [seenBy_printToRoom, ht, List.nil_append] at ha
  split at ha
  · exact List.mem_singleton.mp ha
  · cases ha

theorem told_unum {t : Chat} {fd : Int} {v : Nat} {text a : Bytes} (ht : t.seenBy fd = [])
    (ha : a ∈ (t.printToUnum v text).seenBy fd) : a = text.take 255 := by
  by_cases hv : (t.users v).sockfd = fd
  · rw [seenBy_printToUnum hv, ht] at ha
    exact List.mem_singleton.mp ha
  · rw [seenBy_printToUnum_ne hv, ht] at ha
    cases ha

section
variable (W : Watches cfg c u s s') (hrule : s.mayRule u = true)
  (hfound : chatidToIndx cfg s.toHall u (nextword msg).1 = some c)
  (hnone : chatidToIndx cfg s'.toHall u (nextword msg).1 = none)
include W hrule hfound hnone

theorem chatMakeop : ¬SameReplies (s.users u).sockfd (chatMakeop cfg s u msg)
    (chatMakeop cfg s' u msg) := by
  refine W.noSuchId (nextword msg).1 (fun a ha => ?_) ?_
  · rw [ArgoBbs.chatMakeop] at ha
    dsimp only at ha
    rw [if_neg (by simp [hrule]), hfound] at ha
    dsimp only at ha
    rw [if_neg W.ne] at ha
    split at ha
    · rw [W.told, List.mem_singleton] at ha
      exact ha ▸ ⟨rfl, rfl⟩
    · exact told_room (by exact W.seen) ha ▸ ⟨rfl, rfl⟩
  · rw [ArgoBbs.chatMakeop]
    dsimp only
    rw [if_neg (by simp [W.lacks.mayRule W.ne, hrule]), hnone]

theorem chatMaketalk : ¬SameReplies (s.users u).sockfd (chatMaketalk cfg s u msg)
    (chatMaketalk cfg s' u msg) := by
  refine W.noSuchId (nextword msg).1 (fun a ha => ?_) ?_
  · rw [ArgoBbs.chatMaketalk] at ha
    dsimp only at ha
    rw [if_neg (by simp [hrule]), hfound] at ha
    dsimp only at ha
    rw [if_neg W.ne] at ha
    have htext := told_room (by exact W.seen) ha
    split at htext
    · exact htext ▸ ⟨rfl, rfl⟩
    · exact htext ▸ ⟨rfl, rfl⟩
  · rw [ArgoBbs.chatMaketalk]
    dsimp only
    rw [if_neg (by simp [W.lacks.mayRule W.ne, hrule]), hnone]

theorem chatKick : ¬SameReplies (s.users u).sockfd (chatKick cfg s u msg)
    (chatKick cfg s' u msg) := by
  refine W.noSuchId (nextword msg).1 (fun a ha => ?_) ?_
  · rw [ArgoBbs.chatKick] at ha
    dsimp only at ha
    rw [if_neg (by simp [hrule]), hfound] at ha
    dsimp only at ha
    have hcloak : (s.users c).cloak ≠ 0 := by
      rw [W.lacks.cloak]
      decide
    have hexit : (exitRoom cfg s c .kick none).seenBy (s.users u).sockfd = [] := by
      rw [seenBy_exitRoom, if_neg fun h => hcloak h.2.1, List.append_nil, W.seen]
    have huser : (exitRoom cfg s c .kick none).users c = (s.users c).outside := by
      rw [exitRoom_toHall, Hall.users_leave]
    split at ha
    · rw [W.told, List.mem_singleton] at ha
      exact ha ▸ ⟨rfl, rfl⟩
    · split at ha
      · change a ∈ (exitRoom cfg s c .kick none).seenBy _ at ha
        rw [hexit] at ha
        cases ha
      · have hmain : ((exitRoom cfg s c .kick none).rooms 0).name = mainroom := by
          rw [exitRoom_toHall, Hall.name_leave, W.main]
        rw [enterRoom, roomidToIndx_main hmain] at ha
        dsimp only at ha
        rw [seenBy_enterFound_cloaked (by rw [huser]; rfl) (by rw [huser]; exact hcloak)
          (by rw [huser]; exact W.socket), hexit] at ha
        cases ha
  · rw [ArgoBbs.chatKick]
    dsimp only
    rw [if_neg (by simp [W.lacks.mayRule W.ne, hrule]), hnone]

end

/-- A user leaves the room in which besides him only `u`, if he is not the one, and `c` are. -/
theorem chatKick_few (W : Watches cfg c u s s') (hcloak : s.cloak u = false)
    (hrule : s.mayRule u = true) {i : Nat}
    (hfound : firstNamed cfg s.toHall (nextword msg).1 = some i) (hi : i ≠ c)
    (hroom : (s.users i).room = (s.users u).room) (hvisible : (s.users i).cloak = 0)
    (hc : (s.users c).room = (s.users u).room)
    (hfew : (s.rooms (s.users u).room).occupants ≤ 2) :
    ¬SameReplies (s.users u).sockfd (ArgoBbs.chatKick cfg s u msg)
      (ArgoBbs.chatKick cfg s' u msg) := by
  have hocc := (W.lacks.rooms (s.users u).room).occupants
  have hhere := W.counted.user u W.lt ((W.lacks.connected W.ne).trans W.here)
    (by rw [W.user]; exact W.room)
  rw [if_pos hc] at hocc
  rw [W.user] at hhere
  -- with `c` his leaving is told to `u`, without him the room is empty
  have hexit : Chat.Alike c (s.users u).sockfd
      [(exitText .kick (s.users i).chatid none).take 255]
      (exitRoom cfg s i .kick none) (exitRoom cfg s' i .kick none) := by
    refine W.alike.of_hall ?_ ?_ ?_
    · rw [exitRoom_toHall, exitRoom_toHall]
      exact W.lacks.leave hi
    · rw [exitRoom_toHall, Hall.users_leave_ne _ _ hi.symm]
    · rw [seenBy_exitRoom, seenBy_exitRoom, W.lacks.users i hi, hroom,
        if_pos ⟨W.room, hvisible, by omega, W.mem_roomSockets⟩, if_neg fun h => ?_, W.seen, W.seen']
      · rfl
      · exact h.2.2.1 (by omega)
  have hkicked := hexit.kicked cfg hi
    (by rw [exitRoom_toHall, Hall.users_leave]; rfl)
    (by rw [exitRoom_toHall, Hall.name_leave, W.main]) (s.users u).room
  obtain ⟨hsame, -⟩ := W.alike.chatidToIndx W.ne hcloak (by rw [hfound]; simpa using hi)
  have hs : ArgoBbs.chatKick cfg s u msg = if (s.users u).room = 0
      then logoutUser (exitRoom cfg s i .kick none) i
      else enterRoom cfg (exitRoom cfg s i .kick none) i mainroom none := by
    rw [ArgoBbs.chatKick]
    dsimp only
    rw [if_neg (by simp [hrule]), chatidToIndx_eq hcloak, hfound]
    exact if_neg (by simp [hroom])
  have hs' : ArgoBbs.chatKick cfg s' u msg = if (s.users u).room = 0
      then logoutUser (exitRoom cfg s' i .kick none) i
      else enterRoom cfg (exitRoom cfg s' i .kick none) i mainroom none := by
    rw [ArgoBbs.chatKick]
    dsimp only
    rw [if_neg (by simp [W.lacks.mayRule W.ne, hrule]), hsame, chatidToIndx_eq hcloak, hfound,
      W.user]
    exact if_neg (by simp [W.lacks.users i hi, hroom])
  rw [hs, hs']
  refine not_sameReplies_of_length ?_
  rw [hkicked.seen, List.length_append, List.length_singleton]
  omega

/-- The room in which `c` is alone is found. -/
theorem chatListByRoom (W : Watches cfg c u s s') {r : Nat} (hword : (nextword msg).1 ≠ [])
    (hfound : roomidToIndx s.toHall (nextword msg).1 = some r)
    (hnone : roomidToIndx s'.toHall (nextword msg).1 = none) :
    ¬SameReplies (s.users u).sockfd (chatListByRoom cfg s u msg) (chatListByRoom cfg s' u msg) := by
  have hs' : (ArgoBbs.chatListByRoom cfg s' u msg).seenBy (s.users u).sockfd =
      [(msgNoSuchRoom (nextword msg).1).take 255] := by
    rw [ArgoBbs.chatListByRoom]
    dsimp only
    rw [if_neg hword, hnone]
    exact W.told' _
  cases hsecret : s.secret r && !s.sysop u with
  | true =>
    have hs : (ArgoBbs.chatListByRoom cfg s u msg).seenBy (s.users u).sockfd =
        [msgSecretRoom] := by
      rw [ArgoBbs.chatListByRoom]
      dsimp only
      rw [if_neg hword, hfound]
      dsimp only
      rw [if_pos hsecret, seenBy_sendToUnum rfl, W.seen]
      rfl
    exact not_sameReplies hs hs' (not_sameButTotal rfl 15 (show _ = some 0xb1 from rfl)
      (show _ = some 0xc3 from rfl) (by decide))
  | false =>
    obtain ⟨rows, hs⟩ : ∃ rows, (ArgoBbs.chatListByRoom cfg s u msg).seenBy (s.users u).sockfd =
        msgUsersHead :: rows := by
      rw [ArgoBbs.chatListByRoom]
      dsimp only
      rw [if_neg hword, hfound]
      dsimp only
      rw [if_neg (by simp [hsecret]), chatDoUserList]
      rw [seenBy_printAll (by rfl), seenBy_sendToUnum rfl, W.seen]
      exact ⟨_, rfl⟩
    exact not_sameReplies hs hs' (not_sameButTotal rfl 5 (show _ = some 51 from rfl)
      (show _ = some 49 from rfl) (by decide))

/-! ### A word that also fits `c` -/

/-- The texts that tell what the search for a word has come to. -/
def Tells (noSuch ambiguous : Bytes) (texts : List Bytes) : FuzzyIndx → Prop
  | .nobody => texts = [noSuch]
  | .ambiguous => texts = [ambiguous]
  | .found _ => ∀ b ∈ texts, ¬SameButTotal noSuch b ∧ ¬SameButTotal ambiguous b

theorem Tells.differ {noSuch ambiguous : Bytes} {o o' : FuzzyIndx} {fd : Int} {t t' : Chat}
    (h : Tells noSuch ambiguous (t.seenBy fd) o) (h' : Tells noSuch ambiguous (t'.seenBy fd) o')
    (hne : o ≠ o') (hnot : ∀ i, o ≠ .found i) (hdiffer : ¬SameButTotal noSuch ambiguous)
    (hdiffer' : ¬SameButTotal ambiguous noSuch) : ¬SameReplies fd t t' := by
  cases o with
  | found i => exact absurd rfl (hnot i)
  | nobody =>
    refine not_sameReplies_of_forall h fun b hb => ?_
    cases o' with
    | nobody => exact absurd rfl hne
    | ambiguous => exact List.mem_singleton.mp (h' ▸ hb) ▸ hdiffer
    | found i => exact (h' b hb).1
  | ambiguous =>
    refine not_sameReplies_of_forall h fun b hb => ?_
    cases o' with
    | nobody => exact List.mem_singleton.mp (h' ▸ hb) ▸ hdiffer'
    | ambiguous => exact absurd rfl hne
    | found i => exact (h' b hb).2

section
variable {t : Chat} (hfd : (t.users u).sockfd = fd) (hseen : t.seenBy fd = [])
include hfd hseen

theorem seenBy_told (text : Bytes) : (t.printToUnum u text).seenBy fd = [text.take 255] := by
  rw [seenBy_printToUnum hfd, hseen]
  rfl

theorem chatPrivate_tells : Tells ((msgNoSuchId (nextword msg).1).take 255)
    (msgAmbiguous.take 255) ((ArgoBbs.chatPrivate cfg t u msg).seenBy fd)
    (fuzzyChatidToIndx cfg t.toHall u (nextword msg).1) := by
  rw [ArgoBbs.chatPrivate]
  dsimp only
  cases fuzzyChatidToIndx cfg t.toHall u (nextword msg).1 with
  | nobody => exact seenBy_told hfd hseen _
  | ambiguous => exact seenBy_told hfd hseen _
  | found i =>
    intro b hb
    dsimp only at hb
    have hpaper (h : b[5]? = some 50) : ¬SameButTotal ((msgNoSuchId (nextword msg).1).take 255) b ∧
        ¬SameButTotal (msgAmbiguous.take 255) b :=
      ⟨not_sameButTotal rfl 5 (show _ = some 55 from rfl) h (by decide),
        not_sameButTotal rfl 5 (show _ = some 49 from rfl) h (by decide)⟩
    split at hb
    · rw [seenBy_told hfd hseen, List.mem_singleton] at hb
      subst hb
      exact ⟨not_sameButTotal rfl 5 (show _ = some 55 from rfl) (show _ = some 49 from rfl)
        (by decide), not_sameButTotal rfl 16 (show _ = some 0xc4 from rfl)
          (show _ = some 0xb6 from rfl) (by decide)⟩
    · split at hb
      · rw [seenBy_printToUnum (by exact hfd), List.mem_append, List.mem_singleton] at hb
        rcases hb with hb | hb
        · exact hpaper (told_unum hseen hb ▸ rfl)
        · exact hpaper (hb ▸ rfl)
      · rw [seenBy_told hfd hseen, List.mem_singleton] at hb
        subst hb
        exact ⟨not_sameButTotal rfl 5 (show _ = some 55 from rfl) (show _ = some 49 from rfl)
          (by decide), not_sameButTotal rfl 17 (show _ = some 0xc7 from rfl)
            (show _ = some 0xe3 from rfl) (by decide)⟩

theorem partyAction_tells {cmd party : Bytes} {a : ChatAction}
    (ha : (cfg.partyData.find? fun a => a.verb = cmd) = some a) (hparty : party ≠ []) :
    Tells ((msgNoSuchId party).take 255) (msgWhichRoomAction.take 255)
      ((partyAction cfg t u cmd party false).1.seenBy fd)
      (fuzzyChatidToIndx cfg t.toHall u party) := by
  rw [partyAction, ha]
  dsimp only
  rw [if_neg hparty]
  cases fuzzyChatidToIndx cfg t.toHall u party with
  | nobody => exact seenBy_told hfd hseen _
  | ambiguous => exact seenBy_told hfd hseen _
  | found i =>
    intro b hb
    rw [told_room hseen hb]
    exact ⟨not_sameButTotal rfl 5 (show _ = some 55 from rfl) (show _ = some 54 from rfl)
      (by decide), not_sameButTotal rfl 5 (show _ = some 49 from rfl) (show _ = some 54 from rfl)
        (by decide)⟩

end

theorem chatPrivate (W : Watches cfg c u s s') (hcloak : s.cloak u = false)
    (hne : fuzzyChatidToIndx cfg s.toHall u (nextword msg).1 ≠
      fuzzyChatidToIndx cfg s'.toHall u (nextword msg).1) :
    ¬SameReplies (s.users u).sockfd (chatPrivate cfg s u msg) (chatPrivate cfg s' u msg) := by
  refine (chatPrivate_tells rfl W.seen).differ
    (chatPrivate_tells (congrArg _ W.user) W.seen') hne (fun i hi => ?_)
    (not_sameButTotal rfl 5 (show _ = some 55 from rfl) (show _ = some 49 from rfl) (by decide))
    (not_sameButTotal rfl 5 (show _ = some 49 from rfl) (show _ = some 55 from rfl) (by decide))
  exact hne (hi.trans (W.lacks.fuzzy_found W.ne hcloak hi).symm)

theorem partyAction (W : Watches cfg c u s s') (hcloak : s.cloak u = false) {cmd party : Bytes}
    {a : ChatAction} (ha : (cfg.partyData.find? fun a => a.verb = cmd) = some a)
    (hparty : party ≠ []) (hne : fuzzyChatidToIndx cfg s.toHall u party ≠
      fuzzyChatidToIndx cfg s'.toHall u party) :
    ¬SameReplies (s.users u).sockfd (partyAction cfg s u cmd party false).1
      (partyAction cfg s' u cmd party false).1 := by
  refine (partyAction_tells rfl W.seen ha hparty).differ
    (partyAction_tells (congrArg _ W.user) W.seen' ha hparty) hne (fun i hi => ?_)
    (not_sameButTotal rfl 5 (show _ = some 55 from rfl) (show _ = some 49 from rfl) (by decide))
    (not_sameButTotal rfl 5 (show _ = some 49 from rfl) (show _ = some 55 from rfl) (by decide))
  exact hne (hi.trans (W.lacks.fuzzy_found W.ne hcloak hi).symm)

end Watches

end ArgoBbs

import ArgoBbs.Chat.Concealment

/-! # Cloaked users and the lines of other users

The condition under which a line that lists or names users is answered as if a cloaked user were not
there, and under which it finds him for those who may see him. -/

namespace ArgoBbs

variable (cfg : ChatConfig)

/-- The line lists or names users. -/
def ChatLine.looks : ChatLine → Bool
  | .command .who _ | .command .list _ | .command .whoin _ | .command .rooms _ | .command .msg _
  | .command .kick _ | .command .invite _ | .command .operator _ | .command .talk _ => true
  | .social cmd _ => cmd ≠ bytes "help" && cmd ≠ [] && cfg.partyData.any (·.verb = cmd)
  | _ => false

/-- The word by which the line names a user. -/
def ChatLine.word : ChatLine → Option Bytes
  | .command .msg msg | .command .kick msg | .command .invite msg | .command .operator msg
  | .command .talk msg => some (nextword msg).1
  | .social _ party => some party
  | _ => none

def FuzzyIndx.user : FuzzyIndx → Option Nat
  | .found i => some i
  | _ => none

/-- The user that the word of the line finds. -/
def addressee (s : Hall) (u : Nat) : ChatLine → Option Nat
  | .command .msg msg => (fuzzyChatidToIndx cfg s u (nextword msg).1).user
  | .command .kick msg | .command .invite msg | .command .operator msg | .command .talk msg =>
    chatidToIndx cfg s u (nextword msg).1
  | .social _ party => (fuzzyChatidToIndx cfg s u party).user
  | _ => none

/-- The word may fit `c` without a difference to the answer. -/
def FitsUnnoticed (s : Hall) (u c : Nat) (word : Bytes) : Prop :=
  Unnoticed (s.fitsWhole word) (s.hides u) c (fitting cfg s word)

/-- The line of the user `u`, who may not see cloaked users, is answered as if `c` were not there.
-/
def Conceals (s : Hall) (u c : Nat) : ChatLine → Prop
  | .command .whoin msg => (nextword msg).1 ≠ [] →
    ∀ r : Nat, roomidToIndx s (nextword msg).1 = some r → r ≠ 0 → ¬s.AloneIn c r
  | .command .rooms _ => ∀ r : Nat, r < maxRoom → s.AloneIn c r →
    s.restricted u = true ∨ s.secret r = true ∧ (s.users u).room ≠ r
  | .command .msg msg => FitsUnnoticed cfg s u c (nextword msg).1
  | .command .kick msg => s.mayRule u = true → ∀ i, firstNamed cfg s (nextword msg).1 = some i →
    i ≠ c ∧ ((s.users i).room = (s.users u).room → (s.users i).cloak = 0 →
      (s.users c).room = (s.users u).room → 2 < (s.rooms (s.users u).room).occupants)
  | .command .invite msg | .command .operator msg | .command .talk msg => s.mayRule u = true →
    firstNamed cfg s (nextword msg).1 ≠ some c
  | .social _ party => s.noemote (s.users u).room = false → party ≠ [] →
    FitsUnnoticed cfg s u c party
  | _ => True

/-- Of the users that the word fits `c` is the first, or the second behind one whose name is
longer. -/
def FitsFirst (s : Hall) (c : Nat) (word : Bytes) : Prop :=
  (fitting cfg s word).head? = some c ∨
    ∃ i l, fitting cfg s word = i :: c :: l ∧ s.fitsWhole word i = false

/-- The line of a user who may see cloaked users finds `c` by his chat id. -/
def Addresses (s : Hall) (c : Nat) : ChatLine → Prop
  | .command .msg msg => FitsFirst cfg s c (nextword msg).1
  | .social _ party => FitsFirst cfg s c party
  | _ => False

/-- No other user has the chat id of `c`, and no other room the name of the one he is in. -/
structure Hall.UniqueNames (s : Hall) (c : Nat) : Prop where
  chatid : ∀ v, v ≠ c → s.connected v = true →
    strcasecmpEq (s.users v).chatid (s.users c).chatid = false
  room : ∀ r : Nat, (s.users c).room ≠ r → (r = 0 ∨ (s.rooms r).occupants ≠ 0) →
    strcasecmpEq (s.rooms r).name (s.rooms (s.users c).room).name = false

theorem strcasecmpEq_of_both {a b d : Bytes} (h : strcasecmpEq d a = true)
    (h' : strcasecmpEq d b = true) : strcasecmpEq a b = true := by
  rw [strcasecmpEq, decide_eq_true_eq] at *
  exact h.symm.trans h'

section
variable {cfg : ChatConfig} {c u : Nat} {s s' : Chat} {cmd msg word : Bytes}

theorem execute_command {command : ChatCmd} (hroom : (s.users u).room ≠ -1)
    (hline : parseLine (s.users u).line = .command command msg) :
    (commandExecute cfg s u).1 = command.run cfg s u msg := by
  rw [commandExecute]
  dsimp only
  rw [if_neg hroom, hline]

theorem execute_party {a : ChatAction} (hroom : (s.users u).room ≠ -1)
    (hline : parseLine (s.users u).line = .social cmd msg) (hhelp : cmd ≠ bytes "help")
    (hcmd : cmd ≠ []) (ha : (cfg.partyData.find? fun a => a.verb = cmd) = some a) :
    (commandExecute cfg s u).1 =
      if s.noemote (s.users u).room = true then s.sendToUnum u msgNoEmote
      else (partyAction cfg s u cmd msg false).1 := by
  have hdone : (partyAction cfg s u cmd msg false).2 = true := by
    rw [partyAction, ha]
    dsimp only
    split
    · rfl
    · cases fuzzyChatidToIndx cfg s.toHall u msg <;> rfl
  have hhelp : ¬(cmd = bytes "help" ∨ cmd = []) := by simp [hhelp, hcmd]
  have hsocial : socialCommand cfg s u cmd msg =
      (if s.noemote (s.users u).room = true then s.sendToUnum u msgNoEmote
        else (partyAction cfg s u cmd msg false).1, true) := by
    rw [socialCommand, if_neg hhelp]
    split
    · rfl
    · dsimp only
      rw [if_pos hdone]
  rw [commandExecute]
  dsimp only
  rw [if_neg hroom, hline]
  dsimp only
  rw [hsocial]
  rfl

namespace Watches

theorem chatidToIndx' (W : Watches cfg c u s s') (hcloak : s.cloak u = false) (word : Bytes) :
    chatidToIndx cfg s'.toHall u word = firstNamed cfg s'.toHall word :=
  chatidToIndx_eq ((W.lacks.cloak_eq W.ne).trans hcloak)

/-- Without `c` nobody has his chat id. -/
theorem firstNamed_none (W : Watches cfg c u s s') (hunique : s.UniqueNames c)
    (hfound : firstNamed cfg s.toHall word = some c) : firstNamed cfg s'.toHall word = none := by
  rw [firstNamed, List.find?_eq_none]
  intro i _ hi
  rw [W.lacks.names, Bool.and_eq_true, decide_eq_true_eq] at hi
  obtain ⟨hic, hi⟩ := hi
  have hc := List.find?_some hfound
  rw [Hall.names, Bool.and_eq_true] at hi hc
  have hsame := strcasecmpEq_of_both hi.2 hc.2
  rw [hunique.chatid i hic hi.1] at hsame
  cases hsame

/-- Without `c` no room has the name of the one in which he is alone. -/
theorem roomidToIndx_none (W : Watches cfg c u s s') (hunique : s.UniqueNames c) {r : Nat}
    (hfound : roomidToIndx s.toHall word = some r) (hr : r ≠ 0) (halone : s.AloneIn c r) :
    roomidToIndx s'.toHall word = none := by
  rw [roomidToIndx, List.find?_eq_none]
  intro i _ hi
  have hc := List.find?_some hfound
  simp only [Bool.and_eq_true, Bool.or_eq_true, decide_eq_true_eq] at hi hc
  have hocc := (W.lacks.rooms i).occupants
  rw [(W.lacks.rooms i).name] at hi
  by_cases hroom : (s.users c).room = i
  · obtain rfl : r = i := by exact_mod_cast halone.1.symm.trans hroom
    rw [if_pos hroom, halone.2] at hocc
    omega
  · rw [if_neg hroom, Int.add_zero] at hocc
    have hsame := strcasecmpEq_of_both hi.2 hc.2
    rw [← halone.1, hunique.room i hroom (by rw [hocc]; exact hi.1)] at hsame
    cases hsame

theorem mem_partyData (hlooks : (ChatLine.social cmd msg).looks cfg = true) :
    cmd ≠ bytes "help" ∧ cmd ≠ [] ∧
      ∃ a, (cfg.partyData.find? fun a => a.verb = cmd) = some a := by
  simp only [ChatLine.looks, Bool.and_eq_true, decide_eq_true_eq, List.any_eq_true] at hlooks
  obtain ⟨⟨hhelp, hcmd⟩, a, ha, hverb⟩ := hlooks
  refine ⟨hhelp, hcmd, Option.isSome_iff_exists.mp (List.find?_isSome.mpr ⟨a, ha, ?_⟩)⟩
  simpa using hverb

/-- The condition is enough. -/
theorem conceals (W : Watches cfg c u s s') (hcloak : s.cloak u = false)
    (hsysop : s.sysop u = false) {line : ChatLine} (hline : parseLine (s.users u).line = line)
    (hlooks : line.looks cfg = true) (hconceals : Conceals cfg s.toHall u c line) :
    SameReplies (s.users u).sockfd (commandExecute cfg s u).1 (commandExecute cfg s' u).1 := by
  have hline' : parseLine (s'.users u).line = line := by rw [W.user, hline]
  have hroom' : (s'.users u).room ≠ -1 := by rw [W.user]; exact W.room
  cases line with
  | say => cases hlooks
  | unknown => cases hlooks
  | social cmd msg =>
    obtain ⟨hhelp, hcmd, a, ha⟩ := mem_partyData hlooks
    have hnoemote : s'.noemote (s.users u).room = s.noemote (s.users u).room :=
      W.lacks.roomHas _ _
    rw [execute_party W.room hline hhelp hcmd ha, execute_party hroom' hline' hhelp hcmd ha,
      W.user, hnoemote]
    split
    · exact (W.alike.sendToUnum W.ne _).sameReplies
    · rename_i hfree
      refine (W.alike.partyAction W.ne fun hparty => ?_).sameReplies
      rw [W.lacks.fuzzy_iff W.ne hcloak]
      exact hconceals (Bool.eq_false_iff.mpr hfree) hparty
  | command command msg =>
    rw [execute_command W.room hline, execute_command hroom' hline']
    cases command with
    | who =>
      rw [ChatCmd.run, ChatCmd.run, chatMapChatidsThisroom, chatMapChatidsThisroom, W.user]
      exact (W.alike.chatMapChatids W.ne hcloak _).sameReplies
    | list => exact (W.alike.chatDoUserList W.ne hcloak _).sameReplies
    | whoin =>
      refine (W.alike.chatListByRoom W.ne hcloak fun hword => ?_).sameReplies
      exact W.alike.roomidToIndx W.counted (hconceals hword)
    | rooms =>
      exact (chatListRooms_iff W.alike W.ne W.counted rfl W.seen' hsysop).mpr hconceals
    | msg => exact (W.alike.chatPrivate W.ne ((W.lacks.fuzzy_iff W.ne hcloak).mpr hconceals)).sameReplies
    | kick =>
      refine (W.alike.chatKick W.ne hcloak W.main (fun hrule hc => ?_)
        fun hrule i hi => (hconceals hrule i hi).2).sameReplies
      exact (hconceals hrule c hc).1 rfl
    | invite => exact (W.alike.chatInvite W.ne hcloak hconceals).sameReplies
    | operator => exact (W.alike.chatMakeop W.ne hcloak hconceals).sameReplies
    | talk => exact (W.alike.chatMaketalk W.ne hcloak hconceals).sameReplies
    | act | bye | flags | join | nick | wall | cloak | topic | hand | rname | paper => cases hlooks

/-- The condition is needed. -/
theorem conceals_of_same (W : Watches cfg c u s s') (hcloak : s.cloak u = false)
    (hsysop : s.sysop u = false) (hunique : s.UniqueNames c) {line : ChatLine}
    (hline : parseLine (s.users u).line = line) (hlooks : line.looks cfg = true)
    (hsame : SameReplies (s.users u).sockfd (commandExecute cfg s u).1
      (commandExecute cfg s' u).1) : Conceals cfg s.toHall u c line := by
  have hline' : parseLine (s'.users u).line = line := by rw [W.user, hline]
  have hroom' : (s'.users u).room ≠ -1 := by rw [W.user]; exact W.room
  have hnone {word : Bytes} (hc : firstNamed cfg s.toHall word = some c) :
      chatidToIndx cfg s.toHall u word = some c ∧ chatidToIndx cfg s'.toHall u word = none :=
    ⟨(chatidToIndx_eq hcloak).trans hc,
      (W.chatidToIndx' hcloak word).trans (W.firstNamed_none hunique hc)⟩
  cases line with
  | say => cases hlooks
  | unknown => cases hlooks
  | social cmd msg =>
    obtain ⟨hhelp, hcmd, a, ha⟩ := mem_partyData hlooks
    intro hnoemote hparty
    have hnoemote' : s'.noemote (s.users u).room = false := (W.lacks.roomHas _ _).trans hnoemote
    rw [execute_party W.room hline hhelp hcmd ha, execute_party hroom' hline' hhelp hcmd ha,
      W.user, hnoemote, hnoemote', if_neg Bool.false_ne_true] at hsame
    rw [FitsUnnoticed, ← W.lacks.fuzzy_iff W.ne hcloak]
    by_contra hne
    exact W.partyAction hcloak ha hparty hne hsame
  | command command msg =>
    rw [execute_command W.room hline, execute_command hroom' hline'] at hsame
    cases command with
    | who | list => trivial
    | whoin =>
      intro hword r hr hzero halone
      exact W.chatListByRoom hword hr (W.roomidToIndx_none hunique hr hzero halone) hsame
    | rooms =>
      exact (chatListRooms_iff W.alike W.ne W.counted rfl W.seen' hsysop).mp hsame
    | msg =>
      change FitsUnnoticed _ _ _ _ _
      rw [FitsUnnoticed, ← W.lacks.fuzzy_iff W.ne hcloak]
      by_contra hne
      exact W.chatPrivate hcloak hne hsame
    | kick =>
      intro hrule i hi
      rcases eq_or_ne i c with rfl | hic
      · exact absurd hsame (W.chatKick hrule (hnone hi).1 (hnone hi).2)
      · refine ⟨hic, fun hroom hvisible hc => ?_⟩
        by_contra hfew
        exact W.chatKick_few hcloak hrule hi hic hroom hvisible hc (by omega) hsame
    | invite =>
      intro hrule hc
      exact W.chatInvite hrule (hnone hc).1 (hnone hc).2 hsame
    | operator =>
      intro hrule hc
      exact W.chatMakeop hrule (hnone hc).1 (hnone hc).2 hsame
    | talk =>
      intro hrule hc
      exact W.chatMaketalk hrule (hnone hc).1 (hnone hc).2 hsame
    | act | bye | flags | join | nick | wall | cloak | topic | hand | rname | paper => cases hlooks

end Watches

/-! ## Those who may see cloaked users -/

theorem fuzzyChatidToIndx_holder (hcloak : s.cloak u = true) :
    fuzzyChatidToIndx cfg s.toHall u word =
      fuzzyPick (s.fitsWhole word) (fitting cfg s.toHall word) := by
  have hhides : s.hides u = fun _ => false := by
    funext i
    simp [Hall.hides, hcloak]
  rw [fuzzyChatidToIndx_eq, hhides]
  cases fuzzyPick (s.fitsWhole word) (fitting cfg s.toHall word) <;> rfl

/-- A user whose chat id the word is is found if the search does not end before it comes to him. -/
theorem fuzzyChatidToIndx_iff (hcloak : s.cloak u = true) (hword : word = (s.users c).chatid) :
    (fuzzyChatidToIndx cfg s.toHall u word).user = some c ↔ FitsFirst cfg s.toHall c word := by
  have hwhole : s.fitsWhole word c = true := by simp [Hall.fitsWhole, hword]
  have hnodup : (fitting cfg s.toHall word).Nodup := Hall.Lacks.nodup_fitting
  rw [fuzzyChatidToIndx_holder hcloak, FitsFirst]
  rcases h : fitting cfg s.toHall word with _ | ⟨i, _ | ⟨j, l⟩⟩
  case nil => simp [fuzzyPick, FuzzyIndx.user]
  case cons.nil => simp [fuzzyPick, FuzzyIndx.user]
  case cons.cons =>
    simp only [fuzzyPick, List.head?_cons, Option.some.injEq, List.cons.injEq]
    cases hi : s.fitsWhole word i with
    | true =>
      simp only [if_true, FuzzyIndx.user, Option.some.injEq]
      refine ⟨.inl, fun hfirst => hfirst.resolve_right ?_⟩
      rintro ⟨k, l', ⟨rfl, -⟩, hk⟩
      cases hi.symm.trans hk
    | false =>
      have hic : i ≠ c := by
        rintro rfl
        cases hi.symm.trans hwhole
      cases hj : s.fitsWhole word j with
      | true =>
        simp only [Bool.false_eq_true, if_false, if_true, FuzzyIndx.user, Option.some.injEq]
        constructor
        · rintro rfl
          exact .inr ⟨i, l, ⟨rfl, rfl, rfl⟩, hi⟩
        · rintro (hfirst | ⟨k, l', ⟨-, hjc, -⟩, -⟩)
          · exact absurd hfirst hic
          · exact hjc
      | false =>
        simp only [Bool.false_eq_true, if_false, FuzzyIndx.user, reduceCtorEq, false_iff]
        rintro (hfirst | ⟨k, l', ⟨-, rfl, -⟩, -⟩)
        · exact hic hfirst
        · cases hj.symm.trans hwhole

/-- The exact search of a user who may see cloaked users overlooks them. -/
theorem chatidToIndx_holder (hcloak : s.cloak u = true) (hc : (s.users c).cloak = 1) :
    chatidToIndx cfg s.toHall u word ≠ some c := by
  intro hfound
  have hp := List.find?_some hfound
  simp [hc, hcloak] at hp

theorem addressee_iff (hcloak : s.cloak u = true) (hc : (s.users c).cloak = 1) {line : ChatLine}
    (hword : line.word = some (s.users c).chatid) :
    addressee cfg s.toHall u line = some c ↔ Addresses cfg s.toHall c line := by
  have hexact (word : Bytes) : chatidToIndx cfg s.toHall u word = some c ↔ False :=
    iff_of_false (chatidToIndx_holder hcloak hc) id
  cases line with
  | say => cases hword
  | unknown => cases hword
  | social cmd msg => exact fuzzyChatidToIndx_iff hcloak (Option.some.inj hword)
  | command command msg =>
    cases command with
    | msg => exact fuzzyChatidToIndx_iff hcloak (Option.some.inj hword)
    | kick | invite | operator | talk => exact hexact _
    | who | list | whoin | rooms | act | bye | flags | join | nick | wall | cloak | topic | hand
    | rname | paper => cases hword

/-- What a line that lists or names users does to hide the cloaked user `c`: if its user may not see
cloaked users, the condition is enough for answers that are the same without `c`, and needed if no
other user and no other room has a name in question; if he may, the line finds `c` by his chat id
just if it is one that searches by beginnings and comes to `c`. -/
theorem cloak_hides (W : Watches cfg c u s s')
    (hlooks : (parseLine (s.users u).line).looks cfg = true) :
    (s.cloak u = false → s.sysop u = false →
      (Conceals cfg s.toHall u c (parseLine (s.users u).line) →
        SameReplies (s.users u).sockfd (commandExecute cfg s u).1 (commandExecute cfg s' u).1) ∧
      (s.UniqueNames c →
        SameReplies (s.users u).sockfd (commandExecute cfg s u).1 (commandExecute cfg s' u).1 →
        Conceals cfg s.toHall u c (parseLine (s.users u).line))) ∧
    (s.cloak u = true → (parseLine (s.users u).line).word = some (s.users c).chatid →
      (addressee cfg s.toHall u (parseLine (s.users u).line) = some c ↔
        Addresses cfg s.toHall c (parseLine (s.users u).line))) := by
  refine ⟨fun hcloak hsysop => ⟨W.conceals hcloak hsysop rfl hlooks, fun hunique =>
    W.conceals_of_same hcloak hsysop hunique rfl hlooks⟩, fun hcloak => ?_⟩
  exact addressee_iff hcloak W.lacks.cloak

end

/-- A user who rules the room `den` and has sent the line; in the main room there is, or is not, a
cloaked user. -/
def demoDen (line : Bytes) (ghost : Bool) : Chat where
  users := fun i =>
    if i = 0 then ⟨5, 1, 1, permChatroom, 0, bytes "ann", bytes "ann", line, []⟩
    else if i = 1 ∧ ghost then ⟨6, 2, 0, permChatcloak, 1, bytes "eve", bytes "ghost", [], []⟩
    else .gone
  rooms := fun r =>
    if r = 0 then ⟨mainroom, ghost.toInt, 0, fun _ => false, []⟩
    else if r = 1 then ⟨bytes "den", 1, 0, fun _ => false, []⟩
    else ⟨[], 0, 0, fun _ => false, []⟩
  numConns := 2
  replies := []
  stale := false

theorem demoDen_watches (line : Bytes) :
    Watches demoConfig 1 0 (demoDen line true) (demoDen line false) := by
  refine ⟨⟨rfl, rfl, rfl, fun v hv => ?_, fun r => ?_⟩, by decide, by decide, rfl,
    show (1 : Int) ≠ -1 by decide, show (6 : Int) ≠ 5 by decide,
      ⟨rfl, fun r _ => ?_, fun v _ hv hroom => ?_⟩, rfl, rfl⟩
  · simp [demoDen, hv]
  · rcases eq_or_ne r 0 with rfl | hr
    · exact ⟨rfl, rfl, rfl, fun _ _ => rfl, rfl⟩
    · have hghost : ((demoDen line true).users 1).room = 0 := rfl
      rw [hghost, if_neg hr.symm]
      by_cases hden : r = 1
      · subst hden
        exact ⟨rfl, rfl, rfl, fun _ _ => rfl, rfl⟩
      · simp only [demoDen, if_neg hr, if_neg hden]
        exact ⟨rfl, rfl, rfl, fun _ _ => rfl, rfl⟩
  · simp only [demoDen]
    split
    · decide
    · split <;> decide
  · rcases eq_or_ne v 0 with rfl | hv'
    · exact Int.one_pos
    · simp [demoDen, hv', Hall.connected, ChatUser.gone] at hv

/-- A word that fits the cloaked user alone. -/
theorem cloak_hides_msg : SameReplies 5
    (commandExecute demoConfig (demoDen (bytes "/msg ghost hi") true) 0).1
    (commandExecute demoConfig (demoDen (bytes "/msg ghost hi") false) 0).1 := by
  refine ((cloak_hides (demoDen_watches (bytes "/msg ghost hi")) (by decide +kernel)).1
    (by decide) (by decide)).1 ?_
  have hline : parseLine ((demoDen (bytes "/msg ghost hi") true).users 0).line =
      .command .msg (bytes "ghost hi") := by rfl
  have hfits : fitting demoConfig (demoDen (bytes "/msg ghost hi") true).toHall
      (nextword (bytes "ghost hi")).1 = [1] := by decide +kernel
  rw [hline, Conceals, FitsUnnoticed, hfits]
  trivial

/-- A user who may not see the cloaked user names him to kick him out. -/
theorem kick_finds_cloaked : ¬∀ (cfg : ChatConfig) (c u : Nat) (s s' : Chat),
    Watches cfg c u s s' → (parseLine (s.users u).line).looks cfg = true →
    s.cloak u = false → s.sysop u = false →
    SameReplies (s.users u).sockfd (commandExecute cfg s u).1 (commandExecute cfg s' u).1 := by
  intro hclaim
  have W := demoDen_watches (bytes "/kick ghost")
  have hline : parseLine ((demoDen (bytes "/kick ghost") true).users 0).line =
      .command .kick (bytes "ghost") := by rfl
  have hunique : (demoDen (bytes "/kick ghost") true).UniqueNames 1 := by
    refine ⟨fun v hv hconn => ?_, fun r hr hocc => ?_⟩
    · rcases eq_or_ne v 0 with rfl | hv'
      · decide
      · simp [demoDen, hv, hv', Hall.connected, ChatUser.gone] at hconn
    · by_cases hden : r = 1
      · subst hden
        decide
      · have hzero : r ≠ 0 := fun h => hr (by rw [h]; rfl)
        have hden : (r : Int) ≠ 1 := by exact_mod_cast hden
        simp [demoDen, hzero, hden] at hocc
  have hconceals := W.conceals_of_same (by decide) (by decide) hunique hline rfl
    (hclaim demoConfig 1 0 _ _ W (by rw [hline]; rfl) (by decide) (by decide))
  have hfound : firstNamed demoConfig (demoDen (bytes "/kick ghost") true).toHall
      (nextword (bytes "ghost")).1 = some 1 := by decide +kernel
  exact (hconceals (by decide) 1 hfound).1 rfl

end ArgoBbs

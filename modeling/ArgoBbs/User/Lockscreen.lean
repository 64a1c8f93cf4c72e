import ArgoBbs.Lib.Reach
import ArgoBbs.Lib.StringBuffer

/-! # The silent lock of the screen

`x_lockscreen_silent` collects the keys in a buffer whose place moves on with every key, and with each
Enter compares what is in front of the place with the password (`xyz.c`, `pass.c`). -/

namespace ArgoBbs

def passLen : Nat := 40
def desPassLen : Nat := 14

/-- The functions `crypt_des` and MD5. -/
structure PassHash where
  cryptDes : (pw salt : Bytes) → Bytes
  md5 : Bytes → Bytes

/-- What the check needs of a user; the password starts with a zero byte if it is stored as MD5. -/
structure PassUser where
  userid : Bytes
  passwd : Bytes

def passmagic : Bytes := bytes " #r3:`>/CH'M&p%<xCj?bqd=/?L7o:N.s;j\x7dOuo!--PhX j^icU3aX\x7b]?7`<(jOt"

variable (h : PassHash)

def igenpass (passwd userid : Bytes) : Bytes :=
  (h.md5 (passmagic ++ passwd ++ passmagic ++ userid)).set 0 0

def setpasswd (passwd : Bytes) (user : PassUser) : PassUser :=
  { user with passwd := igenpass h passwd user.userid }

def checkpasswd (passwd test : Bytes) : Bool :=
  h.cryptDes (test.take (desPassLen - 1)) passwd = passwd

/-- A password that is stored as DES is stored as MD5 once it has been given. -/
def checkpasswd2 (passwd : Bytes) (user : PassUser) : Bool × PassUser :=
  if user.passwd.headD 0 ≠ 0 then
    if checkpasswd h (user.passwd.takeWhile (· ≠ 0)) passwd then (true, setpasswd h passwd user)
    else (false, user)
  else (igenpass h passwd user.userid = user.passwd, user)

/-- The variables of the loop, the user, and whether the loop has been left. -/
structure Lockscreen where
  passbuf : Bytes
  len : Nat
  user : PassUser
  unlocked : Bool

namespace Lockscreen

def isEnter (ch : Nat) : Prop := ch = 10 ∨ ch = 13

instance (ch : Nat) : Decidable (isEnter ch) := inferInstanceAs (Decidable (_ ∨ _))

/-- The key is a printable character. -/
def isTyped (ch : Nat) : Prop := ch < 0x100 ∧ isprint2 (UInt8.ofNat ch) = true

instance (ch : Nat) : Decidable (isTyped ch) := inferInstanceAs (Decidable (_ ∧ _))

def start (passbuf : Bytes) (user : PassUser) : Lockscreen := ⟨passbuf, 0, user, false⟩

/-- A key, as `igetkey` returns it. -/
def step (s : Lockscreen) (ch : Nat) : Option Lockscreen :=
  if s.unlocked then some s
  else if isEnter ch then do
    let passbuf ← putTo (passLen + 1) s.passbuf s.len 0
    let text ← cstr passbuf
    let (accepted, user) := checkpasswd2 h text s.user
    if accepted then some { s with passbuf, user, unlocked := true }
    else some { s with passbuf, user, len := 0 }
  else do
    let passbuf ←
      if 32 ≤ ch then putTo (passLen + 1) s.passbuf s.len (UInt8.ofNat ch) else some s.passbuf
    some { s with passbuf, len := (s.len + 1) % passLen }

/-- The characters typed since the last Enter. -/
def typeKey (typed : Bytes) (ch : Nat) : Bytes :=
  if isEnter ch then [] else if isTyped ch then typed ++ [UInt8.ofNat ch] else typed

/-- The key is Enter, or a character for which there is room. -/
def Fits (s : Lockscreen) (ch : Nat) : Prop :=
  s.unlocked = false → isEnter ch ∨ isTyped ch ∧ s.len + 1 < passLen

instance (s : Lockscreen) (ch : Nat) : Decidable (s.Fits ch) :=
  inferInstanceAs (Decidable (_ → _ ∨ _ ∧ _))

/-! ## Runs -/

/-- No place outside of the buffer is written to. -/
structure Inside (s : Lockscreen) : Prop where
  len : s.len < passLen
  size : s.passbuf.length = passLen + 1

/-- While the screen is locked, the characters typed are in front of the place. -/
structure Holds (user : PassUser) (s : Lockscreen) (typed : Bytes) : Prop where
  inside : s.Inside
  user : s.unlocked = false → s.user = user
  front : s.unlocked = false → s.passbuf.take s.len = typed
  nonzero : s.unlocked = false → 0 ∉ typed

variable {h} {s : Lockscreen} {user : PassUser} {typed buf : Bytes} {ch : Nat}

theorem checkpasswd2_user (hrefused : (checkpasswd2 h typed user).1 = false) :
    (checkpasswd2 h typed user).2 = user := by
  rw [checkpasswd2] at hrefused ⊢
  split at hrefused
  case isTrue hdes =>
    rw [if_pos hdes]
    split at hrefused
    · cases hrefused
    case isFalse hwrong => rw [if_neg hwrong]
  case isFalse hmd5 => rw [if_neg hmd5]

theorem isprint2_ne_zero {c : UInt8} (hc : isprint2 c = true) : c ≠ 0 := by
  rintro rfl
  cases hc

theorem not_isEnter_of_isTyped (htyped : isTyped ch) : ¬isEnter ch := by
  rintro (rfl | rfl)
  · cases htyped.2
  · cases htyped.2

theorem le_of_isTyped (htyped : isTyped ch) : 32 ≤ ch := by
  obtain ⟨hlt, hprint⟩ := htyped
  by_contra hsmall
  have hctrl : ∀ k < 32, isprint2 (UInt8.ofNat k) = false := by decide
  rw [hctrl ch (Nat.lt_of_not_le hsmall)] at hprint
  cases hprint

/-- What is compared with an Enter is what is in front of the place, as a string. -/
theorem step_enter (I : s.Inside) (hlocked : s.unlocked = false) (hch : isEnter ch) :
    ∃ text, cstr (s.passbuf.set s.len 0) = some text ∧ step h s ch =
      some (if (checkpasswd2 h text s.user).1 = true then
        { s with passbuf := s.passbuf.set s.len 0, user := (checkpasswd2 h text s.user).2,
                 unlocked := true }
      else
        { s with passbuf := s.passbuf.set s.len 0, user := (checkpasswd2 h text s.user).2,
                 len := 0 }) := by
  have hput : putTo (passLen + 1) s.passbuf s.len 0 = some (s.passbuf.set s.len 0) :=
    putTo_eq (Nat.lt_succ_of_lt I.len)
  have hlt : s.len < s.passbuf.length := I.size ▸ Nat.lt_succ_of_lt I.len
  have hmem : (0 : UInt8) ∈ s.passbuf.set s.len 0 := List.mem_set hlt _
  obtain ⟨text, htext⟩ := Option.isSome_iff_exists.mp (cstr_isSome_iff.mpr hmem)
  refine ⟨text, htext, ?_⟩
  rw [step, hlocked, if_neg Bool.false_ne_true, if_pos hch, hput, Option.bind_eq_bind, Option.bind_some,
    htext, Option.bind_some]
  dsimp only
  split
  · rfl
  · rfl

theorem Inside.step_key (I : s.Inside) (hlocked : s.unlocked = false) (hch : ¬isEnter ch) :
    ∃ s', step h s ch = some s' ∧ s'.Inside ∧ s'.unlocked = false := by
  have hlen : (s.len + 1) % passLen < passLen := Nat.mod_lt _ (by decide)
  have hput : putTo (passLen + 1) s.passbuf s.len (UInt8.ofNat ch) =
      some (s.passbuf.set s.len (UInt8.ofNat ch)) := putTo_eq (Nat.lt_succ_of_lt I.len)
  rw [Lockscreen.step, hlocked, if_neg Bool.false_ne_true, if_neg hch]
  by_cases hstored : 32 ≤ ch
  · rw [if_pos hstored, hput]
    exact ⟨_, rfl, ⟨hlen, List.length_set.trans I.size⟩, rfl⟩
  · rw [if_neg hstored]
    exact ⟨_, rfl, ⟨hlen, I.size⟩, rfl⟩

theorem Inside.step (I : s.Inside) (ch : Nat) : ∃ s', step h s ch = some s' ∧ s'.Inside := by
  cases hlocked : s.unlocked with
  | true =>
    refine ⟨s, ?_, I⟩
    rw [Lockscreen.step, hlocked, if_pos rfl]
  | false =>
    by_cases hch : isEnter ch
    · obtain ⟨text, -, hstep⟩ := step_enter (h := h) I hlocked hch
      refine ⟨_, hstep, ?_⟩
      split
      · exact ⟨I.len, List.length_set.trans I.size⟩
      · exact ⟨Nat.zero_lt_succ _, List.length_set.trans I.size⟩
    · obtain ⟨s', hstep, I', -⟩ := I.step_key (h := h) hlocked hch
      exact ⟨s', hstep, I'⟩

theorem Holds.start (hbuf : buf.length = passLen + 1) : Holds user (start buf user) [] :=
  ⟨⟨Nat.zero_lt_succ _, hbuf⟩, fun _ => rfl, fun _ => rfl, fun _ => List.not_mem_nil⟩

/-- With an Enter the characters typed are compared. -/
theorem Holds.step_enter (H : Holds user s typed) (hlocked : s.unlocked = false) (hch : isEnter ch) :
    ∃ s', step h s ch = some s' ∧ (s'.unlocked = true ↔ (checkpasswd2 h typed user).1 = true) ∧
      Holds user s' [] := by
  obtain ⟨text, htext, hstep⟩ := Lockscreen.step_enter (h := h) H.inside hlocked hch
  have hlt : s.len < s.passbuf.length := H.inside.size ▸ Nat.lt_succ_of_lt H.inside.len
  have hsame : cstr (s.passbuf.set s.len 0) = some typed := by
    rw [List.set_eq_take_append_cons_drop, if_pos hlt, H.front hlocked]
    exact cstr_append (H.nonzero hlocked)
  obtain rfl := Option.some.inj (htext.symm.trans hsame)
  have hsize : (s.passbuf.set s.len 0).length = passLen + 1 := List.length_set.trans H.inside.size
  rw [H.user hlocked] at hstep
  refine ⟨_, hstep, ?_⟩
  cases haccepted : (checkpasswd2 h text user).1 with
  | true =>
    rw [if_pos rfl]
    exact ⟨iff_of_true rfl rfl, ⟨H.inside.len, hsize⟩, nofun, nofun, nofun⟩
  | false =>
    rw [if_neg Bool.false_ne_true]
    refine ⟨iff_of_false (by rw [hlocked]; exact Bool.false_ne_true) Bool.false_ne_true,
      ⟨Nat.zero_lt_succ _, hsize⟩, fun _ => checkpasswd2_user haccepted, fun _ => rfl,
      fun _ => List.not_mem_nil⟩

theorem Holds.step (H : Holds user s typed) (hfits : s.Fits ch) :
    ∃ s', step h s ch = some s' ∧ Holds user s' (typeKey typed ch) := by
  cases hlocked : s.unlocked with
  | true =>
    refine ⟨s, ?_, H.inside, fun hs => ?_, fun hs => ?_, fun hs => ?_⟩
    · rw [Lockscreen.step, hlocked, if_pos rfl]
    · rw [hlocked] at hs
      cases hs
    · rw [hlocked] at hs
      cases hs
    · rw [hlocked] at hs
      cases hs
  | false =>
    rw [typeKey]
    rcases hfits hlocked with hch | ⟨htyped, hroom⟩
    · obtain ⟨s', hstep, -, H'⟩ := H.step_enter (h := h) hlocked hch
      rw [if_pos hch]
      exact ⟨s', hstep, H'⟩
    · have hput : putTo (passLen + 1) s.passbuf s.len (UInt8.ofNat ch) =
          some (s.passbuf.set s.len (UInt8.ofNat ch)) := putTo_eq (Nat.lt_succ_of_lt H.inside.len)
      have hlt : s.len < s.passbuf.length := H.inside.size ▸ Nat.lt_succ_of_lt H.inside.len
      rw [if_neg (not_isEnter_of_isTyped htyped), if_pos htyped, Lockscreen.step, hlocked,
        if_neg Bool.false_ne_true, if_neg (not_isEnter_of_isTyped htyped), if_pos (le_of_isTyped htyped),
        hput, Option.bind_eq_bind, Option.bind_some, Nat.mod_eq_of_lt hroom]
      refine ⟨_, rfl, ⟨hroom, List.length_set.trans H.inside.size⟩, fun _ => H.user hlocked,
        fun _ => ?_, fun _ hmem => ?_⟩
      · dsimp only
        rw [List.take_add_one, List.take_set_of_le (Nat.le_refl _), H.front hlocked,
          List.getElem?_set_self hlt]
        rfl
      · rcases List.mem_append.mp hmem with hmem | hmem
        · exact H.nonzero hlocked hmem
        · exact isprint2_ne_zero htyped.2 (List.mem_singleton.mp hmem).symm

end Lockscreen

open Lockscreen

/-- A `crypt` that keeps the password behind the two bytes of salt. -/
def plainHash : PassHash := ⟨fun pw salt => salt.take 2 ++ pw, fun text => text.take 16⟩

/-- The password `a`, with the salt `xy`. -/
def lockedUser : PassUser := ⟨bytes "guest", bytes "xya"⟩

end ArgoBbs

import ArgoBbs.Lib.CString
import ArgoBbs.Lib.Cells
import ArgoBbs.Lib.Loop
import ArgoBbs.Lib.Reach
import ArgoBbs.Lib.Telnet

/-! # Bytes from the client

`igetch` reads up to 256 bytes at a time. It passes over the telnet commands at the front of what
it has read, which `iac_count` measures, and gives the bytes behind them as keys (`io.c`). -/

namespace ArgoBbs

open Telnet

def ibufSize : Nat := 256

/-- The loop over a sub-negotiation: the number of bytes up to `IAC SE`. -/
def seScan : Bytes → Option Nat
  | c :: d :: s =>
    if c = IAC then if d = SE then some 2 else (seScan s).map (· + 2)
    else (seScan (d :: s)).map (· + 1)
  | _ => none

/-- What `iac_count` returns, how many bytes it has looked at, and `t_lines`. -/
structure IacCount where
  count : Nat
  looked : Nat
  tLines : Nat

/-- The case of a sub-negotiation. -/
def subCount (tLines : Nat) (current : Bytes) : Option IacCount := do
  let option ← current[2]?
  if option = NAWS then do
    let last ← current[8]?
    if last = SE then do
      let h ← current[6]?
      let lines := h.toNat
      some ⟨9, 9, if lines ≠ tLines ∧ 24 ≤ lines ∧ lines ≤ 100 then lines else tLines⟩
    else do
      let n ← seScan (current.drop 2)
      some ⟨n + 2, max (n + 2) 9, tLines⟩
  else do
    let n ← seScan (current.drop 2)
    some ⟨n + 2, n + 2, tLines⟩

/-- `iac_count` of the memory from the command on. -/
def iacCount (tLines : Nat) (current : Bytes) : Option IacCount := do
  let verb ← current[1]?
  if isVerb verb then some ⟨3, 2, tLines⟩
  else if verb = SB then subCount tLines current
  else some ⟨1, 2, tLines⟩

/-- The variables of the loop over the commands at the front. -/
structure Front where
  icurrchar : Nat
  looked : Nat
  tLines : Nat

def Front.turn (inbuf : Bytes) (ch : Nat) (s : Front) : Option (Front ⊕ Front) := do
  let c ← inbuf[s.icurrchar]?
  let looked := max s.looked (s.icurrchar + 1)
  if c = IAC ∧ s.icurrchar < ch then do
    let r ← iacCount s.tLines (inbuf.drop s.icurrchar)
    some (.inl ⟨s.icurrchar + r.count, max looked (s.icurrchar + r.looked), r.tLines⟩)
  else some (.inr { s with looked })

/-- The input buffer in memory, with the bytes that lie behind it. `reading` says that `igetch`
waits for more after a read of commands; with the state go all bytes received, those that have been
taken from the buffer, the keys, and whether a byte that was not received has been looked at. -/
structure Input where
  inbuf : Bytes
  ibufsize : Nat
  icurrchar : Nat
  reading : Bool
  trailing : Bool
  tLines : Nat
  received : Bytes
  taken : Bytes
  keys : List Int
  beyond : Bool
  deriving DecidableEq

inductive InputEvent
  | receive (data : Bytes)
  | giveUp
  | take

/-- A byte as a character. -/
def charValue (c : UInt8) : Int := if c < 128 then c.toNat else c.toNat - 256

namespace Input

/-- Nothing is left in the buffer. -/
def waits (s : Input) : Bool := s.reading || s.ibufsize = s.icurrchar

/-- A read. After nothing but commands `igetch` reads on, and `ibufsize` is as before. -/
def receive (s : Input) (data : Bytes) : Option Input := do
  let inbuf := overlay s.inbuf 0 data
  let ch := data.length
  let front ← loop (Front.turn inbuf ch) (ch + 1) ⟨0, 0, s.tLines⟩
  let s := { s with
    inbuf, icurrchar := front.icurrchar, tLines := front.tLines, received := s.received ++ data
    beyond := s.beyond || ch < front.looked }
  if ch ≤ front.icurrchar then some { s with reading := true }
  else some { s with ibufsize := ch, reading := false }

/-- What is done with a byte: `Ctrl-L` draws the screen anew, and what ends a line is one key. -/
def key (s : Input) (ch : UInt8) : Input :=
  if s.trailing ∧ (ch = 0 ∨ ch = 10) then { s with trailing := false }
  else if ch = 12 then { s with trailing := false }
  else if ch = 13 then { s with trailing := true, keys := s.keys ++ [10] }
  else { s with trailing := false, keys := s.keys ++ [charValue ch] }

def take (s : Input) : Option Input := do
  let ch ← s.inbuf[s.icurrchar]?
  some (key { s with
    icurrchar := s.icurrchar + 1, taken := s.taken ++ [ch]
    beyond := s.beyond || s.ibufsize ≤ s.icurrchar } ch)

def act (s : Input) : InputEvent → Option Input
  | .receive data => s.receive data
  | .giveUp => some { s with reading := false }
  | .take => s.take

/-- What `igetch` may come to next: it reads where nothing is left, or gives up waiting. -/
def awaits (s : Input) : InputEvent → Bool
  | .receive data => s.waits && 0 < data.length && data.length ≤ ibufSize
  | .giveUp => s.waits
  | .take => !s.waits

def step (s : Input) (e : InputEvent) : Option Input := if s.awaits e then s.act e else none

def start (inbuf : Bytes) (tLines : Nat) : Input :=
  ⟨inbuf, 0, 0, false, false, tLines, [], [], [], false⟩

end Input

/-! ## What should be delivered -/

/-- The keys of bytes that are no commands, behind a byte. -/
def keysOf : UInt8 → Bytes → List Int
  | _, [] => []
  | before, c :: bytes =>
    (if before = 13 ∧ (c = 0 ∨ c = 10) ∨ c = 12 then []
      else [if c = 13 then 10 else charValue c]) ++ keysOf c bytes

namespace Input

/-- What has been taken, with what waits in the buffer, is what has been received without the
commands; the keys are those of the bytes taken, and the height is as it was or one of the sizes
received. -/
structure Delivered (lines : Nat) (s : Input) : Prop where
  within : s.beyond = false
  whole : (read .text s.received).1 = .text
  bytes : plain (read .text s.received).2 =
    s.taken ++ (s.inbuf.drop s.icurrchar).take (s.ibufsize - s.icurrchar)
  keys : s.keys = keysOf 0 s.taken
  height : s.tLines = lines ∨
    s.tLines ∈ heights (read .text s.received).2 ∧ 24 ≤ s.tLines ∧ s.tLines ≤ 100

end Input

/-- A read that is taken as it should be: whole commands at the front, none of them but negotiations
and sub-negotiations, and at least one byte behind them and no command among these. The size of a
window is written in nine bytes, and its height in one or not among those taken; no other
sub-negotiation has the ninth byte of one. -/
inductive Readable : Bytes → Prop
  | keys : rest ≠ [] → IAC ∉ rest → Readable rest
  | negotiation : isVerb verb = true → Readable rest → Readable (IAC :: verb :: option :: rest)
  | window : IAC ∉ [w₁, w₂, h₁, h₂] → (h₁ = 0 ∨ ¬(24 ≤ h₂.toNat ∧ h₂.toNat ≤ 100)) →
    Readable rest → Readable ([IAC, SB, NAWS, w₁, w₂, h₁, h₂, IAC, SE] ++ rest)
  | sub : Escapes raw content →
    (raw.head? = some NAWS → ∃ c, (IAC :: SB :: raw ++ [IAC, SE] ++ rest)[8]? = some c ∧ c ≠ SE) →
    Readable rest → Readable (IAC :: SB :: raw ++ [IAC, SE] ++ rest)

/-- The condition on what is read. -/
def InputEvent.Fits : InputEvent → Prop
  | receive data => Readable data
  | _ => True

/-! ## The commands at the front -/

section
variable {raw content rest data : Bytes} {lines : Nat}

theorem seScan_cons {c : UInt8} (hc : c ≠ IAC) (s : Bytes) :
    seScan (c :: s) = (seScan s).map (· + 1) := by
  cases s with
  | nil => rfl
  | cons d s => rw [seScan, if_neg hc]

theorem seScan_escapes (h : Escapes raw content) (rest : Bytes) :
    seScan (raw ++ IAC :: SE :: rest) = some (raw.length + 2) := by
  induction h with
  | nil => rw [List.nil_append, seScan, if_pos rfl, if_pos rfl]; rfl
  | byte hc _ ih => rw [List.cons_append, seScan_cons hc, ih]; rfl
  | iac _ ih =>
    rw [List.cons_append, List.cons_append, seScan, if_pos rfl, if_neg (by decide), ih]
    rfl

theorem iacCount_negotiation {verb : UInt8} (h : isVerb verb = true) :
    iacCount lines (IAC :: verb :: rest) = some ⟨3, 2, lines⟩ := if_pos h

theorem iacCount_window {w₁ w₂ h₁ h₂ : UInt8} :
    iacCount lines ([IAC, SB, NAWS, w₁, w₂, h₁, h₂, IAC, SE] ++ rest) = some ⟨9, 9,
      if h₂.toNat ≠ lines ∧ 24 ≤ h₂.toNat ∧ h₂.toNat ≤ 100 then h₂.toNat else lines⟩ := rfl

/-- Where the ninth byte is looked at it is one of those received, and no end. -/
theorem iacCount_sub (h : Escapes raw content) (behind : Bytes)
    (hninth : raw.head? = some NAWS →
      ∃ c, (IAC :: SB :: raw ++ [IAC, SE] ++ rest)[8]? = some c ∧ c ≠ SE) :
    ∃ looked ≤ (IAC :: SB :: raw ++ [IAC, SE] ++ rest).length,
      iacCount lines (IAC :: SB :: raw ++ [IAC, SE] ++ rest ++ behind) =
        some ⟨(IAC :: SB :: raw ++ [IAC, SE]).length, looked, lines⟩ := by
  have hscan : seScan ((IAC :: SB :: raw ++ [IAC, SE] ++ rest ++ behind).drop 2) =
      some (raw.length + 2) := by
    have hdrop := seScan_escapes h (rest ++ behind)
    simpa using hdrop
  have hlen : (IAC :: SB :: raw ++ [IAC, SE]).length = raw.length + 4 := by simp
  have hle : raw.length + 4 ≤ (IAC :: SB :: raw ++ [IAC, SE] ++ rest).length := by simp
  rw [hlen]
  rw [show iacCount lines (IAC :: SB :: raw ++ [IAC, SE] ++ rest ++ behind) =
    subCount lines (IAC :: SB :: raw ++ [IAC, SE] ++ rest ++ behind) from rfl, subCount]
  by_cases hoption : raw.head? = some NAWS
  · obtain ⟨c, hget, hc⟩ := hninth hoption
    have hlast : (IAC :: SB :: raw ++ [IAC, SE] ++ rest ++ behind)[8]? = some c := by
      rw [List.getElem?_append_left (List.getElem?_eq_some_iff.mp hget).1, hget]
    have hsecond : (IAC :: SB :: raw ++ [IAC, SE] ++ rest ++ behind)[2]? = some NAWS := by
      obtain ⟨raw', rfl⟩ := List.head?_eq_some_iff.mp hoption
      rfl
    refine ⟨max (raw.length + 4) 9, ?_, ?_⟩
    · exact Nat.max_le.mpr ⟨hle, (List.getElem?_eq_some_iff.mp hget).1⟩
    · simp only [hsecond, hlast, hscan, Option.bind_eq_bind, Option.bind_some, if_true, if_neg hc]
  · obtain ⟨option, hsecond, hne⟩ : ∃ option,
        (IAC :: SB :: raw ++ [IAC, SE] ++ rest ++ behind)[2]? = some option ∧ option ≠ NAWS := by
      cases raw with
      | nil => exact ⟨IAC, rfl, by decide⟩
      | cons c raw => exact ⟨c, rfl, fun h => hoption (congrArg some h)⟩
    refine ⟨raw.length + 4, hle, ?_⟩
    simp only [hsecond, hscan, Option.bind_eq_bind, Option.bind_some, if_neg hne]

/-- The loop has passed over whole commands and stands in front of the bytes that are keys. -/
structure FrontEnds (front data : Bytes) (lines : Nat) (f : Front) : Prop where
  within : f.looked ≤ front.length + data.length
  split : ∃ commands rest items, data = commands ++ rest ∧ rest ≠ [] ∧ IAC ∉ rest ∧
    f.icurrchar = front.length + commands.length ∧ read .text commands = (.text, items) ∧
    plain items = [] ∧
    (f.tLines = lines ∨ f.tLines ∈ heights items ∧ 24 ≤ f.tLines ∧ f.tLines ≤ 100)

/-- Wherever the bytes stand in the buffer, the loop passes over the commands at their front. -/
def FrontPassed (data : Bytes) : Prop :=
  ∀ (front behind : Bytes) (lines looked fuel : Nat), looked ≤ front.length + data.length →
    data.length < fuel →
    ∃ f, loop (Front.turn (front ++ (data ++ behind)) (front.length + data.length)) fuel
      ⟨front.length, looked, lines⟩ = some f ∧ FrontEnds front data lines f

theorem getElem?_append_cons (front rest : Bytes) (c : UInt8) :
    (front ++ c :: rest)[front.length]? = some c := by
  rw [List.getElem?_append_right (Nat.le_refl _), Nat.sub_self]
  rfl

theorem FrontPassed.keys (hne : rest ≠ []) (hkeys : IAC ∉ rest) : FrontPassed rest := by
  intro front behind lines looked fuel hlooked hfuel
  obtain ⟨c, rest, rfl⟩ := List.exists_cons_of_ne_nil hne
  obtain ⟨fuel, rfl⟩ := Nat.exists_eq_succ_of_ne_zero (Nat.ne_zero_of_lt hfuel)
  have hc : c ≠ IAC := fun h => hkeys (h ▸ List.mem_cons_self)
  have hget := getElem?_append_cons front (rest ++ behind) c
  rw [List.cons_append, loop, Front.turn, hget]
  simp only [Option.bind_eq_bind, Option.bind_some, hc, false_and, if_false]
  refine ⟨_, rfl, ?_, [], c :: rest, [], rfl, hne, hkeys, rfl, rfl, rfl, .inl rfl⟩
  rw [List.length_cons] at hlooked ⊢
  exact Nat.max_le.mpr ⟨hlooked, by omega⟩

/-- One command more at the front. -/
theorem FrontPassed.command (h : FrontPassed rest) {command : Bytes} {item : Item}
    (hread : read .text (IAC :: command) = (.text, [item])) (hbyte : item.byte? = none)
    (hcount : ∀ lines behind, ∃ looked ≤ (IAC :: command ++ rest).length, ∃ lines',
      iacCount lines (IAC :: command ++ rest ++ behind) =
        some ⟨(IAC :: command).length, looked, lines'⟩ ∧
      (lines' = lines ∨ item.height? = some lines' ∧ 24 ≤ lines' ∧ lines' ≤ 100)) :
    FrontPassed (IAC :: command ++ rest) := by
  intro front behind lines looked fuel hlooked hfuel
  obtain ⟨fuel, rfl⟩ := Nat.exists_eq_succ_of_ne_zero (Nat.ne_zero_of_lt hfuel)
  obtain ⟨looked', hlooked', lines', hiac, hheight⟩ := hcount lines behind
  have hget : (front ++ (IAC :: command ++ rest ++ behind))[front.length]? = some IAC :=
    getElem?_append_cons front (command ++ rest ++ behind) IAC
  have hlt : front.length < front.length + (IAC :: command ++ rest).length :=
    Nat.lt_add_of_pos_right (Nat.succ_pos _)
  have hturn : Front.turn (front ++ (IAC :: command ++ rest ++ behind))
      (front.length + (IAC :: command ++ rest).length) ⟨front.length, looked, lines⟩ =
      some (.inl ⟨(front ++ IAC :: command).length,
        max (max looked (front.length + 1)) (front.length + looked'), lines'⟩) := by
    simp only [Front.turn, hget, Option.bind_eq_bind, Option.bind_some, hlt, and_true, if_true,
      List.drop_left, hiac]
    rw [List.length_append]
  have hsplit : front ++ (IAC :: command ++ rest ++ behind) =
      (front ++ IAC :: command) ++ (rest ++ behind) := by
    simp only [List.append_assoc]
  have hlen : front.length + (IAC :: command ++ rest).length =
      (front ++ IAC :: command).length + rest.length := by
    rw [List.length_append, List.length_append, Nat.add_assoc]
  obtain ⟨f, hf, hwithin, commands, keys, items, hrest, hne, hkeys, hat, hitems, hplain, hlines⟩ :=
    h (front ++ IAC :: command) behind lines'
      (max (max looked (front.length + 1)) (front.length + looked')) fuel
      (by rw [← hlen]; exact Nat.max_le.mpr ⟨Nat.max_le.mpr ⟨hlooked, hlt⟩, by omega⟩)
      (by rw [List.length_append, List.length_cons] at hfuel; omega)
  refine ⟨f, ?_, ⟨hlen ▸ hwithin, IAC :: command ++ commands, keys, item :: items, ?_, hne, hkeys,
    ?_, ?_, ?_, ?_⟩⟩
  · rw [loop, hturn, hsplit, hlen]
    exact hf
  · rw [hrest, List.append_assoc]
  · rw [hat, List.length_append, List.length_append, Nat.add_assoc]
  · rw [read_append_text hread, hitems]
    rfl
  · rw [plain, List.filterMap_cons_none hbyte]
    exact hplain
  · rcases hlines with hsame | ⟨hmem, hrange⟩
    · rw [hsame]
      refine hheight.imp_right fun hnew => ⟨?_, hnew.2⟩
      rw [heights, List.filterMap_cons_some hnew.1]
      exact List.mem_cons_self
    · refine .inr ⟨?_, hrange⟩
      rw [heights, List.filterMap_cons]
      split
      · exact hmem
      · exact List.mem_cons_of_mem _ hmem

/-- The height that is taken is that of the command. -/
theorem window_height {w₁ w₂ h₁ h₂ : UInt8}
    (hheight : h₁ = 0 ∨ ¬(24 ≤ h₂.toNat ∧ h₂.toNat ≤ 100)) (lines : Nat) :
    ∃ lines', (if h₂.toNat ≠ lines ∧ 24 ≤ h₂.toNat ∧ h₂.toNat ≤ 100 then h₂.toNat else lines) =
      lines' ∧ (lines' = lines ∨
        (Item.subnegotiation [NAWS, w₁, w₂, h₁, h₂]).height? = some lines' ∧
          24 ≤ lines' ∧ lines' ≤ 100) := by
  split
  case isFalse => exact ⟨lines, rfl, .inl rfl⟩
  case isTrue h =>
    obtain rfl := hheight.resolve_right (not_not_intro h.2)
    refine ⟨_, rfl, .inr ⟨?_, h.2⟩⟩
    rw [Item.height?, if_pos rfl]
    exact congrArg some (Nat.zero_add _)

theorem Readable.front (h : Readable data) : FrontPassed data := by
  induction h with
  | keys hne hkeys => exact .keys hne hkeys
  | negotiation hverb _ ih =>
    apply ih.command (read_negotiation _ hverb) rfl
    exact fun lines behind => ⟨2, by simp, lines, iacCount_negotiation hverb, .inl rfl⟩
  | @window w₁ w₂ h₁ h₂ rest hdata hheight _ ih =>
    have hcontent : IAC ∉ [NAWS, w₁, w₂, h₁, h₂] := by
      rw [List.mem_cons, not_or]
      exact ⟨by decide, hdata⟩
    apply ih.command (read_subnegotiation (escapes_self hcontent)) rfl
    intro lines behind
    obtain ⟨lines', hlines', hsize⟩ := window_height hheight lines
    exact ⟨9, by simp, lines', hlines' ▸ iacCount_window, hsize⟩
  | sub hescapes hninth _ ih =>
    apply ih.command (read_subnegotiation hescapes) rfl
    intro lines behind
    obtain ⟨looked, hlooked, hcount⟩ := iacCount_sub hescapes behind hninth
    exact ⟨looked, hlooked, lines, hcount, .inl rfl⟩
end

/-! ## What the events keep -/

theorem keysOf_concat (before : UInt8) (bytes : Bytes) (c : UInt8) :
    keysOf before (bytes ++ [c]) = keysOf before bytes ++ keysOf (bytes.getLastD before) [c] := by
  induction bytes generalizing before with
  | nil => rfl
  | cons b bytes ih =>
    rw [List.cons_append, keysOf, ih, List.getLastD_cons, ← List.append_assoc]
    rfl

/-- Of the byte before only counts whether it has ended a line. -/
theorem keysOf_congr {before before' : UInt8} (h : before = 13 ↔ before' = 13) (bytes : Bytes) :
    keysOf before bytes = keysOf before' bytes := by
  cases bytes with
  | nil => rfl
  | cons c bytes => simp only [keysOf, h]

namespace Input
variable {s : Input} {lines : Nat}

/-- With what is delivered: `igetch` does not wait for more than is there, and remembers whether the
last byte has ended a line. -/
structure Kept (lines : Nat) (s : Input) : Prop extends Delivered lines s where
  idle : s.reading = false
  place : s.icurrchar ≤ s.ibufsize
  filled : s.ibufsize ≤ s.inbuf.length
  line : s.trailing = decide (s.taken.getLastD 0 = 13)

theorem Kept.start (inbuf : Bytes) (lines : Nat) : (start inbuf lines).Kept lines where
  within := rfl
  whole := rfl
  bytes := rfl
  keys := rfl
  height := .inl rfl
  idle := rfl
  place := Nat.le_refl _
  filled := Nat.zero_le _
  line := rfl

/-- A byte is one key, or none. -/
theorem key_eq (s : Input) (ch : UInt8) : s.key ch =
    { s with
      trailing := decide (ch = 13)
      keys := s.keys ++ keysOf (if s.trailing then 13 else 0) [ch] } := by
  have hbefore : (if s.trailing = true then (13 : UInt8) else 0) = 13 ↔ s.trailing = true := by
    split <;> simp_all
  rw [key, keysOf, keysOf]
  simp only [hbefore, List.append_nil]
  by_cases hline : s.trailing = true ∧ (ch = 0 ∨ ch = 10)
  · have hch : ch ≠ 13 := by
      rcases hline.2 with rfl | rfl
      · decide
      · decide
    simp [hline, hch]
  · by_cases hredraw : ch = 12
    · subst hredraw
      simp
    · by_cases hreturn : ch = 13
      · subst hreturn
        simp
      · simp [hline, hredraw, hreturn]

theorem Kept.take (h : s.Kept lines) (hleft : s.ibufsize ≠ s.icurrchar) :
    ∃ s', s.take = some s' ∧ s'.Kept lines := by
  have hlt : s.icurrchar < s.ibufsize := Nat.lt_of_le_of_ne h.place (Ne.symm hleft)
  obtain ⟨ch, hget⟩ : ∃ ch, s.inbuf[s.icurrchar]? = some ch :=
    ⟨_, List.getElem?_eq_getElem (Nat.lt_of_lt_of_le hlt h.filled)⟩
  have hbyte : (s.inbuf.drop s.icurrchar).take (s.ibufsize - s.icurrchar) =
      ch :: (s.inbuf.drop (s.icurrchar + 1)).take (s.ibufsize - (s.icurrchar + 1)) := by
    obtain ⟨hin, rfl⟩ := List.getElem?_eq_some_iff.mp hget
    rw [List.drop_eq_getElem_cons hin, ← List.take_succ_cons, Nat.sub_add_eq,
      Nat.sub_one_add_one (Nat.sub_ne_zero_of_lt hlt)]
  have hline : (if s.trailing = true then (13 : UInt8) else 0) = 13 ↔
      s.taken.getLastD 0 = 13 := by
    simp [h.line]
  rw [Input.take, hget]
  refine ⟨_, rfl, ?_⟩
  rw [key_eq]
  refine ⟨⟨?_, h.whole, ?_, ?_, h.height⟩, h.idle, hlt, h.filled, ?_⟩
  · simp [h.within, hlt]
  · rw [h.bytes, hbyte, List.append_assoc]
    rfl
  · change s.keys ++ _ = _
    rw [keysOf_concat, keysOf_congr hline, h.keys]
  · simp

theorem Kept.receive (h : s.Kept lines) {data : Bytes} (hempty : s.ibufsize = s.icurrchar)
    (hdata : Readable data) : ∃ s', s.receive data = some s' ∧ s'.Kept lines := by
  have hinbuf : overlay s.inbuf 0 data = [] ++ (data ++ s.inbuf.drop data.length) := by
    rw [overlay, List.take_zero, Nat.zero_add, List.append_assoc]
  obtain ⟨f, hf, hwithin, commands, rest, items, hsplit, hne, hkeys, hat, hread, hplain, hlines⟩ :=
    hdata.front [] (s.inbuf.drop data.length) s.tLines 0 (data.length + 1) (Nat.zero_le _)
      (Nat.lt_succ_self _)
  rw [← hinbuf] at hf
  simp only [List.length_nil, Nat.zero_add] at hf hwithin hat
  have hlt : f.icurrchar < data.length := by
    rw [hat, hsplit, List.length_append]
    exact Nat.lt_add_of_pos_right (List.length_pos_iff.mpr hne)
  have hitems : read .text data = (.text, items ++ rest.map .data) := by
    rw [hsplit, read_append_text hread, read_data hkeys]
  have hreceived : read .text (s.received ++ data) =
      (.text, (read .text s.received).2 ++ (items ++ rest.map .data)) := by
    rw [read_append_text (Prod.ext h.whole rfl), hitems]
  have htaken : plain (read .text s.received).2 = s.taken := by
    rw [h.bytes, hempty, Nat.sub_self, List.take_zero, List.append_nil]
  have hrest : (List.drop f.icurrchar (overlay s.inbuf 0 data)).take
      (data.length - f.icurrchar) = rest := by
    rw [hinbuf, List.nil_append, hat, hsplit, List.append_assoc, List.drop_left, List.length_append,
      Nat.add_sub_cancel_left, List.take_left]
  rw [Input.receive]
  simp only [hf, Option.bind_eq_bind, Option.bind_some, Nat.not_le.mpr hlt, if_false]
  refine ⟨_, rfl, ⟨?_, ?_, ?_, h.keys, ?_⟩, rfl, Nat.le_of_lt hlt, ?_, h.line⟩
  · simp [h.within, hwithin]
  · exact congrArg Prod.fst hreceived
  · change plain (read .text (s.received ++ data)).2 = _
    rw [hreceived, plain_append, plain_append, hplain, plain_data, htaken, hrest]
    rfl
  · change f.tLines = lines ∨ f.tLines ∈ heights (read .text (s.received ++ data)).2 ∧ _
    rw [hreceived, heights_append, heights_append]
    rcases hlines with hsame | ⟨hmem, hrange⟩
    · rw [hsame]
      exact h.height.imp_right fun hold => ⟨List.mem_append_left _ hold.1, hold.2⟩
    · exact .inr ⟨List.mem_append_right _ (List.mem_append_left _ hmem), hrange⟩
  · rw [hinbuf, List.nil_append, List.length_append]
    exact Nat.le_add_right _ _

theorem Kept.step (h : s.Kept lines) {e : InputEvent} (he : s.awaits e = true) (hfits : e.Fits) :
    ∃ s', s.step e = some s' ∧ s'.Kept lines := by
  rw [Input.step, if_pos he]
  cases e with
  | receive data =>
    simp only [awaits, waits, h.idle, Bool.false_or, Bool.and_eq_true, decide_eq_true_eq] at he
    exact h.receive he.1.1 hfits
  | giveUp =>
    refine ⟨_, rfl, ?_⟩
    rw [← h.idle]
    exact h
  | take =>
    simp only [awaits, waits, h.idle, Bool.false_or, Bool.not_eq_true',
      decide_eq_false_iff_not] at he
    exact h.take he

/-- In runs of reads that are taken as they should be `igetch` goes on wherever it may, and gives
the bytes that belong to no command. -/
theorem delivered_of_reach {inbuf : Bytes}
    (h : Reach Input.step (fun _ e => e.Fits) (Input.start inbuf lines) s) :
    s.Delivered lines ∧ ∀ e, s.awaits e = true → e.Fits → ∃ s', s.step e = some s' := by
  have hkept : s.Kept lines := by
    apply h.invariant (Kept lines) (Kept.start inbuf lines)
    intro s e s' hs hfits hstep
    have he : s.awaits e = true := by
      by_contra hnot
      rw [Input.step, if_neg hnot] at hstep
      cases hstep
    obtain ⟨_, hs', hkept'⟩ := hs.step he hfits
    rw [hstep] at hs'
    exact Option.some.inj hs' ▸ hkept'
  refine ⟨hkept.toDelivered, fun e he hfits => ?_⟩
  obtain ⟨s', hs', -⟩ := hkept.step he hfits
  exact ⟨s', hs'⟩

/-- A window of 40 lines, an option that is asked for, and two keys, one of them taken. -/
theorem delivered_of_reach_demo :
    ∃ s : Input, (s.tLines, s.taken, s.keys) = (40, [97], [97]) ∧ s.Delivered 24 ∧
      ∀ e, s.awaits e = true → e.Fits → ∃ s', s.step e = some s' := by
  let data : Bytes := [IAC, SB, NAWS, 0, 80, 0, 40, IAC, SE, IAC, DO, 1, 97, 13]
  have hread : Readable data :=
    .window (by decide) (.inl rfl) (.negotiation rfl (.keys (by decide) (by decide)))
  obtain ⟨s₁, h₁, s₂, h₂, hs₂⟩ : ∃ s₁,
      (start (.replicate 256 0) 24).step (.receive data) = some s₁ ∧
      ∃ s₂, s₁.step .take = some s₂ ∧ (s₂.tLines, s₂.taken, s₂.keys) = (40, [97], [97]) :=
    ⟨_, rfl, _, rfl, rfl⟩
  have hreach : Reach Input.step (fun _ e => e.Fits) (start (.replicate 256 0) 24) s₁ :=
    .step .refl (.receive data) hread h₁
  exact ⟨s₂, hs₂, delivered_of_reach (hreach.step .take trivial h₂)⟩

/-- A negotiation behind a key is given as keys. -/
theorem not_delivered_of_reach :
    ¬ ∀ (inbuf : Bytes) (lines : Nat) (s : Input),
      Reach Input.step (fun _ _ => True) (Input.start inbuf lines) s → s.Delivered lines := by
  intro h
  let data : Bytes := [97, IAC, DO, 1]
  obtain ⟨s₁, h₁, s₂, h₂, s₃, h₃, hs₃⟩ : ∃ s₁,
      (start (.replicate 256 0) 24).step (.receive data) = some s₁ ∧
      ∃ s₂, s₁.step .take = some s₂ ∧ ∃ s₃, s₂.step .take = some s₃ ∧
        (s₃.received, s₃.taken) = (data, [97, 255]) := ⟨_, rfl, _, rfl, _, rfl, rfl⟩
  have hreach : Reach Input.step (fun _ _ => True) (start (.replicate 256 0) 24) s₁ :=
    .step .refl (.receive data) trivial h₁
  have hbytes := (h _ _ _ ((hreach.step .take trivial h₂).step .take trivial h₃)).bytes
  obtain ⟨hreceived, htaken⟩ := Prod.mk.inj hs₃
  rw [hreceived, htaken] at hbytes
  have hlen := congrArg List.length hbytes
  rw [List.length_append] at hlen
  exact absurd (Nat.le_of_eq hlen.symm) (by
    rw [show (plain (read .text data).2).length = 1 from rfl]
    exact Nat.not_le.mpr (Nat.lt_add_right _ (by decide)))

end Input

end ArgoBbs

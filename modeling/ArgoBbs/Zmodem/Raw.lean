import ArgoBbs.Lib.CString

/-! # The connection under ZMODEM

`raw_write` and `raw_read` of `zmio.c`, which escape for telnet what a transfer sends and reads. A
read takes what has arrived and looks for escapes only inside it. -/

namespace ArgoBbs.Zmodem

/-- What `raw_write` writes for one byte. -/
def raw_byte (c : UInt8) : Bytes :=
  if c = 0xff then [0xff, 0xff] else if c = 0x0d then [0x0d, 0x00] else [c]

def raw_write (buf : Bytes) : Bytes := buf.flatMap raw_byte

/-- The second byte only escapes the first. -/
def isEscape (c d : UInt8) : Bool := c = 0xff && d = 0xff || c = 0x0d && d = 0x00

/-- The loop of `raw_read`, which takes the second byte of an escape out of the buffer. -/
def raw_readFrom (i : Nat) (buf : Bytes) : Bytes :=
  if i < buf.length then
    if i > 0 ∧ isEscape (buf.getD (i - 1) 0) (buf.getD i 0) then
      raw_readFrom (i + 1) (buf.eraseIdx i)
    else raw_readFrom (i + 1) buf
  else buf
termination_by buf.length - i
decreasing_by
  · rw [List.length_eraseIdx]
    split <;> omega
  · omega

/-- What is read at once becomes this. -/
def raw_read (chunk : Bytes) : Bytes := raw_readFrom 0 chunk

/-- What the loop does: behind an escape it does not look back. -/
def unescape : Bytes → Bytes
  | [] => []
  | [c] => [c]
  | c :: d :: s => if isEscape c d then c :: unescape s else c :: unescape (d :: s)

theorem raw_readFrom_eq (front s : Bytes) :
    raw_readFrom (front.length + 1) (front ++ s) = front ++ unescape s := by
  induction s using unescape.induct generalizing front with
  | case1 =>
    rw [raw_readFrom, if_neg (by simp), unescape]
  | case2 c =>
    rw [raw_readFrom, if_neg (by simp), unescape]
  | case3 c d s hesc ih =>
    have herase : (front ++ c :: d :: s).eraseIdx (front.length + 1) = (front ++ [c]) ++ s := by
      rw [List.eraseIdx_append_of_length_le (Nat.le_succ _), Nat.succ_sub (Nat.le_refl _),
        Nat.sub_self]
      simp
    have hnext := ih (front ++ [c])
    rw [List.length_append, List.append_assoc] at hnext
    rw [raw_readFrom, if_pos (by simp), if_pos (by simp [hesc]), herase, unescape, if_pos hesc]
    simpa using hnext
  | case4 c d s hesc ih =>
    have hnext := ih (front ++ [c])
    rw [List.length_append, List.append_assoc] at hnext
    rw [raw_readFrom, if_pos (by simp), if_neg (by simp [hesc]), unescape, if_neg hesc]
    simpa using hnext

theorem raw_read_eq (chunk : Bytes) : raw_read chunk = unescape chunk := by
  rw [raw_read, raw_readFrom]
  split
  · exact raw_readFrom_eq [] chunk
  · next h =>
    obtain rfl := List.length_eq_zero_iff.mp (Nat.eq_zero_of_not_pos h)
    rfl

/-! ## What a cut does -/

/-- A byte is either written alone and begins no escape, or begins one. -/
theorem raw_write_cases (c : UInt8) :
    ((∀ text, raw_write (c :: text) = c :: raw_write text) ∧ ∀ d, isEscape c d = false) ∨
      ∃ d, (∀ text, raw_write (c :: text) = c :: d :: raw_write text) ∧ isEscape c d = true := by
  by_cases hff : c = 0xff
  · exact .inr ⟨0xff, fun _ => by rw [hff]; rfl, by rw [hff]; rfl⟩
  by_cases hcr : c = 0x0d
  · exact .inr ⟨0x00, fun _ => by rw [hcr]; rfl, by rw [hcr]; rfl⟩
  have hbyte : raw_byte c = [c] := by rw [raw_byte, if_neg hff, if_neg hcr]
  refine .inl ⟨fun text => ?_, fun d => by simp [isEscape, hff, hcr]⟩
  rw [raw_write, List.flatMap_cons, hbyte]
  rfl

theorem unescape_cons_of_not {c : UInt8} (h : ∀ d, isEscape c d = false) (s : Bytes) :
    unescape (c :: s) = c :: unescape s := by
  cases s with
  | nil => rfl
  | cons d s => rw [unescape, h d]; rfl

theorem unescape_raw_write (text s : Bytes) :
    unescape (raw_write text ++ s) = text ++ unescape s := by
  induction text with
  | nil => rfl
  | cons c text ih =>
    obtain ⟨hc, hnot⟩ | ⟨d, hc, hesc⟩ := raw_write_cases c
    · rw [hc, List.cons_append, unescape_cons_of_not hnot, ih, List.cons_append]
    · rw [hc, List.cons_append, List.cons_append, unescape, if_pos hesc, ih, List.cons_append]

theorem unescape_raw_write_length (text : Bytes) :
    (unescape (raw_write text)).length = text.length := by
  have h := unescape_raw_write text []
  rw [List.append_nil] at h
  rw [h, List.length_append]
  rfl

/-- One byte more in front reads as at most one byte more, and never as fewer. -/
theorem unescape_cons_length (c : UInt8) (s : Bytes) :
    (unescape s).length ≤ (unescape (c :: s)).length ∧
      (unescape (c :: s)).length ≤ (unescape s).length + 1 := by
  induction s generalizing c with
  | nil => exact ⟨Nat.zero_le _, Nat.le_refl _⟩
  | cons d s ih =>
    obtain ⟨hle, hge⟩ := ih d
    rw [unescape]
    split
    · rw [List.length_cons]
      exact ⟨hge, Nat.succ_le_succ hle⟩
    · rw [List.length_cons]
      exact ⟨Nat.le_succ _, Nat.le_refl _⟩

/-- The second byte of an escape that is read apart from the first is one byte too many. -/
theorem unescape_second {c d : UInt8} (hesc : isEscape c d = true) (text : Bytes) :
    (unescape (d :: raw_write text)).length = text.length + 1 := by
  by_cases hd : d = 0xff
  · subst hd
    induction text with
    | nil => rfl
    | cons e text ih =>
      obtain ⟨he, hnot⟩ | ⟨x, he, hx⟩ := raw_write_cases e
      all_goals rw [he, unescape]
      · have hne : isEscape 0xff e = false := by
          by_contra h
          have he : e = 0xff := by simpa [isEscape] using h
          exact absurd (he ▸ hnot 0xff) (by decide)
        rw [hne, if_neg nofun, unescape_cons_of_not hnot, List.length_cons, List.length_cons,
          unescape_raw_write_length, List.length_cons]
      · split
        · next h =>
          have he : e = 0xff := by simpa [isEscape] using h
          have hx : x = 0xff := by simpa [isEscape, he] using hx
          rw [List.length_cons, hx, ih, List.length_cons]
        · rw [List.length_cons, unescape, if_pos hx, List.length_cons, unescape_raw_write_length,
            List.length_cons]
  · have hnot : ∀ x, isEscape d x = false := by
      have h0 : d = 0x00 := by
        simp only [isEscape, hd, decide_false, Bool.and_false, Bool.false_or, Bool.and_eq_true,
          decide_eq_true_eq] at hesc
        exact hesc.2
      exact fun x => by simp [isEscape, h0]
    rw [unescape_cons_of_not hnot, List.length_cons, unescape_raw_write_length]

/-- A cut through what was written falls between two bytes of the text, or inside an escape. -/
theorem cut_cases {chunk rest text : Bytes} (h : chunk ++ rest = raw_write text) :
    ∃ front back, text = front ++ back ∧
      (chunk = raw_write front ∧ rest = raw_write back ∨
        ∃ c d tail, back = c :: tail ∧ isEscape c d = true ∧ chunk = raw_write front ++ [c] ∧
          rest = d :: raw_write tail) := by
  induction text generalizing chunk with
  | nil =>
    obtain ⟨rfl, rfl⟩ := List.append_eq_nil_iff.mp h
    exact ⟨[], [], rfl, .inl ⟨rfl, rfl⟩⟩
  | cons c text ih =>
    cases chunk with
    | nil => exact ⟨[], c :: text, rfl, .inl ⟨rfl, h⟩⟩
    | cons x chunk =>
      obtain ⟨hc, -⟩ | ⟨d, hc, hesc⟩ := raw_write_cases c
      all_goals
        rw [hc, List.cons_append, List.cons.injEq] at h
        obtain ⟨rfl, h⟩ := h
      · obtain ⟨front, back, rfl, ⟨rfl, hrest⟩ | ⟨c, d, tail, hback, hesc, rfl, hrest⟩⟩ := ih h
        · exact ⟨x :: front, back, rfl, .inl ⟨(hc _).symm, hrest⟩⟩
        · exact ⟨x :: front, back, rfl, .inr ⟨c, d, tail, hback, hesc, by rw [hc]; rfl, hrest⟩⟩
      cases chunk with
      | nil => exact ⟨[], x :: text, rfl, .inr ⟨x, d, text, rfl, hesc, rfl, h⟩⟩
      | cons y chunk =>
        obtain ⟨rfl, hcut⟩ := List.cons.inj h
        obtain ⟨front, back, rfl, ⟨rfl, hrest⟩ | ⟨c, d, tail, hback, hesc, rfl, hrest⟩⟩ := ih hcut
        · exact ⟨x :: front, back, rfl, .inl ⟨(hc _).symm, hrest⟩⟩
        · exact ⟨x :: front, back, rfl, .inr ⟨c, d, tail, hback, hesc, by rw [hc]; rfl, hrest⟩⟩

/-- Reads that together take in what was written give the text when none ends inside an escape, and
are longer than the text otherwise; so are reads that begin with the second byte of an escape. -/
theorem flatMap_unescape (chunks : List Bytes) :
    (∀ text, chunks.flatten = raw_write text →
      text.length < (chunks.flatMap unescape).length ∨
        chunks.flatMap unescape = text ∧
          ∃ parts : List Bytes, chunks = parts.map raw_write ∧ parts.flatten = text) ∧
    ∀ c d text, isEscape c d = true → chunks.flatten = d :: raw_write text →
      text.length < (chunks.flatMap unescape).length := by
  induction chunks with
  | nil =>
    refine ⟨fun text h => ?_, fun c d text _ h => absurd h nofun⟩
    cases text with
    | nil => exact .inr ⟨rfl, [], rfl, rfl⟩
    | cons c text =>
      obtain ⟨hc, -⟩ | ⟨d, hc, -⟩ := raw_write_cases c <;> exact absurd (h.trans (hc text)) nofun
  | cons chunk chunks ih =>
    obtain ⟨ihtext, ihsecond⟩ := ih
    have hlength (text : Bytes) (h : chunks.flatten = raw_write text) :
        text.length ≤ (chunks.flatMap unescape).length :=
      (ihtext text h).elim Nat.le_of_lt fun h => Nat.le_of_eq (congrArg List.length h.1.symm)
    constructor
    · intro text h
      obtain ⟨front, back, rfl, ⟨rfl, hrest⟩ | ⟨c, d, tail, rfl, hesc, rfl, hrest⟩⟩ := cut_cases h
      · have hfront := unescape_raw_write front []
        rw [List.append_nil] at hfront
        rw [List.flatMap_cons, hfront]
        obtain hlt | ⟨heq, parts, rfl, rfl⟩ := ihtext back hrest
        · left
          rw [List.length_append, List.length_append]
          exact Nat.add_lt_add_of_le_of_lt (by simp [unescape]) hlt
        · right
          refine ⟨?_, front :: parts, rfl, rfl⟩
          rw [heq, unescape, List.append_nil]
      · left
        have hsecond := ihsecond c d tail hesc hrest
        rw [List.flatMap_cons, unescape_raw_write]
        simp only [List.length_append, List.length_cons, unescape, List.length_nil]
        omega
    · intro c d text hesc h
      cases chunk with
      | nil => exact ihsecond c d text hesc h
      | cons x chunk =>
        obtain ⟨rfl, hcut⟩ := List.cons.inj h
        obtain ⟨front, back, rfl, ⟨rfl, hrest⟩ | ⟨c', d', tail, rfl, hesc', rfl, hrest⟩⟩ :=
          cut_cases hcut
        · have hback := hlength back hrest
          rw [List.flatMap_cons, List.length_append, List.length_append, unescape_second hesc]
          omega
        · have hsecond := ihsecond c' d' tail hesc' hrest
          have hfirst := (unescape_cons_length x (raw_write front ++ [c'])).1
          rw [unescape_raw_write] at hfirst
          rw [List.flatMap_cons]
          simp only [List.length_append, List.length_cons, unescape, List.length_nil] at hfirst ⊢
          omega

end ArgoBbs.Zmodem

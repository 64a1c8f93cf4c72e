import ArgoBbs.Lib.StringBuffer

/-! # The colour codes of the chat

`transPERstr` writes a text with its colour codes as escape sequences into the buffer of its caller,
`printchatline` or `chat_recv`, which is as the stack left it (`chat.c`). -/

namespace ArgoBbs

/-- `buf[i++] = c` for one byte after the other: the place behind them and the buffer. -/
def putsTo (size : Nat) : Bytes → (i : Nat) → (buf : Bytes) → Option (Nat × Bytes)
  | [], i, buf => some (i, buf)
  | c :: cs, i, buf => do
    let buf ← putTo size buf i c
    putsTo size cs (i + 1) buf

/-- The loop of `transPERstr`. -/
def transPERLoop (size : Nat) : (p : Bytes) → (i : Nat) → (tmpstr : Bytes) → Option (Nat × Bytes)
  | [], i, tmpstr => some (i, tmpstr)
  | c :: p, i, tmpstr =>
    if c = 37 then
      match p with
      | [] => putsTo size [37] i tmpstr
      | d :: p =>
        let written :=
          if d = 37 then putsTo size [37] i tmpstr
          else if 48 < d ∧ d ≤ 55 then putsTo size [27, 91, 51, d, 109] i tmpstr
          else if d = 48 then putsTo size [27, 91, 48, 109] i tmpstr
          else putsTo size [37, d] i tmpstr
        written.bind fun r => transPERLoop size p r.1 r.2
    else (putsTo size [c] i tmpstr).bind fun r => transPERLoop size p r.1 r.2

/-- `transPERstr`, for a buffer of the size. -/
def transPERstr (size : Nat) (str tmpstr : Bytes) : Option Bytes := do
  let old ← cstr tmpstr
  let tmpstr := overlay tmpstr 0 (List.replicate old.length 0)
  let r ← transPERLoop size str 0 tmpstr
  let r ← putsTo size [27, 91, 51, 55, 109] r.1 r.2
  putTo size r.2 r.1 0

/-! ## The text that is meant -/

/-- The sequence for a colour; 0 is the plain one. -/
def colourSequence (d : UInt8) : Bytes := if d = 48 then [27, 91, 48, 109] else [27, 91, 51, d, 109]

def closingSequence : Bytes := [27, 91, 51, 55, 109]

/-- The text with the colour codes replaced. -/
def replaceCodes : Bytes → Bytes
  | [] => []
  | c :: text =>
    match text with
    | [] => [c]
    | d :: rest =>
      if c = 37 ∧ d = 37 then 37 :: replaceCodes rest
      else if c = 37 ∧ 48 ≤ d ∧ d ≤ 55 then colourSequence d ++ replaceCodes rest
      else c :: replaceCodes (d :: rest)

variable {size i : Nat} {cs ds text buf : Bytes} {c d : UInt8}

theorem putsTo_append : putsTo size (cs ++ ds) i buf =
    (putsTo size cs i buf).bind fun r => putsTo size ds r.1 r.2 := by
  induction cs generalizing i buf with
  | nil => rfl
  | cons c cs ih =>
    rw [List.cons_append, putsTo, putsTo, Option.bind_eq_bind, Option.bind_assoc]
    congr 1
    funext buf
    exact ih

theorem overlay_set (hi : i < buf.length) :
    overlay (buf.set i c) (i + 1) cs = overlay buf i (c :: cs) := by
  have htake : (buf.set i c).take (i + 1) = buf.take i ++ [c] := by
    rw [List.take_add_one, List.take_set_of_le (Nat.le_refl i), List.getElem?_set_self hi]
    rfl
  rw [overlay, overlay, htake, List.drop_set_of_lt (by omega), List.length_cons,
    List.append_assoc _ [c], Nat.add_right_comm, Nat.add_assoc i]
  rfl

/-- All is written, if there is room for it. -/
theorem putsTo_eq (cs : Bytes) (hbuf : buf.length = size) (hi : i ≤ size) :
    putsTo size cs i buf = (store buf i cs).map (i + cs.length, ·) := by
  induction cs generalizing i buf with
  | nil =>
    rw [store_eq (by rw [hbuf]; exact hi), putsTo, overlay, List.append_nil,
      List.length_nil, Nat.add_zero, List.take_append_drop]
    rfl
  | cons c cs ih =>
    rw [putsTo]
    rcases Nat.lt_or_ge i size with hlt | hge
    · have hset : (buf.set i c).length = size := List.length_set.trans hbuf
      rw [putTo_eq hlt, Option.bind_eq_bind, Option.bind_some, ih hset hlt, store, store, hset,
        overlay_set (hbuf ▸ hlt), hbuf, List.length_cons, Nat.succ_add_eq_add_succ]
    · have hput : putTo size buf i c = none := if_neg (Nat.not_lt.mpr hge)
      have hstore : store buf i (c :: cs) = none := by
        rw [store, if_neg]
        rw [hbuf, List.length_cons]
        omega
      rw [hput, hstore]
      rfl

theorem replaceCodes_cons (hc : c ≠ 37) : replaceCodes (c :: text) = c :: replaceCodes text := by
  cases text with
  | nil => rfl
  | cons d rest => rw [replaceCodes, if_neg fun h => hc h.1, if_neg fun h => hc h.1]

/-- What the loop writes is the text with the codes replaced. -/
theorem transPERLoop_eq (text : Bytes) (i : Nat) (buf : Bytes) :
    transPERLoop size text i buf = putsTo size (replaceCodes text) i buf := by
  induction hlen : text.length using Nat.strong_induction_on generalizing text i buf with
  | h n ih =>
    cases text with
    | nil => rfl
    | cons c text =>
      rw [transPERLoop.eq_def]
      dsimp only
      by_cases hc : c = 37
      · subst hc
        rw [if_pos rfl]
        cases text with
        | nil => rfl
        | cons d rest =>
          have hrest := ih rest.length (by rw [← hlen, List.length_cons, List.length_cons]; omega) rest
          have hwritten : ∀ cs : Bytes, (putsTo size cs i buf).bind
              (fun r => transPERLoop size rest r.1 r.2) = putsTo size (cs ++ replaceCodes rest) i buf := by
            intro cs
            rw [putsTo_append]
            congr 1
            funext r
            exact hrest r.1 r.2 rfl
          dsimp only
          rw [replaceCodes]
          by_cases hpercent : d = 37
          · rw [if_pos hpercent, hwritten, if_pos ⟨rfl, hpercent⟩]
            rfl
          have hdouble : ¬((37 : UInt8) = 37 ∧ d = 37) := fun h => hpercent h.2
          rw [if_neg hpercent, if_neg hdouble]
          by_cases hcolour : 48 < d ∧ d ≤ 55
          · have hcode : (37 : UInt8) = 37 ∧ 48 ≤ d ∧ d ≤ 55 :=
              ⟨rfl, UInt8.le_of_lt hcolour.1, hcolour.2⟩
            have hnot : d ≠ 48 := fun h => UInt8.lt_irrefl _ (h ▸ hcolour.1)
            rw [if_pos hcolour, hwritten, if_pos hcode, colourSequence, if_neg hnot]
          rw [if_neg hcolour]
          by_cases hplain : d = 48
          · have hcode : (37 : UInt8) = 37 ∧ 48 ≤ d ∧ d ≤ 55 := by
              rw [hplain]
              decide
            rw [if_pos hplain, hwritten, if_pos hcode, colourSequence, if_pos hplain]
          · have hcode : ¬((37 : UInt8) = 37 ∧ 48 ≤ d ∧ d ≤ 55) := fun h =>
              hcolour ⟨UInt8.lt_of_le_of_ne h.2.1 (Ne.symm hplain), h.2.2⟩
            rw [if_neg hplain, hwritten, if_neg hcode, replaceCodes_cons hpercent]
            rfl
      · have hrest := ih text.length (by rw [← hlen]; exact Nat.lt_succ_self _) text
        rw [if_neg hc, replaceCodes_cons hc]
        change _ = putsTo size ([c] ++ replaceCodes text) i buf
        rw [putsTo_append]
        congr 1
        funext r
        exact hrest r.1 r.2 rfl

theorem zero_not_mem_colourSequence (hd : d ≠ 0) : 0 ∉ colourSequence d := by
  rw [colourSequence]
  split
  · decide
  · simp [Ne.symm hd]

theorem zero_not_mem_replaceCodes (htext : 0 ∉ text) : 0 ∉ replaceCodes text := by
  induction text using replaceCodes.induct with
  | case1 => exact htext
  | case2 c => exact htext
  | case3 c d rest hpercent ih =>
    rw [List.mem_cons, List.mem_cons, not_or, not_or] at htext
    rw [replaceCodes, if_pos hpercent, List.mem_cons, not_or]
    exact ⟨by decide, ih htext.2.2⟩
  | case4 c d rest hpercent hcode ih =>
    rw [List.mem_cons, List.mem_cons, not_or, not_or] at htext
    rw [replaceCodes, if_neg hpercent, if_pos hcode, List.mem_append, not_or]
    exact ⟨zero_not_mem_colourSequence (Ne.symm htext.2.1), ih htext.2.2⟩
  | case5 c d rest hpercent hcode ih =>
    rw [List.mem_cons, not_or] at htext
    rw [replaceCodes, if_neg hpercent, if_neg hcode, List.mem_cons, not_or]
    exact ⟨htext.1, ih htext.2⟩

theorem length_colourSequence (d : UInt8) : (colourSequence d).length ≤ 5 := by
  rw [colourSequence]
  split
  · exact Nat.le_succ 4
  · exact Nat.le_refl 5

/-- Two bytes become at most five. -/
theorem length_replaceCodes (text : Bytes) : 2 * (replaceCodes text).length ≤ 5 * text.length := by
  induction text using replaceCodes.induct with
  | case1 => exact Nat.zero_le _
  | case2 c =>
    rw [replaceCodes, List.length_singleton]
    decide
  | case3 c d rest hpercent ih =>
    rw [replaceCodes, if_pos hpercent]
    simp only [List.length_cons]
    omega
  | case4 c d rest hpercent hcode ih =>
    have hsequence := length_colourSequence d
    rw [replaceCodes, if_neg hpercent, if_pos hcode]
    simp only [List.length_cons, List.length_append]
    omega
  | case5 c d rest hpercent hcode ih =>
    rw [replaceCodes, if_neg hpercent, if_neg hcode]
    simp only [List.length_cons] at ih ⊢
    omega

theorem length_cleared {old : Bytes} (hold : cstr buf = some old) :
    (overlay buf 0 (List.replicate old.length 0)).length = buf.length := by
  apply length_overlay
  rw [List.length_replicate, Nat.zero_add]
  exact Nat.le_of_lt (lt_of_cstr hold)

theorem putTo_eq_putsTo (r : Nat × Bytes) :
    putTo size r.2 r.1 c = (putsTo size [c] r.1 r.2).map (·.2) := by
  rw [putsTo]
  cases putTo size r.2 r.1 c with
  | none => rfl
  | some buf => rfl

/-- What is written behind one another. -/
theorem transPERstr_eq {old : Bytes} (hsize : buf.length = size) (hold : cstr buf = some old) :
    transPERstr size text buf = store (overlay buf 0 (List.replicate old.length 0)) 0
      (replaceCodes text ++ closingSequence ++ [0]) := by
  have hall := putsTo_eq (replaceCodes text ++ closingSequence ++ [0])
    ((length_cleared hold).trans hsize) (Nat.zero_le _)
  rw [putsTo_append, putsTo_append, ← transPERLoop_eq] at hall
  calc transPERstr size text buf
    _ = (((transPERLoop size text 0 (overlay buf 0 (List.replicate old.length 0))).bind
          fun r => putsTo size closingSequence r.1 r.2).bind
            fun r => putsTo size [0] r.1 r.2).map (·.2) := by
      rw [transPERstr, hold, Option.bind_eq_bind, Option.bind_some, Option.map_bind, Option.bind_assoc]
      dsimp only
      congr 1
      funext r
      congr 1
      funext r
      exact putTo_eq_putsTo r
    _ = store (overlay buf 0 (List.replicate old.length 0)) 0
          (replaceCodes text ++ closingSequence ++ [0]) := by
      rw [hall, Option.map_map]
      exact Option.map_id'

/-- The text is written as it is meant, and nothing beside the buffer, just if there is a zero byte
somewhere in the buffer and the text that is meant fits. -/
theorem transPERstr_iff (str : Bytes) (hstr : 0 ∉ str) (tmpstr : Bytes) (hsize : tmpstr.length = size) :
    (∃ written, transPERstr size str tmpstr = some written ∧
        cstr written = some (replaceCodes str ++ closingSequence)) ↔
      0 ∈ tmpstr ∧ (replaceCodes str).length + 6 ≤ size := by
  cases hold : cstr tmpstr with
  | none =>
    have hzero : 0 ∉ tmpstr := fun h => by
      rw [← cstr_isSome_iff, hold] at h
      cases h
    refine iff_of_false (fun h => ?_) fun h => hzero h.1
    obtain ⟨written, h, -⟩ := h
    rw [transPERstr, hold] at h
    cases h
  | some old =>
    have hzero : 0 ∈ tmpstr := cstr_isSome_iff.mp (by rw [hold]; rfl)
    have hend : 0 ∉ replaceCodes str ++ closingSequence := by
      rw [List.mem_append, not_or]
      exact ⟨zero_not_mem_replaceCodes hstr, by decide⟩
    have hlen : (replaceCodes str ++ closingSequence ++ [0]).length = (replaceCodes str).length + 6 := by
      rw [List.length_append, List.length_append]
      rfl
    rw [transPERstr_eq hsize hold, store, length_cleared hold, hsize, hlen, Nat.zero_add, and_iff_right hzero]
    constructor
    · rintro ⟨written, hwritten, -⟩
      by_contra hlong
      rw [if_neg hlong] at hwritten
      cases hwritten
    · intro hfits
      refine ⟨_, if_pos hfits, ?_⟩
      rw [overlay, List.take_zero, List.nil_append, List.append_assoc]
      exact cstr_append hend

theorem transPERstr_iff_hello : ∃ written,
    transPERstr 256 (bytes "%1hello%0 100%%") (List.replicate 256 0) = some written ∧
      cstr written = some (replaceCodes (bytes "%1hello%0 100%%") ++ closingSequence) :=
  (transPERstr_iff (bytes "%1hello%0 100%%") (by decide) (List.replicate 256 0)
    List.length_replicate).mpr ⟨List.mem_replicate.mpr ⟨by decide, rfl⟩, by decide⟩

/-- A text of 51 colour codes is written beyond the end of the buffer. -/
theorem not_transPERstr : ¬∀ str : Bytes, 0 ∉ str → str.length ≤ 255 → ∀ tmpstr : Bytes,
    tmpstr.length = 256 → ∃ written, transPERstr 256 str tmpstr = some written ∧
      cstr written = some (replaceCodes str ++ closingSequence) := by
  intro hall
  obtain ⟨written, hwritten, -⟩ := hall (List.replicate 51 (bytes "%1")).flatten (by decide +kernel)
    (by decide +kernel) (List.replicate 256 0) List.length_replicate
  have hold : cstr (List.replicate 256 (0 : UInt8)) = some [] := by decide +kernel
  have hlen : (replaceCodes (List.replicate 51 (bytes "%1")).flatten).length = 255 := by
    decide +kernel
  rw [transPERstr_eq List.length_replicate hold, store, if_neg] at hwritten
  · cases hwritten
  · rw [length_cleared hold, List.length_replicate, List.length_append, List.length_append, hlen]
    decide

end ArgoBbs

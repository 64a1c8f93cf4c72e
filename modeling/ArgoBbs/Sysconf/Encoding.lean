import ArgoBbs.Lib.Cells
import ArgoBbs.Sysconf

/-! # The code of the blocks

`encodestr` writes the code of a line over the line, and `decodestr` prints what the code stands for;
`sysconf_addblock` stores the codes of the lines of a block one behind the other (`comm_lists.c`). -/

namespace ArgoBbs

/-- The string that `encodestr` works on, the places that it reads and writes next, and all places
written so far, each with the number of bytes that had been read. -/
structure EncodeState where
  mem : Bytes
  str : Nat
  buf : Nat
  writes : List (Nat × Nat)

namespace EncodeState

/-- `*buf++ = ch` -/
def put (s : EncodeState) (ch : UInt8) : Option EncodeState :=
  (setCell s.mem s.buf ch).map fun mem =>
    { s with mem, buf := s.buf + 1, writes := s.writes ++ [(s.buf, s.str)] }

/-- The `k` bytes from a place on are `ch`; no byte is looked at behind one that is not. -/
def allEqual (mem : Bytes) (ch : UInt8) : (k p : Nat) → Option Bool
  | 0, _ => some true
  | k + 1, p => (cell mem p).bind fun c => if c = ch then allEqual mem ch k (p + 1) else some false

/-- How many bytes from a place on are `ch`, `k` at most. -/
def countRun (mem : Bytes) (ch : UInt8) : (k p : Nat) → Option Nat
  | 0, p => (cell mem p).map fun _ => 0
  | k + 1, p =>
    (cell mem p).bind fun c => if c = ch then (countRun mem ch k (p + 1)).map (· + 1) else some 0

/-- A round of `encodestr` that has read the byte `ch`. -/
def encodeRound (s : EncodeState) (ch : UInt8) : Option EncodeState :=
  (allEqual s.mem ch 3 s.str).bind fun isRun =>
    if isRun then
      (countRun s.mem ch 96 (s.str + 3)).bind fun more =>
        (put { s with str := s.str + 3 + more } 1).bind fun s =>
          (s.put ch).bind fun s => s.put (.ofNat (4 + more))
    else s.put ch

def encodeRounds : (fuel : Nat) → EncodeState → Option EncodeState
  | 0, _ => none
  | fuel + 1, s =>
    (cell s.mem s.str).bind fun ch =>
      let s := { s with str := s.str + 1 }
      if ch = 0 then s.put 0 else (s.encodeRound ch).bind (encodeRounds fuel)

/-- `encodestr`; nothing if it leaves the memory. As many rounds as it has bytes are enough. -/
def run (mem : Bytes) : Option EncodeState := encodeRounds mem.length ⟨mem, 0, 0, []⟩

end EncodeState

/-- How often `while (--n >= 0)` goes on, for a `char`. -/
def charCount (n : UInt8) : Nat := if n < 128 then n.toNat else 0

/-- What `decodestr` prints; nothing if it leaves the memory. -/
def decodestr : Bytes → Option Bytes
  | [] => none
  | [ch] => if ch = 0 then some [] else none
  | [ch, a] =>
    if ch = 0 then some []
    else if ch ≠ 1 then (decodestr [a]).map (ch :: ·)
    else if a = 0 then decodestr [a]
    else none
  | ch :: a :: n :: rest =>
    if ch = 0 then some []
    else if ch ≠ 1 then (decodestr (a :: n :: rest)).map (ch :: ·)
    else if a ≠ 0 ∧ n ≠ 0 then (decodestr rest).map (List.replicate (charCount n) a ++ ·)
    else decodestr (a :: n :: rest)

/-- The line is encoded in place, no place is written before it has been read, what stands behind
stays, and the string is the code, from which the line is printed. -/
def EncodesRight (text : Bytes) : Prop :=
  ∀ behind, ∃ s, EncodeState.run (text ++ 0 :: behind) = some s ∧ (∀ w ∈ s.writes, w.1 < w.2) ∧
    s.mem.drop (text.length + 1) = behind ∧ cstr s.mem = some (encodestr text) ∧
    decodestr s.mem = some text

/-- What the block stores stands for the lines, whatever is stored behind it. -/
def StoresRight {w : Nat} (c : Sysconf w) (m : Malloced) (key : Bytes) (lines rest : List Bytes) :
    Prop :=
  ∃ stored, (c.addblock m key (lines ++ rest)).1.text = c.text ++ key ++ [0] ++ stored ∧
    ∀ behind, decodestr (stored ++ behind) = some lines.flatten

/-! ## Runs -/

section
variable {ch : UInt8} {more k p fuel : Nat} {text rest behind mem front : Bytes}

theorem takeWhile_run (hmore : more ≤ 96) (hrest : more = 96 ∨ rest.head? ≠ some ch) :
    (((List.replicate more ch ++ rest).takeWhile (· = ch)).take 96).length = more := by
  have hrun : (List.replicate more ch ++ rest).takeWhile (· = ch) =
      List.replicate more ch ++ rest.takeWhile (· = ch) := by
    rw [List.takeWhile_append_of_pos]
    intro c hc
    exact decide_eq_true (List.eq_of_mem_replicate hc)
  rw [hrun, List.length_take, List.length_append, List.length_replicate]
  obtain rfl | hhead := hrest
  · omega
  · cases rest with
    | nil => simp [hmore]
    | cons c rest =>
      have hc : c ≠ ch := by simpa using hhead
      simp [hc, hmore]

/-- A text is a run of at most `k` bytes and the rest. -/
theorem exists_replicate (ch : UInt8) (k : Nat) (text : Bytes) : ∃ more rest, more ≤ k ∧
    (more = k ∨ rest.head? ≠ some ch) ∧ text = List.replicate more ch ++ rest := by
  induction k generalizing text with
  | zero => exact ⟨0, text, Nat.le_refl _, .inl rfl, rfl⟩
  | succ k ih =>
    by_cases hhead : text.head? = some ch
    · obtain ⟨text, rfl⟩ := List.head?_eq_some_iff.mp hhead
      obtain ⟨more, rest, hle, hrest, rfl⟩ := ih text
      exact ⟨more + 1, rest, by omega, hrest.imp (congrArg (· + 1)) id, rfl⟩
    · exact ⟨0, text, Nat.zero_le _, .inr hhead, rfl⟩

/-- A text is empty, begins with a run that is encoded, or with a byte that stays. -/
theorem runs_induction {P : Bytes → Prop} (nil : P [])
    (run : ∀ ch more rest, more ≤ 96 → (more = 96 ∨ rest.head? ≠ some ch) → P rest →
      P (List.replicate (4 + more) ch ++ rest))
    (single : ∀ ch text, ¬List.replicate 3 ch <+: text → P text → P (ch :: text)) :
    ∀ text, P text := by
  intro text
  induction hlen : text.length using Nat.strong_induction_on generalizing text with
  | _ n ih =>
    cases text with
    | nil => exact nil
    | cons ch text =>
      rw [List.length_cons] at hlen
      by_cases hrun : List.replicate 3 ch <+: text
      · obtain ⟨text, rfl⟩ := hrun
        obtain ⟨more, rest, hle, hrest, rfl⟩ := exists_replicate ch 96 text
        rw [List.length_append, List.length_append] at hlen
        have htext : ch :: (List.replicate 3 ch ++ (List.replicate more ch ++ rest)) =
            List.replicate (4 + more) ch ++ rest := by
          rw [List.replicate_add]
          rfl
        rw [htext]
        exact run ch more rest hle hrest (ih _ (by omega) rest rfl)
      · exact single ch text hrun (ih _ (by omega) text rfl)

theorem encodeLoop_eq (h : text.length ≤ fuel) : encodeLoop fuel text = encodestr text := by
  unfold encodestr
  induction hlen : text.length using Nat.strong_induction_on generalizing text fuel with
  | _ n ih =>
    subst hlen
    cases text with
    | nil => cases fuel <;> rfl
    | cons ch text =>
      rw [List.length_cons] at h ih ⊢
      cases fuel with
      | zero => omega
      | succ fuel =>
        have heq (text' : Bytes) (hle : text'.length ≤ text.length) :
            encodeLoop fuel text' = encodeLoop text.length text' := by
          rw [ih _ (by omega) (by omega) rfl, ih _ (by omega) hle rfl]
        have hdrop (k : Nat) : (text.drop k).length ≤ text.length := by
          rw [List.length_drop]
          exact Nat.sub_le ..
        rw [encodeLoop, encodeLoop]
        dsimp only
        rw [heq _ (hdrop _), heq _ (Nat.le_refl _)]

theorem encodestr_single (h : ¬List.replicate 3 ch <+: text) :
    encodestr (ch :: text) = ch :: encodestr text := by
  rw [List.prefix_iff_eq_take] at h
  rw [encodestr, List.length_cons, encodeLoop, if_neg fun heq => h heq.symm]
  rfl

theorem encodestr_run (hmore : more ≤ 96) (hrest : more = 96 ∨ rest.head? ≠ some ch) :
    encodestr (List.replicate (4 + more) ch ++ rest) =
      1 :: ch :: .ofNat (4 + more) :: encodestr rest := by
  have htext : List.replicate (4 + more) ch ++ rest =
      ch :: (List.replicate 3 ch ++ (List.replicate more ch ++ rest)) := by
    rw [List.replicate_add]
    rfl
  have htake : (List.replicate 3 ch ++ (List.replicate more ch ++ rest)).take 3 = [ch, ch, ch] := rfl
  have hdrop : (List.replicate 3 ch ++ (List.replicate more ch ++ rest)).drop 3 =
      List.replicate more ch ++ rest := rfl
  rw [htext, encodestr, List.length_cons, encodeLoop, if_pos htake]
  dsimp only
  rw [hdrop, takeWhile_run hmore hrest, ← List.drop_drop, hdrop,
    List.drop_left' List.length_replicate, encodeLoop_eq (by simp; omega)]

/-! ## Decoding -/

theorem decodestr_zero : decodestr (0 :: behind) = some [] := by
  cases behind with
  | nil => rfl
  | cons a behind => cases behind <;> rfl

theorem decodestr_single (h0 : ch ≠ 0) (h1 : ch ≠ 1) :
    decodestr (ch :: behind) = (decodestr behind).map (ch :: ·) := by
  match behind with
  | [] => simp [decodestr, h0]
  | [a] => simp [decodestr, h0, h1]
  | a :: n :: rest => rw [decodestr, if_neg h0, if_pos h1]

theorem decodestr_run {n : UInt8} (h0 : ch ≠ 0) (hn : n ≠ 0) :
    decodestr (1 :: ch :: n :: behind) =
      (decodestr behind).map (List.replicate (charCount n) ch ++ ·) := by
  rw [decodestr, if_neg (by decide), if_neg (by simp), if_pos ⟨h0, hn⟩]

theorem charCount_ofNat (hmore : more ≤ 96) : charCount (.ofNat (4 + more)) = 4 + more := by
  have hlt : UInt8.ofNat (4 + more) < 128 := by
    rw [UInt8.lt_iff_toNat_lt, UInt8.toNat_ofNat']
    simp
    omega
  rw [charCount, if_pos hlt, UInt8.toNat_ofNat', Nat.mod_eq_of_lt (by omega)]

theorem ofNat_count_ne_zero (hmore : more ≤ 96) : UInt8.ofNat (4 + more) ≠ 0 := by
  intro h
  have hcount := charCount_ofNat hmore
  rw [h] at hcount
  have hzero : charCount 0 = 0 := rfl
  omega

theorem zero_notMem_encodestr (h0 : 0 ∉ text) : 0 ∉ encodestr text := by
  induction text using runs_induction with
  | nil => exact h0
  | run ch more rest hmore hrest ih =>
    have hmem : ch ∈ List.replicate (4 + more) ch ++ rest := by simp
    have hch : 0 ≠ ch := fun h => h0 (h ▸ hmem)
    rw [encodestr_run hmore hrest]
    simp only [List.mem_cons, not_or]
    exact ⟨by decide, hch, (ofNat_count_ne_zero hmore).symm,
      ih fun h => h0 (List.mem_append_right _ h)⟩
  | single ch text hrun ih =>
    obtain ⟨hzero, h0⟩ := List.ne_and_not_mem_of_not_mem_cons h0
    rw [encodestr_single hrun]
    exact List.not_mem_cons_of_ne_of_not_mem hzero (ih h0)

/-- The code of a text, and what stands behind it. -/
theorem decodestr_encodestr (h0 : 0 ∉ text) (h1 : 1 ∉ text) :
    decodestr (encodestr text ++ behind) = (decodestr behind).map (text ++ ·) := by
  induction text using runs_induction with
  | nil => simp [encodestr, encodeLoop]
  | run ch more rest hmore hrest ih =>
    have hmem : ch ∈ List.replicate (4 + more) ch ++ rest := by simp
    have hch : ch ≠ 0 := fun h => h0 (h ▸ hmem)
    have hn := ofNat_count_ne_zero hmore
    rw [encodestr_run hmore hrest, List.cons_append, List.cons_append, List.cons_append,
      decodestr_run hch hn, charCount_ofNat hmore,
      ih (fun h => h0 (List.mem_append_right _ h)) (fun h => h1 (List.mem_append_right _ h)),
      Option.map_map]
    simp [Function.comp_def]
  | single ch text hrun ih =>
    obtain ⟨hzero, h0⟩ := List.ne_and_not_mem_of_not_mem_cons h0
    obtain ⟨hone, h1⟩ := List.ne_and_not_mem_of_not_mem_cons h1
    rw [encodestr_single hrun, List.cons_append, decodestr_single hzero.symm hone.symm, ih h0 h1,
      Option.map_map]
    rfl

/-! ## In place -/

namespace EncodeState

variable {s : EncodeState} {done gap unread passed : Bytes}

/-- The code written so far, what stands between it and the byte to be read next, and the bytes that
have not been read. -/
structure At (s : EncodeState) (done gap unread : Bytes) : Prop where
  mem : s.mem = done ++ gap ++ unread
  buf : s.buf = done.length
  str : s.str = done.length + gap.length
  writes : ∀ w ∈ s.writes, w.1 < w.2

theorem At.read (h : At s done gap (passed ++ unread)) :
    At { s with str := s.str + passed.length } done (gap ++ passed) unread where
  mem := by rw [h.mem]; simp
  buf := h.buf
  str := by
    dsimp only
    rw [h.str, List.length_append, Nat.add_assoc]
  writes := h.writes

theorem At.put {y : UInt8} (h : At s done (y :: gap) unread) (ch : UInt8) :
    ∃ s', s.put ch = some s' ∧ At s' (done ++ [ch]) gap unread := by
  have hset : setCell s.mem s.buf ch = some (done ++ [ch] ++ gap ++ unread) := by
    rw [h.mem, h.buf, setCell_eq (by simp)]
    simp
  refine ⟨_, by rw [EncodeState.put, hset]; rfl, rfl, ?_, ?_, ?_⟩
  · simp [h.buf]
  · have hstr := h.str
    simp only [List.length_cons, List.length_append, List.length_nil] at hstr ⊢
    omega
  · intro w hw
    obtain hw | hw := List.mem_append.mp hw
    · exact h.writes w hw
    · obtain rfl := List.mem_singleton.mp hw
      have hstr := h.str
      have hbuf := h.buf
      rw [List.length_cons] at hstr
      dsimp only
      omega

theorem cell_at (hmem : mem = front ++ unread) (hp : p = front.length) :
    cell mem p = unread.head? := by
  rw [cell_nat, hmem, hp, List.getElem?_append_right (Nat.le_refl _), Nat.sub_self,
    List.head?_eq_getElem?]

theorem At.cell (h : At s done gap unread) : cell s.mem s.str = unread.head? :=
  cell_at h.mem (h.str.trans List.length_append.symm)

theorem allEqual_eq (h0 : ch ≠ 0) (hmem : mem = front ++ (text ++ 0 :: behind))
    (hp : p = front.length) : allEqual mem ch k p = some (decide (List.replicate k ch <+: text)) := by
  induction k generalizing text front p with
  | zero => simp [allEqual]
  | succ k ih =>
    rw [allEqual, cell_at hmem hp]
    cases text with
    | nil => simp [h0.symm]
    | cons c text =>
      rw [List.cons_append, List.head?_cons, Option.bind_some]
      split
      case isTrue hc =>
        rw [@ih (p + 1) text (front ++ [c]) (by simp [hmem]) (by simp [hp]),
          List.replicate_succ, hc]
        simp
      case isFalse hc => simp [List.replicate_succ, Ne.symm hc]

theorem countRun_eq (h0 : ch ≠ 0) (hmem : mem = front ++ (text ++ 0 :: behind))
    (hp : p = front.length) :
    countRun mem ch k p = some ((text.takeWhile (· = ch)).take k).length := by
  induction k generalizing text front p with
  | zero =>
    rw [countRun, cell_at hmem hp]
    cases text <;> simp
  | succ k ih =>
    rw [countRun, cell_at hmem hp]
    cases text with
    | nil => simp [h0.symm]
    | cons c text =>
      rw [List.cons_append, List.head?_cons, Option.bind_some]
      split
      case isTrue hc =>
        rw [@ih (p + 1) text (front ++ [c]) (by simp [hmem]) (by simp [hp])]
        simp [hc]
      case isFalse hc => simp [hc]

/-- A round that has read a byte with no run behind it. -/
theorem At.encodeRound_single (h0 : ch ≠ 0) (hrun : ¬List.replicate 3 ch <+: text)
    (h : At s done (gap ++ [ch]) (text ++ 0 :: behind)) :
    ∃ s' gap', s.encodeRound ch = some s' ∧ At s' (done ++ [ch]) gap' (text ++ 0 :: behind) := by
  have hequal := allEqual_eq (k := 3) h0 h.mem (h.str.trans List.length_append.symm)
  rw [decide_eq_false hrun] at hequal
  obtain ⟨y, gap', hgap⟩ := List.exists_cons_of_ne_nil (List.concat_ne_nil ch gap)
  rw [hgap] at h
  obtain ⟨s', hs', h'⟩ := h.put ch
  exact ⟨s', gap', by rw [encodeRound, hequal]; exact hs', h'⟩

/-- A round that has read the first byte of a run. -/
theorem At.encodeRound_run (h0 : ch ≠ 0) (hmore : more ≤ 96)
    (hrest : more = 96 ∨ rest.head? ≠ some ch)
    (h : At s done (gap ++ [ch]) (List.replicate (3 + more) ch ++ rest ++ 0 :: behind)) :
    ∃ s' gap', s.encodeRound ch = some s' ∧
      At s' (done ++ [1, ch, .ofNat (4 + more)]) gap' (rest ++ 0 :: behind) := by
  have hequal := allEqual_eq (k := 3) h0 h.mem (h.str.trans List.length_append.symm)
  have hprefix : List.replicate 3 ch <+: List.replicate (3 + more) ch ++ rest := by
    rw [List.replicate_add, List.append_assoc]
    exact List.prefix_append ..
  rw [decide_eq_true hprefix] at hequal
  have hmem : s.mem = done ++ (gap ++ [ch]) ++ List.replicate 3 ch ++
      (List.replicate more ch ++ rest ++ 0 :: behind) := by
    rw [h.mem, List.replicate_add]
    simp
  have hcount := countRun_eq (k := 96) h0 hmem (p := s.str + 3) (by rw [h.str]; simp; omega)
  rw [takeWhile_run hmore hrest] at hcount
  have hread : At { s with str := s.str + 3 + more } done
      (gap ++ [ch] ++ List.replicate (3 + more) ch) (rest ++ 0 :: behind) := by
    have h' := At.read (by simpa using h)
    rwa [List.length_replicate, ← Nat.add_assoc] at h'
  obtain ⟨a, b, c, gap', hgap⟩ : ∃ a b c gap', gap ++ [ch] ++ List.replicate (3 + more) ch =
      a :: b :: c :: gap' := by
    match hgap : gap ++ [ch] ++ List.replicate (3 + more) ch with
    | a :: b :: c :: gap' => exact ⟨a, b, c, gap', rfl⟩
    | [] | [_] | [_, _] =>
      have hlength := congrArg List.length hgap
      simp only [List.length_append, List.length_replicate, List.length_cons, List.length_nil]
        at hlength
      omega
  rw [hgap] at hread
  obtain ⟨s₁, hs₁, h₁⟩ := hread.put 1
  obtain ⟨s₂, hs₂, h₂⟩ := h₁.put ch
  obtain ⟨s₃, hs₃, h₃⟩ := h₂.put (.ofNat (4 + more))
  refine ⟨s₃, gap', ?_, by simpa using h₃⟩
  rw [encodeRound, hequal, Option.bind_some, if_pos rfl, hcount, Option.bind_some, hs₁,
    Option.bind_some, hs₂, Option.bind_some, hs₃]

/-- The rest of the line is encoded. -/
theorem At.encodeRounds (h0 : 0 ∉ text) (hfuel : text.length < fuel)
    (h : At s done gap (text ++ 0 :: behind)) :
    ∃ s' gap', encodeRounds fuel s = some s' ∧
      At s' (done ++ encodestr text ++ [0]) gap' behind := by
  induction text using runs_induction generalizing fuel s done gap with
  | nil =>
    cases fuel with
    | zero => omega
    | succ fuel =>
      have hread : At { s with str := s.str + 1 } done (gap ++ [0]) behind :=
        @At.read s done gap behind [0] h
      obtain ⟨y, gap', hgap⟩ := List.exists_cons_of_ne_nil (List.concat_ne_nil 0 gap)
      rw [hgap] at hread
      obtain ⟨s', hs', h'⟩ := hread.put 0
      refine ⟨s', gap', ?_, by simpa [encodestr, encodeLoop] using h'⟩
      rw [EncodeState.encodeRounds, h.cell]
      exact hs'
  | run ch more rest hmore hrest ih =>
    cases fuel with
    | zero => omega
    | succ fuel =>
      have hmem : ch ∈ List.replicate (4 + more) ch ++ rest := by simp
      have hch : ch ≠ 0 := fun hzero => h0 (hzero ▸ hmem)
      have htext : List.replicate (4 + more) ch ++ rest ++ 0 :: behind =
          ch :: (List.replicate (3 + more) ch ++ rest ++ 0 :: behind) := by
        rw [show 4 + more = 3 + more + 1 by omega, List.replicate_succ]
        rfl
      rw [htext] at h
      have hread : At { s with str := s.str + 1 } done (gap ++ [ch]) _ :=
        @At.read s done gap _ [ch] h
      obtain ⟨s', gap', hs', h'⟩ := hread.encodeRound_run hch hmore hrest
      have hlength : rest.length < fuel := by
        rw [List.length_append, List.length_replicate] at hfuel
        omega
      obtain ⟨s'', gap'', hs'', h''⟩ :=
        ih (fun hmem => h0 (List.mem_append_right _ hmem)) hlength h'
      refine ⟨s'', gap'', ?_, by rw [encodestr_run hmore hrest]; simpa using h''⟩
      rw [EncodeState.encodeRounds, h.cell, List.head?_cons, Option.bind_some]
      dsimp only
      rw [if_neg hch, hs', Option.bind_some, hs'']
  | single ch text hrun ih =>
    cases fuel with
    | zero => omega
    | succ fuel =>
      obtain ⟨hzero, h0⟩ := List.ne_and_not_mem_of_not_mem_cons h0
      have hread : At { s with str := s.str + 1 } done (gap ++ [ch]) (text ++ 0 :: behind) :=
        @At.read s done gap _ [ch] h
      obtain ⟨s', gap', hs', h'⟩ := hread.encodeRound_single hzero.symm hrun
      obtain ⟨s'', gap'', hs'', h''⟩ := ih h0 (Nat.lt_of_succ_lt_succ hfuel) h'
      refine ⟨s'', gap'', ?_, by rw [encodestr_single hrun]; simpa using h''⟩
      rw [EncodeState.encodeRounds, h.cell, List.cons_append, List.head?_cons, Option.bind_some]
      dsimp only
      rw [if_neg hzero.symm, hs', Option.bind_some, hs'']

theorem length_put {s' : EncodeState} (h : s.put ch = some s') : s'.mem.length = s.mem.length := by
  obtain ⟨mem, hmem, rfl⟩ := Option.map_eq_some_iff.mp h
  rw [setCell] at hmem
  split at hmem
  · rw [← Option.some.inj hmem, List.length_set]
  · cases hmem

theorem length_encodeRound {s' : EncodeState} (h : s.encodeRound ch = some s') :
    s'.mem.length = s.mem.length := by
  obtain ⟨isRun, -, h⟩ := Option.bind_eq_some_iff.mp h
  split at h
  · obtain ⟨more, -, h⟩ := Option.bind_eq_some_iff.mp h
    obtain ⟨s₁, h₁, h⟩ := Option.bind_eq_some_iff.mp h
    obtain ⟨s₂, h₂, h₃⟩ := Option.bind_eq_some_iff.mp h
    have hlength := length_put h₁
    exact (length_put h₃).trans ((length_put h₂).trans hlength)
  · exact length_put h

theorem length_encodeRounds {s' : EncodeState} (h : EncodeState.encodeRounds fuel s = some s') :
    s'.mem.length = s.mem.length := by
  induction fuel generalizing s with
  | zero => cases h
  | succ fuel ih =>
    obtain ⟨ch, -, h⟩ := Option.bind_eq_some_iff.mp h
    dsimp only at h
    split at h
    · have hlength := length_put h
      exact hlength
    · obtain ⟨s₁, h₁, h⟩ := Option.bind_eq_some_iff.mp h
      have hlength := length_encodeRound h₁
      exact (ih h).trans hlength

end EncodeState

/-- Every line without the byte 1 is encoded in place. -/
theorem encodesRight (h0 : 0 ∉ text) (h1 : 1 ∉ text) : EncodesRight text := by
  intro behind
  have hstart : EncodeState.At ⟨text ++ 0 :: behind, 0, 0, []⟩ [] [] (text ++ 0 :: behind) :=
    ⟨rfl, rfl, rfl, List.forall_mem_nil _⟩
  have hfuel : text.length < (text ++ 0 :: behind).length := by simp
  obtain ⟨s, gap, hs, h⟩ := hstart.encodeRounds h0 hfuel
  refine ⟨s, hs, h.writes, ?_, ?_, ?_⟩
  · have hlength := EncodeState.length_encodeRounds hs
    have hmem := h.mem
    dsimp only at hlength
    rw [hmem, List.drop_left']
    have hsplit := congrArg List.length hmem
    simp only [List.length_append, List.length_cons, List.length_nil] at hlength hsplit ⊢
    omega
  · rw [h.mem, List.nil_append, List.append_assoc, List.append_assoc, List.singleton_append,
      cstr_append (zero_notMem_encodestr h0)]
  · rw [h.mem, List.nil_append, List.append_assoc, List.append_assoc, decodestr_encodestr h0 h1,
      List.singleton_append, decodestr_zero]
    simp

end

/-! ## Blocks -/

section
variable {lines rest : List Bytes} {behind : Bytes}

/-- The lines of a block up to one that begins with `%`. -/
theorem blockLoop_eq (hlines : ∀ line ∈ lines, line.head? ≠ some 37)
    (hrest : ∀ line ∈ rest.head?, line.head? = some 37) :
    Sysconf.blockLoop (lines ++ rest) = (lines.flatMap encodestr, !lines.isEmpty, rest.tail) := by
  induction lines with
  | nil =>
    cases rest with
    | nil => rfl
    | cons line rest =>
      rw [List.nil_append, Sysconf.blockLoop, if_pos (hrest line rfl)]
      rfl
  | cons line lines ih =>
    obtain ⟨hline, hlines⟩ := List.forall_mem_cons.mp hlines
    rw [List.cons_append, Sysconf.blockLoop, if_neg hline, ih hlines]
    rfl

/-- The codes of lines one behind the other. -/
theorem decodestr_lines (behind : Bytes) (hlines : ∀ line ∈ lines, 0 ∉ line ∧ 1 ∉ line) :
    decodestr (lines.flatMap encodestr ++ behind) = (decodestr behind).map (lines.flatten ++ ·) := by
  induction lines with
  | nil => simp
  | cons line lines ih =>
    obtain ⟨⟨h0, h1⟩, hlines⟩ := List.forall_mem_cons.mp hlines
    rw [List.flatMap_cons, List.append_assoc, decodestr_encodestr h0 h1, ih hlines, Option.map_map,
      List.flatten_cons]
    simp [Function.comp_def]

/-- A byte other than zero prints something with a suitable text behind it. -/
theorem exists_decodestr_ne {c : UInt8} (h : c ≠ 0) : ∃ behind, decodestr (c :: behind) ≠ some [] := by
  by_cases h1 : c = 1
  · subst h1
    exact ⟨[65, 1, 0], by decide⟩
  · refine ⟨[0], ?_⟩
    rw [decodestr_single h h1, decodestr_zero]
    simp

variable {w : Nat} {c : Sysconf w} {m : Malloced} {key : Bytes}

/-- `encodestr` and `decodestr` are right for every line without the byte 1. For a block of such
lines that the table has room for they are if and only if there is a line, or `malloc` has left a
zero byte where the block is stored. -/
theorem encodestr_iff (hlines : ∀ line ∈ lines, 0 ∉ line ∧ 1 ∉ line ∧ line.head? ≠ some 37)
    (hrest : ∀ line ∈ rest.head?, line.head? = some 37) (hkey : c.sysvar.length < scKeysize) :
    ((∀ text, 0 ∉ text → 1 ∉ text → EncodesRight text) ∧ StoresRight c m key lines rest) ↔
      lines ≠ [] ∨ m.text (c.text.length + key.length + 1) = 0 := by
  rw [and_iff_right fun text => encodesRight]
  have hdecode (behind : Bytes) := decodestr_lines behind
    fun line hline => (hlines line hline).imp id And.left
  have hblock : (c.addblock m key (lines ++ rest)).1.text = c.text ++ key ++ [0] ++
      (lines.flatMap encodestr ++
        [if !lines.isEmpty then 0 else m.text (c.text.length + key.length + 1)]) := by
    rw [Sysconf.addblock, blockLoop_eq (fun line hline => (hlines line hline).2.2) hrest]
    dsimp only [Sysconf.addstr]
    rw [if_pos hkey]
    dsimp only
    rw [List.append_assoc, List.length_append, List.length_append, List.length_singleton]
  constructor
  · rintro ⟨stored, hstored, hright⟩
    rw [hblock, List.append_cancel_left_eq] at hstored
    by_cases hempty : lines = []
    · subst hempty
      by_contra hnot
      obtain ⟨hnil, hzero⟩ := not_or.mp hnot
      obtain ⟨behind, hne⟩ := exists_decodestr_ne hzero
      have hprint := hright behind
      rw [← hstored] at hprint
      exact hne hprint
    · exact .inl hempty
  · intro h
    refine ⟨_, hblock, fun behind => ?_⟩
    have hlast : (if !lines.isEmpty then 0 else m.text (c.text.length + key.length + 1)) = 0 := by
      obtain hne | hzero := h
      · rw [List.isEmpty_eq_false_iff.mpr hne]
        rfl
      · rw [hzero, ite_self]
    rw [hlast, List.append_assoc, hdecode, List.singleton_append, decodestr_zero]
    simp

/-- A block with two lines. -/
theorem encodestr_demo :
    ((∀ text, 0 ∉ text → 1 ∉ text → EncodesRight text) ∧
      StoresRight (w := 32) ⟨0, [], [], []⟩ ⟨fun _ => 255, fun _ => 0, fun _ => 0⟩ (bytes "S_HELP")
        [bytes "------\n", bytes "end\n"] [bytes "%\n"]) ↔
      [bytes "------\n", bytes "end\n"] ≠ [] ∨ (255 : UInt8) = 0 :=
  encodestr_iff (by decide) (by decide) (by decide)

/-- A block without lines where `malloc` has left other bytes than zero. -/
theorem empty_block_not_ended : ¬∀ (c : Sysconf 32) (m : Malloced) (key : Bytes)
    (lines rest : List Bytes), (∀ line ∈ lines, 0 ∉ line ∧ 1 ∉ line ∧ line.head? ≠ some 37) →
      (∀ line ∈ rest.head?, line.head? = some 37) → c.sysvar.length < scKeysize →
      (∀ text, 0 ∉ text → 1 ∉ text → EncodesRight text) ∧ StoresRight c m key lines rest := by
  intro h
  obtain ⟨-, stored, hstored, hright⟩ := h ⟨0, [], [], []⟩ ⟨fun _ => 255, fun _ => 0, fun _ => 0⟩
    (bytes "S_HELP") [] [bytes "%\n"] (by decide) (by decide) (by decide)
  have htext : ((⟨0, [], [], []⟩ : Sysconf 32).addblock ⟨fun _ => 255, fun _ => 0, fun _ => 0⟩
      (bytes "S_HELP") ([] ++ [bytes "%\n"])).1.text = bytes "S_HELP" ++ [0, 255] := by decide +kernel
  rw [htext] at hstored
  have hone : stored = [255] := (List.append_cancel_left hstored.symm)
  have hprint := hright [0]
  rw [hone] at hprint
  exact absurd hprint (by decide)

end

end ArgoBbs

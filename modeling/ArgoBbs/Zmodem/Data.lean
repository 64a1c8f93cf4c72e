import ArgoBbs.Zmodem.Crc
import ArgoBbs.Zmodem.Escape

/-! # The data subpackets of ZMODEM

`zsdata`, `zsda32`, `zrdata` and `zrdat32` of `zm.c`. Behind the data stand the character that ends
the subpacket and its check bytes. -/

namespace ArgoBbs.Zmodem

/-- The character ends a subpacket. -/
def isFrameend (c : UInt8) : Bool := c = ZCRCE || c = ZCRCG || c = ZCRCQ || c = ZCRCW

/-! ## Sending -/

/-- What follows the check bytes of the last subpacket of a frame. -/
def corked (frameend : UInt8) : Bytes := if frameend = ZCRCW then [XON] else []

/-- With a check of 16 bits. The loop sends a byte before it looks at the length, so that it does
not come to an end for an empty buffer. -/
def zsdata (tab : UInt8 → Fin 3) (lastsent : UInt8) (buf : Bytes) (frameend : UInt8) :
    Option (Bytes × UInt8) :=
  if buf = [] then none
  else
    let (data, lastsent) := zsendlines tab lastsent buf
    let crc := updcrc frameend (crc16.run 0 buf)
    let (check, lastsent) := zsendlines tab lastsent (checkBytes16 crc)
    some (data ++ ZDLE :: frameend :: (check ++ corked frameend), lastsent)

/-- The check bytes of `zsda32`: one that is no control character is not looked up. -/
def sendCheck (tab : UInt8 → Fin 3) (lastsent : UInt8) : Bytes → Bytes × UInt8
  | [] => ([], lastsent)
  | c :: s =>
    let (out, lastsent) := if !isControl c then ([c], c) else zsendline tab lastsent c
    let (outs, lastsent) := sendCheck tab lastsent s
    (out ++ outs, lastsent)

/-- With a check of 32 bits. -/
def zsda32 (tab : UInt8 → Fin 3) (lastsent : UInt8) (buf : Bytes) (frameend : UInt8) :
    Bytes × UInt8 :=
  let (data, lastsent) := zsendline_s tab lastsent buf
  let crc := UPDC32 frameend (crc32.run 0xFFFFFFFF#32 buf)
  let (check, lastsent) := sendCheck tab lastsent (checkBytes32 crc)
  (data ++ ZDLE :: frameend :: (check ++ corked frameend), lastsent)

/-- The macro of `lsz.c`. -/
def ZSDATA (Crc32t : Bool) (tab : UInt8 → Fin 3) (lastsent : UInt8) (buf : Bytes)
    (frameend : UInt8) : Option (Bytes × UInt8) :=
  if Crc32t then some (zsda32 tab lastsent buf frameend) else zsdata tab lastsent buf frameend

/-- Subpackets one after the other. -/
def sendAll (Crc32t : Bool) (tab : UInt8 → Fin 3) (lastsent : UInt8) :
    List (Bytes × UInt8) → Option (Bytes × UInt8)
  | [] => some ([], lastsent)
  | (buf, frameend) :: ps => do
    let (out, lastsent) ← ZSDATA Crc32t tab lastsent buf frameend
    let (outs, lastsent) ← sendAll Crc32t tab lastsent ps
    return (out ++ outs, lastsent)

/-! ## Receiving -/

/-- What `zrdata` returns. -/
inductive ZrRet
  | gotcrc (frameend : UInt8)
  | zcan
  | timeout
  | error
  deriving DecidableEq

/-- The returned value, the bytes stored and what is left to read. -/
structure Subpacket where
  ret : ZrRet
  buf : Bytes
  rest : Bytes
  deriving DecidableEq

/-- `*bytes_received` -/
def Subpacket.bytes_received (p : Subpacket) : Nat :=
  match p.ret with
  | .gotcrc _ => p.buf.length
  | _ => 0

theorem again2_length (ctl : Bool) (cans : Nat) (s : Bytes) :
    (again2 ctl cans s).1 = .timeout ∨ (again2 ctl cans s).2.length < s.length := by
  induction s generalizing cans with
  | nil => exact .inl rfl
  | cons c s ih =>
    have hlt : s.length < (c :: s).length := Nat.lt_succ_self _
    have hmore (cans : Nat) := (ih cans).imp_right fun h => Nat.lt_trans h hlt
    rw [again2]
    split
    · split
      · exact hmore _
      · exact .inr hlt
    split
    · exact .inr hlt
    split
    · exact .inr hlt
    split
    · exact .inr hlt
    split
    · exact hmore _
    split <;> exact .inr hlt

theorem zdlread2_length (ctl : Bool) (c : UInt8) (s : Bytes) :
    (zdlread2 ctl c s).1 = .timeout ∨ (zdlread2 ctl c s).2.length < s.length + 1 := by
  induction s generalizing c with
  | nil =>
    rw [zdlread2]
    split
    · exact .inl rfl
    split
    · exact .inl rfl
    · exact .inr (Nat.lt_succ_self _)
  | cons d s ih =>
    rw [zdlread2]
    split
    · exact (again2_length ctl 0 (d :: s)).imp_right fun h => Nat.lt_trans h (Nat.lt_succ_self _)
    split
    · split
      · exact .inr (Nat.lt_trans (Nat.lt_succ_self _) (Nat.lt_succ_self _))
      · exact (ih d).imp_right fun h => Nat.lt_trans h (Nat.lt_succ_self _)
    · exact .inr (Nat.lt_succ_self _)

/-- Whatever is read has taken something from the line. -/
theorem zdlread_length (ctl : Bool) (s : Bytes) :
    (zdlread ctl s).1 = .timeout ∨ (zdlread ctl s).2.length < s.length := by
  cases s with
  | nil => exact .inl rfl
  | cons c s =>
    rw [zdlread]
    split
    · exact .inr (Nat.lt_succ_self _)
    · exact zdlread2_length ctl c s

section
variable (ctl : Bool) (F : FrameCheck)

/-- From the label `crcfoo`: `k` check bytes are still to come. Another character that ends a
subpacket begins them again. -/
def crcfoo (k : Nat) (d : UInt8) (crc : BitVec F.n) (s : Bytes) : ZrRet × Bytes :=
  match k with
  | 0 => (if crc = F.good then .gotcrc d else .error, s)
  | k + 1 =>
    match _h : zdlread ctl s with
    | (.byte c, s') => crcfoo k d (F.register.feed crc c) s'
    | (.gotcrc c, s') => crcfoo F.width c (F.register.feed crc c) s'
    | (.gotcan, s') => (.zcan, s')
    | (.timeout, s') => (.timeout, s')
    | (.error, s') => (.error, s')
termination_by s.length
decreasing_by
  all_goals
    have hlen := zdlread_length ctl s
    rw [_h] at hlen
    exact hlen.resolve_left nofun

/-- The loop over the data, with the room that is left for them. -/
def receive (room : Nat) (crc : BitVec F.n) (buf s : Bytes) : Subpacket :=
  match room with
  | 0 => ⟨.error, buf, s⟩
  | room + 1 =>
    match zdlread ctl s with
    | (.byte c, s') => receive room (F.register.feed crc c) (buf ++ [c]) s'
    | (.gotcrc c, s') =>
      let (ret, s') := crcfoo ctl F F.width c (F.register.feed crc c) s'
      ⟨ret, buf, s'⟩
    | (.gotcan, s') => ⟨.zcan, buf, s'⟩
    | (.timeout, s') => ⟨.timeout, buf, s'⟩
    | (.error, s') => ⟨.error, buf, s'⟩

end

/-- The buffer takes one byte more than its length before the loop gives up. -/
def zrdat32 (ctl : Bool) (length : Nat) (s : Bytes) : Subpacket :=
  receive ctl fcs32 (length + 1) 0xFFFFFFFF#32 [] s

def zrdata (ctl : Bool) (bin32 : Bool) (length : Nat) (s : Bytes) : Subpacket :=
  if bin32 then zrdat32 ctl length s else receive ctl fcs16 (length + 1) 0#16 [] s

/-! ## What a subpacket decodes to -/

theorem zdlread_frameend {e : UInt8} (he : isFrameend e = true) (ctl : Bool) (s : Bytes) :
    zdlread ctl (ZDLE :: e :: s) = (.gotcrc e, s) := by
  have hmem : e = ZCRCE ∨ e = ZCRCG ∨ e = ZCRCQ ∨ e = ZCRCW := by
    simpa [isFrameend, or_assoc] using he
  have hcan : e ≠ CAN := by
    rintro rfl
    exact absurd he (by decide)
  rw [zdlread, if_neg (by decide), zdlread2_zdle, again2, if_neg hcan, if_pos hmem]

theorem zdlread_xon (ctl : Bool) (s : Bytes) : zdlread ctl (XON :: s) = zdlread ctl s := by
  have hskip : skips ctl XON = true := by cases ctl <;> rfl
  rw [zdlread, if_neg (by decide)]
  cases s with
  | nil => rw [zdlread2, if_neg (by decide), hskip]; rfl
  | cons c s => rw [zdlread2, if_neg (by decide), hskip, zdlread]; rfl

/-- The line gives these data, the character that ends them and these check bytes. -/
def Decodes (ctl : Bool) (s data : Bytes) (d : UInt8) (check rest : Bytes) : Prop :=
  ∃ s₁ s₂, Reads ctl s data s₁ ∧ zdlread ctl s₁ = (.gotcrc d, s₂) ∧ Reads ctl s₂ check rest

section
variable {ctl : Bool} {F : FrameCheck} {s data check rest : Bytes} {d : UInt8}

theorem crcfoo_of_reads {k : Nat} (hread : Reads ctl s check rest) (hk : check.length = k)
    (crc : BitVec F.n) : crcfoo ctl F k d crc s =
      (if F.register.run crc check = F.good then .gotcrc d else .error, rest) := by
  induction check generalizing k s crc with
  | nil =>
    obtain rfl : s = rest := hread
    obtain rfl : 0 = k := hk
    rw [crcfoo]
    rfl
  | cons c check ih =>
    obtain ⟨s', hc, hread⟩ := hread
    obtain rfl : check.length + 1 = k := hk
    rw [crcfoo, hc]
    exact ih hread rfl _

theorem receive_of_reads {room : Nat} {crc : BitVec F.n} {buf s₁ : Bytes}
    (hread : Reads ctl s data s₁) :
    receive ctl F (data.length + room) crc buf s =
      receive ctl F room (F.register.run crc data) (buf ++ data) s₁ := by
  induction data generalizing s crc buf with
  | nil =>
    obtain rfl : s = s₁ := hread
    rw [List.length_nil, Nat.zero_add, List.append_nil]
    rfl
  | cons c data ih =>
    obtain ⟨s', hc, hread⟩ := hread
    rw [show (c :: data).length + room = (data.length + room) + 1 by
      rw [List.length_cons]; omega, receive, hc]
    show receive ctl F (data.length + room) _ _ _ = _
    rw [ih hread, List.append_assoc]
    rfl

/-- What is received is judged by the register alone. -/
theorem receive_of_decodes {length : Nat} (h : Decodes ctl s data d check rest)
    (hdata : data.length ≤ length) (hcheck : check.length = F.width) :
    receive ctl F (length + 1) F.start [] s =
      ⟨if F.Accepts (data ++ d :: check) then .gotcrc d else .error, data, rest⟩ := by
  obtain ⟨s₁, s₂, hread, hd, hread₂⟩ := h
  obtain ⟨room, rfl⟩ := Nat.exists_eq_add_of_le hdata
  rw [Nat.add_assoc, receive_of_reads hread, receive, hd]
  show Subpacket.mk _ _ _ = _
  simp only [crcfoo_of_reads hread₂ hcheck, FrameCheck.Accepts, FeedbackRegister.run_append]
  rfl

theorem Decodes.of_xon (h : Decodes ctl s data d check rest) (e : UInt8) :
    Decodes ctl (corked e ++ s) data d check rest := by
  rw [corked]
  split
  · obtain ⟨s₁, s₂, hread, hd, hread₂⟩ := h
    cases data with
    | nil =>
      obtain rfl : s = s₁ := hread
      exact ⟨_, s₂, rfl, (zdlread_xon ctl s).trans hd, hread₂⟩
    | cons c data =>
      obtain ⟨s', hc, hread⟩ := hread
      exact ⟨s₁, s₂, ⟨s', (zdlread_xon ctl s).trans hc, hread⟩, hd, hread₂⟩
  · exact h

end

/-! ## Round trip -/

/-- The frame check of the two kinds of binary frames. -/
def fcs (bin32 : Bool) : FrameCheck := if bin32 then fcs32 else fcs16

theorem zrdata_eq (ctl bin32 : Bool) (length : Nat) (s : Bytes) :
    zrdata ctl bin32 length s = receive ctl (fcs bin32) (length + 1) (fcs bin32).start [] s := by
  cases bin32 <;> rfl

theorem sendCheck_eq (Zctlesc turbo : Bool) (lastsent : UInt8) (s : Bytes) :
    sendCheck (zsendline_tab Zctlesc turbo) lastsent s =
      zsendlines (zsendline_tab Zctlesc turbo) lastsent s := by
  induction s generalizing lastsent with
  | nil => rfl
  | cons c s ih =>
    have hc : (if !isControl c then ([c], c)
        else zsendline (zsendline_tab Zctlesc turbo) lastsent c) =
        zsendline (zsendline_tab Zctlesc turbo) lastsent c := by
      split
      · next hc => rw [zsendline, zsendline_tab, if_pos hc]
      · rfl
    rw [sendCheck, hc, zsendlines_cons, ← ih]

theorem zsda32_eq (Zctlesc turbo : Bool) (lastsent : UInt8) (buf : Bytes) (e : UInt8) :
    (zsda32 (zsendline_tab Zctlesc turbo) lastsent buf e).1 =
      (zsendlines (zsendline_tab Zctlesc turbo) lastsent buf).1 ++ ZDLE :: e ::
        ((zsendlines (zsendline_tab Zctlesc turbo)
          (zsendlines (zsendline_tab Zctlesc turbo) lastsent buf).2
          (checkBytes32 (UPDC32 e (crc32.run 0xFFFFFFFF#32 buf)))).1 ++ corked e) := by
  rw [zsda32]
  simp only [zsendline_s_eq, sendCheck_eq]

section
variable {ctl Crc32t Zctlesc turbo : Bool} {lastsent last' e : UInt8} {buf out : Bytes}

/-- What both senders write. -/
theorem ZSDATA_eq (h : ZSDATA Crc32t (zsendline_tab Zctlesc turbo) lastsent buf e =
      some (out, last')) : ∃ lastsent₁, out =
    (zsendlines (zsendline_tab Zctlesc turbo) lastsent buf).1 ++ ZDLE :: e ::
      ((zsendlines (zsendline_tab Zctlesc turbo) lastsent₁
        ((fcs Crc32t).check ((fcs Crc32t).register.run (fcs Crc32t).start (buf ++ [e])))).1 ++
        corked e) := by
  cases Crc32t with
  | true =>
    rw [ZSDATA, if_pos rfl] at h
    have hout := congrArg Prod.fst (Option.some.inj h)
    rw [zsda32_eq] at hout
    refine ⟨(zsendlines (zsendline_tab Zctlesc turbo) lastsent buf).2, hout.symm.trans ?_⟩
    rw [FeedbackRegister.run_append]
    rfl
  | false =>
    rw [ZSDATA, if_neg (by decide), zsdata] at h
    split at h
    · cases h
    · obtain rfl : _ = out := congrArg Prod.fst (Option.some.inj h)
      refine ⟨(zsendlines (zsendline_tab Zctlesc turbo) lastsent buf).2, ?_⟩
      rw [FeedbackRegister.run_append]
      rfl

/-- A sent subpacket decodes to a codeword. -/
theorem decodes_of_sent (hesc : Escaped ctl Zctlesc turbo) (he : isFrameend e = true)
    (h : ZSDATA Crc32t (zsendline_tab Zctlesc turbo) lastsent buf e = some (out, last'))
    (rest : Bytes) : ∃ check, Decodes ctl (out ++ rest) buf e check (corked e ++ rest) ∧
      check.length = (fcs Crc32t).width ∧
        buf ++ e :: check = (fcs Crc32t).codeword (buf ++ [e]) := by
  obtain ⟨lastsent₁, rfl⟩ := ZSDATA_eq h
  have hcheck := reads_zsendlines hesc lastsent₁
    ((fcs Crc32t).check ((fcs Crc32t).register.run (fcs Crc32t).start (buf ++ [e])))
    (corked e ++ rest)
  refine ⟨_, ⟨_, _, ?_, zdlread_frameend he ctl _, hcheck⟩, (fcs Crc32t).length_check _, ?_⟩
  · simpa only [List.append_assoc, List.cons_append] using reads_zsendlines hesc lastsent buf _
  · rw [FrameCheck.codeword, List.append_assoc]
    rfl

theorem zrdata_of_sent (hesc : Escaped ctl Zctlesc turbo) (he : isFrameend e = true) {length : Nat}
    (hlen : buf.length ≤ length)
    (h : ZSDATA Crc32t (zsendline_tab Zctlesc turbo) lastsent buf e = some (out, last'))
    (front : UInt8) (rest : Bytes) :
    zrdata ctl Crc32t length (corked front ++ (out ++ rest)) =
      ⟨.gotcrc e, buf, corked e ++ rest⟩ := by
  obtain ⟨check, hdec, hcheck, hword⟩ := decodes_of_sent hesc he h rest
  rw [zrdata_eq, receive_of_decodes (hdec.of_xon front) hlen hcheck, hword,
    if_pos ((fcs Crc32t).accepts_codeword _)]

end

/-- As many subpackets as asked for, one after the other. -/
def receiveAll (ctl bin32 : Bool) (length : Nat) : Nat → Bytes → List (ZrRet × Bytes) × Bytes
  | 0, s => ([], s)
  | k + 1, s =>
    let p := zrdata ctl bin32 length s
    let (ps, s) := receiveAll ctl bin32 length k p.rest
    ((p.ret, p.buf) :: ps, s)

theorem receiveAll_of_sent {ctl Crc32t Zctlesc turbo : Bool} {ps : List (Bytes × UInt8)}
    {lastsent last' : UInt8} {out : Bytes} {length : Nat} (hesc : Escaped ctl Zctlesc turbo)
    (hps : ∀ p ∈ ps, p.1.length ≤ length ∧ isFrameend p.2 = true)
    (h : sendAll Crc32t (zsendline_tab Zctlesc turbo) lastsent ps = some (out, last'))
    (front : UInt8) (rest : Bytes) :
    receiveAll ctl Crc32t length ps.length (corked front ++ (out ++ rest)) =
      (ps.map fun p => (.gotcrc p.2, p.1), corked ((ps.map Prod.snd).getLastD front) ++ rest) := by
  induction ps generalizing lastsent out front with
  | nil =>
    obtain rfl : [] = out := congrArg Prod.fst (Option.some.inj h)
    rfl
  | cons p ps ih =>
    obtain ⟨⟨hlen, he⟩, hps⟩ := List.forall_mem_cons.mp hps
    obtain ⟨⟨out₁, lastsent₁⟩, hsent, h⟩ := Option.bind_eq_some_iff.mp h
    obtain ⟨⟨outs, lastsent₂⟩, hall, h⟩ := Option.bind_eq_some_iff.mp h
    obtain ⟨rfl, rfl⟩ := Prod.mk.inj (Option.some.inj h)
    rw [List.length_cons, receiveAll, List.append_assoc,
      zrdata_of_sent hesc he hlen hsent front (outs ++ rest)]
    show (_ :: (receiveAll ctl Crc32t length ps.length (corked p.2 ++ (outs ++ rest))).1, _) = _
    rw [ih hps hall p.2]
    simp only [List.map_cons, List.getLastD_cons]

theorem ZSDATA_isSome (Crc32t : Bool) (tab : UInt8 → Fin 3) (lastsent : UInt8) (buf : Bytes)
    (e : UInt8) : (ZSDATA Crc32t tab lastsent buf e).isSome ↔ Crc32t ∨ buf ≠ [] := by
  cases Crc32t with
  | true => exact ⟨fun _ => .inl rfl, fun _ => rfl⟩
  | false =>
    rw [ZSDATA, if_neg (by decide), zsdata]
    split
    · next hbuf => exact ⟨nofun, fun h => absurd hbuf (h.resolve_left nofun)⟩
    · next hbuf => exact ⟨fun _ => .inr hbuf, fun _ => rfl⟩

theorem sendAll_isSome (Crc32t : Bool) (tab : UInt8 → Fin 3) (lastsent : UInt8)
    (ps : List (Bytes × UInt8)) :
    (sendAll Crc32t tab lastsent ps).isSome ↔ Crc32t ∨ ∀ p ∈ ps, p.1 ≠ [] := by
  induction ps generalizing lastsent with
  | nil => exact ⟨fun _ => .inr nofun, fun _ => rfl⟩
  | cons p ps ih =>
    rw [List.forall_mem_cons, or_and_left, ← ZSDATA_isSome Crc32t tab lastsent p.1 p.2]
    constructor
    · intro h
      obtain ⟨_, h⟩ := Option.isSome_iff_exists.mp h
      obtain ⟨q, hq, h⟩ := Option.bind_eq_some_iff.mp h
      obtain ⟨r, hr, -⟩ := Option.bind_eq_some_iff.mp h
      exact ⟨Option.isSome_iff_exists.mpr ⟨q, hq⟩,
        (ih q.2).mp (Option.isSome_iff_exists.mpr ⟨r, hr⟩)⟩
    · rintro ⟨hp, hps⟩
      obtain ⟨q, hq⟩ := Option.isSome_iff_exists.mp hp
      obtain ⟨r, hr⟩ := Option.isSome_iff_exists.mp ((ih q.2).mpr hps)
      exact Option.isSome_iff_exists.mpr ⟨_, Option.bind_eq_some_iff.mpr ⟨q, hq,
        Option.bind_eq_some_iff.mpr ⟨r, hr, rfl⟩⟩⟩

/-- The two texts differ only within a window. -/
def WithinBurst (w : Nat) (x y : Bytes) : Prop :=
  ∃ front a b back, x = front ++ (a ++ back) ∧ y = front ++ (b ++ back) ∧ a.length = b.length ∧
    a.length ≤ w

theorem WithinBurst.length {w : Nat} {x y : Bytes} (h : WithinBurst w x y) :
    x.length = y.length := by
  obtain ⟨front, a, b, back, rfl, rfl, hlen, _⟩ := h
  simp only [List.length_append, hlen]

theorem accepts_of_burst (F : FrameCheck) {text y : Bytes}
    (h : WithinBurst F.width (F.codeword text) y) : F.Accepts y ↔ F.codeword text = y := by
  obtain ⟨front, a, b, back, hx, rfl, hlen, ha⟩ := h
  rw [F.burst hx hlen ha, hx, List.append_cancel_left_eq, List.append_cancel_right_eq]

/-- A subpacket in which, behind the escapes, no more has changed than a run of bytes as wide as its
check bytes is received only as it was sent; all others are errors. -/
theorem zrdata_damaged {ctl Crc32t Zctlesc turbo : Bool} {lastsent last' e : UInt8}
    {buf out : Bytes} {length : Nat} (hesc : Escaped ctl Zctlesc turbo) (he : isFrameend e = true)
    (hlen : buf.length ≤ length)
    (h : ZSDATA Crc32t (zsendline_tab Zctlesc turbo) lastsent buf e = some (out, last')) :
    ∃ sent, (∀ rest, Decodes ctl (out ++ rest) buf e sent (corked e ++ rest)) ∧
      ∀ s data d check rest, Decodes ctl s data d check rest → check.length = sent.length →
        WithinBurst (fcs Crc32t).width (buf ++ e :: sent) (data ++ d :: check) →
        zrdata ctl Crc32t length s =
          if data ++ d :: check = buf ++ e :: sent then ⟨.gotcrc e, buf, rest⟩
          else ⟨.error, data, rest⟩ := by
  obtain ⟨sent, -, hwidth, hword⟩ := decodes_of_sent hesc he h []
  refine ⟨sent, fun rest => ?_, fun s data d check rest hs hcheck hburst => ?_⟩
  · obtain ⟨sent', hdec, hwidth', hword'⟩ := decodes_of_sent hesc he h rest
    have heq := List.append_cancel_left (hword.trans hword'.symm)
    rwa [← (List.cons.inj heq).2] at hdec
  have hdata : data.length = buf.length := by
    have hall := hburst.length
    simp only [List.length_append, List.length_cons, hcheck] at hall
    omega
  have haccept := @accepts_of_burst (fcs Crc32t) (buf ++ [e]) _ (hword ▸ hburst)
  rw [← hword] at haccept
  rw [zrdata_eq, receive_of_decodes hs (hdata ▸ hlen) (hcheck.trans hwidth)]
  by_cases heq : data ++ d :: check = buf ++ e :: sent
  · obtain ⟨rfl, htail⟩ := List.append_inj heq hdata
    obtain ⟨rfl, -⟩ := List.cons.inj htail
    rw [if_pos heq, if_pos (haccept.mpr heq.symm)]
  · rw [if_neg heq, if_neg fun h => heq (haccept.mp h).symm]

theorem zrdata_damaged_letter : ∃ sent, ∀ s rest, Decodes true s (bytes "ac") ZCRCG sent rest →
    zrdata true true 8 s = ⟨.error, bytes "ac", rest⟩ := by
  obtain ⟨sent, -, h⟩ := @zrdata_damaged true true true false 0 _ ZCRCG (bytes "ab") _ 8 (by decide)
    (by decide) (by decide) rfl
  refine ⟨sent, fun s rest hs => ?_⟩
  rw [h s _ _ _ _ hs rfl ⟨bytes "a", bytes "b", bytes "c", ZCRCG :: sent, rfl, rfl, rfl, by decide⟩]
  exact if_neg fun heq => absurd (List.cons.inj (List.cons.inj heq).2).1 (by decide)

end ArgoBbs.Zmodem

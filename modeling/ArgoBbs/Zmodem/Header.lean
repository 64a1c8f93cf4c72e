import ArgoBbs.Zmodem.Data

/-! # The headers of ZMODEM

`zsbhdr`, `zshhdr` and `zgethdr` of `zm.c`. A header is a type and four bytes, of which many types
make a position in the file, with its check bytes; it is sent in binary or as hexadecimal digits,
and found behind whatever else stands on the line. -/

namespace ArgoBbs.Zmodem

def ZPAD : UInt8 := 0x2a
def ZBIN : UInt8 := 0x41
def ZHEX : UInt8 := 0x42
def ZBIN32 : UInt8 := 0x43
def ZACK : UInt8 := 3
def ZFIN : UInt8 := 8
def ZDATA : UInt8 := 10
def ZCAN : Int := 16
def ERROR : Int := -1
def TIMEOUT : Int := -2
def GOTCAN : Int := 0x118

/-! ## Positions -/

def stohdr (pos : Nat) : Bytes :=
  [UInt8.ofNat pos, UInt8.ofNat (pos / 256), UInt8.ofNat (pos / 256 ^ 2),
    UInt8.ofNat (pos / 256 ^ 3)]

def rclhdr (hdr : Bytes) : Nat :=
  (((hdr.getD 3 0).toNat * 256 + (hdr.getD 2 0).toNat) * 256 + (hdr.getD 1 0).toNat) * 256 +
    (hdr.getD 0 0).toNat

theorem rclhdr_stohdr (pos : Nat) : rclhdr (stohdr pos) = pos % 2 ^ 32 := by
  simp only [rclhdr, stohdr, List.getD_cons_zero, List.getD_cons_succ, UInt8.toNat_ofNat']
  omega

/-! ## Sending -/

def Znulls (Znulls : Nat) (type : UInt8) : Bytes :=
  if type = ZDATA then List.replicate Znulls 0 else []

/-- A binary header, with nulls before the header of data. -/
def zsbhdr (Txfcs32 : Bool) (nulls : Nat) (tab : UInt8 → Fin 3) (lastsent type : UInt8)
    (hdr : Bytes) : Bytes × UInt8 :=
  let F := fcs Txfcs32
  let (out, lastsent) := zsendlines tab lastsent (F.codeword (type :: hdr))
  (Znulls nulls type ++ ZPAD :: ZDLE :: (if Txfcs32 then ZBIN32 else ZBIN) :: out, lastsent)

def hexDigit (n : UInt8) : UInt8 := if n < 10 then n + 48 else n + 87

def zputhex (c : UInt8) : Bytes := [hexDigit (c >>> 4), hexDigit (c &&& 0x0f)]

/-- A header in hexadecimal digits. -/
def zshhdr (type : UInt8) (hdr : Bytes) : Bytes :=
  [ZPAD, ZPAD, ZDLE, ZHEX] ++ (fcs16.codeword ((type &&& 0x7f) :: hdr)).flatMap zputhex ++
    [0x0d, 0x8a] ++ if type ≠ ZFIN ∧ type ≠ ZACK then [XON] else []

/-! ## Reading -/

/-- A read that gives a byte or a code that is none. -/
abbrev Reader := Bytes → Except Int UInt8 × Bytes

/-- The values of `zdlread`. -/
def Zdl.result : Zdl → Except Int UInt8
  | byte c => .ok c
  | gotcrc c => .error (c.toNat ||| 0x100 : Nat)
  | gotcan => .error GOTCAN
  | error => .error ERROR
  | timeout => .error TIMEOUT

def zdlReader (Zctlesc : Bool) : Reader := fun s =>
  let (c, s) := zdlread Zctlesc s
  (c.result, s)

/-- What `noxrd7` passes over, its parity stripped. -/
def noxSkips (Zctlesc : Bool) (c : UInt8) : Bool :=
  c = XON || c = XOFF || Zctlesc && isControl c && c ≠ 0x0d && c ≠ 0x0a && c ≠ ZDLE

def noxrd7 (Zctlesc : Bool) : Reader
  | [] => (.error TIMEOUT, [])
  | c :: s => if noxSkips Zctlesc (c &&& 0x7f) then noxrd7 Zctlesc s else (.ok (c &&& 0x7f), s)

/-- The value of a digit; a number that has bits beside the lowest four is no digit. -/
def digit (c : UInt8) : Option UInt8 :=
  let n : Int := c.toNat - 48
  let n := if n > 9 then n - 39 else n
  if 0 ≤ n ∧ n < 16 then some (UInt8.ofNat n.toNat) else none

def zgeth1 (Zctlesc : Bool) : Reader := fun s =>
  match noxrd7 Zctlesc s with
  | (.error c, s) => (.error c, s)
  | (.ok c, s) =>
    match digit c with
    | none => (.error ERROR, s)
    | some n =>
      match noxrd7 Zctlesc s with
      | (.error c, s) => (.error c, s)
      | (.ok c, s) =>
        match digit c with
        | none => (.error ERROR, s)
        | some d => (.ok (d + n <<< 4), s)

/-- Up to so many reads, up to the first that is no byte. -/
def readBytes (read : Reader) : Nat → Bytes → Option Int × Bytes × Bytes
  | 0, s => (none, [], s)
  | k + 1, s =>
    match read s with
    | (.error c, s) => (some c, [], s)
    | (.ok c, s) =>
      let (err, got, s) := readBytes read k s
      (err, c :: got, s)

/-- What is returned, the header as far as it was stored and what is left to read. -/
structure Header where
  ret : Int
  hdr : Bytes
  rest : Bytes
  deriving DecidableEq

/-- The type, the four bytes and the check bytes, read one after the other. -/
def readHeader (read : Reader) (F : FrameCheck) (hdr s : Bytes) : Header :=
  let (err, got, s) := readBytes read (5 + F.width) s
  { ret := match err with
      | some c => c
      | none => if F.Accepts got then (got.headD 0).toNat else ERROR
    hdr := got.tail.take 4 ++ hdr.drop got.tail.length
    rest := s }

def zrbhdr (Zctlesc : Bool) (hdr s : Bytes) : Header := readHeader (zdlReader Zctlesc) fcs16 hdr s

def zrbhdr32 (Zctlesc : Bool) (hdr s : Bytes) : Header :=
  readHeader (zdlReader Zctlesc) fcs32 hdr s

/-- Behind the digits one character is read, and another where it was a carriage return. -/
def zrhhdr (Zctlesc : Bool) (hdr s : Bytes) : Header :=
  let h := readHeader (zgeth1 Zctlesc) fcs16 hdr s
  if h.ret < 0 then h
  else
    { h with rest := match h.rest with
        | [] => []
        | c :: s => if c = 0x8d ∨ c = 0x0d then s.tail else s }

/-- What `zgethdr` returns, the kind of frame and the position that it stores, if any, and the
header. -/
structure GotHeader where
  ret : Int
  Rxframeind : UInt8
  Rxpos : Option Nat
  hdr : Bytes
  rest : Bytes
  deriving DecidableEq

/-- The label `fifi` without a header. -/
def fifi (ret : Int) (hdr rest : Bytes) : GotHeader := ⟨ret, 0, some 0, hdr, rest⟩

/-- The label `fifi` behind a header. -/
def fifiHeader (Rxframeind : UInt8) (h : Header) : GotHeader :=
  ⟨if h.ret = GOTCAN then ZCAN else h.ret, Rxframeind, some (rclhdr h.hdr), h.hdr, h.rest⟩

/-- Where the search for a header stands: at the label `again`, behind one `CAN` that left this
count, at the label `splat`, or behind the `ZDLE`. -/
inductive Scan
  | again (cancount : Nat)
  | can (cancount : Nat)
  | splat
  | zdle

/-- The search itself. At `splat` and behind the `ZDLE`, `noxrd7` passes over some characters. -/
def scan (Zctlesc : Bool) (hdr : Bytes) : Scan → Nat → Bytes → GotHeader
  | _, _, [] => fifi TIMEOUT hdr []
  | .again cancount, max_garbage, c :: s =>
    if c = CAN then
      if cancount - 1 ≤ 0 then fifi ZCAN hdr s
      else scan Zctlesc hdr (.can (cancount - 1)) max_garbage s
    else if c = ZPAD ||| 0x80 ∨ c = ZPAD then scan Zctlesc hdr .splat max_garbage s
    else if max_garbage - 1 = 0 then ⟨ERROR, 0, none, hdr, s⟩
    else scan Zctlesc hdr (.again 5) (max_garbage - 1) s
  | .can cancount, max_garbage, c :: s =>
    if c = ZCRCW then fifi ERROR hdr s
    else if c = CAN then
      if cancount - 1 ≤ 0 then fifi ZCAN hdr s
      else scan Zctlesc hdr (.again (cancount - 1)) max_garbage s
    else if max_garbage - 1 = 0 then ⟨ERROR, 0, none, hdr, s⟩
    else scan Zctlesc hdr (.again 5) (max_garbage - 1) s
  | .splat, max_garbage, c :: s =>
    if noxSkips Zctlesc (c &&& 0x7f) then scan Zctlesc hdr .splat max_garbage s
    else if c &&& 0x7f = ZPAD then scan Zctlesc hdr .splat max_garbage s
    else if c &&& 0x7f = ZDLE then scan Zctlesc hdr .zdle max_garbage s
    else if max_garbage - 1 = 0 then ⟨ERROR, 0, none, hdr, s⟩
    else scan Zctlesc hdr (.again 5) (max_garbage - 1) s
  | .zdle, max_garbage, c :: s =>
    if noxSkips Zctlesc (c &&& 0x7f) then scan Zctlesc hdr .zdle max_garbage s
    else if c &&& 0x7f = ZBIN then fifiHeader ZBIN (zrbhdr Zctlesc hdr s)
    else if c &&& 0x7f = ZBIN32 then fifiHeader ZBIN32 (zrbhdr32 Zctlesc hdr s)
    else if c &&& 0x7f = ZHEX then fifiHeader ZHEX (zrhhdr Zctlesc hdr s)
    else if c &&& 0x7f = CAN then scan Zctlesc hdr (.can 4) max_garbage s
    else if max_garbage - 1 = 0 then ⟨ERROR, 0, none, hdr, s⟩
    else scan Zctlesc hdr (.again 5) (max_garbage - 1) s

/-- `max_garbage` is `Zrwindow + Baudrate`. -/
def zgethdr (Zctlesc : Bool) (max_garbage : Nat) (hdr s : Bytes) : GotHeader :=
  scan Zctlesc hdr (.again 5) max_garbage s

/-! ## What a header reads as -/

/-- The reads give these bytes one after the other, and leave the rest. -/
def ReadsBy (read : Reader) (s : Bytes) : Bytes → Bytes → Prop
  | [], rest => s = rest
  | c :: text, rest => ∃ s', read s = (.ok c, s') ∧ ReadsBy read s' text rest

theorem Reads.by_zdlReader {ctl : Bool} {s text rest : Bytes} (h : Reads ctl s text rest) :
    ReadsBy (zdlReader ctl) s text rest := by
  induction text generalizing s with
  | nil => exact h
  | cons c text ih =>
    obtain ⟨s', hc, h⟩ := h
    refine ⟨s', ?_, ih h⟩
    rw [zdlReader, hc]
    rfl

section
variable {read : Reader} {F : FrameCheck} {s got rest hdr : Bytes}

theorem readBytes_of_reads (h : ReadsBy read s got rest) :
    readBytes read got.length s = (none, got, rest) := by
  induction got generalizing s with
  | nil => exact congrArg (fun s => (none, [], s)) h
  | cons c got ih =>
    obtain ⟨s', hc, h⟩ := h
    rw [List.length_cons, readBytes, hc]
    show (_, _, _) = _
    rw [ih h]

/-- A header is judged by the register alone. -/
theorem readHeader_of_reads {type : UInt8} {bytes check : Bytes}
    (h : ReadsBy read s (type :: (bytes ++ check)) rest) (hbytes : bytes.length = 4)
    (hcheck : check.length = F.width) (hhdr : hdr.length = 4) :
    readHeader read F hdr s =
      ⟨if F.Accepts (type :: (bytes ++ check)) then type.toNat else ERROR, bytes, rest⟩ := by
  have hlen : (type :: (bytes ++ check)).length = 5 + F.width := by
    rw [List.length_cons, List.length_append, hbytes, hcheck]
    omega
  have hdrop : hdr.drop (bytes ++ check).length = [] := by
    apply List.drop_of_length_le
    rw [List.length_append]
    omega
  rw [readHeader, ← hlen, readBytes_of_reads h]
  simp only [List.tail_cons, List.headD_cons, hdrop, List.append_nil, List.take_left' hbytes]

end

/-! ## Hexadecimal digits -/

theorem digit_hexDigit {n : UInt8} (hn : n < 16) :
    digit (hexDigit n &&& 0x7f) = some n ∧ ∀ ctl, noxSkips ctl (hexDigit n &&& 0x7f) = false := by
  have hall : ∀ n < 16, digit (hexDigit (.ofNat n) &&& 0x7f) = some (.ofNat n) ∧
      ∀ ctl, noxSkips ctl (hexDigit (.ofNat n) &&& 0x7f) = false := by decide
  have h := hall n.toNat (UInt8.lt_iff_toNat_lt.mp hn)
  rwa [UInt8.ofNat_toNat] at h

theorem nibbles (c : UInt8) :
    c >>> 4 < 16 ∧ c &&& 0x0f < 16 ∧ (c &&& 0x0f : UInt8) + (c >>> 4) <<< (4 : UInt8) = c := by
  have hc := c.toNat_lt
  have hhigh : (c >>> 4).toNat = c.toNat / 16 := Nat.shiftRight_eq_div_pow c.toNat 4
  have hlow : (c &&& 0x0f).toNat = c.toNat % 16 := Nat.and_two_pow_sub_one_eq_mod c.toNat 4
  refine ⟨UInt8.lt_iff_toNat_lt.mpr ?_, UInt8.lt_iff_toNat_lt.mpr ?_, UInt8.toNat_inj.mp ?_⟩
  · rw [hhigh]
    exact Nat.div_lt_of_lt_mul hc
  · rw [hlow]
    exact Nat.mod_lt _ (by decide)
  · rw [UInt8.toNat_add, UInt8.toNat_shiftLeft, hhigh, hlow]
    change (c.toNat % 16 + (c.toNat / 16) <<< 4 % 2 ^ 8) % 2 ^ 8 = c.toNat
    rw [Nat.shiftLeft_eq]
    omega

theorem noxrd7_of_not_skips {ctl : Bool} {c : UInt8} (h : noxSkips ctl (c &&& 0x7f) = false)
    (s : Bytes) : noxrd7 ctl (c :: s) = (.ok (c &&& 0x7f), s) := by
  rw [noxrd7, h]
  rfl

theorem zgeth1_zputhex (ctl : Bool) (c : UInt8) (s : Bytes) :
    zgeth1 ctl (zputhex c ++ s) = (.ok c, s) := by
  obtain ⟨hhigh, hlow, hc⟩ := nibbles c
  have hhigh := digit_hexDigit hhigh
  have hlow := digit_hexDigit hlow
  simp only [zgeth1, zputhex, List.cons_append, List.nil_append, noxrd7_of_not_skips (hhigh.2 ctl),
    hhigh.1, noxrd7_of_not_skips (hlow.2 ctl), hlow.1, hc]

theorem readsBy_zputhex (ctl : Bool) (text rest : Bytes) :
    ReadsBy (zgeth1 ctl) (text.flatMap zputhex ++ rest) text rest := by
  induction text with
  | nil => rfl
  | cons c text ih =>
    rw [List.flatMap_cons, List.append_assoc]
    exact ⟨_, zgeth1_zputhex ctl c _, ih⟩

/-! ## The search for a header -/

/-- A byte that the search passes over. -/
def isGarbage (c : UInt8) : Prop := c ≠ CAN ∧ c ≠ ZPAD ||| 0x80 ∧ c ≠ ZPAD

instance : DecidablePred isGarbage := fun _ => inferInstanceAs (Decidable (_ ∧ _))

section
variable {ctl : Bool} {max_garbage : Nat} {hdr : Bytes}

theorem scan_garbage {garbage : Bytes} (h : ∀ c ∈ garbage, isGarbage c)
    (hlen : garbage.length < max_garbage) (s : Bytes) :
    scan ctl hdr (.again 5) max_garbage (garbage ++ s) =
      scan ctl hdr (.again 5) (max_garbage - garbage.length) s := by
  induction garbage generalizing max_garbage with
  | nil => rfl
  | cons c garbage ih =>
    rw [List.length_cons] at hlen
    obtain ⟨⟨hcan, hpad, hpad'⟩, hrest⟩ := List.forall_mem_cons.mp h
    rw [List.cons_append, scan, if_neg hcan, if_neg (not_or.mpr ⟨hpad, hpad'⟩),
      if_neg (by omega), ih hrest (by omega), List.length_cons, Nat.sub_sub, Nat.add_comm]

theorem scan_pad (s : Bytes) (cancount : Nat) :
    scan ctl hdr (.again cancount) max_garbage (ZPAD :: s) =
      scan ctl hdr .splat max_garbage s := by
  rw [scan, if_neg (by decide), if_pos (.inr rfl)]

theorem noxSkips_false : ∀ ctl : Bool, noxSkips ctl (ZPAD &&& 0x7f) = false ∧
    noxSkips ctl (ZDLE &&& 0x7f) = false ∧ noxSkips ctl (ZBIN &&& 0x7f) = false ∧
      noxSkips ctl (ZBIN32 &&& 0x7f) = false ∧ noxSkips ctl (ZHEX &&& 0x7f) = false := by decide

theorem splat_pad (s : Bytes) :
    scan ctl hdr .splat max_garbage (ZPAD :: s) = scan ctl hdr .splat max_garbage s := by
  rw [scan, (noxSkips_false ctl).1, if_neg (by decide), if_pos (by decide)]

theorem splat_zdle (s : Bytes) :
    scan ctl hdr .splat max_garbage (ZDLE :: s) = scan ctl hdr .zdle max_garbage s := by
  rw [scan, (noxSkips_false ctl).2.1, if_neg (by decide), if_neg (by decide), if_pos (by decide)]

theorem zdle_bin (Txfcs32 : Bool) (s : Bytes) :
    scan ctl hdr .zdle max_garbage ((if Txfcs32 then ZBIN32 else ZBIN) :: s) =
      fifiHeader (if Txfcs32 then ZBIN32 else ZBIN)
        (readHeader (zdlReader ctl) (fcs Txfcs32) hdr s) := by
  obtain ⟨-, -, hbin, hbin32, -⟩ := noxSkips_false ctl
  cases Txfcs32 with
  | true =>
    rw [if_pos rfl, scan, hbin32, if_neg (by decide), if_neg (by decide), if_pos (by decide)]
    rfl
  | false =>
    rw [if_neg (by decide), scan, hbin, if_neg (by decide), if_pos (by decide)]
    rfl

theorem zdle_hex (s : Bytes) :
    scan ctl hdr .zdle max_garbage (ZHEX :: s) = fifiHeader ZHEX (zrhhdr ctl hdr s) := by
  rw [scan, (noxSkips_false ctl).2.2.2.2, if_neg (by decide), if_neg (by decide),
    if_neg (by decide), if_pos (by decide)]

end

/-! ## Round trip -/

theorem Znulls_garbage (nulls : Nat) (type : UInt8) : ∀ c ∈ Znulls nulls type, isGarbage c := by
  intro c hc
  rw [Znulls] at hc
  split at hc
  · rw [List.eq_of_mem_replicate hc]
    decide
  · cases hc

theorem length_Znulls (nulls : Nat) (type : UInt8) : (Znulls nulls type).length ≤ nulls := by
  rw [Znulls]
  split
  · rw [List.length_replicate]
  · exact Nat.zero_le _

/-- A header whose check bytes are right. -/
def GotHeader.good (Rxframeind type : UInt8) (bytes rest : Bytes) : GotHeader :=
  ⟨type.toNat, Rxframeind, some (rclhdr bytes), bytes, rest⟩

theorem fifiHeader_good (Rxframeind type : UInt8) (bytes rest : Bytes) :
    fifiHeader Rxframeind ⟨type.toNat, bytes, rest⟩ = .good Rxframeind type bytes rest := by
  have hne : (type.toNat : Int) ≠ GOTCAN := by
    have := type.toNat_lt
    rw [GOTCAN]
    omega
  rw [fifiHeader, if_neg hne]
  rfl

section
variable {ctl Zctlesc turbo : Bool} {max_garbage : Nat} {hdr bytes garbage : Bytes}

theorem zgethdr_of_zsbhdr (hesc : Escaped ctl Zctlesc turbo) (hhdr : hdr.length = 4)
    (hbytes : bytes.length = 4) (Txfcs32 : Bool) (nulls : Nat) (lastsent type : UInt8)
    (hgarbage : ∀ c ∈ garbage, isGarbage c) (hlen : garbage.length + nulls < max_garbage)
    (rest : Bytes) :
    zgethdr ctl max_garbage hdr (garbage ++
        ((zsbhdr Txfcs32 nulls (zsendline_tab Zctlesc turbo) lastsent type bytes).1 ++ rest)) =
      .good (if Txfcs32 then ZBIN32 else ZBIN) type bytes rest := by
  have hnulls := length_Znulls nulls type
  have hread := (reads_zsendlines hesc lastsent ((fcs Txfcs32).codeword (type :: bytes))
    rest).by_zdlReader
  have haccept := (fcs Txfcs32).accepts_codeword (type :: bytes)
  rw [FrameCheck.codeword, List.cons_append] at hread haccept
  rw [zgethdr, zsbhdr]
  show scan _ _ _ _ (garbage ++ (_ ++ _)) = _
  rw [scan_garbage hgarbage (by omega), List.append_assoc,
    scan_garbage (Znulls_garbage nulls type) (by omega), List.cons_append, scan_pad,
    List.cons_append, splat_zdle, List.cons_append, zdle_bin, FrameCheck.codeword, List.cons_append,
    readHeader_of_reads hread hbytes ((fcs Txfcs32).length_check _) hhdr, if_pos haccept,
    fifiHeader_good]

theorem zrhhdr_of_zshhdr (hhdr : hdr.length = 4) (hbytes : bytes.length = 4) (type : UInt8)
    (rest : Bytes) :
    zrhhdr ctl hdr ((fcs16.codeword (type :: bytes)).flatMap zputhex ++ 0x0d :: 0x8a :: rest) =
      ⟨type.toNat, bytes, rest⟩ := by
  have hread := readsBy_zputhex ctl (fcs16.codeword (type :: bytes)) (0x0d :: 0x8a :: rest)
  have haccept := fcs16.accepts_codeword (type :: bytes)
  rw [FrameCheck.codeword, List.cons_append] at hread haccept
  have hheader := readHeader_of_reads hread hbytes (fcs16.length_check _) hhdr
  rw [if_pos haccept] at hheader
  rw [FrameCheck.codeword, List.cons_append, zrhhdr, hheader]
  exact if_neg (Int.not_lt.mpr (Int.natCast_nonneg _))

theorem zgethdr_of_zshhdr (hhdr : hdr.length = 4) (hbytes : bytes.length = 4) (type : UInt8)
    (hgarbage : ∀ c ∈ garbage, isGarbage c) (hlen : garbage.length < max_garbage) (rest : Bytes) :
    zgethdr ctl max_garbage hdr (garbage ++ (zshhdr type bytes ++ rest)) =
      .good ZHEX (type &&& 0x7f) bytes
        ((if type ≠ ZFIN ∧ type ≠ ZACK then [XON] else []) ++ rest) := by
  rw [zgethdr, scan_garbage hgarbage hlen, zshhdr]
  simp only [List.append_assoc, List.cons_append, List.nil_append]
  rw [scan_pad, splat_pad, splat_zdle, zdle_hex, zrhhdr_of_zshhdr hhdr hbytes, fifiHeader_good]

end

end ArgoBbs.Zmodem

import ArgoBbs.Lib.Fgets
import ArgoBbs.Lib.Terminated

/-! # The body of a mail

`bbs_sendmail` copies an article to `sendmail`, line by line: each line is ended by CRLF, one that is
a single dot is changed, since such a line ends the mail, and one is written at the end; on demand the
escape sequences are taken out (`mail.c`). The lines are read with `fgets` into 255 bytes, so that a
longer line comes in pieces. -/

namespace ArgoBbs

/-- The loop of `my_ansi_filter`: what is left, and whether an escape sequence is open at the end. -/
def ansiRun : Bool → Bytes → Bytes × Bool
  | flag, [] => ([], flag)
  | flag, c :: source =>
    if c = 27 then ansiRun true source
    else if flag && isalpha c then ansiRun false source
    else if flag then ansiRun true source
    else (c :: (ansiRun false source).1, (ansiRun false source).2)

def myAnsiFilter (source : Bytes) : Bytes := (ansiRun false source).1

/-- A round of the loop of `bbs_sendmail`. -/
def sendmailPiece (filter : Bool) (buf : Bytes) : Bytes :=
  let genbuf := buf.takeWhile (· ≠ 0)
  let genbuf := if filter then myAnsiFilter genbuf else genbuf
  if genbuf.take 2 = bytes ".\n" then bytes ". \r\n"
  else
    match strrchr genbuf 10 with
    | some ptr => genbuf.take ptr ++ bytes "\r\n"
    | none => genbuf

/-- What `bbs_sendmail` writes behind the headers. -/
def sendmailBody (filter : Bool) (article : Bytes) : Bytes :=
  (fgetsLoop 255 [] article).flatMap (sendmailPiece filter) ++ bytes ".\n"

/-! ## The lines -/

/-- The lines of an article; the last one may have no newline. -/
def articleLines (article : Bytes) : List Bytes :=
  let lines := article.splitOn 10
  if lines.getLast? = some [] then lines.dropLast else lines

/-- A line without escape sequences. The filter does not go beyond a zero byte. -/
def filteredLine (filter : Bool) (line : Bytes) : Bytes :=
  if filter then myAnsiFilter (line.takeWhile (· ≠ 0)) ++ line.dropWhile (· ≠ 0) else line

/-- A line that is not taken for the end of the mail. -/
def dotLine (line : Bytes) : Bytes := if line = bytes "." then bytes ". " else line

/-- The body has the lines of the article in order, each ended by CRLF, and the line that ends the
mail. -/
def BodyRight (filter : Bool) (article : Bytes) : Prop :=
  sendmailBody filter article =
    (articleLines article).flatMap (fun line => dotLine (filteredLine filter line) ++ bytes "\r\n") ++
      bytes ".\n"

/-- An escape sequence is open behind the text. -/
def mailOpen (filter : Bool) (s : Bytes) : Bool := filter && (ansiRun false s).2

def mailText (filter : Bool) (s : Bytes) : Bytes := if filter then myAnsiFilter s else s

/-- What the buffer holds of a line at last. -/
def lastPiece (line : Bytes) : Bytes := line.drop (254 * (line.length / 254))

/-- What is left of a line that is filtered piece by piece. -/
def piecesText (filter : Bool) (line : Bytes) : Bytes :=
  (fgetsLoop 255 [] line).flatMap (mailText filter)

/-- Where a new piece of the line starts within an escape sequence, another one starts. -/
def PiecesJoin (filter : Bool) (s : Bytes) : Prop :=
  ∀ k, 254 * k < s.length → mailOpen filter (s.take (254 * k)) = true →
    s[254 * k]? = some 27

/-- At the end of the last piece no escape sequence is open; the pieces join, and the last one is a
single dot just if the line is. Or what the pieces leave too much of a single dot is just the space
that is put behind it. -/
def LineSends (filter : Bool) (line : Bytes) : Prop :=
  mailOpen filter (lastPiece line) = false ∧
    (PiecesJoin filter line ∧
        (mailText filter (lastPiece line) = bytes "." ↔ mailText filter line = bytes ".") ∨
      mailText filter line = bytes "." ∧ piecesText filter line = bytes ". ")

section
variable {filter flag : Bool} {s t line article : Bytes} {c : UInt8}

theorem ansiRun_append (flag : Bool) (s t : Bytes) :
    ansiRun flag (s ++ t) = ((ansiRun flag s).1 ++ (ansiRun (ansiRun flag s).2 t).1,
      (ansiRun (ansiRun flag s).2 t).2) := by
  induction s generalizing flag with
  | nil => rfl
  | cons c s ih =>
    rw [List.cons_append, ansiRun, ansiRun]
    repeat' split
    all_goals rw [ih]
    rfl

theorem ansiRun_sublist (flag : Bool) (s : Bytes) : List.Sublist (ansiRun flag s).1 s := by
  induction s generalizing flag with
  | nil => exact .slnil
  | cons c s ih =>
    rw [ansiRun]
    repeat' split
    all_goals first
      | exact (ih _).cons c
      | exact (ih false).cons_cons c

/-- With an escape sequence open less is left, unless another one starts at once. -/
theorem ansiRun_open (s : Bytes) :
    (ansiRun true s).1.length ≤ (ansiRun false s).1.length ∧
      ((ansiRun true s).1 = (ansiRun false s).1 ↔ ∀ c ∈ s.head?, c = 27) := by
  induction s with
  | nil => exact ⟨Nat.le_refl _, iff_of_true rfl nofun⟩
  | cons c s ih =>
    by_cases hesc : c = 27
    · rw [ansiRun, ansiRun, if_pos hesc, if_pos hesc]
      refine ⟨Nat.le_refl _, iff_of_true rfl fun d hd => ?_⟩
      rw [← Option.some.inj hd, hesc]
    · have hkeep : ansiRun false (c :: s) = (c :: (ansiRun false s).1, (ansiRun false s).2) := by
        rw [ansiRun, if_neg hesc]
        rfl
      have hdrop : (ansiRun true (c :: s)).1.length ≤ (ansiRun false s).1.length := by
        rw [ansiRun, if_neg hesc]
        split
        · exact Nat.le_refl _
        · exact ih.1
      rw [hkeep]
      refine ⟨Nat.le_succ_of_le hdrop, iff_of_false (fun heq => ?_) fun h => hesc (h c rfl)⟩
      rw [heq, List.length_cons] at hdrop
      omega

/-! ## The pieces of a line -/

theorem mailText_sublist (filter : Bool) (s : Bytes) : List.Sublist (mailText filter s) s := by
  cases filter with
  | false => exact .refl s
  | true => exact ansiRun_sublist false s

theorem mailText_subset (h : c ∈ mailText filter s) : c ∈ s := (mailText_sublist filter s).mem h

theorem not_mem_mailText (h : c ∉ s) : c ∉ mailText filter s := fun hmem => h (mailText_subset hmem)

theorem fgetsLoop_short (h : line.length < 254) (hline : 10 ∉ line) (more : Bytes) :
    fgetsLoop 255 [] (line ++ 10 :: more) = (line ++ [10]) :: fgetsLoop 255 [] more := by
  refine fgetsLoop_append hline ?_
  rw [List.length_nil]
  omega

theorem fgetsLoop_long (h : 254 ≤ line.length) (hline : 10 ∉ line) (more : Bytes) :
    fgetsLoop 255 [] (line ++ more) = line.take 254 :: fgetsLoop 255 [] (line.drop 254 ++ more) := by
  have hlen : (line.take 254).length = 254 := List.length_take_of_le h
  conv_lhs => rw [← List.take_append_drop 254 line, List.append_assoc]
  refine fgetsLoop_full (fun hmem => hline (List.mem_of_mem_take hmem)) (fun hnil => ?_) ?_
  · rw [hnil] at hlen
    cases hlen
  · rw [hlen]
    rfl

theorem piecesText_long (h : 254 ≤ line.length) (hline : 10 ∉ line) :
    piecesText filter line = mailText filter (line.take 254) ++ piecesText filter (line.drop 254) := by
  have hlong := fgetsLoop_long h hline []
  rw [List.append_nil, List.append_nil] at hlong
  rw [piecesText, hlong, List.flatMap_cons, piecesText]

theorem mailText_nil : mailText filter [] = [] := by
  cases filter <;> rfl

theorem piecesText_short (h : line.length < 254) (hline : 10 ∉ line) :
    piecesText filter line = mailText filter line := by
  rw [piecesText, fgetsLoop_end hline (by rw [List.length_nil]; omega), List.nil_append]
  split
  case isTrue hnil => rw [hnil, mailText_nil]; rfl
  case isFalse => rw [List.flatMap_singleton]

theorem not_mem_lastPiece (h : c ∉ line) : c ∉ lastPiece line := fun hmem =>
  h (List.mem_of_mem_drop hmem)

theorem lastPiece_long (h : 254 ≤ line.length) : lastPiece (line.drop 254) = lastPiece line := by
  rw [lastPiece, lastPiece, List.drop_drop, List.length_drop]
  congr 1
  omega

theorem lastPiece_short (h : line.length < 254) : lastPiece line = line := by
  rw [lastPiece, Nat.div_eq_of_lt h]
  rfl

/-- A line is cut off piece by piece. -/
theorem pieces_induction {P : Bytes → Prop} (hshort : ∀ line, line.length < 254 → P line)
    (hlong : ∀ line, 254 ≤ line.length → P (line.drop 254) → P line) (line : Bytes) : P line := by
  induction hlen : line.length using Nat.strong_induction_on generalizing line with
  | _ n ih =>
    obtain hlt | hle := Nat.lt_or_ge line.length 254
    · exact hshort line hlt
    · refine hlong line hle (ih _ ?_ (line.drop 254) rfl)
      rw [List.length_drop]
      omega

/-- The places where a new piece starts, with an escape sequence open or not in front of the text. -/
def Joins (flag : Bool) (s : Bytes) : Prop :=
  ∀ k, 254 * k < s.length → (ansiRun flag (s.take (254 * k))).2 = true → s[254 * k]? = some 27

/-- At the start of the text. -/
theorem joins_zero :
    (254 * 0 < s.length → (ansiRun flag (s.take (254 * 0))).2 = true →
      s[254 * 0]? = some 27) ↔ (flag = true → ∀ c ∈ s.head?, c = 27) := by
  cases s with
  | nil => exact iff_of_true nofun fun _ _ h => nomatch h
  | cons c s =>
    constructor
    · intro h hflag d hd
      rw [← Option.some.inj hd]
      exact Option.some.inj (h (Nat.succ_pos _) hflag)
    · exact fun h _ hflag => congrArg some (h hflag c rfl)

theorem joins_short (h : s.length < 254) :
    Joins flag s ↔ (flag = true → ∀ c ∈ s.head?, c = 27) := by
  rw [← joins_zero]
  constructor
  · exact fun hjoins => hjoins 0
  · intro hzero k hk
    obtain rfl : k = 0 := by omega
    exact hzero hk

theorem joins_long (h : 254 ≤ s.length) :
    Joins flag s ↔ (flag = true → ∀ c ∈ s.head?, c = 27) ∧
      Joins (ansiRun flag (s.take 254)).2 (s.drop 254) := by
  have htake (k : Nat) : s.take (254 * (k + 1)) =
      s.take 254 ++ (s.drop 254).take (254 * k) := by
    rw [Nat.mul_succ, Nat.add_comm, List.take_add]
  have hget (k : Nat) : s[254 * (k + 1)]? = (s.drop 254)[254 * k]? := by
    rw [List.getElem?_drop, Nat.mul_succ, Nat.add_comm]
  rw [← joins_zero]
  constructor
  · refine fun hjoins => ⟨hjoins 0, fun k hk hopen => ?_⟩
    rw [List.length_drop] at hk
    rw [← hget]
    refine hjoins (k + 1) (by omega) ?_
    rwa [htake, ansiRun_append]
  · rintro ⟨hzero, hjoins⟩ k hk hopen
    cases k with
    | zero => exact hzero hk hopen
    | succ k =>
      rw [htake, ansiRun_append] at hopen
      rw [hget]
      refine hjoins k ?_ hopen
      rw [List.length_drop]
      omega

/-- What is left of a text depends on an escape sequence that is open in front of it. -/
theorem ansiRun_start (flag : Bool) (s : Bytes) :
    (ansiRun flag s).1.length ≤ (mailText true s).length ∧
      ((ansiRun flag s).1 = mailText true s ↔ flag = true → ∀ c ∈ s.head?, c = 27) := by
  cases flag with
  | false => exact ⟨Nat.le_refl _, iff_of_true rfl nofun⟩
  | true =>
    obtain ⟨hle, hiff⟩ := ansiRun_open s
    exact ⟨hle, hiff.trans ⟨fun h _ => h, fun h => h rfl⟩⟩

/-- What the filter leaves of the whole line is not more than what it leaves of the pieces, and the
same just if they join. -/
theorem ansiRun_pieces (flag : Bool) (hline : 10 ∉ line) :
    (ansiRun flag line).1.length ≤ (piecesText true line).length ∧
      ((ansiRun flag line).1 = piecesText true line ↔ Joins flag line) := by
  induction line using pieces_induction generalizing flag with
  | hshort line h =>
    rw [piecesText_short h hline, joins_short h]
    exact ansiRun_start flag line
  | hlong line h ih =>
    have hdrop : 10 ∉ line.drop 254 := fun hmem => hline (List.mem_of_mem_drop hmem)
    obtain ⟨hle, hiff⟩ := ih (ansiRun flag (line.take 254)).2 hdrop
    obtain ⟨hle', hiff'⟩ := ansiRun_start flag (line.take 254)
    have hrun : (ansiRun flag line).1 = (ansiRun flag (line.take 254)).1 ++
        (ansiRun (ansiRun flag (line.take 254)).2 (line.drop 254)).1 := by
      conv_lhs => rw [← List.take_append_drop 254 line, ansiRun_append]
    have hhead : (line.take 254).head? = line.head? := by
      cases line with
      | nil => rfl
      | cons c line => rfl
    rw [hrun, piecesText_long h hline, joins_long h, ← hiff, ← hhead, ← hiff']
    refine ⟨?_, fun heq => ?_, fun heq => ?_⟩
    · rw [List.length_append, List.length_append]
      omega
    · have hlen := congrArg List.length heq
      rw [List.length_append, List.length_append] at hlen
      exact List.append_inj heq (by omega)
    · rw [heq.1, heq.2]

/-- Without the filter the pieces always join. -/
theorem mailText_pieces (filter : Bool) (hline : 10 ∉ line) :
    (mailText filter line).length ≤ (piecesText filter line).length ∧
      (mailText filter line = piecesText filter line ↔ PiecesJoin filter line) := by
  cases filter with
  | false =>
    have hpieces : piecesText false line = line := by
      have hjoin : piecesText false line = (fgetsLoop 255 [] line).flatten := List.flatMap_id'
      rw [hjoin, flatten_fgetsLoop, List.nil_append]
    rw [hpieces]
    exact ⟨Nat.le_refl _, iff_of_true rfl nofun⟩
  | true => exact ansiRun_pieces false hline

/-! ## What is written of a line -/

theorem zero_not_mem_takeWhile : 0 ∉ s.takeWhile (· ≠ 0) := fun h => by
  simpa using List.mem_takeWhile_imp h

theorem takeWhile_ne_zero (h : 0 ∉ s) : s.takeWhile (· ≠ 0) = s := by
  rw [List.takeWhile_eq_self_iff]
  exact fun c hc => decide_eq_true fun hzero => h (hzero ▸ hc)

theorem sendmailPiece_eq (filter : Bool) (s : Bytes) : sendmailPiece filter s =
    if (mailText filter (s.takeWhile (· ≠ 0))).take 2 = bytes ".\n" then bytes ". \r\n"
    else
      match strrchr (mailText filter (s.takeWhile (· ≠ 0))) 10 with
      | some ptr => (mailText filter (s.takeWhile (· ≠ 0))).take ptr ++ bytes "\r\n"
      | none => mailText filter (s.takeWhile (· ≠ 0)) := rfl

theorem take_ne_dot (h : 10 ∉ s) : s.take 2 ≠ bytes ".\n" := by
  intro htake
  have hmem : 10 ∈ s.take 2 := by
    rw [htake]
    decide
  exact h (List.mem_of_mem_take hmem)

/-- A piece without the end of the line. -/
theorem sendmailPiece_inner (hzero : 0 ∉ s) (hs : 10 ∉ s) :
    sendmailPiece filter s = mailText filter s := by
  have htext : 10 ∉ mailText filter s := not_mem_mailText hs
  rw [sendmailPiece_eq, takeWhile_ne_zero hzero, if_neg (take_ne_dot htext),
    strrchr_eq_none_iff.mpr htext]

theorem mailText_newline : mailText filter (s ++ [10]) =
    if mailOpen filter s then mailText filter s else mailText filter s ++ [10] := by
  cases filter with
  | false => rfl
  | true =>
    have hrun : (ansiRun true [10]).1 = [] ∧ (ansiRun false [10]).1 = [10] := by decide
    have hopen : mailOpen true s = (ansiRun false s).2 := rfl
    have hnewline : mailText true (s ++ [10]) =
        mailText true s ++ (ansiRun (ansiRun false s).2 [10]).1 :=
      congrArg Prod.fst (ansiRun_append false s [10])
    rw [hnewline, hopen]
    cases (ansiRun false s).2 with
    | false => rw [hrun.2]; rfl
    | true => rw [hrun.1, List.append_nil]; rfl

theorem take_dot_newline (hs : 10 ∉ s) : (s ++ [10]).take 2 = bytes ".\n" ↔ s = bytes "." := by
  have hdot : bytes "." = [46] := rfl
  have hnewline : bytes ".\n" = [46, 10] := rfl
  rw [hdot, hnewline]
  match s with
  | [] => exact iff_of_false nofun nofun
  | [c] => simp
  | c :: d :: rest =>
    have hd : d ≠ 10 := fun h => hs (h ▸ List.mem_cons_of_mem c List.mem_cons_self)
    simp [hd]

/-- The last piece of a line. -/
theorem sendmailPiece_last (hzero : 0 ∉ s) (hs : 10 ∉ s) :
    sendmailPiece filter (s ++ [10]) =
      if mailOpen filter s then mailText filter s
      else dotLine (mailText filter s) ++ bytes "\r\n" := by
  have htext : 10 ∉ mailText filter s := not_mem_mailText hs
  have hzero : 0 ∉ s ++ [10] := by
    rw [List.mem_append, List.mem_singleton]
    exact fun h => h.elim hzero (by decide)
  rw [sendmailPiece_eq, takeWhile_ne_zero hzero, mailText_newline]
  split
  case isTrue hopen => rw [if_neg (take_ne_dot htext), strrchr_eq_none_iff.mpr htext]
  case isFalse hclosed =>
    have hdot := take_dot_newline htext
    rw [dotLine]
    split
    case isTrue h => rw [if_pos (hdot.mp h)]; rfl
    case isFalse h =>
      have hlast : strrchr (mailText filter s ++ [10]) 10 = some (mailText filter s).length :=
        strrchr_eq_some_iff.mpr ⟨_, [], rfl, List.not_mem_nil, rfl⟩
      rw [if_neg fun heq => h (hdot.mpr heq), hlast]
      exact congrArg (· ++ _) List.take_left

/-- The text written of a line that ends with a newline. -/
def lineText (filter : Bool) (line : Bytes) : Bytes :=
  (fgetsLoop 255 [] (line ++ [10])).flatMap (sendmailPiece filter)

theorem lineText_eq (filter : Bool) (hzero : 0 ∉ line) (hline : 10 ∉ line) :
    ∃ first, 10 ∉ first ∧ piecesText filter line = first ++ mailText filter (lastPiece line) ∧
      lineText filter line = first ++ sendmailPiece filter (lastPiece line ++ [10]) := by
  induction line using pieces_induction with
  | hshort line h =>
    refine ⟨[], List.not_mem_nil, ?_, ?_⟩
    · rw [piecesText_short h hline, lastPiece_short h, List.nil_append]
    · rw [lineText, fgetsLoop_short h hline [], lastPiece_short h, List.nil_append]
      exact List.append_nil _
  | hlong line h ih =>
    obtain ⟨first, hfirst, hpieces, htext⟩ := ih (fun hmem => hzero (List.mem_of_mem_drop hmem))
      fun hmem => hline (List.mem_of_mem_drop hmem)
    have hpiece : 10 ∉ mailText filter (line.take 254) :=
      not_mem_mailText fun hmem => hline (List.mem_of_mem_take hmem)
    refine ⟨mailText filter (line.take 254) ++ first, ?_, ?_, ?_⟩
    · rw [List.mem_append]
      exact fun h => h.elim hpiece hfirst
    · rw [piecesText_long h hline, hpieces, lastPiece_long h, List.append_assoc]
    · rw [lastPiece_long h] at htext
      rw [lineText, fgetsLoop_long h hline, List.flatMap_cons, ← lineText, htext,
        sendmailPiece_inner (fun hmem => hzero (List.mem_of_mem_take hmem))
          fun hmem => hline (List.mem_of_mem_take hmem), List.append_assoc]

theorem filteredLine_eq (hzero : 0 ∉ line) : filteredLine filter line = mailText filter line := by
  have hdrop : line.dropWhile (· ≠ 0) = [] :=
    List.append_cancel_left ((List.takeWhile_append_dropWhile (p := (· ≠ 0)) (l := line)).trans
      (by rw [takeWhile_ne_zero hzero, List.append_nil]))
  rw [filteredLine, takeWhile_ne_zero hzero, hdrop, List.append_nil]
  rfl

/-- No line is taken for the end of the mail. -/
theorem dotLine_ne (line : Bytes) : dotLine line ≠ bytes "." := by
  rw [dotLine]
  split
  case isTrue => decide
  case isFalse h => exact h

theorem dotLine_iff {first last text : Bytes} (hle : text.length ≤ (first ++ last).length) :
    first ++ dotLine last = dotLine text ↔
      text = first ++ last ∧ (last = bytes "." ↔ text = bytes ".") ∨
        text = bytes "." ∧ first ++ last = bytes ". " := by
  have hone : (bytes ".").length = 1 := rfl
  have htwo : (bytes ". ").length = 2 := rfl
  constructor
  · intro h
    by_cases hlast : last = bytes "."
    · by_cases htext : text = bytes "."
      · rw [dotLine, dotLine, if_pos hlast, if_pos htext] at h
        have hfirst : first = [] := List.append_left_eq_self.mp h
        exact .inl ⟨by rw [hfirst, hlast, htext]; rfl, iff_of_true hlast htext⟩
      · rw [dotLine, dotLine, if_pos hlast, if_neg htext] at h
        rw [← h, hlast, List.length_append, List.length_append, hone, htwo] at hle
        omega
    · rw [dotLine, if_neg hlast, dotLine] at h
      split at h
      case isTrue htext => exact .inr ⟨htext, h⟩
      case isFalse htext => exact .inl ⟨h.symm, iff_of_false hlast htext⟩
  · rintro (⟨heq, hiff⟩ | ⟨htext, hspace⟩)
    · by_cases hlast : last = bytes "."
      · have htext := hiff.mp hlast
        have hfirst : first = [] := by
          rw [htext, hlast] at heq
          exact List.append_left_eq_self.mp heq.symm
        rw [hfirst, hlast, htext, List.nil_append]
      · have htext : text ≠ bytes "." := fun h => hlast (hiff.mpr h)
        rw [dotLine, dotLine, if_neg hlast, if_neg htext, heq]
    · have hlast : last ≠ bytes "." := by
        rintro rfl
        have hend := congrArg List.getLast? hspace
        rw [show bytes "." = [46] from rfl, List.getLast?_concat] at hend
        exact absurd hend (by decide)
      rw [dotLine, dotLine, if_neg hlast, if_pos htext, hspace]

/-- A line is written as it should be just if `LineSends` holds of it. -/
theorem lineText_iff (hzero : 0 ∉ line) (hline : 10 ∉ line) :
    lineText filter line = dotLine (filteredLine filter line) ++ bytes "\r\n" ↔
      LineSends filter line := by
  obtain ⟨first, hfirst, hpieces, htext⟩ := lineText_eq filter hzero hline
  obtain ⟨hle, hjoin⟩ := mailText_pieces filter hline
  rw [htext, filteredLine_eq hzero, LineSends, ← hjoin, hpieces,
    sendmailPiece_last (not_mem_lastPiece hzero) (not_mem_lastPiece hline)]
  rw [hpieces] at hle
  cases mailOpen filter (lastPiece line) with
  | false =>
    rw [if_neg (by decide), ← List.append_assoc, List.append_left_inj, and_iff_right rfl]
    exact dotLine_iff hle
  | true =>
    refine iff_of_false (fun h => ?_) fun h => nomatch h.1
    have hlast : 10 ∉ mailText filter (lastPiece line) := not_mem_mailText (not_mem_lastPiece hline)
    have hmem : 10 ∈ first ++ mailText filter (lastPiece line) := by
      rw [if_pos rfl] at h
      rw [h]
      exact List.mem_append_right _ (by decide)
    exact (List.mem_append.mp hmem).elim hfirst hlast

/-! ## What is written of an article -/

/-- The line of the body for a line of the article, up to its newline. -/
def bodyLine (filter : Bool) (line : Bytes) : Bytes := dotLine (filteredLine filter line) ++ [13]

theorem articleLines_packed {lines : List Bytes} {rest : Bytes} (hlines : ∀ line ∈ lines, 10 ∉ line)
    (hrest : 10 ∉ rest) :
    articleLines (packed 10 lines ++ rest) = lines ++ if rest = [] then [] else [rest] := by
  have hsplit : (packed 10 lines ++ rest).splitOn 10 = lines ++ [rest] := by
    induction lines with
    | nil => exact List.splitOn_eq_singleton hrest
    | cons line lines ih =>
      obtain ⟨hline, hlines⟩ := List.forall_mem_cons.mp hlines
      rw [packed_cons, List.append_assoc, List.cons_append,
        List.splitOn_append_cons_self_of_not_mem hline, ih hlines, List.cons_append]
  rw [articleLines, hsplit]
  simp only [List.getLast?_concat, List.dropLast_concat, Option.some_inj]
  split
  case isTrue => rw [List.append_nil]
  case isFalse => rfl

theorem bodyRight_iff_packed : BodyRight filter article ↔ sendmailBody filter article =
    packed 10 ((articleLines article).map (bodyLine filter)) ++ bytes ".\n" := by
  have hpacked (lines : List Bytes) :
      lines.flatMap (fun line => dotLine (filteredLine filter line) ++ bytes "\r\n") =
        packed 10 (lines.map (bodyLine filter)) := by
    rw [packed, List.flatMap_map]
    refine congrArg (List.flatMap · lines) (funext fun line => ?_)
    rw [bodyLine, List.append_assoc]
    rfl
  rw [BodyRight, hpacked]

theorem zero_mem_bodyLine (h : 0 ∈ line) : 0 ∈ bodyLine filter line := by
  have hfiltered : 0 ∈ filteredLine filter line := by
    rw [filteredLine]
    split
    · refine List.mem_append_right _ ?_
      rw [← List.takeWhile_append_dropWhile (p := (· ≠ 0)) (l := line)] at h
      exact (List.mem_append.mp h).resolve_left zero_not_mem_takeWhile
    · exact h
  have hdot : filteredLine filter line ≠ bytes "." := fun heq => by
    rw [heq] at hfiltered
    exact absurd hfiltered (by decide)
  rw [bodyLine, dotLine, if_neg hdot]
  exact List.mem_append_left _ hfiltered

theorem newline_not_mem_bodyLine (h : 10 ∉ line) : 10 ∉ bodyLine filter line := by
  have hfiltered : 10 ∉ filteredLine filter line := by
    rw [filteredLine]
    split
    · rw [List.mem_append]
      rintro (htake | hdrop)
      · exact h ((List.takeWhile_sublist _).mem ((ansiRun_sublist false _).mem htake))
      · exact h ((List.dropWhile_sublist _).mem hdrop)
    · exact h
  rw [bodyLine, List.mem_append, dotLine]
  rintro (hdot | hcr)
  · split at hdot
    · exact absurd hdot (by decide)
    · exact hfiltered hdot
  · exact absurd hcr (by decide)

theorem zero_not_mem_sendmailPiece : 0 ∉ sendmailPiece filter s := by
  have htext : 0 ∉ mailText filter (s.takeWhile (· ≠ 0)) := not_mem_mailText zero_not_mem_takeWhile
  intro hmem
  rw [sendmailPiece_eq] at hmem
  split at hmem
  · exact absurd hmem (by decide)
  · split at hmem
    · obtain htake | hcrlf := List.mem_append.mp hmem
      · exact htext (List.mem_of_mem_take htake)
      · exact absurd hcrlf (by decide)
    · exact htext hmem

theorem zero_not_mem_sendmailBody : 0 ∉ sendmailBody filter article := by
  rw [sendmailBody, List.mem_append, List.mem_flatMap]
  rintro (⟨buf, -, hmem⟩ | hend)
  · exact zero_not_mem_sendmailPiece hmem
  · exact absurd hend (by decide)

/-- What is written of a line has a newline at the end at most. -/
theorem lineText_cases (filter : Bool) (hzero : 0 ∉ line) (hline : 10 ∉ line) :
    10 ∉ lineText filter line ∨ ∃ text : Bytes, 10 ∉ text ∧ lineText filter line = text ++ [10] := by
  obtain ⟨first, hfirst, -, htext⟩ := lineText_eq filter hzero hline
  have hlast : 10 ∉ mailText filter (lastPiece line) := not_mem_mailText (not_mem_lastPiece hline)
  rw [htext, sendmailPiece_last (not_mem_lastPiece hzero) (not_mem_lastPiece hline)]
  split
  case isTrue =>
    refine .inl fun h => ?_
    exact (List.mem_append.mp h).elim hfirst hlast
  case isFalse =>
    refine .inr ⟨first ++ (dotLine (mailText filter (lastPiece line)) ++ [13]), ?_, ?_⟩
    · rw [List.mem_append, List.mem_append, dotLine]
      rintro (h | h | h)
      · exact hfirst h
      · split at h
        · exact absurd h (by decide)
        · exact hlast h
      · exact absurd h (by decide)
    · rw [List.append_assoc, List.append_assoc]
      rfl

theorem count_lineText_le (filter : Bool) {lines : List Bytes} (hzero : ∀ line ∈ lines, 0 ∉ line)
    (hlines : ∀ line ∈ lines, 10 ∉ line) :
    (lines.flatMap (lineText filter)).count 10 ≤ lines.length := by
  induction lines with
  | nil => exact Nat.le_refl 0
  | cons line lines ih =>
    obtain ⟨hzero, hzeros⟩ := List.forall_mem_cons.mp hzero
    obtain ⟨hline, hlines⟩ := List.forall_mem_cons.mp hlines
    have hone : (lineText filter line).count 10 ≤ 1 := by
      obtain hnone | ⟨text, htext, heq⟩ := lineText_cases filter hzero hline
      · rw [List.count_eq_zero_of_not_mem hnone]
        exact Nat.zero_le 1
      · rw [heq, List.count_append, List.count_eq_zero_of_not_mem htext]
        exact Nat.le_refl 1
    rw [List.flatMap_cons, List.count_append, List.length_cons, Nat.add_comm]
    exact Nat.add_le_add (ih hzeros hlines) hone

theorem count_bodyLines {lines : List Bytes} (hlines : ∀ line ∈ lines, 10 ∉ line) :
    (packed 10 (lines.map (bodyLine filter))).count 10 = lines.length := by
  rw [count_packed, List.length_map]
  intro text htext
  obtain ⟨line, hmem, rfl⟩ := List.mem_map.mp htext
  exact newline_not_mem_bodyLine (hlines line hmem)

/-- The lines are right just if each of them is. -/
theorem lineTexts_iff {lines : List Bytes} (tail : Bytes) (hzero : ∀ line ∈ lines, 0 ∉ line)
    (hlines : ∀ line ∈ lines, 10 ∉ line) :
    lines.flatMap (lineText filter) ++ tail = packed 10 (lines.map (bodyLine filter)) ++ tail ↔
      ∀ line ∈ lines, LineSends filter line := by
  rw [List.append_left_inj]
  induction lines with
  | nil => exact iff_of_true rfl (List.forall_mem_nil _)
  | cons line lines ih =>
    obtain ⟨hzero, hzeros⟩ := List.forall_mem_cons.mp hzero
    obtain ⟨hline, hlines⟩ := List.forall_mem_cons.mp hlines
    have hright : lineText filter line = bodyLine filter line ++ [10] ↔ LineSends filter line := by
      rw [← lineText_iff hzero hline, bodyLine, List.append_assoc]
      rfl
    rw [List.forall_mem_cons, ← ih hzeros hlines, ← hright, List.map_cons, packed_cons,
      List.flatMap_cons]
    constructor
    · intro heq
      obtain hnone | ⟨text, htext, hend⟩ := lineText_cases filter hzero hline
      · have hcount := congrArg (List.count 10) heq
        rw [List.count_append, List.count_eq_zero_of_not_mem hnone, List.count_append,
          List.count_cons_self, count_bodyLines hlines] at hcount
        have hle := count_lineText_le filter hzeros hlines
        omega
      · rw [hend, List.append_assoc] at heq
        obtain ⟨hfirst, hrest⟩ := append_sep_inj htext (newline_not_mem_bodyLine hline) heq
        exact ⟨by rw [hend, hfirst], hrest⟩
    · rintro ⟨hfirst, hrest⟩
      rw [hfirst, hrest, List.append_assoc]
      rfl

/-- The lines are read one after the other. -/
theorem sendmail_packed (lines : List Bytes) (rest : Bytes) :
    (fgetsLoop 255 [] (packed 10 lines ++ rest)).flatMap (sendmailPiece filter) =
      lines.flatMap (lineText filter) ++
        (fgetsLoop 255 [] rest).flatMap (sendmailPiece filter) := by
  induction lines with
  | nil => rfl
  | cons line lines ih =>
    rw [packed_cons, List.append_assoc, List.cons_append, fgetsLoop_newline, List.flatMap_append, ih,
      List.flatMap_cons, List.append_assoc]
    rfl

/-- No newline is written for the end of an article without one. -/
theorem newline_not_mem_rest {rest : Bytes} (hzero : 0 ∉ rest) (hrest : 10 ∉ rest) :
    10 ∉ (fgetsLoop 255 [] rest).flatMap (sendmailPiece filter) := by
  rw [List.mem_flatMap]
  rintro ⟨buf, hbuf, hmem⟩
  have hsub {c : UInt8} (hc : c ∈ buf) : c ∈ rest := by
    have hflat := List.mem_flatten_of_mem hbuf hc
    rwa [flatten_fgetsLoop] at hflat
  rw [sendmailPiece_inner (fun h => hzero (hsub h)) fun h => hrest (hsub h)] at hmem
  exact hrest (hsub (mailText_subset hmem))

theorem exists_articleLine (h : c ∈ article) (hc : c ≠ 10) :
    ∃ line ∈ articleLines article, c ∈ line := by
  obtain ⟨lines, rest, rfl, hlines, hrest⟩ := exists_packed 10 article
  rw [articleLines_packed hlines hrest]
  obtain hpacked | hmem := List.mem_append.mp h
  · obtain ⟨line, hline, hmem⟩ := List.mem_flatMap.mp hpacked
    refine ⟨line, List.mem_append_left _ hline, (List.mem_append.mp hmem).resolve_right fun hten => ?_⟩
    exact hc (List.mem_singleton.mp hten)
  · refine ⟨rest, List.mem_append_right _ ?_, hmem⟩
    rw [if_neg (List.ne_nil_of_mem hmem)]
    exact List.mem_singleton_self rest

/-- What is behind a zero byte is lost. -/
theorem zero_not_mem_of_bodyRight (h : BodyRight filter article) : 0 ∉ article := fun hmem => by
  obtain ⟨line, hline, hzero⟩ := exists_articleLine hmem (by decide)
  have hbody : 0 ∈ sendmailBody filter article := by
    rw [bodyRight_iff_packed.mp h]
    refine List.mem_append_left _ (List.mem_flatMap.mpr ⟨_, List.mem_map_of_mem hline, ?_⟩)
    exact List.mem_append_left _ (zero_mem_bodyLine hzero)
  exact zero_not_mem_sendmailBody hbody

theorem getLast?_packed (lines : List Bytes) : ∀ c ∈ (packed 10 lines).getLast?, c = 10 := by
  rcases packed_eq_nil_or 10 lines with rfl | ⟨pre, hpre⟩
  · exact nofun
  · rw [hpre, List.getLast?_concat]
    exact fun c hc => (Option.some.inj hc).symm

theorem not_mem_line {lines : List Bytes} {rest : Bytes} (h : c ∉ packed 10 lines ++ rest) :
    ∀ line ∈ lines, c ∉ line := fun line hline hmem =>
  h (List.mem_append_left _ (List.mem_flatMap.mpr ⟨line, hline, List.mem_append_left _ hmem⟩))

/-- The last line gets no end of its own. -/
theorem not_bodyRight_of_rest {lines : List Bytes} {rest : Bytes} (hlines : ∀ line ∈ lines, 10 ∉ line)
    (hzero : 0 ∉ packed 10 lines ++ rest) (hrest : 10 ∉ rest) (hne : rest ≠ []) :
    ¬BodyRight filter (packed 10 lines ++ rest) := by
  have hrestZero : 0 ∉ rest := fun h => hzero (List.mem_append_right _ h)
  have hall : ∀ line ∈ lines ++ [rest], 10 ∉ line := by
    rw [List.forall_mem_append, List.forall_mem_singleton]
    exact ⟨hlines, hrest⟩
  rw [bodyRight_iff_packed, articleLines_packed hlines hrest, if_neg hne, sendmailBody,
    sendmail_packed, List.append_left_inj]
  intro heq
  have hcount := congrArg (List.count 10) heq
  rw [List.count_append, List.count_eq_zero_of_not_mem (newline_not_mem_rest hrestZero hrest),
    count_bodyLines hall, List.length_append, Nat.add_zero] at hcount
  have hle := hcount ▸ count_lineText_le filter (not_mem_line hzero) hlines
  exact absurd hle (Nat.not_succ_le_self lines.length)

/-- The body is right just if no zero byte is in the article, a newline ends it, and each of its lines
is written as it should be. -/
theorem bbs_sendmail_iff (filter : Bool) (article : Bytes) :
    BodyRight filter article ↔ 0 ∉ article ∧ (∀ c ∈ article.getLast?, c = 10) ∧
      ∀ line ∈ articleLines article, LineSends filter line := by
  refine (and_iff_right_of_imp zero_not_mem_of_bodyRight).symm.trans (and_congr_right fun hzero => ?_)
  obtain ⟨lines, rest, rfl, hlines, hrest⟩ := exists_packed 10 article
  by_cases hnil : rest = []
  · subst hnil
    rw [bodyRight_iff_packed, articleLines_packed hlines hrest, if_pos rfl, sendmailBody,
      sendmail_packed, List.append_nil, List.append_nil, and_iff_right (getLast?_packed lines)]
    have hnothing : (fgetsLoop 255 [] []).flatMap (sendmailPiece filter) = [] := rfl
    rw [hnothing, List.append_nil]
    exact lineTexts_iff (bytes ".\n") (not_mem_line hzero) hlines
  · refine iff_of_false (not_bodyRight_of_rest hlines hzero hrest hnil) fun ⟨hend, _⟩ => ?_
    rw [List.getLast?_append_of_ne_nil _ hnil] at hend
    exact hrest (hend _ (List.getLast?_eq_some_getLast hnil) ▸ List.getLast_mem hnil)

/-- The dot is behind the text of a line without a newline. -/
theorem bbs_sendmail_unended : ¬BodyRight false (bytes "abc") := by
  rw [BodyRight]
  decide

end

end ArgoBbs

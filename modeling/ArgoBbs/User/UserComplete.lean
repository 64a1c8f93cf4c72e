import ArgoBbs.Board.NameComplete
import ArgoBbs.Consts

/-! # The prompt for user ids

`usercomplete` reads the id of a user key by key and keeps the ids that start with what is typed
(`namecomplete.c`). A key goes through the ids that are left by the one column of the key, and only
a backspace goes through the ids of all users by the whole text (`u_namearray` of `ucache.c`). The
two agree (`userSubArray_getSubList`) as long as the text and its length do, but the buffer for the
text is taken as it is. The bytes of ids and keys are ASCII. -/

namespace ArgoBbs

/-- The ids of the cache that start with the tag, first by their first byte. -/
def uNamearray (cache : List Bytes) (tag : Bytes) : List Bytes :=
  match tag with
  | [] => cache
  | t :: _ =>
    let ch := toupper t
    cache.filter fun ptr =>
      let tmp := ptr.headD 0
      (tmp = ch || tmp = ch - 65 + 97) && chkstr (tag.map toupper) ptr

/-- The ids with the key in a column. -/
def userSubArray (mem : Unwritten) (cwlist : List Bytes) (key : UInt8) (pos : Nat) : List Bytes :=
  let key := toupper key
  let key2 := if 65 ≤ key ∧ key ≤ 90 then key - 65 + 97 else key
  cwlist.filter fun word => wordAt mem word pos = key || wordAt mem word pos = key2

/-- The string in the buffer, where the next key goes, the number of keys, and the ids left. -/
structure UserPrompt where
  data : Bytes
  temp : Nat
  count : Nat
  cwlist : List Bytes

namespace UserPrompt

/-- `*temp++ = ch; *temp = '\0'`, and the ids with `ch` in its column, if there are any. -/
def add (mem : Unwritten) (p : UserPrompt) (ch : UInt8) : Option UserPrompt :=
  let cwlist := userSubArray mem p.cwlist ch p.count
  if cwlist = [] then none
  else some ⟨p.data.take p.temp ++ [ch], p.temp + 1, p.count + 1, cwlist⟩

/-- `temp--; *temp = '\0'` behind a key that no id has. -/
def drop (p : UserPrompt) : UserPrompt := { p with data := p.data.take p.temp }

/-- The loop that completes the id from the byte `i` on; `left` is how far it is to `IDLEN`. -/
def complete (mem : Unwritten) : (left i : Nat) → UserPrompt → UserPrompt
  | 0, _, p => p
  | left + 1, i, p =>
    let ch := wordAt mem (p.cwlist.headD []) i
    if ch = 0 then p
    else if p.cwlist.all fun word => toupper (wordAt mem word i) = toupper ch then
      match p.add mem ch with
      | some p => complete mem left (i + 1) p
      | none => p.drop
    else p

def blank (mem : Unwritten) (p : UserPrompt) : UserPrompt :=
  match p.cwlist with
  | [word] => { p with data := word, count := word.length, temp := word.length }
  | _ =>
    let i := p.data.length
    if i = 0 then p else complete mem (idLen - i) i p

def backspace (cache : List Bytes) (p : UserPrompt) : UserPrompt :=
  if p.temp = 0 then p
  else
    let data := p.data.take (p.temp - 1)
    ⟨data, p.temp - 1, p.count - 1, uNamearray cache data⟩

def type (mem : Unwritten) (p : UserPrompt) (ch : UInt8) : UserPrompt :=
  if p.count < strLen then (p.add mem ch).getD p.drop else p

/-- A key that does not end the loop. -/
def key (mem : Unwritten) (cache : List Bytes) (p : UserPrompt) (ch : UInt8) : UserPrompt :=
  if ch = 32 then p.blank mem
  else if ch = 127 ∨ ch = 8 then p.backspace cache
  else p.type mem ch

/-- The first loop head; the buffer is as the caller has left it. -/
def start (mem : Unwritten) (cache : List Bytes) : UserPrompt := ⟨mem.data, 0, 0, uNamearray cache []⟩

/-- The ids left are those that start with the text, and `count` and `temp` are at its end. -/
structure InStep (cache : List Bytes) (p : UserPrompt) : Prop where
  cwlist : p.cwlist = uNamearray cache p.data
  count : p.count = p.data.length
  temp : p.temp = p.count
  fits : p.count ≤ idLen

end UserPrompt

/-- The keys of the prompt: printable ones, with the blank, and the backspaces. -/
def isUserKey (ch : UInt8) : Bool := isprint2 ch || ch = 127 || ch = 8

/-- The ids of the cache are C strings of ASCII bytes that are shorter than `IDLEN`. -/
def IdCache (cache : List Bytes) : Prop :=
  ∀ word ∈ cache, word.length < idLen ∧ ∀ c ∈ word, 0 < c ∧ c < 128

/-! ## One column and the whole text -/

section
variable {cache : List Bytes} {mem : Unwritten} {t word : Bytes} {key c : UInt8}

theorem toupper_not_lower (c : UInt8) : ¬(97 ≤ toupper c ∧ toupper c ≤ 122) := by
  unfold toupper
  split
  · rename_i h
    simp only [UInt8.le_iff_toNat_le, UInt8.toNat_sub, UInt8.reduceToNat] at h ⊢
    omega
  · assumption

theorem toupper_eq_zero (h : toupper c = toupper 0) : c = 0 := by
  have hzero : toupper 0 = 0 := rfl
  rw [hzero] at h
  unfold toupper at h
  split at h
  · rename_i hcase
    simp only [← UInt8.toNat_inj, UInt8.le_iff_toNat_le, UInt8.toNat_sub, UInt8.reduceToNat] at *
    omega
  · exact h

/-- The two bytes that stand for a byte that is no lower case letter. -/
theorem eq_or_lower_iff {k : UInt8} (hk : ¬(97 ≤ k ∧ k ≤ 122)) :
    (c = k ∨ c = if 65 ≤ k ∧ k ≤ 90 then k - 65 + 97 else k) ↔ toupper c = k := by
  unfold toupper
  split <;> split <;>
    simp only [← UInt8.toNat_inj, UInt8.le_iff_toNat_le, UInt8.toNat_sub, UInt8.toNat_add,
      UInt8.reduceToNat] at * <;>
    omega

theorem uNamearray_eq (cache : List Bytes) (tag : Bytes) :
    uNamearray cache tag = getSubList tag cache := by
  cases tag with
  | nil => exact (getSubList_nil cache).symm
  | cons t tag =>
    refine List.filter_congr fun word _ => ?_
    rw [Bool.eq_iff_iff, Bool.and_eq_true, and_iff_right_iff_imp]
    intro hword
    cases word with
    | nil => cases hword
    | cons c word =>
      simp only [List.map_cons, chkstr, Bool.and_eq_true, decide_eq_true_eq] at hword
      have hcase := (eq_or_lower_iff (toupper_not_lower t)).mpr hword.1.symm
      rw [List.headD_cons, Bool.or_eq_true, decide_eq_true_eq, decide_eq_true_eq]
      rcases hcase with h | h
      · exact .inl h
      · split at h
        · exact .inr h
        · exact .inl h

/-- The ids with the key in the column behind the text are those that start with the text and the
key. -/
theorem userSubArray_getSubList (hkey : key ≠ 0) :
    userSubArray mem (getSubList t cache) key t.length = getSubList (t ++ [key]) cache := by
  rw [← getSubList_getSubList (List.map_append ▸ List.prefix_append _ _ :
    t.map toupper <+: (t ++ [key]).map toupper)]
  refine List.filter_congr fun word hword => ?_
  obtain ⟨hmem, hstart⟩ := mem_getSubList.mp hword
  have hle := hstart.length_le
  simp only [List.length_map] at hle
  obtain ⟨rest, hrest⟩ := hstart
  rw [Bool.eq_iff_iff, Bool.or_eq_true, decide_eq_true_eq, decide_eq_true_eq,
    eq_or_lower_iff (toupper_not_lower key), chkstr_iff, wordAt, if_pos hle, List.map_append,
    ← hrest, List.prefix_append_right_inj, List.map_singleton]
  have hcolumn : (word[t.length]?).map toupper = rest.head? := by
    rw [← List.getElem?_map, ← hrest, List.getElem?_append_right (by simp), List.length_map,
      Nat.sub_self, List.head?_eq_getElem?]
  cases rest with
  | nil =>
    rw [List.head?_nil, Option.map_eq_none_iff] at hcolumn
    rw [List.getD_eq_getElem?_getD, hcolumn, Option.getD_none]
    refine iff_of_false (fun h => hkey ?_) (by simp)
    exact toupper_eq_zero h.symm
  | cons r rest =>
    obtain ⟨c, hc, rfl⟩ := Option.map_eq_some_iff.mp hcolumn
    rw [List.getD_eq_getElem?_getD, hc, Option.getD_some, List.cons_prefix_cons]
    simp [eq_comm]

end

namespace UserPrompt

/-- What every key keeps: the ids left are those that start with the text, and there are some if
there is a text. -/
structure Inv (cache : List Bytes) (p : UserPrompt) : Prop where
  cwlist : p.cwlist = getSubList p.data cache
  count : p.count = p.data.length
  temp : p.temp = p.data.length
  left : p.data = [] ∨ p.cwlist ≠ []

variable {cache : List Bytes} {mem : Unwritten} {p p' : UserPrompt} {ch : UInt8}

namespace Inv

/-- An id is left that is at least as long as the text. -/
theorem length_lt (I : p.Inv cache) (hcache : IdCache cache) : p.data.length < idLen := by
  rcases I.left with hdata | hne
  · rw [hdata]
    decide
  · obtain ⟨word, hword⟩ := List.exists_mem_of_ne_nil _ hne
    rw [I.cwlist, mem_getSubList] at hword
    have hle := hword.2.length_le
    simp only [List.length_map] at hle
    exact Nat.lt_of_le_of_lt hle (hcache word hword.1).1

theorem inStep (I : p.Inv cache) (hcache : IdCache cache) : p.InStep cache where
  cwlist := I.cwlist.trans (uNamearray_eq ..).symm
  count := I.count
  temp := I.temp.trans I.count.symm
  fits := I.count ▸ Nat.le_of_lt (I.length_lt hcache)

theorem add (I : p.Inv cache) (hch : ch ≠ 0) (h : p.add mem ch = some p') :
    p'.Inv cache ∧ p'.data.length = p.data.length + 1 := by
  simp only [UserPrompt.add, I.cwlist, I.count, userSubArray_getSubList hch] at h
  split at h
  · cases h
  · rename_i hne
    obtain rfl := Option.some.inj h
    simp only [I.temp, List.take_length]
    exact ⟨⟨rfl, by simp, by simp, .inr hne⟩, by simp⟩

theorem drop (I : p.Inv cache) : p.drop.Inv cache := by
  have hdata : p.data.take p.temp = p.data := by rw [I.temp, List.take_length]
  have hdrop : p.drop = p := by rw [UserPrompt.drop, hdata]
  rw [hdrop]
  exact I

/-- The loop starts behind the text and stays there. -/
theorem complete (I : p.Inv cache) (left : Nat) :
    (UserPrompt.complete mem left p.data.length p).Inv cache := by
  induction left generalizing p with
  | zero => exact I
  | succ left ih =>
    rw [UserPrompt.complete]
    split
    · exact I
    · rename_i hch
      split
      · cases hadd : p.add mem (wordAt mem (p.cwlist.headD []) p.data.length) with
        | none => exact I.drop
        | some p' =>
          obtain ⟨I', hlength⟩ := I.add hch hadd
          have hrest := ih I'
          rwa [hlength] at hrest
      · exact I

/-- The only id left is taken as the text. -/
theorem single (I : p.Inv cache) {word : Bytes} (hword : p.cwlist = [word]) :
    ({ p with data := word, count := word.length, temp := word.length } : UserPrompt).Inv cache := by
  have hmem : word ∈ getSubList p.data cache := by simp [← I.cwlist, hword]
  refine ⟨?_, rfl, rfl, .inr (by simp [hword])⟩
  rw [← getSubList_getSubList (mem_getSubList.mp hmem).2, ← I.cwlist, hword]
  refine (List.filter_eq_self.mpr fun other hother => ?_).symm
  rw [List.mem_singleton.mp hother]
  exact chkstr_iff.mpr (List.prefix_refl _)

theorem blank (I : p.Inv cache) : (p.blank mem).Inv cache := by
  rw [UserPrompt.blank]
  split
  · exact I.single ‹_›
  · dsimp only
    split
    · exact I
    · exact I.complete _

theorem backspace (I : p.Inv cache) : (p.backspace cache).Inv cache := by
  rw [UserPrompt.backspace]
  split
  · exact I
  · rename_i htemp
    have hdata : p.data ≠ [] := fun hnil => htemp (by rw [I.temp, hnil]; rfl)
    refine ⟨uNamearray_eq .., ?_, ?_, .inr ?_⟩
    · simp only [I.count, I.temp, List.length_take]
      omega
    · simp only [I.temp, List.length_take]
      omega
    · obtain ⟨word, hword⟩ := List.exists_mem_of_ne_nil _ (I.left.resolve_left hdata)
      rw [I.cwlist, mem_getSubList] at hword
      have hstart := ((List.take_prefix (p.temp - 1) p.data).map toupper).trans hword.2
      simp only [uNamearray_eq]
      exact List.ne_nil_of_mem (mem_getSubList.mpr ⟨hword.1, hstart⟩)

theorem type (I : p.Inv cache) (hch : ch ≠ 0) : (p.type mem ch).Inv cache := by
  rw [UserPrompt.type]
  split
  · cases hadd : p.add mem ch with
    | none => exact I.drop
    | some p' => exact (I.add hch hadd).1
  · exact I

theorem key (I : p.Inv cache) (hch : ch ≠ 0) : (p.key mem cache ch).Inv cache := by
  rw [UserPrompt.key]
  split
  · exact I.blank
  · split
    · exact I.backspace
    · exact I.type hch

end Inv

/-- The candidates are in step with the text at every loop head just if the buffer that
`usercomplete` is given holds the empty string. -/
theorem usercomplete_inStep_iff (hcache : IdCache cache) (mem : Unwritten) :
    (∀ keys : List UInt8, (∀ ch ∈ keys, isUserKey ch) →
      (keys.foldl (key mem cache) (start mem cache)).InStep cache) ↔ mem.data = [] := by
  constructor
  · intro h
    have hcount := (h [] (by simp)).count
    exact List.length_eq_zero_iff.mp hcount.symm
  · intro hdata keys hkeys
    have hrun : ∀ (keys : List UInt8) (p : UserPrompt), (∀ ch ∈ keys, isUserKey ch) →
        p.Inv cache → (keys.foldl (key mem cache) p).Inv cache := by
      intro keys
      induction keys with
      | nil => exact fun p _ I => I
      | cons ch keys ih =>
        intro p hkeys I
        have hch : ch ≠ 0 := by
          rintro rfl
          exact absurd (hkeys 0 List.mem_cons_self) (by decide)
        exact ih _ (fun ch hch => hkeys ch (List.mem_cons_of_mem _ hch)) (I.key hch)
    refine (hrun keys _ hkeys ⟨?_, ?_, ?_, .inl hdata⟩).inStep hcache
    · rw [start, hdata]
      exact uNamearray_eq cache []
    · rw [start, hdata]
      rfl
    · rw [start, hdata]
      rfl

/-- Two users and an empty slot. -/
def demoCache : List Bytes := [bytes "SYSOP", [], bytes "sysadmin"]

theorem demoCache_ids : IdCache demoCache := by
  unfold IdCache demoCache
  decide +kernel

theorem usercomplete_inStep_demo :
    ((bytes "sys ").foldl (key ⟨[], fun _ _ => 0⟩ demoCache)
      (start ⟨[], fun _ _ => 0⟩ demoCache)).InStep demoCache :=
  (usercomplete_inStep_iff demoCache_ids ⟨[], fun _ _ => 0⟩).mpr rfl (bytes "sys ")
    (by decide +kernel)

/-- The buffer still holds the id that was entered last. -/
theorem usercomplete_not_inStep : ¬∀ (cache : List Bytes) (mem : Unwritten) (keys : List UInt8),
    IdCache cache → (∀ ch ∈ keys, isUserKey ch) →
      (keys.foldl (key mem cache) (start mem cache)).InStep cache := by
  intro hclaim
  have hcount := (hclaim demoCache ⟨bytes "guest", fun _ _ => 0⟩ [] demoCache_ids (by simp)).count
  exact absurd hcount (by decide)

end UserPrompt

end ArgoBbs

import ArgoBbs.Lib.CString

/-! # Strings in buffers

Writes to a buffer of a size, which fail where they go beyond it, and what they make of the string
that the buffer holds. -/

namespace ArgoBbs

/-- `buf[i] = c` -/
def putTo (size : Nat) (buf : Bytes) (i : Nat) (c : UInt8) : Option Bytes :=
  if i < size then some (buf.set i c) else none

/-- `strcat(buf, t)` -/
def strcatTo (size : Nat) (buf t : Bytes) : Option Bytes := do
  let s ← cstr buf
  if s.length + t.length < size then some (overlay buf s.length (t ++ [0])) else none

variable {size i : Nat} {buf s t : Bytes} {c : UInt8}

/-- A string ends at the first zero byte. -/
theorem append_of_cstr (h : cstr buf = some s) : 0 ∉ s ∧ ∃ rest, buf = s ++ 0 :: rest := by
  induction buf generalizing s with
  | nil => cases h
  | cons c buf ih =>
    rw [cstr] at h
    split at h
    case isTrue hc =>
      obtain rfl := Option.some.inj h
      exact ⟨List.not_mem_nil, buf, by rw [hc]; rfl⟩
    case isFalse hc =>
      obtain ⟨s', hs', rfl⟩ := Option.map_eq_some_iff.mp h
      obtain ⟨h0, rest, rfl⟩ := ih hs'
      exact ⟨List.not_mem_cons_of_ne_of_not_mem (Ne.symm hc) h0, rest, rfl⟩

theorem zero_not_mem_of_cstr (h : cstr buf = some s) : 0 ∉ s := (append_of_cstr h).1

theorem lt_of_cstr (h : cstr buf = some s) : s.length < buf.length := by
  obtain ⟨-, rest, rfl⟩ := append_of_cstr h
  simp

theorem take_of_cstr (h : cstr buf = some s) (hi : i ≤ s.length) : buf.take i = s.take i := by
  obtain ⟨-, rest, rfl⟩ := append_of_cstr h
  exact List.take_append_of_le_length hi

theorem getElem?_of_cstr (h : cstr buf = some s) (hi : i < s.length) : buf[i]? = s[i]? := by
  obtain ⟨-, rest, rfl⟩ := append_of_cstr h
  exact List.getElem?_append_left hi

theorem getElem?_length_of_cstr (h : cstr buf = some s) : buf[s.length]? = some 0 := by
  obtain ⟨-, rest, rfl⟩ := append_of_cstr h
  simp

theorem cstr_drop (h : cstr buf = some s) (hi : i ≤ s.length) :
    cstr (buf.drop i) = some (s.drop i) := by
  obtain ⟨h0, rest, rfl⟩ := append_of_cstr h
  rw [List.drop_append_of_le_length hi]
  exact cstr_append fun hmem => h0 (List.mem_of_mem_drop hmem)

/-- A zero byte ends the string. -/
theorem cstr_set_zero (h : cstr buf = some s) (hi : i ≤ s.length) :
    cstr (buf.set i 0) = some (s.take i) := by
  have hlt := Nat.lt_of_le_of_lt hi (lt_of_cstr h)
  rw [List.set_eq_take_append_cons_drop, if_pos hlt, take_of_cstr h hi]
  exact cstr_append fun hmem => zero_not_mem_of_cstr h (List.mem_of_mem_take hmem)

/-- A byte with a zero byte behind it. -/
theorem cstr_set_set (h : cstr buf = some s) (hi : i ≤ s.length) (hlt : i + 1 < buf.length)
    (hc : c ≠ 0) : cstr ((buf.set i c).set (i + 1) 0) = some (s.take i ++ [c]) := by
  have hlen : i + 1 < (buf.set i c).length := by rwa [List.length_set]
  have htake : (buf.set i c).take (i + 1) = s.take i ++ [c] := by
    rw [List.take_add_one, List.take_set_of_le (Nat.le_refl i), take_of_cstr h hi,
      List.getElem?_set_self (Nat.lt_of_succ_lt hlt)]
    rfl
  rw [List.set_eq_take_append_cons_drop, if_pos hlen, htake]
  apply cstr_append
  rw [List.mem_append, List.mem_singleton, not_or]
  exact ⟨fun hmem => zero_not_mem_of_cstr h (List.mem_of_mem_take hmem), Ne.symm hc⟩

/-- A byte at the end of the string, in front of another zero byte. -/
theorem cstr_set_length (h : cstr buf = some s) (hzero : buf[s.length + 1]? = some 0) (hc : c ≠ 0) :
    cstr (buf.set s.length c) = some (s ++ [c]) := by
  obtain ⟨hlt, hget⟩ := List.getElem?_eq_some_iff.mp hzero
  have hset := cstr_set_set h (Nat.le_refl _) hlt hc
  rw [List.take_length, List.set_comm _ _ (Nat.ne_of_lt (Nat.lt_succ_self _)), ← hget,
    List.set_getElem_self] at hset
  exact hset

theorem putTo_eq (h : i < size) : putTo size buf i c = some (buf.set i c) := if_pos h

theorem strcatTo_spec (h : cstr buf = some s) (ht : 0 ∉ t) (hroom : s.length + t.length < size)
    (hsize : size ≤ buf.length) : ∃ buf', strcatTo size buf t = some buf' ∧
      cstr buf' = some (s ++ t) ∧ buf'.length = buf.length := by
  have hlen : (t ++ [0]).length = t.length + 1 := List.length_append
  refine ⟨overlay buf s.length (t ++ [0]), ?_, ?_, length_overlay (by omega)⟩
  · rw [strcatTo, h]
    exact if_pos hroom
  · rw [overlay, take_of_cstr h (Nat.le_refl _), List.take_length, ← List.append_assoc,
      List.append_assoc _ [0]]
    apply cstr_append
    rw [List.mem_append, not_or]
    exact ⟨zero_not_mem_of_cstr h, ht⟩

/-- A part of the string is taken out: a zero byte at its start, and what is behind it again. -/
theorem erase_spec {j : Nat} (h : cstr buf = some s) (hij : i ≤ j) (hj : j ≤ s.length)
    (hlt : s.length < size) (hsize : size ≤ buf.length) :
    ∃ buf', putTo size buf i 0 = some (buf.set i 0) ∧
      strcatTo size (buf.set i 0) (s.drop j) = some buf' ∧
      cstr buf' = some (s.take i ++ s.drop j) ∧ buf'.length = buf.length := by
  have hi := Nat.le_trans hij hj
  have h0 : 0 ∉ s.drop j := fun hmem => zero_not_mem_of_cstr h (List.mem_of_mem_drop hmem)
  have hroom : (s.take i).length + (s.drop j).length < size := by
    rw [List.length_take, List.length_drop]
    omega
  obtain ⟨buf', hcat, htext, hlen⟩ := strcatTo_spec (cstr_set_zero h hi) h0 hroom
    (by rwa [List.length_set])
  rw [List.length_set] at hlen
  exact ⟨buf', putTo_eq (Nat.lt_of_le_of_lt hi hlt), hcat, htext, hlen⟩

/-- A byte is put in: the byte with a zero byte behind it, and what was behind it again. -/
theorem insert_spec (h : cstr buf = some s) (hi : i ≤ s.length) (hc : c ≠ 0)
    (hlt : s.length + 1 < size) (hsize : size ≤ buf.length) :
    ∃ buf', putTo size buf i c = some (buf.set i c) ∧
      putTo size (buf.set i c) (i + 1) 0 = some ((buf.set i c).set (i + 1) 0) ∧
      strcatTo size ((buf.set i c).set (i + 1) 0) (s.drop i) = some buf' ∧
      cstr buf' = some (s.take i ++ [c] ++ s.drop i) ∧ buf'.length = buf.length := by
  have h0 : 0 ∉ s.drop i := fun hmem => zero_not_mem_of_cstr h (List.mem_of_mem_drop hmem)
  have hroom : (s.take i ++ [c]).length + (s.drop i).length < size := by
    rw [List.length_append, List.length_take, List.length_drop, List.length_singleton]
    omega
  obtain ⟨buf', hcat, htext, hlen⟩ := strcatTo_spec (cstr_set_set h hi (by omega) hc) h0 hroom
    (by rwa [List.length_set, List.length_set])
  rw [List.length_set, List.length_set] at hlen
  exact ⟨buf', putTo_eq (by omega), putTo_eq (by omega), hcat, htext, hlen⟩

end ArgoBbs

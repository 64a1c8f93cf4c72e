import ArgoBbs.Lib.CString
import ArgoBbs.Permissions
import Mathlib.Data.List.Infix

/-! # The accounts of a person

An address at the university may activate `MAXMAIL` accounts. `multi_netid_check` counts the accounts
that were activated with the address of a person, by going through `PASSFILE` with `countnetids`,
which keeps its count in a static variable (`register.c`). -/

namespace ArgoBbs

/-- What `countnetids` looks at of `struct userec`. -/
structure Registration where
  userid : Bytes
  userlevel : BitVec 32
  reginfo : Bytes
  deriving DecidableEq

namespace Registration

def activated (u : Registration) : Bool := u.userid.headD 0 ≠ 0 ∧ u.userlevel &&& permWelcome ≠ 0

/-- The comparison in `countnetids`, where `genbuf` is the id searched for. -/
def matchesNetid (genbuf : Bytes) (u : Registration) : Bool :=
  let n := (strchr u.reginfo 64).getD genbuf.length
  strncmpEq u.reginfo genbuf n

end Registration

/-- `countnetids`: the static counter afterwards, and what is returned. -/
def countnetids (genbuf : Bytes) (totalusers : Nat) : Option Registration → Nat × Nat
  | none => (0, totalusers)
  | some u => (if u.activated ∧ u.matchesNetid genbuf then totalusers + 1 else totalusers, 0)

/-- `multi_netid_check`, with the counter before and afterwards. Without a file `apply_record`
fails. -/
def multiNetidCheck (passfile : Option (List Registration)) (netid : Bytes) (totalusers : Nat) :
    Nat × Nat :=
  let (totalusers, _) := countnetids netid totalusers none
  match passfile with
  | none => (totalusers, 0)
  | some file =>
    countnetids netid (file.foldl (fun n u => (countnetids netid n (some u)).1) totalusers) none

namespace Registration

/-- The address has the id as its part before the `@`. -/
def OfNetid (netid : Bytes) (u : Registration) : Prop :=
  netid ++ [64] <+: u.reginfo ∧ 64 ∉ netid

instance (netid : Bytes) (u : Registration) : Decidable (u.OfNetid netid) :=
  inferInstanceAs (Decidable (_ ∧ _))

/-- The part before the `@` is only the beginning of the id, or there is no `@` and the id is the
beginning of the address. -/
def LooksOfNetid (netid : Bytes) (u : Registration) : Prop :=
  (∃ name host, u.reginfo = name ++ 64 :: host ∧ 64 ∉ name ∧ name <+: netid ∧
    name.length < netid.length) ∨ (64 ∉ u.reginfo ∧ netid <+: u.reginfo)

end Registration

/-- The activated accounts of the person. -/
def activations (file : List Registration) (netid : Bytes) : Nat :=
  file.countP fun u => u.activated ∧ u.OfNetid netid

/-- `multi_netid_check` returns the number of the activated accounts of the person. -/
def CountsNetid (file : List Registration) (netid : Bytes) (totalusers : Nat) : Prop :=
  (multiNetidCheck (some file) netid totalusers).2 = activations file netid

instance (file : List Registration) (netid : Bytes) (totalusers : Nat) :
    Decidable (CountsNetid file netid totalusers) :=
  inferInstanceAs (Decidable (_ = _))

namespace Registration
variable {netid : Bytes} {u : Registration}

theorem ofNetid_iff : u.OfNetid netid ↔ ∃ host, u.reginfo = netid ++ 64 :: host ∧ 64 ∉ netid := by
  constructor
  · rintro ⟨⟨host, hhost⟩, hat⟩
    exact ⟨host, by rw [← hhost, List.append_assoc, List.singleton_append], hat⟩
  · rintro ⟨host, hhost, hat⟩
    exact ⟨⟨host, by rw [hhost, List.append_assoc, List.singleton_append]⟩, hat⟩

/-- The length compared is that of the part before the `@` of the address. -/
theorem matchesNetid_at {name host : Bytes} (h : u.reginfo = name ++ 64 :: host)
    (hat : 64 ∉ name) : u.matchesNetid netid = true ↔ name <+: netid := by
  have hstrchr : strchr u.reginfo 64 = some name.length :=
    strchr_eq_some_iff.mpr ⟨name, host, h, hat, rfl⟩
  rw [matchesNetid, hstrchr, h, Option.getD_some, strncmpEq, decide_eq_true_iff,
    List.take_left, List.prefix_iff_eq_take]

theorem matchesNetid_no_at (h : 64 ∉ u.reginfo) :
    u.matchesNetid netid = true ↔ netid <+: u.reginfo := by
  rw [matchesNetid, strchr_eq_none_iff.mpr h, Option.getD_none, strncmpEq, decide_eq_true_iff,
    List.take_length, List.prefix_iff_eq_take, eq_comm]

theorem matchesNetid_iff :
    u.matchesNetid netid = true ↔ u.OfNetid netid ∨ u.LooksOfNetid netid := by
  constructor
  · intro h
    cases hstrchr : strchr u.reginfo 64 with
    | none =>
      have hat := strchr_eq_none_iff.mp hstrchr
      exact .inr (.inr ⟨hat, (matchesNetid_no_at hat).mp h⟩)
    | some n =>
      obtain ⟨name, host, hreginfo, hat, -⟩ := strchr_eq_some_iff.mp hstrchr
      have hprefix := (matchesNetid_at hreginfo hat).mp h
      obtain hlt | heq := Nat.lt_or_eq_of_le hprefix.length_le
      · exact .inr (.inl ⟨name, host, hreginfo, hat, hprefix, hlt⟩)
      · have hname := hprefix.eq_of_length heq
        exact .inl (ofNetid_iff.mpr ⟨host, hname ▸ hreginfo, hname ▸ hat⟩)
  · rintro (hof | ⟨name, host, hreginfo, hat, hprefix, -⟩ | ⟨hat, hprefix⟩)
    · obtain ⟨host, hreginfo, hat⟩ := ofNetid_iff.mp hof
      exact (matchesNetid_at hreginfo hat).mpr (List.prefix_refl netid)
    · exact (matchesNetid_at hreginfo hat).mpr hprefix
    · exact (matchesNetid_no_at hat).mpr hprefix

/-- An address that only looks like one of the person is none. -/
theorem not_ofNetid (h : u.LooksOfNetid netid) : ¬u.OfNetid netid := by
  intro hof
  obtain ⟨host, hreginfo, hat⟩ := ofNetid_iff.mp hof
  obtain ⟨name, host', hreginfo', hat', -, hlt⟩ | ⟨hnone, -⟩ := h
  · have hlen := Option.some.inj ((strchr_eq_some_iff.mpr ⟨netid, host, hreginfo, hat, rfl⟩).symm.trans
      (strchr_eq_some_iff.mpr ⟨name, host', hreginfo', hat', rfl⟩))
    omega
  · rw [hreginfo] at hnone
    exact hnone (List.mem_append_right _ List.mem_cons_self)

end Registration

/-- The elements of which a stronger predicate holds are as many just if there are no others. -/
theorem countP_eq_iff {α : Type} {p q : α → Bool} {l : List α}
    (h : ∀ x ∈ l, p x = true → q x = true) :
    l.countP q = l.countP p ↔ ∀ x ∈ l, q x = true → p x = true := by
  constructor
  · intro heq
    induction l with
    | nil => exact nofun
    | cons x l ih =>
      have htail : ∀ x ∈ l, p x = true → q x = true := fun y hy => h y (List.mem_cons_of_mem x hy)
      have hle := List.countP_mono_left htail
      have hx := h x List.mem_cons_self
      rw [List.countP_cons, List.countP_cons] at heq
      have hfirst : q x = true → p x = true := by
        intro hq
        by_contra hp
        rw [if_pos hq, if_neg hp] at heq
        omega
      have hrest : l.countP q = l.countP p := by
        rw [if_congr ⟨hfirst, hx⟩ rfl rfl] at heq
        exact Nat.add_right_cancel heq
      exact List.forall_mem_cons.mpr ⟨hfirst, ih htail hrest⟩
  · exact fun hback => List.countP_congr fun x hx => ⟨hback x hx, h x hx⟩

section
variable {file : List Registration} {netid : Bytes} {totalusers : Nat}

open Registration

/-- The counter does not depend on the calls before. -/
theorem multiNetidCheck_eq :
    multiNetidCheck (some file) netid totalusers =
      (0, file.countP fun u => u.activated ∧ u.matchesNetid netid) := by
  have hfold : ∀ (file : List Registration) (n : Nat),
      file.foldl (fun n u => (countnetids netid n (some u)).1) n =
        n + file.countP fun u => u.activated ∧ u.matchesNetid netid := by
    intro file
    induction file with
    | nil => exact fun _ => rfl
    | cons u file ih =>
      intro n
      rw [List.foldl_cons, ih, countnetids, List.countP_cons]
      split
      case isTrue h =>
        rw [if_pos (decide_eq_true h)]
        omega
      case isFalse h =>
        rw [if_neg (by rwa [decide_eq_true_iff])]
        rfl
  exact Prod.ext rfl ((hfold file 0).trans (Nat.zero_add _))

/-- No account of the person is left out. -/
theorem activations_le (file : List Registration) (netid : Bytes) (totalusers : Nat) :
    activations file netid ≤ (multiNetidCheck (some file) netid totalusers).2 := by
  rw [multiNetidCheck_eq]
  refine List.countP_mono_left fun u _ hu => ?_
  obtain ⟨hactivated, hof⟩ := of_decide_eq_true hu
  exact decide_eq_true ⟨hactivated, matchesNetid_iff.mpr (.inl hof)⟩

/-- The count is right just if no activated account has an address that only looks like one of the
person. -/
theorem multi_netid_check_iff (file : List Registration) (netid : Bytes) (totalusers : Nat) :
    CountsNetid file netid totalusers ↔
      ∀ u ∈ file, u.activated = true → ¬u.LooksOfNetid netid := by
  rw [CountsNetid, multiNetidCheck_eq, activations, countP_eq_iff fun u _ hu => ?_]
  · refine forall₂_congr fun u _ => ?_
    rw [decide_eq_true_iff, decide_eq_true_iff, matchesNetid_iff]
    constructor
    · intro h hactivated hlooks
      exact not_ofNetid hlooks (h ⟨hactivated, .inr hlooks⟩).2
    · rintro h ⟨hactivated, hof | hlooks⟩
      · exact ⟨hactivated, hof⟩
      · exact absurd hlooks (h hactivated)
  · obtain ⟨hactivated, hof⟩ := of_decide_eq_true hu
    exact decide_eq_true ⟨hactivated, matchesNetid_iff.mpr (.inl hof)⟩

/-- An account of `mn` is counted for `mn07xz`. -/
theorem multi_netid_check_prefix :
    ¬CountsNetid [⟨bytes "Ann", permWelcome, bytes "mn@mail.sysu.edu.cn"⟩] (bytes "mn07xz") 0 := by
  decide +kernel

end

end ArgoBbs

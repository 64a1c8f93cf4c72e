import ArgoBbs.Lib.Bytes
import Mathlib.Data.BitVec

/-! # Strings in memory

The memory of a process as a function from the addresses of a machine to bytes, the C strings in it,
and blocks of bytes at an address. The difference of two addresses is computed as an `int`, which
loses its upper bits where an address has more. -/

namespace ArgoBbs

variable {w : Nat}

/-- The C string at the address. -/
def StringAt (mem : BitVec w → UInt8) (p : BitVec w) : List UInt8 → Prop
  | [] => mem p = 0
  | c :: s => mem p = c ∧ c ≠ 0 ∧ StringAt mem (p + 1) s

/-- The bytes lie in memory from the address on. -/
def BytesAt (mem : BitVec w → UInt8) (base : BitVec w) (text : List UInt8) : Prop :=
  ∀ i c, text[i]? = some c → mem (base + .ofNat w i) = c

/-- A memory with the bytes from the address on. -/
def placed (base : BitVec w) (text : List UInt8) (outside : BitVec w → UInt8) (p : BitVec w) :
    UInt8 :=
  (text[(p - base).toNat]?).getD (outside p)

/-- The difference of two addresses as an `int`, and that as a difference of addresses again. -/
def intDiff (p q : BitVec w) : BitVec w := ((p - q).setWidth 32).signExtend w

/-- The difference of addresses is an `int`. -/
def FitsInt (d : BitVec w) : Prop := IsCInt d.toInt

instance (d : BitVec w) : Decidable (FitsInt d) := inferInstanceAs (Decidable (IsCInt _))

section
variable {mem : BitVec w → UInt8} {base p q : BitVec w} {text s t : List UInt8} {n : Nat}
  {outside : BitVec w → UInt8}

theorem StringAt.unique (hs : StringAt mem p s) (ht : StringAt mem p t) : s = t := by
  induction s generalizing p t with
  | nil =>
    cases t with
    | nil => rfl
    | cons d t => exact absurd (ht.1.symm.trans hs) ht.2.1
  | cons c s ih =>
    cases t with
    | nil => exact absurd (hs.1.symm.trans ht) hs.2.1
    | cons d t =>
      obtain ⟨hc, -, hs⟩ := hs
      obtain ⟨hd, -, ht⟩ := ht
      rw [ih hs ht, ← hc, ← hd]

theorem StringAt.head (h : StringAt mem p s) : mem p = s.headD 0 := by
  cases s with
  | nil => exact h
  | cons c s => exact h.1

theorem add_ofNat_succ (base : BitVec w) (n : Nat) :
    base + .ofNat w n + 1 = base + .ofNat w (n + 1) := by
  rw [BitVec.add_assoc, BitVec.ofNat_add]
  rfl

theorem bytesAt_placed (hlen : text.length ≤ 2 ^ w) : BytesAt (placed base text outside) base text := by
  intro i c hc
  obtain ⟨hi, -⟩ := List.getElem?_eq_some_iff.mp hc
  have hoff : (base + .ofNat w i - base).toNat = i := by
    rw [BitVec.add_comm, BitVec.add_sub_cancel, BitVec.toNat_ofNat, Nat.mod_eq_of_lt (by omega)]
  rw [placed, hoff, hc, Option.getD_some]

theorem placed_of_le (h : text.length ≤ (p - base).toNat) : placed base text outside p = outside p := by
  rw [placed, List.getElem?_eq_none h, Option.getD_none]

theorem getElem?_of_drop {c : UInt8} {rest : List UInt8} (h : text.drop n = c :: rest) :
    text[n]? = some c ∧ text.drop (n + 1) = rest := by
  constructor
  · have hhead : (text.drop n)[0]? = text[n + 0]? := List.getElem?_drop
    rw [h, Nat.add_zero] at hhead
    exact hhead.symm
  · rw [← List.tail_drop, h, List.tail_cons]

/-- The string at an address within the bytes, if it ends there. -/
theorem stringAt_of_cstr (hmem : BytesAt mem base text) (ht : cstr (text.drop n) = some t) :
    StringAt mem (base + .ofNat w n) t := by
  induction hdrop : text.drop n generalizing n t with
  | nil =>
    rw [hdrop] at ht
    cases ht
  | cons c rest ih =>
    obtain ⟨hc, hrest⟩ := getElem?_of_drop hdrop
    rw [hdrop, cstr] at ht
    split at ht
    case isTrue hzero =>
      cases ht
      exact (hmem n c hc).trans hzero
    case isFalse hzero =>
      obtain ⟨u, hu, rfl⟩ := Option.map_eq_some_iff.mp ht
      rw [← hrest] at hu
      refine ⟨hmem n c hc, hzero, ?_⟩
      rw [add_ofNat_succ]
      exact ih hu hrest

theorem stringAt_iff (hmem : BytesAt mem base text) (ht : cstr (text.drop n) = some t) :
    StringAt mem (base + .ofNat w n) s ↔ s = t :=
  ⟨fun hs => hs.unique (stringAt_of_cstr hmem ht), fun h => h ▸ stringAt_of_cstr hmem ht⟩

/-- A string ends within bytes of which the last one is zero. -/
theorem exists_cstr_drop (hlast : text.getLast? = some 0) (hn : n < text.length) :
    ∃ t, cstr (text.drop n) = some t := by
  refine Option.isSome_iff_exists.mp (cstr_isSome_iff.mpr ?_)
  have hmem : (text.drop n).getLast? = some 0 := by
    rw [List.getLast?_drop, if_neg (by omega), hlast]
  exact List.mem_of_getLast? hmem

/-! ## Differences of addresses -/

theorem toInt_intDiff (hw : 32 ≤ w) (p q : BitVec w) : (intDiff p q).toInt = toCInt (p - q).toInt := by
  have hdvd : 2 ^ 32 ∣ 2 ^ w := Nat.pow_dvd_pow 2 hw
  rw [intDiff, BitVec.toInt_signExtend_of_le hw, BitVec.toInt_setWidth,
    BitVec.toInt_eq_toNat_bmod (p - q), toCInt, Int.bmod_bmod_of_dvd hdvd]

theorem intDiff_eq_iff (hw : 32 ≤ w) : intDiff p q = p - q ↔ FitsInt (p - q) := by
  rw [← BitVec.toInt_inj, toInt_intDiff hw]
  constructor
  · intro h
    rw [FitsInt, ← h]
    exact isCInt_toCInt _
  · exact toCInt_eq

/-- The error of the difference has no lower bits. -/
theorem setWidth_intDiff (hw : 32 ≤ w) (p q : BitVec w) :
    (intDiff p q - (p - q)).setWidth 32 = 0 := by
  have hlow : (intDiff p q).setWidth 32 = (p - q).setWidth 32 := by
    refine BitVec.eq_of_getLsbD_eq fun i hi => ?_
    rw [BitVec.getLsbD_setWidth, intDiff, BitVec.getLsbD_signExtend, if_pos hi,
      decide_eq_true hi, decide_eq_true (hi.trans_le hw), Bool.true_and, Bool.true_and]
  rw [BitVec.sub_eq_add_neg, BitVec.setWidth_add _ _ hw, BitVec.setWidth_neg_of_le hw, hlow,
    ← BitVec.sub_eq_add_neg, BitVec.sub_self]
  rfl

/-- An address that has been moved by a wrong difference is far away. -/
theorem le_of_intDiff_ne (hw : 32 ≤ w) (hn : n < 2 ^ 32) (hne : intDiff p q ≠ p - q) :
    2 ^ 32 ≤ (q + .ofNat w n + intDiff p q - p).toNat := by
  have hmove : q + .ofNat w n + intDiff p q - p = .ofNat w n + (intDiff p q - (p - q)) := by grind
  by_contra hlt
  have hlow := congrArg BitVec.toNat (congrArg (BitVec.setWidth 32) hmove)
  rw [BitVec.setWidth_add _ _ hw, setWidth_intDiff hw, BitVec.toNat_add, BitVec.toNat_setWidth,
    Nat.mod_eq_of_lt (Nat.not_le.mp hlt), BitVec.toNat_setWidth] at hlow
  have hsmall : (BitVec.ofNat w n).toNat = n := by
    have hpow : 2 ^ 32 ≤ 2 ^ w := Nat.pow_le_pow_right (by decide) hw
    rw [BitVec.toNat_ofNat, Nat.mod_eq_of_lt (by omega)]
  have heq : q + .ofNat w n + intDiff p q - p = .ofNat w n := by
    apply BitVec.eq_of_toNat_eq
    rw [hlow, hsmall]
    show (n % 2 ^ 32 + 0) % 2 ^ 32 = n
    omega
  exact hne (by grind)

end

end ArgoBbs

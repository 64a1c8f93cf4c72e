import ArgoBbs.News.Dbz
import Mathlib.Data.Nat.Find
import Mathlib.Data.Nat.Prime.Basic
import Mathlib.Data.Nat.Prime.Infinite
import Mathlib.Order.Bounds.Basic

/-! # The sizes of the tables in the news gateway

`dbzsize` is to find a prime for a table that is two thirds full, and `dbzfresh` makes the
configuration of a new database (`dbz.c`). Numbers are as large as they have to be. -/

namespace ArgoBbs.Dbz

def TAGENB : BitVec 64 := 0x80
def TAGMASK : BitVec 64 := 0x7f
def TAGSHIFT : Nat := 24

def DEFCASE : UInt8 := 67

/-- The algorithm that a selector stands for. -/
def freshCase (cmap : UInt8) : Option UInt8 :=
  if cmap = 0 ∨ cmap = 48 ∨ cmap = 66 then some 48
  else if cmap = 61 ∨ cmap = 98 then some 61
  else if cmap = 67 then some 67
  else if cmap = 63 then some DEFCASE
  else none

/-- The low zeros of a mask are taken away, as long as there are at most so many. -/
def tagLoop : Nat → BitVec 64 → Nat → BitVec 64 × Nat
  | 0, m, tagshift => (m, tagshift)
  | fuel + 1, m, tagshift =>
    if m &&& 1 = 0 then tagLoop fuel (m.sshiftRight 1) (tagshift + 1) else (m, tagshift)

/-- The configuration of a new database. -/
def dbzfresh (size : Int) (fs cmap : UInt8) (tagmask : BitVec 64) : Option Conf :=
  if size ≠ 0 ∧ size < 2 then none
  else
    match freshCase cmap with
    | none => none
    | some casemap =>
      let c : Conf :=
        { olddbz := false, tsize := if size ≠ 0 then size.toNat else DEFSIZE, casemap
          fieldsep := fs, tagenb := TAGENB, tagmask := TAGMASK, tagshift := TAGSHIFT }
      if tagmask.setWidth 32 = 0 then some c
      else if tagmask.setWidth 32 = 1 then some { c with tagshift := 0, tagmask := 0, tagenb := 0 }
      else
        let (m, tagshift) := tagLoop 32 tagmask 0
        some { c with tagshift, tagmask := m, tagenb := m <<< 1 &&& ~~~m }

/-- `makedbz` of `his.c` -/
def makedbz (fuel : Nat) (entry : Int) : Option Conf :=
  (dbzsize fuel entry).bind fun size => dbzfresh size 9 0 1

section
variable {x stop div n p : Nat} {conf : Conf}

/-! ## Primes -/

theorem divides_iff : divides x stop div = true ↔ ∃ k, div + 2 * k < stop ∧ div + 2 * k ∣ x := by
  induction div using divides.induct stop with
  | case1 div hlt ih =>
    rw [divides, if_pos hlt, Bool.or_eq_true, decide_eq_true_eq, ih]
    constructor
    · rintro (hdvd | ⟨k, hk, hdvd⟩)
      · exact ⟨0, hlt, Nat.dvd_of_mod_eq_zero hdvd⟩
      · refine ⟨k + 1, ?_, ?_⟩ <;> rw [show div + 2 * (k + 1) = div + 2 + 2 * k by omega]
        · exact hk
        · exact hdvd
    · rintro ⟨k, hk, hdvd⟩
      cases k with
      | zero => exact .inl (Nat.mod_eq_zero_of_dvd hdvd)
      | succ k =>
        rw [show div + 2 * (k + 1) = div + 2 + 2 * k by omega] at hk hdvd
        exact .inr ⟨k, hk, hdvd⟩
  | case2 div hge =>
    rw [divides, if_neg hge]
    exact iff_of_false nofun fun ⟨k, hk, _⟩ => hge (Nat.lt_of_le_of_lt (Nat.le_add_right ..) hk)

/-- The approximation is not greater than the root, and about half as large at least. -/
theorem stopLoop_spec (hn : x < (2 * n + 1) * (2 * n + 1)) :
    stopLoop x n * stopLoop x n ≤ x ∧
      x < (2 * stopLoop x n + 1) * (2 * stopLoop x n + 1) := by
  induction n using stopLoop.induct x with
  | case1 n _ hlt ih =>
    rw [stopLoop, dif_pos hlt]
    have hsq := Nat.lt_mul_of_div_lt hlt (Nat.lt_of_le_of_lt (Nat.zero_le _) hlt)
    have hhalf : n ≤ 2 * (n / 2) + 1 := by omega
    exact ih (Nat.lt_of_lt_of_le hsq (Nat.mul_le_mul hhalf hhalf))
  | case2 n _ hge =>
    rw [stopLoop, dif_neg hge]
    exact ⟨Nat.le_trans (Nat.mul_le_mul_right n (Nat.le_of_not_lt hge)) (Nat.div_mul_le_self x n),
      hn⟩

theorem quick_any_false : quick.any (x % · = 0) = false ↔ ∀ q ∈ quick, ¬q ∣ x := by
  rw [List.any_eq_false]
  exact forall₂_congr fun q _ => by rw [decide_eq_true_eq, Nat.dvd_iff_mod_eq_zero]

/-- A prime up to 37 is among the first ones. -/
theorem mem_quick_of_prime (hp : p.Prime) (hle : p ≤ 37) : p ∈ quick :=
  (by decide +kernel : ∀ p ≤ 37, p.Prime → p ∈ quick) p hle hp

/-- The test is right from 2 on, but the first primes are too small for it. -/
theorem isprime_iff (hx : 2 ≤ x) : isprime x = true ↔ x.Prime ∧ 37 < x := by
  have hstart : x < (2 * x + 1) * (2 * x + 1) :=
    Nat.lt_of_lt_of_le (by omega) (Nat.le_mul_self _)
  obtain ⟨hroot, hhalf⟩ := stopLoop_spec hstart
  rw [isprime, Bool.and_eq_true, Bool.not_eq_true', Bool.not_eq_true', quick_any_false,
    Bool.eq_false_iff, ne_eq, divides_iff, not_exists]
  constructor
  · rintro ⟨hquick, hdivides⟩
    have hlarge : ∀ p, p.Prime → p ∣ x → 37 < p := fun p hp hdvd => by
      refine Nat.lt_of_not_le fun hle => ?_
      exact hquick p (mem_quick_of_prime hp hle) hdvd
    have hne : x ≠ 1 := by omega
    refine ⟨?_, Nat.lt_of_lt_of_le (hlarge _ (Nat.minFac_prime hne) (Nat.minFac_dvd x))
      (Nat.minFac_le (by omega))⟩
    -- the least factor of a number that is no prime is among the ones that are tried
    refine Nat.prime_def_minFac.mpr ⟨hx, Classical.byContradiction fun hcomposite => ?_⟩
    have hprime := Nat.minFac_prime hne
    have hsq : x.minFac * x.minFac ≤ x := by
      have hsq := Nat.minFac_sq_le_self (by omega) fun h => hcomposite (Nat.prime_def_minFac.mp h).2
      rwa [Nat.pow_two] at hsq
    have hmin := hlarge _ hprime (Nat.minFac_dvd x)
    have hodd := Nat.Prime.eq_two_or_odd hprime |>.resolve_left (by omega)
    have hbound : x.minFac < 2 * stopLoop x x + 1 :=
      Nat.mul_self_lt_mul_self_iff.mp (Nat.lt_of_le_of_lt hsq hhalf)
    refine hdivides ((x.minFac - 37) / 2) ⟨by omega, ?_⟩
    rw [show 37 + 2 * ((x.minFac - 37) / 2) = x.minFac by omega]
    exact Nat.minFac_dvd x
  · rintro ⟨hprime, hlarge⟩
    refine ⟨fun q hq hdvd => ?_, ?_⟩
    · obtain h1 | h1 := hprime.eq_one_or_self_of_dvd q hdvd
      all_goals
        subst h1
        revert hq
      · decide
      · exact fun hq => absurd ((by decide : ∀ q ∈ quick, q ≤ 37) _ hq) (Nat.not_le.mpr hlarge)
    · rintro k ⟨hlt, hdvd⟩
      obtain h1 | h1 := hprime.eq_one_or_self_of_dvd _ hdvd
      · omega
      · have hsmall : 2 * stopLoop x x < x := by
          refine Nat.lt_of_not_le fun hle => ?_
          have h3 : 3 ≤ stopLoop x x := by omega
          have := Nat.mul_le_mul_right (stopLoop x x) h3
          omega
        omega

/-! ## Sizes -/

theorem sizeLoop_spec {fuel : Nat} (hle : n ≤ p) (hodd : n % 2 = p % 2) (hfuel : p - n < fuel)
    (hp : isprime p = true) (hbefore : ∀ m, n ≤ m → m < p → m % 2 = p % 2 → isprime m = false) :
    sizeLoop fuel n = some p := by
  induction fuel generalizing n with
  | zero => exact absurd hfuel (Nat.not_lt_zero _)
  | succ fuel ih =>
    obtain rfl | hlt := Nat.eq_or_lt_of_le hle
    · rw [sizeLoop, if_pos hp]
    · rw [sizeLoop, hbefore n (Nat.le_refl n) hlt hodd, if_neg Bool.false_ne_true]
      exact ih (by omega) (by omega) (by omega) fun m hm => hbefore m (by omega)

/-- The mask without its low zeros, and how many they were. -/
theorem tagLoop_spec {fuel : Nat} (m : BitVec 64) (tagshift : Nat) (hmsb : m.msb = false)
    (hbit : ∃ i < fuel, m.getLsbD i = true) :
    ∃ t, (tagLoop fuel m tagshift).2 = tagshift + t ∧
      (tagLoop fuel m tagshift).1.getLsbD 0 = true ∧
      ∀ i, (tagLoop fuel m tagshift).1.getLsbD i = m.getLsbD (i + t) := by
  induction fuel generalizing m tagshift with
  | zero =>
    obtain ⟨i, hi, -⟩ := hbit
    exact absurd hi (Nat.not_lt_zero i)
  | succ fuel ih =>
    have hlow : m &&& 1 = 0 ↔ m.getLsbD 0 = false := by
      rw [show (1 : BitVec 64) = BitVec.twoPow 64 0 from rfl, BitVec.and_twoPow]
      cases m.getLsbD 0
      · exact iff_of_true rfl rfl
      · exact iff_of_false (by decide) nofun
    rw [tagLoop]
    split
    case isFalse hodd =>
      refine ⟨0, rfl, ?_, fun i => rfl⟩
      exact Bool.of_not_eq_false fun h => hodd (hlow.mpr h)
    case isTrue heven =>
      have hshift : ∀ i, (m.sshiftRight 1).getLsbD i = m.getLsbD (i + 1) := fun i => by
        rw [BitVec.getLsbD_sshiftRight, hmsb, Nat.add_comm 1 i]
        by_cases hi : i + 1 < 64
        · rw [if_pos hi]
          simp
          omega
        · rw [if_neg hi, Bool.and_false, BitVec.getLsbD_of_ge m (i + 1) (Nat.le_of_not_lt hi)]
      obtain ⟨i, hi, hset⟩ := hbit
      cases i with
      | zero => cases (hlow.mp heven).symm.trans hset
      | succ i =>
        obtain ⟨t, hcount, hzero, hbits⟩ := ih (m.sshiftRight 1) (tagshift + 1)
          (by rw [BitVec.msb_eq_getLsbD_last, hshift, BitVec.getLsbD_of_ge m _ (by decide)])
          ⟨i, Nat.lt_of_succ_lt_succ hi, (hshift i).trans hset⟩
        refine ⟨t + 1, by omega, hzero, fun j => ?_⟩
        rw [hbits, hshift]
        rfl

/-- The bit above the lowest ones of a mask is not in the mask, and it is a bit of an offset unless
the mask goes up to the sign. -/
theorem mask_ok (m : BitVec 64) {s : Nat} (hs : s < 64) (hzero : m.getLsbD 0 = true)
    (htop : m.getLsbD (63 - s) = false) :
    m <<< s &&& (m <<< 1 &&& ~~~m) <<< s = 0 ∧ (m <<< 1 &&& ~~~m) <<< s ≠ 0 := by
  constructor
  · have hnot : m &&& (m <<< 1 &&& ~~~m) = 0 := by
      rw [BitVec.and_comm (m <<< 1), ← BitVec.and_assoc, BitVec.and_not_self]
      exact BitVec.zero_and
    rw [← BitVec.shiftLeft_and_distrib, hnot]
    exact BitVec.zero_shiftLeft s
  · intro hnone
    have hall : ∀ i, i + s < 64 → m.getLsbD i = true := fun i => by
      induction i with
      | zero => exact fun _ => hzero
      | succ i ih =>
        intro hi
        have hbit := congrArg (fun x : BitVec 64 => x.getLsbD (i + 1 + s)) hnone
        have hnot : ¬i + 1 + s < s := by omega
        have h64 : i + 1 < 64 := by omega
        simpa [hi, hnot, h64, ih (by omega)] using hbit
    cases htop.symm.trans (hall (63 - s) (by omega))

/-- A new database keeps tags and offsets apart, whatever mask it is given for the tags. -/
theorem dbzfresh_ok {size : Int} {fs cmap : UInt8} {tagmask : BitVec 64}
    (hmask : tagmask.msb = false) (hfresh : dbzfresh size fs cmap tagmask = some conf) :
    conf.Ok := by
  have hsize : ¬(size ≠ 0 ∧ size < 2) → 0 < if size ≠ 0 then size.toNat else DEFSIZE := by
    intro h
    split
    · omega
    · exact Nat.succ_pos _
  rw [dbzfresh] at hfresh
  split at hfresh
  · cases hfresh
  rename_i hlarge
  split at hfresh
  · cases hfresh
  rename_i casemap hcase
  simp only at hfresh
  split at hfresh
  · cases hfresh
    have hdefault : TAGENB <<< TAGSHIFT ≠ 0 := by decide
    exact ⟨hsize hlarge, (by decide : TAGMASK <<< TAGSHIFT &&& TAGENB <<< TAGSHIFT = 0),
      fun h => absurd h hdefault⟩
  rename_i hnonzero
  split at hfresh
  · cases hfresh
    exact ⟨hsize hlarge, BitVec.and_self, fun _ => BitVec.zero_shiftLeft 0⟩
  · obtain ⟨i, hi, hset⟩ : ∃ i < 32, tagmask.getLsbD i = true := by
      refine Classical.byContradiction fun hno => hnonzero (BitVec.eq_of_getLsbD_eq fun i hi => ?_)
      rw [BitVec.getLsbD_setWidth, Bool.eq_false_iff.mpr fun h => hno ⟨i, hi, h⟩, Bool.and_false]
      exact BitVec.getLsbD_zero.symm
    obtain ⟨t, hcount, hzero, hbits⟩ := tagLoop_spec tagmask 0 hmask ⟨i, hi, hset⟩
    generalize tagLoop 32 tagmask 0 = stripped at *
    obtain ⟨m, tagshift⟩ := stripped
    cases hfresh
    simp only [Nat.zero_add] at hcount hzero hbits
    subst hcount
    have ht : tagshift < 64 := Nat.lt_of_not_le fun hge => by
      rw [hbits, Nat.zero_add, BitVec.getLsbD_of_ge _ _ hge] at hzero
      cases hzero
    have htop : m.getLsbD (63 - tagshift) = false := by
      rw [hbits, show 63 - tagshift + tagshift = 63 by omega]
      exact BitVec.msb_eq_getLsbD_last tagmask ▸ hmask
    obtain ⟨hdisjoint, henabled⟩ := mask_ok m ht hzero htop
    exact ⟨hsize hlarge, hdisjoint, fun h => absurd h henabled⟩

/-- The database of the gateway has no tags, so that it takes every offset. -/
theorem makedbz_ok {fuel : Nat} {entry : Int} (hmake : makedbz fuel entry = some conf) :
    conf.Ok ∧ ∀ value, conf.okayvalue value = true := by
  obtain ⟨size, -, hfresh⟩ := Option.bind_eq_some_iff.mp hmake
  refine ⟨dbzfresh_ok rfl hfresh, fun value => ?_⟩
  rw [dbzfresh] at hfresh
  split at hfresh
  · cases hfresh
  · cases hfresh
    simp [Conf.okayvalue, Conf.HASTAG, Conf.taghere]

end

end ArgoBbs.Dbz

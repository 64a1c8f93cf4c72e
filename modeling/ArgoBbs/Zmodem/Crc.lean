import ArgoBbs.Lib.Crc
import Mathlib.Algebra.Group.Nat.Defs

/-! # The checksums of ZMODEM

`crctab.c`, and the macros of `zglobal.h` that look up its tables. Both tables hold the feedback of
eight shifts, so the two checksums are those of feedback registers: one of 16 bits that shifts
towards its high end and takes a byte in behind the shift, one of 32 bits that shifts towards its
low end and takes a byte in before it. Each finds every burst of errors that is no longer than
itself. -/

namespace ArgoBbs.Zmodem

def crctab : List (BitVec 16) := [
  0x0000, 0x1021, 0x2042, 0x3063, 0x4084, 0x50a5, 0x60c6, 0x70e7,
  0x8108, 0x9129, 0xa14a, 0xb16b, 0xc18c, 0xd1ad, 0xe1ce, 0xf1ef,
  0x1231, 0x0210, 0x3273, 0x2252, 0x52b5, 0x4294, 0x72f7, 0x62d6,
  0x9339, 0x8318, 0xb37b, 0xa35a, 0xd3bd, 0xc39c, 0xf3ff, 0xe3de,
  0x2462, 0x3443, 0x0420, 0x1401, 0x64e6, 0x74c7, 0x44a4, 0x5485,
  0xa56a, 0xb54b, 0x8528, 0x9509, 0xe5ee, 0xf5cf, 0xc5ac, 0xd58d,
  0x3653, 0x2672, 0x1611, 0x0630, 0x76d7, 0x66f6, 0x5695, 0x46b4,
  0xb75b, 0xa77a, 0x9719, 0x8738, 0xf7df, 0xe7fe, 0xd79d, 0xc7bc,
  0x48c4, 0x58e5, 0x6886, 0x78a7, 0x0840, 0x1861, 0x2802, 0x3823,
  0xc9cc, 0xd9ed, 0xe98e, 0xf9af, 0x8948, 0x9969, 0xa90a, 0xb92b,
  0x5af5, 0x4ad4, 0x7ab7, 0x6a96, 0x1a71, 0x0a50, 0x3a33, 0x2a12,
  0xdbfd, 0xcbdc, 0xfbbf, 0xeb9e, 0x9b79, 0x8b58, 0xbb3b, 0xab1a,
  0x6ca6, 0x7c87, 0x4ce4, 0x5cc5, 0x2c22, 0x3c03, 0x0c60, 0x1c41,
  0xedae, 0xfd8f, 0xcdec, 0xddcd, 0xad2a, 0xbd0b, 0x8d68, 0x9d49,
  0x7e97, 0x6eb6, 0x5ed5, 0x4ef4, 0x3e13, 0x2e32, 0x1e51, 0x0e70,
  0xff9f, 0xefbe, 0xdfdd, 0xcffc, 0xbf1b, 0xaf3a, 0x9f59, 0x8f78,
  0x9188, 0x81a9, 0xb1ca, 0xa1eb, 0xd10c, 0xc12d, 0xf14e, 0xe16f,
  0x1080, 0x00a1, 0x30c2, 0x20e3, 0x5004, 0x4025, 0x7046, 0x6067,
  0x83b9, 0x9398, 0xa3fb, 0xb3da, 0xc33d, 0xd31c, 0xe37f, 0xf35e,
  0x02b1, 0x1290, 0x22f3, 0x32d2, 0x4235, 0x5214, 0x6277, 0x7256,
  0xb5ea, 0xa5cb, 0x95a8, 0x8589, 0xf56e, 0xe54f, 0xd52c, 0xc50d,
  0x34e2, 0x24c3, 0x14a0, 0x0481, 0x7466, 0x6447, 0x5424, 0x4405,
  0xa7db, 0xb7fa, 0x8799, 0x97b8, 0xe75f, 0xf77e, 0xc71d, 0xd73c,
  0x26d3, 0x36f2, 0x0691, 0x16b0, 0x6657, 0x7676, 0x4615, 0x5634,
  0xd94c, 0xc96d, 0xf90e, 0xe92f, 0x99c8, 0x89e9, 0xb98a, 0xa9ab,
  0x5844, 0x4865, 0x7806, 0x6827, 0x18c0, 0x08e1, 0x3882, 0x28a3,
  0xcb7d, 0xdb5c, 0xeb3f, 0xfb1e, 0x8bf9, 0x9bd8, 0xabbb, 0xbb9a,
  0x4a75, 0x5a54, 0x6a37, 0x7a16, 0x0af1, 0x1ad0, 0x2ab3, 0x3a92,
  0xfd2e, 0xed0f, 0xdd6c, 0xcd4d, 0xbdaa, 0xad8b, 0x9de8, 0x8dc9,
  0x7c26, 0x6c07, 0x5c64, 0x4c45, 0x3ca2, 0x2c83, 0x1ce0, 0x0cc1,
  0xef1f, 0xff3e, 0xcf5d, 0xdf7c, 0xaf9b, 0xbfba, 0x8fd9, 0x9ff8,
  0x6e17, 0x7e36, 0x4e55, 0x5e74, 0x2e93, 0x3eb2, 0x0ed1, 0x1ef0]

def cr3tab : List (BitVec 32) := [
  0x00000000, 0x77073096, 0xee0e612c, 0x990951ba, 0x076dc419, 0x706af48f,
  0xe963a535, 0x9e6495a3, 0x0edb8832, 0x79dcb8a4, 0xe0d5e91e, 0x97d2d988,
  0x09b64c2b, 0x7eb17cbd, 0xe7b82d07, 0x90bf1d91, 0x1db71064, 0x6ab020f2,
  0xf3b97148, 0x84be41de, 0x1adad47d, 0x6ddde4eb, 0xf4d4b551, 0x83d385c7,
  0x136c9856, 0x646ba8c0, 0xfd62f97a, 0x8a65c9ec, 0x14015c4f, 0x63066cd9,
  0xfa0f3d63, 0x8d080df5, 0x3b6e20c8, 0x4c69105e, 0xd56041e4, 0xa2677172,
  0x3c03e4d1, 0x4b04d447, 0xd20d85fd, 0xa50ab56b, 0x35b5a8fa, 0x42b2986c,
  0xdbbbc9d6, 0xacbcf940, 0x32d86ce3, 0x45df5c75, 0xdcd60dcf, 0xabd13d59,
  0x26d930ac, 0x51de003a, 0xc8d75180, 0xbfd06116, 0x21b4f4b5, 0x56b3c423,
  0xcfba9599, 0xb8bda50f, 0x2802b89e, 0x5f058808, 0xc60cd9b2, 0xb10be924,
  0x2f6f7c87, 0x58684c11, 0xc1611dab, 0xb6662d3d, 0x76dc4190, 0x01db7106,
  0x98d220bc, 0xefd5102a, 0x71b18589, 0x06b6b51f, 0x9fbfe4a5, 0xe8b8d433,
  0x7807c9a2, 0x0f00f934, 0x9609a88e, 0xe10e9818, 0x7f6a0dbb, 0x086d3d2d,
  0x91646c97, 0xe6635c01, 0x6b6b51f4, 0x1c6c6162, 0x856530d8, 0xf262004e,
  0x6c0695ed, 0x1b01a57b, 0x8208f4c1, 0xf50fc457, 0x65b0d9c6, 0x12b7e950,
  0x8bbeb8ea, 0xfcb9887c, 0x62dd1ddf, 0x15da2d49, 0x8cd37cf3, 0xfbd44c65,
  0x4db26158, 0x3ab551ce, 0xa3bc0074, 0xd4bb30e2, 0x4adfa541, 0x3dd895d7,
  0xa4d1c46d, 0xd3d6f4fb, 0x4369e96a, 0x346ed9fc, 0xad678846, 0xda60b8d0,
  0x44042d73, 0x33031de5, 0xaa0a4c5f, 0xdd0d7cc9, 0x5005713c, 0x270241aa,
  0xbe0b1010, 0xc90c2086, 0x5768b525, 0x206f85b3, 0xb966d409, 0xce61e49f,
  0x5edef90e, 0x29d9c998, 0xb0d09822, 0xc7d7a8b4, 0x59b33d17, 0x2eb40d81,
  0xb7bd5c3b, 0xc0ba6cad, 0xedb88320, 0x9abfb3b6, 0x03b6e20c, 0x74b1d29a,
  0xead54739, 0x9dd277af, 0x04db2615, 0x73dc1683, 0xe3630b12, 0x94643b84,
  0x0d6d6a3e, 0x7a6a5aa8, 0xe40ecf0b, 0x9309ff9d, 0x0a00ae27, 0x7d079eb1,
  0xf00f9344, 0x8708a3d2, 0x1e01f268, 0x6906c2fe, 0xf762575d, 0x806567cb,
  0x196c3671, 0x6e6b06e7, 0xfed41b76, 0x89d32be0, 0x10da7a5a, 0x67dd4acc,
  0xf9b9df6f, 0x8ebeeff9, 0x17b7be43, 0x60b08ed5, 0xd6d6a3e8, 0xa1d1937e,
  0x38d8c2c4, 0x4fdff252, 0xd1bb67f1, 0xa6bc5767, 0x3fb506dd, 0x48b2364b,
  0xd80d2bda, 0xaf0a1b4c, 0x36034af6, 0x41047a60, 0xdf60efc3, 0xa867df55,
  0x316e8eef, 0x4669be79, 0xcb61b38c, 0xbc66831a, 0x256fd2a0, 0x5268e236,
  0xcc0c7795, 0xbb0b4703, 0x220216b9, 0x5505262f, 0xc5ba3bbe, 0xb2bd0b28,
  0x2bb45a92, 0x5cb36a04, 0xc2d7ffa7, 0xb5d0cf31, 0x2cd99e8b, 0x5bdeae1d,
  0x9b64c2b0, 0xec63f226, 0x756aa39c, 0x026d930a, 0x9c0906a9, 0xeb0e363f,
  0x72076785, 0x05005713, 0x95bf4a82, 0xe2b87a14, 0x7bb12bae, 0x0cb61b38,
  0x92d28e9b, 0xe5d5be0d, 0x7cdcefb7, 0x0bdbdf21, 0x86d3d2d4, 0xf1d4e242,
  0x68ddb3f8, 0x1fda836e, 0x81be16cd, 0xf6b9265b, 0x6fb077e1, 0x18b74777,
  0x88085ae6, 0xff0f6a70, 0x66063bca, 0x11010b5c, 0x8f659eff, 0xf862ae69,
  0x616bffd3, 0x166ccf45, 0xa00ae278, 0xd70dd2ee, 0x4e048354, 0x3903b3c2,
  0xa7672661, 0xd06016f7, 0x4969474d, 0x3e6e77db, 0xaed16a4a, 0xd9d65adc,
  0x40df0b66, 0x37d83bf0, 0xa9bcae53, 0xdebb9ec5, 0x47b2cf7f, 0x30b5ffe9,
  0xbdbdf21c, 0xcabac28a, 0x53b39330, 0x24b4a3a6, 0xbad03605, 0xcdd70693,
  0x54de5729, 0x23d967bf, 0xb3667a2e, 0xc4614ab8, 0x5d681b02, 0x2a6f2b94,
  0xb40bbe37, 0xc30c8ea1, 0x5a05df1b, 0x2d02ef8d]

def updcrc (cp : UInt8) (crc : BitVec 16) : BitVec 16 :=
  crctab.getD (crc >>> 8 &&& 255#16).toNat 0 ^^^ crc <<< 8 ^^^ cp.toBitVec.setWidth 16

def UPDC32 (b : UInt8) (c : BitVec 32) : BitVec 32 :=
  cr3tab.getD ((c ^^^ b.toBitVec.setWidth 32) &&& 0xff#32).toNat 0 ^^^ (c >>> 8 &&& 0x00ffffff#32)

/-- The entry of `crctab` for a byte that falls out of the register. -/
def feedback16 (x : BitVec 16) : BitVec 16 := (shiftHigh 0x1021)^[8] (x <<< 8)

def feedback32 (x : BitVec 32) : BitVec 32 := (shiftLow 0xedb88320)^[8] x

/-- To check a table, read it once from the front. -/
theorem forall_getD {α : Type} (l : List α) {d : α} (P : Nat → α → Prop) {n : Nat}
    (h : l.length = n ∧ ∀ p ∈ l.zipIdx, P p.2 p.1) : ∀ i < n, P i (l.getD i d) := by
  intro i hi
  have hget : l[i]? = some (l.getD i d) := by
    rw [List.getD_eq_getElem?_getD, List.getElem?_eq_getElem (h.1 ▸ hi)]
    rfl
  exact h.2 (l.getD i d, i) (List.mem_zipIdx_iff_getElem?.mpr hget)

/-- An entry is the feedback of its byte, and tells from its low end whether there was any. -/
theorem crctab_spec : ∀ i < 256, crctab.getD i 0 = feedback16 (BitVec.ofNat 16 i) ∧
    ((crctab.getD i 0).toNat % 256 = 0 → i = 0) :=
  forall_getD crctab (fun i x => x = feedback16 (BitVec.ofNat 16 i) ∧ (x.toNat % 256 = 0 → i = 0))
    (by decide +kernel)

theorem cr3tab_spec : ∀ i < 256, cr3tab.getD i 0 = feedback32 (BitVec.ofNat 32 i) ∧
    ((cr3tab.getD i 0).toNat < 2 ^ 24 → i = 0) :=
  forall_getD cr3tab (fun i x => x = feedback32 (BitVec.ofNat 32 i) ∧ (x.toNat < 2 ^ 24 → i = 0))
    (by decide +kernel)

theorem feedback16_xor (x y : BitVec 16) :
    feedback16 (x ^^^ y) = feedback16 x ^^^ feedback16 y := by
  rw [feedback16, BitVec.shiftLeft_xor_distrib]
  exact iterate_xor (shiftHigh_xor _) 8 _ _

theorem feedback32_xor (x y : BitVec 32) :
    feedback32 (x ^^^ y) = feedback32 x ^^^ feedback32 y :=
  iterate_xor (shiftLow_xor _) 8 x y

/-- The byte that a shift of eight places pushes out. -/
theorem toNat_and_lt {n : Nat} (x : BitVec n) : (x &&& 255#n).toNat < 256 := by
  rw [BitVec.toNat_and, BitVec.toNat_ofNat]
  have h : 255 % 2 ^ n ≤ 255 := Nat.mod_le ..
  exact Nat.lt_succ_of_le (Nat.le_trans Nat.and_le_right h)

theorem updcrc_eq (cp : UInt8) (crc : BitVec 16) :
    updcrc cp crc =
      feedback16 (crc >>> 8 &&& 255#16) ^^^ crc <<< 8 ^^^ cp.toBitVec.setWidth 16 := by
  rw [updcrc, (crctab_spec _ (toNat_and_lt _)).1, BitVec.ofNat_toNat, BitVec.setWidth_eq]

theorem UPDC32_eq (b : UInt8) (c : BitVec 32) :
    UPDC32 b c = feedback32 ((c ^^^ b.toBitVec.setWidth 32) &&& 0xff#32) ^^^ c >>> 8 := by
  have hmask : c >>> 8 &&& 0x00ffffff#32 = c >>> 8 := by
    apply BitVec.eq_of_toNat_eq
    rw [BitVec.toNat_and, BitVec.toNat_ushiftRight]
    have h : c.toNat >>> 8 < 2 ^ 24 := by
      rw [Nat.shiftRight_eq_div_pow]
      omega
    exact Nat.and_two_pow_sub_one_of_lt_two_pow h
  rw [UPDC32, (cr3tab_spec _ (toNat_and_lt _)).1, BitVec.ofNat_toNat, BitVec.setWidth_eq, hmask]

theorem and_xor_distrib {n : Nat} (x y m : BitVec n) :
    (x ^^^ y) &&& m = (x &&& m) ^^^ (y &&& m) := by
  apply BitVec.eq_of_getLsbD_eq
  intro i _
  simp only [BitVec.getLsbD_and, BitVec.getLsbD_xor]
  exact Bool.and_xor_distrib_right ..

theorem xor_xor_xor_comm {n : Nat} (a b c d : BitVec n) :
    a ^^^ b ^^^ (c ^^^ d) = a ^^^ c ^^^ (b ^^^ d) := by
  rw [BitVec.xor_assoc, ← BitVec.xor_assoc b c d, BitVec.xor_comm b c, BitVec.xor_assoc,
    ← BitVec.xor_assoc]

theorem updcrc_xor (s t : BitVec 16) (a b : UInt8) :
    updcrc (a ^^^ b) (s ^^^ t) = updcrc a s ^^^ updcrc b t := by
  rw [updcrc_eq, updcrc_eq, updcrc_eq, BitVec.ushiftRight_xor_distrib, and_xor_distrib,
    feedback16_xor, BitVec.shiftLeft_xor_distrib, UInt8.toBitVec_xor, BitVec.setWidth_xor,
    xor_xor_xor_comm (feedback16 _), xor_xor_xor_comm]

theorem UPDC32_xor (s t : BitVec 32) (a b : UInt8) :
    UPDC32 (a ^^^ b) (s ^^^ t) = UPDC32 a s ^^^ UPDC32 b t := by
  rw [UPDC32_eq, UPDC32_eq, UPDC32_eq, BitVec.ushiftRight_xor_distrib, UInt8.toBitVec_xor,
    BitVec.setWidth_xor, xor_xor_xor_comm s, and_xor_distrib, feedback32_xor,
    xor_xor_xor_comm (feedback32 _)]

theorem toNat_and_byte {n : Nat} (hn : 8 ≤ n) (x : BitVec n) :
    (x &&& 255#n).toNat = x.toNat % 256 := by
  have h : 255 < 2 ^ n := Nat.lt_of_lt_of_le (by decide) (Nat.pow_le_pow_right (by decide) hn)
  rw [BitVec.toNat_and, BitVec.toNat_ofNat, Nat.mod_eq_of_lt h]
  exact Nat.and_two_pow_sub_one_eq_mod x.toNat 8

theorem updcrc_zero_ne {s : BitVec 16} (h : updcrc 0 s = 0) : s = 0 := by
  rw [updcrc] at h
  have heq : crctab.getD (s >>> 8 &&& 255#16).toNat 0 = s <<< 8 := by
    rw [show (0 : UInt8).toBitVec.setWidth 16 = 0#16 from rfl, BitVec.xor_zero] at h
    exact BitVec.xor_eq_zero_iff.mp h
  have hlow : (s <<< 8).toNat % 256 = 0 := by
    rw [BitVec.toNat_shiftLeft, Nat.shiftLeft_eq]
    omega
  have hhigh := (crctab_spec _ (toNat_and_lt _)).2 (heq ▸ hlow)
  rw [hhigh] at heq
  have hzero : (s <<< 8).toNat = 0 := by
    rw [← heq]
    rfl
  rw [BitVec.toNat_shiftLeft, Nat.shiftLeft_eq] at hzero
  rw [toNat_and_byte (by decide), BitVec.toNat_ushiftRight, Nat.shiftRight_eq_div_pow] at hhigh
  apply BitVec.eq_of_toNat_eq
  show s.toNat = 0
  omega

theorem toNat_setWidth_byte {n : Nat} (hn : 8 ≤ n) (b : UInt8) :
    (b.toBitVec.setWidth n).toNat = b.toNat := by
  have h : b.toNat < 2 ^ n :=
    Nat.lt_of_lt_of_le b.toNat_lt (Nat.pow_le_pow_right (by decide) hn)
  rw [BitVec.toNat_setWidth]
  exact Nat.mod_eq_of_lt h

/-- A register that is short again has taken in the byte that it held at its low end. -/
theorem UPDC32_short {b : UInt8} {c : BitVec 32} (h : (UPDC32 b c).toNat < 2 ^ 24) :
    c.toNat % 256 = b.toNat ∧ (UPDC32 b c).toNat = c.toNat / 256 := by
  have hshift : (c >>> 8 &&& 0x00ffffff#32).toNat = c.toNat / 256 := by
    rw [BitVec.toNat_and, BitVec.toNat_ushiftRight, Nat.shiftRight_eq_div_pow]
    exact Nat.and_two_pow_sub_one_of_lt_two_pow (n := 24) (by omega)
  have hfeed : cr3tab.getD ((c ^^^ b.toBitVec.setWidth 32) &&& 0xff#32).toNat 0 =
      UPDC32 b c ^^^ (c >>> 8 &&& 0x00ffffff#32) := by
    rw [UPDC32, BitVec.xor_assoc, BitVec.xor_self, BitVec.xor_zero]
  have hzero := (cr3tab_spec _ (toNat_and_lt _)).2 (by
    rw [hfeed, BitVec.toNat_xor]
    exact Nat.xor_lt_two_pow h (by omega))
  constructor
  · rw [toNat_and_byte (by decide)] at hzero
    have heq : c &&& 0xff#32 = b.toBitVec.setWidth 32 &&& 0xff#32 := by
      apply BitVec.xor_eq_zero_iff.mp
      rw [← and_xor_distrib]
      apply BitVec.eq_of_toNat_eq
      rw [toNat_and_byte (by decide), hzero]
      rfl
    have h := congrArg BitVec.toNat heq
    rw [toNat_and_byte (by decide), toNat_and_byte (by decide),
      toNat_setWidth_byte (by decide)] at h
    rw [h]
    exact Nat.mod_eq_of_lt b.toNat_lt
  · rw [UPDC32, hzero, BitVec.toNat_xor, hshift]
    exact Nat.zero_xor _

theorem UPDC32_zero_ne {c : BitVec 32} (h : UPDC32 0 c = 0) : c = 0 := by
  obtain ⟨hlow, hhigh⟩ := UPDC32_short (b := 0) (c := c) (by rw [h]; decide)
  rw [h] at hhigh
  apply BitVec.eq_of_toNat_eq
  change c.toNat % 256 = 0 at hlow
  change 0 = c.toNat / 256 at hhigh
  show c.toNat = 0
  omega

/-- The checksum of binary frames with a frame check of 16 bits. -/
def crc16 : FeedbackRegister 16 where
  feed s c := updcrc c s
  feed_xor s t a b := updcrc_xor s t a b
  zero_of_feed _ := updcrc_zero_ne

/-- The checksum of binary frames with a frame check of 32 bits. -/
def crc32 : FeedbackRegister 32 where
  feed s c := UPDC32 c s
  feed_xor s t a b := UPDC32_xor s t a b
  zero_of_feed _ := UPDC32_zero_ne

theorem updcrc_empty (a : UInt8) : updcrc a 0 = a.toBitVec.setWidth 16 := by
  rw [updcrc, show crctab.getD ((0 : BitVec 16) >>> 8 &&& 255#16).toNat 0 = 0#16 from rfl,
    show (0 : BitVec 16) <<< 8 = 0#16 from rfl, BitVec.zero_xor, BitVec.zero_xor]

theorem byte_xor_byte (a : Nat) {b : Nat} (hb : b < 256) : 256 * a ^^^ b = 256 * a + b := by
  have hdiv : (256 * a ^^^ b) / 256 = a := by
    rw [show (256 : Nat) = 2 ^ 8 from rfl, Nat.xor_div_two_pow,
      Nat.mul_div_cancel_left _ (Nat.two_pow_pos 8), Nat.div_eq_of_lt hb, Nat.xor_zero]
  have hmod : (256 * a ^^^ b) % 256 = b := by
    rw [show (256 : Nat) = 2 ^ 8 from rfl, Nat.xor_mod_two_pow, Nat.mul_mod_right,
      Nat.mod_eq_of_lt hb, Nat.zero_xor]
  calc
    256 * a ^^^ b = 256 * ((256 * a ^^^ b) / 256) + (256 * a ^^^ b) % 256 :=
      (Nat.div_add_mod _ _).symm
    _ = 256 * a + b := by rw [hdiv, hmod]

/-- A register with one byte in it holds two bytes behind the next. -/
theorem toNat_updcrc_byte (a b : UInt8) :
    (updcrc b (a.toBitVec.setWidth 16)).toNat = 256 * a.toNat + b.toNat := by
  have ha := toNat_setWidth_byte (n := 16) (by decide) a
  have hindex : (a.toBitVec.setWidth 16 >>> 8 &&& 255#16).toNat = 0 := by
    rw [toNat_and_byte (by decide), BitVec.toNat_ushiftRight, ha, Nat.shiftRight_eq_div_pow,
      Nat.div_eq_of_lt a.toNat_lt]
  have hshift : (a.toBitVec.setWidth 16 <<< 8).toNat = 256 * a.toNat := by
    rw [BitVec.toNat_shiftLeft, ha, Nat.shiftLeft_eq]
    have := a.toNat_lt
    omega
  rw [updcrc, hindex, show crctab.getD 0 0 = 0#16 from rfl, BitVec.zero_xor, BitVec.toNat_xor,
    hshift, toNat_setWidth_byte (by decide), byte_xor_byte _ b.toNat_lt]

theorem crc16_detects : crc16.Detects 2 := by
  apply crc16.detects_of_length
  intro e hlen he
  obtain ⟨a, b, rfl⟩ := List.length_eq_two.mp hlen
  change updcrc b (updcrc a 0) = 0 at he
  have h := congrArg BitVec.toNat he
  rw [updcrc_empty, toNat_updcrc_byte] at h
  change 256 * a.toNat + b.toNat = 0 at h
  have hzero : a.toNat = 0 ∧ b.toNat = 0 := by omega
  simp [← UInt8.toNat_inj, hzero]

theorem crc32_detects : crc32.Detects 4 := by
  apply crc32.detects_of_length
  intro e hlen he
  match e, hlen with
  | [a, b, c, d], _ =>
    change UPDC32 d (UPDC32 c (UPDC32 b (UPDC32 a 0))) = 0 at he
    have hbytes := And.intro (And.intro a.toNat_lt b.toNat_lt) (And.intro c.toNat_lt d.toNat_lt)
    -- From the end: each register was short enough to hold only bytes that are still to come.
    obtain ⟨hd, h3⟩ := UPDC32_short (b := d) (by rw [he]; decide)
    rw [he] at h3
    change 0 = _ at h3
    have hs : (UPDC32 c (UPDC32 b (UPDC32 a 0))).toNat < 2 ^ 24 := by omega
    obtain ⟨hc, h2⟩ := UPDC32_short hs
    have hs : (UPDC32 b (UPDC32 a 0)).toNat < 2 ^ 24 := by omega
    obtain ⟨hb, h1⟩ := UPDC32_short hs
    have hs : (UPDC32 a 0).toNat < 2 ^ 24 := by omega
    obtain ⟨ha, h0⟩ := UPDC32_short hs
    change 0 % 256 = a.toNat at ha
    change _ = 0 / 256 at h0
    have : a.toNat = 0 ∧ b.toNat = 0 ∧ c.toNat = 0 ∧ d.toNat = 0 := by omega
    simp [← UInt8.toNat_inj, this]

/-! ## The check bytes -/

/-- The check bytes behind what has left `crc` in the register: it takes in two zero bytes first. -/
def checkBytes16 (crc : BitVec 16) : List UInt8 :=
  let crc := updcrc 0 (updcrc 0 crc)
  [UInt8.ofNat (crc.toNat / 256), UInt8.ofNat crc.toNat]

/-- The bytes of a word, least significant first. -/
def wordBytes (x : BitVec 32) : List UInt8 :=
  [UInt8.ofNat x.toNat, UInt8.ofNat (x.toNat / 256), UInt8.ofNat (x.toNat / 256 ^ 2),
    UInt8.ofNat (x.toNat / 256 ^ 3)]

theorem length_checkBytes16 (crc : BitVec 16) : (checkBytes16 crc).length = 2 := by
  simp [checkBytes16]

theorem length_wordBytes (x : BitVec 32) : (wordBytes x).length = 4 := by simp [wordBytes]

def checkBytes32 (crc : BitVec 32) : List UInt8 := wordBytes (~~~crc)

/-- A text with its check bytes leaves nothing in the register. -/
theorem run_checkBytes16 (crc : BitVec 16) : crc16.run crc (checkBytes16 crc) = 0 := by
  let tail := updcrc 0 (updcrc 0 crc)
  have htail : crc16.run 0 (checkBytes16 crc) = tail := by
    change updcrc (UInt8.ofNat tail.toNat) (updcrc (UInt8.ofNat (tail.toNat / 256)) 0) = tail
    rw [updcrc_empty]
    apply BitVec.eq_of_toNat_eq
    rw [toNat_updcrc_byte, UInt8.toNat_ofNat', UInt8.toNat_ofNat']
    omega
  calc
    crc16.run crc (checkBytes16 crc) = crc16.run (crc ^^^ 0) (List.zipWith (· ^^^ ·) [0, 0]
        (checkBytes16 crc)) := by
      rw [show crc ^^^ 0 = crc from BitVec.xor_zero]
      simp [checkBytes16]
    _ = crc16.run crc [0, 0] ^^^ crc16.run 0 (checkBytes16 crc) :=
      crc16.run_xor (a := [0, 0]) (length_checkBytes16 crc).symm _ _
    _ = tail ^^^ tail := by rw [htail]; rfl
    _ = 0 := BitVec.xor_self

/-- A register that takes in its own low byte moves down. -/
theorem UPDC32_low {b : UInt8} {c : BitVec 32} (h : c.toNat % 256 = b.toNat) :
    (UPDC32 b c).toNat = c.toNat / 256 := by
  have hindex : (c ^^^ b.toBitVec.setWidth 32) &&& 0xff#32 = 0#32 := by
    rw [and_xor_distrib]
    apply BitVec.xor_eq_zero_iff.mpr
    apply BitVec.eq_of_toNat_eq
    rw [toNat_and_byte (by decide), toNat_and_byte (by decide), toNat_setWidth_byte (by decide), h]
    exact (Nat.mod_eq_of_lt b.toNat_lt).symm
  rw [UPDC32_eq, hindex, show feedback32 0#32 = 0#32 from rfl, BitVec.zero_xor,
    BitVec.toNat_ushiftRight, Nat.shiftRight_eq_div_pow]

theorem run_wordBytes (c : BitVec 32) : crc32.run c (wordBytes c) = 0 := by
  have h0 : (UPDC32 (UInt8.ofNat c.toNat) c).toNat = c.toNat / 256 :=
    UPDC32_low (UInt8.toNat_ofNat' ..).symm
  have h1 := UPDC32_low (b := UInt8.ofNat (c.toNat / 256))
    (c := UPDC32 (UInt8.ofNat c.toNat) c) (by rw [h0, UInt8.toNat_ofNat'])
  rw [h0, Nat.div_div_eq_div_mul] at h1
  have h2 := UPDC32_low (b := UInt8.ofNat (c.toNat / 256 ^ 2)) (by
    rw [h1, UInt8.toNat_ofNat']
    rfl)
  rw [h1, Nat.div_div_eq_div_mul] at h2
  have h3 := UPDC32_low (b := UInt8.ofNat (c.toNat / 256 ^ 3)) (by
    rw [h2, UInt8.toNat_ofNat']
    rfl)
  rw [h2, Nat.div_div_eq_div_mul] at h3
  apply BitVec.eq_of_toNat_eq
  have hlt := c.isLt
  refine h3.trans ?_
  show c.toNat / _ = 0
  omega

theorem ofNat_xor (a b : Nat) : UInt8.ofNat (a ^^^ b) = UInt8.ofNat a ^^^ UInt8.ofNat b := by
  apply UInt8.toNat_inj.mp
  rw [UInt8.toNat_xor, UInt8.toNat_ofNat', UInt8.toNat_ofNat', UInt8.toNat_ofNat',
    Nat.xor_mod_two_pow]

theorem wordBytes_xor (x y : BitVec 32) :
    wordBytes (x ^^^ y) = List.zipWith (· ^^^ ·) (wordBytes x) (wordBytes y) := by
  have hdiv (k : Nat) :
      (x.toNat ^^^ y.toNat) / 256 ^ k = x.toNat / 256 ^ k ^^^ y.toNat / 256 ^ k := by
    rw [show 256 ^ k = 2 ^ (8 * k) by rw [Nat.pow_mul], Nat.xor_div_two_pow]
  have h1 := hdiv 1
  rw [Nat.pow_one] at h1
  simp only [wordBytes, BitVec.toNat_xor, h1, hdiv, ofNat_xor, List.zipWith_cons_cons,
    List.zipWith_nil_left]

/-- The 32-bit check bytes are inverted: what they leave in the register is a constant. -/
theorem run_checkBytes32 (crc : BitVec 32) : crc32.run crc (checkBytes32 crc) = 0xDEBB20E3#32 := by
  have hnot : ~~~crc = crc ^^^ BitVec.allOnes 32 := by
    rw [BitVec.xor_allOnes]
  calc
    crc32.run crc (checkBytes32 crc) = crc32.run (crc ^^^ 0)
        (List.zipWith (· ^^^ ·) (wordBytes crc) (wordBytes (BitVec.allOnes 32))) := by
      rw [checkBytes32, hnot, wordBytes_xor, show crc ^^^ 0 = crc from BitVec.xor_zero]
    _ = crc32.run crc (wordBytes crc) ^^^ crc32.run 0 (wordBytes (BitVec.allOnes 32)) :=
      crc32.run_xor ((length_wordBytes _).trans (length_wordBytes _).symm) _ _
    _ = crc32.run 0 (wordBytes (BitVec.allOnes 32)) := by
      rw [run_wordBytes]
      exact BitVec.zero_xor
    _ = 0xDEBB20E3#32 := by rfl

/-- The frame check of `ZBIN` and `ZHEX`. -/
def fcs16 : FrameCheck where
  register := crc16
  start := 0
  good := 0
  width := 2
  check := checkBytes16
  length_check := length_checkBytes16
  run_check := run_checkBytes16
  detects := crc16_detects

/-- The frame check of `ZBIN32`. -/
def fcs32 : FrameCheck where
  register := crc32
  start := 0xFFFFFFFF#32
  good := 0xDEBB20E3#32
  width := 4
  check := checkBytes32
  length_check c := length_wordBytes (~~~c)
  run_check := run_checkBytes32
  detects := crc32_detects

end ArgoBbs.Zmodem

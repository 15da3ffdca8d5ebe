import MassGridMiner.Lib.Crc
import MassGridMiner.Lib.ForInt

/-!
# Checksums

Both checksums take a byte at a time from a table.  One table is computed and the other one is
written out, and both hold what division leaves of the bytes.  The loop of `crc8ccitt` has an
`int` for its counter, so it leaves out what is past `2 ^ 31` bytes.

## Main definitions

* `crc8ccitt`, `crc16` — the functions.
* `Divided` — for byte strings of a length they are divisions of the bits.
* `crc16_eq` — `crc16` is one for all strings.
* `divided_iff` — which lengths both are for.
-/

namespace MassGridMiner
namespace Checksum

open Crc

/-- `_crc8ccitt_table`, as `bfg_init_checksums` makes it. -/
def bfgInitChecksums : List UInt8 :=
  (List.range 0x100).map fun i =>
    (List.range 8).foldl (fun crc _ => (crc <<< 1) ^^^ (if crc &&& 0x80 ≠ 0 then 7 else 0))
      (UInt8.ofNat i)

/-- `crc8ccitt`; none if something outside of the string or the table is read. -/
def crc8ccitt (buf : List UInt8) : Option UInt8 :=
  forInt (fun crc c => bfgInitChecksums[(crc ^^^ c).toNat]?) 0xff buf

def crc16tab : List UInt16 :=
  [0x0000, 0x1021, 0x2042, 0x3063, 0x4084, 0x50a5, 0x60c6, 0x70e7,
   0x8108, 0x9129, 0xa14a, 0xb16b, 0xc18c, 0xd1ad, 0xe1ce, 0xf1ef,
   0x1231, 0x0210, 0x3273, 0x2252, 0x52b5, 0x4294, 0x72f7, 0x62d6,
   0x9339, 0x8318, 0xb37b, 0xa35a, 0xd3bd, 0xc39c, 0xf3ff, 0xe3de,
   0x2462, 0x3443, 0x0420, 0x1401, 0x64e6, 0x74c7, 0x44a4, 0x5485,
   0xa56a, 0xb54b, 0x8528, 0x9509, 0xe5ee, 0xf5cf, 0xc5ac, 0xd58d,
   0x3653, 0x2672, 0x1611, 0x0630, 0x76d7, 0x66f6, 0x5695, 0x46b4,
   0xb75b, 0xa77a, 0x9719, 0x8738, 0xf7df, 0xe7fe, 0xd79d, 0xc7bc,
   0x48c4, 0x58e5, 0x6886, 0x78a7, 0x0840, 0x1861, 0x2802, 0x3823,
   0xc9cc, 0xd9ed, 0xe98e, 0xf9af, 0x8948, 0x9969, 0xa90a, 0xb92b,
   0x5af5, 0x4ad4, 0x7ab7, 0x6a96, 0x1a71, 0x0a50, 0x3a33, 0x2a12,
   0xdbfd, 0xcbdc, 0xfbbf, 0xeb9e, 0x9b79, 0x8b58, 0xbb3b, 0xab1a,
   0x6ca6, 0x7c87, 0x4ce4, 0x5cc5, 0x2c22, 0x3c03, 0x0c60, 0x1c41,
   0xedae, 0xfd8f, 0xcdec, 0xddcd, 0xad2a, 0xbd0b, 0x8d68, 0x9d49,
   0x7e97, 0x6eb6, 0x5ed5, 0x4ef4, 0x3e13, 0x2e32, 0x1e51, 0x0e70,
   0xff9f, 0xefbe, 0xdfdd, 0xcffc, 0xbf1b, 0xaf3a, 0x9f59, 0x8f78,
   0x9188, 0x81a9, 0xb1ca, 0xa1eb, 0xd10c, 0xc12d, 0xf14e, 0xe16f,
   0x1080, 0x00a1, 0x30c2, 0x20e3, 0x5004, 0x4025, 0x7046, 0x6067,
   0x83b9, 0x9398, 0xa3fb, 0xb3da, 0xc33d, 0xd31c, 0xe37f, 0xf35e,
   0x02b1, 0x1290, 0x22f3, 0x32d2, 0x4235, 0x5214, 0x6277, 0x7256,
   0xb5ea, 0xa5cb, 0x95a8, 0x8589, 0xf56e, 0xe54f, 0xd52c, 0xc50d,
   0x34e2, 0x24c3, 0x14a0, 0x0481, 0x7466, 0x6447, 0x5424, 0x4405,
   0xa7db, 0xb7fa, 0x8799, 0x97b8, 0xe75f, 0xf77e, 0xc71d, 0xd73c,
   0x26d3, 0x36f2, 0x0691, 0x16b0, 0x6657, 0x7676, 0x4615, 0x5634,
   0xd94c, 0xc96d, 0xf90e, 0xe92f, 0x99c8, 0x89e9, 0xb98a, 0xa9ab,
   0x5844, 0x4865, 0x7806, 0x6827, 0x18c0, 0x08e1, 0x3882, 0x28a3,
   0xcb7d, 0xdb5c, 0xeb3f, 0xfb1e, 0x8bf9, 0x9bd8, 0xabbb, 0xbb9a,
   0x4a75, 0x5a54, 0x6a37, 0x7a16, 0x0af1, 0x1ad0, 0x2ab3, 0x3a92,
   0xfd2e, 0xed0f, 0xdd6c, 0xcd4d, 0xbdaa, 0xad8b, 0x9de8, 0x8dc9,
   0x7c26, 0x6c07, 0x5c64, 0x4c45, 0x3ca2, 0x2c83, 0x1ce0, 0x0cc1,
   0xef1f, 0xff3e, 0xcf5d, 0xdf7c, 0xaf9b, 0xbfba, 0x8fd9, 0x9ff8,
   0x6e17, 0x7e36, 0x4e55, 0x5e74, 0x2e93, 0x3eb2, 0x0ed1, 0x1ef0]

/-- `crc16_floating`, for two numbers of 16 bits. -/
def crc16Floating (nextByte seed : UInt16) : Option UInt16 :=
  crc16tab[((seed >>> 8) ^^^ nextByte).toNat]?.map fun entry => (seed <<< 8 ^^^ entry) &&& 0xffff

/-- `crc16`; none if something outside of the table is read. -/
def crc16 (s : List UInt8) (crc : UInt16) : Option UInt16 :=
  s.foldlM (fun crc c => crc16Floating c.toUInt16 crc) crc

/-- Of all strings of a length the checksums are what bit by bit division leaves, and a
concatenation is taken in its parts. -/
structure Divided (n : ℕ) : Prop where
  crc16 : ∀ (s : List UInt8) (crc : UInt16), s.length = n →
    crc16 s crc = some ⟨divide 0x1021#16 crc.toBitVec (messageBits s)⟩
  crc8ccitt : ∀ buf : List UInt8, buf.length = n →
    crc8ccitt buf = some ⟨divide 0x07#8 0xff#8 (messageBits buf)⟩
  append : ∀ (s t : List UInt8) (crc : UInt16), (s ++ t).length = n →
    Checksum.crc16 (s ++ t) crc = (Checksum.crc16 s crc).bind (Checksum.crc16 t)

/-! ## The tables -/

theorem crc16tab_eq (c : UInt8) :
    crc16tab[c.toNat]? = some ⟨divide 0x1021#16 0#16 (bitsOf c)⟩ := by
  have hall : ∀ i : Fin 256, crc16tab[i.val]? =
      some ⟨divide 0x1021#16 0#16 (bitsOf (UInt8.ofNat i))⟩ := by decide +kernel
  have hc := hall ⟨c.toNat, c.toNat_lt⟩
  rwa [UInt8.ofNat_toNat] at hc

/-- One round of the inner loop of `bfg_init_checksums` is a bit. -/
theorem round_eq (crc : UInt8) : (crc <<< 1) ^^^ (if crc &&& 0x80 ≠ 0 then 7 else 0) =
    ⟨divideBit 0x07#8 crc.toBitVec false⟩ := by
  have hout : (crc &&& 0x80).toBitVec = if crc.toBitVec.msb then 0x80#8 else 0#8 := by
    rw [UInt8.toBitVec_and, BitVec.msb_eq_getLsbD_last]
    exact BitVec.and_twoPow crc.toBitVec 7
  apply UInt8.toBitVec_inj.mp
  rw [divideBit, Bool.xor_false, UInt8.toBitVec_xor]
  cases hmsb : crc.toBitVec.msb
  · have hzero : crc &&& 0x80 = 0 := UInt8.toBitVec_inj.mp (by rw [hout, hmsb]; rfl)
    rw [if_neg (not_not.mpr hzero), if_neg Bool.false_ne_true]
    rfl
  · have hone : crc &&& 0x80 ≠ 0 := fun hzero => by
      rw [hzero, hmsb, if_pos rfl] at hout
      exact absurd hout (by decide)
    rw [if_pos hone, if_pos rfl]
    rfl

theorem crc8Table_eq (c : UInt8) :
    bfgInitChecksums[c.toNat]? = some ⟨divide 0x07#8 0#8 (bitsOf c)⟩ := by
  have hrounds : ∀ (n : ℕ) (crc : UInt8), (List.range n).foldl
      (fun (crc : UInt8) _ => (crc <<< 1) ^^^ (if crc &&& 0x80 ≠ 0 then 7 else 0)) crc =
        ⟨divide 0x07#8 crc.toBitVec (List.replicate n false)⟩ := by
    intro n crc
    induction n with
    | zero => rfl
    | succ n ih =>
      rw [List.range_succ, List.foldl_append, ih, List.replicate_succ', divide_append]
      exact round_eq _
  have hzeros : List.replicate 8 false = bitsOf 0 := rfl
  have hout : c.toBitVec <<< 8 = 0#8 := BitVec.shiftLeft_eq_zero le_rfl
  rw [bfgInitChecksums, List.getElem?_map, List.getElem?_range c.toNat_lt, Option.map_some,
    UInt8.ofNat_toNat, hrounds, hzeros, @divide_bitsOf _ _ _ c rfl, hout, BitVec.zero_xor,
    UInt8.xor_zero]

/-- What goes out of 16 bits while eight come in. -/
theorem topBits_uint16 (crc : UInt16) : topBits 8 crc.toBitVec = bitsOf (crc >>> 8).toUInt8 := by
  refine List.map_congr_left fun i hi => ?_
  rw [List.mem_range] at hi
  have hshift : (crc >>> 8).toUInt8.toBitVec = (crc.toBitVec >>> 8).setWidth 8 := by simp
  rw [hshift, BitVec.getMsbD, BitVec.getMsbD, BitVec.getLsbD_setWidth, BitVec.getLsbD_ushiftRight,
    decide_eq_true (by omega : i < 16), decide_eq_true hi,
    decide_eq_true (by omega : 8 - 1 - i < 8), Bool.true_and, Bool.true_and, Bool.true_and]
  congr 1
  omega

theorem topBits_uint8 (crc : UInt8) : topBits 8 crc.toBitVec = bitsOf crc := rfl

/-! ## A byte at a time -/

/-- The index of `crc16_floating` is a byte. -/
theorem index_crc16Floating (c : UInt8) (crc : UInt16) :
    ((crc >>> 8) ^^^ c.toUInt16).toNat = ((crc >>> 8).toUInt8 ^^^ c).toNat := by
  have hlt := crc.toNat_lt
  have hshift : (crc >>> 8).toNat = crc.toNat / 256 := by simp [Nat.shiftRight_eq_div_pow]
  rw [UInt16.toNat_xor, UInt8.toNat_xor, UInt8.toNat_toUInt16, UInt16.toNat_toUInt8, hshift,
    Nat.mod_eq_of_lt (by omega)]

theorem and_mask (crc : UInt16) : crc &&& 0xffff = crc := UInt16.and_neg_one

/-- One byte of `crc16` is eight bits. -/
theorem crc16Floating_eq (c : UInt8) (crc : UInt16) :
    crc16Floating c.toUInt16 crc = some ⟨divide 0x1021#16 crc.toBitVec (bitsOf c)⟩ := by
  rw [crc16Floating, index_crc16Floating, crc16tab_eq, Option.map_some,
    divide_bitsOf (topBits_uint16 crc), and_mask]
  congr 1

/-- One byte of `crc8ccitt`. -/
theorem crc8Table_xor (c crc : UInt8) :
    bfgInitChecksums[(crc ^^^ c).toNat]? = some ⟨divide 0x07#8 crc.toBitVec (bitsOf c)⟩ := by
  have hout : crc.toBitVec <<< 8 = 0#8 := BitVec.shiftLeft_eq_zero le_rfl
  rw [crc8Table_eq, divide_bitsOf (topBits_uint8 crc), hout, BitVec.zero_xor]

/-! ## Messages -/

/-- **`crc16` is division** of the bits by 0x1021, from any initial value. -/
theorem crc16_eq (s : List UInt8) (crc : UInt16) :
    crc16 s crc = some ⟨divide 0x1021#16 crc.toBitVec (messageBits s)⟩ := by
  induction s generalizing crc with
  | nil => rfl
  | cons c s ih =>
    rw [crc16, List.foldlM_cons, crc16Floating_eq, messageBits_cons, divide_append]
    exact ih _

/-- A concatenation continues with what is left of its first part. -/
theorem crc16_append (s t : List UInt8) (crc : UInt16) :
    crc16 (s ++ t) crc = (crc16 s crc).bind (crc16 t) := by
  rw [crc16_eq, crc16_eq, messageBits_append, divide_append, Option.bind_some, crc16_eq]

/-- The steps of `crc8ccitt` are division by 0x07. -/
theorem foldlM_crc8Table (buf : List UInt8) (crc : UInt8) :
    buf.foldlM (fun crc c => bfgInitChecksums[(crc ^^^ c).toNat]?) crc =
      some ⟨divide 0x07#8 crc.toBitVec (messageBits buf)⟩ := by
  induction buf generalizing crc with
  | nil => rfl
  | cons c buf ih =>
    rw [List.foldlM_cons, crc8Table_xor, messageBits_cons, divide_append]
    exact ih _

/-- `crc8ccitt` is division for all strings within the range of its counter. -/
theorem crc8ccitt_eq {buf : List UInt8} (H : buf.length ≤ 2 ^ 31) :
    crc8ccitt buf = some ⟨divide 0x07#8 0xff#8 (messageBits buf)⟩ := by
  rw [crc8ccitt, forInt_of_le H, foldlM_crc8Table]
  rfl

/-- The strings past its range are not all divided: the last byte is not read. -/
theorem exists_crc8ccitt_ne {n : ℕ} (H : 2 ^ 31 < n) :
    ∃ buf : List UInt8, buf.length = n ∧
      crc8ccitt buf ≠ some ⟨divide 0x07#8 0xff#8 (messageBits buf)⟩ := by
  rcases Nat.lt_or_ge n (2 ^ 64) with hsize | hsize
  · obtain ⟨k, rfl⟩ : ∃ k, n = k + 1 := ⟨n - 1, by omega⟩
    have hlast : ∀ c : UInt8, (List.replicate k 0 ++ [c]).length = k + 1 := by simp
    have hleft : ∀ c : UInt8, crc8ccitt (List.replicate k 0 ++ [c]) =
        some ⟨divide 0x07#8 0xff#8 (messageBits (List.replicate (roundsInt (k + 1)) 0))⟩ := by
      intro c
      have hrounds : roundsInt (k + 1) ≤ k := Nat.le_of_lt_succ (roundsInt_lt H)
      rw [crc8ccitt, forInt_eq (by rw [hlast]; exact hsize), hlast,
        List.take_append_of_le_length (by rw [List.length_replicate]; exact hrounds),
        List.take_replicate, min_eq_left hrounds, foldlM_crc8Table]
      rfl
    by_contra hnone
    simp only [not_exists, not_and, not_not] at hnone
    have hzero := hnone _ (hlast 0)
    have hone := hnone _ (hlast 1)
    rw [hleft, ← hleft 1, hone, messageBits_append, messageBits_append, divide_append,
      divide_append] at hzero
    have hsame := congrArg UInt8.toBitVec (Option.some.inj hzero)
    -- a one in the last byte makes a difference
    have hbit : divide 0x07#8 0#8 (bitsOf 1) ≠ 0#8 := by decide
    have hone : ∀ crc : BitVec 8, divide 0x07#8 crc (messageBits [1]) =
        divide 0x07#8 crc (messageBits [0]) ^^^ divide 0x07#8 0#8 (bitsOf 1) :=
      fun crc => divide_bitsOf_xor crc 0 1
    rw [hone] at hsame
    exact hbit ((BitVec.xor_right_inj _).mp (hsame.trans BitVec.xor_zero.symm))
  · refine ⟨List.replicate n 0, List.length_replicate, ?_⟩
    rw [crc8ccitt, forInt_eq_none (by rw [List.length_replicate]; exact hsize)]
    exact Option.some_ne_none _ |>.symm

/-- **The checksums of all strings of a length are divisions** exactly if the length is in the
range of the counter. -/
theorem divided_iff (n : ℕ) : Divided n ↔ n ≤ 2 ^ 31 := by
  constructor
  · intro hdivided
    by_contra hgt
    obtain ⟨buf, hlen, hne⟩ := exists_crc8ccitt_ne (not_le.mp hgt)
    exact hne (hdivided.crc8ccitt buf hlen)
  · intro hle
    exact ⟨fun s crc _ => crc16_eq s crc, fun buf hlen => crc8ccitt_eq (hlen ▸ hle),
      fun s t crc _ => crc16_append s t crc⟩

/-- If the last byte is left out, it can make a difference. -/
theorem crc8ccitt_ne_of_rounds {k : ℕ} (hsize : k + 2 < 2 ^ 64)
    (hrounds : roundsInt (k + 2) = k + 1) :
    crc8ccitt (0xff :: List.replicate k 0 ++ [1]) ≠
      some ⟨divide 0x07#8 0xff#8 (messageBits (0xff :: List.replicate k 0 ++ [1]))⟩ := by
  have hhead : (0xff :: List.replicate k 0 : List UInt8).length = k + 1 := by simp
  have hlen : (0xff :: List.replicate k 0 ++ [1] : List UInt8).length = k + 2 := by simp
  have hfirst : divide 0x07#8 (UInt8.toBitVec 0xff) (bitsOf 0xff) = 0#8 := by decide
  have hzero : divide 0x07#8 (UInt8.toBitVec 0xff) (messageBits (0xff :: List.replicate k 0)) =
      0#8 := by
    rw [messageBits_cons, divide_append, hfirst, divide_zeros]
  have hlast : divide 0x07#8 0#8 (messageBits [1]) ≠ 0#8 := by decide
  intro h
  rw [crc8ccitt, forInt_eq (by rw [hlen]; exact hsize), hlen, hrounds, List.take_left' hhead,
    foldlM_crc8Table, hzero, messageBits_append, divide_append] at h
  have hwhole : 0#8 = divide 0x07#8 (divide 0x07#8 (UInt8.toBitVec 0xff)
      (messageBits (0xff :: List.replicate k 0))) (messageBits [1]) :=
    congrArg UInt8.toBitVec (Option.some.inj h)
  rw [hzero] at hwhole
  exact hlast hwhole.symm

/-- Of a string one byte past the range of the counter the last byte is left out. -/
theorem not_crc8ccitt_past : ¬ crc8ccitt (0xff :: List.replicate (2 ^ 31 - 1) 0 ++ [1]) =
    some ⟨divide 0x07#8 0xff#8 (messageBits (0xff :: List.replicate (2 ^ 31 - 1) 0 ++ [1]))⟩ := by
  have hrounds : roundsInt (2 ^ 31 - 1 + 2) = 2 ^ 31 - 1 + 1 := by
    rw [roundsInt, if_neg (by decide), if_pos (by decide)]
    omega
  exact crc8ccitt_ne_of_rounds (by decide) hrounds

end Checksum
end MassGridMiner

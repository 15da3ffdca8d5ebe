import MassGridMiner.Lib.Word
import Mathlib.Data.Nat.Nth
import Mathlib.Data.Nat.Prime.Defs

/-!
# SHA-256

The secure hash algorithm of FIPS 180-4 with a digest of 256 bits, on messages of whole bytes.  A
message is padded to blocks of sixteen words, and each block is folded into eight words by steps
with a constant and a word of the schedule each.

## Main definitions

* `Fips180.K`, `Fips180.H0` — the constants, from the roots of the first primes.
* `Fips180.pad`, `Fips180.block` — the padded message and its blocks.
* `Fips180.compress` — what is done with a block.
* `Fips180.digest` — the digest.
* `Fips180.hashBlocks_append_block` — one block more.
* `Fips180.absorb`, `Fips180.absorb_append` — several blocks more, from any hash value on.
* `Fips180.beWords`, `Fips180.word_beWords` — the bytes of words, and the words of these bytes.
-/

namespace Fips180

/-! ## Functions of words -/

/-- `ROTR`. -/
def ROTR (n : ℕ) (x : UInt32) : UInt32 := ⟨x.toBitVec.rotateRight n⟩

/-- `SHR`. -/
def SHR (n : ℕ) (x : UInt32) : UInt32 := ⟨x.toBitVec >>> n⟩

def Ch (x y z : UInt32) : UInt32 := (x &&& y) ^^^ (~~~x &&& z)
def Maj (x y z : UInt32) : UInt32 := (x &&& y) ^^^ (x &&& z) ^^^ (y &&& z)
def bigSigma0 (x : UInt32) : UInt32 := ROTR 2 x ^^^ ROTR 13 x ^^^ ROTR 22 x
def bigSigma1 (x : UInt32) : UInt32 := ROTR 6 x ^^^ ROTR 11 x ^^^ ROTR 25 x
def sigma0 (x : UInt32) : UInt32 := ROTR 7 x ^^^ ROTR 18 x ^^^ SHR 3 x
def sigma1 (x : UInt32) : UInt32 := ROTR 17 x ^^^ ROTR 19 x ^^^ SHR 10 x

/-! ## Constants -/

/-- The integer part of the `n`-th root. -/
def root (n x : ℕ) : ℕ := Nat.findGreatest (fun r => r ^ n ≤ x) x

/-- The first thirty-two bits of the fractional part of the `n`-th root. -/
def fraction (n p : ℕ) : UInt32 := .ofNat (root n (p * 2 ^ (32 * n)))

/-- The constants of the steps are from the cube roots of the first sixty-four primes. -/
noncomputable def K (t : ℕ) : UInt32 := fraction 3 (Nat.nth Nat.Prime t)

/-- The eight words that are hashed, and the working variables of the steps. -/
structure Hash where
  (a b c d e f g h : UInt32)

/-- The initial hash value is from the square roots of the first eight primes. -/
noncomputable def H0 : Hash :=
  let H i := fraction 2 (Nat.nth Nat.Prime i)
  ⟨H 0, H 1, H 2, H 3, H 4, H 5, H 6, H 7⟩

theorem root_eq {n x r : ℕ} (hn : n ≠ 0) (hle : r ^ n ≤ x) (hlt : x < (r + 1) ^ n) :
    root n x = r := by
  refine Nat.findGreatest_eq_iff.mpr ⟨(Nat.le_self_pow hn r).trans hle, fun _ => hle, ?_⟩
  intro s hr hs hle'
  exact absurd ((Nat.pow_le_pow_left (Nat.succ_le_of_lt hr) n).trans hle') (Nat.not_le.mpr hlt)

/-- The fractional part of a root, by its integer part. -/
theorem fraction_eq {n p q : ℕ} {c : UInt32} (hn : n ≠ 0)
    (hle : (q * 2 ^ 32 + c.toNat) ^ n ≤ p * 2 ^ (32 * n))
    (hlt : p * 2 ^ (32 * n) < (q * 2 ^ 32 + c.toNat + 1) ^ n) : fraction n p = c := by
  rw [fraction, root_eq hn hle hlt, ← UInt32.toNat_inj, UInt32.toNat_ofNat']
  have hc := c.toNat_lt
  omega

/-! ## The message -/

/-- A number of 64 bits, most significant byte first. -/
def be64 (n : ℕ) : List UInt8 := (List.range 8).map fun i => .ofNat (n >>> (8 * (7 - i)))

/-- The least number of zero bytes that the padding can have. -/
def zeros (len : ℕ) : ℕ := (119 - len % 64) % 64

/-- A bit, zeros and the length in bits behind a message. -/
def pad (message : List UInt8) : List UInt8 :=
  message ++ 0x80 :: List.replicate (zeros message.length) 0 ++ be64 (8 * message.length)

/-- A block of sixteen words. -/
def block (padded : List UInt8) (i : ℕ) : List UInt8 := (padded.drop (64 * i)).take 64

/-- A word of a block, most significant byte first. -/
def word (block : List UInt8) (t : ℕ) : UInt32 :=
  let byte i := (block[i]?.getD 0).toNat
  .ofNat (byte (4 * t) * 2 ^ 24 + byte (4 * t + 1) * 2 ^ 16 + byte (4 * t + 2) * 2 ^ 8 +
    byte (4 * t + 3))

/-! ## The hash -/

/-- The message schedule. -/
def schedule (M : ℕ → UInt32) (t : ℕ) : UInt32 :=
  if t < 16 then M t
  else
    sigma1 (schedule M (t - 2)) + schedule M (t - 7) + sigma0 (schedule M (t - 15)) +
      schedule M (t - 16)
termination_by t

/-- A step with a word of the schedule. -/
noncomputable def step (W : ℕ → UInt32) (v : Hash) (t : ℕ) : Hash :=
  let T1 := v.h + bigSigma1 v.e + Ch v.e v.f v.g + K t + W t
  let T2 := bigSigma0 v.a + Maj v.a v.b v.c
  ⟨T1 + T2, v.a, v.b, v.c, v.d + T1, v.e, v.f, v.g⟩

/-- The hash value after a block. -/
noncomputable def compress (H : Hash) (block : List UInt8) : Hash :=
  let v := (List.range 64).foldl (step (schedule (word block))) H
  ⟨v.a + H.a, v.b + H.b, v.c + H.c, v.d + H.d, v.e + H.e, v.f + H.f, v.g + H.g, v.h + H.h⟩

/-- The hash value after all whole blocks. -/
noncomputable def hashBlocks (padded : List UInt8) : Hash :=
  (List.range (padded.length / 64)).foldl (fun H i => compress H (block padded i)) H0

/-- The bytes of a hash value. -/
def Hash.bytes (H : Hash) : List UInt8 :=
  [H.a, H.b, H.c, H.d, H.e, H.f, H.g, H.h].flatMap be32

/-- The digest of a message. -/
noncomputable def digest (message : List UInt8) : List UInt8 := (hashBlocks (pad message)).bytes

theorem length_be64 (n : ℕ) : (be64 n).length = 8 := by simp [be64]

/-- A word is known from its bytes. -/
theorem be32_injective : Function.Injective be32 := by
  intro x y hxy
  simp only [be32, List.cons.injEq, and_true, ← UInt8.toNat_inj, UInt32.toNat_toUInt8,
    UInt32.toNat_shiftRight, UInt32.reduceToNat, Nat.reduceMod, Nat.shiftRight_eq_div_pow] at hxy
  have hx := x.toNat_lt
  have hy := y.toNat_lt
  rw [← UInt32.toNat_inj]
  omega

/-- A hash value is known from its bytes. -/
theorem Hash.bytes_injective : Function.Injective Hash.bytes := by
  rintro ⟨a, b, c, d, e, f, g, h⟩ ⟨a', b', c', d', e', f', g', h'⟩ H
  simp only [Hash.bytes, List.flatMap_cons, List.flatMap_nil, List.append_nil] at H
  obtain ⟨ha, H⟩ := List.append_inj H rfl
  obtain ⟨hb, H⟩ := List.append_inj H rfl
  obtain ⟨hc, H⟩ := List.append_inj H rfl
  obtain ⟨hd, H⟩ := List.append_inj H rfl
  obtain ⟨he, H⟩ := List.append_inj H rfl
  obtain ⟨hf, H⟩ := List.append_inj H rfl
  obtain ⟨hg, hh⟩ := List.append_inj H rfl
  simp only [Hash.mk.injEq]
  exact ⟨be32_injective ha, be32_injective hb, be32_injective hc, be32_injective hd,
    be32_injective he, be32_injective hf, be32_injective hg, be32_injective hh⟩

/-- So many zeros are the least that leave eight bytes of a block for the length. -/
theorem zeros_spec (len : ℕ) :
    (len + 1 + zeros len) % 64 = 56 ∧ ∀ z, (len + 1 + z) % 64 = 56 → zeros len ≤ z := by
  refine ⟨?_, fun z hz => ?_⟩ <;> rw [zeros] <;> omega

theorem schedule_of_lt {M : ℕ → UInt32} {t : ℕ} (H : t < 16) : schedule M t = M t := by
  rw [schedule, if_pos H]

theorem schedule_add (M : ℕ → UInt32) (t : ℕ) :
    schedule M (t + 16) = sigma1 (schedule M (t + 14)) + schedule M (t + 9) +
      sigma0 (schedule M (t + 1)) + schedule M t := by
  rw [schedule, if_neg (by omega)]
  rfl

/-- Behind the whole blocks, more of a message makes no difference to them. -/
theorem block_append {msg : List UInt8} {i : ℕ} (H : i < msg.length / 64) (rest : List UInt8) :
    block (msg ++ rest) i = block msg i := by
  have hle : 64 * i + 64 ≤ msg.length := by omega
  rw [block, block, List.drop_append_of_le_length (by omega),
    List.take_append_of_le_length (by rw [List.length_drop]; omega)]

theorem foldl_block_append (msg rest : List UInt8) (H : Hash) :
    (List.range (msg.length / 64)).foldl (fun H i => compress H (block (msg ++ rest) i)) H =
      (List.range (msg.length / 64)).foldl (fun H i => compress H (block msg i)) H := by
  refine List.foldl_ext _ _ _ fun H i hi => ?_
  rw [block_append (List.mem_range.mp hi)]

/-- What is no whole block does not change the hash value. -/
theorem hashBlocks_append {msg rest : List UInt8}
    (H : (msg ++ rest).length / 64 = msg.length / 64) :
    hashBlocks (msg ++ rest) = hashBlocks msg := by
  rw [hashBlocks, H, foldl_block_append, ← hashBlocks]

/-- **One block more** is folded into the hash value. -/
theorem hashBlocks_append_block {msg rest : List UInt8}
    (H : (msg ++ rest).length / 64 = msg.length / 64 + 1) :
    hashBlocks (msg ++ rest) =
      compress (hashBlocks msg) (block (msg ++ rest) (msg.length / 64)) := by
  rw [hashBlocks, H, List.range_succ, List.foldl_append, foldl_block_append, ← hashBlocks]
  rfl

/-! ## From any hash value on -/

/-- The hash value after the whole blocks of some bytes, from any hash value on. -/
noncomputable def absorb (H : Hash) (bytes : List UInt8) : Hash :=
  (List.range (bytes.length / 64)).foldl (fun H i => compress H (block bytes i)) H

theorem hashBlocks_eq_absorb (bytes : List UInt8) : hashBlocks bytes = absorb H0 bytes := rfl

/-- Fewer bytes than a block has change nothing. -/
theorem absorb_of_lt {bytes : List UInt8} (h : bytes.length < 64) (H : Hash) :
    absorb H bytes = H := by
  rw [absorb, Nat.div_eq_of_lt h]
  rfl

/-- One block. -/
theorem absorb_block {bytes : List UInt8} (h : bytes.length = 64) (H : Hash) :
    absorb H bytes = compress H bytes := by
  rw [absorb, h]
  simp [block, List.take_of_length_le h.le]

/-- Whole blocks, and what comes behind them. -/
theorem absorb_append {front : List UInt8} (h : 64 ∣ front.length) (H : Hash)
    (rest : List UInt8) : absorb H (front ++ rest) = absorb (absorb H front) rest := by
  obtain ⟨n, hn⟩ := h
  have hfront : front.length / 64 = n := by omega
  have hall : (front ++ rest).length / 64 = n + rest.length / 64 := by
    rw [List.length_append]
    omega
  have hblock : ∀ i, block (front ++ rest) (n + i) = block rest i := fun i => by
    rw [block, block, show 64 * (n + i) = front.length + 64 * i by omega, List.drop_append,
      List.drop_of_length_le (Nat.le_add_right _ _), List.nil_append, Nat.add_sub_cancel_left]
  rw [absorb, hall, List.range_add, List.foldl_append, ← hfront, foldl_block_append, hfront,
    List.foldl_map, absorb, absorb, hfront]
  simp only [hblock]

/-- Bytes that make no whole block together with others do not matter. -/
theorem absorb_append_of_lt {front rest : List UInt8} (h : 64 ∣ front.length)
    (hlt : rest.length < 64) (H : Hash) : absorb H (front ++ rest) = absorb H front := by
  rw [absorb_append h, absorb_of_lt hlt]

/-! ## Bytes made of words -/

/-- The bytes of the first `n` words. -/
def beWords (w : ℕ → UInt32) (n : ℕ) : List UInt8 := (List.range n).flatMap fun i => be32 (w i)

theorem beWords_succ (w : ℕ → UInt32) (n : ℕ) : beWords w (n + 1) = beWords w n ++ be32 (w n) := by
  simp [beWords, List.range_succ]

theorem length_beWords (w : ℕ → UInt32) (n : ℕ) : (beWords w n).length = 4 * n := by
  induction n with
  | zero => rfl
  | succ n ih =>
    rw [beWords_succ, List.length_append, ih]
    rfl

theorem beWords_add (w : ℕ → UInt32) (n m : ℕ) :
    beWords w (n + m) = beWords w n ++ beWords (fun i => w (n + i)) m := by
  induction m with
  | zero => exact (List.append_nil _).symm
  | succ m ih => rw [← Nat.add_assoc, beWords_succ, beWords_succ, ih, List.append_assoc]

theorem beWords_congr {w w' : ℕ → UInt32} {n : ℕ} (h : ∀ i < n, w i = w' i) :
    beWords w n = beWords w' n := by
  induction n with
  | zero => rfl
  | succ n ih => rw [beWords_succ, beWords_succ, ih fun i hi => h i (by omega), h n (by omega)]

/-- The bytes of a word make it up. -/
theorem be32_word (x : UInt32) : UInt32.ofNat ((x >>> 24).toUInt8.toNat * 2 ^ 24 +
    (x >>> 16).toUInt8.toNat * 2 ^ 16 + (x >>> 8).toUInt8.toNat * 2 ^ 8 + x.toUInt8.toNat) = x := by
  have hx := x.toNat_lt
  rw [← UInt32.toNat_inj]
  simp [UInt32.toNat_shiftRight, Nat.shiftRight_eq_div_pow]
  omega

/-- The words of bytes made of words. -/
theorem word_beWords (w : ℕ → UInt32) {n t : ℕ} (h : t < n) : word (beWords w n) t = w t := by
  obtain ⟨m, rfl⟩ : ∃ m, n = t + (1 + m) := ⟨n - t - 1, by omega⟩
  have hbyte : ∀ i : ℕ, (beWords w (t + (1 + m)))[4 * t + i]? =
      (be32 (w t) ++ beWords (fun i => w (t + (1 + i))) m)[i]? := fun i => by
    rw [beWords_add, List.getElem?_append_right (by rw [length_beWords]; omega), length_beWords,
      Nat.add_sub_cancel_left, beWords_add]
    rfl
  have hzero := hbyte 0
  rw [Nat.add_zero] at hzero
  simp only [word, hzero, hbyte]
  exact be32_word (w t)

end Fips180

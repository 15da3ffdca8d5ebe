import MassGridMiner.Crypto.Sha256Digest
import MassGridMiner.Lib.Sha256

/-!
# The chunks of the digest

The tables, the macros and `processChunk` of `crypto/SHA256Digest.c` are the constants, the
functions and the step with a block of FIPS 180-4.

## Main definitions

* `hashOf` — the hash words of a context, as the hash value of the standard.
* `k_eq`, `hashOf_h` — the tables.
* `hashOf_processChunk` — a chunk.
-/

namespace MassGridMiner
namespace Sha256

open Fips180 (ROTR SHR Hash word)

/-! ## Functions and constants -/

theorem rotr_eq (x : UInt32) {n : ℕ} (hpos : 0 < n) (hlt : n < 32) :
    rotr x (.ofNat n) = ROTR n x := by
  have hright : ((UInt32.ofNat n).toBitVec % 32).toNat = n % 32 := by
    simp [BitVec.toNat_umod]
  have hleft : ((32 - UInt32.ofNat n).toBitVec % 32).toNat = 32 - n % 32 := by
    simp [BitVec.toNat_umod]
    omega
  apply UInt32.toBitVec_inj.mp
  rw [rotr, ROTR, BitVec.rotateRight_def, UInt32.toBitVec_or, UInt32.toBitVec_shiftRight,
    UInt32.toBitVec_shiftLeft, BitVec.ushiftRight_eq', BitVec.shiftLeft_eq', hright, hleft]

theorem shr_eq (x : UInt32) {n : ℕ} (hlt : n < 32) : x >>> .ofNat n = SHR n x := by
  have hright : ((UInt32.ofNat n).toBitVec % 32).toNat = n := by
    simp [BitVec.toNat_umod]
    omega
  apply UInt32.toBitVec_inj.mp
  rw [SHR, UInt32.toBitVec_shiftRight, BitVec.ushiftRight_eq', hright]

theorem ep0_eq (x : UInt32) : ep0 x = Fips180.bigSigma0 x := by
  rw [Fips180.bigSigma0, ← rotr_eq x (by decide) (by decide), ← rotr_eq x (by decide) (by decide),
    ← rotr_eq x (by decide) (by decide)]
  rfl

theorem ep1_eq (x : UInt32) : ep1 x = Fips180.bigSigma1 x := by
  rw [Fips180.bigSigma1, ← rotr_eq x (by decide) (by decide), ← rotr_eq x (by decide) (by decide),
    ← rotr_eq x (by decide) (by decide)]
  rfl

theorem sig0_eq (x : UInt32) : sig0 x = Fips180.sigma0 x := by
  rw [Fips180.sigma0, ← rotr_eq x (by decide) (by decide), ← rotr_eq x (by decide) (by decide),
    ← shr_eq x (by decide)]
  rfl

theorem sig1_eq (x : UInt32) : sig1 x = Fips180.sigma1 x := by
  rw [Fips180.sigma1, ← rotr_eq x (by decide) (by decide), ← rotr_eq x (by decide) (by decide),
    ← shr_eq x (by decide)]
  rfl

/-- The first sixty-four primes. -/
def primes : Vector ℕ 64 := #v[
  2, 3, 5, 7, 11, 13, 17, 19, 23, 29, 31, 37, 41, 43, 47, 53, 59, 61, 67, 71, 73, 79, 83, 89, 97,
  101, 103, 107, 109, 113, 127, 131, 137, 139, 149, 151, 157, 163, 167, 173, 179, 181, 191, 193,
  197, 199, 211, 223, 227, 229, 233, 239, 241, 251, 257, 263, 269, 271, 277, 281, 283, 293, 307,
  311]

theorem nth_prime (t : Fin 64) : Nat.nth Nat.Prime t = primes[t.val]! := by
  have hall : ∀ t : Fin 64, Nat.count Nat.Prime primes[t.val]! = t ∧
      Nat.Prime primes[t.val]! := by
    decide +kernel
  obtain ⟨hcount, hprime⟩ := hall t
  rw [← Nat.nth_count hprime, hcount]

/-- The constants are from the cube roots of the primes. -/
theorem k_root (t : Fin 64) : Fips180.fraction 3 primes[t.val]! = k[t.val]! := by
  have hall : ∀ t : Fin 64, ∃ q < 8,
      (q * 2 ^ 32 + k[t.val]!.toNat) ^ 3 ≤ primes[t.val]! * 2 ^ (32 * 3) ∧
        primes[t.val]! * 2 ^ (32 * 3) < (q * 2 ^ 32 + k[t.val]!.toNat + 1) ^ 3 := by
    decide +kernel
  obtain ⟨q, -, hle, hlt⟩ := hall t
  exact Fips180.fraction_eq (by decide) hle hlt

/-- The initial hash words are from the square roots of the primes. -/
theorem h_root (i : Fin 8) : Fips180.fraction 2 primes[i.val]! = h[i.val]! := by
  have hall : ∀ i : Fin 8, ∃ q < 5,
      (q * 2 ^ 32 + h[i.val]!.toNat) ^ 2 ≤ primes[i.val]! * 2 ^ (32 * 2) ∧
        primes[i.val]! * 2 ^ (32 * 2) < (q * 2 ^ 32 + h[i.val]!.toNat + 1) ^ 2 := by
    decide +kernel
  obtain ⟨q, -, hle, hlt⟩ := hall i
  exact Fips180.fraction_eq (by decide) hle hlt

theorem k_eq {t : ℕ} (H : t < 64) : k[t]! = Fips180.K t := by
  rw [Fips180.K, nth_prime ⟨t, H⟩]
  exact (k_root ⟨t, H⟩).symm

/-- The hash words of a context. -/
def hashOf (hash : Vector UInt32 8) : Hash :=
  ⟨hash[0]!, hash[1]!, hash[2]!, hash[3]!, hash[4]!, hash[5]!, hash[6]!, hash[7]!⟩

theorem hashOf_h : hashOf h = Fips180.H0 := by
  have hroot : ∀ i : Fin 8, h[i.val]! = Fips180.fraction 2 (Nat.nth Nat.Prime i) := fun i => by
    rw [nth_prime ⟨i, by omega⟩]
    exact (h_root i).symm
  rw [hashOf, Fips180.H0]
  simp only [Hash.mk.injEq]
  exact ⟨hroot 0, hroot 1, hroot 2, hroot 3, hroot 4, hroot 5, hroot 6, hroot 7⟩

/-! ## The chunk -/

theorem or_of_lt {x y n : ℕ} (H : y < 2 ^ n) : x * 2 ^ n ||| y = x * 2 ^ n + y := by
  rw [Nat.mul_comm, Nat.two_pow_add_eq_or_of_lt H]

/-- The bytes of a word are put together. -/
theorem or_shiftLeft_eq (a b c d : UInt8) :
    (a.toUInt32 <<< 24) ||| (b.toUInt32 <<< 16) ||| (c.toUInt32 <<< 8) ||| d.toUInt32 =
      .ofNat (a.toNat * 2 ^ 24 + b.toNat * 2 ^ 16 + c.toNat * 2 ^ 8 + d.toNat) := by
  have ha := a.toNat_lt
  have hb := b.toNat_lt
  have hc := c.toNat_lt
  have hd := d.toNat_lt
  have h2 : a.toNat * 2 ^ 24 ||| b.toNat * 2 ^ 16 = (a.toNat * 2 ^ 8 + b.toNat) * 2 ^ 16 := by
    rw [or_of_lt (by omega)]
    omega
  have h1 : (a.toNat * 2 ^ 8 + b.toNat) * 2 ^ 16 ||| c.toNat * 2 ^ 8 =
      ((a.toNat * 2 ^ 8 + b.toNat) * 2 ^ 8 + c.toNat) * 2 ^ 8 := by
    rw [or_of_lt (by omega)]
    omega
  rw [← UInt32.toNat_inj]
  simp only [UInt32.toNat_or, UInt32.toNat_shiftLeft, UInt8.toNat_toUInt32, UInt32.reduceToNat,
    Nat.reduceMod, Nat.shiftLeft_eq, UInt32.toNat_ofNat']
  rw [Nat.mod_eq_of_lt (by omega), Nat.mod_eq_of_lt (by omega), Nat.mod_eq_of_lt (by omega), h2, h1,
    or_of_lt (by omega)]
  omega

/-- The first words of the schedule, before the others are there. -/
def chunkWords (data : Bytes 64) : Vector UInt32 64 :=
  Vector.ofFn fun i =>
    if i.val < 16 then
      (data[4 * i.val]!.toUInt32 <<< 24) ||| (data[4 * i.val + 1]!.toUInt32 <<< 16) |||
        (data[4 * i.val + 2]!.toUInt32 <<< 8) ||| data[4 * i.val + 3]!.toUInt32
    else 0

/-- One more word of the schedule. -/
def expand (w : Vector UInt32 64) (i : ℕ) : Vector UInt32 64 :=
  w.set! i (w[i - 16]! + sig0 w[i - 15]! + w[i - 7]! + sig1 w[i - 2]!)

theorem schedule_eq_foldl (data : Bytes 64) :
    schedule data = (List.range' 16 48).foldl expand (chunkWords data) := rfl

theorem getElem_chunkWords (data : Bytes 64) {t : ℕ} (H : t < 16) :
    (chunkWords data)[t]! = word data.toList t := by
  have hbyte : ∀ i (hi : i < 64), data[i]! = data.toList[i]?.getD 0 := fun i hi => by
    rw [getElem!_pos data i hi]
    simp [hi]
  have hlt : t < 64 := by omega
  rw [getElem!_pos _ t hlt, chunkWords, Vector.getElem_ofFn, if_pos H]
  dsimp only
  rw [or_shiftLeft_eq, hbyte _ (by omega), hbyte _ (by omega), hbyte _ (by omega),
    hbyte _ (by omega), word]

/-- The words of the schedule so far are those of the standard. -/
theorem getElem_foldl_expand (data : Bytes 64) {n : ℕ} (hn : n ≤ 48) {t : ℕ} (ht : t < 16 + n) :
    ((List.range' 16 n).foldl expand (chunkWords data))[t]! =
      Fips180.schedule (word data.toList) t := by
  induction n generalizing t with
  | zero => rw [Fips180.schedule_of_lt ht, ← getElem_chunkWords data ht, List.range'_zero,
      List.foldl_nil]
  | succ n ih =>
    have hprev : ∀ s < 16 + n, ((List.range' 16 n).foldl expand (chunkWords data))[s]! =
        Fips180.schedule (word data.toList) s := fun s hs => ih (by omega) hs
    rw [List.range'_concat, List.foldl_append, Nat.one_mul, List.foldl_cons, List.foldl_nil, expand,
      getElem!_pos _ t (by omega), Vector.getElem_set!]
    split
    next heq =>
      obtain rfl : t = n + 16 := by omega
      have h2 : 16 + n - 2 = n + 14 := by omega
      have h7 : 16 + n - 7 = n + 9 := by omega
      have h15 : 16 + n - 15 = n + 1 := by omega
      rw [Nat.add_sub_cancel_left, h2, h7, h15, hprev _ (by omega), hprev _ (by omega),
        hprev _ (by omega), hprev _ (by omega), Fips180.schedule_add, sig0_eq, sig1_eq]
      ac_rfl
    next hne =>
      rw [← hprev t (by omega), getElem!_pos _ t (by omega)]

theorem schedule_eq (data : Bytes 64) {t : ℕ} (H : t < 64) :
    (schedule data)[t]! = Fips180.schedule (word data.toList) t := by
  rw [schedule_eq_foldl]
  exact getElem_foldl_expand data le_rfl H

/-- The working variables, as those of the standard. -/
def Vars.hash (s : Vars) : Hash := ⟨s.a, s.b, s.c, s.d, s.e, s.f, s.g, s.h⟩

/-- A round is a step. -/
theorem round_eq {w : Vector UInt32 64} {W : ℕ → UInt32} {t : ℕ} (ht : t < 64)
    (hw : w[t]! = W t) (s : Vars) : (round w s t).hash = Fips180.step W s.hash t := by
  simp only [round, Vars.hash, Fips180.step, ← hw, ← k_eq ht, ← ep0_eq, ← ep1_eq]
  rfl

theorem foldl_round_eq {w : Vector UInt32 64} {W : ℕ → UInt32} (hw : ∀ t < 64, w[t]! = W t)
    (s : Vars) {n : ℕ} (hn : n ≤ 64) :
    ((List.range n).foldl (round w) s).hash = (List.range n).foldl (Fips180.step W) s.hash := by
  induction n with
  | zero => rfl
  | succ n ih =>
    rw [List.range_succ, List.foldl_append, List.foldl_append, List.foldl_cons, List.foldl_nil,
      round_eq (by omega) (hw n (by omega)), ih (by omega)]
    rfl

/-- **A chunk** is folded into the hash words as the standard says. -/
theorem hashOf_processChunk (ctx : Sha256Ctx) :
    hashOf (processChunk ctx).hash = Fips180.compress (hashOf ctx.hash) ctx.data.toList := by
  have hrun : ((List.range 64).foldl (round (schedule ctx.data))
      ⟨ctx.hash[0], ctx.hash[1], ctx.hash[2], ctx.hash[3], ctx.hash[4], ctx.hash[5], ctx.hash[6],
        ctx.hash[7]⟩).hash =
      (List.range 64).foldl (Fips180.step (Fips180.schedule (word ctx.data.toList)))
        (hashOf ctx.hash) :=
    foldl_round_eq (fun t ht => schedule_eq ctx.data ht) _ le_rfl
  rw [Fips180.compress, ← hrun]
  simp only [processChunk, hashOf, Vars.hash, Hash.mk.injEq]
  exact ⟨UInt32.add_comm .., UInt32.add_comm .., UInt32.add_comm .., UInt32.add_comm ..,
    UInt32.add_comm .., UInt32.add_comm .., UInt32.add_comm .., UInt32.add_comm ..⟩

end Sha256
end MassGridMiner

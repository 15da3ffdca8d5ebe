import MassGridMiner.Lib.Word

/-!
# Works, and the 256-bit target test

A work is the header to hash together with what the tests on it read and write.
`hash_target_check` compares two 256-bit little-endian numbers word by word;
`hashTargetCheck_eq` says so.

## Main definitions

* `Work` — the fields of `struct work` that the hash tests and the scan use.
* `Pool` — the fields of `struct pool` that the hash tests use.
* `MiningAlgorithm` — the algorithm record.
* `hashTargetCheck` — the code's comparison, `Hash.toNat` the number compared.
-/

namespace MassGridMiner

/-- A 32-byte hash or target. -/
abbrev Hash := Bytes 32

/-- The number a hash or a target spells, least significant byte first. -/
def Hash.toNat (h : Hash) : ℕ := h.lowWords 8

/-- `enum bfg_tristate`. -/
inductive BfgTristate
  | no
  | yes
  | unknown
  deriving DecidableEq, Repr

/-- The part of `struct pool` that decides whether a share meets its target. -/
structure Pool where
  poolDiffEffectiveRetroactively : BfgTristate
  stratumActive : Bool
  nextTarget : Hash
  deriving DecidableEq

/-- The part of `struct work` that the hash tests and the scan read and write.
`hashbase` is without its terminating NUL. -/
structure Work where
  data : Bytes 128
  target : Hash
  hash : Hash
  hashbase : Bytes 64
  hashid : Fin 19
  blkNonce : UInt32
  workDifficulty : Float
  nonceDiff : Float
  pool : Pool
  deriving DecidableEq

/-- The part of `struct mining_algorithm` used here.  `hashDataF` takes the bytes that
its output buffer held to the bytes it holds afterwards. -/
structure MiningAlgorithm where
  name : String
  aliases : String
  hashDataF : Hash → Bytes 128 → Hash

/-- The loop of `hash_target_check` over the words below `i`, from the top. -/
def hashTargetLoop (hash target : Hash) : ℕ → Bool
  | 0 => true
  | i + 1 =>
    if hash.word32 i > target.word32 i then false
    else if hash.word32 i < target.word32 i then true
    else hashTargetLoop hash target i

/-- `hash_target_check`. -/
def hashTargetCheck (hash target : Hash) : Bool := hashTargetLoop hash target 8

theorem hashTargetLoop_eq (hash target : Hash) (i : ℕ) :
    hashTargetLoop hash target i = decide (hash.lowWords i ≤ target.lowWords i) := by
  induction i with
  | zero => simp [hashTargetLoop]
  | succ i ih =>
      have hstep : hash.lowWords (i + 1) ≤ target.lowWords (i + 1) ↔
          hash.word32 i < target.word32 i ∨
            hash.word32 i = target.word32 i ∧ hash.lowWords i ≤ target.lowWords i :=
        Bytes.add_mul_le_add_mul_iff (hash.lowWords_lt i) (target.lowWords_lt i)
      simp only [hashTargetLoop, ih, hstep]
      split_ifs with hgt hlt
      · simp; omega
      · simp [hlt]
      · have heq : hash.word32 i = target.word32 i := by omega
        simp [heq]

/-- **The code's comparison is that of the two numbers.** -/
theorem hashTargetCheck_eq (hash target : Hash) :
    hashTargetCheck hash target = decide (hash.toNat ≤ target.toNat) :=
  hashTargetLoop_eq hash target 8

theorem hashTargetCheck_iff (hash target : Hash) :
    hashTargetCheck hash target = true ↔ hash.toNat ≤ target.toNat := by
  rw [hashTargetCheck_eq, decide_eq_true_iff]

namespace Hash

/-- The hash of 32 zero bytes. -/
def zero : Hash := Vector.replicate 32 0

/-- The hash of 32 bytes `0xff`. -/
def ones : Hash := Vector.replicate 32 0xff

@[simp] theorem toNat_zero : zero.toNat = 0 := by decide +kernel

@[simp] theorem toNat_ones : ones.toNat = 2 ^ 256 - 1 := by decide +kernel

theorem toNat_le (h : Hash) : h.toNat ≤ 2 ^ 256 - 1 := by
  have := h.lowWords_lt 8
  rw [toNat]
  omega

/-- The upper 64 bits, where they differ, decide a comparison. -/
theorem toNat_le_iff_of_ne {h t : Hash} (hne : h.word64 3 ≠ t.word64 3) :
    h.toNat ≤ t.toNat ↔ h.word64 3 < t.word64 3 := by
  simp only [toNat]
  rw [h.lowWords_eight, t.lowWords_eight,
    Bytes.add_mul_le_add_mul_iff (h.lowWords_lt 6) (t.lowWords_lt 6)]
  simp [hne]

end Hash

/-- The work of a pool with every other field zero. -/
def Work.zero (pool : Pool) : Work where
  data := Vector.replicate 128 0
  target := Hash.zero
  hash := Hash.zero
  hashbase := Vector.replicate 64 0
  hashid := 0
  blkNonce := 0
  workDifficulty := 0
  nonceDiff := 0
  pool := pool

end MassGridMiner

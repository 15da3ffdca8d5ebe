import MassGridMiner.Crypto.Sha256Digest
import MassGridMiner.Work

/-!
# JumpHash, and its check on the host

The header without its nonce is hashed once with SHA-256; the digest in upper-case
hexadecimal, with the nonce placed in its last word, goes through one of nineteen
512-bit hash functions, chosen by two bytes of the header, and the result through
SHA-256 again.  The nineteen functions are a parameter: both host and device call
them by name.

## Main definitions

* `Algorithm`, `jump` — the inner functions, and the host's table of them.
* `hashId`, `hashBase`, `placeNonce` — the choice, the text and the nonce.
* `jumpHash` — the resulting hash of a header with a nonce.
* `jumphashCheck` — `jumphash_check` of `findnonce.c`.
-/

namespace MassGridMiner

/-- The inner hash functions, by the names of their source files. -/
inductive Algorithm
  | blake | bmw | groestl | skein | jh | keccak | luffa | cubehash | shavite | simd
  | echo | hamsi | fugue | shabal | sha2big | haval | panama | blake256 | skein256
  deriving DecidableEq, Repr

/-- What the inner functions compute, each on one 64-byte block. -/
abbrev Inner := Algorithm → Bytes 64 → Bytes 64

/-- The table `jump` of `findnonce.c`. -/
def jump : Vector Algorithm 19 := #v[
  .blake, .bmw, .groestl, .skein,
  .jh, .keccak, .luffa, .cubehash,
  .shavite, .simd, .echo, .hamsi, .fugue,
  .shabal, .sha2big, .haval, .panama,
  .blake256, .skein256]

/-- `swap32yes`: the first `sz` words of `v`, each with its bytes reversed. -/
def swap32yes {n : ℕ} (v : Bytes n) (sz : ℕ) : List UInt8 :=
  (List.range (4 * sz)).map fun i => v[4 * (i / 4) + (3 - i % 4)]?.getD 0

def bswap32 (x : ℕ) : ℕ :=
  x / 2 ^ 24 % 2 ^ 8 + 2 ^ 8 * (x / 2 ^ 16 % 2 ^ 8) + 2 ^ 16 * (x / 2 ^ 8 % 2 ^ 8) +
    2 ^ 24 * (x % 2 ^ 8)

def bswap16 (x : ℕ) : ℕ := x / 2 ^ 8 % 2 ^ 8 + 2 ^ 8 * (x % 2 ^ 8)

/-- The `i`-th 16-bit word, least significant byte first. -/
def word16 {n : ℕ} (v : Bytes n) (i : ℕ) : ℕ := v.byte (2 * i) + 2 ^ 8 * v.byte (2 * i + 1)

/-- The index of the inner function: version 5 headers use the first thirteen, all
others every function but the one at index 12. -/
def hashId (data : Bytes 128) : Fin 19 :=
  if bswap32 (data.word32 0) = 5 then ⟨bswap16 (word16 data 3) % 13, by omega⟩
  else
    let id := bswap16 (word16 data 3) % 18
    if _h : id > 11 then ⟨id + 1, by omega⟩ else ⟨id, by omega⟩

/-- One digit of `Hex2Str`, which prints with `%02X`. -/
def hexDigit (d : UInt8) : UInt8 := if d < 10 then 0x30 + d else 0x37 + d

/-- `Hex2Str` of a digest, without the terminating NUL. -/
def hex2Str (src : Hash) : Bytes 64 :=
  Vector.ofFn fun i =>
    let b := src[i.val / 2]
    hexDigit (if i.val % 2 = 0 then b >>> 4 else b &&& 0xf)

/-- The text hashed for every nonce: the digest of the header's first 76 bytes. -/
def hashBase (data : Bytes 128) : Bytes 64 :=
  hex2Str (sha256ComputeDigest (swap32yes data (76 / 4)))

/-- Fold word 15 of the text into word 14, and put the nonce in its place. -/
def placeNonce (text : Bytes 64) (nonce : UInt32) : Bytes 64 :=
  Vector.ofFn fun i =>
    if i.val < 56 then text[i]
    else if i.val < 60 then text[i] ^^^ text[i.val + 4]!
    else (nonce >>> (8 * (i.val - 60)).toUInt32).toUInt8

section
variable (inner : Inner)

/-- The hash that `jumphash_check` computes for a header and a nonce. -/
def jumpHash (data : Bytes 128) (nonce : UInt32) : Hash :=
  sha256ComputeDigest (inner jump[hashId data] (placeNonce (hashBase data) nonce)).toList

/-- `jumphash_check`: leave the hash in the work, and compare its upper 64 bits with
the target's. -/
def jumphashCheck (work : Work) (nonce : UInt32) : Bool × Work :=
  let result := jumpHash inner work.data nonce
  (decide (result.word64 3 < work.target.word64 3), { work with hash := result })

theorem jumphashCheck_iff (work : Work) (nonce : UInt32) :
    (jumphashCheck inner work nonce).1 = true ↔
      (jumpHash inner work.data nonce).word64 3 < work.target.word64 3 := by
  simp [jumphashCheck]

end

/-- The upper 64 bits of the hash of a header of zeros, with nonce zero, when the inner
functions are the identity. -/
theorem word64_jumpHash_zeros :
    (jumpHash (fun _ block => block) (Vector.replicate 128 0) 0).word64 3 =
      0xde9b5fe5d7977139 := by
  decide +kernel

end MassGridMiner

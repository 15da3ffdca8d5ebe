import MassGridMiner.Lib.Word

/-!
# The SHA-256 digest of host and device

`crypto/SHA256Digest.c` on the host and `opencl/sha256d.cl` on the device are the same
code over the same context, with one difference: the device reads the running bit
count into a 32-bit variable before it adds to it.  The context functions take that
reading as a parameter, and `digest_device_eq` shows that it does not reach the
digest of a message hashed in one update.

## Main definitions

* `Sha256Ctx` — the context; the fill level is below the chunk size by its type.
* `sha256Initialize`, `sha256Update`, `sha256Finalize` — the streaming interface.
* `sha256ComputeDigest`, `sha256DeviceDigest` — one message, on host and on device.
-/

namespace MassGridMiner

/-- `SHA256_CTX`.  `dataLength` counts the bytes waiting in `data`. -/
structure Sha256Ctx where
  data : Bytes 64
  dataLength : Fin 64
  hash : Vector UInt32 8
  totalLength : UInt64

namespace Sha256

/-- The round constants `k`. -/
def k : Vector UInt32 64 := #v[
  0x428a2f98, 0x71374491, 0xb5c0fbcf, 0xe9b5dba5, 0x3956c25b, 0x59f111f1, 0x923f82a4, 0xab1c5ed5,
  0xd807aa98, 0x12835b01, 0x243185be, 0x550c7dc3, 0x72be5d74, 0x80deb1fe, 0x9bdc06a7, 0xc19bf174,
  0xe49b69c1, 0xefbe4786, 0x0fc19dc6, 0x240ca1cc, 0x2de92c6f, 0x4a7484aa, 0x5cb0a9dc, 0x76f988da,
  0x983e5152, 0xa831c66d, 0xb00327c8, 0xbf597fc7, 0xc6e00bf3, 0xd5a79147, 0x06ca6351, 0x14292967,
  0x27b70a85, 0x2e1b2138, 0x4d2c6dfc, 0x53380d13, 0x650a7354, 0x766a0abb, 0x81c2c92e, 0x92722c85,
  0xa2bfe8a1, 0xa81a664b, 0xc24b8b70, 0xc76c51a3, 0xd192e819, 0xd6990624, 0xf40e3585, 0x106aa070,
  0x19a4c116, 0x1e376c08, 0x2748774c, 0x34b0bcb5, 0x391c0cb3, 0x4ed8aa4a, 0x5b9cca4f, 0x682e6ff3,
  0x748f82ee, 0x78a5636f, 0x84c87814, 0x8cc70208, 0x90befffa, 0xa4506ceb, 0xbef9a3f7, 0xc67178f2]

/-- The initial hash values `h`. -/
def h : Vector UInt32 8 := #v[
  0x6a09e667, 0xbb67ae85, 0x3c6ef372, 0xa54ff53a, 0x510e527f, 0x9b05688c, 0x1f83d9ab, 0x5be0cd19]

def rotr (a b : UInt32) : UInt32 := (a >>> b) ||| (a <<< (32 - b))
def ch (x y z : UInt32) : UInt32 := (x &&& y) ^^^ (~~~x &&& z)
def maj (x y z : UInt32) : UInt32 := (x &&& y) ^^^ (x &&& z) ^^^ (y &&& z)
def ep0 (x : UInt32) : UInt32 := rotr x 2 ^^^ rotr x 13 ^^^ rotr x 22
def ep1 (x : UInt32) : UInt32 := rotr x 6 ^^^ rotr x 11 ^^^ rotr x 25
def sig0 (x : UInt32) : UInt32 := rotr x 7 ^^^ rotr x 18 ^^^ (x >>> 3)
def sig1 (x : UInt32) : UInt32 := rotr x 17 ^^^ rotr x 19 ^^^ (x >>> 10)

/-- The message schedule `w[0..63]` of a chunk. -/
def schedule (data : Bytes 64) : Vector UInt32 64 :=
  let w : Vector UInt32 64 := Vector.ofFn fun i =>
    if i.val < 16 then
      (data[4 * i.val]!.toUInt32 <<< 24) ||| (data[4 * i.val + 1]!.toUInt32 <<< 16) |||
        (data[4 * i.val + 2]!.toUInt32 <<< 8) ||| data[4 * i.val + 3]!.toUInt32
    else 0
  (List.range' 16 48).foldl
    (fun w i => w.set! i (w[i - 16]! + sig0 w[i - 15]! + w[i - 7]! + sig1 w[i - 2]!)) w

/-- The working variables `a`, …, `h` of `processChunk`. -/
structure Vars where
  (a b c d e f g h : UInt32)

/-- One of the 64 rounds. -/
def round (w : Vector UInt32 64) (s : Vars) (i : ℕ) : Vars :=
  let t1 := s.h + ep1 s.e + ch s.e s.f s.g + k[i]! + w[i]!
  let t2 := ep0 s.a + maj s.a s.b s.c
  { a := t1 + t2, b := s.a, c := s.b, d := s.c, e := s.d + t1, f := s.e, g := s.f, h := s.g }

/-- `processChunk`: fold the full chunk into the hash words. -/
def processChunk (ctx : Sha256Ctx) : Sha256Ctx :=
  let w := schedule ctx.data
  let s := (List.range 64).foldl (round w)
    ⟨ctx.hash[0], ctx.hash[1], ctx.hash[2], ctx.hash[3],
      ctx.hash[4], ctx.hash[5], ctx.hash[6], ctx.hash[7]⟩
  { ctx with
    hash := #v[ctx.hash[0] + s.a, ctx.hash[1] + s.b, ctx.hash[2] + s.c, ctx.hash[3] + s.d,
      ctx.hash[4] + s.e, ctx.hash[5] + s.f, ctx.hash[6] + s.g, ctx.hash[7] + s.h] }

/-- The body of the loop in `SHA256Update`: store one byte, and process the chunk once
it is full. -/
def feed (ctx : Sha256Ctx) (b : UInt8) : Sha256Ctx :=
  let filled := { ctx with data := ctx.data.set ctx.dataLength b }
  if h : ctx.dataLength.val + 1 = 64 then { processChunk filled with dataLength := 0 }
  else { filled with dataLength := ⟨ctx.dataLength + 1, by omega⟩ }

end Sha256

open Sha256

/-- `SHA256Initialize`.  The data bytes are not set by the code and not read before
they are written; they are zero here. -/
def sha256Initialize : Sha256Ctx :=
  { data := Vector.replicate 64 0, dataLength := 0, hash := Sha256.h, totalLength := 0 }

/-- `SHA256Update`.  `read` is what becomes of the old bit count when it is read:
the host keeps all of it. -/
def sha256Update (read : UInt64 → UInt64) (ctx : Sha256Ctx) (bs : List UInt8) : Sha256Ctx :=
  bs.foldl feed { ctx with totalLength := read ctx.totalLength + 8 * bs.length.toUInt64 }

/-- The padding that `SHA256Finalize` appends: one bit, zeros, and the bit count. -/
def sha256Padding (ctx : Sha256Ctx) : List UInt8 :=
  let padLength := if ctx.dataLength.val < 56 then 64 - ctx.dataLength.val
    else 120 - ctx.dataLength.val
  let padding := (Vector.replicate 128 (0 : UInt8)).set! 0 0x80
  let padding := (List.range 8).foldl (fun p i =>
    p.set! (padLength - 1 - i) (ctx.totalLength >>> (8 * i).toUInt64).toUInt8) padding
  padding.toList.take padLength

/-- `SHA256Finalize`: pad, process, and write the hash words most significant byte
first. -/
def sha256Finalize (read : UInt64 → UInt64) (ctx : Sha256Ctx) : Bytes 32 :=
  let done := sha256Update read ctx (sha256Padding ctx)
  Vector.ofFn fun i =>
    ((done.hash[i.val / 4]! >>> (24 - 8 * (i.val % 4)).toUInt32) &&& 0xff).toUInt8

/-- The host reads the whole of `totalLength`. -/
def hostRead (total : UInt64) : UInt64 := total

/-- The device reads `totalLength` into a `uint`. -/
def deviceRead (total : UInt64) : UInt64 := total.toUInt32.toUInt64

/-- `SHA256ComputeDigest` on the host. -/
def sha256ComputeDigest (message : List UInt8) : Bytes 32 :=
  sha256Finalize hostRead (sha256Update hostRead sha256Initialize message)

/-- The three calls a kernel makes on its message. -/
def sha256DeviceDigest (message : List UInt8) : Bytes 32 :=
  sha256Finalize deviceRead (sha256Update deviceRead sha256Initialize message)

namespace Sha256

/-- The bit count is carried along by the loop and not looked at. -/
theorem feed_totalLength (ctx : Sha256Ctx) (t : UInt64) (b : UInt8) :
    feed { ctx with totalLength := t } b = { feed ctx b with totalLength := t } := by
  simp only [feed]
  split <;> rfl

theorem foldl_feed_totalLength (bs : List UInt8) (ctx : Sha256Ctx) (t : UInt64) :
    bs.foldl feed { ctx with totalLength := t } = { bs.foldl feed ctx with totalLength := t } := by
  induction bs generalizing ctx with
  | nil => rfl
  | cons b bs ih => rw [List.foldl_cons, feed_totalLength, ih, List.foldl_cons]

end Sha256

/-- The hash words after an update do not depend on how the bit count was read. -/
theorem sha256Update_hash (read read' : UInt64 → UInt64) (ctx : Sha256Ctx) (bs : List UInt8) :
    (sha256Update read ctx bs).hash = (sha256Update read' ctx bs).hash := by
  simp only [sha256Update, foldl_feed_totalLength]

/-- **Host and device agree on the digest of every message.**  Each hashes it in one
update from a count of zero, so the device's truncated reading loses nothing before
the padding is built, and afterwards the count is no longer used. -/
theorem digest_device_eq (message : List UInt8) :
    sha256DeviceDigest message = sha256ComputeDigest message := by
  have hctx : sha256Update deviceRead sha256Initialize message
      = sha256Update hostRead sha256Initialize message := rfl
  simp only [sha256DeviceDigest, sha256ComputeDigest, hctx, sha256Finalize,
    sha256Update_hash deviceRead hostRead]

end MassGridMiner

import MassGridMiner.Crypto.Sha256Chunk
import MassGridMiner.Lib.Buffer
import Mathlib.Tactic.IntervalCases

/-!
# SHA-256 in pieces

`sha2.c` is what the miner hashes coinbases, merkle links and headers with.  A context takes a
message piece by piece: what does not fill a block waits in the context, and whole blocks are hashed
where they stand.

## Main definitions

* `Sha2.Ctx` — `sha256_ctx`.
* `Sha2.transf`, `Sha2.init`, `Sha2.update`, `Sha2.final` — the functions on it.
* `Sha2.Absorbed` — a context that has taken a message.
* `Sha2.final_updates` — the digest of a message, whatever its pieces.
-/

namespace MassGridMiner
namespace Sha2

open Sha256 (rotr ch maj hashOf)

/-- `sha256_ctx`. -/
structure Ctx where
  totLen : UInt32
  len : UInt32
  block : List UInt8
  h : Vector UInt32 8

/-- `sha256_h0`. -/
def sha256H0 : Vector UInt32 8 := Array.toVector #[
  0x6a09e667, 0xbb67ae85, 0x3c6ef372, 0xa54ff53a, 0x510e527f, 0x9b05688c, 0x1f83d9ab, 0x5be0cd19]

/-- `sha256_k`. -/
def sha256K : Vector UInt32 64 := Array.toVector #[
  0x428a2f98, 0x71374491, 0xb5c0fbcf, 0xe9b5dba5, 0x3956c25b, 0x59f111f1, 0x923f82a4, 0xab1c5ed5,
  0xd807aa98, 0x12835b01, 0x243185be, 0x550c7dc3, 0x72be5d74, 0x80deb1fe, 0x9bdc06a7, 0xc19bf174,
  0xe49b69c1, 0xefbe4786, 0x0fc19dc6, 0x240ca1cc, 0x2de92c6f, 0x4a7484aa, 0x5cb0a9dc, 0x76f988da,
  0x983e5152, 0xa831c66d, 0xb00327c8, 0xbf597fc7, 0xc6e00bf3, 0xd5a79147, 0x06ca6351, 0x14292967,
  0x27b70a85, 0x2e1b2138, 0x4d2c6dfc, 0x53380d13, 0x650a7354, 0x766a0abb, 0x81c2c92e, 0x92722c85,
  0xa2bfe8a1, 0xa81a664b, 0xc24b8b70, 0xc76c51a3, 0xd192e819, 0xd6990624, 0xf40e3585, 0x106aa070,
  0x19a4c116, 0x1e376c08, 0x2748774c, 0x34b0bcb5, 0x391c0cb3, 0x4ed8aa4a, 0x5b9cca4f, 0x682e6ff3,
  0x748f82ee, 0x78a5636f, 0x84c87814, 0x8cc70208, 0x90befffa, 0xa4506ceb, 0xbef9a3f7, 0xc67178f2]

def sha256F1 (x : UInt32) : UInt32 := rotr x 2 ^^^ rotr x 13 ^^^ rotr x 22
def sha256F2 (x : UInt32) : UInt32 := rotr x 6 ^^^ rotr x 11 ^^^ rotr x 25
def sha256F3 (x : UInt32) : UInt32 := rotr x 7 ^^^ rotr x 18 ^^^ (x >>> 3)
def sha256F4 (x : UInt32) : UInt32 := rotr x 17 ^^^ rotr x 19 ^^^ (x >>> 10)

/-- `PACK32` of the bytes from an index on. -/
def pack32 (str : List UInt8) (i : ℕ) : UInt32 :=
  let byte i := (str[i]?.getD 0).toUInt32
  byte (i + 3) ||| (byte (i + 2) <<< 8) ||| (byte (i + 1) <<< 16) ||| (byte i <<< 24)

/-- `SHA256_SCR`. -/
def scr (w : Vector UInt32 64) (i : ℕ) : Vector UInt32 64 :=
  w.set! i (sha256F4 w[i - 2]! + w[i - 7]! + sha256F3 w[i - 15]! + w[i - 16]!)

/-- The words `w` of a block that are in it. -/
def firstWords (subBlock : List UInt8) : Vector UInt32 64 :=
  Vector.ofFn fun j => if j.val < 16 then pack32 subBlock (j.val <<< 2) else 0

/-- The words `w` of a block. -/
def words (subBlock : List UInt8) : Vector UInt32 64 :=
  (List.range' 16 48).foldl scr (firstWords subBlock)

/-- One round on the variables `wv`. -/
def round (w : Vector UInt32 64) (wv : Vector UInt32 8) (j : ℕ) : Vector UInt32 8 :=
  let t1 := wv[7]! + sha256F2 wv[4]! + ch wv[4]! wv[5]! wv[6]! + sha256K[j]! + w[j]!
  let t2 := sha256F1 wv[0]! + maj wv[0]! wv[1]! wv[2]!
  Array.toVector #[t1 + t2, wv[0]!, wv[1]!, wv[2]!, wv[3]! + t1, wv[4]!, wv[5]!, wv[6]!]

/-- The body of the loop of `sha256_transf`. -/
def transfBlock (h : Vector UInt32 8) (subBlock : List UInt8) : Vector UInt32 8 :=
  let wv := (List.range 64).foldl (round (words subBlock)) h
  Vector.ofFn fun j => h[j] + wv[j]

/-- `sha256_transf`, or none where it reads behind the message.  The counter of the loop is
signed. -/
def transf (h : Vector UInt32 8) (message : List UInt8) (blockNb : UInt32) :
    Option (Vector UInt32 8) :=
  (List.range blockNb.toInt32.toInt.toNat).foldlM
    (fun h i => (readAt message (i <<< 6) 64).map (transfBlock h)) h

/-- `sha256_init`, which leaves the block as it is. -/
def init (block : List UInt8) : Ctx :=
  { totLen := 0, len := 0, block := block, h := sha256H0 }

/-- `sha256_update`, or none where it leaves the message or the block. -/
def update (ctx : Ctx) (message : List UInt8) (len : UInt32) : Option Ctx := do
  let tmpLen := 64 - ctx.len
  let remLen := if len < tmpLen then len else tmpLen
  let block ← memcpy ctx.block ctx.len.toNat (← readAt message 0 remLen.toNat)
  if ctx.len + len < 64 then
    return { ctx with block := block, len := ctx.len + len }
  else
    let newLen := len - remLen
    let blockNb := newLen / 64
    let shiftedMessage := message.drop remLen.toNat
    let h ← transf ctx.h block 1
    let h ← transf h shiftedMessage blockNb
    let remLen := newLen % 64
    let block ← memcpy block 0 (← readAt shiftedMessage (blockNb <<< 6).toNat remLen.toNat)
    return { totLen := ctx.totLen + ((blockNb + 1) <<< 6), len := remLen, block := block, h := h }

/-- `sha256_final`, or none where it leaves the block. -/
def final (ctx : Ctx) : Option (List UInt8) := do
  let blockNb : UInt32 := 1 + (if 64 - 9 < ctx.len % 64 then 1 else 0)
  let lenB := (ctx.totLen + ctx.len) <<< 3
  let pmLen := blockNb <<< 6
  let block ← memcpy ctx.block ctx.len.toNat (List.replicate (pmLen - ctx.len).toNat 0)
  let block ← memcpy block ctx.len.toNat [0x80]
  let block ← memcpy block (pmLen - 4).toNat (be32 lenB)
  let h ← transf ctx.h block blockNb
  return h.toList.flatMap be32

/-- `sha256`.  The block of its context may hold anything. -/
def sha256 (block message : List UInt8) (len : UInt32) : Option (List UInt8) :=
  (update (init block) message len).bind final

/-! ## One block -/

theorem hashOf_sha256H0 : hashOf sha256H0 = Fips180.H0 := Sha256.hashOf_h

theorem scr_eq : scr = Sha256.expand := by
  funext w i
  have hsum : sha256F4 w[i - 2]! + w[i - 7]! + sha256F3 w[i - 15]! + w[i - 16]! =
      w[i - 16]! + Sha256.sig0 w[i - 15]! + w[i - 7]! + Sha256.sig1 w[i - 2]! := by
    simp only [sha256F3, sha256F4, Sha256.sig0, Sha256.sig1]
    ac_rfl
  rw [scr, Sha256.expand, hsum]

theorem or_reverse (a b c d : UInt32) : d ||| c ||| b ||| a = a ||| b ||| c ||| d := by
  ac_rfl

/-- A word of a block, as the other implementation puts it together. -/
theorem pack32_eq (data : Bytes 64) {j : ℕ} (h : j < 16) : pack32 data.toList (j <<< 2) =
    (data[4 * j]!.toUInt32 <<< 24) ||| (data[4 * j + 1]!.toUInt32 <<< 16) |||
      (data[4 * j + 2]!.toUInt32 <<< 8) ||| data[4 * j + 3]!.toUInt32 := by
  have hbyte : ∀ i : ℕ, i < 64 → data.toList[i]?.getD 0 = data[i]! := fun i hi => by
    rw [getElem!_pos data i hi]
    simp [hi]
  rw [Nat.shiftLeft_eq, Nat.mul_comm, ← hbyte _ (by omega), ← hbyte _ (by omega),
    ← hbyte _ (by omega), ← hbyte _ (by omega)]
  generalize data.toList = str
  simp only [pack32, Nat.reducePow]
  exact or_reverse _ _ _ _

theorem firstWords_eq (data : Bytes 64) : firstWords data.toList = Sha256.chunkWords data := by
  apply Vector.ext
  intro j hj
  rw [firstWords, Sha256.chunkWords, Vector.getElem_ofFn, Vector.getElem_ofFn]
  by_cases hlt : j < 16
  · rw [if_pos hlt, if_pos hlt]
    exact pack32_eq data hlt
  · rw [if_neg hlt, if_neg hlt]

theorem words_eq (data : Bytes 64) : words data.toList = Sha256.schedule data := by
  rw [words, Sha256.schedule_eq_foldl, scr_eq, firstWords_eq]

/-- The variables `wv`, as those of the other implementation. -/
def vars (wv : Vector UInt32 8) : Sha256.Vars :=
  ⟨wv[0]!, wv[1]!, wv[2]!, wv[3]!, wv[4]!, wv[5]!, wv[6]!, wv[7]!⟩

theorem vars_round (w : Vector UInt32 64) (wv : Vector UInt32 8) (j : ℕ) :
    vars (round w wv j) = Sha256.round w (vars wv) j := rfl

theorem vars_foldl_round (w : Vector UInt32 64) (wv : Vector UInt32 8) (js : List ℕ) :
    vars (js.foldl (round w) wv) = js.foldl (Sha256.round w) (vars wv) := by
  induction js generalizing wv with
  | nil => rfl
  | cons j js ih => rw [List.foldl_cons, List.foldl_cons, ih, vars_round]

theorem hash_vars (wv : Vector UInt32 8) : (vars wv).hash = hashOf wv := rfl

/-- The hash words and the variables are added up. -/
theorem hashOf_ofFn_add (h wv : Vector UInt32 8) :
    hashOf (Vector.ofFn fun j => h[j] + wv[j]) =
      ⟨wv[0]! + h[0]!, wv[1]! + h[1]!, wv[2]! + h[2]!, wv[3]! + h[3]!, wv[4]! + h[4]!,
        wv[5]! + h[5]!, wv[6]! + h[6]!, wv[7]! + h[7]!⟩ := by
  simp [hashOf, UInt32.add_comm]

/-- **A block** is folded into the hash words as the standard says. -/
theorem hashOf_transfBlock (h : Vector UInt32 8) {subBlock : List UInt8}
    (hlen : subBlock.length = 64) :
    hashOf (transfBlock h subBlock) = Fips180.compress (hashOf h) subBlock := by
  obtain ⟨data, rfl⟩ : ∃ data : Bytes 64, data.toList = subBlock :=
    ⟨⟨subBlock.toArray, by simpa using hlen⟩, by simp⟩
  have hrun : hashOf ((List.range 64).foldl (round (Sha256.schedule data)) h) =
      (List.range 64).foldl (Fips180.step (Fips180.schedule (Fips180.word data.toList)))
        (hashOf h) := by
    rw [← hash_vars, vars_foldl_round,
      Sha256.foldl_round_eq (fun t ht => Sha256.schedule_eq data ht) _ le_rfl, hash_vars]
  rw [transfBlock, words_eq, hashOf_ofFn_add, Fips180.compress, ← hrun]
  rfl

/-! ## Several blocks -/

theorem toNat_toInt32 {x : UInt32} (h : x.toNat < 2 ^ 31) : x.toInt32.toInt.toNat = x.toNat := by
  have hint : x.toInt32.toInt = x.toNat := BitVec.toInt_eq_toNat_of_lt (by simpa using by omega)
  rw [hint, Int.toNat_natCast]

theorem foldlM_transfBlock (h : Vector UInt32 8) {message : List UInt8} {n : ℕ}
    (hroom : 64 * n ≤ message.length) :
    ∃ h', (List.range n).foldlM
        (fun h i => (readAt message (i <<< 6) 64).map (transfBlock h)) h = some h' ∧
      hashOf h' = Fips180.absorb (hashOf h) (message.take (64 * n)) := by
  induction n with
  | zero => exact ⟨h, rfl, (Fips180.absorb_of_lt (by simp) _).symm⟩
  | succ n ih =>
      obtain ⟨h', hrun, hhash⟩ := ih (by omega)
      have hshift : n <<< 6 = 64 * n := by rw [Nat.shiftLeft_eq, Nat.mul_comm]
      have hread : readAt message (n <<< 6) 64 = some ((message.drop (64 * n)).take 64) := by
        rw [hshift, readAt, if_pos (by omega)]
      have hlen : ((message.drop (64 * n)).take 64).length = 64 := by
        rw [List.length_take, List.length_drop]
        omega
      have hfront : (message.take (64 * n)).length = 64 * n :=
        List.length_take_of_le (by omega)
      refine ⟨transfBlock h' ((message.drop (64 * n)).take 64), ?_, ?_⟩
      · rw [List.range_succ, List.foldlM_append, hrun]
        simp [hread]
      · rw [hashOf_transfBlock h' hlen, hhash, Nat.mul_succ, List.take_add,
          Fips180.absorb_append ⟨n, hfront⟩, Fips180.absorb_block hlen]

/-- Whole blocks are folded into the hash words one after another. -/
theorem exists_transf (h : Vector UInt32 8) {message : List UInt8} {blockNb : UInt32}
    (hlt : blockNb.toNat < 2 ^ 31) (hroom : 64 * blockNb.toNat ≤ message.length) :
    ∃ h', transf h message blockNb = some h' ∧
      hashOf h' = Fips180.absorb (hashOf h) (message.take (64 * blockNb.toNat)) := by
  rw [transf, toNat_toInt32 hlt]
  exact foldlM_transfBlock h hroom

/-! ## A message in pieces -/

/-- A context has taken a message: the whole blocks of it are hashed, and the rest waits. -/
structure Absorbed (ctx : Ctx) (message : List UInt8) : Prop where
  len_eq : ctx.len.toNat = message.length % 64
  totLen_eq : ctx.totLen.toNat = 64 * (message.length / 64)
  starts : Starts ctx.block (message.drop (64 * (message.length / 64))) 128
  h_eq : hashOf ctx.h = Fips180.hashBlocks message

theorem absorbed_init {block : List UInt8} (h : block.length = 128) : Absorbed (init block) [] :=
  ⟨rfl, rfl, starts_nil h, hashOf_sha256H0⟩

/-- What waits, and what comes behind it. -/
theorem drop_append_blocks (message bs : List UInt8) :
    (message ++ bs).drop (64 * (message.length / 64)) =
      message.drop (64 * (message.length / 64)) ++ bs :=
  List.drop_append_of_le_length (Nat.mul_div_le _ _)

theorem length_drop_blocks (message : List UInt8) :
    (message.drop (64 * (message.length / 64))).length = message.length % 64 := by
  rw [List.length_drop]
  omega

/-- The whole blocks of a message are hashed first. -/
theorem hashBlocks_append_eq_absorb (message bs : List UInt8) :
    Fips180.hashBlocks (message ++ bs) = Fips180.absorb (Fips180.hashBlocks message)
      (message.drop (64 * (message.length / 64)) ++ bs) := by
  have hfront : 64 ∣ (message.take (64 * (message.length / 64))).length := by
    rw [List.length_take_of_le (Nat.mul_div_le _ _)]
    exact Nat.dvd_mul_right _ _
  have hrest : (message.drop (64 * (message.length / 64))).length < 64 := by
    rw [length_drop_blocks]
    exact Nat.mod_lt _ (by decide)
  have hall := Fips180.absorb_append hfront Fips180.H0
    (message.drop (64 * (message.length / 64)) ++ bs)
  have hself := Fips180.absorb_append_of_lt hfront hrest Fips180.H0
  rw [List.take_append_drop] at hself
  rw [← List.append_assoc, List.take_append_drop] at hall
  rw [Fips180.hashBlocks_eq_absorb, Fips180.hashBlocks_eq_absorb, hall, hself]

/-- The place of a context in its block, and what is left of the block. -/
theorem Absorbed.room {ctx : Ctx} {message : List UInt8} (H : Absorbed ctx message) :
    (64 - ctx.len).toNat = 64 - message.length % 64 := by
  have hlen := H.len_eq
  rw [UInt32.toNat_sub_of_le _ _ (UInt32.le_iff_toNat_le.mpr (by rw [hlen]; simp; omega)), hlen]
  rfl

/-- A piece that fills no block waits with what waits. -/
theorem Absorbed.update_of_lt {ctx : Ctx} {message bs : List UInt8} {len : UInt32}
    (H : Absorbed ctx message) (hbs : bs.length = len.toNat)
    (hfits : message.length % 64 + bs.length < 64) :
    ∃ ctx', update ctx bs len = some ctx' ∧ Absorbed ctx' (message ++ bs) := by
  have hlen := H.len_eq
  have hwait := length_drop_blocks message
  have hsum : (ctx.len + len).toNat = message.length % 64 + bs.length := by
    rw [UInt32.toNat_add, hlen, hbs]
    exact Nat.mod_eq_of_lt (by omega)
  have hrem : len < 64 - ctx.len := by
    rw [UInt32.lt_iff_toNat_lt, H.room]
    omega
  have hshort : ctx.len + len < 64 := by
    rw [UInt32.lt_iff_toNat_lt, hsum]
    exact hfits
  have hread : readAt bs 0 len.toNat = some bs := by
    rw [readAt, if_pos (by omega), List.drop_zero, List.take_of_length_le hbs.le]
  have hput : ctx.len.toNat + bs.length ≤ 128 := by omega
  obtain ⟨block, hcopy, hstarts⟩ := H.starts.copy (hlen.trans hwait.symm) hput
  have hblocks : (message ++ bs).length / 64 = message.length / 64 := by
    rw [List.length_append]
    omega
  refine ⟨{ ctx with block := block, len := ctx.len + len }, ?_, ?_, ?_, ?_, ?_⟩
  · simp [update, hrem, hread, hcopy, hshort]
  · rw [hsum, List.length_append]
    omega
  · rw [hblocks, ← H.totLen_eq]
  · rw [hblocks, drop_append_blocks]
    exact hstarts
  · rw [Fips180.hashBlocks_append hblocks, ← H.h_eq]

/-- A piece completes a block, and may have blocks of its own. -/
theorem Absorbed.update_of_ge {ctx : Ctx} {message bs : List UInt8} {len : UInt32}
    (H : Absorbed ctx message) (hbs : bs.length = len.toNat)
    (hlt : message.length + bs.length < 2 ^ 29) (hfills : 64 ≤ message.length % 64 + bs.length) :
    ∃ ctx', update ctx bs len = some ctx' ∧ Absorbed ctx' (message ++ bs) := by
  have hlen := H.len_eq
  have hwait := length_drop_blocks message
  obtain ⟨r, hr⟩ : ∃ r, 64 - message.length % 64 = r := ⟨_, rfl⟩
  have hskip : (64 - ctx.len).toNat = r := H.room.trans hr
  have hsum : (ctx.len + len).toNat = message.length % 64 + bs.length := by
    rw [UInt32.toNat_add, hlen, hbs]
    exact Nat.mod_eq_of_lt (by omega)
  have hlong : ¬ctx.len + len < 64 := by
    rw [UInt32.lt_iff_toNat_lt, hsum]
    exact Nat.not_lt.mpr hfills
  have hremLen : (if len < 64 - ctx.len then len else 64 - ctx.len) = 64 - ctx.len :=
    if_neg (by rw [UInt32.lt_iff_toNat_lt, hskip]; omega)
  -- the block is filled
  have hread : readAt bs 0 r = some (bs.take r) := by
    rw [readAt, if_pos (by omega), List.drop_zero]
  have htake : (bs.take r).length = r := List.length_take_of_le (by omega)
  have hput : ctx.len.toNat + (bs.take r).length ≤ 128 := by omega
  obtain ⟨block, hcopy, hstarts⟩ := H.starts.copy (hlen.trans hwait.symm) hput
  have hfull : (message.drop (64 * (message.length / 64)) ++ bs.take r).length = 64 := by
    rw [List.length_append, hwait, htake]
    omega
  -- what is behind it has blocks of its own, and a rest
  obtain ⟨rest, hrest⟩ : ∃ rest, bs.drop r = rest := ⟨_, rfl⟩
  have hlenRest : rest.length = bs.length - r := by rw [← hrest, List.length_drop]
  have hnew : (len - (64 - ctx.len)).toNat = rest.length := by
    rw [UInt32.toNat_sub_of_le _ _ (UInt32.le_iff_toNat_le.mpr (by omega)), hskip, hlenRest, hbs]
  have hblocks : ((len - (64 - ctx.len)) / 64).toNat = rest.length / 64 := by
    rw [UInt32.toNat_div, hnew]
    rfl
  have hmod : ((len - (64 - ctx.len)) % 64).toNat = rest.length % 64 := by
    rw [UInt32.toNat_mod, hnew]
    rfl
  have hshift : (((len - (64 - ctx.len)) / 64) <<< 6).toNat = 64 * (rest.length / 64) := by
    rw [UInt32.toNat_shiftLeft, hblocks, Nat.shiftLeft_eq]
    exact (Nat.mod_eq_of_lt (by simp; omega)).trans (Nat.mul_comm _ _)
  have hread' : readAt rest (64 * (rest.length / 64)) (rest.length % 64) =
      some (rest.drop (64 * (rest.length / 64))) := by
    rw [readAt, if_pos (by omega), List.take_of_length_le (by rw [length_drop_blocks])]
  have hone : 64 * (1 : UInt32).toNat ≤ block.length := by
    rw [hstarts.length_eq]
    decide
  have hmany : 64 * ((len - (64 - ctx.len)) / 64).toNat ≤ rest.length := by omega
  obtain ⟨h₁, htransf₁, hhash₁⟩ := exists_transf ctx.h (by decide) hone
  obtain ⟨h₂, htransf₂, hhash₂⟩ := exists_transf h₁ (by omega) hmany
  have hback : (rest.drop (64 * (rest.length / 64))).length ≤ 128 := by
    rw [length_drop_blocks]
    omega
  obtain ⟨block', hcopy', hstarts'⟩ := memcpy_zero hstarts.length_eq hback
  -- the whole message has all these blocks
  have hall : message ++ bs =
      message.take (64 * (message.length / 64)) ++
        (message.drop (64 * (message.length / 64)) ++ bs.take r) ++ rest := by
    rw [← List.append_assoc, List.take_append_drop, List.append_assoc, ← hrest,
      List.take_append_drop]
  have hfront : (message.take (64 * (message.length / 64)) ++
      (message.drop (64 * (message.length / 64)) ++ bs.take r)).length =
        64 * (message.length / 64 + 1) := by
    rw [List.length_append, hfull, List.length_take_of_le (Nat.mul_div_le _ _)]
    rfl
  have hcount : (message ++ bs).length / 64 = message.length / 64 + 1 + rest.length / 64 := by
    rw [hall, List.length_append, hfront]
    omega
  refine ⟨⟨ctx.totLen + (((len - (64 - ctx.len)) / 64 + 1) <<< 6),
    (len - (64 - ctx.len)) % 64, block', h₂⟩, ?_, ?_, ?_, ?_, ?_⟩
  · simp only [update, hremLen, hskip, hread, Option.bind_eq_bind, Option.bind_some, hcopy,
      if_neg hlong, hrest, htransf₁, htransf₂, hmod, hshift, hread', hcopy']
    rfl
  · rw [hmod, hall, List.length_append, hfront]
    omega
  · have hblocks' : ((len - (64 - ctx.len)) / 64 + 1).toNat = rest.length / 64 + 1 := by
      rw [UInt32.toNat_add, hblocks]
      exact Nat.mod_eq_of_lt (by simp; omega)
    rw [hcount, UInt32.toNat_add, UInt32.toNat_shiftLeft, hblocks', H.totLen_eq, Nat.shiftLeft_eq]
    simp only [UInt32.reduceToNat, Nat.reduceMod, Nat.reducePow]
    omega
  · rw [hcount, hall, Nat.mul_add, ← hfront, List.drop_append,
      List.drop_of_length_le (Nat.le_add_right _ _), List.nil_append, Nat.add_sub_cancel_left]
    exact hstarts'
  · have hblock : block.take (64 * (1 : UInt32).toNat) =
        message.drop (64 * (message.length / 64)) ++ bs.take r := by
      have hprefix := List.prefix_iff_eq_take.mp hstarts.isPrefix
      rw [hfull] at hprefix
      exact hprefix.symm
    have hwhole : 64 ∣ (rest.take (64 * (rest.length / 64))).length := by
      rw [List.length_take_of_le (Nat.mul_div_le _ _)]
      exact Nat.dvd_mul_right _ _
    have hlast : (rest.drop (64 * (rest.length / 64))).length < 64 := by
      rw [length_drop_blocks]
      exact Nat.mod_lt _ (by decide)
    have habsorb := Fips180.absorb_append_of_lt hwhole hlast (hashOf h₁)
    rw [List.take_append_drop] at habsorb
    have hjoin : message.drop (64 * (message.length / 64)) ++ bs =
        message.drop (64 * (message.length / 64)) ++ bs.take r ++ rest := by
      rw [List.append_assoc, ← hrest, List.take_append_drop]
    have hdvd : 64 ∣ (message.drop (64 * (message.length / 64)) ++ bs.take r).length := ⟨1, hfull⟩
    rw [hhash₂, hblocks, ← habsorb, hhash₁, hblock, hashBlocks_append_eq_absorb, hjoin,
      Fips180.absorb_append hdvd, ← H.h_eq]

/-- **A piece of a message** is taken. -/
theorem Absorbed.update {ctx : Ctx} {message bs : List UInt8} {len : UInt32}
    (H : Absorbed ctx message) (hbs : bs.length = len.toNat)
    (hlt : message.length + bs.length < 2 ^ 29) :
    ∃ ctx', Sha2.update ctx bs len = some ctx' ∧ Absorbed ctx' (message ++ bs) := by
  rcases Nat.lt_or_ge (message.length % 64 + bs.length) 64 with hfits | hfills
  · exact H.update_of_lt hbs hfits
  · exact H.update_of_ge hbs hlt hfills

/-! ## The digest -/

/-- The length of a message in bits, where four bytes are enough for it. -/
theorem be64_eq {x : UInt32} {n : ℕ} (h : x.toNat = n) :
    Fips180.be64 n = List.replicate 4 0 ++ be32 x := by
  subst h
  have hx := x.toNat_lt
  have hzero : ∀ k, 32 ≤ k → UInt8.ofNat (x.toNat >>> k) = 0 := fun k hk => by
    rw [Nat.shiftRight_eq_div_pow, Nat.div_eq_of_lt (hx.trans_le (Nat.pow_le_pow_right (by decide)
      hk))]
    rfl
  have hbyte : ∀ k : UInt32, k.toNat < 32 →
      UInt8.ofNat (x.toNat >>> k.toNat) = (x >>> k).toUInt8 := fun k hk => by
    rw [← UInt8.toNat_inj, UInt8.toNat_ofNat', UInt32.toNat_toUInt8, UInt32.toNat_shiftRight,
      Nat.mod_eq_of_lt hk]
  have hlow : UInt8.ofNat (x.toNat >>> 0) = x.toUInt8 := by
    rw [← UInt8.toNat_inj, UInt8.toNat_ofNat', UInt32.toNat_toUInt8, Nat.shiftRight_zero]
  simp only [Fips180.be64, be32, ← hbyte 24 (by decide), ← hbyte 16 (by decide),
    ← hbyte 8 (by decide), ← hlow]
  simp [List.range_succ, hzero]

/-- The bytes of the hash words are those of the hash value. -/
theorem flatMap_be32 (h : Vector UInt32 8) : h.toList.flatMap be32 = (hashOf h).bytes := by
  have hlist : h.toList = [h[0]!, h[1]!, h[2]!, h[3]!, h[4]!, h[5]!, h[6]!, h[7]!] := by
    apply List.ext_getElem
    · simp
    · intro i hi _
      simp only [Vector.length_toList] at hi
      interval_cases i <;> simp
  rw [hlist]
  rfl

/-- What is written into `n` blocks at the end, behind so many bytes that wait. -/
def padding (waiting n : ℕ) (lenB : UInt32) : List UInt8 :=
  0x80 :: List.replicate (64 * n - waiting - 5) 0 ++ be32 lenB

theorem exists_padding {block wait : List UInt8} {n : ℕ} (H : Starts block wait 128) (x : UInt32)
    (hroom : wait.length + 5 ≤ 64 * n) (hn : n ≤ 2) :
    ∃ b₁ b₂ b₃, memcpy block wait.length (List.replicate (64 * n - wait.length) 0) = some b₁ ∧
      memcpy b₁ wait.length [0x80] = some b₂ ∧ memcpy b₂ (64 * n - 4) (be32 x) = some b₃ ∧
      Starts b₃ (wait ++ padding wait.length n x) 128 := by
  obtain ⟨z, hz⟩ : ∃ z, 64 * n = wait.length + 5 + z := ⟨_, (Nat.add_sub_cancel' hroom).symm⟩
  have hset : 64 * n - wait.length = 1 + (z + 4) := by omega
  have hgap : 64 * n - wait.length - 5 = z := by omega
  have hat : 64 * n - 4 = (wait ++ [0x80]).length + z := by
    rw [List.length_append, List.length_singleton]
    omega
  have hput : wait.length + (List.replicate (64 * n - wait.length) (0 : UInt8)).length ≤ 128 := by
    rw [List.length_replicate]
    omega
  obtain ⟨b₁, hcopy, ⟨left, rfl⟩, hlen⟩ := H.copy rfl hput
  rw [hset, List.replicate_add, List.replicate_one, List.append_assoc] at hlen
  refine ⟨_, wait ++ [0x80] ++ (List.replicate (z + 4) 0 ++ left),
    wait ++ 0x80 :: List.replicate z 0 ++ be32 x ++ left, hcopy, ?_, ?_, ?_, ?_⟩
  · rw [hset, List.replicate_add, List.replicate_one, List.append_assoc, List.append_assoc, memcpy,
      if_pos (by simp), writeAt_append]
    simp
  · have htake : (List.replicate (z + 4) 0 ++ left).take z = List.replicate z 0 := by
      rw [List.replicate_add, List.append_assoc]
      exact List.take_left' List.length_replicate
    have hdrop : (List.replicate (z + 4) 0 ++ left).drop (z + (be32 x).length) = left :=
      List.drop_left' List.length_replicate
    rw [hat, memcpy, if_pos (by simp [be32] at hlen ⊢; omega), writeAt_append_add, htake, hdrop]
    simp
  · rw [padding, hgap, ← List.append_assoc]
    exact List.prefix_append _ _
  · simp [be32] at hlen ⊢
    omega

/-- **The digest** of what a context has taken. -/
theorem Absorbed.final {ctx : Ctx} {message : List UInt8} (H : Absorbed ctx message)
    (hlt : message.length < 2 ^ 29) : final ctx = some (Fips180.digest message) := by
  have hlen := H.len_eq
  have hwait := length_drop_blocks message
  obtain ⟨n, hn⟩ : ∃ n, (if 55 < message.length % 64 then 2 else 1) = n := ⟨_, rfl⟩
  have hcases : n = 1 ∧ message.length % 64 ≤ 55 ∨ n = 2 ∧ 55 < message.length % 64 := by
    split at hn <;> omega
  have hnb : (1 + (if 64 - 9 < ctx.len % 64 then 1 else 0) : UInt32).toNat = n := by
    have hiff : 64 - 9 < ctx.len % 64 ↔ 55 < message.length % 64 := by
      rw [UInt32.lt_iff_toNat_lt, UInt32.toNat_mod, hlen]
      exact iff_of_eq (congrArg _ (Nat.mod_mod _ _))
    rw [← hn]
    simp only [hiff]
    split <;> rfl
  obtain ⟨blockNb, hblockNb⟩ : ∃ b : UInt32, 1 + (if 64 - 9 < ctx.len % 64 then 1 else 0) = b :=
    ⟨_, rfl⟩
  rw [hblockNb] at hnb
  have hpm : (blockNb <<< 6).toNat = 64 * n := by
    rw [UInt32.toNat_shiftLeft, hnb, Nat.shiftLeft_eq]
    exact (Nat.mod_eq_of_lt (by simp; omega)).trans (Nat.mul_comm _ _)
  have hset : (blockNb <<< 6 - ctx.len).toNat = 64 * n - ctx.len.toNat := by
    rw [UInt32.toNat_sub_of_le _ _ (UInt32.le_iff_toNat_le.mpr (by omega)), hpm]
  have hlast : (blockNb <<< 6 - 4).toNat = 64 * n - 4 := by
    rw [UInt32.toNat_sub_of_le _ _ (UInt32.le_iff_toNat_le.mpr (by rw [hpm]; simp; omega)), hpm]
    rfl
  have hbits : ((ctx.totLen + ctx.len) <<< 3).toNat = 8 * message.length := by
    rw [UInt32.toNat_shiftLeft, UInt32.toNat_add, hlen, H.totLen_eq, Nat.div_add_mod,
      Nat.mod_eq_of_lt (show message.length < 2 ^ 32 by omega), Nat.shiftLeft_eq]
    simp only [UInt32.reduceToNat, Nat.reduceMod, Nat.reducePow]
    omega
  obtain ⟨b₁, b₂, b₃, hcopy₁, hcopy₂, hcopy₃, hstarts⟩ :=
    exists_padding H.starts ((ctx.totLen + ctx.len) <<< 3) (n := n) (by omega) (by omega)
  rw [hwait, ← hlen] at hcopy₁ hcopy₂
  rw [hwait] at hstarts
  have hroom : 64 * blockNb.toNat ≤ b₃.length := by
    rw [hstarts.length_eq]
    omega
  obtain ⟨h, htransf, hhash⟩ := exists_transf ctx.h (by omega) hroom
  have hrun : Sha2.final ctx = some (h.toList.flatMap be32) := by
    simp only [Sha2.final, hblockNb, hset, hlast, Option.bind_eq_bind, hcopy₁, Option.bind_some,
      hcopy₂, hcopy₃, htransf]
    rfl
  have hpad : Fips180.pad message =
      message ++ padding (message.length % 64) n ((ctx.totLen + ctx.len) <<< 3) := by
    have hzeros : 64 * n - message.length % 64 - 5 = Fips180.zeros message.length + 4 := by
      rw [Fips180.zeros]
      omega
    rw [Fips180.pad, be64_eq hbits, padding, hzeros, List.replicate_add]
    simp
  have hblock : b₃.take (64 * blockNb.toNat) = message.drop (64 * (message.length / 64)) ++
      padding (message.length % 64) n ((ctx.totLen + ctx.len) <<< 3) := by
    have hprefix := List.prefix_iff_eq_take.mp hstarts.isPrefix
    have hlength : (message.drop (64 * (message.length / 64)) ++
        padding (message.length % 64) n ((ctx.totLen + ctx.len) <<< 3)).length =
          64 * blockNb.toNat := by
      simp only [padding, be32, List.length_append, hwait, List.length_cons, List.length_replicate,
        List.length_nil]
      omega
    rw [hlength] at hprefix
    exact hprefix.symm
  rw [hrun, flatMap_be32, Fips180.digest, hpad, hashBlocks_append_eq_absorb, hhash, hblock, H.h_eq]

/-- `sha256_update` for several pieces. -/
def updates (ctx : Ctx) (pieces : List (List UInt8)) : Option Ctx :=
  pieces.foldlM (fun ctx piece => update ctx piece (.ofNat piece.length)) ctx

theorem Absorbed.updates {ctx : Ctx} {message : List UInt8} {pieces : List (List UInt8)}
    (H : Absorbed ctx message) (hlt : message.length + pieces.flatten.length < 2 ^ 29) :
    ∃ ctx', Sha2.updates ctx pieces = some ctx' ∧ Absorbed ctx' (message ++ pieces.flatten) := by
  induction pieces generalizing ctx message with
  | nil => exact ⟨ctx, rfl, by rwa [List.flatten_nil, List.append_nil]⟩
  | cons piece pieces ih =>
      rw [List.flatten_cons, List.length_append] at hlt
      have hlen : piece.length = (UInt32.ofNat piece.length).toNat := by
        rw [UInt32.toNat_ofNat']
        exact (Nat.mod_eq_of_lt (by omega)).symm
      obtain ⟨ctx', hrun, H'⟩ := H.update hlen (by omega)
      obtain ⟨ctx'', hruns, H''⟩ := ih H' (by rw [List.length_append]; omega)
      refine ⟨ctx'', ?_, ?_⟩
      · rw [Sha2.updates, List.foldlM_cons, hrun]
        exact hruns
      · rwa [List.flatten_cons, ← List.append_assoc]

/-- **Any message, in any pieces**, has the digest of the standard, and nothing is read or written
that is not the message's or the context's, as long as the length in bits fits into 32. -/
theorem final_updates {block : List UInt8} (hblock : block.length = 128)
    {pieces : List (List UInt8)} (hlt : pieces.flatten.length < 2 ^ 29) :
    (updates (init block) pieces).bind final = some (Fips180.digest pieces.flatten) := by
  obtain ⟨ctx, hrun, H⟩ := (absorbed_init hblock).updates (by simpa using hlt)
  rw [hrun, Option.bind_some, H.final (by simpa using hlt), List.nil_append]

/-- Two pieces, the second of which completes a block. -/
theorem final_updates_two :
    (updates (init (List.replicate 128 0)) [List.replicate 60 1, List.replicate 70 2]).bind final =
      some (Fips180.digest [List.replicate 60 1, List.replicate 70 2].flatten) :=
  final_updates (by simp) (by simp)

/-- `sha256` of a message. -/
theorem sha256_eq {block message : List UInt8} {len : UInt32} (hblock : block.length = 128)
    (hlen : message.length = len.toNat) (hlt : message.length < 2 ^ 29) :
    sha256 block message len = some (Fips180.digest message) := by
  obtain ⟨ctx, hrun, H⟩ := (absorbed_init hblock).update hlen (by simpa using hlt)
  rw [sha256, hrun, Option.bind_some, H.final (by simpa using hlt), List.nil_append]

end Sha2
end MassGridMiner

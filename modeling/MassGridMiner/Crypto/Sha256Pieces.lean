import MassGridMiner.Crypto.Sha256Chunk
import MassGridMiner.Lib.FixedWidth

/-!
# The digest of a message in pieces

The context functions of `crypto/SHA256Digest.c` are modelled once more, with a fill level that is a
number of its own and with every index looked at, and are those of the context whose fill level is
below the size of a chunk by its type.  A context holds the hash value of the standard for the whole
blocks of the message so far, and the bytes behind them.

Where the message leaves less than nine bytes of its last chunk, the padding is eight bytes too
short, so that the chunk with the length is not processed.

## Main definitions

* `RawCtx`, `rawUpdate`, `rawFinalize` — the functions, none where an index is out of its array.
* `Absorbed` — what a context is after a message.
* `Law` — what is expected of a message in pieces.
* `law_iff` — the messages that it is so for.
-/

namespace MassGridMiner

/-- `SHA256_CTX`, with any fill level. -/
structure RawCtx where
  data : Bytes 64
  dataLength : UInt32
  hash : Vector UInt32 8
  totalLength : UInt64

/-- `processChunk`. -/
def RawCtx.processChunk (ctx : RawCtx) : RawCtx :=
  { ctx with
    hash := (Sha256.processChunk
      { sha256Initialize with
        data := ctx.data, hash := ctx.hash, totalLength := ctx.totalLength }).hash }

/-- `SHA256Initialize`. -/
def rawInitialize (ctx : RawCtx) : RawCtx :=
  { ctx with hash := Sha256.h, dataLength := 0, totalLength := 0 }

/-- The body of the loop in `SHA256Update`. -/
def rawFeed (ctx : RawCtx) (b : UInt8) : Option RawCtx :=
  if h : ctx.dataLength.toNat < 64 then
    let ctx := { ctx with
      data := ctx.data.set ctx.dataLength.toNat b
      dataLength := ctx.dataLength + 1 }
    if ctx.dataLength = 64 then some { ctx.processChunk with dataLength := 0 } else some ctx
  else none

/-- `SHA256Update`, none where the `int` of its loop overflows. -/
def rawUpdate (ctx : RawCtx) (bs : List UInt8) : Option RawCtx :=
  if 2 ^ 31 ≤ bs.length then none
  else bs.foldlM rawFeed { ctx with totalLength := ctx.totalLength + bs.length.toUInt64 * 8 }

/-- A byte is put into the padding. -/
def putPadding (padding : Bytes 128) (i : ℤ) (b : UInt8) : Option (Bytes 128) :=
  if h : 0 ≤ i ∧ i < 128 then some (padding.set i.toNat b (by omega)) else none

/-- The padding of `SHA256Finalize`: one bit, zeros, and the bit count. -/
def rawPadding (ctx : RawCtx) : Option (List UInt8) := do
  let padLength : ℤ :=
    (if ctx.dataLength < 56 then 64 - ctx.dataLength else 120 - ctx.dataLength).toInt32.toInt
  let padding ← putPadding (Vector.replicate 128 0) 0 0x80
  let padding ← (List.range 8).foldlM (fun padding (i : ℕ) =>
    putPadding padding (padLength - 1 - i) (ctx.totalLength >>> (8 * i).toUInt64).toUInt8) padding
  if 0 ≤ padLength ∧ padLength ≤ 128 then some (padding.toList.take padLength.toNat) else none

/-- `SHA256Finalize`. -/
def rawFinalize (ctx : RawCtx) : Option (Bytes 32) := do
  let padding ← rawPadding ctx
  let done ← rawUpdate ctx padding
  some (Vector.ofFn fun i =>
    ((done.hash[i.val / 4]! >>> (24 - 8 * (i.val % 4)).toUInt32) &&& 0xff).toUInt8)

/-- A message is hashed in pieces, with a context that may hold anything before. -/
def rawDigest (ctx : RawCtx) (pieces : List (List UInt8)) : Option (Bytes 32) := do
  rawFinalize (← pieces.foldlM rawUpdate (rawInitialize ctx))

/-- What is expected: the digest of the whole message, by way of indices inside of the arrays. -/
def Sha256.Law (pieces : List (List UInt8)) : Prop :=
  ∀ ctx, (rawDigest ctx pieces).map Vector.toList = some (Fips180.digest pieces.flatten)

/-! ## Indices -/

/-- A context with a fill level below the size of a chunk. -/
def Sha256Ctx.raw (ctx : Sha256Ctx) : RawCtx :=
  ⟨ctx.data, ctx.dataLength.val.toUInt32, ctx.hash, ctx.totalLength⟩

namespace Sha256

open Fips180 (Hash compress hashBlocks block be64 zeros)

theorem toNat_dataLength (ctx : Sha256Ctx) :
    ctx.raw.dataLength.toNat = ctx.dataLength.val := by
  simp only [Sha256Ctx.raw, Nat.toUInt32_eq, UInt32.toNat_ofNat']
  omega

/-- A byte is put below the size of a chunk. -/
theorem rawFeed_raw (ctx : Sha256Ctx) (b : UInt8) : rawFeed ctx.raw b = some (feed ctx b).raw := by
  have hlen := toNat_dataLength ctx
  have hlt : ctx.raw.dataLength.toNat < 64 := hlen ▸ ctx.dataLength.isLt
  have hset : ctx.raw.data.set ctx.raw.dataLength.toNat b hlt = ctx.data.set ctx.dataLength b := by
    simp only [hlen]
    rfl
  have hadd : (ctx.raw.dataLength + 1).toNat = ctx.dataLength.val + 1 := by
    rw [UInt32.toNat_add, hlen]
    simp
    omega
  rw [rawFeed, dif_pos hlt, feed]
  by_cases hfull : ctx.dataLength.val + 1 = 64
  · have hraw : ctx.raw.dataLength + 1 = 64 := UInt32.toNat_inj.mp (hadd.trans hfull)
    simp only [hset, dif_pos hfull, if_pos hraw]
    rfl
  · have hraw : ctx.raw.dataLength + 1 ≠ 64 := fun h =>
      hfull (hadd.symm.trans (congrArg UInt32.toNat h))
    have hnext : ctx.raw.dataLength + 1 = (ctx.dataLength.val + 1).toUInt32 := by
      rw [← UInt32.toNat_inj, hadd, Nat.toUInt32_eq, UInt32.toNat_ofNat']
      omega
    simp only [hset, dif_neg hfull, if_neg hraw]
    rw [hnext]
    rfl

theorem foldlM_rawFeed_raw (bs : List UInt8) (ctx : Sha256Ctx) :
    bs.foldlM rawFeed ctx.raw = some (bs.foldl feed ctx).raw := by
  induction bs generalizing ctx with
  | nil => rfl
  | cons b bs ih => rw [List.foldlM_cons, rawFeed_raw, List.foldl_cons, ← ih]; rfl

/-- An update of less than 2^31 bytes is that of the context with a bounded fill level. -/
theorem rawUpdate_raw {bs : List UInt8} (H : bs.length < 2 ^ 31) (ctx : Sha256Ctx) :
    rawUpdate ctx.raw bs = some (sha256Update hostRead ctx bs).raw := by
  rw [rawUpdate, if_neg (by omega), sha256Update, ← foldlM_rawFeed_raw, UInt64.mul_comm]
  rfl

/-- The length of the padding. -/
def padLength (ctx : Sha256Ctx) : ℕ :=
  if ctx.dataLength.val < 56 then 64 - ctx.dataLength.val else 120 - ctx.dataLength.val

theorem padLength_bounds (ctx : Sha256Ctx) : 9 ≤ padLength ctx ∧ padLength ctx ≤ 128 := by
  have hlt := ctx.dataLength.isLt
  unfold padLength
  split <;> omega

theorem toInt_padLength (ctx : Sha256Ctx) :
    (if ctx.raw.dataLength < 56 then 64 - ctx.raw.dataLength
      else 120 - ctx.raw.dataLength).toInt32.toInt = padLength ctx := by
  have hlen := toNat_dataLength ctx
  have hlt := ctx.dataLength.isLt
  have hcond : ctx.raw.dataLength < 56 ↔ ctx.dataLength.val < 56 := by
    rw [UInt32.lt_iff_toNat_lt, hlen]
    rfl
  have hsub : ∀ x : UInt32, ctx.dataLength.val ≤ x.toNat →
      (x - ctx.raw.dataLength).toNat = x.toNat - ctx.dataLength.val := fun x hx => by
    rw [UInt32.toNat_sub_of_le _ _ (by rw [UInt32.le_iff_toNat_le, hlen]; exact hx), hlen]
  have hval : (if ctx.raw.dataLength < 56 then 64 - ctx.raw.dataLength
      else 120 - ctx.raw.dataLength).toNat = padLength ctx := by
    simp only [hcond, padLength]
    split
    · exact hsub 64 hlt.le
    · exact hsub 120 (hlt.le.trans (by decide))
  rw [UInt32.toInt_toInt32_of_lt (by rw [hval]; have := padLength_bounds ctx; omega), hval]

theorem putPadding_eq (padding : Bytes 128) {i : ℕ} (H : i < 128) (b : UInt8) :
    putPadding padding i b = some (padding.set! i b) := by
  rw [putPadding, dif_pos (by omega), Option.some_inj]
  ext j hj : 1
  rw [Vector.getElem_set, Vector.getElem_set!, Int.toNat_natCast]

/-- The bytes of the bit count are put into the padding. -/
theorem foldlM_putPadding {m n : ℕ} (hn : n ≤ m) (hm : m ≤ 128) (padding : Bytes 128)
    (byte : ℕ → UInt8) :
    (List.range n).foldlM
        (fun padding i => putPadding padding ((m : ℤ) - 1 - (i : ℕ)) (byte i)) padding =
      some ((List.range n).foldl (fun padding i => padding.set! (m - 1 - i) (byte i)) padding) := by
  induction n with
  | zero => rfl
  | succ n ih =>
    have hcast : (m : ℤ) - 1 - (n : ℕ) = ((m - 1 - n : ℕ) : ℤ) := by omega
    rw [List.range_succ, List.foldlM_append, ih (by omega), List.foldl_append]
    simp only [Option.bind_eq_bind, Option.bind_some, List.foldlM_cons, List.foldlM_nil,
      List.foldl_cons, List.foldl_nil]
    rw [hcast, putPadding_eq _ (by omega)]
    rfl

theorem rawPadding_raw (ctx : Sha256Ctx) : rawPadding ctx.raw = some (sha256Padding ctx) := by
  obtain ⟨hge, hle⟩ := padLength_bounds ctx
  rw [rawPadding]
  simp only [toInt_padLength, Option.bind_eq_bind]
  have hfirst := putPadding_eq (Vector.replicate 128 0) (show 0 < 128 by decide) 0x80
  rw [Nat.cast_zero] at hfirst
  rw [hfirst, Option.bind_some,
    foldlM_putPadding (by omega) hle _ fun i => (ctx.raw.totalLength >>> (8 * i).toUInt64).toUInt8,
    Option.bind_some, if_pos (by omega), Int.toNat_natCast]
  rfl

theorem length_sha256Padding (ctx : Sha256Ctx) : (sha256Padding ctx).length = padLength ctx := by
  obtain ⟨-, hle⟩ := padLength_bounds ctx
  simp only [sha256Padding, List.length_take, Vector.length_toList]
  exact min_eq_left hle

/-- The functions with checked indices are those of a context with a bounded fill level. -/
theorem rawFinalize_raw (ctx : Sha256Ctx) :
    rawFinalize ctx.raw = some (sha256Finalize hostRead ctx) := by
  have hlen := length_sha256Padding ctx
  have hle := (padLength_bounds ctx).2
  rw [rawFinalize, rawPadding_raw, Option.bind_eq_bind, Option.bind_some,
    rawUpdate_raw (by omega)]
  rfl

/-! ## Bytes -/

/-- What a context is after a message: the hash value of its whole blocks, and what is behind
them. -/
structure Absorbed (ctx : Sha256Ctx) (message : List UInt8) : Prop where
  hash : hashOf ctx.hash = hashBlocks message
  length : ctx.dataLength.val = message.length % 64
  data : ctx.data.toList.take ctx.dataLength = message.drop (64 * (message.length / 64))

/-- The chunk after a byte more. -/
theorem Absorbed.take_set {ctx : Sha256Ctx} {message : List UInt8} (H : Absorbed ctx message)
    (b : UInt8) (hdata : ctx.dataLength.val < 64) :
    (ctx.data.set ctx.dataLength b hdata).toList.take (ctx.dataLength + 1) =
      (message ++ [b]).drop (64 * (message.length / 64)) := by
  have hlt : ctx.dataLength.val < ctx.data.toList.length := by simp
  rw [List.drop_append_of_le_length (by omega), ← H.data, Vector.toList_set, List.take_set,
    List.take_succ_eq_append_getElem hlt, List.set_append_right _ _ (by simp)]
  simp

/-- A byte more. -/
theorem Absorbed.feed {ctx : Sha256Ctx} {message : List UInt8} (H : Absorbed ctx message)
    (b : UInt8) : Absorbed (feed ctx b) (message ++ [b]) := by
  have hset := H.take_set b ctx.dataLength.isLt
  have hlen := H.length
  rw [Sha256.feed]
  split
  next hfull =>
    have hblocks : (message ++ [b]).length / 64 = message.length / 64 + 1 := by
      rw [List.length_append, List.length_singleton]
      omega
    have hrest : (message ++ [b]).length % 64 = 0 := by
      rw [List.length_append, List.length_singleton]
      omega
    have hdata : (ctx.data.set ctx.dataLength b).toList =
        block (message ++ [b]) (message.length / 64) := by
      rw [hfull] at hset
      rw [block, ← hset, List.take_take, min_self, List.take_of_length_le (by simp)]
    refine ⟨?_, hrest.symm, ?_⟩
    · rw [Fips180.hashBlocks_append_block hblocks, ← H.hash, ← hdata]
      exact hashOf_processChunk _
    · rw [hblocks, List.drop_of_length_le (by omega)]
      rfl
  next hpart =>
    have hblocks : (message ++ [b]).length / 64 = message.length / 64 := by
      rw [List.length_append, List.length_singleton]
      omega
    refine ⟨?_, ?_, ?_⟩
    · rw [Fips180.hashBlocks_append hblocks]
      exact H.hash
    · rw [List.length_append, List.length_singleton]
      simp only
      omega
    · rw [hblocks]
      exact hset

/-- **A context absorbs** bytes one after another. -/
theorem Absorbed.foldl_feed {ctx : Sha256Ctx} {message : List UInt8} (H : Absorbed ctx message)
    (bs : List UInt8) : Absorbed (bs.foldl Sha256.feed ctx) (message ++ bs) := by
  induction bs generalizing ctx message with
  | nil => rwa [List.append_nil]
  | cons b bs ih =>
    rw [List.append_cons, List.foldl_cons]
    exact ih (H.feed b)

/-- The hash words are written most significant byte first. -/
theorem toList_sha256Finalize (ctx : Sha256Ctx) :
    (sha256Finalize hostRead ctx).toList =
      (hashOf (sha256Update hostRead ctx (sha256Padding ctx)).hash).bytes := by
  have hmask : ∀ x : UInt32, (x &&& 0xff).toUInt8 = x.toUInt8 := fun x => by
    have hff : (0xff : UInt32).toNat = 2 ^ 8 - 1 := rfl
    rw [← UInt8.toNat_inj, UInt32.toNat_toUInt8, UInt32.toNat_toUInt8, UInt32.toNat_and, hff,
      Nat.and_two_pow_sub_one_eq_mod, Nat.mod_mod]
  rw [sha256Finalize, Vector.toList_ofFn]
  simp only [hmask]
  rfl

/-! ## The message -/

/-- A context has the length of a message, and has absorbed it. -/
structure Counted (ctx : Sha256Ctx) (message : List UInt8) : Prop extends Absorbed ctx message where
  total : ctx.totalLength = .ofNat (8 * message.length)

/-- An update with more of a message. -/
theorem Counted.update {ctx : Sha256Ctx} {message : List UInt8} (H : Counted ctx message)
    (bs : List UInt8) : Counted (sha256Update hostRead ctx bs) (message ++ bs) := by
  have hbefore : Absorbed { ctx with totalLength := hostRead ctx.totalLength +
      8 * bs.length.toUInt64 } message := ⟨H.hash, H.length, H.data⟩
  refine ⟨hbefore.foldl_feed bs, ?_⟩
  rw [sha256Update, foldl_feed_totalLength]
  simp only [hostRead, H.total, List.length_append, Nat.mul_add, UInt64.ofNat_add, UInt64.ofNat_mul]
  rfl

theorem counted_start (data : Bytes 64) : Counted ⟨data, 0, h, 0⟩ [] :=
  ⟨⟨hashOf_h, rfl, rfl⟩, rfl⟩

theorem foldlM_rawUpdate {pieces : List (List UInt8)} (H : pieces.flatten.length < 2 ^ 31)
    (ctx : Sha256Ctx) :
    pieces.foldlM rawUpdate ctx.raw = some (pieces.foldl (sha256Update hostRead) ctx).raw := by
  induction pieces generalizing ctx with
  | nil => rfl
  | cons bs pieces ih =>
    rw [List.flatten_cons, List.length_append] at H
    rw [List.foldlM_cons, rawUpdate_raw (by omega), List.foldl_cons, ← ih (by omega)]
    rfl

theorem Counted.foldl {ctx : Sha256Ctx} {message : List UInt8} (H : Counted ctx message)
    (pieces : List (List UInt8)) :
    Counted (pieces.foldl (sha256Update hostRead) ctx) (message ++ pieces.flatten) := by
  induction pieces generalizing ctx message with
  | nil => rwa [List.flatten_nil, List.append_nil]
  | cons bs pieces ih =>
    rw [List.flatten_cons, ← List.append_assoc]
    exact ih (H.update bs)

/-- The digest is read off a context that has absorbed the message and its padding. -/
theorem exists_rawDigest_eq {pieces : List (List UInt8)} (H : pieces.flatten.length < 2 ^ 31)
    (ctx : RawCtx) :
    ∃ c, Counted c pieces.flatten ∧ (rawDigest ctx pieces).map Vector.toList =
      some (hashBlocks (pieces.flatten ++ sha256Padding c)).bytes := by
  have hcounted := (counted_start ctx.data).foldl pieces
  rw [List.nil_append] at hcounted
  refine ⟨_, hcounted, ?_⟩
  have hinit : rawInitialize ctx = (⟨ctx.data, 0, h, 0⟩ : Sha256Ctx).raw := rfl
  rw [rawDigest, hinit, foldlM_rawUpdate H, Option.bind_eq_bind, Option.bind_some, rawFinalize_raw,
    Option.map_some, toList_sha256Finalize, (hcounted.update _).hash]

/-- Items put from a place back are those of a list before that place, in reverse. -/
theorem take_foldl_set {α : Type*} (l : List α) (f : ℕ → α) {m n : ℕ} (hn : n ≤ m)
    (hm : m ≤ l.length) :
    ((List.range n).foldl (fun l i => l.set (m - 1 - i) (f i)) l).take m =
      l.take (m - n) ++ ((List.range n).map f).reverse := by
  induction n with
  | zero => simp
  | succ n ih =>
    have hsplit : l.take (m - n) = l.take (m - (n + 1)) ++ [l[m - (n + 1)]] := by
      rw [← List.take_succ_eq_append_getElem]
      congr 1
      omega
    have hlen : (l.take (m - (n + 1))).length = m - 1 - n := by
      rw [List.length_take]
      omega
    rw [List.range_succ, List.foldl_append, List.foldl_cons, List.foldl_nil, List.take_set,
      ih (by omega), hsplit, List.append_assoc, List.set_append_right _ _ hlen.le, hlen,
      Nat.sub_self, List.map_append, List.reverse_append]
    rfl

/-- The bytes of the bit count, from the least significant one on. -/
theorem reverse_map_byte {n : ℕ} (H : n < 2 ^ 64) :
    ((List.range 8).map fun i => (UInt64.ofNat n >>> (8 * i).toUInt64).toUInt8).reverse =
      be64 n := by
  have hbyte : ∀ i < 8, (UInt64.ofNat n >>> (8 * i).toUInt64).toUInt8 = .ofNat (n >>> (8 * i)) :=
    fun i hi => by
      rw [← UInt8.toNat_inj, UInt64.toNat_toUInt8, UInt64.toNat_shiftRight, Nat.toUInt64_eq,
        UInt64.toNat_ofNat', UInt64.toNat_ofNat', UInt8.toNat_ofNat', Nat.mod_eq_of_lt H,
        Nat.mod_eq_of_lt (show 8 * i < 2 ^ 64 by omega),
        Nat.mod_eq_of_lt (show 8 * i < 64 by omega)]
  rw [List.map_congr_left fun i hi => hbyte i (List.mem_range.mp hi)]
  rfl

/-- The padding is a bit, zeros and the length of the message. -/
theorem sha256Padding_eq {ctx : Sha256Ctx} {message : List UInt8} (H : Counted ctx message)
    (hlen : 8 * message.length < 2 ^ 64) :
    sha256Padding ctx =
      0x80 :: List.replicate (padLength ctx - 9) 0 ++ be64 (8 * message.length) := by
  obtain ⟨hge, hle⟩ := padLength_bounds ctx
  have hlist : ∀ (padding : Bytes 128) (n : ℕ), ((List.range n).foldl (fun p i =>
      p.set! (padLength ctx - 1 - i) (ctx.totalLength >>> (8 * i).toUInt64).toUInt8)
        padding).toList = (List.range n).foldl (fun l i =>
      l.set (padLength ctx - 1 - i) (ctx.totalLength >>> (8 * i).toUInt64).toUInt8)
        padding.toList := fun padding n => by
    rw [List.foldl_hom Vector.toList]
    exact fun x y => by simp
  have hstart : ((Vector.replicate 128 (0 : UInt8)).set! 0 0x80).toList.take (padLength ctx - 8) =
      0x80 :: List.replicate (padLength ctx - 9) 0 := by
    have hsucc : padLength ctx - 8 = padLength ctx - 9 + 1 := by omega
    have hcons : ((Vector.replicate 128 (0 : UInt8)).set! 0 0x80).toList =
        0x80 :: List.replicate 127 0 := by
      rw [Vector.toList_set!, Vector.toList_replicate, List.replicate_succ, List.set_cons_zero]
    rw [hcons, hsucc, List.take_succ_cons, List.take_replicate, min_eq_left (by omega)]
  have hpadding : sha256Padding ctx = ((List.range 8).foldl (fun p i =>
      p.set! (padLength ctx - 1 - i) (ctx.totalLength >>> (8 * i).toUInt64).toUInt8)
        ((Vector.replicate 128 (0 : UInt8)).set! 0 0x80)).toList.take (padLength ctx) := by
    simp only [sha256Padding, padLength]
  rw [hpadding, hlist, take_foldl_set _ _ (by omega) (by simpa using hle), hstart, H.total,
    reverse_map_byte hlen]

/-- The message up to the end of the chunk that it ends in, where that has room for a bit behind it
and not for the length. -/
def filled (message : List UInt8) : List UInt8 :=
  message ++ 0x80 :: List.replicate (63 - message.length % 64) 0

/-- The block with the length, where the message is in none of its bytes. -/
def lastBlock (message : List UInt8) : List UInt8 :=
  List.replicate 56 0 ++ be64 (8 * message.length)

/-- The block with the length does not change the hash value of a message. -/
def Unmoved (message : List UInt8) : Prop :=
  compress (hashBlocks (filled message)) (lastBlock message) = hashBlocks (filled message)

section
variable {ctx : Sha256Ctx} {message : List UInt8}

/-- Where the length is in the chunk that the message ends in, the message is padded. -/
theorem append_padding_of_lt (H : Counted ctx message) (hlen : 8 * message.length < 2 ^ 64)
    (hlt : message.length % 64 < 56) : message ++ sha256Padding ctx = Fips180.pad message := by
  have hzeros : padLength ctx - 9 = zeros message.length := by
    rw [padLength, H.length, if_pos hlt, zeros]
    omega
  rw [sha256Padding_eq H hlen, hzeros, Fips180.pad, List.append_assoc]

/-- Else its chunk is filled up, and the next one is not. -/
theorem hashBlocks_append_padding (H : Counted ctx message) (hlen : 8 * message.length < 2 ^ 64)
    (hge : 56 ≤ message.length % 64) :
    hashBlocks (message ++ sha256Padding ctx) = hashBlocks (filled message) := by
  have hzeros : padLength ctx - 9 = 63 - message.length % 64 + 48 := by
    rw [padLength, H.length, if_neg (by omega)]
    omega
  have hsplit : message ++ sha256Padding ctx =
      filled message ++ (List.replicate 48 0 ++ be64 (8 * message.length)) := by
    rw [sha256Padding_eq H hlen, hzeros, List.replicate_add, filled]
    simp
  rw [hsplit, Fips180.hashBlocks_append]
  simp only [filled, List.length_append, List.length_cons, List.length_replicate,
    Fips180.length_be64]
  omega

end

/-- Of the padded message there is one block more. -/
theorem hashBlocks_pad {message : List UInt8} (hge : 56 ≤ message.length % 64) :
    hashBlocks (Fips180.pad message) =
      compress (hashBlocks (filled message)) (lastBlock message) := by
  have hzeros : zeros message.length = 63 - message.length % 64 + 56 := by
    rw [zeros]
    omega
  have hsplit : Fips180.pad message = filled message ++ lastBlock message := by
    rw [Fips180.pad, hzeros, List.replicate_add, filled, lastBlock]
    simp
  have hfilled : (filled message).length = 64 * ((filled message).length / 64) := by
    simp only [filled, List.length_append, List.length_cons, List.length_replicate]
    omega
  have hlast : (lastBlock message).length = 64 := by
    rw [lastBlock, List.length_append, List.length_replicate, Fips180.length_be64]
  have hblock : block (filled message ++ lastBlock message) ((filled message).length / 64) =
      lastBlock message := by
    rw [block, ← hfilled, List.drop_left, List.take_of_length_le hlast.le]
  rw [hsplit, Fips180.hashBlocks_append_block, hblock]
  rw [List.length_append, hlast]
  omega

theorem law_of_lt {pieces : List (List UInt8)} (H : pieces.flatten.length < 2 ^ 31)
    (hlt : pieces.flatten.length % 64 < 56) : Law pieces := by
  intro ctx
  obtain ⟨c, hcounted, hrun⟩ := exists_rawDigest_eq H ctx
  rw [hrun, append_padding_of_lt hcounted (by omega) hlt, Fips180.digest]

theorem law_iff_unmoved {pieces : List (List UInt8)} (H : pieces.flatten.length < 2 ^ 31)
    (hge : 56 ≤ pieces.flatten.length % 64) : Law pieces ↔ Unmoved pieces.flatten := by
  have hdigest : ∀ ctx, (rawDigest ctx pieces).map Vector.toList =
      some (hashBlocks (filled pieces.flatten)).bytes := fun ctx => by
    obtain ⟨c, hcounted, hrun⟩ := exists_rawDigest_eq H ctx
    rw [hrun, hashBlocks_append_padding hcounted (by omega) hge]
  rw [Unmoved, ← hashBlocks_pad hge]
  constructor
  · intro hlaw
    have hbytes := (hdigest ⟨default, 0, h, 0⟩).symm.trans (hlaw _)
    exact (Hash.bytes_injective (Option.some.inj hbytes)).symm
  · intro heq ctx
    rw [hdigest, Fips180.digest, heq]

/-- **The digest is that of the standard** where the message leaves room for a bit and its length in
the chunk that it ends in, and else only if its hash value is the same without the length. -/
theorem law_iff (pieces : List (List UInt8)) (H : pieces.flatten.length < 2 ^ 31) :
    Law pieces ↔ pieces.flatten.length % 64 < 56 ∨ Unmoved pieces.flatten := by
  by_cases hlt : pieces.flatten.length % 64 < 56
  · exact iff_of_true (law_of_lt H hlt) (Or.inl hlt)
  · rw [or_iff_right hlt]
    exact law_iff_unmoved H (by omega)

/-- A message of three bytes, in two pieces. -/
theorem law_pieces : Law [[0x61], [0x62, 0x63]] :=
  (law_iff [[0x61], [0x62, 0x63]] (by decide)).mpr (Or.inl (by decide))

/-- A message that leaves no room for its length. -/
def long : List UInt8 := List.replicate 56 0x61

/-- The chunk that it ends in. -/
def longChunk : Sha256Ctx :=
  { sha256Initialize with
    data := Vector.ofFn fun i => if i.val < 56 then 0x61 else if i.val = 56 then 0x80 else 0 }

/-- The chunk with its length. -/
def lengthChunk : Sha256Ctx :=
  { sha256Initialize with
    data := Vector.ofFn fun i => if i.val = 62 then 0x01 else if i.val = 63 then 0xc0 else 0
    hash := (processChunk longChunk).hash }

theorem hash_lengthChunk : (processChunk lengthChunk).hash[0]! ≠ lengthChunk.hash[0]! := by
  decide +kernel

theorem not_unmoved_long : ¬Unmoved long := by
  have hlong : hashBlocks (filled long) = hashOf lengthChunk.hash := by
    have hdata : longChunk.data.toList = block (filled long) 0 := by decide
    have hone : (filled long).length / 64 = 1 := by decide
    have hstart : hashOf longChunk.hash = Fips180.H0 := hashOf_h
    rw [lengthChunk, hashOf_processChunk, hdata, hstart, hashBlocks, hone, List.range_one,
      List.foldl_cons, List.foldl_nil]
  have hlength : lengthChunk.data.toList = lastBlock long := by decide
  rw [Unmoved, hlong, ← hlength, ← hashOf_processChunk]
  exact fun heq => hash_lengthChunk (Hash.mk.inj heq).1

/-- Its digest is another one. -/
theorem not_law_long :
    ¬∀ pieces : List (List UInt8), pieces.flatten.length < 2 ^ 31 → Law pieces := by
  intro H
  have hflat : [long].flatten = long := List.flatten_singleton
  have hlen : long.length = 56 := List.length_replicate
  have hlt : [long].flatten.length < 2 ^ 31 := by rw [hflat, hlen]; decide
  have hge : 56 ≤ [long].flatten.length % 64 := by rw [hflat, hlen]
  have hunmoved := (law_iff_unmoved hlt hge).mp (H [long] hlt)
  rw [hflat] at hunmoved
  exact not_unmoved_long hunmoved

end Sha256
end MassGridMiner

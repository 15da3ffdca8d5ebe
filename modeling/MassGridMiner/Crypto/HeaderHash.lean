import MassGridMiner.Crypto.Sha2
import MassGridMiner.JumpHash

/-!
# The double hash of a header

The data of a work holds a block header with the bytes of each word reversed, and the padding that
SHA-256 puts behind it.  The hash of the first block of the header is kept as the midstate, and the
rest is hashed for each nonce.

## Main definitions

* `genHash`, `calcMidstate` — `gen_hash` and `calc_midstate`.
* `header`, `doubleHash` — the header with a nonce, and its hash.
* `libbitfuryRehash`, `bitfuryFudgeNonce` — the search for the nonce that a chip meant.
-/

namespace MassGridMiner

open Fips180 (beWords)
open Sha256 (hashOf)

/-- A word of a buffer, on a little-endian host. -/
def leWord {n : ℕ} (v : Bytes n) (i : ℕ) : UInt32 := .ofNat (v.word32 i)

/-- `gen_hash`.  The blocks are what the contexts hold at first. -/
def genHash (block block' data : List UInt8) (len : Int32) : Option (List UInt8) := do
  let hash1 ← Sha2.sha256 block data len.toUInt32
  Sha2.sha256 block' hash1 32

/-- `calc_midstate`. -/
def calcMidstate (block : List UInt8) (data : Bytes 128) : Option (Vector UInt32 8) :=
  (Sha2.update (Sha2.init block) (swap32yes data 16) 64).map Sha2.Ctx.h

/-- The block header of a work, with a nonce. -/
def header (data : Bytes 128) (nonce : UInt32) : List UInt8 := swap32yes data 19 ++ be32 nonce

/-- SHA-256 of SHA-256. -/
noncomputable def doubleHash (message : List UInt8) : List UInt8 :=
  Fips180.digest (Fips180.digest message)

/-- The last word of the hash of the header is zero. -/
def Solves (data : Bytes 128) (nonce : UInt32) : Prop :=
  (doubleHash (header data nonce)).drop 28 = [0, 0, 0, 0]

/-- `libbitfury_rehash`.  A word with its bytes reversed is in memory as `be32` of it. -/
def libbitfuryRehash (midstate : Vector UInt32 8) (m7 ntime nbits nnonce : UInt32) :
    Option Bool := do
  let ctx : Sha2.Ctx := { totLen := 64, len := 0, block := List.replicate 128 0, h := midstate }
  let ctx ← Sha2.update ctx (be32 m7 ++ be32 ntime ++ be32 nbits ++ be32 nnonce) 16
  let out ← Sha2.final ctx
  let out ← Sha2.sha256 (List.replicate 128 0) out 32
  return decide (out.drop 28 = [0, 0, 0, 0])

/-- The table `offsets`. -/
def offsets : List UInt32 := [0, 0xffc00000, 0xff800000, 0x02800000, 0x02C00000, 0x00400000]

/-- The loop of `bitfury_fudge_nonce`. -/
def fudgeFrom (midstate : Vector UInt32 8) (m7 ntime nbits nonce : UInt32) :
    List UInt32 → Option (Option UInt32)
  | [] => some none
  | offset :: rest => do
    if ← libbitfuryRehash midstate m7 ntime nbits (nonce + offset) then
      return some (nonce + offset)
    else fudgeFrom midstate m7 ntime nbits nonce rest

/-- `bitfury_fudge_nonce`: the nonce that is found, if one is. -/
def bitfuryFudgeNonce (midstate : Vector UInt32 8) (m7 ntime nbits nonce : UInt32) :
    Option (Option UInt32) :=
  fudgeFrom midstate m7 ntime nbits nonce offsets

/-! ## Headers as words -/

theorem be32_leWord {n : ℕ} (v : Bytes n) (i : ℕ) : be32 (leWord v i) =
    [v[4 * i + 3]?.getD 0, v[4 * i + 2]?.getD 0, v[4 * i + 1]?.getD 0, v[4 * i]?.getD 0] := by
  have h0 := v.byte_lt (4 * i)
  have h1 := v.byte_lt (4 * i + 1)
  have h2 := v.byte_lt (4 * i + 2)
  have h3 := v.byte_lt (4 * i + 3)
  have hbyte : ∀ j, (v[j]?.getD 0).toNat = v.byte j := fun _ => rfl
  simp only [be32, List.cons.injEq, and_true, ← UInt8.toNat_inj, UInt32.toNat_toUInt8,
    UInt32.toNat_shiftRight, UInt32.reduceToNat, Nat.reduceMod, Nat.shiftRight_eq_div_pow, leWord,
    UInt32.toNat_ofNat', hbyte, Bytes.word32]
  omega

/-- Words with their bytes reversed. -/
theorem swap32yes_eq {n : ℕ} (v : Bytes n) (sz : ℕ) : swap32yes v sz = beWords (leWord v) sz := by
  induction sz with
  | zero => rfl
  | succ sz ih =>
    have hrange : List.range (4 * (sz + 1)) =
        List.range (4 * sz) ++ [4 * sz, 4 * sz + 1, 4 * sz + 2, 4 * sz + 3] := by
      rw [Nat.mul_succ, List.range_add]
      rfl
    have hdiv : ∀ j < 4, (4 * sz + j) / 4 = sz ∧ (4 * sz + j) % 4 = j := fun j hj => by omega
    rw [Fips180.beWords_succ, ← ih, be32_leWord, swap32yes, hrange, List.map_append]
    simp [swap32yes, hdiv]

/-- The bytes of each word reversed. -/
def swapBytes : List UInt8 → List UInt8
  | a :: b :: c :: d :: rest => d :: c :: b :: a :: swapBytes rest
  | _ => []

theorem swapBytes_append {bs : List UInt8} {n : ℕ} (h : bs.length = 4 * n) (cs : List UInt8) :
    swapBytes (bs ++ cs) = swapBytes bs ++ swapBytes cs := by
  induction n generalizing bs with
  | zero => rw [List.eq_nil_of_length_eq_zero h]; rfl
  | succ n ih =>
    match bs, h with
    | a :: b :: c :: d :: rest, h =>
      simp only [List.length_cons] at h
      simp only [List.cons_append, swapBytes, ih (show rest.length = 4 * n by omega)]

/-- Twice reversed, the bytes are as before. -/
theorem swapBytes_swapBytes {bs : List UInt8} {n : ℕ} (h : bs.length = 4 * n) :
    swapBytes (swapBytes bs) = bs := by
  induction n generalizing bs with
  | zero => rw [List.eq_nil_of_length_eq_zero h]; rfl
  | succ n ih =>
    match bs, h with
    | a :: b :: c :: d :: rest, h =>
      simp only [List.length_cons] at h
      simp only [swapBytes, ih (show rest.length = 4 * n by omega)]

/-- The first words of a buffer, with their bytes reversed. -/
theorem swap32yes_eq_swapBytes {n : ℕ} (v : Bytes n) {sz : ℕ} (h : 4 * sz ≤ n) :
    swap32yes v sz = swapBytes (v.toList.take (4 * sz)) := by
  rw [swap32yes_eq]
  induction sz with
  | zero => rfl
  | succ sz ih =>
    have hlen : (v.toList.drop (4 * sz)).length = n - 4 * sz := by
      rw [List.length_drop, Vector.length_toList]
    obtain ⟨a, b, c, d, rest, hdrop⟩ : ∃ a b c d rest,
        v.toList.drop (4 * sz) = a :: b :: c :: d :: rest := by
      match hbs : v.toList.drop (4 * sz) with
      | a :: b :: c :: d :: rest => exact ⟨a, b, c, d, rest, rfl⟩
      | [] | [_] | [_, _] | [_, _, _] =>
        rw [hbs] at hlen
        simp only [List.length_cons, List.length_nil] at hlen
        omega
    have hget : ∀ j, v[4 * sz + j]? = (a :: b :: c :: d :: rest)[j]? := fun j => by
      rw [← hdrop, List.getElem?_drop, Vector.getElem?_toList]
    have hzero := hget 0
    rw [Nat.add_zero] at hzero
    have hfront : (v.toList.take (4 * sz)).length = 4 * sz :=
      List.length_take_of_le (by rw [Vector.length_toList]; omega)
    rw [Fips180.beWords_succ, ih (by omega), Nat.mul_succ, List.take_add, hdrop,
      swapBytes_append hfront, be32_leWord, hget, hget, hget, hzero]
    rfl

/-- A word of the header. -/
def headerWord (data : Bytes 128) (nonce : UInt32) (i : ℕ) : UInt32 :=
  if i = 19 then nonce else leWord data i

theorem header_eq (data : Bytes 128) (nonce : UInt32) :
    header data nonce = beWords (headerWord data nonce) 20 := by
  have hfront : beWords (leWord data) 19 = beWords (headerWord data nonce) 19 :=
    Fips180.beWords_congr fun i hi => (if_neg (by omega)).symm
  rw [header, swap32yes_eq, Fips180.beWords_succ (headerWord data nonce) 19, hfront]
  rfl

theorem length_swap32yes {n : ℕ} (v : Bytes n) (sz : ℕ) : (swap32yes v sz).length = 4 * sz := by
  rw [swap32yes_eq, Fips180.length_beWords]

/-- The header is the block that the midstate is of, and four words more. -/
theorem header_split (data : Bytes 128) (nonce : UInt32) : header data nonce = swap32yes data 16 ++
    (be32 (leWord data 16) ++ be32 (leWord data 17) ++ be32 (leWord data 18) ++ be32 nonce) := by
  rw [header, swap32yes_eq, swap32yes_eq, Fips180.beWords_succ, Fips180.beWords_succ,
    Fips180.beWords_succ]
  simp only [List.append_assoc]

theorem length_header (data : Bytes 128) (nonce : UInt32) : (header data nonce).length = 80 := by
  rw [header_eq, Fips180.length_beWords]

theorem length_digest (message : List UInt8) : (Fips180.digest message).length = 32 := rfl

/-! ## The hashes -/

/-- `gen_hash` is SHA-256 of SHA-256. -/
theorem genHash_eq {block block' data : List UInt8} {len : Int32} (hblock : block.length = 128)
    (hblock' : block'.length = 128) (hlen : data.length = len.toUInt32.toNat)
    (hlt : data.length < 2 ^ 29) : genHash block block' data len = some (doubleHash data) := by
  rw [genHash, Sha2.sha256_eq hblock hlen hlt]
  exact Sha2.sha256_eq hblock' (length_digest _) (by rw [length_digest]; decide)

/-- The midstate is the hash value after the first block of the header. -/
theorem exists_calcMidstate {block : List UInt8} (hblock : block.length = 128)
    (data : Bytes 128) : ∃ midstate, calcMidstate block data = some midstate ∧
      hashOf midstate = Fips180.hashBlocks (swap32yes data 16) := by
  have hlen : (swap32yes data 16).length = (64 : UInt32).toNat := length_swap32yes data 16
  obtain ⟨ctx, hrun, H⟩ := (Sha2.absorbed_init hblock).update hlen (by rw [hlen]; decide)
  exact ⟨ctx.h, by rw [calcMidstate, hrun]; rfl, H.h_eq⟩

/-! ## The nonce that a chip meant -/

theorem libbitfuryRehash_eq {data : Bytes 128} {midstate : Vector UInt32 8}
    (hmid : hashOf midstate = Fips180.hashBlocks (swap32yes data 16)) (nonce : UInt32) :
    libbitfuryRehash midstate (leWord data 16) (leWord data 17) (leWord data 18) nonce =
      some (decide ((doubleHash (header data nonce)).drop 28 = [0, 0, 0, 0])) := by
  have hfront := length_swap32yes data 16
  have hctx : Sha2.Absorbed ⟨64, 0, List.replicate 128 0, midstate⟩ (swap32yes data 16) := by
    refine ⟨by rw [hfront]; rfl, by rw [hfront]; rfl, ?_, hmid⟩
    rw [hfront, List.drop_of_length_le hfront.le]
    exact starts_nil List.length_replicate
  have hlen : (be32 (leWord data 16) ++ be32 (leWord data 17) ++ be32 (leWord data 18) ++
      be32 nonce).length = (16 : UInt32).toNat := rfl
  obtain ⟨ctx, hrun, H⟩ := hctx.update hlen (by rw [hfront, hlen]; decide)
  rw [← header_split] at H
  have hfinal := H.final (by rw [length_header]; decide)
  have hsecond : Sha2.sha256 (List.replicate 128 0) (Fips180.digest (header data nonce)) 32 =
      some (doubleHash (header data nonce)) :=
    Sha2.sha256_eq List.length_replicate (length_digest _) (by rw [length_digest]; decide)
  rw [libbitfuryRehash]
  simp only [Option.bind_eq_bind, hrun, Option.bind_some, hfinal, hsecond]
  rfl

/-- The loop finds the first offset that leads to a solution, if there is one. -/
theorem fudgeFrom_spec {data : Bytes 128} {midstate : Vector UInt32 8}
    (hmid : hashOf midstate = Fips180.hashBlocks (swap32yes data 16)) (nonce : UInt32)
    (os : List UInt32) :
    (∃ before offset after, os = before ++ offset :: after ∧ Solves data (nonce + offset) ∧
        (∀ o ∈ before, ¬Solves data (nonce + o)) ∧
        fudgeFrom midstate (leWord data 16) (leWord data 17) (leWord data 18) nonce os =
          some (some (nonce + offset))) ∨
      (∀ o ∈ os, ¬Solves data (nonce + o)) ∧
        fudgeFrom midstate (leWord data 16) (leWord data 17) (leWord data 18) nonce os =
          some none := by
  induction os with
  | nil => exact .inr ⟨nofun, rfl⟩
  | cons offset rest ih =>
    have hrehash := libbitfuryRehash_eq hmid (nonce + offset)
    by_cases hsolves : Solves data (nonce + offset)
    · refine .inl ⟨[], offset, rest, rfl, hsolves, nofun, ?_⟩
      rw [Solves] at hsolves
      simp [fudgeFrom, hrehash, hsolves]
    · have hnext : fudgeFrom midstate (leWord data 16) (leWord data 17) (leWord data 18) nonce
          (offset :: rest) =
          fudgeFrom midstate (leWord data 16) (leWord data 17) (leWord data 18) nonce rest := by
        have hfails := hsolves
        rw [Solves] at hfails
        simp [fudgeFrom, hrehash, hfails]
      rcases ih with ⟨before, o, after, rfl, hfound, hbefore, hrun⟩ | ⟨hnone, hrun⟩
      · exact .inl ⟨offset :: before, o, after, rfl, hfound,
          List.forall_mem_cons.mpr ⟨hsolves, hbefore⟩, hnext.trans hrun⟩
      · exact .inr ⟨List.forall_mem_cons.mpr ⟨hsolves, hnone⟩, hnext.trans hrun⟩

/-- **With the midstate of the work**, `bitfury_fudge_nonce` makes of a chip's nonce the first of
the six that gives the header a hash whose last word is zero, and fails where none of them does. -/
theorem bitfuryFudgeNonce_spec (block : Bytes 128) (data : Bytes 128) (nonce : UInt32) :
    ∃ midstate, calcMidstate block.toList data = some midstate ∧
      ((∃ before offset after, offsets = before ++ offset :: after ∧
          Solves data (nonce + offset) ∧ (∀ o ∈ before, ¬Solves data (nonce + o)) ∧
          bitfuryFudgeNonce midstate (leWord data 16) (leWord data 17) (leWord data 18) nonce =
            some (some (nonce + offset))) ∨
        (∀ o ∈ offsets, ¬Solves data (nonce + o)) ∧
          bitfuryFudgeNonce midstate (leWord data 16) (leWord data 17) (leWord data 18) nonce =
            some none) := by
  obtain ⟨midstate, hrun, hmid⟩ := exists_calcMidstate block.length_toList data
  exact ⟨midstate, hrun, fudgeFrom_spec hmid nonce offsets⟩

end MassGridMiner

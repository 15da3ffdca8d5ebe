import MassGridMiner.Crypto.HeaderHash
import MassGridMiner.Share.Work2d

/-!
# The plain scan on the host

`scanhash_c` tries one nonce after another.  It hashes the second block of the header from the
midstate, and the digest with its padding from the initial hash value, with a SHA-256 of its own
whose rounds are written out one by one.

## Main definitions

* `Generic.transform` — `sha256_transform` of `sha256_generic.c`.
* `scanhashC` — `scanhash_c`.
* `scanhashC_spec` — it finds the first nonce with a solution.
-/

namespace MassGridMiner

open Fips180 (beWords)
open Sha256 (rotr hashOf Vars)

namespace Generic

def ch (x y z : UInt32) : UInt32 := z ^^^ (x &&& (y ^^^ z))
def maj (x y z : UInt32) : UInt32 := (x &&& y) ||| (z &&& (x ||| y))
def e0 (x : UInt32) : UInt32 := rotr x 2 ^^^ rotr x 13 ^^^ rotr x 22
def e1 (x : UInt32) : UInt32 := rotr x 6 ^^^ rotr x 11 ^^^ rotr x 25
def s0 (x : UInt32) : UInt32 := rotr x 7 ^^^ rotr x 18 ^^^ (x >>> 3)
def s1 (x : UInt32) : UInt32 := rotr x 17 ^^^ rotr x 19 ^^^ (x >>> 10)

/-- `BLEND_OP`. -/
def blendOp (w : Vector UInt32 64) (i : ℕ) : Vector UInt32 64 :=
  w.set! i (s1 w[i - 2]! + w[i - 7]! + s0 w[i - 15]! + w[i - 16]!)

/-- The words `W`. -/
def blended (input : Vector UInt32 16) : Vector UInt32 64 :=
  (List.range' 16 48).foldl blendOp
    (Vector.ofFn fun i => if i.val < 16 then input[i.val]! else 0)

/-- A line of the rounds: what becomes of the variables in the places of `d` and `h`. -/
def line (a b c d e f g h k w : UInt32) : UInt32 × UInt32 :=
  let t1 := h + e1 e + ch e f g + k + w
  let t2 := e0 a + maj a b c
  (d + t1, t1 + t2)

/-- Eight lines, after which the variables are in their places again.  The constants that are
written in the lines are those of the tables of the other implementations. -/
def eightLines (w : Vector UInt32 64) (v : Vars) (i : ℕ) : Vars :=
  let k j := Sha2.sha256K[8 * i + j]!
  let w j := w[8 * i + j]!
  let ⟨a, b, c, d, e, f, g, h⟩ := v
  let (d, h) := line a b c d e f g h (k 0) (w 0)
  let (c, g) := line h a b c d e f g (k 1) (w 1)
  let (b, f) := line g h a b c d e f (k 2) (w 2)
  let (a, e) := line f g h a b c d e (k 3) (w 3)
  let (h, d) := line e f g h a b c d (k 4) (w 4)
  let (g, c) := line d e f g h a b c (k 5) (w 5)
  let (f, b) := line c d e f g h a b (k 6) (w 6)
  let (e, a) := line b c d e f g h a (k 7) (w 7)
  ⟨a, b, c, d, e, f, g, h⟩

/-- `sha256_transform`. -/
def transform (state : Vector UInt32 8) (input : Vector UInt32 16) : Vector UInt32 8 :=
  let v := (List.range 8).foldl (eightLines (blended input)) (Sha2.vars state)
  Array.toVector #[state[0]! + v.a, state[1]! + v.b, state[2]! + v.c, state[3]! + v.d,
    state[4]! + v.e, state[5]! + v.f, state[6]! + v.g, state[7]! + v.h]

/-- `sha256_init_state`. -/
def sha256InitState : Vector UInt32 8 := Array.toVector #[
  0x6a09e667, 0xbb67ae85, 0x3c6ef372, 0xa54ff53a, 0x510e527f, 0x9b05688c, 0x1f83d9ab, 0x5be0cd19]

/-- `hash1_init`. -/
def hash1Init : Vector UInt32 16 := Array.toVector #[
  0, 0, 0, 0, 0, 0, 0, 0, 0x80000000, 0, 0, 0, 0, 0, 0, 0x100]

/-- The two calls of `runhash`: the second block of the data with the nonce in it, then the digest
in front of its padding. -/
def hashNonce (midstate : Vector UInt32 8) (data : Bytes 128) (n : UInt32) : Vector UInt32 8 :=
  let input := Vector.ofFn fun i : Fin 16 => if i.val = 3 then n else leWord data (16 + i.val)
  let hash1 := transform midstate input
  transform sha256InitState
    (Vector.ofFn fun i : Fin 16 => if i.val < 8 then hash1[i.val]! else hash1Init[i.val]!)

end Generic

/-- What `scanhash_c` returns, and what it leaves in the data and in the hash of the work. -/
structure ScanhashResult where
  found : Bool
  lastNonce : UInt32
  data : Bytes 128
  hash : Vector UInt32 8

/-- The loop of `scanhash_c`.  `restart` is what `work_restart` is when it is looked at, after each
nonce. -/
def scanhashC (midstate : Vector UInt32 8) (data : Bytes 128) (maxNonce : UInt32)
    (restart : UInt32 → Bool) (n : UInt32) : ScanhashResult :=
  let hash := Generic.hashNonce midstate data n
  if hash[7]! = 0 then ⟨true, n, data.overwrite 76 (le32 n), hash⟩
  else if _h : maxNonce ≤ n ∨ restart n then ⟨false, n, data.overwrite 76 (le32 n), hash⟩
  else scanhashC midstate data maxNonce restart (n + 1)
termination_by 2 ^ 32 - n.toNat
decreasing_by
  have hlt : n < maxNonce := UInt32.not_le.mp fun hle => _h (.inl hle)
  have hmax := maxNonce.toNat_lt
  rw [UInt32.lt_iff_toNat_lt] at hlt
  rw [UInt32.toNat_add]
  simp only [UInt32.reduceToNat]
  omega

namespace Generic

/-! ## The rounds -/

theorem ch_eq (x y z : UInt32) : ch x y z = Sha256.ch x y z := by
  apply UInt32.toBitVec_inj.mp
  apply BitVec.eq_of_getLsbD_eq
  intro i hi
  simp only [ch, Sha256.ch, UInt32.toBitVec_xor, UInt32.toBitVec_and, UInt32.toBitVec_not,
    BitVec.getLsbD_xor, BitVec.getLsbD_and, BitVec.getLsbD_not, hi, decide_true, Bool.true_and]
  cases x.toBitVec.getLsbD i <;> cases y.toBitVec.getLsbD i <;> simp

theorem maj_eq (x y z : UInt32) : maj x y z = Sha256.maj x y z := by
  apply UInt32.toBitVec_inj.mp
  apply BitVec.eq_of_getLsbD_eq
  intro i _
  simp only [maj, Sha256.maj, UInt32.toBitVec_xor, UInt32.toBitVec_and, UInt32.toBitVec_or,
    BitVec.getLsbD_xor, BitVec.getLsbD_and, BitVec.getLsbD_or]
  cases x.toBitVec.getLsbD i <;> cases y.toBitVec.getLsbD i <;> simp

/-- A round moves the variables on by one place, where a line writes others. -/
theorem round_eq_line (w : Vector UInt32 64) (a b c d e f g h : UInt32) (j : ℕ) :
    Sha256.round w ⟨a, b, c, d, e, f, g, h⟩ j =
      ⟨(line a b c d e f g h Sha2.sha256K[j]! w[j]!).2, a, b, c,
        (line a b c d e f g h Sha2.sha256K[j]! w[j]!).1, e, f, g⟩ := by
  simp only [line, ch_eq, maj_eq]
  rfl

theorem eightLines_eq (w : Vector UInt32 64) (v : Vars) (i : ℕ) :
    eightLines w v i = (List.range' (8 * i) 8).foldl (Sha256.round w) v := by
  obtain ⟨a, b, c, d, e, f, g, h⟩ := v
  simp only [eightLines, List.range', List.foldl_cons, List.foldl_nil, round_eq_line]
  rfl

theorem foldl_eightLines (w : Vector UInt32 64) (v : Vars) :
    (List.range 8).foldl (eightLines w) v = (List.range 64).foldl (Sha256.round w) v := by
  have hrange : List.range 64 = (List.range 8).flatMap fun i => List.range' (8 * i) 8 := by decide
  have hlines : eightLines w = fun v i => (List.range' (8 * i) 8).foldl (Sha256.round w) v := by
    funext v i
    exact eightLines_eq w v i
  rw [hrange, List.foldl_flatMap, hlines]

theorem blendOp_eq : blendOp = Sha256.expand := Sha2.scr_eq

/-- The words are those of the block that they are the first sixteen of. -/
theorem blended_eq {input : Vector UInt32 16} {data : Bytes 64}
    (H : data.toList = beWords (fun t => input[t]!) 16) : blended input = Sha256.schedule data := by
  have hfirst : (Vector.ofFn fun i : Fin 64 => if i.val < 16 then input[i.val]! else 0) =
      Sha256.chunkWords data := by
    apply Vector.ext
    intro j hj
    by_cases hlt : j < 16
    · have hword := Sha256.getElem_chunkWords data hlt
      rw [getElem!_pos _ j hj, H, Fips180.word_beWords _ hlt] at hword
      rw [Vector.getElem_ofFn, hword]
      exact if_pos hlt
    · rw [Vector.getElem_ofFn, Sha256.chunkWords, Vector.getElem_ofFn, if_neg hlt, if_neg hlt]
  rw [blended, Sha256.schedule_eq_foldl, blendOp_eq, hfirst]

/-- **The rounds that are written out** are what the standard does with a block. -/
theorem hashOf_transform (state : Vector UInt32 8) (input : Vector UInt32 16) :
    hashOf (transform state input) =
      Fips180.compress (hashOf state) (beWords (fun t => input[t]!) 16) := by
  have hlen := Fips180.length_beWords (fun t => input[t]!) 16
  obtain ⟨data, hdata⟩ : ∃ data : Bytes 64, data.toList = beWords (fun t => input[t]!) 16 :=
    ⟨⟨(beWords (fun t => input[t]!) 16).toArray, by simpa using hlen⟩, by simp⟩
  have hrun := Sha256.foldl_round_eq (fun t ht => Sha256.schedule_eq data ht) (Sha2.vars state)
    le_rfl
  rw [← foldl_eightLines, ← blended_eq hdata, Sha2.hash_vars] at hrun
  rw [Fips180.compress, ← hdata, ← hrun, transform]
  simp only [hashOf, Vars.hash, Fips180.Hash.mk.injEq]
  exact ⟨UInt32.add_comm .., UInt32.add_comm .., UInt32.add_comm .., UInt32.add_comm ..,
    UInt32.add_comm .., UInt32.add_comm .., UInt32.add_comm .., UInt32.add_comm ..⟩

/-! ## The hash of a nonce -/

/-- The padding of a header, as the last words of a work have it. -/
def padWord (i : ℕ) : UInt32 := if i = 20 then 0x80000000 else if i = 31 then 0x280 else 0

theorem pad_header (data : Bytes 128) (n : UInt32) : Fips180.pad (header data n) =
    beWords (headerWord data n) 20 ++ beWords (fun i => padWord (20 + i)) 12 := by
  have hpad : 0x80 :: List.replicate (Fips180.zeros 80) 0 ++ Fips180.be64 (8 * 80) =
      beWords (fun i => padWord (20 + i)) 12 := by decide
  rw [Fips180.pad, length_header, ← hpad, header_eq, List.append_assoc]

/-- The words behind the header are its padding. -/
theorem leWord_eq_padWord {data : Bytes 128} (hpad : data.toList.drop 80 = workpaddingBin) {k : ℕ}
    (hk : k < 12) : leWord data (20 + k) = padWord (20 + k) := by
  have hbyte : ∀ j, data.byte (80 + j) = (workpaddingBin[j]?.getD 0).toNat := fun j => by
    rw [← hpad, List.getElem?_drop, Vector.getElem?_toList]
    rfl
  have hall : ∀ k < 12, UInt32.ofNat ((workpaddingBin[4 * k]?.getD 0).toNat +
      2 ^ 8 * (workpaddingBin[4 * k + 1]?.getD 0).toNat +
      2 ^ 16 * (workpaddingBin[4 * k + 2]?.getD 0).toNat +
      2 ^ 24 * (workpaddingBin[4 * k + 3]?.getD 0).toNat) = padWord (20 + k) := by decide
  rw [leWord, Bytes.word32, show 4 * (20 + k) = 80 + 4 * k by omega, Nat.add_assoc 80,
    Nat.add_assoc 80, Nat.add_assoc 80, hbyte, hbyte, hbyte, hbyte]
  exact hall k hk

/-- The second block of the padded header is the second half of the data, with the nonce. -/
theorem pad_header_eq {data : Bytes 128} (hpad : data.toList.drop 80 = workpaddingBin)
    (n : UInt32) : Fips180.pad (header data n) = swap32yes data 16 ++
      beWords (fun i => if i = 3 then n else leWord data (16 + i)) 16 := by
  have hback : beWords (fun i => padWord (20 + i)) 12 =
      beWords (fun i => headerWord data n (20 + i)) 12 :=
    Fips180.beWords_congr fun i hi => by
      rw [headerWord, if_neg (by omega), leWord_eq_padWord hpad hi]
  have hfront : beWords (headerWord data n) 16 = beWords (leWord data) 16 :=
    Fips180.beWords_congr fun i hi => if_neg (by omega)
  have hnonce : (fun i => headerWord data n (16 + i)) =
      fun i => if i = 3 then n else leWord data (16 + i) := by
    funext i
    have hiff : 16 + i = 19 ↔ i = 3 := by omega
    simp only [headerWord, hiff]
  rw [pad_header, hback, ← Fips180.beWords_add _ 20 12, Fips180.beWords_add _ 16 16, hfront, hnonce,
    swap32yes_eq]

/-- The padding of a digest. -/
theorem pad_bytes (w : ℕ → UInt32) : Fips180.pad (beWords w 8) =
    beWords (fun i => if i < 8 then w i else hash1Init[i]!) 16 := by
  have hpad : 0x80 :: List.replicate (Fips180.zeros 32) 0 ++ Fips180.be64 (8 * 32) =
      beWords (fun i => hash1Init[8 + i]!) 8 := by decide
  have hback : (fun i => if 8 + i < 8 then w (8 + i) else hash1Init[8 + i]!) =
      fun i => hash1Init[8 + i]! := by
    funext i
    exact if_neg (by omega)
  have hfront : beWords (fun i => if i < 8 then w i else hash1Init[i]!) 8 = beWords w 8 :=
    Fips180.beWords_congr fun i hi => if_pos hi
  rw [Fips180.pad, Fips180.length_beWords, Fips180.beWords_add _ 8 8, hback, hfront, ← hpad,
    List.append_assoc]

theorem bytes_hashOf (h : Vector UInt32 8) : (hashOf h).bytes = beWords (fun i => h[i]!) 8 := rfl

theorem beWords_ofFn (w : ℕ → UInt32) :
    beWords (fun t => (Vector.ofFn fun i : Fin 16 => w i.val)[t]!) 16 = beWords w 16 :=
  Fips180.beWords_congr fun t ht => by rw [getElem!_pos _ t ht, Vector.getElem_ofFn]

/-- **The two calls** make the hash of the header with the nonce. -/
theorem hashNonce_eq {data : Bytes 128} {midstate : Vector UInt32 8}
    (hpad : data.toList.drop 80 = workpaddingBin)
    (hmid : hashOf midstate = Fips180.hashBlocks (swap32yes data 16)) (n : UInt32) :
    (hashOf (hashNonce midstate data n)).bytes = doubleHash (header data n) := by
  have hlen := length_swap32yes data 16
  obtain ⟨hash1, hhash1⟩ : ∃ hash1, transform midstate (Vector.ofFn fun i : Fin 16 =>
      if i.val = 3 then n else leWord data (16 + i.val)) = hash1 := ⟨_, rfl⟩
  have hfirst : (hashOf hash1).bytes = Fips180.digest (header data n) := by
    rw [Fips180.digest, pad_header_eq hpad, Sha2.hashBlocks_append_eq_absorb, ← hmid, hlen,
      List.drop_of_length_le hlen.le, List.nil_append,
      Fips180.absorb_block (Fips180.length_beWords _ _), ← hhash1, hashOf_transform,
      beWords_ofFn fun i => if i = 3 then n else leWord data (16 + i)]
  rw [doubleHash, ← hfirst, bytes_hashOf hash1, Fips180.digest, pad_bytes,
    Fips180.hashBlocks_eq_absorb, Fips180.absorb_block (Fips180.length_beWords _ _),
    ← Sha2.hashOf_sha256H0, hashNonce, hhash1, hashOf_transform,
    beWords_ofFn fun i => if i < 8 then hash1[i]! else hash1Init[i]!]
  rfl

end Generic

/-! ## The scan -/

/-- The last word of a hash value is zero. -/
theorem drop_bytes_hashOf (h : Vector UInt32 8) :
    (hashOf h).bytes.drop 28 = [0, 0, 0, 0] ↔ h[7]! = 0 := by
  have hdrop : (hashOf h).bytes.drop 28 = be32 h[7]! := rfl
  have hzero : ([0, 0, 0, 0] : List UInt8) = be32 0 := rfl
  rw [hdrop, hzero]
  exact ⟨fun heq => Fips180.be32_injective heq, fun heq => by rw [heq]⟩

/-- A word is made up of its bytes. -/
theorem le32_word (x : UInt32) : UInt32.ofNat (x.toUInt8.toNat + 2 ^ 8 * (x >>> 8).toUInt8.toNat +
    2 ^ 16 * (x >>> 16).toUInt8.toNat + 2 ^ 24 * (x >>> 24).toUInt8.toNat) = x := by
  have hbe := Fips180.be32_word x
  rw [Nat.mul_comm _ (2 ^ 24), Nat.mul_comm _ (2 ^ 16), Nat.mul_comm _ (2 ^ 8), Nat.add_comm,
    Nat.add_comm (2 ^ 24 * _), Nat.add_comm _ (2 ^ 8 * _), ← Nat.add_assoc, ← Nat.add_assoc] at hbe
  exact hbe

/-- The data of a work after the nonce is written into it. -/
theorem swap32yes_overwrite (data : Bytes 128) (n : UInt32) :
    swap32yes (data.overwrite 76 (le32 n)) 20 = header data n := by
  have hroom : 76 + (le32 n).length ≤ 128 := by
    rw [show (le32 n).length = 4 from rfl]
    decide
  have hbyte := data.byte_overwrite hroom
  rw [swap32yes_eq, header_eq]
  refine Fips180.beWords_congr fun i hi => ?_
  by_cases hnonce : i = 19
  · have hlow : ∀ j < 4, (data.overwrite 76 (le32 n)).byte (76 + j) =
        ((le32 n)[j]?.getD 0).toNat := fun j hj => by
      rw [hbyte, if_pos ⟨by omega, Nat.add_lt_add_left hj 76⟩, Nat.add_sub_cancel_left]
    have hzero := hlow 0 (by decide)
    rw [headerWord, if_pos hnonce, hnonce, leWord, Bytes.word32, hlow 1 (by decide),
      hlow 2 (by decide), hlow 3 (by decide), hzero]
    exact le32_word n
  · have hother : ∀ j < 76, (data.overwrite 76 (le32 n)).byte j = data.byte j := fun j hj => by
      rw [hbyte, if_neg (by omega)]
    rw [headerWord, if_neg hnonce, leWord, leWord, Bytes.word32, Bytes.word32,
      hother _ (by omega), hother _ (by omega), hother _ (by omega), hother _ (by omega)]

/-- What is expected of a scan from a nonce on. -/
structure ScanRight (data : Bytes 128) (maxNonce : UInt32) (restart : UInt32 → Bool) (n : UInt32)
    (r : ScanhashResult) : Prop where
  le_lastNonce : n ≤ r.lastNonce
  found_iff : r.found = true ↔ Solves data r.lastNonce
  first : ∀ m, n ≤ m → m < r.lastNonce → ¬Solves data m ∧ m < maxNonce ∧ restart m = false
  ended : r.found = false → maxNonce ≤ r.lastNonce ∨ restart r.lastNonce = true
  data_eq : swap32yes r.data 20 = header data r.lastNonce
  hash_eq : (hashOf r.hash).bytes = doubleHash (header data r.lastNonce)

/-- **With the midstate and the padding of the work**, `scanhash_c` finds the first nonce, from the
one that it is given on, with which the last word of the header's hash is zero, unless it comes to
the last nonce or to a restart before, and leaves the nonce that it ends at, and its hash, in the
work. -/
theorem scanhashC_spec (block : Bytes 128) {data : Bytes 128}
    (hpad : data.toList.drop 80 = workpaddingBin) (maxNonce : UInt32) (restart : UInt32 → Bool)
    (n : UInt32) : ∃ midstate, calcMidstate block.toList data = some midstate ∧
      ScanRight data maxNonce restart n (scanhashC midstate data maxNonce restart n) := by
  obtain ⟨midstate, hrun, hmid⟩ := exists_calcMidstate block.length_toList data
  refine ⟨midstate, hrun, ?_⟩
  have hsolves : ∀ m, (Generic.hashNonce midstate data m)[7]! = 0 ↔ Solves data m := fun m => by
    rw [Solves, ← Generic.hashNonce_eq hpad hmid, drop_bytes_hashOf]
  -- the scan ends at a nonce at once, or goes on with the next one
  fun_induction scanhashC midstate data maxNonce restart n with
  | case1 n hash hzero =>
      exact ⟨UInt32.le_refl n, iff_of_true rfl ((hsolves n).mp hzero),
        fun m hle hlt => absurd hle (UInt32.not_le.mpr hlt), fun h => Bool.noConfusion h,
        swap32yes_overwrite data n, Generic.hashNonce_eq hpad hmid n⟩
  | case2 n hash hzero hends =>
      exact ⟨UInt32.le_refl n, iff_of_false Bool.false_ne_true fun h => hzero ((hsolves n).mpr h),
        fun m hle hlt => absurd hle (UInt32.not_le.mpr hlt), fun _ => hends,
        swap32yes_overwrite data n, Generic.hashNonce_eq hpad hmid n⟩
  | case3 n hash hzero hgoes ih =>
      obtain ⟨hlt, hrestart⟩ := not_or.mp hgoes
      have hlt := UInt32.not_le.mp hlt
      have hnext : (n + 1).toNat = n.toNat + 1 := by
        have hmax := maxNonce.toNat_lt
        rw [UInt32.lt_iff_toNat_lt] at hlt
        rw [UInt32.toNat_add]
        simp only [UInt32.reduceToNat]
        omega
      have hle := ih.le_lastNonce
      rw [UInt32.le_iff_toNat_le, hnext] at hle
      refine ⟨?_, ih.found_iff, fun m hm hm' => ?_, ih.ended, ih.data_eq, ih.hash_eq⟩
      · rw [UInt32.le_iff_toNat_le]
        omega
      · rcases eq_or_ne m n with rfl | hne
        · exact ⟨fun h => hzero ((hsolves m).mpr h), hlt, by simpa using hrestart⟩
        · refine ih.first m ?_ hm'
          have hne' : m.toNat ≠ n.toNat := fun h => hne (UInt32.toNat_inj.mp h)
          rw [UInt32.le_iff_toNat_le] at hm ⊢
          omega

/-- A scan of all nonces of a work with an empty header. -/
theorem scanhashC_spec_empty : ∃ midstate,
    calcMidstate (Vector.replicate 128 0 : Bytes 128).toList
      (Bytes.overwrite (Vector.replicate 128 0) 80 workpaddingBin) = some midstate ∧
    ScanRight (Bytes.overwrite (Vector.replicate 128 0) 80 workpaddingBin) 0xffffffff
      (fun _ => false) 0
      (scanhashC midstate (Bytes.overwrite (Vector.replicate 128 0) 80 workpaddingBin) 0xffffffff
        (fun _ => false) 0) :=
  scanhashC_spec _ (by decide) _ _ _

end MassGridMiner

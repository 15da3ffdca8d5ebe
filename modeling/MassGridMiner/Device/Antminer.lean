import MassGridMiner.Lib.Crc
import MassGridMiner.Lib.Hex

/-!
# The checksum of an antminer command

A command is four bytes.  Its last five bits are the remainder of the 27 bits before them by
`x ^ 5 + x ^ 2 + 1`, which `crc5usb` computes a bit at a time with an array of five bytes for the
register.  A chip that divides all of a command is left with nothing.

## Main definitions

* `crc5usb` — the function.
* `crc5usb_eq` — it divides the bits it is asked for.
* `setClockCommand` — the command that sets a clock.
* `setClockCommand_spec` — what a chip finds, and that a short burst does not go unnoticed.
-/

namespace MassGridMiner
namespace Antminer

open Crc

/-- `uint8_t crcin[5]`. -/
structure Register where
  c0 : UInt8
  c1 : UInt8
  c2 : UInt8
  c3 : UInt8
  c4 : UInt8
deriving DecidableEq

/-- The variables of the loop of `crc5usb`. -/
structure Crc5 where
  crcin : Register
  j : UInt8
  k : UInt8
  ptr : List UInt8

/-- `crcout`, for a bit. -/
def crcout (crcin : Register) (din : UInt8) : Register :=
  ⟨crcin.c4 ^^^ din, crcin.c0, crcin.c1 ^^^ crcin.c4 ^^^ din, crcin.c2, crcin.c3⟩

/-- The body of the loop; none past the end of the bytes. -/
def Crc5.next (s : Crc5) : Option Crc5 :=
  match s.ptr with
  | [] => none
  | byte :: more =>
    let din : UInt8 := if byte &&& s.j ≠ 0 then 1 else 0
    let crcin := crcout s.crcin din
    if s.k + 1 = 8 then some ⟨crcin, 0x80, 0, more⟩
    else some ⟨crcin, s.j >>> 1, s.k + 1, byte :: more⟩

/-- The loop, for so many bits. -/
def Crc5.loop : ℕ → Crc5 → Option Crc5
  | 0, s => some s
  | len + 1, s => s.next.bind (Crc5.loop len)

/-- The number that is returned. -/
def Register.crc (crcin : Register) : UInt8 :=
  let crc : UInt8 := 0
  let crc := if crcin.c4 ≠ 0 then crc ||| 0x10 else crc
  let crc := if crcin.c3 ≠ 0 then crc ||| 0x08 else crc
  let crc := if crcin.c2 ≠ 0 then crc ||| 0x04 else crc
  let crc := if crcin.c1 ≠ 0 then crc ||| 0x02 else crc
  if crcin.c0 ≠ 0 then crc ||| 0x01 else crc

/-- `crc5usb`; none if something past the end of the bytes is read. -/
def crc5usb (ptr : List UInt8) (len : UInt8) : Option UInt8 :=
  (Crc5.loop len.toNat ⟨⟨1, 1, 1, 1, 1⟩, 0x80, 0, ptr⟩).map fun s => s.crcin.crc

/-- `x ^ 2 + 1`, below `x ^ 5`. -/
def poly : BitVec 5 := 0x05#5

/-- The register that holds a remainder. -/
def ofRemainder (crc : BitVec 5) : Register :=
  let c (i : ℕ) : UInt8 := if crc.getLsbD i then 1 else 0
  ⟨c 0, c 1, c 2, c 3, c 4⟩

/-- The bits that are still to be read, when so many of the first byte have been. -/
def unread (ptr : List UInt8) (k : ℕ) : List Bool := (messageBits ptr).drop k

theorem crcout_ofRemainder : ∀ (crc : BitVec 5) (bit : Bool),
    crcout (ofRemainder crc) (if bit then 1 else 0) = ofRemainder (divideBit poly crc bit) := by
  decide

theorem crc_ofRemainder : ∀ crc : BitVec 5, (ofRemainder crc).crc.toBitVec = crc.setWidth 8 := by
  decide

/-- The bit under the mask. -/
theorem and_mask (byte : UInt8) {k : ℕ} (hk : k < 8) :
    (byte &&& 0x80 >>> UInt8.ofNat k ≠ 0) ↔ byte.toBitVec.getMsbD k = true := by
  have hall : ∀ b : BitVec 8, ∀ k < 8,
      ((⟨b⟩ : UInt8) &&& 0x80 >>> UInt8.ofNat k ≠ 0) ↔ b.getMsbD k = true := by
    decide +kernel
  exact hall byte.toBitVec k hk

/-- The variables, when so many bits of the first byte have been read. -/
def Crc5.at (crc : BitVec 5) (ptr : List UInt8) (k : ℕ) : Crc5 :=
  ⟨ofRemainder crc, 0x80 >>> UInt8.ofNat k, UInt8.ofNat k, ptr⟩

theorem unread_cons (byte : UInt8) (more : List UInt8) {k : ℕ} (hk : k < 8) :
    unread (byte :: more) k = byte.toBitVec.getMsbD k :: unread (byte :: more) (k + 1) := by
  have hlen : k < (messageBits (byte :: more)).length := by
    rw [messageBits_cons, List.length_append, length_bitsOf]
    omega
  rw [unread, List.drop_eq_getElem_cons hlen, unread]
  congr 1
  simp only [messageBits_cons]
  rw [List.getElem_append_left (by rw [length_bitsOf]; exact hk)]
  simp [bitsOf]

theorem unread_eight (byte : UInt8) (more : List UInt8) :
    unread (byte :: more) 8 = unread more 0 := by
  rw [unread, messageBits_cons, List.drop_left' (length_bitsOf byte)]
  rfl

/-- **One bit** is one bit of the division. -/
theorem next_at (crc : BitVec 5) (byte : UInt8) (more : List UInt8) {k : ℕ} (hk : k < 8) :
    (Crc5.at crc (byte :: more) k).next =
      some (if k + 1 = 8 then Crc5.at (divideBit poly crc (byte.toBitVec.getMsbD k)) more 0
        else Crc5.at (divideBit poly crc (byte.toBitVec.getMsbD k)) (byte :: more) (k + 1)) := by
  have hdin : (if byte &&& 0x80 >>> UInt8.ofNat k ≠ 0 then (1 : UInt8) else 0) =
      if byte.toBitVec.getMsbD k then 1 else 0 := if_congr (and_mask byte hk) rfl rfl
  have hcount : ∀ i < 8, (UInt8.ofNat i + 1 = 8 ↔ i + 1 = 8) ∧
      UInt8.ofNat i + 1 = UInt8.ofNat (i + 1) ∧
      (i + 1 ≠ 8 → (0x80 : UInt8) >>> UInt8.ofNat i >>> 1 = 0x80 >>> UInt8.ofNat (i + 1)) := by
    decide
  obtain ⟨hlast, hk1, hmask⟩ := hcount k hk
  change (if UInt8.ofNat k + 1 = 8
    then some (Crc5.mk (crcout (ofRemainder crc)
      (if byte &&& 0x80 >>> UInt8.ofNat k ≠ 0 then 1 else 0)) 0x80 0 more)
    else some (Crc5.mk (crcout (ofRemainder crc)
      (if byte &&& 0x80 >>> UInt8.ofNat k ≠ 0 then 1 else 0))
        (0x80 >>> UInt8.ofNat k >>> 1) (UInt8.ofNat k + 1) (byte :: more))) = _
  rw [hdin, crcout_ofRemainder]
  by_cases hend : k + 1 = 8
  · rw [if_pos (hlast.mpr hend), if_pos hend]
    rfl
  · rw [if_neg (fun h => hend (hlast.mp h)), if_neg hend, hmask hend, hk1]
    rfl

/-- **The loop is the division.** -/
theorem loop_at {len : ℕ} {crc : BitVec 5} {ptr : List UInt8} {k : ℕ} (hk : k < 8)
    (H : len ≤ (unread ptr k).length) :
    ∃ s, Crc5.loop len (Crc5.at crc ptr k) = some s ∧
      s.crcin = ofRemainder (divide poly crc ((unread ptr k).take len)) := by
  induction len generalizing crc ptr k with
  | zero => exact ⟨_, rfl, rfl⟩
  | succ len ih =>
    cases ptr with
    | nil => simp [unread, messageBits] at H
    | cons byte more =>
      rw [unread_cons byte more hk, List.length_cons] at H
      have hrest : ∀ rest : Crc5, (Crc5.at crc (byte :: more) k).next = some rest →
          Crc5.loop (len + 1) (Crc5.at crc (byte :: more) k) = Crc5.loop len rest := by
        intro rest hnext
        rw [Crc5.loop, hnext, Option.bind_some]
      rw [hrest _ (next_at crc byte more hk), unread_cons byte more hk, List.take_succ_cons]
      split
      · next hlast =>
        rw [hlast, unread_eight] at H ⊢
        exact ih (by decide) (Nat.le_of_succ_le_succ H)
      · next hmore => exact ih (by omega) (Nat.le_of_succ_le_succ H)

/-- **The checksum is the remainder** of the bits that are asked for. -/
theorem crc5usb_eq {ptr : List UInt8} {len : UInt8} (H : len.toNat ≤ (messageBits ptr).length) :
    crc5usb ptr len =
      some ⟨(divide poly 0x1f#5 ((messageBits ptr).take len.toNat)).setWidth 8⟩ := by
  have hloop : ∃ s, Crc5.loop len.toNat (Crc5.at 0x1f#5 ptr 0) = some s ∧
      s.crcin = ofRemainder (divide poly 0x1f#5 ((unread ptr 0).take len.toNat)) :=
    loop_at (by decide) H
  obtain ⟨s, hs, hcrc⟩ := hloop
  have hstart : Crc5.at 0x1f#5 ptr 0 = ⟨⟨1, 1, 1, 1, 1⟩, 0x80, 0, ptr⟩ := rfl
  rw [crc5usb, ← hstart, hs, Option.map_some, hcrc]
  exact congrArg some (UInt8.toBitVec_inj.mp (crc_ofRemainder _))

/-- The command of `antminer_set_clock`, for the data of the register. -/
def setClockCommand (regData0 regData1 : UInt8) : Option (List UInt8) :=
  (crc5usb [2 ||| 0x80, regData0, regData1, 0] 27).map fun crc =>
    [2 ||| 0x80, regData0, regData1, crc]

/-- Different registers stay different. -/
theorem divide_inj {a b : BitVec 5} {bits : List Bool}
    (H : divide poly a bits = divide poly b bits) : a = b := by
  have hbit : ∀ (a b : BitVec 5) (bit : Bool),
      divideBit poly a bit = divideBit poly b bit → a = b := by
    decide +kernel
  induction bits generalizing a b with
  | nil => exact H
  | cons bit bits ih => exact hbit a b bit (ih H)

theorem eq_of_zipWith_xor {xs ys : List Bool} (H : ys.length = xs.length)
    (hsame : List.zipWith xor xs ys = List.replicate xs.length false) : ys = xs := by
  induction xs generalizing ys with
  | nil => exact List.eq_nil_of_length_eq_zero H
  | cons x xs ih =>
    cases ys with
    | nil => cases H
    | cons y ys =>
      rw [List.zipWith_cons_cons, List.length_cons, List.replicate_succ, List.cons.injEq] at hsame
      rw [ih (Nat.succ.inj H) hsame.2]
      cases x <;> cases y <;> first | rfl | cases hsame.1

/-- A burst of at most five bits leaves something. -/
theorem burst_eq_zeros {burst : List Bool} (hlen : burst.length ≤ 5)
    (H : divide poly 0#5 burst = 0#5) : burst = List.replicate burst.length false := by
  have hfive : ∀ a b c d e : Bool,
      (divide poly 0#5 [a] = 0#5 → [a] = [false]) ∧
      (divide poly 0#5 [a, b] = 0#5 → [a, b] = [false, false]) ∧
      (divide poly 0#5 [a, b, c] = 0#5 → [a, b, c] = [false, false, false]) ∧
      (divide poly 0#5 [a, b, c, d] = 0#5 → [a, b, c, d] = [false, false, false, false]) ∧
      (divide poly 0#5 [a, b, c, d, e] = 0#5 →
        [a, b, c, d, e] = [false, false, false, false, false]) := by
    decide
  rcases burst with _ | ⟨a, _ | ⟨b, _ | ⟨c, _ | ⟨d, _ | ⟨e, _ | ⟨f, more⟩⟩⟩⟩⟩⟩
  · rfl
  · exact (hfive a a a a a).1 H
  · exact (hfive a b a a a).2.1 H
  · exact (hfive a b c a a).2.2.1 H
  · exact (hfive a b c d a).2.2.2.1 H
  · exact (hfive a b c d e).2.2.2.2 H
  · rw [List.length_cons, List.length_cons, List.length_cons, List.length_cons, List.length_cons,
      List.length_cons] at hlen
    omega

/-- Strings that differ in a short burst only leave different remainders. -/
theorem eq_of_divide_burst {crc : BitVec 5} {before burst burst' after : List Bool}
    (hlen : burst'.length = burst.length) (hshort : burst.length ≤ 5)
    (H : divide poly crc (before ++ burst ++ after) =
      divide poly crc (before ++ burst' ++ after)) : burst' = burst := by
  rw [divide_append, divide_append, divide_append, divide_append] at H
  have hsame := divide_inj H
  have hzip : divide poly (divide poly crc before ^^^ divide poly crc before)
      (List.zipWith xor burst burst') =
      divide poly (divide poly crc before) burst ^^^ divide poly (divide poly crc before) burst' :=
    divide_xor hlen.symm _ _
  rw [hsame, BitVec.xor_self, BitVec.xor_self] at hzip
  have hzlen : (List.zipWith xor burst burst').length = burst.length := by
    rw [List.length_zipWith, hlen, Nat.min_self]
  have hzeros := burst_eq_zeros (by rw [hzlen]; exact hshort) hzip
  rw [hzlen] at hzeros
  exact eq_of_zipWith_xor hlen hzeros

/-- **What a chip finds.**  A command that sets a clock leaves nothing, and whatever arrives that
differs from it within five bits in a row leaves something. -/
theorem setClockCommand_spec (regData0 regData1 : UInt8) :
    ∃ cmd, setClockCommand regData0 regData1 = some cmd ∧
      divide poly 0x1f#5 (messageBits cmd) = 0#5 ∧
      ∀ before burst burst' after, messageBits cmd = before ++ burst ++ after →
        burst'.length = burst.length → burst.length ≤ 5 → burst' ≠ burst →
        divide poly 0x1f#5 (before ++ burst' ++ after) ≠ 0#5 := by
  have hself : ∀ crc : BitVec 5, divide poly crc (topBits 5 crc) = 0#5 := by decide
  have htail : ∀ crc : BitVec 5,
      bitsOf ⟨crc.setWidth 8⟩ = [false, false, false] ++ topBits 5 crc := by decide
  let head := messageBits [2 ||| 0x80, regData0, regData1] ++ [false, false, false]
  have hhead : (messageBits [2 ||| 0x80, regData0, regData1, 0]).take 27 = head := rfl
  have hbits : (27 : UInt8).toNat = 27 := rfl
  have hlong : (27 : UInt8).toNat ≤
      (messageBits [2 ||| 0x80, regData0, regData1, 0]).length := by
    simp [messageBits, length_bitsOf]
  have hcrc : crc5usb [2 ||| 0x80, regData0, regData1, 0] 27 =
      some ⟨(divide poly 0x1f#5 head).setWidth 8⟩ := by
    rw [crc5usb_eq hlong, hbits, hhead]
  have hnothing : divide poly 0x1f#5 (messageBits
      [2 ||| 0x80, regData0, regData1, ⟨(divide poly 0x1f#5 head).setWidth 8⟩]) = 0#5 := by
    have hsplit : messageBits
        [2 ||| 0x80, regData0, regData1, ⟨(divide poly 0x1f#5 head).setWidth 8⟩] =
        head ++ topBits 5 (divide poly 0x1f#5 head) := by
      calc messageBits [2 ||| 0x80, regData0, regData1, ⟨(divide poly 0x1f#5 head).setWidth 8⟩]
          = messageBits [2 ||| 0x80, regData0, regData1] ++
              bitsOf ⟨(divide poly 0x1f#5 head).setWidth 8⟩ := by simp [messageBits]
        _ = head ++ topBits 5 (divide poly 0x1f#5 head) := by
            rw [htail, ← List.append_assoc]
    rw [hsplit, divide_append, hself]
  refine ⟨_, by rw [setClockCommand, hcrc]; rfl, hnothing, ?_⟩
  intro before burst burst' after hcmd hlen hshort hne hzero
  rw [hcmd] at hnothing
  exact hne (eq_of_divide_burst hlen hshort (hnothing.trans hzero.symm))

end Antminer
end MassGridMiner

import Mathlib.Data.List.Induction

/-!
# Division of bit strings

A bit string is divided by a polynomial over two elements, its most significant bit first: the
remainder so far is shifted by one bit, and the polynomial is taken from it if what goes out and
the next bit of the string differ.  Division is linear, so a byte can be divided at once with a
table of what the bytes leave.

## Main definitions

* `Crc.divide` — what is left of a bit string.
* `Crc.divide_append` — a concatenation.
* `Crc.divide_xor` — linearity.
* `Crc.divide_bitsOf` — a byte at once.
-/

namespace Crc

variable {w : ℕ} (poly : BitVec w)

/-- The remainder after one more bit. -/
def divideBit (crc : BitVec w) (bit : Bool) : BitVec w :=
  crc <<< 1 ^^^ (if crc.msb ^^ bit then poly else 0#w)

/-- The remainder after a bit string, from one so far. -/
def divide (crc : BitVec w) (bits : List Bool) : BitVec w := bits.foldl (divideBit poly) crc

/-- The bits of a byte, the most significant first. -/
def bitsOf (byte : UInt8) : List Bool := (List.range 8).map byte.toBitVec.getMsbD

/-- The bits of a byte string. -/
def messageBits (bytes : List UInt8) : List Bool := bytes.flatMap bitsOf

/-- So many bits from the top of a remainder, as they go out. -/
def topBits (n : ℕ) (crc : BitVec w) : List Bool := (List.range n).map crc.getMsbD

variable {poly}

theorem divide_append (crc : BitVec w) (bits more : List Bool) :
    divide poly crc (bits ++ more) = divide poly (divide poly crc bits) more :=
  List.foldl_append

theorem messageBits_cons (byte : UInt8) (bytes : List UInt8) :
    messageBits (byte :: bytes) = bitsOf byte ++ messageBits bytes :=
  List.flatMap_cons

theorem messageBits_append (bytes more : List UInt8) :
    messageBits (bytes ++ more) = messageBits bytes ++ messageBits more :=
  List.flatMap_append

theorem divideBit_xor (a b : BitVec w) (x y : Bool) :
    divideBit poly (a ^^^ b) (x ^^ y) = divideBit poly a x ^^^ divideBit poly b y := by
  have hout : ((a ^^^ b).msb ^^ (x ^^ y)) = ((a.msb ^^ x) ^^ (b.msb ^^ y)) := by
    rw [BitVec.msb_xor]
    cases a.msb <;> cases b.msb <;> cases x <;> cases y <;> rfl
  have hpoly : (if (a.msb ^^ x) ^^ (b.msb ^^ y) then poly else 0#w) =
      (if a.msb ^^ x then poly else 0#w) ^^^ (if b.msb ^^ y then poly else 0#w) := by
    cases a.msb ^^ x <;> cases b.msb ^^ y <;> simp
  rw [divideBit, hout, hpoly, BitVec.shiftLeft_xor_distrib, divideBit, divideBit]
  ac_rfl

/-- **Division is linear.** -/
theorem divide_xor {xs ys : List Bool} (H : xs.length = ys.length) (a b : BitVec w) :
    divide poly (a ^^^ b) (List.zipWith xor xs ys) = divide poly a xs ^^^ divide poly b ys := by
  induction xs generalizing ys a b with
  | nil =>
    rw [List.length_nil] at H
    rw [List.eq_nil_of_length_eq_zero H.symm]
    rfl
  | cons x xs ih =>
    cases ys with
    | nil => cases H
    | cons y ys =>
      have hbit : xor x y = (x ^^ y) := rfl
      rw [List.zipWith_cons_cons, divide, List.foldl_cons, hbit, divideBit_xor]
      exact ih (Nat.succ.inj H) _ _

/-- What goes out of a remainder acts like a bit string. -/
theorem divide_eq_shift (crc : BitVec w) (bits : List Bool) :
    divide poly crc bits =
      crc <<< bits.length ^^^
        divide poly 0#w (List.zipWith xor (topBits bits.length crc) bits) := by
  induction bits using List.reverseRecOn with
  | nil => simp [divide, topBits]
  | append_singleton bits bit ih =>
    have htop : topBits (bits.length + 1) crc =
        topBits bits.length crc ++ [crc.getMsbD bits.length] := by
      rw [topBits, List.range_succ, List.map_append]
      rfl
    have hzip : List.zipWith xor (topBits (bits.length + 1) crc) (bits ++ [bit]) =
        List.zipWith xor (topBits bits.length crc) bits ++ [crc.getMsbD bits.length ^^ bit] := by
      rw [htop, List.zipWith_append (by simp [topBits])]
      rfl
    have hmsb : (crc <<< bits.length).msb = crc.getMsbD bits.length := by
      rw [BitVec.msb_shiftLeft]
    have hbit : bit = (crc.getMsbD bits.length ^^ (crc.getMsbD bits.length ^^ bit)) := by
      cases crc.getMsbD bits.length <;> cases bit <;> rfl
    have hshift : divideBit poly (crc <<< bits.length) (crc.getMsbD bits.length) =
        crc <<< (bits.length + 1) := by
      rw [divideBit, hmsb, Bool.xor_self, if_neg Bool.false_ne_true, BitVec.xor_zero,
        ← BitVec.shiftLeft_add]
    rw [List.length_append, List.length_singleton, hzip, divide_append, divide_append, ih]
    conv_lhs => rw [hbit]
    exact (divideBit_xor _ _ _ _).trans (congrArg (· ^^^ _) hshift)

theorem length_bitsOf (byte : UInt8) : (bitsOf byte).length = 8 := by
  rw [bitsOf, List.length_map, List.length_range]

theorem bitsOf_xor (a b : UInt8) :
    bitsOf (a ^^^ b) = List.zipWith xor (bitsOf a) (bitsOf b) := by
  rw [bitsOf, bitsOf, bitsOf, List.zipWith_map, List.zipWith_self]
  exact List.map_congr_left fun i _ => by rw [UInt8.toBitVec_xor, BitVec.getMsbD_xor]

/-- **A byte at once**, given the byte that goes out. -/
theorem divide_bitsOf {crc : BitVec w} {out : UInt8} (H : topBits 8 crc = bitsOf out)
    (byte : UInt8) :
    divide poly crc (bitsOf byte) = crc <<< 8 ^^^ divide poly 0#w (bitsOf (out ^^^ byte)) := by
  rw [divide_eq_shift, length_bitsOf, H, bitsOf_xor]

/-- A difference of bytes is a difference of what they leave. -/
theorem divide_bitsOf_xor (crc : BitVec w) (a b : UInt8) :
    divide poly crc (bitsOf (a ^^^ b)) =
      divide poly crc (bitsOf a) ^^^ divide poly 0#w (bitsOf b) := by
  have hlen : (bitsOf a).length = (bitsOf b).length := by rw [length_bitsOf, length_bitsOf]
  calc divide poly crc (bitsOf (a ^^^ b))
      = divide poly (crc ^^^ 0#w) (List.zipWith xor (bitsOf a) (bitsOf b)) := by
        rw [bitsOf_xor, BitVec.xor_zero]
    _ = divide poly crc (bitsOf a) ^^^ divide poly 0#w (bitsOf b) := divide_xor hlen crc 0#w

/-- Zeros leave nothing of nothing. -/
theorem divide_zeros (k : ℕ) : divide poly 0#w (messageBits (List.replicate k 0)) = 0#w := by
  have hzero : divide poly 0#w (bitsOf 0) = 0#w := by
    have hsame : divide poly 0#w (bitsOf 0) =
        divide poly 0#w (bitsOf 0) ^^^ divide poly 0#w (bitsOf 0) := divide_bitsOf_xor 0#w 0 0
    rwa [BitVec.xor_self] at hsame
  induction k with
  | zero => rfl
  | succ k ih => rw [List.replicate_succ, messageBits_cons, divide_append, hzero, ih]

end Crc

import MassGridMiner.Lib.Atof

/-!
# Numbers in any base

`strtol` with base 0 reads a number after white space and a sign, in hexadecimal after `0x`, in
octal after any other zero and in decimal else.  What is no `long` becomes the `long` next to it.

## Main definitions

* `readNumber` — the number at the start of a text, and what is left of it.
* `toLong`, `toInt` — the number that is made of it, and what an `int` keeps of that.
* `strtol` — the function, with base 0.
-/

namespace CStr

/-- The base of a number, and the text from its digits on. -/
def radix : List UInt8 → ℕ × List UInt8
  | 0x30 :: x :: d :: s =>
    if tolower x = 0x78 ∧ digitValue d < 16 then (16, d :: s) else (8, 0x30 :: x :: d :: s)
  | 0x30 :: s => (8, 0x30 :: s)
  | s => (10, s)

/-- The number that `strtol` finds at the start of a text, and what is left, if there is a
digit. -/
def readNumber (s : List UInt8) : Option (ℤ × List UInt8) :=
  let (neg, s) := sign (s.dropWhile isSpace)
  let (base, s) := radix s
  let ds := digits base s
  if ds = [] then none
  else
    let m : ℤ := ofDigits base ds
    some (if neg then -m else m, s.drop ds.length)

/-- A number as a `long` of 64 bits. -/
def toLong (m : ℤ) : ℤ := max (-2 ^ 63) (min (2 ^ 63 - 1) m)

/-- What an `int` keeps of a `long`. -/
def toInt (long : ℤ) : ℤ := long.bmod (2 ^ 32)

/-- `strtol` with base 0: the number, and the text that `endptr` is left at. -/
def strtol (s : List UInt8) : ℤ × List UInt8 :=
  match readNumber s with
  | none => (0, s)
  | some (m, rest) => (toLong m, rest)

/-- A number that an `int` can hold. -/
def InInt (m : ℤ) : Prop := -2 ^ 31 ≤ m ∧ m < 2 ^ 31

instance (m : ℤ) : Decidable (InInt m) := inferInstanceAs (Decidable (_ ∧ _))

/-- A number that an `int` can hold is kept. -/
theorem toInt_toLong {m : ℤ} (H : InInt m) : toInt (toLong m) = m := by
  obtain ⟨hlo, hhi⟩ := H
  have hlong : toLong m = m := by
    rw [toLong, min_eq_right (by omega), max_eq_right (by omega)]
  rw [toInt, hlong]
  exact Int.bmod_eq_of_le (by omega) (by omega)

theorem sign_length_le (s : List UInt8) : (sign s).2.length ≤ s.length := by
  unfold sign
  split <;> simp

theorem radix_length_le (s : List UInt8) : (radix s).2.length ≤ s.length := by
  unfold radix
  split
  · split <;> simp
  all_goals exact le_rfl

/-- At least one character is read of a number. -/
theorem length_lt_of_readNumber {s rest : List UInt8} {m : ℤ}
    (H : readNumber s = some (m, rest)) : rest.length < s.length := by
  have hspace : (s.dropWhile isSpace).length ≤ s.length := (List.dropWhile_suffix _).length_le
  have hsign := sign_length_le (s.dropWhile isSpace)
  have hradix := radix_length_le (sign (s.dropWhile isSpace)).2
  simp only [readNumber] at H
  split at H
  · cases H
  · next hds =>
    obtain ⟨-, rfl⟩ := Prod.mk.inj (Option.some.inj H)
    have hpos := List.length_pos_iff.mpr hds
    have hle := (List.takeWhile_prefix (l := (radix (sign (s.dropWhile isSpace)).2).2)
      fun c => digitValue c < (radix (sign (s.dropWhile isSpace)).2).1).length_le
    rw [← digits] at hle
    rw [List.length_drop]
    omega

/-- `endptr` is left at the start of the text exactly if there is no number. -/
theorem strtol_eq_self_iff {s : List UInt8} : (strtol s).2 = s ↔ readNumber s = none := by
  unfold strtol
  cases h : readNumber s with
  | none => simp
  | some found =>
    have hlt := length_lt_of_readNumber h
    simpa using fun heq : found.2 = s => absurd (heq ▸ hlt) (lt_irrefl _)

end CStr

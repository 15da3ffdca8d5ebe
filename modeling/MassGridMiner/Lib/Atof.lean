import MassGridMiner.Lib.CString
import Mathlib.Algebra.Order.Ring.Int
import Mathlib.Algebra.Ring.Nat

/-!
# Reading a number from text

`atof` takes the longest beginning of a string, after white space, that spells a number in
decimal or hexadecimal, an infinity or a NaN, and is zero where there is none.  The value
is rounded once, to the nearest double.

## Main definitions

* `atof`, `atoi`, `scanInt` — the number at the start of a string.
* `tolower`, `beginsNoCase`, `equalNoCase` — comparison without regard to case.
-/

namespace CStr

/-- `tolower`, in the C locale. -/
def tolower (c : UInt8) : UInt8 := if 0x41 ≤ c && c ≤ 0x5a then c + 0x20 else c

/-- `!strncasecmp(s, name, strlen(name))`. -/
def beginsNoCase (name s : List UInt8) : Bool :=
  (name.map tolower).isPrefixOf (s.map tolower)

/-- `strcasecmp` finds no difference. -/
def equalNoCase (s t : List UInt8) : Bool := s.map tolower == t.map tolower

/-- `isspace`. -/
def isSpace (c : UInt8) : Bool := c == 0x20 || (0x9 ≤ c && c ≤ 0xd)

/-- The value of a digit, of any base up to 16. -/
def digitValue (c : UInt8) : ℕ :=
  let c := tolower c
  if 0x30 ≤ c && c ≤ 0x39 then c.toNat - 0x30
  else if 0x61 ≤ c && c ≤ 0x66 then c.toNat - 0x61 + 10
  else 16

/-- The digits of a base at the start of a text. -/
def digits (base : ℕ) (s : List UInt8) : List UInt8 := s.takeWhile fun c => digitValue c < base

/-- The number that digits spell. -/
def ofDigits (base : ℕ) (ds : List UInt8) : ℕ :=
  ds.foldl (fun acc c => base * acc + digitValue c) 0

/-- A sign at the start of a text: whether it is a minus, and what follows it. -/
def sign : List UInt8 → Bool × List UInt8
  | 0x2d :: s => (true, s)
  | 0x2b :: s => (false, s)
  | s => (false, s)

/-- The exponent that `mark` introduces, zero where no digits follow. -/
def exponent (mark : UInt8) : List UInt8 → ℤ
  | c :: s =>
    if tolower c == mark then
      let (neg, s) := sign s
      let e : ℤ := ofDigits 10 (digits 10 s)
      if neg then -e else e
    else 0
  | [] => 0

/-- Digits with a point among them: the number they spell without it, how many follow it,
and the text after them, if there is a digit. -/
def mantissa (base : ℕ) (s : List UInt8) : Option (ℕ × ℕ × List UInt8) :=
  let whole := digits base s
  let rest := s.drop whole.length
  let (frac, rest) := match rest with
    | 0x2e :: t => (digits base t, t.drop (digits base t).length)
    | t => ([], t)
  if whole ++ frac = [] then none else some (ofDigits base (whole ++ frac), frac.length, rest)

/-- The double nearest to `m * 10 ^ e`. -/
def decimal (m : ℕ) (e : ℤ) : Float := Float.ofScientific m (e < 0) e.natAbs

/-- The double nearest to `m * 2 ^ e`. -/
def binary (m : ℕ) (e : ℤ) : Float :=
  if e < 0 then Float.ofScientific (m * 5 ^ e.natAbs) true e.natAbs
  else Float.ofNat (m * 2 ^ e.natAbs)

/-- The number without a sign at the start of a text. -/
def magnitude (s : List UInt8) : Float :=
  if beginsNoCase [0x69, 0x6e, 0x66] s then 1 / 0
  else if beginsNoCase [0x6e, 0x61, 0x6e] s then 0 / 0
  else
    let hex := if beginsNoCase [0x30, 0x78] s then mantissa 16 (s.drop 2) else none
    match hex with
    | some (m, places, rest) => binary m (exponent 0x70 rest - 4 * places)
    | none =>
      match mantissa 10 s with
      | some (m, places, rest) => decimal m (exponent 0x65 rest - places)
      | none => 0

/-- `atof`. -/
def atof (str : CStr) : Float :=
  let (neg, s) := sign (str.bytes.dropWhile isSpace)
  if neg then -magnitude s else magnitude s

/-- `atoi`: the number that `strtol` makes of the text, narrowed to an `int`. -/
def atoi (s : List UInt8) : ℤ :=
  let (neg, s) := sign (s.dropWhile isSpace)
  let m : ℤ := ofDigits 10 (digits 10 s)
  let long := max (-2 ^ 63) (min (2 ^ 63 - 1) (if neg then -m else m))
  long.bmod (2 ^ 32)

/-- `atol`, as a `long` of 64 bits. -/
def atol (s : List UInt8) : ℤ :=
  let (neg, s) := sign (s.dropWhile isSpace)
  let m : ℤ := ofDigits 10 (digits 10 s)
  max (-2 ^ 63) (min (2 ^ 63 - 1) (if neg then -m else m))

/-- `%d` of `sscanf`: the number and what is left, if there is a digit. -/
def scanInt (s : List UInt8) : Option (ℤ × List UInt8) :=
  let (neg, s) := sign (s.dropWhile isSpace)
  let ds := digits 10 s
  if ds = [] then none
  else
    let m : ℤ := ofDigits 10 ds
    let long := max (-2 ^ 63) (min (2 ^ 63 - 1) (if neg then -m else m))
    some (long.bmod (2 ^ 32), s.drop ds.length)

/-- A statement about all characters, by their codes. -/
theorem forall_char {p : UInt8 → Prop} (H : ∀ n < 256, p (.ofNat n)) (c : UInt8) : p c := by
  have hc := H c.toNat c.toNat_lt
  rwa [UInt8.ofNat_toNat] at hc

/-- A digit is neither a space nor a sign, and has a value in base ten. -/
theorem isDigit_facts {c : UInt8} (H : 0x30 ≤ c ∧ c ≤ 0x39) :
    isSpace c = false ∧ c ≠ 0x2d ∧ c ≠ 0x2b ∧ digitValue c < 10 := by
  have hall : ∀ c : UInt8, 0x30 ≤ c ∧ c ≤ 0x39 →
      isSpace c = false ∧ c ≠ 0x2d ∧ c ≠ 0x2b ∧ digitValue c < 10 :=
    forall_char (by decide +kernel)
  exact hall c H

/-- The digits of a base are read up to a character that is none of them. -/
theorem digits_append_of_forall {base : ℕ} {a u : List UInt8} (ha : ∀ c ∈ a, digitValue c < base)
    (hu : ∀ c ∈ u.head?, base ≤ digitValue c) : digits base (a ++ u) = a := by
  have hall : ∀ c ∈ a, decide (digitValue c < base) = true := fun c hc => decide_eq_true (ha c hc)
  rw [digits, List.takeWhile_append_of_pos hall]
  cases u with
  | nil => simp
  | cons c u =>
      have hc := hu c rfl
      rw [List.takeWhile_cons_of_neg (by simpa using hc), List.append_nil]

/-- `atoi` of digits alone is the number they spell, where an `int` can hold it. -/
theorem atoi_of_digits {s : List UInt8} (hdigits : ∀ c ∈ s, 0x30 ≤ c ∧ c ≤ 0x39)
    (hlt : ofDigits 10 s < 2 ^ 31) : atoi s = ofDigits 10 s := by
  have hblank : s.dropWhile isSpace = s := by
    cases s with
    | nil => rfl
    | cons c s => simp [(isDigit_facts (hdigits c List.mem_cons_self)).1]
  have hsign : sign s = (false, s) := by
    cases s with
    | nil => rfl
    | cons c s =>
        obtain ⟨-, hminus, hplus, -⟩ := isDigit_facts (hdigits c List.mem_cons_self)
        rw [sign.eq_3]
        · exact fun _ h => hminus (List.cons.inj h).1
        · exact fun _ h => hplus (List.cons.inj h).1
  have hall : digits 10 s = s := List.takeWhile_eq_self_iff.mpr fun c hc => by
    simpa using (isDigit_facts (hdigits c hc)).2.2.2
  simp only [atoi, hblank, hsign, hall, Bool.false_eq_true, if_false]
  rw [Int.bmod_eq_of_le_mul_two] <;> omega

example : atof ⟨[0x20, 0x31, 0x2e, 0x35, 0x65, 0x31, 0x2c], by decide⟩ = 15 := by decide +kernel

end CStr

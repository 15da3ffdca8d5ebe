import MassGridMiner.Lib.Atof
import MassGridMiner.Lib.SignedDouble
import MassGridMiner.Lib.WithNan
import Mathlib.Order.WithBot

/-!
# The value of a number in text

`strtod` takes the longest beginning of a text, after white space, that spells a number, and makes
the nearest double of it.  Here its value is exact: a rational number, an infinity or a NaN.

## Main definitions

* `DoubleValue` — a `double`.
* `DoubleValue.toFloat` — a `float` that is assigned one.
* `CStr.strtod` — the number at the start of a text, if there is one.
-/

/-- A `double`: no number, or one with minus and plus infinity as the ends of the order. -/
abbrev DoubleValue := WithNan (WithBot (WithTop ℚ))

namespace DoubleValue

/-- A finite one. -/
def ofRat (x : ℚ) : DoubleValue := .num ((x : WithTop ℚ) : WithBot (WithTop ℚ))

/-- With the other sign. -/
def neg : DoubleValue → DoubleValue
  | .nan => .nan
  | .num none => .num (some none)
  | .num (some none) => .num none
  | .num (some (some x)) => ofRat (-x)

/-- The largest finite `float`, `FLT_MAX`. -/
def floatMax : ℚ := (2 ^ 24 - 1) * 2 ^ 104

/-- The `float` nearest to a value. -/
def toFloat : DoubleValue → DoubleValue
  | .num (some (some x)) =>
    let bit := max (Int.log 2 |x| - 23) (-149)
    let y : ℚ := roundEven (x / 2 ^ bit) * 2 ^ bit
    if y < -floatMax then .num none else if floatMax < y then .num (some none) else ofRat y
  | v => v

theorem ofRat_inj {x y : ℚ} (H : ofRat x = ofRat y) : x = y :=
  WithTop.coe_injective (WithBot.coe_injective (WithNan.num.inj H))

theorem ofRat_lt {x y : ℚ} : (ofRat x).lt (ofRat y) = decide (x < y) := by
  rw [ofRat, ofRat, WithNan.lt_num]
  exact decide_eq_decide.mpr (WithBot.coe_lt_coe.trans WithTop.coe_lt_coe)

end DoubleValue

namespace CStr

/-- The double nearest to a number that is not negative. -/
def nearest (x : ℚ) : DoubleValue :=
  if x < 2 ^ 1024 - 2 ^ 970 then DoubleValue.ofRat (roundDouble x) else .num (some none)

/-- The number without a sign at the start of a text. -/
def unsigned (s : List UInt8) : Option DoubleValue :=
  if beginsNoCase [0x69, 0x6e, 0x66] s then some (.num (some none))
  else if beginsNoCase [0x6e, 0x61, 0x6e] s then some .nan
  else
    let hex := if beginsNoCase [0x30, 0x78] s then mantissa 16 (s.drop 2) else none
    match hex with
    | some (m, places, rest) => some (nearest (m * 2 ^ (exponent 0x70 rest - 4 * places)))
    | none => (mantissa 10 s).map fun (m, places, rest) =>
      nearest (m * 10 ^ (exponent 0x65 rest - places))

/-- `strtod`, or none where it leaves its end where it started. -/
def strtod (s : List UInt8) : Option DoubleValue :=
  let (neg, s) := sign (s.dropWhile isSpace)
  (unsigned s).map fun v => if neg then v.neg else v

theorem nearest_of_le {x : ℚ} (H : x ≤ 2 ^ 970) :
    nearest x = DoubleValue.ofRat (roundDouble x) := by
  have hpow : (2 : ℚ) ^ 1024 = 2 ^ 54 * 2 ^ 970 := by rw [← pow_add]
  have hpos : (0 : ℚ) < 2 ^ 970 := by positivity
  rw [nearest, if_pos]
  rw [hpow]
  generalize (2 : ℚ) ^ 970 = bound at H hpos
  linarith

/-- No number starts with a letter but for those of names. -/
theorem strtod_cons_letter {c : UInt8} (hc : tolower c = 0x64 ∨ tolower c = 0x78)
    (s : List UInt8) : strtod (c :: s) = none := by
  have hall : ∀ c : UInt8, tolower c = 0x64 ∨ tolower c = 0x78 →
      isSpace c = false ∧ c ≠ 0x2d ∧ c ≠ 0x2b ∧ c ≠ 0x2e ∧ tolower c ≠ 0x69 ∧ tolower c ≠ 0x6e ∧
        tolower c ≠ 0x30 ∧ 10 ≤ digitValue c := forall_char (by decide +kernel)
  obtain ⟨hspace, hminus, hplus, hpoint, hi, hn, hzero, hdigit⟩ := hall c hc
  have hbegins : ∀ (d : UInt8) (name : List UInt8), tolower c ≠ tolower d →
      beginsNoCase (d :: name) (c :: s) = false := by
    intro d name hne
    rw [beginsNoCase, List.map_cons, List.map_cons, List.isPrefixOf_cons_cons,
      beq_eq_false_iff_ne.mpr (Ne.symm hne), Bool.false_and]
  have hsign : sign (c :: s) = (false, c :: s) := by
    rw [sign.eq_3]
    · exact fun _ h => hminus (List.cons.inj h).1
    · exact fun _ h => hplus (List.cons.inj h).1
  have hdigits : digits 10 (c :: s) = [] := List.takeWhile_cons_of_neg (by simpa using hdigit)
  have hmantissa : mantissa 10 (c :: s) = none := by
    rw [mantissa]
    simp only [hdigits, List.length_nil, List.drop_zero]
    split
    · next heq => exact absurd (List.cons.inj heq).1 hpoint
    · rfl
  rw [strtod, List.dropWhile_cons_of_neg (by simp [hspace]), hsign]
  simp only [unsigned, hbegins 0x69 _ hi, hbegins 0x6e _ hn, hbegins 0x30 _ hzero, hmantissa]
  rfl

end CStr

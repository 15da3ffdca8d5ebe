import MassGridMiner.Lib.Double
import MassGridMiner.Lib.Format
import Mathlib.Order.WithBot

/-!
# The difficulty that a miner is told

A difficulty is printed with as many decimals as it has, which `double_find_precision` finds by
multiplying until there are none left.  That comes to an end, and the text is short, for every
difficulty that a `float` can hold.

## Main definitions

* `SharePdiff` — a difficulty of shares.
* `doubleFindPrecision`, `difficultyText` — the number of decimals, and the text.
* `exists_difficultyText` — the text is short.
-/

namespace MassGridMiner

/-- `FLT_MAX`. -/
def fltMax : ℚ := (2 ^ 24 - 1) * 2 ^ 104

/-- Where the finite values of a `float` are that is not negative. -/
def FloatRange (x : ℚ) : Prop := x = 0 ∨ 1 / 2 ^ 149 ≤ x ∧ x ≤ fltMax

/-- The difficulty of shares, a `float`.  It is not negative, and may be infinite. -/
abbrev SharePdiff := WithTop { x : ℚ // FloatRange x }

namespace SharePdiff

def zero : SharePdiff := some ⟨0, .inl rfl⟩

/-- `FLT_MAX`. -/
def max : SharePdiff := some ⟨fltMax, .inr ⟨by norm_num [fltMax], le_rfl⟩⟩

end SharePdiff

/-- `pdiff_to_bdiff`.  A double holds the product with the 24 bits of a `float`. -/
def pdiffToBdiff (n : ℚ) : ℚ := n * (65535 / 65536)

/-- `double_find_precision` to base ten, unless it takes more turns. -/
def doubleFindPrecision : ℕ → ℚ → Option ℕ
  | 0, _ => none
  | turns + 1, f =>
    if (⌊f⌋ : ℚ) = f then some 0
    else (doubleFindPrecision turns (toDouble (f * 10))).map fun rv => rv + 1

/-- What `%.*f` prints of a difficulty. -/
def difficultyText : SharePdiff → Option (List UInt8)
  | ⊤ => some (literal "inf")
  | some pdiff =>
    let bdiff := pdiffToBdiff pdiff
    (doubleFindPrecision 128 bdiff).map fun prec => printFixed prec bdiff

/-- Every turn makes the number four times as large at least, and a large one has no decimals. -/
theorem exists_doubleFindPrecision {k : ℕ} {f : ℚ} (hf : 0 < f) (H : 2 ^ 52 ≤ f * 10 * 4 ^ k) :
    ∃ rv ≤ k + 1, doubleFindPrecision (k + 2) f = some rv := by
  induction k generalizing f with
  | zero =>
      rw [pow_zero, mul_one] at H
      obtain ⟨n, hn⟩ := exists_int_toDouble H
      simp only [doubleFindPrecision, hn, Int.floor_intCast, if_true, Option.map_some]
      split
      · exact ⟨0, by omega, rfl⟩
      · exact ⟨1, by omega, rfl⟩
  | succ k ih =>
      rw [doubleFindPrecision]
      split
      · exact ⟨0, by omega, rfl⟩
      · have hgrow : f * 4 ≤ toDouble (f * 10) := by
          have := lt_two_mul_toDouble (x := f * 10) (by linarith)
          linarith
        have hnext : 2 ^ 52 ≤ toDouble (f * 10) * 10 * 4 ^ k := calc
          (2 : ℚ) ^ 52 ≤ f * 10 * 4 ^ (k + 1) := H
          _ = f * 4 * 10 * 4 ^ k := by ring
          _ ≤ toDouble (f * 10) * 10 * 4 ^ k := by gcongr
        obtain ⟨rv, hle, hrv⟩ := ih (by linarith) hnext
        exact ⟨rv + 1, by omega, by rw [hrv, Option.map_some]⟩

/-- **A difficulty is printed**, and the text of it is short. -/
theorem exists_difficultyText (pdiff : SharePdiff) :
    ∃ text, difficultyText pdiff = some text ∧ text.length ≤ 198 := by
  cases pdiff with
  | none => exact ⟨_, rfl, by decide +kernel⟩
  | some x =>
      obtain ⟨x, hx⟩ := x
      have hle : x ≤ fltMax := by
        rcases hx with rfl | hx
        · norm_num [fltMax]
        · exact hx.2
      have hsmall : pdiffToBdiff x + 1 < 10 ^ 39 := by
        rw [fltMax] at hle
        rw [pdiffToBdiff]
        norm_num at hle ⊢
        linarith
      have hprec : ∃ rv ≤ 127, doubleFindPrecision 128 (pdiffToBdiff x) = some rv := by
        rcases hx with rfl | ⟨hlow, -⟩
        · exact ⟨0, by omega, by simp [doubleFindPrecision, pdiffToBdiff]⟩
        · have hpos : 0 < pdiffToBdiff x := by
            rw [pdiffToBdiff]
            have : (0 : ℚ) < 1 / 2 ^ 149 := by positivity
            linarith
          refine exists_doubleFindPrecision (k := 126) hpos ?_
          rw [pdiffToBdiff]
          norm_num at hlow ⊢
          linarith
      obtain ⟨rv, hrv, hfind⟩ := hprec
      have hlen := length_printFixed_le rv hsmall
      refine ⟨printFixed rv (pdiffToBdiff x), ?_, by omega⟩
      show Option.map _ (doubleFindPrecision 128 (pdiffToBdiff x)) = _
      rw [hfind]
      rfl

end MassGridMiner

import MassGridMiner.Device.Match
import Mathlib.Data.Set.Basic

/-!
# Ranges of indexes and of letters

The numbers and the letters in a pattern for devices, as a grammar of their own: a number is
spelled as `strtol` has it and ends where the text goes on with something else, and either end of
a range may be left out.  `indexRange` and `procRange` read exactly these.

## Main definitions

* `NumberText`, `Number` — the numbers, and the longest one that a text starts with.
* `Indexes`, `Procs` — ranges of indexes and of letters.
* `InRange` — an index and a number of a processor are in the ranges of a text.
-/

namespace MassGridMiner

open CStr

/-- A number in decimal, after a zero in octal, or after `0x` in hexadecimal. -/
inductive NumberText : List UInt8 → ℕ → Prop
  | decimal {ds : List UInt8} (hne : ds ≠ []) (hzero : firstChar ds ≠ 0x30)
      (hds : ∀ c ∈ ds, digitValue c < 10) : NumberText ds (ofDigits 10 ds)
  | octal {ds : List UInt8} (hds : ∀ c ∈ ds, digitValue c < 8) :
      NumberText (0x30 :: ds) (ofDigits 8 (0x30 :: ds))
  | hex {x : UInt8} {ds : List UInt8} (hx : tolower x = 0x78) (hne : ds ≠ [])
      (hds : ∀ c ∈ ds, digitValue c < 16) : NumberText (0x30 :: x :: ds) (ofDigits 16 ds)

/-- The longest number that a text starts with, as an `int`; `u` is what follows. -/
def Number (a u : List UInt8) (n : ℤ) : Prop :=
  ∃ val, NumberText a val ∧ n = (Int32.ofNat (min val (2 ^ 63 - 1))).toInt ∧
    ∀ b, b <+: u → (∃ w, NumberText (a ++ b) w) → b = []

/-- A range of indexes, with what follows it in the text.  Either end may be left out, and a dash
behind a number belongs to the range. -/
inductive Indexes : List UInt8 → List UInt8 → Set ℤ → Prop
  | one {a u : List UInt8} {n : ℤ} (ha : Number a u n) (hu : firstChar u ≠ 0x2d) :
      Indexes a u {n}
  | between {a b u : List UInt8} {n n2 : ℤ} (ha : Number a (0x2d :: (b ++ u)) n)
      (hb : Number b u n2) : Indexes (a ++ 0x2d :: b) u {i | n ≤ i ∧ i ≤ n2}
  | since {a u : List UInt8} {n : ℤ} (ha : Number a (0x2d :: u) n)
      (hu : isDigit (firstChar u) = false) : Indexes (a ++ [0x2d]) u {i | n ≤ i}
  | upTo {b u : List UInt8} {n2 : ℤ} (hb : Number b u n2) : Indexes (0x2d :: b) u {i | i ≤ n2}
  | every {u : List UInt8} (hu : isDigit (firstChar u) = false) : Indexes [0x2d] u Set.univ

/-- Letters that `proc_letter_to_number` reads to their end. -/
def Letters (l : List UInt8) (n : ℤ) : Prop := l ≠ [] ∧ procLetterToNumber l = (n, [])

/-- A range of letters, or nothing. -/
inductive Procs : List UInt8 → Set ℤ → Prop
  | unnamed : Procs [] Set.univ
  | one {l : List UInt8} {n : ℤ} (hl : Letters l n) : Procs l {n}
  | between {l m : List UInt8} {n n2 : ℤ} (hl : Letters l n) (hm : Letters m n2) :
      Procs (l ++ 0x2d :: m) {i | n ≤ i ∧ i ≤ n2}
  | since {l : List UInt8} {n : ℤ} (hl : Letters l n) : Procs (l ++ [0x2d]) {i | n ≤ i}
  | upTo {m : List UInt8} {n2 : ℤ} (hm : Letters m n2) : Procs (0x2d :: m) {i | i ≤ n2}
  | every : Procs [0x2d] Set.univ

/-- The letters have the number of a processor among them. -/
def HasProc (procId : ℤ) (u : List UInt8) : Prop := ∃ P, Procs u P ∧ procId ∈ P

/-- So have indexes and letters an index and a number of a processor. -/
def InRange (i procId : ℤ) (t : List UInt8) : Prop :=
  ∃ r u I, t = r ++ u ∧ Indexes r u I ∧ i ∈ I ∧ HasProc procId u

/-! ## Numbers -/

/-- The characters of a number: the digits, the zero and the `x`. -/
theorem number_chars : ∀ c, (digitValue c < 10 ↔ isDigit c = true) ∧
    (tolower c = 0x30 → c = 0x30) ∧ (tolower c = 0x78 → 16 ≤ digitValue c) :=
  forall_char (by decide +kernel)

theorem digitValue_lt_ten_iff (c : UInt8) : digitValue c < 10 ↔ isDigit c = true :=
  (number_chars c).1

section
variable {a b u : List UInt8} {n : ℤ} {val : ℕ}

theorem NumberText.of_zero {s : List UInt8} (H : NumberText (0x30 :: s) val) :
    (∀ c ∈ s, digitValue c < 8) ∨ ∃ x h u, s = x :: h :: u ∧ tolower x = 0x78 ∧
      ∀ c ∈ h :: u, digitValue c < 16 := by
  cases H with
  | decimal _ hzero _ => exact absurd rfl hzero
  | octal hds => exact .inl hds
  | @hex x ds hx hne hds =>
      obtain ⟨h, u, rfl⟩ := List.exists_cons_of_ne_nil hne
      exact .inr ⟨x, h, u, rfl, hx, hds⟩

theorem Number.isDigit_firstChar (H : Number a u n) : isDigit (firstChar (a ++ u)) = true := by
  obtain ⟨val, hnum, -, -⟩ := H
  cases hnum with
  | decimal hne _ hds =>
      obtain ⟨c, ds, rfl⟩ := List.exists_cons_of_ne_nil hne
      exact (digitValue_lt_ten_iff c).mp (hds c List.mem_cons_self)
  | octal _ => rfl
  | hex _ _ _ => rfl

end

/-! ## Ranges -/

section
variable {r u p : List UInt8} {I P : Set ℤ} {l m : List UInt8} {k n n2 : ℤ}

theorem Indexes.firstChar_append (H : Indexes r u I) :
    isDigit (firstChar (r ++ u)) = true ∨ firstChar (r ++ u) = 0x2d := by
  cases H with
  | one ha _ => exact .inl ha.isDigit_firstChar
  | between ha _ =>
      left
      rw [List.append_assoc]
      exact ha.isDigit_firstChar
  | since ha _ =>
      left
      rw [List.append_assoc]
      exact ha.isDigit_firstChar
  | upTo _ => exact .inr rfl
  | every _ => exact .inr rfl

theorem InRange.firstChar_eq {t : List UInt8} {i procId : ℤ} (H : InRange i procId t) :
    isDigit (firstChar t) = true ∨ firstChar t = 0x2d := by
  obtain ⟨r, u, I, rfl, hr, -⟩ := H
  exact hr.firstChar_append

end

end MassGridMiner

import Mathlib.Data.List.Basic
import Mathlib.Data.Nat.GCD.Basic
import Mathlib.Order.Basic
import Mathlib.Order.Nat

/-!
# Lowering a number to a divisor

A number is lowered until it divides the first item of a list, then until it divides the
second, and so on.  It divides the item that it was lowered for last, but may divide those
before no longer: what is reached is the greatest number that a chain of divisors ends at,
one of each item and none greater than the one before.

## Main definitions

* `greatestDivisor q d` — the greatest divisor of `q` up to `d`.
* `lowerAll l d` — `d` lowered for the items of `l` in turn.
* `DivisorChain d l es` — divisors of the items, one after the other.
* `gcdAll l` — the greatest common divisor.
* `lowerAll_eq_gcdAll_iff` — when the one is the other.
-/

/-- A number is lowered while it does not divide. -/
def greatestDivisor (q : ℕ) : ℕ → ℕ
  | 0 => 0
  | d + 1 => if q % (d + 1) ≠ 0 then greatestDivisor q d else d + 1

/-- A number is lowered for every item in turn. -/
def lowerAll (l : List ℕ) (d : ℕ) : ℕ := l.foldl (fun d q => greatestDivisor q d) d

/-- A divisor of every item, none greater than the one before. -/
inductive DivisorChain : ℕ → List ℕ → List ℕ → Prop
  | nil (d : ℕ) : DivisorChain d [] []
  | cons {d e q : ℕ} {l es : List ℕ} : e ∣ q → e ≤ d → DivisorChain e l es →
      DivisorChain d (q :: l) (e :: es)

/-- The greatest common divisor. -/
def gcdAll (l : List ℕ) : ℕ := l.foldr Nat.gcd 0

section
variable {q d d' e g : ℕ} {l es : List ℕ}

theorem greatestDivisor_le (q d : ℕ) : greatestDivisor q d ≤ d := by
  induction d with
  | zero => exact le_rfl
  | succ d ih =>
      rw [greatestDivisor]
      split <;> omega

theorem greatestDivisor_pos (hd : 0 < d) : 0 < greatestDivisor q d := by
  induction d with
  | zero => cases hd
  | succ d ih =>
      rw [greatestDivisor]
      split
      next hmod =>
        -- one divides everything
        refine ih (Nat.pos_of_ne_zero ?_)
        intro hzero
        simp [hzero, Nat.mod_one] at hmod
      next => exact Nat.succ_pos d

theorem greatestDivisor_dvd (hd : 0 < d) : greatestDivisor q d ∣ q := by
  induction d with
  | zero => cases hd
  | succ d ih =>
      rw [greatestDivisor]
      split
      next hmod =>
        refine ih (Nat.pos_of_ne_zero ?_)
        intro hzero
        simp [hzero, Nat.mod_one] at hmod
      next hmod => exact Nat.dvd_of_mod_eq_zero (not_not.mp hmod)

/-- No divisor up to the bound is greater. -/
theorem le_greatestDivisor (hdvd : e ∣ q) (hle : e ≤ d) : e ≤ greatestDivisor q d := by
  induction d with
  | zero => exact hle
  | succ d ih =>
      rw [greatestDivisor]
      split
      next hmod =>
        refine ih (Nat.lt_succ_iff.mp (lt_of_le_of_ne hle ?_))
        intro heq
        rw [heq] at hdvd
        exact hmod (Nat.mod_eq_zero_of_dvd hdvd)
      next => exact hle

@[simp] theorem lowerAll_nil (d : ℕ) : lowerAll [] d = d := rfl

@[simp] theorem lowerAll_cons (q : ℕ) (l : List ℕ) (d : ℕ) :
    lowerAll (q :: l) d = lowerAll l (greatestDivisor q d) := rfl

theorem lowerAll_le (l : List ℕ) (d : ℕ) : lowerAll l d ≤ d := by
  induction l generalizing d with
  | nil => exact le_rfl
  | cons q l ih => exact (ih _).trans (greatestDivisor_le q d)

theorem lowerAll_pos (l : List ℕ) (hd : 0 < d) : 0 < lowerAll l d := by
  induction l generalizing d with
  | nil => exact hd
  | cons q l ih => exact ih (greatestDivisor_pos hd)

/-- A chain stays below the numbers that are reached. -/
theorem DivisorChain.lt_lowerAll (H : DivisorChain d l es) (hle : d ≤ d') (hg : g < d')
    (hes : ∀ e ∈ es, g < e) : g < lowerAll l d' := by
  induction H generalizing d' with
  | nil => exact hg
  | cons hdvd hed _ ih =>
      have hreach := le_greatestDivisor hdvd (hed.trans hle)
      refine ih hreach ?_ fun e he => hes e (List.mem_cons_of_mem _ he)
      exact (hes _ List.mem_cons_self).trans_le hreach

/-- The numbers that are reached are a chain themselves. -/
theorem exists_divisorChain (hd : 0 < d) (hg : g < lowerAll l d) :
    ∃ es, DivisorChain d l es ∧ ∀ e ∈ es, g < e := by
  induction l generalizing d with
  | nil => exact ⟨[], .nil d, fun e he => absurd he List.not_mem_nil⟩
  | cons q l ih =>
      obtain ⟨es, hchain, hes⟩ := ih (greatestDivisor_pos hd) hg
      refine ⟨_, .cons (greatestDivisor_dvd hd) (greatestDivisor_le q d) hchain, fun e he => ?_⟩
      rcases List.mem_cons.mp he with rfl | hmem
      · exact hg.trans_le (lowerAll_le l _)
      · exact hes e hmem

theorem gcdAll_dvd {l : List ℕ} (H : q ∈ l) : gcdAll l ∣ q := by
  induction l with
  | nil => cases H
  | cons a l ih =>
      rcases List.mem_cons.mp H with rfl | hmem
      · exact Nat.gcd_dvd_left _ _
      · exact (Nat.gcd_dvd_right a (gcdAll l)).trans (ih hmem)

/-- A common divisor is never passed. -/
theorem le_lowerAll (hle : g ≤ d) (hdvd : ∀ q ∈ l, g ∣ q) : g ≤ lowerAll l d := by
  induction l generalizing d with
  | nil => exact hle
  | cons q l ih =>
      have hstep := le_greatestDivisor (hdvd q List.mem_cons_self) hle
      exact ih hstep fun q' hq' => hdvd q' (List.mem_cons_of_mem _ hq')

/-- **The greatest common divisor is reached exactly when no chain of greater divisors goes
through the list.** -/
theorem lowerAll_eq_gcdAll_iff (hl : l ≠ []) (hd : 0 < d) (hle : gcdAll l ≤ d) :
    lowerAll l d = gcdAll l ↔ ¬ ∃ es, DivisorChain d l es ∧ ∀ e ∈ es, gcdAll l < e := by
  have hreach : gcdAll l ≤ lowerAll l d := le_lowerAll hle fun q hq => gcdAll_dvd hq
  constructor
  · intro heq hex
    obtain ⟨es, hchain, hes⟩ := hex
    have hlt : gcdAll l < d := by
      cases hchain with
      | nil => exact absurd rfl hl
      | cons _ hed _ => exact (hes _ List.mem_cons_self).trans_le hed
    have hbelow := hchain.lt_lowerAll le_rfl hlt hes
    omega
  · intro hno
    by_contra hne
    exact hno (exists_divisorChain hd (by omega))

end

import Mathlib.Algebra.Order.Ring.Int
import Mathlib.Data.List.TakeDrop

/-!
# Loops with a counter that is too narrow

A loop over all items of an array whose size is a number of 64 bits may have a signed counter of
32 bits.  The counter is converted when the two are compared, so past its range it appears
larger than any size, and the loop ends there with items left.

## Main definitions

* `forInt` — the loop.
* `roundsInt` — how often it goes around.
* `forInt_eq` — it treats so many items.
-/

universe u v
variable {α : Type u} {σ : Type v}

/-- `i < size` for an `int` and a `size_t`. -/
def IntBelow (i : ℤ) (size : ℕ) : Prop := (i % 2 ^ 64).toNat < size

instance (i : ℤ) (size : ℕ) : Decidable (IntBelow i size) := inferInstanceAs (Decidable (_ < _))

/-- `++i` for an `int`, which wraps around. -/
def intSucc (i : ℤ) : ℤ := (i + 1).bmod (2 ^ 32)

/-- `for ( ; i < size; ++i)` over what is left of an array; none if an item past its end is
read, or a step fails. -/
def forIntFrom (step : σ → α → Option σ) (size : ℕ) : List α → ℤ → σ → Option σ
  | [], i, s => if IntBelow i size then none else some s
  | x :: rest, i, s =>
    if IntBelow i size then (step s x).bind (forIntFrom step size rest (intSucc i)) else some s

/-- `for (int i = 0; i < size; ++i)` over an array of the size. -/
def forInt (step : σ → α → Option σ) (s : σ) (array : List α) : Option σ :=
  forIntFrom step array.length array 0 s

/-- How often the loop goes around. -/
def roundsInt (size : ℕ) : ℕ :=
  if size ≤ 2 ^ 31 then size
  else if size ≤ 2 ^ 64 - 2 ^ 31 then 2 ^ 31
  else size - (2 ^ 64 - 2 ^ 32)

theorem roundsInt_of_le {size : ℕ} (H : size ≤ 2 ^ 31) : roundsInt size = size := if_pos H

theorem roundsInt_lt {size : ℕ} (H : 2 ^ 31 < size) : roundsInt size < size := by
  rw [roundsInt, if_neg (by omega)]
  split <;> omega

/-- The counter after so many rounds, as a `size_t`. -/
theorem toNat_count {k : ℕ} (H : k < 2 ^ 32) :
    ((k : ℤ).bmod (2 ^ 32) % 2 ^ 64).toNat =
      if k < 2 ^ 31 then k else k + (2 ^ 64 - 2 ^ 32) := by
  split
  · next hlt =>
    rw [Int.bmod_eq_of_le (by omega) (by omega)]
    omega
  · next hge =>
    have hwrap : (k : ℤ).bmod (2 ^ 32) = k - 2 ^ 32 := by
      rw [← Int.sub_bmod_right]
      exact Int.bmod_eq_of_le (by omega) (by omega)
    rw [hwrap]
    omega

/-- After so many rounds the counter is below the size. -/
theorem intBelow_of_lt {size k : ℕ} (hsize : size < 2 ^ 64) (hlt : k < roundsInt size) :
    IntBelow ((k : ℤ).bmod (2 ^ 32)) size := by
  rw [roundsInt] at hlt
  have hk : k < 2 ^ 32 := by split at hlt <;> (try split at hlt) <;> omega
  rw [IntBelow, toNat_count hk]
  split at hlt
  · rw [if_pos (by omega)]
    exact hlt
  · split at hlt
    · rw [if_pos hlt]
      omega
    · split <;> omega

/-- After all rounds it is not. -/
theorem not_intBelow_roundsInt {size : ℕ} (hsize : size < 2 ^ 64) :
    ¬ IntBelow ((roundsInt size : ℤ).bmod (2 ^ 32)) size := by
  have hk : roundsInt size < 2 ^ 32 := by
    rw [roundsInt]
    split <;> (try split) <;> omega
  rw [IntBelow, toNat_count hk, not_lt]
  rw [roundsInt]
  split <;> (try split) <;> (try split) <;> omega

theorem intSucc_bmod (k : ℕ) :
    intSucc ((k : ℤ).bmod (2 ^ 32)) = ((k + 1 : ℕ) : ℤ).bmod (2 ^ 32) := by
  rw [intSucc, Int.bmod_add_bmod, Nat.cast_succ]

theorem forIntFrom_eq {step : σ → α → Option σ} {size : ℕ} (hsize : size < 2 ^ 64)
    {rest : List α} {k : ℕ} (hk : k ≤ roundsInt size) (hrest : roundsInt size - k ≤ rest.length)
    (s : σ) :
    forIntFrom step size rest ((k : ℤ).bmod (2 ^ 32)) s =
      (rest.take (roundsInt size - k)).foldlM step s := by
  induction rest generalizing k s with
  | nil =>
    have hend : k = roundsInt size := by
      rw [List.length_nil] at hrest
      omega
    rw [forIntFrom, hend, if_neg (not_intBelow_roundsInt hsize), List.take_nil]
    rfl
  | cons x rest ih =>
    rw [forIntFrom]
    rcases hk.eq_or_lt with rfl | hlt
    · rw [if_neg (not_intBelow_roundsInt hsize), Nat.sub_self]
      rfl
    · obtain ⟨more, hmore⟩ : ∃ more, roundsInt size - k = more + 1 :=
        ⟨roundsInt size - k - 1, by omega⟩
      have hnext : roundsInt size - (k + 1) = more := by omega
      rw [List.length_cons] at hrest
      rw [if_pos (intBelow_of_lt hsize hlt), intSucc_bmod, hmore, List.take_succ_cons,
        List.foldlM_cons]
      congr 1
      funext s
      rw [ih hlt (by omega), hnext]

/-- **The loop** treats as many items as it goes around. -/
theorem forInt_eq {step : σ → α → Option σ} {array : List α} (hsize : array.length < 2 ^ 64)
    (s : σ) : forInt step s array = (array.take (roundsInt array.length)).foldlM step s := by
  have hle : roundsInt array.length ≤ array.length := by
    rcases Nat.lt_or_ge (2 ^ 31) array.length with hlt | hle
    · exact (roundsInt_lt hlt).le
    · rw [roundsInt_of_le hle]
  exact forIntFrom_eq hsize (Nat.zero_le _) (by omega) s

/-- It treats all of them if the counter has the range. -/
theorem forInt_of_le {step : σ → α → Option σ} {array : List α} (H : array.length ≤ 2 ^ 31)
    (s : σ) : forInt step s array = array.foldlM step s := by
  rw [forInt_eq (by omega) s, roundsInt_of_le H, List.take_length]

/-- No counter reaches a size beyond 64 bits. -/
theorem forInt_eq_none {step : σ → α → Option σ} {array : List α} (H : 2 ^ 64 ≤ array.length)
    (s : σ) : forInt step s array = none := by
  have hall : ∀ (rest : List α) (i : ℤ) (s : σ),
      forIntFrom step array.length rest i s = none := by
    intro rest
    induction rest with
    | nil =>
      intro i s
      rw [forIntFrom, if_pos]
      rw [IntBelow]
      omega
    | cons x rest ih =>
      intro i s
      have hbelow : IntBelow i array.length := by
        rw [IntBelow]
        omega
      rw [forIntFrom, if_pos hbelow, funext₂ ih, Option.bind_fun_none]
  exact hall array 0 s

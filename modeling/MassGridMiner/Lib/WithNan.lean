import Mathlib.Order.Lattice
import Mathlib.Data.List.Basic

/-!
# Numbers that may be none

The values of a floating-point type are those of a linear order, and one more that compares with
nothing, itself included.  A running minimum of such values is the least of them exactly where
each of them is a number.

## Main definitions

* `WithNan α` — a number of `α`, or none.
* `WithNan.lt`, `WithNan.le` — the comparisons.
* `WithNan.Least` — a value that is in a list and below all of it.
* `WithNan.least_foldl_iff` — the running minimum.
-/

universe u

/-- A number, or a value that is none. -/
inductive WithNan (α : Type u)
  | nan
  | num (a : α)
  deriving DecidableEq

namespace WithNan

section
variable {α : Type u} [LinearOrder α]

/-- `x < y`. -/
def lt : WithNan α → WithNan α → Bool
  | num a, num b => decide (a < b)
  | _, _ => false

/-- `x <= y`. -/
def le : WithNan α → WithNan α → Bool
  | num a, num b => decide (a ≤ b)
  | _, _ => false

@[simp] theorem lt_num (a b : α) : (num a).lt (num b) = decide (a < b) := rfl
@[simp] theorem le_num (a b : α) : (num a).le (num b) = decide (a ≤ b) := rfl
theorem lt_num_iff {a b : α} : (num a).lt (num b) = true ↔ a < b := decide_eq_true_iff
theorem le_num_iff {a b : α} : (num a).le (num b) = true ↔ a ≤ b := decide_eq_true_iff
@[simp] theorem nan_lt (y : WithNan α) : (nan : WithNan α).lt y = false := rfl
@[simp] theorem nan_le (y : WithNan α) : (nan : WithNan α).le y = false := rfl
@[simp] theorem lt_nan (x : WithNan α) : x.lt nan = false := by cases x <;> rfl
@[simp] theorem le_nan (x : WithNan α) : x.le nan = false := by cases x <;> rfl

/-- A value that is in a list and below all of it. -/
def Least (x : WithNan α) (ys : List (WithNan α)) : Prop := x ∈ ys ∧ ∀ y ∈ ys, x.le y = true

/-- `if (y < x) x = y;` -/
def lower (x y : WithNan α) : WithNan α := if y.lt x then y else x

/-- Where there is a least one, all are numbers. -/
theorem Least.nan_notMem {x : WithNan α} {ys : List (WithNan α)} (H : Least x ys) :
    (nan : WithNan α) ∉ ys := by
  intro hnan
  have hle := H.2 nan hnan
  rw [le_nan] at hle
  cases hle

theorem Least.unique {x x' : WithNan α} {ys : List (WithNan α)} (H : Least x ys)
    (H' : Least x' ys) : x = x' := by
  have hle := H.2 x' H'.1
  have hle' := H'.2 x H.1
  cases x with
  | nan => cases hle
  | num a =>
    cases x' with
    | nan => cases hle'
    | num b =>
      simp only [le_num, decide_eq_true_eq] at hle hle'
      rw [le_antisymm hle hle']

/-- Only what is in the list matters. -/
theorem Least.congr {x : WithNan α} {ys zs : List (WithNan α)} (H : Least x ys)
    (hmem : ∀ y, y ∈ ys ↔ y ∈ zs) : Least x zs :=
  ⟨(hmem x).mp H.1, fun y hy => H.2 y ((hmem y).mpr hy)⟩

theorem least_singleton {x : WithNan α} (hx : x ≠ nan) : Least x [x] := by
  refine ⟨List.mem_singleton_self x, fun y hy => ?_⟩
  obtain rfl := List.mem_singleton.mp hy
  cases y with
  | nan => exact absurd rfl hx
  | num a => simp

/-- A number more. -/
theorem Least.lower {x y : WithNan α} {ys : List (WithNan α)} (H : Least x ys) (hy : y ≠ nan) :
    Least (x.lower y) (y :: ys) := by
  have hx := H.2 x H.1
  cases x with
  | nan => cases hx
  | num a =>
    cases y with
    | nan => exact absurd rfl hy
    | num b =>
      rw [WithNan.lower, lt_num]
      split
      · next hlt =>
        rw [decide_eq_true_eq] at hlt
        refine ⟨List.mem_cons_self, List.forall_mem_cons.mpr ⟨by simp, fun z hz => ?_⟩⟩
        have hz' := H.2 z hz
        cases z with
        | nan => cases hz'
        | num c =>
          simp only [le_num, decide_eq_true_eq] at hz' ⊢
          exact hlt.le.trans hz'
      · next hge =>
        rw [decide_eq_true_eq, not_lt] at hge
        exact ⟨List.mem_cons_of_mem _ H.1, List.forall_mem_cons.mpr ⟨by simpa using hge, H.2⟩⟩

/-- **The running minimum** of values is the least of them exactly where all are numbers. -/
theorem least_foldl_iff (ys : List (WithNan α)) (x : WithNan α) :
    Least (ys.foldl WithNan.lower x) (x :: ys) ↔ (nan : WithNan α) ∉ x :: ys := by
  refine ⟨fun H => H.nan_notMem, fun hnums => ?_⟩
  have hx : x ≠ nan := fun h => hnums (h ▸ List.mem_cons_self)
  have hall : ∀ (zs : List (WithNan α)) (y : WithNan α) (seen : List (WithNan α)), Least y seen →
      (nan : WithNan α) ∉ zs → Least (zs.foldl WithNan.lower y) (zs.reverse ++ seen) := by
    intro zs
    induction zs with
    | nil => exact fun y seen H _ => H
    | cons z zs ih =>
      intro y seen H hzs
      rw [List.mem_cons, not_or] at hzs
      rw [List.foldl_cons, List.reverse_cons, List.append_assoc]
      exact ih _ _ (H.lower (Ne.symm hzs.1)) hzs.2
  refine (hall ys x [x] (least_singleton hx) fun h => hnums (List.mem_cons_of_mem _ h)).congr ?_
  intro y
  simp [or_comm]

end

end WithNan

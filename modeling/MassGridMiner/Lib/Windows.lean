import Mathlib.Data.List.Basic

/-!
# The first window of a kind

A stream is searched for the first place where a window of some length is of a kind.  Places where
the window is not of the kind can be skipped.

## Main definitions

* `Windows.Pattern` — a kind of windows of one length.
* `Windows.Pattern.first` — the first window of the kind, and what comes behind it.
* `Windows.Pattern.IsFirst` — what that means.
-/

namespace Windows

universe u
variable {α : Type u}

/-- A kind of windows, all of the same length, which is not zero. -/
structure Pattern (α : Type u) where
  size : ℕ
  size_pos : 0 < size
  test : List α → Bool
  length_eq : ∀ w, test w = true → w.length = size

namespace Pattern

variable (p : Pattern α)

/-- There is a window of the kind at a place. -/
def At (s : List α) (i : ℕ) : Prop := p.test ((s.drop i).take p.size) = true

/-- The first window of the kind, and what comes behind it. -/
def first : List α → Option (List α × List α)
  | [] => none
  | x :: s =>
    if p.test ((x :: s).take p.size) then some ((x :: s).take p.size, (x :: s).drop p.size)
    else first s

/-- A stream that is a window of the kind between what comes in front of it and behind it, with no
such window that starts in front of it. -/
structure IsFirst (s front w behind : List α) : Prop where
  eq : s = front ++ w ++ behind
  test : p.test w = true
  least : ∀ i < front.length, ¬p.At s i

section
variable {p} {s front w behind : List α}

/-- Too near the end there is no window of the kind. -/
theorem At.add_le {i : ℕ} (h : p.At s i) : i + p.size ≤ s.length := by
  have hlen := p.length_eq _ h
  have hpos := p.size_pos
  rw [List.length_take, List.length_drop] at hlen
  omega

/-- Places without a window of the kind are skipped. -/
theorem first_drop {k : ℕ} (h : ∀ i < k, ¬p.At s i) : p.first s = p.first (s.drop k) := by
  induction k generalizing s with
  | zero => rfl
  | succ k ih =>
      cases s with
      | nil => rfl
      | cons x s =>
          have hhead : ¬p.test ((x :: s).take p.size) = true := h 0 (Nat.succ_pos k)
          rw [first, if_neg hhead, List.drop_succ_cons]
          exact ih fun i hi => h (i + 1) (Nat.succ_lt_succ hi)

/-- A window of the kind at the front is the first. -/
theorem first_append (h : p.test w = true) : p.first (w ++ s) = some (w, s) := by
  have hlen := p.length_eq w h
  have hpos := p.size_pos
  cases w with
  | nil => simp at hlen; omega
  | cons x w =>
      rw [List.cons_append, first, ← List.cons_append, ← hlen, List.take_left, List.drop_left,
        if_pos h]

theorem IsFirst.first (h : p.IsFirst s front w behind) : p.first s = some (w, behind) := by
  rw [first_drop h.least, h.eq, List.append_assoc, List.drop_left]
  exact first_append h.test

/-- Where the window at the front is not of the kind, others are those of the rest. -/
theorem forall_lt_succ {x : α} {k : ℕ} (hhead : ¬p.test ((x :: s).take p.size) = true)
    (h : ∀ i < k, ¬p.At s i) : ∀ i < k + 1, ¬p.At (x :: s) i
  | 0, _ => hhead
  | i + 1, hi => h i (Nat.lt_of_succ_lt_succ hi)

end

/-- Either there is no window of the kind, or there is a first one. -/
theorem first_cases (s : List α) : (p.first s = none ∧ ∀ i, ¬p.At s i) ∨
    ∃ front w behind, p.first s = some (w, behind) ∧ p.IsFirst s front w behind := by
  induction s with
  | nil =>
    refine .inl ⟨rfl, fun i hat => ?_⟩
    have hle := hat.add_le
    have hpos := p.size_pos
    rw [List.length_nil] at hle
    omega
  | cons x s ih =>
    by_cases hhead : p.test ((x :: s).take p.size) = true
    · refine .inr ⟨[], _, _, ?_, ⟨(List.take_append_drop p.size (x :: s)).symm, hhead, ?_⟩⟩
      · rw [first, if_pos hhead]
      · exact fun i hi => absurd hi (Nat.not_lt_zero i)
    · rw [first, if_neg hhead]
      rcases ih with ⟨hnone, hat⟩ | ⟨front, w, behind, hsome, hfirst⟩
      · exact .inl ⟨hnone, fun i => forall_lt_succ hhead (fun j _ => hat j) i i.lt_succ_self⟩
      · refine .inr ⟨x :: front, w, behind, hsome, ?_, hfirst.test, ?_⟩
        · rw [hfirst.eq]
          rfl
        · exact forall_lt_succ hhead hfirst.least

/-- A stream that is too short has no window of the kind. -/
theorem first_eq_none {s : List α} (h : s.length < p.size) : p.first s = none := by
  rcases p.first_cases s with ⟨hnone, -⟩ | ⟨front, w, behind, -, hfirst⟩
  · exact hnone
  · have hlen := p.length_eq w hfirst.test
    rw [hfirst.eq, List.length_append, List.length_append] at h
    omega

end Pattern

end Windows

import Mathlib.Algebra.Ring.Nat
import Mathlib.Data.List.Infix

/-!
# Texts with a separator

A text is cut at a separator, and words are put together with one behind each.  A word
without a separator is one of those that were put together exactly when it is found between
two separators.

## Main definitions

* `cut c s` — the text before the first separator, and what follows it.
* `pieces c s` — the pieces that a loop sees which goes on while there is text left.
* `joined c words` — the words, with a separator in front and behind each.
* `enclosed_infix_joined_iff` — what a search for a word between separators finds.
-/

universe u
variable {α : Type u} [DecidableEq α]

/-- The text before the first `c`, and what follows it, if there is one. -/
def cut (c : α) : List α → List α × Option (List α)
  | [] => ([], none)
  | x :: s => if x = c then ([], some s) else ((cut c s).map (x :: ·) id)

theorem cut_of_notMem {c : α} {s : List α} (H : c ∉ s) : cut c s = (s, none) := by
  induction s with
  | nil => rfl
  | cons x s ih =>
      rw [List.mem_cons, not_or] at H
      rw [cut, if_neg (Ne.symm H.1), ih H.2]
      rfl

theorem cut_append_cons {c : α} {xs : List α} (H : c ∉ xs) (ys : List α) :
    cut c (xs ++ c :: ys) = (xs, some ys) := by
  induction xs with
  | nil => simp [cut]
  | cons x xs ih =>
      rw [List.mem_cons, not_or] at H
      rw [List.cons_append, cut, if_neg (Ne.symm H.1), ih H.2]
      rfl

/-- The pieces and the separators between them are the whole text. -/
theorem sum_length_splitOn (c : α) (s : List α) :
    ((s.splitOn c).map fun w => w.length + 1).sum = s.length + 1 := by
  induction s with
  | nil => simp
  | cons x s ih =>
      rw [List.splitOn_cons_eq_if_modifyHead]
      split
      · simp [ih]
        omega
      · obtain ⟨v, ws, hsplit⟩ := List.exists_cons_of_ne_nil (List.splitOn_ne_nil c s)
        rw [hsplit] at ih ⊢
        simp only [List.modifyHead_cons, List.map_cons, List.sum_cons, List.length_cons] at ih ⊢
        omega

/-- The pieces, without an empty one at the end. -/
def pieces (c : α) (s : List α) : List (List α) :=
  let ws := s.splitOn c
  if ws.getLast? = some [] then ws.dropLast else ws

/-! ## Words put together -/

/-- The words, with a separator in front of the first and behind each. -/
def joined (c : α) (words : List (List α)) : List α := c :: words.flatMap (· ++ [c])

/-- A word between two separators. -/
def enclosed (c : α) (word : List α) : List α := c :: (word ++ [c])

omit [DecidableEq α]

variable {c : α}

@[simp] theorem joined_nil (c : α) : joined c [] = [c] := rfl

theorem joined_cons (c : α) (w : List α) (ws : List (List α)) :
    joined c (w :: ws) = c :: (w ++ joined c ws) := by
  simp [joined]

theorem joined_append_singleton (c : α) (ws : List (List α)) (w : List α) :
    joined c (ws ++ [w]) = joined c ws ++ (w ++ [c]) := by
  simp [joined]

theorem length_joined (c : α) (ws : List (List α)) :
    (joined c ws).length = 1 + (ws.map fun w => w.length + 1).sum := by
  induction ws with
  | nil => rfl
  | cons w ws ih =>
      rw [joined_cons, List.length_cons, List.length_append, ih, List.map_cons, List.sum_cons]
      omega

/-- What starts with an item is found behind a piece that has none. -/
theorem cons_infix_append_iff {t xs ys : List α} (hxs : c ∉ xs) :
    c :: t <:+: xs ++ ys ↔ c :: t <:+: ys := by
  refine ⟨fun H => ?_, fun H => H.trans (List.suffix_append xs ys).isInfix⟩
  induction xs with
  | nil => exact H
  | cons x xs ih =>
      rw [List.mem_cons, not_or] at hxs
      rcases List.infix_cons_iff.mp H with hpre | hinfix
      · exact absurd (List.cons_prefix_cons.mp hpre).1 hxs.1
      · exact ih hxs.2 hinfix

/-- Two words that the same separator ends are one prefix of the other only if they are
equal. -/
theorem append_cons_prefix_iff {v w ys : List α} (hv : c ∉ v) (hw : c ∉ w) :
    v ++ [c] <+: w ++ c :: ys ↔ v = w := by
  induction v generalizing w with
  | nil =>
      cases w with
      | nil => simp
      | cons x w =>
          have hx : c ≠ x := fun h => hw (h ▸ List.mem_cons_self)
          simp [List.cons_prefix_cons, hx]
  | cons y v ih =>
      rw [List.mem_cons, not_or] at hv
      cases w with
      | nil => simp [List.cons_prefix_cons, Ne.symm hv.1]
      | cons x w =>
          rw [List.mem_cons, not_or] at hw
          rw [List.cons_append, List.cons_append, List.cons_prefix_cons, ih hv.2 hw.2,
            List.cons.injEq]

/-- **A word stands between two separators exactly when it was put there.** -/
theorem enclosed_infix_joined_iff {v : List α} {ws : List (List α)} (hv : c ∉ v)
    (hws : ∀ w ∈ ws, c ∉ w) : enclosed c v <:+: joined c ws ↔ v ∈ ws := by
  induction ws with
  | nil =>
      have hlong : ¬ enclosed c v <:+: [c] := fun H => by
        have := H.length_le
        simp [enclosed] at this
      simpa using hlong
  | cons w ws ih =>
      have hw := hws w List.mem_cons_self
      have ih := ih fun w' hw' => hws w' (List.mem_cons_of_mem _ hw')
      have hhead : enclosed c v <+: joined c (w :: ws) ↔ v = w := by
        rw [joined_cons, enclosed, List.cons_prefix_cons, joined, append_cons_prefix_iff hv hw]
        exact and_iff_right rfl
      have htail : enclosed c v <:+: w ++ joined c ws ↔ v ∈ ws := by
        rw [← ih]
        exact cons_infix_append_iff hw
      rw [List.mem_cons, ← hhead, ← htail, joined_cons]
      exact List.infix_cons_iff

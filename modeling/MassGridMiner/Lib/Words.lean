import Mathlib.Data.List.TakeWhile
import Mathlib.Data.Nat.Notation

/-!
# The words of a text

The words of a text are its longest pieces of items with some property, in their order, each with
what stands behind it.

## Main definitions

* `words P l` — the words, and what stands behind them.
* `words_append` — the words of a text that is put together between two words.
* `words_induction` — a text is put together of words and what stands between them.
-/

universe u
variable {α : Type u} (P : α → Bool)

/-- The words of a text, each with what stands behind it. -/
def words : List α → List (List α × List α)
  | [] => []
  | x :: l =>
    if P x then
      if l.head?.any P then
        match words l with
        | (w, rest) :: more => (x :: w, rest) :: more
        | [] => []
      else ([x], l) :: words l
    else words l

variable {P}

theorem words_cons_of_neg {x : α} (hx : P x = false) (l : List α) :
    words P (x :: l) = words P l := by
  rw [words, if_neg (by simp [hx])]

theorem words_append_of_all {w rest : List α} (hne : w ≠ []) (hall : ∀ x ∈ w, P x = true)
    (hrest : rest.head?.any P = false) : words P (w ++ rest) = (w, rest) :: words P rest := by
  induction w with
  | nil => exact absurd rfl hne
  | cons x w ih =>
      rw [List.cons_append, words, if_pos (hall x List.mem_cons_self)]
      cases w with
      | nil => rw [List.nil_append, if_neg (by simp [hrest])]
      | cons y w =>
          have hy := hall y (List.mem_cons_of_mem _ List.mem_cons_self)
          rw [if_pos (by simp [hy]),
            ih (List.cons_ne_nil _ _) fun z hz => hall z (List.mem_cons_of_mem _ hz)]

/-- A text is put together of words, and items between them. -/
theorem words_induction {motive : List α → Prop} (nil : motive [])
    (skip : ∀ x l, P x = false → motive l → motive (x :: l))
    (word : ∀ w rest, w ≠ [] → (∀ x ∈ w, P x = true) → rest.head?.any P = false → motive rest →
      motive (w ++ rest)) (l : List α) : motive l := by
  induction hlen : l.length using Nat.strongRecOn generalizing l with
  | _ n ih =>
      subst hlen
      cases l with
      | nil => exact nil
      | cons x l =>
          cases hx : P x with
          | false => exact skip x l hx (ih l.length (Nat.lt_succ_self _) l rfl)
          | true =>
              have hsplit : (x :: l).takeWhile P ++ (x :: l).dropWhile P = x :: l :=
                List.takeWhile_append_dropWhile
              have htake : (x :: l).takeWhile P = x :: l.takeWhile P :=
                List.takeWhile_cons_of_pos hx
              have hend : ((x :: l).dropWhile P).head?.any P = false := by
                have hfirst := List.head?_dropWhile_not P (x :: l)
                cases hd : ((x :: l).dropWhile P).head? with
                | none => rfl
                | some y =>
                    rw [hd] at hfirst
                    exact hfirst
              rw [← hsplit]
              refine word _ _ (by simp [htake]) (fun y hy => List.mem_takeWhile_imp hy) hend ?_
              refine ih _ ?_ _ rfl
              have := congrArg List.length hsplit
              rw [List.length_append, htake, List.length_cons] at this
              omega

/-- No word goes on from one text into the next. -/
theorem words_append {b : List α} (hb : b.head?.any P = false) (a : List α) :
    words P (a ++ b) = ((words P a).map fun r => (r.1, r.2 ++ b)) ++ words P b := by
  induction a using words_induction (P := P) with
  | nil => rfl
  | skip x l hx ih => rw [List.cons_append, words_cons_of_neg hx, words_cons_of_neg hx, ih]
  | word w rest hne hall hrest ih =>
      have hend : (rest ++ b).head?.any P = false := by
        cases rest with
        | nil => exact hb
        | cons y rest => exact hrest
      rw [List.append_assoc, words_append_of_all hne hall hend, words_append_of_all hne hall hrest,
        ih, List.map_cons, List.cons_append]

/-- What stands behind a word is an end of the text. -/
theorem suffix_of_mem_words {l : List α} {r : List α × List α} (H : r ∈ words P l) :
    r.2 <:+ l := by
  induction l using words_induction (P := P) with
  | nil => cases H
  | skip x l hx ih =>
      rw [words_cons_of_neg hx] at H
      exact (ih H).trans (List.suffix_cons x l)
  | word w rest hne hall hrest ih =>
      rw [words_append_of_all hne hall hrest, List.mem_cons] at H
      rcases H with rfl | H
      · exact List.suffix_append w rest
      · exact (ih H).trans (List.suffix_append w rest)

import Mathlib.Data.List.Chain
import Mathlib.Data.List.TakeWhile

/-!
# Lines of a stream

A stream is cut at a delimiter, and the pieces that are not empty are its lines.  Reading
takes one line at a time and leaves what follows it; how many delimiters that rest begins
with does not matter, so rests are compared without them.

## Main definitions

* `strip d xs` — a list without its leading delimiters.
* `next d xs` — the first line and what follows.
* `read d k xs` — the first `k` lines and what follows.
* `NoBlank d xs` — no line is empty.
* `strip_append_inj` — what is appended to two lists does not blur a difference.
-/

namespace Lines

universe u
variable {α : Type u} [DecidableEq α] (d : α)

/-- The delimiters a list begins with. -/
def lead (xs : List α) : List α := xs.takeWhile (· == d)

/-- A list without them. -/
def strip (xs : List α) : List α := xs.dropWhile (· == d)

/-- The longest beginning without a delimiter. -/
def word (xs : List α) : List α := xs.takeWhile (· != d)

/-- What follows it. -/
def tail (xs : List α) : List α := xs.dropWhile (· != d)

/-- The first line, and what follows it. -/
def next (xs : List α) : Option (List α × List α) :=
  if strip d xs = [] then none else some (word d (strip d xs), tail d (strip d xs))

/-- The first `k` lines, and what follows them. -/
def read : ℕ → List α → Option (List (List α) × List α)
  | 0, xs => some ([], xs)
  | k + 1, xs => (read k xs).bind fun p => (next d p.2).map fun q => (p.1 ++ [q.1], q.2)

theorem lead_append_strip (xs : List α) : lead d xs ++ strip d xs = xs :=
  List.takeWhile_append_dropWhile

theorem word_append_tail (xs : List α) : word d xs ++ tail d xs = xs :=
  List.takeWhile_append_dropWhile

theorem strip_eq_nil_iff {xs : List α} : strip d xs = [] ↔ ∀ x ∈ xs, x = d := by
  simp [strip, List.dropWhile_eq_nil_iff]

theorem strip_append (xs ys : List α) :
    strip d (xs ++ ys) = if strip d xs = [] then strip d ys else strip d xs ++ ys := by
  simp only [strip, List.dropWhile_append, List.isEmpty_iff]
  congr

theorem strip_length_le (xs : List α) : (strip d xs).length ≤ xs.length :=
  (List.dropWhile_suffix _).length_le

/-- Two lists that differ without their leading delimiters still do when the same list
is appended to both. -/
theorem strip_append_inj (xs ys : List α) {zs : List α} :
    strip d (xs ++ zs) = strip d (ys ++ zs) ↔ strip d xs = strip d ys := by
  have hlen := strip_length_le d zs
  have himp : ∀ {us : List α}, strip d us ≠ [] → strip d zs ≠ strip d us ++ zs := by
    intro us hus heq
    have hpos := List.length_pos_iff.mpr hus
    have := congrArg List.length heq
    rw [List.length_append] at this
    omega
  rw [strip_append, strip_append]
  split_ifs with hx hy hy
  · simp [hx, hy]
  · simpa [hx, eq_comm, hy] using himp hy
  · simpa [hy, hx] using (himp hx).symm
  · exact List.append_left_inj zs

/-- A line is followed by a delimiter, unless it is the end. -/
theorem head_of_next {xs l rest : List α} {x : α} (H : next d xs = some (l, x :: rest)) :
    x = d := by
  simp only [next] at H
  split at H
  · simp at H
  · simp only [Option.some.injEq, Prod.mk.injEq] at H
    have := List.head?_dropWhile_not (· != d) (strip d xs)
    rw [show (strip d xs).dropWhile (· != d) = x :: rest from H.2] at this
    simpa using this

theorem next_eq_none_iff {xs : List α} : next d xs = none ↔ strip d xs = [] := by
  simp [next]

theorem strip_cons_self (xs : List α) : strip d (d :: xs) = strip d xs := by
  simp [strip]

/-- Without a beginning there is only what follows it. -/
theorem tail_of_word_nil {xs : List α} (H : word d xs = []) : tail d xs = xs := by
  have := word_append_tail d xs
  rwa [H, List.nil_append] at this

/-- Only what follows the leading delimiters is read. -/
theorem next_congr {xs ys : List α} (H : strip d xs = strip d ys) : next d xs = next d ys := by
  simp only [next, H]

/-- A line that ends within `xs` is the first line of every longer list. -/
theorem next_append {xs zs l rest : List α} (H : next d xs = some (l, rest)) (hrest : rest ≠ []) :
    next d (xs ++ zs) = some (l, rest ++ zs) := by
  simp only [next] at H ⊢
  split at H
  · simp at H
  · rename_i hne
    simp only [Option.some.injEq, Prod.mk.injEq] at H
    obtain ⟨rfl, rfl⟩ := H
    have hstrip : strip d (xs ++ zs) = strip d xs ++ zs := by rw [strip_append, if_neg hne]
    have hword : word d (strip d xs ++ zs) = word d (strip d xs) := by
      simp only [word, List.takeWhile_append]
      refine if_neg fun hall => hrest ?_
      have := word_append_tail d (strip d xs)
      have hlen := congrArg List.length this
      rw [List.length_append] at hlen
      exact List.eq_nil_of_length_eq_zero (by simp only [word] at hlen; omega)
    have htail : tail d (strip d xs ++ zs) = tail d (strip d xs) ++ zs := by
      simp only [tail, List.dropWhile_append, List.isEmpty_iff] at hrest ⊢
      rw [if_neg hrest]
    rw [hstrip, if_neg (by simp [hne]), hword, htail]

/-- A line that `xs` ends in goes on in what is appended. -/
theorem next_append_of_tail_nil {xs zs l : List α} (H : next d xs = some (l, [])) :
    next d (xs ++ zs) = some (l ++ word d zs, tail d zs) := by
  simp only [next] at H ⊢
  split at H
  · simp at H
  · rename_i hne
    simp only [Option.some.injEq, Prod.mk.injEq] at H
    obtain ⟨rfl, htail⟩ := H
    have hstrip : strip d (xs ++ zs) = strip d xs ++ zs := by rw [strip_append, if_neg hne]
    have hword : word d (strip d xs) = strip d xs := by
      have := word_append_tail d (strip d xs)
      rwa [htail, List.append_nil] at this
    have hall : ∀ x ∈ strip d xs, (x != d) = true := by
      intro x hx
      rw [← hword] at hx
      exact List.mem_takeWhile_imp (p := (· != d)) hx
    rw [hstrip, if_neg (by simp [hne]), hword]
    simp only [word, tail, List.takeWhile_append_of_pos hall, List.dropWhile_append_of_pos hall]

/-- No line is empty: there is no delimiter in front, and no two follow each other. -/
def NoBlank (xs : List α) : Prop := (d :: xs).IsChain fun a b => a ≠ d ∨ b ≠ d

theorem NoBlank.lead_nil {xs zs : List α} (H : NoBlank d (xs ++ zs)) : lead d xs = [] := by
  cases xs with
  | nil => rfl
  | cons x xs =>
      have hx : x ≠ d := by
        have := (List.isChain_cons_cons.mp H).1
        simpa using this
      simp [lead, hx]

omit [DecidableEq α] in
/-- What follows the delimiter after a line has no blank line either. -/
theorem NoBlank.rest {l rest : List α} (H : NoBlank d (l ++ d :: rest)) : NoBlank d rest := by
  have hsuffix : d :: rest <:+ d :: (l ++ d :: rest) :=
    (List.suffix_append l (d :: rest)).trans (List.suffix_cons d _)
  exact List.IsChain.suffix H hsuffix

theorem read_succ (k : ℕ) (xs : List α) :
    read d (k + 1) xs = (read d k xs).bind fun p => (next d p.2).map fun q => (p.1 ++ [q.1], q.2) :=
  rfl

end Lines

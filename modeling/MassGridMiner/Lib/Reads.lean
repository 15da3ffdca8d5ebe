import MassGridMiner.Lib.Search
import Mathlib.Data.List.DropRight

/-!
# Searching memory

A search reads one item after another, from a place on or back to the beginning, and stops at
the first with some property.  Whether it stays inside the memory is part of its result; where
it does, it is a search of a list.

## Main definitions

* `readFind`, `readBack` — the searches.
* `skipAhead`, `skipBack` — what loops without a bound skip, in both directions.
* `readFind_eq` — a search that has no room to leave the memory.
* `readFind_eq_none` — one that finds nothing and has.
-/

universe u
variable {α : Type u} (P : α → Bool) (mem : List α)

/-- The first of so many items from a place on that has a property, if any has; none if an item
outside of the memory is read. -/
def readFind : ℕ → ℕ → Option (Option ℕ)
  | 0, _ => some none
  | n + 1, i => mem[i]?.bind fun x => if P x then some (some i) else readFind n (i + 1)

/-- The last place of an item among the first so many. -/
def readBack [DecidableEq α] (c : α) (mem : List α) : ℕ → Option (Option ℕ)
  | 0 => some none
  | n + 1 => mem[n]?.bind fun x => if x = c then some (some n) else readBack c mem n

variable {P mem}

/-- A search inside of the memory. -/
theorem readFind_eq {n i : ℕ} (H : i + n ≤ mem.length) :
    readFind P mem n i = some ((((mem.drop i).take n).findIdx? P).map fun j => i + j) := by
  induction n generalizing i with
  | zero => rfl
  | succ n ih =>
      have hlt : i < mem.length := by omega
      rw [readFind, List.getElem?_eq_getElem hlt, Option.bind_some, ← List.getElem_cons_drop hlt,
        List.take_succ_cons, List.findIdx?_cons, ih (by omega)]
      split
      · rfl
      · rw [Option.map_map]
        congr 2
        funext j
        simp only [Function.comp_apply]
        omega

/-- A search that stops before the end of the memory finds what stops it. -/
theorem readFind_of_findIdx {n i j : ℕ} (hfound : (mem.drop i).findIdx? P = some j)
    (hlt : j < n) : readFind P mem n i = some (some (i + j)) := by
  induction n generalizing i j with
  | zero => omega
  | succ n ih =>
      have hi : i < mem.length := by
        by_contra hge
        rw [List.drop_eq_nil_of_le (by omega)] at hfound
        cases hfound
      rw [readFind, List.getElem?_eq_getElem hi, Option.bind_some]
      rw [← List.getElem_cons_drop hi, List.findIdx?_cons] at hfound
      split at hfound
      next hP =>
        obtain rfl := Option.some.inj hfound
        rw [if_pos hP, Nat.add_zero]
      next hP =>
        obtain ⟨k, hk, rfl⟩ := Option.map_eq_some_iff.mp hfound
        rw [if_neg hP, ih hk (by omega)]
        congr 2
        omega

/-- The search for an item is `memchr` of the part that is searched. -/
theorem readFind_item [DecidableEq α] (c : α) {n i : ℕ} (H : i + n ≤ mem.length) :
    readFind (· == c) mem n i = some (memchr c (mem.take (i + n)) i) := by
  rw [readFind_eq H, memchr, List.drop_take, Nat.add_sub_cancel_left, List.idxOf?]

theorem readBack_eq [DecidableEq α] (c : α) {n : ℕ} (H : n ≤ mem.length) :
    readBack c mem n = some (memrchr c (mem.take n)) := by
  induction n with
  | zero => rfl
  | succ n ih =>
      have hlt : n < mem.length := H
      rw [readBack, List.getElem?_eq_getElem hlt, Option.bind_some, ih (by omega),
        List.take_succ_eq_append_getElem hlt, memrchr_concat, List.length_take,
        Nat.min_eq_left hlt.le]
      split <;> rfl

section Skip

/-- How many items with a property a loop skips that looks at one item after another; none if it
looks past the end of the memory. -/
def skipAhead (P : α → Bool) : List α → Option ℕ
  | [] => none
  | x :: mem => if P x then (skipAhead P mem).map (· + 1) else some 0

/-- How many of the first so many items are left by a loop that looks at them from the last one back
and drops those with a property; none if it looks before the beginning of the memory. -/
def skipBack (P : α → Bool) (mem : List α) : ℕ → Option ℕ
  | 0 => none
  | n + 1 => mem[n]?.bind fun x => if P x then skipBack P mem n else some (n + 1)

/-- Ahead, a loop that skips stops at the first item without the property. -/
theorem skipAhead_eq (H : ∃ x ∈ mem, P x = false) :
    skipAhead P mem = some (mem.takeWhile P).length := by
  induction mem with
  | nil => simp at H
  | cons x mem ih =>
      rw [skipAhead, List.takeWhile_cons]
      by_cases hx : P x = true
      · have hlater : ∃ y ∈ mem, P y = false := by
          simpa [hx] using H
        rw [if_pos hx, if_pos hx, ih hlater, Option.map_some, List.length_cons]
      · rw [if_neg hx, if_neg hx, List.length_nil]

/-- Back, a loop that skips leaves what is there up to the last item without the property, and
leaves the memory if there is none. -/
theorem skipBack_eq {n : ℕ} (H : n ≤ mem.length) :
    skipBack P mem n =
      if (mem.take n).rdropWhile P = [] then none
      else some ((mem.take n).rdropWhile P).length := by
  induction n with
  | zero => simp [skipBack]
  | succ n ih =>
      have hlt : n < mem.length := H
      rw [skipBack, List.getElem?_eq_getElem hlt, Option.bind_some,
        List.take_succ_eq_append_getElem hlt, List.rdropWhile_concat]
      split
      · exact ih hlt.le
      · rw [if_neg (List.append_ne_nil_of_right_ne_nil _ (List.cons_ne_nil _ _)),
          List.length_append, List.length_take, Nat.min_eq_left hlt.le, List.length_singleton]

/-- From the right, items are dropped as if nothing were before them, if one of them is kept. -/
theorem rdropWhile_append_of_exists {a b : List α} (H : ∃ x ∈ b, P x = false) :
    (a ++ b).rdropWhile P = a ++ b.rdropWhile P := by
  have hkept : ¬(b.reverse.dropWhile P).isEmpty = true := by
    rw [List.isEmpty_iff, List.dropWhile_eq_nil_iff]
    obtain ⟨x, hx, hPx⟩ := H
    exact fun h => Bool.false_ne_true (hPx.symm.trans (h x (List.mem_reverse.mpr hx)))
  rw [List.rdropWhile, List.reverse_append, List.dropWhile_append, if_neg hkept,
    List.reverse_append, List.reverse_reverse, List.rdropWhile]

end Skip

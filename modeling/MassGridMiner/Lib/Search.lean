import Mathlib.Data.List.Infix
import Mathlib.Data.Nat.Notation

/-!
# Searching a text

A separator is looked for from the front, from the back or from some place on.  In a text that
is put together of pieces it is found where the first, or the last, piece with it says.

## Main definitions

* `memchr`, `memrchr` — the first and the last place of an item.
* `strstr` — the first place of a piece of text.
-/

universe u
variable {α : Type u} [DecidableEq α]

/-- The first place of an item from a place on. -/
def memchr (c : α) (l : List α) (start : ℕ) : Option ℕ :=
  ((l.drop start).idxOf? c).map fun i => start + i

/-- The last place of an item. -/
def memrchr (c : α) : List α → Option ℕ
  | [] => none
  | x :: l =>
    match memrchr c l with
    | some i => some (i + 1)
    | none => if x = c then some 0 else none

/-- The first place of a piece of text. -/
def strstr (needle : List α) : List α → Option ℕ
  | [] => if needle = [] then some 0 else none
  | x :: l =>
    if needle.isPrefixOf (x :: l) then some 0 else (strstr needle l).map fun i => i + 1

theorem idxOf?_append_cons {xs : List α} {c : α} (H : c ∉ xs) (ys : List α) :
    (xs ++ c :: ys).idxOf? c = some xs.length := by
  induction xs with
  | nil => simp [List.idxOf?_cons]
  | cons x xs ih =>
      rw [List.mem_cons, not_or] at H
      have hx : (x == c) = false := by simpa using Ne.symm H.1
      rw [List.cons_append, List.idxOf?_cons, hx, ih H.2]
      rfl

theorem memchr_append_cons {xs : List α} {c : α} {start : ℕ} (hstart : start ≤ xs.length)
    (H : c ∉ xs.drop start) (ys : List α) : memchr c (xs ++ c :: ys) start = some xs.length := by
  rw [memchr, List.drop_append_of_le_length hstart, idxOf?_append_cons H, Option.map_some,
    List.length_drop]
  congr 1
  omega

theorem memchr_eq_none {l : List α} {c : α} {start : ℕ} (H : c ∉ l.drop start) :
    memchr c l start = none := by
  rw [memchr, List.idxOf?_eq_none_iff.mpr H, Option.map_none]

theorem memchr_eq_none_iff {l : List α} {c : α} {start : ℕ} :
    memchr c l start = none ↔ c ∉ l.drop start := by
  rw [memchr, Option.map_eq_none_iff, List.idxOf?_eq_none_iff]

theorem memchr_append_add (c : α) (xs ys : List α) (k : ℕ) :
    memchr c (xs ++ ys) (xs.length + k) = (memchr c ys k).map fun i => xs.length + i := by
  rw [memchr, memchr, ← List.drop_drop, List.drop_left, Option.map_map]
  congr 1
  funext i
  exact Nat.add_assoc _ _ _

/-- What is not in the first piece is looked for in the second. -/
theorem memchr_append_of_notMem {xs : List α} {c : α} {start : ℕ} (hstart : start ≤ xs.length)
    (H : c ∉ xs) (ys : List α) :
    memchr c (xs ++ ys) start = (memchr c ys 0).map fun i => xs.length + i := by
  by_cases hmem : c ∈ ys
  · obtain ⟨before, behind, rfl, hbefore⟩ := List.eq_append_cons_of_mem hmem
    have hnone : c ∉ (xs ++ before).drop start := fun h =>
      (List.mem_append.mp (List.mem_of_mem_drop h)).elim H hbefore
    rw [← List.append_assoc, memchr_append_cons (by rw [List.length_append]; omega) hnone,
      memchr_append_cons (Nat.zero_le _) hbefore, Option.map_some, List.length_append]
  · have hnone : c ∉ (xs ++ ys).drop start := fun h =>
      (List.mem_append.mp (List.mem_of_mem_drop h)).elim H hmem
    rw [memchr_eq_none hnone, memchr_eq_none (l := ys) hmem, Option.map_none]

theorem exists_memchr_of_mem {xs : List α} {c : α} (H : c ∈ xs) (ys : List α) :
    ∃ i < xs.length, memchr c (xs ++ ys) 0 = some i := by
  obtain ⟨before, behind, rfl, hbefore⟩ := List.eq_append_cons_of_mem H
  refine ⟨before.length, ?_, ?_⟩
  · rw [List.length_append, List.length_cons]
    omega
  · rw [List.append_assoc, List.cons_append,
      memchr_append_cons (Nat.zero_le _) fun h => hbefore (List.mem_of_mem_drop h)]

theorem memrchr_eq_none {l : List α} {c : α} (H : c ∉ l) : memrchr c l = none := by
  induction l with
  | nil => rfl
  | cons x l ih =>
      rw [List.mem_cons, not_or] at H
      rw [memrchr, ih H.2, if_neg (Ne.symm H.1)]

theorem memrchr_append_cons {ys : List α} {c : α} (xs : List α) (H : c ∉ ys) :
    memrchr c (xs ++ c :: ys) = some xs.length := by
  induction xs with
  | nil => rw [List.nil_append, memrchr, memrchr_eq_none H, if_pos rfl, List.length_nil]
  | cons x xs ih => rw [List.cons_append, memrchr, ih, List.length_cons]

theorem memrchr_concat (c x : α) (l : List α) :
    memrchr c (l ++ [x]) = if x = c then some l.length else memrchr c l := by
  split
  next hx =>
    subst hx
    exact memrchr_append_cons l List.not_mem_nil
  next hx =>
    induction l with
    | nil =>
        refine memrchr_eq_none ?_
        simpa using Ne.symm hx
    | cons y l ih => rw [List.cons_append, memrchr, ih, memrchr]

theorem strstr_eq_none {needle l : List α} (H : ¬ needle <:+: l) : strstr needle l = none := by
  induction l with
  | nil =>
      rw [strstr, if_neg]
      rintro rfl
      exact H List.nil_infix
  | cons x l ih =>
      have hpre : ¬ needle.isPrefixOf (x :: l) = true := fun h =>
        H (List.isPrefixOf_iff_prefix.mp h).isInfix
      rw [strstr, if_neg hpre, ih fun h => H (List.infix_cons h), Option.map_none]

omit [DecidableEq α] in
theorem isPrefix_append_dropLast (needle xs ys : List α) :
    xs ++ needle.dropLast <+: xs ++ needle ++ ys := by
  rw [List.append_assoc, List.prefix_append_right_inj]
  exact (List.dropLast_prefix needle).trans (List.prefix_append needle ys)

/-- A piece of text is found where it first ends. -/
theorem strstr_append {needle xs : List α} (H : ¬ needle <:+: xs ++ needle.dropLast)
    (ys : List α) : strstr needle (xs ++ needle ++ ys) = some xs.length := by
  induction xs with
  | nil =>
      cases needle with
      | nil => exact absurd List.nil_infix H
      | cons c needle =>
          rw [List.nil_append, List.cons_append, strstr, if_pos]
          · rfl
          · exact List.isPrefixOf_iff_prefix.mpr (List.prefix_append (c :: needle) ys)
  | cons x xs ih =>
      have hcut := isPrefix_append_dropLast needle (x :: xs) ys
      have hlen : needle.length ≤ (x :: xs ++ needle.dropLast).length := by
        rw [List.length_append, List.length_cons, List.length_dropLast]
        omega
      have hpre : ¬ needle.isPrefixOf (x :: (xs ++ needle ++ ys)) = true := fun h =>
        H (List.prefix_of_prefix_length_le (List.isPrefixOf_iff_prefix.mp h) hcut hlen).isInfix
      rw [List.cons_append, List.cons_append, strstr, if_neg hpre,
        ih fun h => H (List.infix_cons h)]
      rfl

omit [DecidableEq α] in
/-- A piece of text that is in a text is there a first time. -/
theorem exists_first_infix {needle l : List α} (hne : needle ≠ []) (H : needle <:+: l) :
    ∃ xs ys, l = xs ++ needle ++ ys ∧ ¬ needle <:+: xs ++ needle.dropLast := by
  induction l with
  | nil => exact absurd (List.infix_nil.mp H) hne
  | cons x l ih =>
      by_cases hpre : needle <+: x :: l
      · obtain ⟨ys, hys⟩ := hpre
        refine ⟨[], ys, hys.symm, fun h => ?_⟩
        have hlen := h.length_le
        have hpos := List.length_pos_iff.mpr hne
        rw [List.nil_append, List.length_dropLast] at hlen
        omega
      · obtain ⟨xs, ys, rfl, hfirst⟩ := ih ((List.infix_cons_iff.mp H).resolve_left hpre)
        refine ⟨x :: xs, ys, rfl, fun h => ?_⟩
        obtain h | h := List.infix_cons_iff.mp h
        · exact hpre (h.trans (isPrefix_append_dropLast needle (x :: xs) ys))
        · exact hfirst h

/-- A search finds what is there. -/
theorem isSome_strstr_iff {needle l : List α} : (strstr needle l).isSome ↔ needle <:+: l := by
  constructor
  · intro H
    by_contra hno
    rw [strstr_eq_none hno] at H
    cases H
  · intro H
    rcases eq_or_ne needle [] with rfl | hne
    · cases l <;> rfl
    · obtain ⟨xs, ys, rfl, hfirst⟩ := exists_first_infix hne H
      rw [strstr_append hfirst]
      rfl

theorem getElem?_of_memchr {c : α} {l : List α} {start i : ℕ} (H : memchr c l start = some i) :
    l[i]? = some c := by
  obtain ⟨j, hj, rfl⟩ := Option.map_eq_some_iff.mp H
  obtain ⟨hlt, hget, -⟩ := List.idxOf?_eq_some_iff.mp hj
  rw [← List.getElem?_drop, List.getElem?_eq_getElem hlt, hget]

theorem lt_of_memchr {c : α} {l : List α} {start i : ℕ} (H : memchr c l start = some i) :
    i < l.length :=
  (List.getElem?_eq_some_iff.mp (getElem?_of_memchr H)).1

theorem le_of_memchr {c : α} {l : List α} {start i : ℕ} (H : memchr c l start = some i) :
    start ≤ i := by
  obtain ⟨j, -, rfl⟩ := Option.map_eq_some_iff.mp H
  exact Nat.le_add_right start j

/-- What is found is the first from the place on that the search starts from. -/
theorem getElem?_ne_of_memchr {c : α} {l : List α} {start i j : ℕ}
    (H : memchr c l start = some i) (hstart : start ≤ j) (hj : j < i) : l[j]? ≠ some c := by
  obtain ⟨k, hk, rfl⟩ := Option.map_eq_some_iff.mp H
  obtain ⟨hlt, -, hfirst⟩ := List.idxOf?_eq_some_iff.mp hk
  have hne := hfirst (j - start) (by omega)
  have hsum := Nat.add_sub_cancel' hstart
  rw [← Option.some_inj, ← List.getElem?_eq_getElem, List.getElem?_drop, hsum] at hne
  exact hne

theorem getElem?_of_memrchr {c : α} {l : List α} {i : ℕ} (H : memrchr c l = some i) :
    l[i]? = some c := by
  induction l generalizing i with
  | nil => cases H
  | cons x l ih =>
      rw [memrchr] at H
      split at H
      next j hj =>
        obtain rfl := Option.some.inj H
        exact ih hj
      next hnone =>
        split at H
        next hx =>
          obtain rfl := Option.some.inj H
          rw [hx]
          rfl
        next => cases H

theorem lt_of_memrchr {c : α} {l : List α} {i : ℕ} (H : memrchr c l = some i) : i < l.length :=
  (List.getElem?_eq_some_iff.mp (getElem?_of_memrchr H)).1

theorem memchr_eq_zero {c : α} {l : List α} : memchr c l 0 = some 0 ↔ l.head? = some c := by
  constructor
  · intro H
    rw [List.head?_eq_getElem?]
    exact getElem?_of_memchr H
  · intro H
    cases l with
    | nil => cases H
    | cons d l =>
        obtain rfl := Option.some.inj H
        exact @memchr_append_cons _ _ [] d 0 le_rfl List.not_mem_nil l

theorem exists_of_memchr {c : α} {l : List α} {i : ℕ} (H : memchr c l 0 = some i) :
    ∃ xs ys, l = xs ++ c :: ys ∧ xs.length = i ∧ c ∉ xs := by
  by_cases hmem : c ∈ l
  · obtain ⟨xs, ys, rfl, hxs⟩ := List.eq_append_cons_of_mem hmem
    rw [memchr_append_cons (Nat.zero_le _) hxs] at H
    exact ⟨xs, ys, rfl, Option.some.inj H, hxs⟩
  · rw [memchr_eq_none hmem] at H
    cases H

omit [DecidableEq α] in
/-- Two of the same item are found in the piece that has the item. -/
theorem infix_pair_append {c : α} {xs ys : List α} (hxs : c ∉ xs) (H : [c, c] <:+: xs ++ ys) :
    [c, c] <:+: ys := by
  induction xs with
  | nil => exact H
  | cons x xs ih =>
      rw [List.mem_cons, not_or] at hxs
      rcases List.infix_cons_iff.mp H with hpre | hinfix
      · exact absurd (List.cons_prefix_cons.mp hpre).1 hxs.1
      · exact ih hxs.2 hinfix

omit [DecidableEq α] in
theorem infix_pair_of_append {c : α} {xs ys : List α} (hys : c ∉ ys) (H : [c, c] <:+: xs ++ ys) :
    [c, c] <:+: xs := by
  rw [← List.reverse_infix, List.reverse_append] at H
  have hrev := infix_pair_append (mt List.mem_reverse.mp hys) H
  rwa [← List.reverse_infix]

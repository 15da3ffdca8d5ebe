import Mathlib.Data.List.Nodup
import Mathlib.Data.List.Perm.Subperm
import Mathlib.Algebra.Ring.Int.Defs

/-!
# Ranking the items of a list

Each of `n` items has one of the ranks `0, …, n - 1`.  Items come and go and are moved to the
front, and the others make room or close up.  The ranks stand in records beside the list, so
that a loop over the items changes the record of each.

## Main definitions

* `IsRanking l rank` — the items of `l` have the ranks `0, …, n - 1`, each once.
* `IsRanking.concat`, `erase`, `toFront`, `ofOrder` — what keeps ranks a ranking.
* `updateAll l f g` — the records `g`, those of the items of `l` changed by `f`.
-/

universe u v
variable {α : Type u} {β : Type v}

/-- The items have the ranks `0, …, n - 1`, each once. -/
structure IsRanking (l : List α) (rank : α → ℤ) : Prop where
  nodup : l.Nodup
  inj : ∀ x ∈ l, ∀ y ∈ l, rank x = rank y → x = y
  nonneg : ∀ x ∈ l, 0 ≤ rank x
  lt_length : ∀ x ∈ l, rank x < l.length

namespace IsRanking

variable {l l' : List α} {rank rank' : α → ℤ}

/-- The ranks, in whatever order the items come, are `0, …, n - 1`. -/
theorem perm_range (H : IsRanking l rank) :
    (l.map rank).Perm ((List.range l.length).map Nat.cast) := by
  have hnodup : (l.map rank).Nodup :=
    H.nodup.map_on fun x hx y hy heq => H.inj x hx y hy heq
  have hsub : l.map rank ⊆ (List.range l.length).map Nat.cast := by
    intro k hk
    obtain ⟨x, hx, rfl⟩ := List.mem_map.mp hk
    have hnonneg := H.nonneg x hx
    have hlt := H.lt_length x hx
    exact List.mem_map.mpr ⟨(rank x).toNat, List.mem_range.mpr (by omega), by omega⟩
  refine (List.subperm_of_subset hnodup hsub).perm_of_length_le ?_
  rw [List.length_map, List.length_map, List.length_range]

/-- Only the ranks of the items matter, and not the order of the list. -/
theorem congr (H : IsRanking l rank) (hperm : l.Perm l') (hrank : ∀ x ∈ l, rank' x = rank x) :
    IsRanking l' rank' where
  nodup := hperm.nodup_iff.mp H.nodup
  inj x hx y hy heq := by
    rw [← hperm.mem_iff] at hx hy
    rw [hrank x hx, hrank y hy] at heq
    exact H.inj x hx y hy heq
  nonneg x hx := by
    rw [← hperm.mem_iff] at hx
    exact hrank x hx ▸ H.nonneg x hx
  lt_length x hx := by
    rw [← hperm.mem_iff] at hx
    rw [hrank x hx, ← hperm.length_eq]
    exact H.lt_length x hx

theorem nil (rank : α → ℤ) : IsRanking [] rank where
  nodup := List.nodup_nil
  inj _ hx := absurd hx List.not_mem_nil
  nonneg _ hx := absurd hx List.not_mem_nil
  lt_length _ hx := absurd hx List.not_mem_nil

/-- A new item comes last. -/
theorem concat (H : IsRanking l rank) {a : α} (ha : a ∉ l) (hrank : rank a = l.length) :
    IsRanking (l ++ [a]) rank where
  nodup := List.nodup_append.mpr
    ⟨H.nodup, List.nodup_singleton a, fun x hx y hy heq => by
      rw [List.mem_singleton] at hy
      exact ha (hy ▸ heq ▸ hx)⟩
  inj x hx y hy heq := by
    rw [List.mem_append, List.mem_singleton] at hx hy
    rcases hx with hx | rfl <;> rcases hy with hy | rfl
    · exact H.inj x hx y hy heq
    · exact absurd (H.lt_length x hx) (by omega)
    · exact absurd (H.lt_length y hy) (by omega)
    · rfl
  nonneg x hx := by
    rw [List.mem_append, List.mem_singleton] at hx
    rcases hx with hx | rfl
    · exact H.nonneg x hx
    · omega
  lt_length x hx := by
    rw [List.mem_append, List.mem_singleton] at hx
    rw [List.length_append, List.length_singleton, Nat.cast_add_one]
    rcases hx with hx | rfl
    · have := H.lt_length x hx
      omega
    · omega

variable [DecidableEq α]

/-- An item goes, and those behind it close up. -/
theorem erase (H : IsRanking l rank) {a : α} (ha : a ∈ l) :
    IsRanking (l.erase a) fun x => if rank a < rank x then rank x - 1 else rank x := by
  have hmem : ∀ x ∈ l.erase a, x ∈ l ∧ rank x ≠ rank a := by
    intro x hx
    rw [H.nodup.mem_erase_iff] at hx
    exact ⟨hx.2, fun heq => hx.1 (H.inj x hx.2 a ha heq)⟩
  have hlen := List.length_erase_of_mem ha
  have hpos := List.length_pos_of_mem ha
  have hzero := H.nonneg a ha
  have hlt := H.lt_length a ha
  refine ⟨H.nodup.erase a, fun x hx y hy heq => ?_, fun x hx => ?_, fun x hx => ?_⟩
  · obtain ⟨hxl, hxa⟩ := hmem x hx
    obtain ⟨hyl, hya⟩ := hmem y hy
    refine H.inj x hxl y hyl ?_
    split at heq <;> split at heq <;> omega
  · obtain ⟨hxl, -⟩ := hmem x hx
    have hnonneg := H.nonneg x hxl
    split <;> omega
  · obtain ⟨hxl, hxa⟩ := hmem x hx
    have hxlt := H.lt_length x hxl
    split <;> omega

/-- An item moves to the front, and those that were before it make room. -/
theorem toFront (H : IsRanking l rank) {a : α} (ha : a ∈ l) :
    IsRanking l fun x => if x = a then 0 else if rank x < rank a then rank x + 1 else rank x := by
  have hlt := H.lt_length a ha
  have hzero := H.nonneg a ha
  refine ⟨H.nodup, fun x hx y hy heq => ?_, fun x hx => ?_, fun x hx => ?_⟩
  · have hx0 := H.nonneg x hx
    have hy0 := H.nonneg y hy
    have hxa : x ≠ a → rank x ≠ rank a := fun hne h => hne (H.inj x hx a ha h)
    have hya : y ≠ a → rank y ≠ rank a := fun hne h => hne (H.inj y hy a ha h)
    by_cases hxeq : x = a <;> by_cases hyeq : y = a
    · rw [hxeq, hyeq]
    · have := hya hyeq
      rw [if_pos hxeq, if_neg hyeq] at heq
      split at heq <;> omega
    · have := hxa hxeq
      rw [if_neg hxeq, if_pos hyeq] at heq
      split at heq <;> omega
    · have := hxa hxeq
      have := hya hyeq
      rw [if_neg hxeq, if_neg hyeq] at heq
      refine H.inj x hx y hy ?_
      split at heq <;> split at heq <;> omega
  · have hx0 := H.nonneg x hx
    split <;> [omega; (split <;> omega)]
  · have hxlt := H.lt_length x hx
    split <;> [omega; (split <;> omega)]

/-- Each item has the place that it has in a list of them all. -/
theorem ofOrder {order : List α} (hnodup : l.Nodup) (hmem : ∀ x ∈ l, x ∈ order)
    (hlen : order.length ≤ l.length) (hrank : ∀ x ∈ l, rank x = order.idxOf x) :
    IsRanking l rank where
  nodup := hnodup
  inj x hx y hy heq := by
    rw [hrank x hx, hrank y hy, Nat.cast_inj] at heq
    exact (List.idxOf_inj (hmem x hx)).mp heq
  nonneg x hx := by
    rw [hrank x hx]
    omega
  lt_length x hx := by
    have := List.idxOf_lt_length_of_mem (hmem x hx)
    rw [hrank x hx]
    omega

end IsRanking

section
variable [DecidableEq α]

/-- What is the same of the new record and the old is the same of all. -/
theorem map_update {γ : Type*} (π : β → γ) {g : α → β} {a : α} {b : β} (H : π b = π (g a))
    (x : α) : π (Function.update g a b x) = π (g x) := by
  by_cases hx : x = a
  · rw [hx, Function.update_self, H]
  · rw [Function.update_of_ne hx]

/-- The records, those of the items of the list changed one after the other. -/
def updateAll (l : List α) (f : β → β) (g : α → β) : α → β :=
  l.foldl (fun g a => Function.update g a (f (g a))) g

theorem updateAll_of_notMem {l : List α} {f : β → β} {g : α → β} {a : α} (H : a ∉ l) :
    updateAll l f g a = g a := by
  induction l generalizing g with
  | nil => rfl
  | cons b l ih =>
      rw [List.mem_cons, not_or] at H
      exact (ih H.2).trans (Function.update_of_ne H.1 _ _)

/-- An item that is listed once is changed once. -/
theorem updateAll_of_mem {l : List α} {f : β → β} {g : α → β} {a : α} (hnodup : l.Nodup)
    (H : a ∈ l) : updateAll l f g a = f (g a) := by
  induction l generalizing g with
  | nil => cases H
  | cons b l ih =>
      obtain ⟨hb, hl⟩ := List.nodup_cons.mp hnodup
      rcases List.mem_cons.mp H with rfl | hmem
      · exact (updateAll_of_notMem hb).trans (Function.update_self _ _ _)
      · have hne : a ≠ b := by
          rintro rfl
          exact hb hmem
        exact (ih hl hmem).trans (congrArg f (Function.update_of_ne hne _ _))

/-- What the change leaves alone stays as it is. -/
theorem map_updateAll {γ : Type*} {π : β → γ} {f : β → β} (H : ∀ b, π (f b) = π b) (l : List α)
    (g : α → β) (a : α) : π (updateAll l f g a) = π (g a) := by
  induction l generalizing g with
  | nil => rfl
  | cons b l ih =>
      exact (ih _).trans (map_update π (H _) a)

/-- How many records meet a condition when that of an item is replaced. -/
theorem countP_update {l : List α} {a : α} (hnodup : l.Nodup) (ha : a ∈ l) (p : β → Bool)
    (g : α → β) (b : β) :
    ((l.countP fun x => p (Function.update g a b x) : ℕ) : ℤ) =
      (l.countP fun x => p (g x) : ℕ) + ((if p b then 1 else 0) - if p (g a) then 1 else 0) := by
  have hrest : (l.erase a).countP (fun x => p (Function.update g a b x)) =
      (l.erase a).countP fun x => p (g x) := by
    refine List.countP_congr fun x hx => ?_
    rw [Function.update_of_ne (hnodup.mem_erase_iff.mp hx).1]
  rw [(List.perm_cons_erase ha).countP_eq, (List.perm_cons_erase ha).countP_eq,
    List.countP_cons, List.countP_cons, hrest, Function.update_self]
  split <;> split <;> push_cast <;> omega

theorem countP_update_of_notMem {l : List α} {a : α} (ha : a ∉ l) (p : β → Bool) (g : α → β)
    (b : β) : (l.countP fun x => p (Function.update g a b x)) = l.countP fun x => p (g x) := by
  refine List.countP_congr fun x hx => ?_
  have hne : x ≠ a := by
    rintro rfl
    exact ha hx
  rw [Function.update_of_ne hne]

/-- The last item takes the place of one that goes. -/
theorem dropLast_set_perm_erase {l : List α} {i : ℕ} {last a : α} (hlast : l.getLast? = some last)
    (hnodup : l.Nodup) (ha : l[i]? = some a) : ((l.set i last).dropLast).Perm (l.erase a) := by
  obtain ⟨front, rfl⟩ := List.getLast?_eq_some_iff.mp hlast
  obtain ⟨hlt, hget⟩ := List.getElem?_eq_some_iff.mp ha
  rw [List.length_append, List.length_singleton] at hlt
  have hne : ∀ x ∈ front, x ≠ last := by
    rintro x hx rfl
    exact (List.nodup_append.mp hnodup).2.2 x hx x (List.mem_singleton_self x) rfl
  rcases Nat.lt_or_ge i front.length with hi | hi
  · rw [List.getElem_append_left hi] at hget
    have hmem : a ∈ front := hget ▸ List.getElem_mem hi
    have hset : (front ++ [last]).set i last = front.set i last ++ [last] :=
      List.set_append_left i last hi
    have hfront : (front.set i last).Perm (last :: front.eraseIdx i) :=
      List.set_perm_cons_eraseIdx hi last
    have herase : front.eraseIdx i = front.erase a := by
      rw [← hget, (List.nodup_append.mp hnodup).1.erase_getElem]
    rw [hset, List.dropLast_concat, List.erase_append_left _ hmem]
    rw [herase] at hfront
    exact hfront.trans (List.perm_append_singleton last _).symm
  · obtain rfl : i = front.length := by omega
    rw [List.getElem_append_right le_rfl] at hget
    obtain rfl : last = a := by simpa using hget
    have hnot : last ∉ front := fun h => hne last h rfl
    rw [List.set_append_right _ _ le_rfl, Nat.sub_self, List.set_cons_zero, List.dropLast_concat,
      List.erase_append_right _ hnot, List.erase_cons_head, List.append_nil]

end

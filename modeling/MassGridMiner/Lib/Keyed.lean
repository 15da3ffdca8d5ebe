import Mathlib.Data.List.Nodup
import Mathlib.Data.List.Perm.Basic

/-!
# Tables with distinct keys

A list in which no two items have the same key is a table: a search for a key finds the one item
that has it, and to take this item out leaves the items with other keys.

## Main definitions

* `Keyed.find?_eq_some` — what a search finds.
* `Keyed.erase_eq_filter` — what is left without an item.
-/

namespace Keyed

universe u v
variable {α : Type u} {β : Type v} {key : α → β} {l : List α} {a b : α} {k : β}

/-- Items of a table that have the same key are the same. -/
theorem eq_of_key_eq (H : (l.map key).Nodup) (ha : a ∈ l) (hb : b ∈ l) (hkey : key a = key b) :
    a = b := List.inj_on_of_nodup_map H ha hb hkey

theorem nodup_filter (H : (l.map key).Nodup) (p : α → Bool) : ((l.filter p).map key).Nodup :=
  H.sublist (List.filter_sublist.map key)

variable [DecidableEq β]

theorem find?_eq_some (H : (l.map key).Nodup) :
    l.find? (key · = k) = some a ↔ a ∈ l ∧ key a = k := by
  constructor
  · intro hfind
    exact ⟨List.mem_of_find?_eq_some hfind, by simpa using List.find?_some hfind⟩
  · rintro ⟨ha, rfl⟩
    cases hfind : l.find? (key · = key a) with
    | none =>
      have hnone := List.find?_eq_none.mp hfind a ha
      simp at hnone
    | some b =>
      have hb : key b = key a := by simpa using List.find?_some hfind
      rw [eq_of_key_eq H (List.mem_of_find?_eq_some hfind) ha hb]

theorem find?_eq_none : l.find? (key · = k) = none ↔ k ∉ l.map key := by
  simp [List.find?_eq_none]

theorem exists_find? (H : k ∈ l.map key) :
    ∃ a, l.find? (key · = k) = some a ∧ a ∈ l ∧ key a = k := by
  cases hfind : l.find? (key · = k) with
  | none => exact absurd H (find?_eq_none.mp hfind)
  | some a =>
    exact ⟨a, rfl, List.mem_of_find?_eq_some hfind, by simpa using List.find?_some hfind⟩

/-- Without one of its items a table has those with other keys. -/
theorem erase_eq_filter [DecidableEq α] (H : (l.map key).Nodup) (ha : a ∈ l) :
    l.erase a = l.filter (key · ≠ key a) := by
  rw [H.of_map.erase_eq_filter]
  refine List.filter_congr fun b hb => ?_
  have hiff : b = a ↔ key b = key a := ⟨congrArg key, fun hkey => eq_of_key_eq H hb ha hkey⟩
  rw [Bool.eq_iff_iff, bne_iff_ne, decide_eq_true_iff, ne_eq, ne_eq, hiff]

end Keyed

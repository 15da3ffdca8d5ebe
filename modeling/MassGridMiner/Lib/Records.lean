import Mathlib.Algebra.BigOperators.Group.List.Basic
import Mathlib.Order.Lattice

/-!
# Records of a list

A loop that looks for a greatest key takes each item whose key is above all those before it.
Such an item is a record.  The last record is the first item with the greatest key.

## Main definitions

* `records`, `overtaken` — the records above some key, and the items between them.
* `forall_overtaken_iff` — which items are overtaken.
* `getLast?_records` — the last record.
-/

namespace Records

variable {α β : Type*} [LinearOrder β] (key : α → β)

/-- The items whose keys are above `b` and above the keys of those before. -/
def records : β → List α → List α
  | _, [] => []
  | b, a :: l => if b < key a then a :: records (key a) l else records b l

/-- The others. -/
def overtaken : β → List α → List α
  | _, [] => []
  | b, a :: l => if b < key a then overtaken (key a) l else a :: overtaken b l

variable {key} {b : β} {l : List α}

/-- A sum over a list is one over the records and one over the others. -/
theorem sum_records_add_sum_overtaken {M : Type*} [AddCommMonoid M] (f : α → M) :
    ((records key b l).map f).sum + ((overtaken key b l).map f).sum = (l.map f).sum := by
  induction l generalizing b with
  | nil => simp [records, overtaken]
  | cons a l ih =>
      rw [records, overtaken]
      split
      · rw [List.map_cons, List.map_cons, List.sum_cons, List.sum_cons, ← ih, add_assoc]
      · rw [List.map_cons, List.map_cons, List.sum_cons, List.sum_cons, ← @ih b, add_left_comm]

theorem mem_of_mem_records {a : α} (h : a ∈ records key b l) : a ∈ l := by
  induction l generalizing b with
  | nil => cases h
  | cons c l ih =>
      rw [records] at h
      split at h
      · exact (List.mem_cons.mp h).elim (fun heq => heq ▸ List.mem_cons_self)
          fun hmem => List.mem_cons_of_mem _ (ih hmem)
      · exact List.mem_cons_of_mem _ (ih h)

theorem mem_of_mem_overtaken {a : α} (h : a ∈ overtaken key b l) : a ∈ l := by
  induction l generalizing b with
  | nil => cases h
  | cons c l ih =>
      rw [overtaken] at h
      split at h
      · exact List.mem_cons_of_mem _ (ih h)
      · exact (List.mem_cons.mp h).elim (fun heq => heq ▸ List.mem_cons_self)
          fun hmem => List.mem_cons_of_mem _ (ih hmem)

/-- The others all have a property exactly when each item without it is a record. -/
theorem forall_overtaken_iff {P : α → Prop} :
    (∀ a ∈ overtaken key b l, P a) ↔
      ∀ i a, l[i]? = some a → ¬P a → b < key a ∧ ∀ c ∈ l.take i, key c < key a := by
  induction l generalizing b with
  | nil => simp [overtaken]
  | cons c l ih =>
      rw [overtaken]
      split
      · next hc =>
        rw [ih]
        constructor
        · rintro h (_ | i) a hget hP
          · obtain rfl := Option.some.inj hget
            exact ⟨hc, by simp⟩
          · obtain ⟨hlt, hall⟩ := h i a hget hP
            refine ⟨hc.trans hlt, fun d hd => ?_⟩
            rcases List.mem_cons.mp hd with rfl | hd
            · exact hlt
            · exact hall d hd
        · intro h i a hget hP
          obtain ⟨-, hall⟩ := h (i + 1) a hget hP
          exact ⟨hall c (by simp), fun d hd => hall d (List.mem_cons_of_mem _ hd)⟩
      · next hc =>
        rw [List.forall_mem_cons, ih]
        constructor
        · rintro ⟨hP, h⟩ (_ | i) a hget hnot
          · exact absurd (Option.some.inj hget ▸ hP) hnot
          · obtain ⟨hlt, hall⟩ := h i a hget hnot
            refine ⟨hlt, fun d hd => ?_⟩
            rcases List.mem_cons.mp hd with rfl | hd
            · exact (not_lt.mp hc).trans_lt hlt
            · exact hall d hd
        · intro h
          refine ⟨?_, fun i a hget hnot => ?_⟩
          · by_contra hnot
            exact hc (h 0 c rfl hnot).1
          · obtain ⟨hlt, hall⟩ := h (i + 1) a hget hnot
            exact ⟨hlt, fun d hd => hall d (List.mem_cons_of_mem _ hd)⟩

variable (key b l) in
/-- The last record is the first item with the greatest key; without one no key is above `b`. -/
theorem getLast?_records :
    match (records key b l).getLast? with
    | none => ∀ a ∈ l, key a ≤ b
    | some a => b < key a ∧ (∀ c ∈ l, key c ≤ key a) ∧
        ∃ i : ℕ, l[i]? = some a ∧ ∀ c ∈ l.take i, key c < key a := by
  induction l generalizing b with
  | nil => simp [records]
  | cons d l ih =>
      by_cases hd : b < key d
      · have h := @ih (key d)
        rw [records, if_pos hd, List.getLast?_cons]
        cases hlast : (records key (key d) l).getLast? with
        | none =>
            rw [hlast] at h
            refine ⟨hd, fun c hc => ?_, 0, rfl, by simp⟩
            rcases List.mem_cons.mp hc with rfl | hc
            · exact le_rfl
            · exact h c hc
        | some a =>
            rw [hlast] at h
            obtain ⟨hlt, hmax, i, hget, hfirst⟩ := h
            refine ⟨hd.trans hlt, fun c hc => ?_, i + 1, hget, fun c hc => ?_⟩
            · rcases List.mem_cons.mp hc with rfl | hc
              · exact hlt.le
              · exact hmax c hc
            · rcases List.mem_cons.mp hc with rfl | hc
              · exact hlt
              · exact hfirst c hc
      · have h := @ih b
        rw [records, if_neg hd]
        cases hlast : (records key b l).getLast? with
        | none =>
            rw [hlast] at h
            intro c hc
            rcases List.mem_cons.mp hc with rfl | hc
            · exact not_lt.mp hd
            · exact h c hc
        | some a =>
            rw [hlast] at h
            obtain ⟨hlt, hmax, i, hget, hfirst⟩ := h
            refine ⟨hlt, fun c hc => ?_, i + 1, hget, fun c hc => ?_⟩
            · rcases List.mem_cons.mp hc with rfl | hc
              · exact ((not_lt.mp hd).trans_lt hlt).le
              · exact hmax c hc
            · rcases List.mem_cons.mp hc with rfl | hc
              · exact (not_lt.mp hd).trans_lt hlt
              · exact hfirst c hc

end Records

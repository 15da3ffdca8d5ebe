import Mathlib.Tactic.Abel
import Mathlib.Tactic.IntervalCases
import MassGridMiner.Device.KncAsic

/-!
# The slots and the works of a KnC core

Of the fourteen slots at most five are in use, so that a free one is found after at most six tries.
A report moves works and frees some of them, and it loses none.

## Main definitions

* `Core.busySlots`, `Core.exists_nextSlot` — the slots in use, and one that is not.
* `Core.Keeps` — a core has the works that it had before, without those that are freed.
* `Core.keeps_processReport` — what a report does.
-/

namespace MassGridMiner
namespace KncAsic
namespace Core
variable {c c' c'' : Core}

/-! ## Slots -/

/-- The slots that `knc_core_slot_busy` finds in use. -/
def busySlots (c : Core) : List ℤ :=
  [c.report.activeSlot, c.report.nextSlot, c.workslot0.slot, c.workslot1.slot, c.workslot2.slot]

theorem slotBusy_iff {slot : ℤ} : c.slotBusy slot = true ↔ slot ∈ c.busySlots := by
  simp only [slotBusy, busySlots, workslots, List.any_cons, List.any_nil, Bool.or_false,
    Bool.or_eq_true, beq_iff_eq, List.mem_cons, List.not_mem_nil, or_false, or_assoc]

theorem slot_mem_busySlots {w : Workslot} (hw : w ∈ c.workslots) : w.slot ∈ c.busySlots := by
  simp only [workslots, List.mem_cons, List.not_mem_nil, or_false] at hw
  rcases hw with rfl | rfl | rfl <;> simp [busySlots]

/-- As long as none is found, the slots that were tried are in use. -/
theorem mem_busySlots_of_none {n : ℕ} (H : c.nextSlot n = none) {t : ℕ} (ht : t < n) :
    slotAfter^[t + 1] c.lastSlot ∈ c.busySlots := by
  induction n generalizing c t with
  | zero => omega
  | succ n ih =>
      simp only [nextSlot] at H
      split at H
      next hbusy =>
        cases t with
        | zero => exact slotBusy_iff.mp hbusy
        | succ t =>
            rw [Function.iterate_succ_apply]
            exact ih H (by omega)
      next => cases H

theorem slotAfter_mem {slot : ℤ} (H : 0 ≤ slot ∧ slot ≤ 14) :
    1 ≤ slotAfter slot ∧ slotAfter slot ≤ 14 := by
  rw [slotAfter]
  split <;> omega

/-- What is found is not in use. -/
theorem of_nextSlot_eq_some {n : ℕ} {slot : ℤ} (H : c.nextSlot n = some (slot, c'))
    (hlast : 0 ≤ c.lastSlot ∧ c.lastSlot ≤ 14) :
    c' = { c with lastSlot := slot } ∧ 1 ≤ slot ∧ slot ≤ 14 ∧ slot ∉ c.busySlots := by
  induction n generalizing c with
  | zero => cases H
  | succ n ih =>
      have hafter := slotAfter_mem hlast
      simp only [nextSlot] at H
      split at H
      next =>
        exact ih (c := { c with lastSlot := slotAfter c.lastSlot }) H
          ⟨Int.le_of_lt hafter.1, hafter.2⟩
      next hfree =>
        obtain ⟨rfl, rfl⟩ := Prod.mk.inj (Option.some.inj H)
        exact ⟨rfl, hafter.1, hafter.2, fun h => hfree (slotBusy_iff.mpr h)⟩

/-- Six slots in a row are different. -/
theorem nodup_slots {slot : ℤ} (hge : 0 ≤ slot) (hle : slot ≤ 14) :
    ((List.range 6).map fun t => slotAfter^[t + 1] slot).Nodup := by
  interval_cases slot <;> decide

/-- **A free slot is found**. -/
theorem exists_nextSlot (hlast : 0 ≤ c.lastSlot ∧ c.lastSlot ≤ 14) :
    ∃ slot, c.nextSlot 14 = some (slot, { c with lastSlot := slot }) ∧
      1 ≤ slot ∧ slot ≤ 14 ∧ slot ∉ c.busySlots := by
  cases h : c.nextSlot 14 with
  | none =>
      have hnodup := nodup_slots hlast.1 hlast.2
      have hsub : (List.range 6).map (fun t => slotAfter^[t + 1] c.lastSlot) ⊆ c.busySlots := by
        intro slot hslot
        obtain ⟨t, ht, rfl⟩ := List.mem_map.mp hslot
        exact mem_busySlots_of_none h ((List.mem_range.mp ht).trans (by decide))
      have hle := (List.subperm_of_subset hnodup hsub).length_le
      rw [List.length_map, List.length_range] at hle
      exact absurd hle (by decide : ¬6 ≤ 5)
  | some found =>
      obtain ⟨slot, c'⟩ := found
      obtain ⟨rfl, hfree⟩ := of_nextSlot_eq_some h hlast
      exact ⟨slot, rfl, hfree⟩

/-! ## Works -/

/-- A core has the works that it had, but for those that are freed. -/
structure Keeps (c c' : Core) (gone : List Work) : Prop where
  held : (c'.held + gone : Multiset Work) = c.held
  die : c'.die = c.die
  ident : c'.ident = c.ident
  lastSlot : c'.lastSlot = c.lastSlot

theorem Keeps.of_held_eq (hheld : c'.held = c.held) (hdie : c'.die = c.die)
    (hident : c'.ident = c.ident) (hlast : c'.lastSlot = c.lastSlot) : Keeps c c' [] :=
  ⟨by rw [hheld, Multiset.coe_nil, add_zero], hdie, hident, hlast⟩

theorem Keeps.refl (c : Core) : Keeps c c [] := .of_held_eq rfl rfl rfl rfl

theorem Keeps.trans {gone gone' : List Work} (H : Keeps c c' gone) (H' : Keeps c' c'' gone') :
    Keeps c c'' (gone ++ gone') where
  held := by
    rw [← H.held, ← H'.held, ← Multiset.coe_add, add_comm (gone : Multiset Work), add_assoc]
  die := H'.die.trans H.die
  ident := H'.ident.trans H.ident
  lastSlot := H'.lastSlot.trans H.lastSlot

theorem keeps_failure (now : ℤ) (c : Core) : Keeps c (c.failure now) [] := by
  simp only [failure]
  split
  · exact .of_held_eq rfl rfl rfl rfl
  · split <;> exact .of_held_eq rfl rfl rfl rfl

theorem keeps_submitNonce (now : ℤ) (submit : Bool) (nonce : Nonce) (w : Workslot) (c : Core) :
    Keeps c (c.submitNonce now submit nonce w) [] := by
  rw [submitNonce]
  split
  · split
    · exact .of_held_eq rfl rfl rfl rfl
    · exact keeps_failure now c
  · exact .refl c

theorem keeps_handleNonce (now : ℤ) (startup : Bool) (submit : Nonce → ℕ → Bool) (c : Core)
    (nonce : Nonce) : Keeps c (c.handleNonce now startup submit nonce) [] := by
  have hnonce : Keeps c { c with lastNonce := nonce } [] := .of_held_eq rfl rfl rfl rfl
  simp only [handleNonce]
  split
  · exact .refl c
  · split
    · exact hnonce
    · exact ((hnonce.trans (keeps_submitNonce ..)).trans (keeps_submitNonce ..)).trans
        (keeps_submitNonce ..)

theorem keeps_foldl_handleNonce (now : ℤ) (startup : Bool) (submit : Nonce → ℕ → Bool)
    (nonces : List Nonce) (c : Core) :
    Keeps c (nonces.foldl (handleNonce now startup submit) c) [] := by
  induction nonces generalizing c with
  | nil => exact .refl c
  | cons nonce nonces ih =>
      exact (keeps_handleNonce now startup submit c nonce).trans (ih _)

/-- A switch gives up the work of the first place, and of the second one if it is passed over. -/
theorem keeps_switchWork (c : Core) : Keeps c c.switchWork.1 c.switchWork.2 := by
  rw [switchWork]
  split
  · dsimp only
    split
    · refine ⟨?_, rfl, rfl, rfl⟩
      simp only [Core.held, Workslot.empty, Option.toList_none, ← Multiset.coe_add,
        Multiset.coe_nil]
      abel
    · refine ⟨?_, rfl, rfl, rfl⟩
      simp only [Core.held, Workslot.empty, Option.toList_none, ← Multiset.coe_add,
        Multiset.coe_nil]
      abel
  · exact .refl c

theorem keeps_acceptWork (c : Core) : Keeps c c.acceptWork.1 c.acceptWork.2 := by
  rw [acceptWork]
  split
  · refine ⟨?_, rfl, rfl, rfl⟩
    simp only [Core.held, Workslot.empty, Option.toList_none, ← Multiset.coe_add,
      Multiset.coe_nil]
    abel
  · exact .refl c

theorem keeps_expireWork (completed : Bool) (c : Core) :
    Keeps c (c.expireWork completed).1 (c.expireWork completed).2 := by
  rw [expireWork]
  split
  · refine ⟨?_, rfl, rfl, rfl⟩
    simp only [Core.held, Workslot.empty, Option.toList_none, ← Multiset.coe_add,
      Multiset.coe_nil]
    abel
  · exact .refl c

/-- **A report** loses no work. -/
theorem keeps_processReport (now : ℤ) (startup completed : Bool) (submit : Nonce → ℕ → Bool)
    (report : Report) (commErrors : Bool) (c : Core) :
    Keeps c (c.processReport now startup completed submit report commErrors).1
      (c.processReport now startup completed submit report commErrors).2 := by
  have hreport : Keeps c { c with report := report } [] := .of_held_eq rfl rfl rfl rfl
  have hnonces := hreport.trans (keeps_foldl_handleNonce now startup submit
    (newNonces { c with report := report }) _)
  simp only [processReport]
  cases commErrors with
  | true => exact hnonces.trans (keeps_expireWork completed _)
  | false =>
      exact ((hnonces.trans (keeps_switchWork _)).trans (keeps_acceptWork _)).trans
        (keeps_expireWork completed _)

end Core
end KncAsic
end MassGridMiner

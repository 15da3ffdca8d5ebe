import Mathlib.Data.List.Nodup
import Mathlib.Data.List.Range
import Mathlib.Data.Nat.ModEq

/-!
# Slots in a ring

Slots are numbered from a least to a greatest and are used in turn, the least one after the
greatest.  Those that are used from some slot on are distinct as long as there are no more of them
than slots.

## Main definitions

* `SlotRing.next lo hi slot` — the slot after a slot.
* `SlotRing.nth lo hi first k` — the slot that is used when `k` others have been.
* `SlotRing.used lo hi first n` — the `n` slots from `first` on.
-/

namespace SlotRing
variable (lo hi : ℕ)

/-- The slot after a slot. -/
def next (slot : ℕ) : ℕ := if hi < slot + 1 then lo else slot + 1

/-- The slot that is `k` slots after the first. -/
def nth (first k : ℕ) : ℕ := lo + (first - lo + k) % (hi + 1 - lo)

/-- The `n` slots from the first on. -/
def used (first n : ℕ) : List ℕ := (List.range n).map (nth lo hi first)

variable {lo hi} {first k k' n : ℕ}

theorem nth_zero (hlo : lo ≤ first) (hhi : first ≤ hi) : nth lo hi first 0 = first := by
  rw [nth, Nat.add_zero, Nat.mod_eq_of_lt (by omega)]
  omega

theorem le_nth : lo ≤ nth lo hi first k := Nat.le_add_right _ _

theorem nth_le (h : lo ≤ hi) : nth lo hi first k ≤ hi := by
  have hlt := Nat.mod_lt (first - lo + k) (show 0 < hi + 1 - lo by omega)
  rw [nth]
  omega

/-- Slots are used in turn. -/
theorem next_nth (h : lo ≤ hi) : next lo hi (nth lo hi first k) = nth lo hi first (k + 1) := by
  have hlt := Nat.mod_lt (first - lo + k) (show 0 < hi + 1 - lo by omega)
  have hsucc := Nat.mod_add_mod (first - lo + k) (hi + 1 - lo) 1
  rw [next, nth, nth, ← Nat.add_assoc, ← hsucc]
  generalize (first - lo + k) % (hi + 1 - lo) = r at *
  by_cases hlast : r + 1 = hi + 1 - lo
  · rw [if_pos (by omega), hlast, Nat.mod_self, Nat.add_zero]
  · rw [if_neg (by omega), Nat.mod_eq_of_lt (by omega), Nat.add_assoc]

/-- Within one turn no slot is used twice. -/
theorem nth_inj (hk : k < hi + 1 - lo) (hk' : k' < hi + 1 - lo)
    (heq : nth lo hi first k = nth lo hi first k') : k = k' := by
  have hmod : (first - lo + k) % (hi + 1 - lo) = (first - lo + k') % (hi + 1 - lo) := by
    rw [nth, nth] at heq
    omega
  have hcancel : k ≡ k' [MOD hi + 1 - lo] := Nat.ModEq.add_left_cancel' (first - lo) hmod
  rw [Nat.ModEq, Nat.mod_eq_of_lt hk, Nat.mod_eq_of_lt hk'] at hcancel
  exact hcancel

theorem nodup_used (hn : n ≤ hi + 1 - lo) : (used lo hi first n).Nodup := by
  refine List.Nodup.map_on ?_ List.nodup_range
  intro k hk k' hk' heq
  rw [List.mem_range] at hk hk'
  exact nth_inj (hk.trans_le hn) (hk'.trans_le hn) heq

theorem used_succ : used lo hi first (n + 1) = used lo hi first n ++ [nth lo hi first n] := by
  rw [used, List.range_succ, List.map_append, List.map_singleton, ← used]

/-- The last slot of a turn is the one in front of the first. -/
theorem next_last (h : lo ≤ hi) (hlo : lo ≤ first) (hhi : first ≤ hi) :
    next lo hi (nth lo hi first (hi - lo)) = first := by
  rw [next_nth h, nth, show first - lo + (hi - lo + 1) = first - lo + (hi + 1 - lo) by omega,
    Nat.add_mod_right, Nat.mod_eq_of_lt (by omega)]
  omega

end SlotRing

import Mathlib.Data.List.Nodup
import Mathlib.Data.List.Perm.Basic

/-!
# Custody

Things are numbered as they come.  One that has come is held, in one place, until it is let go,
and it is let go once.  So what is held and what was let go are together a permutation of the
numbers that were given.

## Main definitions

* `Custody n held freed` — the first `n` things are each held or were let go, and that once.
* `Custody.obtain`, `Custody.release`, `Custody.of_perm` — a thing comes, one goes, and things are
  moved.
-/

/-- Each of the `n` things that have come is held or was let go, once. -/
def Custody (n : ℕ) (held freed : List ℕ) : Prop := (held ++ freed).Perm (List.range n)

namespace Custody
variable {n a : ℕ} {held held' freed freed' : List ℕ}

theorem zero : Custody 0 [] [] := List.Perm.refl _

theorem nodup_append (H : Custody n held freed) : (held ++ freed).Nodup :=
  (List.Perm.nodup_iff H).mpr List.nodup_range

theorem nodup (H : Custody n held freed) : held.Nodup := H.nodup_append.of_append_left

theorem lt (H : Custody n held freed) (ha : a ∈ held) : a < n :=
  List.mem_range.mp ((List.Perm.mem_iff H).mp (List.mem_append_left _ ha))

/-- Things are moved. -/
theorem of_perm (H : Custody n held freed) (hmove : (held' ++ freed').Perm (held ++ freed)) :
    Custody n held' freed' := List.Perm.trans hmove H

/-- The next thing comes. -/
theorem obtain (H : Custody n held freed) (hcomes : held'.Perm (n :: held)) :
    Custody (n + 1) held' freed := by
  have hgiven : (held' ++ freed).Perm (n :: List.range n) :=
    (hcomes.append_right freed).trans (List.Perm.cons n H)
  rw [Custody, List.range_succ]
  exact hgiven.trans (List.perm_append_singleton n _).symm

/-- One that is held is let go. -/
theorem release (H : Custody n held freed) (hgoes : held.Perm (a :: held')) :
    Custody n held' (a :: freed) :=
  H.of_perm (List.perm_middle.trans (hgoes.append_right freed).symm)

end Custody

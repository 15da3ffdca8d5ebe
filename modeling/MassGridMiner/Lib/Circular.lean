import Mathlib.Data.List.Chain
import Mathlib.Data.List.Infix
import Mathlib.Data.List.Nodup
import Mathlib.Logic.Function.Basic

/-!
# Circular lists

The places of a circular list are linked in both directions, the last one to the first.  Four links
are changed when a list is put behind another one, and two when the first place is taken out.

## Main definitions

* `Circular.IsRing` — the places of a circular list, from its root on.
* `Circular.IsRing.append`, `Circular.IsRing.tail` — the lists after the links are changed.
-/

namespace Circular

/-- A place comes right after another one. -/
def Linked (next prev : ℕ → Option ℕ) (a b : ℕ) : Prop := next a = some b ∧ prev b = some a

/-- The places of a circular list, of which the root is the first. -/
structure IsRing (next prev : ℕ → Option ℕ) (root : Option ℕ) (l : List ℕ) : Prop where
  root_eq : root = l.head?
  chain : l.IsChain (Linked next prev)
  close : ∀ z ∈ l.getLast?, ∀ p ∈ l.head?, Linked next prev z p

variable {next prev next' prev' : ℕ → Option ℕ} {root : Option ℕ} {l A B : List ℕ} {p : ℕ}

theorem isRing_nil : IsRing next prev none [] :=
  ⟨rfl, List.isChain_nil, fun _ h => by cases h⟩

/-- Only the links from places but the last, and to places but the first, make a chain. -/
theorem isChain_congr (H : l.IsChain (Linked next prev))
    (hnext : ∀ q ∈ l.dropLast, next' q = next q) (hprev : ∀ q ∈ l.tail, prev' q = prev q) :
    l.IsChain (Linked next' prev') := by
  induction l with
  | nil => exact List.isChain_nil
  | cons a l ih =>
    cases l with
    | nil => exact List.isChain_singleton a
    | cons b l =>
      obtain ⟨⟨hab, hba⟩, hchain⟩ := List.isChain_cons_cons.mp H
      refine List.isChain_cons_cons.mpr ⟨⟨?_, ?_⟩, ih hchain ?_ ?_⟩
      · rw [hnext a List.mem_cons_self, hab]
      · rw [hprev b List.mem_cons_self, hba]
      · exact fun q hq => hnext q (List.mem_cons_of_mem a hq)
      · exact fun q hq => hprev q (List.mem_cons_of_mem b hq)

/-- What is done elsewhere leaves a list as it is. -/
theorem IsRing.congr (H : IsRing next prev root l) (hnext : ∀ q ∈ l, next' q = next q)
    (hprev : ∀ q ∈ l, prev' q = prev q) : IsRing next' prev' root l := by
  refine ⟨H.root_eq, isChain_congr H.chain (fun q hq => hnext q (List.mem_of_mem_dropLast hq))
    (fun q hq => hprev q (List.mem_of_mem_tail hq)), fun z hz p hp => ?_⟩
  obtain ⟨hzp, hpz⟩ := H.close z hz p hp
  exact ⟨(hnext z (List.mem_of_mem_getLast? hz)).trans hzp,
    (hprev p (List.mem_of_mem_head? hp)).trans hpz⟩

/-- The place before the root is the last one. -/
theorem IsRing.exists_last (H : IsRing next prev (some p) l) :
    ∃ z, z ∈ l.getLast? ∧ prev p = some z := by
  cases l with
  | nil => cases H.root_eq
  | cons a l =>
    have hz := List.getLast?_eq_some_getLast (List.cons_ne_nil a l)
    exact ⟨_, hz, (H.close _ hz p H.root_eq.symm).2⟩

/-- The place after the root is the one that comes next, or itself. -/
theorem IsRing.next_root (H : IsRing next prev root (p :: l)) :
    next p = some (l.head?.getD p) := by
  cases l with
  | nil => exact (H.close p rfl p rfl).1
  | cons q l => exact (List.isChain_cons_cons.mp H.chain).1.1

/-- The last place is none of those before it. -/
theorem notMem_dropLast (hnodup : l.Nodup) {z : ℕ} (hz : z ∈ l.getLast?) : z ∉ l.dropLast := by
  have hsplit := List.dropLast_append_getLast? z hz
  rw [← hsplit] at hnodup
  exact fun h => List.disjoint_of_nodup_append hnodup h (List.mem_singleton_self z)

/-- The first place is none of those behind it. -/
theorem notMem_tail (hnodup : l.Nodup) (hp : p ∈ l.head?) : p ∉ l.tail := by
  cases l with
  | nil => cases hp
  | cons a l =>
    obtain rfl := Option.some.inj hp
    exact (List.nodup_cons.mp hnodup).1

/-- **A list is put behind another one**: with what is the first and the last place of each. -/
theorem IsRing.append {a b r e : ℕ} (hA : IsRing next prev root A)
    (hB : B.IsChain (Linked next prev)) (hnodup : (A ++ B).Nodup) (hr : r ∈ A.head?)
    (ha : a ∈ A.getLast?) (he : e ∈ B.head?) (hb : b ∈ B.getLast?) :
    IsRing (Function.update (Function.update next a (some e)) b (some r))
      (Function.update (Function.update prev e (some a)) r (some b)) (some r) (A ++ B) := by
  obtain ⟨hnodupA, hnodupB, hdisj⟩ := List.nodup_append'.mp hnodup
  have haA := List.mem_of_mem_getLast? ha
  have hrA := List.mem_of_mem_head? hr
  have hbB := List.mem_of_mem_getLast? hb
  have heB := List.mem_of_mem_head? he
  have hab : a ≠ b := fun h => hdisj haA (h ▸ hbB)
  have hre : e ≠ r := fun h => hdisj hrA (h ▸ heB)
  refine ⟨?_, List.isChain_append.mpr ⟨?_, ?_, ?_⟩, ?_⟩
  · rw [List.head?_append, Option.mem_def.mp hr]
    rfl
  · refine isChain_congr hA.chain (fun q hq => ?_) fun q hq => ?_
    · have hqb : q ≠ b := fun h => hdisj (List.mem_of_mem_dropLast hq) (h ▸ hbB)
      have hqa : q ≠ a := fun h => notMem_dropLast hnodupA ha (h ▸ hq)
      rw [Function.update_of_ne hqb, Function.update_of_ne hqa]
    · have hqr : q ≠ r := fun h => notMem_tail hnodupA hr (h ▸ hq)
      have hqe : q ≠ e := fun h => hdisj (List.mem_of_mem_tail hq) (h ▸ heB)
      rw [Function.update_of_ne hqr, Function.update_of_ne hqe]
  · refine isChain_congr hB (fun q hq => ?_) fun q hq => ?_
    · have hqb : q ≠ b := fun h => notMem_dropLast hnodupB hb (h ▸ hq)
      have hqa : q ≠ a := fun h => hdisj haA (h ▸ List.mem_of_mem_dropLast hq)
      rw [Function.update_of_ne hqb, Function.update_of_ne hqa]
    · have hqr : q ≠ r := fun h => hdisj hrA (h ▸ List.mem_of_mem_tail hq)
      have hqe : q ≠ e := fun h => notMem_tail hnodupB he (h ▸ hq)
      rw [Function.update_of_ne hqr, Function.update_of_ne hqe]
  · intro x hx y hy
    obtain rfl := Option.mem_unique hx ha
    obtain rfl := Option.mem_unique hy he
    exact ⟨by rw [Function.update_of_ne hab, Function.update_self],
      by rw [Function.update_of_ne hre, Function.update_self]⟩
  · intro z hz p hp
    rw [List.getLast?_append, Option.mem_def.mp hb] at hz
    rw [List.head?_append, Option.mem_def.mp hr] at hp
    obtain rfl := Option.some.inj hz
    obtain rfl := Option.some.inj hp
    exact ⟨Function.update_self .., Function.update_self ..⟩

/-- **The root is taken out** of a list with more places. -/
theorem IsRing.tail {r h z : ℕ} (H : IsRing next prev root (r :: l)) (hnodup : l.Nodup)
    (hh : h ∈ l.head?) (hz : z ∈ l.getLast?) :
    IsRing (Function.update next z (some h)) (Function.update prev h (some z)) (some h) l := by
  refine ⟨(Option.mem_def.mp hh).symm, isChain_congr H.chain.tail (fun q hq => ?_) fun q hq => ?_,
    fun z' hz' h' hh' => ?_⟩
  · have hqz : q ≠ z := fun heq => notMem_dropLast hnodup hz (heq ▸ hq)
    exact Function.update_of_ne hqz ..
  · have hqh : q ≠ h := fun heq => notMem_tail hnodup hh (heq ▸ hq)
    exact Function.update_of_ne hqh ..
  · obtain rfl := Option.mem_unique hz' hz
    obtain rfl := Option.mem_unique hh' hh
    exact ⟨Function.update_self .., Function.update_self ..⟩

end Circular

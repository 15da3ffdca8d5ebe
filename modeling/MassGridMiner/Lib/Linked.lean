import Mathlib.Data.List.Nodup
import Mathlib.Logic.Function.Basic

/-!
# Linked lists in memory

Records in memory are in lists by one or more of their fields, each of which is the place of the
next record.  A record is deleted by a search for the one before it, and a list is put behind
another one by a search for its last record.  Both loops are given a number of steps.

## Main definitions

* `Link` — a field with the next record.
* `Link.IsList` — the records of a list.
* `Link.delete`, `Link.concat` — the operations, none where they read a record that is not there.
* `Link.Relinked` — what they change.
-/

universe u
variable {ν : Type u}

/-- A field of a record that holds the place of another one. -/
structure Link (ν : Type u) where
  get : ν → Option ℕ
  set : Option ℕ → ν → ν
  get_set : ∀ a x, get (set a x) = a

namespace Link

variable (ℓ : Link ν) (mem : ℕ → Option ν)

/-- The list that starts at a place. -/
def IsList : Option ℕ → List ℕ → Prop
  | head, [] => head = none
  | head, p :: l => head = some p ∧ ∃ x, mem p = some x ∧ IsList (ℓ.get x) l

/-- The loop of a deletion, from a record before the one that is deleted on. -/
def deleteFrom (del : ℕ) : ℕ → ℕ → Option (ℕ → Option ν)
  | 0, _ => none
  | n + 1, tmp => (mem tmp).bind fun x =>
    match ℓ.get x with
    | none => some mem
    | some q =>
      if q = del then
        (mem del).map fun d => Function.update mem tmp (some (ℓ.set (ℓ.get d) x))
      else deleteFrom del n q

/-- `LL_DELETE`: the memory and the start of the list. -/
def delete (fuel : ℕ) (head : Option ℕ) (del : ℕ) : Option ((ℕ → Option ν) × Option ℕ) :=
  if head = some del then (mem del).map fun d => (mem, ℓ.get d)
  else head.bind fun tmp => (ℓ.deleteFrom mem del fuel tmp).map fun mem => (mem, head)

/-- The loop of a concatenation. -/
def concatFrom (head2 : Option ℕ) : ℕ → ℕ → Option (ℕ → Option ν)
  | 0, _ => none
  | n + 1, tmp => (mem tmp).bind fun x =>
    match ℓ.get x with
    | none => some (Function.update mem tmp (some (ℓ.set head2 x)))
    | some q => concatFrom head2 n q

/-- `LL_CONCAT`. -/
def concat (fuel : ℕ) (head1 head2 : Option ℕ) : Option ((ℕ → Option ν) × Option ℕ) :=
  match head1 with
  | none => some (mem, head2)
  | some tmp => (ℓ.concatFrom mem head2 fuel tmp).map fun mem => (mem, head1)

/-- Nothing has changed but the field of records of a list. -/
def Relinked (l : List ℕ) (mem mem' : ℕ → Option ν) : Prop :=
  ∀ p, mem' p = mem p ∨ p ∈ l ∧ ∃ x a, mem p = some x ∧ mem' p = some (ℓ.set a x)

variable {ℓ mem} {mem' : ℕ → Option ν} {head head' : Option ℕ} {l l' : List ℕ} {p q : ℕ}

theorem isList_nil : ℓ.IsList mem head [] ↔ head = none := Iff.rfl

/-- A list starts with its first record. -/
theorem IsList.head_eq (H : ℓ.IsList mem head l) : head = l.head? := by
  cases l with
  | nil => exact H
  | cons p l => exact H.1

/-- The field of a record is the place of the next one. -/
theorem IsList.of_append (H : ℓ.IsList mem head (l ++ p :: l')) :
    ∃ x, mem p = some x ∧ ℓ.IsList mem (ℓ.get x) l' := by
  induction l generalizing head with
  | nil => exact H.2
  | cons q l ih =>
    obtain ⟨-, x, -, hrest⟩ := H
    exact ih hrest

/-- What is done elsewhere, or to other fields, leaves a list as it is. -/
theorem IsList.congr (H : ℓ.IsList mem head l)
    (hsame : ∀ p ∈ l, (mem' p).map ℓ.get = (mem p).map ℓ.get) : ℓ.IsList mem' head l := by
  induction l generalizing head with
  | nil => exact H
  | cons p l ih =>
    obtain ⟨rfl, x, hx, hrest⟩ := H
    have hp := hsame p List.mem_cons_self
    rw [hx, Option.map_some] at hp
    obtain ⟨y, hy, hget⟩ := Option.map_eq_some_iff.mp hp
    refine ⟨rfl, y, hy, ?_⟩
    rw [hget]
    exact ih hrest fun q hq => hsame q (List.mem_cons_of_mem p hq)

/-- What is in no list does not change it. -/
theorem IsList.congr_of_notMem (H : ℓ.IsList mem head l) (hp : p ∉ l)
    (hsame : ∀ q, q ≠ p → mem' q = mem q) : ℓ.IsList mem' head l :=
  H.congr fun q hq => by rw [hsame q fun h => hp (h ▸ hq)]

theorem Relinked.of_notMem (H : ℓ.Relinked l mem mem') (hp : p ∉ l) : mem' p = mem p :=
  (H p).resolve_right fun h => hp h.1

/-- What is not in the field is as before. -/
theorem Relinked.map_eq {β : Type*} {f : ν → β} (hf : ∀ a x, f (ℓ.set a x) = f x)
    (H : ℓ.Relinked l mem mem') (p : ℕ) : (mem' p).map f = (mem p).map f := by
  rcases H p with heq | ⟨-, x, a, hx, hx'⟩
  · rw [heq]
  · rw [hx, hx', Option.map_some, Option.map_some, hf]

/-- Lists by another field are as before. -/
theorem Relinked.isList {ℓ' : Link ν} (hget : ∀ a x, ℓ'.get (ℓ.set a x) = ℓ'.get x)
    (H : ℓ.Relinked l mem mem') (hlist : ℓ'.IsList mem head l') : ℓ'.IsList mem' head l' :=
  hlist.congr fun p _ => H.map_eq hget p

theorem Relinked.refl (l : List ℕ) (mem : ℕ → Option ν) : ℓ.Relinked l mem mem :=
  fun _ => Or.inl rfl

/-- The field of a record of a list is changed. -/
theorem relinked_update {x : ν} (hx : mem p = some x) (hp : p ∈ l) (a : Option ℕ) :
    ℓ.Relinked l mem (Function.update mem p (some (ℓ.set a x))) := by
  intro q
  rcases eq_or_ne q p with rfl | hne
  · exact Or.inr ⟨hp, x, a, hx, Function.update_self ..⟩
  · exact Or.inl (Function.update_of_ne hne ..)

theorem deleteFrom_spec {n tmp : ℕ} (H : ℓ.IsList mem (some tmp) (tmp :: l))
    (hnodup : (tmp :: l).Nodup) (hq : q ∈ l) (hn : l.length ≤ n) :
    ∃ mem', ℓ.deleteFrom mem q n tmp = some mem' ∧
      ℓ.IsList mem' (some tmp) (tmp :: l.erase q) ∧ ℓ.Relinked (tmp :: l) mem mem' := by
  induction l generalizing n tmp with
  | nil => cases hq
  | cons r l ih =>
    obtain ⟨-, x, hx, hrest⟩ := H
    obtain ⟨hget, y, hy, htail⟩ := hrest
    obtain ⟨htmp, hnodup'⟩ := List.nodup_cons.mp hnodup
    cases n with
    | zero => simp at hn
    | succ n =>
      rw [deleteFrom, hx, Option.bind_some]
      simp only [hget]
      by_cases hr : r = q
      · subst hr
        have htmp' : tmp ∉ l := fun h => htmp (List.mem_cons_of_mem r h)
        rw [if_pos rfl, hy, Option.map_some, List.erase_cons_head]
        refine ⟨_, rfl, ⟨rfl, _, Function.update_self .., ?_⟩,
          relinked_update hx List.mem_cons_self _⟩
        rw [ℓ.get_set]
        exact htail.congr_of_notMem htmp' fun p hp => Function.update_of_ne hp ..
      · rw [if_neg hr, List.erase_cons_tail (by simpa using hr)]
        obtain ⟨mem', hrun, hlist, hrel⟩ := ih ⟨rfl, y, hy, htail⟩ hnodup'
          ((List.mem_cons.mp hq).resolve_left fun h => hr h.symm)
          (by simpa using hn)
        refine ⟨mem', hrun, ⟨rfl, x, (hrel.of_notMem htmp).trans hx, hget ▸ hlist⟩, fun p => ?_⟩
        exact (hrel p).imp_right fun h => ⟨List.mem_cons_of_mem tmp h.1, h.2⟩

/-- **A record is deleted** from a list, and its own field is left as it is. -/
theorem delete_spec {fuel : ℕ} (H : ℓ.IsList mem head l) (hnodup : l.Nodup) (hq : q ∈ l)
    (hfuel : l.length ≤ fuel) :
    ∃ mem' head', ℓ.delete mem fuel head q = some (mem', head') ∧
      ℓ.IsList mem' head' (l.erase q) ∧ ℓ.Relinked l mem mem' := by
  cases l with
  | nil => cases hq
  | cons tmp l =>
    obtain ⟨rfl, x, hx, htail⟩ := H
    rw [delete]
    by_cases htmp : tmp = q
    · subst htmp
      rw [if_pos rfl, hx, Option.map_some, List.erase_cons_head]
      exact ⟨mem, ℓ.get x, rfl, htail, Relinked.refl _ _⟩
    · rw [if_neg fun h => htmp (Option.some.inj h), List.erase_cons_tail (by simpa using htmp)]
      obtain ⟨mem', hrun, hlist, hrel⟩ := deleteFrom_spec ⟨rfl, x, hx, htail⟩ hnodup
        ((List.mem_cons.mp hq).resolve_left fun h => htmp h.symm)
        (Nat.le_of_succ_le hfuel)
      rw [Option.bind_some, hrun, Option.map_some]
      exact ⟨mem', some tmp, rfl, hlist, hrel⟩

theorem concatFrom_spec {n tmp : ℕ} (H : ℓ.IsList mem (some tmp) (tmp :: l))
    (H' : ℓ.IsList mem head' l') (hnodup : (tmp :: l ++ l').Nodup) (hn : l.length < n) :
    ∃ mem', ℓ.concatFrom mem head' n tmp = some mem' ∧
      ℓ.IsList mem' (some tmp) (tmp :: l ++ l') ∧ ℓ.Relinked (tmp :: l) mem mem' := by
  obtain ⟨htmp, hnodup'⟩ := List.nodup_cons.mp hnodup
  induction l generalizing n tmp with
  | nil =>
    obtain ⟨-, x, hx, hnone⟩ := H
    cases n with
    | zero => simp at hn
    | succ n =>
      rw [concatFrom, hx, Option.bind_some]
      simp only [isList_nil.mp hnone]
      refine ⟨_, rfl, ⟨rfl, _, Function.update_self .., ?_⟩,
        relinked_update hx List.mem_cons_self _⟩
      rw [ℓ.get_set]
      exact H'.congr_of_notMem htmp fun p hp => Function.update_of_ne hp ..
  | cons r l ih =>
    obtain ⟨-, x, hx, hrest⟩ := H
    obtain ⟨hget, y, hy, htail⟩ := hrest
    cases n with
    | zero => simp at hn
    | succ n =>
      rw [concatFrom, hx, Option.bind_some]
      simp only [hget]
      obtain ⟨mem', hrun, hlist, hrel⟩ := ih ⟨rfl, y, hy, htail⟩ hnodup' (by simpa using hn)
        (List.nodup_cons.mp hnodup').1 (List.nodup_cons.mp hnodup').2
      have htmp' : tmp ∉ r :: l := fun h => htmp (List.mem_append_left l' h)
      refine ⟨mem', hrun, ⟨rfl, x, (hrel.of_notMem htmp').trans hx, hget ▸ hlist⟩, fun p => ?_⟩
      exact (hrel p).imp_right fun h => ⟨List.mem_cons_of_mem tmp h.1, h.2⟩

/-- **A list is put behind another one.** -/
theorem concat_spec {fuel : ℕ} (H : ℓ.IsList mem head l) (H' : ℓ.IsList mem head' l')
    (hnodup : (l ++ l').Nodup) (hfuel : l.length ≤ fuel) :
    ∃ mem' head'', ℓ.concat mem fuel head head' = some (mem', head'') ∧
      ℓ.IsList mem' head'' (l ++ l') ∧ ℓ.Relinked l mem mem' := by
  cases l with
  | nil =>
    rw [isList_nil.mp H]
    exact ⟨mem, head', rfl, H', Relinked.refl _ _⟩
  | cons tmp l =>
    obtain ⟨mem', hrun, hlist, hrel⟩ := concatFrom_spec ⟨rfl, H.2⟩ H' hnodup hfuel
    rw [H.1, concat, hrun, Option.map_some]
    exact ⟨mem', some tmp, rfl, hlist, hrel⟩

end Link

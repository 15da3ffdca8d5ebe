import Mathlib.Algebra.Ring.Int.Defs
import Mathlib.Algebra.Group.Pi.Basic
import Mathlib.Data.List.Basic

/-!
# Reference counts

Objects are shared by records that point to them, and each keeps the number of its
references.  The count is adjusted apart from the pointers, so that between the two it is
off: a table of objects is balanced for a number of references to each, and the lemmas say
how an adjustment changes what it is balanced for.  The pointers are counted over a list of
records of any type.

## Main definitions

* `RefCount.Ref` — an object with its count, how often it was freed, and whether it was used
  after that.
* `RefCount.makeref`, `incref`, `decref` — the adjustments.
* `RefCount.Balanced tbl n` — the objects of a table have `n` references.
* `RefCount.holders` — the references that a list of records holds.
-/

namespace RefCount

/-- An object with a count of its references.  `frees` counts how often it was freed, and
`stale` is set when it is used after that. -/
structure Ref where
  refcount : ℤ
  frees : ℕ
  stale : Bool

/-- A new object, with one reference. -/
def makeref (tbl : List Ref) : List Ref := tbl ++ [⟨1, 0, false⟩]

def incref (tbl : List Ref) (t : ℕ) : List Ref :=
  tbl.modify t fun r =>
    { r with refcount := r.refcount + 1, stale := r.stale || r.frees != 0 }

/-- An object whose count falls to zero is freed. -/
def decref (tbl : List Ref) (t : ℕ) : List Ref :=
  tbl.modify t fun r =>
    { refcount := r.refcount - 1
      frees := if r.refcount - 1 = 0 then r.frees + 1 else r.frees
      stale := r.stale || r.frees != 0 }

/-- The object has so many references, and was freed once if they are none. -/
structure Ref.Has (r : Ref) (n : ℤ) : Prop where
  fresh : r.stale = false
  nonneg : 0 ≤ n
  refcount_eq : 0 < n → r.refcount = n
  frees_eq : r.frees = if n = 0 then 1 else 0

/-- The objects of the table have so many references, and what is not in it has none. -/
def Balanced (tbl : List Ref) (n : ℕ → ℤ) : Prop :=
  ∀ t, match tbl[t]? with
    | some r => r.Has (n t)
    | none => n t = 0

/-- One reference to an object, or none. -/
def one (tr : Option ℕ) : ℕ → ℤ := fun t => if tr = some t then 1 else 0

@[simp] theorem one_none : one none = 0 := rfl

theorem one_self (t : ℕ) : one (some t) t = 1 := if_pos rfl

theorem one_of_ne {t u : ℕ} (H : t ≠ u) : one (some t) u = 0 :=
  if_neg fun heq => H (Option.some.inj heq)

theorem balanced_nil : Balanced [] 0 := fun _ => rfl

section
variable {tbl : List Ref} {n : ℕ → ℤ}

/-- What has a reference is in the table. -/
theorem Balanced.exists_of_pos (H : Balanced tbl n) {t : ℕ} (hpos : 0 < n t) :
    ∃ r, tbl[t]? = some r ∧ r.Has (n t) := by
  have ht := H t
  cases hr : tbl[t]? with
  | none =>
      rw [hr] at ht
      dsimp only at ht
      omega
  | some r =>
      rw [hr] at ht
      exact ⟨r, rfl, ht⟩

/-- A change of one object. -/
theorem Balanced.modify (H : Balanced tbl n) {t : ℕ} (hpos : 0 < n t) {f : Ref → Ref} {d : ℕ → ℤ}
    (hf : ∀ r : Ref, r.Has (n t) → (f r).Has (n t + d t)) (hd : ∀ u, t ≠ u → d u = 0) :
    Balanced (tbl.modify t f) (n + d) := by
  intro u
  rw [List.getElem?_modify, Pi.add_apply]
  by_cases hu : t = u
  · subst hu
    obtain ⟨r, hr, hhas⟩ := H.exists_of_pos hpos
    rw [hr]
    simpa using hf r hhas
  · rw [hd u hu, Int.add_zero]
    simpa [hu] using H u

theorem Balanced.incref (H : Balanced tbl n) {t : ℕ} (hpos : 0 < n t) :
    Balanced (incref tbl t) (n + one (some t)) := by
  refine H.modify hpos (fun r hr => ?_) fun u hu => one_of_ne hu
  have hfrees : r.frees = 0 := by rw [hr.frees_eq, if_neg (by omega)]
  rw [one_self]
  constructor
  · simp [hr.fresh, hfrees]
  · omega
  · intro _
    dsimp only
    rw [hr.refcount_eq hpos]
  · dsimp only
    rw [hfrees, if_neg (by omega)]

/-- An object is freed just when its last reference goes. -/
theorem Balanced.decref (H : Balanced tbl n) {t : ℕ} (hpos : 0 < n t) :
    Balanced (decref tbl t) (n - one (some t)) := by
  rw [sub_eq_add_neg]
  refine H.modify hpos (fun r hr => ?_) fun u hu => by rw [Pi.neg_apply, one_of_ne hu, neg_zero]
  have hfrees : r.frees = 0 := by rw [hr.frees_eq, if_neg (by omega)]
  have hcount := hr.refcount_eq hpos
  rw [Pi.neg_apply, one_self]
  constructor
  · simp [hr.fresh, hfrees]
  · omega
  · intro _
    dsimp only
    omega
  · dsimp only
    rw [hcount, hfrees, sub_eq_add_neg]

theorem Balanced.makeref (H : Balanced tbl n) :
    Balanced (makeref tbl) (n + one (some tbl.length)) := by
  intro u
  rw [RefCount.makeref, Pi.add_apply]
  rcases Nat.lt_trichotomy u tbl.length with hu | rfl | hu
  · rw [List.getElem?_append_left hu, one_of_ne (by omega), add_zero]
    exact H u
  · have hzero : n tbl.length = 0 := by simpa using H tbl.length
    rw [List.getElem?_concat_length, one_self, hzero]
    exact ⟨rfl, by omega, fun _ => rfl, rfl⟩
  · have hbeyond : tbl[u]? = none := List.getElem?_eq_none (by omega)
    have hzero : n u = 0 := by simpa [hbeyond] using H u
    rw [List.getElem?_eq_none (by simp; omega), one_of_ne (by omega), add_zero]
    exact hzero

end

section
variable {β : Type*} (ref : β → Option ℕ)

/-- The references that records hold. -/
def holders (recs : List β) : ℕ → ℤ := fun t => (recs.map fun r => one (ref r) t).sum

@[simp] theorem holders_nil : holders ref [] = 0 := rfl

theorem holders_append (recs recs' : List β) :
    holders ref (recs ++ recs') = holders ref recs + holders ref recs' := by
  funext t
  simp [holders]

@[simp] theorem holders_cons (r : β) (recs : List β) :
    holders ref (r :: recs) = one (ref r) + holders ref recs := by
  funext t
  simp [holders]

/-- The number of records that point to an object. -/
theorem holders_eq_countP (recs : List β) (t : ℕ) :
    holders ref recs t = (recs.countP fun r => ref r == some t : ℕ) := by
  induction recs with
  | nil => rfl
  | cons r recs ih =>
      rw [holders_cons, Pi.add_apply, ih, List.countP_cons, one]
      simp only [beq_iff_eq]
      split
      next => exact Int.add_comm _ _
      next => exact Int.zero_add _

variable {ref}

/-- A record is replaced. -/
theorem holders_set {recs : List β} {i : ℕ} {old : β} (hold : recs[i]? = some old) (new : β) :
    holders ref (recs.set i new) = holders ref recs - one (ref old) + one (ref new) := by
  induction recs generalizing i with
  | nil => cases hold
  | cons r recs ih =>
      cases i with
      | zero =>
          obtain rfl : r = old := by simpa using hold
          rw [List.set_cons_zero, holders_cons, holders_cons, add_sub_cancel_left, add_comm]
      | succ i =>
          rw [List.set_cons_succ, holders_cons, holders_cons, ih (by simpa using hold),
            add_sub_assoc,
            add_assoc]

/-- What a record points to has a reference. -/
theorem holders_pos {recs : List β} {i : ℕ} {r : β} (hr : recs[i]? = some r) {t : ℕ}
    (ht : ref r = some t) : 0 < holders ref recs t := by
  rw [holders_eq_countP]
  have hpos : 0 < recs.countP fun r => ref r == some t :=
    List.countP_pos_iff.mpr ⟨r, List.mem_of_getElem? hr, by simp [ht]⟩
  exact_mod_cast hpos

end

end RefCount

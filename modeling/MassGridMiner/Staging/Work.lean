import MassGridMiner.Lib.Buffer
import Mathlib.Data.List.Sort

/-!
# Staged works

Works wait in `staged_work` until a processor takes one.  A work that came with leave to roll
its time, the master, is cloned while it waits: it is rolled, copied, and rolled again, and
the copies are never rolled.

## Main definitions

* `StagedWork` — a work, as far as staging it is concerned.
* `canRoll`, `rollWork`, `makeClone` — rolling and cloning.
* `rollFirst` — the loop of `clone_available`.
* `addStaged`, `findWork` — how works are put in order and chosen.
-/

namespace MassGridMiner

/-- The part of `struct work` that is read and written while works are staged.  The pool is
a number, and `tr` says whether the work has a template. -/
structure StagedWork where
  id : ℕ
  data : Bytes 128
  rolls : ℕ
  rolltime : ℤ
  clone : Bool
  spare : Bool
  stratum : Bool
  tr : Bool
  pool : ℕ
  workDifficulty : Float
  tvStaged : ℤ
  deriving DecidableEq

/-- The time in the header of a work. -/
def StagedWork.ntime (work : StagedWork) : UInt32 :=
  ofBe32 ((work.data.toList.drop 68).take 4)

/-- What rolling a work depends on besides the work: `stale_work`, `should_roll`, and for a
work with a template `blkmk_work_left` and the data that `blkmk_get_data` makes of it. -/
structure RollEnv where
  staleWork : StagedWork → Bool
  shouldRoll : StagedWork → Bool
  workLeft : StagedWork → Bool
  nextData : StagedWork → Bytes 128

/-- `can_roll`, of a work that has a pool. -/
def canRoll (env : RollEnv) (work : StagedWork) : Bool :=
  if work.stratum then false
  else if work.clone then false
  else if work.tr then !env.staleWork work && env.workLeft work
  else work.rolltime != 0 && decide (work.rolls < 7000) && !env.staleWork work

/-- `roll_work`, which gives the work the next number of `total_work`. -/
def rollWork (env : RollEnv) (totalWork : ℕ) (work : StagedWork) : StagedWork :=
  { work with
    data := if work.tr then env.nextData work else work.data.overwrite 68 (be32 (work.ntime + 1))
    rolls := work.rolls + 1
    id := totalWork }

/-- `make_clone`, likewise. -/
def makeClone (totalWork : ℕ) (work : StagedWork) : StagedWork :=
  { work with id := totalWork, clone := true, tvStaged := work.tvStaged - 1 }

/-- `work_rollable`. -/
def workRollable (work : StagedWork) : Bool := !work.clone && work.rolltime != 0

/-- A work is rolled, cloned and rolled again: what becomes of it, and the clone. -/
def rollAndClone (env : RollEnv) (totalWork : ℕ) (work : StagedWork) : StagedWork × StagedWork :=
  let rolled := rollWork env totalWork work
  (rollWork env (totalWork + 2) rolled, makeClone (totalWork + 1) rolled)

/-- The loop of `clone_available`: the first work that can and should be rolled is; the works
as they are left, and the clone. -/
def rollFirst (env : RollEnv) (totalWork : ℕ) :
    List StagedWork → Option (List StagedWork × StagedWork)
  | [] => none
  | work :: rest =>
    if canRoll env work && env.shouldRoll work then
      some ((rollAndClone env totalWork work).1 :: rest, (rollAndClone env totalWork work).2)
    else (rollFirst env totalWork rest).map fun r => (work :: r.1, r.2)

/-- `HASH_ADD_INT` and `HASH_SORT` by `tv_sort`. -/
def addStaged (staged : List StagedWork) (work : StagedWork) : List StagedWork :=
  (staged ++ [work]).mergeSort fun a b => decide (a.tvStaged ≤ b.tvStaged)

/-- The work that the loop of `hash_pop` finds, for the least difficulty that the driver can
work at for each.  The `continue` of `FOUND_WORK` only leaves the loop within the macro, so
that whatever its score the first work that is not passed over is the match. -/
def findWork (minNonceDiff : StagedWork → Float) (staged : List StagedWork) : Option StagedWork :=
  staged.find? fun work =>
    !(decide (minNonceDiff work < work.workDifficulty) && decide (minNonceDiff work < 0))

/-- A work as it is received, with so many seconds to roll. -/
def receivedWork (rolltime : ℤ) : StagedWork where
  id := 0
  data := .replicate 128 0
  rolls := 0
  rolltime := rolltime
  clone := false
  spare := false
  stratum := false
  tr := false
  pool := 0
  workDifficulty := 1
  tvStaged := 0

/-! ## Rolling -/

theorem addStaged_nil (work : StagedWork) : addStaged [] work = [work] :=
  List.mergeSort_singleton work

theorem perm_addStaged (staged : List StagedWork) (work : StagedWork) :
    (addStaged staged work).Perm (work :: staged) :=
  (List.mergeSort_perm _ _).trans (List.perm_append_singleton work staged)

theorem mem_of_findWork {minNonceDiff : StagedWork → Float} {staged : List StagedWork}
    {work : StagedWork} (H : findWork minNonceDiff staged = some work) : work ∈ staged :=
  List.mem_of_find?_eq_some H

/-- The one work that the loop rolls. -/
theorem rollFirst_eq_some {env : RollEnv} {totalWork : ℕ} {staged staged' : List StagedWork}
    {clone : StagedWork} (H : rollFirst env totalWork staged = some (staged', clone)) :
    ∃ front work rest, staged = front ++ work :: rest ∧ canRoll env work = true ∧
      staged' = front ++ (rollAndClone env totalWork work).1 :: rest ∧
        clone = (rollAndClone env totalWork work).2 := by
  induction staged generalizing staged' with
  | nil => cases H
  | cons work rest ih =>
      rw [rollFirst] at H
      split at H
      next hroll =>
        obtain ⟨rfl, rfl⟩ := Prod.mk.inj (Option.some.inj H)
        exact ⟨[], work, rest, rfl, (Bool.and_eq_true_iff.mp hroll).1, rfl, rfl⟩
      next =>
        obtain ⟨⟨staged'', clone'⟩, hrest, heq⟩ := Option.map_eq_some_iff.mp H
        obtain ⟨rfl, rfl⟩ := Prod.mk.inj heq
        obtain ⟨front, w, rest', rfl, hcan, rfl, rfl⟩ := ih hrest
        exact ⟨work :: front, w, rest', rfl, hcan, rfl, rfl⟩

end MassGridMiner

import MassGridMiner.Staging.Counters

/-!
# Which work `hash_pop` chooses

`hash_pop` goes through the staged works and keeps the best that it has seen, until one is a
perfect match.  The macro that notes a lesser match ends in a `continue`, but it is wrapped in a
loop of its own, which is all that the `continue` leaves: the rest of the body runs, and takes
the work for a perfect match.

## Main definitions

* `WorkScore`, `Found`, `foundWork` — the scores, and the macro.
* `scan` — the loop of the source, with the difficulties in any type.
* `Worker` — a processor, with the least difficulty that it can work at for each algorithm.
* `ChoosesBest` — the choice is one of the works with the highest score.
* `choosesBest_iff` — when it is.
-/

namespace MassGridMiner

/-- The scores of `hash_pop`. -/
inductive WorkScore
  | none
  | lowdiff
  | spare
  | rollable
  | perfect
  deriving DecidableEq

/-- The value of a score. -/
def WorkScore.rank : WorkScore → ℕ
  | .none => 0
  | .lowdiff => 1
  | .spare => 2
  | .rollable => 3
  | .perfect => 4

/-- `work_found` and `work_score`. -/
structure Found where
  work : Option StagedWork
  score : WorkScore

/-- `FOUND_WORK`. -/
def foundWork (score : WorkScore) (work : StagedWork) (found : Found) : Found :=
  if found.score.rank < score.rank then ⟨some work, score⟩ else found

section
variable {D : Type*} [LT D] [DecidableLT D] (minNonceDiff workDifficulty : StagedWork → D)
  (notAllRollable : Bool)

/-- What the body does with a work that it does not pass over, to the `break` at its end; the
macros only change what was found. -/
def lookAt (found : Found) (work : StagedWork) : Found :=
  let found := if minNonceDiff work < workDifficulty work then foundWork .lowdiff work found
    else found
  let found := if work.spare then foundWork .spare work found else found
  let found := if work.rolltime != 0 && notAllRollable then foundWork .rollable work found
    else found
  let found := { found with work := some work }
  { found with score := .perfect }

/-- The score that is meant: that of the first test which a work fails. -/
def workScore (work : StagedWork) : WorkScore :=
  if minNonceDiff work < workDifficulty work then .lowdiff
  else if work.spare then .spare
  else if work.rolltime != 0 && notAllRollable then .rollable
  else .perfect

/-- Whatever its score, a work that is looked at is a perfect match. -/
theorem lookAt_eq (found : Found) (work : StagedWork) :
    lookAt minNonceDiff workDifficulty notAllRollable found work = ⟨some work, .perfect⟩ := rfl

variable [OfNat D 0]

/-- The loop of `hash_pop`; `notAllRollable` says that more works are staged than
`staged_rollable` counts. -/
def scan (found : Found) : List StagedWork → Found
  | [] => found
  | work :: rest =>
    if minNonceDiff work < workDifficulty work ∧ minNonceDiff work < 0 then scan found rest
    else lookAt minNonceDiff workDifficulty notAllRollable found work

/-- The loop finds the first work that it does not pass over. -/
theorem scan_work (staged : List StagedWork) :
    (scan minNonceDiff workDifficulty notAllRollable ⟨none, .none⟩ staged).work =
      staged.find? fun work =>
        !decide (minNonceDiff work < workDifficulty work ∧ minNonceDiff work < 0) := by
  induction staged with
  | nil => rfl
  | cons work rest ih =>
      rw [scan]
      by_cases hpass : minNonceDiff work < workDifficulty work ∧ minNonceDiff work < 0
      · rw [if_pos hpass, ih, List.find?_cons_of_neg (by simp [hpass])]
      · rw [if_neg hpass, lookAt_eq, List.find?_cons_of_pos (by simp [hpass])]

end

/-- With the numbers of the machine this is the work that `findWork` finds. -/
theorem scan_work_eq_findWork (minNonceDiff : StagedWork → Float) (notAllRollable : Bool)
    (staged : List StagedWork) :
    (scan minNonceDiff StagedWork.workDifficulty notAllRollable ⟨none, .none⟩ staged).work =
      findWork minNonceDiff staged := by
  rw [scan_work, findWork]
  simp only [Bool.decide_and]

/-- What `drv_min_nonce_diff` gives for the driver and the processor and each mining algorithm,
which is negative where they cannot work at it, and the values of difficulties.  The difficulty
of a target is never negative. -/
structure Worker (D : Type*) [LinearOrder D] [Zero D] where
  minNonceDiff : ℕ → D
  value : Float → D
  value_nonneg : ∀ x, 0 ≤ value x

namespace Staging

section
variable {D : Type*} [LinearOrder D] [Zero D] (proc : Worker D) (s : Staging)

/-- The least difficulty for the algorithm of a work. -/
def minDiff (work : StagedWork) : D := proc.minNonceDiff (s.workMiningAlgorithm work)

/-- The processor can work at it. -/
def Mineable (work : StagedWork) : Prop := 0 ≤ s.minDiff proc work

instance (work : StagedWork) : Decidable (s.Mineable proc work) :=
  inferInstanceAs (Decidable (0 ≤ s.minDiff proc work))

/-- `hc > staged_rollable`. -/
def notAllRollable : Bool := decide (s.stagedRollable < s.staged.length)

/-- The work that `hash_pop` chooses. -/
def chosen : Option StagedWork :=
  (scan (s.minDiff proc) (fun work => proc.value work.workDifficulty) s.notAllRollable
    ⟨none, .none⟩ s.staged).work

/-- The score that a staged work should have. -/
def score (work : StagedWork) : WorkScore :=
  workScore (s.minDiff proc) (fun work => proc.value work.workDifficulty) s.notAllRollable work

/-- Of the staged works that the processor can work at, one with the highest score is chosen. -/
def ChoosesBest : Prop :=
  (∃ work ∈ s.staged, s.Mineable proc work) →
    ∃ work, s.chosen proc = some work ∧ work ∈ s.staged ∧ s.Mineable proc work ∧
      ∀ w ∈ s.staged, s.Mineable proc w → (s.score proc w).rank ≤ (s.score proc work).rank

/-- The first of them has it. -/
def FirstIsBest : Prop :=
  ∀ front work rest, s.staged = front ++ work :: rest →
    (∀ w ∈ front, ¬ s.Mineable proc w) → s.Mineable proc work →
      ∀ w ∈ rest, s.Mineable proc w → (s.score proc w).rank ≤ (s.score proc work).rank

variable {proc s}

/-- The loop passes over the works that the processor cannot work at. -/
theorem chosen_eq : s.chosen proc = s.staged.find? fun work => s.Mineable proc work := by
  rw [chosen, scan_work]
  congr 1
  ext work
  have hpass : (s.minDiff proc work < proc.value work.workDifficulty ∧ s.minDiff proc work < 0) ↔
      ¬ s.Mineable proc work := by
    rw [Mineable, not_le]
    exact and_iff_right_of_imp fun hneg => hneg.trans_le (proc.value_nonneg _)
  simp only [hpass, decide_not, Bool.not_not]

/-- The choice splits the works that are staged. -/
theorem chosen_eq_some_iff {work : StagedWork} :
    s.chosen proc = some work ↔ s.Mineable proc work ∧ ∃ front rest,
      s.staged = front ++ work :: rest ∧ ∀ w ∈ front, ¬ s.Mineable proc w := by
  rw [chosen_eq, List.find?_eq_some_iff_append]
  simp

/-- Something is chosen where the processor can work at something. -/
theorem exists_chosen_iff :
    (∃ work, s.chosen proc = some work) ↔ ∃ work ∈ s.staged, s.Mineable proc work := by
  rw [chosen_eq, ← Option.isSome_iff_exists, List.find?_isSome]
  simp

variable (proc s)

/-- **When `hash_pop` chooses the best work**: it takes the first that the processor can work at,
so exactly when that one has the highest score. -/
theorem choosesBest_iff : s.ChoosesBest proc ↔ s.FirstIsBest proc := by
  constructor
  · intro H front work rest hstaged hfront hwork w hw hmine
    have hchosen : s.chosen proc = some work :=
      chosen_eq_some_iff.mpr ⟨hwork, front, rest, hstaged, hfront⟩
    obtain ⟨best, hbest, -, -, hmax⟩ := H ⟨work, by simp [hstaged], hwork⟩
    rw [hchosen, Option.some.injEq] at hbest
    rw [hbest]
    exact hmax w (by simp [hstaged, hw]) hmine
  · intro H hexists
    obtain ⟨work, hchosen⟩ := exists_chosen_iff.mpr hexists
    obtain ⟨hwork, front, rest, hstaged, hfront⟩ := chosen_eq_some_iff.mp hchosen
    refine ⟨work, hchosen, by simp [hstaged], hwork, ?_⟩
    intro w hw hmine
    rw [hstaged, List.mem_append, List.mem_cons] at hw
    rcases hw with hw | hw | hw
    · exact absurd hmine (hfront w hw)
    · rw [hw]
    · exact H front work rest hstaged hfront hwork w hw hmine

end

/-- A processor that works at every difficulty from 1. -/
def anyWorker : Worker ℤ where
  minNonceDiff _ := 1
  value _ := 1
  value_nonneg _ := by decide

/-- The spare work is first, and is taken although the other one is a perfect match. -/
theorem not_choosesBest_spare :
    ¬ { init false (fun _ => 0) (fun _ => 0) (fun _ => 0) with
        staged := [{ receivedWork 0 with spare := true }, receivedWork 0]
        stagedSpare := 1 }.ChoosesBest anyWorker := by
  intro H
  obtain ⟨work, hchosen, -, -, hmax⟩ := H ⟨_, List.mem_cons_self, by decide⟩
  have hspare : some { receivedWork 0 with spare := true } = some work := hchosen
  have hscore := hmax (receivedWork 0) (by simp) (by decide)
  rw [← Option.some.inj hspare] at hscore
  exact absurd hscore (by decide)

end Staging

end MassGridMiner

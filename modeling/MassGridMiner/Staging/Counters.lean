import MassGridMiner.Lib.Run
import MassGridMiner.Staging.Work

/-!
# Counting the staged works

Three numbers are kept beside `staged_work`: how many of the works there are for each mining
algorithm, how many may be rolled and how many are spare.  Whoever adds or removes a work
adjusts them, and finds the algorithm through the pool and the goal of the work.  A goal may
change its algorithm while works for it are staged.

## Main definitions

* `Staging` — the staged works, the numbers, and the goals of the pools.
* `hashPush`, `unstageWork`, `hashPop`, `discardStale`, `clearPoolWork`, `cloneAvailable`,
  `parseNotify` — the functions of the source.
* `Staging.Accounted` — every number is that of the works.
* `Staging.KeepsCounts` — the condition for a step to keep it so.
-/

namespace MassGridMiner

/-- The queue of works, and what is counted of it.  Pools, goals and mining algorithms are
numbers; `poolGoal` is the goal of each pool, `nextGoalMalgo` the algorithm that waits for the
next notify, and `goalMalgo` the one in use. -/
structure Staging where
  staged : List StagedWork
  malgoStaged : ℕ → ℤ
  stagedRollable : ℤ
  stagedSpare : ℤ
  totalWork : ℕ
  frozen : Bool
  poolGoal : ℕ → ℕ
  nextGoalMalgo : ℕ → Option ℕ
  goalMalgo : ℕ → ℕ
  goalRefs : ℕ → ℤ

namespace Staging

/-- `work_mining_algorithm`. -/
def workMiningAlgorithm (s : Staging) (work : StagedWork) : ℕ := s.goalMalgo (s.poolGoal work.pool)

/-- What `hash_push` and `unstage_work` do to the numbers. -/
def count (s : Staging) (work : StagedWork) (d : ℤ) : Staging :=
  { s with
    malgoStaged := Function.update s.malgoStaged (s.workMiningAlgorithm work)
      (s.malgoStaged (s.workMiningAlgorithm work) + d)
    stagedRollable := if workRollable work then s.stagedRollable + d else s.stagedRollable
    stagedSpare := if work.spare then s.stagedSpare + d else s.stagedSpare }

/-- `hash_push`. -/
def hashPush (s : Staging) (work : StagedWork) : Bool × Staging :=
  let s := s.count work 1
  if !s.frozen then (true, { s with staged := addStaged s.staged work }) else (false, s)

/-- `unstage_work`. -/
def unstageWork (s : Staging) (work : StagedWork) : Staging :=
  { s with staged := s.staged.erase work }.count work (-1)

/-- The loop of `discard_stale` and `clear_pool_work` over the works that are left to see. -/
def unstageLoop (p : StagedWork → Bool) (s : Staging) : List StagedWork → Staging
  | [] => s
  | work :: rest => unstageLoop p (if p work then s.unstageWork work else s) rest

/-- `discard_stale`. -/
def discardStale (env : RollEnv) (s : Staging) : Staging := unstageLoop env.staleWork s s.staged

/-- `clear_pool_work`. -/
def clearPoolWork (pool : ℕ) (s : Staging) : Staging :=
  unstageLoop (fun work => work.pool == pool) s s.staged

/-- `clone_available`, as long as it holds the lock; the clone is pushed afterwards. -/
def cloneAvailable (env : RollEnv) (s : Staging) : Option StagedWork × Staging :=
  if s.stagedRollable = 0 then (none, s)
  else
    match rollFirst env s.totalWork s.staged with
    | none => (none, s)
    | some (staged, clone) => (some clone, { s with staged, totalWork := s.totalWork + 3 })

/-- One turn of `hash_pop`: it waits, leaves for `clone_available`, or takes a work. -/
inductive Popped
  | wait
  | clone
  | took (work : StagedWork)

/-- `hash_pop`, from taking the lock to releasing it. -/
def hashPop (env : RollEnv) (minNonceDiff : StagedWork → Float) (s : Staging) : Popped × Staging :=
  match findWork minNonceDiff s.staged with
  | none => (.wait, s)
  | some work =>
    if canRoll env work && env.shouldRoll work then (.clone, s)
    else (.took work, s.unstageWork work)

/-- `goal_set_malgo`. -/
def goalSetMalgo (s : Staging) (goal malgo : ℕ) : Staging :=
  if s.goalMalgo goal = malgo then s
  else
    let old := s.goalMalgo goal
    let goalRefs := Function.update s.goalRefs old (s.goalRefs old - 1)
    { s with
      goalRefs := Function.update goalRefs malgo (goalRefs malgo + 1)
      goalMalgo := Function.update s.goalMalgo goal malgo }

/-- The part of `parse_notify` that applies an algorithm set by `mining.set_goal`. -/
def parseNotify (s : Staging) (pool : ℕ) : Staging :=
  match s.nextGoalMalgo pool with
  | none => s
  | some malgo =>
    { s.goalSetMalgo (s.poolGoal pool) malgo with
      nextGoalMalgo := Function.update s.nextGoalMalgo pool none }

/-- What happens: the calls, and `total_work` giving numbers to works that are not staged; the
queue may be frozen and thawed. -/
inductive Event
  | hashPush (work : StagedWork)
  | hashPop (env : RollEnv) (minNonceDiff : StagedWork → Float)
  | discardStale (env : RollEnv)
  | clearPoolWork (pool : ℕ)
  | cloneAvailable (env : RollEnv)
  | makeWork
  | setGoal (pool : ℕ) (malgo : Option ℕ)
  | parseNotify (pool : ℕ)
  | tqFreezethaw (frozen : Bool)

/-- One step; every one is possible. -/
def step (s : Staging) : Event → Option Staging
  | .hashPush work => some (s.hashPush work).2
  | .hashPop env minNonceDiff => some (hashPop env minNonceDiff s).2
  | .discardStale env => some (s.discardStale env)
  | .clearPoolWork pool => some (s.clearPoolWork pool)
  | .cloneAvailable env => some (cloneAvailable env s).2
  | .makeWork => some { s with totalWork := s.totalWork + 1 }
  | .setGoal pool malgo =>
    some { s with nextGoalMalgo := Function.update s.nextGoalMalgo pool malgo }
  | .parseNotify pool => some (s.parseNotify pool)
  | .tqFreezethaw frozen => some { s with frozen }

/-- Nothing is staged; the pools have their goals and the goals their algorithms. -/
def init (frozen : Bool) (poolGoal goalMalgo : ℕ → ℕ) (goalRefs : ℕ → ℤ) : Staging where
  staged := []
  malgoStaged := fun _ => 0
  stagedRollable := 0
  stagedSpare := 0
  totalWork := 0
  frozen := frozen
  poolGoal := poolGoal
  nextGoalMalgo := fun _ => none
  goalMalgo := goalMalgo
  goalRefs := goalRefs

/-- Every number is that of the staged works. -/
structure Counts (s : Staging) : Prop where
  malgo : ∀ m, s.malgoStaged m = s.staged.countP fun work => s.workMiningAlgorithm work == m
  rollable : s.stagedRollable = s.staged.countP workRollable
  spare : s.stagedSpare = s.staged.countP StagedWork.spare

/-- Every number is that of the staged works, and so none is negative. -/
structure Accounted (s : Staging) : Prop extends Counts s where
  malgo_nonneg : ∀ m, 0 ≤ s.malgoStaged m
  rollable_nonneg : 0 ≤ s.stagedRollable
  spare_nonneg : 0 ≤ s.stagedSpare

/-- No work is pushed while the queue is frozen, and no goal changes its algorithm while works
for it are staged. -/
def KeepsCounts (s : Staging) : Event → Prop
  | .hashPush _ => s.frozen = false
  | .parseNotify pool => ∀ malgo, s.nextGoalMalgo pool = some malgo →
      s.goalMalgo (s.poolGoal pool) ≠ malgo →
        ∀ work ∈ s.staged, s.poolGoal work.pool ≠ s.poolGoal pool
  | _ => True

theorem Counts.accounted {s : Staging} (H : s.Counts) : s.Accounted where
  toCounts := H
  malgo_nonneg m := by
    rw [H.malgo m]
    exact Int.natCast_nonneg _
  rollable_nonneg := by
    rw [H.rollable]
    exact Int.natCast_nonneg _
  spare_nonneg := by
    rw [H.spare]
    exact Int.natCast_nonneg _

/-! ## What a step changes -/

section
variable {s : Staging} {work : StagedWork}

/-- The numbers follow the works when one is added or removed. -/
theorem Counts.count (H : s.Counts) {staged : List StagedWork} {d : ℤ}
    (hcount : ∀ p : StagedWork → Bool,
      (staged.countP p : ℤ) = s.staged.countP p + if p work then d else 0) :
    Counts { s.count work d with staged := staged } where
  malgo m := by
    have hm := hcount fun w => s.workMiningAlgorithm w == m
    simp only [beq_iff_eq] at hm
    have hnew : (s.count work d).malgoStaged m =
        if m = s.workMiningAlgorithm work then s.malgoStaged (s.workMiningAlgorithm work) + d
        else s.malgoStaged m := Function.update_apply _ _ _ _
    refine hnew.trans (Eq.trans ?_ hm.symm)
    rw [← H.malgo m]
    by_cases halgo : m = s.workMiningAlgorithm work
    · rw [if_pos halgo, if_pos halgo.symm, halgo]
    · rw [if_neg halgo, if_neg (Ne.symm halgo), add_zero]
  rollable := by
    rw [hcount, ← H.rollable]
    simp only [Staging.count]
    split <;> simp
  spare := by
    rw [hcount, ← H.spare]
    simp only [Staging.count]
    split <;> simp

theorem countP_addStaged (staged : List StagedWork) (p : StagedWork → Bool) :
    ((addStaged staged work).countP p : ℤ) = staged.countP p + if p work then 1 else 0 := by
  rw [(perm_addStaged staged work).countP_eq, List.countP_cons]
  push_cast
  rfl

theorem countP_erase {staged : List StagedWork} (H : work ∈ staged) (p : StagedWork → Bool) :
    ((staged.erase work).countP p : ℤ) = staged.countP p + if p work then -1 else 0 := by
  rw [(List.perm_cons_erase H).countP_eq, List.countP_cons]
  split <;> push_cast <;> omega

theorem Counts.hashPush (H : s.Counts) (hfrozen : s.frozen = false) :
    (s.hashPush work).2.Counts := by
  have hpush : (s.hashPush work).2 = { s.count work 1 with staged := addStaged s.staged work } := by
    simp [Staging.hashPush, Staging.count, hfrozen]
  rw [hpush]
  exact H.count (countP_addStaged s.staged)

theorem Counts.unstageWork (H : s.Counts) (hmem : work ∈ s.staged) : (s.unstageWork work).Counts :=
  H.count (countP_erase hmem)

/-- Removing works one by one: those that are left to see are staged. -/
theorem Counts.unstageLoop {p : StagedWork → Bool} {todo : List StagedWork} (H : s.Counts)
    (hmem : ∃ seen, s.staged.Perm (seen ++ todo)) : (unstageLoop p s todo).Counts := by
  induction todo generalizing s with
  | nil => exact H
  | cons work rest ih =>
      obtain ⟨seen, hperm⟩ := hmem
      rw [Staging.unstageLoop]
      split
      next =>
        have hwork : work ∈ s.staged := hperm.mem_iff.mpr (by simp)
        refine ih (H.unstageWork hwork) ⟨seen, ?_⟩
        have herase := (hperm.trans List.perm_middle).erase work
        rwa [List.erase_cons_head] at herase
      next =>
        refine ih H ⟨seen ++ [work], ?_⟩
        rwa [List.append_assoc]

theorem Counts.hashPop (H : s.Counts) (env : RollEnv) (minNonceDiff : StagedWork → Float) :
    (hashPop env minNonceDiff s).2.Counts := by
  rw [Staging.hashPop]
  split
  next => exact H
  next work hfind =>
    split
    next => exact H
    next => exact H.unstageWork (mem_of_findWork hfind)

/-- A work is counted as it was after it is rolled. -/
theorem Counts.cloneAvailable (H : s.Counts) (env : RollEnv) :
    (cloneAvailable env s).2.Counts := by
  rw [Staging.cloneAvailable]
  split
  next => exact H
  next =>
    split
    next => exact H
    next staged clone hroll =>
      obtain ⟨front, work, rest, hstaged, -, rfl, -⟩ := rollFirst_eq_some hroll
      have hcount : ∀ p : StagedWork → Bool, p (rollAndClone env s.totalWork work).1 = p work →
          (front ++ (rollAndClone env s.totalWork work).1 :: rest).countP p =
            s.staged.countP p := by
        intro p hp
        rw [hstaged, List.countP_append, List.countP_append, List.countP_cons, List.countP_cons, hp]
      exact
        { malgo := fun m => (H.malgo m).trans (congrArg _ (hcount _ rfl).symm)
          rollable := H.rollable.trans (congrArg _ (hcount _ rfl).symm)
          spare := H.spare.trans (congrArg _ (hcount _ rfl).symm) }

/-- Where fewer works meet a condition and none is lost, it is the same works. -/
theorem of_countP_eq {p q : StagedWork → Bool} {l : List StagedWork}
    (himp : ∀ w ∈ l, q w = true → p w = true) (heq : l.countP q = l.countP p) :
    ∀ w ∈ l, p w = true → q w = true := by
  induction l with
  | nil => simp
  | cons x l ih =>
      have hle : l.countP q ≤ l.countP p :=
        List.countP_mono_left fun w hw => himp w (List.mem_cons_of_mem x hw)
      have hx := himp x List.mem_cons_self
      rw [List.countP_cons, List.countP_cons] at heq
      have hhead : p x = true → q x = true := by
        intro hp
        by_contra hq
        rw [if_neg hq, if_pos hp] at heq
        omega
      intro w hw
      rcases List.mem_cons.mp hw with rfl | hw
      · exact hhead
      · refine ih (fun w hw => himp w (List.mem_cons_of_mem x hw)) ?_ w hw
        by_cases hq : q x = true
        · rw [if_pos hq, if_pos (hx hq)] at heq
          omega
        · rw [if_neg hq, if_neg fun hp => hq (hhead hp)] at heq
          omega

end

/-! ## Runs -/

section
variable {s : Staging}

/-- Where a goal keeps its algorithm or no work is staged for it, the works are counted as
before. -/
theorem Counts.parseNotify (H : s.Counts) {pool : ℕ} (hkeeps : s.KeepsCounts (.parseNotify pool)) :
    (s.parseNotify pool).Counts := by
  rw [Staging.parseNotify]
  split
  next => exact H
  next malgo hnext =>
    rw [goalSetMalgo]
    split
    next => exact ⟨H.malgo, H.rollable, H.spare⟩
    next hne =>
      refine ⟨fun m => ?_, H.rollable, H.spare⟩
      refine (H.malgo m).trans (congrArg _ (List.countP_congr fun work hwork => ?_))
      have hother := hkeeps malgo hnext hne work hwork
      simp only [workMiningAlgorithm, Function.update_of_ne hother]

/-- A frozen queue takes no work, but counts it. -/
theorem not_counts_hashPush (H : s.Counts) {work : StagedWork} (hfrozen : s.frozen = true) :
    ¬ (s.hashPush work).2.Counts := by
  intro hcounts
  have hpush : (s.hashPush work).2 = s.count work 1 := by
    simp [Staging.hashPush, Staging.count, hfrozen]
  rw [hpush] at hcounts
  have hnew : (s.count work 1).malgoStaged (s.workMiningAlgorithm work) =
      s.malgoStaged (s.workMiningAlgorithm work) + 1 := Function.update_self _ _ _
  have hold := H.malgo (s.workMiningAlgorithm work)
  have hsame := hcounts.malgo (s.workMiningAlgorithm work)
  rw [hnew, hold] at hsame
  have : (s.count work 1).staged.countP
      (fun w => (s.count work 1).workMiningAlgorithm w == s.workMiningAlgorithm work) =
    s.staged.countP fun w => s.workMiningAlgorithm w == s.workMiningAlgorithm work := rfl
  omega

/-- The numbers stay where they were when a goal changes its algorithm, so that the works of
the goal are no longer counted for the one in use. -/
theorem keepsCounts_of_counts_parseNotify (H : s.Counts) {pool : ℕ}
    (hcounts : (s.parseNotify pool).Counts) : s.KeepsCounts (.parseNotify pool) := by
  intro malgo hnext hne work hwork hgoal
  set g := s.poolGoal pool with hg
  have hset : s.parseNotify pool = { s.goalSetMalgo g malgo with
      nextGoalMalgo := Function.update s.nextGoalMalgo pool none } := by
    simp only [Staging.parseNotify, hnext, hg]
  have hgoals : (s.parseNotify pool).goalMalgo = Function.update s.goalMalgo g malgo := by
    rw [hset, goalSetMalgo, if_neg hne]
  have hstaged : (s.parseNotify pool).staged = s.staged := by
    rw [hset, goalSetMalgo, if_neg hne]
  have hpools : (s.parseNotify pool).poolGoal = s.poolGoal := by
    rw [hset, goalSetMalgo, if_neg hne]
  have hnumbers : (s.parseNotify pool).malgoStaged = s.malgoStaged := by
    rw [hset, goalSetMalgo, if_neg hne]
  have halgo : ∀ w, (s.parseNotify pool).workMiningAlgorithm w =
      if s.poolGoal w.pool = g then malgo else s.workMiningAlgorithm w := by
    intro w
    rw [workMiningAlgorithm, hgoals, hpools, Function.update_apply]
    rfl
  -- the algorithm that the goal had loses the work
  have hcount := hcounts.malgo (s.goalMalgo g)
  rw [hnumbers, H.malgo, hstaged, Nat.cast_inj] at hcount
  have hlost := of_countP_eq (fun w _ hw => ?_) hcount.symm work hwork
    (by rw [workMiningAlgorithm, hgoal, beq_self_eq_true])
  · rw [halgo, if_pos hgoal, beq_iff_eq] at hlost
    exact hne hlost.symm
  · rw [halgo] at hw
    split at hw
    next =>
      rw [beq_iff_eq] at hw
      exact absurd hw.symm hne
    next => exact hw

theorem accounted_iff : s.Accounted ↔ s.Counts := ⟨fun H => H.toCounts, Counts.accounted⟩

/-- Beside these two every step keeps the numbers. -/
theorem Counts.step_iff {s' : Staging} {e : Event} (H : s.Counts) (hstep : s.step e = some s') :
    s'.Counts ↔ s.KeepsCounts e := by
  cases e with
  | hashPush work =>
      obtain rfl := Option.some.inj hstep
      refine ⟨fun hcounts => ?_, H.hashPush⟩
      by_contra hfrozen
      exact not_counts_hashPush H (by simpa [KeepsCounts] using hfrozen) hcounts
  | parseNotify pool =>
      obtain rfl := Option.some.inj hstep
      exact ⟨keepsCounts_of_counts_parseNotify H, H.parseNotify⟩
  | hashPop env minNonceDiff =>
      obtain rfl := Option.some.inj hstep
      exact iff_of_true (H.hashPop env minNonceDiff) trivial
  | discardStale env =>
      obtain rfl := Option.some.inj hstep
      exact iff_of_true (H.unstageLoop ⟨[], .rfl⟩) trivial
  | clearPoolWork pool =>
      obtain rfl := Option.some.inj hstep
      exact iff_of_true (H.unstageLoop ⟨[], .rfl⟩) trivial
  | cloneAvailable env =>
      obtain rfl := Option.some.inj hstep
      exact iff_of_true (H.cloneAvailable env) trivial
  | makeWork =>
      obtain rfl := Option.some.inj hstep
      exact iff_of_true ⟨H.malgo, H.rollable, H.spare⟩ trivial
  | setGoal pool malgo =>
      obtain rfl := Option.some.inj hstep
      exact iff_of_true ⟨H.malgo, H.rollable, H.spare⟩ trivial
  | tqFreezethaw frozen =>
      obtain rfl := Option.some.inj hstep
      exact iff_of_true ⟨H.malgo, H.rollable, H.spare⟩ trivial

end

theorem counts_init (frozen : Bool) (poolGoal goalMalgo : ℕ → ℕ) (goalRefs : ℕ → ℤ) :
    (init frozen poolGoal goalMalgo goalRefs).Counts where
  malgo _ := rfl
  rollable := rfl
  spare := rfl

/-- **When the staged works are accounted for**: in every run exactly as long as no work is
pushed into a frozen queue and no goal changes its algorithm while works for it are staged. -/
theorem allSteps_accounted_iff (frozen : Bool) (poolGoal goalMalgo : ℕ → ℕ) (goalRefs : ℕ → ℤ)
    (es : List Event) :
    Run.AllSteps step (fun _ _ s' => s'.Accounted) (init frozen poolGoal goalMalgo goalRefs) es ↔
      Run.AllSteps step (fun s e _ => s.KeepsCounts e) (init frozen poolGoal goalMalgo goalRefs)
        es := by
  refine Run.allSteps_congr (I := Counts) ?_ ?_ es (counts_init frozen poolGoal goalMalgo goalRefs)
  · intro s e s' H hstep
    rw [accounted_iff]
    exact H.step_iff hstep
  · exact fun s e s' _ _ haccounted => haccounted.toCounts

/-- A work is staged for a goal whose algorithm is 0, the pool sets it to 1, and a notify
applies that: one work uses algorithm 1, and none is counted for it. -/
theorem not_accounted_setGoal :
    ¬ Run.AllSteps step (fun _ _ s' => s'.Accounted)
      (init false (fun _ => 0) (fun _ => 0) fun _ => 0)
      [.hashPush (receivedWork 0), .setGoal 0 (some 1), .parseNotify 0] := by
  intro H
  have hcount : (0 : ℤ) = ((addStaged [] (receivedWork 0)).countP fun _ => true : ℕ) :=
    (((H _ rfl).2 _ rfl).2 _ rfl).1.malgo 1
  rw [addStaged_nil] at hcount
  exact absurd hcount (by decide)

end Staging

end MassGridMiner

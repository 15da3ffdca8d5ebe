import MassGridMiner.Staging.Choice

/-!
# How often `hash_pop` tries again

Where the work that `hash_pop` has chosen may be rolled, it lets `clone_available` make a clone
and tries again, to find the clone.  But `clone_available` chooses for itself: it rolls the
first work of the queue that may be rolled, for whatever processor that is.

## Main definitions

* `Queue` — works in order of the time at which they were staged.
* `popTurn`, `detour`, `popLoop` — one turn of `hash_pop`, what it does between two, and all of
  them.
* `PopsSoon` — `hash_pop` returns with a work, and every clone is for the processor.
* `RollsOwn` — the first work that may be rolled is the one chosen.
* `popsSoon_iff` — the two are equivalent.
-/

namespace MassGridMiner

namespace Staging

/-- A turn of `hash_pop` with the work that its loop has found. -/
def popTurn (env : RollEnv) (s : Staging) (found : Option StagedWork) : Popped × Staging :=
  match found with
  | none => (.wait, s)
  | some work =>
    if canRoll env work && env.shouldRoll work then (.clone, s)
    else (.took work, s.unstageWork work)

theorem hashPop_eq (env : RollEnv) (minNonceDiff : StagedWork → Float) (s : Staging) :
    hashPop env minNonceDiff s = s.popTurn env (findWork minNonceDiff s.staged) := rfl

/-- `clone_available`, to the end: the clone that it has staged. -/
def detour (env : RollEnv) (s : Staging) : Option StagedWork × Staging :=
  match cloneAvailable env s with
  | (none, s) => (none, s)
  | (some clone, s) =>
    (if (s.hashPush clone).1 then some clone else none, (s.hashPush clone).2)

/-- What became of the turns of `hash_pop`: what each detour staged, and the last turn. -/
structure Pop where
  clones : List (Option StagedWork)
  popped : Popped
  staging : Staging

section
variable {D : Type*} [LinearOrder D] [Zero D] (proc : Worker D) (env : RollEnv)

/-- `hash_pop` with at most so many detours. -/
def popLoop : ℕ → Staging → Pop
  | 0, s => ⟨[], (s.popTurn env (s.chosen proc)).1, (s.popTurn env (s.chosen proc)).2⟩
  | detours + 1, s =>
    match s.popTurn env (s.chosen proc) with
    | (.clone, s) =>
      let pop := popLoop detours (s.detour env).2
      { pop with clones := (s.detour env).1 :: pop.clones }
    | (popped, s) => ⟨[], popped, s⟩

/-- With no more detours than there are works for the processor, `hash_pop` returns with a work;
and every detour stages a clone for the processor. -/
def PopsSoon (s : Staging) : Prop :=
  (∃ work ∈ s.staged, s.Mineable proc work) →
    (∃ work, (popLoop proc env (s.staged.countP fun w => s.Mineable proc w) s).popped =
      .took work) ∧
    ∀ c ∈ (popLoop proc env (s.staged.countP fun w => s.Mineable proc w) s).clones,
      ∃ clone, c = some clone ∧ s.Mineable proc clone

/-- Where the first work for the processor may be rolled, it is counted, the queue takes clones,
and no work before it may be rolled. -/
def RollsOwn (s : Staging) : Prop :=
  ∀ front work rest, s.staged = front ++ work :: rest → (∀ w ∈ front, ¬ s.Mineable proc w) →
    s.Mineable proc work → (canRoll env work && env.shouldRoll work) = true →
      s.stagedRollable ≠ 0 ∧ s.frozen = false ∧
        ∀ w ∈ front, (canRoll env w && env.shouldRoll w) = false

end

/-! ## The order of the queue -/

/-- The works are in the order of `tv_sort`. -/
def Sorted (s : Staging) : Prop := s.staged.Pairwise fun a b => a.tvStaged ≤ b.tvStaged

theorem pairwise_addStaged (staged : List StagedWork) (work : StagedWork) :
    (addStaged staged work).Pairwise fun a b => a.tvStaged ≤ b.tvStaged := by
  have hsorted : (addStaged staged work).Pairwise fun a b =>
      decide (a.tvStaged ≤ b.tvStaged) = true :=
    List.pairwise_mergeSort (fun a b c hab hbc => by simp only [decide_eq_true_eq] at *; omega)
      (fun a b => by simp only [Bool.or_eq_true, decide_eq_true_eq]; omega) (staged ++ [work])
  exact hsorted.imp fun h => of_decide_eq_true h

section
variable {s s' : Staging}

theorem Sorted.hashPush (H : s.Sorted) (work : StagedWork) : (s.hashPush work).2.Sorted := by
  rw [Staging.hashPush]
  split
  · exact pairwise_addStaged s.staged work
  · exact H

theorem Sorted.unstageWork (H : s.Sorted) (work : StagedWork) : (s.unstageWork work).Sorted :=
  List.Pairwise.sublist List.erase_sublist H

theorem Sorted.unstageLoop (H : s.Sorted) (p : StagedWork → Bool) (todo : List StagedWork) :
    (unstageLoop p s todo).Sorted := by
  induction todo generalizing s with
  | nil => exact H
  | cons work rest ih =>
      rw [Staging.unstageLoop]
      split
      · exact ih (H.unstageWork work)
      · exact ih H

theorem Sorted.popTurn (H : s.Sorted) (env : RollEnv) (found : Option StagedWork) :
    (s.popTurn env found).2.Sorted := by
  cases found with
  | none => exact H
  | some work =>
      rw [Staging.popTurn]
      split
      · exact H
      · exact H.unstageWork work

/-- Rolling leaves a work in its place. -/
theorem Sorted.cloneAvailable (H : s.Sorted) (env : RollEnv) :
    (cloneAvailable env s).2.Sorted := by
  rw [Staging.cloneAvailable]
  split
  next => exact H
  next =>
    split
    next => exact H
    next staged clone hroll =>
      obtain ⟨front, work, rest, hstaged, -, rfl, -⟩ := rollFirst_eq_some hroll
      rw [Sorted, hstaged] at H
      rw [Sorted]
      rw [List.pairwise_append, List.pairwise_cons] at H ⊢
      simp only [List.forall_mem_cons] at H ⊢
      exact H

theorem Sorted.parseNotify (H : s.Sorted) (pool : ℕ) : (s.parseNotify pool).Sorted := by
  rw [Staging.parseNotify]
  split
  · exact H
  · rw [goalSetMalgo]
    split
    · exact H
    · exact H

/-- Every step keeps the order. -/
theorem Sorted.step (H : s.Sorted) {e : Event} (hstep : s.step e = some s') : s'.Sorted := by
  cases e with
  | hashPush work => exact Option.some.inj hstep ▸ H.hashPush work
  | hashPop env minNonceDiff =>
      rw [← Option.some.inj hstep, hashPop_eq]
      exact H.popTurn env _
  | discardStale env => exact Option.some.inj hstep ▸ H.unstageLoop _ _
  | clearPoolWork pool => exact Option.some.inj hstep ▸ H.unstageLoop _ _
  | cloneAvailable env => exact Option.some.inj hstep ▸ H.cloneAvailable env
  | makeWork => exact Option.some.inj hstep ▸ H
  | setGoal pool malgo => exact Option.some.inj hstep ▸ H
  | parseNotify pool => exact Option.some.inj hstep ▸ H.parseNotify pool
  | tqFreezethaw frozen => exact Option.some.inj hstep ▸ H

end

/-- Staged works in order, as `hash_push` sorts them whenever it has added one. -/
structure Queue extends Staging where
  sorted : toStaging.Sorted

/-- Every run leads to one. -/
theorem sorted_of_exec {frozen : Bool} {poolGoal goalMalgo : ℕ → ℕ} {goalRefs : ℕ → ℤ}
    {es : List Event} {s : Staging}
    (H : Run.exec step (init frozen poolGoal goalMalgo goalRefs) es = some s) : s.Sorted := by
  have hstart : (init frozen poolGoal goalMalgo goalRefs).Sorted := List.Pairwise.nil
  exact Run.exec_of_invariant (fun _ _ _ hs hstep => Sorted.step hs hstep) hstart H

/-- In a list in order, the first element with a property is one whose key is less than that of
all others with it. -/
theorem find?_eq_some_of_least {α : Type*} {key : α → ℤ} {p : α → Bool} {l : List α} {x : α}
    (hsorted : l.Pairwise fun a b => key a ≤ key b) (hmem : x ∈ l) (hx : p x = true)
    (hleast : ∀ y ∈ l, p y = true → y = x ∨ key x < key y) : l.find? p = some x := by
  induction l with
  | nil => cases hmem
  | cons y l ih =>
      obtain ⟨hhead, htail⟩ := List.pairwise_cons.mp hsorted
      by_cases hy : p y = true
      · rw [List.find?_cons_of_pos hy, Option.some.injEq]
        rcases hleast y List.mem_cons_self hy with heq | hlt
        · exact heq
        · rcases List.mem_cons.mp hmem with heq | hmem
          · exact heq.symm
          · have hle := hhead x hmem
            omega
      · rw [List.find?_cons_of_neg hy]
        have hne : x ≠ y := fun heq => hy (heq ▸ hx)
        exact ih htail ((List.mem_cons.mp hmem).resolve_left hne)
          fun z hz => hleast z (List.mem_cons_of_mem y hz)

/-! ## A detour -/

/-- The work that `clone_available` rolls. -/
theorem rollFirst_append {env : RollEnv} {front : List StagedWork} {work : StagedWork}
    (hfront : ∀ w ∈ front, (canRoll env w && env.shouldRoll w) = false)
    (hwork : (canRoll env work && env.shouldRoll work) = true) (totalWork : ℕ)
    (rest : List StagedWork) : rollFirst env totalWork (front ++ work :: rest) =
      some (front ++ (rollAndClone env totalWork work).1 :: rest,
        (rollAndClone env totalWork work).2) := by
  induction front with
  | nil => simp only [List.nil_append, rollFirst, hwork, if_true]
  | cons w front ih =>
      obtain ⟨hw, hrest⟩ := List.forall_mem_cons.mp hfront
      simp only [List.cons_append, rollFirst, hw, ih hrest, Bool.false_eq_true, if_false,
        Option.map_some]

/-- Some work before one that may be rolled is the first. -/
theorem exists_first_roll {env : RollEnv} {front : List StagedWork}
    (H : ¬ ∀ w ∈ front, (canRoll env w && env.shouldRoll w) = false) :
    ∃ front' work rest', front = front' ++ work :: rest' ∧
      (∀ w ∈ front', (canRoll env w && env.shouldRoll w) = false) ∧
        (canRoll env work && env.shouldRoll work) = true := by
  induction front with
  | nil => exact absurd (fun w hw => by cases hw) H
  | cons w front ih =>
      by_cases hw : (canRoll env w && env.shouldRoll w) = true
      · exact ⟨[], w, front, rfl, fun w hw => (by cases hw), hw⟩
      · rw [Bool.not_eq_true] at hw
        rw [List.forall_mem_cons, not_and] at H
        obtain ⟨front', work, rest', hfront, hno, hwork⟩ := ih (H hw)
        exact ⟨w :: front', work, rest', by rw [hfront, List.cons_append],
          List.forall_mem_cons.mpr ⟨hw, hno⟩, hwork⟩

/-- A clone is not rolled again. -/
theorem canRoll_rollAndClone (env env' : RollEnv) (totalWork : ℕ) (work : StagedWork) :
    canRoll env (rollAndClone env' totalWork work).2 = false := by
  have hclone : (rollAndClone env' totalWork work).2.clone = true := rfl
  rw [canRoll, hclone]
  split <;> rfl

section
variable {s : Staging} {env : RollEnv} {front rest : List StagedWork} {work : StagedWork}

/-- What a detour stages, where it stages something: a clone of the first work that may be
rolled. -/
theorem detour_eq (hstaged : s.staged = front ++ work :: rest)
    (hfront : ∀ w ∈ front, (canRoll env w && env.shouldRoll w) = false)
    (hwork : (canRoll env work && env.shouldRoll work) = true) :
    (s.detour env).1 = if s.stagedRollable ≠ 0 ∧ s.frozen = false then
      some (rollAndClone env s.totalWork work).2 else none := by
  have hroll := rollFirst_append hfront hwork s.totalWork rest
  rw [← hstaged] at hroll
  rw [detour, cloneAvailable]
  by_cases hzero : s.stagedRollable = 0
  · simp [hzero]
  · rw [if_neg hzero, hroll]
    cases hfrozen : s.frozen with
    | false => simp [hashPush, count, hzero]
    | true => simp [hashPush, count, hzero]

/-- The queue after a detour that stages something. -/
theorem staged_detour (hstaged : s.staged = front ++ work :: rest)
    (hfront : ∀ w ∈ front, (canRoll env w && env.shouldRoll w) = false)
    (hwork : (canRoll env work && env.shouldRoll work) = true) (hzero : s.stagedRollable ≠ 0)
    (hfrozen : s.frozen = false) :
    (s.detour env).2.staged = addStaged (front ++ (rollAndClone env s.totalWork work).1 :: rest)
        (rollAndClone env s.totalWork work).2 ∧
      (s.detour env).2.goalMalgo = s.goalMalgo ∧ (s.detour env).2.poolGoal = s.poolGoal := by
  have hroll := rollFirst_append hfront hwork s.totalWork rest
  rw [← hstaged] at hroll
  rw [detour, cloneAvailable, if_neg hzero, hroll]
  simp [hashPush, count, hfrozen]

variable {D : Type*} [LinearOrder D] [Zero D] {proc : Worker D}

theorem mineable_clone (env : RollEnv) (totalWork : ℕ) (work : StagedWork) :
    s.Mineable proc (rollAndClone env totalWork work).2 ↔ s.Mineable proc work := Iff.rfl

/-- A clone is a second older than the work that it was made of, and so comes before all works
for the processor. -/
theorem chosen_detour (hsorted : s.Sorted) (hstaged : s.staged = front ++ work :: rest)
    (hfront : ∀ w ∈ front, ¬ s.Mineable proc w) (hmine : s.Mineable proc work)
    (hno : ∀ w ∈ front, (canRoll env w && env.shouldRoll w) = false)
    (hwork : (canRoll env work && env.shouldRoll work) = true) (hzero : s.stagedRollable ≠ 0)
    (hfrozen : s.frozen = false) :
    (s.detour env).2.chosen proc = some (rollAndClone env s.totalWork work).2 := by
  obtain ⟨hdetour, hmalgo, hgoal⟩ := staged_detour hstaged hno hwork hzero hfrozen
  have hsame : ∀ w, (s.detour env).2.Mineable proc w ↔ s.Mineable proc w := by
    intro w
    rw [Mineable, Mineable, minDiff, minDiff, workMiningAlgorithm, workMiningAlgorithm, hmalgo,
      hgoal]
  simp only [chosen_eq, hsame, hdetour]
  rw [Sorted, hstaged, List.pairwise_append, List.pairwise_cons] at hsorted
  have hclone := (mineable_clone env s.totalWork work).mpr hmine
  refine find?_eq_some_of_least (pairwise_addStaged _ _) ?_ (by simpa using hclone) ?_
  · exact (perm_addStaged _ _).mem_iff.mpr List.mem_cons_self
  · intro w hw hmine
    rw [decide_eq_true_eq] at hmine
    rw [(perm_addStaged _ _).mem_iff, List.mem_cons, List.mem_append, List.mem_cons] at hw
    have hage : (rollAndClone env s.totalWork work).2.tvStaged = work.tvStaged - 1 := rfl
    rcases hw with heq | hw | heq | hw
    · exact Or.inl heq
    · exact absurd hmine (hfront w hw)
    · right
      have hrolled : w.tvStaged = work.tvStaged := by rw [heq]; rfl
      omega
    · right
      have hle := hsorted.2.1.1 w hw
      omega

/-! ## All the turns -/

variable {s' : Staging}

theorem popLoop_of_took (H : s.popTurn env (s.chosen proc) = (.took work, s')) (detours : ℕ) :
    popLoop proc env detours s = ⟨[], .took work, s'⟩ := by
  cases detours with
  | zero => rw [popLoop, H]
  | succ detours => rw [popLoop, H]

theorem popLoop_succ_of_clone (H : s.popTurn env (s.chosen proc) = (.clone, s')) (detours : ℕ) :
    popLoop proc env (detours + 1) s =
      { popLoop proc env detours (s'.detour env).2 with
        clones := (s'.detour env).1 :: (popLoop proc env detours (s'.detour env).2).clones } := by
  rw [popLoop, H]

/-- What is done with the first work for the processor. -/
theorem popTurn_chosen (hstaged : s.staged = front ++ work :: rest)
    (hfront : ∀ w ∈ front, ¬ s.Mineable proc w) (hmine : s.Mineable proc work) :
    s.popTurn env (s.chosen proc) =
      if canRoll env work && env.shouldRoll work then (.clone, s)
      else (.took work, s.unstageWork work) := by
  rw [chosen_eq_some_iff.mpr ⟨hmine, front, rest, hstaged, hfront⟩, popTurn]

/-- As many detours as there are works for the processor are one at least. -/
theorem exists_countP_eq (hstaged : s.staged = front ++ work :: rest)
    (hmine : s.Mineable proc work) :
    ∃ detours, (s.staged.countP fun w => s.Mineable proc w) = detours + 1 := by
  apply Nat.exists_eq_succ_of_ne_zero
  apply Nat.pos_iff_ne_zero.mp
  exact List.countP_pos_iff.mpr ⟨work, by simp [hstaged], by simpa using hmine⟩

/-- The first detour shows which work is rolled. -/
theorem rollsOwn_of_popsSoon (H : s.PopsSoon proc env) : s.RollsOwn proc env := by
  intro front work rest hstaged hfront hmine hroll
  have hturn : s.popTurn env (s.chosen proc) = (.clone, s) := by
    rw [popTurn_chosen hstaged hfront hmine, if_pos hroll]
  obtain ⟨-, hclones⟩ := H ⟨work, by simp [hstaged], hmine⟩
  obtain ⟨detours, hdetours⟩ := exists_countP_eq hstaged hmine
  rw [hdetours, popLoop_succ_of_clone hturn] at hclones
  obtain ⟨clone, hclone, hmineable⟩ := hclones _ List.mem_cons_self
  have hown : ∀ w ∈ front, (canRoll env w && env.shouldRoll w) = false := by
    by_contra hother
    -- the first of them is rolled, which is not for the processor
    obtain ⟨front', other, rest', rfl, hno, hfirst⟩ := exists_first_roll hother
    have hstaged' : s.staged = front' ++ other :: (rest' ++ work :: rest) := by
      rw [hstaged, List.append_assoc, List.cons_append]
    rw [detour_eq hstaged' hno hfirst] at hclone
    split at hclone
    · rw [← Option.some.inj hclone, mineable_clone] at hmineable
      exact hfront other (by simp) hmineable
    · cases hclone
  rw [detour_eq hstaged hown hroll] at hclone
  split at hclone
  next hstages => exact ⟨hstages.1, hstages.2, hown⟩
  next => cases hclone

/-- The clone of the work that was chosen is found in the next turn, and is taken. -/
theorem popsSoon_of_rollsOwn (hsorted : s.Sorted) (H : s.RollsOwn proc env) :
    s.PopsSoon proc env := by
  intro hexists
  obtain ⟨work, hchosen⟩ := exists_chosen_iff.mpr hexists
  obtain ⟨hmine, front, rest, hstaged, hfront⟩ := chosen_eq_some_iff.mp hchosen
  by_cases hroll : (canRoll env work && env.shouldRoll work) = true
  · have hturn : s.popTurn env (s.chosen proc) = (.clone, s) := by
      rw [popTurn_chosen hstaged hfront hmine, if_pos hroll]
    obtain ⟨hzero, hfrozen, hno⟩ := H front work rest hstaged hfront hmine hroll
    have hclone := chosen_detour hsorted hstaged hfront hmine hno hroll hzero hfrozen
    have hnext : (s.detour env).2.popTurn env ((s.detour env).2.chosen proc) =
        (.took (rollAndClone env s.totalWork work).2,
          (s.detour env).2.unstageWork (rollAndClone env s.totalWork work).2) := by
      rw [hclone, popTurn, canRoll_rollAndClone]
      rfl
    obtain ⟨detours, hdetours⟩ := exists_countP_eq hstaged hmine
    rw [hdetours, popLoop_succ_of_clone hturn, popLoop_of_took hnext]
    refine ⟨⟨_, rfl⟩, ?_⟩
    intro c hc
    rw [List.mem_singleton] at hc
    refine ⟨_, ?_, (mineable_clone env s.totalWork work).mpr hmine⟩
    rw [hc, detour_eq hstaged hno hroll, if_pos ⟨hzero, hfrozen⟩]
  · have hturn : s.popTurn env (s.chosen proc) = (.took work, s.unstageWork work) := by
      rw [popTurn_chosen hstaged hfront hmine, if_neg hroll]
    rw [popLoop_of_took hturn]
    exact ⟨⟨work, rfl⟩, fun c hc => by cases hc⟩

/-- Where the works are counted right, `staged_rollable` misses no work without a template. -/
theorem stagedRollable_ne_zero (H : s.Counts) (hmem : work ∈ s.staged)
    (hroll : canRoll env work = true) (htr : work.tr = false) : s.stagedRollable ≠ 0 := by
  have hrollable : workRollable work = true := by
    simp only [canRoll, htr, Bool.false_eq_true, if_false] at hroll
    split at hroll
    · cases hroll
    · split at hroll
      · cases hroll
      next hclone =>
        simp only [Bool.and_eq_true] at hroll
        rw [workRollable, hroll.1.1, Bool.and_true]
        simpa using hclone
  have hpos : 0 < s.staged.countP workRollable := List.countP_pos_iff.mpr ⟨work, hmem, hrollable⟩
  rw [H.rollable]
  omega

end

/-- **When `hash_pop` does not go on trying**: it returns after one detour at most, unless the
work that it has chosen may be rolled and is not the one that `clone_available` rolls. -/
theorem popsSoon_iff {D : Type*} [LinearOrder D] [Zero D] (proc : Worker D) (env : RollEnv)
    (s : Queue) : s.PopsSoon proc env ↔ s.RollsOwn proc env :=
  ⟨rollsOwn_of_popsSoon, popsSoon_of_rollsOwn s.sorted⟩

/-- A processor that cannot work at the algorithm 0. -/
def otherWorker : Worker ℤ :=
  { anyWorker with minNonceDiff := fun malgo => if malgo = 0 then -1 else 1 }

/-- Every work is fresh enough to be rolled. -/
def rollAlways : RollEnv where
  staleWork _ := false
  shouldRoll _ := true
  workLeft _ := false
  nextData work := work.data

/-- Two works that may be rolled, for the algorithms 0 and 1. -/
def twoRollable : Queue where
  staged := [receivedWork 60, { receivedWork 60 with id := 1, pool := 1 }]
  malgoStaged := fun malgo => if malgo < 2 then 1 else 0
  stagedRollable := 2
  stagedSpare := 0
  totalWork := 2
  frozen := false
  poolGoal := id
  nextGoalMalgo := fun _ => none
  goalMalgo := id
  goalRefs := fun _ => 1
  sorted := by simp [Sorted, receivedWork]

/-- The processor is after the second work, and clones of the first are staged for it. -/
theorem not_popsSoon_twoRollable : ¬ twoRollable.PopsSoon otherWorker rollAlways := by
  intro H
  obtain ⟨-, -, hno⟩ := rollsOwn_of_popsSoon H [receivedWork 60]
    { receivedWork 60 with id := 1, pool := 1 } [] rfl (by decide) (by decide) (by decide)
  exact absurd (hno _ List.mem_cons_self) (by decide)

end Staging

end MassGridMiner

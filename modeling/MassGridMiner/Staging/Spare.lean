import MassGridMiner.Staging.Counters

/-!
# Spare works

When enough works are staged, the scheduler makes a spare one for an algorithm that is short of
its own: `spare` is set on a fresh record before it is known how the work will be made.  A job of
a stratum pool is put into the record after it has been wiped, and a work that is rolled or
cloned takes the place of the record with the mark that it had itself.

## Main definitions

* `totalStaged` — the count that decides whether work is made.
* `SparePath`, `SparePath.step` — the way of a spare work to the queue.
* `StagesSpare` — it is marked, and counted as spare.
* `KeepsMark` — when a way of making it keeps the mark.
-/

namespace MassGridMiner

/-- `__total_staged`. -/
def Staging.totalStaged (s : Staging) (includeSpares : Bool) : ℤ :=
  if includeSpares then s.staged.length else s.staged.length - s.stagedSpare

/-- What a work is filled with, whoever it comes from. -/
structure WorkData where
  data : Bytes 128
  rolltime : ℤ
  tr : Bool
  workDifficulty : Float
  tvStaged : ℤ

namespace SparePath

/-- `make_work`: the memory is zero, and the work gets a number. -/
def makeWork (totalWork : ℕ) : StagedWork where
  id := totalWork
  data := .replicate 128 0
  rolls := 0
  rolltime := 0
  clone := false
  spare := false
  stratum := false
  tr := false
  pool := 0
  workDifficulty := 0
  tvStaged := 0

/-- `clean_work`. -/
def cleanWork (_work : StagedWork) : StagedWork := makeWork 0

/-- `gen_stratum_work`. -/
def genStratumWork (made : WorkData) (pool totalWork : ℕ) (work : StagedWork) : StagedWork :=
  { cleanWork work with
    id := totalWork
    data := made.data
    stratum := true
    tr := made.tr
    pool := pool
    workDifficulty := made.workDifficulty
    tvStaged := made.tvStaged }

/-- `get_benchmark_work`; its pool is the first one. -/
def getBenchmarkWork (made : WorkData) (useSwork : Bool) (totalWork : ℕ) (work : StagedWork) :
    StagedWork :=
  if useSwork then genStratumWork made 0 totalWork work
  else
    { work with
      data := made.data
      pool := 0
      workDifficulty := made.workDifficulty
      tvStaged := made.tvStaged }

/-- `get_upstream_work`, as far as it is about the work. -/
def getUpstreamWork (made : WorkData) (pool : ℕ) (work : StagedWork) : StagedWork :=
  { work with
    data := made.data
    rolltime := made.rolltime
    tr := made.tr
    pool := pool
    workDifficulty := made.workDifficulty
    tvStaged := made.tvStaged }

end SparePath

/-- Where the scheduler is with a spare work: it has a record and a pool behind the label
`retry`, or a work that it hands to `stage_work`. -/
inductive SparePlace
  | idle
  | retry (work : StagedWork) (pool : ℕ)
  | staging (work : StagedWork)

/-- The queue, the last work of each pool with a template, and that place. -/
structure SparePath where
  queue : Staging
  lastWorkCopy : ℕ → Option StagedWork
  place : SparePlace

/-- What decides how a work is made: the pool, whether its last work is kept although it cannot
be rolled, whether this is a benchmark and an intense one, what the work is filled with, whether
the request succeeds, and the pool that `select_pool` gives for another try. -/
structure PoolTry where
  hasStratum : Bool
  stratumReady : Bool
  env : RollEnv
  keepsLastWork : Bool
  optBenchmark : Bool
  optBenchmarkIntense : Bool
  made : WorkData
  succeeds : Bool
  nextPool : ℕ

/-- The steps of the scheduler, and of the other threads. -/
inductive SpareEvent
  | begin (malgo pool : ℕ) (maxStaged baseQueue optQueue : ℕ)
  | attempt (pool : PoolTry)
  | stageWork
  | queue (e : Staging.Event)
  | updateLastWork (pool : ℕ) (work : Option StagedWork)

namespace SparePath

/-- More works are staged than are asked for, and fewer for this algorithm. -/
def Short (s : SparePath) (malgo maxStaged baseQueue optQueue : ℕ) : Prop :=
  (maxStaged : ℤ) < s.queue.totalStaged false ∧ s.queue.goalRefs malgo ≠ 0 ∧ baseQueue ≠ 0 ∧
    s.queue.malgoStaged malgo < baseQueue + optQueue

instance (s : SparePath) (malgo maxStaged baseQueue optQueue : ℕ) :
    Decidable (s.Short malgo maxStaged baseQueue optQueue) :=
  inferInstanceAs (Decidable (_ ∧ _ ∧ _ ∧ _))

/-- A number is given to a work. -/
def count (s : SparePath) : SparePath :=
  { s with queue := { s.queue with totalWork := s.queue.totalWork + 1 } }

def setLastWork (s : SparePath) (pool : ℕ) (work : Option StagedWork) : SparePath :=
  { s with lastWorkCopy := Function.update s.lastWorkCopy pool work }

/-- Behind the last work, a work is cloned, made for a benchmark, or asked for. -/
def obtain (s : SparePath) (work : StagedWork) (p : ℕ) (pool : PoolTry) : SparePath :=
  match Staging.cloneAvailable pool.env s.queue with
  | (some clone, queue) => { s with queue, place := .staging clone }
  | (none, queue) =>
    let s := { s with queue }
    if pool.optBenchmark then
      { s.count with
        place := .staging
          (getBenchmarkWork pool.made pool.optBenchmarkIntense queue.totalWork work) }
    else
      let work := getUpstreamWork pool.made p work
      if pool.succeeds then
        -- `update_last_work` keeps a copy of a work with a template
        let s := if work.tr then (s.setLastWork p (some { work with id := queue.totalWork })).count
          else s
        { s with place := .staging work }
      else { s with place := .retry work pool.nextPool }

/-- The body of the loop behind the label `retry`. -/
def attempt (s : SparePath) (work : StagedWork) (p : ℕ) (pool : PoolTry) : SparePath :=
  if pool.hasStratum then
    if !pool.stratumReady then { s with place := .retry work pool.nextPool }
    else
      { s.count with place := .staging (genStratumWork pool.made p s.queue.totalWork work) }
  else
    match s.lastWorkCopy p with
    | none => s.obtain work p pool
    | some lastWork =>
      if canRoll pool.env lastWork && pool.env.shouldRoll lastWork then
        let clone := makeClone s.queue.totalWork lastWork
        { s.count.count with
          place := .staging (rollWork pool.env (s.queue.totalWork + 1) clone) }
      else if lastWork.tr && pool.keepsLastWork then s.obtain work p pool
      else (s.setLastWork p none).obtain work p pool

/-- `work->spare = true` on a fresh record. -/
def begin (s : SparePath) (pool : ℕ) : SparePath :=
  { s.count with place := .retry { makeWork s.queue.totalWork with spare := true } pool }

def step (s : SparePath) : SpareEvent → Option SparePath
  | .begin malgo pool maxStaged baseQueue optQueue =>
    match s.place with
    | .idle =>
      if s.Short malgo maxStaged baseQueue optQueue then some (s.begin pool) else none
    | _ => none
  | .attempt pool =>
    match s.place with
    | .retry work p => some (s.attempt work p pool)
    | _ => none
  | .stageWork =>
    match s.place with
    | .staging work => some { s with queue := (s.queue.hashPush work).2, place := .idle }
    | _ => none
  | .queue e => (s.queue.step e).map fun queue => { s with queue }
  | .updateLastWork pool work => some (s.setLastWork pool work)

/-- The work that is handed to `stage_work` is spare: `hash_push` counts it as such, and if it puts
it into the queue, the count of the others stays. -/
structure StagesSpare (s : SparePath) : Prop where
  spare : ∀ work, s.place = .staging work → work.spare = true
  counted : ∀ work, s.place = .staging work →
    (s.queue.hashPush work).2.stagedSpare = s.queue.stagedSpare + 1
  ordinary : ∀ work, s.place = .staging work → (s.queue.hashPush work).1 = true →
    (s.queue.hashPush work).2.totalStaged false = s.queue.totalStaged false

/-- The mark is kept: the pool has no stratum job to make the work from; the last work of the pool,
if it is rolled, is spare, and else the first staged work that can be; and a benchmark is not
an intense one. -/
def KeepsMark (s : SparePath) (p : ℕ) (pool : PoolTry) : Prop :=
  if pool.hasStratum then pool.stratumReady = false
  else
    let rolled := fun work => canRoll pool.env work && pool.env.shouldRoll work
    match (s.lastWorkCopy p).filter rolled with
    | some lastWork => lastWork.spare = true
    | none =>
      match if s.queue.stagedRollable = 0 then none else s.queue.staged.find? rolled with
      | some work => work.spare = true
      | none => pool.optBenchmark = true → pool.optBenchmarkIntense = false

/-- The condition on a step. -/
def Keeps (s : SparePath) : SpareEvent → Prop
  | .attempt pool => ∀ work p, s.place = .retry work p → s.KeepsMark p pool
  | _ => True

/-- While it is made, the work is marked. -/
def Marked (s : SparePath) : Prop := ∀ work p, s.place = .retry work p → work.spare = true

/-! ## The count -/

section
variable {s s' : SparePath} {work : StagedWork} {p : ℕ} {pool : PoolTry}

theorem stagedSpare_hashPush (queue : Staging) (H : work.spare = true) :
    (queue.hashPush work).2.stagedSpare = queue.stagedSpare + 1 := by
  rw [Staging.hashPush]
  split <;> simp [Staging.count, H]

theorem totalStaged_hashPush (queue : Staging) (H : work.spare = true)
    (hpushed : (queue.hashPush work).1 = true) :
    (queue.hashPush work).2.totalStaged false = queue.totalStaged false := by
  have hfrozen : queue.frozen = false := by
    by_contra hfrozen
    rw [Bool.not_eq_false] at hfrozen
    simp [Staging.hashPush, Staging.count, hfrozen] at hpushed
  have hlen : (addStaged queue.staged work).length = queue.staged.length + 1 :=
    (perm_addStaged queue.staged work).length_eq
  simp only [Staging.hashPush, Staging.count, hfrozen, Bool.not_false, if_true,
    Staging.totalStaged, Bool.false_eq_true, if_false, H, hlen]
  push_cast
  ring

/-- All that matters is the mark. -/
theorem stagesSpare_iff : s.StagesSpare ↔
    ∀ work, s.place = .staging work → work.spare = true := by
  constructor
  · intro H
    exact H.spare
  · intro H
    exact ⟨H, fun work hwork => stagedSpare_hashPush _ (H work hwork),
      fun work hwork hpushed => totalStaged_hashPush _ (H work hwork) hpushed⟩

section
variable (queue : Staging) (lastWorkCopy : ℕ → Option StagedWork)

@[simp] theorem stagesSpare_staging :
    StagesSpare ⟨queue, lastWorkCopy, .staging work⟩ ↔ work.spare = true := by
  rw [stagesSpare_iff]
  constructor
  · intro hall
    exact hall work rfl
  · intro hspare w hw
    obtain rfl := SparePlace.staging.inj hw
    exact hspare

@[simp] theorem stagesSpare_retry : StagesSpare ⟨queue, lastWorkCopy, .retry work p⟩ := by
  rw [stagesSpare_iff]
  intro w hw
  cases hw

@[simp] theorem stagesSpare_idle : StagesSpare ⟨queue, lastWorkCopy, .idle⟩ := by
  rw [stagesSpare_iff]
  intro w hw
  cases hw

@[simp] theorem marked_staging : Marked ⟨queue, lastWorkCopy, .staging work⟩ := by
  intro w q hw
  cases hw

@[simp] theorem marked_retry :
    Marked ⟨queue, lastWorkCopy, .retry work p⟩ ↔ work.spare = true := by
  constructor
  · intro hall
    exact hall work p rfl
  · intro hspare w q hw
    obtain ⟨rfl, -⟩ := SparePlace.retry.inj hw
    exact hspare

@[simp] theorem marked_idle : Marked ⟨queue, lastWorkCopy, .idle⟩ := by
  intro w q hw
  cases hw

end

/-! ## Ways to make a work -/

/-- The clone of `clone_available` has the mark of the first work that can be rolled. -/
theorem cloneAvailable_spare (env : RollEnv) (queue : Staging) :
    (Staging.cloneAvailable env queue).1.map StagedWork.spare =
      (if queue.stagedRollable = 0 then none
        else queue.staged.find? fun work => canRoll env work && env.shouldRoll work).map
        StagedWork.spare := by
  rw [Staging.cloneAvailable]
  split
  · rfl
  next =>
    have hfirst : ∀ staged, (rollFirst env queue.totalWork staged).map (fun r => r.2.spare) =
        (staged.find? fun work => canRoll env work && env.shouldRoll work).map
          StagedWork.spare := by
      intro staged
      induction staged with
      | nil => rfl
      | cons work rest ih =>
          rw [rollFirst]
          cases hroll : canRoll env work && env.shouldRoll work with
          | true => simp [hroll, rollAndClone, makeClone, rollWork]
          | false =>
              rw [List.find?_cons, hroll, ← ih, if_neg Bool.false_ne_true, Option.map_map]
              rfl
    rw [← hfirst]
    cases rollFirst env queue.totalWork queue.staged <;> rfl

/-- What is staged behind the last work is spare exactly where a clone has the mark, or the record
has kept it. -/
theorem obtain_spec (s : SparePath) (p : ℕ) (pool : PoolTry) (hspare : work.spare = true) :
    ((s.obtain work p pool).StagesSpare ↔
      match if s.queue.stagedRollable = 0 then none
        else s.queue.staged.find? fun work => canRoll pool.env work && pool.env.shouldRoll work with
      | some work => work.spare = true
      | none => pool.optBenchmark = true → pool.optBenchmarkIntense = false) ∧
    (s.obtain work p pool).Marked := by
  have hclone := cloneAvailable_spare pool.env s.queue
  rw [obtain]
  rcases hresult : Staging.cloneAvailable pool.env s.queue with ⟨_ | clone, queue⟩
  · rw [hresult] at hclone
    rw [Option.map_eq_none_iff.mp hclone.symm]
    dsimp only
    cases hbench : pool.optBenchmark with
    | true =>
        rw [if_pos rfl, getBenchmarkWork]
        cases hintense : pool.optBenchmarkIntense with
        | true =>
            simp [genStratumWork, cleanWork, makeWork]
        | false => simp [hspare]
    | false =>
        have hkept : (getUpstreamWork pool.made p work).spare = true := hspare
        rw [if_neg Bool.false_ne_true]
        cases pool.succeeds with
        | true =>
            rw [if_pos rfl]
            simp [hkept]
        | false =>
            rw [if_neg Bool.false_ne_true]
            simp [hkept]
  · rw [hresult, Option.map_some] at hclone
    obtain ⟨first, hfirst, heq⟩ := Option.map_eq_some_iff.mp hclone.symm
    rw [hfirst]
    simp [heq]

/-- **A try stages a spare work exactly where the mark is kept**; where another try follows, the
record is still marked. -/
theorem attempt_spec (s : SparePath) (p : ℕ) (pool : PoolTry) (hspare : work.spare = true) :
    ((s.attempt work p pool).StagesSpare ↔ s.KeepsMark p pool) ∧
      (s.attempt work p pool).Marked := by
  rw [attempt, KeepsMark]
  cases hstratum : pool.hasStratum with
  | true =>
      rw [if_pos rfl, if_pos rfl]
      cases hready : pool.stratumReady with
      | false => simp [hspare]
      | true => simp [genStratumWork, cleanWork, makeWork]
  | false =>
      rw [if_neg Bool.false_ne_true, if_neg Bool.false_ne_true]
      cases hlast : s.lastWorkCopy p with
      | none => exact obtain_spec s p pool hspare
      | some lastWork =>
          dsimp only
          rw [Option.filter_some]
          cases hroll : canRoll pool.env lastWork && pool.env.shouldRoll lastWork with
          | true =>
              rw [if_pos rfl, if_pos rfl]
              simp [makeClone, rollWork]
          | false =>
              rw [if_neg Bool.false_ne_true, if_neg Bool.false_ne_true]
              split
              · exact obtain_spec s p pool hspare
              · exact obtain_spec (s.setLastWork p none) p pool hspare

/-! ## Runs -/

/-- Steps that leave the scheduler where it is. -/
theorem StagesSpare.of_place (H : s.StagesSpare) (hplace : s'.place = s.place) :
    s'.StagesSpare := by
  rw [stagesSpare_iff, hplace]
  exact H.spare

theorem Marked.of_place (H : s.Marked) (hplace : s'.place = s.place) : s'.Marked := by
  rw [Marked, hplace]
  exact H

/-- **Steps.** -/
theorem step_spec {e : SpareEvent} (H : s.StagesSpare) (hmarked : s.Marked)
    (hstep : s.step e = some s') : (s'.StagesSpare ↔ s.Keeps e) ∧ s'.Marked := by
  cases e with
  | begin malgo pool maxStaged baseQueue optQueue =>
      rw [step] at hstep
      split at hstep
      · rw [Option.ite_none_right_eq_some] at hstep
        obtain rfl := Option.some.inj hstep.2
        simp [Keeps, SparePath.begin]
      · cases hstep
  | attempt pool =>
      rw [step] at hstep
      split at hstep
      next work p hplace =>
        obtain rfl := Option.some.inj hstep
        obtain ⟨hiff, hmark⟩ := attempt_spec s p pool (hmarked work p hplace)
        refine ⟨hiff.trans ?_, hmark⟩
        constructor
        · intro hkeeps w q hw
          obtain ⟨-, rfl⟩ := SparePlace.retry.inj (hplace.symm.trans hw)
          exact hkeeps
        · intro hkeeps
          exact hkeeps work p hplace
      · cases hstep
  | stageWork =>
      rw [step] at hstep
      split at hstep
      · obtain rfl := Option.some.inj hstep
        simp [Keeps]
      · cases hstep
  | queue e =>
      obtain ⟨queue, -, rfl⟩ := Option.map_eq_some_iff.mp hstep
      exact ⟨⟨fun _ => trivial, fun _ => H.of_place rfl⟩, hmarked.of_place rfl⟩
  | updateLastWork pool work =>
      obtain rfl := Option.some.inj hstep
      exact ⟨⟨fun _ => trivial, fun _ => H.of_place rfl⟩, hmarked.of_place rfl⟩

end

/-- **In a run, all that the spare path stages is spare exactly when each try keeps the mark.** -/
theorem allSteps_stagesSpare_iff {s : SparePath} (hidle : s.place = .idle)
    (es : List SpareEvent) :
    Run.AllSteps step (fun _ _ s' => s'.StagesSpare) s es ↔
      Run.AllSteps step (fun s e _ => s.Keeps e) s es := by
  refine Run.allSteps_congr (P := fun _ _ s' => s'.StagesSpare) (Q := fun s e _ => s.Keeps e)
    (I := fun s => s.StagesSpare ∧ s.Marked)
    (fun _ _ _ hI hstep => (step_spec hI.1 hI.2 hstep).1)
    (fun _ _ _ hI hstep hstages => ⟨hstages, (step_spec hI.1 hI.2 hstep).2⟩) es ⟨?_, ?_⟩
  · rw [stagesSpare_iff, hidle]
    intro work hwork
    cases hwork
  · intro work p hwork
    rw [hidle] at hwork
    cases hwork

/-- Two works of one algorithm are staged, and none of another. -/
def twoStaged : SparePath where
  queue :=
    { Staging.init false id id fun _ => 1 with
      staged := [{ receivedWork 0 with pool := 1 }, { receivedWork 0 with id := 1, pool := 1 }]
      malgoStaged := fun m => if m = 1 then 2 else 0
      totalWork := 2 }
  lastWorkCopy := fun _ => none
  place := .idle

/-- A pool that gives such work, by stratum or on request. -/
def givesWork (hasStratum : Bool) : PoolTry where
  hasStratum := hasStratum
  stratumReady := hasStratum
  env := ⟨fun _ => false, fun _ => false, fun _ => false, fun work => work.data⟩
  keepsLastWork := false
  optBenchmark := false
  optBenchmarkIntense := false
  made := ⟨.replicate 128 0, 0, false, 1, 0⟩
  succeeds := true
  nextPool := 0

theorem begin_twoStaged : twoStaged.step (.begin 0 0 1 1 0) = some (twoStaged.begin 0) := by
  have hshort : twoStaged.Short 0 1 1 0 := by decide
  rw [step]
  exact if_pos hshort

/-- The work of a stratum pool is not marked any more. -/
theorem not_stagesSpare_stratum : ¬ Run.AllSteps step (fun _ _ s' => s'.StagesSpare) twoStaged
    [.begin 0 0 1 1 0, .attempt (givesWork true)] := by
  intro H
  have hlast := ((H _ begin_twoStaged).2 _ rfl).1
  exact absurd (hlast.spare _ rfl) (by decide)

/-- That of a pool that is asked for it is. -/
theorem stagesSpare_getwork : Run.AllSteps step (fun _ _ s' => s'.StagesSpare) twoStaged
    [.begin 0 0 1 1 0, .attempt (givesWork false), .stageWork] := by
  refine (allSteps_stagesSpare_iff rfl _).mpr
    (Run.allSteps_cons_of_eq begin_twoStaged trivial (Run.allSteps_cons_of_eq rfl ?_
      (Run.allSteps_cons_of_eq rfl trivial trivial)))
  intro work p hplace
  obtain ⟨-, rfl⟩ := SparePlace.retry.inj hplace
  exact fun hbench => absurd hbench Bool.false_ne_true

end SparePath

end MassGridMiner

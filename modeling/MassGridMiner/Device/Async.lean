import MassGridMiner.Device.Enable
import MassGridMiner.Lib.Run
import Mathlib.Algebra.Order.Group.Multiset
import Mathlib.Data.Multiset.Range
import Mathlib.Tactic.Abel

/-!
# The works of an asynchronous processor

A processor has a work for the job that runs, one for the next job and one for the job before.
The loop of the miner moves them on together with the driver, whose callbacks answer when they
like.  Each function here is one step up to where it calls the driver, and what the driver does
then are the steps that follow.

## Main definitions

* `AsyncThr` — the thread: its works, and its flags.
* `AsyncThr.step` — what the loop and the driver do, in any order.
* `AsyncThr.Owned` — each work is in one place, or freed once.
* `AsyncThr.AbortIdle` — the condition: a job start is aborted only while no job runs.
-/

namespace MassGridMiner

/-- `enum thr_busy_state`. -/
inductive ThrBusyState
  | idle
  | gettingResults
  | startingJob
  deriving DecidableEq, Repr

/-- The part of `struct thr_info`, and of its processor, that the loop uses.  `tvMorework` says
that the timer is set.  `fresh` and `freed` are bookkeeping that no function reads: how many works
were obtained, which are numbered in turn, and which were freed. -/
structure AsyncThr where
  nextWork : Option ℕ
  work : Option ℕ
  prevWork : Option ℕ
  busyState : ThrBusyState
  startingNextWork : Bool
  jobTransitionInProgress : Bool
  proceedWithNewJob : Bool
  mtDisableCalled : Bool
  workRestart : Bool
  pause : Bool
  tvMorework : Bool
  deven : DevEnable
  fresh : ℕ
  freed : List ℕ

/-- What `get_and_prepare_work` comes to: there is no work; it is prepared; or its preparation
fails. -/
inductive GotWork
  | none
  | prepared
  | failed
  deriving DecidableEq

namespace AsyncThr

/-! ## The functions -/

/-- `free_work`, where there is one. -/
def freeWork (s : AsyncThr) (work : Option ℕ) : AsyncThr :=
  { s with freed := work.toList ++ s.freed }

/-- `mt_disable_start__async`. -/
def mtDisableStartAsync (s : AsyncThr) : AsyncThr :=
  let s := { s with mtDisableCalled := true }
  let s := s.freeWork s.prevWork
  { s with prevWork := s.work, work := .none, jobTransitionInProgress := false }

/-- `get_and_prepare_work`. -/
def getAndPrepareWork (s : AsyncThr) : GotWork → AsyncThr × Option ℕ
  | .none => (s, .none)
  | .prepared => ({ s with fresh := s.fresh + 1 }, some s.fresh)
  | .failed =>
    ({ s with fresh := s.fresh + 1, deven := .recoverErr }.freeWork (some s.fresh), .none)

/-- `do_job_prepare`, up to `job_prepare_complete`, with what it returns.  `abandon` is what
`abandon_work` says of the work of the running job. -/
def doJobPrepare (s : AsyncThr) (abandon : Bool) (got : GotWork) : AsyncThr × Bool :=
  let s := { s with tvMorework := false, jobTransitionInProgress := true }
  if s.work.isNone || abandon then
    let s := { s with workRestart := false }
    let s := s.freeWork s.nextWork
    let (s, work) := s.getAndPrepareWork got
    let s := { s with nextWork := work }
    if work.isNone then (s, false) else ({ s with startingNextWork := true }, true)
  else ({ s with startingNextWork := false }, true)

/-- `job_results_fetched`, where a new job is started by the driver. -/
def jobResultsFetched (s : AsyncThr) : AsyncThr :=
  if s.proceedWithNewJob then s else s.mtDisableStartAsync

/-- `do_get_results`; a driver without `job_get_results` has fetched them at once. -/
def doGetResults (s : AsyncThr) (jobGetResults proceed : Bool) : AsyncThr :=
  let s := { s with jobTransitionInProgress := true, proceedWithNewJob := proceed }
  if jobGetResults then s else s.jobResultsFetched

/-- `job_prepare_complete`, where a job is started by the driver if none runs. -/
def jobPrepareComplete (s : AsyncThr) (jobGetResults : Bool) : AsyncThr :=
  if s.busyState = .gettingResults then s
  else if s.work.isSome then s.doGetResults jobGetResults true
  else s

/-- `mt_job_transition`; with a next work that is not there, it dereferences a null pointer. -/
def mtJobTransition (s : AsyncThr) : Option AsyncThr :=
  if s.startingNextWork then
    match s.nextWork with
    | .none => .none
    | some next =>
      let s := s.freeWork s.prevWork
      some { s with
        prevWork := s.work
        work := some next
        nextWork := .none
        jobTransitionInProgress := false }
  else some { s with jobTransitionInProgress := false }

/-- `job_start_abort`. -/
def jobStartAbort (s : AsyncThr) (failure : Bool) : AsyncThr :=
  { s with
    deven := if failure then .recoverErr else s.deven
    work := .none
    jobTransitionInProgress := false }

/-! ## The loop -/

/-- What `minerloop_async` does at its label `disabled`. -/
def disabled (s : AsyncThr) (jobGetResults isRunning : Bool) : AsyncThr :=
  if isRunning then
    if s.busyState ≠ .gettingResults then s.doGetResults jobGetResults false
    else { s with proceedWithNewJob := false }
  else s.mtDisableStartAsync

/-- What it does at its label `djp`. -/
def djp (s : AsyncThr) (jobGetResults isRunning abandon : Bool) (got : GotWork) : AsyncThr :=
  let (s, rv) := s.doJobPrepare abandon got
  if rv then s else { s.disabled jobGetResults isRunning with tvMorework := false }

/-- One round of `minerloop_async`, up to the callbacks; `passed` says that the timer for more
work has passed, if it is set. -/
def round (s : AsyncThr) (jobGetResults passed abandon : Bool) (got : GotWork) : AsyncThr :=
  if s.busyState = .startingJob then s
  else
    let isRunning := s.work.isSome
    if s.deven = .enabled ∧ !s.pause then
      if !(isRunning || s.jobTransitionInProgress) then
        { s with mtDisableCalled := false }.djp jobGetResults isRunning abandon got
      else if s.workRestart || (s.tvMorework && passed) then
        s.djp jobGetResults isRunning abandon got
      else s
    else
      let s :=
        if s.jobTransitionInProgress && s.tvMorework then { s with jobTransitionInProgress := false }
        else s
      let s :=
        if (isRunning || !s.mtDisableCalled) && !s.jobTransitionInProgress then
          s.disabled jobGetResults isRunning
        else s
      { s with tvMorework := false }

/-! ## Runs -/

/-- What happens: the loop looks at the processor; a job is prepared; results are fetched; the
driver disables the thread, goes over to the next job, has started one, or aborts the start; and
the flags that others write are written. -/
inductive Event
  | round (jobGetResults passed abandon : Bool) (got : GotWork)
  | prepareComplete (jobGetResults : Bool)
  | resultsFetched
  | disableStart
  | transition
  | startComplete
  | startAbort (failure : Bool)
  | setDeven (deven : DevEnable)
  | setPause (pause : Bool)
  | restart
  | setBusyState (busyState : ThrBusyState)
  | setMorework (isSet : Bool)

/-- One event, or none at a null pointer. -/
def step (s : AsyncThr) : Event → Option AsyncThr
  | .round jobGetResults passed abandon got => some (s.round jobGetResults passed abandon got)
  | .prepareComplete jobGetResults => some (s.jobPrepareComplete jobGetResults)
  | .resultsFetched => some s.jobResultsFetched
  | .disableStart => some s.mtDisableStartAsync
  | .transition => s.mtJobTransition
  | .startComplete => some s
  | .startAbort failure => some (s.jobStartAbort failure)
  | .setDeven deven => some { s with deven }
  | .setPause pause => some { s with pause }
  | .restart => some { s with workRestart := true }
  | .setBusyState busyState => some { s with busyState }
  | .setMorework isSet => some { s with tvMorework := isSet }

/-- `allocate_cgpu` leaves the thread like this. -/
def init (deven : DevEnable) : AsyncThr where
  nextWork := .none
  work := .none
  prevWork := .none
  busyState := .idle
  startingNextWork := false
  jobTransitionInProgress := true
  proceedWithNewJob := false
  mtDisableCalled := false
  workRestart := false
  pause := false
  tvMorework := true
  deven := deven
  fresh := 0
  freed := []

/-! ## What is asked -/

/-- The works in a slot. -/
def inSlot (slot : Option ℕ) : Multiset ℕ := slot.toList

/-- The works that are held, in one of the slots, and those that were freed. -/
def accounted (s : AsyncThr) : Multiset ℕ :=
  inSlot s.nextWork + inSlot s.work + inSlot s.prevWork + s.freed

/-- Each work that was obtained is in exactly one slot, or freed exactly once. -/
def Owned (s : AsyncThr) : Prop := s.accounted = Multiset.range s.fresh

/-- The start of a job is aborted only while no job runs. -/
def AbortIdle (s : AsyncThr) (e : Event) (_ : AsyncThr) : Prop :=
  ∀ failure, e = .startAbort failure → s.work = .none

/-! ## The steps -/

variable {s s' : AsyncThr}

/-- The works are where they were, but for changes of place. -/
structure Kept (s s' : AsyncThr) : Prop where
  accounted : s'.accounted = s.accounted
  fresh : s'.fresh = s.fresh

theorem Kept.owned (h : Kept s s') (H : s.Owned) : s'.Owned := by
  rw [Owned, h.accounted, h.fresh]
  exact H

@[simp] theorem inSlot_none : inSlot .none = 0 := rfl

@[simp] theorem inSlot_some (work : ℕ) : inSlot (some work) = {work} := rfl

theorem coe_toList_append (work : Option ℕ) (freed : List ℕ) :
    ((work.toList ++ freed : List ℕ) : Multiset ℕ) = inSlot work + freed :=
  (Multiset.coe_add _ _).symm

theorem kept_mtDisableStartAsync (s : AsyncThr) : Kept s s.mtDisableStartAsync := by
  refine ⟨?_, rfl⟩
  simp only [accounted, mtDisableStartAsync, freeWork, coe_toList_append, inSlot_none]
  abel

theorem kept_jobResultsFetched (s : AsyncThr) : Kept s s.jobResultsFetched := by
  rw [jobResultsFetched]
  split
  · exact ⟨rfl, rfl⟩
  · exact kept_mtDisableStartAsync s

theorem kept_doGetResults (s : AsyncThr) (jobGetResults proceed : Bool) :
    Kept s (s.doGetResults jobGetResults proceed) := by
  rw [doGetResults]
  cases jobGetResults with
  | true => exact ⟨rfl, rfl⟩
  | false =>
      obtain ⟨haccounted, hfresh⟩ := kept_jobResultsFetched
        { s with jobTransitionInProgress := true, proceedWithNewJob := proceed }
      exact ⟨haccounted, hfresh⟩

theorem kept_disabled (s : AsyncThr) (jobGetResults isRunning : Bool) :
    Kept s (s.disabled jobGetResults isRunning) := by
  rw [disabled]
  split_ifs
  · exact kept_doGetResults s jobGetResults false
  · exact ⟨rfl, rfl⟩
  · exact kept_mtDisableStartAsync s

theorem kept_mtJobTransition (H : s.mtJobTransition = some s') : Kept s s' := by
  rw [mtJobTransition] at H
  split at H
  · cases hnext : s.nextWork with
    | none =>
        rw [hnext] at H
        cases H
    | some next =>
        rw [hnext] at H
        cases H
        refine ⟨?_, rfl⟩
        simp only [accounted, freeWork, coe_toList_append, inSlot_none, hnext]
        abel
  · cases H
    exact ⟨rfl, rfl⟩

/-- A work that is obtained is in the slot for the next job, or freed. -/
theorem owned_getAndPrepareWork (H : s.Owned) (hnext : s.nextWork = .none) (got : GotWork) :
    { (s.getAndPrepareWork got).1 with nextWork := (s.getAndPrepareWork got).2 }.Owned := by
  simp only [Owned, accounted, hnext, inSlot_none, zero_add] at H
  cases got with
  | none =>
      simp only [Owned, accounted, getAndPrepareWork, inSlot_none, zero_add, H]
  | prepared =>
      simp only [Owned, accounted, getAndPrepareWork, Multiset.range_succ, ← H,
        ← Multiset.singleton_add, inSlot_some]
      abel
  | failed =>
      simp only [Owned, accounted, getAndPrepareWork, freeWork, coe_toList_append, inSlot_none,
        Multiset.range_succ, ← H, zero_add, ← Multiset.singleton_add, inSlot_some]
      abel

/-- The work for the next job is freed before another is obtained. -/
theorem kept_freeNext (s : AsyncThr) : Kept s { s.freeWork s.nextWork with nextWork := .none } := by
  refine ⟨?_, rfl⟩
  simp only [accounted, freeWork, coe_toList_append, inSlot_none]
  abel

theorem owned_doJobPrepare (H : s.Owned) (abandon : Bool) (got : GotWork) :
    (s.doJobPrepare abandon got).1.Owned := by
  have hgot := owned_getAndPrepareWork ((kept_freeNext
    { s with tvMorework := false, jobTransitionInProgress := true, workRestart := false }).owned H)
    rfl got
  rw [doJobPrepare]
  dsimp only
  split
  · split
    · cases got <;> exact hgot
    · cases got <;> exact hgot
  · exact H

theorem owned_djp (H : s.Owned) (jobGetResults isRunning abandon : Bool) (got : GotWork) :
    (s.djp jobGetResults isRunning abandon got).Owned := by
  have hprepare := owned_doJobPrepare H abandon got
  rw [djp]
  dsimp only
  split
  · exact hprepare
  · exact (kept_disabled _ jobGetResults isRunning).owned hprepare

theorem owned_round (H : s.Owned) (jobGetResults passed abandon : Bool) (got : GotWork) :
    (s.round jobGetResults passed abandon got).Owned := by
  rw [round]
  split
  · exact H
  · dsimp only
    split
    · split
      · exact owned_djp (s := { s with mtDisableCalled := false }) H ..
      · split
        · exact owned_djp H ..
        · exact H
    · split
      · split
        · exact (kept_disabled _ jobGetResults _).owned H
        · exact H
      · split
        · exact (kept_disabled _ jobGetResults _).owned H
        · exact H

theorem kept_jobPrepareComplete (s : AsyncThr) (jobGetResults : Bool) :
    Kept s (s.jobPrepareComplete jobGetResults) := by
  rw [jobPrepareComplete]
  split_ifs
  · exact ⟨rfl, rfl⟩
  · exact kept_doGetResults s jobGetResults true
  · exact ⟨rfl, rfl⟩

/-- The work of the running job is lost when a start is aborted. -/
theorem owned_jobStartAbort (H : s.Owned) (failure : Bool) :
    (s.jobStartAbort failure).Owned ↔ s.work = .none := by
  simp only [Owned, accounted, jobStartAbort, inSlot_none]
  rw [← show s.accounted = Multiset.range s.fresh from H, accounted]
  cases s.work with
  | none => simp only [inSlot_none]
  | some work =>
      refine iff_of_false (fun hlost => ?_) (nomatch ·)
      have hcard := congrArg Multiset.card hlost
      simp only [Multiset.card_add, inSlot_some, Multiset.card_singleton, Multiset.card_zero]
        at hcard
      omega

/-- A step keeps account of the works, but for an abort while a job runs. -/
theorem owned_step_iff (H : s.Owned) {e : Event} (hs : s.step e = some s') :
    s'.Owned ↔ s.AbortIdle e s' := by
  have hother (hne : ∀ failure, e ≠ .startAbort failure) (H' : s'.Owned) :
      s'.Owned ↔ s.AbortIdle e s' :=
    iff_of_true H' fun failure he => absurd he (hne failure)
  cases e with
  | round jobGetResults passed abandon got =>
      cases hs
      exact hother (fun _ => nofun) (owned_round H ..)
  | prepareComplete jobGetResults =>
      cases hs
      exact hother (fun _ => nofun) ((kept_jobPrepareComplete s jobGetResults).owned H)
  | resultsFetched =>
      cases hs
      exact hother (fun _ => nofun) ((kept_jobResultsFetched s).owned H)
  | disableStart =>
      cases hs
      exact hother (fun _ => nofun) ((kept_mtDisableStartAsync s).owned H)
  | transition => exact hother (fun _ => nofun) ((kept_mtJobTransition hs).owned H)
  | startAbort failure =>
      cases hs
      rw [owned_jobStartAbort H]
      exact ⟨fun hidle _ _ => hidle, fun hidle => hidle failure rfl⟩
  | startComplete | setDeven | setPause | restart | setBusyState | setMorework =>
      cases hs
      exact hother (fun _ => nofun) H

/-! ## Every run -/

theorem owned_init (deven : DevEnable) : (init deven).Owned := rfl

/-- **No work is lost.**  In every order of rounds, callbacks and disabling, each work that was
obtained is in exactly one slot or freed exactly once, for exactly the runs that abort a start
only while no job runs. -/
theorem allSteps_owned_iff (deven : DevEnable) (es : List Event) :
    Run.AllSteps step (fun _ _ s' => s'.Owned) (init deven) es ↔
      Run.AllSteps step AbortIdle (init deven) es :=
  Run.allSteps_congr (I := Owned) (fun s e s' H (hs : step s e = some s') => owned_step_iff H hs)
    (fun _ _ _ _ _ H' => H') es (owned_init deven)

/-- A first job is started, the second is due, and its start fails. -/
def abortRun : List Event :=
  [.round true true false .prepared, .prepareComplete true, .transition, .startComplete,
    .setMorework true, .round true true true .prepared, .prepareComplete true, .resultsFetched]

/-- The work of the first job is in no slot then, and was not freed. -/
theorem not_owned_abort :
    ¬ Run.AllSteps step (fun _ _ s' => s'.Owned) (init .enabled)
      (abortRun ++ [.startAbort true]) := by
  intro h
  have hlost : ((Run.exec step (init .enabled) abortRun).bind fun s =>
      s.step (.startAbort true)).map
        (fun s' => (s'.nextWork.toList ++ s'.work.toList ++ s'.prevWork.toList ++ s'.freed,
          s'.fresh)) = some ([1], 2) := by decide
  obtain ⟨s', hlast, hheld⟩ := Option.map_eq_some_iff.mp hlost
  obtain ⟨s, hs, hs'⟩ := Option.bind_eq_some_iff.mp hlast
  have howned : s'.Owned := ((Run.allSteps_append.mp h).2 s hs s' hs').1
  obtain ⟨hslots, hfresh⟩ := Prod.ext_iff.mp hheld
  have hcard := congrArg Multiset.card howned
  have hlength := congrArg List.length hslots
  simp only [accounted, inSlot, Multiset.card_add, Multiset.coe_card, Multiset.card_range]
    at hcard
  simp only [List.length_append, List.length_singleton] at hlength
  omega

end AsyncThr

end MassGridMiner

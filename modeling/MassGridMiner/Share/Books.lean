import MassGridMiner.Lib.Ledger
import MassGridMiner.Lib.Run
import MassGridMiner.Share.Response
import MassGridMiner.Share.TestNonce
import MassGridMiner.Stratum.Uri

/-!
# The books on the shares

What becomes of a share is counted three times over, in total, for the processor that found it
and for the pool that it was found for, by each function that decides on it.  A share that is a
block is counted besides when its submission begins, and its answer sends copies of it to other
pools, which take the same way.

## Main definitions

* `Setup` — the pools, the processors and the options.
* `Tally` — the counters that are kept three times.
* `Books` — the counters, and the shares under way.
* `Books.step` — what can happen.
-/

namespace MassGridMiner

open CStr

/-- What does not change: the pools in use, the processor of each mining thread, and the
options. -/
structure Setup where
  totalPools : ℕ
  rpcUrl : ℕ → CStr
  submitOld : ℕ → Bool
  poolGoal : ℕ → ℕ
  totalDevices : ℕ
  miningThr : List ℕ
  miningThr_lt : ∀ d ∈ miningThr, d < totalDevices
  optSubmitStale : Bool
  optShares : ℚ
  optRetries : ℤ

namespace Setup

/-- `get_thr_cgpu`, by index. -/
def getThrCgpu (setup : Setup) (thrId : ℕ) : ℕ := setup.miningThr[thrId]?.getD 0

/-- The `allblocks` parameter of a pool. -/
def allblocks (setup : Setup) (pool : ℕ) : Bool :=
  uriGetParamBool (setup.rpcUrl pool) "allblocks" false

end Setup

/-- The counters that are kept in total, for each processor and for each pool.  That of the stale
shares of a pool is called `stale_shares`. -/
structure Tally where
  accepted : ℕ
  rejected : ℕ
  stale : ℕ
  diffAccepted : ℚ
  diffRejected : ℚ
  diffStale : ℚ
  diff1 : ℚ

namespace Tally

/-- All counters at zero. -/
def zero : Tally := ⟨0, 0, 0, 0, 0, 0, 0⟩

/-- A share is accepted. -/
def accept (diff : ℚ) (t : Tally) : Tally :=
  { t with accepted := t.accepted + 1, diffAccepted := t.diffAccepted + diff }

/-- A share is rejected. -/
def reject (diff : ℚ) (t : Tally) : Tally :=
  { t with rejected := t.rejected + 1, diffRejected := t.diffRejected + diff }

/-- Shares become stale. -/
def discard (n : ℕ) (diff : ℚ) (t : Tally) : Tally :=
  { t with stale := t.stale + n, diffStale := t.diffStale + diff }

/-- A valid nonce is found. -/
def find (diff : ℚ) (t : Tally) : Tally := { t with diff1 := t.diff1 + diff }

end Tally

/-- The part of a work that its submission reads and writes; `stratum` is its `getwork_mode`. -/
structure FoundWork extends Share where
  workDifficulty : ℚ
  nonceDiff : ℚ
  tr : Bool
  stratum : Bool
  block : Bool
  stale : Bool
  mandatory : Bool
  doForeignSubmit : Bool

/-- `target_diff`, in rationals. -/
def hashDifficulty (hash : Hash) : ℚ :=
  26959946667150639794667015087019630673637144422540572481103610249215 /
    (if hash.toNat = 0 then 1 else hash.toNat)

/-- `struct submit_work_state`, over HTTP. -/
structure SubmitWorkState where
  work : FoundWork
  failures : ℕ

/-- The counters, and the shares under way: waiting for the submit thread, submitted over HTTP,
waiting to be sent over stratum, and sent.  The rest is bookkeeping that no function reads: the
next share to come, how many works were pushed to the submit thread, the shares for which
`found_blocks` was increased, the copies pushed with their pools, and the shares whose answer has
been passed on. -/
structure Books where
  total : Tally
  cgpu : ℕ → Tally
  pool : ℕ → Tally
  hwErrors : ℕ
  totalBadDiff1 : ℚ
  cgpuHwErrors : ℕ → ℕ
  cgpuBadDiff1 : ℕ → ℚ
  goalDiffAccepted : ℕ → ℚ
  currentDiff : ℕ → ℚ
  bestDiff : ℚ
  poolBestDiff : ℕ → ℚ
  foundBlocks : ℕ
  solved : ℕ → ℕ
  submitWaiting : List FoundWork
  httpSws : List SubmitWorkState
  writeSws : List FoundWork
  stratumShares : List FoundWork
  fresh : ℕ
  pushed : ℕ
  counted : List ℕ
  copies : List (ℕ × ℕ)
  passedOn : List ℕ

/-- How the submit thread leaves a share that it has visited in `write_sws`: its session is gone;
it is sent; the send has failed and is undone; the send has failed, but the pool was failing
before, and the share stays where it is as well. -/
inductive Visit
  | disconnect
  | sent
  | undone
  | entered

namespace Books

open Ledger (update)

section
variable (setup : Setup)

/-- The same entry in total, for a processor and for a pool. -/
def post (s : Books) (cgpu pool : ℕ) (entry : Tally → Tally) : Books :=
  { s with
    total := entry s.total
    cgpu := update s.cgpu cgpu entry
    pool := update s.pool pool entry }

/-! ## The submission -/

/-- `share_diff`, up to the difficulty that it returns. -/
def shareDiff (s : Books) (work : FoundWork) : Books :=
  { s with
    bestDiff := max s.bestDiff (hashDifficulty work.hash)
    poolBestDiff := update s.poolBestDiff work.pool (max · (hashDifficulty work.hash)) }

/-- A hash has the difficulty of a block of its pool's goal. -/
def MeetsGoal (s : Books) (work : FoundWork) : Prop :=
  s.currentDiff (setup.poolGoal work.pool) ≤ hashDifficulty work.hash

instance (s : Books) (work : FoundWork) : Decidable (s.MeetsGoal setup work) :=
  inferInstanceAs (Decidable (_ ≤ _))

/-- `work_check_for_block`. -/
def workCheckForBlock (s : Books) (work : FoundWork) : Books × FoundWork :=
  let s' := s.shareDiff work
  if s.MeetsGoal setup work then
    ({ s' with
        solved := update s'.solved work.pool (· + 1)
        foundBlocks := s'.foundBlocks + 1
        counted := work.ident :: s'.counted },
      { work with block := true, mandatory := true })
  else (s', work)

/-- `submit_discard_share2`. -/
def submitDiscardShare2 (s : Books) (work : FoundWork) : Books :=
  s.post (setup.getThrCgpu work.thrId) work.pool (Tally.discard 1 work.workDifficulty)

/-- `begin_submission`, where `stale_work` returns `stale`. -/
def beginSubmission (s : Books) (work : FoundWork) (stale : Bool) : Books :=
  let (s, work) := s.workCheckForBlock setup work
  let work := if stale then { work with stale := true } else work
  if stale && !(setup.optSubmitStale || setup.submitOld work.pool) then
    s.submitDiscardShare2 setup work
  else if work.stratum then { s with writeSws := work :: s.writeSws }
  else { s with httpSws := ⟨work, 0⟩ :: s.httpSws }

/-- What `retry_submission` comes to: the submission is discarded, or sent again. -/
def retrySubmission (s : Books) (sws : SubmitWorkState) (stale expired : Bool) : Books :=
  let work := sws.work
  if !work.stale && stale && !(setup.optSubmitStale || setup.submitOld work.pool) then
    s.submitDiscardShare2 setup { work with stale := true }
  else
    let work := if !work.stale && stale then { work with stale := true } else work
    if 0 ≤ setup.optRetries ∧ setup.optRetries < sws.failures + 1 then
      s.submitDiscardShare2 setup work
    else if work.stale && decide (setup.optRetries < 0) && expired then
      s.submitDiscardShare2 setup work
    else
      let failures := if 0 ≤ setup.optRetries then sws.failures + 1 else sws.failures
      { s with httpSws := ⟨work, failures⟩ :: s.httpSws }

/-- `_submit_work_async`. -/
def submitWorkAsync (s : Books) (work : FoundWork) : Books :=
  { s with submitWaiting := s.submitWaiting ++ [work], pushed := s.pushed + 1 }

/-- The loop of `maybe_local_submit` over the pools. -/
def localSubmitLoop (s : Books) (work : FoundWork) : List ℕ → Books
  | [] => s
  | i :: rest =>
    if !setup.allblocks i then localSubmitLoop s work rest
    else
      let workCp := { work with pool := i, doForeignSubmit := true }
      let s' := s.submitWorkAsync workCp
      localSubmitLoop { s' with copies := (work.ident, i) :: s'.copies } work rest

/-- `maybe_local_submit`. -/
def maybeLocalSubmit (s : Books) (work : FoundWork) : Books :=
  if work.block && work.tr then
    let s' := s.localSubmitLoop setup work (List.range setup.totalPools)
    { s' with passedOn := work.ident :: s'.passedOn }
  else s

/-- The option to stop at so many accepted shares is met. -/
def Reached (s : Books) : Prop := setup.optShares ≠ 0 ∧ setup.optShares ≤ s.total.diffAccepted

instance (s : Books) : Decidable (s.Reached setup) := inferInstanceAs (Decidable (_ ∧ _))

/-- `share_result`. -/
def shareResult (s : Books) (res err : Option Json) (work : FoundWork) : Books :=
  let cgpu := setup.getThrCgpu work.thrId
  match MassGridMiner.shareResult res err work.toShare with
  | .accepted =>
    let s := s.post cgpu work.pool (Tally.accept work.workDifficulty)
    let s := { s with
      goalDiffAccepted :=
        update s.goalDiffAccepted (setup.poolGoal work.pool) (· + work.workDifficulty) }
    if s.Reached setup then s else s.maybeLocalSubmit setup work
  | .ignored => s.maybeLocalSubmit setup work
  | .rejected =>
    (s.post cgpu work.pool (Tally.reject work.workDifficulty)).maybeLocalSubmit setup work

/-! ## The other functions that count -/

/-- `inc_hw_errors3`; `badNonce` says whether there is a nonce to blame. -/
def incHwErrors3 (s : Books) (cgpu : ℕ) (badNonce : Bool) (nonceDiff : ℚ) : Books :=
  let s := { s with
    hwErrors := s.hwErrors + 1
    cgpuHwErrors := update s.cgpuHwErrors cgpu (· + 1) }
  if badNonce then
    { s with
      totalBadDiff1 := s.totalBadDiff1 + nonceDiff
      cgpuBadDiff1 := update s.cgpuBadDiff1 cgpu (· + nonceDiff) }
  else s

/-- `submit_noffset_nonce`, behind the test of the nonce. -/
def submitNoffsetNonce (s : Books) (work : FoundWork) (res : TestNonce2Result) : Books :=
  let cgpu := setup.getThrCgpu work.thrId
  let work := { work with
    ident := s.fresh, block := false, stale := false, doForeignSubmit := false }
  match res with
  | .bad => s.incHwErrors3 cgpu true work.nonceDiff
  | .high => (s.post cgpu work.pool (Tally.find work.nonceDiff)).shareDiff work
  | .good =>
    let s := s.post cgpu work.pool (Tally.find work.nonceDiff)
    { s.submitWorkAsync work with fresh := s.fresh + 1 }

/-- `clear_stratum_shares` deletes this entry. -/
def isLost (pool : ℕ) (work : FoundWork) : Bool :=
  work.pool == pool && decide (work.thrId < setup.miningThr.length)

/-- The loop of `clear_stratum_shares` that enters the lost shares of each thread with its
processor. -/
def clearThreads (lost : List FoundWork) (cgpu : ℕ → Tally) : List ℕ → ℕ → Tally
  | [] => cgpu
  | i :: rest =>
    let thrLost := lost.filter fun work => work.thrId = i
    let cgpu :=
      if thrLost.length ≠ 0 then
        update cgpu (setup.getThrCgpu i)
          (Tally.discard thrLost.length (thrLost.map FoundWork.workDifficulty).sum)
      else cgpu
    clearThreads lost cgpu rest

/-- `clear_stratum_shares`. -/
def clearStratumShares (s : Books) (pool : ℕ) : Books :=
  let lost := s.stratumShares.filter (isLost setup pool)
  let diffLost := (lost.map FoundWork.workDifficulty).sum
  let s := { s with
    stratumShares := s.stratumShares.filter fun work => !isLost setup pool work }
  if lost.length ≠ 0 then
    { s with
      pool := update s.pool pool (Tally.discard lost.length diffLost)
      total := s.total.discard lost.length diffLost
      cgpu := clearThreads setup lost s.cgpu (List.range setup.miningThr.length) }
  else s

/-- `resubmit_stratum_shares`. -/
def resubmitStratumShares (s : Books) (pool : ℕ) : Books :=
  { s with
    stratumShares := s.stratumShares.filter fun work => work.pool != pool
    submitWaiting := s.submitWaiting ++ s.stratumShares.filter fun work => work.pool == pool }

/-- The loops of `zero_stats` over the pools and the processors. -/
def zeroUpTo {M : Type} (n : ℕ) (zero : M) (of : ℕ → M) : ℕ → M :=
  fun i => if i < n then zero else of i

/-- `zero_stats`. -/
def zeroStats (s : Books) : Books :=
  { s with
    total := Tally.zero
    cgpu := zeroUpTo setup.totalDevices Tally.zero s.cgpu
    pool := zeroUpTo setup.totalPools Tally.zero s.pool
    hwErrors := 0
    totalBadDiff1 := 0
    cgpuHwErrors := zeroUpTo setup.totalDevices 0 s.cgpuHwErrors
    cgpuBadDiff1 := zeroUpTo setup.totalDevices 0 s.cgpuBadDiff1
    goalDiffAccepted := fun _ => 0
    bestDiff := 0
    poolBestDiff := zeroUpTo setup.totalPools 0 s.poolBestDiff
    foundBlocks := 0
    solved := zeroUpTo setup.totalPools 0 s.solved }

/-- What the submit thread makes of a share that it has visited in `write_sws`. -/
def visit (s : Books) (k : ℕ) (work : FoundWork) : Visit → Books
  | .disconnect => { s with writeSws := s.writeSws.eraseIdx k }.submitDiscardShare2 setup work
  | .sent => { s with
      writeSws := s.writeSws.eraseIdx k
      stratumShares := work :: s.stratumShares }
  | .undone => s
  | .entered => { s with stratumShares := work :: s.stratumShares }

end

/-! ## Runs -/

/-- What happens: a nonce is submitted; a hardware error is reported; a submission begins; an
answer, or none, comes to one over HTTP; one over stratum is visited, or answered; a pool's
connection is lost or resumed; the statistics are zeroed; the difficulty of a goal changes. -/
inductive Event
  | nonce (work : FoundWork) (res : TestNonce2Result)
  | hwError (thrId : ℕ) (badNonce : Bool) (nonceDiff : ℚ)
  | submission (stale : Bool)
  | answer (k : ℕ) (res err : Option Json)
  | noAnswer (k : ℕ) (stale expired : Bool)
  | visit (k : ℕ) (how : Visit)
  | response (k : ℕ) (res err : Option Json)
  | clear (pool : ℕ)
  | resubmit (pool : ℕ)
  | zero
  | setDifficulty (goal : ℕ) (diff : ℚ)

variable (setup : Setup)

/-- One event, or none where there is no such thread, pool or share. -/
def step (s : Books) : Event → Option Books
  | .nonce work res =>
    if work.pool < setup.totalPools ∧ work.thrId < setup.miningThr.length then
      some (s.submitNoffsetNonce setup work res)
    else none
  | .hwError thrId badNonce nonceDiff =>
    if thrId < setup.miningThr.length then
      some (s.incHwErrors3 (setup.getThrCgpu thrId) badNonce nonceDiff)
    else none
  | .submission stale =>
    match s.submitWaiting with
    | [] => none
    | work :: rest => some ({ s with submitWaiting := rest }.beginSubmission setup work stale)
  | .answer k res err =>
    s.httpSws[k]?.map fun sws =>
      { s with httpSws := s.httpSws.eraseIdx k }.shareResult setup res err sws.work
  | .noAnswer k stale expired =>
    s.httpSws[k]?.map fun sws =>
      { s with httpSws := s.httpSws.eraseIdx k }.retrySubmission setup sws stale expired
  | .visit k how => s.writeSws[k]?.map fun work => s.visit setup k work how
  | .response k res err =>
    s.stratumShares[k]?.map fun work =>
      { s with stratumShares := s.stratumShares.eraseIdx k }.shareResult setup res err work
  | .clear pool => if pool < setup.totalPools then some (s.clearStratumShares setup pool) else none
  | .resubmit pool => some (s.resubmitStratumShares pool)
  | .zero => some (s.zeroStats setup)
  | .setDifficulty goal diff =>
    some { s with currentDiff := update s.currentDiff goal fun _ => diff }

/-- Before any share is found. -/
def init (currentDiff : ℕ → ℚ) : Books where
  total := Tally.zero
  cgpu _ := Tally.zero
  pool _ := Tally.zero
  hwErrors := 0
  totalBadDiff1 := 0
  cgpuHwErrors _ := 0
  cgpuBadDiff1 _ := 0
  goalDiffAccepted _ := 0
  currentDiff := currentDiff
  bestDiff := 0
  poolBestDiff _ := 0
  foundBlocks := 0
  solved _ := 0
  submitWaiting := []
  httpSws := []
  writeSws := []
  stratumShares := []
  fresh := 0
  pushed := 0
  counted := []
  copies := []
  passedOn := []

end Books

end MassGridMiner

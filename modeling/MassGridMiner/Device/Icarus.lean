import MassGridMiner.Lib.Custody
import MassGridMiner.Lib.Run

/-!
# The job of an Icarus

A call of `icarus_scanhash` waits for the result of the job that the device has, starts the next
one, and then keeps a copy of its work.  Whether the device has a job is kept in one flag,
`firstrun`, which is also set where the device has to be reopened or its job is not started.

## Main definitions

* `Icarus.scanhash`, `Icarus.handleIdentify` — the functions of the source.
* `Icarus.step` — a call, or a request to identify.
* `Icarus.Lawful` — results are attributed to the jobs that were sent, and copies are let go once.
* `Icarus.allSteps_attributed_iff` — the runs that are lawful throughout.
-/

namespace MassGridMiner
namespace Icarus

/-- `reopen_mode`. -/
inductive ReopenMode
  | never
  | timeout
  | cycle
  deriving DecidableEq

/-- A copy of a work, with its number among the copies. -/
structure Copy (W : Type) where
  id : ℕ
  work : W

/-- What is sent to the device. -/
inductive Sent (W : Type)
  | job (work : W)
  | command

/-- The copies of works: `last_work`, `last2_work`, all that were made, and those let go.  Whether
a nonce was looked up in a `last_work` that is `NULL` is noted in `null`. -/
structure Works (W : Type) where
  last : Option (Copy W)
  last2 : Option (Copy W)
  copies : List (Copy W)
  freed : List ℕ
  null : Bool

/-- The state of a device.  What was sent has the newest first. -/
structure State (W : Type) where
  opened : Bool
  firstrun : Bool
  changework : Bool
  identify : Bool
  obBin : Option W
  sent : List (Sent W)
  works : Works W

/-- What a read comes to.  After an error or a timeout it matters whether the device can be
reopened, and after a nonce whether the search is continued. -/
inductive Read (N : Type)
  | restart
  | error (reopened : Bool)
  | timeout (reopened : Bool)
  | ok (nonce : N) (more : Bool)

/-- What is known of the last job once there is nothing more to wait for; `was_hw_error` comes with
a nonce only. -/
inductive Ret
  | restart
  | error
  | timeout
  | ok (hwError : Bool)
  deriving DecidableEq

/-- Which work a nonce is of. -/
inductive NonceWork
  | last
  | last2
  | null

/-- A call of `icarus_scanhash`: its work, what the device does, and what is asked for in the
meantime. -/
structure Call (W N : Type) where
  work : W
  mode : ReopenMode
  reopened : Bool
  reads : List (Read N)
  reopenNow : Bool
  reopenedNow : Bool
  identifyBefore : Bool
  enabled : Bool
  started : Bool
  reopenedCycle : Bool
  detected : Bool
  identifyAfter : Bool
  nonces : Bool
  restart : Bool
  startedLater : Bool

section
variable {W N : Type}

/-- `icarus_reopen`. -/
def reopen (s : State W) (ok : Bool) : Bool × State W :=
  if ok then (true, { s with opened := true })
  else (false, { s with opened := false, firstrun := true })

/-- `icarus_job_prepare`. -/
def jobPrepare (s : State W) (work : W) : State W := { s with obBin := some work }

/-- `job_start_func`, which closes the device where it fails. -/
def jobStart (s : State W) (ok : Bool) : Bool × State W :=
  if s.opened && ok then (true, { s with sent := (s.obBin.map .job).toList ++ s.sent })
  else (false, { s with opened := false })

/-- `last_work` is looked at. -/
def useLast (s : State W) : State W :=
  { s with works := { s.works with null := s.works.null || s.works.last.isNone } }

/-- `icarus_process_worknonce`. -/
def processWorknonce (test : W → N → Bool) (s : State W) (nonce : N) : NonceWork :=
  if s.works.last.any fun c => test c.work nonce then .last
  else if s.works.last2.any fun c => test c.work nonce then .last2
  else .null

/-- The reads of a call up to the end of the wait, or to where the call returns. -/
def wait (test : W → N → Bool) (mode : ReopenMode) :
    List (Read N) → State W → Option (Option Ret × State W)
  | [], _ => none
  | .restart :: _, s => some (none, { s with changework := true })
  | .error reopened :: _, s =>
    let (ok, s) := reopen s reopened
    some (if ok then some .error else none, s)
  | .timeout reopened :: _, s =>
    if mode = .timeout then
      let (ok, s) := reopen s reopened
      some (if ok then some .timeout else none, s)
    else some (some .timeout, s)
  | .ok nonce more :: reads, s =>
    match processWorknonce test (useLast s) nonce with
    | .last2 => wait test mode reads (useLast s)
    | .last => if more then wait test mode reads (useLast s) else some (some (.ok false), useLast s)
    | .null => some (some (.ok true), useLast s)

/-- What `icarus_scanhash` does until the last job is done with. -/
def result (test : W → N → Bool) (c : Call W N) (s : State W) : Option (Option Ret × State W) :=
  let s := jobPrepare s c.work
  let (ok, s) := if s.opened then (true, s) else reopen s c.reopened
  if !ok then some (none, s)
  else if s.firstrun then some (some .error, s)
  else if s.changework then some (some .restart, { s with changework := false })
  else wait test c.mode c.reads s

/-- The next job is started, unless the device is to identify itself first. -/
def startNext (c : Call W N) (r : Ret) (s : State W) : State W :=
  let s :=
    if (r = .ok true ∨ c.reopenNow = true) ∧ c.mode ≠ .cycle then (reopen s c.reopenedNow).2 else s
  let s := { s with identify := s.identify || c.identifyBefore }
  let s :=
    if s.identify then s
    else if c.enabled then
      let (ok, s) := jobStart s c.started
      if ok then s else { s with firstrun := true }
    else { s with firstrun := true }
  if c.mode = .cycle then (reopen s c.reopenedCycle).2 else s

/-- `icarus_transition_work`. -/
def transitionWork (s : State W) (work : W) : State W :=
  { s with works :=
    { s.works with
      last := some ⟨s.works.copies.length, work⟩
      last2 := s.works.last
      copies := ⟨s.works.copies.length, work⟩ :: s.works.copies
      freed := s.works.last2.toList.map Copy.id ++ s.works.freed } }

/-- The result is processed.  A device may turn out to be a Cairnsmore, which is sent commands. -/
def processResult (c : Call W N) (r : Ret) (s : State W) : State W :=
  match r with
  | .error => transitionWork { s with firstrun := false } c.work
  | .ok _ =>
    let s := transitionWork s c.work
    if c.detected then { s with firstrun := true, sent := .command :: s.sent } else s
  | _ => transitionWork s c.work

/-- `handle_identify`. -/
def handleIdentify (c : Call W N) (wasFirstRun : Bool) (s : State W) : State W :=
  if !s.opened then s
  else
    let s := if !wasFirstRun && c.nonces then useLast s else s
    let s :=
      if c.restart then { s with firstrun := true }
      else if !s.firstrun then
        let (ok, s) := jobStart s c.startedLater
        if ok then s else { s with firstrun := true }
      else s
    { s with identify := false }

/-- The rest of `icarus_scanhash`. -/
def finish (c : Call W N) (wasFirstRun : Bool) (r : Ret) (s : State W) : State W :=
  let s := processResult c r (startNext c r s)
  let s := { s with identify := s.identify || c.identifyAfter }
  if s.identify then handleIdentify c wasFirstRun s else s

/-- `icarus_scanhash`, or none where the reads do not end its wait. -/
def scanhash (test : W → N → Bool) (c : Call W N) (s : State W) : Option (State W) :=
  (result test c s).map fun (r, s') => r.elim s' fun r => finish c s.firstrun r s'

/-- A call, or a request to identify between two calls. -/
inductive Event (W N : Type)
  | scanhash (c : Call W N)
  | identify

/-- One step. -/
def step (test : W → N → Bool) (s : State W) : Event W N → Option (State W)
  | .scanhash c => scanhash test c s
  | .identify => some { s with identify := true }

/-- The state that `icarus_prepare` and `icarus_init` leave. -/
def init (opened : Bool) : State W :=
  ⟨opened, true, false, false, none, [], ⟨none, none, [], [], false⟩⟩

/-- The last two of the copies are kept, none is looked up where there is none, and each copy is
kept or was let go once. -/
structure Works.Inv (w : Works W) : Prop where
  last : w.last = w.copies[0]?
  last2 : w.last2 = w.copies[1]?
  null : w.null = false
  custody : Custody w.copies.length ((w.last.toList ++ w.last2.toList).map Copy.id) w.freed

/-- With a job running and none to be started, `last_work` is that whose job was sent last. -/
def State.Handed (s : State W) : Prop := s.firstrun = false → s.identify = false →
  ∃ c, s.works.last = some c ∧ s.sent.head? = some (.job c.work)

/-- **Results are attributed to jobs that were sent**, and the works are kept as they are to. -/
structure Lawful (s : State W) : Prop where
  handed : s.Handed
  works : s.works.Inv

/-- The job of a call is started. -/
def Call.Starts (c : Call W N) (r : Ret) : Prop :=
  c.enabled = true ∧ c.started = true ∧
    ((r = .ok true ∨ c.reopenNow = true) ∧ c.mode ≠ .cycle → c.reopenedNow = true)

/-- A call has no result to wait for, on the first run or after an error, and does not start its
job.  There is no request to identify, after which it would be started, and the last job that was
sent is another. -/
def Unstarted (test : W → N → Bool) (s : State W) : Event W N → Prop
  | .scanhash c => (∃ s', result test c s = some (some .error, s')) ∧ ¬c.Starts .error ∧
      s.identify = false ∧ c.identifyBefore = false ∧ c.identifyAfter = false ∧
      s.sent.head? ≠ some (.job c.work)
  | .identify => False

/-- A call that starts its job once it has nothing to wait for. -/
structure Call.Smooth (c : Call W N) : Prop where
  reopenedNow : c.reopenedNow = true
  reopenedCycle : c.reopenedCycle = true
  enabled : c.enabled = true
  started : c.started = true
  startedLater : c.startedLater = true
  restart : c.restart = false
  detected : c.detected = false

/-- A step whose call is smooth. -/
def Event.Smooth : Event W N → Prop
  | .scanhash c => c.Smooth
  | .identify => True

/-- The job that was sent before those of `last_work` is that of `last2_work`. -/
def InOrder (s : State W) : Prop := ∀ c, s.works.last = some c →
  ∃ k more, s.sent = List.replicate (k + 1) (.job c.work) ++ more ∧
    more.head? = s.works.last2.map fun c₂ => .job c₂.work

/-! ## Waiting -/

variable {test : W → N → Bool} {mode : ReopenMode} {c : Call W N} {r : Ret} {s s' : State W}

theorem reopen_snd (s : State W) (ok : Bool) :
    (reopen s ok).2 = { s with opened := ok, firstrun := s.firstrun || !ok } := by
  cases ok
  · simp [reopen]
  · simp [reopen]

theorem useLast_eq (hlast : s.works.last ≠ none) : useLast s = s := by
  have hnone : s.works.last.isNone = false := by
    rw [Option.isNone_eq_false_iff]
    exact Option.isSome_iff_ne_none.mpr hlast
  rw [useLast, hnone, Bool.or_false]

/-- What a wait leaves as it is, and how it ends: with the device open if the call goes on, and then
with `firstrun` set only if it was an error or the first run. -/
structure Waited (s : State W) (r : Option Ret) (s' : State W) : Prop where
  obBin : s'.obBin = s.obBin
  sent : s'.sent = s.sent
  identify : s'.identify = s.identify
  works : s'.works = s.works
  opened : r ≠ none → s'.opened = true
  firstrun : s'.firstrun = false → s.firstrun = false
  running : ∀ r', r = some r' → r' ≠ .error → s'.firstrun = false

theorem waited_reopen (s : State W) (ok : Bool) (r : Ret) (hfirst : s.firstrun = false) :
    Waited s (if (reopen s ok).1 then some r else none) (reopen s ok).2 := by
  cases ok
  · exact ⟨rfl, rfl, rfl, rfl, fun h => absurd rfl h, fun _ => hfirst, nofun⟩
  · exact ⟨rfl, rfl, rfl, rfl, fun _ => rfl, id, fun _ _ _ => hfirst⟩

theorem waited_wait {reads : List (Read N)} {r : Option Ret} (hopened : s.opened = true)
    (hfirst : s.firstrun = false) (hlast : s.works.last ≠ none)
    (H : wait test mode reads s = some (r, s')) : Waited s r s' := by
  have hsame : ∀ r : Option Ret, Waited s r s := fun _ =>
    ⟨rfl, rfl, rfl, rfl, fun _ => hopened, id, fun _ _ _ => hfirst⟩
  induction reads with
  | nil => cases H
  | cons read reads ih =>
    cases read with
    | restart =>
      obtain ⟨rfl, rfl⟩ := Prod.ext_iff.mp (Option.some.inj H)
      exact ⟨rfl, rfl, rfl, rfl, fun h => absurd rfl h, id, nofun⟩
    | error reopened =>
      obtain ⟨rfl, rfl⟩ := Prod.ext_iff.mp (Option.some.inj H)
      exact waited_reopen s reopened .error hfirst
    | timeout reopened =>
      rw [wait] at H
      split at H
      · obtain ⟨rfl, rfl⟩ := Prod.ext_iff.mp (Option.some.inj H)
        exact waited_reopen s reopened .timeout hfirst
      · obtain ⟨rfl, rfl⟩ := Prod.ext_iff.mp (Option.some.inj H)
        exact hsame _
    | ok nonce more =>
      rw [wait, useLast_eq hlast] at H
      cases hwork : processWorknonce test s nonce with
      | last2 =>
        rw [hwork] at H
        exact ih H
      | null =>
        rw [hwork] at H
        obtain ⟨rfl, rfl⟩ := Prod.ext_iff.mp (Option.some.inj H)
        exact hsame _
      | last =>
        rw [hwork] at H
        dsimp only at H
        split at H
        · exact ih H
        · obtain ⟨rfl, rfl⟩ := Prod.ext_iff.mp (Option.some.inj H)
          exact hsame _

/-- **Up to the end of the wait** nothing is sent, and no work is copied. -/
theorem waited_result {r : Option Ret} (hlast : s.firstrun = false → s.works.last ≠ none)
    (H : result test c s = some (r, s')) : Waited (jobPrepare s c.work) r s' := by
  have hrest : ∀ s₁ : State W, s₁.opened = true → s₁.firstrun = s.firstrun →
      s₁.works = s.works →
      (if s₁.firstrun then some (some .error, s₁)
        else if s₁.changework then some (some .restart, { s₁ with changework := false })
        else wait test c.mode c.reads s₁) = some (r, s') → Waited s₁ r s' := by
    intro s₁ hopened hfirst hworks H
    by_cases hrun : s₁.firstrun = true
    · rw [if_pos hrun] at H
      obtain ⟨rfl, rfl⟩ := Prod.ext_iff.mp (Option.some.inj H)
      refine ⟨rfl, rfl, rfl, rfl, fun _ => hopened, id, fun r' hr' hne => ?_⟩
      exact absurd (Option.some.inj hr').symm hne
    · rw [if_neg hrun] at H
      rw [Bool.not_eq_true] at hrun
      split at H
      · obtain ⟨rfl, rfl⟩ := Prod.ext_iff.mp (Option.some.inj H)
        exact ⟨rfl, rfl, rfl, rfl, fun _ => hopened, id, fun _ _ _ => hrun⟩
      · exact waited_wait hopened hrun (hworks ▸ hlast (hfirst.symm.trans hrun)) H
  rw [result] at H
  by_cases hopened : s.opened = true
  · have hprepared : (jobPrepare s c.work).opened = true := hopened
    simp only [if_pos hprepared] at H
    exact hrest _ hopened rfl rfl H
  · have hprepared : ¬(jobPrepare s c.work).opened = true := hopened
    simp only [if_neg hprepared] at H
    cases hok : c.reopened with
    | false =>
      rw [hok] at H
      obtain ⟨rfl, rfl⟩ := Prod.ext_iff.mp (Option.some.inj H)
      exact ⟨rfl, rfl, rfl, rfl, fun h => absurd rfl h, nofun, nofun⟩
    | true =>
      rw [hok] at H
      obtain ⟨h₁, h₂, h₃, h₄, h₅, h₆, h₇⟩ :=
        hrest { jobPrepare s c.work with opened := true } rfl rfl rfl H
      exact ⟨h₁, h₂, h₃, h₄, h₅, h₆, h₇⟩

/-! ## Starting the next job -/

/-- What a device is that may have been reopened. -/
structure Reopened (s s' : State W) : Prop where
  obBin : s'.obBin = s.obBin
  sent : s'.sent = s.sent
  identify : s'.identify = s.identify
  works : s'.works = s.works
  firstrun : s.firstrun = true → s'.firstrun = true

theorem reopened_ite (p : Prop) [Decidable p] (s : State W) (ok : Bool) :
    Reopened s (if p then (reopen s ok).2 else s) := by
  split
  · rw [reopen_snd]
    exact ⟨rfl, rfl, rfl, rfl, fun h => by rw [h, Bool.true_or]⟩
  · exact ⟨rfl, rfl, rfl, rfl, id⟩

/-- A call that reopens nothing or that can. -/
theorem reopen_ite_of_ok {p : Prop} [Decidable p] {s : State W} {ok : Bool}
    (hopened : s.opened = true) (hok : ok = true) : (if p then (reopen s ok).2 else s) = s := by
  split
  · rw [reopen_snd, hok, Bool.not_true, Bool.or_false, ← hopened]
  · rfl

/-- What became of a job that was to be started: it was sent, or the flag is set, or it has to wait
for the device to identify itself. -/
structure Tried (c : Call W N) (r : Ret) (s s' : State W) : Prop where
  obBin : s'.obBin = s.obBin
  identify : s'.identify = (s.identify || c.identifyBefore)
  works : s'.works = s.works
  waits : s'.identify = true → s'.sent = s.sent
  sent : s'.identify = false → c.Starts r → s'.sent = (s.obBin.map .job).toList ++ s.sent
  unsent : s'.identify = false → ¬c.Starts r → s'.sent = s.sent ∧ s'.firstrun = true

theorem tried_startNext (hopened : s.opened = true) (c : Call W N) (r : Ret) :
    Tried c r s (startNext c r s) := by
  have hfirst := reopened_ite ((r = .ok true ∨ c.reopenNow = true) ∧ c.mode ≠ .cycle) s
    c.reopenedNow
  have hstill : (if (r = .ok true ∨ c.reopenNow = true) ∧ c.mode ≠ .cycle then
      (reopen s c.reopenedNow).2 else s).opened = true ↔
        ((r = .ok true ∨ c.reopenNow = true) ∧ c.mode ≠ .cycle → c.reopenedNow = true) := by
    split
    · next h => rw [reopen_snd]; exact ⟨fun h' _ => h', fun h' => h' h⟩
    · next h => exact ⟨fun _ h' => absurd h' h, fun _ => hopened⟩
  rw [startNext]
  generalize (if (r = .ok true ∨ c.reopenNow = true) ∧ c.mode ≠ .cycle then
      (reopen s c.reopenedNow).2 else s) = s₁ at hfirst hstill
  -- what is tried in between, and after it the device is only reopened
  have htried : ∀ s₂, Tried c r s s₂ →
      Tried c r s (if c.mode = .cycle then (reopen s₂ c.reopenedCycle).2 else s₂) := by
    intro s₂ H
    have hlast := reopened_ite (c.mode = .cycle) s₂ c.reopenedCycle
    refine ⟨hlast.obBin.trans H.obBin, hlast.identify.trans H.identify,
      hlast.works.trans H.works, fun h => hlast.sent.trans (H.waits (hlast.identify ▸ h)),
      fun h h' => hlast.sent.trans (H.sent (hlast.identify ▸ h) h'), fun h h' => ?_⟩
    obtain ⟨hsent, hset⟩ := H.unsent (hlast.identify ▸ h) h'
    exact ⟨hlast.sent.trans hsent, hlast.firstrun hset⟩
  refine htried _ ?_
  dsimp only
  have hidentify : (s₁.identify || c.identifyBefore) = (s.identify || c.identifyBefore) := by
    rw [hfirst.identify]
  split
  · next hset =>
    exact ⟨hfirst.obBin, hidentify, hfirst.works, fun _ => hfirst.sent,
      fun h => absurd (hset.symm.trans h) (by decide),
      fun h => absurd (hset.symm.trans h) (by decide)⟩
  · next hset =>
    rw [Bool.not_eq_true] at hset
    split
    · next henabled =>
      rw [jobStart]
      dsimp only
      by_cases hstarts : (s₁.opened && c.started) = true
      · rw [if_pos hstarts]
        rw [Bool.and_eq_true_iff, hstill] at hstarts
        refine ⟨hfirst.obBin, hidentify, hfirst.works, fun h => ?_, fun _ _ => ?_,
          fun _ h => absurd ⟨henabled, hstarts.2, hstarts.1⟩ h⟩
        · exact absurd (hset.symm.trans h) Bool.false_ne_true
        · change (s₁.obBin.map .job).toList ++ s₁.sent = _
          rw [hfirst.obBin, hfirst.sent]
      · rw [if_neg hstarts]
        rw [Bool.and_eq_true_iff, hstill] at hstarts
        exact ⟨hfirst.obBin, hidentify, hfirst.works, fun _ => hfirst.sent,
          fun _ h => absurd ⟨h.2.2, h.2.1⟩ hstarts, fun _ _ => ⟨hfirst.sent, rfl⟩⟩
    · next henabled =>
      exact ⟨hfirst.obBin, hidentify, hfirst.works, fun _ => hfirst.sent,
        fun _ h => absurd h.1 henabled, fun _ _ => ⟨hfirst.sent, rfl⟩⟩

/-! ## The end of a call -/

/-- The works after a call that is not left early. -/
def Works.transition (w : Works W) (work : W) : Works W :=
  { w with
    last := some ⟨w.copies.length, work⟩
    last2 := w.last
    copies := ⟨w.copies.length, work⟩ :: w.copies
    freed := w.last2.toList.map Copy.id ++ w.freed }

theorem Works.Inv.transition {w : Works W} (H : w.Inv) (work : W) : (w.transition work).Inv where
  last := rfl
  last2 := H.last
  null := H.null
  custody := by
    have hcomes := H.custody.obtain (List.Perm.refl (w.copies.length ::
      (w.last.toList ++ w.last2.toList).map Copy.id))
    have hheld : ((w.transition work).last.toList ++ (w.transition work).last2.toList).map Copy.id =
        w.copies.length :: w.last.toList.map Copy.id := rfl
    rw [hheld]
    rw [List.map_append] at hcomes
    change Custody (w.copies.length + 1) _ (w.last2.toList.map Copy.id ++ w.freed)
    cases hlast2 : w.last2 with
    | none =>
      rw [hlast2] at hcomes
      simpa using hcomes
    | some c =>
      rw [hlast2] at hcomes
      refine hcomes.release (a := c.id) ?_
      exact @List.perm_append_comm _ (w.copies.length :: w.last.toList.map Copy.id) [c.id]

/-- What the processing of a result does: a copy is made, and the flag is cleared after an error, or
set where the device is sent a command. -/
structure Processed (c : Call W N) (r : Ret) (s s' : State W) : Prop where
  opened : s'.opened = s.opened
  obBin : s'.obBin = s.obBin
  identify : s'.identify = s.identify
  works : s'.works = s.works.transition c.work
  cleared : r = .error → s'.sent = s.sent ∧ s'.firstrun = false
  kept : r ≠ .error → s'.sent = s.sent ∧ s'.firstrun = s.firstrun ∨
    s'.firstrun = true ∧ c.detected = true

theorem processed_processResult (c : Call W N) (r : Ret) (s : State W) :
    Processed c r s (processResult c r s) := by
  cases r with
  | error => exact ⟨rfl, rfl, rfl, rfl, fun _ => ⟨rfl, rfl⟩, fun h => absurd rfl h⟩
  | restart => exact ⟨rfl, rfl, rfl, rfl, nofun, fun _ => .inl ⟨rfl, rfl⟩⟩
  | timeout => exact ⟨rfl, rfl, rfl, rfl, nofun, fun _ => .inl ⟨rfl, rfl⟩⟩
  | ok hwError =>
    rw [processResult]
    split
    · next hdetected => exact ⟨rfl, rfl, rfl, rfl, nofun, fun _ => .inr ⟨rfl, hdetected⟩⟩
    · exact ⟨rfl, rfl, rfl, rfl, nofun, fun _ => .inl ⟨rfl, rfl⟩⟩

/-- **After the device has identified itself**, either the job of the call was sent, or none is
running. -/
theorem handleIdentify_spec (hlast : s.works.last ≠ none) (hset : s.identify = true)
    (wasFirstRun : Bool) {work : W} (hwork : s.obBin = some work) :
    (handleIdentify c wasFirstRun s).works = s.works ∧
      ((handleIdentify c wasFirstRun s).firstrun = false →
        (handleIdentify c wasFirstRun s).identify = false →
        (handleIdentify c wasFirstRun s).sent.head? = some (.job work)) := by
  have hsame : (if (!wasFirstRun && c.nonces) = true then useLast s else s) = s := by
    rw [useLast_eq hlast, ite_self]
  rw [handleIdentify, hsame]
  split
  · exact ⟨rfl, fun _ h => absurd (h.symm.trans hset) Bool.false_ne_true⟩
  · dsimp only
    split
    · exact ⟨rfl, nofun⟩
    · split
      · rw [jobStart]
        split
        · refine ⟨rfl, fun _ _ => ?_⟩
          simp only [if_true, hwork, Option.map_some, Option.toList_some, List.singleton_append,
            List.head?_cons]
        · exact ⟨rfl, nofun⟩
      · next hrun =>
        refine ⟨rfl, fun h => absurd ?_ hrun⟩
        rw [Bool.not_eq_true']
        exact h

/-- **The end of a call** leaves the works in order, and the job of its work sent, unless the call
had no result and did not start it. -/
theorem finish_spec (hopened : s.opened = true) (hwork : s.obBin = some c.work)
    (wasFirstRun : Bool) :
    (finish c wasFirstRun r s).works = s.works.transition c.work ∧
      (((finish c wasFirstRun r s).firstrun = false →
          (finish c wasFirstRun r s).identify = false →
          (finish c wasFirstRun r s).sent.head? = some (.job c.work)) ↔
        ¬(r = .error ∧ ¬c.Starts r ∧ s.identify = false ∧ c.identifyBefore = false ∧
          c.identifyAfter = false ∧ s.sent.head? ≠ some (.job c.work))) := by
  have htried := tried_startNext hopened c r
  have hdone := processed_processResult c r (startNext c r s)
  rw [finish]
  dsimp only
  generalize startNext c r s = t at htried hdone
  generalize processResult c r t = u at hdone
  have hjob : u.obBin = some c.work := (hdone.obBin.trans htried.obBin).trans hwork
  have hlast : u.works.last ≠ none := by
    rw [hdone.works]
    exact Option.some_ne_none _
  have hworks : u.works = s.works.transition c.work := by rw [hdone.works, htried.works]
  have hidentify : u.identify = (s.identify || c.identifyBefore) :=
    hdone.identify.trans htried.identify
  by_cases hset : (u.identify || c.identifyAfter) = true
  · rw [if_pos hset]
    obtain ⟨hkeep, hsent⟩ := @handleIdentify_spec W N c
      { u with identify := u.identify || c.identifyAfter } hlast hset wasFirstRun _ hjob
    refine ⟨hkeep.trans hworks, iff_of_true hsent ?_⟩
    rintro ⟨-, -, h₁, h₂, h₃, -⟩
    rw [hidentify, h₁, h₂, h₃] at hset
    exact Bool.false_ne_true hset
  · rw [if_neg hset]
    refine ⟨hworks, ?_⟩
    rw [Bool.not_eq_true, Bool.or_eq_false_iff] at hset
    have htidentify : t.identify = false := hdone.identify.symm.trans hset.1
    obtain ⟨h₁, h₂⟩ := Bool.or_eq_false_iff.mp (hidentify.symm.trans hset.1)
    have hnone : (u.identify || c.identifyAfter) = false := by rw [hset.1, hset.2]; rfl
    by_cases hstarts : c.Starts r
    · -- the job was sent, and nothing since unless the flag is set
      have htsent := htried.sent htidentify hstarts
      rw [hwork] at htsent
      refine iff_of_true (fun hfirst _ => ?_) (fun h => h.2.1 hstarts)
      have husent : u.sent = t.sent := by
        by_cases hr : r = .error
        · exact (hdone.cleared hr).1
        · rcases hdone.kept hr with h | h
          · exact h.1
          · exact absurd (h.1.symm.trans hfirst) (by decide)
      change u.sent.head? = _
      rw [husent, htsent]
      rfl
    · obtain ⟨htsent, hflag⟩ := htried.unsent htidentify hstarts
      by_cases hr : r = .error
      · obtain ⟨husent, hclear⟩ := hdone.cleared hr
        have hhead : u.sent.head? = s.sent.head? := by rw [husent, htsent]
        constructor
        · intro h hbad
          exact hbad.2.2.2.2.2 (hhead.symm.trans (h hclear hnone))
        · intro h _ _
          by_contra hne
          exact h ⟨hr, hstarts, h₁, h₂, hset.2, fun h' => hne (hhead.trans h')⟩
      · refine iff_of_true (fun hfirst _ => ?_) (fun h => hr h.1)
        have huflag : u.firstrun = true := by
          rcases hdone.kept hr with h | h
          · exact h.2.trans hflag
          · exact h.1
        exact absurd (huflag.symm.trans hfirst) (by decide)

/-! ## Runs -/

/-- A running job has a work. -/
def Running (s : State W) : Prop := s.firstrun = false → s.works.last ≠ none

/-- **One step** keeps a running job to have a work. -/
theorem Running.step (H : Running s) {e : Event W N} (hstep : step test s e = some s') :
    Running s' := by
  cases e with
  | identify =>
    obtain rfl := Option.some.inj hstep
    exact H
  | scanhash c =>
    obtain ⟨⟨ret, s₁⟩, hresult, hs'⟩ := Option.map_eq_some_iff.mp hstep
    have hwaited := waited_result H hresult
    have hkept : s₁.works = s.works := hwaited.works
    cases ret with
    | none =>
      obtain rfl : s₁ = s' := hs'
      exact fun h => hkept ▸ H (hwaited.firstrun h)
    | some r =>
      obtain rfl : finish c s.firstrun r s₁ = s' := hs'
      obtain ⟨hworks, -⟩ := finish_spec (hwaited.opened nofun) hwaited.obBin s.firstrun
        (c := c) (r := r)
      intro _
      rw [hworks]
      exact Option.some_ne_none _

/-- **One step** keeps the works in order.  It is lawful exactly if it does not take a job to be
running that was not started. -/
theorem lawful_step_iff (H : Lawful s) (hrunning : Running s) {e : Event W N}
    (hstep : step test s e = some s') : Lawful s' ↔ ¬Unstarted test s e := by
  cases e with
  | identify =>
    obtain rfl := Option.some.inj hstep
    exact iff_of_true ⟨fun _ h => (nomatch h), H.works⟩ id
  | scanhash c =>
    obtain ⟨⟨ret, s₁⟩, hresult, hs'⟩ := Option.map_eq_some_iff.mp hstep
    have hwaited := waited_result hrunning hresult
    have hkept : s₁.works = s.works := hwaited.works
    cases ret with
    | none =>
      obtain rfl : s₁ = s' := hs'
      have hlawful : Lawful s₁ := by
        refine ⟨fun h h' => ?_, hkept ▸ H.works⟩
        obtain ⟨cp, hlast, hsent⟩ :=
          H.handed (hwaited.firstrun h) (hwaited.identify.symm.trans h')
        exact ⟨cp, hkept ▸ hlast, (congrArg List.head? hwaited.sent).trans hsent⟩
      refine iff_of_true hlawful ?_
      rintro ⟨⟨s₂, hresult₂⟩, -⟩
      rw [hresult] at hresult₂
      exact nomatch congrArg Prod.fst (Option.some.inj hresult₂)
    | some r =>
      obtain rfl : finish c s.firstrun r s₁ = s' := hs'
      obtain ⟨hworks, hiff⟩ := finish_spec (hwaited.opened nofun) hwaited.obBin s.firstrun
        (c := c) (r := r)
      rw [hkept] at hworks
      have hlaw : Lawful (finish c s.firstrun r s₁) ↔
          ((finish c s.firstrun r s₁).firstrun = false →
            (finish c s.firstrun r s₁).identify = false →
              (finish c s.firstrun r s₁).sent.head? = some (.job c.work)) := by
        constructor
        · intro h h₁ h₂
          obtain ⟨cp, hlast, hsent⟩ := h.handed h₁ h₂
          rw [hworks] at hlast
          obtain rfl := Option.some.inj hlast
          exact hsent
        · intro h
          exact ⟨fun h₁ h₂ => ⟨_, congrArg Works.last hworks, h h₁ h₂⟩,
            hworks ▸ H.works.transition c.work⟩
      rw [hlaw, hiff, hwaited.identify, hwaited.sent]
      refine not_congr ⟨?_, ?_⟩
      · rintro ⟨rfl, h⟩
        exact ⟨⟨s₁, hresult⟩, h⟩
      · rintro ⟨⟨s₂, hresult₂⟩, h⟩
        rw [hresult] at hresult₂
        obtain rfl : r = .error := Option.some.inj (congrArg Prod.fst (Option.some.inj hresult₂))
        exact ⟨rfl, h⟩

/-- What identifying itself may send. -/
theorem sent_handleIdentify (wasFirstRun : Bool) {work : W} (hwork : s.obBin = some work) :
    (handleIdentify c wasFirstRun s).sent = s.sent ∨
      (handleIdentify c wasFirstRun s).sent = .job work :: s.sent := by
  have hsame : (if (!wasFirstRun && c.nonces) = true then useLast s else s).sent = s.sent ∧
      (if (!wasFirstRun && c.nonces) = true then useLast s else s).obBin = s.obBin := by
    split <;> exact ⟨rfl, rfl⟩
  rw [handleIdentify]
  generalize (if (!wasFirstRun && c.nonces) = true then useLast s else s) = s₁ at hsame
  split
  · exact .inl rfl
  · dsimp only
    split
    · exact .inl hsame.1
    · split
      · rw [jobStart]
        split
        · refine .inr ?_
          simp only [if_true, hsame.2, hwork, hsame.1, Option.map_some, Option.toList_some,
            List.singleton_append]
        · exact .inl hsame.1
      · exact .inl hsame.1

/-- **A smooth call** sends its job, once or twice. -/
theorem sent_finish (hc : c.Smooth) (hopened : s.opened = true) (hwork : s.obBin = some c.work)
    (hrun : r ≠ .error → s.firstrun = false) (wasFirstRun : Bool) :
    ∃ k, (finish c wasFirstRun r s).sent = List.replicate (k + 1) (.job c.work) ++ s.sent := by
  have hstarts : c.Starts r := ⟨hc.enabled, hc.started, fun _ => hc.reopenedNow⟩
  have htried := tried_startNext hopened c r
  have hdone := processed_processResult c r (startNext c r s)
  have hwaits : (s.identify || c.identifyBefore) = true →
      startNext c r s = { s with identify := true } := by
    intro hset
    rw [startNext, reopen_ite_of_ok hopened hc.reopenedNow]
    dsimp only
    rw [if_pos hset, @reopen_ite_of_ok W (c.mode = .cycle) _
      { s with identify := s.identify || c.identifyBefore } _ hopened hc.reopenedCycle, hset]
  rw [finish]
  dsimp only
  generalize startNext c r s = t at htried hdone hwaits
  generalize processResult c r t = u at hdone
  have hjob : u.obBin = some c.work := (hdone.obBin.trans htried.obBin).trans hwork
  have husent : u.sent = t.sent ∧ (t.firstrun = false → u.firstrun = false) := by
    by_cases hr : r = .error
    · exact ⟨(hdone.cleared hr).1, fun _ => (hdone.cleared hr).2⟩
    · rcases hdone.kept hr with h | h
      · exact ⟨h.1, fun h' => h.2.trans h'⟩
      · exact absurd (h.2.symm.trans hc.detected) (by decide)
  cases hset : s.identify || c.identifyBefore with
  | false =>
    have htsent := htried.sent (htried.identify.trans hset) hstarts
    rw [hwork] at htsent
    have hfirst : u.sent = List.replicate 1 (.job c.work) ++ s.sent := husent.1.trans htsent
    split
    · rcases sent_handleIdentify (c := c) wasFirstRun
        (s := { u with identify := u.identify || c.identifyAfter }) hjob with h | h
      · exact ⟨0, h.trans hfirst⟩
      · refine ⟨1, h.trans ?_⟩
        rw [hfirst]
        rfl
    · exact ⟨0, hfirst⟩
  | true =>
    -- the job is sent once the device has identified itself
    obtain rfl := hwaits hset
    have huidentify : (u.identify || c.identifyAfter) = true := by rw [hdone.identify, Bool.true_or]
    have huflag : u.firstrun = false := by
      by_cases hr : r = .error
      · exact (hdone.cleared hr).2
      · exact husent.2 (hrun hr)
    have hulast : u.works.last ≠ none := by
      rw [hdone.works]
      exact Option.some_ne_none _
    rw [if_pos huidentify, handleIdentify]
    have huopened : u.opened = true := hdone.opened.trans hopened
    have hsame : (if (!wasFirstRun && c.nonces) = true then
        useLast { u with identify := u.identify || c.identifyAfter }
        else { u with identify := u.identify || c.identifyAfter }) =
          { u with identify := u.identify || c.identifyAfter } := by
      have huse := @useLast_eq W { u with identify := u.identify || c.identifyAfter } hulast
      rw [huse, ite_self]
    rw [hsame]
    refine ⟨0, ?_⟩
    simp only [huopened, hc.restart, huflag, jobStart, hc.startedLater, Bool.not_true,
      Bool.not_false, Bool.and_self, Bool.false_eq_true, if_false, if_true]
    rw [hjob, husent.1]
    rfl

/-- **One smooth step** keeps the jobs in order. -/
theorem InOrder.step {e : Event W N} (he : e.Smooth) (hrunning : Running s)
    (hline : s.sent.head? = s.works.last.map fun c => .job c.work) (H : InOrder s)
    (hstep : step test s e = some s') :
    (s'.sent.head? = s'.works.last.map fun c => .job c.work) ∧ InOrder s' := by
  cases e with
  | identify =>
    obtain rfl := Option.some.inj hstep
    exact ⟨hline, H⟩
  | scanhash c =>
    obtain ⟨⟨ret, s₁⟩, hresult, hs'⟩ := Option.map_eq_some_iff.mp hstep
    have hwaited := waited_result hrunning hresult
    have hsent : s₁.sent = s.sent := hwaited.sent
    have hkept : s₁.works = s.works := hwaited.works
    cases ret with
    | none =>
      obtain rfl : s₁ = s' := hs'
      rw [InOrder, hsent, hkept]
      exact ⟨hline, H⟩
    | some r =>
      obtain rfl : finish c s.firstrun r s₁ = s' := hs'
      have hrun : r ≠ .error → s₁.firstrun = false := hwaited.running r rfl
      obtain ⟨k, hmore⟩ := sent_finish he (hwaited.opened nofun) hwaited.obBin hrun s.firstrun
      obtain ⟨hworks, -⟩ := finish_spec (hwaited.opened nofun) hwaited.obBin s.firstrun
        (c := c) (r := r)
      rw [hkept] at hworks
      rw [hsent] at hmore
      rw [InOrder, hmore, hworks]
      refine ⟨rfl, fun cp hcp => ⟨k, s.sent, ?_, hline⟩⟩
      obtain rfl := Option.some.inj hcp
      rfl

/-- **The runs in which results are attributed to jobs that were sent** are exactly those in which
no call takes its job to be running that it has not started.  If every call starts its job, the one
before is `last2_work`. -/
theorem allSteps_attributed_iff (test : W → N → Bool) (opened : Bool) (es : List (Event W N)) :
    (Run.AllSteps (step test) (fun _ _ s' => Lawful s') (init opened) es ↔
        Run.AllSteps (step test) (fun s e _ => ¬Unstarted test s e) (init opened) es) ∧
      (Run.AllSteps (step test) (fun _ e _ => e.Smooth) (init opened) es →
        Run.AllSteps (step test) (fun _ _ s' => InOrder s') (init opened) es) := by
  have hworks : (init opened : State W).works.Inv := ⟨rfl, rfl, rfl, Custody.zero⟩
  have hrunning : Running (init opened : State W) := nofun
  have hhanded : (init opened : State W).Handed := fun h => nomatch (show true = false from h)
  constructor
  · have hiff : ∀ (s : State W) (e : Event W N) s', (Lawful s ∧ Running s) →
        step test s e = some s' → (Lawful s' ↔ ¬Unstarted test s e) :=
      fun s e s' H hstep => lawful_step_iff H.1 H.2 hstep
    have hkeep : ∀ (s : State W) (e : Event W N) s', (Lawful s ∧ Running s) →
        step test s e = some s' → Lawful s' → Lawful s' ∧ Running s' :=
      fun s e s' H hstep hlaw => ⟨hlaw, H.2.step hstep⟩
    exact Run.allSteps_congr hiff hkeep es ⟨⟨hhanded, hworks⟩, hrunning⟩
  · refine Run.allSteps_imp_of_invariant (I := fun s => Running s ∧
      (s.sent.head? = s.works.last.map fun c => .job c.work) ∧ InOrder s) ?_
      ⟨hrunning, rfl, nofun⟩
    intro s e s' ⟨hrunning, hline, H⟩ hstep he
    obtain ⟨hline', H'⟩ := H.step he hrunning hline hstep
    exact ⟨⟨hrunning.step hstep, hline', H'⟩, H'⟩

end

/-- A first call whose job is not started. -/
def unstarted : Call ℕ ℕ where
  work := 0
  mode := .timeout
  reopened := true
  reads := []
  reopenNow := false
  reopenedNow := true
  identifyBefore := false
  enabled := true
  started := false
  reopenedCycle := true
  detected := false
  identifyAfter := false
  nonces := false
  restart := false
  startedLater := true

theorem not_lawful_unstarted : ¬Run.AllSteps (step fun _ _ => true) (fun _ _ s' => Lawful s')
    (init true) [.scanhash unstarted] := by
  intro H
  obtain ⟨c, -, hsent⟩ := (H _ rfl).1.handed rfl rfl
  cases hsent

end Icarus
end MassGridMiner

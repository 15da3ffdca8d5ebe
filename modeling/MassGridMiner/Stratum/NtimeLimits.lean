import MassGridMiner.Lib.Run
import MassGridMiner.Stratum.GenWork

/-!
# The time limits of a job

The limits within which the time of a work may be rolled belong to its job.  `parse_notify` sets
them in the record that works are generated from.  `work_decode` sets those of a template in the
work that the template came with, and leaves the record alone: works that are generated
from the template have the limits of the last notification before it.

## Main definitions

* `TimedTemplate`, `genLimitedWork` — a template and a work with their limits.
* `JobRun`, `JobRun.step` — the pool under installations, with the limits its works should have.
* `JobRun.Carries`, `JobRun.Noticed` — the limits are right, and when they are.
* `JobRun.allSteps_carries_iff` — the two hold of the same runs.
-/

namespace MassGridMiner

/-- A template with the limits of its time. -/
structure TimedTemplate extends BlockTemplate where
  mintime : UInt32
  maxtime : UInt32
  mintimeoff : ℤ
  maxtimeoff : ℤ

/-- The limits that `work_decode` sets in its own work, at time `now`. -/
def TimedTemplate.ntimeRollLimits (tmpl : TimedTemplate) (now : ℕ) : NtimeRollLimits :=
  { min := tmpl.mintime
    max := tmpl.maxtime
    tvRef := now
    minoff := tmpl.mintimeoff
    maxoff := tmpl.maxtimeoff }

/-- A work with the limits of its time. -/
structure LimitedWork extends Work where
  ntimeRollLimits : NtimeRollLimits

section
variable (genHash : List UInt8 → Hash)

/-- `gen_stratum_work3`, which copies the limits of the job. -/
def genLimitedWork3 (now : ℕ) (work : Work) (swork : StratumWork) : LimitedWork :=
  { genStratumWork3 genHash now work swork with ntimeRollLimits := swork.ntimeRollLimits }

/-- `gen_stratum_work`: the work, and the pool as it is left. -/
def genLimitedWork (now : ℕ) (mem : ℕ → UInt8) (workPool : Pool) (pool : StratumPool) :
    LimitedWork × StratumPool :=
  let swork := writeNonce2 pool.swork (fillNonce2 mem pool)
  (genLimitedWork3 genHash now (Work.zero workPool) swork,
    { pool with swork := swork, nonce2 := pool.nonce2 + 1 })

/-- But for its limits the work is the one that was generated before. -/
theorem genLimitedWork_eq (now : ℕ) (mem : ℕ → UInt8) (workPool : Pool) (pool : StratumPool) :
    (genLimitedWork genHash now mem workPool pool).1.toWork =
        (genStratumWork genHash now mem workPool pool).1.work ∧
      (genLimitedWork genHash now mem workPool pool).2 =
        (genStratumWork genHash now mem workPool pool).2 :=
  ⟨rfl, rfl⟩

end

/-- What happens to the job of a pool. -/
inductive InstallEvent
  | notify (env : NotifyEnv) (val : Option Json)
  | template (now : ℕ) (target : Hash) (tmpl : TimedTemplate)
  | setExtranonce (env : ReplyEnv) (val : Json) (params : Option Json)
  | gen (now : ℕ) (mem : ℕ → UInt8) (workPool : Pool)

/-- A pool, the limits of the job that was installed last, if any was, and those of the last
notification, or of the record before the first. -/
structure JobRun where
  pool : StratumPool
  due : Option NtimeRollLimits
  noticed : NtimeRollLimits

namespace JobRun

/-- A pool before its first job. -/
def start (pool : StratumPool) : JobRun := ⟨pool, none, pool.swork.ntimeRollLimits⟩

/-- What a notification leaves behind: its job has the limits for its time, or it was refused. -/
def notify (s : JobRun) (env : NotifyEnv) (val : Option Json) : JobRun :=
  let pool := (parseNotify env s.pool val).2
  let limits := setSimpleNtimeRollLimit pool.swork.ntime 60 env.now
  if (parseNotify env s.pool val).1 then { pool := pool, due := some limits, noticed := limits }
  else { s with pool := pool }

/-- What a template leaves behind: its job has its limits, or the library made no job of it. -/
def template (s : JobRun) (now : ℕ) (target : Hash) (tmpl : TimedTemplate) : JobRun :=
  match installTemplate now target s.pool tmpl.toBlockTemplate with
  | some pool => { s with pool := pool, due := some (tmpl.ntimeRollLimits now) }
  | none => s

section
variable (genHash : List UInt8 → Hash)

/-- A step of the pool.  Works are generated once there is a job. -/
def step (s : JobRun) : InstallEvent → Option JobRun
  | .notify env val => some (s.notify env val)
  | .template now target tmpl => some (s.template now target tmpl)
  | .setExtranonce env val params =>
    some { s with pool := (stratumSetExtranonce env s.pool val params).pool }
  | .gen now mem workPool =>
    s.due.map fun _ => { s with pool := (genLimitedWork genHash now mem workPool s.pool).2 }

/-- A work that is generated carries the limits of the job that was installed last. -/
def Carries (s : JobRun) : InstallEvent → JobRun → Prop
  | .gen now mem workPool, _ =>
    s.due = some (genLimitedWork genHash now mem workPool s.pool).1.ntimeRollLimits
  | _, _ => True

/-- When a work is generated, the job installed last has the limits of the last notification:
the job came with it, or from a template with the same limits. -/
def Noticed (s : JobRun) : InstallEvent → JobRun → Prop
  | .gen .., _ => s.due = some s.noticed
  | _, _ => True

/-- The record holds the limits of the last notification. -/
def Holds (s : JobRun) : Prop := s.pool.swork.ntimeRollLimits = s.noticed

theorem holds_start (pool : StratumPool) : (start pool).Holds := rfl

/-! ## What a step does to the limits -/

/-- A notification that is accepted sets the limits for its time. -/
theorem ntimeRollLimits_parseNotify {env : NotifyEnv} {pool : StratumPool} {val : Option Json}
    (H : (parseNotify env pool val).1 = true) :
    (parseNotify env pool val).2.swork.ntimeRollLimits =
      setSimpleNtimeRollLimit (parseNotify env pool val).2.swork.ntime 60 env.now := by
  cases hfields : notifyFields val with
  | none =>
      rw [parseNotify_of_none hfields] at H
      cases H
  | some fields =>
      simp only [parseNotify, hfields]
      split <;> rfl

theorem parseNotify_of_refused {env : NotifyEnv} {pool : StratumPool} {val : Option Json}
    (H : (parseNotify env pool val).1 = false) : (parseNotify env pool val).2 = pool := by
  cases hfields : notifyFields val with
  | none => rw [parseNotify_of_none hfields]
  | some fields =>
      rw [(parseNotify_of_some env pool hfields).1] at H
      cases H

/-- A template leaves the limits as they are. -/
theorem ntimeRollLimits_installTemplate {now : ℕ} {target : Hash} {pool pool' : StratumPool}
    {tmpl : BlockTemplate} (H : installTemplate now target pool tmpl = some pool') :
    pool'.swork.ntimeRollLimits = pool.swork.ntimeRollLimits := by
  obtain ⟨mdata, -, hpool⟩ := Option.map_eq_some_iff.mp H
  rw [← hpool]

theorem Holds.notify {s : JobRun} (H : s.Holds) (env : NotifyEnv) (val : Option Json) :
    (s.notify env val).Holds := by
  rw [JobRun.notify]
  by_cases haccepted : (parseNotify env s.pool val).1 = true
  · rw [if_pos haccepted]
    exact ntimeRollLimits_parseNotify haccepted
  · rw [if_neg haccepted, parseNotify_of_refused (Bool.eq_false_iff.mpr haccepted)]
    exact H

theorem Holds.template {s : JobRun} (H : s.Holds) (now : ℕ) (target : Hash)
    (tmpl : TimedTemplate) : (s.template now target tmpl).Holds := by
  rw [JobRun.template]
  cases hpool : installTemplate now target s.pool tmpl.toBlockTemplate with
  | none => exact H
  | some pool => exact (ntimeRollLimits_installTemplate hpool).trans H

theorem Holds.setExtranonce {s : JobRun} (H : s.Holds) (env : ReplyEnv) (val : Json)
    (params : Option Json) :
    Holds { s with pool := (stratumSetExtranonce env s.pool val params).pool } := by
  rw [stratumSetExtranonce]
  split
  · exact H
  · exact H

/-- Every step keeps the limits of the last notification in the record. -/
theorem Holds.step {s s' : JobRun} (H : s.Holds) {e : InstallEvent}
    (hstep : step genHash s e = some s') : s'.Holds := by
  cases e with
  | notify env val => exact Option.some.inj hstep ▸ H.notify env val
  | template now target tmpl => exact Option.some.inj hstep ▸ H.template now target tmpl
  | setExtranonce env val params => exact Option.some.inj hstep ▸ H.setExtranonce env val params
  | gen now mem workPool =>
      obtain ⟨_, -, hs'⟩ := Option.map_eq_some_iff.mp hstep
      rw [← hs']
      exact H

/-- A work gets what the record holds. -/
theorem Holds.carries_iff {s : JobRun} (H : s.Holds) (e : InstallEvent) (s' : JobRun) :
    s.Carries genHash e s' ↔ s.Noticed e s' := by
  cases e with
  | gen now mem workPool =>
      have hwork : (genLimitedWork genHash now mem workPool s.pool).1.ntimeRollLimits =
          s.noticed := H
      rw [Carries, Noticed, hwork]
  | notify env val => exact Iff.rfl
  | template now target tmpl => exact Iff.rfl
  | setExtranonce env val params => exact Iff.rfl

/-- **When works carry the limits of their job.**  In every run they do exactly when no work is
generated from a template with limits other than those of the last notification. -/
theorem allSteps_carries_iff (pool : StratumPool) (es : List InstallEvent) :
    Run.AllSteps (step genHash) (Carries genHash) (start pool) es ↔
      Run.AllSteps (step genHash) Noticed (start pool) es :=
  Run.allSteps_congr (fun _ e s' hs _ => hs.carries_iff genHash e s')
    (fun _ _ _ hs hstep _ => hs.step genHash hstep) es (holds_start pool)

end

/-- A template with a minute before and behind its time. -/
def plainTemplate : TimedTemplate where
  usable := true
  gentx := ⟨List.replicate 60 0, by decide⟩
  roomFor := fun _ => true
  commitment := some none
  header := .replicate 80 0
  branches := []
  mintime := 1000
  maxtime := 1120
  mintimeoff := -60
  maxtimeoff := 60

/-- The first work of a pool that has only had a template may not be rolled at all. -/
theorem not_allSteps_carries_plainTemplate :
    ¬ Run.AllSteps (step fun _ => Hash.zero) (Carries fun _ => Hash.zero) (start subscribedPool)
      [.template 1060 Hash.ones plainTemplate,
        .gen 1060 (fun _ => 0) ⟨.no, true, Hash.ones⟩] := by
  intro H
  have hgen := (H _ rfl).2 _ rfl
  have hlimits := congrArg (Option.map NtimeRollLimits.max) hgen.1
  exact absurd hlimits (by decide)

end JobRun

end MassGridMiner

import MassGridMiner.Lib.HexNumber
import MassGridMiner.Lib.Run
import MassGridMiner.Proxy.NotifyStr
import Mathlib.Data.Fintype.Card

/-!
# The jobs of the proxy

The proxy keeps the jobs that it has sent to its miners, the text of the last one, and a pointer
to that.  Where the job of the pool is as good as the last one it is not sent again, whether
shares for the last one are still taken or not.

## Main definitions

* `Upstream`, `DummyWork`, `StaleEnv.staleWork` — the pool, and what is stale for it.
* `JobBoard` — the jobs, and the memory that they are in.
* `JobBoard.step` — changes of the pool's job, updates, subscriptions and boots, in any order.
* `JobBoard.Coherent` — no pointer leads to a job that was freed, and jobs have different ids.
* `JobBoard.Lawful`, `JobBoard.SkipsFresh` — the miners are left with a job whose shares are
  taken, and when they are.
* `JobBoard.allSteps_lawful_iff_skipsFresh` — the two hold of the same runs.
-/

namespace MassGridMiner

/-- `struct stratum_work`, with the number of the restart that it is from, and whether it is from
a template. -/
structure SharedSwork extends StratumWork where
  workRestartId : UInt8
  tr : Bool

/-- The part of `struct pool` that the proxy and `stale_work` read. -/
structure Upstream where
  swork : SharedSwork
  blockId : UInt32
  submitOld : Bool
  workRestartId : UInt8
  hasStratum : Bool
  stratumActive : Bool
  stratumNotify : Bool

/-- The part of `struct work` that `stale_work` reads. -/
structure DummyWork where
  blockId : UInt32
  workRestartId : UInt8
  rolltime : ℕ
  tr : Bool
  jobId : Option CStr
  tvStaged : ℕ
  mandatory : Bool

/-- `work2d_gen_dummy_work_for_stale_check`. -/
def work2dGenDummyWorkForStaleCheck (swork : SharedSwork) (tvPrepared : ℕ) : DummyWork where
  blockId := UInt32.ofNat (leNat ((swork.header1.toList.drop 4).take 4))
  workRestartId := swork.workRestartId
  rolltime := 0
  tr := swork.tr
  jobId := swork.jobId
  tvStaged := tvPrepared
  mandatory := false

/-- What `stale_work` depends on besides the pool and the work: the time, the options, the block
of the chain, and how long getworks take, in seconds.  There is one pool. -/
structure StaleEnv where
  now : ℕ
  optScantime : ℕ
  optExpiry : ℕ
  optExpiryLp : ℕ
  optFailOnly : Bool
  haveLongpoll : Bool
  currentBlockId : UInt32
  getworkDelay : ℕ
  poolActivelyInUse : Bool
  enabledPools : ℕ
  enabledPools_le : enabledPools ≤ 1

/-- `stale_work`.  A number of seconds that is negative is a large one when it is compared. -/
def StaleEnv.staleWork (env : StaleEnv) (pool : Upstream) (work : DummyWork) (share : Bool) :
    Bool :=
  let workExpiry := if work.rolltime ≥ env.optScantime || work.tr then work.rolltime
    else env.optExpiry
  let workExpiry := min workExpiry (if env.haveLongpoll then env.optExpiryLp else env.optExpiry)
  let otherBlock := pool.blockId != 0 && pool.blockId != work.blockId
  let otherRestart := work.workRestartId != pool.workRestartId
  let outdated :=
    if share then otherBlock || (!pool.submitOld && otherRestart)
    else
      (if env.enabledPools ≤ 1 || env.optFailOnly then otherBlock
        else work.blockId != env.currentBlockId) || otherRestart ||
        (pool.hasStratum && work.jobId.isSome &&
          (!pool.stratumActive || !pool.stratumNotify || work.jobId != pool.swork.jobId))
  let workExpiry :=
    if share then workExpiry
    else if workExpiry ≤ env.getworkDelay + 5 then 5 else workExpiry - env.getworkDelay
  outdated || decide (workExpiry < (UInt32.ofInt ((env.now : ℤ) - work.tvStaged)).toNat) ||
    (env.optFailOnly && !share && !work.mandatory && !env.poolActivelyInUse)

/-- What `stratumsrv_update_notify_str` depends on besides: the address that `malloc` returns,
whether the template has time left, and whether this is a benchmark. -/
structure UpdateEnv extends StaleEnv where
  addr : UInt64
  timeLeft : Bool
  optBenchmark : Bool

/-- `pool_has_usable_swork`. -/
def UpdateEnv.poolHasUsableSwork (env : UpdateEnv) (pool : Upstream) : Bool :=
  env.optBenchmark || if pool.swork.tr then env.timeLeft else pool.stratumNotify

/-- `struct stratumsrv_job`, and where it is in memory. -/
structure BoardJob where
  addr : UInt64
  myJobId : List UInt8
  tvPrepared : ℕ
  swork : SharedSwork

/-- The work that is prepared for a job. -/
def BoardJob.dummyWork (job : BoardJob) : DummyWork :=
  work2dGenDummyWorkForStaleCheck job.swork job.tvPrepared

/-- The jobs of the stratum server in the order in which they were added, the addresses that
`malloc` has returned for jobs and that were not freed, the other variables of the server, and
its pool. -/
structure JobBoard where
  jobs : List BoardJob
  heap : List UInt64
  lastSsj : Option UInt64
  notify : Option (List UInt8)
  curJobWork : Option DummyWork
  ssmJobid : UInt64
  pool : Upstream

namespace JobBoard

/-- The job that `_ssm_last_ssj` points to. -/
def lastJob (s : JobBoard) : Option BoardJob :=
  s.lastSsj.bind fun addr => s.jobs.find? fun job => job.addr == addr

/-- `_ssj_free` of the jobs at the front, up to the first that does not expire; the jobs and the
addresses that are left. -/
def freeWhile (expires : BoardJob → Bool) :
    List BoardJob → List UInt64 → List BoardJob × List UInt64
  | [], heap => ([], heap)
  | job :: rest, heap =>
    if expires job then freeWhile expires rest (heap.erase job.addr) else (job :: rest, heap)

/-- The jobs that make way for a new one: all of them where shares for the last are stale, else
those that `stratumsrv_job_pruner` frees. -/
def expires (env : UpdateEnv) (clean : Bool) (job : BoardJob) : Bool :=
  clean || !decide ((Int32.ofInt ((env.now : ℤ) - job.tvPrepared)).toInt ≤ env.optExpiry)

/-- `stratumsrv_boot_all_subscribed`, but for what it sends. -/
def bootAllSubscribed (s : JobBoard) : JobBoard := { s with notify := none, lastSsj := none }

/-- What `stratumsrv_update_notify_str` finds out. -/
def notifyEnv (s : JobBoard) (env : UpdateEnv) : NotifyStrEnv where
  now := env.now
  ssmJobid := s.ssmJobid
  usable := env.poolHasUsableSwork s.pool
  isStale := env.staleWork s.pool (work2dGenDummyWorkForStaleCheck s.pool.swork env.now) false
  clean := match s.curJobWork with
    | some work => env.staleWork s.pool work true
    | none => true

/-- A new job takes the place of those that expire. -/
def advertise (s : JobBoard) (env : UpdateEnv) (ssj : StratumsrvJob) (notify : List UInt8) :
    JobBoard :=
  let job : BoardJob :=
    { addr := env.addr, myJobId := ssj.myJobId, tvPrepared := ssj.tvPrepared
      swork := s.pool.swork }
  let left := freeWhile (expires env (s.notifyEnv env).clean) s.jobs (env.addr :: s.heap)
  { s with
    jobs := left.1 ++ [job]
    heap := left.2
    lastSsj := some env.addr
    notify := some notify
    curJobWork := some job.dummyWork
    ssmJobid := s.ssmJobid + 1 }

/-- `stratumsrv_update_notify_str`, but for what it sends.  What `malloc` returns is no null
pointer and was freed if it had been returned before. -/
def updateNotifyStr (s : JobBoard) (env : UpdateEnv) : Option JobBoard :=
  match stratumsrvUpdateNotifyStr (s.notifyEnv env)
      (s.lastJob.map fun job => job.swork.toStratumWork) s.pool.swork.toStratumWork with
  | .fail => some (if (s.notifyEnv env).clean then s.bootAllSubscribed else s)
  | .ignored => some s
  | .skipped => some s
  | .advertised ssj notify =>
    if env.addr = 0 ∨ env.addr ∈ s.heap then none else some (s.advertise env ssj notify.text)

/-- What happens: the pool changes in whatever way, the timer or the notifier has the job
updated, a miner subscribes, or all are booted. -/
inductive Event
  | upstream (pool : Upstream)
  | update (env : UpdateEnv)
  | subscribe (env : UpdateEnv)
  | bootAll

/-- The call of `stratumsrv_update_notify_str` that an event makes; a subscription makes one where
there is nothing to send. -/
def updates (s : JobBoard) : Event → Option UpdateEnv
  | .update env => some env
  | .subscribe env => if s.notify.isNone then some env else none
  | .upstream _ | .bootAll => none

def step (s : JobBoard) (e : Event) : Option JobBoard :=
  match s.updates e, e with
  | some env, _ => s.updateNotifyStr env
  | none, .upstream pool => some { s with pool }
  | none, .bootAll => some s.bootAllSubscribed
  | none, _ => some s

/-- Before anything happens. -/
def init (pool : Upstream) : JobBoard where
  jobs := []
  heap := []
  lastSsj := none
  notify := none
  curJobWork := none
  ssmJobid := 0
  pool := pool

/-! ## What is asked -/

/-- The pointers to jobs. -/
def pointers (s : JobBoard) : List UInt64 := s.lastSsj.toList ++ s.jobs.map BoardJob.addr

/-- There is a last job where there is a text, and it is one of the table; no pointer leads to
memory that was freed; and the ids are different. -/
structure Coherent (s : JobBoard) : Prop where
  last_eq_none_iff : s.lastSsj = none ↔ s.notify = none
  last_mem : ∀ addr, s.lastSsj = some addr → ∃ job ∈ s.jobs, job.addr = addr
  live : ∀ addr ∈ s.pointers, addr ∈ s.heap
  nodup : (s.jobs.map BoardJob.myJobId).Nodup

/-- The call finds the job of the pool usable and not stale, and padding possible. -/
def Works (s : JobBoard) (env : UpdateEnv) : Prop :=
  env.poolHasUsableSwork s.pool = true ∧
    env.staleWork s.pool (work2dGenDummyWorkForStaleCheck s.pool.swork env.now) false = false ∧
      0 ≤ work2dPadXnonceSize s.pool.swork.toStratumWork

/-- Shares for the last job are not stale. -/
def LastFresh (s : JobBoard) (env : UpdateEnv) : Prop :=
  ∃ job, s.lastJob = some job ∧ env.staleWork s.pool job.dummyWork true = false

/-- The jobs are coherent after a step, and after a call that works shares for the last job are
not stale. -/
structure Lawful (s : JobBoard) (e : Event) (s' : JobBoard) : Prop where
  coherent : s'.Coherent
  fresh : ∀ env, s.updates e = some env → s.Works env → s'.LastFresh env

/-- Where a call finds the job of the pool to be as good as the last one, shares for that are not
stale. -/
def SkipsFresh (s : JobBoard) (e : Event) (_ : JobBoard) : Prop :=
  ∀ env, s.updates e = some env → s.Works env → ∀ job, s.lastJob = some job →
    sameWork2d s.pool.swork.toStratumWork job.swork.toStratumWork = true →
      env.staleWork s.pool job.dummyWork true = false

/-! ## The memory and the ids -/

/-- Jobs with consecutive numbers in their ids, from one on. -/
def Numbered : UInt64 → List BoardJob → Prop
  | _, [] => True
  | n, job :: rest =>
    (∃ front, job.myJobId = front ++ 0x2d :: printHex n) ∧ Numbered (n + 1) rest

/-- The addresses of the jobs are those in use, and the numbers in their ids come before the next
one. -/
structure Inv (s : JobBoard) : Prop where
  last_eq_none_iff : s.lastSsj = none ↔ s.notify = none
  last_mem : ∀ addr, s.lastSsj = some addr → ∃ job ∈ s.jobs, job.addr = addr
  perm : s.heap.Perm (s.jobs.map BoardJob.addr)
  nodup : s.heap.Nodup
  numbered : ∃ first, Numbered first s.jobs ∧ first + UInt64.ofNat s.jobs.length = s.ssmJobid

section
variable {jobs rest : List BoardJob} {n : UInt64}

theorem Numbered.append {gone : List BoardJob} (H : Numbered n (gone ++ rest)) :
    Numbered (n + UInt64.ofNat gone.length) rest := by
  induction gone generalizing n with
  | nil => simpa using H
  | cons job gone ih =>
      have hrest := ih H.2
      rwa [UInt64.add_assoc, UInt64.add_comm 1, ← UInt64.ofNat_one, ← UInt64.ofNat_add] at hrest

theorem Numbered.snoc {job : BoardJob} (H : Numbered n jobs)
    (hjob : ∃ front, job.myJobId = front ++ 0x2d :: printHex (n + UInt64.ofNat jobs.length)) :
    Numbered n (jobs ++ [job]) := by
  induction jobs generalizing n with
  | nil => exact ⟨by simpa using hjob, trivial⟩
  | cons first jobs ih =>
      refine ⟨H.1, ih H.2 ?_⟩
      rwa [UInt64.add_assoc, UInt64.add_comm 1, ← UInt64.ofNat_one, ← UInt64.ofNat_add]

/-- The number of a job is as far from the first as the job. -/
theorem Numbered.exists_lt {job : BoardJob} (H : Numbered n jobs) (hmem : job ∈ jobs) :
    ∃ i < jobs.length, ∃ front, job.myJobId = front ++ 0x2d :: printHex (n + UInt64.ofNat i) := by
  induction jobs generalizing n with
  | nil => cases hmem
  | cons first jobs ih =>
      rcases List.mem_cons.mp hmem with heq | hmem
      · refine ⟨0, by simp, ?_⟩
        rw [heq]
        simpa using H.1
      · obtain ⟨i, hi, front, hid⟩ := ih H.2 hmem
        refine ⟨i + 1, by simpa using hi, front, ?_⟩
        rw [hid, UInt64.add_assoc, UInt64.add_comm 1, ← UInt64.ofNat_one, ← UInt64.ofNat_add]

theorem printHex_append_inj {front front' : List UInt8} {n m : UInt64}
    (heq : front ++ 0x2d :: printHex n = front' ++ 0x2d :: printHex m) : n = m :=
  UInt64.toNat_inj.mp (hexNumber_append_inj heq)

/-- As many jobs as there are addresses have different ids. -/
theorem Numbered.nodup (H : Numbered n jobs) (hlen : jobs.length ≤ 2 ^ 64) :
    (jobs.map BoardJob.myJobId).Nodup := by
  induction jobs generalizing n with
  | nil => exact List.nodup_nil
  | cons job jobs ih =>
      rw [List.length_cons] at hlen
      rw [List.map_cons, List.nodup_cons]
      refine ⟨?_, ih H.2 (by omega)⟩
      intro hmem
      obtain ⟨other, hother, hsame⟩ := List.mem_map.mp hmem
      obtain ⟨front, hid⟩ := H.1
      obtain ⟨i, hi, front', hid'⟩ := H.2.exists_lt hother
      rw [hid, hid'] at hsame
      have hnumber := congrArg UInt64.toNat (printHex_append_inj hsame)
      have hlt := n.toNat_lt
      simp only [UInt64.toNat_add, UInt64.toNat_one, UInt64.toNat_ofNat'] at hnumber
      omega

theorem length_le_of_nodup {heap : List UInt64} (H : heap.Nodup) : heap.length ≤ 2 ^ 64 := by
  have hmap : (heap.map UInt64.toFin).Nodup := H.map fun _ _ h => UInt64.toFin_inj.mp h
  have hcard := hmap.length_le_card
  rwa [List.length_map, Fintype.card_fin] at hcard

/-- The jobs at the front are freed, and nothing else. -/
theorem freeWhile_spec (expires : BoardJob → Bool) {heap extra : List UInt64}
    (H : heap.Perm (extra ++ jobs.map BoardJob.addr)) :
    ∃ gone, jobs = gone ++ (freeWhile expires jobs heap).1 ∧
      (freeWhile expires jobs heap).2.Perm
        (extra ++ (freeWhile expires jobs heap).1.map BoardJob.addr) := by
  induction jobs generalizing heap with
  | nil => exact ⟨[], rfl, H⟩
  | cons job jobs ih =>
      rw [freeWhile]
      by_cases hexpires : expires job = true
      · rw [if_pos hexpires]
        have hperm : (heap.erase job.addr).Perm (extra ++ jobs.map BoardJob.addr) := by
          have herase := (H.trans List.perm_middle).erase job.addr
          rwa [List.erase_cons_head] at herase
        obtain ⟨gone, hgone, hleft⟩ := ih hperm
        exact ⟨job :: gone, by rw [List.cons_append, ← hgone], hleft⟩
      · rw [if_neg hexpires]
        exact ⟨[], rfl, H⟩

end

section
variable {s s' : JobBoard} {env : UpdateEnv}

theorem Inv.coherent (H : s.Inv) : s.Coherent where
  last_eq_none_iff := H.last_eq_none_iff
  last_mem := H.last_mem
  live addr hmem := by
    rw [H.perm.mem_iff]
    rcases List.mem_append.mp hmem with hlast | hjob
    · obtain ⟨job, hjob, haddr⟩ := H.last_mem addr (by simpa using hlast)
      rw [← haddr]
      exact List.mem_map_of_mem hjob
    · exact hjob
  nodup := by
    obtain ⟨first, hnumbered, -⟩ := H.numbered
    have hlen := H.perm.length_eq
    rw [List.length_map] at hlen
    exact hnumbered.nodup (hlen ▸ length_le_of_nodup H.nodup)

theorem inv_init (pool : Upstream) : (init pool).Inv where
  last_eq_none_iff := iff_of_true rfl rfl
  last_mem _ h := by cases h
  perm := List.Perm.refl _
  nodup := List.nodup_nil
  numbered := ⟨0, trivial, rfl⟩

theorem Inv.upstream (H : s.Inv) (pool : Upstream) : Inv { s with pool } :=
  ⟨H.last_eq_none_iff, H.last_mem, H.perm, H.nodup, H.numbered⟩

theorem Inv.bootAllSubscribed (H : s.Inv) : s.bootAllSubscribed.Inv :=
  ⟨iff_of_true rfl rfl, fun _ h => (by cases h), H.perm, H.nodup, H.numbered⟩

/-- The key of a job ends in its number. -/
theorem exists_myJobId_eq (env : NotifyStrEnv) :
    ∃ front, myJobId env = front ++ 0x2d :: printHex env.ssmJobid := by
  have hhyphen : literal "-" = [0x2d] := by decide +kernel
  exact ⟨printHex (UInt64.ofNat env.now), by rw [myJobId, hhyphen, List.append_assoc]; rfl⟩

/-- A new job goes behind those that are left, at an address of its own. -/
theorem Inv.advertise (H : s.Inv) (haddr : env.addr ∉ s.heap) {ssj : StratumsrvJob}
    (hssj : ssj.myJobId = myJobId (s.notifyEnv env)) (notify : List UInt8) :
    (s.advertise env ssj notify).Inv := by
  have hnodup : (env.addr :: s.heap).Nodup := List.nodup_cons.mpr ⟨haddr, H.nodup⟩
  have hperm : (env.addr :: s.heap).Perm ([env.addr] ++ s.jobs.map BoardJob.addr) :=
    H.perm.cons env.addr
  obtain ⟨gone, hgone, hleft⟩ := freeWhile_spec (expires env (s.notifyEnv env).clean) hperm
  obtain ⟨first, hnumbered, hnext⟩ := H.numbered
  obtain ⟨front, hid⟩ := exists_myJobId_eq (s.notifyEnv env)
  rw [JobBoard.advertise]
  generalize freeWhile _ _ _ = left at hgone hleft
  rw [hgone] at hnumbered hnext
  refine ⟨by simp, ?_, ?_, ?_, first + UInt64.ofNat gone.length, ?_, ?_⟩
  · intro addr hlast
    rw [Option.some.injEq] at hlast
    exact ⟨_, List.mem_append_right _ (List.mem_singleton_self _), hlast⟩
  · rw [List.map_append]
    exact hleft.trans List.perm_append_comm
  · apply hleft.nodup_iff.mpr
    apply List.Nodup.sublist _ (hperm.nodup_iff.mp hnodup)
    rw [hgone, List.map_append]
    exact (List.sublist_append_right _ _).append_left _
  · apply hnumbered.append.snoc
    refine ⟨front, ?_⟩
    rw [UInt64.add_assoc, ← UInt64.ofNat_add, ← List.length_append, hnext]
    exact hssj.trans hid
  · rw [List.length_append, List.length_singleton, UInt64.ofNat_add, UInt64.add_assoc,
      ← UInt64.add_assoc (UInt64.ofNat gone.length), ← UInt64.ofNat_add, ← List.length_append,
      ← UInt64.add_assoc, hnext]
    rfl

/-- The new job is the last. -/
theorem lastJob_advertise (H : s.Inv) (haddr : env.addr ∉ s.heap) (ssj : StratumsrvJob)
    (notify : List UInt8) :
    (s.advertise env ssj notify).lastJob = some
      { addr := env.addr, myJobId := ssj.myJobId, tvPrepared := ssj.tvPrepared
        swork := s.pool.swork } := by
  have hperm : (env.addr :: s.heap).Perm ([env.addr] ++ s.jobs.map BoardJob.addr) :=
    H.perm.cons env.addr
  obtain ⟨gone, hgone, -⟩ := freeWhile_spec (expires env (s.notifyEnv env).clean) hperm
  rw [lastJob, JobBoard.advertise, Option.bind_some]
  generalize freeWhile _ _ _ = left at hgone
  have hnone : (left.1.find? fun job => job.addr == env.addr) = none := by
    rw [List.find?_eq_none]
    intro job hjob
    rw [beq_iff_eq]
    intro heq
    apply haddr
    rw [H.perm.mem_iff, hgone, ← heq]
    exact List.mem_map_of_mem (List.mem_append_right _ hjob)
  rw [List.find?_append, hnone, Option.none_or, List.find?_singleton]
  simp

/-! ## Updates -/

/-- What is not stale to work on is not stale as a share when it has just been prepared, as there
is one pool. -/
theorem staleWork_share_of_fresh {env : StaleEnv} {pool : Upstream} {work : DummyWork}
    (H : env.staleWork pool work false = false) (hnow : work.tvStaged = env.now) :
    env.staleWork pool work true = false := by
  have hage : (UInt32.ofInt ((env.now : ℤ) - work.tvStaged)).toNat = 0 := by
    rw [hnow, sub_self]
    rfl
  have hone := env.enabledPools_le
  simp only [StaleEnv.staleWork, hone, hage, decide_true, Bool.true_or, Bool.or_eq_false_iff,
    if_true, Bool.false_eq_true, if_false] at H ⊢
  obtain ⟨⟨⟨⟨hblock, hrestart⟩, -⟩, -⟩, -⟩ := H
  exact ⟨⟨⟨hblock, by rw [hrestart, Bool.and_false]⟩, by simp⟩, by simp⟩

/-- What a call of `stratumsrv_update_notify_str` does: it does not work, and boots the miners or
leaves everything as it is; it finds the job of the pool to be as good as the last one; or it
sends it. -/
theorem updateNotifyStr_cases (H : s.updateNotifyStr env = some s') :
    (¬ s.Works env ∧ (s' = s.bootAllSubscribed ∨ s' = s)) ∨
    (s' = s ∧ ∃ job, s.lastJob = some job ∧
      sameWork2d s.pool.swork.toStratumWork job.swork.toStratumWork = true) ∨
    (s.Works env ∧ env.addr ∉ s.heap ∧
      (∀ job, s.lastJob = some job →
        sameWork2d s.pool.swork.toStratumWork job.swork.toStratumWork = false) ∧
      ∃ notify, s' = s.advertise env
        { myJobId := myJobId (s.notifyEnv env), tvPrepared := env.now
          swork := s.pool.swork.toStratumWork } notify) := by
  have husable : (s.notifyEnv env).usable = env.poolHasUsableSwork s.pool := rfl
  have hstale : (s.notifyEnv env).isStale = env.staleWork s.pool
    (work2dGenDummyWorkForStaleCheck s.pool.swork env.now) false := rfl
  rw [updateNotifyStr, stratumsrvUpdateNotifyStr, husable, hstale] at H
  cases hworks : env.poolHasUsableSwork s.pool with
  | false =>
      left
      simp only [hworks, Bool.not_false, if_true, Option.some.injEq] at H
      refine ⟨fun works => ?_, ?_⟩
      · rw [works.1] at hworks
        cases hworks
      · split at H
        · exact Or.inl H.symm
        · exact Or.inr H.symm
  | true =>
      cases hfresh : env.staleWork s.pool (work2dGenDummyWorkForStaleCheck s.pool.swork env.now)
          false with
      | true =>
          left
          simp only [hworks, hfresh, Bool.not_true, Bool.false_eq_true, if_false, if_true,
            Option.some.injEq] at H
          refine ⟨fun works => ?_, Or.inr H.symm⟩
          rw [works.2.1] at hfresh
          cases hfresh
      | false =>
          simp only [hworks, hfresh, Bool.not_true, Bool.false_eq_true, if_false, Option.any_map]
            at H
          cases hlast : s.lastJob.any fun job =>
              sameWork2d s.pool.swork.toStratumWork job.swork.toStratumWork with
          | true =>
              right
              left
              simp only [hlast, if_true, Option.some.injEq] at H
              obtain ⟨job, hjob, hsame⟩ := (Option.any_eq_true _ _).mp hlast
              exact ⟨H.symm, job, hjob, hsame⟩
          | false =>
              simp only [hlast, Bool.false_eq_true, if_false] at H
              by_cases hpad : work2dPadXnonceSize s.pool.swork.toStratumWork < 0
              · left
                simp only [hpad, if_true, Option.some.injEq] at H
                refine ⟨fun works => absurd works.2.2 (not_le.mpr hpad), ?_⟩
                split at H
                · exact Or.inl H.symm
                · exact Or.inr H.symm
              · right
                right
                simp only [hpad, if_false] at H
                split at H
                · cases H
                next haddr =>
                  refine ⟨⟨hworks, hfresh, not_lt.mp hpad⟩, (not_or.mp haddr).2, ?_,
                    _, (Option.some.inj H).symm⟩
                  intro job hjob
                  simpa [hjob] using hlast

/-! ## Runs -/

theorem step_of_updates {e : Event} (hupdates : s.updates e = some env) :
    s.step e = s.updateNotifyStr env := by
  simp only [JobBoard.step, hupdates]

/-- Every step keeps the jobs coherent. -/
theorem Inv.step (H : s.Inv) {e : Event} (hstep : s.step e = some s') : s'.Inv := by
  cases hupdates : s.updates e with
  | none =>
      simp only [JobBoard.step, hupdates] at hstep
      cases e with
      | upstream pool => exact Option.some.inj hstep ▸ H.upstream pool
      | bootAll => exact Option.some.inj hstep ▸ H.bootAllSubscribed
      | update env => cases hupdates
      | subscribe env => exact Option.some.inj hstep ▸ H
  | some env =>
      rw [step_of_updates hupdates] at hstep
      rcases updateNotifyStr_cases hstep with ⟨-, rfl | rfl⟩ | ⟨rfl, -⟩ | ⟨-, haddr, -, notify, rfl⟩
      · exact H.bootAllSubscribed
      · exact H
      · exact H
      · exact H.advertise haddr rfl notify

/-- No run leads to a pointer to a job that was freed, or to two jobs with one id. -/
theorem coherent_of_exec {pool : Upstream} {es : List Event}
    (H : Run.exec step (init pool) es = some s) : s.Coherent := by
  have hinv : s.Inv := Run.exec_of_invariant (fun _ _ _ hs hstep => Inv.step hs hstep)
    (inv_init pool) H
  exact hinv.coherent

/-- A call leaves a fresh job exactly when it does not skip for a stale one. -/
theorem Inv.lawful_iff (H : s.Inv) {e : Event} (hstep : s.step e = some s') :
    s.Lawful e s' ↔ s.SkipsFresh e s' := by
  constructor
  · intro hlawful env hupdates hworks job hjob hsame
    obtain ⟨last, hlast, hfresh⟩ := hlawful.fresh env hupdates hworks
    rw [step_of_updates hupdates] at hstep
    rcases updateNotifyStr_cases hstep with ⟨hnot, -⟩ | ⟨rfl, -⟩ | ⟨-, -, hother, -⟩
    · exact absurd hworks hnot
    · rw [hjob, Option.some.injEq] at hlast
      rw [hlast]
      exact hfresh
    · rw [hother job hjob] at hsame
      cases hsame
  · intro hskips
    refine ⟨(H.step hstep).coherent, ?_⟩
    intro env hupdates hworks
    rw [step_of_updates hupdates] at hstep
    rcases updateNotifyStr_cases hstep with ⟨hnot, -⟩ | ⟨rfl, job, hjob, hsame⟩ |
      ⟨-, haddr, -, notify, rfl⟩
    · exact absurd hworks hnot
    · exact ⟨job, hjob, hskips env hupdates hworks job hjob hsame⟩
    · refine ⟨_, lastJob_advertise H haddr _ notify, ?_⟩
      exact staleWork_share_of_fresh hworks.2.1 rfl

/-- **When the miners behind the proxy are not left with a stale job**: the table of jobs is
coherent in every run, and after every call that works shares for the last job are taken, exactly
when no call passes over a job as good as the last one while shares for that are stale. -/
theorem allSteps_lawful_iff_skipsFresh (pool : Upstream) (es : List Event) :
    Run.AllSteps step Lawful (init pool) es ↔ Run.AllSteps step SkipsFresh (init pool) es :=
  Run.allSteps_congr (fun _ _ _ H hstep => H.lawful_iff hstep)
    (fun _ _ _ H hstep _ => H.step hstep) es (inv_init pool)

end

/-- A pool that has sent a job. -/
def quietPool : Upstream where
  swork :=
    { subscribedPool.swork with
      jobId := some (zeroDigits 1), n2size := 4, coinbase := List.replicate 8 0
      workRestartId := 0, tr := false }
  blockId := 0
  submitOld := true
  workRestartId := 0
  hasStratum := true
  stratumActive := true
  stratumNotify := true

/-- A call at some time, with the usual options. -/
def callAt (now : ℕ) (addr : UInt64) : UpdateEnv where
  now := now
  optScantime := 60
  optExpiry := 120
  optExpiryLp := 3600
  optFailOnly := false
  haveLongpoll := true
  currentBlockId := 0
  getworkDelay := 1
  poolActivelyInUse := true
  enabledPools := 1
  enabledPools_le := le_rfl
  addr := addr
  timeLeft := false
  optBenchmark := false

/-- The pool sends nothing for two minutes, and its job is not sent again although all shares for
it are refused. -/
theorem not_lawful_quietPool :
    ¬ Run.AllSteps step Lawful (init quietPool) [.update (callAt 0 1), .update (callAt 121 2)] := by
  intro H
  have hsecond := ((H _ rfl).2 _ rfl).1
  obtain ⟨job, hjob, hfresh⟩ := hsecond.fresh (callAt 121 2) rfl ⟨rfl, rfl, by decide⟩
  rw [← Option.some.inj hjob] at hfresh
  exact absurd hfresh (by decide)

end JobBoard

end MassGridMiner

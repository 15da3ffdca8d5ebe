import MassGridMiner.Lib.Run
import MassGridMiner.Share.Response
import Mathlib.Data.Finset.Card

/-!
# The share pipeline

A share found by a miner is appended to `submit_waiting`, moved by `submit_work_thread`
to its list `write_sws`, and copied into `stratum_shares` when it is sent; an answer, or
the loss of the connection, takes it out of that table.  One step of the machine is what
one thread does under its locks, so the steps of different threads come in any order.

The undoing of a failed send is skipped when the pool is already marked as failing.  The
share is then in two places, and `accounted_of_firstFailures` shows that nothing else
goes wrong: while every failure is the first in a row, each open share is in one place.

## Main definitions

* `Pipeline` — the state: the three containers, the counters and the submit thread.
* `Event`, `step` — what can happen.
* `Accounted` — each open share is in exactly one container, once, and counted.
* `FirstFailure` — the condition on a send that fails.
* `Pipeline.Inv` — the invariant that carries the argument.
-/

namespace MassGridMiner

/-- The part of `struct pool` that the submit thread reads.  `sock` says that the socket
is a valid one. -/
structure PoolConn where
  sock : Bool
  stratumInit : Bool
  stratumNotify : Bool
  nonce1 : Option CStr
  submitFail : Bool

/-- Where `submit_work_thread` is.  `wfds` are the pools whose socket is ready. -/
inductive Pc
  | top
  | receiving
  | scanning (k : ℕ) (wfds : List ℕ)
  | sending (k : ℕ) (wfds : List ℕ) (id : Int32)
  deriving DecidableEq

/-- `enum send_ret`. -/
inductive SendRet
  | ok
  | selectfail
  | sendfail
  | inactive
  deriving DecidableEq, Repr

/-- The pipeline.  `fresh` and `unresolved` are bookkeeping that no step reads: the next
share to come, and the shares enqueued and not yet accepted, rejected or discarded. -/
structure Pipeline where
  pc : Pc
  submitWaiting : List Share
  writeSws : List Share
  stratumShares : List StratumShare
  totalSubmitting : ℤ
  tsreduce : ℕ
  sworkId : Int32
  pools : ℕ → PoolConn
  fresh : ℕ
  unresolved : Finset ℕ

/-- A step of the submit thread (`wake` to `sent`), of a mining thread, of a pool's
stratum thread, or a change of a connection. -/
inductive Event
  | wake
  | receive (discard : Bool)
  | select (wfds : Option (List ℕ))
  | visit
  | sent (ret : SendRet)
  | enqueue (pool : ℕ) (nonce1 : CStr) (thrId : ℕ) (hash target : Hash)
  | line (pool : ℕ) (val : Option Json)
  | clear (pool miningThreads : ℕ)
  | resubmit (pool : ℕ)
  | connection (pool : ℕ) (sock stratumInit stratumNotify : Bool) (nonce1 : Option CStr)
  | upstream (pool : ℕ) (fail : Bool)
  | subscribe

namespace Pipeline

/-- Nothing submitted, nothing waiting. -/
def init (pools : ℕ → PoolConn) : Pipeline where
  pc := .top
  submitWaiting := []
  writeSws := []
  stratumShares := []
  totalSubmitting := 0
  tsreduce := 0
  sworkId := 0
  pools := pools
  fresh := 0
  unresolved := ∅

/-- The books after the given shares are accepted, rejected or discarded. -/
def resolved (s : Pipeline) (works : List Share) : Finset ℕ :=
  s.unresolved.filter fun i => i ∉ (works.map Share.ident : Multiset ℕ)

/-- `_submit_work_async`. -/
def enqueue (s : Pipeline) (pool : ℕ) (nonce1 : CStr) (thrId : ℕ) (hash target : Hash) :
    Pipeline :=
  { s with
    totalSubmitting := s.totalSubmitting + 1
    submitWaiting := s.submitWaiting ++ [⟨s.fresh, pool, nonce1, thrId, hash, target⟩]
    fresh := s.fresh + 1
    unresolved := insert s.fresh s.unresolved }

/-- The top of the loop of `submit_work_thread`. -/
def wake (s : Pipeline) : Option Pipeline :=
  match s.pc with
  | .top => some { s with
      pc := .receiving, totalSubmitting := s.totalSubmitting - s.tsreduce, tsreduce := 0 }
  | _ => none

/-- One new submission is received, or discarded because it is stale. -/
def receive (s : Pipeline) (discard : Bool) : Option Pipeline :=
  match s.pc, s.submitWaiting with
  | .receiving, work :: rest =>
    if discard then
      some { s with
        submitWaiting := rest
        totalSubmitting := s.totalSubmitting - 1
        unresolved := s.resolved [work] }
    else some { s with submitWaiting := rest, writeSws := work :: s.writeSws }
  | _, _ => none

/-- The `select`; after a failure the loop starts over. -/
def select (s : Pipeline) (wfds : Option (List ℕ)) : Option Pipeline :=
  match s.pc, s.submitWaiting with
  | .receiving, [] => some { s with pc := wfds.elim .top (.scanning 0) }
  | _, _ => none

/-- `sessionid_match`. -/
def sessionidMatch (conn : PoolConn) (work : Share) : Bool :=
  match conn.nonce1 with
  | none => true
  | some nonce1 => nonce1 == work.nonce1

/-- The submission at the head of the loop over `write_sws` can be sent now. -/
def ready (conn : PoolConn) (wfds : List ℕ) (pool : ℕ) : Bool :=
  conn.sock && conn.stratumInit && conn.stratumNotify && wfds.contains pool

/-- The next round of the loop over `write_sws`, up to the call of `stratum_send`: leave
the submission for later, discard it because the session changed, or enter a copy of it
in the table under a new id. -/
def visit (s : Pipeline) : Option Pipeline :=
  match s.pc with
  | .scanning k wfds =>
    match s.writeSws[k]? with
    | none => some { s with pc := .top }
    | some work =>
      if !ready (s.pools work.pool) wfds work.pool then
        some { s with pc := .scanning (k + 1) wfds }
      else if !sessionidMatch (s.pools work.pool) work then
        some { s with
          pc := .scanning k (wfds.filter (· ≠ work.pool))
          writeSws := s.writeSws.eraseIdx k
          tsreduce := s.tsreduce + 1
          unresolved := s.resolved [work] }
      else
        some { s with
          pc := .sending k wfds s.sworkId
          stratumShares := ⟨s.sworkId, work⟩ :: s.stratumShares
          sworkId := s.sworkId + 1 }
  | _ => none

/-- The pools after one of them is changed. -/
def setPool (s : Pipeline) (pool : ℕ) (f : PoolConn → PoolConn) : ℕ → PoolConn :=
  fun p => if p = pool then f (s.pools p) else s.pools p

/-- `suspend_stratum`, which `stratum_send` calls unless the pool was inactive. -/
def suspendStratum (ret : SendRet) (conn : PoolConn) : PoolConn :=
  match ret with
  | .selectfail | .sendfail => { conn with sock := false, stratumNotify := false }
  | _ => conn

/-- The return of `stratum_send`.  A failure is undone only if it is the one that marks
the pool as failing; after any other the loop comes back to the same submission. -/
def sent (s : Pipeline) (ret : SendRet) : Option Pipeline :=
  match s.pc with
  | .sending k wfds id =>
    match s.writeSws[k]? with
    | none => none
    | some work =>
      if ret = .ok then
        some { s with
          pc := .scanning k (wfds.filter (· ≠ work.pool))
          writeSws := s.writeSws.eraseIdx k
          pools := s.setPool work.pool fun conn => { conn with submitFail := false } }
      else
        let pools := s.setPool work.pool fun conn =>
          { suspendStratum ret conn with submitFail := true }
        if !(s.pools work.pool).submitFail then
          match hashFindInt s.stratumShares id with
          | some _ => some { s with
              pc := .scanning (k + 1) wfds
              stratumShares := hashDel s.stratumShares id
              pools := pools }
          | none => some { s with
              pc := .scanning k (wfds.filter (· ≠ work.pool))
              writeSws := s.writeSws.eraseIdx k
              pools := pools }
        else some { s with pc := .scanning k wfds, pools := pools }
  | _ => none

/-- `parse_stratum_response`. -/
def line (s : Pipeline) (val : Option Json) : Pipeline :=
  let handled := parseStratumResponse s.stratumShares val
  match handled.removed with
  | none => { s with stratumShares := handled.shares }
  | some (sshare, _) => { s with
      stratumShares := handled.shares
      totalSubmitting := s.totalSubmitting - 1
      unresolved := s.resolved [sshare.work] }

/-- `clear_stratum_shares` deletes this entry. -/
def isCleared (pool miningThreads : ℕ) (sshare : StratumShare) : Bool :=
  sshare.work.pool == pool && decide (sshare.work.thrId < miningThreads)

/-- `clear_stratum_shares`. -/
def clear (s : Pipeline) (pool miningThreads : ℕ) : Pipeline :=
  let cleared := s.stratumShares.filter (isCleared pool miningThreads)
  { s with
    stratumShares := s.stratumShares.filter fun sshare => !isCleared pool miningThreads sshare
    totalSubmitting := s.totalSubmitting - cleared.length
    unresolved := s.resolved (cleared.map StratumShare.work) }

/-- `resubmit_stratum_shares`, which goes through the table from the oldest entry on. -/
def resubmit (s : Pipeline) (pool : ℕ) : Pipeline :=
  { s with
    stratumShares := s.stratumShares.filter fun sshare => sshare.work.pool != pool
    submitWaiting := s.submitWaiting ++
      ((s.stratumShares.filter fun sshare => sshare.work.pool == pool).map
        StratumShare.work).reverse }

end Pipeline

open Pipeline

/-- One step, or none where the submit thread is elsewhere.  The mark of a failing pool
is also set and cleared by submissions that do not go through stratum, and an id is also
taken by a subscription. -/
def step (s : Pipeline) : Event → Option Pipeline
  | .wake => s.wake
  | .receive discard => s.receive discard
  | .select wfds => s.select wfds
  | .visit => s.visit
  | .sent ret => s.sent ret
  | .enqueue pool nonce1 thrId hash target => some (s.enqueue pool nonce1 thrId hash target)
  | .line _ val => some (s.line val)
  | .clear pool miningThreads => some (s.clear pool miningThreads)
  | .resubmit pool => some (s.resubmit pool)
  | .connection pool sock stratumInit stratumNotify nonce1 =>
    some { s with pools := s.setPool pool fun conn =>
      { conn with sock, stratumInit, stratumNotify, nonce1 } }
  | .upstream pool fail =>
    some { s with pools := s.setPool pool fun conn => { conn with submitFail := fail } }
  | .subscribe => some { s with sworkId := s.sworkId + 1 }

/-! ### Answers, over a run -/

/-- A line that arrives resolves at most the share it is about. -/
def LineAnswersOwn (s : Pipeline) (e : Event) (_ : Pipeline) : Prop :=
  match e with
  | .line pool val => AnswersOwn pool val s.stratumShares
  | _ => True

/-- A line that arrives finds, if anything, the share it is about. -/
def LineFindsOwn (s : Pipeline) (e : Event) (_ : Pipeline) : Prop :=
  match e with
  | .line pool val => FindsOwn pool val s.stratumShares
  | _ => True

/-- **In every run, from any state, all lines resolve the right shares exactly where each
finds the right one.** -/
theorem lineAnswersOwn_iff (s : Pipeline) (es : List Event) :
    Run.AllSteps step LineAnswersOwn s es ↔ Run.AllSteps step LineFindsOwn s es := by
  refine Run.allSteps_congr (fun s e s' _ _ => ?_) (fun _ _ _ _ _ _ => trivial) es trivial
  cases e with
  | line pool val => exact answersOwn_iff_findsOwn pool val s.stratumShares
  | _ => exact Iff.rfl

/-- Every pool is connected and not marked as failing. -/
def connectedPools : ℕ → PoolConn := fun _ =>
  { sock := true, stratumInit := true, stratumNotify := true, nonce1 := none, submitFail := false }

/-- One share is found, received and sent to pool 0; the send ends in `ret`. -/
def firstSend (ret : SendRet) : List Event :=
  [.enqueue 0 .empty 0 Hash.zero Hash.zero, .wake, .receive false,
    .select (some [0]), .visit, .sent ret]

/-- An acceptance of the share with id 0. -/
def acceptZero : Json := .object [("id", .integer 0), ("result", .bool true), ("error", .null)]

/-- Pool 1 sends it, and the share of pool 0 is taken from the table. -/
theorem not_lineAnswersOwn_acceptZero :
    ¬ Run.AllSteps step LineAnswersOwn (Pipeline.init connectedPools)
      (firstSend .ok ++ [.line 1 (some acceptZero)]) := by
  intro H
  have hline := ((Run.allSteps_append.mp H).2 _ rfl _ rfl).1
  obtain ⟨hpool, -⟩ := hline.removed _ _ rfl
  exact absurd hpool (by decide)

/-! ### The books, over a run -/

/-- The submit thread is not in the middle of a send. -/
def Pipeline.AtRest (s : Pipeline) : Prop := ∀ k wfds id, s.pc ≠ .sending k wfds id

/-- Each open share is in exactly one of the three containers, where it occurs once, and
the counter, less the pending reduction, is the number of open shares. -/
structure Accounted (s : Pipeline) : Prop where
  once : ∀ i ∈ s.unresolved,
    (s.submitWaiting.map Share.ident).count i + (s.writeSws.map Share.ident).count i +
      (s.stratumShares.map (·.work.ident)).count i = 1
  total : s.totalSubmitting - s.tsreduce = s.unresolved.card

/-- A send fails only while its pool is not marked as failing, and what is then found
under its id, if anything, is its own copy. -/
def FirstFailure (s : Pipeline) (e : Event) (_ : Pipeline) : Prop :=
  match e, s.pc with
  | .sent ret, .sending k _ id => ret ≠ .ok → ∀ work, s.writeSws[k]? = some work →
      (s.pools work.pool).submitFail = false ∧
        ∀ sshare, hashFindInt s.stratumShares id = some sshare →
          sshare.work.ident = work.ident
  | _, _ => True

end MassGridMiner

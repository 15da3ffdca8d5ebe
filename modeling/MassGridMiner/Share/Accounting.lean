import MassGridMiner.Share.Pipeline
import Mathlib.Algebra.Order.Group.Multiset
import Mathlib.Data.List.Perm.Basic
import Mathlib.Tactic.Abel

/-!
# The books of the share pipeline

The invariant counts, as one multiset, what the three containers hold, the share being
sent only where its copy is.  A step either moves shares between the containers or takes
some out and closes them, and two rules cover the two cases.

## Main definitions

* `Pipeline.pending` — what the containers hold.
* `Pipeline.Inv` — the containers hold the open shares, and the counter counts them.
* `Inv.moved`, `Inv.closed` — the rules for the two kinds of step.
-/

namespace MassGridMiner

namespace Pipeline

/-- The submissions of `write_sws`, without the one that is being sent. -/
def held (s : Pipeline) : List Share :=
  match s.pc with
  | .sending k _ _ => s.writeSws.eraseIdx k
  | _ => s.writeSws

/-- The shares in a list. -/
def idents (works : List Share) : Multiset ℕ := works.map Share.ident

/-- The shares in the table. -/
def tableIdents (shares : List StratumShare) : Multiset ℕ := shares.map (·.work.ident)

/-- The shares in the containers. -/
def pending (s : Pipeline) : Multiset ℕ :=
  idents s.submitWaiting + idents s.held + tableIdents s.stratumShares

/-- The containers hold the open shares, each once, and the counter counts them. -/
structure Inv (s : Pipeline) : Prop where
  pending_eq : s.pending = s.unresolved.val
  total_eq : s.totalSubmitting - s.tsreduce = s.unresolved.card
  fresh_lt : ∀ i ∈ s.unresolved, i < s.fresh

@[simp] theorem idents_nil : idents [] = 0 := rfl

@[simp] theorem idents_cons (work : Share) (works : List Share) :
    idents (work :: works) = work.ident ::ₘ idents works := rfl

@[simp] theorem idents_append (works works' : List Share) :
    idents (works ++ works') = idents works + idents works' := by
  simp [idents]

@[simp] theorem idents_reverse (works : List Share) : idents works.reverse = idents works := by
  simp [idents]

@[simp] theorem tableIdents_cons (sshare : StratumShare) (shares : List StratumShare) :
    tableIdents (sshare :: shares) = sshare.work.ident ::ₘ tableIdents shares := rfl

theorem idents_map_work (shares : List StratumShare) :
    idents (shares.map StratumShare.work) = tableIdents shares := by
  simp [idents, tableIdents, Function.comp_def]

/-- A list holds the share at an index, and the rest. -/
theorem idents_eq_cons_eraseIdx {works : List Share} {k : ℕ} {work : Share}
    (H : works[k]? = some work) : idents works = work.ident ::ₘ idents (works.eraseIdx k) := by
  obtain ⟨hk, rfl⟩ := List.getElem?_eq_some_iff.mp H
  exact Multiset.coe_eq_coe.mpr ((List.getElem_cons_eraseIdx_perm hk).symm.map Share.ident)

/-- A table holds the entry found under an id, and the rest. -/
theorem tableIdents_eq_cons_hashDel {shares : List StratumShare} {id : Int32}
    {sshare : StratumShare} (H : hashFindInt shares id = some sshare) :
    tableIdents shares = sshare.work.ident ::ₘ tableIdents (hashDel shares id) :=
  Multiset.coe_eq_coe.mpr ((perm_cons_hashDel H).map (·.work.ident))

/-- A table is what a test selects from it, and the rest. -/
theorem tableIdents_filter_add (p : StratumShare → Bool) (shares : List StratumShare) :
    tableIdents (shares.filter p) + tableIdents (shares.filter fun sshare => !p sshare) =
      tableIdents shares := by
  have hperm := (List.filter_append_perm p shares).map (·.work.ident)
  rw [List.map_append] at hperm
  exact Multiset.coe_eq_coe.mpr hperm

/-- What closing some of the open shares leaves open. -/
theorem resolved_spec {s : Pipeline} {works : List Share} {rest : Multiset ℕ}
    (H : s.unresolved.val = idents works + rest) :
    (s.resolved works).val = rest ∧ (s.resolved works).card + works.length = s.unresolved.card := by
  have hnodup : (idents works + rest).Nodup := H ▸ s.unresolved.nodup
  have hdisj := (Multiset.nodup_add.mp hnodup).2.2
  have hrest : (s.resolved works).val = rest := by
    have hclosed : (idents works).filter (fun i => i ∉ idents works) = 0 :=
      Multiset.filter_eq_nil.mpr fun i hi => not_not.mpr hi
    have hopen : rest.filter (fun i => i ∉ idents works) = rest :=
      Multiset.filter_eq_self.mpr fun i hi hmem => Multiset.disjoint_left.mp hdisj hmem hi
    calc (s.resolved works).val
        = (idents works + rest).filter (fun i => i ∉ idents works) := by
          rw [← H]
          rfl
      _ = rest := by rw [Multiset.filter_add, hclosed, hopen, zero_add]
  refine ⟨hrest, ?_⟩
  have hcard := congrArg Multiset.card H
  rw [Multiset.card_add, ← hrest] at hcard
  simp only [Finset.card_val, idents, Multiset.coe_card, List.length_map] at hcard
  omega

namespace Inv
variable {s s' : Pipeline}

/-- **The rule for moves.**  Shares change their container, and nothing else. -/
theorem moved (H : s.Inv) (hpending : s'.pending = s.pending)
    (htotal : s'.totalSubmitting - s'.tsreduce = s.totalSubmitting - s.tsreduce)
    (hunresolved : s'.unresolved = s.unresolved) (hfresh : s'.fresh = s.fresh) : s'.Inv where
  pending_eq := by rw [hpending, H.pending_eq, hunresolved]
  total_eq := by rw [htotal, H.total_eq, hunresolved]
  fresh_lt := by rw [hunresolved, hfresh]; exact H.fresh_lt

/-- **The rule for closings.**  Shares leave the containers, are closed and uncounted. -/
theorem closed (H : s.Inv) (works : List Share)
    (hpending : s.pending = idents works + s'.pending)
    (htotal : s'.totalSubmitting - s'.tsreduce = s.totalSubmitting - s.tsreduce - works.length)
    (hunresolved : s'.unresolved = s.resolved works) (hfresh : s'.fresh = s.fresh) : s'.Inv := by
  obtain ⟨hval, hcard⟩ := resolved_spec (H.pending_eq.symm.trans hpending)
  have htot := H.total_eq
  refine ⟨by rw [hunresolved, hval], ?_, ?_⟩
  · rw [htotal, hunresolved]
    omega
  · rw [hunresolved, hfresh]
    exact fun i hi => H.fresh_lt i (Finset.mem_filter.mp hi).1

theorem init (pools : ℕ → PoolConn) : (Pipeline.init pools).Inv where
  pending_eq := rfl
  total_eq := rfl
  fresh_lt := by simp [Pipeline.init]

theorem enqueue (H : s.Inv) (pool : ℕ) (nonce1 : CStr) (thrId : ℕ) (hash target : Hash) :
    (s.enqueue pool nonce1 thrId hash target).Inv := by
  have hnew : s.fresh ∉ s.unresolved := fun h => (H.fresh_lt _ h).false
  refine ⟨?_, ?_, ?_⟩
  · have hpending : (s.enqueue pool nonce1 thrId hash target).pending =
        s.fresh ::ₘ s.pending := by
      simp only [pending, Pipeline.enqueue, held, idents_append, idents_cons, idents_nil,
        ← Multiset.singleton_add]
      abel
    rw [hpending, H.pending_eq]
    exact (Finset.insert_val_of_notMem hnew).symm
  · have := H.total_eq
    simp only [Pipeline.enqueue, Finset.card_insert_of_notMem hnew]
    push_cast
    omega
  · intro i hi
    rcases Finset.mem_insert.mp hi with rfl | hi
    · exact Nat.lt_succ_self _
    · exact (H.fresh_lt i hi).trans (Nat.lt_succ_self _)

theorem wake (H : s.Inv) (hs : s.wake = some s') : s'.Inv := by
  simp only [Pipeline.wake] at hs
  split at hs
  · rename_i hpc
    obtain rfl := Option.some.inj hs
    exact H.moved (by simp [pending, held, hpc]) (by simp) rfl rfl
  · simp at hs

theorem receive {discard : Bool} (H : s.Inv) (hs : s.receive discard = some s') : s'.Inv := by
  simp only [Pipeline.receive] at hs
  split at hs
  · rename_i work rest hpc hwaiting
    split at hs <;> obtain rfl := Option.some.inj hs
    · refine H.closed [work] ?_ (by simp; omega) rfl rfl
      simp [pending, held, hpc, hwaiting, ← Multiset.singleton_add, add_assoc]
    · refine H.moved ?_ rfl rfl rfl
      simp only [pending, held, hpc, hwaiting, idents_cons, ← Multiset.singleton_add]
      abel
  · simp at hs

theorem select {wfds : Option (List ℕ)} (H : s.Inv) (hs : s.select wfds = some s') : s'.Inv := by
  simp only [Pipeline.select] at hs
  split at hs
  · rename_i hpc hwaiting
    obtain rfl := Option.some.inj hs
    refine H.moved ?_ rfl rfl rfl
    cases wfds <;> simp [pending, held, hpc]
  · simp at hs

theorem visit (H : s.Inv) (hs : s.visit = some s') : s'.Inv := by
  simp only [Pipeline.visit] at hs
  split at hs
  · rename_i k wfds hpc
    split at hs
    · obtain rfl := Option.some.inj hs
      exact H.moved (by simp [pending, held, hpc]) rfl rfl rfl
    · rename_i work hwork
      have hsws := idents_eq_cons_eraseIdx hwork
      split_ifs at hs <;> obtain rfl := Option.some.inj hs
      · exact H.moved (by simp [pending, held, hpc]) rfl rfl rfl
      · refine H.closed [work] ?_ (by simp; omega) rfl rfl
        simp only [pending, held, hpc, hsws, idents_cons, idents_nil, ← Multiset.singleton_add]
        abel
      · refine H.moved ?_ rfl rfl rfl
        simp only [pending, held, hpc, hsws, tableIdents_cons, ← Multiset.singleton_add]
        abel
  · simp at hs

/-- A failed send that is undone moves the share back, and so the copy under its id has
to be its own. -/
theorem sent {ret : SendRet} (H : s.Inv) (hs : s.sent ret = some s')
    (hfirst : FirstFailure s (.sent ret) s') : s'.Inv := by
  simp only [Pipeline.sent] at hs
  split at hs
  · rename_i k wfds id hpc
    split at hs
    · simp at hs
    · rename_i work hwork
      have hsws := idents_eq_cons_eraseIdx hwork
      simp only [FirstFailure, hpc] at hfirst
      split at hs
      · obtain rfl := Option.some.inj hs
        exact H.moved (by simp [pending, held, hpc]) rfl rfl rfl
      · rename_i hret
        obtain ⟨hclear, hown⟩ := hfirst hret work hwork
        rw [hclear, Bool.not_false, if_pos rfl] at hs
        split at hs
        · rename_i sshare hfind
          obtain rfl := Option.some.inj hs
          have htable := tableIdents_eq_cons_hashDel hfind
          rw [hown sshare hfind] at htable
          refine H.moved ?_ rfl rfl rfl
          simp only [pending, held, hpc, hsws, htable, ← Multiset.singleton_add]
          abel
        · obtain rfl := Option.some.inj hs
          exact H.moved (by simp [pending, held, hpc]) rfl rfl rfl
  · simp at hs

theorem line (H : s.Inv) (val : Option Json) : (s.line val).Inv := by
  cases hline : lineId val with
  | none =>
      obtain ⟨hshares, hrem⟩ := parseStratumResponse_of_lineId_none hline s.stratumShares
      refine H.moved ?_ ?_ ?_ ?_ <;> simp [Pipeline.line, hrem, hshares, pending, held]
  | some n =>
      rcases parseStratumResponse_of_lineId hline s.stratumShares with
        ⟨-, hshares, hrem⟩ | ⟨sshare, res, hfind, hshares, hrem⟩
      · refine H.moved ?_ ?_ ?_ ?_ <;> simp [Pipeline.line, hrem, hshares, pending, held]
      · have htable := tableIdents_eq_cons_hashDel hfind
        refine H.closed [sshare.work] ?_ ?_ ?_ ?_
        · simp only [Pipeline.line, hrem, hshares, pending, held, htable, idents_cons, idents_nil,
            ← Multiset.singleton_add]
          abel
        · simp only [Pipeline.line, hrem, List.length_singleton]
          omega
        · simp [Pipeline.line, hrem]
        · simp [Pipeline.line, hrem]

theorem clear (H : s.Inv) (pool miningThreads : ℕ) : (s.clear pool miningThreads).Inv := by
  have htable := tableIdents_filter_add (isCleared pool miningThreads) s.stratumShares
  refine H.closed ((s.stratumShares.filter (isCleared pool miningThreads)).map StratumShare.work)
    ?_ ?_ rfl rfl
  · rw [idents_map_work]
    simp only [pending, held, Pipeline.clear, ← htable]
    abel
  · simp only [Pipeline.clear, List.length_map]
    omega

theorem resubmit (H : s.Inv) (pool : ℕ) : (s.resubmit pool).Inv := by
  have htable := tableIdents_filter_add (fun sshare => sshare.work.pool == pool) s.stratumShares
  refine H.moved ?_ rfl rfl rfl
  simp only [pending, held, Pipeline.resubmit, idents_append, idents_reverse, idents_map_work,
    ← htable]
  simp only [bne]
  abel

/-- **Every step keeps the books**, a failed send if it is the first in a row. -/
theorem step {e : Event} (H : s.Inv) (hs : step s e = some s') (hfirst : FirstFailure s e s') :
    s'.Inv := by
  cases e with
  | wake => exact H.wake hs
  | receive discard => exact H.receive hs
  | select wfds => exact H.select hs
  | visit => exact H.visit hs
  | sent ret => exact H.sent hs hfirst
  | enqueue pool nonce1 thrId hash target => exact Option.some.inj hs ▸ H.enqueue ..
  | line pool val => exact Option.some.inj hs ▸ H.line val
  | clear pool miningThreads => exact Option.some.inj hs ▸ H.clear pool miningThreads
  | resubmit pool => exact Option.some.inj hs ▸ H.resubmit pool
  | connection pool sock stratumInit stratumNotify nonce1 =>
      exact Option.some.inj hs ▸ H.moved rfl rfl rfl rfl
  | upstream pool fail => exact Option.some.inj hs ▸ H.moved rfl rfl rfl rfl
  | subscribe => exact Option.some.inj hs ▸ H.moved rfl rfl rfl rfl

/-- Between two sends the invariant says where each open share is. -/
theorem accounted (H : s.Inv) (hrest : s.AtRest) : Accounted s := by
  have hheld : s.held = s.writeSws := by
    rw [held]
    split
    · exact absurd ‹_› (hrest _ _ _)
    · rfl
  refine ⟨fun i hi => ?_, H.total_eq⟩
  have hcount : s.pending.count i = 1 := by
    rw [H.pending_eq]
    exact Multiset.count_eq_one_of_mem s.unresolved.nodup hi
  simpa [pending, hheld, idents, tableIdents, add_assoc] using hcount

end Inv

end Pipeline

/-- **Between sends, each open share is in one place and counted**, in every run in which
each failed send is the first in a row. -/
theorem accounted_of_firstFailures {pools : ℕ → PoolConn} {es : List Event} {s : Pipeline}
    (hrun : Run.exec step (Pipeline.init pools) es = some s)
    (hfirst : Run.AllSteps step FirstFailure (Pipeline.init pools) es) (hrest : s.AtRest) :
    Accounted s :=
  (Run.exec_invariant (fun _ _ _ H hs hf => H.step hs hf) (Pipeline.Inv.init pools) hrun
    hfirst).accounted hrest

/-- A first failure leaves the share in `write_sws` alone. -/
theorem accounted_firstSend_selectfail :
    Accounted ((Run.exec step (Pipeline.init connectedPools) (firstSend .selectfail)).get rfl) := by
  refine accounted_of_firstFailures (Option.some_get _).symm ?_ fun _ _ _ h => by cases h
  iterate 5 refine Run.allSteps_cons_of_eq rfl trivial ?_
  refine Run.allSteps_cons_of_eq rfl (fun _ work hwork => ?_) trivial
  obtain rfl := Option.some.inj hwork
  refine ⟨rfl, fun sshare hfind => ?_⟩
  obtain rfl := Option.some.inj hfind
  rfl

/-- The pool is connected again, still marked as failing, and the next send fails too. -/
def secondFailure : List Event :=
  firstSend .selectfail ++
    [.visit, .connection 0 true true true none, .wake, .select (some [0]), .visit,
      .sent .selectfail]

/-- After it the share is both in `write_sws` and in `stratum_shares`. -/
theorem not_accounted_secondFailure :
    ¬ ∀ s, Run.exec step (Pipeline.init connectedPools) secondFailure = some s →
      s.AtRest → Accounted s := by
  intro H
  have haccounted := H _ rfl (fun _ _ _ h => by cases h)
  have honce := haccounted.once 0 (by decide)
  revert honce
  decide

end MassGridMiner

import MassGridMiner.Share.Flow
import Mathlib.Order.Interval.Finset.Nat
import Mathlib.Algebra.Ring.Rat

/-!
# The books balance

Each function that counts enters the same in total, for a processor and for a pool, so that the
totals are the sums of the processors and of the pools in every run.  That a block is counted
once is another matter: it is counted whenever its submission begins, and a share that is
resubmitted, and a copy of it, begin anew.

## Main definitions

* `Counter` — the counters that are kept three times.
* `Books.InBalance` — the totals are the sums.
* `Books.CountedOnce` — no share is counted twice as a block.
* `Books.FirstMeeting` — the condition: no submission begins anew with the hash of a block.
-/

namespace MassGridMiner

open Ledger (update)

/-- A counter of a tally. -/
inductive Counter
  | accepted
  | rejected
  | stale
  | diffAccepted
  | diffRejected
  | diffStale
  | diff1

namespace Counter

/-- What a counter stands at. -/
def of : Counter → Tally → ℚ
  | accepted, t => t.accepted
  | rejected, t => t.rejected
  | stale, t => t.stale
  | diffAccepted, t => t.diffAccepted
  | diffRejected, t => t.diffRejected
  | diffStale, t => t.diffStale
  | diff1, t => t.diff1

@[simp] theorem of_zero (c : Counter) : c.of Tally.zero = 0 := by cases c <;> simp [of, Tally.zero]

/-- What a lost share adds to a counter. -/
def lostAmount : Counter → FoundWork → ℚ
  | stale => fun _ => 1
  | diffStale => FoundWork.workDifficulty
  | _ => fun _ => 0

end Counter

namespace Tally

/-- An entry adds to each counter what does not depend on where it stands. -/
def Adds (entry : Tally → Tally) (x : Counter → ℚ) : Prop :=
  ∀ (c : Counter) (t : Tally), c.of (entry t) = c.of t + x c

theorem exists_adds_accept (diff : ℚ) : ∃ x, Adds (accept diff) x := by
  refine ⟨fun | .accepted => 1 | .diffAccepted => diff | _ => 0, fun c t => ?_⟩
  cases c <;> simp [accept, Counter.of]

theorem exists_adds_reject (diff : ℚ) : ∃ x, Adds (reject diff) x := by
  refine ⟨fun | .rejected => 1 | .diffRejected => diff | _ => 0, fun c t => ?_⟩
  cases c <;> simp [reject, Counter.of]

theorem exists_adds_find (diff : ℚ) : ∃ x, Adds (find diff) x := by
  refine ⟨fun | .diff1 => diff | _ => 0, fun c t => ?_⟩
  cases c <;> simp [find, Counter.of]

theorem exists_adds_discard (n : ℕ) (diff : ℚ) : ∃ x, Adds (discard n diff) x := by
  refine ⟨fun | .stale => n | .diffStale => diff | _ => 0, fun c t => ?_⟩
  cases c <;> simp [discard, Counter.of]

/-- Lost shares that are entered at once. -/
theorem adds_discard_lost (lost : List FoundWork) :
    Adds (discard lost.length (lost.map FoundWork.workDifficulty).sum)
      fun c => (lost.map c.lostAmount).sum := by
  intro c t
  cases c <;> simp [discard, Counter.of, Counter.lostAmount]

end Tally

namespace Books

variable {setup : Setup} {s s' : Books}

/-- The totals are the sums over the processors, and over the pools. -/
structure InBalance (setup : Setup) (s : Books) : Prop where
  cgpu : ∀ c : Counter, Ledger.Balanced setup.totalDevices (c.of s.total) fun d => c.of (s.cgpu d)
  pool : ∀ c : Counter, Ledger.Balanced setup.totalPools (c.of s.total) fun p => c.of (s.pool p)
  solved : Ledger.Balanced setup.totalPools s.foundBlocks s.solved

/-- No share is counted twice as a block, those whose submission begins with the hash of a block
are counted, and each is counted in `found_blocks`. -/
structure CountedOnce (setup : Setup) (s : Books) (e : Event) (s' : Books) : Prop where
  once : ∀ i, s'.counted.count i ≤ 1
  met : ∀ stale work rest, e = .submission stale → s.submitWaiting = work :: rest →
    s.MeetsGoal setup work → work.ident ∈ s'.counted
  foundBlocks : e ≠ .zero →
    s'.foundBlocks + s.counted.length = s.foundBlocks + s'.counted.length

/-- No submission begins with the hash of a block for a share that is counted. -/
def FirstMeeting (setup : Setup) (s : Books) (e : Event) (_ : Books) : Prop :=
  ∀ stale work rest, e = .submission stale → s.submitWaiting = work :: rest →
    s.MeetsGoal setup work → work.ident ∉ s.counted

/-! ## The entries -/

theorem of_update (c : Counter) (of : ℕ → Tally) (i : ℕ) {entry : Tally → Tally}
    {x : Counter → ℚ} (H : Tally.Adds entry x) :
    (fun j => c.of (update of i entry j)) = update (fun j => c.of (of j)) i (· + x c) := by
  funext j
  by_cases h : j = i
  · rw [h, Ledger.update_self, Ledger.update_self, H]
  · rw [Ledger.update_of_ne h, Ledger.update_of_ne h]

/-- **The rule for entries.**  What is entered three times keeps the balance. -/
theorem InBalance.post (H : s.InBalance setup) {cgpu pool : ℕ} (hcgpu : cgpu < setup.totalDevices)
    (hpool : pool < setup.totalPools) {entry : Tally → Tally}
    (hentry : ∃ x, Tally.Adds entry x) : (s.post cgpu pool entry).InBalance setup := by
  obtain ⟨x, hadds⟩ := hentry
  refine ⟨fun c => ?_, fun c => ?_, H.solved⟩
  · have hbalanced := (H.cgpu c).post hcgpu (x c)
    rwa [← of_update c s.cgpu cgpu hadds, ← hadds] at hbalanced
  · have hbalanced := (H.pool c).post hpool (x c)
    rwa [← of_update c s.pool pool hadds, ← hadds] at hbalanced

/-- The counters are the same. -/
structure SameCounters (s s' : Books) : Prop where
  total : s'.total = s.total
  cgpu : s'.cgpu = s.cgpu
  pool : s'.pool = s.pool
  foundBlocks : s'.foundBlocks = s.foundBlocks
  solved : s'.solved = s.solved

theorem InBalance.same (H : s.InBalance setup) (hsame : SameCounters s s') :
    s'.InBalance setup := by
  obtain ⟨htotal, hcgpu, hpool, hfound, hsolved⟩ := hsame
  refine ⟨?_, ?_, ?_⟩
  · rw [htotal, hcgpu]
    exact H.cgpu
  · rw [htotal, hpool]
    exact H.pool
  · rw [hfound, hsolved]
    exact H.solved

/-! ## The functions -/

/-- A share is for a pool in use, and was found by a mining thread. -/
def IsValid (setup : Setup) (work : FoundWork) : Prop :=
  work.pool < setup.totalPools ∧ work.thrId < setup.miningThr.length

theorem getThrCgpu_lt {thrId : ℕ} (H : thrId < setup.miningThr.length) :
    setup.getThrCgpu thrId < setup.totalDevices := by
  rw [Setup.getThrCgpu, List.getElem?_eq_getElem H, Option.getD_some]
  exact setup.miningThr_lt _ (List.getElem_mem H)

/-- The rule for the entries about one share. -/
theorem InBalance.postWork (H : s.InBalance setup) {work : FoundWork} (hwork : IsValid setup work)
    {entry : Tally → Tally} (hentry : ∃ x, Tally.Adds entry x) :
    (s.post (setup.getThrCgpu work.thrId) work.pool entry).InBalance setup :=
  H.post (getThrCgpu_lt hwork.2) hwork.1 hentry

theorem InBalance.submitDiscardShare2 (H : s.InBalance setup) {work : FoundWork}
    (hwork : IsValid setup work) : (s.submitDiscardShare2 setup work).InBalance setup :=
  H.postWork hwork (Tally.exists_adds_discard 1 _)

theorem InBalance.incHwErrors3 (H : s.InBalance setup) (cgpu : ℕ) (badNonce : Bool)
    (nonceDiff : ℚ) : (s.incHwErrors3 cgpu badNonce nonceDiff).InBalance setup := by
  rw [Books.incHwErrors3]
  cases badNonce <;> exact H.same ⟨rfl, rfl, rfl, rfl, rfl⟩

theorem InBalance.submitNoffsetNonce (H : s.InBalance setup) {work : FoundWork}
    (hwork : IsValid setup work) (res : TestNonce2Result) :
    (s.submitNoffsetNonce setup work res).InBalance setup := by
  have hfound := H.postWork hwork (Tally.exists_adds_find work.nonceDiff)
  cases res with
  | bad => exact H.incHwErrors3 _ true _
  | high => exact hfound.same ⟨rfl, rfl, rfl, rfl, rfl⟩
  | good => exact hfound.same ⟨rfl, rfl, rfl, rfl, rfl⟩

theorem InBalance.workCheckForBlock (H : s.InBalance setup) {work : FoundWork}
    (hwork : IsValid setup work) :
    (s.workCheckForBlock setup work).1.InBalance setup ∧
      IsValid setup (s.workCheckForBlock setup work).2 := by
  rw [Books.workCheckForBlock]
  split
  · refine ⟨⟨H.cgpu, H.pool, ?_⟩, hwork⟩
    exact H.solved.post hwork.1 1
  · exact ⟨H.same ⟨rfl, rfl, rfl, rfl, rfl⟩, hwork⟩

theorem InBalance.beginSubmission (H : s.InBalance setup) {work : FoundWork}
    (hwork : IsValid setup work) (stale : Bool) :
    (s.beginSubmission setup work stale).InBalance setup := by
  obtain ⟨hchecked, hvalid⟩ := H.workCheckForBlock hwork
  rw [Books.beginSubmission]
  generalize s.workCheckForBlock setup work = checked at *
  obtain ⟨s₁, work₁⟩ := checked
  dsimp only at hchecked hvalid ⊢
  have hmarked : IsValid setup (if stale then { work₁ with stale := true } else work₁) := by
    split <;> exact hvalid
  generalize (if stale then { work₁ with stale := true } else work₁) = marked at *
  split
  · exact hchecked.submitDiscardShare2 hmarked
  · split <;> exact hchecked.same ⟨rfl, rfl, rfl, rfl, rfl⟩

theorem InBalance.retrySubmission (H : s.InBalance setup) {sws : SubmitWorkState}
    (hwork : IsValid setup sws.work) (stale expired : Bool) :
    (s.retrySubmission setup sws stale expired).InBalance setup := by
  have hmarked : IsValid setup (if !sws.work.stale && stale then
      { sws.work with stale := true } else sws.work) := by
    split <;> exact hwork
  rw [Books.retrySubmission]
  generalize (if !sws.work.stale && stale then { sws.work with stale := true } else sws.work) =
    marked at *
  split
  · exact H.submitDiscardShare2 hwork
  · dsimp only
    split
    · exact H.submitDiscardShare2 hmarked
    · split
      · exact H.submitDiscardShare2 hmarked
      · exact H.same ⟨rfl, rfl, rfl, rfl, rfl⟩

theorem InBalance.localSubmitLoop (H : s.InBalance setup) (work : FoundWork) (pools : List ℕ) :
    (s.localSubmitLoop setup work pools).InBalance setup := by
  induction pools generalizing s with
  | nil => exact H
  | cons i rest ih =>
      rw [Books.localSubmitLoop]
      split
      · exact ih H
      · exact ih (H.same ⟨rfl, rfl, rfl, rfl, rfl⟩)

theorem InBalance.maybeLocalSubmit (H : s.InBalance setup) (work : FoundWork) :
    (s.maybeLocalSubmit setup work).InBalance setup := by
  rw [Books.maybeLocalSubmit]
  split
  · exact (H.localSubmitLoop work _).same ⟨rfl, rfl, rfl, rfl, rfl⟩
  · exact H

theorem InBalance.shareResult (H : s.InBalance setup) (res err : Option Json) {work : FoundWork}
    (hwork : IsValid setup work) : (s.shareResult setup res err work).InBalance setup := by
  rw [Books.shareResult]
  cases MassGridMiner.shareResult res err work.toShare with
  | accepted =>
      have haccepted := H.postWork hwork (Tally.exists_adds_accept work.workDifficulty)
      dsimp only
      split
      · exact haccepted.same ⟨rfl, rfl, rfl, rfl, rfl⟩
      · refine InBalance.maybeLocalSubmit ?_ work
        exact haccepted.same ⟨rfl, rfl, rfl, rfl, rfl⟩
  | ignored => exact H.maybeLocalSubmit work
  | rejected =>
      exact (H.postWork hwork (Tally.exists_adds_reject _)).maybeLocalSubmit work

/-- What the processors have after the loop over the threads. -/
theorem sum_clearThreads (lost : List FoundWork) (cgpu : ℕ → Tally) (c : Counter)
    {threads : List ℕ} (H : ∀ i ∈ threads, i < setup.miningThr.length) :
    ∑ d ∈ Finset.range setup.totalDevices, c.of (clearThreads setup lost cgpu threads d) =
      ∑ d ∈ Finset.range setup.totalDevices, c.of (cgpu d) +
        (threads.map fun i =>
          ((lost.filter fun work => work.thrId = i).map c.lostAmount).sum).sum := by
  induction threads generalizing cgpu with
  | nil => simp [clearThreads]
  | cons i rest ih =>
      rw [clearThreads, ih _ fun j hj => H j (List.mem_cons_of_mem i hj), List.map_cons,
        List.sum_cons, ← add_assoc]
      congr 1
      split
      · have hadds := Tally.adds_discard_lost (lost.filter fun work => work.thrId = i)
        rw [of_update c cgpu (setup.getThrCgpu i) hadds,
          Ledger.sum_update_add (getThrCgpu_lt (H i List.mem_cons_self))]
      · rename_i hnone
        rw [List.length_eq_zero_iff.mp (not_not.mp hnone), List.map_nil, List.sum_nil, add_zero]

theorem InBalance.clearStratumShares (H : s.InBalance setup) {pool : ℕ}
    (hpool : pool < setup.totalPools) : (s.clearStratumShares setup pool).InBalance setup := by
  rw [Books.clearStratumShares]
  dsimp only
  split
  · have hlt : ∀ work ∈ s.stratumShares.filter (isLost setup pool),
        work.thrId < setup.miningThr.length := by
      intro work hwork
      have hlost := (List.mem_filter.mp hwork).2
      rw [isLost, Bool.and_eq_true, decide_eq_true_iff] at hlost
      exact hlost.2
    generalize s.stratumShares.filter (isLost setup pool) = lost at *
    have hadds := Tally.adds_discard_lost lost
    refine ⟨fun c => ?_, fun c => ?_, H.solved⟩
    · have hgroups := Ledger.sum_groups lost (fun work => work.thrId) c.lostAmount hlt
      rw [Ledger.Balanced, sum_clearThreads lost s.cgpu c fun i hi => List.mem_range.mp hi, hadds,
        H.cgpu c, ← List.sum_toFinset _ List.nodup_range, List.toFinset_range, hgroups]
    · have hbalanced := (H.pool c).post hpool ((lost.map c.lostAmount).sum)
      rwa [← of_update c s.pool pool hadds, ← hadds] at hbalanced
  · exact H.same ⟨rfl, rfl, rfl, rfl, rfl⟩

theorem sum_zeroUpTo {M α : Type} [AddCommMonoid M] (n : ℕ) (zero : α) (of : ℕ → α) (f : α → M)
    (H : f zero = 0) : ∑ i ∈ Finset.range n, f (zeroUpTo n zero of i) = 0 := by
  refine Finset.sum_eq_zero fun i hi => ?_
  rw [zeroUpTo, if_pos (Finset.mem_range.mp hi), H]

theorem inBalance_zeroStats (setup : Setup) (s : Books) : (s.zeroStats setup).InBalance setup where
  cgpu c := (c.of_zero).trans (sum_zeroUpTo _ _ s.cgpu c.of c.of_zero).symm
  pool c := (c.of_zero).trans (sum_zeroUpTo _ _ s.pool c.of c.of_zero).symm
  solved := (sum_zeroUpTo setup.totalPools 0 s.solved id rfl).symm

/-! ## The shares under way -/

/-- The shares under way are valid. -/
def AllValid (setup : Setup) (s : Books) : Prop := ∀ w ∈ s.works, IsValid setup w

theorem AllValid.moved (H : s.AllValid setup) (hmoved : Moved s s') : s'.AllValid setup := by
  intro w hw
  obtain ⟨v, hv, hdesc⟩ := hmoved.works w hw
  rw [IsValid, hdesc.toShare]
  exact H v hv

theorem AllValid.localSubmitLoop (H : s.AllValid setup) {work : FoundWork}
    (hwork : IsValid setup work) {pools : List ℕ} (hpools : ∀ i ∈ pools, i < setup.totalPools) :
    (s.localSubmitLoop setup work pools).AllValid setup := by
  induction pools generalizing s with
  | nil => exact H
  | cons i rest ih =>
      have hrest := fun j hj => hpools j (List.mem_cons_of_mem i hj)
      rw [Books.localSubmitLoop]
      split
      · exact ih H hrest
      · refine ih (fun w hw => ?_) hrest
        rw [mem_works] at hw
        rcases hw with hw | hw
        · rcases List.mem_append.mp hw with hw | hw
          · exact H w (mem_works.mpr (.inl hw))
          · obtain rfl := List.mem_singleton.mp hw
            exact ⟨hpools i List.mem_cons_self, hwork.2⟩
        · exact H w (mem_works.mpr (.inr hw))

theorem AllValid.maybeLocalSubmit (H : s.AllValid setup) {work : FoundWork}
    (hwork : IsValid setup work) : (s.maybeLocalSubmit setup work).AllValid setup := by
  rw [Books.maybeLocalSubmit]
  split
  · exact H.localSubmitLoop hwork fun i hi => List.mem_range.mp hi
  · exact H

theorem AllValid.step (H : s.AllValid setup) {e : Event} (hs : s.step setup e = some s') :
    s'.AllValid setup := by
  rcases step_cases hs with ⟨-, hmoved⟩ | ⟨work, -, hpool, hthr, rfl⟩ | ⟨work, _, _, s₁, -, -, hw,
    hmoved, rfl⟩
  · exact H.moved hmoved
  · intro w hw
    rw [mem_works] at hw
    rcases hw with hw | hw
    · rcases List.mem_append.mp hw with hw | hw
      · exact H w (mem_works.mpr (.inl hw))
      · obtain rfl := List.mem_singleton.mp hw
        exact ⟨hpool, hthr⟩
    · exact H w (mem_works.mpr (.inr hw))
  · exact (H.moved hmoved).maybeLocalSubmit (H work hw)

/-! ## The steps -/

/-- **A step keeps the balance.** -/
theorem InBalance.step (H : s.InBalance setup) (hvalid : s.AllValid setup) {e : Event}
    (hs : s.step setup e = some s') : s'.InBalance setup := by
  cases e with
  | nonce work res =>
      rw [Books.step] at hs
      split at hs
      · rename_i hwork
        cases hs
        exact H.submitNoffsetNonce hwork res
      · cases hs
  | hwError thrId badNonce nonceDiff =>
      rw [Books.step] at hs
      split at hs
      · cases hs
        exact H.incHwErrors3 _ badNonce nonceDiff
      · cases hs
  | submission stale =>
      rw [Books.step] at hs
      split at hs
      · cases hs
      · rename_i work rest hwaiting
        cases hs
        have hwork : IsValid setup work := by
          refine hvalid work ?_
          rw [mem_works, hwaiting]
          exact .inl List.mem_cons_self
        have hrest : { s with submitWaiting := rest }.InBalance setup :=
          H.same ⟨rfl, rfl, rfl, rfl, rfl⟩
        exact hrest.beginSubmission hwork stale
  | answer k res err =>
      obtain ⟨sws, hsws, rfl⟩ := Option.map_eq_some_iff.mp hs
      have hrest : { s with httpSws := s.httpSws.eraseIdx k }.InBalance setup :=
        H.same ⟨rfl, rfl, rfl, rfl, rfl⟩
      exact hrest.shareResult res err (hvalid _ (mem_works_of_httpSws hsws))
  | noAnswer k stale expired =>
      obtain ⟨sws, hsws, rfl⟩ := Option.map_eq_some_iff.mp hs
      have hrest : { s with httpSws := s.httpSws.eraseIdx k }.InBalance setup :=
        H.same ⟨rfl, rfl, rfl, rfl, rfl⟩
      exact hrest.retrySubmission (hvalid _ (mem_works_of_httpSws hsws)) stale expired
  | visit k how =>
      obtain ⟨work, hwork, rfl⟩ := Option.map_eq_some_iff.mp hs
      cases how with
      | disconnect =>
          have hrest : { s with writeSws := s.writeSws.eraseIdx k }.InBalance setup :=
            H.same ⟨rfl, rfl, rfl, rfl, rfl⟩
          exact hrest.submitDiscardShare2 (hvalid _ (mem_works_of_writeSws hwork))
      | sent => exact H.same ⟨rfl, rfl, rfl, rfl, rfl⟩
      | undone => exact H
      | entered => exact H.same ⟨rfl, rfl, rfl, rfl, rfl⟩
  | response k res err =>
      obtain ⟨work, hwork, rfl⟩ := Option.map_eq_some_iff.mp hs
      have hrest : { s with stratumShares := s.stratumShares.eraseIdx k }.InBalance setup :=
        H.same ⟨rfl, rfl, rfl, rfl, rfl⟩
      exact hrest.shareResult res err (hvalid _ (mem_works_of_stratumShares hwork))
  | clear pool =>
      rw [Books.step] at hs
      split at hs
      · rename_i hpool
        cases hs
        exact H.clearStratumShares hpool
      · cases hs
  | resubmit pool =>
      cases hs
      exact H.same ⟨rfl, rfl, rfl, rfl, rfl⟩
  | zero =>
      cases hs
      exact inBalance_zeroStats setup s
  | setDifficulty goal diff =>
      cases hs
      exact H.same ⟨rfl, rfl, rfl, rfl, rfl⟩

/-! ## The blocks -/

/-- The share whose submission begins, where it has the hash of a block. -/
def meeting (setup : Setup) (s : Books) : Event → List ℕ
  | .submission _ => match s.submitWaiting with
    | work :: _ => if s.MeetsGoal setup work then [work.ident] else []
    | [] => []
  | _ => []

theorem counted_beginSubmission (setup : Setup) (s : Books) (work : FoundWork) (stale : Bool) :
    (s.beginSubmission setup work stale).counted =
        (if s.MeetsGoal setup work then [work.ident] else []) ++ s.counted ∧
      (s.beginSubmission setup work stale).foundBlocks =
        s.foundBlocks + (if s.MeetsGoal setup work then [work.ident] else []).length := by
  have hchecked : (s.workCheckForBlock setup work).1.counted =
        (if s.MeetsGoal setup work then [work.ident] else []) ++ s.counted ∧
      (s.workCheckForBlock setup work).1.foundBlocks =
        s.foundBlocks + (if s.MeetsGoal setup work then [work.ident] else []).length := by
    rw [workCheckForBlock]
    split <;> exact ⟨rfl, rfl⟩
  rw [beginSubmission]
  generalize s.workCheckForBlock setup work = checked at *
  obtain ⟨s₁, work₁⟩ := checked
  dsimp only at hchecked ⊢
  generalize (if stale then { work₁ with stale := true } else work₁) = marked
  split
  · exact hchecked
  · split <;> exact hchecked

theorem counted_localSubmitLoop (setup : Setup) (s : Books) (work : FoundWork) (pools : List ℕ) :
    (s.localSubmitLoop setup work pools).counted = s.counted ∧
      (s.localSubmitLoop setup work pools).foundBlocks = s.foundBlocks := by
  induction pools generalizing s with
  | nil => exact ⟨rfl, rfl⟩
  | cons i rest ih =>
      rw [localSubmitLoop]
      split
      · exact ih s
      · exact ih _

theorem counted_maybeLocalSubmit (setup : Setup) (s : Books) (work : FoundWork) :
    (s.maybeLocalSubmit setup work).counted = s.counted ∧
      (s.maybeLocalSubmit setup work).foundBlocks = s.foundBlocks := by
  rw [maybeLocalSubmit]
  split
  · exact counted_localSubmitLoop setup s work _
  · exact ⟨rfl, rfl⟩

theorem counted_shareResult (setup : Setup) (s : Books) (res err : Option Json)
    (work : FoundWork) :
    (s.shareResult setup res err work).counted = s.counted ∧
      (s.shareResult setup res err work).foundBlocks = s.foundBlocks := by
  rw [shareResult]
  cases MassGridMiner.shareResult res err work.toShare with
  | accepted =>
      dsimp only
      split
      · exact ⟨rfl, rfl⟩
      · exact counted_maybeLocalSubmit setup _ work
  | ignored => exact counted_maybeLocalSubmit setup s work
  | rejected => exact counted_maybeLocalSubmit setup _ work

/-- What a step counts: the share whose submission begins, where it has the hash of a block. -/
theorem counted_step {e : Event} (hs : s.step setup e = some s') :
    s'.counted = s.meeting setup e ++ s.counted ∧
      (e ≠ .zero → s'.foundBlocks = s.foundBlocks + (s.meeting setup e).length) := by
  have hsame : ∀ t : Books, t.counted = s.counted ∧ t.foundBlocks = s.foundBlocks →
      t.counted = [] ++ s.counted ∧
        (e ≠ .zero → t.foundBlocks = s.foundBlocks + ([] : List ℕ).length) :=
    fun t h => ⟨h.1, fun _ => h.2⟩
  cases e with
  | nonce work res =>
      rw [step] at hs
      split at hs
      · cases hs
        cases res <;> exact hsame _ ⟨rfl, rfl⟩
      · cases hs
  | hwError thrId badNonce nonceDiff =>
      rw [step] at hs
      split at hs
      · cases hs
        refine hsame _ ?_
        rw [incHwErrors3]
        cases badNonce <;> exact ⟨rfl, rfl⟩
      · cases hs
  | submission stale =>
      rw [step] at hs
      rw [meeting]
      cases hwaiting : s.submitWaiting with
      | nil =>
          rw [hwaiting] at hs
          cases hs
      | cons work rest =>
          rw [hwaiting] at hs
          cases hs
          obtain ⟨hcounted, hfound⟩ := counted_beginSubmission setup
            { s with submitWaiting := rest } work stale
          exact ⟨hcounted, fun _ => hfound⟩
  | answer k res err =>
      obtain ⟨sws, -, rfl⟩ := Option.map_eq_some_iff.mp hs
      exact hsame _ (counted_shareResult setup _ res err sws.work)
  | noAnswer k stale expired =>
      obtain ⟨sws, -, rfl⟩ := Option.map_eq_some_iff.mp hs
      refine hsame _ ?_
      rw [retrySubmission]
      dsimp only
      split_ifs <;> exact ⟨rfl, rfl⟩
  | visit k how =>
      obtain ⟨work, -, rfl⟩ := Option.map_eq_some_iff.mp hs
      cases how <;> exact hsame _ ⟨rfl, rfl⟩
  | response k res err =>
      obtain ⟨work, -, rfl⟩ := Option.map_eq_some_iff.mp hs
      exact hsame _ (counted_shareResult setup _ res err work)
  | clear pool =>
      rw [step] at hs
      split at hs
      · cases hs
        refine hsame _ ?_
        rw [clearStratumShares]
        dsimp only
        split <;> exact ⟨rfl, rfl⟩
      · cases hs
  | resubmit pool =>
      cases hs
      exact hsame _ ⟨rfl, rfl⟩
  | zero =>
      cases hs
      exact ⟨rfl, fun h => absurd rfl h⟩
  | setDifficulty goal diff =>
      cases hs
      exact hsame _ ⟨rfl, rfl⟩

theorem firstMeeting_iff (s : Books) (e : Event) (s' : Books) :
    FirstMeeting setup s e s' ↔ ∀ i ∈ s.meeting setup e, i ∉ s.counted := by
  constructor
  · intro h i hi
    cases e with
    | submission stale =>
        rw [meeting] at hi
        split at hi
        · rename_i work rest hwaiting
          split at hi
          · rename_i hmeets
            obtain rfl := List.mem_singleton.mp hi
            exact h stale work rest rfl hwaiting hmeets
          · cases hi
        · cases hi
    | _ => cases hi
  · rintro h stale work rest rfl hwaiting hmeets
    refine h work.ident ?_
    simp only [meeting, hwaiting, if_pos hmeets, List.mem_singleton]

theorem countedOnce_iff (hnodup : s.counted.Nodup) {e : Event} (hs : s.step setup e = some s') :
    CountedOnce setup s e s' ↔ FirstMeeting setup s e s' := by
  obtain ⟨hcounted, hfound⟩ := counted_step hs
  have hmeeting : (s.meeting setup e).Nodup := by
    cases e with
    | submission stale =>
        rw [meeting]
        split
        · split <;> simp
        · simp
    | _ => exact List.nodup_nil
  rw [firstMeeting_iff]
  constructor
  · intro h i hi hold
    have honce := h.once i
    rw [hcounted, List.count_append] at honce
    have hnew := List.count_pos_iff.mpr hi
    have hcount := List.count_pos_iff.mpr hold
    omega
  · intro h
    have hnodup' : s'.counted.Nodup := by
      rw [hcounted, List.nodup_append']
      exact ⟨hmeeting, hnodup, fun i hi hold => h i hi hold⟩
    refine ⟨List.nodup_iff_count_le_one.mp hnodup', ?_, fun hne => ?_⟩
    · rintro stale work rest rfl hwaiting hmeets
      rw [hcounted]
      refine List.mem_append_left _ ?_
      simp only [meeting, hwaiting, if_pos hmeets, List.mem_singleton]
    · rw [hfound hne, hcounted, List.length_append]
      omega

/-- What is asked of the books: they balance, and blocks are counted once. -/
def Kept (setup : Setup) (s : Books) (e : Event) (s' : Books) : Prop :=
  s'.InBalance setup ∧ CountedOnce setup s e s'

theorem inBalance_init (setup : Setup) (currentDiff : ℕ → ℚ) :
    (init currentDiff).InBalance setup where
  cgpu c := (c.of_zero).trans (Finset.sum_eq_zero fun _ _ => c.of_zero).symm
  pool c := (c.of_zero).trans (Finset.sum_eq_zero fun _ _ => c.of_zero).symm
  solved := (Finset.sum_eq_zero fun _ _ => rfl).symm

theorem allValid_init (setup : Setup) (currentDiff : ℕ → ℚ) : (init currentDiff).AllValid setup :=
  fun w hw => by cases hw

/-- **The books balance in every run.** -/
theorem allSteps_inBalance (setup : Setup) (currentDiff : ℕ → ℚ) (es : List Event) :
    Run.AllSteps (step setup) (fun _ _ s' => s'.InBalance setup) (init currentDiff) es := by
  refine Run.allSteps_of_invariant (I := fun s => s.InBalance setup ∧ s.AllValid setup)
    (fun s e s' hI hs => ?_) es ⟨inBalance_init setup currentDiff, allValid_init setup currentDiff⟩
  have hbalance := hI.1.step hI.2 hs
  exact ⟨⟨hbalance, hI.2.step hs⟩, hbalance⟩

/-- **The books are kept as long as no counted share is submitted anew with the hash of a
block.** -/
theorem allSteps_kept_iff (setup : Setup) (currentDiff : ℕ → ℚ) (es : List Event) :
    Run.AllSteps (step setup) (Kept setup) (init currentDiff) es ↔
      Run.AllSteps (step setup) (FirstMeeting setup) (init currentDiff) es := by
  refine Run.allSteps_congr
    (I := fun s => s.InBalance setup ∧ s.AllValid setup ∧ s.counted.Nodup)
    (fun s e s' hI hs => ?_) (fun s e s' hI hs hlaw => ?_) es
    ⟨inBalance_init setup currentDiff, allValid_init setup currentDiff, List.nodup_nil⟩
  · rw [Kept, countedOnce_iff hI.2.2 hs]
    exact and_iff_right (hI.1.step hI.2.1 hs)
  · exact ⟨hlaw.1, hI.2.1.step hs, List.nodup_iff_count_le_one.mpr hlaw.2.once⟩

/-- One pool and one processor. -/
def singleSetup : Setup where
  totalPools := 1
  rpcUrl _ := .empty
  submitOld _ := false
  poolGoal _ := 0
  totalDevices := 1
  miningThr := [0]
  miningThr_lt := by simp
  optSubmitStale := false
  optShares := 0
  optRetries := -1

/-- A work over stratum, with the best of hashes. -/
def stratumWork : FoundWork where
  ident := 0
  pool := 0
  nonce1 := .empty
  thrId := 0
  hash := Hash.zero
  target := Hash.ones
  workDifficulty := 1
  nonceDiff := 1
  tr := false
  stratum := true
  block := false
  stale := false
  mandatory := false
  doForeignSubmit := false

/-- A block is found and sent, and put back as the connection is resumed. -/
def resumedRun : List Event :=
  [.nonce stratumWork .good, .submission false, .visit 0 .sent, .resubmit 0]

/-- Its submission begins anew, and it is counted again. -/
theorem not_kept_resumed :
    ¬ Run.AllSteps (step singleSetup) (Kept singleSetup) (init fun _ => 1)
      (resumedRun ++ [.submission false]) := by
  intro h
  have htwice : ((Run.exec (step singleSetup) (init fun _ => 1) resumedRun).bind fun s =>
      s.step singleSetup (.submission false)).map (fun s => s.counted.count 0) = some 2 := by
    decide +kernel
  obtain ⟨s', hlast, hcount⟩ := Option.map_eq_some_iff.mp htwice
  obtain ⟨s, hs, hs'⟩ := Option.bind_eq_some_iff.mp hlast
  have honce := ((Run.allSteps_append.mp h).2 s hs s' hs').1.2.once 0
  omega

end Books

end MassGridMiner

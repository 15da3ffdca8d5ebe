import MassGridMiner.Share.Flow
import Mathlib.Data.Finset.Card
import Mathlib.Data.Finset.Prod

/-!
# Copies for other pools

The answer to a block with its full template is passed on by pushing a copy of it for each pool
with `allblocks`.  The copy has the template and the mark of a block as well, and so is its
answer passed on again.  `oneCopyEach_iff` says in which runs no share is copied twice for the
same pool.

## Main definitions

* `Setup.targets` — the pools with `allblocks`.
* `Books.OneCopyEach` — what is asked: no share is copied twice for a pool.
* `Books.FirstAnswer` — the condition: what is passed on is the first answer, and of no copy.
* `Books.Tracked` — the invariant.
-/

namespace MassGridMiner

open CStr

/-- The pools with `allblocks`. -/
def Setup.targets (setup : Setup) : List ℕ := (List.range setup.totalPools).filter setup.allblocks

theorem Setup.nodup_targets (setup : Setup) : setup.targets.Nodup :=
  List.nodup_range.filter _

namespace Books

variable {setup : Setup} {s s' : Books}

/-- No share is copied twice for the same pool, and so many shares at most are pushed. -/
structure OneCopyEach (setup : Setup) (_ : Books) (_ : Event) (s' : Books) : Prop where
  once : ∀ i p, s'.copies.count (i, p) ≤ 1
  pushed_le : s'.pushed ≤ s'.fresh * (1 + setup.targets.length)

/-- An answer to a block with its template that does not end the run is the first one that is
passed on for the share, and not one to a copy; unless there is no pool with `allblocks`. -/
def FirstAnswer (setup : Setup) (s : Books) (e : Event) (_ : Books) : Prop :=
  ∀ work res err, s.answering e = some (work, res, err) → ¬ s.Ends setup work res err →
    work.block → work.tr → setup.targets ≠ [] →
      work.doForeignSubmit = false ∧ work.ident ∉ s.passedOn

/-! ## The loop over the pools -/

/-- The copy of a work for a pool. -/
def copyFor (work : FoundWork) (pool : ℕ) : FoundWork :=
  { work with pool := pool, doForeignSubmit := true }

theorem localSubmitLoop_eq (setup : Setup) (s : Books) (work : FoundWork) (pools : List ℕ) :
    s.localSubmitLoop setup work pools = { s with
      submitWaiting := s.submitWaiting ++ (pools.filter setup.allblocks).map (copyFor work)
      pushed := s.pushed + (pools.filter setup.allblocks).length
      copies := ((pools.filter setup.allblocks).map (work.ident, ·)).reverse ++ s.copies } := by
  induction pools generalizing s with
  | nil => simp [localSubmitLoop]
  | cons i rest ih =>
      rw [localSubmitLoop]
      cases hi : setup.allblocks i with
      | false =>
          rw [List.filter_cons_of_neg (by simp [hi])]
          exact ih s
      | true =>
          rw [List.filter_cons_of_pos hi]
          simp only [Bool.not_true, Bool.false_eq_true, if_false, ih, submitWorkAsync,
            List.map_cons, List.reverse_cons, List.append_assoc, List.singleton_append,
            List.length_cons, copyFor, Nat.add_assoc, Nat.add_comm 1]

/-- What passing an answer on does: nothing, or the copies of a block. -/
theorem maybeLocalSubmit_eq (setup : Setup) (s : Books) (work : FoundWork) :
    s.maybeLocalSubmit setup work =
      if work.block && work.tr then { s with
        submitWaiting := s.submitWaiting ++ setup.targets.map (copyFor work)
        pushed := s.pushed + setup.targets.length
        copies := (setup.targets.map (work.ident, ·)).reverse ++ s.copies
        passedOn := work.ident :: s.passedOn }
      else s := by
  rw [maybeLocalSubmit, localSubmitLoop_eq]
  rfl

/-! ## The invariant -/

/-- The shares under way are known, and a copy is under way only when an answer to its share has
been passed on; each such answer has left a copy for each pool with `allblocks`. -/
structure Tracked (setup : Setup) (s : Books) : Prop where
  lt_fresh : ∀ w ∈ s.works, w.ident < s.fresh
  passedOn_lt : ∀ i ∈ s.passedOn, i < s.fresh
  foreign : ∀ w ∈ s.works, w.doForeignSubmit → w.ident ∈ s.passedOn
  mem_copies : ∀ i p, (i, p) ∈ s.copies ↔ i ∈ s.passedOn ∧ p ∈ setup.targets
  pushed_eq : s.pushed = s.fresh + s.copies.length

theorem Tracked.moved (H : s.Tracked setup) (hmoved : Moved s s') : s'.Tracked setup where
  lt_fresh w hw := by
    obtain ⟨v, hv, hdesc⟩ := hmoved.works w hw
    rw [hdesc.toShare, hmoved.fresh]
    exact H.lt_fresh v hv
  passedOn_lt := by
    rw [hmoved.passedOn, hmoved.fresh]
    exact H.passedOn_lt
  foreign w hw hforeign := by
    obtain ⟨v, hv, hdesc⟩ := hmoved.works w hw
    rw [hdesc.toShare, hmoved.passedOn]
    exact H.foreign v hv (hdesc.doForeignSubmit ▸ hforeign)
  mem_copies := by
    rw [hmoved.copies, hmoved.passedOn]
    exact H.mem_copies
  pushed_eq := by rw [hmoved.pushed, hmoved.fresh, hmoved.copies, H.pushed_eq]

theorem Tracked.found (H : s.Tracked setup) (work : FoundWork) :
    (s.submitNoffsetNonce setup work .good).Tracked setup := by
  have hworks : ∀ w ∈ (s.submitNoffsetNonce setup work .good).works,
      (w.ident = s.fresh ∧ w.doForeignSubmit = false) ∨ w ∈ s.works := by
    intro w hw
    rw [mem_works] at hw ⊢
    rcases hw with hw | hw
    · rcases List.mem_append.mp hw with hw | hw
      · exact .inr (.inl hw)
      · obtain rfl := List.mem_singleton.mp hw
        exact .inl ⟨rfl, rfl⟩
    · exact .inr (.inr hw)
  refine ⟨fun w hw => ?_, fun i hi => ?_, fun w hw hforeign => ?_, H.mem_copies, ?_⟩
  · rcases hworks w hw with ⟨hident, -⟩ | hw
    · rw [hident]
      exact Nat.lt_succ_self _
    · exact Nat.lt_succ_of_lt (H.lt_fresh w hw)
  · exact Nat.lt_succ_of_lt (H.passedOn_lt i hi)
  · rcases hworks w hw with ⟨-, hown⟩ | hw
    · rw [hown] at hforeign
      cases hforeign
    · exact H.foreign w hw hforeign
  · have hpushed := H.pushed_eq
    change s.pushed + 1 = s.fresh + 1 + s.copies.length
    omega

theorem Tracked.passOn (H : s.Tracked setup) {work : FoundWork} (hlt : work.ident < s.fresh) :
    (s.maybeLocalSubmit setup work).Tracked setup := by
  rw [maybeLocalSubmit_eq]
  split
  · refine ⟨fun w hw => ?_, fun i hi => ?_, fun w hw hforeign => ?_, fun i p => ?_, ?_⟩
    · rw [mem_works] at hw
      rcases hw with hw | hw
      · rcases List.mem_append.mp hw with hw | hw
        · exact H.lt_fresh w (mem_works.mpr (.inl hw))
        · obtain ⟨p, -, rfl⟩ := List.mem_map.mp hw
          exact hlt
      · exact H.lt_fresh w (mem_works.mpr (.inr hw))
    · rcases List.mem_cons.mp hi with rfl | hi
      · exact hlt
      · exact H.passedOn_lt i hi
    · rw [mem_works] at hw
      rcases hw with hw | hw
      · rcases List.mem_append.mp hw with hw | hw
        · exact List.mem_cons_of_mem _ (H.foreign w (mem_works.mpr (.inl hw)) hforeign)
        · obtain ⟨p, -, rfl⟩ := List.mem_map.mp hw
          exact List.mem_cons_self
      · exact List.mem_cons_of_mem _ (H.foreign w (mem_works.mpr (.inr hw)) hforeign)
    · simp only [List.mem_append, List.mem_reverse, List.mem_map, Prod.mk.injEq, H.mem_copies,
        List.mem_cons]
      constructor
      · rintro (⟨q, hq, rfl, rfl⟩ | ⟨hi, hp⟩)
        · exact ⟨.inl rfl, hq⟩
        · exact ⟨.inr hi, hp⟩
      · rintro ⟨rfl | hi, hp⟩
        · exact .inl ⟨p, hp, rfl, rfl⟩
        · exact .inr ⟨hi, hp⟩
    · have hpushed := H.pushed_eq
      simp only [List.length_append, List.length_reverse, List.length_map]
      omega
  · exact H

theorem Tracked.step (H : s.Tracked setup) {e : Event} (hs : s.step setup e = some s') :
    s'.Tracked setup := by
  rcases step_cases hs with ⟨-, hmoved⟩ | ⟨work, -, -, -, rfl⟩ | ⟨work, _, _, s₁, -, -, hw, hmoved,
    rfl⟩
  · exact H.moved hmoved
  · exact H.found work
  · refine (H.moved hmoved).passOn ?_
    rw [hmoved.fresh]
    exact H.lt_fresh work hw

/-! ## The runs -/

/-- With one copy for each share and pool, the number of pushed shares is bounded. -/
theorem Tracked.pushed_le (H : s.Tracked setup) (hnodup : s.copies.Nodup) :
    s.pushed ≤ s.fresh * (1 + setup.targets.length) := by
  have hsubset : s.copies.toFinset ⊆ Finset.range s.fresh ×ˢ setup.targets.toFinset := by
    rintro ⟨i, p⟩ hmem
    obtain ⟨hi, hp⟩ := (H.mem_copies i p).mp (List.mem_toFinset.mp hmem)
    exact Finset.mem_product.mpr
      ⟨Finset.mem_range.mpr (H.passedOn_lt i hi), List.mem_toFinset.mpr hp⟩
  have hcard := Finset.card_le_card hsubset
  rw [List.toFinset_card_of_nodup hnodup, Finset.card_product, Finset.card_range,
    List.toFinset_card_of_nodup setup.nodup_targets] at hcard
  rw [H.pushed_eq, Nat.mul_add, Nat.mul_one]
  omega

theorem oneCopyEach_iff_nodup (H : s'.Tracked setup) (s : Books) (e : Event) :
    OneCopyEach setup s e s' ↔ s'.copies.Nodup := by
  rw [List.nodup_iff_count_le_one]
  constructor
  · exact fun h ⟨i, p⟩ => h.once i p
  · exact fun h => ⟨fun i p => h (i, p), H.pushed_le (List.nodup_iff_count_le_one.mpr h)⟩

/-- The copies stay different unless there are some of the share already. -/
theorem nodup_copies_iff (H : s.Tracked setup) (hnodup : s.copies.Nodup) (i : ℕ) :
    ((setup.targets.map (i, ·)).reverse ++ s.copies).Nodup ↔
      (setup.targets ≠ [] → i ∉ s.passedOn) := by
  have hnew : (setup.targets.map (i, ·)).reverse.Nodup :=
    List.nodup_reverse.mpr (setup.nodup_targets.map fun _ _ h => (Prod.mk.inj h).2)
  rw [List.nodup_append']
  constructor
  · rintro ⟨-, -, hdisjoint⟩ hne hi
    obtain ⟨p, hp⟩ := List.exists_mem_of_ne_nil _ hne
    exact hdisjoint (List.mem_reverse.mpr (List.mem_map.mpr ⟨p, hp, rfl⟩))
      ((H.mem_copies i p).mpr ⟨hi, hp⟩)
  · intro hfirst
    refine ⟨hnew, hnodup, ?_⟩
    rintro ⟨j, p⟩ hj hold
    obtain ⟨q, hq, ⟨⟩⟩ := List.mem_map.mp (List.mem_reverse.mp hj)
    exact hfirst (List.ne_nil_of_mem hq) ((H.mem_copies i p).mp hold).1

theorem nodup_iff_firstAnswer (H : s.Tracked setup) (hnodup : s.copies.Nodup) {e : Event}
    (hs : s.step setup e = some s') : s'.copies.Nodup ↔ FirstAnswer setup s e s' := by
  rcases step_cases hs with ⟨hends, hmoved⟩ | ⟨work, rfl, -, -, rfl⟩ | ⟨work, res, err, s₁, he,
    hends, hw, hmoved, rfl⟩
  · refine iff_of_true (hmoved.copies ▸ hnodup) fun work res err he hnot => ?_
    exact absurd (hends work res err he) hnot
  · exact iff_of_true hnodup fun work res err he => nomatch he
  · have hfirst : FirstAnswer setup s e (s₁.maybeLocalSubmit setup work) ↔
        (work.block → work.tr → setup.targets ≠ [] →
          work.doForeignSubmit = false ∧ work.ident ∉ s.passedOn) := by
      constructor
      · exact fun h => h work res err he hends
      · rintro h work' res' err' he' -
        cases he.symm.trans he'
        exact h
    rw [hfirst, maybeLocalSubmit_eq]
    by_cases hfull : (work.block && work.tr) = true
    · obtain ⟨hblock, htr⟩ := Bool.and_eq_true_iff.mp hfull
      rw [if_pos hfull]
      dsimp only
      rw [nodup_copies_iff (H.moved hmoved) (hmoved.copies ▸ hnodup), hmoved.passedOn]
      constructor
      · intro h _ _ hne
        refine ⟨?_, h hne⟩
        cases hforeign : work.doForeignSubmit with
        | false => rfl
        | true => exact absurd (H.foreign work hw hforeign) (h hne)
      · exact fun h hne => (h hblock htr hne).2
    · rw [if_neg hfull, hmoved.copies]
      refine iff_of_true hnodup fun hblock htr => ?_
      exact absurd (Bool.and_eq_true_iff.mpr ⟨hblock, htr⟩) hfull

theorem tracked_init (setup : Setup) (currentDiff : ℕ → ℚ) : (init currentDiff).Tracked setup where
  lt_fresh w hw := by cases hw
  passedOn_lt i hi := by cases hi
  foreign w hw := by cases hw
  mem_copies i p := by simp [init]
  pushed_eq := rfl

/-- **No share is copied twice for a pool as long as only first answers are passed on.** -/
theorem allSteps_oneCopyEach_iff (setup : Setup) (currentDiff : ℕ → ℚ) (es : List Event) :
    Run.AllSteps (step setup) (OneCopyEach setup) (init currentDiff) es ↔
      Run.AllSteps (step setup) (FirstAnswer setup) (init currentDiff) es := by
  refine Run.allSteps_congr (I := fun s => s.Tracked setup ∧ s.copies.Nodup)
    (fun s e s' hI hs => ?_) (fun s e s' hI hs hlaw => ?_) es
    ⟨tracked_init setup currentDiff, List.nodup_nil⟩
  · rw [oneCopyEach_iff_nodup (hI.1.step hs), nodup_iff_firstAnswer hI.1 hI.2 hs]
  · have htracked := hI.1.step hs
    exact ⟨htracked, (oneCopyEach_iff_nodup htracked s e).mp hlaw⟩

/-- One pool, with `allblocks`, and one processor. -/
def allblocksSetup : Setup where
  totalPools := 1
  rpcUrl _ := .ofMem (literal "http://a#allblocks")
  submitOld _ := false
  poolGoal _ := 0
  totalDevices := 1
  miningThr := [0]
  miningThr_lt := List.forall_mem_singleton.mpr Nat.zero_lt_one
  optSubmitStale := false
  optShares := 0
  optRetries := -1

/-- A work from a template, with the best of hashes. -/
def blockWork : FoundWork where
  ident := 0
  pool := 0
  nonce1 := .empty
  thrId := 0
  hash := Hash.zero
  target := Hash.ones
  workDifficulty := 1
  nonceDiff := 1
  tr := true
  stratum := false
  block := false
  stale := false
  mandatory := false
  doForeignSubmit := false

/-- A block is found, submitted and accepted, and then its copy is submitted. -/
def blockRun : List Event :=
  [.nonce blockWork .good, .submission false, .answer 0 (some (.bool true)) none,
    .submission false]

/-- The copy is accepted, and copied again. -/
theorem not_oneCopyEach_allblocks :
    ¬ Run.AllSteps (step allblocksSetup) (OneCopyEach allblocksSetup) (init fun _ => 1)
      (blockRun ++ [.answer 0 (some (.bool true)) none]) := by
  intro h
  have htwice : ((Run.exec (step allblocksSetup) (init fun _ => 1) blockRun).bind fun s =>
      s.step allblocksSetup (.answer 0 (some (.bool true)) none)).map
        (fun s => s.copies.count (0, 0)) = some 2 := by decide +kernel
  obtain ⟨s', hlast, hcount⟩ := Option.map_eq_some_iff.mp htwice
  obtain ⟨s, hs, hs'⟩ := Option.bind_eq_some_iff.mp hlast
  have honce := (((Run.allSteps_append.mp h).2 s hs s' hs').1).once 0 0
  omega

end Books

end MassGridMiner

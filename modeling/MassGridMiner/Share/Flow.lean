import MassGridMiner.Share.Books

/-!
# The way of the shares

A step finds a share, moves shares between the places where they wait, or passes an answer on.
`Books.step_cases` says so once; what holds of the shares under way follows from it.

## Main definitions

* `Books.works` — the shares under way.
* `Books.Moved` — shares are moved, marked or dropped, and nothing else.
* `Books.answering`, `Books.Ends` — the answer that comes in, and that it ends the run.
-/

namespace MassGridMiner

namespace Books

variable {setup : Setup} {s s' : Books}

/-- The shares under way, wherever they wait. -/
def works (s : Books) : List FoundWork :=
  s.submitWaiting ++ s.httpSws.map SubmitWorkState.work ++ s.writeSws ++ s.stratumShares

theorem mem_works {w : FoundWork} :
    w ∈ s.works ↔ w ∈ s.submitWaiting ∨ (∃ sws ∈ s.httpSws, sws.work = w) ∨ w ∈ s.writeSws ∨
      w ∈ s.stratumShares := by
  simp only [works, List.mem_append, List.mem_map, or_assoc]

theorem mem_works_cons_writeSws (s : Books) (w v : FoundWork) :
    v ∈ { s with writeSws := w :: s.writeSws }.works ↔ v = w ∨ v ∈ s.works := by
  simp only [works, List.mem_append, List.mem_cons]
  tauto

theorem mem_works_cons_stratumShares (s : Books) (w v : FoundWork) :
    v ∈ { s with stratumShares := w :: s.stratumShares }.works ↔ v = w ∨ v ∈ s.works := by
  simp only [works, List.mem_append, List.mem_cons]
  tauto

theorem mem_works_cons_httpSws (s : Books) (sws : SubmitWorkState) (v : FoundWork) :
    v ∈ { s with httpSws := sws :: s.httpSws }.works ↔ v = sws.work ∨ v ∈ s.works := by
  simp only [works, List.mem_append, List.map_cons, List.mem_cons]
  tauto

/-- The same share for the same pool, with other marks of its submission. -/
structure Descends (w w' : FoundWork) : Prop where
  toShare : w'.toShare = w.toShare
  doForeignSubmit : w'.doForeignSubmit = w.doForeignSubmit

theorem Descends.refl (w : FoundWork) : Descends w w := ⟨rfl, rfl⟩

theorem Descends.trans {w w' w'' : FoundWork} (h : Descends w w') (h' : Descends w' w'') :
    Descends w w'' :=
  ⟨h'.toShare.trans h.toShare, h'.doForeignSubmit.trans h.doForeignSubmit⟩

/-- No share is new, and none is found, pushed, copied or passed on. -/
structure Moved (s s' : Books) : Prop where
  works : ∀ w' ∈ s'.works, ∃ w ∈ s.works, Descends w w'
  fresh : s'.fresh = s.fresh
  pushed : s'.pushed = s.pushed
  copies : s'.copies = s.copies
  passedOn : s'.passedOn = s.passedOn

theorem Moved.refl (s : Books) : Moved s s :=
  ⟨fun w hw => ⟨w, hw, .refl w⟩, rfl, rfl, rfl, rfl⟩

/-- Shares change their place or are dropped. -/
theorem moved_of_subset (hworks : ∀ w ∈ s'.works, w ∈ s.works) (hfresh : s'.fresh = s.fresh)
    (hpushed : s'.pushed = s.pushed) (hcopies : s'.copies = s.copies)
    (hpassedOn : s'.passedOn = s.passedOn) : Moved s s' :=
  ⟨fun w hw => ⟨w, hworks w hw, .refl w⟩, hfresh, hpushed, hcopies, hpassedOn⟩

/-- A share that was under way is marked, and comes to another place. -/
theorem Moved.place {s₁ : Books} (H : Moved s s₁) {w w' : FoundWork} (hw : w ∈ s.works)
    (hdesc : Descends w w') (hworks : ∀ v ∈ s'.works, v = w' ∨ v ∈ s₁.works)
    (hfresh : s'.fresh = s₁.fresh) (hpushed : s'.pushed = s₁.pushed)
    (hcopies : s'.copies = s₁.copies) (hpassedOn : s'.passedOn = s₁.passedOn) : Moved s s' := by
  refine ⟨fun v hv => ?_, hfresh.trans H.fresh, hpushed.trans H.pushed, hcopies.trans H.copies,
    hpassedOn.trans H.passedOn⟩
  rcases hworks v hv with rfl | hv
  · exact ⟨w, hw, hdesc⟩
  · exact H.works v hv

/-! ## The functions -/

theorem workCheckForBlock_spec (setup : Setup) (H : Moved s s') (work : FoundWork) :
    Descends work (s'.workCheckForBlock setup work).2 ∧
      Moved s (s'.workCheckForBlock setup work).1 := by
  rw [workCheckForBlock]
  split <;> exact ⟨⟨rfl, rfl⟩, H.works, H.fresh, H.pushed, H.copies, H.passedOn⟩

theorem Moved.submitDiscardShare2 (H : Moved s s') (work : FoundWork) :
    Moved s (s'.submitDiscardShare2 setup work) :=
  ⟨H.works, H.fresh, H.pushed, H.copies, H.passedOn⟩

/-- A share taken from where it waits is begun, wherever it goes from there. -/
theorem Moved.beginSubmission (H : Moved s s') {work : FoundWork} (hw : work ∈ s.works)
    (stale : Bool) : Moved s (s'.beginSubmission setup work stale) := by
  obtain ⟨hdesc, hchecked⟩ := workCheckForBlock_spec setup H work
  rw [Books.beginSubmission]
  generalize s'.workCheckForBlock setup work = checked at *
  obtain ⟨s₁, work₁⟩ := checked
  dsimp only at hdesc hchecked ⊢
  have hmarked : Descends work (if stale then { work₁ with stale := true } else work₁) := by
    split
    · exact hdesc.trans ⟨rfl, rfl⟩
    · exact hdesc
  generalize (if stale then { work₁ with stale := true } else work₁) = marked at *
  split
  · exact hchecked.submitDiscardShare2 marked
  · split
    · refine hchecked.place hw hmarked (fun v hv => ?_) rfl rfl rfl rfl
      exact (mem_works_cons_writeSws s₁ marked v).mp hv
    · refine hchecked.place hw hmarked (fun v hv => ?_) rfl rfl rfl rfl
      exact (mem_works_cons_httpSws s₁ ⟨marked, 0⟩ v).mp hv

/-- What `retry_submission` does with a share that it has taken. -/
theorem Moved.retrySubmission (H : Moved s s') {sws : SubmitWorkState} (hw : sws.work ∈ s.works)
    (stale expired : Bool) : Moved s (s'.retrySubmission setup sws stale expired) := by
  rw [Books.retrySubmission]
  have hmarked : Descends sws.work (if !sws.work.stale && stale then
      { sws.work with stale := true } else sws.work) := by
    split
    · exact ⟨rfl, rfl⟩
    · exact .refl _
  generalize (if !sws.work.stale && stale then { sws.work with stale := true } else sws.work) =
    marked at *
  split
  · exact H.submitDiscardShare2 _
  · dsimp only
    split
    · exact H.submitDiscardShare2 marked
    · split
      · exact H.submitDiscardShare2 marked
      · refine H.place hw hmarked (fun v hv => ?_) rfl rfl rfl rfl
        exact (mem_works_cons_httpSws s' _ v).mp hv

/-- The answer that an event brings, with the share that it is for. -/
def answering (s : Books) : Event → Option (FoundWork × Option Json × Option Json)
  | .answer k res err => s.httpSws[k]?.map fun sws => (sws.work, res, err)
  | .response k res err => s.stratumShares[k]?.map fun work => (work, res, err)
  | _ => none

/-- With this answer enough shares are accepted, and the program stops. -/
def Ends (setup : Setup) (s : Books) (work : FoundWork) (res err : Option Json) : Prop :=
  MassGridMiner.shareResult res err work.toShare = .accepted ∧ setup.optShares ≠ 0 ∧
    setup.optShares ≤ s.total.diffAccepted + work.workDifficulty

/-- An answer is entered in the books; unless it ends the run, it is then passed on. -/
theorem shareResult_cases (setup : Setup) (s : Books) (res err : Option Json)
    (work : FoundWork) : ∃ s₁ : Books,
      (s₁.works = s.works ∧ s₁.fresh = s.fresh ∧ s₁.pushed = s.pushed ∧ s₁.copies = s.copies ∧
        s₁.passedOn = s.passedOn) ∧
      (s.Ends setup work res err ∧ s.shareResult setup res err work = s₁ ∨
        ¬ s.Ends setup work res err ∧
          s.shareResult setup res err work = s₁.maybeLocalSubmit setup work) := by
  rw [shareResult, Ends]
  cases hresult : MassGridMiner.shareResult res err work.toShare with
  | accepted =>
      dsimp only
      split
      · rename_i hreached
        refine ⟨_, ?_, .inl ⟨⟨rfl, hreached⟩, rfl⟩⟩
        exact ⟨rfl, rfl, rfl, rfl, rfl⟩
      · rename_i hreached
        refine ⟨_, ?_, .inr ⟨fun h => hreached h.2, rfl⟩⟩
        exact ⟨rfl, rfl, rfl, rfl, rfl⟩
  | ignored => exact ⟨s, ⟨rfl, rfl, rfl, rfl, rfl⟩, .inr ⟨fun h => (nomatch h.1), rfl⟩⟩
  | rejected =>
      refine ⟨_, ?_, .inr ⟨fun h => (nomatch h.1), rfl⟩⟩
      exact ⟨rfl, rfl, rfl, rfl, rfl⟩

/-- A share is taken from a list. -/
theorem moved_eraseIdx_httpSws (s : Books) (k : ℕ) :
    Moved s { s with httpSws := s.httpSws.eraseIdx k } := by
  refine moved_of_subset (fun v hv => ?_) rfl rfl rfl rfl
  rw [mem_works] at hv ⊢
  refine hv.imp id (Or.imp ?_ id)
  rintro ⟨sws, hsws, rfl⟩
  exact ⟨sws, List.mem_of_mem_eraseIdx hsws, rfl⟩

theorem moved_eraseIdx_writeSws (s : Books) (k : ℕ) :
    Moved s { s with writeSws := s.writeSws.eraseIdx k } := by
  refine moved_of_subset (fun v hv => ?_) rfl rfl rfl rfl
  rw [mem_works] at hv ⊢
  exact hv.imp id (Or.imp id (Or.imp List.mem_of_mem_eraseIdx id))

theorem moved_eraseIdx_stratumShares (s : Books) (k : ℕ) :
    Moved s { s with stratumShares := s.stratumShares.eraseIdx k } := by
  refine moved_of_subset (fun v hv => ?_) rfl rfl rfl rfl
  rw [mem_works] at hv ⊢
  exact hv.imp id (Or.imp id (Or.imp id List.mem_of_mem_eraseIdx))

theorem mem_works_of_httpSws {k : ℕ} {sws : SubmitWorkState} (H : s.httpSws[k]? = some sws) :
    sws.work ∈ s.works :=
  mem_works.mpr (.inr (.inl ⟨sws, List.mem_of_getElem? H, rfl⟩))

theorem mem_works_of_writeSws {k : ℕ} {work : FoundWork} (H : s.writeSws[k]? = some work) :
    work ∈ s.works :=
  mem_works.mpr (.inr (.inr (.inl (List.mem_of_getElem? H))))

theorem mem_works_of_stratumShares {k : ℕ} {work : FoundWork}
    (H : s.stratumShares[k]? = some work) : work ∈ s.works :=
  mem_works.mpr (.inr (.inr (.inr (List.mem_of_getElem? H))))

theorem moved_visit {k : ℕ} {work : FoundWork} (H : s.writeSws[k]? = some work) (how : Visit) :
    Moved s (s.visit setup k work how) := by
  have hw := mem_works_of_writeSws H
  have herased := moved_eraseIdx_writeSws s k
  cases how with
  | disconnect => exact herased.submitDiscardShare2 work
  | sent =>
      refine herased.place hw (.refl work) (fun v hv => ?_) rfl rfl rfl rfl
      exact (mem_works_cons_stratumShares { s with writeSws := s.writeSws.eraseIdx k } work v).mp hv
  | undone => exact .refl s
  | entered =>
      refine (Moved.refl s).place hw (.refl work) (fun v hv => ?_) rfl rfl rfl rfl
      exact (mem_works_cons_stratumShares s work v).mp hv

theorem moved_clearStratumShares (setup : Setup) (s : Books) (pool : ℕ) :
    Moved s (s.clearStratumShares setup pool) := by
  have hworks : ∀ v, v ∈ { s with
      stratumShares := s.stratumShares.filter fun work => !isLost setup pool work }.works →
      v ∈ s.works := by
    intro v hv
    rw [mem_works] at hv ⊢
    exact hv.imp id (Or.imp id (Or.imp id List.mem_of_mem_filter))
  rw [clearStratumShares]
  dsimp only
  split <;> exact moved_of_subset hworks rfl rfl rfl rfl

theorem moved_resubmitStratumShares (s : Books) (pool : ℕ) :
    Moved s (s.resubmitStratumShares pool) := by
  refine moved_of_subset (fun v hv => ?_) rfl rfl rfl rfl
  simp only [mem_works, resubmitStratumShares, List.mem_append, List.mem_filter] at hv ⊢
  rcases hv with (hv | hv) | hv | hv | hv
  · exact .inl hv
  · exact .inr (.inr (.inr hv.1))
  · exact .inr (.inl hv)
  · exact .inr (.inr (.inl hv))
  · exact .inr (.inr (.inr hv.1))

/-! ## The steps -/

/-- A share is found. -/
def FindsShare (setup : Setup) (s : Books) (e : Event) (s' : Books) : Prop :=
  ∃ work, e = .nonce work .good ∧ work.pool < setup.totalPools ∧
    work.thrId < setup.miningThr.length ∧ s' = s.submitNoffsetNonce setup work .good

/-- An answer is passed on. -/
def PassesOn (setup : Setup) (s : Books) (e : Event) (s' : Books) : Prop :=
  ∃ work res err s₁, s.answering e = some (work, res, err) ∧ ¬ s.Ends setup work res err ∧
    work ∈ s.works ∧ Moved s s₁ ∧ s' = s₁.maybeLocalSubmit setup work

/-- An answer is passed on, unless it ends the run. -/
theorem shareResult_step {e : Event} {work : FoundWork} {res err : Option Json}
    (he : s.answering e = some (work, res, err)) (hw : work ∈ s.works)
    (hmoved : Moved s s') (htotal : s'.total = s.total) :
    (∀ work res err, s.answering e = some (work, res, err) → s.Ends setup work res err) ∧
        Moved s (s'.shareResult setup res err work) ∨
      PassesOn setup s e (s'.shareResult setup res err work) := by
  obtain ⟨s₁, ⟨hworks, hfresh, hpushed, hcopies, hpassedOn⟩, hcases⟩ :=
    shareResult_cases setup s' res err work
  have hmoved₁ : Moved s s₁ :=
    ⟨hworks ▸ hmoved.works, hfresh.trans hmoved.fresh, hpushed.trans hmoved.pushed,
      hcopies.trans hmoved.copies, hpassedOn.trans hmoved.passedOn⟩
  have hends : s'.Ends setup work res err ↔ s.Ends setup work res err := by
    rw [Ends, Ends, htotal]
  rcases hcases with ⟨hended, heq⟩ | ⟨hended, heq⟩
  · refine .inl ⟨fun work' res' err' he' => ?_, heq ▸ hmoved₁⟩
    cases he.symm.trans he'
    exact hends.mp hended
  · exact .inr ⟨work, res, err, s₁, he, fun h => hended (hends.mpr h), hw, hmoved₁, heq⟩

/-- **What a step does with the shares**: it moves them, or finds one, or passes an answer on. -/
theorem step_cases {e : Event} (hs : s.step setup e = some s') :
    (∀ work res err, s.answering e = some (work, res, err) → s.Ends setup work res err) ∧
        Moved s s' ∨
      FindsShare setup s e s' ∨ PassesOn setup s e s' := by
  have hnone : s.answering e = none → Moved s s' →
      (∀ work res err, s.answering e = some (work, res, err) → s.Ends setup work res err) ∧
        Moved s s' := fun hnone hmoved => ⟨fun work res err h => by simp [hnone] at h, hmoved⟩
  cases e with
  | nonce work res =>
      rw [step] at hs
      split at hs
      · rename_i hvalid
        cases hs
        cases res with
        | good => exact .inr (.inl ⟨work, rfl, hvalid.1, hvalid.2, rfl⟩)
        | high => exact .inl (hnone rfl (moved_of_subset (fun w hw => hw) rfl rfl rfl rfl))
        | bad => exact .inl (hnone rfl (moved_of_subset (fun w hw => hw) rfl rfl rfl rfl))
      · cases hs
  | hwError thrId badNonce nonceDiff =>
      rw [step] at hs
      split at hs
      · cases hs
        refine .inl (hnone rfl ?_)
        rw [incHwErrors3]
        cases badNonce <;> exact moved_of_subset (fun w hw => hw) rfl rfl rfl rfl
      · cases hs
  | submission stale =>
      rw [step] at hs
      split at hs
      · cases hs
      · rename_i work rest hwaiting
        cases hs
        have hw : work ∈ s.works := by
          rw [mem_works, hwaiting]
          exact .inl List.mem_cons_self
        have hrest : Moved s { s with submitWaiting := rest } := by
          refine moved_of_subset (fun v hv => ?_) rfl rfl rfl rfl
          rw [mem_works] at hv ⊢
          rw [hwaiting]
          exact hv.imp (List.mem_cons_of_mem work) id
        exact .inl (hnone rfl (hrest.beginSubmission hw stale))
  | answer k res err =>
      obtain ⟨sws, hsws, rfl⟩ := Option.map_eq_some_iff.mp hs
      have he : s.answering (.answer k res err) = some (sws.work, res, err) := by
        rw [answering, hsws]
        rfl
      exact (shareResult_step he (mem_works_of_httpSws hsws)
        (moved_eraseIdx_httpSws s k) rfl).imp id .inr
  | noAnswer k stale expired =>
      obtain ⟨sws, hsws, rfl⟩ := Option.map_eq_some_iff.mp hs
      have hmoved := moved_eraseIdx_httpSws s k
      exact .inl (hnone rfl (hmoved.retrySubmission (mem_works_of_httpSws hsws) stale expired))
  | visit k how =>
      obtain ⟨work, hwork, rfl⟩ := Option.map_eq_some_iff.mp hs
      exact .inl (hnone rfl (moved_visit hwork how))
  | response k res err =>
      obtain ⟨work, hwork, rfl⟩ := Option.map_eq_some_iff.mp hs
      have he : s.answering (.response k res err) = some (work, res, err) := by
        rw [answering, hwork]
        rfl
      exact (shareResult_step he (mem_works_of_stratumShares hwork)
        (moved_eraseIdx_stratumShares s k) rfl).imp id .inr
  | clear pool =>
      rw [step] at hs
      split at hs
      · cases hs
        exact .inl (hnone rfl (moved_clearStratumShares setup s pool))
      · cases hs
  | resubmit pool =>
      cases hs
      exact .inl (hnone rfl (moved_resubmitStratumShares s pool))
  | zero =>
      cases hs
      exact .inl (hnone rfl (moved_of_subset (fun w hw => hw) rfl rfl rfl rfl))
  | setDifficulty goal diff =>
      cases hs
      exact .inl (hnone rfl (moved_of_subset (fun w hw => hw) rfl rfl rfl rfl))

end Books

end MassGridMiner

import MassGridMiner.Pools.Priorities

/-!
# The pools of the command line before those of the configuration

The pools of the default configuration are added before the command line is read.  The program
then moves the priorities of both, each by the number of those from the configuration, and has
them checked.  That puts the command line first when there are as many pools of the one kind as
of the other, and in no other case.

## Main definitions

* `rearrangePools` — what `main` does to the priorities.
* `startPools` — the pools as the program starts with them.
* `CommandLineFirst` — the command line comes first, and either kind keeps its order.
* `ranking_validatePoolPriorities` — any priorities are made a ranking.
* `commandLineFirst_iff` — when the command line does come first.
-/

namespace MassGridMiner

namespace PoolTable

/-! ## What the check of priorities does -/

/-- The priorities of some pools. -/
def prios (s : PoolTable) (l : List ℕ) : List ℤ := l.map fun p => (s.pool p).prio

/-- Some of the listed pools have priorities in range, no two of them the same. -/
structure Apart (s : PoolTable) (l : List ℕ) : Prop where
  nodup : (s.prios l).Nodup
  listed : ∀ p ∈ l, p ∈ s.pools
  nonneg : ∀ p ∈ l, 0 ≤ (s.pool p).prio
  lt_totalPools : ∀ p ∈ l, (s.pool p).prio < s.totalPools

section
variable {s s' : PoolTable} {p : ℕ} {l done valid : List ℕ}

theorem Apart.cons (H : s.Apart done) (hp : p ∈ s.pools) (hnonneg : 0 ≤ (s.pool p).prio)
    (hlt : (s.pool p).prio < s.totalPools) (hused : (s.pool p).prio ∉ s.prios done) :
    s.Apart (p :: done) where
  nodup := List.nodup_cons.mpr ⟨hused, H.nodup⟩
  listed := List.forall_mem_cons.mpr ⟨hp, H.listed⟩
  nonneg := List.forall_mem_cons.mpr ⟨hnonneg, H.nonneg⟩
  lt_totalPools := List.forall_mem_cons.mpr ⟨hlt, H.lt_totalPools⟩

/-- Pools that are apart, if they are all that are listed, are ranked. -/
theorem Apart.ranking (H : s.Apart done) (hnodup : s.pools.Nodup)
    (hdone : ∀ p ∈ s.pools, p ∈ done) : IsRanking s.pools fun p => (s.pool p).prio where
  nodup := hnodup
  inj p hp q hq heq := List.inj_on_of_nodup_map H.nodup (hdone p hp) (hdone q hq) heq
  nonneg p hp := H.nonneg p (hdone p hp)
  lt_length p hp := H.lt_totalPools p (hdone p hp)

/-- The numbers that the second loop looks through. -/
theorem mem_candidates {n : ℕ} {k : ℤ} :
    (k ∈ do let j ← List.range n; pure (j : ℤ)) ↔ 0 ≤ k ∧ k < n := by
  simp only [List.bind_eq_flatMap, List.pure_def, List.mem_flatMap, List.mem_range,
    List.mem_singleton]
  refine ⟨?_, fun H => ⟨k.toNat, by omega, by omega⟩⟩
  rintro ⟨j, hj, rfl⟩
  omega

/-- While a listed pool is not among those that are apart, a priority is left for it. -/
theorem Apart.exists_unused (H : s.Apart done) (hp : p ∈ s.pools) (hdone : p ∉ done) :
    ∃ j, ((List.range s.totalPools).find? fun j => decide ((j : ℤ) ∉ s.prios done)) = some j ∧
      0 ≤ j ∧ j < s.totalPools ∧ j ∉ s.prios done := by
  have hnodup : (p :: done).Nodup := List.nodup_cons.mpr ⟨hdone, H.nodup.of_map⟩
  have hlen : done.length < s.totalPools :=
    (List.subperm_of_subset hnodup (List.forall_mem_cons.mpr ⟨hp, H.listed⟩)).length_le
  have hfree : ∃ k : ℕ, k < s.totalPools ∧ (k : ℤ) ∉ s.prios done := by
    by_contra hnone
    push Not at hnone
    have hall : (List.range s.totalPools).map Nat.cast ⊆ s.prios done := by
      intro k hk
      obtain ⟨j, hj, rfl⟩ := List.mem_map.mp hk
      exact hnone j (List.mem_range.mp hj)
    have hle := (List.subperm_of_subset
      (List.nodup_range.map Nat.cast_injective) hall).length_le
    rw [prios, List.length_map, List.length_map, List.length_range] at hle
    omega
  obtain ⟨k, hk, hunused⟩ := hfree
  have hsome : ((List.range s.totalPools).find? fun j =>
      decide ((j : ℤ) ∉ s.prios done)).isSome = true :=
    List.find?_isSome.mpr ⟨(k : ℤ),
      mem_candidates.mpr ⟨Int.natCast_nonneg k, Int.ofNat_lt.mpr hk⟩, decide_eq_true hunused⟩
  obtain ⟨j, hj⟩ := Option.isSome_iff_exists.mp hsome
  obtain ⟨hnonneg, hlt⟩ := mem_candidates.mp (List.mem_of_find?_eq_some hj)
  exact ⟨j, hj, hnonneg, hlt, by simpa using List.find?_some hj⟩

theorem prios_modify (hp : p ∉ done) (k : ℤ) :
    (s.modify p fun pool => { pool with prio := k }).prios done = s.prios done := by
  refine List.map_congr_left fun q hq => ?_
  have hne : q ≠ p := by
    rintro rfl
    exact hp hq
  rw [prio_modify_prio, if_neg hne]

/-- The pool is given a priority that none of the others has. -/
theorem Apart.modify (H : s.Apart done) (hp : p ∈ s.pools) (hdone : p ∉ done) {k : ℤ}
    (hnonneg : 0 ≤ k) (hk : k < s.totalPools) (hused : k ∉ s.prios done) :
    (s.modify p fun pool => { pool with prio := k }).Apart (p :: done) := by
  have hself : ((s.modify p fun pool => { pool with prio := k }).pool p).prio = k := by
    rw [prio_modify_prio, if_pos rfl]
  have hkept : ∀ q ∈ done,
      ((s.modify p fun pool => { pool with prio := k }).pool q).prio = (s.pool q).prio := by
    intro q hq
    have hne : q ≠ p := by
      rintro rfl
      exact hdone hq
    rw [prio_modify_prio, if_neg hne]
  have hdone' : (s.modify p fun pool => { pool with prio := k }).Apart done := by
    refine ⟨?_, H.listed, fun q hq => ?_, fun q hq => ?_⟩
    · rw [prios_modify hdone k]
      exact H.nodup
    · rw [hkept q hq]
      exact H.nonneg q hq
    · rw [hkept q hq]
      exact H.lt_totalPools q hq
  refine hdone'.cons hp ?_ ?_ ?_
  · rw [hself]
    exact hnonneg
  · rw [hself]
    exact hk
  · rw [hself, prios_modify hdone k]
    exact hused

/-- The first loop marks pools that are apart, among them each whose priority is in range and
was not used before it. -/
theorem markValid_spec (H : s.Apart done) (hnodup : l.Nodup) (hl : ∀ p ∈ l, p ∈ s.pools) :
    ∃ valid, s.markValid l (s.prios done) =
        (l.map fun p => decide (p ∈ valid), s.prios (valid ++ done)) ∧
      s.Apart (valid ++ done) ∧ (∀ p ∈ valid, p ∈ l) ∧
      ∀ before p after, l = before ++ p :: after → 0 ≤ (s.pool p).prio →
        (s.pool p).prio < s.totalPools → (s.pool p).prio ∉ s.prios (before ++ done) →
          p ∈ valid := by
  induction l generalizing done with
  | nil => exact ⟨[], rfl, H, nofun, by simp⟩
  | cons p rest ih =>
      obtain ⟨hp, hrest⟩ := List.nodup_cons.mp hnodup
      obtain ⟨hmem, hmems⟩ := List.forall_mem_cons.mp hl
      rw [markValid]
      dsimp only
      generalize hvalid : (decide (0 ≤ (s.pool p).prio) &&
        decide ((s.pool p).prio < s.totalPools) &&
        decide ((s.pool p).prio ∉ s.prios done)) = isValid
      cases isValid with
      | true =>
          simp only [Bool.and_eq_true, decide_eq_true_eq] at hvalid
          obtain ⟨⟨hnonneg, hlt⟩, hused⟩ := hvalid
          obtain ⟨valid, hmark, hapart, hsub, hfirst⟩ :=
            ih (H.cons hmem hnonneg hlt hused) hrest hmems
          have hcons : valid ++ p :: done = valid ++ [p] ++ done := by simp
          have hmarks : rest.map (fun q => decide (q ∈ valid ++ [p])) =
              rest.map fun q => decide (q ∈ valid) := by
            refine List.map_congr_left fun q hq => ?_
            have hne : q ≠ p := by
              rintro rfl
              exact hp hq
            simp [hne]
          rw [hcons] at hmark hapart
          refine ⟨valid ++ [p], ?_, hapart, ?_, ?_⟩
          · rw [if_pos rfl]
            change (_ :: (s.markValid rest (s.prios (p :: done))).1,
              (s.markValid rest (s.prios (p :: done))).2) = _
            rw [hmark, List.map_cons, hmarks, decide_eq_true (by simp)]
          · intro q hq
            rcases List.mem_append.mp hq with hq | hq
            · exact List.mem_cons_of_mem p (hsub q hq)
            · exact List.mem_singleton.mp hq ▸ List.mem_cons_self
          · intro before q after heq hq0 hqlt hqused
            cases before with
            | nil =>
                obtain ⟨rfl, -⟩ := List.cons.inj heq
                exact List.mem_append_right valid (List.mem_singleton_self _)
            | cons p' before =>
                obtain ⟨rfl, htail⟩ := List.cons.inj heq
                refine List.mem_append_left _ (hfirst before q after htail hq0 hqlt ?_)
                simpa [prios, or_left_comm] using hqused
      | false =>
          obtain ⟨valid, hmark, hapart, hsub, hfirst⟩ := ih H hrest hmems
          have hnot : p ∉ valid := fun hin => hp (hsub p hin)
          refine ⟨valid, ?_, hapart, fun q hq => List.mem_cons_of_mem p (hsub q hq), ?_⟩
          · rw [if_neg Bool.false_ne_true, hmark, List.map_cons, decide_eq_false hnot]
          · intro before q after heq hq0 hqlt hqused
            cases before with
            | nil =>
                obtain ⟨rfl, -⟩ := List.cons.inj heq
                have hyes : (decide (0 ≤ (s.pool p).prio) &&
                    decide ((s.pool p).prio < s.totalPools) &&
                    decide ((s.pool p).prio ∉ s.prios done)) = true := by
                  simp only [Bool.and_eq_true, decide_eq_true_eq]
                  exact ⟨⟨hq0, hqlt⟩, hqused⟩
                rw [hyes] at hvalid
                cases hvalid
            | cons p' before =>
                obtain ⟨rfl, htail⟩ := List.cons.inj heq
                refine hfirst before q after htail hq0 hqlt fun hin => hqused ?_
                exact List.mem_cons_of_mem _ hin

/-- The second loop gives the pools that are not valid what is left, and leaves the others as
they are. -/
theorem fixPriorities_spec (H : s.Apart done) (hl : ∀ p ∈ l, p ∈ s.pools)
    (hdone : ∀ p ∈ l, p ∉ valid → p ∉ done) (hnodup : l.Nodup) :
    ∃ done', (s.fixPriorities (s.prios done) (l.map fun p => (p, decide (p ∈ valid)))).Apart done' ∧
      (∀ p ∈ done, p ∈ done') ∧ (∀ p ∈ l, p ∉ valid → p ∈ done') ∧
      SamePools s (s.fixPriorities (s.prios done) (l.map fun p => (p, decide (p ∈ valid)))) ∧
      ∀ p ∈ done, ((s.fixPriorities (s.prios done)
        (l.map fun p => (p, decide (p ∈ valid)))).pool p).prio = (s.pool p).prio := by
  induction l generalizing s done with
  | nil => exact ⟨done, H, fun _ hp => hp, nofun, SamePools.refl s, fun _ _ => rfl⟩
  | cons p rest ih =>
      obtain ⟨hp, hrest⟩ := List.nodup_cons.mp hnodup
      obtain ⟨hmem, hmems⟩ := List.forall_mem_cons.mp hl
      obtain ⟨hhead, htail⟩ := List.forall_mem_cons.mp hdone
      rw [List.map_cons, fixPriorities]
      by_cases hvalid : p ∈ valid
      · rw [if_pos (decide_eq_true hvalid)]
        obtain ⟨done', hapart, hsub, hall, hsame, hprio⟩ := ih H hmems htail hrest
        refine ⟨done', hapart, hsub, List.forall_mem_cons.mpr ⟨absurd hvalid, hall⟩, hsame, hprio⟩
      · rw [if_neg (by simpa using hvalid)]
        obtain ⟨j, hj, hnonneg, hlt, hused⟩ := H.exists_unused hmem (hhead hvalid)
        rw [hj]
        dsimp only
        have hmodified := H.modify hmem (hhead hvalid) hnonneg hlt hused
        have hused' : (s.modify p fun pool => { pool with prio := j }).prios (p :: done) =
            j :: s.prios done := by
          rw [prios, List.map_cons, prio_modify_prio, if_pos rfl]
          exact congrArg _ (prios_modify (hhead hvalid) j)
        rw [← hused']
        have hfresh : ∀ q ∈ rest, q ∉ valid → q ∉ p :: done := by
          intro q hq hnot hin
          rcases List.mem_cons.mp hin with rfl | hin
          · exact hp hq
          · exact htail q hq hnot hin
        obtain ⟨done', hapart, hsub, hall, hsame, hprio⟩ := ih hmodified hmems hfresh hrest
        obtain ⟨hin, hsub⟩ := List.forall_mem_cons.mp hsub
        refine ⟨done', hapart, hsub, List.forall_mem_cons.mpr ⟨fun _ => hin, hall⟩,
          (samePools_modify_prio s p j).trans hsame, fun q hq => ?_⟩
        have hne : q ≠ p := by
          rintro rfl
          exact hhead hvalid hq
        rw [hprio q (List.mem_cons_of_mem p hq), prio_modify_prio, if_neg hne]

/-- Whatever the priorities are, the check makes them a ranking, and it leaves alone each pool
whose priority is in range and was not used by a pool before it. -/
theorem validatePoolPriorities_spec (hnodup : s.pools.Nodup) :
    SamePools s s.validatePoolPriorities ∧
      (IsRanking s.pools fun p => (s.validatePoolPriorities.pool p).prio) ∧
      ∀ before p after, s.pools = before ++ p :: after → 0 ≤ (s.pool p).prio →
        (s.pool p).prio < s.totalPools → (s.pool p).prio ∉ s.prios before →
          (s.validatePoolPriorities.pool p).prio = (s.pool p).prio := by
  have hnone : s.Apart [] := ⟨List.nodup_nil, nofun, nofun, nofun⟩
  obtain ⟨valid, hmark, hapart, hsub, hfirst⟩ := markValid_spec hnone hnodup fun _ hp => hp
  rw [List.append_nil] at hmark hapart
  have hvalidate : s.validatePoolPriorities =
      s.fixPriorities (s.prios valid) (s.pools.map fun p => (p, decide (p ∈ valid))) := by
    rw [validatePoolPriorities]
    change s.fixPriorities (s.markValid s.pools (s.prios [])).2
      (s.pools.zip (s.markValid s.pools (s.prios [])).1) = _
    rw [hmark, List.map_prod_left_eq_zip]
  rw [hvalidate]
  obtain ⟨done', hdone', hvalid, hall, hsame, hprio⟩ :=
    fixPriorities_spec hapart (fun _ hp => hp) (fun p _ hp => hp) hnodup
  refine ⟨hsame, ?_, ?_⟩
  · have hin : ∀ p ∈ s.pools, p ∈ done' := by
      intro p hp
      by_cases hmem : p ∈ valid
      · exact hvalid p hmem
      · exact hall p hp hmem
    rw [← hsame.pools] at hnodup hin
    have hranking := hdone'.ranking hnodup hin
    rw [hsame.pools] at hranking
    exact hranking
  · intro before p after heq hnonneg hlt hused
    refine hprio p (hfirst before p after heq hnonneg hlt ?_)
    rw [List.append_nil]
    exact hused

end

/-! ## The start of the program -/

/-- What `main` does to the priorities when there are pools of both kinds. -/
def rearrangePools (s : PoolTable) (rearrangePools : ℕ) : PoolTable :=
  if rearrangePools ≠ 0 ∧ rearrangePools < s.totalPools then
    let pool := updateAll (s.pools.take rearrangePools)
      (fun pool => { pool with prio := pool.prio + rearrangePools }) s.pool
    { s with
      pool := updateAll (s.pools.drop rearrangePools)
        (fun pool => { pool with prio := pool.prio - rearrangePools }) pool }
  else s

/-- So many pools are added. -/
def addPools : ℕ → PoolTable → Option PoolTable
  | 0, s => some s
  | n + 1, s => (s.addPool2 false).bind (addPools n)

/-- The pools of the default configuration, those of the command line, and what `main` does to
the priorities of both. -/
def startPools (strategy : PoolStrategy) (optFailOnly : Bool) (a b : ℕ) : Option PoolTable :=
  (addPools a (init strategy optFailOnly)).bind fun s =>
    (addPools b s).map fun t => (t.rearrangePools s.totalPools).validatePoolPriorities

/-- The pools behind the first `a` come before these, and either kind is in the order in which
it was defined. -/
structure CommandLineFirst (s : PoolTable) (a : ℕ) : Prop where
  first : ∀ p ∈ s.pools.drop a, ∀ q ∈ s.pools.take a, (s.pool p).prio < (s.pool q).prio
  inOrder : (s.prios (s.pools.take a)).Pairwise (· < ·)
  inOrder' : (s.prios (s.pools.drop a)).Pairwise (· < ·)

/-- So many pools were added, and no priority was changed. -/
structure Added (s : PoolTable) (n : ℕ) : Prop where
  pools : s.pools = List.range n
  allocated : s.allocated = n
  prio : ∀ p < n, (s.pool p).prio = p
  current : ∀ c, s.currentpool = some c → c < n

section
variable {s s' : PoolTable} {n a b : ℕ}

theorem Added.totalPools (H : s.Added n) : s.totalPools = n := by
  rw [PoolTable.totalPools, H.pools, List.length_range]

theorem added_init (strategy : PoolStrategy) (optFailOnly : Bool) :
    (init strategy optFailOnly).Added 0 :=
  ⟨rfl, rfl, nofun, nofun⟩

/-- The new pool has the last of the priorities. -/
theorem Added.prio_appendPool (H : s.Added n) {p : ℕ} (hp : p ≤ n) :
    (s.appendPool.pool p).prio = p := by
  rcases Nat.lt_or_eq_of_le hp with hlt | rfl
  · have hne : p ≠ s.allocated := by
      rw [H.allocated]
      omega
    rw [pool_appendPool_of_ne hne]
    exact H.prio p hlt
  · have hself := pool_appendPool_self s
    rw [H.allocated, H.totalPools] at hself
    rw [hself]

/-- A new pool comes behind the current one, so that none is switched to. -/
theorem Added.addPool2 (H : s.Added n) :
    ∃ s', s.addPool2 false = some s' ∧ s'.Added (n + 1) := by
  have hcur : s.currentpool.getD s.allocated ≤ n := by
    rw [H.allocated]
    cases hc : s.currentpool with
    | none => exact le_refl n
    | some c => exact (H.current c hc).le
  let t : PoolTable := { s.appendPool with currentpool := some (s.currentpool.getD s.allocated) }
  have hprio : ∀ p ≤ n, ((t.setEnabled s.allocated .enabled 1).pool p).prio = p := by
    intro p hp
    rw [map_pool_setEnabled PoolState.prio (fun _ => rfl)]
    exact H.prio_appendPool hp
  refine ⟨t.setEnabled s.allocated .enabled 1, ?_, ?_, ?_, ?_, ?_⟩
  · have hnew : (t.pool s.allocated).enabled ≠ .enabled := by
      change (s.appendPool.pool s.allocated).enabled ≠ .enabled
      rw [pool_appendPool_self]
      exact nofun
    have hnotBefore : ¬ ((t.setEnabled s.allocated .enabled 1).pool s.allocated).prio <
        ((t.setEnabled s.allocated .enabled 1).pool (s.currentpool.getD s.allocated)).prio := by
      rw [hprio _ hcur, hprio _ H.allocated.le]
      have hlast := H.allocated
      omega
    change t.enablePool s.allocated = _
    rw [enablePool, if_neg hnew]
    exact if_neg hnotBefore
  · change s.pools ++ [s.allocated] = _
    rw [H.pools, H.allocated, List.range_succ]
  · change s.allocated + 1 = n + 1
    rw [H.allocated]
  · exact fun p hp => hprio p (Nat.lt_succ_iff.mp hp)
  · intro c hc
    obtain rfl := Option.some.inj hc
    exact Nat.lt_succ_of_le hcur

theorem Added.addPools (H : s.Added n) (k : ℕ) :
    ∃ s', PoolTable.addPools k s = some s' ∧ s'.Added (n + k) := by
  induction k generalizing s n with
  | zero => exact ⟨s, rfl, H⟩
  | succ k ih =>
      obtain ⟨t, ht, hadded⟩ := H.addPool2
      obtain ⟨s', hs', hall⟩ := ih hadded
      refine ⟨s', ?_, by rwa [Nat.add_right_comm, Nat.add_assoc] at hall⟩
      rw [PoolTable.addPools, ht]
      exact hs'

theorem take_range_add (a b : ℕ) : (List.range (a + b)).take a = List.range a := by
  rw [List.take_range, Nat.min_eq_left (Nat.le_add_right a b)]

theorem drop_range_add (a b : ℕ) :
    (List.range (a + b)).drop a = (List.range b).map (a + ·) := by
  rw [List.range_add, List.drop_left' List.length_range]

theorem mem_drop_range_add {p : ℕ} :
    p ∈ (List.range (a + b)).drop a ↔ a ≤ p ∧ p < a + b := by
  rw [drop_range_add, List.mem_map]
  refine ⟨?_, fun H => ⟨p - a, List.mem_range.mpr (by omega), by omega⟩⟩
  rintro ⟨i, hi, rfl⟩
  have hlt := List.mem_range.mp hi
  omega

theorem pairwise_range {n : ℕ} {R : ℕ → ℕ → Prop} :
    (List.range n).Pairwise R ↔ ∀ p q, p < q → q < n → R p q := by
  simp only [List.pairwise_iff_getElem, List.length_range, List.getElem_range]
  exact ⟨fun H p q hpq hq => H p q (by omega) hq hpq, fun H p q _ hq hpq => H p q hpq hq⟩

/-- The priorities after the two loops: those of the first `a` pools are moved up, and those of
the others down. -/
theorem Added.rearrangePools (H : s.Added (a + b)) (ha : 1 ≤ a) (hb : 1 ≤ b) :
    (s.rearrangePools a).pools = List.range (a + b) ∧ ∀ p < a + b,
      ((s.rearrangePools a).pool p).prio = if p < a then (p : ℤ) + a else p - a := by
  have hboth : a ≠ 0 ∧ a < s.totalPools := by
    rw [H.totalPools]
    omega
  have hbefore : ∀ p, p ∈ s.pools.take a ↔ p < a := by
    intro p
    rw [H.pools, take_range_add, List.mem_range]
  have hbehind : ∀ p, p ∈ s.pools.drop a ↔ a ≤ p ∧ p < a + b := by
    intro p
    rw [H.pools, mem_drop_range_add]
  have hnodup : s.pools.Nodup := H.pools ▸ List.nodup_range
  rw [PoolTable.rearrangePools, if_pos hboth]
  refine ⟨H.pools, fun p hp => ?_⟩
  dsimp only
  by_cases hpa : p < a
  · have hnot : p ∉ s.pools.drop a := by
      rw [hbehind]
      omega
    rw [updateAll_of_notMem hnot,
      updateAll_of_mem (hnodup.sublist (List.take_sublist a _)) ((hbefore p).mpr hpa),
      if_pos hpa, H.prio p hp]
  · have hnot : p ∉ s.pools.take a := by
      rw [hbefore]
      exact hpa
    rw [updateAll_of_mem (hnodup.sublist (List.drop_sublist a _))
        ((hbehind p).mpr ⟨by omega, hp⟩),
      updateAll_of_notMem hnot, if_neg hpa, H.prio p hp]

/-- Pool by pool. -/
theorem commandLineFirst_iff_of_pools (hpools : s.pools = List.range (a + b)) :
    s.CommandLineFirst a ↔
      (∀ p q, q < a → a ≤ p → p < a + b → (s.pool p).prio < (s.pool q).prio) ∧
      (∀ p q, p < q → q < a → (s.pool p).prio < (s.pool q).prio) ∧
      ∀ p q, a ≤ p → p < q → q < a + b → (s.pool p).prio < (s.pool q).prio := by
  have hfirst : (∀ p ∈ s.pools.drop a, ∀ q ∈ s.pools.take a, (s.pool p).prio < (s.pool q).prio) ↔
      ∀ p q, q < a → a ≤ p → p < a + b → (s.pool p).prio < (s.pool q).prio := by
    simp only [hpools, mem_drop_range_add, take_range_add, List.mem_range]
    exact ⟨fun H p q hq hap hpb => H p ⟨hap, hpb⟩ q hq, fun H p hp q hq => H p q hq hp.1 hp.2⟩
  have hinOrder : (s.prios (s.pools.take a)).Pairwise (· < ·) ↔
      ∀ p q, p < q → q < a → (s.pool p).prio < (s.pool q).prio := by
    rw [hpools, take_range_add, prios, List.pairwise_map, pairwise_range]
  have hinOrder' : (s.prios (s.pools.drop a)).Pairwise (· < ·) ↔
      ∀ p q, a ≤ p → p < q → q < a + b → (s.pool p).prio < (s.pool q).prio := by
    rw [hpools, drop_range_add, prios, List.pairwise_map, List.pairwise_map, pairwise_range]
    refine ⟨fun H p q hap hpq hqb => ?_, fun H p q hpq hq => H _ _ (by omega) (by omega) (by omega)⟩
    have hlt := H (p - a) (q - a) (by omega) (by omega)
    rwa [Nat.add_sub_cancel' hap, Nat.add_sub_cancel' (hap.trans hpq.le)] at hlt
  rw [← hfirst, ← hinOrder, ← hinOrder']
  exact ⟨fun H => ⟨H.first, H.inOrder, H.inOrder'⟩, fun H => ⟨H.1, H.2.1, H.2.2⟩⟩

/-- The moved priorities are made a ranking in which a pool keeps its priority if that is in
range and none of the earlier pools has it. -/
structure Checked (s : PoolTable) (a b : ℕ) : Prop where
  pools : s.pools = List.range (a + b)
  ranking : IsRanking (List.range (a + b)) fun p => (s.pool p).prio
  kept : ∀ p < a + b, ∀ k : ℤ, (k = if p < a then (p : ℤ) + a else p - a) → k < (a + b : ℕ) →
    (∀ q < p, k ≠ if q < a then (q : ℤ) + a else q - a) → (s.pool p).prio = k

theorem Added.validatePoolPriorities (H : s.Added (a + b)) (ha : 1 ≤ a) (hb : 1 ≤ b) :
    (s.rearrangePools a).validatePoolPriorities.Checked a b := by
  obtain ⟨hpools, hprio⟩ := H.rearrangePools ha hb
  have hnodup : (s.rearrangePools a).pools.Nodup := hpools ▸ List.nodup_range
  obtain ⟨hsame, hranking, hkept⟩ := validatePoolPriorities_spec hnodup
  rw [hpools] at hranking
  refine ⟨hsame.pools.trans hpools, hranking, fun p hp k hk hlt hfirst => ?_⟩
  obtain ⟨n, hn⟩ : ∃ n, a + b = p + (n + 1) := ⟨a + b - p - 1, by omega⟩
  have hsplit : (s.rearrangePools a).pools =
      List.range p ++ p :: ((List.range n).map Nat.succ).map (p + ·) := by
    rw [hpools, hn, List.range_add, List.range_succ_eq_map, List.map_cons, Nat.add_zero]
  rw [← hprio p hp] at hk
  rw [hk] at hlt hfirst ⊢
  refine hkept _ p _ hsplit ?_ ?_ ?_
  · rw [hprio p hp]
    split <;> omega
  · rw [PoolTable.totalPools, hpools, List.length_range]
    exact hlt
  · intro hin
    obtain ⟨q, hq, heq⟩ := List.mem_map.mp hin
    have hqp := List.mem_range.mp hq
    refine hfirst q hqp ?_
    rw [← heq, hprio q (by omega)]

/-! ## When the command line comes first -/

/-- With more pools on the command line, the first `a` of them have the priorities below `a`, and
the next one is behind the first pool of the configuration. -/
theorem Checked.not_first (H : s.Checked a b) (ha : 1 ≤ a) (hab : a < b) :
    ¬ (s.pool (a + a)).prio < (s.pool 0).prio := by
  intro hbefore
  have hzero : (s.pool 0).prio = a :=
    H.kept 0 (by omega) a (by rw [if_pos (by omega)]; omega) (by omega) (by omega)
  have htaken : ∀ i < a, (s.pool (a + i)).prio = i := by
    intro i hi
    refine H.kept (a + i) (by omega) i (by rw [if_neg (by omega)]; omega) (by omega) ?_
    intro q hq
    split <;> omega
  have hmem : a + a ∈ List.range (a + b) := List.mem_range.mpr (by omega)
  obtain ⟨i, hi⟩ := Int.eq_ofNat_of_zero_le (H.ranking.nonneg (a + a) hmem)
  have hia : i < a := by omega
  have hsame := H.ranking.inj (a + a) hmem (a + i) (List.mem_range.mpr (by omega))
    (hi.trans (htaken i hia).symm)
  omega

/-- With fewer pools on the command line, the first `b` of the configuration have the priorities
from `a` on, and the next one is before them. -/
theorem Checked.not_inOrder (H : s.Checked a b) (hb : 1 ≤ b) (hab : b < a) :
    ¬ (s.pool 0).prio < (s.pool b).prio := by
  intro hbehind
  have htaken : ∀ i < b, (s.pool i).prio = i + a := by
    intro i hi
    refine H.kept i (by omega) (i + a) (by rw [if_pos (by omega)]) (by omega) ?_
    intro q hq
    rw [if_pos (by omega)]
    omega
  have hzero := htaken 0 hb
  have hmem : b ∈ List.range (a + b) := List.mem_range.mpr (by omega)
  have hlast := H.ranking.lt_length b hmem
  rw [List.length_range] at hlast
  obtain ⟨i, hi⟩ : ∃ i : ℕ, (s.pool b).prio = i + a := ⟨((s.pool b).prio - a).toNat, by omega⟩
  have hib : i < b := by omega
  have hsame := H.ranking.inj b hmem i (List.mem_range.mpr (by omega))
    (hi.trans (htaken i hib).symm)
  omega

/-- With as many of the one kind as of the other, the moved priorities are a ranking already. -/
theorem Checked.commandLineFirst (H : s.Checked a a) : s.CommandLineFirst a := by
  have hall : ∀ p < a + a, (s.pool p).prio = if p < a then (p : ℤ) + a else p - a := by
    intro p hp
    refine H.kept p hp _ rfl (by split <;> omega) fun q hq => ?_
    split <;> split <;> omega
  rw [commandLineFirst_iff_of_pools H.pools]
  refine ⟨fun p q hq hap hpb => ?_, fun p q hpq hq => ?_, fun p q hap hpq hq => ?_⟩
  · rw [hall p hpb, hall q (by omega), if_neg (by omega), if_pos hq]
    omega
  · rw [hall p (by omega), hall q (by omega), if_pos (by omega), if_pos hq]
    omega
  · rw [hall p (by omega), hall q hq, if_neg (by omega), if_neg (by omega)]
    omega

theorem Checked.first_iff (H : s.Checked a b) (ha : 1 ≤ a) (hb : 1 ≤ b) :
    s.CommandLineFirst a ↔ a = b := by
  constructor
  · intro hfirst
    rw [commandLineFirst_iff_of_pools H.pools] at hfirst
    obtain ⟨hfirst, hinOrder, -⟩ := hfirst
    by_contra hne
    rcases Nat.lt_or_gt_of_ne hne with hlt | hgt
    · exact H.not_first ha hlt (hfirst (a + a) 0 ha (Nat.le_add_left a a) (by omega))
    · exact H.not_inOrder hb hgt (hinOrder 0 b hb hgt)
  · rintro rfl
    exact H.commandLineFirst

end

/-- The command line comes first, in order, if there are as many pools on it as in the
configuration, and otherwise one of the pools is out of its place. -/
theorem commandLineFirst_iff (strategy : PoolStrategy) (optFailOnly : Bool) (a b : ℕ)
    (ha : 1 ≤ a) (hb : 1 ≤ b) :
    (∃ s, startPools strategy optFailOnly a b = some s ∧ s.CommandLineFirst a) ↔ a = b := by
  obtain ⟨s, hs, hsadded⟩ := (added_init strategy optFailOnly).addPools a
  rw [Nat.zero_add] at hsadded
  obtain ⟨t, ht, htadded⟩ := hsadded.addPools b
  have hstart : startPools strategy optFailOnly a b =
      some (t.rearrangePools a).validatePoolPriorities := by
    rw [startPools, hs, Option.bind_some, ht, Option.map_some, hsadded.totalPools]
  rw [← (htadded.validatePoolPriorities ha hb).first_iff ha hb, hstart]
  exact ⟨fun ⟨u, heq, H⟩ => Option.some.inj heq ▸ H, fun H => ⟨_, rfl, H⟩⟩

/-- Two pools of the configuration and two of the command line. -/
theorem commandLineFirst_two :
    ∃ s, startPools .failover false 2 2 = some s ∧ s.CommandLineFirst 2 :=
  (commandLineFirst_iff .failover false 2 2 (by decide) (by decide)).mpr rfl

/-- With one pool in the configuration and two on the command line, the second of these comes
last. -/
theorem not_commandLineFirst_oneTwo :
    ¬ ∀ (strategy : PoolStrategy) (optFailOnly : Bool) (a b : ℕ), 1 ≤ a → 1 ≤ b →
      ∃ s, startPools strategy optFailOnly a b = some s ∧ s.CommandLineFirst a := by
  intro H
  obtain ⟨s, hs, hfirst⟩ := H .failover false 1 2 (by decide) (by decide)
  obtain rfl := Option.some.inj hs
  exact absurd (hfirst.first 2 (by decide) 0 (by decide)) (by decide)

end PoolTable

end MassGridMiner

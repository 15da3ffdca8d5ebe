import MassGridMiner.Lib.Run
import MassGridMiner.Pools.SelectPool

/-!
# The scheduler of work

Once everything is set up, `main` makes work without end: ordinary work, or spare work for one
algorithm.  It calls `select_pool` at four places, and by the label `retry` uses the pool that was
returned.  If spare work is begun, it is checked whether there is one.  It is not checked where
the pool has lost its job or has failed since, and another is asked for.

## Main definitions

* `Scheduler` — the pools, and the place in the loop.
* `step` — a step of the loop, or of the other threads.
* `Sound` — the pool is not NULL where it is used.
* `PoolFor` — when `select_pool` finds a pool for the algorithm.
-/

namespace MassGridMiner

namespace LoadTable

/-- `pool->stratum_active`. -/
def setStratumActive (s : LoadTable) (p : ℕ) (active : Bool) : LoadTable :=
  { s with
    stake := Function.update s.stake p { s.stake p with stratumActive := active }
    nodup := s.nodup_pools }

/-- A pool is listed that uses the algorithm, and was used fewer times its quota than
`select_loadbalance` can count. -/
def Counted (s : LoadTable) (m : ℕ) : Prop :=
  ∃ p ∈ s.pools, (s.stake p).malgo = m ∧ 0 ≤ s.quotaGcd p ∧
    (s.startRound.quotaUsed p).tdiv (s.quotaGcd p) < intMax

/-- The current pool uses the algorithm; or by priority a usable pool does; or by quota one is
listed; or without quota one is left from the try before. -/
def PoolFor (s : LoadTable) (lagging : Bool) (m : ℕ) (pool : Option ℕ) : Prop :=
  (∃ cp, s.currentpool = some cp ∧ (s.stake cp).malgo = m) ∨
  (∃ i < s.totalPools, ∃ p, s.priorityPool i = some p ∧ (s.stake p).malgo = m ∧
    s.poolUnusable p = false) ∨
  s.strategy ≠ .balance ∧
    if s.strategy ≠ .loadbalance ∧ (lagging = false ∨ s.optFailOnly = true) then
      pool.isSome = true
    else s.Counted m

/-! ## No pool is found -/

section
variable {s t : LoadTable} {malgo pool : Option ℕ} {m cp : ℕ}

/-- Only where another algorithm is asked for, none is left and none is usable, is there no
pool. -/
theorem simpleFailover_eq_none (H : s.simpleFailover cp malgo pool = none) :
    pool = none ∧ s.selectFailover malgo = none ∧ s.otherMalgo malgo cp = true := by
  cases pool with
  | some p => cases H
  | none =>
      rw [simpleFailover] at H
      cases hfailover : s.selectFailover malgo with
      | some p =>
          rw [hfailover] at H
          cases H
      | none =>
          rw [hfailover] at H
          by_cases hother : s.otherMalgo malgo cp = true
          · exact ⟨rfl, rfl, hother⟩
          · rw [if_neg hother] at H
            cases H

/-- A pool that is passed is not used more than its quota, if it had some left. -/
theorem quotaUsed_pass_self_le (u : LoadTable) {p : ℕ} (hleft : u.quotaLeft p = true) :
    (u.addUsed p 1).giveBack.quotaUsed p ≤ u.quotaGcd p := by
  rw [quotaLeft, decide_eq_true_eq] at hleft
  rw [quotaUsed_giveBack, quotaUsed_addUsed, if_pos rfl]
  split <;> omega

/-- Where none is found, all pools of the algorithm were used too many times their quota. -/
theorem intMax_le_of_search {u : LoadTable} {l rest : List ℕ} (hrot : u.rotation = l ++ rest)
    (H : search (some m) l.length u none intMax = some (none, t)) {p : ℕ} (hp : p ∈ l)
    (hmalgo : (u.stake p).malgo = m) (hgcd : 0 ≤ u.quotaGcd p) :
    intMax ≤ (u.quotaUsed p).tdiv (u.quotaGcd p) := by
  induction l generalizing u rest with
  | nil => cases hp
  | cons q l ih =>
      obtain ⟨rest', hcons, hnext⟩ := exists_rotation u
      rw [List.cons_append] at hrot
      obtain ⟨hq, hrest⟩ := List.cons.inj (hcons.symm.trans hrot)
      rw [hrest, hq, List.append_assoc] at hnext
      rw [List.length_cons, search, hq] at H
      dsimp only at H
      by_cases hother : u.otherMalgo (some m) q = true
      · rw [if_pos hother] at H
        have hne : p ≠ q := by
          rintro rfl
          simp [QuotaTable.otherMalgo, hmalgo] at hother
        exact ih (u := u.rotate) hnext H ((List.mem_cons.mp hp).resolve_left hne) hmalgo hgcd
      rw [if_neg hother] at H
      by_cases htaken : (u.quotaLeft q && !u.poolUnworkable q) = true
      · rw [if_pos htaken] at H
        cases H
      rw [if_neg htaken, Option.isSome_some, if_pos rfl] at H
      have hpass := fun hne : p ≠ q => quotaUsed_pass_le u hne
      have hself := fun hleft => quotaUsed_pass_self_le u (p := q) hleft
      obtain ⟨used, hused⟩ := exists_withUsed_giveBack u q
      rw [hused] at H hpass
      rw [quotaUsed_withUsed] at hpass
      by_cases hzero : (u.withUsed used).quotaGcd q = 0
      · rw [if_pos hzero] at H
        cases H
      rw [if_neg hzero] at H
      split at H
      next => cases (search_spec H).2 rfl
      next hcount =>
        have hcount : intMax ≤ (used q).tdiv (u.quotaGcd q) := not_lt.mp hcount
        by_cases hne : p = q
        · subst hne
          have hpos : 0 < u.quotaGcd p := lt_of_le_of_ne hgcd (Ne.symm hzero)
          by_cases hleft : u.quotaLeft p = true
          · -- it would have been used once at most
            rw [if_pos hleft] at hused
            have hle := hself hleft
            rw [hused, quotaUsed_withUsed] at hle
            have hone := Int.tdiv_le_tdiv hpos hle
            rw [Int.tdiv_self hpos.ne'] at hone
            exact absurd (hcount.trans hone) (by decide)
          · rw [if_neg hleft] at hused
            have hsame : u.quotaUsed = used := by
              rw [hused]
              rfl
            rw [hsame]
            exact hcount
        · have hmem := (List.mem_cons.mp hp).resolve_left hne
          have hle := hpass hne
          have hrec := ih (u := (u.withUsed used).rotate) hnext H hmem hmalgo hgcd
          rw [quotaUsed_rotate, quotaUsed_withUsed, quotaGcd_rotate, quotaGcd_withUsed] at hrec
          rcases hgcd.lt_or_eq with hpos | heq
          · exact hrec.trans (Int.tdiv_le_tdiv hpos hle)
          · rw [← heq, Int.tdiv_zero] at hrec ⊢
            exact hrec

/-- What it comes from that NULL is returned. -/
theorem pick_none {lagging : Bool} (H : s.pick lagging malgo pool cp = some (none, t)) :
    s.otherMalgo malgo cp = true ∧ s.selectFailover malgo = none ∧
      (s.strategy ≠ .balance →
        if s.strategy ≠ .loadbalance ∧ (lagging = false ∨ s.optFailOnly = true) then pool = none
        else ∃ u, search malgo s.totalPools s.startRound none intMax = some (none, u)) := by
  rw [pick] at H
  by_cases hbalance : s.strategy = .balance
  · rw [if_pos hbalance] at H
    dsimp only at H
    split at H
    next => cases H
    next =>
      rw [Option.some.injEq, Prod.mk.injEq] at H
      obtain ⟨-, hfailover, hother⟩ := simpleFailover_eq_none H.1
      have halike := Alike.countBalanced s cp malgo
      exact ⟨(halike.otherMalgo malgo cp).symm.trans hother,
        (halike.selectFailover malgo).symm.trans hfailover, fun h => absurd hbalance h⟩
  rw [if_neg hbalance] at H
  by_cases hstay : s.strategy ≠ .loadbalance ∧ (lagging = false ∨ s.optFailOnly = true)
  · rw [if_pos hstay] at H ⊢
    by_cases hother : s.otherMalgo malgo cp = true
    · rw [if_pos hother, Option.some.injEq, Prod.mk.injEq] at H
      obtain ⟨hpool, hfailover, -⟩ := simpleFailover_eq_none H.1
      exact ⟨hother, hfailover, fun _ => hpool⟩
    · rw [if_neg hother] at H
      cases H
  · rw [if_neg hstay] at H ⊢
    obtain ⟨r, hselect, hr⟩ := Option.map_eq_some_iff.mp H
    obtain ⟨r', hsearch, rfl⟩ := Option.map_eq_some_iff.mp hselect
    obtain ⟨hnone, hfailover, hother⟩ := simpleFailover_eq_none (Prod.mk.inj hr).1
    have halike : Alike s (if malgo.isSome then r'.2.restoreRotating s.startRound.rotatingPool
        else r'.2) := by
      have hround := (Alike.startRound s).trans (search_spec hsearch).1
      split
      next => exact hround.trans (.restoreRotating _ _)
      next => exact hround
    dsimp only at hnone
    refine ⟨(halike.otherMalgo malgo cp).symm.trans hother,
      (halike.selectFailover malgo).symm.trans hfailover, fun _ => ⟨r'.2, ?_⟩⟩
    rw [hsearch, ← hnone]

/-- A try that fails has not picked a pool. -/
theorem exists_pick_of_failed {lagging : Bool}
    (H : s.selectPass lagging malgo pool = some (.failed, t)) :
    ∃ cp u, s.currentpool = some cp ∧ s.pick lagging malgo pool cp = some (none, u) := by
  obtain ⟨cp, hcur, hpass⟩ := Option.bind_eq_some_iff.mp H
  obtain ⟨⟨r, u⟩, hpick, hr⟩ := Option.map_eq_some_iff.mp hpass
  cases r with
  | none => exact ⟨cp, u, hcur, hpick⟩
  | some p =>
      have hfailed := (Prod.mk.inj hr).1
      dsimp only [Option.elim_some] at hfailed
      split at hfailed
      next => cases hfailed
      next => cases hfailed

/-- NULL is returned only where there is no pool for the algorithm. -/
theorem PoolFor.ne_failed {lagging : Bool} (H : s.PoolFor lagging m pool) :
    s.selectPass lagging (some m) pool ≠ some (.failed, t) := by
  intro hpass
  obtain ⟨cp, u, hcur, hpick⟩ := exists_pick_of_failed hpass
  obtain ⟨hother, hfailover, hbranch⟩ := pick_none hpick
  rcases H with ⟨cp', hcur', hmalgo⟩ | ⟨i, hi, p, hp, hmalgo, husable⟩ | ⟨hbalance, hleft⟩
  · obtain rfl := Option.some.inj (hcur.symm.trans hcur')
    simp [QuotaTable.otherMalgo, hmalgo] at hother
  · -- it would have been found by priority
    rw [selectFailover, List.findSome?_eq_none_iff] at hfailover
    have hno := hfailover i (List.mem_range.mpr hi)
    simp [hp, QuotaTable.otherMalgo, hmalgo, husable] at hno
  · have hnone := hbranch hbalance
    by_cases hstay : s.strategy ≠ .loadbalance ∧ (lagging = false ∨ s.optFailOnly = true)
    · rw [if_pos hstay] at hleft hnone
      rw [hnone] at hleft
      cases hleft
    · rw [if_neg hstay] at hleft hnone
      obtain ⟨u, hsearch⟩ := hnone
      obtain ⟨p, hp, hmalgo, hgcd, hlt⟩ := hleft
      have hround := Alike.startRound s
      have hpools : s.startRound.pools = s.pools := by rw [hround.table]
      have hgcd' : s.startRound.quotaGcd p = s.quotaGcd p := hround.quotaGcd p
      rw [← length_rotation_startRound] at hsearch
      have hle := intMax_le_of_search (List.append_nil _).symm hsearch
        (mem_rotation.mpr (hpools ▸ hp)) ((hround.malgo p).trans hmalgo) (hgcd' ▸ hgcd)
      rw [hgcd'] at hle
      exact absurd hlt (not_lt.mpr hle)

/-- Where all pools of the algorithm were used too many times their quota, none is found. -/
theorem exists_search_of_intMax_le (turns : ℕ) {u : LoadTable}
    (H : ∀ p ∈ u.pools, (u.stake p).malgo = m →
      0 ≤ u.quotaGcd p ∧ intMax ≤ (u.quotaUsed p).tdiv (u.quotaGcd p)) :
    ∃ t, search (some m) turns u none intMax = some (none, t) := by
  induction turns generalizing u with
  | zero => exact ⟨u, rfl⟩
  | succ turns ih =>
      have hnext := ih (u := u.rotate) H
      rw [search]
      dsimp only
      by_cases hother : u.otherMalgo (some m) u.rotating = true
      · rw [if_pos hother]
        exact hnext
      rw [Bool.not_eq_true] at hother
      obtain ⟨hgcd, hle⟩ := H u.rotating (rotating_mem u)
        (QuotaTable.otherMalgo_eq_false_iff.mp hother m rfl)
      have hpos : 0 < u.quotaGcd u.rotating := by
        refine lt_of_le_of_ne hgcd fun hzero => ?_
        rw [← hzero, Int.tdiv_zero] at hle
        exact absurd hle (by decide)
      have hleft : u.quotaLeft u.rotating = false := by
        rw [quotaLeft, decide_eq_false_iff_not]
        intro hlt
        have hone := Int.tdiv_le_tdiv hpos hlt.le
        rw [Int.tdiv_self hpos.ne'] at hone
        exact absurd (hle.trans hone) (by decide)
      rw [hother, hleft, if_neg Bool.false_ne_true, Bool.false_and, if_neg Bool.false_ne_true,
        if_neg Bool.false_ne_true, Option.isSome_some, if_pos rfl, if_neg hpos.ne',
        if_neg (not_lt.mpr hle)]
      exact hnext

/-- Where the current pool is of another algorithm, `select_balanced` returns one that works. -/
theorem serves_of_balancedPool (hother : s.otherMalgo malgo cp = true) {p : ℕ}
    (hp : s.balancedPool cp malgo = some p) : s.Serves malgo p := by
  have H := QuotaTable.found_pools s.toQuotaTable cp malgo
  rw [QuotaTable.balancedPool] at hp
  generalize s.pools.foldl (s.toQuotaTable.searchBalanced malgo) ⟨(s.stake cp).shares, cp, none⟩ =
    found at H hp
  rcases H.ret with hsame | hcand
  · rw [hsame, if_pos hother] at hp
    exact (H.failover p hp).toServes
  · have hserves := hcand.1.toServes
    rw [if_neg (by simp [QuotaTable.otherMalgo_eq_false_iff.mpr hserves.malgo]),
      if_neg (by simp [hserves.workable])] at hp
    exact Option.some.inj hp ▸ hserves

/-- NULL is returned wherever there is no pool for the algorithm. -/
theorem exists_failed_of_not_poolFor {lagging : Bool} (hready : s.Ready)
    (hgcd : ∀ p ∈ s.pools, 0 ≤ s.quotaGcd p) (H : ¬ s.PoolFor lagging m pool) :
    ∃ t, s.selectPass lagging (some m) pool = some (.failed, t) := by
  rw [PoolFor, not_or, not_or] at H
  obtain ⟨hcurrent, husable, hbranch⟩ := H
  obtain ⟨cp, hcp, hcur⟩ := hready.current
  have hother : s.otherMalgo (some m) cp = true := by
    simp only [QuotaTable.otherMalgo, Option.any_some, bne_iff_ne]
    exact fun hmalgo => hcurrent ⟨cp, hcur, hmalgo⟩
  have hunusable : ∀ p ∈ s.pools, (s.stake p).malgo = m → s.poolUnusable p = true := by
    intro p hp hmalgo
    obtain ⟨hprio, hlt⟩ := hready.priorityPool hp
    by_contra hno
    exact husable ⟨_, hlt, p, hprio, hmalgo, (Bool.not_eq_true _).mp hno⟩
  have hfailover : s.selectFailover (some m) = none := by
    cases hfound : s.selectFailover (some m) with
    | none => rfl
    | some p =>
        obtain ⟨hp, hpother, hpusable⟩ := of_selectFailover hfound
        have hno := hunusable p hp (QuotaTable.otherMalgo_eq_false_iff.mp hpother m rfl)
        rw [hpusable] at hno
        cases hno
  have hsimple : ∀ {t : LoadTable}, Alike s t → t.simpleFailover cp (some m) none = none := by
    intro t halike
    rw [simpleFailover, halike.selectFailover, hfailover, halike.otherMalgo, hother]
    rfl
  suffices hpick : ∃ t, s.pick lagging (some m) pool cp = some (none, t) by
    obtain ⟨t, hpick⟩ := hpick
    exact ⟨t, by rw [selectPass, hcur, Option.bind_some, hpick]; rfl⟩
  rw [pick]
  by_cases hbalance : s.strategy = .balance
  · have hnone : s.balancedPool cp (some m) = none := by
      cases hpool : s.balancedPool cp (some m) with
      | none => rfl
      | some p =>
          have hserves := serves_of_balancedPool hother hpool
          have hno := hunusable p hserves.mem (hserves.malgo m rfl)
          rw [poolUnusable_of_workable hserves.workable] at hno
          cases hno
    rw [if_pos hbalance, hnone]
    dsimp only
    rw [Option.filter_none]
    dsimp only
    rw [hsimple (.countBalanced s cp _)]
    exact ⟨_, rfl⟩
  rw [if_neg hbalance]
  by_cases hstay : s.strategy ≠ .loadbalance ∧ (lagging = false ∨ s.optFailOnly = true)
  · have hpool : pool = none := by
      by_contra hsome
      refine hbranch ⟨hbalance, ?_⟩
      rw [if_pos hstay]
      exact Option.isSome_iff_ne_none.mpr hsome
    rw [if_pos hstay, if_pos hother, hpool, hsimple (.refl s)]
    exact ⟨_, rfl⟩
  · have hround := Alike.startRound s
    have hpools : s.startRound.pools = s.pools := by rw [hround.table]
    have hmany : ∀ p ∈ s.startRound.pools, (s.startRound.stake p).malgo = m →
        0 ≤ s.startRound.quotaGcd p ∧
          intMax ≤ (s.startRound.quotaUsed p).tdiv (s.startRound.quotaGcd p) := by
      intro p hp hmalgo
      rw [hpools] at hp
      rw [hround.malgo] at hmalgo
      rw [show s.startRound.quotaGcd p = s.quotaGcd p from hround.quotaGcd p]
      refine ⟨hgcd p hp, ?_⟩
      by_contra hlt
      refine hbranch ⟨hbalance, ?_⟩
      rw [if_neg hstay]
      exact ⟨p, hp, hmalgo, hgcd p hp, not_le.mp hlt⟩
    obtain ⟨t, hsearch⟩ := exists_search_of_intMax_le s.totalPools hmany
    have halike := (hround.trans (search_spec hsearch).1).trans
      (.restoreRotating t s.startRound.rotatingPool)
    rw [if_neg hstay, selectLoadbalance, hsearch, Option.map_some, Option.map_some,
      Option.isSome_some, if_pos rfl]
    dsimp only
    rw [hsimple halike]
    exact ⟨_, rfl⟩

end

end LoadTable

namespace Scheduler

/-! ## The loop -/

/-- The calls of `select_pool`: at first, for another pool than one without a job, and for the
next one when a request has failed. -/
inductive Call
  | first
  | alternative
  | next
  deriving DecidableEq

/-- Where the loop is, with `malgo` and `pool`.  In `select_pool` that is the pool of the try
before. -/
inductive Place
  | top
  | select (call : Call) (lagging : Bool) (malgo pool : Option ℕ)
  | probing (call : Call) (lagging : Bool) (malgo : Option ℕ) (pool : ℕ)
  | retry (malgo pool : Option ℕ)
  | request (malgo : Option ℕ) (pool : ℕ)
  deriving DecidableEq

end Scheduler

/-- The pools, and the place in the loop of `main`. -/
structure Scheduler where
  table : LoadTable
  stratumNotify : ℕ → Bool
  place : Scheduler.Place

namespace Scheduler

/-- The steps of the loop, and of the other threads. -/
inductive Event
  | ordinary (localgen : Bool) (staged : ℕ)
  | spare (malgo : ℕ)
  | trySelect
  | probed (active : Bool)
  | look
  | generated
  | obtained
  | failed
  | died (pool : ℕ)
  | resumed (pool : ℕ)
  | stratum (pool : ℕ) (active notify : Bool)
  | changed (table : LoadTable)

/-- Where a pool is returned to, or NULL. -/
def returned (call : Call) (malgo pool : Option ℕ) : Place :=
  match call, malgo, pool with
  | .first, some _, none => .top
  | _, _, _ => .retry malgo pool

/-- Where a try of `select_pool` leads to. -/
def afterTry (call : Call) (lagging : Bool) (malgo : Option ℕ) : LoadTable.Selection → Place
  | .failed => returned call malgo none
  | .inUse p => returned call malgo (some p)
  | .probe p => .probing call lagging malgo p

/-- What the loop does with a pool, behind the label `retry`. -/
def use (s : Scheduler) (malgo : Option ℕ) (p : ℕ) : Place :=
  if (s.table.pool p).hasStratum then
    if !(s.table.stake p).stratumActive || !s.stratumNotify p then
      .select .alternative true malgo none
    else .top
  else .request malgo p

/-- One step.  Nothing is defined behind the label `retry` without a pool. -/
def step (s : Scheduler) : Event → Option Scheduler
  | .ordinary localgen staged =>
    match s.place with
    | .top =>
      let lagging := !localgen && staged == 0 && !s.table.optFailOnly
      some { s with place := .select .first lagging none none }
    | _ => none
  | .spare m =>
    match s.place with
    -- more is staged than is asked for, so that the pool is not lagging
    | .top => some { s with place := .select .first false (some m) none }
    | _ => none
  | .trySelect =>
    match s.place with
    | .select call lagging malgo pool =>
      (s.table.selectPass lagging malgo pool).map fun r =>
        { s with table := r.2, place := afterTry call lagging malgo r.1 }
    | _ => none
  | .probed active =>
    match s.place with
    | .probing call lagging malgo p =>
      if active then
        some { s with table := s.table.setIdle p false, place := returned call malgo (some p) }
      else
        (s.table.poolDied p).map fun t =>
          { s with table := t, place := .select call lagging malgo (some p) }
    | _ => none
  | .look =>
    match s.place with
    | .retry malgo (some p) => some { s with place := s.use malgo p }
    | _ => none
  | .generated =>
    -- rolled or cloned, or made for a benchmark
    match s.place with
    | .request _ _ => some { s with place := .top }
    | _ => none
  | .obtained =>
    match s.place with
    | .request _ p => some { s with table := s.table.setIdle p false, place := .top }
    | _ => none
  | .failed =>
    match s.place with
    | .request malgo p =>
      (s.table.poolDied p).map fun t =>
        { s with table := t, place := .select .next (!t.optFailOnly) malgo none }
    | _ => none
  | .died p => (s.table.poolDied p).map fun t => { s with table := t }
  | .resumed p => some { s with table := s.table.setIdle p false }
  | .stratum p active notify =>
    some { s with
      table := s.table.setStratumActive p active
      stratumNotify := Function.update s.stratumNotify p notify }
  | .changed t => some { s with table := t }

/-- Behind the label `retry` there is a pool. -/
def Sound (s : Scheduler) : Prop := ∀ malgo, s.place ≠ .retry malgo none

/-- There is a pool for spare work whenever it has been begun and another is asked for. -/
def PoolLeft (s : Scheduler) (e : Event) : Prop :=
  ∀ call lagging m pool, e = .trySelect → s.place = .select call lagging (some m) pool →
    call ≠ .first → s.table.PoolFor lagging m pool

/-! ## What a step leads to -/

section
variable {s t : Scheduler} {e : Event} {call : Call} {lagging : Bool} {malgo pool : Option ℕ}
  {m p : ℕ}

/-- NULL comes behind the label only from a call that is not the first for spare work. -/
theorem returned_eq_retry_none {malgo' : Option ℕ}
    (H : returned call malgo pool = .retry malgo' none) :
    pool = none ∧ (call = .first → malgo = none) := by
  cases call with
  | first =>
      cases malgo with
      | none => exact ⟨(Place.retry.inj H).2, fun _ => rfl⟩
      | some m =>
          cases pool with
          | none => cases H
          | some p => cases (Place.retry.inj H).2
  | alternative => exact ⟨(Place.retry.inj H).2, fun h => by cases h⟩
  | next => exact ⟨(Place.retry.inj H).2, fun h => by cases h⟩

theorem returned_some_ne (call : Call) (malgo malgo' : Option ℕ) (p : ℕ) :
    returned call malgo (some p) ≠ .retry malgo' none := fun H => by
  cases (returned_eq_retry_none H).1

theorem use_ne (s : Scheduler) (malgo malgo' : Option ℕ) (p : ℕ) :
    s.use malgo p ≠ .retry malgo' none := by
  rw [use]
  split
  next =>
    split
    next => exact Place.noConfusion
    next => exact Place.noConfusion
  next => exact Place.noConfusion

/-- Only a try of `select_pool` that fails leads to where NULL is used. -/
theorem failed_of_retry_none (hs : s.Sound) (hstep : step s e = some t)
    (H : t.place = .retry malgo none) :
    e = .trySelect ∧ ∃ call lagging malgo pool u,
      s.place = .select call lagging malgo pool ∧
        s.table.selectPass lagging malgo pool = some (.failed, u) ∧
          (call = .first → malgo = none) := by
  -- a step that leaves the place as it is leads nowhere
  have hstay : t.place ≠ s.place := fun heq => hs malgo (heq.symm.trans H)
  cases e with
  | trySelect =>
      rw [step] at hstep
      split at hstep
      next call lagging malgo' pool hplace =>
        obtain ⟨⟨r, u⟩, hpass, rfl⟩ := Option.map_eq_some_iff.mp hstep
        cases r with
        | failed =>
            obtain ⟨-, hfirst⟩ := returned_eq_retry_none H
            exact ⟨rfl, call, lagging, malgo', pool, u, hplace, hpass, hfirst⟩
        | inUse p => exact absurd H (returned_some_ne call malgo' malgo p)
        | probe p => cases H
      next => cases hstep
  | probed active =>
      rw [step] at hstep
      split at hstep
      next call lagging malgo' p hplace =>
        split at hstep
        next =>
          obtain rfl := Option.some.inj hstep
          exact absurd H (returned_some_ne call malgo' malgo p)
        next =>
          obtain ⟨u, -, rfl⟩ := Option.map_eq_some_iff.mp hstep
          cases H
      next => cases hstep
  | look =>
      rw [step] at hstep
      split at hstep
      next malgo' p hplace =>
        obtain rfl := Option.some.inj hstep
        exact absurd H (use_ne s malgo' malgo p)
      next => cases hstep
  | failed =>
      rw [step] at hstep
      split at hstep
      next =>
        obtain ⟨u, -, rfl⟩ := Option.map_eq_some_iff.mp hstep
        cases H
      next => cases hstep
  | died p =>
      obtain ⟨u, -, rfl⟩ := Option.map_eq_some_iff.mp hstep
      exact absurd rfl hstay
  | resumed p =>
      obtain rfl := Option.some.inj hstep
      exact absurd rfl hstay
  | stratum p active notify =>
      obtain rfl := Option.some.inj hstep
      exact absurd rfl hstay
  | changed u =>
      obtain rfl := Option.some.inj hstep
      exact absurd rfl hstay
  | ordinary | spare | generated | obtained =>
      rw [step] at hstep
      split at hstep
      next =>
        obtain rfl := Option.some.inj hstep
        cases H
      next => cases hstep

/-- Where there is a pool for spare work, a step leads to where there is one. -/
theorem Sound.step (hs : s.Sound) (hstep : step s e = some t) (hleft : s.PoolLeft e) :
    t.Sound := by
  intro malgo hplace
  obtain ⟨he, call, lagging, malgo', pool, u, hselect, hfailed, hfirst⟩ :=
    failed_of_retry_none hs hstep hplace
  cases malgo' with
  | none =>
      -- ordinary work is made for the current pool at the worst
      obtain ⟨cp, v, -, hpick⟩ := LoadTable.exists_pick_of_failed hfailed
      cases (LoadTable.pick_none hpick).1
  | some m =>
      have hcall : call ≠ .first := fun h => by cases hfirst h
      exact (hleft call lagging m pool he hselect hcall).ne_failed hfailed

/-- Where there is none, `select_pool` returns NULL, and it is used. -/
theorem not_sound_of_not_poolLeft (hready : s.table.Ready)
    (hgcd : ∀ p ∈ s.table.pools, 0 ≤ s.table.quotaGcd p) (hstep : step s e = some t)
    (H : ¬ s.PoolLeft e) : ¬ t.Sound := by
  simp only [PoolLeft, not_forall] at H
  obtain ⟨call, lagging, m, pool, rfl, hplace, hcall, hno⟩ := H
  obtain ⟨u, hfailed⟩ := LoadTable.exists_failed_of_not_poolFor hready hgcd hno
  rw [step, hplace] at hstep
  dsimp only at hstep
  rw [hfailed] at hstep
  obtain rfl := Option.some.inj hstep
  intro hsound
  cases call with
  | first => exact hcall rfl
  | alternative => exact hsound (some m) rfl
  | next => exact hsound (some m) rfl

end

/-- **NULL is never used behind the label `retry`**, in a run where there is a pool for spare work
whenever another is asked for. -/
theorem sound_of_poolLeft (s : Scheduler) (hs : s.Sound) (es : List Event)
    (H : Run.AllSteps step (fun s e _ => s.PoolLeft e) s es) :
    Run.AllSteps step (fun _ _ t => t.Sound) s es :=
  Run.allSteps_imp_of_invariant (I := Sound)
    (fun _ _ _ hs hstep hleft => ⟨hs.step hstep hleft, hs.step hstep hleft⟩) hs H

/-- Two pools by failover only.  The current one has no stratum; the other has a job, and is the
only one of its algorithm. -/
def twoAlgorithms : Scheduler where
  table :=
    { QuotaTable.ofQuotas [1, 1] with
      strategy := .failover
      optFailOnly := true
      currentpool := some 0
      pool := fun p =>
        { PoolState.zero with
          prio := p
          poolNo := p
          enabled := .enabled
          hasStratum := p == 1 }
      stake := fun p => ⟨1, 1, 0, 0, p, p == 1⟩
      rotatingPool := 0
      rotating_lt := by decide }
  stratumNotify := fun p => p == 1
  place := .top

theorem sound_twoAlgorithms : twoAlgorithms.Sound := fun _ => Place.noConfusion

theorem ready_twoAlgorithms : twoAlgorithms.table.Ready := by
  refine ⟨⟨⟨by decide, by decide, by decide, by decide⟩, fun i p hp => ?_⟩, 0, by decide, rfl⟩
  have hrange : (List.range 2)[i]? = some p := hp
  obtain ⟨hlt, rfl⟩ := List.getElem?_eq_some_iff.mp hrange
  exact List.getElem_range hlt

/-- The other pool dies after it was chosen, and there is none to take its place. -/
theorem not_sound_twoAlgorithms : twoAlgorithms.Sound ∧ twoAlgorithms.table.Ready ∧
    ¬ Run.AllSteps step (fun _ _ t => t.Sound) twoAlgorithms
      [.spare 1, .trySelect, .stratum 1 false false, .died 1, .look, .trySelect] := by
  refine ⟨sound_twoAlgorithms, ready_twoAlgorithms, fun H => ?_⟩
  have hchosen := (((H _ rfl).2 _ rfl).2 _ rfl).2
  exact (((hchosen _ rfl).2 _ rfl).2 _ rfl).1 (some 1) rfl

/-- When it has only lost its job, it is chosen again. -/
theorem sound_lostJob : Run.AllSteps step (fun _ _ t => t.Sound) twoAlgorithms
    [.spare 1, .trySelect, .stratum 1 true false, .look, .trySelect] := by
  refine sound_of_poolLeft twoAlgorithms sound_twoAlgorithms _ ?_
  refine Run.allSteps_cons_of_eq rfl (fun _ _ _ _ h => by cases h) ?_
  refine Run.allSteps_cons_of_eq rfl (fun _ _ _ _ _ hplace hcall => ?_) ?_
  · exact absurd (Place.select.inj hplace).1.symm hcall
  refine Run.allSteps_cons_of_eq rfl (fun _ _ _ _ h => by cases h) ?_
  refine Run.allSteps_cons_of_eq rfl (fun _ _ _ _ h => by cases h) ?_
  refine Run.allSteps_cons_of_eq rfl (fun _ _ _ _ _ hplace _ => ?_) trivial
  obtain ⟨-, -, hmalgo, -⟩ := Place.select.inj hplace
  obtain rfl := Option.some.inj hmalgo
  exact .inr (.inl ⟨1, by decide, 1, rfl, rfl, rfl⟩)

end Scheduler

end MassGridMiner

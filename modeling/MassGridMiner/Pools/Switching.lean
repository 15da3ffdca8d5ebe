import MassGridMiner.Lib.Rotation
import MassGridMiner.Pools.Order

/-!
# Which pool becomes the current one

By three of the strategies `switch_pools` makes the usable pool of the highest priority the
current one, and by two the next usable pool in the list.  It first enables the pool that is
selected, and `enable_pool` itself switches pools when that one has a higher priority than the
current pool: if it is idle, the list is gone through twice.

## Main definitions

* `nextPool` — the pool whose turn it is.
* `SwitchesWell` — the pool that the strategy means becomes current, and the priorities are as
  they should be.
* `TakesTwoTurns` — when it is another.
-/

namespace MassGridMiner

namespace PoolTable

/-- The pools behind one of the list, and then those before it. -/
def othersInTurn (s : PoolTable) (p : ℕ) : List ℕ :=
  s.pools.drop ((s.pool p).poolNo + 1) ++ s.pools.take (s.pool p).poolNo

/-- A usable pool that is not for failover only, and one that is. -/
def isLive (s : PoolTable) (p : ℕ) : Bool := !s.poolUnusable p && !(s.pool p).failoverOnly
def isFailover (s : PoolTable) (p : ℕ) : Bool := !s.poolUnusable p && (s.pool p).failoverOnly

/-- The pool whose turn is after another: the first behind it that is live, else the same one
if it is usable, else the first for failover, else the same one. -/
def nextPool (s : PoolTable) (p : ℕ) : ℕ :=
  match (s.othersInTurn p).find? s.isLive with
  | some q => q
  | none =>
    if s.poolUnusable p then ((s.othersInTurn p).find? s.isFailover).getD p else p

/-- The strategies that go by priority. -/
def byPriority (s : PoolTable) : Bool :=
  s.strategy == .failover || s.strategy == .balance || s.strategy == .loadbalance

/-- A usable pool, and none of a higher priority is usable. -/
structure FirstUsable (s : PoolTable) (p : ℕ) : Prop where
  mem : p ∈ s.pools
  usable : s.poolUnusable p = false
  first : ∀ q ∈ s.pools, s.poolUnusable q = false → (s.pool p).prio ≤ (s.pool q).prio

/-- The right pool has become the current one, `cp` being so before, and the pool that was
selected comes first. -/
structure SwitchesWell (s : PoolTable) (selected : Option ℕ) (cp : ℕ) (t : PoolTable) : Prop where
  usable : s.byPriority = true → (∃ p ∈ t.pools, t.poolUnusable p = false) →
    ∃ p, t.currentpool = some p ∧ t.FirstUsable p
  unchanged : s.byPriority = true → (¬ ∃ p ∈ t.pools, t.poolUnusable p = false) →
    t.currentpool = some cp
  inTurn : s.byPriority = false → (∀ p ∈ selected, (s.pool p).idle = true) →
    t.currentpool = some (t.nextPool cp)
  first : ∀ p ∈ selected, (t.pool p).prio = 0
  order : ∀ p ∈ selected, ∀ q ∈ s.pools, ∀ r ∈ s.pools, q ≠ p → r ≠ p →
    ((t.pool q).prio < (t.pool r).prio ↔ (s.pool q).prio < (s.pool r).prio)

/-- Pools take turns, two of them are live, and the pool that is selected is idle, was not
enabled and has a higher priority than the current one. -/
def TakesTwoTurns (s : PoolTable) (selected : Option ℕ) (cp : ℕ) : Prop :=
  s.byPriority = false ∧
    (∃ p ∈ selected, (s.pool p).idle = true ∧ (s.pool p).enabled ≠ .enabled ∧
      (s.pool p).prio < (s.pool cp).prio) ∧
    ∃ q ∈ s.pools, ∃ r ∈ s.pools, q ≠ r ∧ s.isLive q = true ∧ s.isLive r = true

/-- The priorities are a ranking, and the pools know their places. -/
structure Numbered (s : PoolTable) : Prop where
  ranking : IsRanking s.pools fun p => (s.pool p).prio
  poolNo : ∀ i p, s.pools[i]? = some p → (s.pool p).poolNo = i

/-! ## Turns -/

section
variable {s t : PoolTable} {p q cp : ℕ}

/-- The tables agree on everything that decides whose turn it is. -/
structure SameTurns (s t : PoolTable) : Prop where
  pools : t.pools = s.pools
  strategy : t.strategy = s.strategy
  poolNo : ∀ p, (t.pool p).poolNo = (s.pool p).poolNo
  unusable : ∀ p, t.poolUnusable p = s.poolUnusable p
  failoverOnly : ∀ p, (t.pool p).failoverOnly = (s.pool p).failoverOnly

theorem SameTurns.refl (s : PoolTable) : SameTurns s s :=
  ⟨rfl, rfl, fun _ => rfl, fun _ => rfl, fun _ => rfl⟩

theorem SameTurns.trans {u : PoolTable} (H : SameTurns s t) (H' : SameTurns t u) :
    SameTurns s u :=
  ⟨H'.pools.trans H.pools, H'.strategy.trans H.strategy, fun p => (H'.poolNo p).trans (H.poolNo p),
    fun p => (H'.unusable p).trans (H.unusable p),
    fun p => (H'.failoverOnly p).trans (H.failoverOnly p)⟩

theorem SameTurns.isLive (H : SameTurns s t) : t.isLive = s.isLive := by
  funext q
  rw [PoolTable.isLive, PoolTable.isLive, H.unusable, H.failoverOnly]

theorem SameTurns.nextPool (H : SameTurns s t) (p : ℕ) : t.nextPool p = s.nextPool p := by
  have hfailover : t.isFailover = s.isFailover := by
    funext q
    rw [isFailover, isFailover, H.unusable, H.failoverOnly]
  rw [PoolTable.nextPool, PoolTable.nextPool, othersInTurn, othersInTurn, H.isLive, hfailover,
    H.pools, H.poolNo, H.unusable]

theorem Numbered.getElem? (H : s.Numbered) (hp : p ∈ s.pools) :
    s.pools[(s.pool p).poolNo]? = some p := by
  obtain ⟨i, hi⟩ := List.getElem?_of_mem hp
  rw [H.poolNo i p hi, hi]

theorem Numbered.poolNo_lt (H : s.Numbered) (hp : p ∈ s.pools) :
    (s.pool p).poolNo < s.pools.length := (List.getElem?_eq_some_iff.mp (H.getElem? hp)).1

/-- The others are all but the one. -/
theorem Numbered.mem_othersInTurn (H : s.Numbered) (hp : p ∈ s.pools) :
    q ∈ s.othersInTurn p ↔ q ∈ s.pools ∧ q ≠ p := by
  obtain ⟨hlt, hget⟩ := List.getElem?_eq_some_iff.mp (H.getElem? hp)
  have hsplit : s.pools = s.pools.take (s.pool p).poolNo ++
      p :: s.pools.drop ((s.pool p).poolNo + 1) := by
    conv_lhs => rw [← List.take_append_drop (s.pool p).poolNo s.pools,
      List.drop_eq_getElem_cons hlt, hget]
  have hnodup := H.ranking.nodup
  rw [othersInTurn, List.mem_append]
  rw [hsplit, List.nodup_middle, List.nodup_cons, List.mem_append, not_or] at hnodup
  constructor
  · intro hq
    rcases hq with hq | hq
    · refine ⟨List.mem_of_mem_drop hq, ?_⟩
      intro heq
      exact hnodup.1.2 (heq ▸ hq)
    · refine ⟨List.mem_of_mem_take hq, ?_⟩
      intro heq
      exact hnodup.1.1 (heq ▸ hq)
  · intro hq
    have hmem := hq.1
    rw [hsplit, List.mem_append, List.mem_cons] at hmem
    rcases hmem with hmem | hmem | hmem
    · exact .inr hmem
    · exact absurd hmem hq.2
    · exact .inl hmem

theorem Numbered.nextPool_mem (H : s.Numbered) (hp : p ∈ s.pools) : s.nextPool p ∈ s.pools := by
  rw [nextPool]
  split
  next q hq => exact ((H.mem_othersInTurn hp).mp (List.mem_of_find?_eq_some hq)).1
  next =>
    split
    next =>
      cases hfind : (s.othersInTurn p).find? s.isFailover with
      | none => exact hp
      | some q => exact ((H.mem_othersInTurn hp).mp (List.mem_of_find?_eq_some hfind)).1
    next => exact hp

/-- A usable pool stays where no other is live. -/
theorem Numbered.nextPool_of_usable (H : s.Numbered) (hp : p ∈ s.pools)
    (hnone : ∀ q ∈ s.pools, q ≠ p → s.isLive q = false) (husable : s.poolUnusable p = false) :
    s.nextPool p = p := by
  have hfind : (s.othersInTurn p).find? s.isLive = none := by
    refine List.find?_eq_none.mpr fun q hq => ?_
    obtain ⟨hmem, hne⟩ := (H.mem_othersInTurn hp).mp hq
    simp [hnone q hmem hne]
  rw [nextPool, hfind]
  simp [husable]

/-- It does not stay where another is live. -/
theorem Numbered.nextPool_ne (H : s.Numbered) (hp : p ∈ s.pools) (hq : q ∈ s.pools)
    (hne : q ≠ p) (hlive : s.isLive q = true) : s.nextPool p ≠ p := by
  have hsome : ((s.othersInTurn p).find? s.isLive).isSome = true :=
    List.find?_isSome.mpr ⟨q, (H.mem_othersInTurn hp).mpr ⟨hq, hne⟩, hlive⟩
  obtain ⟨x, hx⟩ := Option.isSome_iff_exists.mp hsome
  rw [nextPool, hx]
  exact ((H.mem_othersInTurn hp).mp (List.mem_of_find?_eq_some hx)).2

/-- Another pool whose turn it is can be used, and is live if any is. -/
theorem Numbered.nextPool_cases (H : s.Numbered) (hp : p ∈ s.pools) :
    s.nextPool p = p ∨ s.poolUnusable (s.nextPool p) = false ∧
      (s.isLive (s.nextPool p) = true ∨ ∀ q ∈ s.pools, s.isLive q = false) := by
  cases hfind : (s.othersInTurn p).find? s.isLive with
  | some c =>
      have hc : s.nextPool p = c := by rw [nextPool, hfind]
      have hlive : s.isLive c = true := List.find?_some hfind
      have husable := hlive
      rw [isLive, Bool.and_eq_true] at husable
      rw [hc]
      exact .inr ⟨by simpa using husable.1, .inl hlive⟩
  | none =>
      have hnone : ∀ q ∈ s.pools, q ≠ p → s.isLive q = false := by
        intro q hq hne
        simpa using List.find?_eq_none.mp hfind q ((H.mem_othersInTurn hp).mpr ⟨hq, hne⟩)
      by_cases husable : s.poolUnusable p = true
      · have hc : s.nextPool p = ((s.othersInTurn p).find? s.isFailover).getD p := by
          rw [nextPool, hfind]
          simp [husable]
        cases hfailover : (s.othersInTurn p).find? s.isFailover with
        | none =>
            rw [hfailover, Option.getD_none] at hc
            exact .inl hc
        | some f =>
            rw [hfailover, Option.getD_some] at hc
            have hf := List.find?_some hfailover
            rw [isFailover, Bool.and_eq_true] at hf
            rw [hc]
            refine .inr ⟨by simpa using hf.1, .inr fun q hq => ?_⟩
            by_cases heq : q = p
            · rw [heq, isLive, husable]
              rfl
            · exact hnone q hq heq
      · exact .inl (H.nextPool_of_usable hp hnone (by simpa using husable))

/-- A second turn comes to another pool exactly when two pools are live. -/
theorem Numbered.nextPool_nextPool_iff (H : s.Numbered) (hp : p ∈ s.pools) :
    s.nextPool (s.nextPool p) = s.nextPool p ↔
      ¬ ∃ q ∈ s.pools, ∃ r ∈ s.pools, q ≠ r ∧ s.isLive q = true ∧ s.isLive r = true := by
  have hnext := H.nextPool_mem hp
  constructor
  · intro hsame hex
    obtain ⟨q, hq, r, hr, hne, hqlive, hrlive⟩ := hex
    -- one of the two is another than the pool that comes next
    by_cases heq : q = s.nextPool p
    · exact H.nextPool_ne hnext hr (fun hrn => hne (heq.trans hrn.symm)) hrlive hsame
    · exact H.nextPool_ne hnext hq heq hqlive hsame
  · intro hfew
    rcases H.nextPool_cases hp with hstays | ⟨husable, hlive⟩
    · rw [hstays, hstays]
    · refine H.nextPool_of_usable hnext (fun q hq hne => ?_) husable
      rcases hlive with hlive | hnone
      · by_contra hqlive
        exact hfew ⟨q, hq, _, hnext, hne, by simpa using hqlive, hlive⟩
      · exact hnone q hq

/-! ## The loops -/

theorem Numbered.rotate_poolNo (H : s.Numbered) (hp : p ∈ s.pools) :
    (s.pools.rotate ((s.pool p).poolNo + 1)).take (s.totalPools - 1) = s.othersInTurn p := by
  have hlt := H.poolNo_lt hp
  have hnum : s.totalPools = s.pools.length := rfl
  rw [List.rotate_eq_drop_append_take hlt, List.take_add_one, ← List.append_assoc, othersInTurn]
  refine List.take_left' ?_
  rw [List.length_append, List.length_drop, List.length_take]
  omega

/-- The loop that goes around the list ends at the first live pool it comes to; else it stays,
with the first pool for failover. -/
theorem Numbered.cyclePools_spec (H : s.Numbered) {turns next : ℕ} (poolNo : ℕ)
    (hturns : turns ≤ s.pools.length) (hnext : next < s.pools.length) (failoverPool : Option ℕ) :
    (∀ p, ((s.pools.rotate (next + 1)).take turns).find? s.isLive = some p →
      (s.cyclePools poolNo turns next failoverPool).1 = (s.pool p).poolNo) ∧
    (((s.pools.rotate (next + 1)).take turns).find? s.isLive = none →
      s.cyclePools poolNo turns next failoverPool = (poolNo,
        failoverPool.or (((s.pools.rotate (next + 1)).take turns).find? s.isFailover))) := by
  induction turns generalizing next failoverPool with
  | zero => simp [cyclePools]
  | succ turns ih =>
      have hlt := stepAround_lt hnext
      obtain ⟨rest, hfirst, hlast⟩ := exists_rotate hlt
      have hlen : rest.length + 1 = s.pools.length := by
        rw [← List.length_rotate s.pools (stepAround s.pools next), hfirst, List.length_cons]
      have htail : (s.pools.rotate (stepAround s.pools next + 1)).take turns = rest.take turns := by
        rw [hlast, List.take_append_of_le_length (by omega)]
      have hloop := ih (by omega) hlt
      have hno := H.poolNo _ _ (List.getElem?_eq_getElem hlt)
      rw [← rotate_stepAround hnext, hfirst, List.take_succ_cons]
      rw [htail] at hloop
      have hplace :
          (if s.totalPools ≤ next + 1 then 0 else next + 1) = stepAround s.pools next := rfl
      rw [cyclePools, hplace, List.getElem?_eq_getElem hlt]
      generalize s.pools[stepAround s.pools next] = p at hno ⊢
      dsimp only
      by_cases hunusable : s.poolUnusable p = true
      · have hlive : s.isLive p = false := by simp [isLive, hunusable]
        have hfail : s.isFailover p = false := by simp [isFailover, hunusable]
        rw [if_pos hunusable, List.find?_cons_of_neg (by simp [hlive]),
          List.find?_cons_of_neg (by simp [hfail])]
        exact hloop failoverPool
      by_cases honly : (s.pool p).failoverOnly = true
      · have hlive : s.isLive p = false := by simp [isLive, honly]
        have hfail : s.isFailover p = true := by simp [isFailover, hunusable, honly]
        rw [if_neg hunusable, if_pos honly, List.find?_cons_of_neg (by simp [hlive]),
          List.find?_cons_of_pos hfail]
        refine ⟨(hloop _).1, ?_⟩
        intro hnone
        rw [(hloop _).2 hnone]
        cases failoverPool <;> rfl
      · have hlive : s.isLive p = true := by simp [isLive, hunusable, honly]
        rw [if_neg hunusable, if_neg honly, List.find?_cons_of_pos hlive]
        refine ⟨?_, fun hnone => by cases hnone⟩
        intro q hq
        obtain rfl := Option.some.inj hq
        exact hno.symm

/-- The pool that comes of that loop is the one whose turn it is. -/
theorem Numbered.cyclePools_eq (H : s.Numbered) (hp : p ∈ s.pools) :
    ∃ pool, s.pools[(s.cyclePools (s.pool p).poolNo (s.totalPools - 1) (s.pool p).poolNo none).1]? =
        some pool ∧
      (if s.poolUnusable pool then
        (s.cyclePools (s.pool p).poolNo (s.totalPools - 1) (s.pool p).poolNo none).2.getD pool
      else pool) = s.nextPool p := by
  have hspec := H.cyclePools_spec (s.pool p).poolNo (Nat.sub_le s.totalPools 1) (H.poolNo_lt hp)
    none
  rw [H.rotate_poolNo hp] at hspec
  rw [nextPool]
  cases hfind : (s.othersInTurn p).find? s.isLive with
  | some q =>
      have hlive := List.find?_some hfind
      have hq := ((H.mem_othersInTurn hp).mp (List.mem_of_find?_eq_some hfind)).1
      rw [isLive, Bool.and_eq_true] at hlive
      refine ⟨q, by rw [hspec.1 q hfind]; exact H.getElem? hq, ?_⟩
      rw [if_neg (by simpa using hlive.1)]
  | none =>
      rw [hspec.2 hfind]
      exact ⟨p, H.getElem? hp, rfl⟩

theorem Numbered.exists_priorityPool (H : s.Numbered) {i : ℕ} (hi : i < s.pools.length) :
    ∃ p ∈ s.pools, (s.pool p).prio = i ∧ s.priorityPool i = some p := by
  have hmem : ((i : ℕ) : ℤ) ∈ s.pools.map fun p => (s.pool p).prio :=
    H.ranking.perm_range.mem_iff.mpr (List.mem_map_of_mem (List.mem_range.mpr hi))
  obtain ⟨q, hq, hqprio⟩ := List.mem_map.mp hmem
  have hsome : (s.pools.find? fun p => (s.pool p).prio == i).isSome = true :=
    List.find?_isSome.mpr ⟨q, hq, by simpa using hqprio⟩
  obtain ⟨p, hp⟩ := Option.isSome_iff_exists.mp hsome
  refine ⟨p, List.mem_of_find?_eq_some hp, by simpa using List.find?_some hp, ?_⟩
  rw [priorityPool, hp]

/-- The loop that goes by priority ends at the first usable pool, or else stays. -/
theorem Numbered.failoverNo_spec (H : s.Numbered) (hp : p ∈ s.pools) {i k : ℕ}
    (hik : i + k = s.pools.length)
    (hbelow : ∀ q ∈ s.pools, (s.pool q).prio < i → s.poolUnusable q = true) :
    ∃ pool, s.pools[s.failoverNo (s.pool p).poolNo (List.range' i k)]? = some pool ∧
      (s.FirstUsable pool ∨ (¬ ∃ q ∈ s.pools, s.poolUnusable q = false) ∧ pool = p) := by
  induction k generalizing i with
  | zero =>
      refine ⟨p, H.getElem? hp, .inr ⟨?_, rfl⟩⟩
      intro hex
      obtain ⟨q, hq, husable⟩ := hex
      have hlt := H.ranking.lt_length q hq
      rw [hbelow q hq (by omega)] at husable
      cases husable
  | succ k ih =>
      obtain ⟨q, hq, hqprio, hpool⟩ := H.exists_priorityPool (i := i) (by omega)
      rw [List.range'_succ, failoverNo, hpool]
      dsimp only
      by_cases hunusable : s.poolUnusable q = true
      · rw [if_pos hunusable]
        refine ih (by omega) ?_
        intro r hr hlt
        by_cases heq : (s.pool r).prio = (s.pool q).prio
        · rw [H.ranking.inj r hr q hq heq]
          exact hunusable
        · exact hbelow r hr (by omega)
      · rw [if_neg hunusable]
        refine ⟨q, H.getElem? hq, .inl ⟨hq, by simpa using hunusable, ?_⟩⟩
        intro r hr husable
        by_contra hlt
        rw [hbelow r hr (by omega)] at husable
        cases husable

/-! ## A switch -/

/-- What a pool has to do with turns, but its priority. -/
def turnFlags (pool : PoolState) : PoolEnable × Bool × Bool × ℕ :=
  (pool.enabled, pool.idle, pool.failoverOnly, pool.poolNo)

theorem turnFlags_moveDown (s : PoolTable) (p q : ℕ) :
    turnFlags ((s.moveDown p).pool q) = turnFlags (s.pool q) := by
  rw [moveDown]
  split
  next =>
    have hdown : ∀ pool : PoolState,
        turnFlags (if pool.prio < (s.pool p).prio then { pool with prio := pool.prio + 1 }
          else pool) = turnFlags pool := by
      intro pool
      split <;> rfl
    refine (map_pool_modify turnFlags (by intro x; rfl) _ p q).trans ?_
    exact map_updateAll hdown s.pools s.pool q
  next => rfl

theorem turnFlags_makeCurrent (s : PoolTable) (lastPool p q : ℕ) :
    turnFlags ((s.makeCurrent lastPool p).pool q) = turnFlags (s.pool q) :=
  map_update turnFlags (by rfl) q

/-- The tables differ in priorities and in the current pool. -/
structure SameFlags (s t : PoolTable) : Prop where
  pools : t.pools = s.pools
  strategy : t.strategy = s.strategy
  flags : ∀ p, turnFlags (t.pool p) = turnFlags (s.pool p)

theorem SameFlags.refl (s : PoolTable) : SameFlags s s := ⟨rfl, rfl, fun _ => rfl⟩

theorem SameFlags.trans {u : PoolTable} (H : SameFlags s t) (H' : SameFlags t u) :
    SameFlags s u :=
  ⟨H'.pools.trans H.pools, H'.strategy.trans H.strategy, fun p => (H'.flags p).trans (H.flags p)⟩

theorem SameFlags.fields (H : SameFlags s t) (p : ℕ) :
    (t.pool p).enabled = (s.pool p).enabled ∧ (t.pool p).idle = (s.pool p).idle ∧
      (t.pool p).failoverOnly = (s.pool p).failoverOnly ∧
        (t.pool p).poolNo = (s.pool p).poolNo := by
  have hflags := H.flags p
  simp only [turnFlags, Prod.mk.injEq] at hflags
  exact hflags

theorem SameFlags.turns (H : SameFlags s t) : SameTurns s t := by
  refine ⟨H.pools, H.strategy, fun p => (H.fields p).2.2.2, ?_, fun p => (H.fields p).2.2.1⟩
  intro p
  obtain ⟨hen, hidle, -, -⟩ := H.fields p
  rw [poolUnusable, poolUnusable, hen, hidle]

theorem sameFlags_moveDown (s : PoolTable) (p : ℕ) : SameFlags s (s.moveDown p) := by
  refine ⟨(samePools_moveDown s p).pools, ?_, turnFlags_moveDown s p⟩
  rw [moveDown]
  split <;> rfl

theorem SameTurns.numbered (H : SameTurns s t) (hnum : s.Numbered)
    (hranking : IsRanking s.pools fun p => (t.pool p).prio) : t.Numbered where
  ranking := by
    rw [H.pools]
    exact hranking
  poolNo i p hp := by
    rw [H.pools] at hp
    exact (H.poolNo p).trans (hnum.poolNo i p hp)

theorem SameTurns.firstUsable (H : SameTurns s t)
    (hprio : ∀ q, (t.pool q).prio = (s.pool q).prio) (hfirst : s.FirstUsable p) :
    t.FirstUsable p where
  mem := by
    rw [H.pools]
    exact hfirst.mem
  usable := (H.unusable p).trans hfirst.usable
  first q hq husable := by
    rw [hprio, hprio]
    rw [H.pools] at hq
    rw [H.unusable] at husable
    exact hfirst.first q hq husable

/-- The priorities when a pool has been selected. -/
def movedPrio (s : PoolTable) (selected : Option ℕ) (q : ℕ) : ℤ :=
  match selected with
  | none => (s.pool q).prio
  | some p =>
    if q = p then 0
    else if (s.pool q).prio < (s.pool p).prio then (s.pool q).prio + 1
    else (s.pool q).prio

/-- What a switch comes to, with `cp` the current pool before. -/
structure Switched (s : PoolTable) (selected : Option ℕ) (cp : ℕ) (t : PoolTable) : Prop where
  same : SameFlags s t
  prio : ∀ q ∈ s.pools, (t.pool q).prio = s.movedPrio selected q
  current : ∃ c ∈ s.pools, t.currentpool = some c ∧
    (s.byPriority = true →
      t.FirstUsable c ∨ (¬ ∃ q ∈ t.pools, t.poolUnusable q = false) ∧ c = cp) ∧
    (s.byPriority = false → (∀ p ∈ selected, (s.pool p).idle = true) → c = s.nextPool cp)

theorem choosePool_byPriority (H : s.byPriority = true) (selected : Option ℕ) (poolNo : ℕ) :
    s.choosePool selected poolNo = (s.failoverNo poolNo (List.range s.totalPools), none) := by
  rw [choosePool]
  rw [byPriority] at H
  cases hstrategy : s.strategy <;> simp [hstrategy] at H ⊢

theorem choosePool_inTurn (H : s.byPriority = false) {selected : Option ℕ}
    (hidle : ∀ p ∈ selected, (s.pool p).idle = true) (poolNo : ℕ) :
    s.choosePool selected poolNo = s.cyclePools poolNo (s.totalPools - 1) poolNo none := by
  have hnone : (selected.filter fun p => !(s.pool p).idle) = none := by
    cases selected with
    | none => rfl
    | some p => simp [Option.filter, hidle p rfl]
  rw [choosePool]
  rw [byPriority] at H
  cases hstrategy : s.strategy <;> simp [hstrategy, hnone] at H ⊢

theorem choosePool_live (H : s.byPriority = false) (hlive : (s.pool p).idle = false) (poolNo : ℕ) :
    s.choosePool (some p) poolNo = ((s.pool p).poolNo, none) := by
  rw [choosePool]
  rw [byPriority] at H
  cases hstrategy : s.strategy <;> simp [hstrategy, Option.filter, hlive] at H ⊢

/-- The pool that is chosen, where the selected one has been moved to the front. -/
theorem Numbered.choosePool_spec (H : s.Numbered) (hcp : cp ∈ s.pools) {selected : Option ℕ}
    (hsel : ∀ p ∈ selected, p ∈ s.pools) :
    ∃ pool, s.pools[(s.choosePool selected (s.pool cp).poolNo).1]? = some pool ∧
      ∃ c ∈ s.pools, c = (if s.poolUnusable pool then
        (s.choosePool selected (s.pool cp).poolNo).2.getD pool else pool) ∧
      (s.byPriority = true →
        s.FirstUsable c ∨ (¬ ∃ q ∈ s.pools, s.poolUnusable q = false) ∧ c = cp) ∧
      (s.byPriority = false → (∀ p ∈ selected, (s.pool p).idle = true) → c = s.nextPool cp) := by
  by_cases hstrategy : s.byPriority = true
  · rw [choosePool_byPriority hstrategy]
    obtain ⟨pool, hpool, hspec⟩ := H.failoverNo_spec hcp (i := 0) (k := s.totalPools)
      (Nat.zero_add _) fun q hq hlt => absurd hlt (not_lt.mpr (H.ranking.nonneg q hq))
    rw [← List.range_eq_range'] at hpool
    refine ⟨pool, hpool, pool, List.mem_of_getElem? hpool, by simp, fun _ => hspec, ?_⟩
    intro hfalse
    rw [hstrategy] at hfalse
    cases hfalse
  rw [Bool.not_eq_true] at hstrategy
  by_cases hidle : ∀ p ∈ selected, (s.pool p).idle = true
  · rw [choosePool_inTurn hstrategy hidle]
    obtain ⟨pool, hpool, hnext⟩ := H.cyclePools_eq hcp
    refine ⟨pool, hpool, s.nextPool cp, H.nextPool_mem hcp, hnext.symm, ?_, fun _ _ => rfl⟩
    intro htrue
    rw [hstrategy] at htrue
    cases htrue
  · cases selected with
    | none => exact absurd (fun p hp => by cases hp) hidle
    | some p =>
        have hlive : (s.pool p).idle = false := by
          by_contra hne
          apply hidle
          intro q hq
          obtain rfl := Option.some.inj hq
          simpa using hne
        have hp := hsel p rfl
        rw [choosePool_live hstrategy hlive]
        refine ⟨p, H.getElem? hp, p, hp, by simp, ?_, fun _ hall => absurd hall hidle⟩
        intro htrue
        rw [hstrategy] at htrue
        cases htrue

/-- A switch, once the selected pool is enabled. -/
theorem Numbered.switchEnabled (H : s.Numbered) (hcur : s.currentpool = some cp)
    (hcp : cp ∈ s.pools) {selected : Option ℕ} (hsel : ∀ p ∈ selected, p ∈ s.pools) :
    ∃ t, s.switchEnabled selected = some t ∧ Switched s selected cp t := by
  have hmoved : SameFlags s (selected.elim s s.moveDown) ∧
      ∀ q ∈ s.pools, ((selected.elim s s.moveDown).pool q).prio = s.movedPrio selected q := by
    cases selected with
    | none => exact ⟨.refl s, fun _ _ => rfl⟩
    | some p => exact ⟨sameFlags_moveDown s p, fun q hq => prio_moveDown H.ranking p hq⟩
  have hranking : IsRanking s.pools fun q => ((selected.elim s s.moveDown).pool q).prio := by
    cases selected with
    | none => exact H.ranking
    | some p => exact ranking_moveDown H.ranking (hsel p rfl)
  rw [PoolTable.switchEnabled, hcur]
  dsimp only
  generalize selected.elim s s.moveDown = u at hmoved hranking ⊢
  obtain ⟨hsame, hprio⟩ := hmoved
  have hnum := hsame.turns.numbered H hranking
  have hupools := hsame.pools
  obtain ⟨pool, hpool, c, hc, hceq, hfirst, hturn⟩ :=
    hnum.choosePool_spec (hupools.symm ▸ hcp) fun p (hp : p ∈ selected) =>
      hupools.symm ▸ hsel p hp
  rw [hsame.turns.poolNo] at hpool hceq
  rw [hpool]
  dsimp only
  rw [← hceq]
  have hflags : SameFlags u (u.makeCurrent cp c) := ⟨rfl, rfl, turnFlags_makeCurrent u cp c⟩
  have hstrategy : u.byPriority = s.byPriority := by rw [byPriority, byPriority, hsame.strategy]
  refine ⟨_, rfl, hsame.trans hflags, ?_, c, hupools ▸ hc, rfl, ?_, ?_⟩
  · intro q hq
    rw [prio_makeCurrent, hprio q hq]
  · intro hby
    rcases hfirst (hstrategy.trans hby) with hf | hf
    · exact .inl (hflags.turns.firstUsable (prio_makeCurrent u cp c) hf)
    · refine .inr ⟨?_, hf.2⟩
      simp only [hflags.pools, hflags.turns.unusable]
      exact hf.1
  · intro hby hidle
    rw [hturn (hstrategy.trans hby) fun p hp => (hsame.fields p).2.1.trans (hidle p hp),
      hsame.turns.nextPool]

/-! ## A pool that is selected -/

/-- The other pools keep their order. -/
theorem Numbered.order_movedPrio (H : s.Numbered) (hp : p ∈ s.pools) {q r : ℕ} (hq : q ∈ s.pools)
    (hr : r ∈ s.pools) (hqp : q ≠ p) (hrp : r ≠ p) :
    s.movedPrio (some p) q < s.movedPrio (some p) r ↔ (s.pool q).prio < (s.pool r).prio := by
  have hqprio : (s.pool q).prio ≠ (s.pool p).prio := fun heq => hqp (H.ranking.inj q hq p hp heq)
  have hrprio : (s.pool r).prio ≠ (s.pool p).prio := fun heq => hrp (H.ranking.inj r hr p hp heq)
  simp only [movedPrio, if_neg hqp, if_neg hrp]
  split <;> split <;> omega

/-- Whatever a switch is made of, what is left to see is whose turn it was. -/
theorem Numbered.switchesWell_iff (H : s.Numbered) {selected : Option ℕ}
    (hsel : ∀ p ∈ selected, p ∈ s.pools)
    (hprio : ∀ q ∈ s.pools, (t.pool q).prio = s.movedPrio selected q)
    (hcur : s.byPriority = true → ∃ c, t.currentpool = some c ∧
      (t.FirstUsable c ∨ (¬ ∃ q ∈ t.pools, t.poolUnusable q = false) ∧ c = cp)) :
    SwitchesWell s selected cp t ↔ (s.byPriority = false →
      (∀ p ∈ selected, (s.pool p).idle = true) → t.currentpool = some (t.nextPool cp)) := by
  refine ⟨fun hwell => hwell.inTurn, ?_⟩
  intro hturn
  refine ⟨?_, ?_, hturn, ?_, ?_⟩
  · intro hby hex
    obtain ⟨c, hc, hfirst⟩ := hcur hby
    exact ⟨c, hc, hfirst.resolve_right fun hnone => hnone.1 hex⟩
  · intro hby hnone
    obtain ⟨c, hc, hfirst⟩ := hcur hby
    rcases hfirst with hfirst | hstay
    · exact absurd ⟨c, hfirst.mem, hfirst.usable⟩ hnone
    · rw [hc, hstay.2]
  · intro p hp
    rw [hprio p (hsel p hp)]
    obtain rfl := Option.mem_def.mp hp
    simp [movedPrio]
  · intro p hp q hq r hr hqp hrp
    rw [hprio q hq, hprio r hr]
    have hmem := hsel p hp
    obtain rfl := Option.mem_def.mp hp
    exact H.order_movedPrio hmem hq hr hqp hrp

/-- A switch by itself is as it should be. -/
theorem Switched.switchesWell {u : PoolTable} {selected : Option ℕ}
    (H : Switched u selected cp t) (hnum : s.Numbered) (hpools : u.pools = s.pools)
    (hstrategy : u.strategy = s.strategy) (hprio : ∀ q, (u.pool q).prio = (s.pool q).prio)
    (hidle : ∀ q, (u.pool q).idle = (s.pool q).idle) (hsel : ∀ p ∈ selected, p ∈ s.pools) :
    SwitchesWell s selected cp t := by
  obtain ⟨c, hc, hcur, hfirst, hturn⟩ := H.current
  have hby : u.byPriority = s.byPriority := by rw [byPriority, byPriority, hstrategy]
  refine (hnum.switchesWell_iff hsel ?_ ?_).mpr ?_
  · intro q hq
    rw [H.prio q (hpools ▸ hq)]
    cases selected <;> simp only [movedPrio, hprio]
  · exact fun hp => ⟨c, hcur, hfirst (hby.trans hp)⟩
  · intro hp hall
    rw [hcur, hturn (hby.trans hp) fun q hq => (hidle q).trans (hall q hq), H.same.turns.nextPool]

theorem Numbered.setEnabled (H : s.Numbered) (p : ℕ) (status : PoolEnable) (d : ℤ) :
    (s.setEnabled p status d).Numbered where
  ranking := H.ranking.congr .rfl fun q _ =>
    map_pool_setEnabled PoolState.prio (fun _ => rfl) s p d q
  poolNo i q hq :=
    (map_pool_setEnabled PoolState.poolNo (fun _ => rfl) s p d q).trans (H.poolNo i q hq)

/-- Enabling an idle pool does not make it usable. -/
theorem sameTurns_setEnabled (hidle : (s.pool p).idle = true) (status : PoolEnable) (d : ℤ) :
    SameTurns s (s.setEnabled p status d) := by
  refine ⟨rfl, rfl, map_pool_setEnabled PoolState.poolNo (fun _ => rfl) s p d, ?_,
    map_pool_setEnabled PoolState.failoverOnly (fun _ => rfl) s p d⟩
  intro q
  have hsame : ((s.setEnabled p status d).pool q).idle = (s.pool q).idle :=
    map_pool_setEnabled PoolState.idle (fun _ => rfl) s p d q
  by_cases hq : q = p
  · rw [hq] at hsame ⊢
    simp [poolUnusable, hsame, hidle]
  · have hpool : (s.setEnabled p status d).pool q = s.pool q := Function.update_of_ne hq _ s.pool
    rw [poolUnusable, poolUnusable, hpool]

/-- A pool that comes first already is not moved again. -/
theorem Switched.prio_twice {u v : PoolTable} {c : ℕ} (H : Switched u (some p) cp v)
    (H' : Switched v (some p) c t) (hnum : v.Numbered) (hp : p ∈ u.pools) :
    ∀ q ∈ u.pools, (t.pool q).prio = u.movedPrio (some p) q := by
  intro q hq
  have hpools := H.same.pools
  rw [← H.prio q hq, H'.prio q (hpools ▸ hq), movedPrio]
  have hzero : (v.pool p).prio = 0 := by
    rw [H.prio p hp]
    simp [movedPrio]
  have hnonneg := hnum.ranking.nonneg q (hpools ▸ hq)
  by_cases heq : q = p
  · simp [heq, hzero]
  · simp only [if_neg heq, hzero]
    rw [if_neg (by omega)]

/-- Where two turns are taken, the pool of the first has become current exactly when it has the
second turn too. -/
theorem Numbered.inTurn_iff (H : s.Numbered) (hcp : cp ∈ s.pools)
    (hen : (s.pool p).enabled ≠ .enabled) (hlt : (s.pool p).prio < (s.pool cp).prio)
    (htwice : s.byPriority = false → (s.pool p).idle = true →
      t.nextPool = s.nextPool ∧ t.currentpool = some (s.nextPool (s.nextPool cp))) :
    (s.byPriority = false → (∀ q ∈ some p, (s.pool q).idle = true) →
      t.currentpool = some (t.nextPool cp)) ↔ ¬ TakesTwoTurns s (some p) cp := by
  constructor
  · intro hturn htwo
    obtain ⟨hfalse, ⟨q, hq, hidle, -⟩, hex⟩ := htwo
    obtain rfl := Option.some.inj hq
    obtain ⟨hnext, hcur⟩ := htwice hfalse hidle
    have hsame := hturn hfalse fun r hr => Option.some.inj hr ▸ hidle
    rw [hcur, hnext, Option.some.injEq, H.nextPool_nextPool_iff hcp] at hsame
    exact hsame hex
  · intro hno hfalse hall
    have hidle := hall p rfl
    obtain ⟨hnext, hcur⟩ := htwice hfalse hidle
    rw [hcur, hnext, Option.some.injEq, H.nextPool_nextPool_iff hcp]
    exact fun hex => hno ⟨hfalse, ⟨p, rfl, hidle, hen, hlt⟩, hex⟩

/-- Where `enable_pool` switches pools itself, the strategy chooses twice. -/
theorem Numbered.switch_twice (H : s.Numbered) (hcur : s.currentpool = some cp)
    (hcp : cp ∈ s.pools) (hp : p ∈ s.pools) (hen : (s.pool p).enabled ≠ .enabled)
    (hlt : (s.pool p).prio < (s.pool cp).prio) :
    ∃ t, ((s.setEnabled p .enabled 1).switchEnabled (some p)).bind
        (fun s => s.switchEnabled (some p)) = some t ∧
      (SwitchesWell s (some p) cp t ↔ ¬ TakesTwoTurns s (some p) cp) := by
  have hsel : ∀ q ∈ some p, q ∈ s.pools := fun q hq => Option.some.inj hq ▸ hp
  have hprio : ∀ q, ((s.setEnabled p .enabled 1).pool q).prio = (s.pool q).prio :=
    map_pool_setEnabled PoolState.prio (fun _ => rfl) s p 1
  have hidle : ∀ q, ((s.setEnabled p .enabled 1).pool q).idle = (s.pool q).idle :=
    map_pool_setEnabled PoolState.idle (fun _ => rfl) s p 1
  have hby : (s.setEnabled p .enabled 1).byPriority = s.byPriority := rfl
  have hturns : (s.pool p).idle = true → SameTurns s (s.setEnabled p .enabled 1) :=
    fun h => sameTurns_setEnabled h .enabled 1
  have hcur' : (s.setEnabled p .enabled 1).currentpool = some cp := hcur
  have hpools : (s.setEnabled p .enabled 1).pools = s.pools := rfl
  have hunum := H.setEnabled p .enabled 1
  generalize s.setEnabled p .enabled 1 = u at hprio hidle hby hturns hcur' hpools hunum ⊢
  rw [← hpools] at hcp hsel
  obtain ⟨v, hv, hfirst⟩ := hunum.switchEnabled hcur' hcp hsel
  have hvranking : IsRanking u.pools fun q => (v.pool q).prio :=
    (hunum.ranking.toFront (hpools.symm ▸ hp)).congr .rfl fun q hq => hfirst.prio q hq
  have hvnum := hfirst.same.turns.numbered hunum hvranking
  obtain ⟨c, hc, hvcur, hvfirst, hvturn⟩ := hfirst.current
  have hvpools := hfirst.same.pools
  obtain ⟨t, ht, hsecond⟩ := hvnum.switchEnabled hvcur (hvpools.symm ▸ hc)
    (fun q hq => hvpools.symm ▸ hsel q hq)
  obtain ⟨d, hd, htcur, htfirst, htturn⟩ := hsecond.current
  refine ⟨t, by rw [hv, Option.bind_some, ht], ?_⟩
  have hvby : v.byPriority = u.byPriority := by rw [byPriority, byPriority, hfirst.same.strategy]
  rw [hpools] at hsel
  rw [H.switchesWell_iff hsel]
  · -- the pool whose turn it is has a turn, and then the one after it
    refine H.inTurn_iff (hpools ▸ hcp) hen hlt fun hfalse hpidle => ?_
    have hstart := hturns hpidle
    have hce : c = s.nextPool cp := by
      rw [hvturn (hby.trans hfalse) fun q hq => by
        rw [hidle, ← Option.some.inj hq]
        exact hpidle]
      exact hstart.nextPool cp
    have hde : d = s.nextPool c := by
      rw [htturn (hvby.trans (hby.trans hfalse)) fun q hq => by
        rw [(hfirst.same.fields q).2.1, hidle, ← Option.some.inj hq]
        exact hpidle]
      exact (hstart.trans hfirst.same.turns).nextPool c
    refine ⟨funext (hstart.trans (hfirst.same.turns.trans hsecond.same.turns)).nextPool, ?_⟩
    rw [htcur, hde, hce]
  · intro q hq
    rw [hfirst.prio_twice hsecond hvnum (hpools.symm ▸ hp) q (hpools ▸ hq), movedPrio, movedPrio]
    simp only [hprio]
  · intro hpriority
    refine ⟨d, htcur, ?_⟩
    rcases htfirst (hvby.trans (hby.trans hpriority)) with hf | hf
    · exact .inl hf
    · refine .inr ⟨hf.1, hf.2.trans ?_⟩
      rcases hvfirst (hby.trans hpriority) with hf' | hf'
      · refine absurd ⟨c, ?_, ?_⟩ hf.1
        · rw [hsecond.same.pools]
          exact hf'.mem
        · rw [hsecond.same.turns.unusable]
          exact hf'.usable
      · exact hf'.2

end

/-- **A switch comes to its end, and makes the right pool the current one exactly when it does
not go through the list twice with two live pools in it.** -/
theorem switchPools_well_iff (s : PoolTable) (H : s.Numbered) {cp : ℕ}
    (hcur : s.currentpool = some cp) (hcp : cp ∈ s.pools) {selected : Option ℕ}
    (hsel : ∀ p ∈ selected, p ∈ s.pools) :
    ∃ t, s.switchPools selected = some t ∧
      (SwitchesWell s selected cp t ↔ ¬ TakesTwoTurns s selected cp) := by
  cases selected with
  | none =>
      obtain ⟨t, ht, hswitch⟩ := H.switchEnabled hcur hcp hsel
      refine ⟨t, ht, iff_of_true
        (hswitch.switchesWell H rfl rfl (fun _ => rfl) (fun _ => rfl) hsel) ?_⟩
      intro htwo
      obtain ⟨-, hex, -⟩ := htwo
      obtain ⟨p, hp, -⟩ := hex
      cases hp
  | some p =>
      have hp := hsel p rfl
      rw [switchPools, enablePool]
      by_cases hen : (s.pool p).enabled = .enabled
      · rw [if_pos hen, Option.bind_some]
        obtain ⟨t, ht, hswitch⟩ := H.switchEnabled hcur hcp hsel
        refine ⟨t, ht, iff_of_true
          (hswitch.switchesWell H rfl rfl (fun _ => rfl) (fun _ => rfl) hsel) ?_⟩
        intro htwo
        obtain ⟨-, hex, -⟩ := htwo
        obtain ⟨q, hq, -, hno, -⟩ := hex
        obtain rfl := Option.some.inj hq
        exact hno hen
      · have hprio : ∀ q, ((s.setEnabled p .enabled 1).pool q).prio = (s.pool q).prio :=
          map_pool_setEnabled PoolState.prio (fun _ => rfl) s p 1
        have hidle : ∀ q, ((s.setEnabled p .enabled 1).pool q).idle = (s.pool q).idle :=
          map_pool_setEnabled PoolState.idle (fun _ => rfl) s p 1
        have hcur' : (s.setEnabled p .enabled 1).currentpool = some cp := hcur
        rw [if_neg hen]
        dsimp only
        rw [hcur']
        dsimp only
        rw [hprio, hprio]
        by_cases hlt : (s.pool p).prio < (s.pool cp).prio
        · rw [if_pos hlt]
          exact H.switch_twice hcur hcp hp hen hlt
        · rw [if_neg hlt, Option.bind_some]
          obtain ⟨t, ht, hswitch⟩ := (H.setEnabled p .enabled 1).switchEnabled hcur' hcp hsel
          refine ⟨t, ht, iff_of_true (hswitch.switchesWell H rfl rfl hprio hidle hsel) ?_⟩
          intro htwo
          obtain ⟨-, hex, -⟩ := htwo
          obtain ⟨q, hq, -, -, hqlt⟩ := hex
          obtain rfl := Option.some.inj hq
          exact hlt hqlt

/-- Four pools take turns, and the second is current; the first is idle and disabled. -/
def fourPools : PoolTable :=
  { init .roundrobin false with
    pool := fun p =>
      { PoolState.zero with
        prio := p
        poolNo := p
        enabled := if p = 0 then .disabled else .enabled
        idle := p == 0 }
    allocated := 4
    pools := [0, 1, 2, 3]
    enabledPools := 3
    currentpool := some 1 }

theorem numbered_fourPools : fourPools.Numbered where
  ranking := ⟨by decide, by decide, by decide, by decide⟩
  poolNo i p hp := by
    have hrange : fourPools.pools = List.range 4 := rfl
    rw [hrange] at hp
    obtain ⟨hlt, hget⟩ := List.getElem?_eq_some_iff.mp hp
    rw [List.getElem_range] at hget
    exact hget.symm

/-- When the first is selected, the turn of the third is passed over. -/
theorem not_switchesWell_fourPools :
    ∃ t, fourPools.switchPools (some 0) = some t ∧ ¬ SwitchesWell fourPools (some 0) 1 t := by
  have hlast : (fourPools.switchPools (some 0)).map
      (fun t => (t.currentpool, t.nextPool 1)) = some (some 3, 2) := by decide
  obtain ⟨t, ht, hpair⟩ := Option.map_eq_some_iff.mp hlast
  refine ⟨t, ht, fun H => ?_⟩
  rw [Prod.mk.injEq] at hpair
  have hturn := H.inTurn (by decide) (by decide)
  rw [hpair.1, hpair.2] at hturn
  cases hturn

/-- When none is selected, it is its turn. -/
theorem switchPools_fourPools :
    ∃ t, fourPools.switchPools none = some t ∧
      (SwitchesWell fourPools none 1 t ↔ ¬ TakesTwoTurns fourPools none 1) :=
  switchPools_well_iff fourPools numbered_fourPools rfl (by decide) (by simp)

end PoolTable

end MassGridMiner

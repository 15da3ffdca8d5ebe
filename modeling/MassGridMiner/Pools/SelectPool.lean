import MassGridMiner.Pools.LoadBalance
import MassGridMiner.Pools.Switching

/-!
# Choosing the pool for the next work

`select_pool` takes the current pool, or looks for another by the strategy.  A pool that is not
in use is probed before it is returned; if it does not answer, it has died, and the search is
begun again.  In this way a pool that works is taken for dead when it is for failover only.

## Main definitions

* `selectPass` — one way through the search, up to the probe.
* `selectPool` — the function of the source, for so many tries.
* `SelectsWell` — it returns a pool of the algorithm that works or has answered.
* `Hopeful` — there is a pool that is returned in the end.
-/

namespace MassGridMiner

namespace LoadTable

/-! ## The function -/

/-- The loop of `pool_actively_desired`. -/
def neededForMalgo (s : LoadTable) (p : ℕ) : List ℕ → Bool
  | [] => false
  | i :: rest =>
    match s.priorityPool i with
    | none => false
    | some otherPool =>
      if otherPool = p then true
      else if s.poolUnusable otherPool then neededForMalgo s p rest
      else if (s.stake otherPool).malgo = (s.stake p).malgo then false
      else neededForMalgo s p rest

/-- `pool_actively_desired`. -/
def poolActivelyDesired (s : LoadTable) (p cp : ℕ) : Bool :=
  if (s.pool p).enabled ≠ .enabled then false
  else if s.strategy = .loadbalance ∧ (s.stake p).quota ≠ 0 then true
  else if s.strategy = .balance ∧ (s.pool p).failoverOnly = false then true
  else if p = cp then true
  else s.neededForMalgo p (List.range s.totalPools)

/-- `pool_actively_in_use`. -/
def poolActivelyInUse (s : LoadTable) (p cp : ℕ) : Bool :=
  !s.poolUnworkable p && s.poolActivelyDesired p cp

/-- `select_failover`. -/
def selectFailover (s : LoadTable) (malgo : Option ℕ) : Option ℕ :=
  (List.range s.totalPools).findSome? fun i =>
    (s.priorityPool i).filter fun p => !s.otherMalgo malgo p && !s.poolUnusable p

theorem nodup_pools (s : LoadTable) : s.pools.Nodup := s.nodup

/-- `select_balanced`, which counts a share. -/
def countBalanced (s : LoadTable) (cp : ℕ) (malgo : Option ℕ) : LoadTable :=
  { s with
    stake := (s.balancedPool cp malgo).elim s.stake fun p => (s.toQuotaTable.countShare p).stake
    nodup := s.nodup_pools }

/-- `select_pool` from `simple_failover` on, with `pool`; NULL is `none`. -/
def simpleFailover (s : LoadTable) (cp : ℕ) (malgo pool : Option ℕ) : Option ℕ :=
  match pool with
  | some p => some p
  | none =>
    match s.selectFailover malgo with
    | some p => some p
    | none => if s.otherMalgo malgo cp then none else some cp

/-- `select_pool` from `retry` to `out`, with what `pool` is left from the try before. -/
def pick (s : LoadTable) (lagging : Bool) (malgo pool : Option ℕ) (cp : ℕ) :
    Option (Option ℕ × LoadTable) :=
  if s.strategy = .balance then
    let pool := s.balancedPool cp malgo
    let s := s.countBalanced cp malgo
    match pool.filter fun p => !s.poolUnworkable p with
    | some p => some (some p, s)
    | none => some (s.simpleFailover cp malgo pool, s)
  else if s.strategy ≠ .loadbalance ∧ (lagging = false ∨ s.optFailOnly = true) then
    if s.otherMalgo malgo cp then some (s.simpleFailover cp malgo pool, s)
    else some (some cp, s)
  else
    (s.selectLoadbalance malgo).map fun r => (r.2.simpleFailover cp malgo r.1, r.2)

/-- What a try comes to: NULL is returned, or a pool that is in use, or one is probed. -/
inductive Selection
  | failed
  | inUse (pool : ℕ)
  | probe (pool : ℕ)
  deriving DecidableEq

/-- A try of `select_pool`, up to the probe.  It is undefined without a current pool, and where
it divides by zero. -/
def selectPass (s : LoadTable) (lagging : Bool) (malgo pool : Option ℕ) :
    Option (Selection × LoadTable) :=
  s.currentpool.bind fun cp =>
    (s.pick lagging malgo pool cp).map fun r =>
      (r.1.elim .failed fun p => if r.2.poolActivelyInUse p cp then .inUse p else .probe p, r.2)

/-- Other pools are written to, and the same are listed. -/
def withTable (s : LoadTable) (t : PoolTable) (h : t.pools = s.pools) : LoadTable :=
  { s with
    toPoolTable := t
    nodup := h ▸ s.nodup
    rotating_lt := h ▸ s.rotating_lt }

/-- A pool is set idle, or is not idle any more. -/
def setIdle (s : LoadTable) (p : ℕ) (idle : Bool) : LoadTable :=
  s.withTable (s.modify p fun pool => { pool with idle }) rfl

/-- `pool_died`. -/
def poolDied (s : LoadTable) (p : ℕ) : Option LoadTable :=
  if (s.pool p).idle then some s
  else
    let s := s.setIdle p true
    if s.currentpool = some p then
      (s.switchPools none).bind fun t =>
        if h : t.pools = s.pools then some (s.withTable t h) else none
    else some s

/-- The pools are in order, and one of them is current. -/
structure Ready (s : LoadTable) : Prop where
  numbered : s.Numbered
  current : ∃ cp ∈ s.pools, s.currentpool = some cp

/-- Where an algorithm is asked for by quota, the pool has some left, and none of the algorithm
has a quota of zero. -/
def QuotaGiven (s : LoadTable) (malgo : Option ℕ) (w : ℕ) : Prop :=
  ∀ m ∈ malgo, s.startRound.quotaLeft w = true ∧
    ∀ q ∈ s.pools, (s.stake q).malgo = m → s.quotaGcd q ≠ 0

/-- The pool is in use as long as it works. -/
def Desired (s : LoadTable) (w : ℕ) : Prop :=
  ∃ cp, s.currentpool = some cp ∧ s.poolActivelyDesired w cp = true

/-! ## What is judged of pools -/

section
variable {s t u : LoadTable} {malgo : Option ℕ} {p q w cp : ℕ}

/-- The tables agree on all that pools are judged by, but for their uses and shares. -/
structure Alike (s t : LoadTable) : Prop where
  table : t.toPoolTable = s.toPoolTable
  quota : ∀ p, (t.stake p).quota = (s.stake p).quota
  quotaGcd : ∀ p, (t.stake p).quotaGcd = (s.stake p).quotaGcd
  malgo : ∀ p, (t.stake p).malgo = (s.stake p).malgo
  stratumActive : ∀ p, (t.stake p).stratumActive = (s.stake p).stratumActive

theorem Alike.refl (s : LoadTable) : Alike s s :=
  ⟨rfl, fun _ => rfl, fun _ => rfl, fun _ => rfl, fun _ => rfl⟩

theorem Alike.trans (H : Alike s t) (H' : Alike t u) : Alike s u :=
  ⟨H'.table.trans H.table, fun p => (H'.quota p).trans (H.quota p),
    fun p => (H'.quotaGcd p).trans (H.quotaGcd p), fun p => (H'.malgo p).trans (H.malgo p),
    fun p => (H'.stratumActive p).trans (H.stratumActive p)⟩

theorem Alike.withUsed (s : LoadTable) (used : ℕ → ℤ) : Alike s (s.withUsed used) :=
  ⟨rfl, fun _ => rfl, fun _ => rfl, fun _ => rfl, fun _ => rfl⟩

theorem Alike.rotate (s : LoadTable) : Alike s s.rotate :=
  ⟨rfl, fun _ => rfl, fun _ => rfl, fun _ => rfl, fun _ => rfl⟩

theorem Alike.startRound (s : LoadTable) : Alike s s.startRound := by
  rw [LoadTable.startRound]
  split
  next => exact .refl s
  next => exact (Alike.withUsed s _).trans (.rotate _)

theorem Alike.restoreRotating (s : LoadTable) (rpsave : ℕ) :
    Alike s (s.restoreRotating rpsave) := by
  rw [LoadTable.restoreRotating]
  split
  next => exact ⟨rfl, fun _ => rfl, fun _ => rfl, fun _ => rfl, fun _ => rfl⟩
  next => exact .refl s

theorem Alike.countBalanced (s : LoadTable) (cp : ℕ) (malgo : Option ℕ) :
    Alike s (s.countBalanced cp malgo) := by
  have hstake : ∀ {γ : Type} (π : PoolStake → γ),
      (∀ x : PoolStake, π { x with shares := x.shares + 1 } = π x) →
        ∀ p, π ((s.countBalanced cp malgo).stake p) = π (s.stake p) := by
    intro γ π hπ p
    rw [LoadTable.countBalanced]
    cases s.balancedPool cp malgo with
    | none => rfl
    | some q => exact map_update π (hπ (s.stake q)) p
  exact ⟨rfl, hstake _ fun _ => rfl, hstake _ fun _ => rfl, hstake _ fun _ => rfl,
    hstake _ fun _ => rfl⟩

theorem Alike.poolUnworkable (H : Alike s t) (p : ℕ) : t.poolUnworkable p = s.poolUnworkable p := by
  rw [QuotaTable.poolUnworkable, H.table, H.stratumActive]
  rfl

theorem Alike.otherMalgo (H : Alike s t) (malgo : Option ℕ) (p : ℕ) :
    t.otherMalgo malgo p = s.otherMalgo malgo p := by
  simp only [QuotaTable.otherMalgo, H.malgo]

theorem Alike.serves (H : Alike s t) (hw : s.Serves malgo w) : t.Serves malgo w where
  mem := by
    rw [H.table]
    exact hw.mem
  malgo m hm := (H.malgo w).trans (hw.malgo m hm)
  workable := (H.poolUnworkable w).trans hw.workable

theorem Alike.ready (H : Alike s t) (hs : s.Ready) : t.Ready := by
  refine ⟨?_, ?_⟩
  · rw [H.table]
    exact hs.numbered
  · rw [H.table]
    exact hs.current

theorem Alike.neededForMalgo (H : Alike s t) (p : ℕ) (choices : List ℕ) :
    t.neededForMalgo p choices = s.neededForMalgo p choices := by
  induction choices with
  | nil => rfl
  | cons i choices ih => simp only [LoadTable.neededForMalgo, H.table, H.malgo, ih]

theorem Alike.poolActivelyDesired (H : Alike s t) (p cp : ℕ) :
    t.poolActivelyDesired p cp = s.poolActivelyDesired p cp := by
  simp only [LoadTable.poolActivelyDesired, H.table, H.quota, H.neededForMalgo]

theorem Alike.desired (H : Alike s t) (hw : s.Desired w) : t.Desired w := by
  obtain ⟨cp, hcp, hdesired⟩ := hw
  refine ⟨cp, ?_, (H.poolActivelyDesired w cp).trans hdesired⟩
  rw [H.table]
  exact hcp

theorem Alike.selectFailover (H : Alike s t) (malgo : Option ℕ) :
    t.selectFailover malgo = s.selectFailover malgo := by
  simp only [LoadTable.selectFailover, H.table, H.otherMalgo]

/-! ## Priority -/

/-- A pool that works is usable. -/
theorem poolUnusable_of_workable (H : s.poolUnworkable p = false) : s.poolUnusable p = false := by
  rw [QuotaTable.poolUnworkable, Bool.or_eq_false_iff] at H
  exact H.1

theorem Ready.priorityPool (H : s.Ready) (hp : p ∈ s.pools) :
    s.priorityPool (s.pool p).prio.toNat = some p ∧ (s.pool p).prio.toNat < s.totalPools := by
  have hnonneg := H.numbered.ranking.nonneg p hp
  have hlt := H.numbered.ranking.lt_length p hp
  have hi : (s.pool p).prio.toNat < s.pools.length := by omega
  obtain ⟨q, hq, hprio, hpool⟩ := H.numbered.exists_priorityPool hi
  refine ⟨?_, hi⟩
  rw [hpool, H.numbered.ranking.inj q hq p hp (by rw [hprio]; omega)]

theorem of_selectFailover (H : s.selectFailover malgo = some p) :
    p ∈ s.pools ∧ s.otherMalgo malgo p = false ∧ s.poolUnusable p = false := by
  obtain ⟨i, -, hi⟩ := List.exists_of_findSome?_eq_some H
  obtain ⟨hpool, hgood⟩ := Option.filter_eq_some_iff.mp hi
  rw [Bool.and_eq_true, Bool.not_eq_true', Bool.not_eq_true'] at hgood
  exact ⟨PoolTable.mem_of_priorityPool hpool, hgood⟩

/-! ## By quota -/

theorem rotating_mem (s : LoadTable) : s.rotating ∈ s.pools := List.get_mem _ _

/-- The search changes the uses only, and once a pool is the lowest, one is found. -/
theorem search_spec {turns : ℕ} {poolLowest r : Option ℕ} {lowest : ℤ}
    (H : search malgo turns u poolLowest lowest = some (r, t)) :
    Alike u t ∧ (poolLowest.isSome = true → r.isSome = true) := by
  induction turns generalizing u poolLowest lowest with
  | zero =>
      obtain ⟨rfl, rfl⟩ := Prod.mk.inj (Option.some.inj H)
      exact ⟨.refl u, id⟩
  | succ turns ih =>
      rw [search] at H
      dsimp only at H
      by_cases hother : u.otherMalgo malgo u.rotating = true
      · rw [if_pos hother] at H
        exact ⟨(Alike.rotate u).trans (ih H).1, (ih H).2⟩
      rw [if_neg hother] at H
      by_cases htaken : (u.quotaLeft u.rotating && !u.poolUnworkable u.rotating) = true
      · rw [if_pos htaken] at H
        obtain ⟨rfl, rfl⟩ := Prod.mk.inj (Option.some.inj H)
        exact ⟨.withUsed u _, fun _ => rfl⟩
      rw [if_neg htaken] at H
      obtain ⟨used, hused⟩ := exists_withUsed_giveBack u u.rotating
      rw [hused] at H
      have hnext : Alike u (u.withUsed used).rotate := (Alike.withUsed u used).trans (.rotate _)
      split at H
      next =>
        split at H
        next => cases H
        next =>
          split at H
          next => exact ⟨hnext.trans (ih H).1, fun _ => (ih H).2 rfl⟩
          next => exact ⟨hnext.trans (ih H).1, (ih H).2⟩
      next => exact ⟨hnext.trans (ih H).1, (ih H).2⟩

/-- When a pool is passed, no other is used more. -/
theorem quotaUsed_pass_le (u : LoadTable) (hq : q ≠ p) :
    (if u.quotaLeft p then (u.addUsed p 1).giveBack else u).quotaUsed q ≤ u.quotaUsed q := by
  split
  next =>
    rw [quotaUsed_giveBack, quotaUsed_addUsed, if_neg hq, add_zero]
    split <;> omega
  next => exact le_rfl

/-- In a new round the loop takes as many turns as there are pools. -/
theorem length_rotation_startRound (s : LoadTable) :
    s.startRound.rotation.length = s.totalPools := by
  rw [length_rotation, (Alike.startRound s).table]

/-- A pool of the algorithm has been picked.  It is usable, or else the current one, which had
no more shares than the pool that serves and has been counted one more. -/
structure Picked (s : LoadTable) (malgo : Option ℕ) (w cp p : ℕ) (t : LoadTable) : Prop where
  alike : Alike s t
  mem : p ∈ s.pools
  ours : s.otherMalgo malgo p = false
  progress : s.poolUnusable p = false ∨ p = cp ∧ p ≠ w ∧
    (s.stake cp).shares ≤ (s.stake w).shares ∧
    (t.stake cp).shares = (s.stake cp).shares + 1 ∧ (t.stake w).shares = (s.stake w).shares
  quota : p = w ∨ s.strategy = .balance ∨ t.QuotaGiven malgo w

/-- What a pool keeps when it dies, or becomes current. -/
def lasting (pool : PoolState) : ℤ × ℕ × PoolEnable × Bool × Bool :=
  (pool.prio, pool.poolNo, pool.enabled, pool.failoverOnly, pool.hasStratum)

/-- A pool has died: it is idle, and another may be current if it was. -/
structure Died (s : LoadTable) (p : ℕ) (t : LoadTable) : Prop where
  pools : t.pools = s.pools
  stake : t.stake = s.stake
  strategy : t.strategy = s.strategy
  optFailOnly : t.optFailOnly = s.optFailOnly
  lasting : ∀ q, lasting (t.pool q) = LoadTable.lasting (s.pool q)
  idle : ∀ q, (t.pool q).idle = ((s.pool q).idle || q == p)
  current : ∃ cp ∈ t.pools, t.currentpool = some cp
  same : s.currentpool ≠ some p → t.currentpool = s.currentpool
  eq_of_idle : (s.pool p).idle = true → t = s

/-- `switch_pools` makes a listed pool current. -/
theorem Ready.exists_switchPools (H : s.Ready) :
    ∃ cp c, c ∈ s.pools ∧ s.switchPools none = some (s.makeCurrent cp c) := by
  obtain ⟨cp, hcp, hcur⟩ := H.current
  have hnone : ∀ p ∈ (none : Option ℕ), p ∈ s.pools := fun p hp => by cases hp
  obtain ⟨pool, hpool, c, hc, hceq, -⟩ := H.numbered.choosePool_spec hcp hnone
  refine ⟨cp, c, hc, ?_⟩
  rw [PoolTable.switchPools, PoolTable.switchEnabled, hcur]
  dsimp only [Option.elim_none]
  rw [hpool]
  dsimp only
  rw [← hceq]

/-- Another pool works as before. -/
theorem Died.serves (H : Died s p t) (hw : s.Serves malgo w) (hne : w ≠ p) : t.Serves malgo w := by
  have hlasting := H.lasting w
  simp only [LoadTable.lasting, Prod.mk.injEq] at hlasting
  refine ⟨?_, ?_, ?_⟩
  · rw [H.pools]
    exact hw.mem
  · rw [H.stake]
    exact hw.malgo
  · rw [QuotaTable.poolUnworkable, hlasting.2.2.1, hlasting.2.2.2.2, H.idle, H.stake,
      beq_eq_false_iff_ne.mpr hne, Bool.or_false]
    exact hw.workable

theorem Died.priorityPool (H : Died s p t) (choice : ℕ) :
    t.priorityPool choice = s.priorityPool choice := by
  have hprio : ∀ q, (t.pool q).prio = (s.pool q).prio := fun q =>
    congrArg Prod.fst (H.lasting q)
  simp only [PoolTable.priorityPool, H.pools, hprio]

/-- A pool that is needed for its algorithm is needed the more. -/
theorem Died.neededForMalgo (H : Died s p t) {choices : List ℕ}
    (hneeded : s.neededForMalgo w choices = true) : t.neededForMalgo w choices = true := by
  induction choices with
  | nil => cases hneeded
  | cons i choices ih =>
      have hen : ∀ q, (t.pool q).enabled = (s.pool q).enabled := fun q =>
        congrArg (fun x => x.2.2.1) (H.lasting q)
      rw [LoadTable.neededForMalgo] at hneeded ⊢
      rw [H.priorityPool]
      cases hpool : s.priorityPool i with
      | none =>
          rw [hpool] at hneeded
          cases hneeded
      | some q =>
          rw [hpool] at hneeded
          dsimp only at hneeded ⊢
          by_cases hqw : q = w
          · rw [if_pos hqw]
          rw [if_neg hqw] at hneeded ⊢
          by_cases hunusable : s.poolUnusable q = true
          · rw [if_pos hunusable] at hneeded
            have hstill : t.poolUnusable q = true := by
              rw [PoolTable.poolUnusable, hen, H.idle]
              rw [PoolTable.poolUnusable, Bool.or_eq_true] at hunusable
              rcases hunusable with h | h <;> simp [h]
            rw [if_pos hstill]
            exact ih hneeded
          · rw [if_neg hunusable] at hneeded
            rw [H.stake]
            by_cases hsame : (s.stake q).malgo = (s.stake w).malgo
            · rw [if_pos hsame] at hneeded
              cases hneeded
            · rw [if_neg hsame] at hneeded ⊢
              split
              next => exact ih hneeded
              next => exact ih hneeded

/-- Another pool is in use as before. -/
theorem Died.desired (H : Died s p t) (hw : s.Desired w) (hne : w ≠ p) : t.Desired w := by
  obtain ⟨cp, hcp, hdesired⟩ := hw
  obtain ⟨cp', -, hcp'⟩ := H.current
  have hlasting := H.lasting w
  simp only [LoadTable.lasting, Prod.mk.injEq] at hlasting
  refine ⟨cp', hcp', ?_⟩
  have htotal : t.totalPools = s.totalPools := congrArg List.length H.pools
  rw [poolActivelyDesired] at hdesired ⊢
  rw [hlasting.2.2.1, hlasting.2.2.2.1, H.strategy, H.stake, htotal]
  by_cases hen : (s.pool w).enabled ≠ .enabled
  · rw [if_pos hen] at hdesired
    cases hdesired
  rw [if_neg hen] at hdesired ⊢
  by_cases hload : s.strategy = .loadbalance ∧ (s.stake w).quota ≠ 0
  · rw [if_pos hload]
  rw [if_neg hload] at hdesired ⊢
  by_cases hbalance : s.strategy = .balance ∧ (s.pool w).failoverOnly = false
  · rw [if_pos hbalance]
  rw [if_neg hbalance] at hdesired ⊢
  by_cases hcur : w = cp
  · -- it is the current pool, and stays so
    have hsame := H.same (by rw [hcp]; exact fun h => hne (hcur.trans (Option.some.inj h)))
    rw [hcp', hcp, Option.some.injEq] at hsame
    rw [if_pos (hcur.trans hsame.symm)]
  · rw [if_neg hcur] at hdesired
    split
    next => rfl
    next => exact H.neededForMalgo hdesired

/-! ## The search comes to an end -/

/-- There is a pool that is returned in the end, if no other is: it works and is in use, or every
probe of it is answered; and if it is asked for by quota, it has some. -/
structure Hopeful (s : LoadTable) (lagging : Bool) (malgo : Option ℕ) (poolActive : ℕ → ℕ → Bool)
    (w : ℕ) : Prop where
  serves : s.Serves malgo w
  alive : s.Desired w ∨ ∀ k, poolActive k w = true
  quota : s.strategy = .balance ∨ s.QuotaGiven malgo w

/-- How many pools may still die. -/
def livePools (s : LoadTable) : ℕ := s.pools.countP fun p => !(s.pool p).idle

/-- How many shares the current pool may still be counted before it has more than another. -/
def sharesLeft (s : LoadTable) (w : ℕ) : ℕ :=
  (s.currentpool.elim 0 fun cp => (s.stake w).shares - (s.stake cp).shares + 1).toNat

theorem Died.quotaGiven (H : Died s p t) (hw : s.QuotaGiven malgo w) : t.QuotaGiven malgo w := by
  intro m hm
  obtain ⟨hleft, hgcd⟩ := hw m hm
  have hused : t.quotaUsed = s.quotaUsed := by
    funext q
    exact congrArg (fun stake => (stake q).quotaUsed) H.stake
  have hgcd' : t.quotaGcd = s.quotaGcd := by
    funext q
    exact congrArg (fun stake => (stake q).quotaGcd) H.stake
  have hquota : t.quotaLeft = s.quotaLeft := by
    funext q
    rw [LoadTable.quotaLeft, LoadTable.quotaLeft, hused, hgcd']
  have hround : t.startRound.quotaUsed w = s.startRound.quotaUsed w := by
    rw [startRound, startRound, hquota, H.pools]
    split
    next => rw [hused]
    next =>
      rw [quotaUsed_rotate, quotaUsed_rotate, quotaUsed_withUsed, quotaUsed_withUsed, hused, hgcd']
  have hroundGcd : t.startRound.quotaGcd w = s.startRound.quotaGcd w := by
    rw [quotaGcd, quotaGcd, (Alike.startRound t).quotaGcd, (Alike.startRound s).quotaGcd, H.stake]
  rw [LoadTable.quotaLeft, hround, hroundGcd, H.pools, hgcd', H.stake]
  exact ⟨hleft, hgcd⟩

/-- One item less is counted. -/
theorem countP_lt_of_mem {l : List ℕ} {f g : ℕ → Bool} (hp : p ∈ l) (hf : f p = true)
    (hg : g p = false) (hle : ∀ q ∈ l, g q = true → f q = true) : l.countP g < l.countP f := by
  obtain ⟨before, behind, rfl⟩ := List.append_of_mem hp
  have hbefore := List.countP_mono_left (p := g) (q := f) (l := before) fun q hq =>
    hle q (List.mem_append_left _ hq)
  have hbehind := List.countP_mono_left (p := g) (q := f) (l := behind) fun q hq =>
    hle q (List.mem_append_right _ (List.mem_cons_of_mem _ hq))
  rw [List.countP_append, List.countP_append, List.countP_cons_of_pos hf,
    List.countP_cons_of_neg (by simp [hg])]
  omega

/-- When the pool that is probed has died, there is still hope, and less that may die, or fewer
shares to count. -/
theorem Picked.died {lagging : Bool} {poolActive : ℕ → ℕ → Bool}
    (H : Picked s malgo w cp p t) (hcur : s.currentpool = some cp)
    (hw : s.Hopeful lagging malgo poolActive w) (hne : p ≠ w) (hdied : Died t p u) :
    u.Hopeful lagging malgo poolActive w ∧
      (u.livePools < s.livePools ∨
        u.livePools = s.livePools ∧ u.sharesLeft w < s.sharesLeft w) := by
  have hlive : t.livePools = s.livePools := by rw [livePools, livePools, H.alike.table]
  refine ⟨⟨hdied.serves (H.alike.serves hw.serves) hne.symm, ?_, ?_⟩, ?_⟩
  · exact hw.alive.imp_left fun h => hdied.desired (H.alike.desired h) hne.symm
  · rcases H.quota with heq | hbalance | hquota
    · exact absurd heq hne
    · left
      rw [hdied.strategy, H.alike.table]
      exact hbalance
    · exact .inr (hdied.quotaGiven hquota)
  · by_cases hidle : (t.pool p).idle = true
    · -- only the current pool is chosen when it is idle
      right
      rcases H.progress with husable | ⟨rfl, -, hle, hcount, hsame⟩
      · rw [PoolTable.poolUnusable, ← H.alike.table, hidle] at husable
        cases husable
      obtain rfl := hdied.eq_of_idle hidle
      rw [sharesLeft, sharesLeft, H.alike.table, hcur, Option.elim_some, Option.elim_some, hcount,
        hsame]
      exact ⟨hlive, by omega⟩
    · left
      rw [← hlive, livePools, livePools, hdied.pools]
      have hp : p ∈ t.pools := by
        rw [H.alike.table]
        exact H.mem
      refine countP_lt_of_mem hp (by simp [hidle]) (by simp [hdied.idle]) fun q _ hq => ?_
      rw [hdied.idle, Bool.not_eq_true', Bool.or_eq_false_iff] at hq
      rw [hq.1]
      rfl

end

end LoadTable

end MassGridMiner

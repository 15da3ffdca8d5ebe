import MassGridMiner.Pools.Table

/-!
# Enabling and switching

A pool is enabled, disabled or selected, and by that another may become the current one.  The
priorities stay a ranking of the listed pools, and those that are enabled stay counted.

## Main definitions

* `PoolTable.Inv` — the pools are in order.
* `PoolTable.SamePools` — a change of nothing but priorities.
* `Inv.switchPools`, `Inv.enablePool`, `Inv.disablePool` — the calls keep them in order.
* `Inv.exists_switchPools`, `Inv.exists_enablePool`, `Inv.exists_disablePool` — while there is a
  current pool, the calls come to an end.
-/

namespace MassGridMiner

namespace PoolTable

/-- `enabled_pools` is how many of the listed pools are enabled. -/
def Counted (s : PoolTable) : Prop :=
  s.enabledPools = s.pools.countP fun p => (s.pool p).enabled == .enabled

/-- The pools are in order, the current one is listed, and one that is not listed is disabled. -/
structure Inv (s : PoolTable) : Prop where
  ranking : IsRanking s.pools fun p => (s.pool p).prio
  poolNo : ∀ i p, s.pools[i]? = some p → (s.pool p).poolNo = i
  counted : s.Counted
  current : ∀ c, s.currentpool = some c → c ∈ s.pools
  listed : ∀ p ∈ s.pools, p < s.allocated
  unlisted : ∀ p, p ∉ s.pools → (s.pool p).enabled = .disabled

/-! ## Changes of priorities only -/

/-- The same pools are listed under the same numbers and enabled, and a listed one becomes
current, if another does. -/
structure SamePools (s s' : PoolTable) : Prop where
  pools : s'.pools = s.pools
  allocated : s'.allocated = s.allocated
  enabledPools : s'.enabledPools = s.enabledPools
  poolNo : ∀ p, (s'.pool p).poolNo = (s.pool p).poolNo
  enabled : ∀ p, (s'.pool p).enabled = (s.pool p).enabled
  current : ∀ c, s'.currentpool = some c → c ∈ s.pools ∨ s.currentpool = some c

section
variable {s s' s'' : PoolTable} {p : ℕ}

theorem SamePools.refl (s : PoolTable) : SamePools s s :=
  ⟨rfl, rfl, rfl, fun _ => rfl, fun _ => rfl, fun _ => .inr⟩

theorem SamePools.trans (H : SamePools s s') (H' : SamePools s' s'') : SamePools s s'' where
  pools := H'.pools.trans H.pools
  allocated := H'.allocated.trans H.allocated
  enabledPools := H'.enabledPools.trans H.enabledPools
  poolNo p := (H'.poolNo p).trans (H.poolNo p)
  enabled p := (H'.enabled p).trans (H.enabled p)
  current c hc := by
    rcases H'.current c hc with hmem | hcur
    · exact .inl (H.pools ▸ hmem)
    · exact H.current c hcur

theorem SamePools.counted (H : SamePools s s') : s'.Counted ↔ s.Counted := by
  simp only [Counted, H.enabledPools, H.pools, H.enabled]

theorem SamePools.inv (hsame : SamePools s s') (H : s.Inv)
    (hranking : IsRanking s.pools fun p => (s'.pool p).prio) : s'.Inv where
  ranking := by
    rw [hsame.pools]
    exact hranking
  poolNo i p hp := by
    rw [hsame.pools] at hp
    exact (hsame.poolNo p).trans (H.poolNo i p hp)
  counted := hsame.counted.mpr H.counted
  current c hc := by
    rw [hsame.pools]
    exact (hsame.current c hc).elim id (H.current c)
  listed p hp := by
    rw [hsame.pools] at hp
    exact hsame.allocated ▸ H.listed p hp
  unlisted p hp := by
    rw [hsame.pools] at hp
    exact (hsame.enabled p).trans (H.unlisted p hp)

theorem map_pool_modify {γ : Type*} (π : PoolState → γ) {f : PoolState → PoolState}
    (H : ∀ x, π (f x) = π x) (s : PoolTable) (p q : ℕ) :
    π ((s.modify p f).pool q) = π (s.pool q) := map_update π (H _) q

theorem SamePools.modify (s : PoolTable) (p : ℕ) {f : PoolState → PoolState}
    (hno : ∀ x, (f x).poolNo = x.poolNo) (hen : ∀ x, (f x).enabled = x.enabled) :
    SamePools s (s.modify p f) :=
  ⟨rfl, rfl, rfl, map_pool_modify _ hno s p, map_pool_modify _ hen s p, fun _ => .inr⟩

theorem SamePools.forPools (s : PoolTable) {f : PoolState → PoolState}
    (hno : ∀ x, (f x).poolNo = x.poolNo) (hen : ∀ x, (f x).enabled = x.enabled) :
    SamePools s (s.forPools f) :=
  ⟨rfl, rfl, rfl, map_updateAll hno s.pools s.pool, map_updateAll hen s.pools s.pool,
    fun _ => .inr⟩

theorem prio_modify_prio (s : PoolTable) (p q : ℕ) (k : ℤ) :
    ((s.modify p fun pool => { pool with prio := k }).pool q).prio =
      if q = p then k else (s.pool q).prio := by
  by_cases hq : q = p
  · subst hq
    rw [if_pos rfl]
    exact congrArg PoolState.prio (Function.update_self q _ s.pool)
  · rw [if_neg hq]
    exact congrArg PoolState.prio (Function.update_of_ne hq _ s.pool)

theorem pool_forPools {f : PoolState → PoolState} (hnodup : s.pools.Nodup) (hp : p ∈ s.pools) :
    (s.forPools f).pool p = f (s.pool p) := updateAll_of_mem hnodup hp

theorem samePools_moveDown (s : PoolTable) (p : ℕ) : SamePools s (s.moveDown p) := by
  rw [moveDown]
  split
  next =>
    refine (SamePools.forPools s ?_ ?_).trans (SamePools.modify _ p (fun _ => rfl) fun _ => rfl)
    all_goals
      intro x
      split <;> rfl
  next => exact .refl s

/-- The selected pool comes first, and those that were before it make room. -/
theorem prio_moveDown (H : IsRanking s.pools fun q => (s.pool q).prio) (p : ℕ)
    {q : ℕ} (hq : q ∈ s.pools) : ((s.moveDown p).pool q).prio =
      if q = p then 0 else if (s.pool q).prio < (s.pool p).prio then (s.pool q).prio + 1
        else (s.pool q).prio := by
  rw [moveDown]
  split
  next =>
    rw [prio_modify_prio]
    split
    next => rfl
    next =>
      rw [pool_forPools H.nodup hq]
      split <;> rfl
  next hfirst =>
    have hzero : (s.pool p).prio = 0 := by simpa using hfirst
    have hnonneg := H.nonneg q hq
    split
    next heq => rw [heq, hzero]
    next => rw [if_neg (by omega)]

theorem ranking_moveDown (H : IsRanking s.pools fun q => (s.pool q).prio) (hp : p ∈ s.pools) :
    IsRanking s.pools fun q => ((s.moveDown p).pool q).prio :=
  (H.toFront hp).congr .rfl fun _ hq => prio_moveDown H p hq

/-! ## The current pool -/

theorem mem_of_cyclePools {poolNo turns nextPool : ℕ} {failoverPool : Option ℕ}
    (H : ∀ p ∈ failoverPool, p ∈ s.pools) :
    ∀ p ∈ (s.cyclePools poolNo turns nextPool failoverPool).2, p ∈ s.pools := by
  induction turns generalizing nextPool failoverPool with
  | zero => exact H
  | succ turns ih =>
      rw [cyclePools]
      split
      next => exact H
      next p hp =>
        have hmem : p ∈ s.pools := List.mem_of_getElem? hp
        split
        next => exact ih H
        next =>
          split
          next =>
            refine ih fun q hq => ?_
            obtain rfl : failoverPool.getD p = q := Option.some.inj hq
            cases failoverPool with
            | none => exact hmem
            | some r => exact H r rfl
          next => exact H

/-- The pool for failover is listed. -/
theorem mem_of_choosePool {selected : Option ℕ} {poolNo : ℕ} :
    ∀ p ∈ (s.choosePool selected poolNo).2, p ∈ s.pools := by
  rw [choosePool]
  split
  iterate 3 exact fun _ hp => nomatch hp
  all_goals
    split
    next => exact fun _ hp => nomatch hp
    next => exact mem_of_cyclePools fun _ hp => nomatch hp

theorem samePools_makeCurrent (lastPool : ℕ) (hp : p ∈ s.pools) :
    SamePools s (s.makeCurrent lastPool p) := by
  have hmodify : SamePools s (s.modify p fun pool =>
      { pool with
        lagging := pool.lagging || s.optFailOnly
        blockId := if p = lastPool then pool.blockId else 0 }) :=
    SamePools.modify s p (fun _ => rfl) fun _ => rfl
  refine { hmodify with current := fun c hc => ?_ }
  obtain rfl := Option.some.inj hc
  exact .inl hp

theorem prio_makeCurrent (s : PoolTable) (lastPool p q : ℕ) :
    ((s.makeCurrent lastPool p).pool q).prio = (s.pool q).prio :=
  map_update PoolState.prio (by rfl) q

/-- `switch_pools` makes another pool the current one, and moves the selected one to the
front. -/
theorem switchEnabled_spec {selected : Option ℕ} (H : s.switchEnabled selected = some s') :
    SamePools s s' ∧ ∀ q, (s'.pool q).prio = ((selected.elim s s.moveDown).pool q).prio := by
  rw [switchEnabled] at H
  split at H
  next => cases H
  next lastPool hlast =>
    have hmoved : SamePools s (selected.elim s s.moveDown) := by
      cases selected with
      | none => exact .refl s
      | some p => exact samePools_moveDown s p
    dsimp only at H
    generalize selected.elim s s.moveDown = t at H hmoved ⊢
    have hfailover : ∀ q ∈ (t.choosePool selected (s.pool lastPool).poolNo).2, q ∈ t.pools :=
      mem_of_choosePool
    generalize t.choosePool selected (s.pool lastPool).poolNo = chosen at H hfailover
    obtain ⟨poolNo, failoverPool⟩ := chosen
    dsimp only at H hfailover
    split at H
    next => cases H
    next pool hpool =>
      obtain rfl := Option.some.inj H
      refine ⟨hmoved.trans (samePools_makeCurrent lastPool ?_), prio_makeCurrent t lastPool _⟩
      have hmem : pool ∈ t.pools := List.mem_of_getElem? hpool
      split
      next =>
        cases failoverPool with
        | none => exact hmem
        | some q => exact hfailover q rfl
      next => exact hmem

theorem Inv.switchEnabled (H : s.Inv) {selected : Option ℕ} (hsel : ∀ p ∈ selected, p ∈ s.pools)
    (hs : s.switchEnabled selected = some s') : s'.Inv := by
  obtain ⟨hsame, hprio⟩ := switchEnabled_spec hs
  refine hsame.inv H ?_
  simp only [hprio]
  cases selected with
  | none => exact H.ranking
  | some p => exact ranking_moveDown H.ranking (hsel p rfl)

theorem Inv.poolNo_lt (H : s.Inv) (hp : p ∈ s.pools) : (s.pool p).poolNo < s.totalPools := by
  obtain ⟨i, hi⟩ := List.getElem?_of_mem hp
  rw [H.poolNo i p hi]
  exact (List.getElem?_eq_some_iff.mp hi).1

theorem mem_of_priorityPool {choice : ℕ} (H : s.priorityPool choice = some p) : p ∈ s.pools := by
  rw [priorityPool] at H
  split at H
  next q hq =>
    obtain rfl := Option.some.inj H
    exact List.mem_of_find?_eq_some hq
  next => exact List.mem_of_getElem? H

theorem Inv.failoverNo_lt (H : s.Inv) {poolNo : ℕ} (hno : poolNo < s.totalPools)
    (choices : List ℕ) : s.failoverNo poolNo choices < s.totalPools := by
  induction choices with
  | nil => exact hno
  | cons i rest ih =>
      rw [failoverNo]
      split
      next => exact hno
      next p hp =>
        split
        next => exact ih
        next => exact H.poolNo_lt (mem_of_priorityPool hp)

theorem cyclePools_lt {poolNo : ℕ} (hno : poolNo < s.totalPools) (turns nextPool : ℕ)
    (failoverPool : Option ℕ) :
    (s.cyclePools poolNo turns nextPool failoverPool).1 < s.totalPools := by
  induction turns generalizing nextPool failoverPool with
  | zero => exact hno
  | succ turns ih =>
      rw [cyclePools]
      split
      next => exact hno
      next p hp =>
        split
        next => exact ih _ _
        next =>
          split
          next => exact ih _ _
          next => exact (List.getElem?_eq_some_iff.mp hp).1

/-- Whatever the strategy, the number is that of a listed pool. -/
theorem Inv.choosePool_lt (H : s.Inv) {selected : Option ℕ} (hsel : ∀ p ∈ selected, p ∈ s.pools)
    {poolNo : ℕ} (hno : poolNo < s.totalPools) :
    (s.choosePool selected poolNo).1 < s.totalPools := by
  rw [choosePool]
  split
  iterate 3 exact H.failoverNo_lt hno _
  all_goals
    split
    next p hp => exact H.poolNo_lt (hsel p (Option.filter_eq_some_iff.mp hp).1)
    next => exact cyclePools_lt hno _ _ _

theorem Inv.moveDown (H : s.Inv) (hp : p ∈ s.pools) : (s.moveDown p).Inv :=
  (samePools_moveDown s p).inv H (ranking_moveDown H.ranking hp)

/-- While there is a current pool, another one is found. -/
theorem Inv.exists_switchEnabled (H : s.Inv) {cp : ℕ} (hcp : s.currentpool = some cp)
    {selected : Option ℕ} (hsel : ∀ p ∈ selected, p ∈ s.pools) :
    ∃ s' c, s.switchEnabled selected = some s' ∧ s'.currentpool = some c := by
  have hmoved : (selected.elim s s.moveDown).Inv ∧
      (selected.elim s s.moveDown).pools = s.pools := by
    cases selected with
    | none => exact ⟨H, rfl⟩
    | some p => exact ⟨H.moveDown (hsel p rfl), (samePools_moveDown s p).pools⟩
  have hno := H.poolNo_lt (H.current cp hcp)
  rw [PoolTable.switchEnabled, hcp]
  dsimp only
  generalize selected.elim s s.moveDown = t at hmoved ⊢
  obtain ⟨hinv, hpools⟩ := hmoved
  rw [totalPools, ← hpools] at hno
  rw [← hpools] at hsel
  have hlt := hinv.choosePool_lt hsel hno
  rw [List.getElem?_eq_getElem hlt]
  exact ⟨_, _, rfl, rfl⟩

/-! ## Enabling and disabling -/

theorem map_pool_setEnabled {γ : Type*} (π : PoolState → γ) {status : PoolEnable}
    (H : ∀ x : PoolState, π { x with enabled := status } = π x) (s : PoolTable) (p : ℕ) (d : ℤ)
    (q : ℕ) : π ((s.setEnabled p status d).pool q) = π (s.pool q) := map_pool_modify π H s p q

/-- The pools are counted when the number is adjusted to what becomes of the pool. -/
theorem counted_setEnabled_iff (H : s.Counted) (hnodup : s.pools.Nodup) (hp : p ∈ s.pools)
    (status : PoolEnable) (d : ℤ) :
    (s.setEnabled p status d).Counted ↔ d =
      (if status = .enabled then 1 else 0) - if (s.pool p).enabled = .enabled then 1 else 0 := by
  have hcount := countP_update hnodup hp (fun pool => pool.enabled == .enabled) s.pool
    { s.pool p with enabled := status }
  simp only [beq_iff_eq] at hcount
  rw [Counted] at H ⊢
  rw [setEnabled]
  dsimp only [modify]
  rw [hcount, H]
  omega

theorem counted_setEnabled_iff_of_notMem (H : s.Counted) (hp : p ∉ s.pools) (status : PoolEnable)
    (d : ℤ) : (s.setEnabled p status d).Counted ↔ d = 0 := by
  have hcount := countP_update_of_notMem hp (fun pool => pool.enabled == .enabled) s.pool
    { s.pool p with enabled := status }
  rw [Counted] at H ⊢
  rw [setEnabled]
  dsimp only [modify]
  rw [hcount, H]
  omega

theorem Inv.setEnabled (H : s.Inv) (hp : p ∈ s.pools) {status : PoolEnable} {d : ℤ}
    (hd : d =
      (if status = .enabled then 1 else 0) - if (s.pool p).enabled = .enabled then 1 else 0) :
    (s.setEnabled p status d).Inv where
  ranking := H.ranking.congr .rfl fun q _ =>
    map_pool_setEnabled PoolState.prio (fun _ => rfl) s p d q
  poolNo i q hq :=
    (map_pool_setEnabled PoolState.poolNo (fun _ => rfl) s p d q).trans (H.poolNo i q hq)
  counted := (counted_setEnabled_iff H.counted H.ranking.nodup hp status d).mpr hd
  current := H.current
  listed := H.listed
  unlisted q hq := by
    have hne : q ≠ p := by
      rintro rfl
      exact hq hp
    exact (congrArg PoolState.enabled (Function.update_of_ne hne _ s.pool)).trans (H.unlisted q hq)

/-- A pool that was not enabled is, and may then become the current one. -/
theorem enablePool_spec (H : s.enablePool p = some s') :
    s' = s ∧ (s.pool p).enabled = .enabled ∨ (s.pool p).enabled ≠ .enabled ∧
      (s' = s.setEnabled p .enabled 1 ∨
        (s.setEnabled p .enabled 1).switchEnabled (some p) = some s') := by
  rw [enablePool] at H
  split at H
  next hen => exact .inl ⟨(Option.some.inj H).symm, hen⟩
  next hen =>
    refine .inr ⟨hen, ?_⟩
    dsimp only at H
    split at H
    next => cases H
    next =>
      split at H
      next => exact .inr H
      next => exact .inl (Option.some.inj H).symm

/-- `enable_pool` and `switch_pools` call each other: what is enabled is switched to by
`switch_pools` as a whole. -/
theorem enablePool_eq (s : PoolTable) (p : ℕ) :
    s.enablePool p =
      if (s.pool p).enabled = .enabled then some s
      else
        match s.currentpool with
        | none => none
        | some cp =>
          if ((s.setEnabled p .enabled 1).pool p).prio <
              ((s.setEnabled p .enabled 1).pool cp).prio then
            (s.setEnabled p .enabled 1).switchPools (some p)
          else some (s.setEnabled p .enabled 1) := by
  have hen : ((s.setEnabled p .enabled 1).pool p).enabled = .enabled :=
    congrArg PoolState.enabled (Function.update_self p _ s.pool)
  have hswitch : (s.setEnabled p .enabled 1).switchPools (some p) =
      (s.setEnabled p .enabled 1).switchEnabled (some p) := by
    rw [switchPools, enablePool, if_pos hen, Option.bind_some]
  rw [hswitch, enablePool]
  rfl

theorem Inv.enablePool (H : s.Inv) (hp : p ∈ s.pools) (hs : s.enablePool p = some s') :
    s'.Inv := by
  obtain ⟨rfl, -⟩ | ⟨hen, hset⟩ := enablePool_spec hs
  · exact H
  · have hinv : (s.setEnabled p .enabled 1).Inv := H.setEnabled hp (by simp [hen])
    obtain rfl | hswitch := hset
    · exact hinv
    · exact hinv.switchEnabled (fun q hq => Option.some.inj hq ▸ hp) hswitch

theorem Inv.exists_enablePool (H : s.Inv) {cp : ℕ} (hcp : s.currentpool = some cp)
    (hp : p ∈ s.pools) : ∃ s' c, s.enablePool p = some s' ∧ s'.currentpool = some c := by
  rw [PoolTable.enablePool]
  split
  next => exact ⟨s, cp, rfl, hcp⟩
  next hen =>
    have hinv : (s.setEnabled p .enabled 1).Inv := H.setEnabled hp (by simp [hen])
    have hcur : (s.setEnabled p .enabled 1).currentpool = some cp := hcp
    dsimp only
    rw [hcur]
    dsimp only
    split
    next => exact hinv.exists_switchEnabled hcur fun q hq => Option.some.inj hq ▸ hp
    next => exact ⟨_, cp, rfl, hcur⟩

theorem enablePool_pools (hs : s.enablePool p = some s') : s'.pools = s.pools := by
  obtain ⟨rfl, -⟩ | ⟨-, rfl | hswitch⟩ := enablePool_spec hs
  · rfl
  · rfl
  · exact (switchEnabled_spec hswitch).1.pools

/-- A pool that is not listed is enabled without being counted. -/
theorem not_counted_enablePool (H : s.Inv) (hp : p ∉ s.pools) (hs : s.enablePool p = some s') :
    ¬ s'.Counted := by
  have hdis := H.unlisted p hp
  obtain ⟨-, hen⟩ | ⟨-, hset⟩ := enablePool_spec hs
  · rw [hdis] at hen
    cases hen
  · have hone : ¬ (s.setEnabled p .enabled 1).Counted := by
      rw [counted_setEnabled_iff_of_notMem H.counted hp]
      decide
    obtain rfl | hswitch := hset
    · exact hone
    · rwa [(switchEnabled_spec hswitch).1.counted]

theorem Inv.switchPools (H : s.Inv) {selected : Option ℕ} (hsel : ∀ p ∈ selected, p ∈ s.pools)
    (hs : s.switchPools selected = some s') : s'.Inv := by
  cases selected with
  | none => exact H.switchEnabled hsel hs
  | some p =>
      obtain ⟨t, ht, hswitch⟩ := Option.bind_eq_some_iff.mp hs
      refine (H.enablePool (hsel p rfl) ht).switchEnabled ?_ hswitch
      rw [enablePool_pools ht]
      exact hsel

theorem Inv.exists_switchPools (H : s.Inv) {cp : ℕ} (hcp : s.currentpool = some cp)
    {selected : Option ℕ} (hsel : ∀ p ∈ selected, p ∈ s.pools) :
    ∃ s' c, s.switchPools selected = some s' ∧ s'.currentpool = some c := by
  cases selected with
  | none => exact H.exists_switchEnabled hcp hsel
  | some p =>
      obtain ⟨t, c, ht, hc⟩ := H.exists_enablePool hcp (hsel p rfl)
      rw [PoolTable.switchPools, ht, Option.bind_some]
      refine (H.enablePool (hsel p rfl) ht).exists_switchEnabled hc ?_
      rw [enablePool_pools ht]
      exact hsel

theorem not_counted_switchPools (H : s.Inv) (hp : p ∉ s.pools)
    (hs : s.switchPools (some p) = some s') : ¬ s'.Counted := by
  obtain ⟨t, ht, hswitch⟩ := Option.bind_eq_some_iff.mp hs
  rw [(switchEnabled_spec hswitch).1.counted]
  exact not_counted_enablePool H hp ht

/-- A pool is given the status unless it was disabled, and if it was current, another pool may
become so. -/
theorem disablePool_spec {status : PoolEnable} (H : s.disablePool p status = some s') :
    s' = s ∧ (s.pool p).enabled = .disabled ∨ (s.pool p).enabled ≠ .disabled ∧
      ∃ d, (d = if (s.pool p).enabled = .enabled then -1 else 0) ∧
        (s' = s.setEnabled p status d ∨ s.currentpool = some p ∧
          (s.setEnabled p status d).switchEnabled none = some s') := by
  rw [disablePool] at H
  split at H
  next hdis => exact .inl ⟨(Option.some.inj H).symm, hdis⟩
  next hdis =>
    refine .inr ⟨hdis, ?_⟩
    split at H
    next hen => exact ⟨0, by rw [if_neg hen], .inl (Option.some.inj H).symm⟩
    next hen =>
      refine ⟨-1, by rw [if_pos (not_not.mp hen)], ?_⟩
      dsimp only at H
      split at H
      next hcur => exact .inr ⟨hcur, H⟩
      next => exact .inl (Option.some.inj H).symm

theorem Inv.disablePool (H : s.Inv) {status : PoolEnable} (hstatus : status ≠ .enabled)
    (hs : s.disablePool p status = some s') : s'.Inv := by
  obtain ⟨rfl, -⟩ | ⟨hdis, d, hd, hset⟩ := disablePool_spec hs
  · exact H
  · have hp : p ∈ s.pools := by
      by_contra hp
      exact hdis (H.unlisted p hp)
    have hinv : (s.setEnabled p status d).Inv := H.setEnabled hp <| by
      rw [hd, if_neg hstatus]
      split <;> rfl
    obtain rfl | ⟨-, hswitch⟩ := hset
    · exact hinv
    · refine hinv.switchEnabled ?_ hswitch
      rintro q ⟨⟩

theorem Inv.exists_disablePool (H : s.Inv) {cp : ℕ} (hcp : s.currentpool = some cp)
    {status : PoolEnable} (hstatus : status = .enabled → (s.pool p).enabled = .disabled) :
    ∃ s', s.disablePool p status = some s' := by
  rw [PoolTable.disablePool]
  split
  next => exact ⟨s, rfl⟩
  next hdis =>
    split
    next => exact ⟨_, rfl⟩
    next hen =>
      have hp : p ∈ s.pools := by
        by_contra hp
        exact hdis (H.unlisted p hp)
      have hinv : (s.setEnabled p status (-1)).Inv := H.setEnabled hp <| by
        rw [if_neg (mt hstatus hdis), if_pos (not_not.mp hen)]
        rfl
      dsimp only
      split
      next =>
        have hnone : ∀ q ∈ (none : Option ℕ), q ∈ (s.setEnabled p status (-1)).pools := nofun
        obtain ⟨t, -, ht, -⟩ := hinv.exists_switchPools hcp hnone
        exact ⟨t, ht⟩
      next => exact ⟨_, rfl⟩

/-- A pool that is "disabled" to `POOL_ENABLED` is not counted, though it is enabled. -/
theorem not_counted_disablePool (H : s.Inv) (hdis : (s.pool p).enabled ≠ .disabled)
    (hs : s.disablePool p .enabled = some s') : ¬ s'.Counted := by
  obtain ⟨-, hdis'⟩ | ⟨-, d, hd, hset⟩ := disablePool_spec hs
  · exact absurd hdis' hdis
  · have hp : p ∈ s.pools := by
      by_contra hp
      exact hdis (H.unlisted p hp)
    have hnot : ¬ (s.setEnabled p .enabled d).Counted := by
      rw [counted_setEnabled_iff H.counted H.ranking.nodup hp, hd]
      split <;> decide
    obtain rfl | ⟨-, hswitch⟩ := hset
    · exact hnot
    · rwa [(switchEnabled_spec hswitch).1.counted]

end

end PoolTable

end MassGridMiner

import MassGridMiner.Lib.Run
import MassGridMiner.Pools.Order

/-!
# The order of the pools

Seven functions renumber, swap, shift and count the pools.  Whatever they are called for, the
priorities of the listed pools are the numbers below how many there are, each pool is where its
number says, and those that are enabled are counted.

## Main definitions

* `PoolTable.step` — the calls.
* `PoolTable.Ordered`, `PoolTable.Lawful` — what holds after each.
* `PoolTable.Proper` — the calls that are for the list.
* `Inv.exists_step` — such a call comes to an end.
-/

namespace MassGridMiner

namespace PoolTable

/-- The calls, and what becomes of pools and options beside them. -/
inductive Event
  | addPool2 (optBenchmark : Bool)
  | removePool (p : ℕ)
  | prioritizePools (param : Option CStr)
  | enablePool (p : ℕ)
  | disablePool (p : ℕ) (enableStatus : PoolEnable)
  | switchPools (selected : Option ℕ)
  | validatePoolPriorities
  | beside (idle failoverOnly : ℕ → Bool) (strategy : PoolStrategy) (optFailOnly : Bool)

/-- One call, for pools that were made; the pool that is removed is not current. -/
def step (s : PoolTable) : Event → Option PoolTable
  | .addPool2 optBenchmark => s.addPool2 optBenchmark
  | .removePool p =>
    if p < s.allocated ∧ s.currentpool ≠ some p then s.removePool p else none
  | .prioritizePools param => (s.prioritizePools param).map Prod.snd
  | .enablePool p => if p < s.allocated then s.enablePool p else none
  | .disablePool p enableStatus => if p < s.allocated then s.disablePool p enableStatus else none
  | .switchPools selected =>
    if ∀ p ∈ selected, p < s.allocated then s.switchPools selected else none
  | .validatePoolPriorities => some s.validatePoolPriorities
  | .beside idle failoverOnly strategy optFailOnly =>
    some
      { s with
        pool := fun p => { s.pool p with idle := idle p, failoverOnly := failoverOnly p }
        strategy
        optFailOnly }

/-- The pools of a call were made, and the pool that is removed is not current. -/
def Callable (s : PoolTable) : Event → Prop
  | .removePool p => p < s.allocated ∧ s.currentpool ≠ some p
  | .enablePool p | .disablePool p _ => p < s.allocated
  | .switchPools selected => ∀ p ∈ selected, p < s.allocated
  | _ => True

/-- The priorities are a permutation of the numbers below `total_pools`, and the pools are
numbered and counted. -/
structure Ordered (s : PoolTable) : Prop where
  prio : (s.pools.map fun p => (s.pool p).prio).Perm ((List.range s.totalPools).map Nat.cast)
  poolNo : ∀ i p, s.pools[i]? = some p → (s.pool p).poolNo = i
  counted : s.Counted

/-- A call of `prioritize_pools` that returns an error has changed no priority. -/
def KeepsPrios (s : PoolTable) (e : Event) (s' : PoolTable) : Prop :=
  ∀ param msg, e = .prioritizePools param → s.prioritizePools param = some (msg, s') →
    msg ≠ .poolprio → ∀ p, (s'.pool p).prio = (s.pool p).prio

/-- After the call the pools are in order, and an error has changed no priority. -/
structure Lawful (s : PoolTable) (e : Event) (s' : PoolTable) : Prop where
  ordered : s'.Ordered
  keepsPrios : s.KeepsPrios e s'

/-- A pool that is removed is listed. -/
def RemovesListed (s : PoolTable) (e : Event) : Prop := ∀ p, e = .removePool p → p ∈ s.pools

/-- No pool outside the list is enabled or selected, and no pool is "disabled" to
`POOL_ENABLED` unless `disable_pool` leaves it alone. -/
def Proper (s : PoolTable) : Event → Prop
  | .enablePool p => p ∈ s.pools
  | .switchPools selected => ∀ p ∈ selected, p ∈ s.pools
  | .disablePool p enableStatus => enableStatus = .enabled → (s.pool p).enabled = .disabled
  | _ => True

theorem Inv.ordered {s : PoolTable} (H : s.Inv) : s.Ordered where
  prio := H.ranking.perm_range
  poolNo := H.poolNo
  counted := H.counted

section
variable {s s' : PoolTable} {p : ℕ}

/-! ## The list -/

theorem prio_takePlace (s : PoolTable) (last poolNo q : ℕ) :
    ((s.takePlace last poolNo).pool q).prio = (s.pool q).prio :=
  map_update PoolState.prio (by rfl) q

theorem enabled_takePlace (s : PoolTable) (last poolNo q : ℕ) :
    ((s.takePlace last poolNo).pool q).enabled = (s.pool q).enabled :=
  map_update PoolState.enabled (by rfl) q

theorem poolNo_takePlace (s : PoolTable) (last poolNo q : ℕ) :
    ((s.takePlace last poolNo).pool q).poolNo = if q = last then poolNo else (s.pool q).poolNo := by
  split
  next hq =>
    rw [hq]
    exact congrArg PoolState.poolNo (Function.update_self last _ s.pool)
  next hq => exact congrArg PoolState.poolNo (Function.update_of_ne hq _ s.pool)

theorem prio_invalidate (s : PoolTable) (p q : ℕ) :
    ((s.invalidate p).pool q).prio = (s.pool q).prio := map_update PoolState.prio (by rfl) q

theorem enabled_invalidate (s : PoolTable) (p q : ℕ) :
    ((s.invalidate p).pool q).enabled = (s.pool q).enabled :=
  map_update PoolState.enabled (by rfl) q

theorem poolNo_invalidate (s : PoolTable) {q : ℕ} (hq : q ≠ p) :
    ((s.invalidate p).pool q).poolNo = (s.pool q).poolNo :=
  congrArg PoolState.poolNo (Function.update_of_ne hq _ s.pool)

/-- What becomes of the pools when the `i`-th is taken off the list. -/
structure Unlisted (s : PoolTable) (p i last : ℕ) (s' : PoolTable) : Prop where
  getLast : s.pools.getLast? = some last
  pools : s'.pools = (s.pools.set i last).dropLast
  allocated : s'.allocated = s.allocated
  enabledPools : s'.enabledPools = s.enabledPools
  currentpool : s'.currentpool = s.currentpool
  enabled : ∀ q, (s'.pool q).enabled = (s.pool q).enabled
  prio : ∀ q ∈ s.pools, (s'.pool q).prio =
    if (s.pool p).prio < (s.pool q).prio then (s.pool q).prio - 1 else (s.pool q).prio
  poolNo : ∀ q, q ≠ p → (s'.pool q).poolNo = if q = last then i else (s.pool q).poolNo

/-- The last pool takes the `i`-th place, unless that is its own. -/
theorem fillPlace_spec {i last : ℕ} (hp : s.pools[i]? = some p) (hno : (s.pool p).poolNo = i)
    (hlast : s.pools.getLast? = some last)
    (H : (if i + 1 < s.totalPools then s.takePlace last i else s) = s') :
    s'.pools = s.pools.set i last ∧
      (s'.allocated = s.allocated ∧ s'.enabledPools = s.enabledPools ∧
        s'.currentpool = s.currentpool) ∧
      (∀ q, (s'.pool q).prio = (s.pool q).prio ∧ (s'.pool q).enabled = (s.pool q).enabled) ∧
      ∀ q, (s'.pool q).poolNo = if q = last then i else (s.pool q).poolNo := by
  subst H
  obtain ⟨hlt, hget⟩ := List.getElem?_eq_some_iff.mp hp
  split
  next =>
    exact ⟨rfl, ⟨rfl, rfl, rfl⟩,
      fun q => ⟨prio_takePlace s last i q, enabled_takePlace s last i q⟩, poolNo_takePlace s last i⟩
  next hend =>
    -- the pool is the last one itself
    have hi : i + 1 = s.pools.length := by
      rw [totalPools] at hend
      omega
    obtain rfl : p = last := by
      rw [List.getLast?_eq_getElem?, ← hi, Nat.add_sub_cancel, hp] at hlast
      exact Option.some.inj hlast
    refine ⟨(hget ▸ List.set_getElem_self hlt).symm, ⟨rfl, rfl, rfl⟩, fun _ => ⟨rfl, rfl⟩, ?_⟩
    intro q
    split
    next hq => rw [hq, hno]
    next => rfl

/-- The others are moved up, and the last pool takes the place of the one that goes. -/
theorem unlistPool_spec {i : ℕ} (hnodup : s.pools.Nodup) (hp : s.pools[i]? = some p)
    (hno : (s.pool p).poolNo = i) (H : s.unlistPool p = some s') :
    ∃ last, Unlisted s p i last s' := by
  rw [unlistPool] at H
  dsimp only at H
  set shift : PoolState → PoolState := fun pool =>
    if (s.pool p).prio < pool.prio then { pool with prio := pool.prio - 1 } else pool with hshift
  have hshiftNo : ∀ x, (shift x).poolNo = x.poolNo := by
    intro x
    rw [hshift]
    dsimp only
    split <;> rfl
  have hshiftEn : ∀ x, (shift x).enabled = x.enabled := by
    intro x
    rw [hshift]
    dsimp only
    split <;> rfl
  have hloop := SamePools.forPools s hshiftNo hshiftEn
  have hprio : ∀ q ∈ s.pools, ((s.forPools shift).pool q).prio =
      if (s.pool p).prio < (s.pool q).prio then (s.pool q).prio - 1 else (s.pool q).prio := by
    intro q hq
    rw [pool_forPools hnodup hq, hshift]
    dsimp only
    split <;> rfl
  have hcurrent : (s.forPools shift).currentpool = s.currentpool := rfl
  generalize s.forPools shift = t at H hloop hprio hcurrent
  rw [hloop.poolNo, hno] at H
  split at H
  next => cases H
  next last hlast =>
    obtain rfl := Option.some.inj H
    generalize hfill : (if i + 1 < t.totalPools then t.takePlace last i else t) = t'
    obtain ⟨hpools, ⟨hallocated, henabledPools, hcurrent'⟩, hsame, hpoolNo⟩ :=
      fillPlace_spec (hloop.pools ▸ hp) ((hloop.poolNo p).trans hno) hlast hfill
    rw [hloop.pools] at hlast hpools
    exact ⟨last,
      { getLast := hlast
        pools := congrArg List.dropLast hpools
        allocated := hallocated.trans hloop.allocated
        enabledPools := henabledPools.trans hloop.enabledPools
        currentpool := hcurrent'.trans hcurrent
        enabled := fun q => (enabled_invalidate t' p q).trans
          ((hsame q).2.trans (hloop.enabled q))
        prio := fun q hq => (prio_invalidate t' p q).trans ((hsame q).1.trans (hprio q hq))
        poolNo := fun q hq => by
          rw [poolNo_invalidate t' hq, hpoolNo, hloop.poolNo] }⟩

/-- A pool that is disabled and not current may go. -/
theorem Inv.unlist (H : s.Inv) {i last : ℕ} (hp : s.pools[i]? = some p)
    (hdis : (s.pool p).enabled = .disabled) (hcur : s.currentpool ≠ some p)
    (hs : Unlisted s p i last s') : s'.Inv := by
  have hnodup := H.ranking.nodup
  have hmem : p ∈ s.pools := List.mem_of_getElem? hp
  have hperm : s'.pools.Perm (s.pools.erase p) := by
    rw [hs.pools]
    exact dropLast_set_perm_erase hs.getLast hnodup hp
  have hmem_iff : ∀ q, q ∈ s'.pools ↔ q ≠ p ∧ q ∈ s.pools := fun q => by
    rw [hperm.mem_iff, hnodup.mem_erase_iff]
  obtain ⟨hlt, -⟩ := List.getElem?_eq_some_iff.mp hp
  constructor
  case ranking =>
    refine (H.ranking.erase hmem).congr hperm.symm fun q hq => ?_
    exact hs.prio q (List.mem_of_mem_erase hq)
  case poolNo =>
    intro j q hq
    have hqmem := (hmem_iff q).mp (List.mem_of_getElem? hq)
    rw [hs.poolNo q hqmem.1]
    rw [hs.pools, List.getElem?_dropLast, List.length_set] at hq
    split at hq
    next hj =>
      have hlast : s.pools[s.pools.length - 1]? = some last := by
        rw [← List.getLast?_eq_getElem?, hs.getLast]
      rcases eq_or_ne i j with rfl | hne
      · rw [List.getElem?_set_self hlt] at hq
        rw [if_pos (Option.some.inj hq).symm]
      · rw [List.getElem?_set_ne hne] at hq
        have hqlast : q ≠ last := by
          rintro rfl
          have := (List.getElem?_inj (by omega) hnodup).mp (hq.trans hlast.symm)
          omega
        rw [if_neg hqlast, H.poolNo j q hq]
    next => cases hq
  case counted =>
    have hcount : s'.pools.countP (fun q => (s'.pool q).enabled == .enabled) =
        s.pools.countP fun q => (s.pool q).enabled == .enabled := by
      rw [hperm.countP_eq, (List.perm_cons_erase hmem).countP_eq, List.countP_cons, hdis]
      simp only [hs.enabled]
      rfl
    rw [Counted, hcount, hs.enabledPools]
    exact H.counted
  case current =>
    intro c hc
    rw [hs.currentpool] at hc
    exact (hmem_iff c).mpr ⟨fun heq => hcur (heq ▸ hc), H.current c hc⟩
  case listed =>
    intro q hq
    rw [hs.allocated]
    exact H.listed q ((hmem_iff q).mp hq).2
  case unlisted =>
    intro q hq
    rw [hs.enabled]
    by_cases hqp : q = p
    · rw [hqp, hdis]
    · exact H.unlisted q fun h => hq ((hmem_iff q).mpr ⟨hqp, h⟩)

theorem Inv.removePool (H : s.Inv) (hp : p ∈ s.pools) (hcur : s.currentpool ≠ some p)
    (hs : s.removePool p = some s') : s'.Inv := by
  obtain ⟨t, ht, hunlist⟩ := Option.bind_eq_some_iff.mp hs
  have hinv : t.Inv := H.disablePool (by decide) ht
  have hsame : t.pools = s.pools ∧ t.currentpool = s.currentpool ∧
      (t.pool p).enabled = .disabled := by
    obtain ⟨rfl, hdis⟩ | ⟨-, d, -, rfl | ⟨hcur', -⟩⟩ := disablePool_spec ht
    · exact ⟨rfl, rfl, hdis⟩
    · exact ⟨rfl, rfl, congrArg PoolState.enabled (Function.update_self p _ s.pool)⟩
    · exact absurd hcur' hcur
  obtain ⟨hpools, hcurrent, hdis⟩ := hsame
  rw [← hpools] at hp
  rw [← hcurrent] at hcur
  obtain ⟨i, hi⟩ := List.getElem?_of_mem hp
  obtain ⟨last, hunlisted⟩ := unlistPool_spec hinv.ranking.nodup hi (hinv.poolNo i p hi) hunlist
  exact hinv.unlist hi hdis hcur hunlisted

theorem Inv.exists_removePool (H : s.Inv) {cp : ℕ} (hcp : s.currentpool = some cp)
    (hp : p ∈ s.pools) : ∃ s', s.removePool p = some s' := by
  have hstatus : PoolEnable.disabled = .enabled → (s.pool p).enabled = .disabled := nofun
  obtain ⟨t, ht⟩ := H.exists_disablePool hcp hstatus
  have hpools : t.pools = s.pools := by
    obtain ⟨rfl, -⟩ | ⟨-, d, -, rfl | ⟨-, hswitch⟩⟩ := disablePool_spec ht
    · rfl
    · rfl
    · exact (switchEnabled_spec hswitch).1.pools
  rw [PoolTable.removePool, ht, Option.bind_some, unlistPool]
  dsimp only
  split
  next hnone =>
    have hnil : t.pools = [] := List.getLast?_eq_none_iff.mp hnone
    rw [← hpools, hnil] at hp
    cases hp
  next => exact ⟨_, rfl⟩

theorem pool_appendPool_self (s : PoolTable) : s.appendPool.pool s.allocated =
    { PoolState.zero with prio := s.totalPools, poolNo := s.totalPools, idle := true } :=
  Function.update_self s.allocated _ s.pool

theorem pool_appendPool_of_ne {q : ℕ} (hq : q ≠ s.allocated) : s.appendPool.pool q = s.pool q :=
  Function.update_of_ne hq _ s.pool

theorem Inv.fresh (H : s.Inv) : s.allocated ∉ s.pools := fun h =>
  absurd (H.listed _ h) (lt_irrefl _)

/-- The new pool is not enabled. -/
theorem Inv.counted_appendPool (H : s.Inv) : s.appendPool.Counted := by
  have hcount := countP_update_of_notMem H.fresh (fun pool => pool.enabled == .enabled) s.pool
    { PoolState.zero with prio := s.totalPools, poolNo := s.totalPools, idle := true }
  have hnew : (s.appendPool.pool s.allocated).enabled = .disabled := by
    rw [pool_appendPool_self]
    rfl
  have happend : s.appendPool.pools = s.pools ++ [s.allocated] := rfl
  have hlist : s.appendPool.pools.countP (fun q => (s.appendPool.pool q).enabled == .enabled) =
      s.pools.countP fun q => (s.pool q).enabled == .enabled := by
    rw [happend, List.countP_append, List.countP_singleton, hnew]
    exact hcount
  rw [Counted, hlist]
  exact H.counted

theorem Inv.appendPool (H : s.Inv) : s.appendPool.Inv := by
  have hold : ∀ q ∈ s.pools, s.appendPool.pool q = s.pool q := fun q hq =>
    pool_appendPool_of_ne fun heq => H.fresh (heq ▸ hq)
  constructor
  case ranking =>
    have hranking : IsRanking s.pools fun q => (s.appendPool.pool q).prio :=
      H.ranking.congr .rfl fun q hq => by rw [hold q hq]
    refine hranking.concat H.fresh ?_
    rw [pool_appendPool_self]
    rfl
  case poolNo =>
    intro i q hq
    have hq' : (s.pools ++ [s.allocated])[i]? = some q := hq
    rcases Nat.lt_or_ge i s.pools.length with hi | hi
    · rw [List.getElem?_append_left hi] at hq'
      rw [hold q (List.mem_of_getElem? hq')]
      exact H.poolNo i q hq'
    · rw [List.getElem?_append_right hi, List.getElem?_singleton] at hq'
      split at hq'
      next hzero =>
        obtain rfl := Option.some.inj hq'
        rw [pool_appendPool_self, totalPools]
        dsimp only
        omega
      next => cases hq'
  case counted => exact H.counted_appendPool
  case current =>
    intro c hc
    exact List.mem_append_left _ (H.current c hc)
  case listed =>
    intro q hq
    rcases List.mem_append.mp hq with hq | hq
    · exact Nat.lt_succ_of_lt (H.listed q hq)
    · exact List.mem_singleton.mp hq ▸ Nat.lt_succ_self _
  case unlisted =>
    intro q hq
    have hq' : q ∉ s.pools ++ [s.allocated] := hq
    rw [List.mem_append, List.mem_singleton, not_or] at hq'
    rw [pool_appendPool_of_ne hq'.2]
    exact H.unlisted q hq'.1

theorem mem_appendPool (s : PoolTable) : s.allocated ∈ s.appendPool.pools :=
  List.mem_append_right _ (List.mem_singleton_self _)

/-- The new pool becomes the current one if there is none. -/
theorem Inv.appendCurrent (H : s.Inv) : PoolTable.Inv
    { s.appendPool with currentpool := some (s.currentpool.getD s.allocated) } := by
  refine { H.appendPool with current := fun c hc => ?_ }
  obtain rfl := Option.some.inj hc
  cases hcur : s.currentpool with
  | none => exact mem_appendPool s
  | some c => exact List.mem_append_left _ (H.current c hcur)

theorem Inv.addPool2 (H : s.Inv) {optBenchmark : Bool} (hs : s.addPool2 optBenchmark = some s') :
    s'.Inv := by
  rw [PoolTable.addPool2] at hs
  cases optBenchmark with
  | true =>
      refine H.appendPool.removePool (mem_appendPool s) (fun hcur => ?_) hs
      exact absurd (H.listed _ (H.current _ hcur)) (lt_irrefl _)
  | false => exact H.appendCurrent.enablePool (mem_appendPool s) hs

theorem Inv.exists_addPool2 (H : s.Inv) {cp : ℕ} (hcp : s.currentpool = some cp)
    (optBenchmark : Bool) : ∃ s', s.addPool2 optBenchmark = some s' := by
  rw [PoolTable.addPool2]
  cases optBenchmark with
  | true => exact H.appendPool.exists_removePool hcp (mem_appendPool s)
  | false =>
      obtain ⟨t, -, ht, -⟩ := H.appendCurrent.exists_enablePool rfl (mem_appendPool s)
      exact ⟨t, ht⟩

/-! ## The priorities -/

/-- The pools that were named are listed, and named once. -/
theorem readOrder_spec {parts : List (List UInt8)} {order order' : List ℕ} (hnodup : order.Nodup)
    (hsub : ∀ p ∈ order, p ∈ s.pools) (H : s.readOrder parts order = .ok order') :
    order'.Nodup ∧ ∀ p ∈ order', p ∈ s.pools := by
  induction parts generalizing order with
  | nil =>
      obtain rfl := Except.ok.inj H
      exact ⟨hnodup, hsub⟩
  | cons part rest ih =>
      rw [readOrder] at H
      split at H
      next => cases H
      next =>
        split at H
        next => cases H
        next p hp =>
          split at H
          next => cases H
          next hnew =>
            refine ih ?_ ?_ H
            · refine List.nodup_append.mpr ⟨hnodup, List.nodup_singleton p, fun q hq r hr heq => ?_⟩
              rw [List.mem_singleton] at hr
              exact hnew (hr ▸ heq ▸ hq)
            · intro q hq
              rcases List.mem_append.mp hq with hq | hq
              · exact hsub q hq
              · exact List.mem_singleton.mp hq ▸ List.mem_of_getElem? hp

theorem samePools_modify_prio (s : PoolTable) (p : ℕ) (k : ℤ) :
    SamePools s (s.modify p fun pool => { pool with prio := k }) :=
  SamePools.modify s p (fun _ => rfl) fun _ => rfl

theorem samePools_assignOrder (s : PoolTable) (order l : List ℕ) :
    SamePools s (s.assignOrder order l) := by
  induction l generalizing s with
  | nil => exact .refl s
  | cons p rest ih =>
      rw [assignOrder]
      split
      next => exact (samePools_modify_prio s p _).trans (ih _)
      next => exact ih s

theorem currentpool_assignOrder (s : PoolTable) (order l : List ℕ) :
    (s.assignOrder order l).currentpool = s.currentpool := by
  induction l generalizing s with
  | nil => rfl
  | cons p rest ih =>
      rw [assignOrder, ih]
      split <;> rfl

theorem prio_assignOrder (s : PoolTable) (order l : List ℕ) (q : ℕ) :
    ((s.assignOrder order l).pool q).prio =
      if q ∈ l ∧ q ∈ order then (order.idxOf q : ℤ) else (s.pool q).prio := by
  induction l generalizing s with
  | nil => simp [assignOrder]
  | cons p rest ih =>
      rw [assignOrder, ih]
      by_cases hrest : q ∈ rest ∧ q ∈ order
      · rw [if_pos hrest, if_pos ⟨List.mem_cons_of_mem p hrest.1, hrest.2⟩]
      · rw [if_neg hrest]
        split
        next hp =>
          rw [prio_modify_prio]
          split
          next hq =>
            subst hq
            rw [if_pos ⟨List.mem_cons_self, hp⟩]
          next hq =>
            rw [if_neg]
            rintro ⟨hmem, horder⟩
            exact hrest ⟨(List.mem_cons.mp hmem).resolve_left hq, horder⟩
        next hp =>
          rw [if_neg]
          rintro ⟨hmem, horder⟩
          rcases List.mem_cons.mp hmem with rfl | hmem
          · exact hp horder
          · exact hrest ⟨hmem, horder⟩

/-- Some pools have the places that they have in a list, and the others their old priorities. -/
structure Placed (s : PoolTable) (order : List ℕ) (old : ℕ → ℤ) : Prop where
  nodup : order.Nodup
  listed : ∀ p ∈ order, p ∈ s.pools
  placed : ∀ p ∈ order, (s.pool p).prio = order.idxOf p
  left : ∀ p ∈ s.pools, p ∉ order → (s.pool p).prio = old p

theorem Placed.concat {order : List ℕ} {old : ℕ → ℤ} (H : Placed s order old) (hp : p ∈ s.pools)
    (hnew : p ∉ order) :
    Placed (s.modify p fun pool => { pool with prio := order.length }) (order ++ [p]) old where
  nodup := List.nodup_append.mpr
    ⟨H.nodup, List.nodup_singleton p, fun q hq r hr heq =>
      hnew (List.mem_singleton.mp hr ▸ heq ▸ hq)⟩
  listed q hq := by
    rcases List.mem_append.mp hq with hq | hq
    · exact H.listed q hq
    · exact List.mem_singleton.mp hq ▸ hp
  placed q hq := by
    rw [prio_modify_prio]
    rcases List.mem_append.mp hq with hmem | hmem
    · have hne : q ≠ p := by
        rintro rfl
        exact hnew hmem
      rw [if_neg hne, List.idxOf_append_of_mem hmem]
      exact H.placed q hmem
    · obtain rfl := List.mem_singleton.mp hmem
      rw [if_pos rfl, List.idxOf_append_of_notMem hnew, List.idxOf_cons_self, add_zero]
  left q hq hnot := by
    rw [List.mem_append, List.mem_singleton, not_or] at hnot
    rw [prio_modify_prio, if_neg hnot.2]
    exact H.left q hq hnot.1

theorem samePools_appendOrder (s : PoolTable) (order prs : List ℕ) :
    SamePools s (s.appendOrder order prs) := by
  induction prs generalizing s order with
  | nil => exact .refl s
  | cons pr rest ih =>
      rw [appendOrder]
      split
      next => exact ih s order
      next p _ => exact (samePools_modify_prio s p _).trans (ih _ _)

theorem currentpool_appendOrder (s : PoolTable) (order prs : List ℕ) :
    (s.appendOrder order prs).currentpool = s.currentpool := by
  induction prs generalizing s order with
  | nil => rfl
  | cons pr rest ih =>
      rw [appendOrder]
      split
      next => exact ih s order
      next => exact ih _ _

/-- Every pool comes to have a place. -/
theorem appendOrder_spec {order prs : List ℕ} {old : ℕ → ℤ} (H : Placed s order old)
    (hinj : ∀ p ∈ s.pools, ∀ q ∈ s.pools, old p = old q → p = q)
    (hleft : ∀ p ∈ s.pools, p ∉ order → ∃ pr ∈ prs, old p = (pr : ℕ)) :
    ∃ order', Placed (s.appendOrder order prs) order' old ∧ ∀ p ∈ s.pools, p ∈ order' := by
  induction prs generalizing s order with
  | nil =>
      refine ⟨order, H, fun p hp => ?_⟩
      by_contra hnot
      obtain ⟨pr, hpr, -⟩ := hleft p hp hnot
      cases hpr
  | cons pr rest ih =>
      rw [appendOrder]
      split
      next hnone =>
        refine ih H hinj fun p hp hnot => ?_
        obtain ⟨pr', hpr', hold⟩ := hleft p hp hnot
        rcases List.mem_cons.mp hpr' with rfl | hpr'
        · have := List.find?_eq_none.mp hnone p hp
          rw [H.left p hp hnot, hold] at this
          simp [hnot] at this
        · exact ⟨pr', hpr', hold⟩
      next p hfind =>
        have hp : p ∈ s.pools := List.mem_of_find?_eq_some hfind
        have hfound := List.find?_some hfind
        rw [Bool.and_eq_true, decide_eq_true_eq, beq_iff_eq] at hfound
        have hold : old p = pr := (H.left p hp hfound.1).symm.trans hfound.2
        refine ih (H.concat hp hfound.1) hinj fun q hq hnot => ?_
        rw [List.mem_append, List.mem_singleton, not_or] at hnot
        obtain ⟨pr', hpr', hold'⟩ := hleft q hq hnot.1
        rcases List.mem_cons.mp hpr' with rfl | hpr'
        · exact absurd (hinj q hq p hp (hold'.trans hold.symm)) hnot.2
        · exact ⟨pr', hpr', hold'⟩

/-- The pools that are named come first, and the others behind them. -/
theorem Inv.reorder (H : s.Inv) {order : List ℕ} (hnodup : order.Nodup)
    (hsub : ∀ p ∈ order, p ∈ s.pools) :
    ((s.assignOrder order s.pools).appendOrder order (List.range s.totalPools)).Inv := by
  have hassign := samePools_assignOrder s order s.pools
  have hplaced : Placed (s.assignOrder order s.pools) order fun p => (s.pool p).prio := by
    refine ⟨hnodup, fun p hp => ?_, fun p hp => ?_, fun p hp hnot => ?_⟩
    · rw [hassign.pools]
      exact hsub p hp
    · rw [prio_assignOrder, if_pos ⟨hsub p hp, hp⟩]
    · rw [prio_assignOrder, if_neg fun h => hnot h.2]
  generalize s.assignOrder order s.pools = t at hassign hplaced ⊢
  have happend := samePools_appendOrder t order (List.range s.totalPools)
  have hinj : ∀ p ∈ t.pools, ∀ q ∈ t.pools, (s.pool p).prio = (s.pool q).prio → p = q := by
    rw [hassign.pools]
    exact H.ranking.inj
  have hrange : ∀ p ∈ t.pools, p ∉ order →
      ∃ pr ∈ List.range s.totalPools, (s.pool p).prio = (pr : ℕ) := by
    rw [hassign.pools]
    intro p hp _
    have hnonneg := H.ranking.nonneg p hp
    have hlt := H.ranking.lt_length p hp
    refine ⟨(s.pool p).prio.toNat, List.mem_range.mpr ?_, (Int.toNat_of_nonneg hnonneg).symm⟩
    rw [totalPools]
    omega
  obtain ⟨order', hfinal, hall⟩ := appendOrder_spec hplaced hinj hrange
  generalize t.appendOrder order (List.range s.totalPools) = u at happend hfinal ⊢
  rw [hassign.pools] at hall
  have hpools : u.pools = s.pools := happend.pools.trans hassign.pools
  have hlen : order'.length ≤ s.pools.length := by
    refine (List.subperm_of_subset hfinal.nodup fun p hp => ?_).length_le
    rw [← hpools]
    exact hfinal.listed p hp
  exact (hassign.trans happend).inv H
    (.ofOrder H.ranking.nodup hall hlen fun p hp => hfinal.placed p (hall p hp))

/-- Either an error is returned and nothing has changed, or the pools are reordered and
another one may become current. -/
theorem prioritizePools_spec {param : Option CStr} {msg : PrioritizeMsg}
    (H : s.prioritizePools param = some (msg, s')) :
    s' = s ∨ msg = .poolprio ∧ ∃ parts order, s.readOrder parts [] = .ok order ∧
      (s' = (s.assignOrder order s.pools).appendOrder order (List.range s.totalPools) ∨
        ((s.assignOrder order s.pools).appendOrder order (List.range s.totalPools)).switchPools
          none = some s') := by
  rw [prioritizePools.eq_def] at H
  split at H
  next => exact .inl (Prod.mk.inj (Option.some.inj H)).2.symm
  next =>
    split at H
    next => exact .inl (Prod.mk.inj (Option.some.inj H)).2.symm
    next param =>
      split at H
      next => exact .inl (Prod.mk.inj (Option.some.inj H)).2.symm
      next =>
        split at H
        next => exact .inl (Prod.mk.inj (Option.some.inj H)).2.symm
        next order hread =>
          dsimp only at H
          split at H
          next => cases H
          next =>
            split at H
            next =>
              obtain ⟨u, hu, heq⟩ := Option.map_eq_some_iff.mp H
              obtain ⟨rfl, rfl⟩ := Prod.mk.inj heq
              exact .inr ⟨rfl, _, order, hread, .inr hu⟩
            next =>
              obtain ⟨rfl, rfl⟩ := Prod.mk.inj (Option.some.inj H)
              exact .inr ⟨rfl, _, order, hread, .inl rfl⟩

theorem Inv.prioritizePools (H : s.Inv) {param : Option CStr} {msg : PrioritizeMsg}
    (hs : s.prioritizePools param = some (msg, s')) : s'.Inv := by
  obtain rfl | ⟨-, parts, order, hread, hset⟩ := prioritizePools_spec hs
  · exact H
  · obtain ⟨hnodup, hsub⟩ := readOrder_spec List.nodup_nil (by simp) hread
    have hinv := H.reorder hnodup hsub
    obtain rfl | hswitch := hset
    · exact hinv
    · refine hinv.switchPools ?_ hswitch
      rintro q ⟨⟩

theorem Inv.exists_prioritizePools (H : s.Inv) {cp : ℕ} (hcp : s.currentpool = some cp)
    (param : Option CStr) : ∃ r, s.prioritizePools param = some r := by
  rw [PoolTable.prioritizePools.eq_def]
  split
  next => exact ⟨_, rfl⟩
  next =>
    split
    next => exact ⟨_, rfl⟩
    next param =>
      split
      next => exact ⟨_, rfl⟩
      next =>
        split
        next => exact ⟨_, rfl⟩
        next order hread =>
          obtain ⟨hnodup, hsub⟩ := readOrder_spec List.nodup_nil (by simp) hread
          have hinv := H.reorder hnodup hsub
          have hcur : ((s.assignOrder order s.pools).appendOrder order
              (List.range s.totalPools)).currentpool = some cp := by
            rw [currentpool_appendOrder, currentpool_assignOrder, hcp]
          dsimp only
          generalize (s.assignOrder order s.pools).appendOrder order (List.range s.totalPools) = t
            at hinv hcur ⊢
          rw [hcur]
          dsimp only
          split
          next =>
            have hnone : ∀ q ∈ (none : Option ℕ), q ∈ t.pools := nofun
            obtain ⟨u, -, hu, -⟩ := hinv.exists_switchPools hcur hnone
            rw [hu]
            exact ⟨_, rfl⟩
          next => exact ⟨_, rfl⟩

theorem markValid_eq (H : IsRanking s.pools fun p => (s.pool p).prio) {l : List ℕ}
    (used : List ℤ) (hnodup : l.Nodup) (hl : ∀ p ∈ l, p ∈ s.pools)
    (hused : ∀ p ∈ l, (s.pool p).prio ∉ used) :
    (s.markValid l used).1 = List.replicate l.length true := by
  induction l generalizing used with
  | nil => rfl
  | cons p rest ih =>
      obtain ⟨hp, hrest⟩ := List.nodup_cons.mp hnodup
      have hmem := hl p List.mem_cons_self
      have hvalid : (decide (0 ≤ (s.pool p).prio) && decide ((s.pool p).prio < s.totalPools) &&
          decide ((s.pool p).prio ∉ used)) = true := by
        simp only [Bool.and_eq_true, decide_eq_true_eq]
        exact ⟨⟨H.nonneg p hmem, H.lt_length p hmem⟩, hused p List.mem_cons_self⟩
      have htail := ih ((s.pool p).prio :: used) hrest
        (fun q hq => hl q (List.mem_cons_of_mem p hq)) fun q hq hin => by
          rcases List.mem_cons.mp hin with heq | hin
          · have hqp := H.inj q (hl q (List.mem_cons_of_mem p hq)) p hmem heq
            exact hp (hqp ▸ hq)
          · exact hused q (List.mem_cons_of_mem p hq) hin
      rw [markValid]
      simp only [hvalid, if_true, htail, List.length_cons, List.replicate_succ]

theorem fixPriorities_replicate (used : List ℤ) (l : List ℕ) :
    s.fixPriorities used (l.zip (List.replicate l.length true)) = s := by
  induction l with
  | nil => rfl
  | cons p rest ih => exact ih

/-- Pools that are in order are left as they are. -/
theorem Inv.validatePoolPriorities (H : s.Inv) : s.validatePoolPriorities = s := by
  have hmarks := markValid_eq H.ranking [] H.ranking.nodup (fun _ hp => hp)
    fun _ _ hin => nomatch hin
  rw [PoolTable.validatePoolPriorities]
  dsimp only
  rw [hmarks, fixPriorities_replicate]

/-! ## Runs -/

theorem Inv.beside (H : s.Inv) (idle failoverOnly : ℕ → Bool) (strategy : PoolStrategy)
    (optFailOnly : Bool) :
    PoolTable.Inv
      { s with
        pool := fun p => { s.pool p with idle := idle p, failoverOnly := failoverOnly p }
        strategy
        optFailOnly } :=
  ⟨⟨H.ranking.nodup, H.ranking.inj, H.ranking.nonneg, H.ranking.lt_length⟩, H.poolNo, H.counted,
    H.current, H.listed, H.unlisted⟩

/-- A proper call keeps the pools in order. -/
theorem Inv.step (H : s.Inv) {e : Event} (hlisted : s.RemovesListed e) (hproper : s.Proper e)
    (hs : s.step e = some s') : s'.Inv := by
  cases e with
  | addPool2 optBenchmark => exact H.addPool2 hs
  | removePool p =>
      obtain ⟨⟨-, hcur⟩, hs⟩ := Option.ite_none_right_eq_some.mp hs
      exact H.removePool (hlisted p rfl) hcur hs
  | prioritizePools param =>
      obtain ⟨⟨msg, t⟩, ht, rfl⟩ := Option.map_eq_some_iff.mp hs
      exact H.prioritizePools ht
  | enablePool p => exact H.enablePool hproper (Option.ite_none_right_eq_some.mp hs).2
  | disablePool p status =>
      obtain ⟨-, hs⟩ := Option.ite_none_right_eq_some.mp hs
      by_cases hstatus : status = .enabled
      · obtain ⟨rfl, -⟩ | ⟨hdis, -⟩ := disablePool_spec hs
        · exact H
        · exact absurd (hproper hstatus) hdis
      · exact H.disablePool hstatus hs
  | switchPools selected => exact H.switchPools hproper (Option.ite_none_right_eq_some.mp hs).2
  | validatePoolPriorities =>
      obtain rfl := Option.some.inj hs
      rw [H.validatePoolPriorities]
      exact H
  | beside idle failoverOnly strategy optFailOnly =>
      obtain rfl := Option.some.inj hs
      exact H.beside idle failoverOnly strategy optFailOnly

/-- **A proper call comes to an end**, once there is a current pool. -/
theorem Inv.exists_step (H : s.Inv) {cp : ℕ} (hcp : s.currentpool = some cp) {e : Event}
    (hlisted : s.RemovesListed e) (hproper : s.Proper e) (hcall : s.Callable e) :
    ∃ s', s.step e = some s' := by
  cases e with
  | addPool2 optBenchmark => exact H.exists_addPool2 hcp optBenchmark
  | removePool p =>
      dsimp only [Callable] at hcall
      rw [PoolTable.step, if_pos hcall]
      exact H.exists_removePool hcp (hlisted p rfl)
  | prioritizePools param =>
      obtain ⟨r, hr⟩ := H.exists_prioritizePools hcp param
      rw [PoolTable.step, hr]
      exact ⟨_, rfl⟩
  | enablePool p =>
      dsimp only [Callable] at hcall
      obtain ⟨t, -, ht, -⟩ := H.exists_enablePool hcp hproper
      rw [PoolTable.step, if_pos hcall]
      exact ⟨t, ht⟩
  | disablePool p status =>
      dsimp only [Callable] at hcall
      rw [PoolTable.step, if_pos hcall]
      exact H.exists_disablePool hcp hproper
  | switchPools selected =>
      dsimp only [Callable] at hcall
      obtain ⟨t, -, ht, -⟩ := H.exists_switchPools hcp hproper
      rw [PoolTable.step, if_pos hcall]
      exact ⟨t, ht⟩
  | validatePoolPriorities => exact ⟨_, rfl⟩
  | beside => exact ⟨_, rfl⟩

/-- A call that is not proper leaves the pools miscounted. -/
theorem Inv.proper_of_counted (H : s.Inv) {e : Event} (hs : s.step e = some s')
    (hcounted : s'.Counted) : s.Proper e := by
  cases e with
  | enablePool p =>
      obtain ⟨-, hs⟩ := Option.ite_none_right_eq_some.mp hs
      by_contra hp
      exact not_counted_enablePool H hp hs hcounted
  | disablePool p status =>
      obtain ⟨-, hs⟩ := Option.ite_none_right_eq_some.mp hs
      rintro rfl
      by_contra hdis
      exact not_counted_disablePool H hdis hs hcounted
  | switchPools selected =>
      obtain ⟨-, hs⟩ := Option.ite_none_right_eq_some.mp hs
      rintro p rfl
      by_contra hp
      exact not_counted_switchPools H hp hs hcounted
  | addPool2 | removePool | prioritizePools | validatePoolPriorities | beside => trivial

theorem keepsPrios (s : PoolTable) (e : Event) (s' : PoolTable) : s.KeepsPrios e s' := by
  rintro param msg - hprio hmsg p
  obtain rfl | ⟨hok, -⟩ := prioritizePools_spec hprio
  · rfl
  · exact absurd hok hmsg

theorem Inv.lawful_iff (H : s.Inv) {e : Event} (hlisted : s.RemovesListed e)
    (hs : s.step e = some s') : s.Lawful e s' ↔ s.Proper e := by
  constructor
  · exact fun h => H.proper_of_counted hs h.ordered.counted
  · exact fun h => ⟨(H.step hlisted h hs).ordered, keepsPrios s e s'⟩

end

theorem inv_init (strategy : PoolStrategy) (optFailOnly : Bool) :
    (init strategy optFailOnly).Inv where
  ranking := .nil _
  poolNo _ _ hp := nomatch hp
  counted := rfl
  current _ hc := nomatch hc
  listed _ hp := nomatch hp
  unlisted _ _ := rfl

/-- **The pools are in order as long as the calls are proper**: in a run that removes listed
pools only, the priorities are a ranking and the pools are numbered and counted exactly as long
as no pool outside the list is enabled and none is "disabled" to `POOL_ENABLED`.  Errors change
no priority in any run. -/
theorem allSteps_lawful_iff_proper (strategy : PoolStrategy) (optFailOnly : Bool)
    (es : List Event) :
    (Run.AllSteps step (fun s e s' => s.RemovesListed e ∧ s.Lawful e s')
        (init strategy optFailOnly) es ↔
      Run.AllSteps step (fun s e _ => s.RemovesListed e ∧ s.Proper e)
        (init strategy optFailOnly) es) ∧
      Run.AllSteps step KeepsPrios (init strategy optFailOnly) es := by
  constructor
  · refine Run.allSteps_congr (I := Inv) ?_ ?_ es (inv_init strategy optFailOnly)
    · exact fun s e s' H hs => and_congr_right fun hlisted => H.lawful_iff hlisted hs
    · rintro s e s' H hs ⟨hlisted, hlawful⟩
      exact H.step hlisted ((H.lawful_iff hlisted hs).mp hlawful) hs
  · refine Run.allSteps_of_invariant (I := fun _ => True) ?_ es trivial
    exact fun s e s' _ _ => ⟨trivial, keepsPrios s e s'⟩

/-- A pool is added, and "disabled" to `POOL_ENABLED`: none is counted, and it is enabled. -/
theorem not_lawful_disableEnabled :
    ¬ Run.AllSteps step Lawful (init .failover false)
      [.addPool2 false, .disablePool 0 .enabled] := by
  intro H
  have hcounted : (0 : ℤ) = (1 : ℕ) := ((H _ rfl).2 _ rfl).1.ordered.counted
  exact absurd hcounted (by decide)

end PoolTable

end MassGridMiner

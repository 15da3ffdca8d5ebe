import MassGridMiner.Lib.Atof
import MassGridMiner.Lib.Ranking

/-!
# The list of pools

Pools are numbered as they stand in `pools`, have a priority each, and one of them is the
current one.  They are added and removed, enabled and disabled, and given other priorities;
each of these may take another pool for the current one, by the strategy that is set.

## Main definitions

* `PoolState`, `PoolTable` — a pool, and the list with what is kept beside it.
* `switchPools`, `enablePool`, `disablePool` — who is enabled and who is current.
* `addPool2`, `removePool` — the list.
* `prioritizePools`, `validatePoolPriorities` — the priorities.
-/

namespace MassGridMiner

/-- `enum pool_enable`. -/
inductive PoolEnable
  | disabled
  | enabled
  | rejecting
  | misbehaving
  deriving DecidableEq

/-- `enum pool_strategy`. -/
inductive PoolStrategy
  | failover
  | roundrobin
  | rotate
  | loadbalance
  | balance
  deriving DecidableEq

/-- The part of `struct pool` that is about its place among the pools. -/
structure PoolState where
  prio : ℤ
  poolNo : ℕ
  enabled : PoolEnable
  idle : Bool
  failoverOnly : Bool
  removed : Bool
  hasStratum : Bool
  lagging : Bool
  blockId : UInt32

/-- The pools.  A pool is named by how many were made before it, and stays in memory when it
is removed; `pools` names the `total_pools` of them that are listed. -/
structure PoolTable where
  pool : ℕ → PoolState
  allocated : ℕ
  pools : List ℕ
  enabledPools : ℤ
  currentpool : Option ℕ
  strategy : PoolStrategy
  optFailOnly : Bool

/-- What `calloc` returns. -/
def PoolState.zero : PoolState where
  prio := 0
  poolNo := 0
  enabled := .disabled
  idle := false
  failoverOnly := false
  removed := false
  hasStratum := false
  lagging := false
  blockId := 0

namespace PoolTable

/-- Before any pool is added. -/
def init (strategy : PoolStrategy) (optFailOnly : Bool) : PoolTable where
  pool := fun _ => .zero
  allocated := 0
  pools := []
  enabledPools := 0
  currentpool := none
  strategy := strategy
  optFailOnly := optFailOnly

def totalPools (s : PoolTable) : ℕ := s.pools.length

/-- A pool is written to. -/
def modify (s : PoolTable) (p : ℕ) (f : PoolState → PoolState) : PoolTable :=
  { s with pool := Function.update s.pool p (f (s.pool p)) }

/-- What `enable_pool` and `disable_pool` do to a pool, and to `enabled_pools`. -/
def setEnabled (s : PoolTable) (p : ℕ) (status : PoolEnable) (d : ℤ) : PoolTable :=
  { s.modify p fun pool => { pool with enabled := status } with
    enabledPools := s.enabledPools + d }

/-- A loop that writes to every listed pool. -/
def forPools (s : PoolTable) (f : PoolState → PoolState) : PoolTable :=
  { s with pool := updateAll s.pools f s.pool }

/-! ## The current pool -/

/-- `pool_unusable`. -/
def poolUnusable (s : PoolTable) (p : ℕ) : Bool :=
  (s.pool p).idle || (s.pool p).enabled != .enabled

/-- `priority_pool`. -/
def priorityPool (s : PoolTable) (choice : ℕ) : Option ℕ :=
  match s.pools.find? fun p => (s.pool p).prio == choice with
  | some p => some p
  | none => s.pools[choice]?

/-- The loop of `switch_pools` that goes by priority. -/
def failoverNo (s : PoolTable) (poolNo : ℕ) : List ℕ → ℕ
  | [] => poolNo
  | i :: rest =>
    match s.priorityPool i with
    | none => poolNo
    | some p => if s.poolUnusable p then failoverNo s poolNo rest else (s.pool p).poolNo

/-- The loop of `switch_pools` that goes around the list, so many turns before its end; and
the first pool that it found for failover only. -/
def cyclePools (s : PoolTable) (poolNo : ℕ) : ℕ → ℕ → Option ℕ → ℕ × Option ℕ
  | 0, _, failoverPool => (poolNo, failoverPool)
  | turns + 1, nextPool, failoverPool =>
    let nextPool := if s.totalPools ≤ nextPool + 1 then 0 else nextPool + 1
    match s.pools[nextPool]? with
    | none => (poolNo, failoverPool)
    | some p =>
      if s.poolUnusable p then cyclePools s poolNo turns nextPool failoverPool
      else if (s.pool p).failoverOnly then
        cyclePools s poolNo turns nextPool (some (failoverPool.getD p))
      else (nextPool, failoverPool)

/-- The number of the pool that the strategy chooses, and a pool for failover. -/
def choosePool (s : PoolTable) (selected : Option ℕ) (poolNo : ℕ) : ℕ × Option ℕ :=
  match s.strategy with
  | .balance | .failover | .loadbalance => (s.failoverNo poolNo (List.range s.totalPools), none)
  | .roundrobin | .rotate =>
    match selected.filter fun p => !(s.pool p).idle with
    | some p => ((s.pool p).poolNo, none)
    | none => s.cyclePools poolNo (s.totalPools - 1) poolNo none

/-- The selected pool is given priority 0, and the rest are moved down. -/
def moveDown (s : PoolTable) (selected : ℕ) : PoolTable :=
  let prio := (s.pool selected).prio
  if prio != 0 then
    (s.forPools fun pool => if pool.prio < prio then { pool with prio := pool.prio + 1 } else pool)
      |>.modify selected fun pool => { pool with prio := 0 }
  else s

/-- What `switch_pools` does to the pool that it chose. -/
def makeCurrent (s : PoolTable) (lastPool p : ℕ) : PoolTable :=
  { s.modify p fun pool =>
      { pool with
        lagging := pool.lagging || s.optFailOnly
        blockId := if p = lastPool then pool.blockId else 0 } with
    currentpool := some p }

/-- `switch_pools`, once the selected pool is enabled.  Without a current pool, or for a number
that no pool has, it is undefined. -/
def switchEnabled (s : PoolTable) (selected : Option ℕ) : Option PoolTable :=
  match s.currentpool with
  | none => none
  | some lastPool =>
    let poolNo := (s.pool lastPool).poolNo
    let s := selected.elim s s.moveDown
    let (poolNo, failoverPool) := s.choosePool selected poolNo
    match s.pools[poolNo]? with
    | none => none
    | some pool =>
      some (s.makeCurrent lastPool (if s.poolUnusable pool then failoverPool.getD pool else pool))

/-- `enable_pool`.  The pool is enabled when it comes to `switch_pools`, which therefore does
not enable it again. -/
def enablePool (s : PoolTable) (p : ℕ) : Option PoolTable :=
  if (s.pool p).enabled = .enabled then some s
  else
    let s := s.setEnabled p .enabled 1
    match s.currentpool with
    | none => none
    | some cp => if (s.pool p).prio < (s.pool cp).prio then s.switchEnabled (some p) else some s

/-- `switch_pools`. -/
def switchPools (s : PoolTable) : Option ℕ → Option PoolTable
  | none => s.switchEnabled none
  | some selected => (s.enablePool selected).bind fun s => s.switchEnabled (some selected)

/-- `disable_pool`. -/
def disablePool (s : PoolTable) (p : ℕ) (enableStatus : PoolEnable) : Option PoolTable :=
  if (s.pool p).enabled = .disabled then some s
  else if (s.pool p).enabled ≠ .enabled then some (s.setEnabled p enableStatus 0)
  else
    let s := s.setEnabled p enableStatus (-1)
    if s.currentpool = some p then s.switchPools none else some s

/-! ## The list -/

/-- The last pool takes the place of another. -/
def takePlace (s : PoolTable) (last poolNo : ℕ) : PoolTable :=
  { s.modify last fun pool => { pool with poolNo } with pools := s.pools.set poolNo last }

/-- The end of `remove_pool`. -/
def invalidate (s : PoolTable) (p : ℕ) : PoolTable :=
  { s.modify p fun pool =>
      { pool with poolNo := s.totalPools, removed := true, hasStratum := false } with
    pools := s.pools.dropLast }

/-- `remove_pool`, once the pool is disabled: the others are given higher priorities, and the
last pool takes its place. -/
def unlistPool (s : PoolTable) (p : ℕ) : Option PoolTable :=
  let prio := (s.pool p).prio
  let s := s.forPools fun pool =>
    if prio < pool.prio then { pool with prio := pool.prio - 1 } else pool
  let poolNo := (s.pool p).poolNo
  match s.pools.getLast? with
  | none => none
  | some last =>
    let s := if poolNo + 1 < s.totalPools then s.takePlace last poolNo else s
    some (s.invalidate p)

/-- `remove_pool`. -/
def removePool (s : PoolTable) (p : ℕ) : Option PoolTable :=
  (s.disablePool p .disabled).bind fun s => s.unlistPool p

/-- A new pool at the end of the list, named by the number of those that were made before. -/
def appendPool (s : PoolTable) : PoolTable :=
  { s with
    pool := Function.update s.pool s.allocated
      { PoolState.zero with prio := s.totalPools, poolNo := s.totalPools, idle := true }
    allocated := s.allocated + 1
    pools := s.pools ++ [s.allocated] }

/-- `add_pool2`. -/
def addPool2 (s : PoolTable) (optBenchmark : Bool) : Option PoolTable :=
  let p := s.allocated
  let s := s.appendPool
  if optBenchmark then s.removePool p
  else { s with currentpool := some (s.currentpool.getD p) }.enablePool p

/-! ## The priorities -/

/-- What `prioritize_pools` returns, with the number that it writes for the caller. -/
inductive PrioritizeMsg
  | nopool
  | mispid
  | invpid (pid : ℤ)
  | duppid (pid : ℤ)
  | poolprio
  deriving DecidableEq

/-- The parts of a text between commas; behind the last comma there is a part only if it is
not empty. -/
def commaParts (param : List UInt8) : List (List UInt8) :=
  let parts := param.splitOn 0x2c
  if parts.getLast? = some [] then parts.dropLast else parts

/-- The loop of `prioritize_pools` over the text.  No pool is listed twice, so that the pools
named so far, in order, stand for `pools_changed`, `new_prio` and `prio`. -/
def readOrder (s : PoolTable) : List (List UInt8) → List ℕ → Except PrioritizeMsg (List ℕ)
  | [], order => .ok order
  | part :: rest, order =>
    let i := CStr.atoi part
    if i < 0 then .error (.invpid i)
    else
      match s.pools[i.toNat]? with
      | none => .error (.invpid i)
      | some p => if p ∈ order then .error (.duppid i) else readOrder s rest (order ++ [p])

/-- The pools that were named are given their priorities. -/
def assignOrder (s : PoolTable) (order : List ℕ) : List ℕ → PoolTable
  | [] => s
  | p :: rest =>
    assignOrder
      (if p ∈ order then s.modify p fun pool => { pool with prio := order.idxOf p } else s)
      order rest

/-- The pools that were not named come behind them, by their old priorities. -/
def appendOrder (s : PoolTable) (order : List ℕ) : List ℕ → PoolTable
  | [] => s
  | pr :: rest =>
    match s.pools.find? fun p => decide (p ∉ order) && (s.pool p).prio == pr with
    | none => appendOrder s order rest
    | some p =>
      appendOrder (s.modify p fun pool => { pool with prio := order.length }) (order ++ [p]) rest

/-- `prioritize_pools`. -/
def prioritizePools (s : PoolTable) (param : Option CStr) : Option (PrioritizeMsg × PoolTable) :=
  if s.totalPools = 0 then some (.nopool, s)
  else
    match param with
    | none => some (.mispid, s)
    | some param =>
      if param.bytes = [] then some (.mispid, s)
      else
        match s.readOrder (commaParts param.bytes) [] with
        | .error msg => some (msg, s)
        | .ok order =>
          let s := (s.assignOrder order s.pools).appendOrder order (List.range s.totalPools)
          match s.currentpool with
          | none => none
          | some cp =>
            if (s.pool cp).prio != 0 then (s.switchPools none).map fun s => (.poolprio, s)
            else some (.poolprio, s)

/-- The first loop of `validate_pool_priorities`: which pools are valid, and the priorities
that are used. -/
def markValid (s : PoolTable) : List ℕ → List ℤ → List Bool × List ℤ
  | [], used => ([], used)
  | p :: rest, used =>
    let prio := (s.pool p).prio
    let valid := decide (0 ≤ prio) && decide (prio < s.totalPools) && decide (prio ∉ used)
    let (marks, used) := markValid s rest (if valid then prio :: used else used)
    (valid :: marks, used)

/-- The second loop: the pools that are not valid are given the priorities that are left. -/
def fixPriorities (s : PoolTable) (used : List ℤ) : List (ℕ × Bool) → PoolTable
  | [] => s
  | (p, valid) :: rest =>
    if valid then fixPriorities s used rest
    else
      match (List.range s.totalPools).find? fun j => decide ((j : ℤ) ∉ used) with
      | none => fixPriorities s used rest
      | some j =>
        fixPriorities (s.modify p fun pool => { pool with prio := j }) (j :: used) rest

/-- `validate_pool_priorities`. -/
def validatePoolPriorities (s : PoolTable) : PoolTable :=
  let (marks, used) := s.markValid s.pools []
  s.fixPriorities used (s.pools.zip marks)

end PoolTable

end MassGridMiner

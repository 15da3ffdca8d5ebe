import MassGridMiner.Lib.CString
import MassGridMiner.Work

/-!
# The stratum job of a pool

`struct stratum_work` is the job that works are generated from.  It is installed by a
notify and copied for the miners behind the proxy.

## Main definitions

* `StratumWork` — the job.
* `NtimeRollLimits` — how far its time may be rolled.
* `StratumPool` — the pool that a job is installed in.
-/

namespace MassGridMiner

/-- `struct ntime_roll_limits`; the time of reference is in seconds. -/
structure NtimeRollLimits where
  min : UInt32
  max : UInt32
  tvRef : ℕ
  minoff : ℤ
  maxoff : ℤ
  deriving DecidableEq

/-- `struct stratum_work`, without the fields that only templates, expiry and locking
use.  `nonce2Offset` and `n2size` say where in the coinbase the second extranonce goes. -/
structure StratumWork where
  nonce1 : Option CStr
  jobId : Option CStr
  clean : Bool
  coinbase : List UInt8
  nonce2Offset : ℕ
  n2size : ℕ
  merkles : ℕ
  merkleBin : List UInt8
  header1 : Bytes 36
  diffbits : Bytes 4
  ntime : UInt32
  tvReceived : ℕ
  ntimeRollLimits : NtimeRollLimits
  target : Hash
  transparencyProbed : Bool
  tvTransparencySet : Bool
  isOpaque : Bool
  deriving DecidableEq

/-- `set_simple_ntime_roll_limit`. -/
def setSimpleNtimeRollLimit (ntimeBase : UInt32) (ntimeRoll : ℕ) (tvRef : ℕ) : NtimeRollLimits :=
  let offsets : ℤ := max ntimeRoll 60
  { min := ntimeBase
    max := ntimeBase + ntimeRoll.toUInt32
    tvRef := tvRef
    minoff := -offsets
    maxoff := offsets }

/-- The part of `struct pool` that the requests of a pool read and write.  The mining goal is its
algorithm here; a goal name is compared by its text, which `stratum_set_goal` makes the
same as by its pointer. -/
structure StratumPool where
  swork : StratumWork
  nextTarget : Hash
  submitOld : Bool
  goalname : Option CStr
  nextGoalname : Option CStr
  goalMalgo : MiningAlgorithm
  nextGoalMalgo : Option MiningAlgorithm
  nextNonce1 : Option CStr
  n1Len : ℕ
  nextN2size : ℕ
  nonce2 : UInt64
  nonce2sz : ℕ
  probed : Bool
  stratumNotify : Bool
  adminMsg : Option CStr

end MassGridMiner

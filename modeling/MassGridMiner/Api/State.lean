import MassGridMiner.Api.Data
import MassGridMiner.Device.Enable
import MassGridMiner.Pools.Table

/-!
# What the commands read

The pools, devices and goals, as far as a command shows them, and the counters and options of
the program.  Where a driver adds values of its own, the list of them is part of its device.

## Main definitions

* `ApiPool`, `Cgpu`, `MiningGoal` — a pool, a processor, a goal.
* `ApiState` — all of it, at the time of a request.
* `ApiEnv` — what the functions that a command calls come to.
* `numpgas`, `pgadevice`, `procChain`, `findIndexByCgpu` — how processors are counted.
-/

namespace MassGridMiner

/-- A `struct timeval`. -/
structure Timeval where
  tvSec : Int64
  tvUsec : Int64

/-- The value that shows a time. -/
def ApiData.ofTimeval (tv : Timeval) : ApiData := .timeval tv.tvSec tv.tvUsec

/-- `struct cgminer_stats`, with what `stats_elapsed` makes of it. -/
structure CgminerStats where
  statsElapsed : Float
  getworkCalls : UInt32
  getworkWait : Timeval
  getworkWaitMax : Timeval
  getworkWaitMin : Timeval

/-- `struct cgminer_pool_stats`. -/
structure CgminerPoolStats where
  getworkCalls : UInt32
  getworkAttempts : UInt32
  getworkWait : Timeval
  getworkWaitMax : Timeval
  getworkWaitMin : Timeval
  getworkWaitRolling : Float
  hadrolltime : Bool
  canroll : Bool
  hadexpire : Bool
  rolltime : UInt32
  minDiff : Float
  maxDiff : Float
  lastDiff : Float
  minDiffCount : UInt32
  maxDiffCount : UInt32
  timesSent : UInt64
  bytesSent : UInt64
  netBytesSent : UInt64
  timesReceived : UInt64
  bytesReceived : UInt64
  netBytesReceived : UInt64

/-- A pool, with the name of its goal. -/
structure ApiPool where
  rpcUrl : CStr
  rpcUser : Option CStr
  rpcProxy : Option CStr
  stratumUrl : Option CStr
  adminMsg : Option CStr
  goalName : CStr
  prio : Int32
  quota : Int32
  enabled : PoolEnable
  idle : Bool
  failoverOnly : Bool
  removed : Bool
  hdrPath : Bool
  hasStratum : Bool
  stratumActive : Bool
  getworkRequested : UInt32
  accepted : Int32
  rejected : Int32
  works : Int32
  discardedWork : UInt32
  staleShares : UInt32
  getfailOccasions : UInt32
  remotefailOccasions : UInt32
  lastShareTime : Int64
  diff1 : Float
  diffAccepted : Float
  diffRejected : Float
  diffStale : Float
  lastShareDiff : Float
  bestDiff : Float
  cgminerStats : CgminerStats
  cgminerPoolStats : CgminerPoolStats

/-- `enum alive`. -/
inductive Alive
  | well
  | sick
  | dead
  | nostart
  | init
  | wait
  | init2
  | dead2
  | mixed
  deriving DecidableEq

/-- `enum dev_reason`. -/
inductive DevReason
  | threadFailInit
  | threadZeroHash
  | threadFailQueue
  | devSickIdle60
  | devDeadIdle600
  | devNostart
  | devOverHeat
  | devThermalCutoff
  | devCommsError
  | devThrottle
  deriving DecidableEq

/-- The driver of a device: its names, and the values it adds to a reply where it does. -/
structure ApiDrv where
  name : CStr
  dname : CStr
  getApiExtraDeviceDetail : Option (List ApiField)
  getApiExtraDeviceStatus : Option (List ApiField)
  getApiStats : Option (List ApiField)
  getProcRollingHashrate : Option Float

/-- A `struct cgpu_info`.  Its device is named by that one's number; `cgpuRuntime` is what the
function of that name says, and `nextProc` the number of the next processor. -/
structure Cgpu where
  cgminerId : ℕ
  device : ℕ
  nextProc : Option ℕ
  drv : ApiDrv
  deviceId : Int32
  procs : Int32
  procId : Int32
  procReprNs : CStr
  name : Option CStr
  kname : Option CStr
  devManufacturer : Option CStr
  devProduct : Option CStr
  devSerial : Option CStr
  devicePath : Option CStr
  cutofftemp : Int32
  targettemp : Int32
  deven : DevEnable
  status : Alive
  temp : Float32
  accepted : Int32
  rejected : Int32
  stale : Int32
  hwErrors : Int32
  badDiff1 : Float
  rolling : Float
  totalMhashes : Float
  cgpuRuntime : Float
  diff1 : Float
  diffAccepted : Float
  diffRejected : Float
  diffStale : Float
  lastSharePool : Int32
  lastSharePoolTime : Int64
  lastShareDiff : Float
  lastDeviceValidWork : Int64
  deviceLastWell : Int64
  deviceLastNotWell : Int64
  deviceNotWellReason : DevReason
  threadFailInitCount : Int32
  threadZeroHashCount : Int32
  threadFailQueueCount : Int32
  devSickIdle60Count : Int32
  devDeadIdle600Count : Int32
  devNostartCount : Int32
  devOverHeatCount : Int32
  devThermalCutoffCount : Int32
  devCommsErrorCount : Int32
  devThrottleCount : Int32
  cgminerStats : CgminerStats

/-- `enum pow_algorithm`, as far as it is asked for. -/
inductive PowAlgorithm
  | scrypt
  | sha256d
  | other
  deriving DecidableEq

/-- A goal, with what the current block says. -/
structure MiningGoal where
  id : UInt32
  isDefault : Bool
  algo : PowAlgorithm
  malgoName : CStr
  firstSeenTime : Int64
  prevblkhash : CStr
  haveLongpoll : Bool
  currentDiff : Float
  diffAccepted : Float

instance : Inhabited PoolStrategy := ⟨.failover⟩

/-- How the program is built. -/
structure Build where
  useOpencl : Bool
  useCpumining : Bool
  useSha256d : Bool
  useScrypt : Bool
  haveAdl : Bool
  useLibmicrohttpd : Bool
  useLibevent : Bool
  deriving Inhabited

/-- What a command may show.  The pools are those below `total_pools`; `gpus` and `cpus` are
tables of their own. -/
structure ApiState where
  requestTime : Int64
  bfgminerNameSpaceVer : CStr
  bfgminerVer : CStr
  optApiDescription : Option CStr
  pools : List ApiPool
  devices : List Cgpu
  gpus : List Cgpu
  adlInUse : Bool
  cpus : List Cgpu
  optNThreads : Int32
  miningGoals : List MiningGoal
  driverNames : List CStr
  poolStrategy : PoolStrategy
  optRotatePeriod : Int32
  optLogInterval : Int32
  optFailOnly : Bool
  optScantime : Int32
  optQueue : Int32
  optExpiry : Int32
  optCoinbaseSig : Option CStr
  configfiles : List CStr
  algoName : Option CStr
  totalSecs : Float
  totalMhashesDone : Float
  totalRolling : Float
  foundBlocks : UInt32
  totalGetworks : Int32
  totalAccepted : Int32
  totalRejected : Int32
  hwErrors : Int32
  totalDiscarded : Int32
  totalStale : Int32
  totalGo : UInt32
  localWork : UInt32
  totalRo : UInt32
  newBlocks : UInt32
  totalDiff1 : Float
  totalBadDiff1 : Float
  totalDiffAccepted : Float
  totalDiffRejected : Float
  totalDiffStale : Float
  bestDiff : Float
  lastGetwork : Int64
  enabledPools : Int32
  optRealquiet : Bool
  optQuiet : Bool
  optLogOutput : Bool
  optDebug : Bool
  optProtocol : Bool
  wantPerDeviceStats : Bool
  optWorktime : Bool
  deriving Inhabited

/-- `enum bfg_set_device_replytype`. -/
inductive ReplyType
  | auto
  | ok
  | nosupp
  | help
  | unknown
  | err
  deriving DecidableEq, Inhabited

/-- What becomes of the calls that a command makes: of `scan_serial`, with the state that it
leaves; `identify_device`; `proc_set_device`, with its reply; the intensity that is set;
`prioritize_pools`; whether a pool still is the current one when another is to be; `fopen`; and
the ports and strategies. -/
structure ApiEnv where
  scanSerial : Option CStr → ℕ × ApiState
  identifyDevice : ℕ → Bool
  procSetDevice : Cgpu → CStr → CStr → ReplyType × Option CStr
  intensitystr : Cgpu → CStr
  prioritizePools : Option CStr → ℕ × Int32
  remainsCurrentPool : ℕ → Bool
  defaultSaveFile : CStr
  fopen : CStr → Bool
  stratumsrvChangePort : ℤ → Bool
  bfgStrategyParse : CStr → Int32
  bfgStrategyChange : Int32 → Option CStr → Bool
  deriving Inhabited

/-! ## Processors -/

section
variable (st : ApiState) (perProc : Bool)

/-- A processor that is counted. -/
def Cgpu.counted (cgpu : Cgpu) : Bool := perProc || cgpu.device == cgpu.cgminerId

/-- `numpgas`. -/
def numpgas : ℕ := st.devices.countP (Cgpu.counted perProc)

/-- `pgadevice`, with `get_devices`. -/
def pgadevice (pgaid : ℕ) : Option Cgpu := (st.devices.filter (Cgpu.counted perProc))[pgaid]?

/-- A processor and those behind it, up to a number; none behind a pointer to nothing. -/
def procChain : ℕ → Option Cgpu → List Cgpu
  | n + 1, some proc => proc :: procChain n (proc.nextProc.bind (st.devices[·]?))
  | _, _ => []

/-- The processors that a command goes over. -/
def procsOf (cgpu : Cgpu) : List Cgpu :=
  procChain st (if perProc then 1 else cgpu.procs.toInt.toNat) (some cgpu)

/-- The loop of `find_index_by_cgpu`, which goes back from device to device. -/
def countDevices : ℕ → Cgpu → ℕ
  | 0, _ => 0
  | turns + 1, cgpu =>
    if cgpu.device = 0 then 0
    else
      match st.devices[cgpu.device - 1]? with
      | some prev => countDevices turns prev + 1
      | none => 0

/-- `find_index_by_cgpu`. -/
def findIndexByCgpu (cgpu : Cgpu) : ℕ :=
  if perProc then cgpu.cgminerId else countDevices st st.devices.length cgpu

end

end MassGridMiner

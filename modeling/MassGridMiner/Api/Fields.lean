import MassGridMiner.Api.Codes

/-!
# The lists that commands print

Each function here is the part of a command that makes one list.

## Main definitions

* `versionFields`, `minerconfigFields`, `summaryFields`, `debugFields` — about the program.
* `devdetailFields`, `devstatusFields`, `notifystatusFields` — about a device.
* `poolFields`, `coinFields`, `itemstats` — about a pool, a goal, and times.
-/

namespace MassGridMiner

section
variable (b : Build) (st : ApiState) (perProc : Bool)

/-! ## The program -/

/-- The list of `apiversion`. -/
def versionFields : List ApiField :=
  [field "Miner" (.string st.bfgminerNameSpaceVer),
    field "CGMiner" (.string st.bfgminerVer),
    field "API" (.const (cstr "3.1"))]

/-- `strategies`. -/
def strategyName : PoolStrategy → CStr
  | .failover => cstr "Failover"
  | .roundrobin => cstr "Round Robin"
  | .rotate => cstr "Rotate"
  | .loadbalance => cstr "Load Balance"
  | .balance => cstr "Balance"

/-- The names of the drivers, each behind a blank, as far as `buf` has room, without the first
blank. -/
def deviceCode : CStr :=
  let servers := (if b.useLibmicrohttpd then literal " SGW" else []) ++
    if b.useLibevent then literal " SSM" else []
  let names := st.driverNames.flatMap fun name => 0x20 :: name.bytes
  .ofMem (((servers ++ names).take (tmpbufsiz - 1)).drop 1)

/-- The list of `minerconfig`. -/
def minerconfigFields : List ApiField :=
  [field "PGA Count" (.int (Int32.ofNat (numpgas st perProc))),
    field "Pool Count" (.int (Int32.ofNat st.pools.length)),
    field "ADL" (.const (bool2str b.haveAdl)),
    field "ADL in use" (.string (bool2str (b.haveAdl && st.adlInUse))),
    field "Strategy" (.const (strategyName st.poolStrategy))] ++
  (if st.poolStrategy = .rotate then [field "Rotate Period" (.int st.optRotatePeriod)] else []) ++
  [field "Log Interval" (.int st.optLogInterval),
    field "Device Code" (.const (deviceCode b st)),
    field "OS" (.const (cstr "Linux")),
    field "Failover-Only" (.bool st.optFailOnly),
    field "ScanTime" (.int st.optScantime),
    field "Queue" (.int st.optQueue),
    field "Expiry" (.int st.optExpiry),
    field "Coinbase-Sig" (.nullable .string st.optCoinbaseSig)] ++
  st.configfiles.mapIdx fun i filename =>
    ⟨literal "ConfigFile" ++ printInt i, .string filename⟩

/-- `MHS` over the log interval. -/
def mhsname : List UInt8 := literal "MHS " ++ printInt st.optLogInterval.toInt ++ literal "s"

/-- A part of a whole, which is zero of nothing. -/
def ratio (part whole : Float) : Float := if whole == 0 then 0 else part / whole

/-- The list of `summary`. -/
def summaryFields : List ApiField :=
  let secs := if st.totalSecs == 0 then 1 else st.totalSecs
  let utility := Float.ofInt st.totalAccepted.toInt / secs * 60
  let mhs := st.totalMhashesDone / st.totalSecs
  let workUtility := st.totalDiff1 / secs * 60
  let shares := st.totalDiffAccepted + st.totalDiffRejected + st.totalDiffStale
  [field "Elapsed" (.elapsed st.totalSecs)] ++
  (if b.useCpumining && b.useSha256d && 0 < st.optNThreads then
    [field "Algorithm" (.string (st.algoName.getD nullstr))]
  else []) ++
  [field "MHS av" (.mhs mhs),
    ⟨mhsname st, .mhs st.totalRolling⟩,
    field "Found Blocks" (.uint st.foundBlocks),
    field "Getworks" (.int st.totalGetworks),
    field "Accepted" (.int st.totalAccepted),
    field "Rejected" (.int st.totalRejected),
    field "Hardware Errors" (.int st.hwErrors),
    field "Utility" (.utility utility),
    field "Discarded" (.int st.totalDiscarded),
    field "Stale" (.int st.totalStale),
    field "Get Failures" (.uint st.totalGo),
    field "Local Work" (.uint st.localWork),
    field "Remote Failures" (.uint st.totalRo),
    field "Network Blocks" (.uint st.newBlocks),
    field "Total MH" (.mhtotal st.totalMhashesDone),
    field "Diff1 Work" (.diff st.totalDiff1),
    field "Work Utility" (.utility workUtility),
    field "Difficulty Accepted" (.diff st.totalDiffAccepted),
    field "Difficulty Rejected" (.diff st.totalDiffRejected),
    field "Difficulty Stale" (.diff st.totalDiffStale),
    field "Best Share" (.diff st.bestDiff),
    field "Device Hardware%" (.percent
      (ratio st.totalBadDiff1 (st.totalBadDiff1 + st.totalDiff1))),
    field "Device Rejected%" (.percent (ratio st.totalDiffRejected st.totalDiff1)),
    field "Pool Rejected%" (.percent (ratio st.totalDiffRejected shares)),
    field "Pool Stale%" (.percent (ratio st.totalDiffStale shares)),
    field "Last getwork" (.time st.lastGetwork)]

/-- The list of `debugstate`. -/
def debugFields : List ApiField :=
  [field "Silent" (.bool st.optRealquiet),
    field "Quiet" (.bool st.optQuiet),
    field "Verbose" (.bool st.optLogOutput),
    field "Debug" (.bool st.optDebug),
    field "RPCProto" (.bool st.optProtocol),
    field "PerDevice" (.bool st.wantPerDeviceStats),
    field "WorkTime" (.bool st.optWorktime)]

/-! ## Devices -/

/-- `api_add_device_identifier`. -/
def deviceIdentifier (cgpu : Cgpu) : List ApiField :=
  [field "Name" (.string cgpu.drv.name), field "ID" (.int cgpu.deviceId)] ++
    if perProc then [field "ProcID" (.int cgpu.procId)] else []

/-- A string that is added if it is there. -/
def fieldIfAny (name : String) : Option CStr → List ApiField
  | some s => [field name (.string s)]
  | none => []

/-- What the driver of a device adds, where one processor is shown. -/
def extraFields (cgpu : Cgpu) (extra : Option (List ApiField)) : List ApiField :=
  if perProc || cgpu.procs ≤ 1 then extra.getD [] else []

/-- The list of `devdetail_an`. -/
def devdetailFields (cgpu : Cgpu) : List ApiField :=
  [field "DEVDETAILS" (.int (Int32.ofNat (findIndexByCgpu st perProc cgpu)))] ++
  deviceIdentifier perProc cgpu ++
  (if perProc then [] else [field "Processors" (.int cgpu.procs)]) ++
  [field "Driver" (.string cgpu.drv.dname)] ++
  fieldIfAny "Kernel" cgpu.kname ++
  fieldIfAny "Model" cgpu.name ++
  fieldIfAny "Manufacturer" cgpu.devManufacturer ++
  fieldIfAny "Product" cgpu.devProduct ++
  fieldIfAny "Serial" cgpu.devSerial ++
  fieldIfAny "Device Path" cgpu.devicePath ++
  [field "Target Temperature" (.int cgpu.targettemp),
    field "Cutoff Temperature" (.int cgpu.cutofftemp)] ++
  extraFields perProc cgpu cgpu.drv.getApiExtraDeviceDetail

/-- `status2str`. -/
def status2str : Alive → CStr
  | .well => cstr "Alive"
  | .sick => cstr "Sick"
  | .dead | .dead2 => cstr "Dead"
  | .nostart => cstr "NoStart"
  | .init | .init2 => cstr "Initialising"
  | .wait => cstr "Waiting"
  | .mixed => cstr "Mixed"

/-- What `devstatus_an` adds up over the processors of a device. -/
structure DevTotals where
  enabled : Bool
  totalMhashes : Float
  rolling : Float
  utility : Float
  status : Alive
  temp : Float32
  accepted : Int32
  rejected : Int32
  stale : Int32
  hwErrors : Int32
  diff1 : Float
  badDiff1 : Float
  diffAccepted : Float
  diffRejected : Float
  diffStale : Float
  lastSharePool : Int32
  lastSharePoolTime : Int64
  lastShareDiff : Float
  lastDeviceValidWork : Int64

/-- One turn of its loop. -/
def DevTotals.add (t : DevTotals) (proc : Cgpu) : DevTotals :=
  let later := t.lastSharePoolTime < proc.lastSharePoolTime
  { enabled := t.enabled || proc.deven ≠ .disabled
    totalMhashes := t.totalMhashes + proc.totalMhashes
    rolling := t.rolling + proc.drv.getProcRollingHashrate.getD proc.rolling
    utility := t.utility + Float.ofInt proc.accepted.toInt / proc.cgpuRuntime * 60
    status := if t.status ≠ proc.status then .mixed else t.status
    temp := if t.temp < proc.temp then proc.temp else t.temp
    accepted := t.accepted + proc.accepted
    rejected := t.rejected + proc.rejected
    stale := t.stale + proc.stale
    hwErrors := t.hwErrors + proc.hwErrors
    diff1 := t.diff1 + proc.diff1
    badDiff1 := t.badDiff1 + proc.badDiff1
    diffAccepted := t.diffAccepted + proc.diffAccepted
    diffRejected := t.diffRejected + proc.diffRejected
    diffStale := t.diffStale + proc.diffStale
    lastSharePool := if later then proc.lastSharePool else t.lastSharePool
    lastSharePoolTime := if later then proc.lastSharePoolTime else t.lastSharePoolTime
    lastShareDiff := if later then proc.lastShareDiff else t.lastShareDiff
    lastDeviceValidWork := if t.lastDeviceValidWork < proc.lastDeviceValidWork then
      proc.lastDeviceValidWork else t.lastDeviceValidWork }

/-- What the loop starts from. -/
def DevTotals.start (cgpu : Cgpu) : DevTotals where
  enabled := false
  totalMhashes := 0
  rolling := 0
  utility := 0
  status := cgpu.status
  temp := -1
  accepted := 0
  rejected := 0
  stale := 0
  hwErrors := 0
  diff1 := 0
  badDiff1 := 0
  diffAccepted := 0
  diffRejected := 0
  diffStale := 0
  lastSharePool := -1
  lastSharePoolTime := -1
  lastShareDiff := -1
  lastDeviceValidWork := -1

/-- The list of `devstatus_an`. -/
def devstatusFields (cgpu : Cgpu) : List ApiField :=
  let t := (procsOf st perProc cgpu).foldl DevTotals.add (.start cgpu)
  let runtime := cgpu.cgpuRuntime
  [field "PGA" (.int (Int32.ofNat (findIndexByCgpu st perProc cgpu)))] ++
  deviceIdentifier perProc cgpu ++
  [field "Enabled" (.string (bool2str t.enabled)),
    field "Status" (.string (status2str t.status))] ++
  (if 0 < t.temp then [field "Temperature" (.temp t.temp)] else []) ++
  [field "Device Elapsed" (.elapsed runtime),
    field "MHS av" (.mhs (t.totalMhashes / runtime)),
    ⟨mhsname st, .mhs t.rolling⟩,
    field "MHS rolling" (.mhs t.rolling),
    field "Accepted" (.int t.accepted),
    field "Rejected" (.int t.rejected),
    field "Hardware Errors" (.int t.hwErrors),
    field "Utility" (.utility t.utility),
    field "Stale" (.int t.stale)] ++
  (if t.lastSharePool ≠ -1 then
    [field "Last Share Pool" (.int t.lastSharePool),
      field "Last Share Time" (.time t.lastSharePoolTime)]
  else []) ++
  [field "Total MH" (.mhtotal t.totalMhashes),
    field "Diff1 Work" (.diff t.diff1),
    field "Work Utility" (.utility (t.diff1 / runtime * 60)),
    field "Difficulty Accepted" (.diff t.diffAccepted),
    field "Difficulty Rejected" (.diff t.diffRejected),
    field "Difficulty Stale" (.diff t.diffStale)] ++
  (if 0 < t.lastShareDiff then [field "Last Share Difficulty" (.diff t.lastShareDiff)] else []) ++
  (if t.lastDeviceValidWork ≠ -1 then [field "Last Valid Work" (.time t.lastDeviceValidWork)]
    else []) ++
  [field "Device Hardware%" (.percent (ratio t.badDiff1 (t.badDiff1 + t.diff1))),
    field "Device Rejected%" (.percent (ratio t.diffRejected t.diff1))] ++
  extraFields perProc cgpu cgpu.drv.getApiExtraDeviceStatus

/-- The reasons of `notifystatus`; it knows no text for a throttled device. -/
def DevReason.text : DevReason → CStr
  | .threadFailInit => cstr "Thread failed to init"
  | .threadZeroHash => cstr "Thread got zero hashes"
  | .threadFailQueue => cstr "Thread failed to queue work"
  | .devSickIdle60 => cstr "Device idle for 60s"
  | .devDeadIdle600 => cstr "Device dead - idle for 600s"
  | .devNostart => cstr "Device failed to start"
  | .devOverHeat => cstr "Device over heated"
  | .devThermalCutoff => cstr "Device reached thermal cutoff"
  | .devCommsError => cstr "Device comms error"
  | .devThrottle => cstr "Unknown reason - code bug"

/-- What `notifystatus` adds up over the processors of a device, with the counters in the order
in which they are shown. -/
structure NotWell where
  lastNotWell : Int64
  reason : Option DevReason
  counts : List Int32

/-- The counters of a processor. -/
def Cgpu.notWellCounts (proc : Cgpu) : List Int32 :=
  [proc.threadFailInitCount, proc.threadZeroHashCount, proc.threadFailQueueCount,
    proc.devSickIdle60Count, proc.devDeadIdle600Count, proc.devNostartCount,
    proc.devOverHeatCount, proc.devThermalCutoffCount, proc.devCommsErrorCount,
    proc.devThrottleCount]

/-- One turn of its loop: a processor is counted if it was the last so far that was not well. -/
def NotWell.add (t : NotWell) (proc : Cgpu) : NotWell :=
  if t.lastNotWell < proc.deviceLastNotWell then
    { lastNotWell := proc.deviceLastNotWell
      reason := some proc.deviceNotWellReason
      counts := t.counts.zipWith (· + ·) proc.notWellCounts }
  else t

/-- The names of the counters. -/
def notWellNames : List String :=
  ["*Thread Fail Init", "*Thread Zero Hash", "*Thread Fail Queue", "*Dev Sick Idle 60s",
    "*Dev Dead Idle 600s", "*Dev Nostart", "*Dev Over Heat", "*Dev Thermal Cutoff",
    "*Dev Comms Error", "*Dev Throttle"]

/-- The list of `notifystatus`. -/
def notifystatusFields (device : ℕ) (cgpu : Cgpu) : List ApiField :=
  let t := (procsOf st perProc cgpu).foldl NotWell.add ⟨0, none, List.replicate 10 0⟩
  [field "NOTIFY" (.int (Int32.ofNat device))] ++
  deviceIdentifier perProc cgpu ++
  (if perProc then [field "Last Well" (.time cgpu.deviceLastWell)] else []) ++
  [field "Last Not Well" (.time t.lastNotWell),
    field "Reason Not Well" (.string ((t.reason.map DevReason.text).getD (cstr "None")))] ++
  notWellNames.zipWith (fun name count => field name (.int count)) t.counts

/-! ## Pools and goals -/

/-- The status that `poolstatus` shows. -/
def ApiPool.statusText (pool : ApiPool) : CStr :=
  match pool.enabled with
  | .disabled => cstr "Disabled"
  | .rejecting => cstr "Rejecting"
  | .enabled =>
    if pool.idle then cstr "Dead" else if pool.failoverOnly then cstr "Failover" else cstr "Alive"
  | .misbehaving => cstr "Unknown"

/-- The list that `poolstatus` prints of a pool. -/
def poolFields (i : ℕ) (pool : ApiPool) : List ApiField :=
  let shares := pool.diffAccepted + pool.diffRejected + pool.diffStale
  [field "POOL" (.int (Int32.ofNat i)),
    field "URL" (.escape pool.rpcUrl),
    field "Status" (.string pool.statusText),
    field "Priority" (.int pool.prio),
    field "Quota" (.int pool.quota),
    field "Mining Goal" (.string pool.goalName),
    field "Long Poll" (.string (bool2str pool.hdrPath)),
    field "Getworks" (.uint pool.getworkRequested),
    field "Accepted" (.int pool.accepted),
    field "Rejected" (.int pool.rejected),
    field "Works" (.int pool.works),
    field "Discarded" (.uint pool.discardedWork),
    field "Stale" (.uint pool.staleShares),
    field "Get Failures" (.uint pool.getfailOccasions),
    field "Remote Failures" (.uint pool.remotefailOccasions),
    field "User" (.nullable .escape pool.rpcUser),
    field "Last Share Time" (.time pool.lastShareTime),
    field "Diff1 Shares" (.diff pool.diff1),
    field "Proxy" ((pool.rpcProxy.map ApiData.escape).getD (.const .empty)),
    field "Difficulty Accepted" (.diff pool.diffAccepted),
    field "Difficulty Rejected" (.diff pool.diffRejected),
    field "Difficulty Stale" (.diff pool.diffStale),
    field "Last Share Difficulty" (.diff pool.lastShareDiff),
    field "Has Stratum" (.bool pool.hasStratum),
    field "Stratum Active" (.bool pool.stratumActive),
    field "Stratum URL" (if pool.stratumActive then .nullable .escape pool.stratumUrl
      else .const .empty),
    field "Best Share" (.diff pool.bestDiff)] ++
  (match pool.adminMsg with
    | some msg => [field "Message" (.escape msg)]
    | none => []) ++
  [field "Pool Rejected%" (.percent (ratio pool.diffRejected shares)),
    field "Pool Stale%" (.percent (ratio pool.diffStale shares))]

/-- The name of an algorithm in `minecoin`. -/
def MiningGoal.hashMethod (goal : MiningGoal) : CStr :=
  match goal.algo with
  | .scrypt => if b.useScrypt then cstr "scrypt" else goal.malgoName
  | .sha256d => if b.useSha256d then cstr "sha256" else goal.malgoName
  | .other => goal.malgoName

/-- The list that `minecoin` prints of a goal. -/
def coinFields (goal : MiningGoal) : List ApiField :=
  [field "Hash Method" (.const (goal.hashMethod b)),
    field "Current Block Time" (.time goal.firstSeenTime),
    field "Current Block Hash" (.string goal.prevblkhash),
    field "LP" (.bool goal.haveLongpoll),
    field "Network Difficulty" (.diff goal.currentDiff),
    field "Difficulty Accepted" (.diff goal.diffAccepted)]

/-- The list of `itemstats`. -/
def itemstats (i : ℕ) (id : CStr) (stats : CgminerStats) (poolStats : Option CgminerPoolStats)
    (extra : Option (List ApiField)) : List ApiField :=
  [field "STATS" (.int (Int32.ofNat i)),
    field "ID" (.string id),
    field "Elapsed" (.elapsed stats.statsElapsed),
    field "Calls" (.uint32 stats.getworkCalls),
    field "Wait" (.ofTimeval stats.getworkWait),
    field "Max" (.ofTimeval stats.getworkWaitMax),
    field "Min" (.ofTimeval stats.getworkWaitMin)] ++
  (match poolStats with
    | some stats =>
      [field "Pool Calls" (.uint32 stats.getworkCalls),
        field "Pool Attempts" (.uint32 stats.getworkAttempts),
        field "Pool Wait" (.ofTimeval stats.getworkWait),
        field "Pool Max" (.ofTimeval stats.getworkWaitMax),
        field "Pool Min" (.ofTimeval stats.getworkWaitMin),
        field "Pool Av" (.double stats.getworkWaitRolling),
        field "Work Had Roll Time" (.bool stats.hadrolltime),
        field "Work Can Roll" (.bool stats.canroll),
        field "Work Had Expire" (.bool stats.hadexpire),
        field "Work Roll Time" (.uint32 stats.rolltime),
        field "Work Diff" (.diff stats.lastDiff),
        field "Min Diff" (.diff stats.minDiff),
        field "Max Diff" (.diff stats.maxDiff),
        field "Min Diff Count" (.uint32 stats.minDiffCount),
        field "Max Diff Count" (.uint32 stats.maxDiffCount),
        field "Times Sent" (.uint64 stats.timesSent),
        field "Bytes Sent" (.uint64 stats.bytesSent),
        field "Times Recv" (.uint64 stats.timesReceived),
        field "Bytes Recv" (.uint64 stats.bytesReceived),
        field "Net Bytes Sent" (.uint64 stats.netBytesSent),
        field "Net Bytes Recv" (.uint64 stats.netBytesReceived)]
    | none => []) ++
  extra.getD []

end

end MassGridMiner

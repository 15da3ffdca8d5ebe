import MassGridMiner.Api.Dispatch
import MassGridMiner.Api.Fields

/-!
# The commands

A command answers with a message, and with a section of printed lists where it has something to
show.  What it does to the program besides is not told here, but for what the reply depends on.

## Main definitions

* `Section`, `Sections`, `CmdReply` — the message, and the sections.
* `commandFuncs` — the functions of `cmds`, by name.
* `ApiServer.reply` — what is replied for each thing that the loop of the API does.
-/

namespace MassGridMiner

open CStr

/-- The names of the sections; a goal that is not the default one is numbered. -/
inductive Heading
  | devs
  | pools
  | summary
  | version
  | mineconfig
  | gpu
  | pga
  | cpu
  | gpus
  | pgas
  | cpus
  | notify
  | minestats
  | check
  | debugset
  | minecoin (id : Option UInt32)

/-- A name as it is written. -/
def Heading.text : Heading → List UInt8
  | .devs => literal "DEVS"
  | .pools => literal "POOLS"
  | .summary => literal "SUMMARY"
  | .version => literal "VERSION"
  | .mineconfig => literal "CONFIG"
  | .gpu => literal "GPU"
  | .pga => literal "PGA"
  | .cpu => literal "CPU"
  | .gpus => literal "GPUS"
  | .pgas => literal "PGAS"
  | .cpus => literal "CPUS"
  | .notify => literal "NOTIFY"
  | .minestats => literal "STATS"
  | .check => literal "CHECK"
  | .debugset => literal "DEBUG"
  | .minecoin none => literal "COIN"
  | .minecoin (some id) => literal "COIN" ++ printUint id.toNat

/-- A part of a reply, with the lists in it, each with the flag that puts a comma in front.  In
plain text the heading may be missing. -/
structure Section where
  heading : Heading
  inText : Bool
  lists : List (List ApiField × Bool)

/-- The sections of a reply: one that the loop of the API closes when the command is done, or some
that the command closes itself. -/
inductive Sections
  | ofLoop (s : Section)
  | own (ss : List Section)

def Sections.toList : Sections → List Section
  | .ofLoop s => [s]
  | .own ss => ss

/-- What a command replies. -/
structure CmdReply where
  status : MessageCall
  sections : Sections

/-- The lists of a reply. -/
def CmdReply.lists (reply : CmdReply) : List (List ApiField × Bool) :=
  reply.sections.toList.flatMap Section.lists

/-- A reply of a message alone. -/
def say (messageid2 : ℕ) (paramid : ℤ) (param2 : Param2) : CmdReply where
  status := ⟨messageid2, paramid, param2⟩
  sections := .own []

/-- A reply with one section, which the loop closes. -/
def showing (messageid2 : ℕ) (paramid : ℤ) (heading : Heading) (inText : Bool)
    (lists : List (List ApiField × Bool)) : CmdReply where
  status := ⟨messageid2, paramid, .null⟩
  sections := .ofLoop ⟨heading, inText, lists⟩

/-- A parameter that is there and not empty. -/
def given (param : Option CStr) : Option CStr := param.filter fun p => p.bytes ≠ []

/-- The text in front of a comma, and that behind it if there is one. -/
def atComma (param : CStr) : CStr × Option CStr :=
  match cut comma param.bytes with
  | (text, rest) => (.ofMem text, rest.map .ofMem)

section
variable (b : Build) (env : ApiEnv) (st : ApiState) (perProc isjson : Bool)

/-! ## About the program -/

/-- `apiversion`. -/
def apiversion : CmdReply := showing Msg.version 0 .version true [(versionFields st, false)]

/-- `minerconfig`. -/
def minerconfig : CmdReply :=
  showing Msg.mineconfig 0 .mineconfig true [(minerconfigFields b st perProc, false)]

/-- `summary`. -/
def summary : CmdReply := showing Msg.summ 0 .summary true [(summaryFields b st, false)]

/-- What `debugstate` does for a letter. -/
def debugSet (st : ApiState) (letter : UInt8) : ApiState :=
  if letter = 0x73 then { st with optRealquiet := true }
  else if letter = 0x71 then { st with optQuiet := !st.optQuiet }
  else if letter = 0x76 then
    { st with optLogOutput := !st.optLogOutput, optQuiet := st.optLogOutput && st.optQuiet }
  else if letter = 0x64 then
    { st with
      optDebug := !st.optDebug
      optLogOutput := !st.optDebug
      optQuiet := st.optDebug && st.optQuiet }
  else if letter = 0x72 then
    { st with optProtocol := !st.optProtocol, optQuiet := st.optProtocol && st.optQuiet }
  else if letter = 0x70 then
    { st with
      wantPerDeviceStats := !st.wantPerDeviceStats
      optLogOutput := !st.wantPerDeviceStats }
  else if letter = 0x6e then
    { st with
      optLogOutput := false
      optDebug := false
      optQuiet := false
      optProtocol := false
      wantPerDeviceStats := false
      optWorktime := false }
  else if letter = 0x77 then { st with optWorktime := !st.optWorktime }
  else st

/-- `debugstate`. -/
def debugstate (param : Option CStr) : CmdReply :=
  let letter := (param.map fun p => tolower (p.get 0)).getD 0
  showing Msg.debugset 0 .debugset true [(debugFields (debugSet st letter), false)]

/-- `failoveronly`. -/
def failoveronly (param : Option CStr) : CmdReply :=
  match given param with
  | none => say Msg.misbool 0 .null
  | some param =>
    let letter := tolower (param.get 0)
    if letter ≠ 0x74 ∧ letter ≠ 0x66 then say Msg.invbool 0 .null
    else say Msg.foo (if letter = 0x74 then 1 else 0) .null

/-- `doquit`. -/
def doquit : CmdReply := say Msg.bye 0 (.string (cstr "BYE"))

/-- `dorestart`. -/
def dorestart : CmdReply := say Msg.bye 0 (.string (cstr "RESTART"))

/-- `privileged`. -/
def privileged : CmdReply := say Msg.accok 0 .null

/-- `dosave`. -/
def dosave (param : Option CStr) : CmdReply :=
  let param := (given param).getD env.defaultSaveFile
  if env.fopen param then say Msg.saved 0 (.escaped param) else say Msg.badfn 0 (.escaped param)

/-- `dozero`. -/
def dozero (param : Option CStr) : CmdReply :=
  match given param with
  | none => say Msg.zermis 0 .null
  | some param =>
    let (what, sum) := atComma param
    match given sum with
    | none => say Msg.misbool 0 .null
    | some sum =>
      let all := equalNoCase what.bytes (literal "all")
      if !all && !equalNoCase what.bytes (literal "bestshare") then
        say Msg.zerinv 0 (.string what)
      else
        let letter := tolower (sum.get 0)
        if letter ≠ 0x74 ∧ letter ≠ 0x66 then say Msg.invbool 0 .null
        else
          say (if letter = 0x74 then Msg.zersum else Msg.zernosum) 0
            (.string (cstr (if all then "All" else "BestShare")))

/-- `setconfig`, with the ports that the build has. -/
def setconfig (param : Option CStr) : CmdReply :=
  match given param with
  | none => say Msg.conpar 0 .null
  | some param =>
    match atComma param with
    | (param, none) => say Msg.conval 0 (.string param)
    | (param, some rest) =>
      if equalNoCase param.bytes (literal "coinbase-sig") then say Msg.setconfig 1 (.string param)
      else if equalNoCase param.bytes (literal "strategy") then
        let (name, arg) := atComma rest
        let value := env.bfgStrategyParse name
        if value < 0 then say Msg.invstrategy 0 (.string param)
        else if !env.bfgStrategyChange value arg then
          say Msg.invnum (atoi (arg.getD .empty).bytes) (.string param)
        else say Msg.setconfig value.toInt (.string param)
      else
        let value := atol rest.bytes
        if value < 0 ∨ 9999 < value then say Msg.invnum (value.bmod (2 ^ 32)) (.string param)
        else
          let done := say Msg.setconfig value (.string param)
          let is name := equalNoCase param.bytes (literal name)
          if is "queue" || is "scantime" || is "expiry" || b.useLibmicrohttpd && is "http-port" then
            done
          else if b.useLibevent && is "stratum-port" then
            if env.stratumsrvChangePort value then done
            else say Msg.failport value (.string param)
          else say Msg.unkcon 0 (.string param)

/-- `minecoin`. -/
def minecoin : CmdReply where
  status := ⟨Msg.minecoin, 0, .null⟩
  sections := .own (st.miningGoals.map fun goal =>
    { heading := .minecoin (if goal.isDefault then none else some goal.id)
      inText := true
      lists := [(coinFields b goal, false)] })

/-- `checkcommand`. -/
def checkcommand (table : CmdTable) (groups : ApiGroups) (group : UInt8) (param : Option CStr) :
    CmdReply :=
  match given param with
  | none => say Msg.mischk 0 .null
  | some param =>
    let found := table.cmds.any fun c => c.name == param.bytes
    let allowed := isPrivGroup group || (groups.commands group).any fun commands =>
      (strstr (enclosed separator param.bytes) commands).isSome
    showing Msg.check 0 .check true
      [([field "Exists" (.const (bool2str found)),
        field "Access" (.const (bool2str (found && allowed)))], false)]

/-! ## About devices -/

/-- The start of a command about one of several things: there are some; the parameter is given;
and its number is in range. -/
def withId (non : Option ℕ) (mis inv : ℕ) (count : ℤ) (param : Option CStr)
    (act : ℕ → CmdReply) : CmdReply :=
  match non with
  | some non => say non 0 .null
  | none =>
    match given param with
    | none => say mis 0 .null
    | some param =>
      let id := atoi param.bytes
      if id < 0 ∨ count ≤ id then say inv id .null else act id.toNat

/-- `devinfo_internal`. -/
def devinfoInternal (msg : ℕ) (fields : Cgpu → List ApiField) : CmdReply :=
  if st.devices = [] then say Msg.nodevs 0 .null
  else
    let shown := (st.devices.zipIdx.filter fun (cgpu, _) => cgpu.counted perProc)
    showing msg 0 .devs false (shown.map fun (cgpu, i) => (fields cgpu, isjson && 0 < i))

/-- `devdetail`. -/
def devdetail : CmdReply :=
  devinfoInternal st perProc isjson Msg.devdetails (devdetailFields st perProc)

/-- `devstatus`. -/
def devstatus : CmdReply :=
  devinfoInternal st perProc isjson Msg.devs (devstatusFields st perProc)

/-- `devscan`. -/
def devscan (param : Option CStr) : CmdReply :=
  let (n, st) := env.scanSerial (given param)
  let added := st.devices.drop (st.devices.length - n)
  showing Msg.devscan n .devs true
    (added.mapIdx fun i cgpu => (devdetailFields st perProc cgpu, decide (0 < i)))

/-- `notify`. -/
def notify : CmdReply :=
  if st.devices = [] then say Msg.nodevs 0 .null
  else
    showing Msg.notify 0 .notify false
      ((st.devices.filter (Cgpu.counted perProc)).mapIdx fun n cgpu =>
        (notifystatusFields st perProc n cgpu, isjson && 0 < n))

/-- `get_pga_cgpu`. -/
def withPga (param : Option CStr) (act : ℕ → Cgpu → CmdReply) : CmdReply :=
  withId (if numpgas st perProc = 0 then some Msg.pganon else none) Msg.misid Msg.invpga
    (numpgas st perProc) param fun id =>
      match pgadevice st perProc id with
      | some cgpu => act id cgpu
      | none => say Msg.invpga id .null

/-- `pgadev`. -/
def pgadev (param : Option CStr) : CmdReply :=
  withPga st perProc param fun id cgpu =>
    showing Msg.pgadev id .pga false [(devstatusFields st perProc cgpu, false)]

/-- `pgaenable`. -/
def pgaenable (param : Option CStr) : CmdReply :=
  withPga st perProc param fun id cgpu =>
    if (procsOf st perProc cgpu).any fun proc => proc.deven = .disabled then
      say Msg.pgaena id .null
    else say Msg.pgalrena id .null

/-- `pgadisable`. -/
def pgadisable (param : Option CStr) : CmdReply :=
  withPga st perProc param fun id cgpu =>
    if (procsOf st perProc cgpu).any fun proc => proc.deven ≠ .disabled then
      say Msg.pgadis id .null
    else say Msg.pgalrdis id .null

/-- `pgarestart`; its message has the number of another. -/
def pgarestart (param : Option CStr) : CmdReply :=
  withPga st perProc param fun id _ => say Msg.pgarei id .null

/-- `pgaidentify`. -/
def pgaidentify (param : Option CStr) : CmdReply :=
  withPga st perProc param fun id cgpu =>
    if env.identifyDevice cgpu.cgminerId then say Msg.pgaident id .null
    else say Msg.pganoid id .null

/-- `pgaset`. -/
def pgaset (param : Option CStr) : CmdReply :=
  if numpgas st perProc = 0 then say Msg.pganon 0 .null
  else
    match given param with
    | none => say Msg.misid 0 .null
    | some param =>
      let (param, opt) := atComma param
      match given opt with
      | none => say Msg.mispgaopt 0 .null
      | some opt =>
        let id := atoi param.bytes
        if id < 0 then say Msg.invpga id .null
        else
          match pgadevice st perProc id.toNat with
          | none => say Msg.invpga id .null
          | some cgpu =>
            let (opt, set) := atComma opt
            let (success, ret) := env.procSetDevice cgpu opt (set.getD .empty)
            let ret := (ret.map Param2.string).getD .null
            match success with
            | .help => say Msg.pgahelp id ret
            | .ok =>
              match ret with
              | .null => say Msg.pgasetok id .null
              | ret => say (useAltmsg ||| Msg.pgasetok) id ret
            | .unknown | .err => say Msg.pgaseterr id ret
            | .auto | .nosupp => say Msg.pganoset id .null

/-- A command that counts. -/
def countReply (msg : ℕ) (heading : Heading) (count : ℕ) : CmdReply :=
  showing msg 0 heading true [([field "Count" (.int (Int32.ofNat count))], false)]

/-- `gpucount`. -/
def gpucount : CmdReply := countReply Msg.numgpu .gpus (if b.useOpencl then st.gpus.length else 0)

/-- `pgacount`. -/
def pgacount : CmdReply := countReply Msg.numpga .pgas (numpgas st perProc)

/-- `cpucount`. -/
def cpucount : CmdReply :=
  countReply Msg.numcpu .cpus
    (if b.useCpumining && 0 < st.optNThreads then st.cpus.length else 0)

/-- `gpuenable` and `cpuenable`, for a processor and with the messages of its kind. -/
def enableReply (already restart sent : ℕ) (id : ℕ) (proc : Option Cgpu) : CmdReply :=
  if proc.map Cgpu.deven ≠ some .disabled then say already id .null
  else if proc.map Cgpu.status ≠ some .well then say restart id .null
  else say sent id .null

/-- `gpudisable` and `cpudisable`. -/
def disableReply (already set : ℕ) (id : ℕ) (proc : Option Cgpu) : CmdReply :=
  if proc.map Cgpu.deven = some .disabled then say already id .null else say set id .null

/-- The start of a command about a GPU. -/
def withGpu (param : Option CStr) (act : ℕ → CmdReply) : CmdReply :=
  withId (if st.gpus = [] then some Msg.gpunon else none) Msg.misid Msg.invgpu st.gpus.length
    param act

/-- `gpuenable`. -/
def gpuenable (param : Option CStr) : CmdReply :=
  withGpu st param fun id => enableReply Msg.alrena Msg.gpumre Msg.gpuren id st.gpus[id]?

/-- `gpudisable`. -/
def gpudisable (param : Option CStr) : CmdReply :=
  withGpu st param fun id => disableReply Msg.alrdis Msg.gpudis id st.gpus[id]?

/-- `gpurestart`. -/
def gpurestart (param : Option CStr) : CmdReply :=
  withGpu st param fun id => say Msg.gpurei id .null

/-- `gpudev`. -/
def gpudev (param : Option CStr) : CmdReply :=
  withGpu st param fun id =>
    showing Msg.gpudev id .gpu false
      ((st.gpus[id]?.map fun gpu => (devstatusFields st perProc gpu, false)).toList)

/-- `splitgpuvalue`. -/
def splitgpuvalue (param : Option CStr) (act : ℕ → CStr → CmdReply) : CmdReply :=
  if st.gpus = [] then say Msg.gpunon 0 .null
  else
    match given param with
    | none => say Msg.misid 0 .null
    | some param =>
      match atComma param with
      | (_, none) => say Msg.misval 0 .null
      | (gpu, some value) =>
        let id := atoi gpu.bytes
        if id < 0 ∨ st.gpus.length ≤ id then say Msg.invgpu id .null else act id.toNat value

/-- Whether `proc_set_device` sets a GPU. -/
def gpuSet (opt : String) (id : ℕ) (value : CStr) : Bool :=
  (st.gpus[id]?).any fun gpu => (env.procSetDevice gpu (cstr opt) value).1 = .ok

/-- `gpuintensity`. -/
def gpuintensity (param : Option CStr) : CmdReply :=
  splitgpuvalue st param fun id value =>
    if gpuSet env st "intensity" id value then
      say Msg.gpuint id (.string ((st.gpus[id]?.map env.intensitystr).getD .empty))
    else say Msg.invint 0 (.string value)

/-- `gpumem`, `gpuengine`, `gpufan` and `gpuvddc`. -/
def gpuReply (opt : String) (failed set : ℕ) (param : Option CStr) : CmdReply :=
  if b.haveAdl then
    splitgpuvalue st param fun id value =>
      say (if gpuSet env st opt id value then set else failed) id (.string value)
  else say Msg.noadl 0 .null

/-- `gpumem`. -/
def gpumem : Option CStr → CmdReply := gpuReply b env st "memclock" Msg.gpumerr Msg.gpumem

/-- `gpuengine`. -/
def gpuengine : Option CStr → CmdReply := gpuReply b env st "clock" Msg.gpueerr Msg.gpueng

/-- `gpufan`. -/
def gpufan : Option CStr → CmdReply := gpuReply b env st "fan" Msg.gpuferr Msg.gpufan

/-- `gpuvddc`. -/
def gpuvddc : Option CStr → CmdReply := gpuReply b env st "voltage" Msg.gpuverr Msg.gpuvddc

/-- The start of a command about mining on the processor; how many there are differs. -/
def withCpu (count : ℤ) (param : Option CStr) (act : ℕ → CmdReply) : CmdReply :=
  withId (if st.optNThreads ≤ 0 then some Msg.cpunon else none) Msg.misid Msg.invcpu count param act

/-- `cpuenable`. -/
def cpuenable (param : Option CStr) : CmdReply :=
  withCpu st st.optNThreads.toInt param fun id =>
    enableReply Msg.alrenac Msg.cpumre Msg.cpuren id st.cpus[id]?

/-- `cpudisable`. -/
def cpudisable (param : Option CStr) : CmdReply :=
  withCpu st st.optNThreads.toInt param fun id =>
    disableReply Msg.alrdisc Msg.cpudis id st.cpus[id]?

/-- `cpurestart`. -/
def cpurestart (param : Option CStr) : CmdReply :=
  withCpu st st.optNThreads.toInt param fun id => say Msg.cpurei id .null

/-- `cpudev`. -/
def cpudev (param : Option CStr) : CmdReply :=
  withCpu st st.cpus.length param fun id =>
    showing Msg.cpudev id .cpu false
      ((st.cpus[id]?.map fun cpu => (devstatusFields st perProc cpu, false)).toList)

/-- `minerstats`. -/
def minerstats : CmdReply :=
  let devices := st.devices.map fun cgpu =>
    (cgpu.procReprNs, cgpu.cgminerStats, none, cgpu.drv.getApiStats)
  let pools := st.pools.mapIdx fun j pool =>
    (.ofMem (literal "POOL" ++ printInt j), pool.cgminerStats, some pool.cgminerPoolStats, none)
  showing Msg.minestats 0 .minestats false
    ((devices ++ pools).mapIdx fun i (id, stats, poolStats, extra) =>
      (itemstats i id stats poolStats extra, isjson && 0 < i))

/-! ## About pools -/

/-- `poolstatus`. -/
def poolstatus : CmdReply :=
  if st.pools = [] then say Msg.nopool 0 .null
  else
    let shown := st.pools.zipIdx.filter fun (pool, _) => !pool.removed
    showing Msg.pool 0 .pools false
      (shown.map fun (pool, i) => (poolFields i pool, isjson && 0 < i))

/-- The start of a command about a pool. -/
def withPool (param : Option CStr) (act : ℕ → ApiPool → CmdReply) : CmdReply :=
  withId (if st.pools = [] then some Msg.nopool else none) Msg.mispid Msg.invpid st.pools.length
    param fun id =>
      match st.pools[id]? with
      | some pool => act id pool
      | none => say Msg.invpid id .null

/-- `switchpool`. -/
def switchpool (param : Option CStr) : CmdReply :=
  withPool st param fun id _ => say Msg.switchp id .null

/-- `enablepool`. -/
def enablepool (param : Option CStr) : CmdReply :=
  withPool st param fun id pool =>
    if pool.enabled = .enabled ∧ pool.failoverOnly = false then say Msg.alrenap id .null
    else say Msg.enapool id .null

/-- `disablepool`. -/
def disablepool (param : Option CStr) : CmdReply :=
  withPool st param fun id pool =>
    if pool.enabled = .disabled then say Msg.alrdisp id .null
    else if st.enabledPools ≤ 1 then say Msg.dislastp id .null
    else say Msg.dispool id .null

/-- `removepool`. -/
def removepool (param : Option CStr) : CmdReply :=
  withPool st param fun id pool =>
    if st.pools.length ≤ 1 then say Msg.remlastp id .null
    else if env.remainsCurrentPool id then say Msg.actpool id .null
    else say Msg.rempool id (.escaped pool.rpcUrl)

/-- `poolpriority`. -/
def poolpriority (param : Option CStr) : CmdReply :=
  let (msg, i) := env.prioritizePools param
  if msg = Msg.nopool ∨ msg = Msg.mispid then say msg 0 .null
  else if msg = Msg.invpid ∨ msg = Msg.duppid then say msg i.toInt .null
  else say Msg.poolprio 0 .null

/-- `poolquota`. -/
def poolquota (param : Option CStr) : CmdReply :=
  if st.pools = [] then say Msg.nopool 0 .null
  else
    match given param with
    | none => say Msg.mispid 0 .null
    | some param =>
      match atComma param with
      | (param, none) => say Msg.conval 0 (.string param)
      | (param, some rest) =>
        let id := atoi param.bytes
        if id < 0 then say Msg.invpid id .null
        else
          match st.pools[id.toNat]? with
          | none => say Msg.invpid id .null
          | some pool =>
            let quota := atoi rest.bytes
            say (if quota < 0 then Msg.invneg else Msg.setquota) quota (.string pool.rpcUrl)

/-- `copyadvanceafter`: what is copied, and what is left. -/
def copyadvanceafter (ch : UInt8) : List UInt8 → List UInt8 × List UInt8
  | 0x5c :: c :: src => ((copyadvanceafter ch src).map (c :: ·) id)
  | c :: src => if c = ch then ([], src) else (copyadvanceafter ch src).map (c :: ·) id
  | [] => ([], [])

/-- `pooldetails`: the address, the user, the password, and the goal if there is one. -/
def pooldetails (param : List UInt8) :
    Option (List UInt8 × List UInt8 × List UInt8 × Option (List UInt8)) :=
  let (url, param) := copyadvanceafter comma param
  if param = [] then none
  else
    let (user, param) := copyadvanceafter comma param
    if param = [] then none
    else
      let (pass, param) := copyadvanceafter comma param
      some (url, user, pass, if param = [] then none else some (copyadvanceafter comma param).1)

/-- `addpool`. -/
def addpool (param : Option CStr) : CmdReply :=
  match given param with
  | none => say Msg.mispdp 0 .null
  | some param =>
    match pooldetails param.bytes with
    | none => say Msg.invpdp 0 (.escaped param)
    | some (url, _) => say Msg.addpool 0 (.escaped (.ofMem url))

/-! ## The table of functions -/

/-- The functions of `cmds`. -/
def commandFuncs (table : CmdTable) (groups : ApiGroups) (group : UInt8) :
    List (String × (Option CStr → CmdReply)) :=
  [("version", fun _ => apiversion st),
    ("config", fun _ => minerconfig b st perProc),
    ("devscan", devscan env perProc),
    ("devs", fun _ => devstatus st perProc isjson),
    ("procs", fun _ => devstatus st perProc isjson),
    ("pools", fun _ => poolstatus st isjson),
    ("summary", fun _ => summary b st),
    ("gpuenable", gpuenable st),
    ("gpudisable", gpudisable st),
    ("gpurestart", gpurestart st),
    ("gpu", gpudev st perProc),
    ("pga", pgadev st perProc),
    ("pgaenable", pgaenable st perProc),
    ("pgadisable", pgadisable st perProc),
    ("pgarestart", pgarestart st perProc),
    ("pgaidentify", pgaidentify env st perProc),
    ("proc", pgadev st perProc),
    ("procenable", pgaenable st perProc),
    ("procdisable", pgadisable st perProc),
    ("procidentify", pgaidentify env st perProc),
    ("cpuenable", cpuenable st),
    ("cpudisable", cpudisable st),
    ("cpurestart", cpurestart st),
    ("cpu", cpudev st perProc),
    ("gpucount", fun _ => gpucount b st),
    ("pgacount", fun _ => pgacount st perProc),
    ("proccount", fun _ => pgacount st perProc),
    ("cpucount", fun _ => cpucount b st),
    ("switchpool", switchpool st),
    ("addpool", addpool),
    ("poolpriority", poolpriority env),
    ("poolquota", poolquota st),
    ("enablepool", enablepool st),
    ("disablepool", disablepool st),
    ("removepool", removepool env st),
    ("gpuintensity", gpuintensity env st),
    ("gpumem", gpumem b env st),
    ("gpuengine", gpuengine b env st),
    ("gpufan", gpufan b env st),
    ("gpuvddc", gpuvddc b env st),
    ("save", dosave env),
    ("quit", fun _ => doquit),
    ("privileged", fun _ => privileged),
    ("notify", fun _ => notify st perProc isjson),
    ("procnotify", fun _ => notify st perProc isjson),
    ("devdetails", fun _ => devdetail st perProc isjson),
    ("procdetails", fun _ => devdetail st perProc isjson),
    ("restart", fun _ => dorestart),
    ("stats", fun _ => minerstats st isjson),
    ("check", checkcommand table groups group),
    ("failover-only", failoveronly),
    ("coin", fun _ => minecoin b st),
    ("debug", debugstate st),
    ("setconfig", setconfig b env),
    ("pgaset", pgaset env st perProc),
    ("procset", pgaset env st perProc),
    ("zero", dozero)]

end

/-- `strncmp(cmds[i].name, "proc", 4)`, which counts processors instead of devices. -/
def Cmd.perProc (c : Cmd) : Bool := literal "proc" <+: c.name

/-- The messages of the loop. -/
def ApiMsg.call : ApiMsg → MessageCall
  | .invjson => ⟨Msg.invjson, 0, .null⟩
  | .miscmd => ⟨Msg.miscmd, 0, .null⟩
  | .invcmd => ⟨Msg.invcmd, 0, .null⟩
  | .accdeny cmd => ⟨Msg.accdeny, 0, .string (.ofMem cmd)⟩

/-- The functions have the names of the commands, in their order. -/
theorem map_name_commandFuncs (b : Build) (env : ApiEnv) (st : ApiState) (perProc isjson : Bool)
    (table : CmdTable) (groups : ApiGroups) (group : UInt8) :
    ((commandFuncs b env st perProc isjson table groups group).map fun f => literal f.1) =
      (cmds true true).map Cmd.name := rfl

theorem cmds_subset (useOpencl useCpumining : Bool) :
    cmds useOpencl useCpumining ⊆ cmds true true := by
  revert useOpencl useCpumining
  decide +kernel

/-- The program at the time of a request, and the group of the client. -/
structure ApiServer where
  build : Build
  env : ApiEnv
  st : ApiState
  groups : ApiGroups
  group : UInt8

namespace ApiServer
variable (srv : ApiServer) (isjson : Bool)

/-- The commands of the build. -/
def table : CmdTable := cmdTable srv.build.useOpencl srv.build.useCpumining

/-- What a command of the table replies. -/
def commandReply (c : Cmd) (param : Option (List UInt8)) : Option CmdReply :=
  ((commandFuncs srv.build srv.env srv.st c.perProc isjson srv.table srv.groups
    srv.group).find? fun f => literal f.1 == c.name).map fun f => f.2 (param.map .ofMem)

/-- What is replied for a thing that the loop does, and whether processors are counted then.  The
loop's own messages count nothing. -/
def reply : ApiEvent → Option (CmdReply × Bool)
  | .call c param => (srv.commandReply isjson c param).map fun reply => (reply, c.perProc)
  | .message msg => some (⟨msg.call, .own []⟩, false)
  | _ => none

/-- Every command of the table has a function. -/
theorem isSome_commandReply {c : Cmd} (hc : c ∈ srv.table.cmds) (param : Option (List UInt8)) :
    (srv.commandReply isjson c param).isSome = true := by
  rw [commandReply, Option.isSome_map, List.find?_isSome]
  have hname : c.name ∈ (cmds true true).map Cmd.name :=
    List.mem_map_of_mem (cmds_subset _ _ hc)
  rw [← map_name_commandFuncs srv.build srv.env srv.st c.perProc isjson srv.table srv.groups
    srv.group] at hname
  obtain ⟨f, hf, hfname⟩ := List.mem_map.mp hname
  exact ⟨f, hf, beq_iff_eq.mpr hfname⟩

/-- The function of a command is that of its name. -/
theorem commandReply_eq {c : Cmd} {f : String × (Option CStr → CmdReply)}
    (hf : f ∈ commandFuncs srv.build srv.env srv.st c.perProc isjson srv.table srv.groups srv.group)
    (hname : literal f.1 = c.name) (param : Option (List UInt8)) :
    srv.commandReply isjson c param = some (f.2 (param.map .ofMem)) := by
  have hnodup : ((cmds true true).map Cmd.name).Nodup :=
    .of_map (·.map CStr.tolower) (by simpa using! (cmdTable true true).nodup)
  rw [← map_name_commandFuncs srv.build srv.env srv.st c.perProc isjson srv.table srv.groups
    srv.group] at hnodup
  rw [commandReply]
  cases hfind : (commandFuncs srv.build srv.env srv.st c.perProc isjson srv.table srv.groups
    srv.group).find? fun f => literal f.1 == c.name with
  | none => exact absurd hname (by simpa using List.find?_eq_none.mp hfind f hf)
  | some g =>
      have hg : literal g.1 = c.name := by simpa using List.find?_some hfind
      rw [List.inj_on_of_nodup_map hnodup (List.mem_of_find?_eq_some hfind) hf
        (hg.trans hname.symm)]
      rfl

end ApiServer

end MassGridMiner

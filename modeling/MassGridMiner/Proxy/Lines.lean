import MassGridMiner.Proxy.SetDifficulty
import MassGridMiner.Proxy.Subscribe
import MassGridMiner.Share.Work2d
import MassGridMiner.Stratum.Json
import MassGridMiner.Lib.Atof

/-!
# Lines of the miners behind the proxy

A miner sends requests, each an object with a method, parameters and an id, and is answered in
a buffer that the handler has for the answer.  What a request leaves out is a null pointer in
the handler, and how long an id is, is up to the miner.

## Main definitions

* `Ssm` — the stratum server: its connections, clients and jobs.
* `Write`, `Write.Inside` — what is sent, and that it lies in its buffer.
* `processLine` — `stratumsrv_process_line`, with a handler for each method.
* `Ssm.step` — lines, connections and new jobs, in any order.
-/

namespace MassGridMiner

open CStr

/-- `stratumsrv_conn_capabilities_t`. -/
structure Capabilities where
  notify : Bool
  setDiff : Bool
  setGoal : Bool
  deriving DecidableEq

/-- `struct stratumsrv_conn`; `booted` says that its lines are not read any more. -/
structure SsmConn where
  ident : ℕ
  capabilities : Capabilities
  xnonce1Le : UInt32
  hashesDoneExt : Bool
  currentSharePdiff : SharePdiff
  desiredDefaultSharePdiff : Bool
  desiredSharePdiff : SharePdiff
  authorisedUsers : List CStr
  booted : Bool

/-- `struct proxy_client`.  Its device and the thread of that are there with it. -/
structure ProxyClient where
  username : CStr
  desiredSharePdiff : SharePdiff

/-- `struct stratumsrv_job`, with the difficulty of its target and the lowest that is reasonable
for the algorithm of its goal. -/
structure SsmJob where
  myJobId : List UInt8
  targetDiff : SharePdiff
  reasonableLowNonceDiff : SharePdiff
  jobPdiff : UInt32 → SharePdiff

/-- The stratum server.  `_ssm_last_ssj` points to a job of the table, by its id. -/
structure Ssm where
  reserved : Work2dReserved
  connections : List SsmConn
  fresh : ℕ
  clients : List ProxyClient
  jobs : List SsmJob
  notify : Option (List UInt8)
  setgoal : Option (List UInt8)
  lastSsj : Option (List UInt8)

/-- What is passed to `bufferevent_write`: so many bytes of a buffer of the handler, or a text
that all connections share. -/
inductive Write
  | reply (conn : ℕ) (buf : TextBuffer) (count : ℕ)
  | shared (conn : ℕ) (text : List UInt8)

/-- The text with its terminator lies inside the buffer, and no more of it is sent. -/
def Write.Inside : Write → Prop
  | .reply _ buf count => buf.text.length + 1 ≤ buf.size ∧ count ≤ buf.text.length + 1
  | .shared _ _ => True

instance : DecidablePred Write.Inside
  | .reply _ buf count =>
    inferInstanceAs (Decidable (buf.text.length + 1 ≤ buf.size ∧ count ≤ buf.text.length + 1))
  | .shared _ _ => inferInstanceAs (Decidable True)

/-- What a handler leaves behind and sends, or `none` where it dereferences a null pointer. -/
abbrev Outcome := Option (Ssm × List Write)

/-! ## The answers -/

/-- `_stratumsrv_failure`. -/
def stratumsrvFailure (conn : ℕ) (idstr : Option (List UInt8)) (e : ℤ) (emsg : String) :
    List Write :=
  match idstr with
  | none => []
  | some idstr =>
    let fmt := "\x7b\"error\":[%s,\"%s\",null],\"id\":%s,\"result\":null\x7d\n"
    let args := [literal (toString e), literal emsg, idstr]
    [.reply conn (snprintf 0x100 fmt args) (format (literal fmt) args).length]

/-- `stratumsrv_success2`. -/
def stratumsrvSuccess2 (conn : ℕ) (idstr : Option (List UInt8)) (resultstr : String) :
    List Write :=
  match idstr with
  | none => []
  | some idstr =>
    let buf := sprintf (32 + (literal resultstr).length + idstr.length)
      "\x7b\"result\":%s,\"id\":%s,\"error\":null\x7d\n" [literal resultstr, idstr]
    [.reply conn buf buf.text.length]

/-- `stratumsrv_send_set_difficulty`, up to the difficulty that it notes. -/
def sendSetDifficulty (conn : ℕ) (sharePdiff : SharePdiff) : Option Write :=
  (difficultyText sharePdiff).map fun text =>
    let fmt := "\x7b\"params\":[%s],\"id\":null,\"method\":\"mining.set_difficulty\"\x7d\n"
    .reply conn (snprintf 0x100 fmt [text]) (format (literal fmt) [text]).length

/-- The message of `stratumsrv_boot`. -/
def bootMessage (conn : ℕ) (msg : String) : Write :=
  let buf := sprintf (58 + (literal msg).length)
    "\x7b\"params\":[\"%s\"],\"method\":\"client.show_message\",\"id\":null\x7d\n" [literal msg]
  .reply conn buf buf.text.length

/-- `stratumsrv_choose_share_pdiff`. -/
def chooseSharePdiff (conn : SsmConn) (reasonableLowNonceDiff : SharePdiff) : SharePdiff :=
  if conn.desiredDefaultSharePdiff ∧ reasonableLowNonceDiff < conn.desiredSharePdiff then
    reasonableLowNonceDiff
  else conn.desiredSharePdiff

namespace Ssm

/-- The open connection with a number. -/
def find (s : Ssm) (conn : ℕ) : Option SsmConn := s.connections.find? fun c => c.ident == conn

/-- A connection is written to. -/
def setConn (s : Ssm) (conn : ℕ) (f : SsmConn → SsmConn) : Ssm :=
  { s with connections := s.connections.map fun c => if c.ident = conn then f c else c }

/-- The job that an id names. -/
def findJob (s : Ssm) (jobId : List UInt8) : Option SsmJob :=
  s.jobs.find? fun job => job.myJobId == jobId

/-- The difficulty of a job for a value of the extranonce is written. -/
def setJobPdiff (s : Ssm) (jobId : List UInt8) (xnonce1 : UInt32) (pdiff : SharePdiff) : Ssm :=
  { s with
    jobs := s.jobs.map fun job =>
      if job.myJobId = jobId then
        { job with jobPdiff := fun x => if x = xnonce1 then pdiff else job.jobPdiff x }
      else job }

/-! ## New jobs -/

/-- What `stratumsrv_update_notify_str` comes to: nothing, as the job is stale or the same; or
there is no usable job; or there is a new one.  With `clean` no job from before is of use. -/
inductive Update
  | unchanged
  | unusable (clean : Bool)
  | job (clean : Bool) (kept : List (List UInt8)) (job : SsmJob) (notify setgoal : List UInt8)

/-- There is a new job. -/
def Update.isJob : Update → Bool
  | .job .. => true
  | _ => false

/-- `stratumsrv_boot_all_subscribed`. -/
def bootAllSubscribed (s : Ssm) (msg : String) : Ssm × List Write :=
  ({ s with
      notify := none
      lastSsj := none
      connections := s.connections.map fun c => { c with booted := c.booted || c.xnonce1Le != 0 } },
    (s.connections.filter fun c => c.xnonce1Le != 0).map fun c => bootMessage c.ident msg)

/-- The difficulty of a job for a connection is noted, and the connection told of it. -/
def tellDifficulty (s : Ssm) (conn : SsmConn) (jobId : List UInt8) (xnonce1 : UInt32)
    (pdiff : SharePdiff) : Outcome :=
  (sendSetDifficulty conn.ident pdiff).map fun w =>
    ((s.setJobPdiff jobId xnonce1 pdiff).setConn conn.ident fun c =>
      { c with currentSharePdiff := pdiff }, [w])

/-- The loop that tells the subscribed connections of a new job. -/
def announce (s : Ssm) (job : SsmJob) (notify setgoal : List UInt8) (setgoalChanged : Bool) :
    List SsmConn → Outcome
  | [] => some (s, [])
  | conn :: rest =>
    if conn.xnonce1Le = 0 then announce s job notify setgoal setgoalChanged rest
    else
      let goal := if setgoalChanged && conn.capabilities.setGoal then [.shared conn.ident setgoal]
        else []
      let work := if conn.capabilities.notify then [.shared conn.ident notify] else []
      let connPdiff := chooseSharePdiff conn job.reasonableLowNonceDiff
      let connPdiff := if job.targetDiff < connPdiff then job.targetDiff else connPdiff
      let told : Outcome :=
        if conn.capabilities.setDiff then
          if connPdiff = conn.currentSharePdiff then
            some (s.setJobPdiff job.myJobId conn.xnonce1Le connPdiff, [])
          else s.tellDifficulty conn job.myJobId conn.xnonce1Le connPdiff
        else some (s, [])
      told.bind fun (s, diff) =>
        (announce s job notify setgoal setgoalChanged rest).map fun (s, ws) =>
          (s, goal ++ diff ++ work ++ ws)

/-- `stratumsrv_update_notify_str`. -/
def updateNotify (s : Ssm) : Update → Outcome
  | .unchanged => some (s, [])
  | .unusable clean =>
    if clean then
      some (s.bootAllSubscribed "Current upstream pool does not have usable 2D work")
    else some (s, [])
  | .job clean kept job notify setgoal =>
    let setgoalChanged := s.setgoal != some setgoal
    let jobs := if clean then [] else s.jobs.filter fun job => kept.contains job.myJobId
    let s' := { s with
      jobs := job :: jobs
      notify := some notify
      setgoal := some setgoal
      lastSsj := some job.myJobId }
    s'.announce job notify setgoal setgoalChanged s.connections

/-! ## The handlers -/

/-- `proxy_find_or_create_client`, which is taken to succeed for every name. -/
def findOrCreateClient (s : Ssm) (username : CStr) : Ssm × ProxyClient :=
  match s.clients.find? fun client => client.username == username with
  | some client => (s, client)
  | none =>
    let client := { username, desiredSharePdiff := SharePdiff.zero }
    ({ s with clients := s.clients ++ [client] }, client)

end Ssm

/-- The parameters of a share: the client, the id of the job, and the texts of the extranonce,
the time and the nonce. -/
structure ShareParams where
  jobId : CStr
  extranonce2 : CStr
  ntime : CStr
  nonce : CStr

/-- What work2d makes of a share: whether it is accepted, and whether it is stale. -/
abbrev SubmitNonce := SsmJob → ShareParams → UInt32 → SharePdiff → Bool × Bool

/-- The checks of `stratumsrv_mining_submit` before the job is looked up. -/
def submitParams (params : Json) : Except (ℤ × String) ShareParams :=
  match jsonArrayString params 1, jsonArrayString params 2, jsonArrayString params 3,
    jsonArrayString params 4 with
  | some jobId, some extranonce2, some ntime, some nonce =>
    if nonce.length < 8 then .error (20, "nonce too short")
    else if ntime.length < 8 then .error (20, "ntime too short")
    else if extranonce2.length < work2dXnonce2sz * 2 then .error (20, "extranonce2 too short")
    else .ok { jobId, extranonce2, ntime, nonce }
  | _, _, _, _ => .error (20, "Couldn't understand parameters")

/-- The difficulty of a share: that of the job for the extranonce, or that of the connection
where the job has none. -/
def nonceDiff (ssj : SsmJob) (conn : SsmConn) : SharePdiff :=
  if ssj.jobPdiff conn.xnonce1Le ≤ SharePdiff.zero then conn.currentSharePdiff
  else ssj.jobPdiff conn.xnonce1Le

namespace Ssm

/-- `stratumsrv_mining_submit`. -/
def miningSubmit (s : Ssm) (conn : SsmConn) (submitNonce : SubmitNonce) (params : Json)
    (idstr : Option (List UInt8)) : Outcome :=
  match jsonArrayString params 0 with
  | none => some (s, stratumsrvFailure conn.ident idstr 20 "Failed creating new cgpu")
  | some username =>
    let (s, _) := s.findOrCreateClient username
    match submitParams params with
    | .error (e, emsg) => some (s, stratumsrvFailure conn.ident idstr e emsg)
    | .ok share =>
      match s.findJob share.jobId.bytes with
      | none => some (s, stratumsrvFailure conn.ident idstr 21 "Job not found")
      | some ssj =>
        let (rv, isStale) := submitNonce ssj share conn.xnonce1Le (nonceDiff ssj conn)
        some (s,
          if !rv then stratumsrvFailure conn.ident idstr 23 "H-not-zero"
          else if isStale then stratumsrvFailure conn.ident idstr 21 "stale"
          else stratumsrvSuccess2 conn.ident idstr "true")

end Ssm

/-- `json_is_number`. -/
def jsonIsNumber : Option Json → Bool
  | some (.integer _) | some (.real _) => true
  | _ => false

/-- `json_is_array`. -/
def jsonIsArray : Json → Bool
  | .array _ => true
  | _ => false

/-- The message of `stratumsrv_mining_hashes_done`. -/
def hashesDoneUsage : String :=
  "mining.hashes_done(String username, Number duration-in-seconds, Number hashcount)"

namespace Ssm

/-- `stratumsrv_mining_hashes_done`, without the hashes that it counts. -/
def miningHashesDone (s : Ssm) (conn : SsmConn) (params : Json) (idstr : Option (List UInt8)) :
    Outcome :=
  let (s, client) := match jsonArrayString params 0 with
    | none => (s, none)
    | some username => let (s, client) := s.findOrCreateClient username; (s, some client)
  if !(jsonIsNumber (Json.arrayGet params 1) && jsonIsNumber (Json.arrayGet params 2)) then
    some (s, stratumsrvFailure conn.ident idstr 20 hashesDoneUsage)
  else
    match client with
    | none => none
    | some _ => some (s.setConn conn.ident fun c => { c with hashesDoneExt := true }, [])

/-- `stratumsrv_mining_authorize`. -/
def miningAuthorize (s : Ssm) (conn : SsmConn) (params : Json) (idstr : Option (List UInt8)) :
    Outcome :=
  match jsonArrayString params 0 with
  | none =>
    some (s, stratumsrvFailure conn.ident idstr 20 "Missing or non-String username parameter")
  | some username =>
    let (s, client) := s.findOrCreateClient username
    let first := conn.authorisedUsers.isEmpty
    let s := s.setConn conn.ident fun c =>
      if client.desiredSharePdiff ≠ SharePdiff.zero then
        { c with
          desiredDefaultSharePdiff := if first then false else c.desiredDefaultSharePdiff
          desiredSharePdiff :=
            if first ∨ client.desiredSharePdiff < c.desiredSharePdiff then client.desiredSharePdiff
            else c.desiredSharePdiff }
      else
        { c with
          desiredDefaultSharePdiff := true
          desiredSharePdiff := if first then SharePdiff.max else c.desiredSharePdiff }
    some (s.setConn conn.ident fun c => { c with authorisedUsers := username :: c.authorisedUsers },
      stratumsrvSuccess2 conn.ident idstr "true")

/-- `stratumsrv_mining_capabilities`. -/
def miningCapabilities (s : Ssm) (conn : SsmConn) (params : Json) (idstr : Option (List UInt8)) :
    Outcome :=
  match params with
  | .array elems =>
    let names := match elems.head? with
      | some (.object members) => members.map fun m : String × Json => literal m.1
      | _ => []
    let names (name : String) : Bool := names.any fun s => equalNoCase s (literal name)
    let capabilities : Capabilities :=
      { notify := names "notify", setDiff := names "set_difficulty", setGoal := names "set_goal" }
    some (s.setConn conn.ident fun c => { c with capabilities },
      stratumsrvSuccess2 conn.ident idstr "null")
  | _ => some (s, stratumsrvFailure conn.ident idstr 20 "Bad params")

/-- The answer to a subscription, in a buffer that is sized by the id. -/
def subscribeReply (conn : ℕ) (xnonce1 : UInt32) (idstr : List UInt8) : Write :=
  let xnonce1x := bin2hex ((le32 xnonce1).take work2dXnonce1sz)
  let buf := sprintf (90 + idstr.length + work2dXnonce1sz * 2 * 2 + 0x10)
    ("\x7b\"id\":%s,\"result\":[[[\"mining.set_difficulty\",\"x\"],[\"mining.notify\",\"%s\"]]," ++
      "\"%s\",%s],\"error\":null\x7d\n")
    [idstr, xnonce1x, xnonce1x, literal (toString work2dXnonce2sz)]
  .reply conn buf buf.text.length

/-- What a connection is sent when it has subscribed: its difficulty for the last job, and the
work. -/
def sendWork (s : Ssm) (conn : SsmConn) (xnonce1 : UInt32) (notify : List UInt8) : Outcome :=
  let goal := match conn.capabilities.setGoal, s.setgoal with
    | true, some setgoal => [.shared conn.ident setgoal]
    | _, _ => []
  let told : Outcome :=
    if conn.capabilities.setDiff then
      match s.lastSsj.bind s.findJob with
      | none => none
      | some job =>
        let connPdiff := chooseSharePdiff conn job.reasonableLowNonceDiff
        let pdiff := if connPdiff < job.targetDiff then connPdiff else job.targetDiff
        s.tellDifficulty conn job.myJobId xnonce1 pdiff
    else some (s, [])
  told.map fun (s, diff) =>
    (s, goal ++ diff ++ if conn.capabilities.notify then [.shared conn.ident notify] else [])

/-- The rest of `stratumsrv_mining_subscribe`, with a job to announce.  The size of the buffer is
that of the id, whose length is taken before anything else. -/
def subscribeTo (s : Ssm) (conn : SsmConn) (notify : List UInt8) (idstr : List UInt8) : Outcome :=
  if conn.xnonce1Le = 0 then
    match reserveWork2d s.reserved with
    | none =>
      some (s, stratumsrvFailure conn.ident (some idstr) 20 "Maximum clients already connected")
    | some (reserved, xnonce1) =>
      let s := { s with reserved }.setConn conn.ident fun c => { c with xnonce1Le := xnonce1 }
      (s.sendWork conn xnonce1 notify).map fun (s, ws) =>
        (s, subscribeReply conn.ident xnonce1 idstr :: ws)
  else
    (s.sendWork conn conn.xnonce1Le notify).map fun (s, ws) =>
      (s, subscribeReply conn.ident conn.xnonce1Le idstr :: ws)

/-- `stratumsrv_mining_subscribe`. -/
def miningSubscribe (s : Ssm) (conn : SsmConn) (update : Update) (idstr : Option (List UInt8)) :
    Outcome :=
  match idstr with
  | none => none
  | some idstr =>
    match s.notify with
    | some notify => s.subscribeTo conn notify idstr
    | none =>
      (s.updateNotify update).bind fun (s, told) =>
        (match s.notify with
          | none =>
            some (s, stratumsrvFailure conn.ident (some idstr) 20
              "No notify set (upstream not stratum?)")
          | some notify => s.subscribeTo conn notify idstr).map fun (s, ws) => (s, told ++ ws)

end Ssm

/-- What the lines depend on besides the server: the JSON library's parser and printer, what an
attempt to announce a job comes to, and what work2d makes of a share. -/
structure LineEnv where
  loads : List UInt8 → Option Json
  dumps : Json → List UInt8
  update : Ssm.Update
  submitNonce : SubmitNonce

/-- The id of a request, printed, unless it is missing or null. -/
def LineEnv.idstr (env : LineEnv) (json : Json) : Option (List UInt8) :=
  match json.get "id" with
  | none | some .null => none
  | some id => some (env.dumps id)

/-- The text of a method, in upper or lower case. -/
def isMethod (method : List UInt8) (name : String) : Bool := equalNoCase method (literal name)

namespace Ssm

/-- The handler of a method. -/
def handle (s : Ssm) (conn : SsmConn) (env : LineEnv) (method : List UInt8) (params : Json)
    (idstr : Option (List UInt8)) : Outcome :=
  if isMethod method "mining.submit" then
    s.miningSubmit conn env.submitNonce params idstr
  else if isMethod method "mining.hashes_done" then
    s.miningHashesDone conn params idstr
  else if isMethod method "mining.authorize" then
    s.miningAuthorize conn params idstr
  else if isMethod method "mining.subscribe" then
    s.miningSubscribe conn env.update idstr
  else if isMethod method "mining.capabilities" then
    s.miningCapabilities conn params idstr
  else some (s, stratumsrvFailure conn.ident idstr (-3) "Method not supported")

/-- `stratumsrv_process_line`, with what it returns. -/
def processLine (s : Ssm) (conn : SsmConn) (env : LineEnv) (ln : List UInt8) :
    Option (Ssm × List Write × Bool) :=
  match env.loads ln with
  | none => some (s, [], false)
  | some json =>
    match jsonStringValue (json.get "method"), json.get "params" with
    | some method, some params =>
      (s.handle conn env method.bytes params (env.idstr json)).map fun (s, ws) => (s, ws, true)
    | _, _ => some (s, [], false)

/-! ## Runs -/

/-- `stratumlistener`. -/
def listen (s : Ssm) : Ssm :=
  { s with
    connections :=
      { ident := s.fresh
        capabilities := { notify := true, setDiff := true, setGoal := false }
        xnonce1Le := 0
        hashesDoneExt := false
        currentSharePdiff := SharePdiff.zero
        desiredDefaultSharePdiff := true
        desiredSharePdiff := SharePdiff.max
        authorisedUsers := []
        booted := false } :: s.connections
    fresh := s.fresh + 1 }

/-- `stratumsrv_client_close`. -/
def clientClose (s : Ssm) (conn : SsmConn) : Ssm :=
  { s with
    reserved := releaseWork2d s.reserved conn.xnonce1Le
    connections := s.connections.filter fun c => c.ident != conn.ident }

/-- What happens: a connection is opened, sends a line, or is closed; an attempt is made to
announce a job; the difficulty of a client is set. -/
inductive Event
  | listen
  | line (conn : ℕ) (env : LineEnv) (ln : List UInt8)
  | close (conn : ℕ)
  | update (update : Update)
  | setDiff (username : CStr) (pdiff : SharePdiff)

/-- One event.  At a null pointer the program ends; the server is left as it was, for
`processLine` to tell. -/
def step (s : Ssm) : Event → Option Ssm
  | .listen => some s.listen
  | .line conn env ln =>
    (s.find conn).bind fun c =>
      if c.booted then none
      else
        match s.processLine c env ln with
        | none => some s
        | some (s', _, rv) => some (if rv then s' else s'.clientClose c)
  | .close conn => (s.find conn).map s.clientClose
  | .update update => (s.updateNotify update).map Prod.fst
  | .setDiff username pdiff =>
    some { s with
      clients := s.clients.map fun client =>
        if client.username = username then { client with desiredSharePdiff := pdiff } else client }

/-- Before anything happens. -/
def init : Ssm where
  reserved := Work2dReserved.init
  connections := []
  fresh := 0
  clients := []
  jobs := []
  notify := none
  setgoal := none
  lastSsj := none

/-! ## What is asked -/

/-- A line is taken without a null pointer, and what is sent in answer lies in its buffer. -/
def Safe (s : Ssm) (e : Event) (_ : Ssm) : Prop :=
  ∀ conn c env ln, e = .line conn env ln → s.find conn = some c →
    ∃ s' ws rv, s.processLine c env ln = some (s', ws, rv) ∧ ∀ w ∈ ws, w.Inside

/-- The code and the message with which a share is refused. -/
def submitRefusal (s : Ssm) (conn : SsmConn) (submitNonce : SubmitNonce) (params : Json) :
    Option (ℤ × String) :=
  if (jsonArrayString params 0).isNone then some (20, "Failed creating new cgpu")
  else
    match submitParams params with
    | .error refused => some refused
    | .ok share =>
      match s.findJob share.jobId.bytes with
      | none => some (21, "Job not found")
      | some ssj =>
        let (rv, isStale) := submitNonce ssj share conn.xnonce1Le (nonceDiff ssj conn)
        if !rv then some (23, "H-not-zero") else if isStale then some (21, "stale") else none

/-- With which a subscription is refused. -/
def subscribeRefusal (s : Ssm) (conn : SsmConn) (update : Update) : Option (ℤ × String) :=
  if s.notify.isNone ∧ !update.isJob then some (20, "No notify set (upstream not stratum?)")
  else if conn.xnonce1Le = 0 ∧ (reserveWork2d s.reserved).isNone then
    some (20, "Maximum clients already connected")
  else none

/-- With which any request is refused. -/
def refusal (s : Ssm) (conn : SsmConn) (env : LineEnv) (method : List UInt8) (params : Json) :
    Option (ℤ × String) :=
  if isMethod method "mining.submit" then s.submitRefusal conn env.submitNonce params
  else if isMethod method "mining.hashes_done" then
    if jsonIsNumber (Json.arrayGet params 1) && jsonIsNumber (Json.arrayGet params 2) then none
    else some (20, hashesDoneUsage)
  else if isMethod method "mining.authorize" then
    if (jsonArrayString params 0).isNone then
      some (20, "Missing or non-String username parameter")
    else none
  else if isMethod method "mining.subscribe" then s.subscribeRefusal conn env.update
  else if isMethod method "mining.capabilities" then
    if jsonIsArray params then none else some (20, "Bad params")
  else some (-3, "Method not supported")

/-- There is room for the id behind the message of a refusal. -/
def Room (idstr : Option (List UInt8)) (refused : Option (ℤ × String)) : Prop :=
  ∀ id e emsg, idstr = some id → refused = some (e, emsg) →
    (literal (toString e)).length + (literal emsg).length + id.length ≤ 215

/-- What a miner has to give: an id to subscribe; a user for the hashes that it reports; and no
longer an id than there is room for behind the message, where it is refused. -/
structure LineOk (s : Ssm) (conn : SsmConn) (env : LineEnv) (method : List UInt8) (params : Json)
    (idstr : Option (List UInt8)) : Prop where
  subscribe_id : isMethod method "mining.subscribe" → idstr.isSome
  hashes_user : isMethod method "mining.hashes_done" → jsonIsNumber (Json.arrayGet params 1) →
    jsonIsNumber (Json.arrayGet params 2) → (jsonArrayString params 0).isSome
  room : Room idstr (s.refusal conn env method params)

end Ssm

end MassGridMiner

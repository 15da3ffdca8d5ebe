import MassGridMiner.Proxy.LineSafety

/-!
# The difficulty that a share is judged by

The proxy keeps the difficulty of each job for each value of the first extranonce, and looks it up
when a share is submitted.  The values go from one connection to the next, and a connection chooses
whether it is told difficulties, and jobs.  What each one was sent is kept beside the server.

## Main definitions

* `SsmLedger` — the stratum server, with what it has sent to its connections.
* `SsmLedger.step` — connections, their requests, jobs and wishes, in any order.
* `SsmLedger.ssm_update`, `SsmLedger.ssm_subscribe` — it does what the handlers do.
* `SsmLedger.Lawful` — a share is judged by what its connection was told.
* `SsmLedger.Settled` — the condition for that.
-/

namespace MassGridMiner

/-- A difficulty that is not zero. -/
abbrev PosPdiff := { p : SharePdiff // SharePdiff.zero < p }

theorem SharePdiff.pos_of_ne {p : SharePdiff} (hne : p ≠ SharePdiff.zero) :
    SharePdiff.zero < p := by
  cases p with
  | none => exact WithTop.coe_lt_top _
  | some x =>
    refine WithTop.coe_lt_coe.mpr (lt_of_le_of_ne ?_ fun h => hne (congrArg _ h.symm))
    show (0 : ℚ) ≤ x.val
    rcases x.property with hzero | ⟨hlow, -⟩
    · exact hzero.ge
    · exact le_trans (by positivity) hlow

/-- A job as `stratumsrv_update_notify_str` makes it.  Neither `target_diff` nor an algorithm has a
difficulty of zero. -/
structure NewJob where
  myJobId : List UInt8
  targetDiff : PosPdiff
  reasonableLowNonceDiff : PosPdiff

/-- No difficulty is known for a connection. -/
def NewJob.ssj (job : NewJob) : SsmJob where
  myJobId := job.myJobId
  targetDiff := job.targetDiff.val
  reasonableLowNonceDiff := job.reasonableLowNonceDiff.val
  jobPdiff _ := SharePdiff.zero

/-- What `stratumsrv_update_notify_str` comes to. -/
inductive JobUpdate
  | unchanged
  | unusable (clean : Bool)
  | job (clean : Bool) (kept : List (List UInt8)) (job : NewJob) (notify setgoal : List UInt8)

def JobUpdate.toUpdate : JobUpdate → Ssm.Update
  | .unchanged => .unchanged
  | .unusable clean => .unusable clean
  | .job clean kept new notify setgoal => .job clean kept new.ssj notify setgoal

/-- What a connection is sent for a job: a difficulty, the job, or both; and the difficulty that it
was told last, by then. -/
structure Delivery where
  conn : ℕ
  jobId : List UInt8
  setDiff : Bool
  notify : Bool
  announced : SharePdiff

/-- The stratum server, with what was sent for its jobs to connections with a value, the last
first. -/
structure SsmLedger where
  ssm : Ssm
  deliveries : List Delivery

/-- The difficulty of a job for a connection. -/
def sharePdiff (conn : SsmConn) (job : SsmJob) : SharePdiff :=
  if job.targetDiff < chooseSharePdiff conn job.reasonableLowNonceDiff then job.targetDiff
  else chooseSharePdiff conn job.reasonableLowNonceDiff

/-- The difficulty that a connection was told last. -/
def Ssm.currentPdiff (s : Ssm) (conn : ℕ) : SharePdiff :=
  ((s.find conn).map SsmConn.currentSharePdiff).getD SharePdiff.zero

/-- The jobs that an update leaves. -/
def Ssm.keptJobs (s : Ssm) (clean : Bool) (kept : List (List UInt8)) : List SsmJob :=
  if clean then [] else s.jobs.filter fun job => kept.contains job.myJobId

namespace SsmLedger

/-- A connection is told its difficulty for a job, if it can be, and sent the job, if it can be. -/
def serve (job : SsmJob) (l : SsmLedger) (conn : SsmConn) : SsmLedger :=
  let pdiff := sharePdiff conn job
  let sent : Delivery :=
    { conn := conn.ident
      jobId := job.myJobId
      setDiff := conn.capabilities.setDiff
      notify := conn.capabilities.notify
      announced := if conn.capabilities.setDiff then pdiff else l.ssm.currentPdiff conn.ident }
  { ssm :=
      if conn.capabilities.setDiff then
        (l.ssm.setJobPdiff job.myJobId conn.xnonce1Le pdiff).setConn conn.ident fun c =>
          { c with currentSharePdiff := pdiff }
      else l.ssm
    deliveries := if conn.xnonce1Le = 0 then l.deliveries else sent :: l.deliveries }

/-- The server before its connections are served with a new job. -/
def advertise (l : SsmLedger) (jobs : List SsmJob) (job : NewJob) (notify setgoal : List UInt8) :
    SsmLedger where
  ssm := { l.ssm with
    jobs := job.ssj :: jobs
    notify := some notify
    setgoal := some setgoal
    lastSsj := some job.myJobId }
  deliveries := l.deliveries.filter fun d => (jobs.map SsmJob.myJobId).contains d.jobId

/-- `stratumsrv_update_notify_str`.  The id of a new job, which ends in a counter, is that of none
that is left. -/
def update (l : SsmLedger) : JobUpdate → Option SsmLedger
  | .job clean kept job notify setgoal =>
    let jobs := l.ssm.keptJobs clean kept
    if job.myJobId ∈ jobs.map SsmJob.myJobId then none
    else
      some ((l.ssm.connections.filter fun c => c.xnonce1Le != 0).foldl (serve job.ssj)
        (l.advertise jobs job notify setgoal))
  | u => (l.ssm.updateNotify u.toUpdate).map fun (s, _) => { l with ssm := s }

/-- A connection with a value is served with the last job. -/
def serveLast (l : SsmLedger) (conn : SsmConn) : Option SsmLedger :=
  (l.ssm.lastSsj.bind l.ssm.findJob).map fun job => l.serve job conn

/-- The rest of `stratumsrv_mining_subscribe`, with a job to announce. -/
def subscribeTo (l : SsmLedger) (conn : SsmConn) : Option SsmLedger :=
  if conn.xnonce1Le = 0 then
    match reserveWork2d l.ssm.reserved with
    | none => some l
    | some (reserved, xnonce1) =>
      let s := { l.ssm with reserved }.setConn conn.ident fun c => { c with xnonce1Le := xnonce1 }
      { l with ssm := s }.serveLast { conn with xnonce1Le := xnonce1 }
  else l.serveLast conn

/-- `stratumsrv_mining_subscribe`. -/
def subscribe (l : SsmLedger) (conn : SsmConn) (u : JobUpdate) : Option SsmLedger :=
  match l.ssm.notify with
  | some _ => l.subscribeTo conn
  | none =>
    (l.update u).bind fun l =>
      match l.ssm.notify with
      | none => some l
      | some _ => l.subscribeTo conn

/-- The requests of a connection. -/
inductive Request
  | submit (submitNonce : SubmitNonce) (params : Json)
  | hashesDone (params : Json)
  | authorize (params : Json)
  | subscribe (u : JobUpdate)
  | capabilities (params : Json)

/-- A request of an open connection, with its id. -/
def handle (l : SsmLedger) (conn : SsmConn) (idstr : Option (List UInt8)) :
    Request → Option SsmLedger
  | .submit submitNonce params =>
    (l.ssm.miningSubmit conn submitNonce params idstr).map fun (s, _) => { l with ssm := s }
  | .hashesDone params =>
    (l.ssm.miningHashesDone conn params idstr).map fun (s, _) => { l with ssm := s }
  | .authorize params =>
    (l.ssm.miningAuthorize conn params idstr).map fun (s, _) => { l with ssm := s }
  | .subscribe u => if idstr.isNone then none else l.subscribe conn u
  | .capabilities params =>
    (l.ssm.miningCapabilities conn params idstr).map fun (s, _) => { l with ssm := s }

/-- What happens: a connection is opened, makes a request, or is closed; an attempt is made to
announce a job; another difficulty is set for a client, or desired for a connection. -/
inductive Event
  | listen
  | request (conn : ℕ) (idstr : Option (List UInt8)) (request : Request)
  | close (conn : ℕ)
  | update (u : JobUpdate)
  | setDiff (username : CStr) (pdiff : PosPdiff)
  | desire (conn : ℕ) (pdiff : PosPdiff) (default : Bool)

/-- One event. -/
def step (l : SsmLedger) : Event → Option SsmLedger
  | .listen => some { l with ssm := l.ssm.listen }
  | .request conn idstr request =>
    (l.ssm.find conn).bind fun c => if c.booted then none else l.handle c idstr request
  | .close conn => (l.ssm.find conn).map fun c => { l with ssm := l.ssm.clientClose c }
  | .update u => l.update u
  | .setDiff username pdiff =>
    (l.ssm.step (.setDiff username pdiff)).map fun s => { l with ssm := s }
  | .desire conn pdiff default =>
    some { l with ssm := l.ssm.setConn conn fun c =>
      { c with desiredSharePdiff := pdiff.val, desiredDefaultSharePdiff := default } }

/-- Before anything happens. -/
def init : SsmLedger := ⟨Ssm.init, []⟩

/-! ## What is asked -/

/-- What a connection was sent for a job since it has its value, the last first. -/
def sent (l : SsmLedger) (conn : ℕ) (jobId : List UInt8) : List Delivery :=
  l.deliveries.filter fun d => d.conn == conn && d.jobId == jobId

/-- A share of a connection for a job gets to `work2d_submit_nonce`. -/
def Reaches (l : SsmLedger) (e : Event) (conn : SsmConn) (ssj : SsmJob) : Prop :=
  ∃ k idstr submitNonce params username share,
    e = .request k idstr (.submit submitNonce params) ∧ l.ssm.find k = some conn ∧
      conn.booted = false ∧ jsonArrayString params 0 = some username ∧
        submitParams params = .ok share ∧ l.ssm.findJob share.jobId.bytes = some ssj

/-- The share comes from a connection with a value that is reserved, and is judged by the
difficulty that the connection had been told last when it was last sent the job. -/
def Lawful (l : SsmLedger) (e : Event) (_ : SsmLedger) : Prop :=
  ∀ conn ssj, l.Reaches e conn ssj →
    conn.xnonce1Le ≠ 0 ∧ isReserved l.ssm.reserved conn.xnonce1Le.toNat = true ∧
      ∃ d, (l.sent conn.ident ssj.myJobId).find? Delivery.notify = some d ∧
        SharePdiff.zero < d.announced ∧ nonceDiff ssj conn = d.announced

/-- The job was sent with the last difficulty for it, or after that. -/
def jobAfterDiff : List Delivery → Bool
  | [] => false
  | d :: older =>
    if d.setDiff then d.notify else if d.notify then older.any Delivery.setDiff
    else jobAfterDiff older

/-- A connection that submits a share has a value; and it has been told a difficulty for the job,
and sent the job then or later. -/
def Settled (l : SsmLedger) (e : Event) (_ : SsmLedger) : Prop :=
  ∀ conn ssj, l.Reaches e conn ssj →
    conn.xnonce1Le ≠ 0 ∧ jobAfterDiff (l.sent conn.ident ssj.myJobId) = true

end SsmLedger

/-! ## What the server does -/

namespace Ssm
variable {s : Ssm}

/-- The values of the connections. -/
def values (s : Ssm) : Stratumsrv where
  reserved := s.reserved
  connections := s.connections.map fun c => ⟨c.ident, c.xnonce1Le, c.xnonce1Le != 0⟩
  fresh := s.fresh

theorem mem_values {c : SsmConn} (hc : c ∈ s.connections) :
    ⟨c.ident, c.xnonce1Le, c.xnonce1Le != 0⟩ ∈ s.values.connections :=
  List.mem_map.mpr ⟨c, hc, rfl⟩

theorem mem_of_find {k : ℕ} {c : SsmConn} (hfind : s.find k = some c) :
    c ∈ s.connections ∧ c.ident = k :=
  ⟨List.mem_of_find?_eq_some hfind, by simpa using List.find?_some hfind⟩

theorem mem_of_findJob {id : List UInt8} {job : SsmJob} (hfind : s.findJob id = some job) :
    job ∈ s.jobs ∧ job.myJobId = id :=
  ⟨List.mem_of_find?_eq_some hfind, by simpa using List.find?_some hfind⟩

/-- A change of a connection that keeps its value. -/
theorem values_setConn (s : Ssm) (k : ℕ) {f : SsmConn → SsmConn}
    (hident : ∀ c, (f c).ident = c.ident) (hvalue : ∀ c, (f c).xnonce1Le = c.xnonce1Le) :
    (s.setConn k f).values = s.values := by
  have hmap : (s.setConn k f).values.connections = s.values.connections := by
    simp only [values, setConn, List.map_map]
    refine List.map_congr_left fun c _ => ?_
    simp only [Function.comp_apply]
    split
    · rw [hident, hvalue]
    · rfl
  rw [values, values, Stratumsrv.mk.injEq]
  exact ⟨rfl, hmap, rfl⟩

/-- Connections with the same number are the same. -/
theorem eq_of_ident (H : s.values.Inv) {c c' : SsmConn} (hc : c ∈ s.connections)
    (hc' : c' ∈ s.connections) (hident : c.ident = c'.ident) : c = c' := by
  have hnodup : (s.connections.map SsmConn.ident).Nodup := by
    have hidents := H.idents
    simpa [values, Function.comp_def] using hidents
  exact List.inj_on_of_nodup_map hnodup hc hc' hident

end Ssm

namespace SsmLedger
variable {l : SsmLedger}

@[simp] theorem ssm_serve_reserved (job : SsmJob) (l : SsmLedger) (conn : SsmConn) :
    (l.serve job conn).ssm.reserved = l.ssm.reserved := by
  rw [serve]
  split <;> rfl

theorem values_serve (job : SsmJob) (l : SsmLedger) (conn : SsmConn) :
    (l.serve job conn).ssm.values = l.ssm.values := by
  rw [serve]
  dsimp only
  split
  · exact Ssm.values_setConn _ _ (fun _ => rfl) (fun _ => rfl)
  · rfl

/-- The connections as they are after one of them was served. -/
theorem connections_serve (job : SsmJob) (l : SsmLedger) (conn : SsmConn) :
    (l.serve job conn).ssm.connections = l.ssm.connections.map fun c =>
      if c.ident = conn.ident ∧ conn.capabilities.setDiff = true then
        { c with currentSharePdiff := sharePdiff conn job }
      else c := by
  rw [serve]
  dsimp only
  split
  · next hdiff =>
    simp only [Ssm.setConn, Ssm.setJobPdiff, hdiff, and_true]
  · next hdiff =>
    simp [hdiff]

/-- The loop of `stratumsrv_update_notify_str` serves the connections in turn. -/
theorem announce_eq (job : SsmJob) (notify setgoal : List UInt8) (setgoalChanged : Bool)
    (deliveries : List Delivery) (conns : List SsmConn) (s : Ssm)
    (hcurrent : ∀ c ∈ conns, ∀ c' ∈ s.connections, c'.ident = c.ident →
      c'.currentSharePdiff = c.currentSharePdiff)
    (hnodup : (conns.map SsmConn.ident).Nodup) :
    ∃ ws, s.announce job notify setgoal setgoalChanged conns =
      some (((conns.filter fun c => c.xnonce1Le != 0).foldl (serve job) ⟨s, deliveries⟩).ssm,
        ws) := by
  induction conns generalizing s deliveries with
  | nil => exact ⟨[], rfl⟩
  | cons conn rest ih =>
    rw [List.map_cons, List.nodup_cons] at hnodup
    have hrest : ∀ c ∈ rest, ∀ c' ∈ s.connections, c'.ident = c.ident →
        c'.currentSharePdiff = c.currentSharePdiff :=
      fun c hc => hcurrent c (List.mem_cons_of_mem _ hc)
    rw [Ssm.announce]
    split
    · next hzero =>
      rw [List.filter_cons_of_neg (by simpa using hzero)]
      exact ih deliveries s hrest hnodup.2
    · next hvalue =>
      rw [List.filter_cons_of_pos (by simpa using hvalue), List.foldl_cons]
      obtain ⟨next, hnext⟩ : ∃ next, next = serve job ⟨s, deliveries⟩ conn := ⟨_, rfl⟩
      have hserved : ∀ c ∈ rest, ∀ c' ∈ next.ssm.connections, c'.ident = c.ident →
          c'.currentSharePdiff = c.currentSharePdiff := by
        intro c hc c' hc' hident
        rw [hnext, connections_serve] at hc'
        obtain ⟨c₀, hc₀, rfl⟩ := List.mem_map.mp hc'
        split at hident
        · next hconn =>
          exact absurd (List.mem_map.mpr ⟨c, hc, hident.symm.trans hconn.1⟩) hnodup.1
        · next hconn =>
          rw [if_neg hconn]
          exact hrest c hc c₀ hc₀ hident
      obtain ⟨ws, hws⟩ := ih next.deliveries next.ssm hserved hnodup.2
      have htold : ∃ diff, (if conn.capabilities.setDiff then
          if sharePdiff conn job = conn.currentSharePdiff then
            some (s.setJobPdiff job.myJobId conn.xnonce1Le (sharePdiff conn job), [])
          else s.tellDifficulty conn job.myJobId conn.xnonce1Le (sharePdiff conn job)
          else some (s, [])) = some (next.ssm, diff) := by
        rw [hnext, serve]
        dsimp only
        split
        · split
          · next hsame =>
            -- a difficulty that is told already is not told again
            refine ⟨[], ?_⟩
            have hkeep : (s.setJobPdiff job.myJobId conn.xnonce1Le (sharePdiff conn job)).setConn
                conn.ident (fun c => { c with currentSharePdiff := sharePdiff conn job }) =
                s.setJobPdiff job.myJobId conn.xnonce1Le (sharePdiff conn job) := by
              have hmap : s.connections.map (fun c => if c.ident = conn.ident then
                  { c with currentSharePdiff := sharePdiff conn job } else c) = s.connections := by
                refine (List.map_congr_left fun c hc => ?_).trans (List.map_id _)
                split
                · next hident =>
                  rw [hsame, ← hcurrent conn List.mem_cons_self c hc hident]
                  rfl
                · rfl
              rw [Ssm.setConn, Ssm.setJobPdiff]
              simp only [hmap]
            rw [hkeep]
          · obtain ⟨w, hw, -⟩ := exists_sendSetDifficulty conn.ident (sharePdiff conn job)
            exact ⟨[w], by rw [Ssm.tellDifficulty, hw]; rfl⟩
        · exact ⟨[], rfl⟩
      obtain ⟨diff, hdiff⟩ := htold
      dsimp only
      rw [show (if job.targetDiff < chooseSharePdiff conn job.reasonableLowNonceDiff then
        job.targetDiff else chooseSharePdiff conn job.reasonableLowNonceDiff) =
        sharePdiff conn job from rfl, hdiff, Option.bind_some, hws, ← hnext]
      exact ⟨_, rfl⟩

/-- **An update of the job** does what `stratumsrv_update_notify_str` does. -/
theorem ssm_update (H : l.ssm.values.Inv) {u : JobUpdate} {l' : SsmLedger}
    (hupdate : l.update u = some l') : ∃ ws, l.ssm.updateNotify u.toUpdate = some (l'.ssm, ws) := by
  cases u with
  | job clean kept new notify setgoal =>
    rw [update] at hupdate
    split at hupdate
    · cases hupdate
    obtain rfl := Option.some.inj hupdate
    have hnodup : (l.ssm.connections.map SsmConn.ident).Nodup := by
      have hidents := H.idents
      simpa [Ssm.values, Function.comp_def] using hidents
    refine announce_eq new.ssj notify setgoal _ _ _ _ ?_ hnodup
    intro c hc c' hc' hident
    rw [Ssm.eq_of_ident H hc' hc hident]
  | _ =>
    rw [update] at hupdate
    · obtain ⟨⟨s, ws⟩, hws, rfl⟩ := Option.map_eq_some_iff.mp hupdate
      exact ⟨ws, hws⟩
    · rintro _ _ _ _ _ ⟨⟩

/-- A connection is sent its work as it is served. -/
theorem ssm_serveLast {conn : SsmConn} {l' : SsmLedger} (hserve : l.serveLast conn = some l')
    (notify : List UInt8) :
    ∃ ws, l.ssm.sendWork conn conn.xnonce1Le notify = some (l'.ssm, ws) := by
  obtain ⟨job, hjob, rfl⟩ := Option.map_eq_some_iff.mp hserve
  have hpdiff : (if chooseSharePdiff conn job.reasonableLowNonceDiff < job.targetDiff then
      chooseSharePdiff conn job.reasonableLowNonceDiff else job.targetDiff) =
      sharePdiff conn job := by
    rw [sharePdiff]
    rcases lt_trichotomy job.targetDiff (chooseSharePdiff conn job.reasonableLowNonceDiff) with
      hlt | heq | hgt
    · rw [if_neg hlt.asymm, if_pos hlt]
    · rw [← heq, if_neg (lt_irrefl _)]
    · rw [if_pos hgt, if_neg hgt.asymm]
  rw [Ssm.sendWork, hjob, serve]
  dsimp only
  by_cases hdiff : conn.capabilities.setDiff = true
  · obtain ⟨w, hw, -⟩ := exists_sendSetDifficulty conn.ident (sharePdiff conn job)
    rw [if_pos hdiff, if_pos hdiff, hpdiff, Ssm.tellDifficulty, hw]
    exact ⟨_, rfl⟩
  · rw [if_neg hdiff, if_neg hdiff]
    exact ⟨_, rfl⟩

theorem ssm_subscribeTo {conn : SsmConn} {l' : SsmLedger}
    (hsubscribe : l.subscribeTo conn = some l') (notify id : List UInt8) :
    ∃ ws, l.ssm.subscribeTo conn notify id = some (l'.ssm, ws) := by
  rw [subscribeTo] at hsubscribe
  rw [Ssm.subscribeTo]
  by_cases hzero : conn.xnonce1Le = 0
  · rw [if_pos hzero] at hsubscribe ⊢
    cases hreserve : reserveWork2d l.ssm.reserved with
    | none =>
      rw [hreserve] at hsubscribe
      obtain rfl := Option.some.inj hsubscribe
      exact ⟨_, rfl⟩
    | some pair =>
      obtain ⟨reserved, xnonce1⟩ := pair
      rw [hreserve] at hsubscribe
      obtain ⟨ws, hws⟩ := ssm_serveLast hsubscribe notify
      dsimp only
      have hsend : ∀ s : Ssm, s.sendWork { conn with xnonce1Le := xnonce1 } xnonce1 notify =
        s.sendWork conn xnonce1 notify := fun _ => rfl
      rw [← hsend, hws]
      exact ⟨_, rfl⟩
  · rw [if_neg hzero] at hsubscribe ⊢
    obtain ⟨ws, hws⟩ := ssm_serveLast hsubscribe notify
    rw [hws]
    exact ⟨_, rfl⟩

/-- **A subscription** does what `stratumsrv_mining_subscribe` does. -/
theorem ssm_subscribe (H : l.ssm.values.Inv) {conn : SsmConn} {u : JobUpdate} {l' : SsmLedger}
    (hsubscribe : l.subscribe conn u = some l') (id : List UInt8) :
    ∃ ws, l.ssm.miningSubscribe conn u.toUpdate (some id) = some (l'.ssm, ws) := by
  rw [subscribe] at hsubscribe
  rw [Ssm.miningSubscribe]
  cases hnotify : l.ssm.notify with
  | some notify =>
    rw [hnotify] at hsubscribe
    exact ssm_subscribeTo hsubscribe notify id
  | none =>
    rw [hnotify] at hsubscribe
    obtain ⟨l₁, hupdate, hrest⟩ := Option.bind_eq_some_iff.mp hsubscribe
    obtain ⟨told, htold⟩ := ssm_update H hupdate
    dsimp only
    rw [htold, Option.bind_some]
    dsimp only
    cases hnone : l₁.ssm.notify with
    | none =>
      rw [hnone] at hrest
      obtain rfl := Option.some.inj hrest
      exact ⟨_, rfl⟩
    | some notify =>
      rw [hnone] at hrest
      obtain ⟨ws, hws⟩ := ssm_subscribeTo hrest notify id
      dsimp only
      rw [hws]
      exact ⟨_, rfl⟩

end SsmLedger

end MassGridMiner

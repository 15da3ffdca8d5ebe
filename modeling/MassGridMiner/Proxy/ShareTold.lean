import MassGridMiner.Proxy.ShareDiff

/-!
# Shares are judged by what their connection was told

A connection that has a value and was told a difficulty for a job has that difficulty noted for
the job and its value, and no other connection has the value while it is open.  What a connection
that held the value before was told is noted as well, and is what counts for one that was told
nothing.

## Main definitions

* `SsmLedger.Told` — what is noted for a connection and a job.
* `SsmLedger.Inv` — the invariant of every run.
* `SsmLedger.allSteps_lawful` — shares are judged right where the condition is met.
-/

namespace MassGridMiner

namespace SsmLedger
variable {l : SsmLedger}

/-! ## What a connection was told -/

/-- What the server has noted of what it sent to a connection for a job. -/
structure Told (lastSsj : Option (List UInt8)) (conn : SsmConn) (job : SsmJob)
    (sent : List Delivery) : Prop where
  noted : ∀ d, sent.find? Delivery.setDiff = some d →
    job.jobPdiff conn.xnonce1Le = d.announced ∧ SharePdiff.zero < d.announced
  current : lastSsj = some job.myJobId → ∀ d, sent.find? Delivery.setDiff = some d →
    conn.currentSharePdiff = d.announced
  same : jobAfterDiff sent = true → ∃ d d', sent.find? Delivery.notify = some d ∧
    sent.find? Delivery.setDiff = some d' ∧ d.announced = d'.announced

theorem told_nil (lastSsj : Option (List UInt8)) (conn : SsmConn) (job : SsmJob) :
    Told lastSsj conn job [] where
  noted _ h := by cases h
  current _ _ h := by cases h
  same h := by cases h

/-- A difficulty is told for the job. -/
theorem told_cons_setDiff {lastSsj : Option (List UInt8)} {conn : SsmConn} {job : SsmJob}
    (d : Delivery) (older : List Delivery) (hdiff : d.setDiff = true)
    (hnoted : job.jobPdiff conn.xnonce1Le = d.announced) (hpos : SharePdiff.zero < d.announced)
    (hcurrent : conn.currentSharePdiff = d.announced) : Told lastSsj conn job (d :: older) := by
  have hfirst : (d :: older).find? Delivery.setDiff = some d := List.find?_cons_of_pos hdiff
  constructor
  · rintro d' hd'
    obtain rfl := Option.some.inj (hfirst.symm.trans hd')
    exact ⟨hnoted, hpos⟩
  · rintro - d' hd'
    obtain rfl := Option.some.inj (hfirst.symm.trans hd')
    exact hcurrent
  · intro hafter
    rw [jobAfterDiff, if_pos hdiff] at hafter
    exact ⟨d, d, List.find?_cons_of_pos hafter, hfirst, rfl⟩

/-- The last job is sent, or not, to a connection that is not told difficulties any more. -/
theorem Told.cons {lastSsj : Option (List UInt8)} {conn : SsmConn} {job : SsmJob}
    {older : List Delivery} (H : Told lastSsj conn job older) (hlast : lastSsj = some job.myJobId)
    (d : Delivery) (hdiff : d.setDiff = false) (hcurrent : d.announced = conn.currentSharePdiff) :
    Told lastSsj conn job (d :: older) := by
  have hskip : (d :: older).find? Delivery.setDiff = older.find? Delivery.setDiff :=
    List.find?_cons_of_neg (by rw [hdiff]; decide)
  constructor
  · rw [hskip]
    exact H.noted
  · rw [hskip]
    exact H.current
  · intro hafter
    rw [jobAfterDiff, hdiff, if_neg (by decide)] at hafter
    rw [hskip]
    split at hafter
    · next hnotify =>
      obtain ⟨d', hd'⟩ : ∃ d', older.find? Delivery.setDiff = some d' := by
        rwa [← Option.isSome_iff_exists, List.find?_isSome, ← List.any_eq_true]
      exact ⟨d, d', List.find?_cons_of_pos hnotify, hd', hcurrent.trans (H.current hlast d' hd')⟩
    · next hnotify =>
      rw [List.find?_cons_of_neg hnotify]
      exact H.same hafter

/-- Other things about the connection and the job have changed, and which job is the last. -/
theorem Told.congr {lastSsj lastSsj' : Option (List UInt8)} {conn conn' : SsmConn}
    {job job' : SsmJob} {sent : List Delivery} (H : Told lastSsj conn job sent)
    (hvalue : job'.jobPdiff conn'.xnonce1Le = job.jobPdiff conn.xnonce1Le)
    (hcurrent : lastSsj' = some job'.myJobId → lastSsj = some job.myJobId ∧
      conn'.currentSharePdiff = conn.currentSharePdiff) :
    Told lastSsj' conn' job' sent where
  noted d hd := hvalue ▸ H.noted d hd
  current hlast d hd := (hcurrent hlast).2.trans (H.current (hcurrent hlast).1 d hd)
  same := H.same

/-! ## The invariant -/

/-- The values are those of the connections; there is a job with a text to announce; no difficulty
that is desired, or of a job, is zero; only a connection with a value was sent something; and what
it was told is noted. -/
structure Inv (l : SsmLedger) : Prop where
  values : l.ssm.values.Inv
  last : l.ssm.Inv
  desired : ∀ c ∈ l.ssm.connections, SharePdiff.zero < c.desiredSharePdiff
  diffs : ∀ job ∈ l.ssm.jobs,
    SharePdiff.zero < job.targetDiff ∧ SharePdiff.zero < job.reasonableLowNonceDiff
  owner_lt : ∀ d ∈ l.deliveries, d.conn < l.ssm.fresh
  owner_value : ∀ d ∈ l.deliveries, ∀ c ∈ l.ssm.connections, c.ident = d.conn → c.xnonce1Le ≠ 0
  told : ∀ c ∈ l.ssm.connections, c.xnonce1Le ≠ 0 → ∀ job ∈ l.ssm.jobs,
    Told l.ssm.lastSsj c job (l.sent c.ident job.myJobId)

theorem sharePdiff_pos {conn : SsmConn} {job : SsmJob}
    (hdesired : SharePdiff.zero < conn.desiredSharePdiff)
    (htarget : SharePdiff.zero < job.targetDiff)
    (hlow : SharePdiff.zero < job.reasonableLowNonceDiff) :
    SharePdiff.zero < sharePdiff conn job := by
  rw [sharePdiff, chooseSharePdiff]
  split_ifs <;> assumption

theorem currentPdiff_eq (H : l.ssm.values.Inv) {c : SsmConn} (hc : c ∈ l.ssm.connections) :
    l.ssm.currentPdiff c.ident = c.currentSharePdiff := by
  have hfind : l.ssm.find c.ident = some c := by
    rw [Ssm.find]
    obtain ⟨c', hc'⟩ : ∃ c', l.ssm.connections.find? (fun d => d.ident == c.ident) = some c' := by
      rw [← Option.isSome_iff_exists, List.find?_isSome]
      exact ⟨c, hc, beq_self_eq_true _⟩
    obtain ⟨hmem, hident⟩ := Ssm.mem_of_find hc'
    rw [hc', Ssm.eq_of_ident H hmem hc hident]
  rw [Ssm.currentPdiff, hfind]
  rfl

/-- Connections with the value of a connection, unless it is none, are that connection. -/
theorem ident_eq_of_value (H : l.ssm.values.Inv) {c c' : SsmConn} (hc : c ∈ l.ssm.connections)
    (hc' : c' ∈ l.ssm.connections) (hvalue : c.xnonce1Le ≠ 0)
    (hsame : c.xnonce1Le = c'.xnonce1Le) : c.ident = c'.ident :=
  H.distinct _ (Ssm.mem_values hc) _ (Ssm.mem_values hc') hvalue hsame

theorem lastSsj_serve (job : SsmJob) (l : SsmLedger) (conn : SsmConn) :
    (l.serve job conn).ssm.lastSsj = l.ssm.lastSsj := by
  rw [serve]
  dsimp only
  split <;> rfl

theorem notify_serve (job : SsmJob) (l : SsmLedger) (conn : SsmConn) :
    (l.serve job conn).ssm.notify = l.ssm.notify := by
  rw [serve]
  dsimp only
  split <;> rfl

/-- The jobs as they are after a connection was served. -/
theorem jobs_serve (job : SsmJob) (l : SsmLedger) (conn : SsmConn) :
    (l.serve job conn).ssm.jobs = l.ssm.jobs.map fun j =>
      if j.myJobId = job.myJobId ∧ conn.capabilities.setDiff = true then
        { j with jobPdiff := fun x =>
            if x = conn.xnonce1Le then sharePdiff conn job else j.jobPdiff x }
      else j := by
  rw [serve]
  dsimp only
  split
  · next hdiff => simp only [Ssm.setConn, Ssm.setJobPdiff, hdiff, and_true]
  · next hdiff => simp [hdiff]

theorem map_myJobId_serve (job : SsmJob) (l : SsmLedger) (conn : SsmConn) :
    (l.serve job conn).ssm.jobs.map SsmJob.myJobId = l.ssm.jobs.map SsmJob.myJobId := by
  rw [jobs_serve, List.map_map]
  refine List.map_congr_left fun j _ => ?_
  rw [Function.comp_apply]
  split <;> rfl

/-- What is sent to a connection that is served. -/
def sending (job : SsmJob) (l : SsmLedger) (conn : SsmConn) : Delivery where
  conn := conn.ident
  jobId := job.myJobId
  setDiff := conn.capabilities.setDiff
  notify := conn.capabilities.notify
  announced :=
    if conn.capabilities.setDiff then sharePdiff conn job else l.ssm.currentPdiff conn.ident

theorem deliveries_serve (job : SsmJob) (l : SsmLedger) (conn : SsmConn) :
    (l.serve job conn).deliveries =
      if conn.xnonce1Le = 0 then l.deliveries else l.sending job conn :: l.deliveries := rfl

theorem mem_deliveries_serve {job : SsmJob} {conn : SsmConn} {d : Delivery}
    (hd : d ∈ (l.serve job conn).deliveries) :
    d ∈ l.deliveries ∨ conn.xnonce1Le ≠ 0 ∧ d.conn = conn.ident := by
  rw [deliveries_serve] at hd
  split at hd
  · exact .inl hd
  · next hvalue =>
    rcases List.mem_cons.mp hd with rfl | hd
    · exact .inr ⟨hvalue, rfl⟩
    · exact .inl hd

/-- To another connection, or for another job, nothing is sent. -/
theorem sent_serve_of_ne {job : SsmJob} {conn : SsmConn} {k : ℕ} {id : List UInt8}
    (hne : k ≠ conn.ident ∨ id ≠ job.myJobId) :
    (l.serve job conn).sent k id = l.sent k id := by
  rw [sent, sent, deliveries_serve]
  split
  · rfl
  · rw [List.filter_cons_of_neg]
    rcases hne with hne | hne
    · simp [sending, hne.symm]
    · simp [sending, hne.symm]

theorem sent_serve (job : SsmJob) {conn : SsmConn} (hvalue : conn.xnonce1Le ≠ 0) :
    (l.serve job conn).sent conn.ident job.myJobId =
      l.sending job conn :: l.sent conn.ident job.myJobId := by
  rw [sent, deliveries_serve, if_neg hvalue, List.filter_cons_of_pos (by simp [sending])]
  rfl

/-- What is told to a connection is noted for its value, and that of no other. -/
theorem told_serve (H : l.Inv) {conn c₀ : SsmConn} {job : SsmJob} (hc₀ : c₀ ∈ l.ssm.connections)
    (hident : c₀.ident = conn.ident) (hvalue : c₀.xnonce1Le = conn.xnonce1Le)
    (hpos : SharePdiff.zero < sharePdiff conn job) (hlast : l.ssm.lastSsj = some job.myJobId)
    {c : SsmConn} (hc : c ∈ l.ssm.connections) (hcvalue : c.xnonce1Le ≠ 0) {j : SsmJob}
    (hj : j ∈ l.ssm.jobs) :
    Told l.ssm.lastSsj
      (if c.ident = conn.ident ∧ conn.capabilities.setDiff = true then
        { c with currentSharePdiff := sharePdiff conn job } else c)
      (if j.myJobId = job.myJobId ∧ conn.capabilities.setDiff = true then
        { j with jobPdiff := fun x =>
            if x = conn.xnonce1Le then sharePdiff conn job else j.jobPdiff x }
      else j)
      ((l.serve job conn).sent c.ident j.myJobId) := by
  have hold := H.told c hc hcvalue j hj
  by_cases hconn : c.ident = conn.ident
  · obtain rfl := Ssm.eq_of_ident H.values hc hc₀ (hconn.trans hident.symm)
    by_cases hjob : j.myJobId = job.myJobId
    · have hsent := @sent_serve l job _ (hvalue ▸ hcvalue)
      rw [← hconn, ← hjob] at hsent
      rw [hsent]
      by_cases hdiff : conn.capabilities.setDiff = true
      · have hannounced : (l.sending job conn).announced = sharePdiff conn job := if_pos hdiff
        rw [if_pos ⟨hconn, hdiff⟩, if_pos ⟨hjob, hdiff⟩]
        refine told_cons_setDiff _ _ hdiff ?_ (hannounced ▸ hpos) hannounced.symm
        simp only [hvalue, if_true]
        exact hannounced.symm
      · rw [if_neg (fun h => hdiff h.2), if_neg (fun h => hdiff h.2)]
        refine hold.cons (by rw [hlast, hjob]) _ (by simpa [sending] using hdiff) ?_
        rw [sending]
        simp only [hdiff]
        rw [← hconn]
        exact currentPdiff_eq H.values hc
    · rw [sent_serve_of_ne (.inr hjob), if_neg (fun h : j.myJobId = _ ∧ _ => hjob h.1)]
      refine hold.congr ?_ fun h => ?_
      · split <;> rfl
      · rw [hlast] at h
        exact absurd (Option.some.inj h).symm hjob
  · rw [sent_serve_of_ne (.inl hconn), if_neg (fun h : c.ident = _ ∧ _ => hconn h.1)]
    have hother : c.xnonce1Le ≠ conn.xnonce1Le := by
      intro hsame
      rw [← hvalue] at hsame
      exact hconn ((ident_eq_of_value H.values hc hc₀ hcvalue hsame).trans hident)
    refine hold.congr ?_ fun h => ⟨?_, rfl⟩
    · split
      · exact if_neg hother
      · rfl
    · rw [h]
      split <;> rfl

/-- **A connection is served**, with the last job. -/
theorem Inv.serve (H : l.Inv) {conn c₀ : SsmConn} {job : SsmJob} (hc₀ : c₀ ∈ l.ssm.connections)
    (hident : c₀.ident = conn.ident) (hvalue : c₀.xnonce1Le = conn.xnonce1Le)
    (hpos : SharePdiff.zero < sharePdiff conn job) (hlast : l.ssm.lastSsj = some job.myJobId) :
    (l.serve job conn).Inv := by
  have hvalues := values_serve job l conn
  have hfresh : (l.serve job conn).ssm.fresh = l.ssm.fresh := congrArg Stratumsrv.fresh hvalues
  have hback : ∀ c ∈ (l.serve job conn).ssm.connections, ∃ c' ∈ l.ssm.connections,
      c = if c'.ident = conn.ident ∧ conn.capabilities.setDiff = true then
        { c' with currentSharePdiff := sharePdiff conn job } else c' := by
    intro c hc
    rw [connections_serve] at hc
    obtain ⟨c', hc', rfl⟩ := List.mem_map.mp hc
    exact ⟨c', hc', rfl⟩
  constructor
  case values => exact hvalues ▸ H.values
  case last =>
    rw [Ssm.Inv, notify_serve, lastSsj_serve, map_myJobId_serve]
    exact H.last
  case desired =>
    intro c hc
    obtain ⟨c', hc', rfl⟩ := hback c hc
    split
    · exact H.desired c' hc'
    · exact H.desired c' hc'
  case diffs =>
    intro j hj
    rw [jobs_serve] at hj
    obtain ⟨j', hj', rfl⟩ := List.mem_map.mp hj
    split
    · exact H.diffs j' hj'
    · exact H.diffs j' hj'
  case owner_lt =>
    intro d hd
    rw [hfresh]
    rcases mem_deliveries_serve hd with hold | ⟨-, howner⟩
    · exact H.owner_lt d hold
    · rw [howner, ← hident]
      exact H.values.ident_lt _ (Ssm.mem_values hc₀)
  case owner_value =>
    intro d hd c hc hcident
    obtain ⟨c', hc', rfl⟩ := hback c hc
    have hcident' : c'.ident = d.conn := by
      rw [← hcident]
      split <;> rfl
    have hne : c'.xnonce1Le ≠ 0 := by
      rcases mem_deliveries_serve hd with hold | ⟨hne, howner⟩
      · exact H.owner_value d hold c' hc' hcident'
      · rw [Ssm.eq_of_ident H.values hc' hc₀ (hcident'.trans (howner.trans hident.symm)), hvalue]
        exact hne
    split
    · exact hne
    · exact hne
  case told =>
    intro c hc hcvalue j hj
    obtain ⟨c', hc', rfl⟩ := hback c hc
    rw [jobs_serve] at hj
    obtain ⟨j', hj', rfl⟩ := List.mem_map.mp hj
    have hcvalue' : c'.xnonce1Le ≠ 0 := by
      split at hcvalue
      · exact hcvalue
      · exact hcvalue
    have htold := told_serve H hc₀ hident hvalue hpos hlast hc' hcvalue' hj'
    rw [lastSsj_serve]
    convert htold using 2
    · split <;> rfl
    · split <;> rfl

/-- What changes about a connection is neither its value nor what it was told. -/
structure KeepsValue (f : SsmConn → SsmConn) : Prop where
  ident : ∀ c, (f c).ident = c.ident
  value : ∀ c, (f c).xnonce1Le = c.xnonce1Le
  current : ∀ c, (f c).currentSharePdiff = c.currentSharePdiff
  desired : ∀ c, SharePdiff.zero < c.desiredSharePdiff → SharePdiff.zero < (f c).desiredSharePdiff

theorem keepsValue_id : KeepsValue id := ⟨fun _ => rfl, fun _ => rfl, fun _ => rfl, fun _ h => h⟩

theorem KeepsValue.setConn {f : SsmConn → SsmConn} (hf : KeepsValue f) (k : ℕ) :
    KeepsValue fun c => if c.ident = k then f c else c where
  ident c := by
    split
    · exact hf.ident c
    · rfl
  value c := by
    split
    · exact hf.value c
    · rfl
  current c := by
    split
    · exact hf.current c
    · rfl
  desired c h := by
    split
    · exact hf.desired c h
    · exact h

/-- The connections have changed so, and the last job may be gone. -/
theorem Inv.keep (H : l.Inv) {s : Ssm} {f : SsmConn → SsmConn} (hf : KeepsValue f)
    (hconns : s.connections = l.ssm.connections.map f) (hreserved : s.reserved = l.ssm.reserved)
    (hfresh : s.fresh = l.ssm.fresh) (hjobs : s.jobs = l.ssm.jobs)
    (hlast : s.lastSsj = l.ssm.lastSsj ∨ s.lastSsj = none) (hinv : s.Inv) :
    Inv { l with ssm := s } := by
  have hvalues : s.values = l.ssm.values := by
    have hmap : s.values.connections = l.ssm.values.connections := by
      simp only [Ssm.values, hconns, List.map_map]
      refine List.map_congr_left fun c _ => ?_
      simp only [Function.comp_apply, hf.ident, hf.value]
    rw [Ssm.values, Ssm.values, Stratumsrv.mk.injEq]
    exact ⟨hreserved, hmap, hfresh⟩
  constructor
  case values => exact hvalues ▸ H.values
  case last => exact hinv
  case desired =>
    intro c hc
    rw [hconns] at hc
    obtain ⟨c', hc', rfl⟩ := List.mem_map.mp hc
    exact hf.desired c' (H.desired c' hc')
  case diffs => exact hjobs ▸ H.diffs
  case owner_lt => exact hfresh ▸ H.owner_lt
  case owner_value =>
    intro d hd c hc hident
    rw [hconns] at hc
    obtain ⟨c', hc', rfl⟩ := List.mem_map.mp hc
    rw [hf.value]
    exact H.owner_value d hd c' hc' ((hf.ident c').symm.trans hident)
  case told =>
    intro c hc hvalue job hjob
    rw [hconns] at hc
    obtain ⟨c', hc', rfl⟩ := List.mem_map.mp hc
    rw [hf.value] at hvalue
    rw [hjobs] at hjob
    rw [hf.ident]
    refine (H.told c' hc' hvalue job hjob).congr (by rw [hf.value]) fun h => ?_
    rcases hlast with hlast | hlast
    · exact ⟨hlast ▸ h, hf.current c'⟩
    · rw [show _ = s.lastSsj from rfl, hlast] at h
      cases h

theorem Inv.setConn (H : l.Inv) (k : ℕ) {f : SsmConn → SsmConn} (hf : KeepsValue f) :
    Inv { l with ssm := l.ssm.setConn k f } :=
  H.keep (hf.setConn k) rfl rfl rfl rfl (.inl rfl) ((Ssm.sameWork_setConn _ k f).inv H.last)

theorem Inv.findOrCreateClient (H : l.Inv) (username : CStr) :
    Inv { l with ssm := (l.ssm.findOrCreateClient username).1 } := by
  have hinv := (Ssm.sameWork_findOrCreateClient l.ssm username).inv H.last
  rw [Ssm.findOrCreateClient] at hinv ⊢
  split at hinv
  · exact H
  · exact H.keep keepsValue_id (List.map_id _).symm rfl rfl rfl (.inl rfl) hinv

/-! ## Connections and requests -/

theorem Inv.listen (H : l.Inv) : Inv { l with ssm := l.ssm.listen } where
  values := H.values.listen
  last := H.last
  desired := by
    rw [Ssm.listen, List.forall_mem_cons]
    exact ⟨(by decide +kernel : SharePdiff.zero < SharePdiff.max), H.desired⟩
  diffs := H.diffs
  owner_lt d hd := (H.owner_lt d hd).trans (Nat.lt_succ_self _)
  owner_value d hd := by
    rw [Ssm.listen, List.forall_mem_cons]
    exact ⟨fun h => absurd h (H.owner_lt d hd).ne', H.owner_value d hd⟩
  told := by
    rw [Ssm.listen, List.forall_mem_cons]
    exact ⟨fun h => absurd rfl h, H.told⟩

theorem Inv.clientClose (H : l.Inv) {conn : SsmConn} (hconn : conn ∈ l.ssm.connections) :
    Inv { l with ssm := l.ssm.clientClose conn } := by
  have hsub : ∀ c ∈ (l.ssm.clientClose conn).connections, c ∈ l.ssm.connections :=
    fun c hc => (List.mem_filter.mp hc).1
  constructor
  case values =>
    have hvalues : (l.ssm.clientClose conn).values =
        l.ssm.values.clientClose ⟨conn.ident, conn.xnonce1Le, conn.xnonce1Le != 0⟩ := by
      simp only [Ssm.values, Ssm.clientClose, Stratumsrv.clientClose, List.filter_map]
      rfl
    exact hvalues ▸ H.values.clientClose (Ssm.mem_values hconn)
  case last => exact H.last
  case desired => exact fun c hc => H.desired c (hsub c hc)
  case diffs => exact H.diffs
  case owner_lt => exact H.owner_lt
  case owner_value => exact fun d hd c hc => H.owner_value d hd c (hsub c hc)
  case told => exact fun c hc => H.told c (hsub c hc)

theorem Inv.miningSubmit (H : l.Inv) {conn : SsmConn} {submitNonce : SubmitNonce} {params : Json}
    {idstr : Option (List UInt8)} {r : Ssm × List Write}
    (hr : l.ssm.miningSubmit conn submitNonce params idstr = some r) :
    Inv { l with ssm := r.1 } := by
  rw [Ssm.miningSubmit] at hr
  split at hr
  · obtain rfl := Option.some.inj hr
    exact H
  next username _ =>
  dsimp only at hr
  split at hr
  · obtain rfl := Option.some.inj hr
    exact H.findOrCreateClient username
  · split at hr <;> (obtain rfl := Option.some.inj hr; exact H.findOrCreateClient username)

theorem Inv.miningHashesDone (H : l.Inv) {conn : SsmConn} {params : Json}
    {idstr : Option (List UInt8)} {r : Ssm × List Write}
    (hr : l.ssm.miningHashesDone conn params idstr = some r) : Inv { l with ssm := r.1 } := by
  rw [Ssm.miningHashesDone] at hr
  have hext : KeepsValue fun c => { c with hashesDoneExt := true } :=
    ⟨fun _ => rfl, fun _ => rfl, fun _ => rfl, fun _ h => h⟩
  cases hname : jsonArrayString params 0 with
  | none =>
    rw [hname] at hr
    dsimp only at hr
    split at hr
    · obtain rfl := Option.some.inj hr
      exact H
    · cases hr
  | some username =>
    have hclient := H.findOrCreateClient username
    rw [hname] at hr
    dsimp only at hr
    split at hr
    · obtain rfl := Option.some.inj hr
      exact hclient
    · obtain rfl := Option.some.inj hr
      exact hclient.setConn _ hext

theorem Inv.miningAuthorize (H : l.Inv) {conn : SsmConn} {params : Json}
    {idstr : Option (List UInt8)} {r : Ssm × List Write}
    (hr : l.ssm.miningAuthorize conn params idstr = some r) : Inv { l with ssm := r.1 } := by
  rw [Ssm.miningAuthorize] at hr
  split at hr
  · obtain rfl := Option.some.inj hr
    exact H
  next username _ =>
  have hclient := H.findOrCreateClient username
  have husers : KeepsValue fun c => { c with authorisedUsers := username :: c.authorisedUsers } :=
    ⟨fun _ => rfl, fun _ => rfl, fun _ => rfl, fun _ h => h⟩
  dsimp only at hr
  obtain rfl := Option.some.inj hr
  refine (hclient.setConn _ ?_).setConn _ husers
  constructor
  · intro c
    split <;> rfl
  · intro c
    split <;> rfl
  · intro c
    split <;> rfl
  · intro c hdesired
    split
    · next hclient =>
      dsimp only
      split
      · exact SharePdiff.pos_of_ne hclient
      · exact hdesired
    · dsimp only
      split
      · decide +kernel
      · exact hdesired

theorem Inv.miningCapabilities (H : l.Inv) {conn : SsmConn} {params : Json}
    {idstr : Option (List UInt8)} {r : Ssm × List Write}
    (hr : l.ssm.miningCapabilities conn params idstr = some r) : Inv { l with ssm := r.1 } := by
  cases params with
  | array elems =>
    obtain rfl := Option.some.inj hr
    exact H.setConn _ ⟨fun _ => rfl, fun _ => rfl, fun _ => rfl, fun _ h => h⟩
  | _ =>
    obtain rfl := Option.some.inj hr
    exact H

/-! ## Jobs and subscriptions -/

/-- The connections are served with the last job one after the other. -/
theorem Inv.serveAll {job : SsmJob} (htarget : SharePdiff.zero < job.targetDiff)
    (hlow : SharePdiff.zero < job.reasonableLowNonceDiff) (conns : List SsmConn) {l : SsmLedger}
    (H : l.Inv) (hlast : l.ssm.lastSsj = some job.myJobId)
    (hconns : ∀ c ∈ conns, SharePdiff.zero < c.desiredSharePdiff ∧
      ∃ c₀ ∈ l.ssm.connections, c₀.ident = c.ident ∧ c₀.xnonce1Le = c.xnonce1Le) :
    (conns.foldl (SsmLedger.serve job) l).Inv := by
  induction conns generalizing l with
  | nil => exact H
  | cons conn rest ih =>
    obtain ⟨hdesired, c₀, hc₀, hident, hvalue⟩ := hconns conn List.mem_cons_self
    have hserved := H.serve hc₀ hident hvalue (sharePdiff_pos hdesired htarget hlow) hlast
    refine ih hserved ((lastSsj_serve job l conn).trans hlast) fun c hc => ?_
    obtain ⟨hdesired', c₁, hc₁, hident₁, hvalue₁⟩ := hconns c (List.mem_cons_of_mem _ hc)
    refine ⟨hdesired', ?_⟩
    have hmem := Ssm.mem_values hc₁
    rw [← values_serve job l conn] at hmem
    obtain ⟨c₂, hc₂, heq⟩ := List.mem_map.mp hmem
    obtain ⟨hident₂, hvalue₂, -⟩ := StratumsrvConn.mk.inj heq
    exact ⟨c₂, hc₂, hident₂.trans hident₁, hvalue₂.trans hvalue₁⟩

/-- A new job takes the place of those that expire, and nothing was sent for it. -/
theorem Inv.advertise (H : l.Inv) {jobs : List SsmJob} (hjobs : ∀ job ∈ jobs, job ∈ l.ssm.jobs)
    {new : NewJob} (hfresh : new.myJobId ∉ jobs.map SsmJob.myJobId) (notify setgoal : List UInt8) :
    (l.advertise jobs new notify setgoal).Inv where
  values := H.values
  last _ := ⟨new.myJobId, List.mem_cons_self, rfl⟩
  desired := H.desired
  diffs := by
    rw [SsmLedger.advertise, List.forall_mem_cons]
    exact ⟨⟨new.targetDiff.property, new.reasonableLowNonceDiff.property⟩,
      fun job hjob => H.diffs job (hjobs job hjob)⟩
  owner_lt d hd := H.owner_lt d (List.mem_filter.mp hd).1
  owner_value d hd := H.owner_value d (List.mem_filter.mp hd).1
  told := by
    intro c hc hvalue
    have hkept : ∀ job ∈ jobs, (l.advertise jobs new notify setgoal).sent c.ident job.myJobId =
        l.sent c.ident job.myJobId := by
      intro job hjob
      have hmem : job.myJobId ∈ jobs.map SsmJob.myJobId := List.mem_map.mpr ⟨job, hjob, rfl⟩
      rw [sent, sent, SsmLedger.advertise, List.filter_filter]
      refine List.filter_congr fun d _ => ?_
      by_cases hid : d.jobId = job.myJobId
      · simp only [hid, beq_self_eq_true, Bool.and_true, List.contains_iff_mem.mpr hmem]
      · simp [hid]
    have hnone : (l.advertise jobs new notify setgoal).sent c.ident new.myJobId = [] := by
      rw [sent, SsmLedger.advertise, List.filter_filter, List.filter_eq_nil_iff]
      intro d _ hboth
      simp only [Bool.and_eq_true, beq_iff_eq, List.contains_iff_mem] at hboth
      exact hfresh (hboth.1.2 ▸ hboth.2)
    rw [SsmLedger.advertise, List.forall_mem_cons]
    constructor
    · show Told _ c new.ssj ((l.advertise jobs new notify setgoal).sent c.ident new.myJobId)
      rw [hnone]
      exact told_nil ..
    · intro job hjob
      show Told _ c job ((l.advertise jobs new notify setgoal).sent c.ident job.myJobId)
      rw [hkept job hjob]
      refine (H.told c hc hvalue job (hjobs job hjob)).congr rfl fun h => ?_
      have hid : new.myJobId = job.myJobId := Option.some.inj h
      exact absurd (List.mem_map.mpr ⟨job, hjob, hid.symm⟩) hfresh

theorem Inv.update (H : l.Inv) {u : JobUpdate} {l' : SsmLedger} (hupdate : l.update u = some l') :
    l'.Inv := by
  cases u with
  | unchanged =>
    obtain rfl := Option.some.inj hupdate
    exact H
  | unusable clean =>
    cases clean with
    | false =>
      obtain rfl := Option.some.inj hupdate
      exact H
    | true =>
      obtain rfl := Option.some.inj hupdate
      have hbooted : KeepsValue fun c => { c with booted := c.booted || c.xnonce1Le != 0 } :=
        ⟨fun _ => rfl, fun _ => rfl, fun _ => rfl, fun _ h => h⟩
      exact H.keep hbooted rfl rfl rfl rfl (.inr rfl) fun h => by cases h
  | job clean kept new notify setgoal =>
    rw [SsmLedger.update] at hupdate
    split at hupdate
    · cases hupdate
    next hfresh =>
    obtain rfl := Option.some.inj hupdate
    have hjobs : ∀ job ∈ l.ssm.keptJobs clean kept, job ∈ l.ssm.jobs := by
      intro job hjob
      rw [Ssm.keptJobs] at hjob
      split at hjob
      · cases hjob
      · exact (List.mem_filter.mp hjob).1
    refine (H.advertise hjobs hfresh notify setgoal).serveAll new.targetDiff.property
      new.reasonableLowNonceDiff.property _ rfl fun c hc => ?_
    have hmem := (List.mem_filter.mp hc).1
    exact ⟨H.desired c hmem, c, hmem, rfl, rfl⟩

theorem Inv.serveLast (H : l.Inv) {conn c₀ : SsmConn} {l' : SsmLedger}
    (hc₀ : c₀ ∈ l.ssm.connections) (hident : c₀.ident = conn.ident)
    (hvalue : c₀.xnonce1Le = conn.xnonce1Le)
    (hdesired : SharePdiff.zero < conn.desiredSharePdiff) (hserve : l.serveLast conn = some l') :
    l'.Inv := by
  obtain ⟨job, hjob, rfl⟩ := Option.map_eq_some_iff.mp hserve
  obtain ⟨id, hid, hfind⟩ := Option.bind_eq_some_iff.mp hjob
  obtain ⟨hmem, rfl⟩ := Ssm.mem_of_findJob hfind
  obtain ⟨htarget, hlow⟩ := H.diffs job hmem
  exact H.serve hc₀ hident hvalue (sharePdiff_pos hdesired htarget hlow) hid

/-- A connection without a value is given one that is not reserved. -/
theorem Inv.grant (H : l.Inv) {conn : SsmConn} (hconn : conn ∈ l.ssm.connections)
    (hnone : conn.xnonce1Le = 0) {reserved : Work2dReserved} {xnonce1 : UInt32}
    (hreserve : reserveWork2d l.ssm.reserved = some (reserved, xnonce1)) :
    Inv { l with ssm := { l.ssm with reserved }.setConn conn.ident fun c =>
      { c with xnonce1Le := xnonce1 } } := by
  obtain ⟨v, hloop, heq⟩ := Option.map_eq_some_iff.mp hreserve
  obtain ⟨rfl, rfl⟩ := Prod.mk.inj heq
  obtain ⟨hle, hfree, -⟩ := reserveLoop_eq_some hloop
  have honly : ∀ c ∈ l.ssm.connections, c.ident = conn.ident → c = conn :=
    fun c hc => Ssm.eq_of_ident H.values hc hconn
  obtain ⟨s, hs⟩ : ∃ s, s = { l.ssm with
    reserved := l.ssm.reserved.setIfInBounds v true }.setConn conn.ident fun c =>
      { c with xnonce1Le := UInt32.ofNat v } := ⟨_, rfl⟩
  rw [← hs]
  have hconns : s.connections = l.ssm.connections.map fun c =>
      if c.ident = conn.ident then { c with xnonce1Le := UInt32.ofNat v } else c := by
    rw [hs]
    rfl
  have hvalues : s.values.Inv := by
    rcases Nat.eq_zero_or_pos v with rfl | hv
    · have hsame : s.values = { l.ssm.values with
          reserved := l.ssm.reserved.setIfInBounds 0 true } := by
        have hmap : s.values.connections = l.ssm.values.connections := by
          simp only [Ssm.values, hconns, List.map_map]
          refine List.map_congr_left fun c hc => ?_
          rw [Function.comp_apply]
          split
          · next hident =>
            have hzero : c.xnonce1Le = UInt32.ofNat 0 := by
              rw [honly c hc hident, hnone]
              rfl
            rw [hzero]
          · rfl
        rw [Ssm.values, Stratumsrv.mk.injEq]
        exact ⟨by rw [hs]; rfl, hmap, by rw [hs]; rfl⟩
      exact hsame ▸ H.values.reserveZero
    · have hne : UInt32.ofNat v ≠ 0 := by
        intro hzero
        have hnat : (UInt32.ofNat v).toNat = v :=
          UInt32.toNat_ofNat_of_lt (lt_of_le_of_lt hle (by decide))
        rw [hzero] at hnat
        exact absurd hnat (by simp; omega)
      have hsame : s.values = { l.ssm.values with
          reserved := l.ssm.reserved.setIfInBounds v true
          connections := l.ssm.values.grant conn.ident (UInt32.ofNat v) } := by
        have hmap : s.values.connections = l.ssm.values.grant conn.ident (UInt32.ofNat v) := by
          simp only [Ssm.values, Stratumsrv.grant, hconns, List.map_map]
          refine List.map_congr_left fun c _ => ?_
          simp only [Function.comp_apply]
          split
          · rw [bne_iff_ne.mpr hne]
          · rfl
        rw [Ssm.values, Stratumsrv.mk.injEq]
        exact ⟨by rw [hs]; rfl, hmap, by rw [hs]; rfl⟩
      exact hsame ▸ H.values.granted (Ssm.mem_values hconn) hnone hv hle hfree
  constructor
  case values => exact hvalues
  case last => exact hs ▸ H.last
  case desired =>
    intro c hc
    rw [hconns] at hc
    obtain ⟨c', hc', rfl⟩ := List.mem_map.mp hc
    split
    · exact H.desired c' hc'
    · exact H.desired c' hc'
  case diffs => exact hs ▸ H.diffs
  case owner_lt => exact hs ▸ H.owner_lt
  case owner_value =>
    intro d hd c hc hident
    rw [hconns] at hc
    obtain ⟨c', hc', rfl⟩ := List.mem_map.mp hc
    split at hident
    · next hgranted =>
      obtain rfl := honly c' hc' hgranted
      exact absurd hnone (H.owner_value d hd c' hc' hident)
    · next hother =>
      rw [if_neg hother]
      exact H.owner_value d hd c' hc' hident
  case told =>
    intro c hc hvalue job hjob
    rw [hconns] at hc
    obtain ⟨c', hc', rfl⟩ := List.mem_map.mp hc
    have hjobs : s.jobs = l.ssm.jobs := by
      rw [hs]
      rfl
    rw [hjobs] at hjob
    have hlast : s.lastSsj = l.ssm.lastSsj := by
      rw [hs]
      rfl
    rw [hlast]
    split
    · next hgranted =>
      obtain rfl := honly c' hc' hgranted
      -- nothing was sent to it before
      have hsent : l.sent c'.ident job.myJobId = [] := by
        rw [sent, List.filter_eq_nil_iff]
        intro d hd hboth
        simp only [Bool.and_eq_true, beq_iff_eq] at hboth
        exact H.owner_value d hd c' hc' hboth.1.symm hnone
      show Told _ _ job (l.sent c'.ident job.myJobId)
      rw [hsent]
      exact told_nil ..
    · next hother =>
      rw [if_neg hother] at hvalue
      exact H.told c' hc' hvalue job hjob

theorem Inv.subscribeTo (H : l.Inv) {conn c₀ : SsmConn} {l' : SsmLedger}
    (hc₀ : c₀ ∈ l.ssm.connections) (hident : c₀.ident = conn.ident)
    (hvalue : c₀.xnonce1Le = conn.xnonce1Le) (hdesired : SharePdiff.zero < conn.desiredSharePdiff)
    (hsubscribe : l.subscribeTo conn = some l') : l'.Inv := by
  rw [SsmLedger.subscribeTo] at hsubscribe
  split at hsubscribe
  · next hnone =>
    split at hsubscribe
    · obtain rfl := Option.some.inj hsubscribe
      exact H
    · next reserved xnonce1 hreserve =>
      have hgranted := H.grant hc₀ (hvalue.trans hnone) hreserve
      have hmem : { c₀ with xnonce1Le := xnonce1 } ∈ ({ l.ssm with reserved }.setConn c₀.ident
          fun c => { c with xnonce1Le := xnonce1 }).connections :=
        List.mem_map.mpr ⟨c₀, hc₀, if_pos rfl⟩
      rw [← hident] at hsubscribe
      refine hgranted.serveLast hmem ?_ ?_ ?_ hsubscribe
      · rfl
      · rfl
      · exact hdesired
  · exact H.serveLast hc₀ hident hvalue hdesired hsubscribe

/-- An update changes what the connections were told, not the connections. -/
theorem values_update {u : JobUpdate} {l' : SsmLedger} (hupdate : l.update u = some l') :
    l'.ssm.values = l.ssm.values := by
  cases u with
  | unchanged =>
    obtain rfl := Option.some.inj hupdate
    rfl
  | unusable clean =>
    cases clean with
    | false =>
      obtain rfl := Option.some.inj hupdate
      rfl
    | true =>
      obtain rfl := Option.some.inj hupdate
      simp only [Ssm.values, Ssm.bootAllSubscribed, List.map_map]
      rfl
  | job clean kept new notify setgoal =>
    rw [SsmLedger.update] at hupdate
    split at hupdate
    · cases hupdate
    obtain rfl := Option.some.inj hupdate
    have hall : ∀ (conns : List SsmConn) (l : SsmLedger),
        (conns.foldl (SsmLedger.serve new.ssj) l).ssm.values = l.ssm.values := by
      intro conns
      induction conns with
      | nil => exact fun _ => rfl
      | cons conn rest ih => exact fun l => (ih _).trans (values_serve new.ssj l conn)
    exact hall _ _

theorem Inv.subscribe (H : l.Inv) {conn : SsmConn} {u : JobUpdate} {l' : SsmLedger}
    (hconn : conn ∈ l.ssm.connections) (hsubscribe : l.subscribe conn u = some l') : l'.Inv := by
  rw [SsmLedger.subscribe] at hsubscribe
  have hdesired := H.desired conn hconn
  split at hsubscribe
  · exact H.subscribeTo hconn rfl rfl hdesired hsubscribe
  · obtain ⟨l₁, hupdate, hrest⟩ := Option.bind_eq_some_iff.mp hsubscribe
    have hupdated := H.update hupdate
    split at hrest
    · obtain rfl := Option.some.inj hrest
      exact hupdated
    · have hmem := Ssm.mem_values hconn
      rw [← values_update hupdate] at hmem
      obtain ⟨c₁, hc₁, heq⟩ := List.mem_map.mp hmem
      obtain ⟨hident, hvalue, -⟩ := StratumsrvConn.mk.inj heq
      exact hupdated.subscribeTo hc₁ hident hvalue hdesired hrest

/-! ## Steps and runs -/

theorem Inv.handle (H : l.Inv) {conn : SsmConn} {idstr : Option (List UInt8)} {request : Request}
    {l' : SsmLedger} (hconn : conn ∈ l.ssm.connections)
    (hhandle : l.handle conn idstr request = some l') : l'.Inv := by
  cases request with
  | submit submitNonce params =>
    obtain ⟨r, hr, rfl⟩ := Option.map_eq_some_iff.mp hhandle
    exact H.miningSubmit hr
  | hashesDone params =>
    obtain ⟨r, hr, rfl⟩ := Option.map_eq_some_iff.mp hhandle
    exact H.miningHashesDone hr
  | authorize params =>
    obtain ⟨r, hr, rfl⟩ := Option.map_eq_some_iff.mp hhandle
    exact H.miningAuthorize hr
  | subscribe u =>
    rw [SsmLedger.handle] at hhandle
    split at hhandle
    · cases hhandle
    · exact H.subscribe hconn hhandle
  | capabilities params =>
    obtain ⟨r, hr, rfl⟩ := Option.map_eq_some_iff.mp hhandle
    exact H.miningCapabilities hr

/-- **Every event keeps the invariant.** -/
theorem Inv.step (H : l.Inv) {e : Event} {l' : SsmLedger} (hstep : l.step e = some l') :
    l'.Inv := by
  cases e with
  | listen =>
    obtain rfl := Option.some.inj hstep
    exact H.listen
  | request k idstr request =>
    obtain ⟨c, hc, hstep⟩ := Option.bind_eq_some_iff.mp hstep
    split at hstep
    · cases hstep
    · exact H.handle (Ssm.mem_of_find hc).1 hstep
  | close k =>
    obtain ⟨c, hc, rfl⟩ := Option.map_eq_some_iff.mp hstep
    exact H.clientClose (Ssm.mem_of_find hc).1
  | update u => exact H.update hstep
  | setDiff username pdiff =>
    obtain rfl := Option.some.inj hstep
    exact H.keep keepsValue_id (List.map_id _).symm rfl rfl rfl (.inl rfl) H.last
  | desire k pdiff default =>
    obtain rfl := Option.some.inj hstep
    exact H.setConn k ⟨fun _ => rfl, fun _ => rfl, fun _ => rfl, fun _ _ => pdiff.property⟩

theorem inv_init : init.Inv where
  values := Stratumsrv.Inv.init
  last := Ssm.inv_init
  desired _ hc := by cases hc
  diffs _ hjob := by cases hjob
  owner_lt _ hd := by cases hd
  owner_value _ hd := by cases hd
  told _ hc := by cases hc

/-- A share of a connection that has a value, and was sent the job with its difficulty or later. -/
theorem Inv.lawful (H : l.Inv) {e : Event} {l' : SsmLedger} (hsettled : l.Settled e l') :
    l.Lawful e l' := by
  intro conn ssj hreaches
  obtain ⟨hvalue, hafter⟩ := hsettled conn ssj hreaches
  obtain ⟨k, _, _, _, _, share, -, hfind, -, -, -, hjob⟩ := hreaches
  have hconn := (Ssm.mem_of_find hfind).1
  have htold := H.told conn hconn hvalue ssj (Ssm.mem_of_findJob hjob).1
  obtain ⟨d, d', hd, hd', hsame⟩ := htold.same hafter
  obtain ⟨hnoted, hpos⟩ := htold.noted d' hd'
  have hreserved : isReserved l.ssm.reserved conn.xnonce1Le.toNat = true := by
    have hrange := H.values.sound.inRange _ (Ssm.mem_values hconn) (bne_iff_ne.mpr hvalue)
    exact (H.values.reserved_iff _ hrange.1 hrange.2).mpr ⟨_, Ssm.mem_values hconn, rfl⟩
  refine ⟨hvalue, hreserved, d, hd, hsame ▸ hpos, ?_⟩
  rw [nonceDiff, hnoted, if_neg (not_le_of_gt hpos), hsame]

/-- **In every run in which shares come only from connections with a value, that were told a
difficulty for the job and sent it then or later, every share is judged by what its own connection
had been told when it was last sent the job.** -/
theorem allSteps_lawful {es : List Event} (hsettled : Run.AllSteps step Settled init es) :
    Run.AllSteps step Lawful init es :=
  Run.allSteps_imp_of_invariant (I := Inv)
    (fun _ _ _ H hstep hsettled => ⟨H.step hstep, H.lawful hsettled⟩) inv_init hsettled

/-! ## Shares that are judged wrong -/

/-- A job of the greatest difficulty. -/
def plainJob : NewJob where
  myJobId := [0x31]
  targetDiff := ⟨SharePdiff.max, by decide +kernel⟩
  reasonableLowNonceDiff := ⟨SharePdiff.max, by decide +kernel⟩

/-- A share for it. -/
def plainShare : Json :=
  .array [.string (.ofMem [0x75]), .string (.ofMem [0x31]),
    .string (.ofMem (List.replicate 4 0x30)), .string (.ofMem (List.replicate 8 0x30)),
    .string (.ofMem (List.replicate 8 0x30))]

/-- A connection is opened, subscribes and submits a share for the job. -/
def subscribedRun : List Event :=
  [.update (.job true [] plainJob [] []), .listen, .request 0 (some []) (.subscribe .unchanged),
    .request 0 none (.submit (fun _ _ _ _ => (true, false)) plainShare)]

theorem lawful_subscribed : Run.AllSteps step Lawful init subscribedRun := by
  have hother : ∀ {l l' : SsmLedger} {e : Event},
      (∀ k idstr submitNonce params, e ≠ .request k idstr (.submit submitNonce params)) →
      l.Settled e l' := by
    rintro l l' e he conn ssj ⟨k, idstr, submitNonce, params, -, -, rfl, -⟩
    exact absurd rfl (he k idstr submitNonce params)
  refine allSteps_lawful fun l₁ h₁ => ⟨hother (by simp), fun l₂ h₂ => ⟨hother (by simp),
    fun l₃ h₃ => ⟨hother (by simp), fun l₄ h₄ => ⟨?_, trivial⟩⟩⟩⟩
  obtain rfl := Option.some.inj h₁
  obtain rfl := Option.some.inj h₂
  obtain rfl := Option.some.inj h₃
  rintro conn ssj ⟨k, idstr, submitNonce, params, username, share, he, hfind, -, -, hshare, hjob⟩
  cases he
  obtain rfl := Option.some.inj hfind
  obtain rfl : _ = share := Except.ok.inj hshare
  obtain rfl := Option.some.inj hjob
  decide +kernel

/-- A connection submits a share without having subscribed. -/
theorem not_lawful_unsubscribed :
    ¬ Run.AllSteps step Lawful init
      [.update (.job true [] plainJob [] []), .listen,
        .request 0 none (.submit (fun _ _ _ _ => (true, false)) plainShare)] := by
  intro hall
  obtain ⟨-, hall⟩ := hall _ rfl
  obtain ⟨-, hall⟩ := hall _ rfl
  obtain ⟨hlawful, -⟩ := hall _ rfl
  exact (hlawful _ _ ⟨0, none, _, plainShare, _, _, rfl, rfl, rfl, rfl, rfl, rfl⟩).1 rfl

end SsmLedger

end MassGridMiner

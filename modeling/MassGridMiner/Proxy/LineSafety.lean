import MassGridMiner.Lib.Run
import MassGridMiner.Proxy.Lines

/-!
# Which lines are safe

Every answer but a refusal is formatted in a buffer that is as long as it.  A refusal has a
buffer of 256 bytes, and what is sent is as long as the refusal would be without an end to the
buffer; and two handlers rely on what the miner may leave out.

## Main definitions

* `Ssm.Inv` — with a text to announce there is the job that it is about.
* `Ssm.safe_processLine_iff` — the lines that are safe.
* `Ssm.allSteps_safe_iff` — the runs that are safe.
-/

namespace MassGridMiner

/-! ## The buffers -/

/-- The room for the code, the message and the id of a refusal. -/
theorem inside_stratumsrvFailure_iff (conn : ℕ) (idstr : Option (List UInt8)) (e : ℤ)
    (emsg : String) :
    (∀ w ∈ stratumsrvFailure conn idstr e emsg, w.Inside) ↔ Ssm.Room idstr (some (e, emsg)) := by
  cases idstr with
  | none => simp [stratumsrvFailure, Ssm.Room]
  | some id =>
      have hlen := length_format_literal
        "\x7b\"error\":[%s,\"%s\",null],\"id\":%s,\"result\":null\x7d\n"
        [literal (toString e), literal emsg, id] 3 47 rfl (by decide +kernel)
      simp only [List.map_cons, List.map_nil, List.sum_cons, List.sum_nil] at hlen
      simp only [stratumsrvFailure, List.mem_singleton, forall_eq, Write.Inside, snprintf,
        List.length_take, Ssm.Room, Option.some.injEq, Prod.mk.injEq, and_imp]
      constructor
      · rintro ⟨-, hcount⟩ id' e' emsg' rfl rfl rfl
        omega
      · intro hroom
        have := hroom id e emsg rfl rfl rfl
        omega

theorem inside_stratumsrvSuccess2 (conn : ℕ) (idstr : Option (List UInt8)) (resultstr : String) :
    ∀ w ∈ stratumsrvSuccess2 conn idstr resultstr, w.Inside := by
  cases idstr with
  | none => simp [stratumsrvSuccess2]
  | some id =>
      have hlen := length_format_literal
        "\x7b\"result\":%s,\"id\":%s,\"error\":null\x7d\n"
        [literal resultstr, id] 2 35 rfl (by decide +kernel)
      simp only [List.map_cons, List.map_nil, List.sum_cons, List.sum_nil] at hlen
      simp only [stratumsrvSuccess2, List.mem_singleton, forall_eq, Write.Inside, sprintf]
      omega

theorem inside_bootMessage (conn : ℕ) (msg : String) : (bootMessage conn msg).Inside := by
  have hlen := length_format_literal
    "\x7b\"params\":[\"%s\"],\"method\":\"client.show_message\",\"id\":null\x7d\n"
    [literal msg] 1 59 rfl (by decide +kernel)
  simp only [List.map_cons, List.map_nil, List.sum_cons, List.sum_nil] at hlen
  simp only [bootMessage, Write.Inside, sprintf]
  omega

/-- A difficulty is always told, whatever it is. -/
theorem exists_sendSetDifficulty (conn : ℕ) (pdiff : SharePdiff) :
    ∃ w, sendSetDifficulty conn pdiff = some w ∧ w.Inside := by
  obtain ⟨text, htext, hshort⟩ := exists_difficultyText pdiff
  have hlen := length_format_literal
    "\x7b\"params\":[%s],\"id\":null,\"method\":\"mining.set_difficulty\"\x7d\n"
    [text] 1 59 rfl (by decide +kernel)
  simp only [List.map_cons, List.map_nil, List.sum_cons, List.sum_nil] at hlen
  rw [sendSetDifficulty, htext]
  refine ⟨_, rfl, ?_⟩
  simp only [Write.Inside, snprintf, List.length_take]
  omega

theorem inside_subscribeReply (conn : ℕ) (xnonce1 : UInt32) (idstr : List UInt8) :
    (Ssm.subscribeReply conn xnonce1 idstr).Inside := by
  have hxnonce1x : (bin2hex ((le32 xnonce1).take work2dXnonce1sz)).length = 2 := by
    simp [le32, work2dXnonce1sz]
  have hsz : (literal (toString work2dXnonce2sz)).length = 1 := by decide +kernel
  have hlen := length_format_literal
    ("\x7b\"id\":%s,\"result\":[[[\"mining.set_difficulty\",\"x\"],[\"mining.notify\",\"%s\"]]," ++
      "\"%s\",%s],\"error\":null\x7d\n")
    [idstr, bin2hex ((le32 xnonce1).take work2dXnonce1sz),
      bin2hex ((le32 xnonce1).take work2dXnonce1sz), literal (toString work2dXnonce2sz)]
    4 97 rfl (by decide +kernel)
  simp only [List.map_cons, List.map_nil, List.sum_cons, List.sum_nil, hxnonce1x, hsz] at hlen
  simp only [Ssm.subscribeReply, Write.Inside, sprintf]
  rw [work2dXnonce1sz] at hlen ⊢
  omega

namespace Ssm
variable {s : Ssm}

/-! ## The job that is announced -/

/-- With a text to announce there is the job that it is about. -/
def Inv (s : Ssm) : Prop :=
  s.notify.isSome → ∃ jobId ∈ s.jobs.map SsmJob.myJobId, s.lastSsj = some jobId

/-- The work to announce is the same. -/
structure SameWork (s s' : Ssm) : Prop where
  notify : s'.notify = s.notify
  lastSsj : s'.lastSsj = s.lastSsj
  jobs : s'.jobs.map SsmJob.myJobId = s.jobs.map SsmJob.myJobId
  reserved : s'.reserved = s.reserved

theorem SameWork.refl (s : Ssm) : SameWork s s := ⟨rfl, rfl, rfl, rfl⟩

theorem SameWork.trans {s₁ s₂ s₃ : Ssm} (h : SameWork s₁ s₂) (h' : SameWork s₂ s₃) :
    SameWork s₁ s₃ :=
  ⟨h'.notify.trans h.notify, h'.lastSsj.trans h.lastSsj, h'.jobs.trans h.jobs,
    h'.reserved.trans h.reserved⟩

theorem SameWork.inv {s' : Ssm} (h : SameWork s s') (H : s.Inv) : s'.Inv := by
  rw [Inv, h.notify, h.lastSsj, h.jobs]
  exact H

theorem sameWork_setConn (s : Ssm) (conn : ℕ) (f : SsmConn → SsmConn) :
    SameWork s (s.setConn conn f) := ⟨rfl, rfl, rfl, rfl⟩

theorem sameWork_setJobPdiff (s : Ssm) (jobId : List UInt8) (xnonce1 : UInt32)
    (pdiff : SharePdiff) : SameWork s (s.setJobPdiff jobId xnonce1 pdiff) := by
  refine ⟨rfl, rfl, ?_, rfl⟩
  rw [setJobPdiff, List.map_map]
  refine List.map_congr_left fun job _ => ?_
  rw [Function.comp_apply]
  split <;> rfl

theorem sameWork_findOrCreateClient (s : Ssm) (username : CStr) :
    SameWork s (s.findOrCreateClient username).1 := by
  rw [findOrCreateClient]
  split <;> exact ⟨rfl, rfl, rfl, rfl⟩

theorem findJob_findOrCreateClient (s : Ssm) (username : CStr) (jobId : List UInt8) :
    (s.findOrCreateClient username).1.findJob jobId = s.findJob jobId := by
  rw [findOrCreateClient]
  split <;> rfl

theorem exists_findJob {jobId : List UInt8} (H : jobId ∈ s.jobs.map SsmJob.myJobId) :
    ∃ job, s.findJob jobId = some job := by
  obtain ⟨job, hjob, rfl⟩ := List.mem_map.mp H
  rw [← Option.isSome_iff_exists, findJob, List.find?_isSome]
  exact ⟨job, hjob, beq_self_eq_true _⟩

/-- A handler comes to an end, and what it sends lies in its buffers; `P` is about the server
that it leaves. -/
def Sends (P : Ssm → Prop) (r : Outcome) : Prop :=
  ∃ s' ws, r = some (s', ws) ∧ (∀ w ∈ ws, w.Inside) ∧ P s'

theorem Sends.imp {P Q : Ssm → Prop} {r : Outcome} (H : Sends P r) (himp : ∀ s, P s → Q s) :
    Sends Q r := by
  obtain ⟨s', ws, hr, hws, hP⟩ := H
  exact ⟨s', ws, hr, hws, himp s' hP⟩

theorem sends_tellDifficulty (s : Ssm) (conn : SsmConn) (jobId : List UInt8) (xnonce1 : UInt32)
    (pdiff : SharePdiff) :
    Sends (SameWork s) (s.tellDifficulty conn jobId xnonce1 pdiff) := by
  obtain ⟨w, hw, hinside⟩ := exists_sendSetDifficulty conn.ident pdiff
  rw [tellDifficulty, hw]
  refine ⟨_, [w], rfl, by simpa using hinside, ?_⟩
  exact (sameWork_setJobPdiff s jobId xnonce1 pdiff).trans (sameWork_setConn _ _ _)

theorem sends_announce (job : SsmJob) (notify setgoal : List UInt8) (setgoalChanged : Bool)
    (conns : List SsmConn) (s : Ssm) :
    Sends (SameWork s) (s.announce job notify setgoal setgoalChanged conns) := by
  induction conns generalizing s with
  | nil => exact ⟨s, [], rfl, by simp, .refl s⟩
  | cons conn rest ih =>
      rw [announce]
      split
      · exact ih s
      have htold : ∀ pdiff, Sends (SameWork s) (if conn.capabilities.setDiff then
          if pdiff = conn.currentSharePdiff then
            some (s.setJobPdiff job.myJobId conn.xnonce1Le pdiff, [])
          else s.tellDifficulty conn job.myJobId conn.xnonce1Le pdiff
          else some (s, [])) := by
        intro pdiff
        split_ifs
        · exact ⟨_, [], rfl, by simp, sameWork_setJobPdiff ..⟩
        · exact sends_tellDifficulty ..
        · exact ⟨s, [], rfl, by simp, .refl s⟩
      dsimp only
      obtain ⟨s₁, diff, hr₁, hdiff, hsame₁⟩ := htold
        (if job.targetDiff < chooseSharePdiff conn job.reasonableLowNonceDiff then job.targetDiff
          else chooseSharePdiff conn job.reasonableLowNonceDiff)
      obtain ⟨s₂, ws, hr₂, hws, hsame₂⟩ := ih s₁
      rw [hr₁, Option.bind_some, hr₂]
      refine ⟨s₂, _, rfl, ?_, hsame₁.trans hsame₂⟩
      intro w hw
      simp only [List.mem_append] at hw
      rcases hw with ((hw | hw) | hw) | hw
      · split at hw
        · obtain rfl := List.mem_singleton.mp hw
          trivial
        · cases hw
      · exact hdiff w hw
      · split at hw
        · obtain rfl := List.mem_singleton.mp hw
          trivial
        · cases hw
      · exact hws w hw

/-- An attempt to announce a job comes to an end. -/
theorem sends_updateNotify (H : s.Inv) (update : Update) :
    Sends (fun s' => s'.Inv ∧ s'.reserved = s.reserved) (s.updateNotify update) := by
  cases update with
  | unchanged => exact ⟨s, [], rfl, by simp, H, rfl⟩
  | unusable clean =>
      rw [updateNotify]
      split
      · refine ⟨_, _, rfl, ?_, fun h => (by cases h), rfl⟩
        intro w hw
        obtain ⟨c, -, rfl⟩ := List.mem_map.mp hw
        exact inside_bootMessage ..
      · exact ⟨s, [], rfl, by simp, H, rfl⟩
  | job clean kept job notify setgoal =>
      rw [updateNotify]
      refine (sends_announce ..).imp fun s' hsame => ⟨hsame.inv fun _ => ?_, hsame.reserved⟩
      exact ⟨job.myJobId, List.mem_cons_self, rfl⟩

/-- Without a job to announce, only a new one gives one. -/
theorem notify_updateNotify {update : Update} {s' : Ssm} {ws : List Write}
    (H : s.updateNotify update = some (s', ws)) (hnone : s.notify = none) :
    s'.notify.isSome = update.isJob := by
  cases update with
  | unchanged =>
      cases H
      rw [hnone]
      rfl
  | unusable clean =>
      rw [updateNotify] at H
      split at H <;> cases H
      · rfl
      · rw [hnone]
        rfl
  | job clean kept job notify setgoal =>
      obtain ⟨s₁, ws₁, hr, -, hsame⟩ := sends_announce job notify setgoal
        (s.setgoal != some setgoal) s.connections { s with
          jobs := job :: if clean then [] else s.jobs.filter fun job => kept.contains job.myJobId
          notify := some notify
          setgoal := some setgoal
          lastSsj := some job.myJobId }
      obtain ⟨rfl, -⟩ := Prod.mk.inj (Option.some.inj (hr.symm.trans H))
      rw [hsame.notify]
      rfl

/-! ## The handlers -/

/-- What a handler does is safe exactly where `P` holds, and leaves a job behind a text to
announce. -/
structure Meets (P : Prop) (r : Outcome) : Prop where
  sends_iff : Sends (fun _ => True) r ↔ P
  inv : ∀ s' ws, r = some (s', ws) → s'.Inv

theorem Meets.congr {P Q : Prop} {r : Outcome} (H : Meets P r) (hiff : P ↔ Q) : Meets Q r :=
  ⟨H.sends_iff.trans hiff, H.inv⟩

theorem Sends.meets {r : Outcome} (H : Sends Inv r) : Meets True r := by
  obtain ⟨s', ws, rfl, hws, hinv⟩ := H
  refine ⟨iff_true_intro ⟨s', ws, rfl, hws, trivial⟩, ?_⟩
  rintro s₁ ws₁ ⟨⟩
  exact hinv

theorem meets_none : Meets False none := by
  refine ⟨iff_false_intro ?_, fun s' ws h => by cases h⟩
  rintro ⟨s', ws, h, -⟩
  cases h

theorem meets_refused (H : s.Inv) (conn : ℕ) (idstr : Option (List UInt8)) (e : ℤ)
    (emsg : String) :
    Meets (Room idstr (some (e, emsg))) (some (s, stratumsrvFailure conn idstr e emsg)) := by
  constructor
  · rw [← inside_stratumsrvFailure_iff conn]
    constructor
    · rintro ⟨s', ws, ⟨⟩, hws, -⟩
      exact hws
    · exact fun hws => ⟨s, _, rfl, hws, trivial⟩
  · rintro s' ws ⟨⟩
    exact H

/-- Where nothing is refused, there is room. -/
theorem room_none (idstr : Option (List UInt8)) : Room idstr none ↔ True :=
  iff_true_intro fun _ _ _ _ h => by cases h

theorem Sends.meets_room {r : Outcome} (H : Sends Inv r) (idstr : Option (List UInt8)) :
    Meets (Room idstr none) r :=
  H.meets.congr (room_none idstr).symm

theorem sends_success (H : s.Inv) (conn : ℕ) (idstr : Option (List UInt8)) (resultstr : String) :
    Sends Inv (some (s, stratumsrvSuccess2 conn idstr resultstr)) :=
  ⟨s, _, rfl, inside_stratumsrvSuccess2 conn idstr resultstr, H⟩

variable {conn : SsmConn} {params : Json} {idstr : Option (List UInt8)}

theorem meets_miningSubmit (H : s.Inv) (submitNonce : SubmitNonce) :
    Meets (Room idstr (s.submitRefusal conn submitNonce params))
      (s.miningSubmit conn submitNonce params idstr) := by
  rw [miningSubmit, submitRefusal]
  cases jsonArrayString params 0 with
  | none => exact meets_refused H ..
  | some username =>
      have hclient := (sameWork_findOrCreateClient s username).inv H
      simp only [Option.isNone_some, Bool.false_eq_true, if_false]
      cases submitParams params with
      | error refused => exact meets_refused hclient ..
      | ok share =>
          dsimp only
          rw [findJob_findOrCreateClient]
          cases s.findJob share.jobId.bytes with
          | none => exact meets_refused hclient ..
          | some ssj =>
              dsimp only
              split_ifs
              · exact meets_refused hclient ..
              · exact meets_refused hclient ..
              · exact (sends_success hclient ..).meets_room idstr

theorem meets_miningHashesDone (H : s.Inv) :
    Meets ((jsonIsNumber (Json.arrayGet params 1) → jsonIsNumber (Json.arrayGet params 2) →
        (jsonArrayString params 0).isSome) ∧
      Room idstr (if jsonIsNumber (Json.arrayGet params 1) && jsonIsNumber (Json.arrayGet params 2)
        then none else some (20, hashesDoneUsage)))
      (s.miningHashesDone conn params idstr) := by
  have hnumbers : ∀ b : Bool, (jsonIsNumber (Json.arrayGet params 1) &&
      jsonIsNumber (Json.arrayGet params 2)) = b →
      ((jsonIsNumber (Json.arrayGet params 1) → jsonIsNumber (Json.arrayGet params 2) →
        (jsonArrayString params 0).isSome) ↔ (b = true → (jsonArrayString params 0).isSome)) := by
    rintro b rfl
    rw [Bool.and_eq_true, and_imp]
  generalize hb : (jsonIsNumber (Json.arrayGet params 1) &&
      jsonIsNumber (Json.arrayGet params 2)) = b at *
  rw [hnumbers b rfl, miningHashesDone, hb]
  cases b with
  | false =>
      simp only [Bool.false_eq_true, false_imp_iff, true_and, if_false, Bool.not_false, if_true]
      cases jsonArrayString params 0 with
      | none => exact meets_refused H ..
      | some username => exact meets_refused ((sameWork_findOrCreateClient s username).inv H) ..
  | true =>
      simp only [true_imp_iff, if_true, Bool.not_true, Bool.false_eq_true, if_false, room_none,
        and_true]
      cases jsonArrayString params 0 with
      | none => exact meets_none.congr (by simp)
      | some username =>
          have hclient := (sameWork_findOrCreateClient s username).inv H
          have hsends : Sends Inv (some ((s.findOrCreateClient username).1.setConn conn.ident
              fun c => { c with hashesDoneExt := true }, [])) :=
            ⟨_, [], rfl, by simp, (sameWork_setConn ..).inv hclient⟩
          exact hsends.meets.congr (by simp)

theorem meets_miningAuthorize (H : s.Inv) :
    Meets (Room idstr (if (jsonArrayString params 0).isNone then
        some (20, "Missing or non-String username parameter") else none))
      (s.miningAuthorize conn params idstr) := by
  rw [miningAuthorize]
  cases jsonArrayString params 0 with
  | none => exact meets_refused H ..
  | some username =>
      refine (sends_success ?_ ..).meets_room idstr
      exact (sameWork_setConn ..).inv ((sameWork_setConn ..).inv
        ((sameWork_findOrCreateClient s username).inv H))

theorem meets_miningCapabilities (H : s.Inv) :
    Meets (Room idstr (if jsonIsArray params then none else some (20, "Bad params")))
      (s.miningCapabilities conn params idstr) := by
  cases params with
  | array elems => exact (sends_success ((sameWork_setConn ..).inv H) ..).meets_room idstr
  | _ => exact meets_refused H ..

theorem inside_of_mem_shared {b : Bool} {conn : ℕ} {text : List UInt8} {w : Write}
    (H : w ∈ if b then [Write.shared conn text] else []) : w.Inside := by
  split at H
  · obtain rfl := List.mem_singleton.mp H
    trivial
  · cases H

/-- The job that the last text is about is there, so that its difficulty can be told. -/
theorem sends_sendWork (conn : SsmConn) (H : s.Inv) (hnotify : s.notify.isSome) (xnonce1 : UInt32)
    (notify : List UInt8) : Sends Inv (s.sendWork conn xnonce1 notify) := by
  obtain ⟨jobId, hmem, hlast⟩ := H hnotify
  obtain ⟨job, hjob⟩ := exists_findJob hmem
  have htold : ∀ pdiff, Sends Inv (if conn.capabilities.setDiff then
      s.tellDifficulty conn job.myJobId xnonce1 pdiff else some (s, [])) := by
    intro pdiff
    split
    · exact (sends_tellDifficulty ..).imp fun s' hsame => hsame.inv H
    · exact ⟨s, [], rfl, by simp, H⟩
  rw [sendWork, hlast, Option.bind_some, hjob]
  dsimp only
  obtain ⟨s', diff, hr, hdiff, hinv⟩ := htold
    (if chooseSharePdiff conn job.reasonableLowNonceDiff < job.targetDiff then
      chooseSharePdiff conn job.reasonableLowNonceDiff else job.targetDiff)
  rw [hr]
  refine ⟨s', _, rfl, fun w hw => ?_, hinv⟩
  rcases List.mem_append.mp hw with hw | hw
  · rcases List.mem_append.mp hw with hw | hw
    · split at hw
      · obtain rfl := List.mem_singleton.mp hw
        trivial
      · cases hw
    · exact hdiff w hw
  · exact inside_of_mem_shared hw

/-- More is sent before. -/
theorem Meets.map_append {P : Prop} {r : Outcome} (H : Meets P r) {told : List Write}
    (htold : ∀ w ∈ told, w.Inside) :
    Meets P (r.map fun (s, ws) => (s, told ++ ws)) := by
  cases r with
  | none => exact H
  | some r =>
      obtain ⟨s', ws⟩ := r
      refine ⟨Iff.trans ?_ H.sends_iff, ?_⟩
      · constructor
        · rintro ⟨_, _, ⟨⟩, hws, -⟩
          exact ⟨s', ws, rfl, fun w hw => hws w (List.mem_append_right told hw), trivial⟩
        · rintro ⟨_, _, ⟨⟩, hws, -⟩
          refine ⟨s', told ++ ws, rfl, fun w hw => ?_, trivial⟩
          exact (List.mem_append.mp hw).elim (htold w) (hws w)
      · rintro _ _ ⟨⟩
        exact H.inv s' ws rfl

theorem Sends.map_cons {r : Outcome} (H : Sends Inv r) {w : Write} (hw : w.Inside) :
    Sends Inv (r.map fun (s, ws) => (s, w :: ws)) := by
  obtain ⟨s', ws, rfl, hws, hinv⟩ := H
  exact ⟨s', w :: ws, rfl, by simpa using ⟨hw, hws⟩, hinv⟩

theorem meets_subscribeTo (H : s.Inv) (hnotify : s.notify.isSome) (notify id : List UInt8) :
    Meets (Room (some id) (if conn.xnonce1Le = 0 ∧ (reserveWork2d s.reserved).isNone then
        some (20, "Maximum clients already connected") else none))
      (s.subscribeTo conn notify id) := by
  rw [subscribeTo]
  by_cases hzero : conn.xnonce1Le = 0
  · simp only [hzero, true_and, if_true]
    cases reserveWork2d s.reserved with
    | none => exact meets_refused H ..
    | some granted =>
        obtain ⟨reserved, xnonce1⟩ := granted
        have hinv : ({ s with reserved }.setConn conn.ident fun c =>
            { c with xnonce1Le := xnonce1 }).Inv := H
        have hsends := sends_sendWork conn hinv hnotify xnonce1 notify
        exact (hsends.map_cons (inside_subscribeReply ..)).meets_room (some id)
  · simp only [hzero, false_and, if_false]
    exact ((sends_sendWork conn H hnotify _ notify).map_cons (inside_subscribeReply ..)).meets_room _

theorem meets_miningSubscribe (H : s.Inv) (update : Update) :
    Meets (idstr.isSome ∧ Room idstr (s.subscribeRefusal conn update))
      (s.miningSubscribe conn update idstr) := by
  cases idstr with
  | none => exact meets_none.congr (by simp)
  | some id =>
      rw [Option.isSome_some, miningSubscribe, subscribeRefusal]
      simp only [true_and]
      cases hnotify : s.notify with
      | some notify =>
          simp only [Option.isNone_some, Bool.false_eq_true, false_and, if_false]
          exact meets_subscribeTo H (by rw [hnotify]; rfl) notify id
      | none =>
          obtain ⟨s', told, hr, htold, hinv, hreserved⟩ := sends_updateNotify H update
          have hnew := notify_updateNotify hr hnotify
          rw [hr, Option.bind_some, ← hnew, ← hreserved]
          refine Meets.map_append ?_ htold
          cases hnotify' : s'.notify with
          | none => exact meets_refused hinv ..
          | some notify => exact meets_subscribeTo hinv (by rw [hnotify']; rfl) notify id

/-! ## The lines -/

theorem eq_of_isMethod {method : List UInt8} {a b : String} (ha : isMethod method a)
    (hb : isMethod method b) :
    (literal a).map CStr.tolower = (literal b).map CStr.tolower := by
  simp only [isMethod, CStr.equalNoCase, beq_iff_eq] at ha hb
  exact ha.symm.trans hb

theorem lineOk_iff (s : Ssm) (conn : SsmConn) (env : LineEnv) (method : List UInt8)
    (params : Json) (idstr : Option (List UInt8)) :
    LineOk s conn env method params idstr ↔
      (isMethod method "mining.subscribe" → idstr.isSome) ∧
      (isMethod method "mining.hashes_done" → jsonIsNumber (Json.arrayGet params 1) →
        jsonIsNumber (Json.arrayGet params 2) → (jsonArrayString params 0).isSome) ∧
      Room idstr (s.refusal conn env method params) :=
  ⟨fun h => ⟨h.1, h.2, h.3⟩, fun h => ⟨h.1, h.2.1, h.2.2⟩⟩

/-- **The methods, one by one.** -/
theorem meets_handle (H : s.Inv) (env : LineEnv) (method : List UInt8) :
    Meets (LineOk s conn env method params idstr) (s.handle conn env method params idstr) := by
  have hother : ∀ {a b : String}, isMethod method a →
      (literal a).map CStr.tolower ≠ (literal b).map CStr.tolower → ¬ isMethod method b :=
    fun ha hne hb => hne (eq_of_isMethod ha hb)
  have hok := lineOk_iff s conn env method params idstr
  rw [refusal] at hok
  rw [handle]
  by_cases hsubmit : isMethod method "mining.submit"
  · have hhashes := hother hsubmit (b := "mining.hashes_done") (by decide +kernel)
    have hsubscribe := hother hsubmit (b := "mining.subscribe") (by decide +kernel)
    rw [if_pos hsubmit] at hok ⊢
    exact (meets_miningSubmit H env.submitNonce).congr (by simp [hok, hhashes, hsubscribe])
  rw [if_neg hsubmit] at hok ⊢
  by_cases hhashes : isMethod method "mining.hashes_done"
  · have hsubscribe := hother hhashes (b := "mining.subscribe") (by decide +kernel)
    rw [if_pos hhashes] at hok ⊢
    exact (meets_miningHashesDone H).congr (by simp [hok, hhashes, hsubscribe])
  rw [if_neg hhashes] at hok ⊢
  by_cases hauthorize : isMethod method "mining.authorize"
  · have hsubscribe := hother hauthorize (b := "mining.subscribe") (by decide +kernel)
    rw [if_pos hauthorize] at hok ⊢
    exact (meets_miningAuthorize H).congr (by simp [hok, hhashes, hsubscribe])
  rw [if_neg hauthorize] at hok ⊢
  by_cases hsubscribe : isMethod method "mining.subscribe"
  · rw [if_pos hsubscribe] at hok ⊢
    exact (meets_miningSubscribe H env.update).congr (by simp [hok, hhashes, hsubscribe])
  rw [if_neg hsubscribe] at hok ⊢
  by_cases hcapabilities : isMethod method "mining.capabilities"
  · rw [if_pos hcapabilities] at hok ⊢
    exact (meets_miningCapabilities H).congr (by simp [hok, hhashes, hsubscribe])
  rw [if_neg hcapabilities] at hok ⊢
  exact (meets_refused H ..).congr (by simp [hok, hhashes, hsubscribe])

/-- What `Safe` asks of one line, in the terms of what a handler does. -/
theorem safe_line_iff {s' : Ssm} {k : ℕ} {c : SsmConn} {env : LineEnv} {ln : List UInt8}
    (hfind : s.find k = some c) :
    s.Safe (.line k env ln) s' ↔
      ∃ s' ws rv, s.processLine c env ln = some (s', ws, rv) ∧ ∀ w ∈ ws, w.Inside := by
  constructor
  · exact fun h => h k c env ln rfl hfind
  · rintro h _ _ _ _ ⟨⟩ hfind'
    obtain rfl := Option.some.inj (hfind.symm.trans hfind')
    exact h

/-- The condition under which a line is safe: what its request has to give. -/
def LineFits (s : Ssm) (e : Event) (_ : Ssm) : Prop :=
  ∀ k c env ln json method params, e = .line k env ln → s.find k = some c →
    env.loads ln = some json → jsonStringValue (json.get "method") = some method →
    json.get "params" = some params → s.LineOk c env method.bytes params (env.idstr json)

/-- A line of an open connection is safe where its request gives what it has to. -/
theorem safe_iff_lineFits (H : s.Inv) (e : Event) (s' : Ssm) :
    s.Safe e s' ↔ s.LineFits e s' := by
  constructor
  · rintro hsafe k c env ln json method params rfl hfind hloads hmethod hparams
    obtain ⟨s₁, ws, rv, hline, hws⟩ := hsafe k c env ln rfl hfind
    rw [processLine, hloads] at hline
    simp only [hmethod, hparams, Option.map_eq_some_iff] at hline
    obtain ⟨⟨s₂, ws₂⟩, hhandle, heq⟩ := hline
    cases heq
    exact (meets_handle H env method.bytes).sends_iff.mp ⟨s₂, ws₂, hhandle, hws, trivial⟩
  · rintro hfits k c env ln rfl hfind
    cases hloads : env.loads ln with
    | none => exact ⟨s, [], false, by rw [processLine, hloads], by simp⟩
    | some json =>
        cases hmethod : jsonStringValue (json.get "method") with
        | none => exact ⟨s, [], false, by rw [processLine, hloads]; simp only [hmethod], by simp⟩
        | some method =>
            cases hparams : json.get "params" with
            | none =>
                refine ⟨s, [], false, ?_, by simp⟩
                rw [processLine, hloads]
                simp only [hmethod, hparams]
            | some params =>
                have hok := hfits k c env ln json method params rfl hfind hloads hmethod hparams
                obtain ⟨s₁, ws, hhandle, hws, -⟩ :=
                  (meets_handle H env method.bytes).sends_iff.mpr hok
                refine ⟨s₁, ws, true, ?_, hws⟩
                rw [processLine, hloads]
                simp only [hmethod, hparams, hhandle, Option.map_some]

/-! ## The runs -/

theorem inv_processLine (H : s.Inv) {c : SsmConn} {env : LineEnv} {ln : List UInt8} {s' : Ssm}
    {ws : List Write} {rv : Bool} (hline : s.processLine c env ln = some (s', ws, rv)) :
    s'.Inv := by
  rw [processLine] at hline
  split at hline
  · cases hline
    exact H
  · split at hline
    · obtain ⟨⟨s₁, ws₁⟩, hhandle, heq⟩ := Option.map_eq_some_iff.mp hline
      cases heq
      exact (meets_handle H env _).inv s' ws hhandle
    · cases hline
      exact H

/-- Every event leaves a job behind a text to announce. -/
theorem Inv.step (H : s.Inv) {e : Event} {s' : Ssm} (hs : s.step e = some s') : s'.Inv := by
  cases e with
  | listen =>
      cases hs
      exact H
  | line k env ln =>
      obtain ⟨c, -, hs⟩ := Option.bind_eq_some_iff.mp hs
      split at hs
      · cases hs
      · split at hs
        · cases hs
          exact H
        · rename_i hline
          have hinv := inv_processLine H hline
          cases hs
          split
          · exact hinv
          · exact hinv
  | close k =>
      obtain ⟨c, -, rfl⟩ := Option.map_eq_some_iff.mp hs
      exact H
  | update update =>
      obtain ⟨⟨s₁, ws⟩, hupdate, rfl⟩ := Option.map_eq_some_iff.mp hs
      obtain ⟨s₂, ws₂, hr, -, hinv, -⟩ := sends_updateNotify H update
      cases hr.symm.trans hupdate
      exact hinv
  | setDiff username pdiff =>
      cases hs
      exact H

theorem inv_init : init.Inv := fun h => by cases h

/-- **The lines are safe as long as the requests fit.** -/
theorem allSteps_safe_iff (es : List Event) :
    Run.AllSteps step Safe init es ↔ Run.AllSteps step LineFits init es :=
  Run.allSteps_congr (fun _ e s' H _ => safe_iff_lineFits H e s')
    (fun _ _ _ H hs _ => H.step hs) es inv_init

/-- A subscription without an id. -/
def noIdRequest : Json :=
  .object [("method", .string (.ofMem (literal "mining.subscribe"))), ("params", .array [])]

/-- Its text. -/
def noIdLine : List UInt8 := literal "\x7b\"method\":\"mining.subscribe\",\"params\":[]\x7d"

/-- The JSON library at that text. -/
def noIdEnv : LineEnv where
  loads ln := if ln = noIdLine then some noIdRequest else none
  dumps _ := []
  update := .unchanged
  submitNonce _ _ _ _ := (false, false)

theorem processLine_noId (s : Ssm) (conn : SsmConn) :
    s.processLine conn noIdEnv noIdLine = none := by
  have hloads : noIdEnv.loads noIdLine = some noIdRequest := if_pos rfl
  have hmethod : jsonStringValue (noIdRequest.get "method") =
      some (.ofMem (literal "mining.subscribe")) := by
    simp [noIdRequest, Json.get, jsonStringValue]
  have hparams : noIdRequest.get "params" = some (.array []) := by simp [noIdRequest, Json.get]
  have hid : noIdEnv.idstr noIdRequest = none := by simp [LineEnv.idstr, noIdRequest, Json.get]
  have hother : ∀ name ∈ ["mining.submit", "mining.hashes_done", "mining.authorize"],
      isMethod (CStr.ofMem (literal "mining.subscribe")).bytes name = false := by decide +kernel
  have hsubscribe : isMethod (CStr.ofMem (literal "mining.subscribe")).bytes
      "mining.subscribe" := by decide +kernel
  have hhandle : s.handle conn noIdEnv (CStr.ofMem (literal "mining.subscribe")).bytes
      (.array []) none = none := by
    rw [handle, hother _ (by simp), hother _ (by simp), hother _ (by simp), hsubscribe]
    rfl
  rw [processLine, hloads]
  simp only [hmethod, hparams, hid, hhandle, Option.map_none]

/-- A subscription without an id measures a text that is not there. -/
theorem not_safe_subscribe_noId :
    ¬ Run.AllSteps step Safe init [.listen, .line 0 noIdEnv noIdLine] := by
  intro h
  obtain ⟨c, hfind, hbooted⟩ : ∃ c, init.listen.find 0 = some c ∧ c.booted = false :=
    ⟨_, rfl, rfl⟩
  have hstep : init.listen.step (.line 0 noIdEnv noIdLine) = some init.listen := by
    rw [step, hfind, Option.bind_some, hbooted, processLine_noId]
    rfl
  obtain ⟨-, htail⟩ := h init.listen rfl
  obtain ⟨s', ws, rv, hline, -⟩ := (htail init.listen hstep).1 0 c noIdEnv noIdLine rfl hfind
  rw [processLine_noId] at hline
  cases hline

end Ssm

end MassGridMiner

import MassGridMiner.Lib.Format
import MassGridMiner.Stratum.Method
import MassGridMiner.Stratum.Notify

/-!
# What the client formats in answer to a pool

Five places format a line for the pool into a buffer of their own, with the id of the
request or the id of the job in it, and `__stratum_send` then appends a newline in that
buffer.  Nothing bounds the ids, so whether the line fits depends on the pool.

## Main definitions

* `probeTransparencyLine`, `sendVersion`, `stratumShowMessage`, `stratumSetExtranonce`,
  `stratumSetGoal` — the five places.
* `Inbound`, `answer` — what may come from a pool, and the line formatted in answer.
* `HasRoom` — the lengths for which the line fits.
-/

namespace MassGridMiner

/-- `RBUFSIZE`. -/
def rbufsize : ℕ := 8192

/-- What the answers depend on besides the pool: `json_dumps_ANY`, the name and version of
the program, options in the pool's URL, the algorithms registered, and whether sending
succeeds. -/
structure ReplyEnv where
  notify : NotifyEnv
  dumps : Json → CStr
  version : CStr
  goalreset : Bool
  changeGoalMalgo : Bool
  algorithms : List MiningAlgorithm
  sends : Bool

/-- What a handler returns, the pool as it leaves it, and the line it formats. -/
structure HandlerResult where
  ret : Bool
  pool : StratumPool
  line : Option TextBuffer

/-- The id of a request that is to be answered. -/
def replyId (val : Json) : Option Json :=
  match val.get "id" with
  | some .null => none
  | id => id

/-- The request of `stratum_probe_transparency`. -/
def probeTransparencyLine (swork : StratumWork) : TextBuffer :=
  sprintf 1024
    "\x7b\"params\": [\"%s\"], \"id\": \"txlist%s\", \"method\": \"mining.get_transactions\"\x7d"
    [CStr.printed swork.jobId, CStr.printed swork.jobId]

/-- `send_version`. -/
def sendVersion (env : ReplyEnv) (pool : StratumPool) (val : Json) : HandlerResult :=
  match replyId val with
  | none => ⟨false, pool, none⟩
  | some id =>
    ⟨env.sends, pool, some <| sprintf rbufsize
      "\x7b\"id\": %s, \"result\": \"%s\", \"error\": null\x7d"
      [(env.dumps id).bytes, env.version.bytes]⟩

/-- `stratum_show_message`. -/
def stratumShowMessage (env : ReplyEnv) (pool : StratumPool) (val : Json)
    (params : Option Json) : HandlerResult :=
  let msg := jsonArrayString params 0
  let pool := { pool with adminMsg := msg.or pool.adminMsg }
  match replyId val with
  | none => ⟨true, pool, none⟩
  | some id =>
    ⟨env.sends, pool, some <| sprintf rbufsize
      (if msg.isSome then "\x7b\"id\": %s, \"result\": true, \"error\": null\x7d"
        else "\x7b\"id\": %s, \"result\": null, \"error\": [-1, \"Failed to parse message\", null]\x7d")
      [(env.dumps id).bytes]⟩

/-- The size of the second extranonce that `mining.set_extranonce` asks for; zero leaves it
alone. -/
def extranonceN2size (params : Option Json) : Option ℤ :=
  match Json.arrayGet params 1 with
  | some (.integer n) => if n.bmod (2 ^ 32) < 1 then none else some (n.bmod (2 ^ 32))
  | some .null => some 0
  | _ => none

/-- The first extranonce that `mining.set_extranonce` asks for, if it does. -/
def extranonceNonce1 (params : Option Json) : Option (Option CStr) :=
  match Json.arrayGet params 0 with
  | some (.string nonce1) => some (some nonce1)
  | some .null => some none
  | _ => none

/-- What `mining.set_extranonce` asks for, unless it is invalid. -/
def extranonceArgs (params : Option Json) : Option (Option CStr × ℤ) :=
  match params with
  | some (.array []) => some (none, 0)
  | some (.array [_]) => (extranonceNonce1 params).map fun nonce1 => (nonce1, 0)
  | some (.array _) =>
    (extranonceN2size params).bind fun n2size =>
      (extranonceNonce1 params).map fun nonce1 => (nonce1, n2size)
  | _ => none

/-- `stratum_set_extranonce`. -/
def stratumSetExtranonce (env : ReplyEnv) (pool : StratumPool) (val : Json)
    (params : Option Json) : HandlerResult :=
  match extranonceArgs params with
  | some (nonce1, n2size) =>
    ⟨true, { pool with
      nextNonce1 := nonce1.or pool.nextNonce1
      nextN2size := if n2size = 0 then pool.nextN2size else n2size.toNat }, none⟩
  | none =>
    ⟨true, pool, (replyId val).map fun id => sprintf rbufsize
      "\x7b\"id\": %s, \"result\": null, \"error\": [20, \"Invalid params\"]\x7d"
      [(env.dumps id).bytes]⟩

/-- `match_strtok` with a bar between the options. -/
def matchStrtok (optlist : String) (needle : CStr) : Bool :=
  (((literal optlist).splitOnP (· == 0x7c)).filter (· ≠ [])).any fun el =>
    el.map CStr.tolower == needle.bytes.map CStr.tolower

/-- `mining_algorithm_by_alias`. -/
def miningAlgorithmByAlias (algorithms : List MiningAlgorithm) (needle : CStr) :
    Option MiningAlgorithm :=
  algorithms.find? fun malgo => matchStrtok malgo.aliases needle

/-- The algorithm that a `mining.set_goal` names. -/
def goalMalgoName (params : Option Json) : Option CStr :=
  (Json.arrayGet params 1).bind fun goaldesc => jsonStringValue (goaldesc.get "malgo")

/-- The algorithm to change to, if any, or none where the request is refused.  Records of
the same name are the same record. -/
def setGoalMalgo (env : ReplyEnv) (pool : StratumPool) (params : Option Json) :
    Option (Option MiningAlgorithm) :=
  match goalMalgoName params with
  | none => some none
  | some newvalue =>
    match miningAlgorithmByAlias env.algorithms newvalue with
    | some malgo =>
      if env.changeGoalMalgo then
        some (if malgo.name == pool.goalMalgo.name then none else some malgo)
      else none
    | none => none

/-- The reply of `stratum_set_goal`.  The test is the wrong way round: a request that is
refused is told so by no error, and one that is accepted has a NULL printed as its error. -/
def setGoalLine (env : ReplyEnv) (val : Json) (refused : Bool) : Option TextBuffer :=
  (replyId val).map fun id =>
    if refused then
      snprintf 0x80 "\x7b\"id\":%s,\"result\":true,\"error\":null\x7d" [(env.dumps id).bytes]
    else
      snprintf 0x80 "\x7b\"id\":%s,\"result\":null,\"error\":[-1,\"%s\",null]\x7d"
        [(env.dumps id).bytes, CStr.printed none]

/-- `stratum_set_goal`; none where it compares the goal's name with NULL. -/
def stratumSetGoal (env : ReplyEnv) (pool : StratumPool) (val : Json)
    (params : Option Json) : Option HandlerResult :=
  if !env.goalreset then some ⟨false, pool, none⟩
  else
    match setGoalMalgo env pool params with
    | none => some ⟨true, pool, setGoalLine env val true⟩
    | some newMalgo =>
      let newGoalname := jsonArrayString params 0
      if pool.goalname.isSome && newGoalname.isNone then none
      else some ⟨true, { pool with
        nextGoalMalgo := newMalgo
        nextGoalname := newGoalname }, setGoalLine env val false⟩

/-- What comes from a pool: a request, as the value of its line, or what ends the
authorisation, after which `auth_stratum` asks for the transactions of a job it has. -/
inductive Inbound
  | request (val : Json)
  | authReply

/-- The line that `parse_notify` formats. -/
def notifyLine (env : ReplyEnv) (pool : StratumPool) (params : Option Json) : Option TextBuffer :=
  (notifyFields params).bind fun fields =>
    let swork := installJob env.notify pool fields
    if asksTransactions env.notify swork && pool.probed then some (probeTransparencyLine swork)
    else none

/-- The line formatted in answer, by whichever of the five places answers. -/
def answer (env : ReplyEnv) (pool : StratumPool) : Inbound → Option TextBuffer
  | .authReply => if pool.stratumNotify then some (probeTransparencyLine pool.swork) else none
  | .request val =>
    let params := val.get "params"
    match (requestMethod val).bind methodHandler with
    | some .notify => notifyLine env pool params
    | some .getVersion => (sendVersion env pool val).line
    | some .showMessage => (stratumShowMessage env pool val params).line
    | some .setExtranonce => (stratumSetExtranonce env pool val params).line
    | some .setGoal => (stratumSetGoal env pool val params).bind HandlerResult.line
    | some .setDifficulty | some .reconnect | none => none

/-- The line formatted in answer fits. -/
def AnswerFits (env : ReplyEnv) (pool : StratumPool) (msg : Inbound) : Prop :=
  ∀ line ∈ answer env pool msg, line.FitsLine

/-- If the request is to be answered, there is room for its id besides something else. -/
def IdRoom (env : ReplyEnv) (val : Json) (other room : ℕ) : Prop :=
  ∀ id, replyId val = some id → (env.dumps id).length + other ≤ room

/-- The lengths for which the answer fits. -/
def HasRoom (env : ReplyEnv) (pool : StratumPool) : Inbound → Prop
  | .authReply => pool.stratumNotify = true → (CStr.printed pool.swork.jobId).length ≤ 476
  | .request val =>
    let params := val.get "params"
    match (requestMethod val).bind methodHandler with
    | some .notify => ∀ fields, notifyFields params = some fields →
        asksTransactions env.notify (installJob env.notify pool fields) = true →
        pool.probed = true → fields.jobId.length ≤ 476
    | some .getVersion => IdRoom env val env.version.length 8153
    | some .showMessage =>
      IdRoom env val 0 (if (jsonArrayString params 0).isSome then 8151 else 8118)
    | some .setExtranonce => extranonceArgs params = none → IdRoom env val 0 8133
    | some .setGoal => env.goalreset = true →
        (setGoalMalgo env pool params = none → IdRoom env val 0 92) ∧
        ((setGoalMalgo env pool params).isSome = true →
          (pool.goalname.isSome && (jsonArrayString params 0).isNone) = false →
          IdRoom env val 0 78)
    | some .setDifficulty | some .reconnect | none => True

theorem probeTransparencyLine_fits_iff (swork : StratumWork) :
    (probeTransparencyLine swork).FitsLine ↔ (CStr.printed swork.jobId).length ≤ 476 := by
  refine Iff.trans (sprintf_fitsLine_iff
    (show LeavesRoom _ 2 1024 953 by decide +kernel)) ?_
  simp only [List.map_cons, List.map_nil, List.sum_cons, List.sum_nil]
  omega

section

variable (env : ReplyEnv) (pool : StratumPool) (val : Json) (params : Option Json)

/-- A reply fits if its text fits for the id that the request has. -/
theorem reply_fits_iff {buf : Json → TextBuffer} {other room : ℕ}
    (H : ∀ id, (buf id).FitsLine ↔ (env.dumps id).length + other ≤ room) :
    (∀ line ∈ (replyId val).map buf, line.FitsLine) ↔ IdRoom env val other room := by
  simp only [IdRoom, Option.mem_def, Option.map_eq_some_iff]
  constructor
  · intro h id hid
    exact (H id).mp (h _ ⟨id, hid, rfl⟩)
  · rintro h _ ⟨id, hid, rfl⟩
    exact (H id).mpr (h id hid)

theorem sendVersion_fits_iff :
    (∀ line ∈ (sendVersion env pool val).line, line.FitsLine) ↔
      IdRoom env val env.version.length 8153 := by
  have hline : (sendVersion env pool val).line = (replyId val).map fun id => sprintf rbufsize
      "\x7b\"id\": %s, \"result\": \"%s\", \"error\": null\x7d"
      [(env.dumps id).bytes, env.version.bytes] := by
    rw [sendVersion]
    cases replyId val <;> rfl
  rw [hline]
  refine reply_fits_iff env val fun id => Iff.trans (sprintf_fitsLine_iff
    (show LeavesRoom _ 2 rbufsize 8153 by decide +kernel)) ?_
  simp [CStr.length]

theorem stratumShowMessage_fits_iff :
    (∀ line ∈ (stratumShowMessage env pool val params).line, line.FitsLine) ↔
      IdRoom env val 0 (if (jsonArrayString params 0).isSome then 8151 else 8118) := by
  have hline : (stratumShowMessage env pool val params).line =
      (replyId val).map fun id => sprintf rbufsize
        (if (jsonArrayString params 0).isSome then "\x7b\"id\": %s, \"result\": true, \"error\": null\x7d"
          else "\x7b\"id\": %s, \"result\": null, \"error\": [-1, \"Failed to parse message\", null]\x7d")
        [(env.dumps id).bytes] := by
    rw [stratumShowMessage]
    cases replyId val <;> rfl
  rw [hline]
  refine reply_fits_iff env val fun id => ?_
  split
  · refine Iff.trans (sprintf_fitsLine_iff
      (show LeavesRoom _ 1 rbufsize 8151 by decide +kernel)) ?_
    simp [CStr.length]
  · refine Iff.trans (sprintf_fitsLine_iff
      (show LeavesRoom _ 1 rbufsize 8118 by decide +kernel)) ?_
    simp [CStr.length]

theorem stratumSetExtranonce_fits_iff :
    (∀ line ∈ (stratumSetExtranonce env pool val params).line, line.FitsLine) ↔
      (extranonceArgs params = none → IdRoom env val 0 8133) := by
  rw [stratumSetExtranonce]
  rcases extranonceArgs params with _ | ⟨nonce1, n2size⟩
  · simp only [forall_const]
    refine reply_fits_iff env val fun id => Iff.trans (sprintf_fitsLine_iff
      (show LeavesRoom _ 1 rbufsize 8133 by decide +kernel)) ?_
    simp [CStr.length]
  · simp

theorem setGoalLine_fits_iff (refused : Bool) :
    (∀ line ∈ setGoalLine env val refused, line.FitsLine) ↔
      IdRoom env val 0 (if refused then 92 else 78) := by
  refine reply_fits_iff env val fun id => ?_
  cases refused
  · refine Iff.trans (snprintf_fitsLine_iff
      (show LeavesRoom _ 2 0x80 84 by decide +kernel) (by decide)) ?_
    have hnull : (CStr.printed none).length = 6 := by decide +kernel
    simp only [List.map_cons, List.map_nil, List.sum_cons, List.sum_nil, hnull, CStr.length,
      Bool.false_eq_true, if_false]
    omega
  · refine Iff.trans (snprintf_fitsLine_iff
      (show LeavesRoom _ 1 0x80 92 by decide +kernel) (by decide)) ?_
    simp [CStr.length]

theorem stratumSetGoal_fits_iff :
    (∀ line ∈ (stratumSetGoal env pool val params).bind HandlerResult.line, line.FitsLine) ↔
      (env.goalreset = true →
        (setGoalMalgo env pool params = none → IdRoom env val 0 92) ∧
        ((setGoalMalgo env pool params).isSome = true →
          (pool.goalname.isSome && (jsonArrayString params 0).isNone) = false →
          IdRoom env val 0 78)) := by
  rw [stratumSetGoal]
  cases env.goalreset
  · simp
  rcases setGoalMalgo env pool params with _ | newMalgo
  · simpa using setGoalLine_fits_iff env val true
  · cases hnull : pool.goalname.isSome && (jsonArrayString params 0).isNone
    · simpa [hnull] using setGoalLine_fits_iff env val false
    · simp [hnull]

theorem notifyLine_fits_iff :
    (∀ line ∈ notifyLine env pool params, line.FitsLine) ↔
      ∀ fields, notifyFields params = some fields →
        asksTransactions env.notify (installJob env.notify pool fields) = true →
        pool.probed = true → fields.jobId.length ≤ 476 := by
  rw [notifyLine]
  rcases notifyFields params with _ | fields
  · simp
  · have hline : (probeTransparencyLine (installJob env.notify pool fields)).FitsLine ↔
        fields.jobId.length ≤ 476 := probeTransparencyLine_fits_iff _
    cases hasks : asksTransactions env.notify (installJob env.notify pool fields)
    · simp [hasks]
    · cases pool.probed
      · simp
      · simpa [hasks] using hline

end

/-- **When an answer fits.**  The room for an id is what the fixed part of the line leaves
of the buffer, a newline and the terminator taken off. -/
theorem answerFits_iff (env : ReplyEnv) (pool : StratumPool) (msg : Inbound) :
    AnswerFits env pool msg ↔ HasRoom env pool msg := by
  cases msg with
  | authReply =>
      simp only [AnswerFits, answer, HasRoom]
      cases pool.stratumNotify
      · simp
      · simpa using probeTransparencyLine_fits_iff pool.swork
  | request val =>
      simp only [AnswerFits, answer, HasRoom]
      generalize (requestMethod val).bind methodHandler = handler
      rcases handler with _ | handler
      · simp
      cases handler with
      | notify => exact notifyLine_fits_iff env pool _
      | setDifficulty => simp
      | reconnect => simp
      | getVersion => exact sendVersion_fits_iff env pool val
      | showMessage => exact stratumShowMessage_fits_iff env pool val _
      | setExtranonce => exact stratumSetExtranonce_fits_iff env pool val _
      | setGoal => exact stratumSetGoal_fits_iff env pool val _

/-- A notify with one merkle link, and a job id of 477 characters. -/
def longJobIdNotify : Json := .object [("id", .null),
  ("method", .string ⟨literal "mining.notify", by decide +kernel⟩),
  ("params", .array [.string (zeroDigits 477), .string (zeroDigits 64), .string (zeroDigits 2),
    .string (zeroDigits 2), .array [.string (zeroDigits 64)], .string (zeroDigits 8),
    .string (zeroDigits 8), .string (zeroDigits 8), .bool true])]

/-- A client that talks to a pool for the first time. -/
def firstNotifyEnv : ReplyEnv where
  notify := ⟨0, fun _ => 0, fun _ => 0, false⟩
  dumps := fun _ => ⟨literal "1", by decide +kernel⟩
  version := ⟨literal "bfgminer/0.2.2", by decide +kernel⟩
  goalreset := false
  changeGoalMalgo := false
  algorithms := []
  sends := true

/-- The request for its transactions is 1023 characters long, and the newline takes the last
byte of the buffer from the terminator. -/
theorem not_answerFits_longJobId :
    ¬ AnswerFits firstNotifyEnv { subscribedPool with probed := true }
      (.request longJobIdNotify) := by
  intro H
  have hhandler : (requestMethod longJobIdNotify).bind methodHandler = some .notify := by
    decide +kernel
  have hline := H (probeTransparencyLine _) (by rw [answer, hhandler]; rfl)
  have hshort := (probeTransparencyLine_fits_iff _).mp hline
  revert hshort
  decide +kernel

end MassGridMiner

import MassGridMiner.Blocks
import MassGridMiner.Lib.Run
import MassGridMiner.Stratum.Reply
import Mathlib.Data.List.TakeDrop

/-!
# Goals that a pool sets

With `goalreset` a pool may name a goal, and the next notify resets what is known of the blocks
if the name is another one.  Whether it is, is read off two pointers: the name that waits is
the name in force if the two are the same text.

## Main definitions

* `GoalPool` — a pool with the places of the two names.
* `GoalSession.step` — the two requests.
* `GoalSession.Lawful` — a request is accepted, answered and followed as it should be.
* `GoalSession.Spared` — a request that none of the slips of `stratum_set_goal` concerns.
-/

namespace MassGridMiner

/-- The part of `struct pool` that the requests read and write, and where the two names are in
memory. -/
structure GoalPool extends StratumPool where
  goalnameAt : ℕ
  nextGoalnameAt : ℕ

namespace GoalPool

/-- The pointer to the name in force. -/
def goalnamePtr (pool : GoalPool) : Option ℕ := pool.goalname.map fun _ => pool.goalnameAt

/-- The pointer to the name that waits. -/
def nextGoalnamePtr (pool : GoalPool) : Option ℕ :=
  pool.nextGoalname.map fun _ => pool.nextGoalnameAt

end GoalPool

/-- A pool with its goal, the name in the last request that was accepted, and what became of the
last request: whether it was accepted, the line in answer, and whether NULL was compared. -/
structure GoalSession where
  pool : GoalPool
  goals : Goals
  goal : ℕ
  asked : Option CStr
  accepted : Bool
  line : Option TextBuffer
  faulted : Bool

namespace GoalSession

/-- `stratum_set_goal`.  A name that is not the one in force is copied to a place of its own. -/
def setGoal (env : ReplyEnv) (s : GoalSession) (place : ℕ) (val : Json) : GoalSession :=
  let params := val.get "params"
  let newGoalname := jsonArrayString params 0
  let accepted := (setGoalMalgo env s.pool.toStratumPool params).isSome
  match stratumSetGoal env s.pool.toStratumPool val params with
  | none => { s with accepted := accepted, line := none, faulted := true }
  | some result =>
    { s with
      pool :=
        { toStratumPool := result.pool
          goalnameAt := s.pool.goalnameAt
          nextGoalnameAt :=
            if !accepted then s.pool.nextGoalnameAt
            else if s.pool.goalname = newGoalname then s.pool.goalnameAt
            else place }
      asked := if accepted then newGoalname else s.asked
      accepted := accepted
      line := result.line }

/-- `parse_notify`, of a goal. -/
def notify (s : GoalSession) (env : NotifyEnv) (val : Json) : GoalSession :=
  match parseNotify env s.pool.toStratumPool (val.get "params") with
  | (false, _) => { s with accepted := false, line := none }
  | (true, pool) =>
    if s.pool.goalnamePtr ≠ s.pool.nextGoalnamePtr then
      { s with
        pool := ⟨{ pool with goalname := s.pool.nextGoalname }, s.pool.nextGoalnameAt,
          s.pool.nextGoalnameAt⟩
        goals := s.goals.miningGoalReset s.goal
        accepted := true
        line := none }
    else
      { s with
        pool := ⟨{ pool with goalname := s.pool.goalname }, s.pool.goalnameAt,
          s.pool.nextGoalnameAt⟩
        accepted := true
        line := none }

/-- The requests; a name may be copied to a place, which `malloc` chooses. -/
inductive Event
  | setGoal (place : ℕ) (val : Json)
  | notify (env : NotifyEnv) (val : Json)

/-- A request; none where the place is taken by the name in force, and behind a crash. -/
def step (env : ReplyEnv) (s : GoalSession) : Event → Option GoalSession
  | .setGoal place val =>
    if s.faulted || s.pool.goalnamePtr == some place then none else some (s.setGoal env place val)
  | .notify notifyEnv val => if s.faulted then none else some (s.notify notifyEnv val)

/-- A pool that has not set a goal. -/
def start (pool : StratumPool) (goals : Goals) (goal : ℕ) : GoalSession where
  pool := ⟨{ pool with goalname := none, nextGoalname := none }, 0, 0⟩
  goals := goals
  goal := goal
  asked := none
  accepted := false
  line := none
  faulted := false

end GoalSession

/-! ## What is asked of the requests -/

/-- The algorithm that a request names, if it is known. -/
def namedMalgo (env : ReplyEnv) (params : Option Json) : Option MiningAlgorithm :=
  (goalMalgoName params).bind (miningAlgorithmByAlias env.algorithms)

/-- The request names the algorithm that is in use. -/
def NamesCurrent (env : ReplyEnv) (pool : StratumPool) (params : Option Json) : Prop :=
  ∃ malgo, namedMalgo env params = some malgo ∧ malgo.name = pool.goalMalgo.name

/-- It names that one, or a supported one where the pool may change it. -/
def MayAsk (env : ReplyEnv) (pool : StratumPool) (params : Option Json) : Prop :=
  NamesCurrent env pool params ∨
    env.changeGoalMalgo = true ∧ (namedMalgo env params).isSome = true

/-- The reply to a request that is accepted. -/
def successReply (env : ReplyEnv) (id : Json) : List UInt8 :=
  format (literal "\x7b\"id\":%s,\"result\":true,\"error\":null\x7d") [(env.dumps id).bytes]

namespace GoalSession

/-- A request for a goal is accepted if it may be made, a reply reports success if it is
accepted and only then, and no name that is absent is compared. -/
structure AnswersGoal (env : ReplyEnv) (s : GoalSession) (val : Json) (s' : GoalSession) :
    Prop where
  accepts : MayAsk env s.pool.toStratumPool (val.get "params") → s'.accepted = true
  replies : ∀ id, replyId val = some id →
    ∃ line, s'.line = some line ∧ (line.text = successReply env id ↔ s'.accepted = true)
  safe : s'.faulted = false

/-- A notify resets the goal if the last name that was asked for is not the one in force, and
only then. -/
structure FollowsGoal (s : GoalSession) (val : Json) (s' : GoalSession) : Prop where
  resets : (notifyFields (val.get "params")).isSome = true →
    s'.goals = if s.asked = s.pool.goalname then s.goals else s.goals.miningGoalReset s.goal
  safe : s'.faulted = false

/-- What is asked of a request. -/
def Lawful (env : ReplyEnv) (s : GoalSession) : Event → GoalSession → Prop
  | .setGoal _ val, s' => AnswersGoal env s val s'
  | .notify _ val, s' => FollowsGoal s val s'

/-- A request for a goal that names the algorithm in use only where it may be changed, that is
not to be answered unless it is refused and the id leaves no room for the reply, and that has a
name if there is one in force. -/
structure SparesGoal (env : ReplyEnv) (s : GoalSession) (val : Json) : Prop where
  change : NamesCurrent env s.pool.toStratumPool (val.get "params") → env.changeGoalMalgo = true
  id : ∀ id, replyId val = some id →
    setGoalMalgo env s.pool.toStratumPool (val.get "params") = none ∧ 93 < (env.dumps id).length
  name : (setGoalMalgo env s.pool.toStratumPool (val.get "params")).isSome = true →
    s.pool.goalname.isSome = true → (jsonArrayString (val.get "params") 0).isSome = true

/-- A request that none of the slips concerns. -/
def Spared (env : ReplyEnv) (s : GoalSession) : Event → GoalSession → Prop
  | .setGoal _ val, _ => SparesGoal env s val
  | .notify _ _, _ => True

/-- The name that waits is the one that was asked for, and the pointers are equal where the names
are. -/
structure Tracked (s : GoalSession) : Prop where
  asked : s.pool.nextGoalname = s.asked
  ptr : s.pool.goalnamePtr = s.pool.nextGoalnamePtr ↔ s.pool.goalname = s.pool.nextGoalname

end GoalSession

/-! ## The reply -/

/-- A text with an id in it, and what is left of another that differs behind the id. -/
theorem take_ne_of_differ {front id back other : List UInt8} {k n : ℕ}
    (hk : k ≤ back.length) (hdiffer : back.take k ≠ other.take k) :
    (front ++ id ++ other).take n ≠ front ++ id ++ back := by
  intro h
  have hlen : (front ++ id ++ back).length ≤ n := by
    rw [← h]
    exact List.length_take_le _ _
  rw [List.length_append] at hlen
  have hcut := congrArg (List.take k ∘ List.drop (front ++ id).length) h
  simp only [Function.comp_apply, List.drop_left, List.drop_take, List.take_take] at hcut
  rw [Nat.min_eq_left (by omega)] at hcut
  exact hdiffer hcut.symm

theorem successReply_eq (env : ReplyEnv) (id : Json) :
    successReply env id = literal "\x7b\"id\":" ++ (env.dumps id).bytes ++
      literal ",\"result\":true,\"error\":null\x7d" := by
  have hfmt := format_literal (env.dumps id).bytes []
    (show _ ∧ literal "\x7b\"id\":%s,\"result\":true,\"error\":null\x7d" =
      literal "\x7b\"id\":" ++ 0x25 :: 0x73 :: literal ",\"result\":true,\"error\":null\x7d" by
      decide +kernel)
  have hback : format (literal ",\"result\":true,\"error\":null\x7d") [] =
      literal ",\"result\":true,\"error\":null\x7d" := by decide +kernel
  rw [successReply, hfmt, hback]

/-- A reply to a request that is refused has the text of success, if the text fits. -/
theorem refused_text_iff {env : ReplyEnv} {val id : Json} {line : TextBuffer}
    (hid : replyId val = some id) (hline : setGoalLine env val true = some line) :
    line.text = successReply env id ↔ (env.dumps id).length ≤ 93 := by
  rw [setGoalLine, hid] at hline
  obtain rfl := Option.some.inj hline
  have hlen : (successReply env id).length = (env.dumps id).length + 34 := by
    have hfixed : (literal "\x7b\"id\":").length = 6 ∧
        (literal ",\"result\":true,\"error\":null\x7d").length = 28 := by decide +kernel
    rw [successReply_eq, List.length_append, List.length_append, hfixed.1, hfixed.2, CStr.length]
    omega
  change List.take 127 (successReply env id) = _ ↔ _
  rw [List.take_eq_self_iff, hlen]
  omega

/-- A reply to a request that is accepted never has it. -/
theorem accepted_text_ne {env : ReplyEnv} {val id : Json} {line : TextBuffer}
    (hid : replyId val = some id) (hline : setGoalLine env val false = some line) :
    line.text ≠ successReply env id := by
  rw [setGoalLine, hid] at hline
  obtain rfl := Option.some.inj hline
  rw [successReply_eq]
  dsimp only [if_neg Bool.false_ne_true, snprintf]
  rw [format_literal (env.dumps id).bytes [CStr.printed none]
    (show _ ∧ literal "\x7b\"id\":%s,\"result\":null,\"error\":[-1,\"%s\",null]\x7d" =
      literal "\x7b\"id\":" ++
        0x25 :: 0x73 :: literal ",\"result\":null,\"error\":[-1,\"%s\",null]\x7d" by decide +kernel)]
  exact take_ne_of_differ (k := 11) (by decide +kernel) (by decide +kernel)

/-! ## What a request does -/

theorem namesCurrent_of_mayAsk {env : ReplyEnv} {pool : StratumPool} {params : Option Json}
    (H : MayAsk env pool params) (hrefused : setGoalMalgo env pool params = none) :
    NamesCurrent env pool params ∧ env.changeGoalMalgo = false := by
  have hnamed : ∃ malgo, namedMalgo env params = some malgo := by
    rcases H with ⟨malgo, hmalgo, -⟩ | ⟨-, hsome⟩
    · exact ⟨malgo, hmalgo⟩
    · exact Option.isSome_iff_exists.mp hsome
  obtain ⟨malgo, hmalgo⟩ := hnamed
  obtain ⟨newvalue, hname, halias⟩ := Option.bind_eq_some_iff.mp hmalgo
  rw [setGoalMalgo, hname] at hrefused
  dsimp only at hrefused
  rw [halias] at hrefused
  have hchange : env.changeGoalMalgo = false := by
    by_contra hchange
    simp [hchange] at hrefused
  rcases H with hcurrent | ⟨hmay, -⟩
  · exact ⟨hcurrent, hchange⟩
  · rw [hchange] at hmay
    cases hmay

/-- A request that names an algorithm is refused where the algorithm may not be changed. -/
theorem change_of_accepted {env : ReplyEnv} {pool : StratumPool} {params : Option Json}
    (H : NamesCurrent env pool params) (haccepted : (setGoalMalgo env pool params).isSome = true) :
    env.changeGoalMalgo = true := by
  obtain ⟨malgo, hmalgo, -⟩ := H
  obtain ⟨newvalue, hname, halias⟩ := Option.bind_eq_some_iff.mp hmalgo
  rw [setGoalMalgo, hname] at haccepted
  dsimp only at haccepted
  rw [halias] at haccepted
  by_contra hchange
  simp [hchange] at haccepted

namespace GoalSession

section
variable {env : ReplyEnv} {s s' : GoalSession} {place : ℕ} {val : Json} {e : Event}

/-- The request is refused, and nothing changes. -/
structure Refuses (env : ReplyEnv) (s : GoalSession) (val : Json) (s' : GoalSession) : Prop where
  refused : setGoalMalgo env s.pool.toStratumPool (val.get "params") = none
  accepted : s'.accepted = false
  line : s'.line = setGoalLine env val true
  faulted : s'.faulted = false
  pool : s'.pool = s.pool
  asked : s'.asked = s.asked

/-- The name in force is compared with NULL. -/
structure Crashes (env : ReplyEnv) (s : GoalSession) (val : Json) (s' : GoalSession) : Prop where
  granted : (setGoalMalgo env s.pool.toStratumPool (val.get "params")).isSome = true
  goalname : s.pool.goalname.isSome = true
  absent : (jsonArrayString (val.get "params") 0).isSome = false
  faulted : s'.faulted = true

/-- The request is accepted, and the pointers are equal if the names are. -/
structure Accepts (env : ReplyEnv) (s : GoalSession) (val : Json) (s' : GoalSession) : Prop where
  granted : (setGoalMalgo env s.pool.toStratumPool (val.get "params")).isSome = true
  present : s.pool.goalname.isSome = true → (jsonArrayString (val.get "params") 0).isSome = true
  accepted : s'.accepted = true
  line : s'.line = setGoalLine env val false
  faulted : s'.faulted = false
  asked : s'.pool.nextGoalname = s'.asked
  ptr : s'.pool.goalnamePtr = s'.pool.nextGoalnamePtr ↔ s'.pool.goalname = s'.pool.nextGoalname

/-- What `stratum_set_goal` does. -/
theorem setGoal_cases (val : Json) (hreset : env.goalreset = true) (hsafe : s.faulted = false)
    (hplace : s.pool.goalnamePtr ≠ some place) :
    Refuses env s val (s.setGoal env place val) ∨ Crashes env s val (s.setGoal env place val) ∨
      Accepts env s val (s.setGoal env place val) := by
  rcases hgranted : setGoalMalgo env s.pool.toStratumPool (val.get "params") with _ | newMalgo
  · have hresult : stratumSetGoal env s.pool.toStratumPool val (val.get "params") =
        some ⟨true, s.pool.toStratumPool, setGoalLine env val true⟩ := by
      rw [stratumSetGoal, hreset, hgranted]
      rfl
    left
    constructor <;> simp [setGoal, hresult, hgranted, hsafe]
  · right
    by_cases hpresent : s.pool.goalname.isSome = true →
        (jsonArrayString (val.get "params") 0).isSome = true
    · have hnull : (s.pool.goalname.isSome &&
          (jsonArrayString (val.get "params") 0).isNone) = false := by
        rw [← Option.not_isSome]
        cases hname : s.pool.goalname.isSome
        · rfl
        · rw [hpresent hname]
          rfl
      have hresult : stratumSetGoal env s.pool.toStratumPool val (val.get "params") =
          some ⟨true, { s.pool.toStratumPool with
            nextGoalMalgo := newMalgo
            nextGoalname := jsonArrayString (val.get "params") 0 }, setGoalLine env val false⟩ := by
        simp [stratumSetGoal, hreset, hgranted, hnull]
      right
      constructor
      case granted => rw [hgranted]; rfl
      case present => exact hpresent
      case ptr =>
          simp only [setGoal, hresult, hgranted, GoalPool.goalnamePtr, GoalPool.nextGoalnamePtr]
          by_cases heq : s.pool.goalname = jsonArrayString (val.get "params") 0
          · simp [heq]
          · refine iff_of_false ?_ heq
            -- two names that differ are not both absent, and a copy has a place of its own
            rw [GoalPool.goalnamePtr] at hplace
            generalize jsonArrayString (val.get "params") 0 = newGoalname at heq
            cases newGoalname with
            | none => simpa using heq
            | some name => simpa [heq] using hplace
      all_goals simp [setGoal, hresult, hgranted, hsafe]
    · have hgoalname : s.pool.goalname.isSome = true := by tauto
      have habsent : (jsonArrayString (val.get "params") 0).isSome = false := by
        rw [← Bool.not_eq_true]
        tauto
      have hresult : stratumSetGoal env s.pool.toStratumPool val (val.get "params") = none := by
        simp [stratumSetGoal, hreset, hgranted, hgoalname, Option.isSome_eq_false_iff.mp habsent]
      left
      exact ⟨by rw [hgranted]; rfl, hgoalname, habsent, by simp [setGoal, hresult]⟩

/-- A request is answered as it should be if none of the slips concerns it. -/
theorem answersGoal_iff (hreset : env.goalreset = true) (hsafe : s.faulted = false)
    (hplace : s.pool.goalnamePtr ≠ some place) :
    AnswersGoal env s val (s.setGoal env place val) ↔ SparesGoal env s val := by
  rcases setGoal_cases val hreset hsafe hplace with H | H | H
  · constructor
    · intro hanswers
      refine ⟨fun hcurrent => ?_, fun id hid => ?_, fun hgranted => ?_⟩
      · have haccepted := hanswers.accepts (.inl hcurrent)
        rw [H.accepted] at haccepted
        cases haccepted
      · obtain ⟨line, hline, htext⟩ := hanswers.replies id hid
        rw [H.line] at hline
        rw [refused_text_iff hid hline, H.accepted] at htext
        refine ⟨H.refused, ?_⟩
        simpa using htext
      · rw [H.refused] at hgranted
        cases hgranted
    · intro hspared
      refine ⟨fun hmay => ?_, fun id hid => ?_, H.faulted⟩
      · obtain ⟨hcurrent, hchange⟩ := namesCurrent_of_mayAsk hmay H.refused
        rw [hspared.change hcurrent] at hchange
        cases hchange
      · have hline : ∃ line, setGoalLine env val true = some line := by
          rw [setGoalLine, hid]
          exact ⟨_, rfl⟩
        obtain ⟨line, hline⟩ := hline
        refine ⟨line, H.line.trans hline, ?_⟩
        rw [refused_text_iff hid hline, H.accepted]
        have hlong := (hspared.id id hid).2
        simpa using hlong
  · constructor
    · intro hanswers
      have hfaulted := hanswers.safe
      rw [H.faulted] at hfaulted
      cases hfaulted
    · intro hspared
      have hpresent := hspared.name H.granted H.goalname
      rw [H.absent] at hpresent
      cases hpresent
  · constructor
    · intro hanswers
      refine ⟨fun hcurrent => change_of_accepted hcurrent H.granted, fun id hid => ?_,
        fun _ => H.present⟩
      obtain ⟨line, hline, htext⟩ := hanswers.replies id hid
      rw [H.line] at hline
      exact absurd (htext.mpr H.accepted) (accepted_text_ne hid hline)
    · intro hspared
      refine ⟨fun _ => H.accepted, fun id hid => ?_, H.faulted⟩
      have hrefused := (hspared.id id hid).1
      have hgranted := H.granted
      rw [hrefused] at hgranted
      cases hgranted

theorem faulted_notify (env : NotifyEnv) : (s.notify env val).faulted = s.faulted := by
  rw [notify]
  split
  · rfl
  · split <;> rfl

theorem goals_notify (env : NotifyEnv)
    (hfields : (notifyFields (val.get "params")).isSome = true) :
    (s.notify env val).goals =
      if s.pool.goalnamePtr = s.pool.nextGoalnamePtr then s.goals
      else s.goals.miningGoalReset s.goal := by
  obtain ⟨fields, hfields⟩ := Option.isSome_iff_exists.mp hfields
  rw [notify, parseNotify, hfields]
  by_cases hptr : s.pool.goalnamePtr = s.pool.nextGoalnamePtr <;> simp [hptr]

/-- A notify is followed, because the pointers tell whether the names are equal. -/
theorem followsGoal_notify (H : s.Tracked) (hsafe : s.faulted = false) (env : NotifyEnv) :
    FollowsGoal s val (s.notify env val) where
  resets hfields := by
    have hname : s.pool.goalnamePtr = s.pool.nextGoalnamePtr ↔ s.asked = s.pool.goalname := by
      rw [H.ptr, H.asked, eq_comm]
    rw [goals_notify env hfields]
    simp only [hname]
  safe := (faulted_notify env).trans hsafe

theorem tracked_notify (H : s.Tracked) (env : NotifyEnv) : (s.notify env val).Tracked := by
  rw [notify, parseNotify]
  cases hfields : notifyFields (val.get "params") with
  | none => exact ⟨H.asked, H.ptr⟩
  | some fields =>
      dsimp only
      split
      · exact ⟨H.asked, iff_of_true rfl rfl⟩
      · exact ⟨H.asked, H.ptr⟩

theorem step_setGoal (H : step env s (.setGoal place val) = some s') :
    s.faulted = false ∧ s.pool.goalnamePtr ≠ some place ∧ s' = s.setGoal env place val := by
  rw [step] at H
  split at H
  next => cases H
  next hguard =>
      rw [Bool.or_eq_true, not_or, beq_iff_eq, Bool.not_eq_true] at hguard
      exact ⟨hguard.1, hguard.2, (Option.some.inj H).symm⟩

theorem step_notify {notifyEnv : NotifyEnv} (H : step env s (.notify notifyEnv val) = some s') :
    s.faulted = false ∧ s' = s.notify notifyEnv val := by
  rw [step] at H
  split at H
  next => cases H
  next hguard => exact ⟨Bool.not_eq_true _ ▸ hguard, (Option.some.inj H).symm⟩

/-- A request that is lawful is one that none of the slips concerns. -/
theorem lawful_iff_spared (hreset : env.goalreset = true) (hinv : s.Tracked)
    (H : step env s e = some s') : s.Lawful env e s' ↔ s.Spared env e s' := by
  cases e with
  | setGoal place val =>
      obtain ⟨hsafe, hplace, rfl⟩ := step_setGoal H
      exact answersGoal_iff hreset hsafe hplace
  | notify notifyEnv val =>
      obtain ⟨hsafe, rfl⟩ := step_notify H
      exact iff_of_true (followsGoal_notify hinv hsafe notifyEnv) trivial

theorem tracked_step (hreset : env.goalreset = true) (hinv : s.Tracked)
    (H : step env s e = some s') (hlawful : s.Lawful env e s') : s'.Tracked := by
  cases e with
  | setGoal place val =>
      obtain ⟨hsafe, hplace, rfl⟩ := step_setGoal H
      rcases setGoal_cases val hreset hsafe hplace with hcase | hcase | hcase
      · refine ⟨?_, ?_⟩
        · rw [hcase.pool, hcase.asked, hinv.asked]
        · rw [hcase.pool]
          exact hinv.ptr
      · have hfaulted := AnswersGoal.safe hlawful
        rw [hcase.faulted] at hfaulted
        cases hfaulted
      · exact ⟨hcase.asked, hcase.ptr⟩
  | notify notifyEnv val =>
      obtain ⟨-, rfl⟩ := step_notify H
      exact tracked_notify hinv notifyEnv

end

/-- **When a pool's goals are set as they should be**: in the runs in which every request names
the algorithm in use only where it may be changed, is not to be answered, and has a name if
there is one in force. -/
theorem allSteps_lawful_iff_spared (env : ReplyEnv) (hreset : env.goalreset = true)
    (pool : StratumPool) (goals : Goals) (goal : ℕ) (es : List Event) :
    Run.AllSteps (step env) (Lawful env) (start pool goals goal) es ↔
      Run.AllSteps (step env) (Spared env) (start pool goals goal) es :=
  Run.allSteps_congr (I := Tracked)
    (fun _ e _ hinv H => lawful_iff_spared (e := e) hreset hinv H)
    (fun _ e _ hinv H hlawful => tracked_step (e := e) hreset hinv H hlawful) es
    ⟨rfl, iff_of_true rfl rfl⟩

/-- A pool that may set goals, of one algorithm. -/
def goalResetEnv : ReplyEnv := { firstNotifyEnv with goalreset := true }

/-- A request for the goal `a`, with an id. -/
def setGoalRequest : Json :=
  .object [("id", .integer 1), ("params", .array [.string ⟨[0x61], by decide⟩])]

/-- A request for a goal without a name, and without an id. -/
def unnamedGoalRequest : Json := .object [("id", .null), ("params", .array [])]

theorem allSteps_lawful_unanswered :
    goalResetEnv.goalreset = true ∧
      (Run.AllSteps (step goalResetEnv) (Lawful goalResetEnv)
          (start subscribedPool Goals.init 0) [.setGoal 1 unnamedGoalRequest] ↔
        Run.AllSteps (step goalResetEnv) (Spared goalResetEnv)
          (start subscribedPool Goals.init 0) [.setGoal 1 unnamedGoalRequest]) :=
  ⟨rfl, allSteps_lawful_iff_spared goalResetEnv rfl subscribedPool Goals.init 0 _⟩

/-- The request is accepted, and the reply says that it is not. -/
theorem not_lawful_setGoal :
    ¬ Run.AllSteps (step goalResetEnv) (Lawful goalResetEnv)
      (start subscribedPool Goals.init 0) [.setGoal 1 setGoalRequest] := by
  intro H
  obtain ⟨hanswers, -⟩ := H _ rfl
  obtain ⟨line, hline, htext⟩ := AnswersGoal.replies hanswers (.integer 1) rfl
  have hid : replyId setGoalRequest = some (.integer 1) := rfl
  have hne : line.text ≠ successReply goalResetEnv (.integer 1) := accepted_text_ne hid hline
  exact hne (htext.mpr rfl)

end GoalSession

end MassGridMiner

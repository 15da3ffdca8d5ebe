import MassGridMiner.Lib.Run
import Mathlib.Algebra.BigOperators.Group.List.Basic
import Mathlib.Algebra.Order.Ring.Int
import Mathlib.Logic.Function.Basic

/-!
# Goals and the algorithms they use

Every goal uses a mining algorithm, and an algorithm counts the goals that use it.  With the
first goal there may be work for hardware that was not looked for, so `goal_set_malgo` triggers
hotplug.  It does so by a count taken before the new goal is added.

## Main definitions

* `GoalTable` — the goals, and the counts of the algorithms.
* `GoalTable.step` — the calls, once and before mining has started.
* `GoalTable.Counted` — the counts are the numbers of goals.
* `GoalTable.TriggersRight`, `GoalTable.Settled` — hotplug is triggered with the first goal of
  an algorithm, and when it is.
-/

namespace MassGridMiner

/-- The part of `struct mining_goal_info` that names a goal and its algorithm. -/
structure MiningGoalInfo where
  name : List UInt8
  malgo : Option ℕ

/-- The goals in order of their ids, `goal_refs` of every algorithm, whether mining has started,
the option, and whether the last call of `goal_set_malgo` triggered hotplug. -/
structure GoalTable where
  goals : List MiningGoalInfo
  goalRefs : ℕ → ℤ
  started : Bool
  optHotplug : Bool
  triggered : Bool

namespace GoalTable

/-- `goal_set_malgo`, for a goal that uses some algorithm or none. -/
def countMalgo (s : GoalTable) (old : Option ℕ) (malgo : ℕ) : GoalTable :=
  let goalRefs := old.elim s.goalRefs fun m => Function.update s.goalRefs m (s.goalRefs m - 1)
  { s with
    goalRefs := Function.update goalRefs malgo (goalRefs malgo + 1)
    triggered := goalRefs malgo != 0 && s.optHotplug && s.started }

/-- `goal_set_malgo`. -/
def goalSetMalgo (s : GoalTable) (goal malgo : ℕ) : Option GoalTable :=
  s.goals[goal]?.map fun g =>
    if g.malgo = some malgo then { s with triggered := false }
    else { s.countMalgo g.malgo malgo with goals := s.goals.set goal { g with malgo := malgo } }

/-- `get_mining_goal`: a goal of a new name is made, and uses the default algorithm. -/
def getMiningGoal (s : GoalTable) (defaultMalgo : ℕ) (name : List UInt8) : GoalTable :=
  if s.goals.any fun g => g.name == name then { s with triggered := false }
  else { s.countMalgo none defaultMalgo with goals := s.goals ++ [⟨name, some defaultMalgo⟩] }

/-- The calls, and the start of mining. -/
inductive Event
  | getMiningGoal (name : List UInt8)
  | goalSetMalgo (goal malgo : ℕ)
  | startMining

def step (defaultMalgo : ℕ) (s : GoalTable) : Event → Option GoalTable
  | .getMiningGoal name => some (s.getMiningGoal defaultMalgo name)
  | .goalSetMalgo goal malgo => s.goalSetMalgo goal malgo
  | .startMining => some { s with started := true, triggered := false }

/-- No goals. -/
def init (optHotplug : Bool) : GoalTable where
  goals := []
  goalRefs := fun _ => 0
  started := false
  optHotplug := optHotplug
  triggered := false

/-- How many goals use an algorithm. -/
def users (s : GoalTable) (malgo : ℕ) : ℕ := s.goals.countP fun g => g.malgo == some malgo

/-- The counts are the numbers of the goals. -/
def Counted (s : GoalTable) : Prop := ∀ m, s.goalRefs m = s.users m

/-- The counts are right after a call, and once mining has started with hotplug on, the call
triggers hotplug exactly when an algorithm gets its first goal. -/
structure TriggersRight (s : GoalTable) (_ : Event) (s' : GoalTable) : Prop where
  counted : s'.Counted
  triggered : s.started = true → s.optHotplug = true →
    (s'.triggered = true ↔ ∃ m, s.users m = 0 ∧ s'.users m ≠ 0)

/-- The call finds what it asks for. -/
def Finds (s : GoalTable) : Event → Prop
  | .getMiningGoal name => ∃ g ∈ s.goals, g.name = name
  | .goalSetMalgo goal malgo => ∃ g, s.goals[goal]? = some g ∧ g.malgo = some malgo
  | .startMining => True

/-- Once mining has started with hotplug on, the algorithms of the goals stay as they are. -/
def Settled (s : GoalTable) (e : Event) (_ : GoalTable) : Prop :=
  s.started = true → s.optHotplug = true → s.Finds e

/-! ## What a call does -/

section
variable {s s' : GoalTable} {old : Option ℕ} {goal malgo defaultMalgo : ℕ} {e : Event}

/-- A goal uses another algorithm than before. -/
structure Changed (s : GoalTable) (old : Option ℕ) (malgo : ℕ) (s' : GoalTable) : Prop where
  ne : old ≠ some malgo
  refs : ∀ m, s'.goalRefs m =
    s.goalRefs m - (if old = some m then 1 else 0) + if malgo = m then 1 else 0
  users : ∀ m, (s'.users m : ℤ) =
    s.users m - (if old = some m then 1 else 0) + if malgo = m then 1 else 0
  triggered : s'.triggered = (s.goalRefs malgo != 0 && s.optHotplug && s.started)

/-- Nothing is triggered, and every goal uses the algorithm that it used. -/
structure Unchanged (s s' : GoalTable) : Prop where
  goals : s'.goals = s.goals
  refs : s'.goalRefs = s.goalRefs
  triggered : s'.triggered = false

theorem refs_countMalgo (s : GoalTable) (old : Option ℕ) (malgo m : ℕ) :
    (s.countMalgo old malgo).goalRefs m =
      s.goalRefs m - (if old = some m then 1 else 0) + if malgo = m then 1 else 0 := by
  have hleft : (old.elim s.goalRefs fun k => Function.update s.goalRefs k (s.goalRefs k - 1)) m =
      s.goalRefs m - if old = some m then 1 else 0 := by
    cases old with
    | none => simp
    | some k =>
        rw [Option.elim_some, Function.update_apply]
        by_cases hk : m = k
        · simp [hk]
        · simp [hk, Ne.symm hk]
  rw [countMalgo]
  dsimp only
  rw [Function.update_apply]
  by_cases hm : m = malgo
  · rw [if_pos hm, if_pos hm.symm, ← hm, hleft]
  · rw [if_neg hm, if_neg (Ne.symm hm), add_zero, hleft]

theorem triggered_countMalgo (hne : old ≠ some malgo) :
    (s.countMalgo old malgo).triggered =
      (s.goalRefs malgo != 0 && s.optHotplug && s.started) := by
  cases old with
  | none => rfl
  | some k =>
      have hk : malgo ≠ k := fun h => hne (congrArg some h.symm)
      rw [countMalgo]
      dsimp only
      rw [Option.elim_some, Function.update_of_ne hk]

/-- A goal that is set to another algorithm. -/
theorem changed_goalSetMalgo {g : MiningGoalInfo} (hget : s.goals[goal]? = some g)
    (hne : g.malgo ≠ some malgo) :
    Changed s g.malgo malgo
      { s.countMalgo g.malgo malgo with goals := s.goals.set goal { g with malgo := some malgo } }
    where
  ne := hne
  refs := refs_countMalgo s g.malgo malgo
  users m := by
    obtain ⟨hlt, hgoal⟩ := List.getElem?_eq_some_iff.mp hget
    have hpos : g.malgo = some m → 0 < s.users m := by
      intro hm
      refine List.countP_pos_iff.mpr ⟨g, List.mem_of_getElem? hget, ?_⟩
      simpa using hm
    rw [users]
    dsimp only
    rw [List.countP_set hlt, hgoal]
    simp only [beq_iff_eq, Option.some.injEq]
    rw [users] at hpos ⊢
    by_cases hold : g.malgo = some m
    · have := hpos hold
      rw [if_pos hold, if_pos hold]
      split <;> omega
    · rw [if_neg hold, if_neg hold]
      split <;> omega
  triggered := triggered_countMalgo hne

/-- A goal that is made. -/
theorem changed_getMiningGoal (name : List UInt8) :
    Changed s none defaultMalgo
      { s.countMalgo none defaultMalgo with goals := s.goals ++ [⟨name, some defaultMalgo⟩] } where
  ne := by simp
  refs := refs_countMalgo s none defaultMalgo
  users m := by
    rw [users, users]
    dsimp only
    rw [List.countP_append, List.countP_singleton]
    simp only [beq_iff_eq, Option.some.injEq, reduceCtorEq, if_false, sub_zero]
    split <;> simp
  triggered := triggered_countMalgo (by simp)

/-- Whatever is called, the algorithm of some goal changes, or that of none. -/
theorem step_cases (H : step defaultMalgo s e = some s') :
    s.Finds e ∧ Unchanged s s' ∨ ¬ s.Finds e ∧ ∃ old malgo, Changed s old malgo s' := by
  cases e with
  | getMiningGoal name =>
      obtain rfl := Option.some.inj H
      rw [getMiningGoal]
      by_cases hfind : s.goals.any (fun g => g.name == name) = true
      · rw [if_pos hfind]
        refine .inl ⟨?_, rfl, rfl, rfl⟩
        simpa [Finds] using hfind
      · rw [if_neg hfind]
        refine .inr ⟨?_, none, defaultMalgo, changed_getMiningGoal name⟩
        simpa [Finds] using hfind
  | goalSetMalgo goal malgo =>
      obtain ⟨g, hget, rfl⟩ := Option.map_eq_some_iff.mp H
      by_cases heq : g.malgo = some malgo
      · rw [if_pos heq]
        exact .inl ⟨⟨g, hget, heq⟩, rfl, rfl, rfl⟩
      · rw [if_neg heq]
        refine .inr ⟨?_, g.malgo, malgo, changed_goalSetMalgo hget heq⟩
        rintro ⟨g', hget', heq'⟩
        obtain rfl := Option.some.inj (hget.symm.trans hget')
        exact heq heq'
  | startMining =>
      obtain rfl := Option.some.inj H
      exact .inl ⟨trivial, rfl, rfl, rfl⟩

theorem Unchanged.users (H : Unchanged s s') : s'.users = s.users := by
  funext m
  rw [GoalTable.users, GoalTable.users, H.goals]

theorem Unchanged.triggersRight (H : Unchanged s s') (hcount : s.Counted) :
    s.TriggersRight e s' where
  counted m := by rw [H.refs, H.users, hcount m]
  triggered _ _ := by
    rw [H.triggered, H.users]
    refine iff_of_false Bool.false_ne_true ?_
    rintro ⟨m, hunused, hused⟩
    exact hused hunused

theorem Changed.counted (H : Changed s old malgo s') (hcount : s.Counted) : s'.Counted := by
  intro m
  rw [H.refs, H.users, hcount m]

/-- Hotplug is triggered by every change but the one that it is for. -/
theorem Changed.triggered_iff (H : Changed s old malgo s') (hcount : s.Counted)
    (hstarted : s.started = true) (hhotplug : s.optHotplug = true) :
    s'.triggered = true ↔ ¬ ∃ m, s.users m = 0 ∧ s'.users m ≠ 0 := by
  have hfirst : (∃ m, s.users m = 0 ∧ s'.users m ≠ 0) ↔ s.users malgo = 0 := by
    constructor
    · rintro ⟨m, hunused, hused⟩
      have hm := H.users m
      by_cases heq : malgo = m
      · exact heq ▸ hunused
      · rw [if_neg heq] at hm
        split at hm <;> omega
    · intro hunused
      have hm := H.users malgo
      rw [if_neg H.ne, if_pos rfl] at hm
      exact ⟨malgo, hunused, by omega⟩
  have hcast : s.goalRefs malgo ≠ 0 ↔ ¬ s.users malgo = 0 := by rw [hcount malgo]; simp
  rw [hfirst, H.triggered, hstarted, hhotplug, Bool.and_true, Bool.and_true, bne_iff_ne, hcast]

/-- A call that triggers right changes nothing once mining has started. -/
theorem triggersRight_iff (hcount : s.Counted) (H : step defaultMalgo s e = some s') :
    s.TriggersRight e s' ↔ s.Settled e s' := by
  rcases step_cases H with ⟨hfinds, hsame⟩ | ⟨hfinds, old, malgo, hchange⟩
  · exact iff_of_true (hsame.triggersRight hcount) fun _ _ => hfinds
  · constructor
    · intro hright hstarted hhotplug
      have hiff := hright.triggered hstarted hhotplug
      rw [hchange.triggered_iff hcount hstarted hhotplug] at hiff
      exact absurd hiff not_iff_self
    · intro hsettled
      refine ⟨hchange.counted hcount, ?_⟩
      intro hstarted hhotplug
      exact absurd (hsettled hstarted hhotplug) hfinds

theorem counted_step (hcount : s.Counted) (H : step defaultMalgo s e = some s') : s'.Counted := by
  rcases step_cases H with ⟨-, hsame⟩ | ⟨-, old, malgo, hchange⟩
  · intro m
    rw [hsame.refs, hsame.users, hcount m]
  · exact hchange.counted hcount

end

theorem counted_init (optHotplug : Bool) : (init optHotplug).Counted := fun _ => rfl

/-- **When hotplug is triggered with the first goal of an algorithm, and only then**: in the runs
in which no algorithm changes once mining has started with hotplug on. -/
theorem allSteps_triggersRight_iff (defaultMalgo : ℕ) (optHotplug : Bool) (es : List Event) :
    Run.AllSteps (step defaultMalgo) TriggersRight (init optHotplug) es ↔
      Run.AllSteps (step defaultMalgo) Settled (init optHotplug) es :=
  Run.allSteps_congr (I := Counted) (fun _ e _ hcount H => triggersRight_iff (e := e) hcount H)
    (fun _ e _ hcount H _ => counted_step (e := e) hcount H) es (counted_init optHotplug)

/-- The counts are right in every run. -/
theorem counted_of_exec {defaultMalgo : ℕ} {optHotplug : Bool} {es : List Event} {s : GoalTable}
    (H : Run.exec (step defaultMalgo) (init optHotplug) es = some s) : s.Counted :=
  Run.exec_of_invariant (fun _ _ _ hcount hstep => counted_step hcount hstep)
    (counted_init optHotplug) H

/-- A goal takes up an algorithm that no goal uses, and hotplug is not triggered. -/
theorem not_triggersRight_newAlgorithm :
    ¬ Run.AllSteps (step 0) TriggersRight (init true)
      [.getMiningGoal [], .startMining, .goalSetMalgo 0 1] := by
  intro H
  have hlast := ((((H _ rfl).2 _ rfl).2 _ rfl).1.triggered rfl rfl).mpr
    ⟨1, by decide, by decide⟩
  exact absurd hlast (by decide)

end GoalTable

end MassGridMiner

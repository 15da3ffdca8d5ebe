import MassGridMiner.Lib.Run
import MassGridMiner.Staging.Work

/-!
# The works made from one getwork item

An item with leave to roll its time is cloned by the thread that received it, and again while
it is staged; processors take what is staged.  Of all the works made from one item this
module follows where they are and which times they carry.

## Main definitions

* `GetworkBase` — the item as it was received.
* `Converter` — the thread in `clone_work`, statement by statement.
* `Descent`, `Descent.step` — the works of the item, and what happens to them.
* `Descent.Distinct` — no two works that were taken have the same time, none is rolled too
  far, and staged works have different numbers.
-/

namespace MassGridMiner

/-- An item that was received from a pool without a template: it has not been rolled, and its
number was taken from `total_work`. -/
structure GetworkBase where
  work : StagedWork
  totalWork : ℕ
  rolls_eq : work.rolls = 0
  clone_eq : work.clone = false
  tr_eq : work.tr = false
  id_lt : work.id < totalWork

/-- Where the thread that received the item is: it calls `clone_work` with so many works
missing, is at the test of its loop, has staged a clone and is about to roll, has returned
with the work that is to be staged, or is done. -/
inductive Converter
  | called (work : StagedWork) (mrs : ℤ)
  | looping (work workClone : StagedWork) (mrs : ℤ) (cloned : Bool)
  | rolling (work : StagedWork) (mrs : ℤ)
  | returned (work : StagedWork)
  | done

/-- The works made from one item: those in `staged_work`, the clones that `clone_available`
has made and not staged yet, and those that `hash_pop` has handed out. -/
structure Descent where
  staged : List StagedWork
  inflight : List StagedWork
  handed : List StagedWork
  totalWork : ℕ
  converter : Converter

namespace Descent

/-- The item has just been received. -/
def init (base : GetworkBase) (mrs : ℤ) : Descent where
  staged := []
  inflight := []
  handed := []
  totalWork := base.totalWork
  converter := .called base.work mrs

/-- The next statement of `clone_work`, or of its caller.  Nobody else has the works that the
thread holds, so that it rolls and clones them in one step. -/
def cloneWork (env : RollEnv) (s : Descent) : Descent :=
  match s.converter with
  | .called work mrs =>
    if mrs < 1 then { s with converter := .returned work }
    else
      { s with
        totalWork := s.totalWork + 1
        converter := .looping work (makeClone s.totalWork work) mrs false }
  | .looping work workClone mrs cloned =>
    if mrs > 0 && (canRoll env work && env.shouldRoll work) then
      { s with staged := addStaged s.staged workClone, converter := .rolling work (mrs - 1) }
    else if cloned then
      { s with staged := addStaged s.staged work, converter := .returned workClone }
    else { s with converter := .returned work }
  | .rolling work mrs =>
    { s with
      totalWork := s.totalWork + 3
      converter := .looping (rollAndClone env s.totalWork work).1
        (rollAndClone env s.totalWork work).2 mrs true }
  | .returned work => { s with staged := addStaged s.staged work, converter := .done }
  | .done => s

/-- `clone_available`, as long as it holds the lock; `anyRollable` says that
`staged_rollable` is not zero. -/
def cloneAvailable (env : RollEnv) (anyRollable : Bool) (s : Descent) : Descent :=
  if !anyRollable then s
  else
    match rollFirst env s.totalWork s.staged with
    | none => s
    | some (staged, clone) =>
      { s with staged, inflight := clone :: s.inflight, totalWork := s.totalWork + 3 }

/-- `clone_available` stages the clone that it has made. -/
def stageClone (clone : StagedWork) (s : Descent) : Option Descent :=
  if clone ∈ s.inflight then
    some { s with inflight := s.inflight.erase clone, staged := addStaged s.staged clone }
  else none

/-- One turn of `hash_pop` that finds a work of this item: it leaves for `clone_available`, or
takes the work. -/
def hashPop (env : RollEnv) (work : StagedWork) (s : Descent) : Option Descent :=
  if work ∈ s.staged then
    if canRoll env work && env.shouldRoll work then some s
    else some { s with staged := s.staged.erase work, handed := work :: s.handed }
  else none

/-- What happens to the works of the item; `makeWork` gives a number to another work. -/
inductive Event
  | cloneWork (env : RollEnv)
  | cloneAvailable (env : RollEnv) (anyRollable : Bool)
  | stageClone (clone : StagedWork)
  | hashPop (env : RollEnv) (work : StagedWork)
  | makeWork

def step (s : Descent) : Event → Option Descent
  | .cloneWork env => some (s.cloneWork env)
  | .cloneAvailable env anyRollable => some (s.cloneAvailable env anyRollable)
  | .stageClone clone => s.stageClone clone
  | .hashPop env work => s.hashPop env work
  | .makeWork => some { s with totalWork := s.totalWork + 1 }

/-- How far the time of a work is ahead of that of the item. -/
def offset (base : GetworkBase) (work : StagedWork) : ℕ :=
  (work.ntime - base.work.ntime).toNat

/-- The works that were handed out have different times, at most 7001 seconds ahead of the
item, and those that are staged have different numbers. -/
structure Distinct (base : GetworkBase) (s : Descent) : Prop where
  ntimes : (s.handed.map StagedWork.ntime).Nodup
  offset_le : ∀ work ∈ s.handed, offset base work ≤ 7001
  ids : (s.staged.map StagedWork.id).Nodup

/-! ## Times -/

theorem ntime_overwrite (work : StagedWork) (x : UInt32) :
    StagedWork.ntime { work with data := work.data.overwrite 68 (be32 x) } = x := by
  have hlen : (be32 x).length = 4 := rfl
  have htake : (work.data.toList.take 68).length = 68 := by simp
  rw [StagedWork.ntime, Bytes.toList_overwrite _ (by omega), writeAt, List.append_assoc,
    List.drop_left' htake, ← hlen, List.take_left, ofBe32_be32]

section
variable {env : RollEnv} {base : GetworkBase} {totalWork : ℕ} {work : StagedWork}

/-- A roll adds one second. -/
theorem offset_rollWork (htr : work.tr = false) (hlt : offset base work < 2 ^ 32 - 1) :
    offset base (rollWork env totalWork work) = offset base work + 1 := by
  have hntime : (rollWork env totalWork work).ntime = work.ntime + 1 := by
    have hroll : (rollWork env totalWork work).ntime =
        StagedWork.ntime { work with data := work.data.overwrite 68 (be32 (work.ntime + 1)) } := by
      simp only [StagedWork.ntime, rollWork, htr, Bool.false_eq_true, if_false]
    rw [hroll, ntime_overwrite]
  have hsub : work.ntime + 1 - base.work.ntime = (work.ntime - base.work.ntime) + 1 := by
    rw [UInt32.sub_eq_add_neg, UInt32.sub_eq_add_neg, UInt32.add_assoc, UInt32.add_assoc,
      UInt32.add_comm 1]
  rw [offset, hntime, hsub, UInt32.toNat_add]
  rw [offset] at hlt ⊢
  simp only [UInt32.toNat_one]
  omega

end

/-! ## The invariant -/

/-- The master, rolled so many times. -/
structure IsMaster (base : GetworkBase) (top : ℕ) (work : StagedWork) : Prop where
  clone_eq : work.clone = false
  tr_eq : work.tr = false
  rolls_eq : work.rolls = top
  offset_eq : offset base work = top

/-- A work that was made while the master was rolled so many times. -/
structure Tracked (base : GetworkBase) (top totalWork : ℕ) (work : StagedWork) : Prop where
  offset_le : offset base work ≤ top
  id_lt : work.id < totalWork
  master : work.clone = false → IsMaster base top work

/-- Works with different times and numbers, the master among them rolled as often as any. -/
structure Family (base : GetworkBase) (top totalWork : ℕ) (works : List StagedWork) : Prop where
  tracked : ∀ work ∈ works, Tracked base top totalWork work
  offsets : (works.map (offset base)).Nodup
  ids : (works.map StagedWork.id).Nodup

section
variable {base : GetworkBase} {top totalWork : ℕ} {works works' : List StagedWork}
  {work : StagedWork}

theorem Family.perm (H : Family base top totalWork works) (hperm : works.Perm works') :
    Family base top totalWork works' where
  tracked w hw := H.tracked w (hperm.mem_iff.mpr hw)
  offsets := (hperm.map _).nodup_iff.mp H.offsets
  ids := (hperm.map _).nodup_iff.mp H.ids

theorem Family.tail (H : Family base top totalWork (work :: works)) :
    Family base top totalWork works where
  tracked w hw := H.tracked w (List.mem_cons_of_mem work hw)
  offsets := (List.nodup_cons.mp H.offsets).2
  ids := (List.nodup_cons.mp H.ids).2

theorem Tracked.mono (H : Tracked base top totalWork work) {totalWork' : ℕ}
    (hle : totalWork ≤ totalWork') : Tracked base top totalWork' work :=
  ⟨H.offset_le, H.id_lt.trans_le hle, H.master⟩

theorem Family.mono (H : Family base top totalWork works) {totalWork' : ℕ}
    (hle : totalWork ≤ totalWork') : Family base top totalWork' works :=
  ⟨fun w hw => (H.tracked w hw).mono hle, H.offsets, H.ids⟩

/-- There is one master. -/
theorem Family.clones (H : Family base top totalWork (work :: works))
    (hmaster : work.clone = false) : ∀ w ∈ works, w.clone = true := by
  intro w hw
  by_contra hclone
  have hfalse : w.clone = false := by simpa using hclone
  have hw' := ((H.tracked w (List.mem_cons_of_mem work hw)).master hfalse).offset_eq
  have hwork := ((H.tracked work List.mem_cons_self).master hmaster).offset_eq
  refine (List.nodup_cons.mp H.offsets).1 (List.mem_map.mpr ⟨w, hw, ?_⟩)
  rw [hw', hwork]

/-- The master goes two seconds on, and the clone is from between. -/
theorem Family.rollAndClone (H : Family base top totalWork works) (env : RollEnv)
    (hclones : ∀ w ∈ works, w.clone = true) (hwork : IsMaster base top work)
    (htop : top < 2 ^ 31) :
    Family base (top + 2) (totalWork + 3) ((rollAndClone env totalWork work).1 ::
      (rollAndClone env totalWork work).2 :: works) := by
  have hfirst : offset base (rollWork env totalWork work) = top + 1 := by
    rw [offset_rollWork hwork.tr_eq (by rw [hwork.offset_eq]; omega), hwork.offset_eq]
  have hmaster : IsMaster base (top + 2) (MassGridMiner.rollAndClone env totalWork work).1 :=
    { clone_eq := hwork.clone_eq
      tr_eq := hwork.tr_eq
      rolls_eq := congrArg (· + 2) hwork.rolls_eq
      offset_eq := by
        have htr : (rollWork env totalWork work).tr = false := hwork.tr_eq
        rw [MassGridMiner.rollAndClone, offset_rollWork htr (by rw [hfirst]; omega), hfirst] }
  have hclone : offset base (MassGridMiner.rollAndClone env totalWork work).2 = top + 1 := hfirst
  have hids : ∀ w ∈ works, w.id < totalWork := fun w hw => (H.tracked w hw).id_lt
  have hoffsets : ∀ w ∈ works, offset base w ≤ top := fun w hw => (H.tracked w hw).offset_le
  constructor
  · simp only [List.forall_mem_cons]
    refine ⟨⟨hmaster.offset_eq.le, Nat.lt_succ_self _, fun _ => hmaster⟩,
      ⟨by omega, Nat.lt_succ_of_lt (Nat.lt_succ_self _), fun h => by cases h⟩, fun w hw => ?_⟩
    have hw' := H.tracked w hw
    refine ⟨by have := hw'.offset_le; omega, by have := hw'.id_lt; omega, fun h => ?_⟩
    rw [hclones w hw] at h
    cases h
  · simp only [List.map_cons, List.nodup_cons, List.mem_cons, List.mem_map, not_or]
    refine ⟨⟨by rw [hmaster.offset_eq, hclone]; omega, ?_⟩, ?_, H.offsets⟩
    · rintro ⟨w, hw, heq⟩
      have := hoffsets w hw
      rw [hmaster.offset_eq] at heq
      omega
    · rintro ⟨w, hw, heq⟩
      have := hoffsets w hw
      omega
  · simp only [List.map_cons, List.nodup_cons, List.mem_cons, List.mem_map, not_or]
    refine ⟨⟨?_, ?_⟩, ?_, H.ids⟩
    · exact Nat.ne_of_gt (Nat.lt_succ_self (totalWork + 1))
    · rintro ⟨w, hw, heq⟩
      have hlt := hids w hw
      have hid : w.id = totalWork + 2 := heq
      omega
    · rintro ⟨w, hw, heq⟩
      have hlt := hids w hw
      have hid : w.id = totalWork + 1 := heq
      omega

end

/-- The works that are no longer with the thread that received the item. -/
def live (s : Descent) : List StagedWork := s.staged ++ s.inflight ++ s.handed

/-- The works that the thread will stage.  Its first clone has the time of the master, and
comes in its stead only if the master is rolled. -/
def held : Converter → List StagedWork
  | .called work _ => [work]
  | .looping work workClone _ cloned => if cloned then [work, workClone] else [work]
  | .rolling _ _ => []
  | .returned work => [work]
  | .done => []

/-- What the thread relies on. -/
def Ready (base : GetworkBase) (top totalWork : ℕ) (live : List StagedWork) : Converter → Prop
  | .called work _ => IsMaster base top work ∧ live = []
  | .looping work workClone _ cloned => IsMaster base top work ∧ (cloned = false →
      Tracked base top totalWork workClone ∧ workClone.clone = true ∧ live = [])
  | .rolling work _ => IsMaster base top work ∧ top < 7000 ∧ ∀ w ∈ live, w.clone = true
  | .returned _ | .done => True

/-- The works are a family, and the master has been rolled an even number of times, 7000 at
the most. -/
structure Inv (base : GetworkBase) (s : Descent) (top : ℕ) : Prop where
  even : top % 2 = 0
  top_le : top ≤ 7000
  family : Family base top s.totalWork (held s.converter ++ s.live)
  ready : Ready base top s.totalWork s.live s.converter

theorem Ready.mono {base : GetworkBase} {top totalWork totalWork' : ℕ}
    {live live' : List StagedWork} {converter : Converter}
    (H : Ready base top totalWork live converter) (hle : totalWork ≤ totalWork')
    (hperm : live.Perm live') : Ready base top totalWork' live' converter := by
  cases converter with
  | called work mrs =>
      obtain ⟨hmaster, rfl⟩ := H
      exact ⟨hmaster, hperm.nil_eq.symm⟩
  | looping work workClone mrs cloned =>
      refine ⟨H.1, fun hcloned => ?_⟩
      obtain ⟨htracked, hclone, rfl⟩ := H.2 hcloned
      exact ⟨htracked.mono hle, hclone, hperm.nil_eq.symm⟩
  | rolling work mrs => exact ⟨H.1, H.2.1, fun w hw => H.2.2 w (hperm.mem_iff.mpr hw)⟩
  | returned work => trivial
  | done => trivial

section
variable {base : GetworkBase} {s s' : Descent} {top : ℕ}

/-- What was made is the item itself. -/
theorem inv_init (base : GetworkBase) (mrs : ℤ) : Inv base (init base mrs) 0 := by
  have hoffset : offset base base.work = 0 := by simp [offset]
  have hmaster : IsMaster base 0 base.work :=
    ⟨base.clone_eq, base.tr_eq, base.rolls_eq, hoffset⟩
  refine ⟨rfl, Nat.zero_le _, ⟨?_, ?_, ?_⟩, hmaster, rfl⟩
  · intro w hw
    obtain rfl : w = base.work := by simpa [init, held, live] using hw
    exact ⟨hoffset.le, base.id_lt, fun _ => hmaster⟩
  · simp [init, held, live]
  · simp [init, held, live]

theorem perm_live_stage (s : Descent) (work : StagedWork) :
    (live { s with staged := addStaged s.staged work }).Perm (work :: s.live) :=
  ((perm_addStaged s.staged work).append_right s.inflight).append_right s.handed

/-- Who stages the work that it holds leaves the family as it is. -/
theorem Inv.move (H : Inv base s top) (hle : s.totalWork ≤ s'.totalWork)
    (hconv : s'.converter = s.converter) (hperm : s.live.Perm s'.live) : Inv base s' top := by
  refine ⟨H.even, H.top_le, ?_, ?_⟩
  · rw [hconv]
    exact (H.family.mono hle).perm (hperm.append_left _)
  · rw [hconv]
    exact H.ready.mono hle hperm

theorem clone_eq_of_canRoll {env : RollEnv} {work : StagedWork} (H : canRoll env work = true) :
    work.clone = false := by
  rw [canRoll] at H
  split at H
  next => cases H
  next =>
    split at H
    next => cases H
    next hclone => simpa using hclone

theorem rolls_lt_of_canRoll {env : RollEnv} {work : StagedWork} (H : canRoll env work = true)
    (htr : work.tr = false) : work.rolls < 7000 := by
  simp only [canRoll, htr, Bool.false_eq_true, if_false] at H
  split at H
  next => cases H
  next =>
    split at H
    next => cases H
    next =>
      simp only [Bool.and_eq_true, decide_eq_true_eq] at H
      exact H.1.2

/-- The thread that received the item takes a step. -/
theorem Inv.cloneWork (H : Inv base s top) (env : RollEnv) :
    ∃ top', Inv base (s.cloneWork env) top' := by
  have hfamily := H.family
  have hready := H.ready
  rw [Descent.cloneWork]
  split
  next work mrs hconv =>
    rw [hconv] at hfamily hready
    obtain ⟨hmaster, hlive⟩ := hready
    split
    next => exact ⟨top, H.even, H.top_le, hfamily, trivial⟩
    next =>
      have hclone : Tracked base top (s.totalWork + 1) (makeClone s.totalWork work) :=
        ⟨hmaster.offset_eq.le, Nat.lt_succ_self _, fun h => by cases h⟩
      exact ⟨top, H.even, H.top_le, hfamily.mono (Nat.le_succ _), hmaster,
        fun _ => ⟨hclone, rfl, hlive⟩⟩
  next work workClone mrs cloned hconv =>
    rw [hconv] at hfamily hready
    obtain ⟨hmaster, hfirst⟩ := hready
    split
    next hroll =>
      -- the clone is staged; the master is no longer one of the family until it is rolled
      have hcan : canRoll env work = true := by
        simp only [Bool.and_eq_true] at hroll
        exact hroll.2.1
      have hlt : top < 7000 := by
        rw [← hmaster.rolls_eq]
        exact rolls_lt_of_canRoll hcan hmaster.tr_eq
      have hstaged : Family base top s.totalWork (workClone :: s.live) ∧
          ∀ w ∈ workClone :: s.live, w.clone = true := by
        cases cloned with
        | true =>
            exact ⟨hfamily.tail, hfamily.clones hmaster.clone_eq⟩
        | false =>
            obtain ⟨htracked, hclone, hlive⟩ := hfirst rfl
            rw [hlive]
            refine ⟨⟨?_, List.nodup_singleton _, List.nodup_singleton _⟩, ?_⟩
            · simpa using htracked
            · simpa using hclone
      have hperm := perm_live_stage s workClone
      exact ⟨top, H.even, H.top_le, hstaged.1.perm hperm.symm, hmaster, hlt,
        fun w hw => hstaged.2 w (hperm.mem_iff.mp hw)⟩
    next =>
      cases cloned with
      | true =>
          refine ⟨top, H.even, H.top_le, hfamily.perm ?_, trivial⟩
          exact (List.Perm.swap _ _ _).trans ((perm_live_stage s work).symm.cons workClone)
      | false => exact ⟨top, H.even, H.top_le, hfamily, trivial⟩
  next work mrs hconv =>
    rw [hconv] at hfamily hready
    obtain ⟨hmaster, hlt, hclones⟩ := hready
    have hrolled := hfamily.rollAndClone env hclones hmaster (by omega)
    have heven := H.even
    refine ⟨top + 2, by omega, by omega, hrolled, ?_, fun h => by cases h⟩
    exact (hrolled.tracked _ List.mem_cons_self).master hmaster.clone_eq
  next work hconv =>
    rw [hconv] at hfamily
    exact ⟨top, H.even, H.top_le, hfamily.perm (perm_live_stage s work).symm, trivial⟩
  next hconv => exact ⟨top, H⟩

/-- Where the master is among the works that are staged, the thread has let go of it. -/
theorem Ready.of_clones {totalWork top' totalWork' : ℕ} {live live' : List StagedWork}
    {converter : Converter} (H : Ready base top totalWork live converter)
    (hheld : ∀ w ∈ held converter, w.clone = true) (hlive : ∃ w ∈ live, w.clone = false) :
    Ready base top' totalWork' live' converter := by
  obtain ⟨master, hmem, hclone⟩ := hlive
  have hcontra : ∀ w ∈ held converter, IsMaster base top w → False := fun w hw hmaster =>
    Bool.false_ne_true (hmaster.clone_eq.symm.trans (hheld w hw))
  cases converter with
  | called work mrs => exact (hcontra work (by simp [held]) H.1).elim
  | looping work workClone mrs cloned =>
      refine (hcontra work ?_ H.1).elim
      cases cloned <;> simp [held]
  | rolling work mrs => exact (Bool.false_ne_true (hclone.symm.trans (H.2.2 master hmem))).elim
  | returned work => trivial
  | done => trivial

/-- The master is rolled where it is staged. -/
theorem Inv.cloneAvailable (H : Inv base s top) (env : RollEnv) (anyRollable : Bool) :
    ∃ top', Inv base (s.cloneAvailable env anyRollable) top' := by
  rw [Descent.cloneAvailable]
  split
  next => exact ⟨top, H⟩
  next =>
    split
    next => exact ⟨top, H⟩
    next staged clone hroll =>
      obtain ⟨front, work, rest, hstaged, hcan, rfl, rfl⟩ := rollFirst_eq_some hroll
      set others := front ++ (rest ++ (s.inflight ++ s.handed)) with hothers
      have hlive : s.live.Perm (work :: others) := by
        rw [live, hstaged, List.append_assoc, List.append_assoc, List.cons_append]
        exact List.perm_middle
      have hworks : (held s.converter ++ s.live).Perm (work :: (held s.converter ++ others)) :=
        (hlive.append_left _).trans List.perm_middle
      have hfamily := H.family.perm hworks
      have hclone := clone_eq_of_canRoll hcan
      have hmaster := (hfamily.tracked work List.mem_cons_self).master hclone
      have hlt : top < 7000 := by
        rw [← hmaster.rolls_eq]
        exact rolls_lt_of_canRoll hcan hmaster.tr_eq
      have hclones := hfamily.clones hclone
      have hrolled := hfamily.tail.rollAndClone env hclones hmaster (by omega)
      have heven := H.even
      have hnew : (front ++ (rollAndClone env s.totalWork work).1 :: rest ++
          (rollAndClone env s.totalWork work).2 :: s.inflight ++ s.handed).Perm
          ((rollAndClone env s.totalWork work).1 :: (rollAndClone env s.totalWork work).2 ::
            others) := by
        rw [List.append_assoc, List.append_assoc, List.cons_append, List.cons_append]
        refine List.perm_middle.trans (List.Perm.cons _ ?_)
        rw [hothers, ← List.append_assoc, ← List.append_assoc]
        exact List.perm_middle
      refine ⟨top + 2, by omega, by omega, hrolled.perm ?_, ?_⟩
      · refine ((hnew.append_left _).trans ?_).symm
        exact List.perm_middle.trans (List.Perm.cons _ List.perm_middle)
      · refine H.ready.of_clones (fun w hw => hclones w (List.mem_append_left _ hw)) ?_
        exact ⟨work, hlive.mem_iff.mpr List.mem_cons_self, hclone⟩

theorem Inv.stageClone (H : Inv base s top) {clone : StagedWork}
    (hstage : s.stageClone clone = some s') : Inv base s' top := by
  rw [Descent.stageClone] at hstage
  split at hstage
  next hmem =>
    obtain rfl := Option.some.inj hstage
    refine H.move le_rfl rfl ?_
    rw [live, live]
    refine ((((List.perm_cons_erase hmem).append_left s.staged).trans List.perm_middle).append_right
      s.handed).trans ?_
    exact (((perm_addStaged s.staged clone).symm.append_right _).append_right _)
  next => cases hstage

theorem Inv.hashPop (H : Inv base s top) {env : RollEnv} {work : StagedWork}
    (hpop : s.hashPop env work = some s') : Inv base s' top := by
  rw [Descent.hashPop] at hpop
  split at hpop
  next hmem =>
    split at hpop
    next => exact Option.some.inj hpop ▸ H
    next =>
      obtain rfl := Option.some.inj hpop
      refine H.move le_rfl rfl ?_
      rw [live, live]
      refine (((List.perm_cons_erase hmem).append_right _).append_right _).trans ?_
      rw [List.cons_append, List.cons_append]
      exact List.perm_middle.symm
  next => cases hpop

/-- Every step keeps the works apart. -/
theorem Inv.step (H : Inv base s top) {e : Event} (hstep : s.step e = some s') :
    ∃ top', Inv base s' top' := by
  cases e with
  | cloneWork env => exact Option.some.inj hstep ▸ H.cloneWork env
  | cloneAvailable env anyRollable => exact Option.some.inj hstep ▸ H.cloneAvailable env anyRollable
  | stageClone clone => exact ⟨top, H.stageClone hstep⟩
  | hashPop env work => exact ⟨top, H.hashPop hstep⟩
  | makeWork => exact ⟨top, Option.some.inj hstep ▸ H.move (Nat.le_succ _) rfl .rfl⟩

theorem Inv.distinct (H : Inv base s top) : Distinct base s := by
  have hhanded : ∀ w ∈ s.handed, w ∈ held s.converter ++ s.live := fun w hw =>
    List.mem_append_right _ (List.mem_append_right _ hw)
  have hsub : s.handed.Sublist (held s.converter ++ s.live) :=
    (List.sublist_append_right _ _).trans (List.sublist_append_right _ _)
  have hstaged : s.staged.Sublist (held s.converter ++ s.live) :=
    ((List.sublist_append_left _ _).trans (List.sublist_append_left _ _)).trans
      (List.sublist_append_right _ _)
  have hoffsets : (s.handed.map (offset base)).Nodup := H.family.offsets.sublist (hsub.map _)
  constructor
  · have hmap : s.handed.map (offset base) =
        (s.handed.map StagedWork.ntime).map fun x => (x - base.work.ntime).toNat := by
      rw [List.map_map]
      rfl
    rw [hmap] at hoffsets
    exact hoffsets.of_map _
  · intro w hw
    have hle := (H.family.tracked w (hhanded w hw)).offset_le
    have htop := H.top_le
    omega
  · exact H.family.ids.sublist (hstaged.map _)

end

/-- **No two works that are handed out have the same time**, in whatever order the item is
cloned and its clones are staged and taken. -/
theorem distinct_of_exec (base : GetworkBase) (mrs : ℤ) {es : List Event} {s : Descent}
    (H : Run.exec step (init base mrs) es = some s) : Distinct base s := by
  have hstart : ∃ top, Inv base (init base mrs) top := ⟨0, inv_init base mrs⟩
  have hpres : ∀ s e s', (∃ top, Inv base s top) → step s e = some s' →
      ∃ top, Inv base s' top := by
    rintro s e s' ⟨top, hinv⟩ hstep
    exact hinv.step hstep
  obtain ⟨top, hinv⟩ := Run.exec_of_invariant hpres hstart H
  exact hinv.distinct

/-- An item that may be rolled for a minute. -/
def minuteBase : GetworkBase where
  work := receivedWork 60
  totalWork := 1
  rolls_eq := rfl
  clone_eq := rfl
  tr_eq := rfl
  id_lt := Nat.one_pos

/-- Works are rolled that have not been. -/
def rollOnce : RollEnv where
  staleWork _ := false
  shouldRoll work := work.rolls == 0
  workLeft _ := false
  nextData work := work.data

theorem hashPop_singleton {env : RollEnv} {work : StagedWork} (H : env.shouldRoll work = false)
    (inflight handed : List StagedWork) (totalWork : ℕ) (converter : Converter) :
    step ⟨[work], inflight, handed, totalWork, converter⟩ (.hashPop env work) =
      some ⟨[], inflight, work :: handed, totalWork, converter⟩ := by
  simp [step, Descent.hashPop, H]

/-- The item is staged and cloned there, and it and its clone are taken. -/
theorem distinct_minuteBase :
    ∃ s, Run.exec step (init minuteBase 0)
        [.cloneWork rollOnce, .cloneWork rollOnce, .cloneAvailable rollOnce true,
          .hashPop rollOnce (rollAndClone rollOnce 1 (receivedWork 60)).1,
          .stageClone (rollAndClone rollOnce 1 (receivedWork 60)).2,
          .hashPop rollOnce (rollAndClone rollOnce 1 (receivedWork 60)).2] = some s ∧
      s.handed.length = 2 ∧ Distinct minuteBase s := by
  have hroll : rollFirst rollOnce 1 [receivedWork 60] =
      some ([(rollAndClone rollOnce 1 (receivedWork 60)).1],
        (rollAndClone rollOnce 1 (receivedWork 60)).2) := by
    have hcan : canRoll rollOnce (receivedWork 60) = true := by decide
    rw [rollFirst, hcan]
    rfl
  have hmaster : rollOnce.shouldRoll (rollAndClone rollOnce 1 (receivedWork 60)).1 = false := rfl
  have hclone : rollOnce.shouldRoll (rollAndClone rollOnce 1 (receivedWork 60)).2 = false := rfl
  generalize rollAndClone rollOnce 1 (receivedWork 60) = r at *
  have hstaged : Run.exec step (init minuteBase 0) [.cloneWork rollOnce, .cloneWork rollOnce] =
      some ⟨[receivedWork 60], [], [], 1, .done⟩ := by
    rw [← addStaged_nil (receivedWork 60)]
    rfl
  have hcloned : step ⟨[receivedWork 60], [], [], 1, .done⟩ (.cloneAvailable rollOnce true) =
      some ⟨[r.1], [r.2], [], 4, .done⟩ := by
    simp only [step, Descent.cloneAvailable, hroll]
    rfl
  have hstage : step ⟨[], [r.2], [r.1], 4, .done⟩ (.stageClone r.2) =
      some ⟨[r.2], [], [r.1], 4, .done⟩ := by
    simp [step, Descent.stageClone, addStaged_nil]
  have hrun : Run.exec step (init minuteBase 0)
      ([.cloneWork rollOnce, .cloneWork rollOnce] ++ [.cloneAvailable rollOnce true,
        .hashPop rollOnce r.1, .stageClone r.2, .hashPop rollOnce r.2]) =
      some ⟨[], [], [r.2, r.1], 4, .done⟩ := by
    rw [Run.exec_append, hstaged, Option.bind_some, Run.exec_cons, hcloned, Option.bind_some,
      Run.exec_cons, hashPop_singleton hmaster, Option.bind_some, Run.exec_cons, hstage,
      Option.bind_some, Run.exec_cons, hashPop_singleton hclone]
    rfl
  exact ⟨_, hrun, rfl, distinct_of_exec minuteBase 0 hrun⟩

end Descent

end MassGridMiner

import MassGridMiner.Lib.Run
import MassGridMiner.Lib.Word
import Mathlib.Data.List.Nodup
import Mathlib.Data.List.Perm.Basic

/-!
# The queue of a processor

A driver that queues work gets it through a slot and a hash table of its processor.  Each work that
was obtained is in the slot, in the table, in the hands of the driver that took it, in those of a
call that is under way, or freed.  Works that are aged leave the table and are not freed.

## Main definitions

* `WorkQueue` — the slot and the table, and what became of the other works.
* `WorkQueue.step` — the calls, in the parts that run under the lock or on their own.
* `WorkQueue.Accounted` — each work that was obtained is in one place.
* `WorkQueue.accounted_iff_nothingAged` — it holds of every run that ages no work.
-/

namespace MassGridMiner

/-- What the works hold, by which they are found. -/
structure WorkFields where
  midstate : ℕ → Bytes 32
  data : ℕ → Bytes 128

/-- The slot and the table of a processor, with the works that calls under way hold, those that the
driver took, those that were freed and all that were obtained. -/
structure WorkQueue where
  unqueuedWork : Option ℕ
  queuedWork : List ℕ
  queuedCount : ℤ
  filling : List ℕ
  adding : List ℕ
  freeing : List ℕ
  handed : List ℕ
  freed : List ℕ
  obtained : List ℕ

namespace WorkQueue

/-! ## The calls -/

/-- What a work is looked for by. -/
structure Query where
  midstate : List UInt8
  midstatelen : ℕ
  data : List UInt8
  offset : ℕ
  datalen : ℕ

/-- `__find_work_bymidstate`. -/
def findWorkByMidstate (fields : WorkFields) (que : List ℕ) (q : Query) : Option ℕ :=
  que.find? fun work =>
    (fields.midstate work).toList.take q.midstatelen = q.midstate.take q.midstatelen ∧
      ((fields.data work).toList.drop q.offset).take q.datalen = q.data.take q.datalen

/-- `__add_queued`. -/
def addQueued (s : WorkQueue) (work : ℕ) : WorkQueue :=
  { s with queuedCount := s.queuedCount + 1, queuedWork := s.queuedWork ++ [work] }

/-- `__work_completed`. -/
def completed (s : WorkQueue) (work : ℕ) : WorkQueue :=
  { s with queuedCount := s.queuedCount - 1, queuedWork := s.queuedWork.erase work }

/-- `get_work`: a work that was not there before. -/
def getWork (s : WorkQueue) (work : ℕ) : Option WorkQueue :=
  if work ∈ s.obtained then none else some { s with obtained := work :: s.obtained }

/-- The part of `fill_queue` in front of the lock. -/
def fillGet (s : WorkQueue) (work : ℕ) : Option WorkQueue :=
  if s.unqueuedWork.isSome then some s
  else (s.getWork work).map fun s => { s with filling := work :: s.filling }

/-- The rest of `fill_queue`; a work for which there is no room is left to be freed. -/
def fillPut (s : WorkQueue) (work : ℕ) : Option WorkQueue :=
  if work ∈ s.filling then
    let s := { s with filling := s.filling.erase work }
    if s.unqueuedWork.isNone then some { s with unqueuedWork := some work }
    else some { s with freeing := work :: s.freeing }
  else none

/-- `get_queued`, where the work in the slot is stale or not. -/
def getQueued (s : WorkQueue) (stale : Bool) : WorkQueue :=
  match s.unqueuedWork with
  | none => s
  | some work =>
    let s := if stale then { s with freed := work :: s.freed } else s.addQueued work
    { s with unqueuedWork := none }

/-- The loop of `age_queued_work`, where some works are too old. -/
def ageLoop (old : ℕ → Bool) : List ℕ → WorkQueue → WorkQueue
  | [], s => s
  | work :: works, s => ageLoop old works (if old work then s.completed work else s)

/-- `age_queued_work`. -/
def ageQueuedWork (s : WorkQueue) (old : ℕ → Bool) : WorkQueue := ageLoop old s.queuedWork s

/-- `take_queued_work_bymidstate`; the work is the driver's from then on. -/
def takeQueuedWorkByMidstate (fields : WorkFields) (s : WorkQueue) (q : Query) : WorkQueue :=
  match findWorkByMidstate fields s.queuedWork q with
  | none => s
  | some work => { s.completed work with handed := work :: s.handed }

/-- `flush_queue` up to its end, where the work is freed. -/
def flushQueue (s : WorkQueue) : WorkQueue :=
  { s with unqueuedWork := none, freeing := s.unqueuedWork.toList ++ s.freeing }

/-- The calls in their parts: what a part gets from `get_work` or finds out about works, and the
work that it is for.  A driver completes works that are queued, and adds and frees those that it
took. -/
inductive Act
  | fillGet (work : ℕ)
  | fillPut (work : ℕ)
  | getQueued (stale : Bool)
  | addQueued (work : ℕ)
  | getQueueWorkGet (work : ℕ)
  | getQueueWorkAdd (work : ℕ)
  | cloneQueuedWorkByMidstate (q : Query)
  | takeQueuedWorkByMidstate (q : Query)
  | workCompleted (work : ℕ)
  | ageQueuedWork (old : ℕ → Bool)
  | flushQueue
  | freeWork (work : ℕ)
  | driverFree (work : ℕ)

/-- One part of a call. -/
def step (fields : WorkFields) (s : WorkQueue) : Act → Option WorkQueue
  | .fillGet work => s.fillGet work
  | .fillPut work => s.fillPut work
  | .getQueued stale => some (s.getQueued stale)
  | .addQueued work =>
    if work ∈ s.handed then some { s.addQueued work with handed := s.handed.erase work } else none
  | .getQueueWorkGet work => (s.getWork work).map fun s => { s with adding := work :: s.adding }
  | .getQueueWorkAdd work =>
    if work ∈ s.adding then some { s.addQueued work with adding := s.adding.erase work } else none
  | .cloneQueuedWorkByMidstate _ => some s
  | .takeQueuedWorkByMidstate q => some (s.takeQueuedWorkByMidstate fields q)
  | .workCompleted work =>
    if work ∈ s.queuedWork then some { s.completed work with freeing := work :: s.freeing }
    else none
  | .ageQueuedWork old => some (s.ageQueuedWork old)
  | .flushQueue => some s.flushQueue
  | .freeWork work =>
    if work ∈ s.freeing then
      some { s with freeing := s.freeing.erase work, freed := work :: s.freed }
    else none
  | .driverFree work =>
    if work ∈ s.handed then
      some { s with handed := s.handed.erase work, freed := work :: s.freed }
    else none

/-- Before any call. -/
def init : WorkQueue := ⟨none, [], 0, [], [], [], [], [], []⟩

/-! ## Each work is in one place -/

/-- All the places, one after the other. -/
def places (s : WorkQueue) : List ℕ :=
  s.unqueuedWork.toList ++ (s.queuedWork ++ (s.filling ++ (s.adding ++ (s.freeing ++
    (s.handed ++ s.freed)))))

/-- The places hold each work that was obtained, and hold it once; and the count is that of the
table. -/
structure Accounted (s : WorkQueue) : Prop where
  perm : s.places.Perm s.obtained
  nodup : s.obtained.Nodup
  count : s.queuedCount = s.queuedWork.length

/-- No work in the table is too old where works are aged. -/
def NothingAged (s : WorkQueue) : Act → Prop
  | .ageQueuedWork old => ∀ work ∈ s.queuedWork, old work = false
  | _ => True

/-! ## What a call keeps -/

theorem count_cons_eq (work a : ℕ) (l : List ℕ) :
    (work :: l).count a = [work].count a + l.count a := by
  rw [← List.count_append, List.singleton_append]

/-- A work that is taken out of a list was in it once more than it is left. -/
theorem count_eq_erase {work : ℕ} {l : List ℕ} (h : work ∈ l) (a : ℕ) :
    l.count a = [work].count a + (l.erase work).count a := by
  rw [(List.perm_cons_erase h).count_eq, count_cons_eq work a (l.erase work)]

theorem length_eq_erase {work : ℕ} {l : List ℕ} (h : work ∈ l) :
    (l.length : ℤ) = (l.erase work).length + 1 := by
  rw [(List.perm_cons_erase h).length_eq, List.length_cons]
  rfl

theorem count_places (s : WorkQueue) (a : ℕ) : s.places.count a =
    s.unqueuedWork.toList.count a + s.queuedWork.count a + s.filling.count a + s.adding.count a +
      s.freeing.count a + s.handed.count a + s.freed.count a := by
  simp only [places, List.count_append]
  omega

section
variable {fields : WorkFields} {s s' : WorkQueue}

/-- What moves works from place to place keeps the accounts. -/
theorem Accounted.of_move (H : s.Accounted) (hobtained : s'.obtained = s.obtained)
    (hplaces : ∀ a, s'.places.count a = s.places.count a)
    (hcount : s'.queuedCount - s'.queuedWork.length = s.queuedCount - s.queuedWork.length) :
    s'.Accounted := by
  refine ⟨?_, hobtained ▸ H.nodup, ?_⟩
  · rw [hobtained]
    exact (List.perm_iff_count.mpr hplaces).trans H.perm
  · have h := H.count
    omega

/-- A work that is obtained comes to a place. -/
theorem Accounted.of_get (H : s.Accounted) {work : ℕ} (hnew : work ∉ s.obtained)
    (hobtained : s'.obtained = work :: s.obtained)
    (hplaces : ∀ a, s'.places.count a = [work].count a + s.places.count a)
    (hcount : s'.queuedCount - s'.queuedWork.length = s.queuedCount - s.queuedWork.length) :
    s'.Accounted := by
  refine ⟨?_, ?_, ?_⟩
  · rw [hobtained]
    refine List.Perm.trans (List.perm_iff_count.mpr fun a => ?_) (H.perm.cons work)
    rw [hplaces, count_cons_eq work a s.places]
  · rw [hobtained]
    exact List.nodup_cons.mpr ⟨hnew, H.nodup⟩
  · have h := H.count
    omega

theorem Accounted.fillGet (H : s.Accounted) {work : ℕ} (h : s.fillGet work = some s') :
    s'.Accounted := by
  rw [WorkQueue.fillGet] at h
  split at h
  · exact Option.some.inj h ▸ H
  · rw [getWork] at h
    split at h
    · cases h
    · next hnew =>
      obtain rfl := Option.some.inj h
      refine H.of_get hnew rfl (fun a => ?_) rfl
      simp only [count_places, count_cons_eq work a s.filling]
      omega

theorem Accounted.fillPut (H : s.Accounted) {work : ℕ} (h : s.fillPut work = some s') :
    s'.Accounted := by
  rw [WorkQueue.fillPut] at h
  split at h
  · next hwork =>
    have herase := count_eq_erase hwork
    dsimp only at h
    cases hslot : s.unqueuedWork with
    | none =>
      simp only [hslot, Option.isNone_none, if_true, Option.some.injEq] at h
      subst h
      refine H.of_move rfl (fun a => ?_) rfl
      simp only [count_places, herase a, hslot, Option.toList_some, Option.toList_none,
        List.count_nil]
      omega
    | some other =>
      simp only [hslot, Option.isNone_some, Bool.false_eq_true, if_false,
        Option.some.injEq] at h
      subst h
      refine H.of_move rfl (fun a => ?_) rfl
      simp only [count_places, herase a, count_cons_eq work a s.freeing, hslot]
      omega
  · cases h

theorem Accounted.getQueued (H : s.Accounted) (stale : Bool) : (s.getQueued stale).Accounted := by
  rw [WorkQueue.getQueued]
  split
  · exact H
  · next work hslot =>
    cases stale with
    | true =>
      refine H.of_move rfl (fun a => ?_) rfl
      simp only [count_places, hslot, if_true, count_cons_eq work a s.freed, Option.toList_none,
        Option.toList_some, List.count_nil]
      omega
    | false =>
      refine H.of_move rfl (fun a => ?_) ?_
      · simp only [count_places, hslot, Bool.false_eq_true, if_false, addQueued,
          List.count_append, Option.toList_none, Option.toList_some, List.count_nil]
        omega
      · simp [addQueued]

/-- A work in the hands of the driver, or of a call, is added to the table. -/
theorem Accounted.addQueued (H : s.Accounted) {work : ℕ}
    (h : s'.obtained = s.obtained ∧ s'.queuedCount = (s.addQueued work).queuedCount ∧
      s'.queuedWork = (s.addQueued work).queuedWork)
    (hplaces : ∀ a, s'.places.count a = s.places.count a) : s'.Accounted := by
  obtain ⟨hobtained, hcount, hqueued⟩ := h
  refine H.of_move hobtained hplaces ?_
  rw [hcount, hqueued]
  simp [WorkQueue.addQueued]

/-- A work of the table is completed, and held by the call or the driver. -/
theorem Accounted.completed (H : s.Accounted) {work : ℕ} (hwork : work ∈ s.queuedWork)
    (h : s'.obtained = s.obtained ∧ s'.queuedCount = (s.completed work).queuedCount ∧
      s'.queuedWork = (s.completed work).queuedWork)
    (hplaces : ∀ a, s'.places.count a = s.places.count a) : s'.Accounted := by
  obtain ⟨hobtained, hcount, hqueued⟩ := h
  refine H.of_move hobtained hplaces ?_
  have hlen := length_eq_erase hwork
  rw [hcount, hqueued, WorkQueue.completed]
  dsimp only
  omega

theorem Accounted.takeQueuedWorkByMidstate (H : s.Accounted) (q : Query) :
    (s.takeQueuedWorkByMidstate fields q).Accounted := by
  rw [WorkQueue.takeQueuedWorkByMidstate]
  split
  · exact H
  · next work hfind =>
    have hwork : work ∈ s.queuedWork := List.mem_of_find?_eq_some hfind
    refine H.completed hwork ⟨rfl, rfl, rfl⟩ fun a => ?_
    simp only [count_places, WorkQueue.completed, count_cons_eq work a s.handed,
      count_eq_erase hwork a]
    omega

theorem Accounted.flushQueue (H : s.Accounted) : s.flushQueue.Accounted := by
  refine H.of_move rfl (fun a => ?_) rfl
  simp only [count_places, WorkQueue.flushQueue, Option.toList_none, List.count_nil,
    List.count_append]
  omega

/-! ## Works that are aged -/

/-- Without works that are too old the loop does nothing. -/
theorem ageLoop_eq_self {old : ℕ → Bool} {works : List ℕ} (h : ∀ work ∈ works, old work = false) :
    ageLoop old works s = s := by
  induction works with
  | nil => rfl
  | cons work works ih =>
      obtain ⟨hwork, hworks⟩ := List.forall_mem_cons.mp h
      rw [ageLoop, hwork, if_neg (by decide), ih hworks]

/-- The works that are too old leave the table, and come to no other place. -/
theorem length_ageLoop {old : ℕ → Bool} {works : List ℕ} (hnodup : works.Nodup)
    (h : ∀ work ∈ works, work ∈ s.queuedWork) :
    (ageLoop old works s).obtained = s.obtained ∧
      (ageLoop old works s).places.length + works.countP old = s.places.length := by
  induction works generalizing s with
  | nil => exact ⟨rfl, rfl⟩
  | cons work works ih =>
      obtain ⟨hnot, hnodup⟩ := List.nodup_cons.mp hnodup
      obtain ⟨hwork, hworks⟩ := List.forall_mem_cons.mp h
      rw [ageLoop, List.countP_cons]
      by_cases hold : old work = true
      · rw [if_pos hold]
        have hleft : ∀ w ∈ works, w ∈ (s.completed work).queuedWork := fun w hw =>
          (List.mem_erase_of_ne (ne_of_mem_of_not_mem hw hnot)).mpr (hworks w hw)
        obtain ⟨hobtained, hlen⟩ := ih hnodup hleft
        have herase := length_eq_erase hwork
        have hplaces : (s.completed work).places.length + 1 = s.places.length := by
          simp only [places, completed, List.length_append]
          omega
        exact ⟨hobtained, by rw [if_pos hold]; omega⟩
      · rw [if_neg hold, if_neg hold]
        exact ih hnodup hworks

/-- Works that are aged are in no place any more. -/
theorem Accounted.age_iff (H : s.Accounted) (old : ℕ → Bool) :
    (s.ageQueuedWork old).Accounted ↔ ∀ work ∈ s.queuedWork, old work = false := by
  constructor
  · intro H'
    have hplaces : s.places.Nodup := H.perm.nodup_iff.mpr H.nodup
    have hnodup : s.queuedWork.Nodup := hplaces.of_append_right.of_append_left
    obtain ⟨hobtained, hlen⟩ := @length_ageLoop s old _ hnodup fun _ hwork => hwork
    have hbefore := H.perm.length_eq
    have hafter := H'.perm.length_eq
    rw [ageQueuedWork] at hafter
    rw [hobtained] at hafter
    have hnone : s.queuedWork.countP old = 0 := by omega
    exact fun work hwork => by simpa using List.countP_eq_zero.mp hnone work hwork
  · intro h
    rw [ageQueuedWork, ageLoop_eq_self h]
    exact H

/-! ## Runs -/

/-- A part of a call keeps the accounts exactly if it ages no work. -/
theorem Accounted.step_iff (H : s.Accounted) {act : Act} (hstep : s.step fields act = some s') :
    s'.Accounted ↔ s.NothingAged act := by
  cases act with
  | ageQueuedWork old =>
    obtain rfl := Option.some.inj hstep
    exact H.age_iff old
  | fillGet work => exact iff_of_true (H.fillGet hstep) trivial
  | fillPut work => exact iff_of_true (H.fillPut hstep) trivial
  | getQueued stale =>
    obtain rfl := Option.some.inj hstep
    exact iff_of_true (H.getQueued stale) trivial
  | cloneQueuedWorkByMidstate q =>
    obtain rfl := Option.some.inj hstep
    exact iff_of_true H trivial
  | takeQueuedWorkByMidstate q =>
    obtain rfl := Option.some.inj hstep
    exact iff_of_true (H.takeQueuedWorkByMidstate q) trivial
  | flushQueue =>
    obtain rfl := Option.some.inj hstep
    exact iff_of_true H.flushQueue trivial
  | addQueued work =>
    rw [step] at hstep
    split at hstep
    · next hwork =>
      obtain rfl := Option.some.inj hstep
      refine iff_of_true (H.addQueued ⟨rfl, rfl, rfl⟩ fun a => ?_) trivial
      simp only [count_places, WorkQueue.addQueued, List.count_append, count_eq_erase hwork a]
      omega
    · cases hstep
  | getQueueWorkGet work =>
    rw [step, getWork] at hstep
    split at hstep
    · cases hstep
    · next hnew =>
      obtain rfl := Option.some.inj hstep
      refine iff_of_true (H.of_get hnew rfl (fun a => ?_) rfl) trivial
      simp only [count_places, count_cons_eq work a s.adding]
      omega
  | getQueueWorkAdd work =>
    rw [step] at hstep
    split at hstep
    · next hwork =>
      obtain rfl := Option.some.inj hstep
      refine iff_of_true (H.addQueued ⟨rfl, rfl, rfl⟩ fun a => ?_) trivial
      simp only [count_places, WorkQueue.addQueued, List.count_append, count_eq_erase hwork a]
      omega
    · cases hstep
  | workCompleted work =>
    rw [step] at hstep
    split at hstep
    · next hwork =>
      obtain rfl := Option.some.inj hstep
      refine iff_of_true (H.completed hwork ⟨rfl, rfl, rfl⟩ fun a => ?_) trivial
      simp only [count_places, WorkQueue.completed, count_cons_eq work a s.freeing,
        count_eq_erase hwork a]
      omega
    · cases hstep
  | freeWork work =>
    rw [step] at hstep
    split at hstep
    · next hwork =>
      obtain rfl := Option.some.inj hstep
      refine iff_of_true (H.of_move rfl (fun a => ?_) rfl) trivial
      simp only [count_places, count_cons_eq work a s.freed, count_eq_erase hwork a]
      omega
    · cases hstep
  | driverFree work =>
    rw [step] at hstep
    split at hstep
    · next hwork =>
      obtain rfl := Option.some.inj hstep
      refine iff_of_true (H.of_move rfl (fun a => ?_) rfl) trivial
      simp only [count_places, count_cons_eq work a s.freed, count_eq_erase hwork a]
      omega
    · cases hstep

end

/-- Between calls a work that was obtained is in the slot, in the table, with the driver or freed,
once in all of these. -/
theorem Accounted.count_eq_one {s : WorkQueue} (H : s.Accounted)
    (hcalls : s.filling = [] ∧ s.adding = [] ∧ s.freeing = []) {work : ℕ}
    (hwork : work ∈ s.obtained) :
    s.unqueuedWork.toList.count work + s.queuedWork.count work + s.handed.count work +
      s.freed.count work = 1 := by
  obtain ⟨hfilling, hadding, hfreeing⟩ := hcalls
  have hone : s.places.count work = 1 := by
    rw [H.perm.count_eq]
    exact List.count_eq_one_of_mem H.nodup hwork
  simp only [count_places, hfilling, hadding, hfreeing, List.count_nil] at hone
  omega

theorem accounted_init : init.Accounted := ⟨List.Perm.refl _, List.nodup_nil, rfl⟩

/-- Each work that was obtained is in one place throughout a run, and the count is that of the
table, exactly if no work is aged. -/
theorem accounted_iff_nothingAged (fields : WorkFields) (acts : List Act) :
    Run.AllSteps (step fields) (fun _ _ s => s.Accounted) init acts ↔
      Run.AllSteps (step fields) (fun s act _ => s.NothingAged act) init acts := by
  refine Run.allSteps_congr (I := Accounted) ?_ ?_ acts accounted_init
  · intro s act s' H hstep
    exact H.step_iff hstep
  · exact fun _ _ _ _ _ H => H

/-- Works without contents. -/
def blankFields : WorkFields := ⟨fun _ => Vector.replicate 32 0, fun _ => Vector.replicate 128 0⟩

/-- A work that is obtained and queued is in no place after it was aged. -/
theorem not_accounted_aged :
    ¬Run.AllSteps (step blankFields) (fun _ _ s => s.Accounted) init
      [.fillGet 1, .fillPut 1, .getQueued false, .ageQueuedWork fun _ => true] := by
  intro h
  have hlast := ((((h _ rfl).2 _ rfl).2 _ rfl).2 _ rfl).1
  exact absurd hlast.perm.length_eq (by decide)

end WorkQueue

end MassGridMiner

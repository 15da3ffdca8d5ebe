import MassGridMiner.Lib.Custody
import MassGridMiner.Lib.Keyed
import MassGridMiner.Lib.Run
import MassGridMiner.Lib.SlotRing
import Mathlib.Logic.Function.Basic

/-!
# The works of a Titan

Works wait in a queue until a die takes them, and are then found under the die and the slot they
were given until another work is given that slot.  A die uses its fifteen slots in turn, and is
flushed with the work that would take the last one that is free.  So from one flush to the next its
works have different slots, and what it reports for a slot is for the work that was given it.

## Main definitions

* `Titan.queueAppend`, `Titan.queueFlush`, `Titan.poll` — the calls.
* `Titan.Law` — what is expected of them.
* `Titan.Good` — the invariant.
* `Titan.allSteps_law` — the law holds of every run.
-/

namespace MassGridMiner

/-- An ASIC and a die of it. -/
abbrev TitanDieNo := Fin 6 × Fin 4

/-- `struct nonce_report`. -/
structure TitanNonce where
  nonce : UInt32
  slot : UInt8
  deriving DecidableEq

/-- `struct knc_titan_die`, as far as works are concerned; `sent` are the slots and the works of it
since the last set-work that flushed it. -/
structure TitanDie where
  cores : ℤ
  needFlush : Bool
  nextSlot : ℕ
  firstSlot : ℕ
  sent : List (ℕ × ℕ)

/-- A nonce that was submitted, with the die and the slot that it was reported for. -/
structure TitanShare where
  die : TitanDieNo
  slot : ℕ
  work : ℕ
  nonce : UInt32

/-- `struct knc_titan_info`.  Works are the numbers they were obtained with; `devicework` has them
under their ids, in the order they were added. -/
structure Titan where
  dies : TitanDieNo → TitanDie
  lastNonce : TitanDieNo → ℕ → TitanNonce
  workqueue : List ℕ
  workqueueSize : ℤ
  workqueueMax : ℤ
  queueFull : Bool
  devicework : List (UInt32 × ℕ)
  obtained : ℕ
  freed : List ℕ
  submitted : List TitanShare

/-- `MAKE_WORKID`. -/
def makeWorkid (die : TitanDieNo) (slot : ℕ) : UInt32 :=
  (UInt32.ofNat die.1 <<< 16) ||| (UInt32.ofNat die.2 <<< 8) ||| UInt32.ofNat slot

/-- What happens after works were sent: a core reports nonces, or a die that has not for long is
configured again. -/
inductive TitanNews
  | report (die : TitanDieNo) (core : ℕ) (nonce : Vector TitanNonce 5)
  | configure (die : TitanDieNo) (clean : ℕ → Option TitanNonce)

/-- What a poll finds: which works are stale, the dies that are to be configured with what the
flushes of their cores report, whether a die accepts one work after the other, and the news. -/
structure TitanPoll where
  stale : ℕ → Bool
  requests : List (TitanDieNo × (ℕ → Option TitanNonce))
  accepts : TitanDieNo → List Bool
  news : List TitanNews

/-- The calls.  A flush is for the device that holds the queue, or for another. -/
inductive TitanCall
  | queueAppend (stale : ℕ → Bool)
  | queueFlush (holder : Bool) (stale : ℕ → Bool)
  | poll (x : TitanPoll)

namespace TitanDie

/-- `need_replace`. -/
def needReplace (die : TitanDie) : Bool :=
  if 1 < die.firstSlot then die.nextSlot + 1 == die.firstSlot else die.nextSlot == 15

/-- The set-work flushes the die. -/
def flushes (die : TitanDie) : Bool := die.needFlush || die.needReplace

/-- The die after it accepted a work. -/
def accept (die : TitanDie) (work : ℕ) : TitanDie :=
  let slot := die.nextSlot
  let nextSlot := SlotRing.next 1 15 slot
  if die.flushes then
    { die with needFlush := false, firstSlot := slot, nextSlot, sent := [(slot, work)] }
  else { die with nextSlot, sent := die.sent ++ [(slot, work)] }

end TitanDie

namespace Titan

/-! ## The calls -/

/-- `knc_titan_set_queue_full`. -/
def setQueueFull (s : Titan) : Titan :=
  { s with queueFull := decide (s.workqueueMax ≤ s.workqueueSize) }

/-- `knc_titan_remove_local_queue`. -/
def removeLocalQueue (s : Titan) (work : ℕ) : Titan :=
  { s with
    workqueue := s.workqueue.erase work
    freed := work :: s.freed
    workqueueSize := s.workqueueSize - 1 }

/-- The loops that remove works from the queue. -/
def removeWhere (p : ℕ → Bool) (s : Titan) : Titan :=
  s.workqueue.foldl (fun s work => if p work then s.removeLocalQueue work else s) s

/-- `knc_titan_prune_local_queue`. -/
def pruneLocalQueue (stale : ℕ → Bool) (s : Titan) : Titan := (s.removeWhere stale).setQueueFull

/-- The end of `knc_titan_queue_append`, where there is room for the work. -/
def appendWork (stale : ℕ → Bool) (s : Titan) : Titan :=
  let s := { s with
    workqueue := s.workqueue ++ [s.obtained]
    workqueueSize := s.workqueueSize + 1
    obtained := s.obtained + 1 }
  let s := s.setQueueFull
  if s.queueFull then s.pruneLocalQueue stale else s

/-- `knc_titan_queue_append`. -/
def queueAppend (stale : ℕ → Bool) (s : Titan) : Titan :=
  if s.workqueueMax ≤ s.workqueueSize then
    let s := s.pruneLocalQueue stale
    if s.queueFull then s else s.appendWork stale
  else s.appendWork stale

/-- `knc_titan_queue_flush`. -/
def queueFlush (holder : Bool) (stale : ℕ → Bool) (s : Titan) : Titan :=
  if holder then
    let s := (s.removeWhere fun _ => true).setQueueFull
    match s.devicework.getLast? with
    | none => s
    | some (_, work) =>
      if stale work then { s with dies := fun die => { s.dies die with needFlush := true } } else s
  else s

/-- `configure_one_die`. -/
def configureOneDie (s : Titan) (die : TitanDieNo) (clean : ℕ → Option TitanNonce) : Titan :=
  if (s.dies die).cores ≤ 0 then s
  else { s with
    dies := Function.update s.dies die { s.dies die with needFlush := true }
    lastNonce := Function.update s.lastNonce die
      fun core => (clean core).getD (s.lastNonce die core) }

/-- A work that the die accepted is put into `devicework`, in place of one with its id. -/
def accept (s : Titan) (die : TitanDieNo) (work : ℕ) : Titan :=
  let deviceId := makeWorkid die (s.dies die).nextSlot
  { s with
    workqueueSize := s.workqueueSize - 1
    workqueue := s.workqueue.erase work
    freed := (s.devicework.filter (·.1 = deviceId)).map (·.2) ++ s.freed
    devicework := s.devicework.filter (·.1 ≠ deviceId) ++ [(deviceId, work)]
    dies := Function.update s.dies die ((s.dies die).accept work) }

/-- The loop over the queue for one die, which ends at a work that is not accepted or that flushed
the die; with the number of works that were accepted. -/
def sendWorks (die : TitanDieNo) : List ℕ → List Bool → ℕ × Titan → ℕ × Titan
  | work :: works, true :: accepts, (workaccept, s) =>
    if (s.dies die).flushes then (workaccept + 1, s.accept die work)
    else sendWorks die works accepts (workaccept + 1, s.accept die work)
  | _, _, sent => sent

/-- The dies, in the order of the loops. -/
def allDies : List TitanDieNo :=
  (List.finRange 6).flatMap fun asic => (List.finRange 4).map fun die => (asic, die)

/-- New works are sent to the dies. -/
def sendNewWorks (accepts : TitanDieNo → List Bool) (s : Titan) : ℕ × Titan :=
  allDies.foldl (fun sent die => if (sent.2.dies die).cores ≤ 0 then sent
    else sendWorks die sent.2.workqueue (accepts die) sent) (0, s)

/-- `knc_titan_process_report`. -/
def processReport (s : Titan) (die : TitanDieNo) (core : ℕ) (nonce : Vector TitanNonce 5) : Titan :=
  let fresh := nonce.toList.takeWhile (· ≠ s.lastNonce die core)
  let found := fresh.filterMap fun n =>
    (s.devicework.find? (·.1 = makeWorkid die n.slot.toNat)).map fun entry =>
      { die, slot := n.slot.toNat, work := entry.2, nonce := n.nonce : TitanShare }
  { s with
    submitted := s.submitted ++ found
    lastNonce := Function.update s.lastNonce die
      (Function.update (s.lastNonce die) core nonce[0]) }

def handleNews (s : Titan) : TitanNews → Titan
  | .report die core nonce => s.processReport die core nonce
  | .configure die clean => s.configureOneDie die clean

/-- `knc_titan_poll`. -/
def poll (x : TitanPoll) (s : Titan) : Titan :=
  let s := { s with submitted := [] }
  let s := s.pruneLocalQueue x.stale
  let s := x.requests.foldl (fun s request => s.configureOneDie request.1 request.2) s
  let (workaccept, s) := s.sendNewWorks x.accepts
  let s := x.news.foldl handleNews s
  if workaccept = 0 then s
  else setQueueFull { s with workqueueMax := max s.workqueueMax workaccept }

/-- A call. -/
def step (s : Titan) : TitanCall → Option Titan
  | .queueAppend stale => some (s.queueAppend stale)
  | .queueFlush holder stale => some (s.queueFlush holder stale)
  | .poll x => some (s.poll x)

/-- After `knc_titan_init`, with the dies that were found. -/
def init (cores : TitanDieNo → ℤ) (lastNonce : TitanDieNo → ℕ → TitanNonce) : Titan where
  dies die := ⟨cores die, decide (0 < cores die), 1, 1, []⟩
  lastNonce
  workqueue := []
  workqueueSize := 0
  workqueueMax := 20
  queueFull := false
  devicework := []
  obtained := 0
  freed := []
  submitted := []

/-! ## The law -/

/-- What is expected after a call.  The size is that of the queue, a work is in the queue or with
the dies until it is freed, once, and ids are distinct; the works that a die has since it was
flushed have different slots and are found under them, and a nonce that is reported for one of these
slots is submitted for the work that has it. -/
structure Law (_ : Titan) (_ : TitanCall) (s : Titan) : Prop where
  size : s.workqueueSize = s.workqueue.length
  custody : Custody s.obtained (s.workqueue ++ s.devicework.map (·.2)) s.freed
  ids : (s.devicework.map (·.1)).Nodup
  slots : ∀ die, ((s.dies die).sent.map (·.1)).Nodup
  holds : ∀ die, ∀ p ∈ (s.dies die).sent, (makeWorkid die p.1, p.2) ∈ s.devicework
  reported : ∀ share ∈ s.submitted, ∀ p ∈ (s.dies share.die).sent, p.1 = share.slot →
    p.2 = share.work

end Titan

/-! ## The slots of a die -/

namespace TitanDie

/-- The slots of a die since it was flushed are those of the ring from the first on, and the next
one is not among them. -/
structure Turn (die : TitanDie) : Prop where
  first : 1 ≤ die.firstSlot ∧ die.firstSlot ≤ 15
  few : die.sent.length ≤ 14
  slots : die.sent.map (·.1) = SlotRing.used 1 15 die.firstSlot die.sent.length
  next : die.nextSlot = SlotRing.nth 1 15 die.firstSlot die.sent.length

variable {die : TitanDie}

theorem Turn.of_eq {die' : TitanDie} (H : die.Turn) (hsent : die'.sent = die.sent)
    (hfirst : die'.firstSlot = die.firstSlot) (hnext : die'.nextSlot = die.nextSlot) :
    die'.Turn := by
  constructor
  case first => rw [hfirst]; exact H.first
  case few => rw [hsent]; exact H.few
  case slots => rw [hsent, hfirst]; exact H.slots
  case next => rw [hsent, hfirst, hnext]; exact H.next

theorem Turn.nodup (H : die.Turn) : (die.sent.map (·.1)).Nodup := by
  rw [H.slots]
  exact SlotRing.nodup_used (H.few.trans (by decide))

/-- The slot that is next has not been used since the flush. -/
theorem Turn.notMem (H : die.Turn) : die.nextSlot ∉ die.sent.map (·.1) := by
  have hnodup : (SlotRing.used 1 15 die.firstSlot (die.sent.length + 1)).Nodup :=
    SlotRing.nodup_used (Nat.succ_le_succ H.few)
  rw [SlotRing.used_succ, ← H.slots, ← H.next] at hnodup
  intro hmem
  exact (List.nodup_append.mp hnodup).2.2 _ hmem _ List.mem_cons_self rfl

theorem Turn.next_le (H : die.Turn) : 1 ≤ die.nextSlot ∧ die.nextSlot ≤ 15 := by
  rw [H.next]
  exact ⟨SlotRing.le_nth, SlotRing.nth_le (by decide)⟩

theorem Turn.slot_le (H : die.Turn) {p : ℕ × ℕ} (hp : p ∈ die.sent) : p.1 ≤ 15 := by
  have hslot : p.1 ∈ die.sent.map (·.1) := List.mem_map_of_mem hp
  rw [H.slots, SlotRing.used] at hslot
  obtain ⟨k, -, hk⟩ := List.mem_map.mp hslot
  rw [← hk]
  exact SlotRing.nth_le (by decide)

/-- A die that is not flushed has another slot to give after this one. -/
theorem Turn.length_lt (H : die.Turn) (hkeeps : die.needReplace = false) :
    die.sent.length < 14 := by
  by_contra hge
  have hlen : die.sent.length = 14 := by
    have := H.few
    omega
  have hnext := H.next
  rw [hlen] at hnext
  have hlast : SlotRing.next 1 15 (SlotRing.nth 1 15 die.firstSlot 14) = die.firstSlot :=
    SlotRing.next_last (by decide) H.first.1 H.first.2
  rw [← hnext] at hlast
  obtain ⟨hfirst, hfirst'⟩ := H.first
  obtain ⟨hlo, hhi⟩ := H.next_le
  rw [needReplace] at hkeeps
  rw [SlotRing.next] at hlast
  split at hkeeps
  · rw [beq_eq_false_iff_ne] at hkeeps
    split at hlast <;> omega
  · rw [beq_eq_false_iff_ne] at hkeeps
    split at hlast <;> omega

/-- **A work that is accepted** goes to a slot that no other has had since the flush. -/
theorem Turn.accept (H : die.Turn) (work : ℕ) : (die.accept work).Turn := by
  obtain ⟨hlo, hhi⟩ := H.next_le
  rw [TitanDie.accept]
  split
  · constructor
    case first => exact ⟨hlo, hhi⟩
    case few => exact Nat.le_of_ble_eq_true rfl
    case slots =>
      show [die.nextSlot] = SlotRing.used 1 15 die.nextSlot 1
      rw [SlotRing.used_succ, SlotRing.nth_zero hlo hhi]
      rfl
    case next =>
      show SlotRing.next 1 15 die.nextSlot = SlotRing.nth 1 15 die.nextSlot 1
      rw [← SlotRing.next_nth (by decide), SlotRing.nth_zero hlo hhi]
  · next hkeeps =>
    rw [Bool.not_eq_true, flushes, Bool.or_eq_false_iff] at hkeeps
    have hlt := H.length_lt hkeeps.2
    constructor
    case first => exact H.first
    case few =>
      rw [List.length_append, List.length_singleton]
      exact hlt
    case slots =>
      rw [List.map_append, List.map_singleton, List.length_append, List.length_singleton, H.slots,
        SlotRing.used_succ, ← H.next]
    case next =>
      rw [List.length_append, List.length_singleton, ← SlotRing.next_nth (by decide), ← H.next]

/-- What a die has after it accepted a work is what it had, or nothing, and this work. -/
theorem mem_sent_accept {work : ℕ} {p : ℕ × ℕ} (hp : p ∈ (die.accept work).sent) :
    p = (die.nextSlot, work) ∨ p ∈ die.sent := by
  rw [TitanDie.accept] at hp
  split at hp
  · exact .inl (List.mem_singleton.mp hp)
  · exact (List.mem_append.mp hp).symm.imp List.mem_singleton.mp id

end TitanDie

/-- Ids are those of the die and the slot. -/
theorem makeWorkid_inj {die die' : TitanDieNo} {slot slot' : ℕ} (hslot : slot ≤ 15)
    (hslot' : slot' ≤ 15) (heq : makeWorkid die slot = makeWorkid die' slot') :
    die = die' ∧ slot = slot' := by
  have hspells : ∀ (asic : Fin 6) (no : Fin 4) (slot : Fin 16),
      (makeWorkid (asic, no) slot).toNat = 2 ^ 16 * asic + 2 ^ 8 * no + slot := by decide +kernel
  have h := hspells die.1 die.2 ⟨slot, by omega⟩
  have h' := hspells die'.1 die'.2 ⟨slot', by omega⟩
  dsimp only at h h'
  rw [heq, h'] at h
  obtain ⟨⟨asic, hasic⟩, ⟨no, hno⟩⟩ := die
  obtain ⟨⟨asic', hasic'⟩, ⟨no', hno'⟩⟩ := die'
  simp only [Prod.mk.injEq, Fin.mk.injEq]
  dsimp only at h
  omega

namespace Titan

/-! ## The invariant -/

/-- What is between the queue and the dies: sizes and numbers are right, ids are distinct, each die
goes around its slots and its works are found. -/
structure Good (s : Titan) : Prop where
  size : s.workqueueSize = s.workqueue.length
  custody : Custody s.obtained (s.workqueue ++ s.devicework.map (·.2)) s.freed
  ids : (s.devicework.map (·.1)).Nodup
  turn : ∀ die, (s.dies die).Turn
  holds : ∀ die, ∀ p ∈ (s.dies die).sent, (makeWorkid die p.1, p.2) ∈ s.devicework

/-- What was submitted was submitted for works that are found. -/
def Told (s : Titan) : Prop :=
  ∀ share ∈ s.submitted, (makeWorkid share.die share.slot, share.work) ∈ s.devicework

variable {s s' : Titan}

theorem law_of_good {s₀ : Titan} {call : TitanCall} (H : s.Good) (htold : s.Told) :
    Law s₀ call s := by
  constructor
  case size => exact H.size
  case custody => exact H.custody
  case ids => exact H.ids
  case slots => exact fun die => (H.turn die).nodup
  case holds => exact H.holds
  case reported =>
    intro share hshare p hp hslot
    have hheld := H.holds share.die p hp
    rw [hslot] at hheld
    exact congrArg Prod.snd (Keyed.eq_of_key_eq H.ids hheld (htold share hshare) rfl)

/-- A state with the same works in the same places. -/
theorem Good.of_eq (H : s.Good) (hsize : s'.workqueueSize = s.workqueueSize)
    (hqueue : s'.workqueue = s.workqueue) (hdevice : s'.devicework = s.devicework)
    (hworks : s'.obtained = s.obtained ∧ s'.freed = s.freed)
    (hdies : ∀ die, (s'.dies die).sent = (s.dies die).sent ∧
      (s'.dies die).firstSlot = (s.dies die).firstSlot ∧
      (s'.dies die).nextSlot = (s.dies die).nextSlot) : s'.Good := by
  constructor
  case size => rw [hsize, hqueue, H.size]
  case custody =>
    rw [hworks.1, hworks.2, hqueue, hdevice]
    exact H.custody
  case ids =>
    rw [hdevice]
    exact H.ids
  case turn =>
    intro die
    obtain ⟨hsent, hfirst, hnext⟩ := hdies die
    exact (H.turn die).of_eq hsent hfirst hnext
  case holds =>
    intro die
    rw [(hdies die).1, hdevice]
    exact H.holds die

theorem Good.setQueueFull (H : s.Good) : s.setQueueFull.Good :=
  H.of_eq rfl rfl rfl ⟨rfl, rfl⟩ fun _ => ⟨rfl, rfl, rfl⟩

theorem Good.removeLocalQueue (H : s.Good) {work : ℕ} (hwork : work ∈ s.workqueue) :
    (s.removeLocalQueue work).Good := by
  have hgoes : (s.workqueue ++ s.devicework.map (·.2)).Perm
      (work :: (s.workqueue.erase work ++ s.devicework.map (·.2))) :=
    (List.perm_cons_erase hwork).append_right _
  have hpos : 0 < s.workqueue.length := List.length_pos_of_mem hwork
  constructor
  case size =>
    have hsize := H.size
    show s.workqueueSize - 1 = ((s.workqueue.erase work).length : ℤ)
    rw [List.length_erase_of_mem hwork]
    omega
  case custody => exact H.custody.release hgoes
  case ids => exact H.ids
  case turn => exact H.turn
  case holds => exact H.holds

/-- Works are removed from the queue. -/
theorem Good.removeWhere (H : s.Good) (p : ℕ → Bool) : (s.removeWhere p).Good := by
  have hloop : ∀ (works : List ℕ) (t : Titan), t.Good → works.Nodup →
      (∀ work ∈ works, work ∈ t.workqueue) →
      (works.foldl (fun s work => if p work then s.removeLocalQueue work else s) t).Good := by
    intro works
    induction works with
    | nil => exact fun t ht _ _ => ht
    | cons work works ih =>
      intro t ht hnodup hmem
      obtain ⟨hnot, hnodup⟩ := List.nodup_cons.mp hnodup
      obtain ⟨hwork, hworks⟩ := List.forall_mem_cons.mp hmem
      rw [List.foldl_cons]
      split
      · refine ih _ (ht.removeLocalQueue hwork) hnodup fun other hother => ?_
        exact (List.mem_erase_of_ne (ne_of_mem_of_not_mem hother hnot)).mpr (hworks other hother)
      · exact ih t ht hnodup hworks
  exact hloop _ s H H.custody.nodup.of_append_left fun _ hwork => hwork

theorem Good.pruneLocalQueue (H : s.Good) (stale : ℕ → Bool) :
    (s.pruneLocalQueue stale).Good := (H.removeWhere stale).setQueueFull

theorem Good.appendWork (H : s.Good) (stale : ℕ → Bool) : (s.appendWork stale).Good := by
  obtain ⟨t, ht⟩ : ∃ t : Titan, t = { s with
    workqueue := s.workqueue ++ [s.obtained]
    workqueueSize := s.workqueueSize + 1
    obtained := s.obtained + 1 } := ⟨_, rfl⟩
  have hgood : t.Good := by
    rw [ht]
    constructor
    case size =>
      show s.workqueueSize + 1 = _
      rw [H.size, List.length_append, List.length_singleton]
      rfl
    case custody =>
      refine H.custody.obtain ?_
      rw [List.append_assoc]
      exact List.perm_middle
    case ids => exact H.ids
    case turn => exact H.turn
    case holds => exact H.holds
  rw [Titan.appendWork, ← ht]
  split
  · exact hgood.setQueueFull.pruneLocalQueue stale
  · exact hgood.setQueueFull

theorem Good.queueAppend (H : s.Good) (stale : ℕ → Bool) : (s.queueAppend stale).Good := by
  rw [Titan.queueAppend]
  split
  · dsimp only
    split
    · exact H.pruneLocalQueue stale
    · exact (H.pruneLocalQueue stale).appendWork stale
  · exact H.appendWork stale

theorem Good.queueFlush (H : s.Good) (holder : Bool) (stale : ℕ → Bool) :
    (s.queueFlush holder stale).Good := by
  rw [Titan.queueFlush]
  split
  · have hgood := (H.removeWhere fun _ => true).setQueueFull
    dsimp only
    split
    · exact hgood
    · split
      · exact hgood.of_eq rfl rfl rfl ⟨rfl, rfl⟩ fun _ => ⟨rfl, rfl, rfl⟩
      · exact hgood
  · exact H

theorem Good.configureOneDie (H : s.Good) (die : TitanDieNo) (clean : ℕ → Option TitanNonce) :
    (s.configureOneDie die clean).Good := by
  rw [Titan.configureOneDie]
  split
  · exact H
  · refine H.of_eq rfl rfl rfl ⟨rfl, rfl⟩ fun other => ?_
    by_cases hsame : other = die
    · rw [hsame]
      simp
    · simp [Function.update_of_ne hsame]

/-- **A work that a die accepts** goes from the queue to the works of the dies. -/
theorem Good.accept (H : s.Good) (die : TitanDieNo) {work : ℕ} (hwork : work ∈ s.workqueue) :
    (s.accept die work).Good := by
  obtain ⟨id, hid⟩ : ∃ id, id = makeWorkid die (s.dies die).nextSlot := ⟨_, rfl⟩
  have hstays : ∀ {other : TitanDieNo} {p : ℕ × ℕ}, p ∈ (s.dies other).sent →
      makeWorkid other p.1 ≠ id := by
    intro other p hp heq
    rw [hid] at heq
    obtain ⟨rfl, hslot⟩ :=
      makeWorkid_inj ((H.turn other).slot_le hp) (H.turn die).next_le.2 heq
    exact (H.turn other).notMem (hslot ▸ List.mem_map_of_mem hp)
  have hpos : 0 < s.workqueue.length := List.length_pos_of_mem hwork
  rw [Titan.accept, ← hid]
  constructor
  case size =>
    have hsize := H.size
    show s.workqueueSize - 1 = ((s.workqueue.erase work).length : ℤ)
    rw [List.length_erase_of_mem hwork]
    omega
  case custody =>
    refine H.custody.of_perm (List.perm_iff_count.mpr fun a => ?_)
    have hparts := ((List.filter_append_perm (fun entry : UInt32 × ℕ => entry.1 = id)
      s.devicework).map (·.2)).count_eq a
    have hqueue := (List.perm_cons_erase hwork).count_eq a
    rw [List.map_append, List.count_append] at hparts
    rw [List.count_cons] at hqueue
    simp only [List.count_append, List.map_append, List.map_singleton, List.count_singleton,
      ne_eq, decide_not]
    simp only [beq_iff_eq] at hqueue ⊢
    omega
  case ids =>
    rw [List.map_append, List.map_singleton]
    refine List.nodup_append.mpr ⟨Keyed.nodup_filter H.ids _, List.nodup_singleton _, ?_⟩
    intro other hother last hlast heq
    obtain ⟨entry, hentry, rfl⟩ := List.mem_map.mp hother
    rw [List.mem_singleton.mp hlast] at heq
    exact of_decide_eq_true (List.mem_filter.mp hentry).2 heq
  case turn =>
    intro other
    by_cases hsame : other = die
    · rw [hsame]
      simpa using (H.turn die).accept work
    · simpa [Function.update_of_ne hsame] using H.turn other
  case holds =>
    intro other p hp
    have hkept : p ∈ (s.dies other).sent → (makeWorkid other p.1, p.2) ∈
        s.devicework.filter (·.1 ≠ id) ++ [(id, work)] := fun hold =>
      List.mem_append_left _ (List.mem_filter.mpr
        ⟨H.holds other p hold, decide_eq_true (hstays hold)⟩)
    by_cases hsame : other = die
    · simp only [hsame, Function.update_self] at hp
      rcases TitanDie.mem_sent_accept hp with rfl | hold
      · rw [hsame, ← hid]
        exact List.mem_append_right _ List.mem_cons_self
      · exact hkept (hsame ▸ hold)
    · simp only [Function.update_of_ne hsame] at hp
      exact hkept hp

/-! ## A poll -/

/-- One die is sent works of the queue. -/
theorem good_sendWorks (die : TitanDieNo) {works : List ℕ} {accepts : List Bool}
    {sent : ℕ × Titan} (H : sent.2.Good) (hnodup : works.Nodup)
    (hmem : ∀ work ∈ works, work ∈ sent.2.workqueue) :
    (sendWorks die works accepts sent).2.Good ∧
      (sendWorks die works accepts sent).2.submitted = sent.2.submitted := by
  induction works generalizing sent accepts with
  | nil => exact ⟨H, rfl⟩
  | cons work works ih =>
    obtain ⟨hnot, hrest⟩ := List.nodup_cons.mp hnodup
    obtain ⟨hwork, hworks⟩ := List.forall_mem_cons.mp hmem
    match accepts with
    | [] => exact ⟨H, rfl⟩
    | false :: _ => exact ⟨H, rfl⟩
    | true :: accepts =>
      have hgood := H.accept die hwork
      rw [Titan.sendWorks]
      split
      · exact ⟨hgood, rfl⟩
      · refine ih hgood hrest fun other hother => ?_
        exact (List.mem_erase_of_ne (ne_of_mem_of_not_mem hother hnot)).mpr (hworks other hother)

/-- The dies are sent works. -/
theorem Good.sendNewWorks (H : s.Good) (accepts : TitanDieNo → List Bool) :
    (s.sendNewWorks accepts).2.Good ∧ (s.sendNewWorks accepts).2.submitted = s.submitted := by
  have hloop : ∀ (dies : List TitanDieNo) (sent : ℕ × Titan), sent.2.Good →
      (dies.foldl (fun sent die => if (sent.2.dies die).cores ≤ 0 then sent
        else Titan.sendWorks die sent.2.workqueue (accepts die) sent) sent).2.Good ∧
      (dies.foldl (fun sent die => if (sent.2.dies die).cores ≤ 0 then sent
        else Titan.sendWorks die sent.2.workqueue (accepts die) sent) sent).2.submitted =
        sent.2.submitted := by
    intro dies
    induction dies with
    | nil => exact fun sent hsent => ⟨hsent, rfl⟩
    | cons die dies ih =>
      intro sent hsent
      rw [List.foldl_cons]
      split
      · exact ih sent hsent
      · obtain ⟨next, hnext⟩ : ∃ next, next =
          Titan.sendWorks die sent.2.workqueue (accepts die) sent := ⟨_, rfl⟩
        obtain ⟨hgood, hsame⟩ := @good_sendWorks die _ (accepts die) sent hsent
          hsent.custody.nodup.of_append_left fun _ hwork => hwork
        rw [← hnext] at hgood hsame ⊢
        obtain ⟨hgood', hsame'⟩ := ih next hgood
        exact ⟨hgood', hsame'.trans hsame⟩
  rw [Titan.sendNewWorks]
  generalize allDies = dies
  exact hloop dies (0, s) H

theorem Told.processReport (H : s.Told) (die : TitanDieNo) (core : ℕ)
    (nonce : Vector TitanNonce 5) : (s.processReport die core nonce).Told := by
  intro share hshare
  rcases List.mem_append.mp hshare with hold | hnew
  · exact H share hold
  · obtain ⟨n, -, hn⟩ := List.mem_filterMap.mp hnew
    obtain ⟨entry, hentry, rfl⟩ := Option.map_eq_some_iff.mp hn
    have hmem := List.mem_of_find?_eq_some hentry
    have hid : entry.1 = makeWorkid die n.slot.toNat := by simpa using List.find?_some hentry
    show (makeWorkid die n.slot.toNat, entry.2) ∈ s.devicework
    rw [← hid]
    exact hmem

theorem Good.handleNews (H : s.Good) (news : TitanNews) : (s.handleNews news).Good := by
  cases news with
  | report die core nonce => exact H.of_eq rfl rfl rfl ⟨rfl, rfl⟩ fun _ => ⟨rfl, rfl, rfl⟩
  | configure die clean => exact H.configureOneDie die clean

theorem Told.configureOneDie (H : s.Told) (die : TitanDieNo) (clean : ℕ → Option TitanNonce) :
    (s.configureOneDie die clean).Told := by
  rw [Titan.configureOneDie]
  split
  · exact H
  · exact H

theorem Told.handleNews (H : s.Told) (news : TitanNews) : (s.handleNews news).Told := by
  cases news with
  | report die core nonce => exact H.processReport die core nonce
  | configure die clean => exact H.configureOneDie die clean

/-- Nothing is submitted by what is done to the queue. -/
theorem submitted_removeWhere (p : ℕ → Bool) (s : Titan) :
    (s.removeWhere p).submitted = s.submitted ∧ (s.removeWhere p).devicework = s.devicework := by
  have hloop : ∀ (works : List ℕ) (t : Titan),
      (works.foldl (fun s work => if p work then s.removeLocalQueue work else s) t).submitted =
        t.submitted ∧
      (works.foldl (fun s work => if p work then s.removeLocalQueue work else s) t).devicework =
        t.devicework := by
    intro works
    induction works with
    | nil => exact fun t => ⟨rfl, rfl⟩
    | cons work works ih =>
      intro t
      rw [List.foldl_cons]
      split
      · exact ih _
      · exact ih t
  exact hloop s.workqueue s

/-- A poll keeps the invariant, whatever the dies accept and report. -/
theorem Good.poll (H : s.Good) (x : TitanPoll) : (s.poll x).Good ∧ (s.poll x).Told := by
  obtain ⟨s₁, hs₁⟩ : ∃ s₁ : Titan, s₁ = Titan.pruneLocalQueue x.stale { s with submitted := [] } :=
    ⟨_, rfl⟩
  have hgood₁ : s₁.Good := by
    have hcleared : Good { s with submitted := [] } :=
      H.of_eq rfl rfl rfl ⟨rfl, rfl⟩ fun _ => ⟨rfl, rfl, rfl⟩
    rw [hs₁]
    exact hcleared.pruneLocalQueue x.stale
  have hnone₁ : s₁.submitted = [] := by
    rw [hs₁]
    exact (submitted_removeWhere x.stale _).1
  obtain ⟨s₂, hs₂⟩ : ∃ s₂ : Titan,
    s₂ = x.requests.foldl (fun s request => s.configureOneDie request.1 request.2) s₁ := ⟨_, rfl⟩
  have hgood₂ : s₂.Good ∧ s₂.submitted = [] := by
    rw [hs₂]
    refine List.foldlRecOn (motive := fun t : Titan => t.Good ∧ t.submitted = []) x.requests _
      ⟨hgood₁, hnone₁⟩ fun t ht request _ => ?_
    refine ⟨ht.1.configureOneDie request.1 request.2, ?_⟩
    rw [Titan.configureOneDie]
    split
    · exact ht.2
    · exact ht.2
  obtain ⟨hgood₃, hsame₃⟩ := hgood₂.1.sendNewWorks x.accepts
  cases hsent : s₂.sendNewWorks x.accepts with | mk workaccept s₃
  rw [hsent] at hgood₃ hsame₃
  have htold₃ : s₃.Told := by
    intro share hshare
    rw [hsame₃, hgood₂.2] at hshare
    cases hshare
  obtain ⟨s₄, hs₄⟩ : ∃ s₄ : Titan, s₄ = x.news.foldl Titan.handleNews s₃ := ⟨_, rfl⟩
  have hgood₄ : s₄.Good ∧ s₄.Told := by
    rw [hs₄]
    exact List.foldlRecOn (motive := fun t : Titan => t.Good ∧ t.Told) x.news _
      ⟨hgood₃, htold₃⟩ fun t ht news _ => ⟨ht.1.handleNews news, ht.2.handleNews news⟩
  have hpoll : s.poll x = if workaccept = 0 then s₄
      else Titan.setQueueFull { s₄ with workqueueMax := max s₄.workqueueMax workaccept } := by
    rw [Titan.poll, ← hs₁, ← hs₂, hsent, hs₄]
  rw [hpoll]
  split
  · exact hgood₄
  · exact ⟨hgood₄.1.of_eq rfl rfl rfl ⟨rfl, rfl⟩ fun _ => ⟨rfl, rfl, rfl⟩, hgood₄.2⟩

/-! ## Every run -/

theorem told_of_eq (H : s.Told) (hsubmitted : s'.submitted = s.submitted)
    (hdevice : s'.devicework = s.devicework) : s'.Told := by
  intro share hshare
  rw [hdevice]
  exact H share (hsubmitted ▸ hshare)

theorem Told.pruneLocalQueue (H : s.Told) (stale : ℕ → Bool) : (s.pruneLocalQueue stale).Told := by
  obtain ⟨hsubmitted, hdevice⟩ := submitted_removeWhere stale s
  exact told_of_eq H hsubmitted hdevice

theorem Told.appendWork (H : s.Told) (stale : ℕ → Bool) : (s.appendWork stale).Told := by
  rw [Titan.appendWork]
  split
  · refine Told.pruneLocalQueue ?_ stale
    exact told_of_eq H rfl rfl
  · exact told_of_eq H rfl rfl

theorem Told.queueAppend (H : s.Told) (stale : ℕ → Bool) : (s.queueAppend stale).Told := by
  rw [Titan.queueAppend]
  split
  · dsimp only
    split
    · exact H.pruneLocalQueue stale
    · exact (H.pruneLocalQueue stale).appendWork stale
  · exact H.appendWork stale

theorem Told.queueFlush (H : s.Told) (holder : Bool) (stale : ℕ → Bool) :
    (s.queueFlush holder stale).Told := by
  obtain ⟨hsubmitted, hdevice⟩ := submitted_removeWhere (fun _ => true) s
  rw [Titan.queueFlush]
  split
  · dsimp only
    split
    · exact told_of_eq H hsubmitted hdevice
    · split
      · exact told_of_eq H hsubmitted hdevice
      · exact told_of_eq H hsubmitted hdevice
  · exact H

/-- **A call** keeps the invariant. -/
theorem Good.step (H : s.Good) (htold : s.Told) {call : TitanCall} (hstep : s.step call = some s') :
    s'.Good ∧ s'.Told := by
  cases call with
  | queueAppend stale =>
    obtain rfl := Option.some.inj hstep
    exact ⟨H.queueAppend stale, htold.queueAppend stale⟩
  | queueFlush holder stale =>
    obtain rfl := Option.some.inj hstep
    exact ⟨H.queueFlush holder stale, htold.queueFlush holder stale⟩
  | poll x =>
    obtain rfl := Option.some.inj hstep
    exact H.poll x

theorem good_init (cores : TitanDieNo → ℤ) (lastNonce : TitanDieNo → ℕ → TitanNonce) :
    (init cores lastNonce).Good := by
  constructor
  case size => rfl
  case custody => exact Custody.zero
  case ids => exact List.nodup_nil
  case turn =>
    intro die
    constructor
    case first => exact ⟨le_rfl, Nat.le_of_ble_eq_true rfl⟩
    case few => exact Nat.zero_le _
    case slots => rfl
    case next => rfl
  case holds =>
    intro die p hp
    cases hp

/-- **In every run**, whatever the dies accept and report, each call leaves the works as is
expected. -/
theorem allSteps_law (cores : TitanDieNo → ℤ) (lastNonce : TitanDieNo → ℕ → TitanNonce)
    (calls : List TitanCall) : Run.AllSteps step Law (init cores lastNonce) calls := by
  have hstep : ∀ s call s', (Good s ∧ Told s) → step s call = some s' →
      (Good s' ∧ Told s') ∧ Law s call s' := by
    intro s call s' H hstep
    have hkeeps := H.1.step H.2 hstep
    exact ⟨hkeeps, law_of_good hkeeps.1 hkeeps.2⟩
  have hnone : (init cores lastNonce).Told := fun share hshare => by cases hshare
  exact Run.allSteps_of_invariant hstep calls ⟨good_init cores lastNonce, hnone⟩

end Titan

end MassGridMiner

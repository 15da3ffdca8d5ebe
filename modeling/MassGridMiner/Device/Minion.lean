import Mathlib.Algebra.Group.Nat.Defs
import MassGridMiner.Lib.Custody
import MassGridMiner.Lib.Run

/-!
# The queue of a Minion chip

A chip works on the tasks in its queue in turn, and reports the nonces it finds and the tasks that
end.  With each work the driver keeps how far the cores have come, in `blk.nonce`, and credits them
with the hashes in between.  A later report completes the works before its own.

## Main definitions

* `Minion.queueAppend`, `Minion.refillQueue`, `Minion.pollResult` — the functions of the source.
* `Minion.step` — a work is appended, the queue is flushed, or a result is read.
* `Minion.Kept` — the queue is counted right, and no work is freed while it is listed.
* `Minion.Work.Fair` — the hashes that a work is to have been credited with.
* `Minion.allSteps_fair_iff` — the runs in which they are.
-/

namespace MassGridMiner
namespace Minion

/-- What a chip says of itself.  One without cores is not used. -/
structure Chip where
  coreCount : UInt8
  pos : 0 < coreCount

/-- `core_nonce_inc`. -/
def Chip.coreNonceInc (chip : Chip) : UInt32 := 0xffffffff / chip.coreCount.toUInt32

/-- The progress of a work that is considered complete. -/
def complete : UInt32 := 0xffffffff

/-- `minion_max_queued`. -/
def maxQueued : UInt32 := 0x10

/-- A work with its `device_id`, `tv_stamp.tv_sec` and `blk.nonce`.  Noted with it are its number,
the hashes credited, whether it was completed, and the largest of its nonces before that. -/
structure Work where
  id : ℕ
  deviceId : UInt16
  tvSec : Bool
  nonce : UInt32
  hashes : ℕ
  completed : Bool
  best : Option ℕ
  deriving DecidableEq

/-- The state of a chip.  The works that were freed have the newest first. -/
structure State where
  nextTaskid : UInt16
  queueCount : UInt32
  workList : List Work
  freed : List Work
  appended : ℕ

/-- A result, with the nonce if there is one, and whether `submit_nonce` finds it valid. -/
structure Result where
  taskid : UInt16
  coreid : UInt8
  nonce : Option (UInt32 × Bool)

section
variable (chip : Chip)

/-- `minion_queue_full`. -/
def queueFull (s : State) : Bool := maxQueued ≤ s.queueCount

/-- `minion_queue_append`. -/
def queueAppend (s : State) : State :=
  if queueFull s then s
  else
    { s with
      nextTaskid := s.nextTaskid + 1
      queueCount := s.queueCount + 1
      workList := s.workList ++ [⟨s.appended, s.nextTaskid + 1, true, 0, 0, false, none⟩]
      appended := s.appended + 1 }

/-- `minion_refill_queue`, with which a flush and a timeout of the chip end. -/
def refillQueue (s : State) : State :=
  { s with workList := s.workList.map fun work => { work with tvSec := false }, queueCount := 0 }

/-- `minion_hashes_done`, for one of the cores that are enabled. -/
def Work.hashesDone (work : Work) (hashes : UInt32) : Work :=
  { work with hashes := work.hashes + hashes.toNat }

/-- A valid nonce is noted. -/
def Work.note (work : Work) (hashes : UInt32) : Work :=
  if work.completed then work else { work with best := max work.best (some hashes.toNat) }

/-- The progress that a valid nonce shows. -/
def Work.found (work : Work) (nonce : UInt32) : Work :=
  let hashes := nonce % chip.coreNonceInc
  let work := work.note hashes
  if work.nonce ≠ complete then
    if work.nonce < hashes then
      let hashes := hashes - (work.nonce - 1)
      { work.hashesDone hashes with nonce := hashes + 1 }
    else work
  else work

/-- A work is considered complete. -/
def Work.finish (work : Work) : Work :=
  { work.hashesDone (chip.coreNonceInc - work.nonce) with nonce := complete, completed := true }

/-- What a result does to its own work. -/
def Work.result (work : Work) : Option (UInt32 × Bool) → Work
  | some (nonce, true) => work.found chip nonce
  | some (_, false) => work
  | none => work.finish chip

/-- What a result does to a work before its own. -/
def Work.pass (work : Work) : Work :=
  let work := if work.nonce ≠ 0 ∧ work.nonce ≠ complete then work.finish chip else work
  { work with tvSec := false }

/-- One result of `minion_poll`.  The works before its own are deleted if its nonce is valid and
its core exists. -/
def pollResult (s : State) (r : Result) : State :=
  let before := s.workList.takeWhile (·.deviceId ≠ r.taskid)
  match s.workList.dropWhile (·.deviceId ≠ r.taskid) with
  | [] => s
  | work :: rest =>
    let clean := r.nonce.any Prod.snd && r.coreid < chip.coreCount
    let rest := work.result chip r.nonce :: rest
    { s with
      queueCount :=
        before.foldl (fun count work => if work.tvSec then count - 1 else count) s.queueCount
      workList := if clean then rest else before.map (·.pass chip) ++ rest
      freed := if clean then before.map (·.pass chip) ++ s.freed else s.freed }

/-- What happens at a chip. -/
inductive Event
  | append
  | flush
  | result (r : Result)

/-- One step. -/
def step (s : State) : Event → Option State
  | .append => some (queueAppend s)
  | .flush => some (refillQueue s)
  | .result r => some (pollResult chip s r)

/-- A chip that has just been initialised. -/
def init : State := ⟨0, 0, [], [], 0⟩

/-- **The queue is counted right**, and each work that was appended is listed or was freed, once. -/
structure Kept (s : State) : Prop where
  queueCount : s.queueCount.toNat = s.workList.countP (·.tvSec)
  custody : Custody s.appended (s.workList.map Work.id) (s.freed.map Work.id)

/-- **The hashes credited for a work** are not more than a core does, and up to its completion they
are those up to its largest nonce. -/
structure Work.Fair (work : Work) : Prop where
  le : work.hashes ≤ chip.coreNonceInc.toNat
  eq : work.completed = false → ∀ n ∈ work.best, work.hashes = n + 1

/-- They are for all the works. -/
def State.Fair (s : State) : Prop := ∀ work ∈ s.workList ++ s.freed, work.Fair chip

/-- A nonce is the first of its work and has made progress, or it makes none.  That after the last
that there is wraps around to the beginning. -/
def Work.Counts (work : Work) (n : ℕ) : Prop := work.completed = false →
  (work.best = none → 0 < n) ∧ ∀ m ∈ work.best, n ≤ m ∧ (m + 2 = 2 ^ 32 → n = 0)

/-- The nonces of a work leave something to credit it with. -/
def Work.Unfinished (work : Work) : Prop := ∀ m ∈ work.best, m + 2 ≤ chip.coreNonceInc.toNat

/-- A result is one that its work is credited for as it is to be. -/
def Work.Expects (work : Work) : Option (UInt32 × Bool) → Prop
  | some (nonce, true) => work.Counts (nonce % chip.coreNonceInc).toNat
  | some (_, false) => True
  | none => if work.completed then chip.coreNonceInc = complete else work.Unfinished chip

/-- A work can be completed by a later result, where it would be. -/
def Work.Passes (work : Work) : Prop :=
  work.completed = false → work.Unfinished chip ∨ chip.coreNonceInc = complete

/-- A result comes at the right time for its work and for the works before. -/
def Timely (s : State) : Event → Prop
  | .result r => ∀ work ∈ (s.workList.dropWhile (·.deviceId ≠ r.taskid)).head?,
      work.Expects chip r.nonce ∧
        ∀ work ∈ s.workList.takeWhile (·.deviceId ≠ r.taskid), work.Passes chip
  | _ => True

/-! ## The queue -/

variable {chip} {s s' : State} {work : Work}

/-- The count goes down with each work that was counted. -/
theorem toNat_foldl_count (works : List Work) (count : UInt32)
    (hle : works.countP (·.tvSec) ≤ count.toNat) :
    (works.foldl (fun count work => if work.tvSec then count - 1 else count) count).toNat =
      count.toNat - works.countP (·.tvSec) := by
  induction works generalizing count with
  | nil => rfl
  | cons work works ih =>
    rw [List.countP_cons] at hle ⊢
    cases hcounted : work.tvSec with
    | false =>
      simp only [hcounted, Bool.false_eq_true, if_false, Nat.add_zero] at hle
      simpa [hcounted] using ih count hle
    | true =>
      simp only [hcounted, if_true] at hle
      have hone : (count - 1).toNat = count.toNat - 1 :=
        UInt32.toNat_sub_of_le count 1 (UInt32.le_iff_toNat_le.mpr (by
          rw [UInt32.toNat_one]
          omega))
      rw [List.foldl_cons, hcounted, if_pos rfl, if_pos rfl, ih (count - 1) (by omega), hone]
      omega

/-- A result leaves its work where it is. -/
theorem result_keeps (chip : Chip) (work : Work) (nonce : Option (UInt32 × Bool)) :
    (work.result chip nonce).id = work.id ∧ (work.result chip nonce).tvSec = work.tvSec := by
  have hnote : ∀ h, (work.note h).id = work.id ∧ (work.note h).tvSec = work.tvSec := by
    intro h
    rw [Work.note]
    split <;> exact ⟨rfl, rfl⟩
  match nonce with
  | none => exact ⟨rfl, rfl⟩
  | some (_, false) => exact ⟨rfl, rfl⟩
  | some (nonce, true) =>
    simp only [Work.result, Work.found]
    split
    · split <;> exact hnote _
    · exact hnote _

@[simp] theorem id_pass (work : Work) : (work.pass chip).id = work.id := by
  simp only [Work.pass]
  split <;> rfl

@[simp] theorem tvSec_pass (work : Work) : (work.pass chip).tvSec = false := rfl

/-- What a result does to the works, if there is one with its task. -/
theorem pollResult_of_found {r : Result} {rest : List Work}
    (hfound : s.workList.dropWhile (·.deviceId ≠ r.taskid) = work :: rest) :
    pollResult chip s r =
      { s with
        queueCount := (s.workList.takeWhile (·.deviceId ≠ r.taskid)).foldl
          (fun count work => if work.tvSec then count - 1 else count) s.queueCount
        workList := (if r.nonce.any Prod.snd && r.coreid < chip.coreCount then []
          else (s.workList.takeWhile (·.deviceId ≠ r.taskid)).map (·.pass chip)) ++
            work.result chip r.nonce :: rest
        freed := (if r.nonce.any Prod.snd && r.coreid < chip.coreCount then
            (s.workList.takeWhile (·.deviceId ≠ r.taskid)).map (·.pass chip)
          else []) ++ s.freed } := by
  rw [pollResult]
  simp only [hfound]
  split <;> rfl

theorem pollResult_of_unknown {r : Result}
    (hunknown : s.workList.dropWhile (·.deviceId ≠ r.taskid) = []) : pollResult chip s r = s := by
  rw [pollResult]
  simp only [hunknown]

/-- **A work is appended** to a queue that is not full. -/
theorem Kept.queueAppend (H : Kept s) : Kept (queueAppend s) := by
  rw [Minion.queueAppend]
  split
  case isTrue => exact H
  case isFalse hroom =>
    have hlt : s.queueCount.toNat < 16 := by
      rw [queueFull, decide_eq_true_eq, UInt32.not_le, UInt32.lt_iff_toNat_lt] at hroom
      exact hroom
    refine ⟨?_, ?_⟩
    · have hnext : (s.queueCount + 1).toNat = s.queueCount.toNat + 1 := by
        rw [UInt32.toNat_add, UInt32.toNat_one, Nat.mod_eq_of_lt (by omega)]
      rw [hnext, H.queueCount, List.countP_append]
      rfl
    · rw [List.map_append]
      exact H.custody.obtain (List.perm_append_singleton _ _)

/-- **The queue is flushed.** -/
theorem Kept.refillQueue (H : Kept s) : Kept (refillQueue s) := by
  refine ⟨?_, ?_⟩
  · have hnone : (s.workList.map fun work => { work with tvSec := false }).countP (·.tvSec) = 0 :=
      List.countP_eq_zero.mpr fun work hwork => by
        obtain ⟨_, -, rfl⟩ := List.mem_map.mp hwork
        exact Bool.false_ne_true
    exact hnone.symm
  · have hids : (s.workList.map fun work => { work with tvSec := false }).map Work.id =
        s.workList.map Work.id := by
      rw [List.map_map]
      rfl
    rw [Minion.refillQueue, hids]
    exact H.custody

/-- **A result is read.** -/
theorem Kept.pollResult (H : Kept s) (r : Result) : Kept (pollResult chip s r) := by
  cases hdrop : s.workList.dropWhile (·.deviceId ≠ r.taskid) with
  | nil =>
    rw [pollResult_of_unknown hdrop]
    exact H
  | cons work rest =>
    rw [pollResult_of_found hdrop]
    have hlist : s.workList = s.workList.takeWhile (·.deviceId ≠ r.taskid) ++ work :: rest := by
      rw [← hdrop, List.takeWhile_append_dropWhile]
    obtain ⟨hid, htvSec⟩ := result_keeps chip work r.nonce
    generalize s.workList.takeWhile (·.deviceId ≠ r.taskid) = before at hlist
    generalize (r.nonce.any Prod.snd && decide (r.coreid < chip.coreCount)) = clean
    have hcount := H.queueCount
    have hcustody := H.custody
    rw [hlist, List.countP_append] at hcount
    rw [hlist, List.map_append] at hcustody
    have hpassed : (before.map (·.pass chip)).countP (·.tvSec) = 0 :=
      List.countP_eq_zero.mpr fun work hwork => by
        obtain ⟨_, -, rfl⟩ := List.mem_map.mp hwork
        exact Bool.false_ne_true
    have hids : (before.map (·.pass chip)).map Work.id = before.map Work.id := by
      rw [List.map_map]
      exact List.map_congr_left fun work _ => id_pass work
    have hrest : (work.result chip r.nonce :: rest).countP (·.tvSec) =
        (work :: rest).countP (·.tvSec) := by
      rw [List.countP_cons, List.countP_cons, htvSec]
    refine ⟨?_, ?_⟩
    · dsimp only
      rw [toNat_foldl_count before s.queueCount (by omega), List.countP_append, hrest, hcount]
      cases clean with
      | true => simp
      | false => simp [hpassed]
    · refine hcustody.of_perm ?_
      cases clean with
      | true =>
        simp only [if_true, List.nil_append, List.map_cons, List.map_append, hids, hid,
          List.append_assoc]
        exact List.perm_append_comm_assoc _ _ _
      | false =>
        simp only [Bool.false_eq_true, if_false, List.nil_append, List.map_cons, List.map_append,
          hids, hid]
        exact List.Perm.refl _

/-- **One step** keeps the queue counted right. -/
theorem Kept.step (H : Kept s) {e : Event} (hstep : step chip s e = some s') : Kept s' := by
  cases e with
  | append =>
    obtain rfl := Option.some.inj hstep
    exact H.queueAppend
  | flush =>
    obtain rfl := Option.some.inj hstep
    exact H.refillQueue
  | result r =>
    obtain rfl := Option.some.inj hstep
    exact H.pollResult r

/-! ## Credits -/

/-- What the progress of a work says of its nonces, as long as the credits are right. -/
structure Work.Inv (chip : Chip) (work : Work) : Prop where
  completed : work.completed = true → work.nonce = complete ∧ work.hashes ≤ chip.coreNonceInc.toNat
  fresh : work.completed = false → work.best = none → work.nonce = 0 ∧ work.hashes = 0
  found : work.completed = false → ∀ m ∈ work.best, m < chip.coreNonceInc.toNat ∧
    work.hashes = m + 1 ∧ work.nonce.toNat = (m + 2) % 2 ^ 32

theorem coreNonceInc_pos (chip : Chip) : 0 < chip.coreNonceInc.toNat := by
  have hpos : 0 < chip.coreCount.toNat := chip.pos
  have hlt : chip.coreCount.toNat < 256 := chip.coreCount.toNat_lt
  rw [Chip.coreNonceInc, UInt32.toNat_div, UInt8.toNat_toUInt32]
  exact Nat.div_pos (by rw [show (0xffffffff : UInt32).toNat = 4294967295 from rfl]; omega) hpos

/-- A chip with more than one core divides the nonces between them. -/
theorem coreNonceInc_le (chip : Chip) (hne : chip.coreNonceInc ≠ complete) :
    chip.coreNonceInc.toNat ≤ 2147483647 := by
  have hpos : 0 < chip.coreCount.toNat := chip.pos
  have hdiv : chip.coreNonceInc.toNat = 4294967295 / chip.coreCount.toNat := by
    rw [Chip.coreNonceInc, UInt32.toNat_div, UInt8.toNat_toUInt32]
    rfl
  by_cases hone : chip.coreCount.toNat = 1
  · rw [hone, Nat.div_one] at hdiv
    exact absurd (UInt32.toNat_inj.mp hdiv) hne
  · rw [hdiv]
    exact Nat.div_le_div_left (by omega : 2 ≤ chip.coreCount.toNat) (by decide)

theorem Work.Inv.fair (H : work.Inv chip) : work.Fair chip := by
  refine ⟨?_, fun hopen m hm => (H.found hopen m hm).2.1⟩
  cases hdone : work.completed with
  | true => exact (H.completed hdone).2
  | false =>
    cases hbest : work.best with
    | none =>
      rw [(H.fresh hdone hbest).2]
      exact Nat.zero_le _
    | some m =>
      obtain ⟨hlt, hhashes, -⟩ := H.found hdone m hbest
      omega

/-- A completed work is not credited for its nonces. -/
theorem found_of_completed (H : work.Inv chip) (hdone : work.completed = true) (nonce : UInt32) :
    work.found chip nonce = work := by
  have hnote : work.note (nonce % chip.coreNonceInc) = work := by rw [Work.note, if_pos hdone]
  simp only [Work.found, hnote]
  rw [if_neg (not_not.mpr (H.completed hdone).1)]

theorem found_of_lt {nonce : UInt32} (hopen : work.completed = false)
    (hne : work.nonce ≠ complete) (hlt : work.nonce < nonce % chip.coreNonceInc) :
    work.found chip nonce =
      { work with
        best := max work.best (some (nonce % chip.coreNonceInc).toNat)
        hashes := work.hashes + (nonce % chip.coreNonceInc - (work.nonce - 1)).toNat
        nonce := nonce % chip.coreNonceInc - (work.nonce - 1) + 1 } := by
  have hnote : work.note (nonce % chip.coreNonceInc) =
      { work with best := max work.best (some (nonce % chip.coreNonceInc).toNat) } := by
    rw [Work.note, if_neg (by rw [hopen]; decide)]
  simp only [Work.found, hnote]
  rw [if_pos hne, if_pos hlt]
  rfl

theorem found_of_not_lt {nonce : UInt32} (hopen : work.completed = false)
    (hnot : work.nonce = complete ∨ ¬work.nonce < nonce % chip.coreNonceInc) :
    work.found chip nonce =
      { work with best := max work.best (some (nonce % chip.coreNonceInc).toNat) } := by
  have hnote : work.note (nonce % chip.coreNonceInc) =
      { work with best := max work.best (some (nonce % chip.coreNonceInc).toNat) } := by
    rw [Work.note, if_neg (by rw [hopen]; decide)]
  simp only [Work.found, hnote]
  by_cases hne : work.nonce = complete
  · rw [if_neg (not_not.mpr hne)]
  · rw [if_pos hne, if_neg (hnot.resolve_left hne)]

/-- A work whose largest nonce is known. -/
theorem fair_iff_of_best {m : ℕ} (hopen : work.completed = false) (hbest : work.best = some m)
    (hlt : m < chip.coreNonceInc.toNat) : work.Fair chip ↔ work.hashes = m + 1 := by
  constructor
  · intro h
    exact h.eq hopen m hbest
  · intro h
    refine ⟨by omega, fun _ n hn => ?_⟩
    rw [hbest, Option.mem_some_iff] at hn
    rw [h, hn]

theorem inv_of_best {m : ℕ} (hopen : work.completed = false) (hbest : work.best = some m)
    (hlt : m < chip.coreNonceInc.toNat) (hhashes : work.hashes = m + 1)
    (hnonce : work.nonce.toNat = (m + 2) % 2 ^ 32) : work.Inv chip := by
  refine ⟨fun h => (nomatch hopen.symm.trans h), fun _ h => (nomatch hbest.symm.trans h), ?_⟩
  intro _ n hn
  rw [hbest, Option.mem_some_iff] at hn
  subst hn
  exact ⟨hlt, hhashes, hnonce⟩

/-- **A valid nonce** is credited right exactly if it counts. -/
theorem fair_found_iff (H : work.Inv chip) (nonce : UInt32) :
    ((work.found chip nonce).Fair chip ↔ work.Counts (nonce % chip.coreNonceInc).toNat) ∧
      (work.Counts (nonce % chip.coreNonceInc).toNat → (work.found chip nonce).Inv chip) := by
  have hsmall : (nonce % chip.coreNonceInc).toNat < chip.coreNonceInc.toNat := by
    rw [UInt32.toNat_mod]
    exact Nat.mod_lt _ (coreNonceInc_pos chip)
  have hinc : chip.coreNonceInc.toNat < 4294967296 := chip.coreNonceInc.toNat_lt
  cases hdone : work.completed with
  | true =>
    rw [found_of_completed H hdone]
    exact ⟨iff_of_true H.fair fun h => (nomatch hdone.symm.trans h), fun _ => H⟩
  | false =>
    have hsub : (nonce % chip.coreNonceInc - (work.nonce - 1)).toNat =
        (4294967296 - (4294967296 - 1 + work.nonce.toNat) % 4294967296 +
          (nonce % chip.coreNonceInc).toNat) % 4294967296 := by
      rw [UInt32.toNat_sub, UInt32.toNat_sub]
      rfl
    have hnext : (nonce % chip.coreNonceInc - (work.nonce - 1) + 1).toNat =
        ((nonce % chip.coreNonceInc - (work.nonce - 1)).toNat + 1) % 4294967296 := by
      rw [UInt32.toNat_add]
      rfl
    cases hbest : work.best with
    | none =>
      obtain ⟨hnonce, hhashes⟩ := H.fresh hdone hbest
      have hnonce' : work.nonce.toNat = 0 := by rw [hnonce]; rfl
      have hmax : max work.best (some (nonce % chip.coreNonceInc).toNat) =
          some (nonce % chip.coreNonceInc).toNat := by
        rw [hbest]
        rfl
      by_cases hpos : 0 < (nonce % chip.coreNonceInc).toNat
      · -- the first nonce is credited in full
        have hfound := found_of_lt hdone (by rw [hnonce]; decide) (by rw [hnonce]; exact hpos)
        have hhashes' := congrArg Work.hashes hfound
        have hnext' := congrArg (fun work => work.nonce.toNat) hfound
        have hinv : (work.found chip nonce).Inv chip := by
          refine inv_of_best ((congrArg Work.completed hfound).trans hdone)
            ((congrArg Work.best hfound).trans hmax) hsmall ?_ ?_
          · rw [hhashes']
            dsimp only
            omega
          · rw [hnext']
            dsimp only
            omega
        refine ⟨iff_of_true hinv.fair fun _ => ⟨fun _ => hpos, ?_⟩, fun _ => hinv⟩
        rw [hbest]
        exact nofun
      · have hcounts : ¬work.Counts (nonce % chip.coreNonceInc).toNat :=
          fun h => hpos ((h hdone).1 hbest)
        have hfound := found_of_not_lt hdone (.inr (by rw [hnonce]; exact hpos))
        have hhashes' := congrArg Work.hashes hfound
        refine ⟨iff_of_false ?_ hcounts, fun h => absurd h hcounts⟩
        rw [fair_iff_of_best ((congrArg Work.completed hfound).trans hdone)
          ((congrArg Work.best hfound).trans hmax) hsmall, hhashes']
        dsimp only
        omega
    | some m =>
      obtain ⟨hlt, hhashes, hnonce⟩ := H.found hdone m hbest
      have hmax : max work.best (some (nonce % chip.coreNonceInc).toNat) =
          some (max m (nonce % chip.coreNonceInc).toNat) := by
        rw [hbest]
        rfl
      have hmaxlt : max m (nonce % chip.coreNonceInc).toNat < chip.coreNonceInc.toNat := by omega
      have hcounts : work.Counts (nonce % chip.coreNonceInc).toNat ↔
          (nonce % chip.coreNonceInc).toNat ≤ m ∧
            (m + 2 = 2 ^ 32 → (nonce % chip.coreNonceInc).toNat = 0) := by
        rw [Work.Counts, hbest]
        exact ⟨fun h => (h hdone).2 m rfl, fun h _ => ⟨nofun, fun n hn => Option.some.inj hn ▸ h⟩⟩
      rw [hcounts]
      by_cases hskip : work.nonce = complete ∨ ¬work.nonce < nonce % chip.coreNonceInc
      · have hbelow : m + 2 = 2 ^ 32 → (nonce % chip.coreNonceInc).toNat = 0 := by
          intro hwrap
          rw [hwrap, Nat.mod_self] at hnonce
          rcases hskip with h | h
          · exact absurd ((congrArg UInt32.toNat h).symm.trans hnonce) (by decide)
          · rw [UInt32.lt_iff_toNat_lt] at h
            omega
        have hfound := found_of_not_lt hdone hskip
        have hdone' := (congrArg Work.completed hfound).trans hdone
        have hbest' := (congrArg Work.best hfound).trans hmax
        have hhashes' := congrArg Work.hashes hfound
        refine ⟨(fair_iff_of_best hdone' hbest' hmaxlt).trans ?_, fun h => ?_⟩
        · rw [hhashes']
          dsimp only
          rw [hhashes]
          exact ⟨fun h => ⟨by omega, hbelow⟩, fun h => by omega⟩
        · rw [Nat.max_eq_left h.1] at hbest'
          exact inv_of_best hdone' hbest' hlt (hhashes'.trans hhashes)
            ((congrArg (fun work => work.nonce.toNat) hfound).trans hnonce)
      · -- a later nonce is credited one less than it should, or again from the beginning
        rw [not_or, not_not] at hskip
        have hmore : work.nonce.toNat < (nonce % chip.coreNonceInc).toNat := hskip.2
        have hnot : ¬((nonce % chip.coreNonceInc).toNat ≤ m ∧
            (m + 2 = 2 ^ 32 → (nonce % chip.coreNonceInc).toNat = 0)) := by
          rintro ⟨hle, hwrap⟩
          omega
        have hfound := found_of_lt hdone hskip.1 hskip.2
        have hhashes' := congrArg Work.hashes hfound
        refine ⟨iff_of_false ?_ hnot, fun h => absurd h hnot⟩
        rw [fair_iff_of_best ((congrArg Work.completed hfound).trans hdone)
          ((congrArg Work.best hfound).trans hmax) hmaxlt, hhashes']
        dsimp only
        omega

/-- **The end of a work** is credited right exactly if there is something left of it. -/
theorem fair_finish_iff (H : work.Inv chip) :
    ((work.finish chip).Fair chip ↔
      if work.completed then chip.coreNonceInc = complete else work.Unfinished chip) ∧
    ((if work.completed then chip.coreNonceInc = complete else work.Unfinished chip) →
      (work.finish chip).Inv chip) := by
  have hinc : chip.coreNonceInc.toNat < 4294967296 := chip.coreNonceInc.toNat_lt
  have hsub : (work.finish chip).hashes = work.hashes +
      (4294967296 - work.nonce.toNat + chip.coreNonceInc.toNat) % 4294967296 := by
    rw [Work.finish, Work.hashesDone, UInt32.toNat_sub]
  have hfair : (work.finish chip).Fair chip ↔
      (work.finish chip).hashes ≤ chip.coreNonceInc.toNat :=
    ⟨Work.Fair.le, fun h => ⟨h, nofun⟩⟩
  have hinv : (work.finish chip).hashes ≤ chip.coreNonceInc.toNat → (work.finish chip).Inv chip :=
    fun h => ⟨fun _ => ⟨rfl, h⟩, nofun, nofun⟩
  have hiff : (work.finish chip).hashes ≤ chip.coreNonceInc.toNat ↔
      if work.completed then chip.coreNonceInc = complete else work.Unfinished chip := by
    rw [hsub]
    cases hdone : work.completed with
    | true =>
      obtain ⟨hnonce, hhashes⟩ := H.completed hdone
      have hcomplete : complete.toNat = 4294967295 := rfl
      rw [if_pos rfl, ← UInt32.toNat_inj, hnonce, hcomplete]
      omega
    | false =>
      rw [if_neg Bool.false_ne_true]
      cases hbest : work.best with
      | none =>
        obtain ⟨hnonce, hhashes⟩ := H.fresh hdone hbest
        have hzero : (0 : UInt32).toNat = 0 := rfl
        refine iff_of_true ?_ ?_
        · rw [hnonce, hzero]
          omega
        · rw [Work.Unfinished, hbest]
          exact nofun
      | some m =>
        obtain ⟨hlt, hhashes, hnonce⟩ := H.found hdone m hbest
        have hunfinished : work.Unfinished chip ↔ m + 2 ≤ chip.coreNonceInc.toNat := by
          simp [Work.Unfinished, hbest]
        rw [hunfinished]
        omega
  exact ⟨hfair.trans hiff, fun h => hinv (hiff.mpr h)⟩

/-- **An earlier work** is credited right exactly if it can be completed. -/
theorem fair_pass_iff (H : work.Inv chip) :
    ((work.pass chip).Fair chip ↔ work.Passes chip) ∧
      (work.Passes chip → (work.pass chip).Inv chip) := by
  have hfair : ∀ w : Work, ({ w with tvSec := false } : Work).Fair chip ↔ w.Fair chip :=
    fun w => ⟨fun h => ⟨h.le, h.eq⟩, fun h => ⟨h.le, h.eq⟩⟩
  have hinv : ∀ w : Work, w.Inv chip → ({ w with tvSec := false } : Work).Inv chip :=
    fun w h => ⟨h.completed, h.fresh, h.found⟩
  have hinc : chip.coreNonceInc.toNat < 4294967296 := chip.coreNonceInc.toNat_lt
  have hcomplete : chip.coreNonceInc = complete ↔ chip.coreNonceInc.toNat = 4294967295 :=
    UInt32.toNat_inj.symm
  rw [Work.pass]
  split
  case isTrue htaken =>
    obtain ⟨hzero, hne⟩ := htaken
    obtain ⟨hiff, hkeep⟩ := fair_finish_iff H
    have hdone : work.completed = false := by
      rw [← Bool.not_eq_true]
      exact fun h => hne (H.completed h).1
    rw [hdone, if_neg Bool.false_ne_true] at hiff hkeep
    have hpasses : work.Unfinished chip ↔ work.Passes chip := by
      refine ⟨fun h _ => .inl h, fun h m hm => ?_⟩
      obtain ⟨hlt, -, hnonce⟩ := H.found hdone m hm
      rcases h hdone with h | h
      · exact h m hm
      · rw [hcomplete] at h
        have hpos : work.nonce.toNat ≠ 0 := fun h => hzero (UInt32.toNat_inj.mp h)
        omega
    exact ⟨(hfair _).trans (hiff.trans hpasses), fun h => hinv _ (hkeep (hpasses.mpr h))⟩
  case isFalse hleft =>
    refine ⟨iff_of_true ((hfair work).mpr H.fair) fun hdone => ?_, fun _ => hinv work H⟩
    by_cases hone : chip.coreNonceInc = complete
    · exact .inr hone
    · refine .inl fun m hm => ?_
      obtain ⟨hlt, -, hnonce⟩ := H.found hdone m hm
      have hle := coreNonceInc_le chip hone
      have hmoved : work.nonce.toNat = m + 2 := by omega
      refine absurd ⟨fun h => ?_, fun h => ?_⟩ hleft
      · rw [h] at hmoved
        exact absurd hmoved.symm (Nat.succ_ne_zero _)
      · have hall : (4294967295 : ℕ) = m + 2 := (congrArg UInt32.toNat h).symm.trans hmoved
        omega

/-- **Its own work** is credited right exactly if the result is one it expects. -/
theorem fair_result_iff (H : work.Inv chip) (nonce : Option (UInt32 × Bool)) :
    ((work.result chip nonce).Fair chip ↔ work.Expects chip nonce) ∧
      (work.Expects chip nonce → (work.result chip nonce).Inv chip) := by
  match nonce with
  | none => exact fair_finish_iff H
  | some (_, false) => exact ⟨iff_of_true H.fair trivial, fun _ => H⟩
  | some (nonce, true) => exact fair_found_iff H nonce

/-! ## Runs -/

/-- The progress of every work says what it is to. -/
def State.Inv (chip : Chip) (s : State) : Prop := ∀ work ∈ s.workList ++ s.freed, work.Inv chip

theorem State.Inv.fair (H : s.Inv chip) : s.Fair chip := fun work hwork => (H work hwork).fair

/-- What a property says of the works after a result. -/
theorem forall_pollResult {P : Work → Prop} {r : Result} {rest : List Work}
    (hfound : s.workList.dropWhile (·.deviceId ≠ r.taskid) = work :: rest) :
    (∀ w ∈ (pollResult chip s r).workList ++ (pollResult chip s r).freed, P w) ↔
      (P (work.result chip r.nonce) ∧
        ∀ w ∈ s.workList.takeWhile (·.deviceId ≠ r.taskid), P (w.pass chip)) ∧
          ∀ w ∈ rest ++ s.freed, P w := by
  rw [pollResult_of_found hfound]
  dsimp only
  generalize s.workList.takeWhile (·.deviceId ≠ r.taskid) = before
  generalize (r.nonce.any Prod.snd && decide (r.coreid < chip.coreCount)) = clean
  cases clean with
  | true =>
    simp only [if_true, List.nil_append, List.forall_mem_append, List.forall_mem_cons,
      List.forall_mem_map]
    tauto
  | false =>
    simp only [Bool.false_eq_true, if_false, List.nil_append, List.forall_mem_append,
      List.forall_mem_cons, List.forall_mem_map]
    tauto

/-- **One step** keeps the credits right exactly if its result comes at the right time, and then the
progress goes on to say what it is to. -/
theorem fair_step_iff (H : s.Inv chip) {e : Event} (hstep : step chip s e = some s') :
    (s'.Fair chip ↔ Timely chip s e) ∧ (Timely chip s e → s'.Inv chip) := by
  have hkept : s'.Inv chip → (s'.Fair chip ↔ True) ∧ (True → s'.Inv chip) :=
    fun h => ⟨iff_of_true h.fair trivial, fun _ => h⟩
  cases e with
  | append =>
    obtain rfl := Option.some.inj hstep
    refine hkept ?_
    rw [queueAppend]
    split
    · exact H
    · intro work hwork
      simp only [List.mem_append, List.mem_singleton] at hwork
      rcases hwork with (hwork | rfl) | hwork
      · exact H work (List.mem_append_left _ hwork)
      · exact ⟨nofun, fun _ _ => ⟨rfl, rfl⟩, fun _ => nofun⟩
      · exact H work (List.mem_append_right _ hwork)
  | flush =>
    obtain rfl := Option.some.inj hstep
    refine hkept fun work hwork => ?_
    rcases List.mem_append.mp hwork with hwork | hwork
    · obtain ⟨w, hw, rfl⟩ := List.mem_map.mp hwork
      obtain ⟨h₁, h₂, h₃⟩ := H w (List.mem_append_left _ hw)
      exact ⟨h₁, h₂, h₃⟩
    · exact H work (List.mem_append_right _ hwork)
  | result r =>
    obtain rfl := Option.some.inj hstep
    rw [Timely]
    cases hdrop : s.workList.dropWhile (·.deviceId ≠ r.taskid) with
    | nil =>
      rw [pollResult_of_unknown hdrop]
      exact ⟨iff_of_true H.fair nofun, fun _ => H⟩
    | cons work rest =>
      have hlist : s.workList = s.workList.takeWhile (·.deviceId ≠ r.taskid) ++ work :: rest := by
        rw [← hdrop, List.takeWhile_append_dropWhile]
      have hbefore : ∀ w ∈ s.workList.takeWhile (·.deviceId ≠ r.taskid), w.Inv chip :=
        fun w hw => H w (List.mem_append_left _ (List.takeWhile_subset _ hw))
      have hwork : work.Inv chip := H work (by
        rw [hlist]
        simp)
      have hrest : ∀ w ∈ rest ++ s.freed, w.Inv chip := fun w hw => H w (by
        rw [hlist]
        simp only [List.mem_append, List.mem_cons] at hw ⊢
        tauto)
      simp only [List.head?_cons, Option.mem_some_iff, forall_eq']
      constructor
      · rw [State.Fair, forall_pollResult hdrop]
        constructor
        · rintro ⟨⟨hown, hpassed⟩, -⟩
          exact ⟨(fair_result_iff hwork r.nonce).1.mp hown,
            fun w hw => (fair_pass_iff (hbefore w hw)).1.mp (hpassed w hw)⟩
        · rintro ⟨hown, hpassed⟩
          exact ⟨⟨(fair_result_iff hwork r.nonce).1.mpr hown,
            fun w hw => (fair_pass_iff (hbefore w hw)).1.mpr (hpassed w hw)⟩,
            fun w hw => (hrest w hw).fair⟩
      · rintro ⟨hown, hpassed⟩
        rw [State.Inv, forall_pollResult hdrop]
        exact ⟨⟨(fair_result_iff hwork r.nonce).2 hown,
          fun w hw => (fair_pass_iff (hbefore w hw)).2 (hpassed w hw)⟩, hrest⟩

/-- **The runs in which every work is credited as it is to be** are exactly those in which every
result comes at the right time.  In all of them the queue is counted right, and no work is freed
while it is listed. -/
theorem allSteps_fair_iff (chip : Chip) (es : List Event) :
    Run.AllSteps (step chip) (fun _ _ s' => Kept s') init es ∧
      (Run.AllSteps (step chip) (fun _ _ s' => s'.Fair chip) init es ↔
        Run.AllSteps (step chip) (fun s e _ => Timely chip s e) init es) := by
  constructor
  · have hkept : Kept init := ⟨rfl, Custody.zero⟩
    exact Run.allSteps_of_invariant (fun s e s' H hstep => ⟨H.step hstep, H.step hstep⟩) es hkept
  · have hiff : ∀ (s : State) (e : Event) s', s.Inv chip → step chip s e = some s' →
        (s'.Fair chip ↔ Timely chip s e) := fun s e s' H hstep => (fair_step_iff H hstep).1
    have hkeep : ∀ (s : State) (e : Event) s', s.Inv chip → step chip s e = some s' →
        s'.Fair chip → s'.Inv chip := fun s e s' H hstep hfair =>
      (fair_step_iff H hstep).2 ((fair_step_iff H hstep).1.mp hfair)
    exact Run.allSteps_congr hiff hkeep es nofun

end

/-- A chip with ten cores. -/
def tenCores : Chip := ⟨10, by decide⟩

/-- Two nonces of one work, the second of which shows more progress. -/
theorem not_fair_second : ¬Run.AllSteps (step tenCores) (fun _ _ s' => s'.Fair tenCores) init
    [.append, .result ⟨1, 0, some (5, true)⟩, .result ⟨1, 0, some (9, true)⟩] := by
  intro H
  have hfair := ((((H _ rfl).2 _ rfl).2 _ rfl).1 ⟨0, 1, true, 4, 9, false, some 9⟩ (by decide)).eq
    rfl 9 rfl
  exact absurd hfair (by decide)

end Minion
end MassGridMiner

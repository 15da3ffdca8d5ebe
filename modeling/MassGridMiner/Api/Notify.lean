import MassGridMiner.Api.Fields
import MassGridMiner.Lib.Records
import MassGridMiner.Lib.Run

/-!
# Errors of a device

`dev_error` counts an error of a processor and notes its time.  `notifystatus` goes over the
processors of a device for the one that was the last not well.  It adds the counters of a
processor in the branch where a later time is found, and so only those of the records.

## Main definitions

* `ApiState.devError` — an error of a processor.
* `NotifiesRight` — what is to be shown of a device.
* `notifiesRight_iff` — it is shown where each processor with errors is a record, no sum overflows,
  and the last one was not throttled.
-/

namespace MassGridMiner

open CStr Records

/-! ## Counting errors -/

/-- `enum dev_reason`, in its order, which is that of the counters. -/
def DevReason.all : List DevReason :=
  [.threadFailInit, .threadZeroHash, .threadFailQueue, .devSickIdle60, .devDeadIdle600, .devNostart,
    .devOverHeat, .devThermalCutoff, .devCommsError, .devThrottle]

/-- The texts of the reasons. -/
def DevReason.str : DevReason → CStr
  | .devThrottle => cstr "Device throttle"
  | reason => reason.text

/-- The counter for a reason. -/
def Cgpu.notWellCount (dev : Cgpu) : DevReason → Int32
  | .threadFailInit => dev.threadFailInitCount
  | .threadZeroHash => dev.threadZeroHashCount
  | .threadFailQueue => dev.threadFailQueueCount
  | .devSickIdle60 => dev.devSickIdle60Count
  | .devDeadIdle600 => dev.devDeadIdle600Count
  | .devNostart => dev.devNostartCount
  | .devOverHeat => dev.devOverHeatCount
  | .devThermalCutoff => dev.devThermalCutoffCount
  | .devCommsError => dev.devCommsErrorCount
  | .devThrottle => dev.devThrottleCount

/-- `dev_error_update`. -/
def Cgpu.devErrorUpdate (dev : Cgpu) (time : Int64) (reason : DevReason) : Cgpu :=
  { dev with deviceLastNotWell := time, deviceNotWellReason := reason }

/-- `dev_error`. -/
def Cgpu.devError (dev : Cgpu) (time : Int64) (reason : DevReason) : Cgpu :=
  let dev := dev.devErrorUpdate time reason
  match reason with
  | .threadFailInit => { dev with threadFailInitCount := dev.threadFailInitCount + 1 }
  | .threadZeroHash => { dev with threadZeroHashCount := dev.threadZeroHashCount + 1 }
  | .threadFailQueue => { dev with threadFailQueueCount := dev.threadFailQueueCount + 1 }
  | .devSickIdle60 => { dev with devSickIdle60Count := dev.devSickIdle60Count + 1 }
  | .devDeadIdle600 => { dev with devDeadIdle600Count := dev.devDeadIdle600Count + 1 }
  | .devNostart => { dev with devNostartCount := dev.devNostartCount + 1 }
  | .devOverHeat => { dev with devOverHeatCount := dev.devOverHeatCount + 1 }
  | .devThermalCutoff => { dev with devThermalCutoffCount := dev.devThermalCutoffCount + 1 }
  | .devCommsError => { dev with devCommsErrorCount := dev.devCommsErrorCount + 1 }
  | .devThrottle => { dev with devThrottleCount := dev.devThrottleCount + 1 }

/-- An error of the processor at a position, at a time after 1970; it may be that no more than its
time is noted. -/
structure DevErrorCall where
  id : ℕ
  time : Int64
  time_pos : 0 < time
  reason : DevReason
  counted : Bool

/-- What the processor makes of it; a counter does not go above the greatest `int`. -/
def DevErrorCall.apply (call : DevErrorCall) (dev : Cgpu) : Option Cgpu :=
  if call.counted then
    if (dev.notWellCount call.reason).toInt = 2 ^ 31 - 1 then none
    else some (dev.devError call.time call.reason)
  else some (dev.devErrorUpdate call.time call.reason)

/-- An error of one of the processors. -/
def ApiState.devError (st : ApiState) (call : DevErrorCall) : Option ApiState :=
  st.devices[call.id]?.bind fun dev =>
    (call.apply dev).map fun dev => { st with devices := st.devices.set call.id dev }

/-- A processor without an error. -/
def Cgpu.IsNew (dev : Cgpu) : Prop :=
  dev.deviceLastNotWell = 0 ∧ ∀ reason, dev.notWellCount reason = 0

/-- What the errors of a processor keep. -/
structure Cgpu.Counts (dev : Cgpu) : Prop where
  count_nonneg : ∀ reason, 0 ≤ (dev.notWellCount reason).toInt
  time_nonneg : 0 ≤ dev.deviceLastNotWell.toInt
  time_pos : ∀ reason, dev.notWellCount reason ≠ 0 → 0 < dev.deviceLastNotWell.toInt

theorem Cgpu.IsNew.counts {dev : Cgpu} (h : dev.IsNew) : dev.Counts := by
  refine ⟨fun reason => ?_, ?_, fun reason hcount => absurd (h.2 reason) hcount⟩
  · rw [h.2 reason]
    decide
  · rw [h.1]
    decide

theorem Cgpu.notWellCount_devError (dev : Cgpu) (time : Int64) (reason other : DevReason) :
    (dev.devError time reason).notWellCount other =
      if other = reason then dev.notWellCount other + 1 else dev.notWellCount other := by
  cases reason <;> cases other <;> rfl

theorem Cgpu.deviceLastNotWell_devError (dev : Cgpu) (time : Int64) (reason : DevReason) :
    (dev.devError time reason).deviceLastNotWell = time := by
  cases reason <;> rfl

theorem Cgpu.Counts.apply {dev dev' : Cgpu} (h : dev.Counts) {call : DevErrorCall}
    (happly : call.apply dev = some dev') : dev'.Counts := by
  have htime : 0 < call.time.toInt := by simpa using Int64.lt_iff_toInt_lt.mp call.time_pos
  rw [DevErrorCall.apply] at happly
  split at happly
  · split at happly
    · cases happly
    · next hmax =>
      obtain rfl := Option.some.inj happly
      rw [← Cgpu.deviceLastNotWell_devError dev call.time call.reason] at htime
      refine ⟨fun other => ?_, htime.le, fun _ _ => htime⟩
      rw [Cgpu.notWellCount_devError]
      have hnonneg := h.count_nonneg other
      split
      · next heq =>
        have hlt := (dev.notWellCount other).toInt_lt
        rw [← heq] at hmax
        rw [Int32.toInt_add, Int32.toInt_one, Int.bmod_eq_of_le (by omega) (by omega)]
        omega
      · exact hnonneg
  · obtain rfl := Option.some.inj happly
    exact ⟨h.count_nonneg, htime.le, fun _ _ => htime⟩

/-- What holds of each processor. -/
def ApiState.Counts (st : ApiState) : Prop := ∀ dev ∈ st.devices, dev.Counts

theorem ApiState.Counts.devError {st st' : ApiState} (h : st.Counts) {call : DevErrorCall}
    (hstep : st.devError call = some st') : st'.Counts := by
  obtain ⟨dev, hdev, hstep⟩ := Option.bind_eq_some_iff.mp hstep
  obtain ⟨dev', happly, rfl⟩ := Option.map_eq_some_iff.mp hstep
  intro other hother
  rcases List.mem_or_eq_of_mem_set hother with hmem | rfl
  · exact h other hmem
  · exact (h dev (List.mem_of_getElem? hdev)).apply happly

theorem ApiState.counts_of_run {st st' : ApiState} {calls : List DevErrorCall}
    (hnew : ∀ dev ∈ st.devices, dev.IsNew) (hrun : Run.exec ApiState.devError st calls = some st') :
    st'.Counts :=
  Run.exec_of_invariant (fun _ _ _ h hstep => h.devError hstep) (fun dev hdev => (hnew dev hdev).counts)
    hrun

/-! ## What is shown -/

/-- The name under which the counter for a reason is shown. -/
def DevReason.counterName : DevReason → String
  | .threadFailInit => "*Thread Fail Init"
  | .threadZeroHash => "*Thread Zero Hash"
  | .threadFailQueue => "*Thread Fail Queue"
  | .devSickIdle60 => "*Dev Sick Idle 60s"
  | .devDeadIdle600 => "*Dev Dead Idle 600s"
  | .devNostart => "*Dev Nostart"
  | .devOverHeat => "*Dev Over Heat"
  | .devThermalCutoff => "*Dev Thermal Cutoff"
  | .devCommsError => "*Dev Comms Error"
  | .devThrottle => "*Dev Throttle"

/-- The time at which a processor was last not well. -/
def Cgpu.lastNotWell (dev : Cgpu) : ℤ := dev.deviceLastNotWell.toInt

/-- The sum of a counter over some processors. -/
def countSum (procs : List Cgpu) (reason : DevReason) : ℤ :=
  (procs.map fun proc => (proc.notWellCount reason).toInt).sum

/-- The reason that is to be shown: that of a processor that was not well at the latest time. -/
def ReasonRight (procs : List Cgpu) (text : CStr) : Prop :=
  if ∀ proc ∈ procs, proc.lastNotWell = 0 then text = cstr "None"
  else ∃ proc ∈ procs, (∀ other ∈ procs, other.lastNotWell ≤ proc.lastNotWell) ∧
    text = proc.deviceNotWellReason.str

/-- The list that `notifystatus` makes, with a time, a reason and counters. -/
def notWellFields (device : ℕ) (cgpu : Cgpu) (time : Int64) (text : CStr)
    (counts : DevReason → Int32) : List ApiField :=
  [field "NOTIFY" (.int (Int32.ofNat device))] ++ deviceIdentifier false cgpu ++
    [field "Last Not Well" (.time time), field "Reason Not Well" (.string text)] ++
    DevReason.all.map fun reason => field reason.counterName (.int (counts reason))

/-- In device mode each counter that is shown is the sum over the processors of the device, and
the reason is that of one that was the last not well. -/
def NotifiesRight (st : ApiState) (device : ℕ) (cgpu : Cgpu) : Prop :=
  ∃ time text counts, notifystatusFields st false device cgpu =
      notWellFields device cgpu time text counts ∧
    (∀ reason, (counts reason).toInt = countSum (procsOf st false cgpu) reason) ∧
    ReasonRight (procsOf st false cgpu) text

/-- The processors whose errors are shown as they are to be. -/
structure Reportable (procs : List Cgpu) : Prop where
  fits : ∀ reason, countSum procs reason < 2 ^ 31
  later : ∀ (i : ℕ) proc, procs[i]? = some proc → (∃ reason, proc.notWellCount reason ≠ 0) →
    ∀ other ∈ procs.take i, other.lastNotWell < proc.lastNotWell
  known : ∀ (i : ℕ) proc, procs[i]? = some proc → 0 < proc.lastNotWell →
    (∀ other ∈ procs, other.lastNotWell ≤ proc.lastNotWell) →
    (∀ other ∈ procs.take i, other.lastNotWell < proc.lastNotWell) →
    proc.deviceNotWellReason ≠ .devThrottle

/-! ## The loop -/

/-- What the loop has found, with its counters by their reasons. -/
def NotWell.of (last : Int64) (reason : Option DevReason) (counts : DevReason → Int32) : NotWell :=
  ⟨last, reason, DevReason.all.map counts⟩

/-- The processors whose counters are added. -/
abbrev latest (last : Int64) (procs : List Cgpu) : List Cgpu :=
  records Cgpu.lastNotWell last.toInt procs

theorem NotWell.add_of (last : Int64) (reason : Option DevReason) (counts : DevReason → Int32)
    (proc : Cgpu) :
    (NotWell.of last reason counts).add proc =
      if last < proc.deviceLastNotWell then
        .of proc.deviceLastNotWell (some proc.deviceNotWellReason)
          fun r => counts r + proc.notWellCount r
      else .of last reason counts := by
  have hcounts : proc.notWellCounts = DevReason.all.map proc.notWellCount := rfl
  by_cases hnew : last < proc.deviceLastNotWell
  · refine (if_pos hnew).trans ((?_ : _ = _).trans (if_pos hnew).symm)
    rw [hcounts, NotWell.of, NotWell.of, List.zipWith_map, List.zipWith_self]
  · exact (if_neg hnew).trans (if_neg hnew).symm

/-- The loop adds up the records, and has the time and the reason of the last of them. -/
theorem foldl_add_eq (procs : List Cgpu) (last : Int64) (reason : Option DevReason)
    (counts : DevReason → Int32) :
    procs.foldl NotWell.add (.of last reason counts) =
      .of (((latest last procs).getLast?.map Cgpu.deviceLastNotWell).getD last)
        (((latest last procs).getLast?.map Cgpu.deviceNotWellReason).or reason)
        fun r => (latest last procs).foldl (fun sum proc => sum + proc.notWellCount r) (counts r) := by
  induction procs generalizing last reason counts with
  | nil => rfl
  | cons proc procs ih =>
      have hlt : last < proc.deviceLastNotWell ↔ last.toInt < proc.lastNotWell :=
        Int64.lt_iff_toInt_lt
      rw [List.foldl_cons, NotWell.add_of]
      by_cases hnew : last < proc.deviceLastNotWell
      · have hlatest : latest last (proc :: procs) =
            proc :: latest proc.deviceLastNotWell procs := if_pos (hlt.mp hnew)
        rw [if_pos hnew, ih, hlatest, List.getLast?_cons]
        cases (latest proc.deviceLastNotWell procs).getLast? <;> rfl
      · have hlatest : latest last (proc :: procs) = latest last procs :=
          if_neg (hlt.not.mp hnew)
        rw [if_neg hnew, ih, hlatest]

/-- A counter, as the loop adds it up. -/
def countShown (procs : List Cgpu) (reason : DevReason) : Int32 :=
  (latest 0 procs).foldl (fun sum proc => sum + proc.notWellCount reason) 0

/-- The reason, as the loop finds it. -/
def reasonShown (procs : List Cgpu) : CStr :=
  (((latest 0 procs).getLast?.map Cgpu.deviceNotWellReason).map DevReason.text).getD (cstr "None")

/-- A sum of counters does not overflow as long as it is small. -/
theorem toInt_foldl_add {procs : List Cgpu} (h : ∀ proc ∈ procs, proc.Counts) (reason : DevReason)
    {sum : Int32} (hsum : 0 ≤ sum.toInt) (hlt : sum.toInt + countSum procs reason < 2 ^ 31) :
    (procs.foldl (fun sum proc => sum + proc.notWellCount reason) sum).toInt =
      sum.toInt + countSum procs reason := by
  induction procs generalizing sum with
  | nil => simp [countSum]
  | cons proc procs ih =>
      have hall : ∀ other ∈ procs, other.Counts := fun other hother =>
        h other (List.mem_cons_of_mem _ hother)
      have hnonneg := (h proc List.mem_cons_self).count_nonneg reason
      have hrest : 0 ≤ countSum procs reason := List.sum_nonneg fun n hn => by
        obtain ⟨other, hother, rfl⟩ := List.mem_map.mp hn
        exact (hall other hother).count_nonneg reason
      have hcons : countSum (proc :: procs) reason =
          (proc.notWellCount reason).toInt + countSum procs reason := by
        simp [countSum]
      have hadd : (sum + proc.notWellCount reason).toInt =
          sum.toInt + (proc.notWellCount reason).toInt := by
        rw [Int32.toInt_add, Int.bmod_eq_of_le (by omega) (by omega)]
      rw [List.foldl_cons, ih hall (by omega) (by omega), hadd, hcons, add_assoc]

theorem countSum_nonneg {procs : List Cgpu} (h : ∀ proc ∈ procs, proc.Counts)
    (reason : DevReason) : 0 ≤ countSum procs reason := by
  refine List.sum_nonneg fun n hn => ?_
  obtain ⟨proc, hproc, rfl⟩ := List.mem_map.mp hn
  exact (h proc hproc).count_nonneg reason

/-- The counters that are not added up are zero where each processor with errors is a record. -/
theorem countSum_overtaken_iff {procs : List Cgpu} (h : ∀ proc ∈ procs, proc.Counts) :
    (∀ reason, countSum (overtaken Cgpu.lastNotWell 0 procs) reason = 0) ↔
      ∀ (i : ℕ) proc, procs[i]? = some proc → (∃ reason, proc.notWellCount reason ≠ 0) →
        ∀ other ∈ procs.take i, other.lastNotWell < proc.lastNotWell := by
  have hzero : (∀ reason, countSum (overtaken Cgpu.lastNotWell 0 procs) reason = 0) ↔
      ∀ proc ∈ overtaken Cgpu.lastNotWell 0 procs, ∀ reason, proc.notWellCount reason = 0 := by
    constructor
    · intro hsum proc hproc reason
      have hall : ∀ n ∈ (overtaken Cgpu.lastNotWell 0 procs).map
          fun other => (Cgpu.notWellCount other reason).toInt, 0 ≤ n := by
        intro n hn
        obtain ⟨other, hother, rfl⟩ := List.mem_map.mp hn
        exact (h other (mem_of_mem_overtaken hother)).count_nonneg reason
      exact Int32.toInt_inj.mp (List.all_zero_of_le_zero_le_of_sum_eq_zero hall (hsum reason)
        (List.mem_map_of_mem hproc))
    · intro hall reason
      refine List.sum_eq_zero fun n hn => ?_
      obtain ⟨proc, hproc, rfl⟩ := List.mem_map.mp hn
      rw [hall proc hproc reason]
      rfl
  rw [hzero, forall_overtaken_iff]
  constructor
  · rintro hall i proc hget ⟨reason, hcount⟩
    exact (hall i proc hget fun hz => hcount (hz reason)).2
  · intro hall i proc hget hnot
    obtain ⟨reason, hcount⟩ := not_forall.mp hnot
    exact ⟨(h proc (List.mem_of_getElem? hget)).time_pos reason hcount,
      hall i proc hget ⟨reason, hcount⟩⟩

/-- The counters are the sums. -/
theorem counts_right_iff {procs : List Cgpu} (h : ∀ proc ∈ procs, proc.Counts) :
    (∀ reason, (countShown procs reason).toInt = countSum procs reason) ↔
      (∀ reason, countSum procs reason < 2 ^ 31) ∧
        ∀ (i : ℕ) proc, procs[i]? = some proc → (∃ reason, proc.notWellCount reason ≠ 0) →
          ∀ other ∈ procs.take i, other.lastNotWell < proc.lastNotWell := by
  have hlatest : ∀ proc ∈ latest 0 procs, proc.Counts := fun proc hproc =>
    h proc (mem_of_mem_records hproc)
  have hrest : ∀ reason, 0 ≤ countSum (overtaken Cgpu.lastNotWell 0 procs) reason :=
    countSum_nonneg fun proc hproc => h proc (mem_of_mem_overtaken hproc)
  have hsplit : ∀ reason, countSum (latest 0 procs) reason +
      countSum (overtaken Cgpu.lastNotWell 0 procs) reason = countSum procs reason := fun reason =>
    sum_records_add_sum_overtaken fun proc : Cgpu => (proc.notWellCount reason).toInt
  have hfold : ∀ reason, countSum (latest 0 procs) reason < 2 ^ 31 →
      (countShown procs reason).toInt = countSum (latest 0 procs) reason := by
    intro reason hlt
    have hsum := toInt_foldl_add hlatest reason (show 0 ≤ (0 : Int32).toInt by decide) (by simpa using hlt)
    exact hsum.trans (by simp)
  rw [← countSum_overtaken_iff h]
  constructor
  · intro hshown
    have hfits : ∀ reason, countSum procs reason < 2 ^ 31 := fun reason =>
      hshown reason ▸ Int32.toInt_lt _
    refine ⟨hfits, fun reason => ?_⟩
    have hle := hsplit reason
    have hnonneg := hrest reason
    have hlt := hfits reason
    have heq := hshown reason
    rw [hfold reason (by omega)] at heq
    omega
  · rintro ⟨hfits, hzero⟩ reason
    have hle := hsplit reason
    rw [hzero reason, add_zero] at hle
    rw [hfold reason (hle ▸ hfits reason), hle]

/-! ## The reason -/

theorem DevReason.text_throttle_ne (reason : DevReason) : devThrottle.text ≠ reason.str := by
  cases reason <;> decide +kernel

/-- The reason is that of a processor with the latest time, unless that is not known. -/
theorem reason_right_iff {procs : List Cgpu} (h : ∀ proc ∈ procs, proc.Counts) :
    ReasonRight procs (reasonShown procs) ↔
      ∀ (i : ℕ) proc, procs[i]? = some proc → 0 < proc.lastNotWell →
        (∀ other ∈ procs, other.lastNotWell ≤ proc.lastNotWell) →
        (∀ other ∈ procs.take i, other.lastNotWell < proc.lastNotWell) →
        proc.deviceNotWellReason ≠ .devThrottle := by
  have hlast := getLast?_records Cgpu.lastNotWell 0 procs
  have hshown : reasonShown procs =
      (((records Cgpu.lastNotWell 0 procs).getLast?.map Cgpu.deviceNotWellReason).map
        DevReason.text).getD (cstr "None") := rfl
  rw [hshown]
  cases hget : (records Cgpu.lastNotWell 0 procs).getLast? with
  | none =>
      rw [hget] at hlast
      have hall : ∀ proc ∈ procs, proc.lastNotWell = 0 := fun proc hproc =>
        le_antisymm (hlast proc hproc) (h proc hproc).time_nonneg
      rw [ReasonRight, if_pos hall]
      refine ⟨fun _ i proc hproc hpos => ?_, fun _ => rfl⟩
      have hzero := hall proc (List.mem_of_getElem? hproc)
      omega
  | some proc =>
      rw [hget] at hlast
      obtain ⟨hpos, hmax, i, hproc, hfirst⟩ := hlast
      have hmem : proc ∈ procs := List.mem_of_getElem? hproc
      have hnot : ¬∀ proc ∈ procs, proc.lastNotWell = 0 := fun hall => by
        have hzero := hall proc hmem
        omega
      rw [ReasonRight, if_neg hnot]
      constructor
      · rintro ⟨other, -, -, htext⟩ j first hj hfpos hfmax hffirst heq
        have hsame : i = j := by
          rcases Nat.lt_trichotomy i j with hij | hij | hij
          · have hlt := hffirst proc (List.mem_of_getElem? (by rw [List.getElem?_take_of_lt hij, hproc]))
            exact absurd hlt (not_lt.mpr (hmax first (List.mem_of_getElem? hj)))
          · exact hij
          · have hlt := hfirst first (List.mem_of_getElem? (by rw [List.getElem?_take_of_lt hij, hj]))
            exact absurd hlt (not_lt.mpr (hfmax proc hmem))
        subst hsame
        obtain rfl : proc = first := Option.some.inj (hproc.symm.trans hj)
        rw [Option.map_some, Option.map_some, Option.getD_some, heq] at htext
        exact DevReason.text_throttle_ne _ htext
      · intro hknown
        refine ⟨proc, hmem, hmax, ?_⟩
        have hreason := hknown i proc hproc hpos hmax hfirst
        rw [Option.map_some, Option.map_some, Option.getD_some]
        cases hr : proc.deviceNotWellReason <;> first | rfl | exact absurd hr hreason

/-- The processors that are gone through are in the table. -/
theorem mem_of_mem_procChain {st : ApiState} {n : ℕ} {start : Option Cgpu}
    (hstart : ∀ proc ∈ start, proc ∈ st.devices) {proc : Cgpu} (h : proc ∈ procChain st n start) :
    proc ∈ st.devices := by
  induction n generalizing start with
  | zero => cases start <;> cases h
  | succ n ih =>
      cases start with
      | none => cases h
      | some first =>
          rcases List.mem_cons.mp h with rfl | hrest
          · exact hstart proc rfl
          · refine ih (fun next hnext => ?_) hrest
            obtain ⟨i, -, hget⟩ := Option.bind_eq_some_iff.mp hnext
            exact List.mem_of_getElem? hget

/-- What `notifystatus` shows in device mode. -/
theorem notifystatusFields_eq (st : ApiState) (device : ℕ) (cgpu : Cgpu) :
    notifystatusFields st false device cgpu =
      notWellFields device cgpu
        (((latest 0 (procsOf st false cgpu)).getLast?.map Cgpu.deviceLastNotWell).getD 0)
        (reasonShown (procsOf st false cgpu)) (countShown (procsOf st false cgpu)) := by
  have hstart : (⟨0, none, List.replicate 10 0⟩ : NotWell) = .of 0 none fun _ => 0 := rfl
  have hnames : notWellNames = DevReason.all.map DevReason.counterName := rfl
  rw [notifystatusFields, hstart, foldl_add_eq, hnames]
  dsimp only [NotWell.of]
  rw [List.zipWith_map, List.zipWith_self, Option.or_none]
  simp only [Bool.false_eq_true, if_false, List.append_nil]
  rfl

/-- What is shown says what it is made of. -/
theorem notWellFields_inj {device : ℕ} {cgpu : Cgpu} {time time' : Int64} {text text' : CStr}
    {counts counts' : DevReason → Int32}
    (h : notWellFields device cgpu time text counts = notWellFields device cgpu time' text' counts') :
    text = text' ∧ counts = counts' := by
  simp only [notWellFields, DevReason.all, List.map_cons, List.map_nil, List.append_assoc,
    List.append_cancel_left_eq, List.cons_append, List.nil_append, List.cons.injEq, field,
    ApiField.mk.injEq, ApiData.time.injEq, ApiData.string.injEq, ApiData.int.injEq, true_and,
    and_true] at h
  refine ⟨h.2.1, funext fun reason => ?_⟩
  cases reason <;> simp only [h]

/-- **`notifystatus` shows the errors of a device** exactly where each processor with errors was
not well later than those in front of it, the sums fit, and the last one not well was not
throttled. -/
theorem notifiesRight_iff {st st' : ApiState} {calls : List DevErrorCall}
    (hnew : ∀ dev ∈ st.devices, dev.IsNew) (hrun : Run.exec ApiState.devError st calls = some st')
    {cgpu : Cgpu} (hcgpu : cgpu ∈ st'.devices) (device : ℕ) :
    NotifiesRight st' device cgpu ↔ Reportable (procsOf st' false cgpu) := by
  have hcounts : ∀ proc ∈ procsOf st' false cgpu, proc.Counts := fun proc hproc =>
    ApiState.counts_of_run hnew hrun proc (mem_of_mem_procChain
      (fun first hfirst => Option.some.inj hfirst ▸ hcgpu) hproc)
  have hshown := notifystatusFields_eq st' device cgpu
  have hiff : NotifiesRight st' device cgpu ↔
      (∀ reason, (countShown (procsOf st' false cgpu) reason).toInt =
        countSum (procsOf st' false cgpu) reason) ∧
      ReasonRight (procsOf st' false cgpu) (reasonShown (procsOf st' false cgpu)) := by
    constructor
    · rintro ⟨time, text, counts, heq, hsum, hreason⟩
      obtain ⟨rfl, rfl⟩ := notWellFields_inj (heq.symm.trans hshown)
      exact ⟨hsum, hreason⟩
    · rintro ⟨hsum, hreason⟩
      exact ⟨_, _, _, hshown, hsum, hreason⟩
  rw [hiff, counts_right_iff hcounts, reason_right_iff hcounts]
  constructor
  · rintro ⟨⟨hfits, hlater⟩, hknown⟩
    exact ⟨hfits, hlater, hknown⟩
  · rintro ⟨hfits, hlater, hknown⟩
    exact ⟨⟨hfits, hlater⟩, hknown⟩

deriving instance Inhabited for Timeval, Alive, DevReason, DevEnable, ApiDrv
deriving instance Inhabited for CgminerStats
deriving instance Inhabited for Cgpu

/-- A device of two processors. -/
def twoProcs : ApiState :=
  { (default : ApiState) with
    devices := [{ (default : Cgpu) with procs := 2, nextProc := some 1 },
      { (default : Cgpu) with cgminerId := 1, procs := 2, procId := 1 }] }

theorem isNew_twoProcs : ∀ dev ∈ twoProcs.devices, dev.IsNew := by
  intro dev hdev
  obtain rfl | rfl := List.mem_pair.mp hdev <;>
    exact ⟨rfl, fun reason => by cases reason <;> rfl⟩

theorem notifiesRight_twoProcs :
    ∃ st, Run.exec ApiState.devError twoProcs [⟨1, 1, by decide, .devCommsError, true⟩] = some st ∧
      ∃ cgpu ∈ st.devices, NotifiesRight st 0 cgpu := by
  refine ⟨_, rfl, { (default : Cgpu) with procs := 2, nextProc := some 1 }, .head _,
    (@notifiesRight_iff twoProcs _ [⟨1, 1, by decide, .devCommsError, true⟩] isNew_twoProcs rfl _
      (.head _) 0).mpr ⟨fun reason => ?_, ?_, ?_⟩⟩
  · cases reason <;> decide
  · rintro (_ | _ | i) proc hproc -
    · exact fun other hother => by cases hother
    · obtain rfl := Option.some.inj hproc
      intro other hother
      obtain rfl := List.mem_singleton.mp hother
      decide
    · cases hproc
  · rintro (_ | _ | i) proc hproc - - -
    · obtain rfl := Option.some.inj hproc
      decide
    · obtain rfl := Option.some.inj hproc
      decide
    · cases hproc

/-- The error of the second processor is not counted once the first one has a later one. -/
theorem not_notifiesRight_earlier :
    ∃ st, Run.exec ApiState.devError twoProcs
        [⟨1, 1, by decide, .devCommsError, true⟩, ⟨0, 2, by decide, .devOverHeat, true⟩] = some st ∧
      ∃ cgpu ∈ st.devices, ¬NotifiesRight st 0 cgpu := by
  refine ⟨_, rfl, _, .head _, ?_⟩
  rintro ⟨time, text, counts, heq, hsum, -⟩
  obtain ⟨-, rfl⟩ := notWellFields_inj (heq.symm.trans (notifystatusFields_eq _ _ _))
  exact absurd (hsum .devCommsError) (by decide)

end MassGridMiner

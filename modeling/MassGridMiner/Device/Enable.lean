import MassGridMiner.Device.Match
import Mathlib.Logic.Function.Basic

/-!
# Enabling devices

With `--device` patterns a processor is enabled where one of them matches it.  At startup all
devices are registered, which enables them, and then allocated, which compares them with the
patterns.  A device that is added later is allocated first: `sameDeven_iff` says when that makes
no difference.  What a driver makes of a processor whose threads run is left out.

## Main definitions

* `DeviceTable` — the table of the devices, and what is enabled.
* `DeviceTable.startup`, `DeviceTable.createNewCgpus` — the two orders.
* `SameDeven` — a processor ends in the same state in both.
-/

namespace MassGridMiner

/-- `enum dev_enable`. -/
inductive DevEnable
  | enabled
  | disabled
  | recover
  | recoverErr
  | recoverDrv
  deriving DecidableEq, Repr

/-- The devices with what the registration counts; and for each processor its number, that of its
line, its `deven`, and whether its threads were started with it enabled. -/
structure DeviceTable where
  devices : List CgpuInfo
  totalDevices : ℕ
  cgminerIdCount : ℕ
  deviceLineIdCount : ℕ
  miningThreads : ℕ
  baseQueue : ℕ
  cgminerId : CgpuInfo → ℕ
  deviceLineId : CgpuInfo → ℕ
  deven : CgpuInfo → DevEnable
  procEnabled : CgpuInfo → Bool

namespace DeviceTable

/-- `register_device`. -/
def registerDevice (s : DeviceTable) (cgpu : CgpuInfo) : DeviceTable :=
  let id := s.cgminerIdCount
  let first := cgpu.procId = 0
  let thrObjs := if cgpu.threads = 0 then 1 else cgpu.threads
  { s with
    deven := Function.update s.deven cgpu .enabled
    devices := s.devices.take id ++ cgpu :: s.devices.drop (id + 1)
    cgminerId := Function.update s.cgminerId cgpu id
    cgminerIdCount := id + 1
    deviceLineId :=
      if first then Function.update s.deviceLineId cgpu s.deviceLineIdCount else s.deviceLineId
    deviceLineIdCount := if first then s.deviceLineIdCount + 1 else s.deviceLineIdCount
    miningThreads := s.miningThreads + thrObjs
    baseQueue := s.baseQueue + (thrObjs + cgpu.extraWorkQueue) }

section
variable (stat : List UInt8 → Option (List UInt8)) (optDevicesEnabledList : List CStr)

/-- A processor is matched by one of the patterns. -/
def isListed (s : DeviceTable) (cgpu : CgpuInfo) : Bool :=
  optDevicesEnabledList.any fun enablestr =>
    cgpuMatch stat s.devices s.totalDevices enablestr.bytes cgpu

/-- `allocate_cgpu`, as far as the patterns go. -/
def allocateCgpu (s : DeviceTable) (cgpu : CgpuInfo) : DeviceTable :=
  if optDevicesEnabledList.isEmpty then s
  else
    { s with
      deven := Function.update s.deven cgpu
        (if isListed stat optDevicesEnabledList s cgpu then .enabled else .disabled) }

/-- `start_cgpu`, up to the threads. -/
def startCgpu (s : DeviceTable) (cgpu : CgpuInfo) : DeviceTable :=
  { s with
    procEnabled :=
      if s.deven cgpu = .enabled then Function.update s.procEnabled cgpu true else s.procEnabled }

/-- Before the devices are detected. -/
def init (deven : CgpuInfo → DevEnable) : DeviceTable where
  devices := []
  totalDevices := 0
  cgminerIdCount := 0
  deviceLineIdCount := 0
  miningThreads := 0
  baseQueue := 0
  cgminerId _ := 0
  deviceLineId _ := 0
  deven := deven
  procEnabled _ := false

/-- What `main` does with the devices that it detects. -/
def startup (s : DeviceTable) (detected : List CgpuInfo) : DeviceTable :=
  let s := { s with devices := detected, totalDevices := detected.length, miningThreads := 0 }
  let s := detected.foldl registerDevice s
  let s := detected.foldl (allocateCgpu stat optDevicesEnabledList) s
  detected.foldl startCgpu s

/-- The second loop of `create_new_cgpus`. -/
def addCgpu (s : DeviceTable) (cgpu : CgpuInfo) : DeviceTable :=
  let s := (s.startCgpu cgpu).registerDevice cgpu
  { s with totalDevices := s.totalDevices + 1 }

/-- `create_new_cgpus`, where `addfunc` finds the devices `devicesNew`. -/
def createNewCgpus (s : DeviceTable) (devicesNew : List CgpuInfo) : DeviceTable :=
  if devicesNew.isEmpty then s
  else
    let s := devicesNew.foldl (allocateCgpu stat optDevicesEnabledList) s
    devicesNew.foldl addCgpu s

end

/-! ## The loops -/

variable {stat : List UInt8 → Option (List UInt8)} {optDevicesEnabledList : List CStr}

/-- A loop that changes one processor after the other leaves the others alone. -/
theorem deven_foldl_of_notMem {f : DeviceTable → CgpuInfo → DeviceTable}
    (hf : ∀ s cgpu other, other ≠ cgpu → (f s cgpu).deven other = s.deven other)
    {cgpu : CgpuInfo} {cgpus : List CgpuInfo} (H : cgpu ∉ cgpus) (s : DeviceTable) :
    (cgpus.foldl f s).deven cgpu = s.deven cgpu := by
  induction cgpus generalizing s with
  | nil => rfl
  | cons other rest ih =>
      obtain ⟨hne, hrest⟩ := List.ne_and_not_mem_of_not_mem_cons H
      rw [List.foldl_cons, ih hrest, hf s other cgpu hne]

/-- A loop that gives each processor a value gives it to those in its list. -/
theorem deven_foldl_of_mem (inv : DeviceTable → Prop) (value : CgpuInfo → DevEnable)
    {f : DeviceTable → CgpuInfo → DeviceTable}
    (hinv : ∀ s cgpu, inv s → inv (f s cgpu))
    (hf : ∀ s cgpu other, other ≠ cgpu → (f s cgpu).deven other = s.deven other)
    (hvalue : ∀ s cgpu, inv s → (f s cgpu).deven cgpu = value cgpu)
    {cgpu : CgpuInfo} {cgpus : List CgpuInfo} (H : cgpu ∈ cgpus) {s : DeviceTable} (hs : inv s) :
    (cgpus.foldl f s).deven cgpu = value cgpu := by
  induction cgpus generalizing s with
  | nil => cases H
  | cons other rest ih =>
      rw [List.foldl_cons]
      by_cases hrest : cgpu ∈ rest
      · exact ih hrest (hinv s other hs)
      · obtain rfl := (List.mem_cons.mp H).resolve_right hrest
        rw [deven_foldl_of_notMem hf hrest, hvalue s cgpu hs]

theorem deven_registerDevice (s : DeviceTable) (cgpu : CgpuInfo) :
    (s.registerDevice cgpu).deven = Function.update s.deven cgpu .enabled := rfl

theorem deven_addCgpu (s : DeviceTable) (cgpu : CgpuInfo) :
    (s.addCgpu cgpu).deven = Function.update s.deven cgpu .enabled := rfl

theorem deven_foldl_startCgpu (s : DeviceTable) (cgpus : List CgpuInfo) :
    (cgpus.foldl startCgpu s).deven = s.deven := by
  induction cgpus generalizing s with
  | nil => rfl
  | cons cgpu rest ih => exact ih (s.startCgpu cgpu)

/-- Registering the devices in their order writes the table as it is. -/
theorem foldl_registerDevice_table (s : DeviceTable) (before rest : List CgpuInfo)
    (hdevices : s.devices = before ++ rest) (hid : s.cgminerIdCount = before.length) :
    (rest.foldl registerDevice s).devices = s.devices ∧
      (rest.foldl registerDevice s).totalDevices = s.totalDevices := by
  induction rest generalizing s before with
  | nil => exact ⟨rfl, rfl⟩
  | cons cgpu rest ih =>
      have hwritten : (s.registerDevice cgpu).devices = s.devices := by
        simp only [registerDevice, hid, hdevices, List.take_left', List.drop_append,
          List.drop_eq_nil_of_le (Nat.le_succ before.length), Nat.add_sub_cancel_left,
          List.drop_succ_cons, List.drop_zero, List.nil_append]
      obtain ⟨hdevices', htotal⟩ := ih (s.registerDevice cgpu) (before ++ [cgpu])
        (by rw [hwritten, hdevices, List.append_assoc, List.singleton_append])
        (by rw [List.length_append, List.length_singleton, ← hid]; rfl)
      exact ⟨hdevices'.trans hwritten, htotal⟩

/-- A loop that enables each processor. -/
theorem deven_foldl_enabled {f : DeviceTable → CgpuInfo → DeviceTable}
    (hf : ∀ s cgpu, (f s cgpu).deven = Function.update s.deven cgpu .enabled) {cgpu : CgpuInfo}
    {cgpus : List CgpuInfo} (H : cgpu ∈ cgpus) (s : DeviceTable) :
    (cgpus.foldl f s).deven cgpu = .enabled := by
  refine deven_foldl_of_mem (fun _ => True) (fun _ => .enabled) (fun _ _ _ => trivial)
    (fun s cgpu other hne => ?_) (fun s cgpu _ => ?_) H trivial
  · rw [hf, Function.update_of_ne hne]
  · rw [hf, Function.update_self]

/-- Without patterns the allocation changes nothing. -/
theorem foldl_allocateCgpu_of_isEmpty (H : optDevicesEnabledList.isEmpty = true) (s : DeviceTable)
    (cgpus : List CgpuInfo) : cgpus.foldl (allocateCgpu stat optDevicesEnabledList) s = s := by
  induction cgpus with
  | nil => rfl
  | cons cgpu rest ih => rw [List.foldl_cons, allocateCgpu, if_pos H, ih]

/-- With patterns it compares each processor with them, in the table as it is. -/
theorem deven_foldl_allocateCgpu (H : ¬ optDevicesEnabledList.isEmpty = true) (s : DeviceTable)
    {cgpu : CgpuInfo} {cgpus : List CgpuInfo} (hmem : cgpu ∈ cgpus) :
    (cgpus.foldl (allocateCgpu stat optDevicesEnabledList) s).deven cgpu =
      if isListed stat optDevicesEnabledList s cgpu then .enabled else .disabled := by
  refine deven_foldl_of_mem (fun t => t.devices = s.devices ∧ t.totalDevices = s.totalDevices)
    (fun cgpu => if isListed stat optDevicesEnabledList s cgpu then .enabled else .disabled)
    (fun t cgpu ht => ?_) (fun t cgpu other hne => ?_) (fun t cgpu ht => ?_) hmem ⟨rfl, rfl⟩
  · rw [allocateCgpu, if_neg H]
    exact ht
  · rw [allocateCgpu, if_neg H]
    exact Function.update_of_ne hne _ _
  · rw [allocateCgpu, if_neg H, isListed, isListed, ht.1, ht.2]
    exact Function.update_self _ _ _

/-! ## The two orders -/

/-- A processor is matched by one of the patterns, in the table of all devices. -/
def IsMatched (stat : List UInt8 → Option (List UInt8)) (optDevicesEnabledList : List CStr)
    (devices : List CgpuInfo) (cgpu : CgpuInfo) : Prop :=
  ∃ enablestr ∈ optDevicesEnabledList,
    cgpuMatch stat devices devices.length enablestr.bytes cgpu = true

/-- Where a processor that is detected at startup ends. -/
theorem deven_startup (stat : List UInt8 → Option (List UInt8))
    (optDevicesEnabledList : List CStr) {s : DeviceTable} (hid : s.cgminerIdCount = 0)
    {detected : List CgpuInfo} {cgpu : CgpuInfo} (H : cgpu ∈ detected) :
    (optDevicesEnabledList = [] ∨ IsMatched stat optDevicesEnabledList detected cgpu →
        (s.startup stat optDevicesEnabledList detected).deven cgpu = .enabled) ∧
      (optDevicesEnabledList ≠ [] → ¬ IsMatched stat optDevicesEnabledList detected cgpu →
        (s.startup stat optDevicesEnabledList detected).deven cgpu = .disabled) := by
  obtain ⟨htable, htotal⟩ := foldl_registerDevice_table
    { s with devices := detected, totalDevices := detected.length, miningThreads := 0 } []
    detected rfl hid
  have henabled := deven_foldl_enabled deven_registerDevice H
    { s with devices := detected, totalDevices := detected.length, miningThreads := 0 }
  rw [startup, deven_foldl_startCgpu]
  generalize detected.foldl registerDevice
    { s with devices := detected, totalDevices := detected.length, miningThreads := 0 } =
      registered at *
  by_cases hnone : optDevicesEnabledList.isEmpty = true
  · rw [foldl_allocateCgpu_of_isEmpty hnone]
    exact ⟨fun _ => henabled, fun h => absurd (List.isEmpty_iff.mp hnone) h⟩
  · have hlisted : isListed stat optDevicesEnabledList registered cgpu = true ↔
        IsMatched stat optDevicesEnabledList detected cgpu := by
      rw [isListed, htable, htotal, List.any_eq_true]
      rfl
    rw [deven_foldl_allocateCgpu hnone registered H]
    constructor
    · rintro (hempty | hmatched)
      · exact absurd (List.isEmpty_iff.mpr hempty) hnone
      · rw [if_pos (hlisted.mpr hmatched)]
    · intro _ hunmatched
      rw [if_neg fun h => hunmatched (hlisted.mp h)]

/-- A processor that is added later ends enabled, whatever the patterns. -/
theorem deven_createNewCgpus (s : DeviceTable) {devicesNew : List CgpuInfo} {cgpu : CgpuInfo}
    (H : cgpu ∈ devicesNew) :
    (s.createNewCgpus stat optDevicesEnabledList devicesNew).deven cgpu = .enabled := by
  rw [createNewCgpus, if_neg fun h => List.ne_nil_of_mem H (List.isEmpty_iff.mp h)]
  exact deven_foldl_enabled deven_addCgpu H _

/-- The states that a processor ends in, added later and detected at startup, are the same, and
those that the patterns ask for. -/
structure SameDeven (optDevicesEnabledList : List CStr) (matched : Prop)
    (added detected : DevEnable) : Prop where
  eq : added = detected
  unmatched : optDevicesEnabledList ≠ [] → ¬ matched → added = .disabled ∧ detected = .disabled
  matching : matched → added = .enabled ∧ detected = .enabled

/-- **Adding devices later is the same as detecting them at startup exactly where there are no
patterns or they match all of them.** -/
theorem sameDeven_iff (stat : List UInt8 → Option (List UInt8)) (optDevicesEnabledList : List CStr)
    (deven : CgpuInfo → DevEnable) (s : DeviceTable) (devicesNew : List CgpuInfo) :
    (∀ cgpu ∈ devicesNew, SameDeven optDevicesEnabledList
        (IsMatched stat optDevicesEnabledList (s.devices ++ devicesNew) cgpu)
        ((s.createNewCgpus stat optDevicesEnabledList devicesNew).deven cgpu)
        (((init deven).startup stat optDevicesEnabledList (s.devices ++ devicesNew)).deven cgpu)) ↔
      optDevicesEnabledList = [] ∨ ∀ cgpu ∈ devicesNew,
        IsMatched stat optDevicesEnabledList (s.devices ++ devicesNew) cgpu := by
  have hadded : ∀ cgpu ∈ devicesNew,
      (s.createNewCgpus stat optDevicesEnabledList devicesNew).deven cgpu = .enabled :=
    fun cgpu hmem => deven_createNewCgpus s hmem
  constructor
  · intro hsame
    by_cases hnone : optDevicesEnabledList = []
    · exact .inl hnone
    · refine .inr fun cgpu hmem => by_contra fun hunmatched => ?_
      have hdisabled := ((hsame cgpu hmem).unmatched hnone hunmatched).1
      rw [hadded cgpu hmem] at hdisabled
      cases hdisabled
  · intro hall cgpu hmem
    have hstartup := deven_startup stat optDevicesEnabledList (s := init deven) rfl
      (List.mem_append_right s.devices hmem)
    have henabled := hstartup.1 (hall.imp id fun h => h cgpu hmem)
    refine ⟨(hadded cgpu hmem).trans henabled.symm, fun hsome hunmatched => ?_, fun _ => ?_⟩
    · exact absurd (hall.resolve_left hsome cgpu hmem) hunmatched
    · exact ⟨hadded cgpu hmem, henabled⟩

/-- A processor of a driver called TST. -/
def tstCgpu : CgpuInfo where
  ident := 1
  drv := ⟨.ofMem (literal "test"), .ofMem (literal "TST")⟩
  device := 1
  deviceId := 0
  procId := 0
  devicePath := none
  devSerial := none
  procs := [(1, 0)]
  threads := 1
  extraWorkQueue := 0

/-- It is added, while the patterns ask for drivers called ICA. -/
theorem not_sameDeven_tst :
    ¬ SameDeven [.ofMem (literal "ICA")]
      (IsMatched (fun _ => none) [.ofMem (literal "ICA")] [tstCgpu] tstCgpu)
      (((init fun _ => .enabled).createNewCgpus (fun _ => none) [.ofMem (literal "ICA")]
        [tstCgpu]).deven tstCgpu)
      (((init fun _ => .enabled).startup (fun _ => none) [.ofMem (literal "ICA")]
        [tstCgpu]).deven tstCgpu) := by
  intro h
  have hunmatched : ¬ IsMatched (fun _ => none) [.ofMem (literal "ICA")] [tstCgpu] tstCgpu := by
    rintro ⟨enablestr, hmem, hmatch⟩
    obtain rfl := List.mem_singleton.mp hmem
    exact absurd hmatch (by decide +kernel)
  have hdisabled := (h.unmatched (List.cons_ne_nil _ _) hunmatched).1
  rw [deven_createNewCgpus _ List.mem_cons_self] at hdisabled
  cases hdisabled

end DeviceTable

end MassGridMiner

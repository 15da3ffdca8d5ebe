import MassGridMiner.Device.Enable
import MassGridMiner.Lib.Run
import Mathlib.Data.List.Chain
import Mathlib.Data.List.Nodup

/-!
# Counting the processors

A driver adds a device with its processors, which are linked one to the next, and the devices
added are then registered.  A processor is counted by itself, or as the first of its device.
Counting forward finds the one with a number; the number of one is found by going back from device
to device.  The two agree because the processors of a device are next to each other.

## Main definitions

* `ProcTable` — the processors by their addresses, and the table.
* `ProcTable.step` — devices are added, registered or dropped.
* `ProcTable.numpgas`, `ProcTable.pgadevice`, `ProcTable.findIndexByCgpu` — the counting.
* `ProcTable.WellFormed` — what every run keeps.
* `findIndexByCgpu_pgadevice` — they are inverse to each other.
-/

namespace MassGridMiner

/-- A `struct cgpu_info`, as far as the table goes; its links are addresses. -/
structure ProcInfo where
  device : ℕ
  nextProc : Option ℕ
  procs : ℕ
  procId : ℕ
  cgminerId : ℕ
  deven : DevEnable

/-- The processors by their addresses, the table, and `devices_new`. -/
structure ProcTable where
  mem : ℕ → ProcInfo
  devices : List ℕ
  cgminerIdCount : ℕ
  devicesNew : List ℕ

namespace ProcTable

/-! ## Devices are added and registered -/

/-- A write to a processor. -/
def write (t : ProcTable) (p : ℕ) (f : ProcInfo → ProcInfo) : ProcTable :=
  { t with mem := Function.update t.mem p (f (t.mem p)) }

/-- A turn of the loop of `_add_cgpu`, with the processor whose link `nlp_p` is, and the memory
that it gets for the slave. -/
def addSlave (t : ProcTable) (cgpu i nlp slave : ℕ) : ProcTable :=
  let t := t.write slave fun _ => { t.mem cgpu with procId := i }
  let t := { t with devicesNew := t.devicesNew ++ [slave] }
  t.write nlp fun info => { info with nextProc := some slave }

/-- The loop of `_add_cgpu`. -/
def addSlaves (cgpu : ℕ) : ℕ → ℕ → List ℕ → ProcTable → ProcTable
  | _, nlp, [], t => t.write nlp fun info => { info with nextProc := none }
  | i, nlp, slave :: slaves, t => addSlaves cgpu (i + 1) slave slaves (t.addSlave cgpu i nlp slave)

/-- `_add_cgpu` in front of its loop. -/
def addFirst (t : ProcTable) (cgpu : ℕ) : ProcTable :=
  let t := t.write cgpu fun info =>
    { info with procs := if info.procs = 0 then 1 else info.procs, device := cgpu }
  { t with devicesNew := t.devicesNew ++ [cgpu] }

/-- `_add_cgpu`. -/
def addCgpu (t : ProcTable) (cgpu : ℕ) (slaves : List ℕ) : ProcTable :=
  let t := t.addFirst cgpu
  if 1 < (t.mem cgpu).procs then
    (addSlaves cgpu 1 cgpu slaves t).write cgpu fun info => { info with procId := 0 }
  else t

/-- `register_device`. -/
def registerDevice (t : ProcTable) (cgpu : ℕ) : ProcTable :=
  let id := t.cgminerIdCount
  { t with
    mem := Function.update t.mem cgpu { t.mem cgpu with deven := .enabled, cgminerId := id }
    devices := t.devices.take id ++ cgpu :: t.devices.drop (id + 1)
    cgminerIdCount := id + 1 }

/-- The loop that registers some processors. -/
def registerAll (t : ProcTable) (procs : List ℕ) : ProcTable := procs.foldl registerDevice t

/-- What becomes of the table: a driver adds a device, maybe behind the processors of another; and
those added are registered, or dropped. -/
inductive Act
  | addCgpu (cgpu : ℕ) (info : ProcInfo) (slaves : List ℕ)
  | addCgpuSlave (cgpu : ℕ) (info : ProcInfo) (slaves : List ℕ) (prev : ℕ)
  | registerNew
  | dropNew

/-- The last processor that the links lead to, within some number of them. -/
def lastProc (t : ProcTable) : ℕ → ℕ → Option ℕ
  | 0, _ => none
  | turns + 1, p =>
    match (t.mem p).nextProc with
    | none => some p
    | some next => lastProc t turns next

/-- The memory that a driver gets for a device is not that of another one, and there is a piece
for each slave. -/
def isFresh (t : ProcTable) (cgpu : ℕ) (info : ProcInfo) (slaves : List ℕ) : Bool :=
  decide ((t.devices ++ t.devicesNew ++ cgpu :: slaves).Nodup ∧ slaves.length = info.procs - 1 ∧
    info.nextProc = none)

/-- One step of the table. -/
def step (t : ProcTable) : Act → Option ProcTable
  | .addCgpu cgpu info slaves =>
    if t.isFresh cgpu info slaves then some ((t.write cgpu fun _ => info).addCgpu cgpu slaves)
    else none
  | .addCgpuSlave cgpu info slaves prev =>
    if t.isFresh cgpu info slaves ∧ prev ∈ t.devices ++ t.devicesNew then
      match t.lastProc (t.devices ++ t.devicesNew).length prev with
      | some last =>
        if last ∈ cgpu :: slaves then none
        else
          some (((t.write cgpu fun _ => info).addCgpu cgpu slaves).write last fun info =>
            { info with nextProc := some cgpu })
      | none => none
    else none
  | .registerNew => some { t.registerAll t.devicesNew with devicesNew := [] }
  | .dropNew => some { t with devicesNew := [] }

/-- Before any device is detected. -/
def init (mem : ℕ → ProcInfo) : ProcTable := ⟨mem, [], 0, []⟩

/-! ## The counting -/

section
variable (t : ProcTable) (perProc : Bool)

/-- A processor that is counted. -/
def counted (p : ℕ) : Bool := !((t.mem p).device != p && !perProc)

/-- `numpgas`. -/
def numpgas : ℕ := t.devices.countP (t.counted perProc)

/-- The loop of `pgadevice`, with the index and the count. -/
def pgadeviceLoop (pgaid : ℤ) : ℕ → ℕ → List ℕ → ℤ
  | _, _, [] => -1
  | i, count, p :: rest =>
    if !t.counted perProc p then pgadeviceLoop pgaid (i + 1) count rest
    else if (count + 1 : ℤ) = pgaid + 1 then i
    else pgadeviceLoop pgaid (i + 1) (count + 1) rest

/-- `pgadevice`. -/
def pgadevice (pgaid : ℤ) : ℤ := t.pgadeviceLoop perProc pgaid 0 0 t.devices

/-- The loop of `find_index_by_cgpu`, with the count, for some number of turns. -/
def goBack : ℕ → ℕ → ℕ → Option ℕ
  | 0, _, _ => none
  | turns + 1, n, cgpu =>
    let i := (t.mem (t.mem cgpu).device).cgminerId
    if i = 0 then some n
    else
      match t.devices[i - 1]? with
      | some cgpu => goBack turns (n + 1) cgpu
      | none => none

/-- `find_index_by_cgpu`. -/
def findIndexByCgpu (cgpu : ℕ) : Option ℕ :=
  if perProc then some (t.mem cgpu).cgminerId else t.goBack (t.devices.length + 1) 0 cgpu

end

/-! ## What every run keeps -/

/-- The processors of a device, which has the first of them for its address. -/
def Heads (mem : ℕ → ProcInfo) (procs : List ℕ) : Prop :=
  ∃ head, procs.head? = some head ∧ ∀ p ∈ procs, (mem p).device = head

/-- The processors of a device, linked one to the next. -/
structure IsDevice (mem : ℕ → ProcInfo) (procs : List ℕ) : Prop where
  heads : Heads mem procs
  procs_eq : ∀ p ∈ procs, (mem p).procs = procs.length
  linked : procs.IsChain fun p next => (mem p).nextProc = some next

/-- The table has each processor once, and each has its position for a number. -/
structure Numbered (t : ProcTable) : Prop where
  count : t.cgminerIdCount = t.devices.length
  nodup : t.devices.Nodup
  numbered : ∀ i p, t.devices[i]? = some p → (t.mem p).cgminerId = i

/-- The table is made of devices, and so are those that were added. -/
structure WellFormed (t : ProcTable) : Prop where
  numbered : t.Numbered
  nodup : (t.devices ++ t.devicesNew).Nodup
  devices : ∃ devs : List (List ℕ), t.devices = devs.flatten ∧ ∀ d ∈ devs, IsDevice t.mem d
  devicesNew : ∃ devs : List (List ℕ), t.devicesNew = devs.flatten ∧ ∀ d ∈ devs, IsDevice t.mem d

/-! ## Adding a device -/

theorem IsDevice.ne_nil {mem : ℕ → ProcInfo} {d : List ℕ} (h : IsDevice mem d) : d ≠ [] := by
  obtain ⟨head, hhead, -⟩ := h.heads
  rintro rfl
  cases hhead

/-- The links that are there, and what names the device, are all that matters. -/
theorem IsDevice.congr {mem mem' : ℕ → ProcInfo} {d : List ℕ} (h : IsDevice mem d)
    (hdevice : ∀ p ∈ d, (mem' p).device = (mem p).device)
    (hprocs : ∀ p ∈ d, (mem' p).procs = (mem p).procs)
    (hlink : ∀ p ∈ d, ∀ next, (mem p).nextProc = some next → (mem' p).nextProc = some next) :
    IsDevice mem' d := by
  obtain ⟨head, hhead, hall⟩ := h.heads
  refine ⟨⟨head, hhead, fun p hp => (hdevice p hp).trans (hall p hp)⟩,
    fun p hp => (hprocs p hp).trans (h.procs_eq p hp), ?_⟩
  exact h.linked.imp_of_mem_imp fun p next hp _ hnext => hlink p hp next hnext

/-- What the loop of `_add_cgpu` leaves behind. -/
structure SlavesAdded (t t' : ProcTable) (cgpu nlp : ℕ) (slaves : List ℕ) : Prop where
  devices : t'.devices = t.devices
  count : t'.cgminerIdCount = t.cgminerIdCount
  devicesNew : t'.devicesNew = t.devicesNew ++ slaves
  frame : ∀ p, p ∉ nlp :: slaves → t'.mem p = t.mem p
  last : t'.mem nlp = { t.mem nlp with nextProc := slaves.head? }
  copies : ∀ p ∈ slaves,
    (t'.mem p).device = (t.mem cgpu).device ∧ (t'.mem p).procs = (t.mem cgpu).procs
  linked : (nlp :: slaves).IsChain fun p next => (t'.mem p).nextProc = some next

theorem addSlaves_spec {cgpu nlp : ℕ} {slaves : List ℕ} (i : ℕ) (t : ProcTable)
    (hnodup : (nlp :: slaves).Nodup) (hcgpu : cgpu ∉ slaves) :
    SlavesAdded t (addSlaves cgpu i nlp slaves t) cgpu nlp slaves := by
  induction slaves generalizing i nlp t with
  | nil =>
      refine ⟨rfl, rfl, by simp [addSlaves, write], fun p hp => ?_, ?_, by simp, by simp⟩
      · exact Function.update_of_ne (List.ne_of_not_mem_cons hp) _ _
      · exact Function.update_self _ _ _
  | cons slave slaves ih =>
      obtain ⟨hnlp, hslaves⟩ := List.nodup_cons.mp hnodup
      obtain ⟨hne, hcgpu⟩ := not_or.mp (List.mem_cons.not.mp hcgpu)
      have hslave : nlp ≠ slave := List.ne_of_not_mem_cons hnlp
      set t2 := t.addSlave cgpu i nlp slave with ht2
      have hmem : ∀ p, t2.mem p =
          if p = nlp then { t.mem nlp with nextProc := some slave }
          else if p = slave then { t.mem cgpu with procId := i } else t.mem p := by
        intro p
        simp only [ht2, addSlave, write, Function.update_apply, if_neg hslave]
      have h := ih (i + 1) t2 hslaves hcgpu
      have hmemCgpu : (t2.mem cgpu).device = (t.mem cgpu).device ∧
          (t2.mem cgpu).procs = (t.mem cgpu).procs := by
        rw [hmem, if_neg hne]
        split
        · next heq => rw [heq]; exact ⟨rfl, rfl⟩
        · exact ⟨rfl, rfl⟩
      have hlast : (addSlaves cgpu (i + 1) slave slaves t2).mem nlp =
          { t.mem nlp with nextProc := some slave } := by
        rw [h.frame nlp hnlp, hmem, if_pos rfl]
      rw [addSlaves]
      refine ⟨h.devices, h.count, ?_, fun p hp => ?_, hlast, ?_, ?_⟩
      · exact h.devicesNew.trans (by simp [ht2, addSlave, write])
      · obtain ⟨hp1, hp2⟩ := not_or.mp (List.mem_cons.not.mp hp)
        rw [h.frame p hp2, hmem, if_neg hp1, if_neg (List.ne_of_not_mem_cons hp2)]
      · intro p hp
        rcases List.mem_cons.mp hp with rfl | hp
        · rw [h.last, hmem, if_neg hslave.symm, if_pos rfl]
          exact ⟨rfl, rfl⟩
        · exact ⟨(h.copies p hp).1.trans hmemCgpu.1, (h.copies p hp).2.trans hmemCgpu.2⟩
      · exact List.isChain_cons_cons.mpr ⟨by rw [hlast], h.linked⟩

/-- What `_add_cgpu` leaves behind. -/
structure Added (t t' : ProcTable) (procs : List ℕ) : Prop where
  devices : t'.devices = t.devices
  count : t'.cgminerIdCount = t.cgminerIdCount
  devicesNew : t'.devicesNew = t.devicesNew ++ procs
  frame : ∀ p, p ∉ procs → t'.mem p = t.mem p
  isDevice : IsDevice t'.mem procs

theorem addCgpu_spec {cgpu : ℕ} {slaves : List ℕ} {t : ProcTable}
    (hnodup : (cgpu :: slaves).Nodup) (hslaves : slaves.length = (t.mem cgpu).procs - 1) :
    Added t (t.addCgpu cgpu slaves) (cgpu :: slaves) := by
  obtain ⟨hcgpu, -⟩ := List.nodup_cons.mp hnodup
  set t1 := t.addFirst cgpu with ht1
  have hframe : ∀ p, p ≠ cgpu → t1.mem p = t.mem p := fun p hp => Function.update_of_ne hp _ _
  have hself : t1.mem cgpu = { t.mem cgpu with
      procs := if (t.mem cgpu).procs = 0 then 1 else (t.mem cgpu).procs, device := cgpu } :=
    Function.update_self _ _ _
  have hdevice : (t1.mem cgpu).device = cgpu := by rw [hself]
  have hprocs : (t1.mem cgpu).procs = (cgpu :: slaves).length := by
    rw [hself, List.length_cons, hslaves]
    dsimp only
    split <;> omega
  rw [addCgpu, ← ht1]
  split
  · have h := addSlaves_spec 1 t1 hnodup hcgpu
    set t2 := addSlaves cgpu 1 cgpu slaves t1
    have hsame : ∀ p, ((t2.write cgpu fun info => { info with procId := 0 }).mem p).device =
          (t2.mem p).device ∧
        ((t2.write cgpu fun info => { info with procId := 0 }).mem p).procs = (t2.mem p).procs ∧
        ((t2.write cgpu fun info => { info with procId := 0 }).mem p).nextProc =
          (t2.mem p).nextProc := by
      intro p
      simp only [write, Function.update_apply]
      split
      · next heq => rw [heq]; exact ⟨rfl, rfl, rfl⟩
      · exact ⟨rfl, rfl, rfl⟩
    have hall : ∀ p ∈ cgpu :: slaves,
        (t2.mem p).device = cgpu ∧ (t2.mem p).procs = (cgpu :: slaves).length := by
      intro p hp
      rcases List.mem_cons.mp hp with rfl | hp
      · rw [h.last]
        exact ⟨hdevice, hprocs⟩
      · exact ⟨(h.copies p hp).1.trans hdevice, (h.copies p hp).2.trans hprocs⟩
    have hdev : IsDevice t2.mem (cgpu :: slaves) :=
      ⟨⟨cgpu, rfl, fun p hp => (hall p hp).1⟩, fun p hp => (hall p hp).2, h.linked⟩
    refine ⟨h.devices, h.count, ?_, fun p hp => ?_, ?_⟩
    · exact h.devicesNew.trans (by simp [ht1, addFirst, write])
    · have hne : p ≠ cgpu := List.ne_of_not_mem_cons hp
      exact (Function.update_of_ne hne _ _).trans ((h.frame p hp).trans (hframe p hne))
    · exact hdev.congr (fun p _ => (hsame p).1) (fun p _ => (hsame p).2.1)
        fun p _ next hnext => (hsame p).2.2.trans hnext
  · next hone =>
    obtain rfl : slaves = [] := List.eq_nil_of_length_eq_zero
      (by rw [hprocs, List.length_cons] at hone; omega)
    refine ⟨rfl, rfl, rfl, fun p hp => hframe p (List.ne_of_not_mem_cons hp), ?_⟩
    refine ⟨⟨cgpu, rfl, ?_⟩, ?_, List.isChain_singleton cgpu⟩
    · simpa using hdevice
    · simpa using hprocs

/-! ## Registration -/

/-- What a registration leaves of a processor. -/
theorem registerDevice_same (t : ProcTable) (cgpu p : ℕ) :
    ((t.registerDevice cgpu).mem p).device = (t.mem p).device ∧
      ((t.registerDevice cgpu).mem p).procs = (t.mem p).procs ∧
      ((t.registerDevice cgpu).mem p).nextProc = (t.mem p).nextProc := by
  simp only [registerDevice, Function.update_apply]
  split
  · next heq => rw [heq]; exact ⟨rfl, rfl, rfl⟩
  · exact ⟨rfl, rfl, rfl⟩

theorem Numbered.devices_registerDevice {t : ProcTable} (h : t.Numbered) (cgpu : ℕ) :
    (t.registerDevice cgpu).devices = t.devices ++ [cgpu] := by
  simp [registerDevice, h.count]

/-- A processor that is registered comes behind the others, with its position for a number. -/
theorem Numbered.registerDevice {t : ProcTable} (h : t.Numbered) {cgpu : ℕ}
    (hcgpu : cgpu ∉ t.devices) : (t.registerDevice cgpu).Numbered := by
  have hdevices := h.devices_registerDevice cgpu
  refine ⟨?_, ?_, ?_⟩
  · rw [hdevices, List.length_append, List.length_singleton, ← h.count]
    rfl
  · rw [hdevices]
    exact h.nodup.append (List.nodup_singleton cgpu) (by simpa using hcgpu)
  · intro i p hp
    rw [hdevices] at hp
    simp only [ProcTable.registerDevice, Function.update_apply]
    rcases Nat.lt_or_ge i t.devices.length with hi | hi
    · rw [List.getElem?_append_left hi] at hp
      have hne : p ≠ cgpu := fun heq => hcgpu (heq ▸ List.mem_of_getElem? hp)
      rw [if_neg hne]
      exact h.numbered i p hp
    · rw [List.getElem?_append_right hi] at hp
      obtain ⟨hlt, hp⟩ := List.getElem?_eq_some_iff.mp hp
      obtain rfl : cgpu = p := by simpa using hp
      rw [if_pos rfl]
      simp only [List.length_singleton] at hlt
      exact h.count.trans (by omega)

theorem registerAll_same (t : ProcTable) (procs : List ℕ) (p : ℕ) :
    ((t.registerAll procs).mem p).device = (t.mem p).device ∧
      ((t.registerAll procs).mem p).procs = (t.mem p).procs ∧
      ((t.registerAll procs).mem p).nextProc = (t.mem p).nextProc := by
  induction procs generalizing t with
  | nil => exact ⟨rfl, rfl, rfl⟩
  | cons q procs ih =>
      obtain ⟨h1, h2, h3⟩ := ih (t.registerDevice q)
      obtain ⟨g1, g2, g3⟩ := registerDevice_same t q p
      exact ⟨h1.trans g1, h2.trans g2, h3.trans g3⟩

theorem Numbered.registerAll {t : ProcTable} (h : t.Numbered) {procs : List ℕ}
    (hnodup : (t.devices ++ procs).Nodup) :
    (t.registerAll procs).Numbered ∧ (t.registerAll procs).devices = t.devices ++ procs := by
  induction procs generalizing t with
  | nil => exact ⟨h, (List.append_nil _).symm⟩
  | cons p procs ih =>
      have hp : p ∉ t.devices := fun hmem =>
        (List.disjoint_of_nodup_append hnodup) hmem List.mem_cons_self
      have hdevices := h.devices_registerDevice p
      obtain ⟨h1, h2⟩ := ih (h.registerDevice hp) (by rw [hdevices]; simpa using hnodup)
      exact ⟨h1, by rw [ProcTable.registerAll, List.foldl_cons]; exact h2.trans (by simp [hdevices])⟩

theorem numbered_init (mem : ℕ → ProcInfo) : (init mem).Numbered :=
  ⟨rfl, List.nodup_nil, fun i p hp => by simp [init] at hp⟩

/-! ## Runs -/

/-- Where the memory is fresh, a device is added with all its processors. -/
theorem added_of_isFresh {t : ProcTable} {cgpu : ℕ} {info : ProcInfo} {slaves : List ℕ}
    (h : t.isFresh cgpu info slaves = true) :
    Added t ((t.write cgpu fun _ => info).addCgpu cgpu slaves) (cgpu :: slaves) := by
  obtain ⟨hnodup, hslaves, -⟩ := of_decide_eq_true h
  have hself : (t.write cgpu fun _ => info).mem cgpu = info := Function.update_self _ _ _
  have hadded := addCgpu_spec (t := t.write cgpu fun _ => info) hnodup.of_append_right
    (by rw [hself, hslaves])
  refine ⟨hadded.devices, hadded.count, hadded.devicesNew, fun p hp => ?_, hadded.isDevice⟩
  exact (hadded.frame p hp).trans (Function.update_of_ne (List.ne_of_not_mem_cons hp) _ _)

theorem WellFormed.of_added {t t' : ProcTable} {procs : List ℕ} (h : t.WellFormed)
    (hadded : Added t t' procs) (hnodup : (t.devices ++ t.devicesNew ++ procs).Nodup) :
    t'.WellFormed := by
  have hsame : ∀ p ∈ t.devices ++ t.devicesNew, t'.mem p = t.mem p := fun p hp =>
    hadded.frame p fun hproc => List.disjoint_of_nodup_append hnodup hp hproc
  obtain ⟨devs, hdevs, hall⟩ := h.devices
  obtain ⟨devsNew, hdevsNew, hallNew⟩ := h.devicesNew
  have hold : ∀ d : List ℕ, (∀ p ∈ d, p ∈ t.devices ++ t.devicesNew) → IsDevice t.mem d →
      IsDevice t'.mem d := fun d hd hdev =>
    hdev.congr (fun p hp => by rw [hsame p (hd p hp)]) (fun p hp => by rw [hsame p (hd p hp)])
      fun p hp next hnext => by rw [hsame p (hd p hp), hnext]
  refine ⟨⟨?_, ?_, ?_⟩, ?_, ⟨devs, ?_, ?_⟩, ⟨devsNew ++ [procs], ?_, ?_⟩⟩
  · rw [hadded.count, hadded.devices, h.numbered.count]
  · rw [hadded.devices]
    exact h.numbered.nodup
  · intro i p hp
    rw [hadded.devices] at hp
    rw [hsame p (List.mem_append_left _ (List.mem_of_getElem? hp))]
    exact h.numbered.numbered i p hp
  · rw [hadded.devices, hadded.devicesNew, ← List.append_assoc]
    exact hnodup
  · rw [hadded.devices, hdevs]
  · intro d hd
    refine hold d (fun p hp => List.mem_append_left _ ?_) (hall d hd)
    rw [hdevs]
    exact List.mem_flatten_of_mem hd hp
  · rw [hadded.devicesNew, hdevsNew]
    simp
  · intro d hd
    rcases List.mem_append.mp hd with hd | hd
    · refine hold d (fun p hp => List.mem_append_right _ ?_) (hallNew d hd)
      rw [hdevsNew]
      exact List.mem_flatten_of_mem hd hp
    · obtain rfl := List.mem_singleton.mp hd
      exact hadded.isDevice

/-- A link that is set where there was none belongs to no device. -/
theorem WellFormed.write_nextProc {t : ProcTable} (h : t.WellFormed) {last : ℕ}
    (hlast : (t.mem last).nextProc = none) (next : Option ℕ) :
    (t.write last fun info => { info with nextProc := next }).WellFormed := by
  have hmem : ∀ p, (t.write last fun info => { info with nextProc := next }).mem p =
      if p = last then { t.mem last with nextProc := next } else t.mem p := fun p => by
    simp only [write, Function.update_apply]
  have hdev : ∀ d, IsDevice t.mem d →
      IsDevice (t.write last fun info => { info with nextProc := next }).mem d := by
    intro d hd
    refine hd.congr (fun p _ => ?_) (fun p _ => ?_) fun p _ q hq => ?_
    · rw [hmem]
      split
      · next heq => rw [heq]
      · rfl
    · rw [hmem]
      split
      · next heq => rw [heq]
      · rfl
    · have hne : p ≠ last := by
        rintro rfl
        rw [hlast] at hq
        cases hq
      rw [hmem, if_neg hne, hq]
  refine ⟨⟨h.numbered.count, h.numbered.nodup, fun i p hp => ?_⟩, h.nodup, ?_, ?_⟩
  · rw [hmem]
    split
    · next heq => exact heq ▸ h.numbered.numbered i p hp
    · exact h.numbered.numbered i p hp
  · obtain ⟨devs, hdevs, hall⟩ := h.devices
    exact ⟨devs, hdevs, fun d hd => hdev d (hall d hd)⟩
  · obtain ⟨devs, hdevs, hall⟩ := h.devicesNew
    exact ⟨devs, hdevs, fun d hd => hdev d (hall d hd)⟩

theorem lastProc_spec {t : ProcTable} {turns p last : ℕ} (h : t.lastProc turns p = some last) :
    (t.mem last).nextProc = none := by
  induction turns generalizing p with
  | zero => cases h
  | succ turns ih =>
      rw [lastProc] at h
      split at h
      · next hnone => exact Option.some.inj h ▸ hnone
      · exact ih h

theorem WellFormed.step {t t' : ProcTable} {act : Act} (h : t.WellFormed)
    (hstep : t.step act = some t') : t'.WellFormed := by
  cases act with
  | addCgpu cgpu info slaves =>
      rw [ProcTable.step] at hstep
      split at hstep
      · next hfresh =>
        obtain rfl := Option.some.inj hstep
        exact h.of_added (added_of_isFresh hfresh) (of_decide_eq_true hfresh).1
      · cases hstep
  | addCgpuSlave cgpu info slaves prev =>
      rw [ProcTable.step] at hstep
      split at hstep
      · next hfresh =>
        split at hstep
        · next last hlast =>
          split at hstep
          · cases hstep
          · next hnew =>
            obtain rfl := Option.some.inj hstep
            have hadded := added_of_isFresh hfresh.1
            have hwf := h.of_added hadded (of_decide_eq_true hfresh.1).1
            refine hwf.write_nextProc ?_ _
            rw [hadded.frame last hnew]
            exact lastProc_spec hlast
        · cases hstep
      · cases hstep
  | registerNew =>
      obtain rfl := Option.some.inj hstep
      obtain ⟨hnum, hdevices⟩ := h.numbered.registerAll h.nodup
      obtain ⟨devs, hdevs, hall⟩ := h.devices
      obtain ⟨devsNew, hdevsNew, hallNew⟩ := h.devicesNew
      refine ⟨⟨hnum.count, hnum.nodup, hnum.numbered⟩, ?_, ⟨devs ++ devsNew, ?_, ?_⟩,
        ⟨[], rfl, by simp⟩⟩
      · simpa using hnum.nodup
      · rw [List.flatten_append, ← hdevs, ← hdevsNew]
        exact hdevices
      · intro d hd
        refine IsDevice.congr ((List.mem_append.mp hd).elim (hall d) (hallNew d)) ?_ ?_ ?_
        · exact fun p _ => (registerAll_same t t.devicesNew p).1
        · exact fun p _ => (registerAll_same t t.devicesNew p).2.1
        · exact fun p _ next hnext => (registerAll_same t t.devicesNew p).2.2.trans hnext
  | dropNew =>
      obtain rfl := Option.some.inj hstep
      exact ⟨⟨h.numbered.count, h.numbered.nodup, h.numbered.numbered⟩,
        by simpa using h.numbered.nodup, h.devices, ⟨[], rfl, by simp⟩⟩

/-- **Every run keeps the processors of a device next to each other.** -/
theorem wellFormed_of_run {mem : ℕ → ProcInfo} {acts : List Act} {t : ProcTable}
    (hrun : Run.exec ProcTable.step (init mem) acts = some t) : t.WellFormed :=
  Run.exec_of_invariant (fun _ _ _ h hstep => h.step hstep)
    ⟨numbered_init mem, List.nodup_nil, ⟨[], rfl, by simp⟩, ⟨[], rfl, by simp⟩⟩ hrun

/-! ## Counting forward -/

section
variable {t : ProcTable} {perProc : Bool}

/-- The loop goes past the processors in front of the one that it is to find. -/
theorem pgadeviceLoop_append {pgaid : ℤ} {l l' : List ℕ} {i count : ℕ}
    (h : (count + l.countP (t.counted perProc) : ℤ) ≤ pgaid) :
    t.pgadeviceLoop perProc pgaid i count (l ++ l') =
      t.pgadeviceLoop perProc pgaid (i + l.length) (count + l.countP (t.counted perProc)) l' := by
  induction l generalizing i count with
  | nil => rfl
  | cons p l ih =>
      rw [List.cons_append, pgadeviceLoop]
      by_cases hp : t.counted perProc p = true
      · rw [List.countP_cons_of_pos hp] at h ⊢
        have hne : ¬(count + 1 : ℤ) = pgaid + 1 := by push_cast at h; omega
        rw [hp, if_neg (by simp), if_neg hne, ih (by push_cast at h ⊢; omega), List.length_cons]
        congr 1 <;> omega
      · rw [List.countP_cons_of_neg hp] at h ⊢
        rw [if_pos (by simpa using hp), ih h, List.length_cons]
        congr 1
        omega

/-- A number that no processor has is not found. -/
theorem pgadeviceLoop_eq_neg_one {pgaid : ℤ} {l : List ℕ} {i count : ℕ}
    (h : pgaid < count ∨ (count + l.countP (t.counted perProc) : ℤ) ≤ pgaid) :
    t.pgadeviceLoop perProc pgaid i count l = -1 := by
  induction l generalizing i count with
  | nil => rfl
  | cons p l ih =>
      rw [pgadeviceLoop]
      by_cases hp : t.counted perProc p = true
      · rw [List.countP_cons_of_pos hp] at h
        have hne : ¬(count + 1 : ℤ) = pgaid + 1 := by push_cast at h; omega
        rw [hp, if_neg (by simp), if_neg hne, ih (by push_cast at h ⊢; omega)]
      · rw [List.countP_cons_of_neg hp] at h
        rw [if_pos (by simpa using hp), ih h]

/-- The processor behind as many counted ones as the number says is found. -/
theorem pgadevice_of_split {l l' : List ℕ} {p : ℕ} (hdevices : t.devices = l ++ p :: l')
    (hp : t.counted perProc p = true) :
    t.pgadevice perProc (l.countP (t.counted perProc)) = l.length := by
  rw [pgadevice, hdevices, pgadeviceLoop_append (by simp), pgadeviceLoop, hp]
  simp

/-- For each number below the count there is a processor behind as many counted ones. -/
theorem exists_split_of_lt_countP {α : Type*} {f : α → Bool} {l : List α} {k : ℕ}
    (h : k < l.countP f) : ∃ l₁ a l₂, l = l₁ ++ a :: l₂ ∧ f a = true ∧ l₁.countP f = k := by
  induction l generalizing k with
  | nil => simp at h
  | cons a l ih =>
      by_cases ha : f a = true
      · rw [List.countP_cons_of_pos ha] at h
        cases k with
        | zero => exact ⟨[], a, l, rfl, ha, rfl⟩
        | succ k =>
            obtain ⟨l₁, b, l₂, rfl, hb, hk⟩ := ih (Nat.lt_of_succ_lt_succ h)
            exact ⟨a :: l₁, b, l₂, rfl, hb, by rw [List.countP_cons_of_pos ha, hk]⟩
      · rw [List.countP_cons_of_neg ha] at h
        obtain ⟨l₁, b, l₂, rfl, hb, hk⟩ := ih h
        exact ⟨a :: l₁, b, l₂, rfl, hb, by rw [List.countP_cons_of_neg ha, hk]⟩

/-! ## Going back -/

/-- The devices in front of a processor's, its own, and those behind. -/
structure Placed (t : ProcTable) (pre : List (List ℕ)) (d : List ℕ) (post : List (List ℕ)) :
    Prop where
  devices : t.devices = (pre ++ d :: post).flatten
  heads : ∀ d' ∈ pre ++ d :: post, Heads t.mem d'

/-- The first processor of a device comes behind all those of the devices in front. -/
theorem Placed.split {pre post : List (List ℕ)} {d : List ℕ} (h : Placed t pre d post) :
    ∃ head slaves, d = head :: slaves ∧ (∀ p ∈ d, (t.mem p).device = head) ∧
      t.devices = pre.flatten ++ head :: (slaves ++ post.flatten) := by
  obtain ⟨head, hhead, hall⟩ := h.heads d (by simp)
  obtain ⟨slaves, rfl⟩ := List.head?_eq_some_iff.mp hhead
  exact ⟨head, slaves, rfl, hall, by rw [h.devices]; simp⟩

/-- The number of a device's first processor is that of the processors in front of it. -/
theorem Placed.cgminerId {pre post : List (List ℕ)} {d : List ℕ} (h : Placed t pre d post)
    (hnum : t.Numbered) {p : ℕ} (hp : p ∈ d) :
    (t.mem (t.mem p).device).cgminerId = pre.flatten.length := by
  obtain ⟨head, slaves, -, hall, hdevices⟩ := h.split
  rw [hall p hp]
  exact hnum.numbered _ _ (by rw [hdevices]; simp)

/-- The loop counts the devices in front. -/
theorem Placed.goBack {pre post : List (List ℕ)} {d : List ℕ} (h : Placed t pre d post)
    (hnum : t.Numbered) {p : ℕ} (hp : p ∈ d) {turns : ℕ} (n : ℕ) (hturns : pre.length < turns) :
    t.goBack turns n p = some (n + pre.length) := by
  induction pre using List.reverseRecOn generalizing d post p turns n with
  | nil =>
      obtain ⟨turns, rfl⟩ := Nat.exists_eq_succ_of_ne_zero (Nat.ne_of_gt hturns)
      rw [ProcTable.goBack, if_pos (by simpa using h.cgminerId hnum hp)]
      rfl
  | append_singleton pre e ih =>
      obtain ⟨turns, rfl⟩ := Nat.exists_eq_succ_of_ne_zero (Nat.ne_of_gt (Nat.zero_lt_of_lt hturns))
      have hprev : Placed t pre e (d :: post) :=
        ⟨by rw [h.devices]; simp, fun d' hd' => h.heads d' (by simpa using hd')⟩
      obtain ⟨head, slaves, rfl, -, hdevices⟩ := hprev.split
      have hid := h.cgminerId hnum hp
      have hlen : (pre ++ [head :: slaves]).flatten.length =
          pre.flatten.length + slaves.length + 1 := by
        simp
        omega
      have hlast : ∃ q ∈ head :: slaves,
          t.devices[pre.flatten.length + slaves.length]? = some q := by
        refine ⟨(head :: slaves)[slaves.length], List.getElem_mem _, ?_⟩
        rw [hdevices, List.getElem?_append_right (Nat.le_add_right _ _), Nat.add_sub_cancel_left,
          ← List.cons_append, List.getElem?_append_left (by simp)]
        exact List.getElem?_eq_getElem _
      obtain ⟨q, hq, hget⟩ := hlast
      rw [ProcTable.goBack, hid, hlen, if_neg (Nat.succ_ne_zero _), Nat.add_sub_cancel, hget]
      rw [List.length_append, List.length_singleton] at hturns ⊢
      exact (ih hprev hq (n + 1) (Nat.lt_of_succ_lt_succ hturns)).trans (by congr 1; omega)

/-- Each device is counted once. -/
theorem Heads.countP {d : List ℕ} (h : Heads t.mem d) (hnodup : d.Nodup) :
    d.countP (t.counted false) = 1 := by
  obtain ⟨head, hhead, hall⟩ := h
  obtain ⟨slaves, rfl⟩ := List.head?_eq_some_iff.mp hhead
  have hslaves : slaves.countP (t.counted false) = 0 := by
    rw [List.countP_eq_zero]
    intro p hp
    have hne : p ≠ head := fun heq => (List.nodup_cons.mp hnodup).1 (heq ▸ hp)
    simp [counted, hall p (List.mem_cons_of_mem _ hp), hne.symm]
  rw [List.countP_cons_of_pos (by simp [counted, hall head List.mem_cons_self]), hslaves]

theorem countP_flatten_of_heads {devs : List (List ℕ)} (h : ∀ d ∈ devs, Heads t.mem d)
    (hnodup : devs.flatten.Nodup) : devs.flatten.countP (t.counted false) = devs.length := by
  induction devs with
  | nil => rfl
  | cons d devs ih =>
      rw [List.flatten_cons] at hnodup ⊢
      rw [List.countP_append, (h d List.mem_cons_self).countP hnodup.of_append_left,
        ih (fun d' hd' => h d' (List.mem_cons_of_mem _ hd')) hnodup.of_append_right,
        List.length_cons, Nat.add_comm]

/-- The processor that stands for another one in the counting. -/
def representative (t : ProcTable) (perProc : Bool) (p : ℕ) : ℕ :=
  if perProc then p else (t.mem p).device

variable (perProc) in
/-- The number of a processor is that of the counted ones in front of the one that stands for
it. -/
theorem findIndexByCgpu_spec {devs : List (List ℕ)} (hnum : t.Numbered)
    (hdevices : t.devices = devs.flatten) (hheads : ∀ d ∈ devs, Heads t.mem d) {p : ℕ}
    (hp : p ∈ t.devices) :
    ∃ l l', t.devices = l ++ t.representative perProc p :: l' ∧
      t.counted perProc (t.representative perProc p) = true ∧
      t.findIndexByCgpu perProc p = some (l.countP (t.counted perProc)) := by
  cases perProc with
  | true =>
      obtain ⟨l, l', hl⟩ := List.append_of_mem hp
      refine ⟨l, l', hl, by simp [counted], ?_⟩
      have hid : (t.mem p).cgminerId = l.length := hnum.numbered _ _ (by rw [hl]; simp)
      have hall : l.countP (t.counted true) = l.length :=
        List.countP_eq_length.mpr fun q _ => by simp [counted]
      rw [findIndexByCgpu, if_pos rfl, hid, hall]
  | false =>
      obtain ⟨d, hd, hpd⟩ := List.mem_flatten.mp (hdevices ▸ hp)
      obtain ⟨pre, post, rfl⟩ := List.append_of_mem hd
      have hplaced : Placed t pre d post := ⟨hdevices, hheads⟩
      obtain ⟨head, slaves, rfl, hall, hsplit⟩ := hplaced.split
      have hrep : t.representative false p = head := hall p hpd
      have hturns : pre.length < t.devices.length + 1 := by
        have hcount : (pre ++ (head :: slaves) :: post).flatten.countP (t.counted false) =
            (pre ++ (head :: slaves) :: post).length :=
          countP_flatten_of_heads hheads (hdevices ▸ hnum.nodup)
        have hle := List.countP_le_length (p := t.counted false)
          (l := (pre ++ (head :: slaves) :: post).flatten)
        rw [hcount, ← hdevices, List.length_append] at hle
        omega
      refine ⟨pre.flatten, slaves ++ post.flatten, by rw [hrep]; exact hsplit, ?_, ?_⟩
      · rw [hrep]
        simp [counted, hall head List.mem_cons_self]
      · have hnodup : pre.flatten.Nodup := (hsplit ▸ hnum.nodup).of_append_left
        rw [findIndexByCgpu, if_neg (by simp), hplaced.goBack hnum hpd 0 hturns, Nat.zero_add,
          countP_flatten_of_heads (fun d' hd' => hheads d' (List.mem_append_left _ hd')) hnodup]

/-- A counted processor stands for itself. -/
theorem representative_of_counted {p : ℕ} (hp : t.counted perProc p = true) :
    t.representative perProc p = p := by
  unfold representative
  split
  · rfl
  · next hperProc => simpa [counted, hperProc] using hp

/-- Numbers and positions agree, each way. -/
structure Inverse (t : ProcTable) (perProc : Bool) : Prop where
  found : ∀ p ∈ t.devices, ∃ (n i : ℕ), t.findIndexByCgpu perProc p = some n ∧
    t.pgadevice perProc n = i ∧ t.devices[i]? = some (t.representative perProc p)
  numbered : ∀ k : ℤ, 0 ≤ k → k < t.numpgas perProc → ∃ (i p : ℕ),
    t.pgadevice perProc k = i ∧ t.devices[i]? = some p ∧
      t.findIndexByCgpu perProc p = some k.toNat
  missing : ∀ k : ℤ, t.pgadevice perProc k < 0 ↔ ¬(0 ≤ k ∧ k < t.numpgas perProc)

theorem inverse_of_heads {devs : List (List ℕ)} (hnum : t.Numbered)
    (hdevices : t.devices = devs.flatten) (hheads : ∀ d ∈ devs, Heads t.mem d) (perProc : Bool) :
    t.Inverse perProc := by
  have hnumbered : ∀ k : ℤ, 0 ≤ k → k < t.numpgas perProc → ∃ (i p : ℕ),
      t.pgadevice perProc k = i ∧ t.devices[i]? = some p ∧
        t.findIndexByCgpu perProc p = some k.toNat := by
    intro k hk hlt
    obtain ⟨k, rfl⟩ := Int.eq_ofNat_of_zero_le hk
    obtain ⟨l, p, l', hl, hp, hcount⟩ :=
      exists_split_of_lt_countP (f := t.counted perProc) (Int.ofNat_lt.mp hlt)
    refine ⟨l.length, p, ?_, by rw [hl]; simp, ?_⟩
    · rw [← hcount]
      exact pgadevice_of_split hl hp
    · obtain ⟨l₁, l₁', hl₁, -, hfind⟩ := findIndexByCgpu_spec perProc hnum hdevices hheads
        (p := p) (by rw [hl]; simp)
      rw [representative_of_counted hp] at hl₁
      have hsame : l₁ = l := by
        have hnodup := hnum.nodup
        rw [hl] at hl₁ hnodup
        have hpl : p ∉ l := fun hmem =>
          List.disjoint_of_nodup_append hnodup hmem List.mem_cons_self
        have hpl' : p ∉ l' := (List.nodup_cons.mp hnodup.of_append_right).1
        exact ((List.append_cons_inj_of_notMem hpl hpl').mp hl₁).1.symm
      rw [hfind, hsame, hcount]
      rfl
  refine ⟨fun p hp => ?_, hnumbered, fun k => ⟨fun hneg hk => ?_, fun hk => ?_⟩⟩
  · obtain ⟨l, l', hl, hrep, hfind⟩ :=
      findIndexByCgpu_spec perProc hnum hdevices hheads hp
    exact ⟨_, l.length, hfind, pgadevice_of_split hl hrep, by rw [hl]; simp⟩
  · obtain ⟨i, -, hi, -⟩ := hnumbered k hk.1 hk.2
    omega
  · rw [pgadevice, pgadeviceLoop_eq_neg_one]
    · decide
    · rw [numpgas] at hk
      push_cast
      omega

end

/-- In a table that a run of the program makes they agree. -/
theorem inverse_of_run {mem : ℕ → ProcInfo} {acts : List Act} {t : ProcTable}
    (hrun : Run.exec ProcTable.step (init mem) acts = some t) (perProc : Bool) :
    t.Inverse perProc := by
  have h := wellFormed_of_run hrun
  obtain ⟨devs, hdevs, hall⟩ := h.devices
  exact inverse_of_heads h.numbered hdevs (fun d hd => (hall d hd).heads) perProc

end ProcTable

open ProcTable in
/-- **Numbers and positions are inverse to each other** in the table that `register_device` builds
of devices whose processors come one after the other. -/
theorem findIndexByCgpu_pgadevice {mem : ℕ → ProcInfo} {devs : List (List ℕ)}
    (hheads : ∀ d ∈ devs, Heads mem d) (hnodup : devs.flatten.Nodup) (perProc : Bool) :
    ((init mem).registerAll devs.flatten).Inverse perProc := by
  obtain ⟨hnum, hdevices⟩ := (numbered_init mem).registerAll
    (by simpa [init] using hnodup)
  refine inverse_of_heads hnum hdevices (fun d hd => ?_) perProc
  obtain ⟨head, hhead, hall⟩ := hheads d hd
  exact ⟨head, hhead, fun p hp => ((registerAll_same _ _ p).1).trans (hall p hp)⟩

open ProcTable in
theorem findIndexByCgpu_pgadevice_pair :
    ((init fun p => ⟨if p = 8 then 7 else p, none, 1, 0, 0, .enabled⟩).registerAll
      [[7, 8], [3]].flatten).Inverse false :=
  findIndexByCgpu_pgadevice (by simp [Heads]) (by decide) false

end MassGridMiner

import MassGridMiner.Api.Commands
import MassGridMiner.Device.Table

/-!
# Enabling and disabling processors

`pgaenable` and `pgadisable` are about a processor or about all those of a device, which are
gone through along their links.  The loop that disables them writes to the first processor each
time, whichever it has looked at.

## Main definitions

* `ProcTable.pgaenable`, `ProcTable.pgadisable` — the commands, with their effect and reply.
* `toApi`, `PgaCommand.reply_run` — the same replies in the state of the other commands.
* `PgaCommand.Obeyed` — what a command is to do.
* `PgaCommand.obeyed_iff` — it is done unless another processor of the device is to be disabled.
-/

namespace MassGridMiner

open CStr

namespace ProcTable

/-- `proc_enable`, as far as the table goes. -/
def procEnable (t : ProcTable) (p : ℕ) : ProcTable :=
  t.write p fun info => { info with deven := .enabled }

/-- A write of `DEV_DISABLED`. -/
def procDisable (t : ProcTable) (p : ℕ) : ProcTable :=
  t.write p fun info => { info with deven := .disabled }

/-- `get_pga_cgpu`: the number and the processor, or the reply that there is none. -/
def getPgaCgpu (t : ProcTable) (perProc : Bool) (param : Option CStr) :
    Except CmdReply (ℤ × ℕ) :=
  let numpga := t.numpgas perProc
  if numpga = 0 then .error (say Msg.pganon 0 .null)
  else
    match given param with
    | none => .error (say Msg.misid 0 .null)
    | some param =>
      let id := atoi param.bytes
      if id < 0 ∨ numpga ≤ id then .error (say Msg.invpga id .null)
      else
        let dev := t.pgadevice perProc id
        if dev < 0 then .error (say Msg.invpga id .null)
        else .ok (id, t.devices.getD dev.toNat 0)

/-- The loop of `pgaenable`, with the processor that it is at. -/
def enableLoop : ℕ → Option ℕ → ProcTable → Bool → ProcTable × Bool
  | n + 1, some proc, t, already =>
    if (t.mem proc).deven = .disabled then
      enableLoop n ((t.procEnable proc).mem proc).nextProc (t.procEnable proc) false
    else enableLoop n (t.mem proc).nextProc t already
  | _, _, t, already => (t, already)

/-- `pgaenable`. -/
def pgaenable (t : ProcTable) (perProc : Bool) (param : Option CStr) : ProcTable × CmdReply :=
  match t.getPgaCgpu perProc param with
  | .error reply => (t, reply)
  | .ok (id, cgpu) =>
    let procs := if perProc then 1 else (t.mem cgpu).procs
    let (t, already) := enableLoop procs (some cgpu) t true
    (t, if already then say Msg.pgalrena id .null else say Msg.pgaena id .null)

/-- The loop of `pgadisable`, with the processor that it is at; what it writes to is `cgpu`. -/
def disableLoop (cgpu : ℕ) : ℕ → Option ℕ → ProcTable → Bool → ProcTable × Bool
  | n + 1, some proc, t, already =>
    if (t.mem proc).deven ≠ .disabled then
      disableLoop cgpu n ((t.procDisable cgpu).mem proc).nextProc (t.procDisable cgpu) false
    else disableLoop cgpu n (t.mem proc).nextProc t already
  | _, _, t, already => (t, already)

/-- `pgadisable`. -/
def pgadisable (t : ProcTable) (perProc : Bool) (param : Option CStr) : ProcTable × CmdReply :=
  match t.getPgaCgpu perProc param with
  | .error reply => (t, reply)
  | .ok (id, cgpu) =>
    let procs := if perProc then 1 else (t.mem cgpu).procs
    let (t, already) := disableLoop cgpu procs (some cgpu) t true
    (t, if already then say Msg.pgalrdis id .null else say Msg.pgadis id .null)

/-! ## What is addressed -/

/-- The number that a client gives, and the processor or the device's first one that it counts. -/
def addressed (t : ProcTable) (perProc : Bool) (param : Option CStr) : Option (ℤ × ℕ) :=
  (given param).bind fun param =>
    let id := atoi param.bytes
    if id < 0 then none
    else (t.devices.filter (t.counted perProc))[id.toNat]?.map fun cgpu => (id, cgpu)

/-- The processors that a command is about: the one, or those of the device. -/
def targets (t : ProcTable) (perProc : Bool) (cgpu : ℕ) : List ℕ :=
  if perProc then [cgpu] else t.devices.filter fun p => (t.mem p).device = (t.mem cgpu).device

section
variable {t : ProcTable} {perProc : Bool} {param : Option CStr}

/-- Where the client's number counts something that is found. -/
theorem getPgaCgpu_of_addressed {id : ℤ} {cgpu : ℕ}
    (h : t.addressed perProc param = some (id, cgpu)) :
    t.getPgaCgpu perProc param = .ok (id, cgpu) := by
  obtain ⟨text, htext, h⟩ := Option.bind_eq_some_iff.mp h
  dsimp only at h
  split at h
  · cases h
  · next hneg =>
    obtain ⟨c, hc, heq⟩ := Option.map_eq_some_iff.mp h
    obtain ⟨rfl, rfl⟩ := Prod.mk.inj heq
    have hlt : (atoi text.bytes).toNat < t.numpgas perProc := by
      rw [numpgas, List.countP_eq_length_filter]
      exact (List.getElem?_eq_some_iff.mp hc).1
    obtain ⟨l, p, l', hl, hp, hcount⟩ := exists_split_of_lt_countP hlt
    have hcp : p = c := by
      rw [hl, List.filter_append, List.filter_cons_of_pos hp, ← hcount,
        List.countP_eq_length_filter] at hc
      simpa using hc
    have hdev : t.pgadevice perProc (atoi text.bytes) = l.length := by
      rw [← pgadevice_of_split hl hp, hcount, Int.toNat_of_nonneg (not_lt.mp hneg)]
    rw [getPgaCgpu, htext]
    dsimp only
    rw [if_neg (by omega), if_neg (by omega), hdev, if_neg (by omega), Int.toNat_natCast, hl, hcp]
    simp

/-- Where it counts nothing there is a reply that says so. -/
theorem getPgaCgpu_of_not_addressed (h : t.addressed perProc param = none) :
    ∃ reply, t.getPgaCgpu perProc param = .error reply := by
  rw [getPgaCgpu]
  dsimp only
  split
  · exact ⟨_, rfl⟩
  · cases htext : given param with
    | none => exact ⟨_, rfl⟩
    | some text =>
        dsimp only
        split
        · exact ⟨_, rfl⟩
        · next hrange =>
          rw [addressed, htext, Option.bind_some] at h
          dsimp only at h
          rw [if_neg (by omega), Option.map_eq_none_iff, List.getElem?_eq_none_iff,
            ← List.countP_eq_length_filter, ← numpgas] at h
          omega

/-- What is addressed is in the table, and counted. -/
theorem mem_of_addressed {id : ℤ} {cgpu : ℕ} (h : t.addressed perProc param = some (id, cgpu)) :
    cgpu ∈ t.devices ∧ t.counted perProc cgpu = true := by
  obtain ⟨text, -, h⟩ := Option.bind_eq_some_iff.mp h
  dsimp only at h
  split at h
  · cases h
  · obtain ⟨c, hc, heq⟩ := Option.map_eq_some_iff.mp h
    obtain ⟨-, rfl⟩ := Prod.mk.inj heq
    exact List.mem_filter.mp (List.mem_of_getElem? hc)

/-- The processors of a device are those that have its address. -/
theorem WellFormed.exists_device (h : t.WellFormed) {cgpu : ℕ} (hmem : cgpu ∈ t.devices)
    (hcounted : t.counted false cgpu = true) :
    ∃ slaves, IsDevice t.mem (cgpu :: slaves) ∧ cgpu ∉ slaves ∧
      ∀ p, p ∈ t.targets false cgpu ↔ p ∈ cgpu :: slaves := by
  obtain ⟨devs, hdevs, hall⟩ := h.devices
  have hself : (t.mem cgpu).device = cgpu := by simpa [counted] using hcounted
  have hnodup := List.nodup_flatten.mp (hdevs ▸ h.numbered.nodup)
  obtain ⟨d, hd, hcd⟩ := List.mem_flatten.mp (hdevs ▸ hmem)
  obtain ⟨head, hhead, hdevice⟩ := (hall d hd).heads
  obtain ⟨slaves, rfl⟩ := List.head?_eq_some_iff.mp hhead
  obtain rfl : cgpu = head := hself.symm.trans (hdevice cgpu hcd)
  refine ⟨slaves, hall _ hd, (List.nodup_cons.mp (hnodup.1 _ hd)).1, fun p => ?_⟩
  simp only [targets, Bool.false_eq_true, if_false, List.mem_filter, decide_eq_true_eq, hself]
  constructor
  · rintro ⟨hp, hpd⟩
    obtain ⟨d', hd', hpd'⟩ := List.mem_flatten.mp (hdevs ▸ hp)
    obtain ⟨head', hhead', hdevice'⟩ := (hall d' hd').heads
    have hcd' : cgpu ∈ d' := by
      rw [← hpd, hdevice' p hpd']
      exact List.mem_of_mem_head? hhead'
    by_contra hne
    have hdiff : cgpu :: slaves ≠ d' := fun heq => hne (heq ▸ hpd')
    have : Std.Symm (@List.Disjoint ℕ) := ⟨fun _ _ hdisj => hdisj.symm⟩
    exact hnodup.2.forall hd hd' hdiff hcd hcd'
  · intro hp
    exact ⟨hdevs ▸ List.mem_flatten_of_mem hd hp, hdevice p hp⟩

/-- The list that the loops go through: it starts with what was found, has as many processors as
they take turns, and has what is addressed. -/
structure Chain (t : ProcTable) (perProc : Bool) (cgpu : ℕ) (slaves : List ℕ) : Prop where
  linked : (cgpu :: slaves).IsChain fun p next => (t.mem p).nextProc = some next
  turns : (if perProc then 1 else (t.mem cgpu).procs) = slaves.length + 1
  notMem : cgpu ∉ slaves
  mem_targets : ∀ p, p ∈ t.targets perProc cgpu ↔ p ∈ cgpu :: slaves

theorem WellFormed.exists_chain (h : t.WellFormed) {id : ℤ} {cgpu : ℕ}
    (haddr : t.addressed perProc param = some (id, cgpu)) :
    ∃ slaves, Chain t perProc cgpu slaves := by
  obtain ⟨hmem, hcounted⟩ := mem_of_addressed haddr
  cases perProc with
  | true => exact ⟨[], List.isChain_singleton _, rfl, List.not_mem_nil, fun p => Iff.rfl⟩
  | false =>
      obtain ⟨slaves, hdev, hnot, htargets⟩ := h.exists_device hmem hcounted
      exact ⟨slaves, hdev.linked, hdev.procs_eq cgpu List.mem_cons_self, hnot, htargets⟩

end

/-! ## The loops -/

/-- The table with those of some processors enabled that are disabled. -/
def enableAll (t : ProcTable) (procs : List ℕ) : ProcTable :=
  { t with
    mem := fun p =>
      if p ∈ procs ∧ (t.mem p).deven = .disabled then { t.mem p with deven := .enabled }
      else t.mem p }

theorem enableAll_cons (t : ProcTable) (p : ℕ) (procs : List ℕ) :
    (if (t.mem p).deven = .disabled then t.procEnable p else t).enableAll procs =
      t.enableAll (p :: procs) := by
  have hmem : ∀ q, ((if (t.mem p).deven = .disabled then t.procEnable p else t).enableAll
      procs).mem q = (t.enableAll (p :: procs)).mem q := by
    intro q
    by_cases hp : (t.mem p).deven = .disabled
    · by_cases hq : q = p
      · subst hq
        simp [enableAll, procEnable, write, hp]
      · simp [enableAll, procEnable, write, hp, hq]
    · by_cases hq : q = p
      · subst hq
        simp [enableAll, hp]
      · simp [enableAll, hp, hq]
  rw [enableAll, enableAll, mk.injEq]
  refine ⟨funext hmem, ?_, ?_, ?_⟩ <;> split <;> rfl

/-- The loop of `pgaenable` enables what it goes through, and says whether that was so. -/
theorem enableLoop_spec {procs : List ℕ} {start : Option ℕ} {t : ProcTable} {already : Bool}
    (hstart : ∀ p ∈ procs.head?, start = some p)
    (hlinked : procs.IsChain fun p next => (t.mem p).nextProc = some next) :
    enableLoop procs.length start t already =
      (t.enableAll procs, already && procs.all fun p => (t.mem p).deven ≠ .disabled) := by
  induction procs generalizing start t already with
  | nil => simp [enableLoop, enableAll]
  | cons p procs ih =>
      obtain ⟨hnext, hrest⟩ := List.isChain_cons.mp hlinked
      have hother : ∀ q ∈ procs, ((t.procEnable p).mem q).nextProc = (t.mem q).nextProc := by
        intro q _
        simp only [procEnable, write, Function.update_apply]
        split
        · next heq => rw [heq]
        · rfl
      rw [hstart p rfl, List.length_cons, enableLoop, ← enableAll_cons, List.all_cons]
      by_cases hp : (t.mem p).deven = .disabled
      · have hself : ((t.procEnable p).mem p).nextProc = (t.mem p).nextProc := by
          simp [procEnable, write]
        rw [if_pos hp, if_pos hp, hself, ih hnext (hrest.imp_of_mem_imp fun q r hq _ hr =>
          (hother q hq).trans hr)]
        simp [hp]
      · rw [if_neg hp, if_neg hp, ih hnext hrest]
        simp [hp]

/-- The loop of `pgadisable` disables what was found, unless all that it goes through is
disabled. -/
theorem disableLoop_spec {cgpu : ℕ} {procs : List ℕ} {start : Option ℕ} {t : ProcTable}
    {already : Bool} (hstart : ∀ p ∈ procs.head?, start = some p)
    (hlinked : procs.IsChain fun p next => (t.mem p).nextProc = some next)
    (hcgpu : cgpu ∉ procs.tail) :
    disableLoop cgpu procs.length start t already =
      if ∀ p ∈ procs, (t.mem p).deven = .disabled then (t, already)
      else (t.procDisable cgpu, false) := by
  induction procs generalizing start t already with
  | nil => simp [disableLoop]
  | cons p procs ih =>
      obtain ⟨hnext, hrest⟩ := List.isChain_cons.mp hlinked
      have htail : cgpu ∉ procs.tail := fun hmem => hcgpu (List.mem_of_mem_tail hmem)
      rw [hstart p rfl, List.length_cons, disableLoop]
      by_cases hp : (t.mem p).deven = .disabled
      · rw [if_neg (by simpa using hp), ih hnext hrest htail]
        simp [hp]
      · have hlink : ∀ q, ((t.procDisable cgpu).mem q).nextProc = (t.mem q).nextProc := by
          intro q
          simp only [procDisable, write, Function.update_apply]
          split
          · next heq => rw [heq]
          · rfl
        have hidem : (t.procDisable cgpu).procDisable cgpu = t.procDisable cgpu := by
          simp [procDisable, write]
        rw [if_pos hp, hlink, ih hnext (hrest.imp_of_mem_imp fun q r _ _ hr => (hlink q).trans hr)
          htail, hidem, ite_self, if_neg fun hall => hp (hall p List.mem_cons_self)]

end ProcTable

/-! ## The replies -/

namespace ProcTable

section
variable (t : ProcTable) (rest : ℕ → Cgpu)

/-- A processor as the replies see it, which name others by their numbers. -/
def shown (p : ℕ) : Cgpu :=
  { rest p with
    cgminerId := (t.mem p).cgminerId
    device := (t.mem (t.mem p).device).cgminerId
    nextProc := (t.mem p).nextProc.map fun q => (t.mem q).cgminerId
    procs := Int32.ofNat (t.mem p).procs
    deven := (t.mem p).deven }

/-- What the replies see of the table. -/
def toApi (st : ApiState) : ApiState := { st with devices := t.devices.map (t.shown rest) }

end

section
variable {t : ProcTable} {perProc : Bool} {param : Option CStr}

/-- A processor is found at the position that is its number. -/
theorem Numbered.getElem? (h : t.Numbered) {p : ℕ} (hp : p ∈ t.devices) :
    t.devices[(t.mem p).cgminerId]? = some p := by
  obtain ⟨i, hi, hget⟩ := List.getElem_of_mem hp
  have hsome : t.devices[i]? = some p := List.getElem?_eq_some_iff.mpr ⟨hi, hget⟩
  rw [h.numbered i p hsome, hsome]

theorem WellFormed.device_mem (h : t.WellFormed) {p : ℕ} (hp : p ∈ t.devices) :
    (t.mem p).device ∈ t.devices := by
  obtain ⟨devs, hdevs, hall⟩ := h.devices
  obtain ⟨d, hd, hpd⟩ := List.mem_flatten.mp (hdevs ▸ hp)
  obtain ⟨head, hhead, hdevice⟩ := (hall d hd).heads
  rw [hdevice p hpd, hdevs]
  exact List.mem_flatten_of_mem hd (List.mem_of_mem_head? hhead)

theorem WellFormed.counted_shown (h : t.WellFormed) (rest : ℕ → Cgpu) {p : ℕ}
    (hp : p ∈ t.devices) : (t.shown rest p).counted perProc = t.counted perProc p := by
  have hinj : (t.mem (t.mem p).device).cgminerId = (t.mem p).cgminerId ↔ (t.mem p).device = p := by
    refine ⟨fun heq => ?_, fun heq => congrArg (fun q => (t.mem q).cgminerId) heq⟩
    have hdev := h.numbered.getElem? (h.device_mem hp)
    rw [heq, h.numbered.getElem? hp] at hdev
    exact (Option.some.inj hdev).symm
  by_cases hdev : (t.mem p).device = p
  · simp [Cgpu.counted, counted, shown, hdev]
  · have hid := beq_eq_false_iff_ne.mpr (hinj.not.mpr hdev)
    have hne := bne_iff_ne.mpr hdev
    simp [Cgpu.counted, counted, shown, hid, hne]

/-- The processors that are counted are the same. -/
theorem WellFormed.filter_toApi (h : t.WellFormed) (rest : ℕ → Cgpu) (st : ApiState) :
    (t.toApi rest st).devices.filter (Cgpu.counted perProc) =
      (t.devices.filter (t.counted perProc)).map (t.shown rest) := by
  rw [toApi, List.filter_map]
  congr 1
  exact List.filter_congr fun p hp => h.counted_shown rest hp

/-- The commands go over the same processors. -/
theorem WellFormed.procChain_toApi (h : t.WellFormed) (rest : ℕ → Cgpu) (st : ApiState)
    {procs : List ℕ} {start : Option Cgpu}
    (hstart : ∀ p ∈ procs.head?, start = some (t.shown rest p))
    (hmem : ∀ p ∈ procs, p ∈ t.devices)
    (hlinked : procs.IsChain fun p next => (t.mem p).nextProc = some next) :
    procChain (t.toApi rest st) procs.length start = procs.map (t.shown rest) := by
  induction procs generalizing start with
  | nil => rfl
  | cons p procs ih =>
      obtain ⟨hnext, hrest⟩ := List.isChain_cons.mp hlinked
      rw [hstart p rfl, List.length_cons, procChain, List.map_cons,
        ih (fun q hq => ?_) (fun q hq => hmem q (List.mem_cons_of_mem _ hq)) hrest]
      have hq' := hmem q (List.mem_cons_of_mem _ (List.mem_of_mem_head? hq))
      have hlink : (t.shown rest p).nextProc = some (t.mem q).cgminerId := by
        simp [shown, hnext q hq]
      rw [hlink, Option.bind_some, toApi, List.getElem?_map, h.numbered.getElem? hq']
      rfl

/-- One of the processors that the replies look at is in some state. -/
theorem any_shown (rest : ℕ → Cgpu) (procs : List ℕ) (P : DevEnable → Prop) [DecidablePred P] :
    ((procs.map (t.shown rest)).any fun proc => decide (P proc.deven)) = true ↔
      ∃ p ∈ procs, P (t.mem p).deven := by
  simp only [List.any_map, List.any_eq_true, Function.comp_apply, decide_eq_true_eq]
  exact Iff.rfl

/-- What is addressed is found by the replies. -/
theorem WellFormed.withPga_toApi (h : t.WellFormed) (rest : ℕ → Cgpu) (st : ApiState)
    (act : ℕ → Cgpu → CmdReply) :
    withPga (t.toApi rest st) perProc param act =
      match t.getPgaCgpu perProc param with
      | .error reply => reply
      | .ok (id, cgpu) => act id.toNat (t.shown rest cgpu) := by
  have hnum : MassGridMiner.numpgas (t.toApi rest st) perProc = t.numpgas perProc := by
    rw [MassGridMiner.numpgas, List.countP_eq_length_filter, h.filter_toApi, List.length_map,
      numpgas, List.countP_eq_length_filter]
  cases haddr : t.addressed perProc param with
  | none =>
      rw [addressed] at haddr
      unfold withPga withId getPgaCgpu
      rw [hnum]
      by_cases hzero : t.numpgas perProc = 0
      · rw [if_pos hzero, if_pos hzero]
      · rw [if_neg hzero, if_neg hzero]
        dsimp only
        cases htext : given param with
        | none => rfl
        | some text =>
            rw [htext, Option.bind_some] at haddr
            dsimp only at haddr ⊢
            have hrange : atoi text.bytes < 0 ∨ (t.numpgas perProc : ℤ) ≤ atoi text.bytes := by
              by_contra hcon
              rw [if_neg (by omega), Option.map_eq_none_iff, List.getElem?_eq_none_iff,
                ← List.countP_eq_length_filter, ← numpgas] at haddr
              omega
            rw [if_pos hrange, if_pos hrange]
  | some found =>
      obtain ⟨id, cgpu⟩ := found
      rw [getPgaCgpu_of_addressed haddr]
      obtain ⟨text, htext, haddr⟩ := Option.bind_eq_some_iff.mp haddr
      dsimp only at haddr
      split at haddr
      · cases haddr
      · next hneg =>
        obtain ⟨c, hc, heq⟩ := Option.map_eq_some_iff.mp haddr
        obtain ⟨rfl, rfl⟩ := Prod.mk.inj heq
        have hlt : (atoi text.bytes).toNat < t.numpgas perProc := by
          rw [numpgas, List.countP_eq_length_filter]
          exact (List.getElem?_eq_some_iff.mp hc).1
        unfold withPga withId
        rw [hnum, if_neg (by omega), htext]
        dsimp only
        rw [if_neg (by omega), MassGridMiner.pgadevice, h.filter_toApi, List.getElem?_map, hc]
        rfl

/-- The processors that the replies look at. -/
theorem WellFormed.procsOf_toApi (h : t.WellFormed) (rest : ℕ → Cgpu) (st : ApiState) {id : ℤ}
    {cgpu : ℕ} {slaves : List ℕ} (haddr : t.addressed perProc param = some (id, cgpu))
    (hchain : Chain t perProc cgpu slaves) (hprocs : (t.mem cgpu).procs < 2 ^ 31) :
    procsOf (t.toApi rest st) perProc (t.shown rest cgpu) =
      (cgpu :: slaves).map (t.shown rest) := by
  have hturns : (if perProc then 1 else (t.shown rest cgpu).procs.toInt.toNat) =
      (cgpu :: slaves).length := by
    have hcount : (t.shown rest cgpu).procs.toInt.toNat = (t.mem cgpu).procs := by
      rw [shown, Int32.toInt_ofNat_of_lt (by simpa using hprocs), Int.toNat_natCast]
    rw [hcount, hchain.turns, List.length_cons]
  have hmem : ∀ p ∈ cgpu :: slaves, p ∈ t.devices := by
    intro p hp
    have htarget := (hchain.mem_targets p).mpr hp
    cases perProc with
    | true => exact List.mem_singleton.mp htarget ▸ (mem_of_addressed haddr).1
    | false => exact (List.mem_filter.mp htarget).1
  rw [procsOf, hturns]
  exact h.procChain_toApi rest st (by simp) hmem hchain.linked

end

end ProcTable

/-! ## What a command is to do -/

/-- The two commands. -/
inductive PgaCommand
  | pgaenable
  | pgadisable
  deriving DecidableEq

namespace PgaCommand

open ProcTable

/-- What is done, and the reply. -/
def run (cmd : PgaCommand) (t : ProcTable) (perProc : Bool) (param : Option CStr) :
    ProcTable × CmdReply :=
  match cmd with
  | .pgaenable => t.pgaenable perProc param
  | .pgadisable => t.pgadisable perProc param

/-- The message that it was so already. -/
def already : PgaCommand → ℕ
  | .pgaenable => Msg.pgalrena
  | .pgadisable => Msg.pgalrdis

/-- A processor is as the command wants it. -/
def IsDone (cmd : PgaCommand) (info : ProcInfo) : Prop := info.deven = .disabled ↔ cmd = .pgadisable

/-- Of some processors all are as the command wants them, no others change, and the client is
told when they were so already. -/
structure Obeyed (cmd : PgaCommand) (t : ProcTable) (id : ℤ) (procs : List ℕ)
    (result : ProcTable × CmdReply) : Prop where
  done : ∀ p ∈ procs, cmd.IsDone (result.1.mem p)
  others : ∀ p, p ∉ procs → result.1.mem p = t.mem p
  reply : result.2 = say cmd.already id .null ↔ ∀ p ∈ procs, cmd.IsDone (t.mem p)

/-- A command does so with the processors that it is about, and nothing where there are none. -/
def Meets (cmd : PgaCommand) (t : ProcTable) (perProc : Bool) (param : Option CStr) : Prop :=
  match t.addressed perProc param with
  | none => (cmd.run t perProc param).1 = t
  | some (id, cgpu) => cmd.Obeyed t id (t.targets perProc cgpu) (cmd.run t perProc param)

variable {t : ProcTable} {perProc : Bool} {param : Option CStr}

theorem say_ne_say {m m' : ℕ} (h : m ≠ m') (id : ℤ) : say m id .null ≠ say m' id .null := by
  intro heq
  exact h (congrArg (fun reply => reply.status.messageid2) heq)

/-- What `pgaenable` does with what is addressed. -/
theorem pgaenable_eq {id : ℤ} {cgpu : ℕ} {slaves : List ℕ}
    (haddr : t.addressed perProc param = some (id, cgpu)) (h : Chain t perProc cgpu slaves) :
    t.pgaenable perProc param = (t.enableAll (cgpu :: slaves),
      if ∀ p ∈ cgpu :: slaves, (t.mem p).deven ≠ .disabled then say Msg.pgalrena id .null
      else say Msg.pgaena id .null) := by
  rw [ProcTable.pgaenable, getPgaCgpu_of_addressed haddr]
  dsimp only
  rw [h.turns, ← List.length_cons, enableLoop_spec (by simp) h.linked]
  simp

/-- What `pgadisable` does with it. -/
theorem pgadisable_eq {id : ℤ} {cgpu : ℕ} {slaves : List ℕ}
    (haddr : t.addressed perProc param = some (id, cgpu)) (h : Chain t perProc cgpu slaves) :
    t.pgadisable perProc param =
      if ∀ p ∈ cgpu :: slaves, (t.mem p).deven = .disabled then (t, say Msg.pgalrdis id .null)
      else (t.procDisable cgpu, say Msg.pgadis id .null) := by
  rw [ProcTable.pgadisable, getPgaCgpu_of_addressed haddr]
  dsimp only
  rw [h.turns, ← List.length_cons, disableLoop_spec (by simp) h.linked h.notMem]
  split <;> rfl

/-- Where nothing is addressed nothing changes. -/
theorem run_of_not_addressed (cmd : PgaCommand) (h : t.addressed perProc param = none) :
    (cmd.run t perProc param).1 = t := by
  obtain ⟨reply, hreply⟩ := getPgaCgpu_of_not_addressed h
  cases cmd with
  | pgaenable => rw [run, ProcTable.pgaenable, hreply]
  | pgadisable => rw [run, ProcTable.pgadisable, hreply]

/-- The client's number is not negative where something is addressed. -/
theorem nonneg_of_addressed {id : ℤ} {cgpu : ℕ}
    (h : t.addressed perProc param = some (id, cgpu)) : 0 ≤ id := by
  obtain ⟨text, -, h⟩ := Option.bind_eq_some_iff.mp h
  dsimp only at h
  split at h
  · cases h
  · next hneg =>
    obtain ⟨c, -, heq⟩ := Option.map_eq_some_iff.mp h
    exact (Prod.mk.inj heq).1 ▸ not_lt.mp hneg

/-- The reply of a command is the one that goes to the client. -/
theorem reply_run (h : t.WellFormed) (hprocs : ∀ p ∈ t.devices, (t.mem p).procs < 2 ^ 31)
    (cmd : PgaCommand) (rest : ℕ → Cgpu) (st : ApiState) :
    (cmd.run t perProc param).2 =
      match cmd with
      | .pgaenable => MassGridMiner.pgaenable (t.toApi rest st) perProc param
      | .pgadisable => MassGridMiner.pgadisable (t.toApi rest st) perProc param := by
  cases haddr : t.addressed perProc param with
  | none =>
      obtain ⟨reply, hreply⟩ := getPgaCgpu_of_not_addressed haddr
      cases cmd with
      | pgaenable =>
          rw [run, ProcTable.pgaenable, MassGridMiner.pgaenable, h.withPga_toApi, hreply]
      | pgadisable =>
          rw [run, ProcTable.pgadisable, MassGridMiner.pgadisable, h.withPga_toApi, hreply]
  | some found =>
      obtain ⟨id, cgpu⟩ := found
      obtain ⟨slaves, hchain⟩ := h.exists_chain haddr
      have hid : (id.toNat : ℤ) = id := Int.toNat_of_nonneg (nonneg_of_addressed haddr)
      have hlist := h.procsOf_toApi rest st haddr hchain (hprocs cgpu (mem_of_addressed haddr).1)
      cases cmd with
      | pgaenable =>
          rw [run, pgaenable_eq haddr hchain, MassGridMiner.pgaenable, h.withPga_toApi,
            getPgaCgpu_of_addressed haddr]
          dsimp only
          have hany := any_shown (t := t) rest (cgpu :: slaves) (fun deven => deven = .disabled)
          rw [hlist, hid]
          by_cases hall : ∀ p ∈ cgpu :: slaves, (t.mem p).deven ≠ .disabled
          · rw [if_pos hall, if_neg]
            intro hcon
            obtain ⟨p, hp, hdis⟩ := hany.mp hcon
            exact hall p hp hdis
          · rw [if_neg hall, if_pos]
            exact hany.mpr (by simpa only [not_forall, not_not, exists_prop] using hall)
      | pgadisable =>
          rw [run, pgadisable_eq haddr hchain, MassGridMiner.pgadisable, h.withPga_toApi,
            getPgaCgpu_of_addressed haddr]
          dsimp only
          have hany := any_shown (t := t) rest (cgpu :: slaves) (fun deven => deven ≠ .disabled)
          rw [hlist, hid]
          by_cases hall : ∀ p ∈ cgpu :: slaves, (t.mem p).deven = .disabled
          · rw [if_pos hall, if_neg]
            intro hcon
            obtain ⟨p, hp, hdis⟩ := hany.mp hcon
            exact hdis (hall p hp)
          · rw [if_neg hall, if_pos]
            exact hany.mpr (by simpa only [not_forall, exists_prop] using hall)

/-- `pgaenable` does what it is to do. -/
theorem obeyed_pgaenable {id : ℤ} {cgpu : ℕ} {slaves : List ℕ}
    (haddr : t.addressed perProc param = some (id, cgpu)) (h : Chain t perProc cgpu slaves) :
    Obeyed .pgaenable t id (cgpu :: slaves) (t.pgaenable perProc param) := by
  rw [pgaenable_eq haddr h]
  refine ⟨fun p hp => ?_, fun p hp => ?_, ?_⟩
  · by_cases hdis : (t.mem p).deven = .disabled
    · simp [IsDone, enableAll, List.mem_cons.mp hp, hdis]
    · simp [IsDone, enableAll, hdis]
  · exact if_neg fun hcon => hp hcon.1
  · have hdone : (∀ p ∈ cgpu :: slaves, IsDone .pgaenable (t.mem p)) ↔
        ∀ p ∈ cgpu :: slaves, (t.mem p).deven ≠ .disabled := by simp [IsDone]
    rw [hdone]
    dsimp only
    split
    · next hall => exact ⟨fun _ => hall, fun _ => rfl⟩
    · next hnot =>
      exact ⟨fun heq => absurd heq (say_ne_say (by decide) id), fun hall => absurd hall hnot⟩

/-- `pgadisable` does so exactly when the other processors are disabled already. -/
theorem obeyed_pgadisable_iff {id : ℤ} {cgpu : ℕ} {slaves : List ℕ}
    (haddr : t.addressed perProc param = some (id, cgpu)) (h : Chain t perProc cgpu slaves) :
    Obeyed .pgadisable t id (cgpu :: slaves) (t.pgadisable perProc param) ↔
      ∀ p ∈ slaves, (t.mem p).deven = .disabled := by
  have hother : ∀ p, p ≠ cgpu → (t.procDisable cgpu).mem p = t.mem p := fun p hp =>
    Function.update_of_ne hp _ _
  have hself : ((t.procDisable cgpu).mem cgpu).deven = .disabled := by
    simp [procDisable, write]
  have hne : ∀ p ∈ slaves, p ≠ cgpu := fun p hp heq => h.notMem (heq ▸ hp)
  have hdone : ∀ info, IsDone .pgadisable info ↔ info.deven = .disabled := by simp [IsDone]
  rw [pgadisable_eq haddr h]
  split
  · next hall =>
    refine ⟨fun _ p hp => hall p (List.mem_cons_of_mem _ hp), fun _ => ⟨?_, fun p _ => rfl, ?_⟩⟩
    · exact fun p hp => (hdone _).mpr (hall p hp)
    · exact ⟨fun _ p hp => (hdone _).mpr (hall p hp), fun _ => rfl⟩
  · next hnot =>
    constructor
    · intro hobeyed p hp
      rw [← hother p (hne p hp)]
      exact (hdone _).mp (hobeyed.done p (List.mem_cons_of_mem _ hp))
    · intro hslaves
      refine ⟨fun p hp => (hdone _).mpr ?_, fun p hp => hother p (List.ne_of_not_mem_cons hp), ?_⟩
      · rcases List.mem_cons.mp hp with rfl | hp
        · exact hself
        · exact (congrArg ProcInfo.deven (hother p (hne p hp))).trans (hslaves p hp)
      · exact ⟨fun heq => absurd heq (say_ne_say (by decide) id),
          fun hall => absurd (fun p hp => (hdone _).mp (hall p hp)) hnot⟩

/-- **A command does what it is to do**, exactly unless it is to disable a processor of a device
other than the first. -/
theorem meets_iff (h : t.WellFormed) (cmd : PgaCommand) (perProc : Bool) (param : Option CStr) :
    cmd.Meets t perProc param ↔
      (cmd = .pgadisable → ∀ id cgpu, t.addressed perProc param = some (id, cgpu) →
        ∀ p ∈ t.targets perProc cgpu, p ≠ cgpu → (t.mem p).deven = .disabled) := by
  cases haddr : t.addressed perProc param with
  | none => simp [Meets, haddr, run_of_not_addressed cmd haddr]
  | some found =>
      obtain ⟨id, cgpu⟩ := found
      obtain ⟨slaves, hchain⟩ := h.exists_chain haddr
      have htargets : cmd.Meets t perProc param ↔
          cmd.Obeyed t id (cgpu :: slaves) (cmd.run t perProc param) := by
        have hmem := hchain.mem_targets
        rw [Meets, haddr]
        dsimp only
        constructor
        · rintro ⟨hdone, hothers, hreply⟩
          exact ⟨fun p hp => hdone p ((hmem p).mpr hp),
            fun p hp => hothers p fun hp' => hp ((hmem p).mp hp'),
            by simpa only [hmem] using hreply⟩
        · rintro ⟨hdone, hothers, hreply⟩
          exact ⟨fun p hp => hdone p ((hmem p).mp hp),
            fun p hp => hothers p fun hp' => hp ((hmem p).mpr hp'),
            by simpa only [hmem] using hreply⟩
      have hslaves : (∀ p ∈ t.targets perProc cgpu, p ≠ cgpu → (t.mem p).deven = .disabled) ↔
          ∀ p ∈ slaves, (t.mem p).deven = .disabled := by
        constructor
        · intro hall p hp
          exact hall p ((hchain.mem_targets p).mpr (List.mem_cons_of_mem _ hp))
            fun heq => hchain.notMem (heq ▸ hp)
        · intro hall p hp hne
          exact hall p ((List.mem_cons.mp ((hchain.mem_targets p).mp hp)).resolve_left hne)
      rw [htargets]
      cases cmd with
      | pgaenable => exact ⟨fun _ hcmd => (nomatch hcmd), fun _ => obeyed_pgaenable haddr hchain⟩
      | pgadisable =>
          rw [run, obeyed_pgadisable_iff haddr hchain, ← hslaves]
          constructor
          · rintro hall - id' cgpu' heq
            obtain ⟨-, rfl⟩ := Prod.mk.inj (Option.some.inj heq)
            exact hall
          · exact fun hall => hall rfl id cgpu rfl

/-- A device of two processors, both enabled. -/
def pair : ProcTable where
  mem p := ⟨1, if p = 1 then some 2 else none, 2, p - 1, p - 1, .enabled⟩
  devices := [1, 2]
  cgminerIdCount := 2
  devicesNew := []

theorem wellFormed_pair : pair.WellFormed := by
  refine ⟨⟨rfl, by decide, fun i p hp => ?_⟩, by decide, ⟨[[1, 2]], rfl, ?_⟩, ⟨[], rfl, by simp⟩⟩
  · match i with
    | 0 => obtain rfl := Option.some.inj hp; rfl
    | 1 => obtain rfl := Option.some.inj hp; rfl
    | i + 2 => cases hp
  · intro d hd
    obtain rfl := List.mem_singleton.mp hd
    exact ⟨⟨1, rfl, fun p _ => rfl⟩, fun p _ => rfl, by simp [pair]⟩

theorem meets_pair : PgaCommand.pgaenable.Meets pair false (some (cstr "0")) :=
  (meets_iff wellFormed_pair .pgaenable false _).mpr fun h => nomatch h

/-- The second of the two stays enabled. -/
theorem not_meets_pair :
    pair.WellFormed ∧ ¬PgaCommand.pgadisable.Meets pair false (some (cstr "0")) := by
  refine ⟨wellFormed_pair, fun h => ?_⟩
  have haddr : pair.addressed false (some (cstr "0")) = some (0, 1) := by
    decide +kernel
  obtain ⟨slaves, hchain⟩ := wellFormed_pair.exists_chain haddr
  have hnot : ¬∀ p ∈ 1 :: slaves, (pair.mem p).deven = .disabled := fun hall =>
    absurd (hall 1 List.mem_cons_self) (by decide)
  rw [Meets, haddr, run, pgadisable_eq haddr hchain, if_neg hnot] at h
  exact absurd ((h.done 2 (by decide)).mpr rfl) (by decide)

end PgaCommand

end MassGridMiner

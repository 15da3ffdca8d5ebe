import MassGridMiner.Device.Table
import MassGridMiner.Lib.CString
import Mathlib.Algebra.Order.BigOperators.Group.List
import Mathlib.Algebra.Order.Group.Nat
import Mathlib.Data.List.Infix

/-!
# The clients of the proxy

Each user name has a client, with a virtual device of its own.  The client of a name that is new
is made while the table is locked, and the device is registered on the way.  Where the device
cannot be made the table stays locked, and no call returns from then on.

## Main definitions

* `createNewCgpus` — devices are added and registered, unless memory runs out.
* `ProxyTable.findOrCreate` — the client of a name.
* `ProxyTable.ServesRight` — what is expected of the calls of a run.
* `ProxyTable.servesRight_iff` — it holds if each name's device is made when the name is new.
-/

namespace MassGridMiner

/-! ## Devices are made -/

/-- `malloc`: the memory that it gives out is not in use. -/
structure Malloc where
  alloc : List ℕ → ℕ
  fresh : ∀ used, alloc used ∉ used

/-- The table of the processors, with the threads that each asks for, and the counts of the
processors and of the mining threads. -/
structure Machine where
  procs : ProcTable
  threads : ℕ → ℕ
  totalDevices : ℕ
  miningThreads : ℕ

/-- The allocations of `create_new_cgpus` that succeed: the two arrays, and the thread objects. -/
structure Growth where
  devices : Bool
  miningThr : Bool
  thr : ℕ → Bool

namespace Machine

/-- The thread objects of a processor. -/
def threadObjs (m : Machine) (p : ℕ) : ℕ := if m.threads p = 0 then 1 else m.threads p

/-- The thread objects of the processors that are added. -/
def miningThreadsNew (m : Machine) : ℕ := (m.procs.devicesNew.map m.threadObjs).sum

/-- `register_device`, and the turn of the loop that it is in. -/
def register (m : Machine) (cgpu : ℕ) : Machine :=
  { m with
    procs := m.procs.registerDevice cgpu
    miningThreads := m.miningThreads + m.threadObjs cgpu
    totalDevices := m.totalDevices + 1 }

end Machine

/-- `create_new_cgpus`, with the number of processors that it makes. -/
def createNewCgpus (addfunc : Machine → Machine) (grow : Growth) (m : Machine) : Machine × ℤ :=
  let devcount := m.totalDevices
  let m := addfunc m
  let m :=
    if m.procs.devicesNew = [] then m
    else if !grow.devices then m
    else if !grow.miningThr then m
    else if !(List.range m.miningThreadsNew).all grow.thr then m
    else m.procs.devicesNew.foldl Machine.register m
  ({ m with procs := { m.procs with devicesNew := [] } }, m.totalDevices - devcount)

/-! ## Clients -/

/-- The device of a client as it is filled in before it is added. -/
def proxyInfo : ProcInfo := ⟨0, none, 0, 0, 0, .enabled⟩

/-- A client's device is filled in, and added by `add_cgpu_live`. -/
def addCgpuLive (cgpu : ℕ) (m : Machine) : Machine :=
  { m with
    procs := (m.procs.write cgpu fun _ => proxyInfo).addCgpu cgpu []
    threads := Function.update m.threads cgpu 0 }

/-- A `struct proxy_client`, with where it is. -/
structure ProxyTable.Client where
  addr : ℕ
  username : CStr
  cgpu : ℕ

/-- What `proxy_clients` and its lock hold, and the devices. -/
structure ProxyTable where
  machine : Machine
  clients : List ProxyTable.Client
  locked : Bool

namespace ProxyTable

/-- A call: the name, the memory that the device and the client get, and what of the growth of the
tables succeeds. -/
structure Call where
  username : Option CStr
  malloc : Malloc
  grow : Growth

/-- The memory in use. -/
def used (t : ProxyTable) : List ℕ :=
  t.machine.procs.devices ++ t.machine.procs.devicesNew ++ t.clients.map Client.addr

/-- `proxy_find_or_create_client`: the state that it leaves, and the client that it returns.  It
waits for good where the table is locked. -/
def findOrCreate (t : ProxyTable) (call : Call) : Option (ProxyTable × Option Client) :=
  match call.username with
  | none => some (t, none)
  | some username =>
    if t.locked then none
    else
      match t.clients.find? fun client => client.username = username with
      | some client => some (t, some client)
      | none =>
        let cgpu := call.malloc.alloc t.used
        let addr := call.malloc.alloc (cgpu :: t.used)
        let (machine, created) := createNewCgpus (addCgpuLive cgpu) call.grow t.machine
        if created = 0 then some ({ t with machine, locked := true }, none)
        else
          let client := { addr, username, cgpu }
          some ({ machine, clients := t.clients ++ [client], locked := false }, some client)

/-- One call of a run. -/
def step (t : ProxyTable) (call : Call) : Option ProxyTable := (t.findOrCreate call).map Prod.fst

/-- What call number `i` of a run does. -/
def outcome (t : ProxyTable) (calls : List Call) (i : ℕ) : Option (ProxyTable × Option Client) :=
  calls[i]?.bind fun call => (Run.exec step t (calls.take i)).bind fun t => t.findOrCreate call

/-- Before any call. -/
def init (machine : Machine) : ProxyTable := ⟨machine, [], false⟩

/-! ## What is expected of a run -/

/-- Nothing that a call needs fails: its name is one, and the three allocations for one device
succeed. -/
def Call.Able (call : Call) : Prop :=
  call.username.isSome ∧ call.grow.devices ∧ call.grow.miningThr ∧ call.grow.thr 0

/-- Every call returns, with the table unlocked; equal names get the same client, and different
names different clients and devices; and after a call that fails the table is as it was, and a
call with the same name succeeds if nothing that it needs fails. -/
structure ServesRight (t : ProxyTable) (calls : List Call) : Prop where
  returns : ∀ i < calls.length, ∃ t' r, outcome t calls i = some (t', r) ∧ t'.locked = false
  same : ∀ i j call call' t₁ t₂ c c', calls[i]? = some call → calls[j]? = some call' →
    outcome t calls i = some (t₁, some c) → outcome t calls j = some (t₂, some c') →
    call.username = call'.username → c = c'
  different : ∀ i j call call' t₁ t₂ c c', calls[i]? = some call → calls[j]? = some call' →
    outcome t calls i = some (t₁, some c) → outcome t calls j = some (t₂, some c') →
    call.username ≠ call'.username → c.addr ≠ c'.addr ∧ c.cgpu ≠ c'.cgpu
  failed : ∀ i call t₁ t₂, calls[i]? = some call →
    Run.exec step t (calls.take i) = some t₁ → outcome t calls i = some (t₂, none) →
    t₂.clients = t₁.clients ∧ ∀ again : Call, again.username = call.username → again.Able →
      ∃ t₃ c, t₂.findOrCreate again = some (t₃, some c)

/-- The device of each name is made when the name is met first. -/
def EachCreated (calls : List Call) : Prop :=
  ∀ front call rest, calls = front ++ call :: rest → call.username.isSome →
    (∀ before ∈ front, before.username ≠ call.username) → call.Able

/-! ## Devices are made or not -/

/-- What `create_new_cgpus` leaves behind when it is to make one device. -/
structure OneMade (m m' : Machine) (cgpu : ℕ) (created : ℤ) (made : Prop) : Prop where
  wellFormed : m'.procs.WellFormed
  devicesNew : m'.procs.devicesNew = []
  devices : made → m'.procs.devices = m.procs.devices ++ [cgpu]
  same : ¬made → m'.procs.devices = m.procs.devices
  created : created ≠ 0 ↔ made

/-- The device is added, and becomes the only one that is to be registered. -/
theorem addCgpuLive_spec {m : Machine} {cgpu : ℕ} (hwf : m.procs.WellFormed)
    (hnew : m.procs.devicesNew = []) (hcgpu : cgpu ∉ m.procs.devices) :
    (addCgpuLive cgpu m).procs.WellFormed ∧ (addCgpuLive cgpu m).procs.devicesNew = [cgpu] ∧
      (addCgpuLive cgpu m).procs.devices = m.procs.devices ∧
      (addCgpuLive cgpu m).miningThreadsNew = 1 := by
  have hfresh : m.procs.isFresh cgpu proxyInfo [] = true := by
    rw [ProcTable.isFresh, hnew, decide_eq_true_iff, List.append_nil]
    exact ⟨hwf.numbered.nodup.append (List.nodup_singleton cgpu) (by simpa using hcgpu), rfl, rfl⟩
  have hadded := ProcTable.added_of_isFresh hfresh
  have hdevicesNew : (addCgpuLive cgpu m).procs.devicesNew = [cgpu] := by
    have h := hadded.devicesNew
    rwa [hnew, List.nil_append] at h
  have hstep : m.procs.step (.addCgpu cgpu proxyInfo []) = some (addCgpuLive cgpu m).procs :=
    if_pos hfresh
  refine ⟨hwf.step hstep, hdevicesNew, hadded.devices, ?_⟩
  rw [Machine.miningThreadsNew, hdevicesNew]
  simp [Machine.threadObjs, addCgpuLive]

/-- Where the allocations succeed the device is registered, and else it is dropped. -/
theorem createNewCgpus_spec {m : Machine} {cgpu : ℕ} (grow : Growth) (hwf : m.procs.WellFormed)
    (hnew : m.procs.devicesNew = []) (hcgpu : cgpu ∉ m.procs.devices) :
    OneMade m (createNewCgpus (addCgpuLive cgpu) grow m).1 cgpu
      (createNewCgpus (addCgpuLive cgpu) grow m).2
      (grow.devices ∧ grow.miningThr ∧ grow.thr 0) := by
  obtain ⟨hwf', hdevicesNew, hdevices, hthreads⟩ := addCgpuLive_spec hwf hnew hcgpu
  have hall : (List.range 1).all grow.thr = grow.thr 0 := by simp
  have htotal : (addCgpuLive cgpu m).totalDevices = m.totalDevices := rfl
  by_cases hmade : grow.devices ∧ grow.miningThr ∧ grow.thr 0
  · obtain ⟨h1, h2, h3⟩ := hmade
    have hresult : createNewCgpus (addCgpuLive cgpu) grow m =
        ({ (addCgpuLive cgpu m).register cgpu with
            procs := { (addCgpuLive cgpu m).procs.registerDevice cgpu with devicesNew := [] } },
          1) := by
      simp [createNewCgpus, hdevicesNew, hthreads, h1, h2, h3, Machine.register, htotal]
    have hregister : (addCgpuLive cgpu m).procs.step .registerNew =
        some { (addCgpuLive cgpu m).procs.registerDevice cgpu with devicesNew := [] } := by
      simp [ProcTable.step, ProcTable.registerAll, hdevicesNew]
    rw [hresult]
    refine ⟨hwf'.step hregister, rfl, fun _ => ?_, fun hnot => absurd ⟨h1, h2, h3⟩ hnot,
      by simp [h1, h2, h3]⟩
    rw [← hdevices]
    exact hwf'.numbered.devices_registerDevice cgpu
  · have hresult : createNewCgpus (addCgpuLive cgpu) grow m =
        ({ addCgpuLive cgpu m with
            procs := { (addCgpuLive cgpu m).procs with devicesNew := [] } }, 0) := by
      rw [createNewCgpus, hthreads, hall]
      cases h1 : grow.devices <;> cases h2 : grow.miningThr <;> cases h3 : grow.thr 0 <;>
        simp_all
    have hdrop : (addCgpuLive cgpu m).procs.step .dropNew =
        some { (addCgpuLive cgpu m).procs with devicesNew := [] } := rfl
    rw [hresult]
    exact ⟨hwf'.step hdrop, rfl, fun h => absurd h hmade, fun _ => hdevices, by simp [hmade]⟩

/-! ## What a call does -/

/-- What every run keeps of the table. -/
structure Kept (t : ProxyTable) : Prop where
  wellFormed : t.machine.procs.WellFormed
  devicesNew : t.machine.procs.devicesNew = []
  usernames : (t.clients.map Client.username).Nodup
  addrs : (t.clients.map Client.addr).Nodup
  cgpus : (t.clients.map Client.cgpu).Nodup
  registered : ∀ c ∈ t.clients, c.cgpu ∈ t.machine.procs.devices

/-- A call has no name, or one that has a client already, or one that gets a client, or one that
does not. -/
inductive Served (t : ProxyTable) (call : Call) : ProxyTable → Option Client → Prop
  | noName (h : call.username = none) : Served t call t none
  | found {c : Client} (hc : c ∈ t.clients) (h : call.username = some c.username) :
      Served t call t (some c)
  | created {t' : ProxyTable} {c : Client} (hnew : ∀ d ∈ t.clients, d.username ≠ c.username)
      (h : call.username = some c.username) (hable : call.Able)
      (hclients : t'.clients = t.clients ++ [c]) (hlocked : t'.locked = false) :
      Served t call t' (some c)
  | failed {t' : ProxyTable} {name : CStr} (h : call.username = some name)
      (hnew : ∀ d ∈ t.clients, d.username ≠ name) (hable : ¬call.Able)
      (hclients : t'.clients = t.clients) (hlocked : t'.locked = true) : Served t call t' none

/-- A call that returns is one of these, and keeps the table in order. -/
theorem Kept.served {t t' : ProxyTable} {call : Call} {r : Option Client} (H : Kept t)
    (hcall : t.findOrCreate call = some (t', r)) : Served t call t' r ∧ Kept t' := by
  unfold findOrCreate at hcall
  cases hname : call.username with
  | none =>
    simp only [hname, Option.some.injEq, Prod.mk.injEq] at hcall
    obtain ⟨rfl, rfl⟩ := hcall
    exact ⟨.noName hname, H⟩
  | some name =>
    simp only [hname] at hcall
    split at hcall
    · cases hcall
    · cases hfind : t.clients.find? fun client => client.username = name with
      | some c =>
        simp only [hfind, Option.some.injEq, Prod.mk.injEq] at hcall
        obtain ⟨rfl, rfl⟩ := hcall
        have hc : c.username = name := by simpa using List.find?_some hfind
        exact ⟨.found (List.mem_of_find?_eq_some hfind) (by rw [hname, hc]), H⟩
      | none =>
        have hnew : ∀ d ∈ t.clients, d.username ≠ name := fun d hd => by
          simpa using List.find?_eq_none.mp hfind d hd
        simp only [hfind] at hcall
        set cgpu := call.malloc.alloc t.used with hcgpu
        set addr := call.malloc.alloc (cgpu :: t.used) with haddr
        have hcgpuUsed : cgpu ∉ t.used := call.malloc.fresh _
        have haddrUsed : addr ∉ t.used := fun h =>
          call.malloc.fresh (cgpu :: t.used) (List.mem_cons_of_mem _ h)
        have hdevices : cgpu ∉ t.machine.procs.devices := fun h =>
          hcgpuUsed (List.mem_append_left _ (List.mem_append_left _ h))
        have hmade := createNewCgpus_spec call.grow H.wellFormed H.devicesNew hdevices
        have hable : call.Able ↔ call.grow.devices ∧ call.grow.miningThr ∧ call.grow.thr 0 := by
          simp [Call.Able, hname]
        split at hcall
        · next hzero =>
          simp only [Option.some.injEq, Prod.mk.injEq] at hcall
          obtain ⟨rfl, rfl⟩ := hcall
          have hnot := fun h => hmade.created.mpr (hable.mp h) hzero
          refine ⟨.failed hname hnew hnot rfl rfl, hmade.wellFormed, hmade.devicesNew,
            H.usernames, H.addrs, H.cgpus, fun c hc => ?_⟩
          rw [hmade.same (fun h => hnot (hable.mpr h))]
          exact H.registered c hc
        · next hone =>
          simp only [Option.some.injEq, Prod.mk.injEq] at hcall
          obtain ⟨rfl, rfl⟩ := hcall
          have hyes := hmade.created.mp hone
          refine ⟨.created hnew hname (hable.mpr hyes) rfl rfl, hmade.wellFormed,
            hmade.devicesNew, ?_, ?_, ?_, fun c hc => ?_⟩
          · rw [List.map_append]
            exact H.usernames.append (List.nodup_singleton _) (by simpa using hnew)
          · rw [List.map_append]
            refine H.addrs.append (List.nodup_singleton _) ?_
            simpa using fun c hc (heq : c.addr = addr) => haddrUsed
              (List.mem_append_right _ (List.mem_map.mpr ⟨c, hc, heq⟩))
          · rw [List.map_append]
            refine H.cgpus.append (List.nodup_singleton _) ?_
            simpa using fun c hc (heq : c.cgpu = cgpu) => hdevices (heq ▸ H.registered c hc)
          · rw [hmade.devices hyes]
            rcases List.mem_append.mp hc with hc | hc
            · exact List.mem_append_left _ (H.registered c hc)
            · obtain rfl := List.mem_singleton.mp hc
              exact List.mem_append_right _ (List.mem_singleton_self _)

theorem kept_init {machine : Machine} (hwf : machine.procs.WellFormed)
    (hnew : machine.procs.devicesNew = []) : Kept (init machine) :=
  ⟨hwf, hnew, List.nodup_nil, List.nodup_nil, List.nodup_nil, fun _ hc => by cases hc⟩

/-- A table that is not locked answers every call. -/
theorem exists_findOrCreate {t : ProxyTable} (hlocked : t.locked = false) (call : Call) :
    ∃ t' r, t.findOrCreate call = some (t', r) := by
  unfold findOrCreate
  split
  · exact ⟨_, _, rfl⟩
  · rw [if_neg (by simp [hlocked])]
    split
    · exact ⟨_, _, rfl⟩
    · dsimp only
      split
      · exact ⟨_, _, rfl⟩
      · exact ⟨_, _, rfl⟩

section
variable {t t' : ProxyTable} {call : Call} {r : Option Client}

/-- A call for which nothing fails gets a client, in a table that is not locked. -/
theorem Served.of_able (h : Served t call t' r) (hable : call.Able) : ∃ c, r = some c := by
  cases h with
  | noName hname => simp [Call.Able, hname] at hable
  | found => exact ⟨_, rfl⟩
  | created => exact ⟨_, rfl⟩
  | failed _ _ hnot => exact absurd hable hnot

/-- No client goes, and none comes but for the name that is called for. -/
theorem Served.prefix (h : Served t call t' r) :
    t.clients <+: t'.clients ∧
      ∀ c ∈ t'.clients, c ∈ t.clients ∨ call.username = some c.username := by
  cases h with
  | noName => exact ⟨List.prefix_refl _, fun c hc => .inl hc⟩
  | found => exact ⟨List.prefix_refl _, fun c hc => .inl hc⟩
  | created _ hname _ hclients =>
    rw [hclients]
    refine ⟨List.prefix_append _ _, fun c hc => ?_⟩
    rcases List.mem_append.mp hc with hc | hc
    · exact .inl hc
    · obtain rfl := List.mem_singleton.mp hc
      exact .inr hname
  | failed _ _ _ hclients =>
    rw [hclients]
    exact ⟨List.prefix_refl _, fun c hc => .inl hc⟩

/-- A client that is returned is in the table, with the name. -/
theorem Served.mem {c : Client} (h : Served t call t' (some c)) :
    c ∈ t'.clients ∧ call.username = some c.username := by
  cases h with
  | found hc hname => exact ⟨hc, hname⟩
  | created _ hname _ hclients => exact ⟨hclients ▸ by simp, hname⟩

end

/-! ## Runs -/

section
variable {t t' : ProxyTable} {calls : List Call}

theorem step_eq_some {call : Call} :
    step t call = some t' ↔ ∃ r, t.findOrCreate call = some (t', r) := by
  simp [step]

theorem Kept.exec (H : Kept t) (hrun : Run.exec step t calls = some t') : Kept t' := by
  refine Run.exec_of_invariant (fun _ _ _ H hstep => ?_) H hrun
  obtain ⟨r, hcall⟩ := step_eq_some.mp hstep
  exact (H.served hcall).2

/-- The clients at the end of a run are those at its start, and then some with names of it. -/
theorem Kept.exec_clients (H : Kept t) (hrun : Run.exec step t calls = some t') :
    t.clients <+: t'.clients ∧ ∀ c ∈ t'.clients,
      c ∈ t.clients ∨ ∃ call ∈ calls, call.username = some c.username := by
  induction calls generalizing t with
  | nil =>
      obtain rfl := Option.some.inj hrun
      exact ⟨List.prefix_refl _, fun c hc => .inl hc⟩
  | cons call calls ih =>
      obtain ⟨t1, hstep, hrest⟩ := Option.bind_eq_some_iff.mp hrun
      obtain ⟨r, hcall⟩ := step_eq_some.mp hstep
      obtain ⟨hserved, hkept⟩ := H.served hcall
      obtain ⟨hpre, hnames⟩ := hserved.prefix
      obtain ⟨hpre', hnames'⟩ := ih hkept hrest
      refine ⟨hpre.trans hpre', fun c hc => ?_⟩
      rcases hnames' c hc with hc | ⟨later, hlater, hname⟩
      · exact (hnames c hc).imp id fun hname => ⟨call, List.mem_cons_self, hname⟩
      · exact .inr ⟨later, List.mem_cons_of_mem _ hlater, hname⟩

/-- What a call of a run does, from the state in front of it. -/
theorem outcome_eq_some {i : ℕ} {r : Option Client} : outcome t calls i = some (t', r) ↔
    ∃ call s, calls[i]? = some call ∧ Run.exec step t (calls.take i) = some s ∧
      s.findOrCreate call = some (t', r) := by
  simp [outcome, Option.bind_eq_some_iff]

/-- It leads to the state behind it. -/
theorem exec_of_outcome {i : ℕ} {r : Option Client} (h : outcome t calls i = some (t', r)) :
    Run.exec step t (calls.take (i + 1)) = some t' := by
  obtain ⟨call, s, hcall, hrun, hfind⟩ := outcome_eq_some.mp h
  rw [List.take_add_one, hcall, Option.toList_some, Run.exec_append, hrun, Option.bind_some,
    Run.exec_cons, step_eq_some.mpr ⟨r, hfind⟩]
  rfl

/-- Two clients that calls of a run return are in one table. -/
theorem Kept.exists_common (H : Kept t) {i j : ℕ} {t₁ t₂ : ProxyTable} {c c' : Client}
    (h₁ : outcome t calls i = some (t₁, some c)) (h₂ : outcome t calls j = some (t₂, some c')) :
    ∃ s, Kept s ∧ c ∈ s.clients ∧ c' ∈ s.clients := by
  have hmem : ∀ {k s d}, outcome t calls k = some (s, some d) → d ∈ s.clients := by
    intro k s d h
    obtain ⟨call, s', -, hrun, hfind⟩ := outcome_eq_some.mp h
    exact ((H.exec hrun).served hfind).1.mem.1
  -- the later of the two states has the clients of the earlier one
  have hlater : ∀ {k l s s' d d'}, k ≤ l → outcome t calls k = some (s, some d) →
      outcome t calls l = some (s', some d') → s.clients <+: s'.clients := by
    intro k l s s' d d' hkl hk hl
    have hsplit : calls.take (l + 1) = calls.take (k + 1) ++ (calls.drop (k + 1)).take (l - k) := by
      rw [← List.take_add]
      congr 1
      omega
    have hrun := exec_of_outcome hl
    rw [hsplit, Run.exec_append, exec_of_outcome hk, Option.bind_some] at hrun
    exact ((H.exec (exec_of_outcome hk)).exec_clients hrun).1
  rcases Nat.le_total i j with hij | hij
  · exact ⟨t₂, H.exec (exec_of_outcome h₂), (hlater hij h₁ h₂).subset (hmem h₁), hmem h₂⟩
  · exact ⟨t₁, H.exec (exec_of_outcome h₁), hmem h₁, (hlater hij h₂ h₁).subset (hmem h₂)⟩

/-- A call of a run that returns a client returns one with its name. -/
theorem Kept.username_of_outcome (H : Kept t) {i : ℕ} {t₁ : ProxyTable} {c : Client} {call : Call}
    (hcall : calls[i]? = some call) (h : outcome t calls i = some (t₁, some c)) :
    call.username = some c.username := by
  obtain ⟨call', s, hcall', hrun, hfind⟩ := outcome_eq_some.mp h
  obtain rfl := Option.some.inj (hcall.symm.trans hcall')
  exact ((H.exec hrun).served hfind).1.mem.2

end

/-! ## When the calls are served right -/

section
variable {machine : Machine} {calls front : List Call} {call : Call}

/-- The table is not locked, and has a client for each name that was called for. -/
def Open (t : ProxyTable) (front : List Call) : Prop :=
  t.locked = false ∧
    ∀ before ∈ front, ∀ name, before.username = some name → ∃ c ∈ t.clients, c.username = name

/-- A call whose name has a client, or for which nothing fails, leaves the table open. -/
theorem Open.served {t t' : ProxyTable} {r : Option Client} (h : Open t front)
    (hserved : Served t call t' r)
    (hable : call.username.isSome → (∀ before ∈ front, before.username ≠ call.username) →
      call.Able) : Open t' (front ++ [call]) := by
  have hkeep := hserved.prefix.1.subset
  have hlast : t'.locked = false ∧
      ∀ name, call.username = some name → ∃ c ∈ t'.clients, c.username = name := by
    cases hserved with
    | noName hname => exact ⟨h.1, fun name hname' => by rw [hname] at hname'; cases hname'⟩
    | @found c hc hname =>
      refine ⟨h.1, fun name hname' => ⟨c, hc, ?_⟩⟩
      exact Option.some.inj (hname.symm.trans hname')
    | @created _ c _ hname _ hclients hlocked =>
      refine ⟨hlocked, fun name hname' => ⟨c, hclients ▸ by simp, ?_⟩⟩
      exact Option.some.inj (hname.symm.trans hname')
    | failed hname hnew hnot =>
      refine absurd (hable (by rw [hname]; rfl) fun before hbefore heq => ?_) hnot
      obtain ⟨c, hc, hcname⟩ := h.2 before hbefore _ (heq.trans hname)
      exact hnew c hc hcname
  refine ⟨hlast.1, fun before hbefore name hname => ?_⟩
  rcases List.mem_append.mp hbefore with hbefore | hbefore
  · obtain ⟨c, hc, hcname⟩ := h.2 before hbefore name hname
    exact ⟨c, hkeep hc, hcname⟩
  · obtain rfl := List.mem_singleton.mp hbefore
    exact hlast.2 name hname

/-- Where the device of each name is made, the table is open behind every call. -/
theorem open_of_eachCreated (H : Kept (init machine)) (hcreated : EachCreated calls)
    (rest : List Call) (hcalls : calls = front ++ rest) :
    ∃ t, Run.exec step (init machine) front = some t ∧ Open t front := by
  induction front using List.reverseRecOn generalizing rest with
  | nil => exact ⟨_, rfl, rfl, fun _ h => by cases h⟩
  | append_singleton front call ih =>
      obtain ⟨t, hrun, hopen⟩ := ih (call :: rest) (by simpa using hcalls)
      obtain ⟨t', r, hcall⟩ := exists_findOrCreate hopen.1 call
      refine ⟨t', ?_, hopen.served ((H.exec hrun).served hcall).1 ?_⟩
      · rw [Run.exec_append, hrun, Option.bind_some, Run.exec_cons,
          step_eq_some.mpr ⟨r, hcall⟩]
        rfl
      · exact hcreated front call rest (by simpa using hcalls)

/-- So every call returns, and leaves the table unlocked. -/
theorem returns_of_eachCreated (H : Kept (init machine)) (hcreated : EachCreated calls) {i : ℕ}
    (hi : i < calls.length) :
    ∃ t r, outcome (init machine) calls i = some (t, r) ∧ t.locked = false := by
  obtain ⟨t, hrun, hopen⟩ := open_of_eachCreated H hcreated (calls.drop i)
    (List.take_append_drop i calls).symm
  obtain ⟨t', r, hcall⟩ := exists_findOrCreate hopen.1 calls[i]
  have houtcome : outcome (init machine) calls i = some (t', r) :=
    outcome_eq_some.mpr ⟨calls[i], t, List.getElem?_eq_getElem hi, hrun, hcall⟩
  obtain ⟨t'', hrun', hopen'⟩ := open_of_eachCreated H hcreated (calls.drop (i + 1))
    (List.take_append_drop (i + 1) calls).symm
  obtain rfl := Option.some.inj ((exec_of_outcome houtcome).symm.trans hrun')
  exact ⟨t', r, houtcome, hopen'.1⟩

variable (front) in
/-- A call that gets no device for a name that is new leaves the table locked. -/
theorem able_of_returns (H : Kept (init machine)) {rest : List Call}
    (hreturns : ∃ t r, outcome (init machine) (front ++ call :: rest) front.length = some (t, r) ∧
      t.locked = false)
    (hname : call.username.isSome) (hnew : ∀ before ∈ front, before.username ≠ call.username) :
    call.Able := by
  obtain ⟨t', r, houtcome, hlocked⟩ := hreturns
  obtain ⟨call', t, hcall', hrun, hfind⟩ := outcome_eq_some.mp houtcome
  rw [List.getElem?_append_right le_rfl, Nat.sub_self, List.getElem?_cons_zero,
    Option.some.injEq] at hcall'
  obtain rfl := hcall'
  rw [List.take_left] at hrun
  have hclients := (H.exec_clients hrun).2
  cases ((H.exec hrun).served hfind).1 with
  | noName hnone => rw [hnone] at hname; cases hname
  | @found c hc hfound =>
    rcases hclients c hc with hc | ⟨before, hbefore, hsame⟩
    · cases hc
    · exact absurd (hsame.trans hfound.symm) (hnew before hbefore)
  | created _ _ hable => exact hable
  | failed _ _ _ _ hlocked' => rw [hlocked] at hlocked'; cases hlocked'

/-- The calls of a run are served right exactly if the device of each name is made when the name
is met first. -/
theorem servesRight_iff (hwf : machine.procs.WellFormed) (hnew : machine.procs.devicesNew = []) :
    ServesRight (init machine) calls ↔ EachCreated calls := by
  have H := kept_init hwf hnew
  constructor
  · rintro hserves front call rest rfl hname hnames
    exact able_of_returns front H (hserves.returns front.length (by simp)) hname hnames
  · intro hcreated
    refine ⟨fun i hi => returns_of_eachCreated H hcreated hi, ?_, ?_, ?_⟩
    · intro i j call call' t₁ t₂ c c' hcall hcall' h₁ h₂ hsame
      obtain ⟨s, hs, hc, hc'⟩ := H.exists_common h₁ h₂
      have hnames : c.username = c'.username := by
        rw [H.username_of_outcome hcall h₁, H.username_of_outcome hcall' h₂] at hsame
        exact Option.some.inj hsame
      exact List.inj_on_of_nodup_map hs.usernames hc hc' hnames
    · intro i j call call' t₁ t₂ c c' hcall hcall' h₁ h₂ hdiff
      obtain ⟨s, hs, hc, hc'⟩ := H.exists_common h₁ h₂
      rw [H.username_of_outcome hcall h₁, H.username_of_outcome hcall' h₂] at hdiff
      refine ⟨fun haddr => hdiff ?_, fun hcgpu => hdiff ?_⟩
      · rw [List.inj_on_of_nodup_map hs.addrs hc hc' haddr]
      · rw [List.inj_on_of_nodup_map hs.cgpus hc hc' hcgpu]
    · intro i call t₁ t₂ hcall hrun houtcome
      have hlocked : t₂.locked = false := by
        obtain ⟨t, r, h, hlocked⟩ := returns_of_eachCreated H hcreated
          (List.getElem?_eq_some_iff.mp hcall).1
        rw [houtcome, Option.some.injEq, Prod.mk.injEq] at h
        exact h.1 ▸ hlocked
      obtain ⟨call', t, hcall', hrun', hfind⟩ := outcome_eq_some.mp houtcome
      obtain rfl := Option.some.inj (hcall.symm.trans hcall')
      obtain rfl := Option.some.inj (hrun.symm.trans hrun')
      have hserved := ((H.exec hrun).served hfind).1
      refine ⟨?_, fun again _ hable => ?_⟩
      · cases hserved with
        | noName => rfl
        | failed _ _ _ hclients => exact hclients
      · obtain ⟨t₃, r, hagain⟩ := exists_findOrCreate hlocked again
        have hkept := ((H.exec hrun).served hfind).2
        obtain ⟨c, rfl⟩ := (hkept.served hagain).1.of_able hable
        exact ⟨t₃, c, hagain⟩

end

/-- Memory behind all that is in use. -/
def behindAll : Malloc where
  alloc used := used.sum + 1
  fresh _ h := absurd (List.le_sum_of_mem h) (Nat.not_succ_le_self _)

/-- A miner without devices. -/
def noDevices : Machine := ⟨.init fun _ => proxyInfo, fun _ => 0, 0, 0⟩

theorem wellFormed_noDevices : noDevices.procs.WellFormed :=
  ProcTable.wellFormed_of_run (show Run.exec ProcTable.step _ [] = _ from rfl)

/-- A call by a user, for whom there is memory or not. -/
def callBy (user : String) (memory : Bool) : Call :=
  ⟨some (.ofMem (literal user)), behindAll, ⟨memory, true, fun _ => true⟩⟩

/-- Two users, one of whom calls twice, are served right. -/
theorem servesRight_twoUsers :
    ServesRight (init noDevices) [callBy "a" true, callBy "b" true, callBy "a" true] := by
  refine (servesRight_iff wellFormed_noDevices rfl).mpr fun front call rest hcalls _ _ => ?_
  have hmem : call ∈ [callBy "a" true, callBy "b" true, callBy "a" true] := hcalls ▸ by simp
  simp only [List.mem_cons, List.not_mem_nil, or_false] at hmem
  rcases hmem with rfl | rfl | rfl
  all_goals exact ⟨rfl, rfl, rfl, rfl⟩

/-- Where there is no memory for the first call the table is locked for good. -/
theorem not_servesRight_noMemory :
    ¬ServesRight (init noDevices) [callBy "a" false, callBy "a" true] := by
  intro hserves
  have hable : (callBy "a" false).Able := able_of_returns []
    (kept_init wellFormed_noDevices rfl) (hserves.returns 0 (by decide)) rfl (by simp)
  exact absurd hable.2.1 (by decide)

end ProxyTable

end MassGridMiner

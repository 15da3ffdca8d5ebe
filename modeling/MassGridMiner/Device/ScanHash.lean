import MassGridMiner.JumpHash

/-!
# Scanning a work on a GPU

`minerloop_scanhash` calls `opencl_scanhash` on one work until `abandon_work` stops it.
Each call launches the kernel `scanHash` of the work's inner function over a range of
nonces, and moves the work's nonce on.  The inputs of the kernel that do not depend on
the nonce are computed at nonce zero and then kept in the work.

The maximum that decides where the nonce range ends is a field of the GPU and shared by
its threads, so every reading of it may see another thread's value.

## Main definitions

* `OpenclConfig` — the settings of the driver that a launch depends on.
* `openclScanhash`, `ScanCall` — one call, with what it launched and returned.
* `minerloopScanhash` — the calls made on one work.
* `scanHash` — the kernel, for one work item.
-/

namespace MassGridMiner

/-- The table `algorithmname` of `ocl.c`: the source file, and so the kernel, that is
built at each index. -/
def algorithmname : Vector Algorithm 19 := Array.toVector #[
  .blake, .bmw, .groestl, .skein, .jh, .keccak,
  .luffa, .cubehash, .shavite, .simd, .echo, .hamsi, .fugue, .shabal, .sha2big, .haval, .panama,
  .blake256, .skein256]

/-- `p106_glb`, the factor on the thread count for each inner function. -/
def p106Glb : Vector Float32 19 := #v[
  1.4, 2, 0.6, 3, 3, 2.5, 3, 4, 0.6, 0.6, 0.6, 1.2, 0.9, 3, 3, 3, 0.6, 4, 2]

/-- The settings a launch depends on.  The thread count is a positive `int`. -/
structure OpenclConfig where
  optGpuglobalThreads : ℕ
  accepted : 1 ≤ optGpuglobalThreads ∧ optGpuglobalThreads < 2 ^ 31
  enSettingGlobalThread : Bool
  vwidth : UInt32

/-- `glbthr`, without the fraction that every use of it drops. -/
def glbthr (cfg : OpenclConfig) (hashid : Fin 19) : ℕ :=
  if cfg.enSettingGlobalThread then
    (Float32.ofNat cfg.optGpuglobalThreads * p106Glb[hashid]).toUInt64.toNat
  else cfg.optGpuglobalThreads

/-- `(int)glbthr`, stored in a `size_t`.  Out of the range of `int` the conversion gives
the least `int`, as it does on x86. -/
def globalThreads (glbthr : ℕ) : ℕ := if glbthr < 2 ^ 31 then glbthr else 2 ^ 64 - 2 ^ 31

/-- A kernel launch: the kernel's index, its arguments, and the number of work items. -/
structure Launch where
  hashid : Fin 19
  input : Bytes 64
  target : ℕ
  nonceStart : UInt32
  globalThreads : ℕ

/-- A call of `opencl_scanhash`: what it launched, what it returned, the maximum that its
test for the end of the range read, and the work as it left it. -/
structure ScanCall where
  launch : Launch
  returned : ℤ
  maxHashes : ℕ
  work : Work

/-- The index of the kernel for a header, unless one is forced by `opt_work_id`. -/
def chosenId (optWorkId : Option (Fin 19)) (data : Bytes 128) : Fin 19 :=
  optWorkId.getD (hashId data)

/-- The values a work keeps from its call at nonce zero. -/
def cacheHashbase (optWorkId : Option (Fin 19)) (work : Work) : Work :=
  if work.blkNonce = 0 then
    { work with hashbase := hashBase work.data, hashid := chosenId optWorkId work.data }
  else work

/-- The test that the nonces left are fewer than the maximum. -/
def rangeEnds (maxHashes : ℕ) (nonce : UInt32) : Bool :=
  decide ((nonce.toNat : ℤ) > 0xffffffff - (maxHashes : ℤ))

/-- `opencl_scanhash`, where no OpenCL call fails.  `seen` is the value of
`gpu->max_hashes` at the end of the call if another thread has set it since this one. -/
def openclScanhash (cfg : OpenclConfig) (optWorkId : Option (Fin 19)) (seen : Option ℕ)
    (work : Work) : ScanCall :=
  let work := cacheHashbase optWorkId work
  let glb := glbthr cfg work.hashid
  let hashes := ((globalThreads glb : ℤ) * cfg.vwidth.toNat).bmod (2 ^ 64)
  let maxHashes := seen.getD glb
  { launch := {
      hashid := work.hashid
      input := work.hashbase
      target := work.target.word64 3
      nonceStart := work.blkNonce
      globalThreads := globalThreads glb }
    returned := hashes
    maxHashes := maxHashes
    work := { work with
      blkNonce := if rangeEnds maxHashes work.blkNonce then 0xffffffff
        else work.blkNonce + UInt32.ofInt hashes } }

/-- What `hashes_done` makes of the maximum. -/
def hashesDone (hashes : ℤ) (maxHashes : ℕ) : ℕ :=
  if hashes > maxHashes then hashes.toNat else maxHashes

/-- `abandon_work`; `other` stands for an elapsed scan time and for a stale work. -/
def abandonWork (nonce : UInt32) (maxHashes : ℕ) (other : Bool) : Bool :=
  nonce == 0xffffffff || other ||
    decide (nonce.toNat ≥ (0xfffffffe + 2 ^ 64 - maxHashes) % 2 ^ 64) ||
    decide (maxHashes ≥ 0xfffffffe)

/-- What happens beside a call: the values of `gpu->max_hashes` that other threads have
put in place before each of its three readings, and any other reason to stop. -/
structure Beside where
  atRangeTest : Option ℕ
  atHashesDone : Option ℕ
  atAbandon : Option ℕ
  stops : Bool

/-- The value of `gpu->max_hashes` that `abandon_work` is given. -/
def maxHashesAtAbandon (beside : Beside) (call : ScanCall) : ℕ :=
  beside.atAbandon.getD (hashesDone call.returned (beside.atHashesDone.getD call.maxHashes))

/-- `minerloop_scanhash` on one work, for as many calls as are described. -/
def minerloopScanhash (cfg : OpenclConfig) (optWorkId : Option (Fin 19)) :
    Work → List Beside → List ScanCall
  | _, [] => []
  | work, beside :: rest =>
    let call := openclScanhash cfg optWorkId beside.atRangeTest work
    if abandonWork call.work.blkNonce (maxHashesAtAbandon beside call) beside.stops then [call]
    else call :: minerloopScanhash cfg optWorkId call.work rest

/-- `get_work`, as far as a scan depends on it: the nonce starts at zero. -/
def getWork (work : Work) : Work := { work with blkNonce := 0 }

/-- The kernel `scanHash` for one work item: the nonce it adds to the output, if any. -/
def scanHash (inner : Inner) (algo : Algorithm) (input : Bytes 64) (target : ℕ)
    (nonceStart gid : UInt32) : Option UInt32 :=
  let hashdatadst := inner algo (placeNonce input (gid + nonceStart))
  let outcome := (sha256DeviceDigest hashdatadst.toList).word64 3
  if outcome ≤ target then some (gid + nonceStart) else none

/-- What the work item `gid` of a launch reports. -/
def Launch.report (inner : Inner) (launch : Launch) (gid : UInt32) : Option UInt32 :=
  scanHash inner algorithmname[launch.hashid] launch.input launch.target launch.nonceStart gid

/-- Program and kernel at each index belong to the check function there. -/
theorem algorithmname_eq_jump : algorithmname = jump := rfl

theorem scanHash_eq_some_iff (inner : Inner) (algo : Algorithm) (input : Bytes 64) (target : ℕ)
    {nonceStart gid nonce : UInt32} (hgid : gid + nonceStart = nonce) :
    scanHash inner algo input target nonceStart gid = some nonce ↔
      (sha256ComputeDigest (inner algo (placeNonce input nonce)).toList).word64 3 ≤ target := by
  simp only [scanHash, hgid, digest_device_eq]
  split <;> simp_all

section
variable (cfg : OpenclConfig) (optWorkId : Option (Fin 19))

@[simp] theorem cacheHashbase_data (work : Work) :
    (cacheHashbase optWorkId work).data = work.data := by
  rw [cacheHashbase]
  split <;> rfl

@[simp] theorem cacheHashbase_target (work : Work) :
    (cacheHashbase optWorkId work).target = work.target := by
  rw [cacheHashbase]
  split <;> rfl

@[simp] theorem cacheHashbase_blkNonce (work : Work) :
    (cacheHashbase optWorkId work).blkNonce = work.blkNonce := by
  rw [cacheHashbase]
  split <;> rfl

/-- The work's kept values are those of its header, or will be computed in the next call. -/
def Work.Cached (work : Work) : Prop :=
  work.blkNonce = 0 ∨
    work.hashid = chosenId optWorkId work.data ∧ work.hashbase = hashBase work.data

theorem getWork_cached (work : Work) : (getWork work).Cached optWorkId := .inl rfl

theorem cacheHashbase_spec {work : Work} (H : work.Cached optWorkId) :
    (cacheHashbase optWorkId work).hashid = chosenId optWorkId work.data ∧
      (cacheHashbase optWorkId work).hashbase = hashBase work.data := by
  rw [cacheHashbase]
  split
  · exact ⟨rfl, rfl⟩
  · exact H.resolve_left ‹_›

/-- **Kept values are never out of date**: every call on a work launches the kernel of
its header, on its header's text and target. -/
theorem minerloopScanhash_launch {work : Work} (H : work.Cached optWorkId) (bs : List Beside) :
    ∀ call ∈ minerloopScanhash cfg optWorkId work bs,
      call.launch.hashid = chosenId optWorkId work.data ∧
        call.launch.input = hashBase work.data ∧
        call.launch.target = work.target.word64 3 ∧
        call.launch.globalThreads = globalThreads (glbthr cfg (chosenId optWorkId work.data)) := by
  induction bs generalizing work with
  | nil => simp [minerloopScanhash]
  | cons beside rest ih =>
      obtain ⟨hid, hbase⟩ := cacheHashbase_spec optWorkId H
      set call := openclScanhash cfg optWorkId beside.atRangeTest work with hcall
      have hhead : call.launch.hashid = chosenId optWorkId work.data ∧
          call.launch.input = hashBase work.data ∧ call.launch.target = work.target.word64 3 ∧
          call.launch.globalThreads =
            globalThreads (glbthr cfg (chosenId optWorkId work.data)) := by
        simp [hcall, openclScanhash, hid, hbase]
      have hdata : call.work.data = work.data := by simp [hcall, openclScanhash]
      have htarget : call.work.target = work.target := by simp [hcall, openclScanhash]
      have hcached : call.work.Cached optWorkId := by
        refine .inr ⟨?_, ?_⟩
        · rw [hdata]; exact hid
        · rw [hdata]; exact hbase
      intro c hc
      rw [minerloopScanhash, ← hcall] at hc
      split at hc
      · rw [List.mem_singleton.mp hc]
        exact hhead
      · rcases List.mem_cons.mp hc with rfl | hc
        · exact hhead
        · have := ih hcached c hc
          rwa [hdata, htarget] at this

end

section
variable (inner : Inner) (cfg : OpenclConfig)

/-- Device and host agree on a nonce of a work: on every call the kernel launched reports
the nonce exactly when `jumphash_check` accepts it, and the full comparison agrees unless
the upper 64 bits are equal. -/
structure DeviceAgrees (work : Work) (bs : List Beside) (nonce : UInt32) : Prop where
  tables : ∀ i : Fin 19, algorithmname[i] = jump[i]
  cached : ∀ call ∈ minerloopScanhash cfg none (getWork work) bs,
    call.launch.hashid = hashId work.data ∧ call.launch.input = hashBase work.data
  reports : ∀ call ∈ minerloopScanhash cfg none (getWork work) bs, ∀ gid : UInt32,
    gid + call.launch.nonceStart = nonce →
      (call.launch.report inner gid = some nonce ↔ (jumphashCheck inner work nonce).1 = true)
  full : (jumpHash inner work.data nonce).word64 3 ≠ work.target.word64 3 →
    (hashTargetCheck (jumpHash inner work.data nonce) work.target =
      (jumphashCheck inner work nonce).1)

/-- What a call on the work reports, in terms of the hash of the header. -/
theorem report_iff {work : Work} {bs : List Beside} {call : ScanCall}
    (hc : call ∈ minerloopScanhash cfg none (getWork work) bs) {gid nonce : UInt32}
    (hgid : gid + call.launch.nonceStart = nonce) :
    call.launch.report inner gid = some nonce ↔
      (jumpHash inner work.data nonce).word64 3 ≤ work.target.word64 3 := by
  obtain ⟨hid, hbase, htarget, -⟩ :=
    minerloopScanhash_launch cfg none (getWork_cached none work) bs call hc
  rw [Launch.report, scanHash_eq_some_iff _ _ _ _ hgid]
  simp only [hid, hbase, htarget, algorithmname_eq_jump]
  rfl

/-- **Device and host agree on a nonce unless its hash ties with the target** in the
upper 64 bits: the kernel accepts equality there and the host does not. -/
theorem deviceAgrees_iff (work : Work) (beside : Beside) (bs : List Beside) (nonce : UInt32) :
    DeviceAgrees inner cfg work (beside :: bs) nonce ↔
      (jumpHash inner work.data nonce).word64 3 ≠ work.target.word64 3 := by
  constructor
  · intro H htie
    set call := openclScanhash cfg none beside.atRangeTest (getWork work) with hcall
    have hmem : call ∈ minerloopScanhash cfg none (getWork work) (beside :: bs) := by
      rw [minerloopScanhash, ← hcall]
      split <;> simp
    have hgid : (nonce - call.launch.nonceStart) + call.launch.nonceStart = nonce :=
      UInt32.sub_add_cancel _ _
    have hreport := (report_iff inner cfg hmem hgid).mpr htie.le
    have haccept :=
      (jumphashCheck_iff inner work nonce).mp ((H.reports call hmem _ hgid).mp hreport)
    exact haccept.ne htie
  · intro hne
    refine ⟨fun i => by rw [algorithmname_eq_jump], fun call hc => ?_, fun call hc gid hgid => ?_,
      fun _ => ?_⟩
    · obtain ⟨hid, hbase, -, -⟩ :=
        minerloopScanhash_launch cfg none (getWork_cached none work) _ call hc
      exact ⟨hid, hbase⟩
    · rw [report_iff inner cfg hc hgid, jumphashCheck_iff]
      omega
    · rw [Bool.eq_iff_iff, hashTargetCheck_iff, jumphashCheck_iff, Hash.toNat_le_iff_of_ne hne]

end

/-- A work whose target has the upper 64 bits of the hash at nonce zero, and ones below,
when the inner functions are the identity. -/
def tiedWork : Work :=
  { Work.zero { poolDiffEffectiveRetroactively := .no, stratumActive := true,
                nextTarget := Hash.zero } with
    target := #v[255, 255, 255, 255, 255, 255, 255, 255, 255, 255, 255, 255, 255, 255, 255, 255,
      255, 255, 255, 255, 255, 255, 255, 255, 57, 113, 151, 215, 229, 95, 155, 222] }

/-- The default thread count. -/
def defaultConfig : OpenclConfig where
  optGpuglobalThreads := 0xffffff
  accepted := by omega
  enSettingGlobalThread := false
  vwidth := 1

/-- No other thread touches the maximum, and nothing stops the scan. -/
def Beside.quiet : Beside where
  atRangeTest := none
  atHashesDone := none
  atAbandon := none
  stops := false

/-- The device reports nonce zero of that work, and the host rejects it. -/
theorem not_deviceAgrees_tiedWork :
    ¬ DeviceAgrees (fun _ block => block) defaultConfig tiedWork [.quiet] 0 := by
  intro H
  have htie : (jumpHash (fun _ block => block) tiedWork.data 0).word64 3 =
      tiedWork.target.word64 3 :=
    word64_jumpHash_zeros.trans (by decide +kernel)
  set call := openclScanhash defaultConfig none none (getWork tiedWork) with hcall
  have hmem : call ∈ minerloopScanhash defaultConfig none (getWork tiedWork) [.quiet] := by
    rw [minerloopScanhash]
    split <;> exact List.mem_cons_self
  have hreport : call.launch.report (fun _ block => block) 0 = some 0 :=
    (report_iff _ _ hmem rfl).mpr htie.le
  have haccept := (jumphashCheck_iff _ _ _).mp ((H.reports call hmem 0 rfl).mp hreport)
  exact haccept.ne htie

end MassGridMiner

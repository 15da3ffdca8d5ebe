import MassGridMiner.Device.ScanHash
import Mathlib.Data.Finset.Card
import Mathlib.Data.List.Chain
import Mathlib.Order.Disjoint

/-!
# Which nonces a scan covers

The calls made on one work should launch the nonces in order, each once, and count
what they launched.  The step between two calls is the thread count times the vector
width, while a launch tests one nonce for each thread; `coversExactly_iff` gives the
exact condition, call by call.

## Main definitions

* `Launch.nonces` — the nonces of a launch.
* `CoversExactly` — disjoint, contiguous, forward and counted.
* `ScanCall.Fits` — the condition on one call.
-/

namespace MassGridMiner

/-- The nonces a launch tests, `nonceStart + gid` as a 32-bit number. -/
def Launch.nonces (launch : Launch) : Finset ℕ :=
  (Finset.range launch.globalThreads).image fun gid =>
    (launch.nonceStart.toNat + gid) % 2 ^ 32

/-- The calls launch disjoint sets of nonces that follow each other from zero, the
work's nonce never moves back, and each call returns the number it launched. -/
structure CoversExactly (calls : List ScanCall) : Prop where
  disjoint : calls.Pairwise fun a b => Disjoint a.launch.nonces b.launch.nonces
  start : ∀ call ∈ calls.head?, call.launch.nonceStart = 0
  contiguous : calls.IsChain fun a b =>
    b.launch.nonceStart.toNat = a.launch.nonceStart.toNat + a.launch.globalThreads
  forward : ∀ call ∈ calls, call.launch.nonceStart ≤ call.work.blkNonce
  counted : ∀ call ∈ calls, call.returned = call.launch.nonces.card

/-- A call steps over exactly what it launches, and its launch ends within the nonce
range, which it reaches the end of only if its own test notices. -/
structure ScanCall.Fits (cfg : OpenclConfig) (call : ScanCall) : Prop where
  width : cfg.vwidth = 1 ∨ call.launch.globalThreads = 0
  within : call.launch.nonceStart.toNat + call.launch.globalThreads ≤ 2 ^ 32
  last : call.launch.nonceStart.toNat + call.launch.globalThreads = 2 ^ 32 →
    rangeEnds call.maxHashes call.launch.nonceStart = true

/-- What every call does, whatever the work it is made on: `threads` is the number of
work items, the same for all calls on one work. -/
structure ScanCall.Steps (cfg : OpenclConfig) (threads : ℕ) (call : ScanCall) : Prop where
  threads_eq : call.launch.globalThreads = threads
  returned_eq : call.returned = ((threads : ℤ) * cfg.vwidth.toNat).bmod (2 ^ 64)
  blkNonce_eq : call.work.blkNonce =
    if rangeEnds call.maxHashes call.launch.nonceStart then 0xffffffff
    else call.launch.nonceStart + UInt32.ofInt call.returned

namespace Launch

theorem mem_nonces {launch : Launch} {n : ℕ} :
    n ∈ launch.nonces ↔
      ∃ gid < launch.globalThreads, (launch.nonceStart.toNat + gid) % 2 ^ 32 = n := by
  simp [nonces]

/-- Within the nonce range the nonces of a launch are an interval. -/
theorem mem_nonces_of_within {launch : Launch} {n : ℕ}
    (H : launch.nonceStart.toNat + launch.globalThreads ≤ 2 ^ 32) :
    n ∈ launch.nonces ↔
      launch.nonceStart.toNat ≤ n ∧ n < launch.nonceStart.toNat + launch.globalThreads := by
  rw [mem_nonces]
  constructor
  · rintro ⟨gid, hgid, rfl⟩
    omega
  · rintro ⟨hle, hlt⟩
    exact ⟨n - launch.nonceStart.toNat, by omega, by omega⟩

theorem card_nonces_of_le {launch : Launch} (H : launch.globalThreads ≤ 2 ^ 32) :
    launch.nonces.card = launch.globalThreads := by
  have hinj : Set.InjOn (fun gid => (launch.nonceStart.toNat + gid) % 2 ^ 32)
      (Finset.range launch.globalThreads) := by
    intro a ha b hb hab
    simp only [Finset.coe_range, Set.mem_Iio] at ha hb
    have : launch.nonceStart.toNat < 2 ^ 32 := launch.nonceStart.toNat_lt
    simp only at hab
    omega
  rw [nonces, Finset.card_image_of_injOn hinj, Finset.card_range]

/-- A launch that runs past the end of the range comes round to nonce zero. -/
theorem zero_mem_nonces {launch : Launch}
    (H : 2 ^ 32 < launch.nonceStart.toNat + launch.globalThreads) : 0 ∈ launch.nonces := by
  rw [mem_nonces]
  have : launch.nonceStart.toNat < 2 ^ 32 := launch.nonceStart.toNat_lt
  exact ⟨2 ^ 32 - launch.nonceStart.toNat, by omega, by omega⟩

end Launch

theorem globalThreads_cases (glb : ℕ) :
    globalThreads glb < 2 ^ 31 ∨ globalThreads glb = 2 ^ 64 - 2 ^ 31 := by
  rw [globalThreads]
  split
  · exact .inl ‹_›
  · exact .inr rfl

namespace ScanCall
variable {cfg : OpenclConfig} {glb : ℕ} {call : ScanCall}

/-- The count is right exactly where the step is one nonce for each work item. -/
theorem Steps.counted_iff (H : call.Steps cfg (globalThreads glb)) :
    call.returned = call.launch.nonces.card ↔
      call.launch.globalThreads < 2 ^ 31 ∧
        (cfg.vwidth = 1 ∨ call.launch.globalThreads = 0) := by
  have hv : cfg.vwidth.toNat < 2 ^ 32 := cfg.vwidth.toNat_lt
  rw [H.returned_eq, ← H.threads_eq]
  rcases globalThreads_cases glb with hlt | hbig
  · rw [← H.threads_eq] at hlt
    have hprod : call.launch.globalThreads * cfg.vwidth.toNat < 2 ^ 63 := by
      calc call.launch.globalThreads * cfg.vwidth.toNat
          ≤ 2 ^ 31 * cfg.vwidth.toNat := Nat.mul_le_mul_right _ hlt.le
        _ < 2 ^ 63 := by omega
    have hmod : ((call.launch.globalThreads : ℤ) * cfg.vwidth.toNat).bmod (2 ^ 64) =
        (call.launch.globalThreads * cfg.vwidth.toNat : ℕ) := by
      rw [← Int.natCast_mul]
      exact Int.bmod_eq_of_le (by omega) (by omega)
    rw [hmod, Launch.card_nonces_of_le (by omega), Int.natCast_inj]
    constructor
    · intro h
      rcases Nat.eq_zero_or_pos call.launch.globalThreads with hz | hpos
      · exact ⟨hlt, .inr hz⟩
      · have hone : cfg.vwidth.toNat = 1 := Nat.eq_of_mul_eq_mul_left hpos (by simpa using h)
        exact ⟨hlt, .inl (UInt32.toNat_inj.mp hone)⟩
    · rintro ⟨-, h | h⟩ <;> simp [h]
  · -- Past the range of int the count comes out negative.
    rw [← H.threads_eq] at hbig
    have hmod : ((call.launch.globalThreads : ℤ) * cfg.vwidth.toNat).bmod (2 ^ 64) =
        -(2 ^ 31 * cfg.vwidth.toNat : ℤ) := by
      have hsplit : (call.launch.globalThreads : ℤ) * cfg.vwidth.toNat =
          -(2 ^ 31 * cfg.vwidth.toNat : ℤ) + (2 ^ 64 : ℕ) * (cfg.vwidth.toNat : ℤ) := by
        rw [hbig]
        push_cast
        ring
      rw [hsplit, Int.add_mul_bmod_self_left]
      exact Int.bmod_eq_of_le (by omega) (by omega)
    have hpos : 0 < call.launch.nonces.card := by
      refine Finset.card_pos.mpr ⟨0, Launch.zero_mem_nonces ?_⟩
      omega
    rw [hmod]
    constructor
    · intro h
      omega
    · rintro ⟨h, -⟩
      omega

/-- Where a call steps by what it launched and does not end the range, the next nonce
is the sum, reduced to 32 bits. -/
theorem Steps.toNat_blkNonce (H : call.Steps cfg (globalThreads glb))
    (hlt : call.launch.globalThreads < 2 ^ 31)
    (hwidth : cfg.vwidth = 1 ∨ call.launch.globalThreads = 0)
    (hends : rangeEnds call.maxHashes call.launch.nonceStart = false) :
    call.work.blkNonce.toNat =
      (call.launch.nonceStart.toNat + call.launch.globalThreads) % 2 ^ 32 := by
  have hreturned : call.returned = (call.launch.globalThreads : ℕ) := by
    rw [H.counted_iff.mpr ⟨hlt, hwidth⟩, Launch.card_nonces_of_le (by omega)]
  rw [H.blkNonce_eq, hends, hreturned]
  simp only [Bool.false_eq_true, ↓reduceIte, UInt32.ofInt, Int.reducePow, UInt32.toNat_add,
    UInt32.toNat_ofNat', Nat.reducePow, Nat.add_mod_mod]
  omega

/-- The nonce does not move back exactly where the step stays below the end of the
range, or the test for the end fires. -/
theorem Steps.forward_iff (H : call.Steps cfg (globalThreads glb))
    (hlt : call.launch.globalThreads < 2 ^ 31)
    (hwidth : cfg.vwidth = 1 ∨ call.launch.globalThreads = 0) :
    call.launch.nonceStart ≤ call.work.blkNonce ↔
      rangeEnds call.maxHashes call.launch.nonceStart = true ∨
        call.launch.nonceStart.toNat + call.launch.globalThreads < 2 ^ 32 := by
  have hstart : call.launch.nonceStart.toNat < 2 ^ 32 := call.launch.nonceStart.toNat_lt
  rw [UInt32.le_iff_toNat_le]
  cases hends : rangeEnds call.maxHashes call.launch.nonceStart with
  | true =>
      have hnext : call.work.blkNonce.toNat = 2 ^ 32 - 1 := by
        rw [H.blkNonce_eq, hends]
        rfl
      simp only [true_or, iff_true, hnext]
      omega
  | false =>
      rw [H.toNat_blkNonce hlt hwidth hends]
      simp only [Bool.false_eq_true, false_or]
      omega

end ScanCall

section
variable (cfg : OpenclConfig) (optWorkId : Option (Fin 19))

theorem openclScanhash_steps (seen : Option ℕ) (work : Work) :
    (openclScanhash cfg optWorkId seen work).Steps cfg
      (globalThreads (glbthr cfg (cacheHashbase optWorkId work).hashid)) := by
  constructor <;> simp [openclScanhash]

/-- Every call of a run launches the same number of work items, and steps by it. -/
theorem minerloopScanhash_steps {work : Work} (H : work.Cached optWorkId) (bs : List Beside) :
    ∀ call ∈ minerloopScanhash cfg optWorkId work bs,
      call.Steps cfg (globalThreads (glbthr cfg (chosenId optWorkId work.data))) := by
  have hcalls : ∀ (work : Work) (bs : List Beside),
      ∀ call ∈ minerloopScanhash cfg optWorkId work bs,
      ∃ threads, call.Steps cfg threads := by
    intro work bs
    induction bs generalizing work with
    | nil => simp [minerloopScanhash]
    | cons beside rest ih =>
        intro call hc
        rw [minerloopScanhash] at hc
        have hhead := openclScanhash_steps cfg optWorkId beside.atRangeTest work
        split at hc
        · rw [List.mem_singleton.mp hc]
          exact ⟨_, hhead⟩
        · rcases List.mem_cons.mp hc with rfl | hc
          · exact ⟨_, hhead⟩
          · exact ih _ call hc
  intro call hc
  obtain ⟨threads, hsteps⟩ := hcalls work bs call hc
  obtain ⟨-, -, -, hthreads⟩ := minerloopScanhash_launch cfg optWorkId H bs call hc
  rwa [← hthreads, hsteps.threads_eq]

theorem minerloopScanhash_head (work : Work) (bs : List Beside) :
    ∀ call ∈ (minerloopScanhash cfg optWorkId work bs).head?,
      call.launch.nonceStart = work.blkNonce := by
  cases bs with
  | nil => simp [minerloopScanhash]
  | cons beside rest =>
      rw [minerloopScanhash]
      split <;> simp [openclScanhash]

/-- A call that is followed by another has not reached the end of the range, and the
next one starts where it left the nonce. -/
theorem minerloopScanhash_isChain (work : Work) (bs : List Beside) :
    (minerloopScanhash cfg optWorkId work bs).IsChain fun a b =>
      a.work.blkNonce ≠ 0xffffffff ∧ b.launch.nonceStart = a.work.blkNonce := by
  induction bs generalizing work with
  | nil => simp [minerloopScanhash]
  | cons beside rest ih =>
      rw [minerloopScanhash]
      split
      · simp
      · rename_i hgo
        have hne : (openclScanhash cfg optWorkId beside.atRangeTest work).work.blkNonce
            ≠ 0xffffffff := by
          intro hmax
          simp [abandonWork, hmax] at hgo
        refine List.isChain_cons.mpr ⟨fun b hb => ⟨hne, ?_⟩, ih _⟩
        exact minerloopScanhash_head cfg optWorkId _ rest b hb

variable {cfg optWorkId} {work : Work} {bs : List Beside}

/-- Where the calls fit, consecutive launches touch. -/
theorem contiguous_of_fits
    (hfits : ∀ call ∈ minerloopScanhash cfg optWorkId (getWork work) bs, call.Fits cfg) :
    (minerloopScanhash cfg optWorkId (getWork work) bs).IsChain fun a b =>
      b.launch.nonceStart.toNat = a.launch.nonceStart.toNat + a.launch.globalThreads := by
  refine (minerloopScanhash_isChain cfg optWorkId (getWork work) bs).imp_of_mem_imp ?_
  rintro a b ha - ⟨hne, hnext⟩
  have hsteps := minerloopScanhash_steps cfg optWorkId (getWork_cached optWorkId work) bs a ha
  obtain ⟨hwidth, hwithin, hlast⟩ := hfits a ha
  have hends : rangeEnds a.maxHashes a.launch.nonceStart = false := by
    rw [← Bool.not_eq_true]
    intro hends
    rw [hsteps.blkNonce_eq, hends] at hne
    exact hne rfl
  have hlt : a.launch.globalThreads < 2 ^ 31 := by
    have := hsteps.threads_eq
    rcases globalThreads_cases (glbthr cfg (chosenId optWorkId (getWork work).data)) with h | h <;>
      omega
  have hbelow : a.launch.nonceStart.toNat + a.launch.globalThreads ≠ 2 ^ 32 := by
    intro heq
    simp only [hends, Bool.false_eq_true, imp_false] at hlast
    exact hlast heq
  rw [hnext, hsteps.toNat_blkNonce hlt hwidth hends]
  omega

theorem globalThreads_lt_of_fits
    (hfits : ∀ call ∈ minerloopScanhash cfg optWorkId (getWork work) bs, call.Fits cfg) :
    ∀ call ∈ minerloopScanhash cfg optWorkId (getWork work) bs,
      call.launch.globalThreads < 2 ^ 31 := by
  intro call hc
  have hsteps := minerloopScanhash_steps cfg optWorkId (getWork_cached optWorkId work) bs call hc
  have hthreads := hsteps.threads_eq
  have hwithin := (hfits call hc).within
  rcases globalThreads_cases (glbthr cfg (chosenId optWorkId (getWork work).data)) with h | h <;>
    omega

/-- Calls that fit cover the nonces exactly. -/
theorem coversExactly_of_fits
    (hfits : ∀ call ∈ minerloopScanhash cfg optWorkId (getWork work) bs, call.Fits cfg) :
    CoversExactly (minerloopScanhash cfg optWorkId (getWork work) bs) := by
  have hsteps := minerloopScanhash_steps cfg optWorkId (getWork_cached optWorkId work) bs
  have hlt := globalThreads_lt_of_fits hfits
  have hchain := contiguous_of_fits hfits
  have hordered : (minerloopScanhash cfg optWorkId (getWork work) bs).Pairwise fun a b =>
      a.launch.nonceStart.toNat + a.launch.globalThreads ≤ b.launch.nonceStart.toNat := by
    have : IsTrans ScanCall fun a b =>
        a.launch.nonceStart.toNat + a.launch.globalThreads ≤ b.launch.nonceStart.toNat :=
      ⟨fun a b c hab hbc => by omega⟩
    exact List.isChain_iff_pairwise.mp (hchain.imp fun a b h => h.ge)
  refine ⟨?_, minerloopScanhash_head cfg optWorkId (getWork work) bs, hchain, ?_, ?_⟩
  · refine hordered.imp_of_mem fun {a b} ha hb hab => ?_
    rw [Finset.disjoint_left]
    intro n hna hnb
    rw [Launch.mem_nonces_of_within (hfits a ha).within] at hna
    rw [Launch.mem_nonces_of_within (hfits b hb).within] at hnb
    omega
  · intro call hc
    rw [(hsteps call hc).forward_iff (hlt call hc) (hfits call hc).width]
    rcases (hfits call hc).within.lt_or_eq with hbelow | hend
    · exact .inr hbelow
    · exact .inl ((hfits call hc).last hend)
  · intro call hc
    exact (hsteps call hc).counted_iff.mpr ⟨hlt call hc, (hfits call hc).width⟩

/-- In an exact cover every call fits. -/
theorem fits_of_coversExactly
    (H : CoversExactly (minerloopScanhash cfg optWorkId (getWork work) bs)) :
    ∀ call ∈ minerloopScanhash cfg optWorkId (getWork work) bs, call.Fits cfg := by
  have hsteps := minerloopScanhash_steps cfg optWorkId (getWork_cached optWorkId work) bs
  intro call hc
  obtain ⟨hlt, hwidth⟩ := (hsteps call hc).counted_iff.mp (H.counted call hc)
  have hforward := ((hsteps call hc).forward_iff hlt hwidth).mp (H.forward call hc)
  refine ⟨hwidth, ?_, fun heq => hforward.resolve_right (by omega)⟩
  by_contra hover
  -- A launch past the end would meet the first one at nonce zero.
  obtain ⟨first, rest, hlist⟩ := List.exists_cons_of_ne_nil (List.ne_nil_of_mem hc)
  have hfirst : first.launch.nonceStart = 0 := H.start first (by simp [hlist])
  have hthreads : first.launch.globalThreads = call.launch.globalThreads := by
    rw [(hsteps first (by simp [hlist])).threads_eq, (hsteps call hc).threads_eq]
  rw [hlist] at hc
  rcases List.mem_cons.mp hc with rfl | hrest
  · simp only [hfirst, UInt32.toNat_zero, zero_add, not_le] at hover
    omega
  · have hdisj := List.rel_of_pairwise_cons (hlist ▸ H.disjoint) hrest
    have hzero : 0 ∈ first.launch.nonces := by
      rw [Launch.mem_nonces_of_within (by rw [hfirst, hthreads, UInt32.toNat_zero]; omega),
        hfirst, hthreads, UInt32.toNat_zero]
      have : call.launch.nonceStart.toNat < 2 ^ 32 := call.launch.nonceStart.toNat_lt
      omega
    exact Finset.disjoint_left.mp hdisj hzero (Launch.zero_mem_nonces (by omega))

end

/-- **The nonces of a work are launched in order, once each, and counted** exactly where
every call made on it fits. -/
theorem coversExactly_iff (cfg : OpenclConfig) (optWorkId : Option (Fin 19)) (work : Work)
    (bs : List Beside) :
    CoversExactly (minerloopScanhash cfg optWorkId (getWork work) bs) ↔
      ∀ call ∈ minerloopScanhash cfg optWorkId (getWork work) bs, call.Fits cfg :=
  ⟨fits_of_coversExactly, coversExactly_of_fits⟩

/-- The default thread count, with the two vectors a device may prefer. -/
def vectorConfig : OpenclConfig := { defaultConfig with vwidth := 2 }

/-- A call that launches 16777215 nonces returns twice as many. -/
theorem not_coversExactly_vectorConfig :
    ¬ CoversExactly (minerloopScanhash vectorConfig none (getWork tiedWork) [.quiet]) := by
  intro H
  set call := openclScanhash vectorConfig none none (getWork tiedWork) with hcall
  have hmem : call ∈ minerloopScanhash vectorConfig none (getWork tiedWork) [.quiet] := by
    rw [minerloopScanhash]
    split <;> exact List.mem_cons_self
  have hsteps := openclScanhash_steps vectorConfig none none (getWork tiedWork)
  obtain ⟨-, hwidth | hnone⟩ := hsteps.counted_iff.mp (H.counted call hmem)
  · exact absurd hwidth (by decide)
  · rw [hsteps.threads_eq] at hnone
    simp [globalThreads, glbthr, vectorConfig, defaultConfig] at hnone

/-! ### One thread

Where no other thread of the GPU sets the maximum, a thread count in the range of `int`
and a vector width of one are enough. -/

/-- Nobody else sets the maximum during this call. -/
def Beside.Alone (beside : Beside) : Prop :=
  beside.atRangeTest = none ∧ beside.atHashesDone = none ∧ beside.atAbandon = none

section
variable {cfg : OpenclConfig} {optWorkId : Option (Fin 19)}

/-- A thread that is not stopped has room for one more launch. -/
theorem room_of_not_abandonWork {work : Work} {beside : Beside} (H : beside.Alone)
    (hgo : abandonWork
      (openclScanhash cfg optWorkId beside.atRangeTest work).work.blkNonce
      (maxHashesAtAbandon beside (openclScanhash cfg optWorkId beside.atRangeTest work))
      beside.stops = false) :
    (openclScanhash cfg optWorkId beside.atRangeTest work).work.blkNonce.toNat +
      glbthr cfg (cacheHashbase optWorkId work).hashid < 2 ^ 32 := by
  obtain ⟨h1, h2, h3⟩ := H
  set call := openclScanhash cfg optWorkId beside.atRangeTest work with hcall
  have hmax : glbthr cfg (cacheHashbase optWorkId work).hashid ≤
      maxHashesAtAbandon beside call := by
    have : call.maxHashes = glbthr cfg (cacheHashbase optWorkId work).hashid := by
      simp [hcall, h1, openclScanhash]
    rw [maxHashesAtAbandon, h2, h3, Option.getD_none, Option.getD_none, hashesDone, ← this]
    split <;> omega
  simp only [abandonWork, Bool.or_eq_false_iff, decide_eq_false_iff_not] at hgo
  omega

/-- Alone, a call whose launch ends below the range fits, and so does every later one. -/
theorem minerloopScanhash_fits_of_alone {work : Work} {bs : List Beside}
    (hwidth : cfg.vwidth = 1) (halone : ∀ beside ∈ bs, beside.Alone)
    (hcached : work.Cached optWorkId)
    (hint : glbthr cfg (chosenId optWorkId work.data) < 2 ^ 31)
    (hroom : work.blkNonce.toNat + glbthr cfg (chosenId optWorkId work.data) < 2 ^ 32) :
    ∀ call ∈ minerloopScanhash cfg optWorkId work bs, call.Fits cfg := by
  induction bs generalizing work with
  | nil => simp [minerloopScanhash]
  | cons beside rest ih =>
      obtain ⟨hid, hbase⟩ := cacheHashbase_spec optWorkId hcached
      set call := openclScanhash cfg optWorkId beside.atRangeTest work with hcall
      have hstart : call.launch.nonceStart = work.blkNonce := by simp [hcall, openclScanhash]
      have hthreads : call.launch.globalThreads = glbthr cfg (chosenId optWorkId work.data) := by
        rw [(openclScanhash_steps cfg optWorkId beside.atRangeTest work).threads_eq, hid,
          globalThreads, if_pos hint]
      have hhead : call.Fits cfg := by
        refine ⟨.inl hwidth, ?_, ?_⟩ <;> rw [hstart, hthreads] <;> omega
      have hdata : call.work.data = work.data := by simp [hcall, openclScanhash]
      intro c hc
      rw [minerloopScanhash, ← hcall] at hc
      split at hc
      · rw [List.mem_singleton.mp hc]
        exact hhead
      · rename_i hgo
        rcases List.mem_cons.mp hc with rfl | hc
        · exact hhead
        · have hcached' : call.work.Cached optWorkId := by
            refine .inr ⟨?_, ?_⟩
            · rw [hdata]; exact hid
            · rw [hdata]; exact hbase
          have hroom' : call.work.blkNonce.toNat + glbthr cfg (chosenId optWorkId work.data)
              < 2 ^ 32 := by
            rw [← hid]
            exact room_of_not_abandonWork (halone beside List.mem_cons_self)
              (Bool.eq_false_iff.mpr hgo)
          exact ih (fun b hb => halone b (List.mem_cons_of_mem _ hb)) hcached'
            (by rwa [hdata]) (by rwa [hdata]) c hc

/-- **Alone on its GPU, a thread covers the nonces exactly**, up to where it stops. -/
theorem coversExactly_of_alone {work : Work} {bs : List Beside} (hwidth : cfg.vwidth = 1)
    (hint : glbthr cfg (chosenId optWorkId work.data) < 2 ^ 31)
    (halone : ∀ beside ∈ bs, beside.Alone) :
    CoversExactly (minerloopScanhash cfg optWorkId (getWork work) bs) := by
  have hroom : (getWork work).blkNonce.toNat + glbthr cfg (chosenId optWorkId work.data)
      < 2 ^ 32 := by
    rw [getWork, UInt32.toNat_zero]
    omega
  exact coversExactly_of_fits
    (minerloopScanhash_fits_of_alone hwidth halone (.inl rfl) hint hroom)

end

end MassGridMiner

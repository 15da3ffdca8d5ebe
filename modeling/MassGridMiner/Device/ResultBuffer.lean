import MassGridMiner.Device.ScanHash
import MassGridMiner.Lib.Bits
import MassGridMiner.Lib.Run
import Mathlib.Data.List.Nodup
import Mathlib.Data.List.Perm.Subperm

/-!
# The results of a kernel

Every work item that meets the target stores its nonce in a buffer of sixteen words, whose last
one counts them.  The host reads the buffer after the kernel, clears it if it counts any, and
checks and submits what was counted in a thread of its own.  Nothing clears the buffer before the
first kernel, and nothing ends the results where the counter stands.

## Main definitions

* `store` — a result is added to the buffer.
* `postcalcHash` — what is read, checked and submitted.
* `GpuResults`, `GpuResults.step` — the buffer and what was made of it, and a launch.
* `GpuResults.Law` — what is expected of a launch.
* `GpuResults.Sound` — the condition for that.
-/

namespace MassGridMiner

/-- `MAXBUFFERS` words, of which the one at `FOUND` is the last. -/
abbrev ResultWords := Vector UInt32 16

/-- `goodNonce[goodNonce[FOUND]++]=nonce`, or none where that is outside of the buffer. -/
def store (goodNonce : ResultWords) (nonce : UInt32) : Option ResultWords :=
  let slot := goodNonce[15].toNat
  let goodNonce := goodNonce.set 15 (goodNonce[15] + 1)
  if h : slot < 16 then some (goodNonce.set slot nonce h) else none

/-- What a thread of `postcalc_hash` reads, checks and submits. -/
structure Posted where
  reads : List ℕ := []
  checked : List UInt32 := []
  offered : List UInt32 := []
  hwErrors : ℕ := 0

section
variable (inner : Inner)

/-- The work item `gid` of a kernel. -/
def runItem (launch : Launch) (goodNonce : ResultWords) (gid : ℕ) : Option ResultWords :=
  match launch.report inner (UInt32.ofNat gid) with
  | some nonce => store goodNonce nonce
  | none => some goodNonce

/-- The body of the loop of `postcalc_hash`.  The words that follow the results are zero. -/
def postcalcEntry (res : ResultWords) (pcd : Work × Posted) (entry : ℕ) : Work × Posted :=
  let nonce := res[entry]?.getD 0
  let (good, work) := jumphashCheck inner pcd.1 nonce
  let posted := { pcd.2 with
    reads := pcd.2.reads ++ [entry]
    checked := pcd.2.checked ++ [nonce] }
  if good then (work, { posted with offered := posted.offered ++ [nonce] })
  else (work, { posted with hwErrors := posted.hwErrors + 1 })

/-- `postcalc_hash`. -/
def postcalcHash (work : Work) (res : ResultWords) : Posted :=
  let invalid := res[15] &&& ~~~15 ≠ 0
  let count := if invalid then res[15] &&& 15 else res[15]
  ((List.range count.toNat).foldl (postcalcEntry inner res)
    (work, { hwErrors := if invalid then 1 else 0 })).2

end

/-- A call of `opencl_scanhash`: the work, what another thread has made of the maximum, and the
order in which the work items come to their stores. -/
structure Turn where
  work : Work
  seen : Option ℕ
  order : List ℕ

/-- The output buffer, if no store has left it, and what was made of it last. -/
structure GpuResults where
  outputBuffer : Option ResultWords
  posted : Posted

namespace GpuResults
section
variable (inner : Inner) (cfg : OpenclConfig) (optWorkId : Option (Fin 19))

/-- What a turn calls. -/
def call (turn : Turn) : ScanCall := openclScanhash cfg optWorkId turn.seen turn.work

/-- The nonces of the work items that meet the target, in their order. -/
def hits (turn : Turn) : List UInt32 :=
  turn.order.filterMap fun gid => (call cfg optWorkId turn).launch.report inner (UInt32.ofNat gid)

/-- `opencl_scanhash` from its launch on, where no call fails. -/
def step (s : GpuResults) (turn : Turn) : Option GpuResults :=
  let call := call cfg optWorkId turn
  if turn.order.Perm (List.range call.launch.globalThreads) then
    some <| match s.outputBuffer.bind fun goodNonce =>
        turn.order.foldlM (runItem inner call.launch) goodNonce with
      | none => { outputBuffer := none, posted := {} }
      | some res =>
        if res[15] ≠ 0 then
          { outputBuffer := some (Vector.replicate 16 0)
            posted := postcalcHash inner call.work res }
        else { outputBuffer := some res, posted := {} }
  else none

/-- Before the first kernel, with the buffer as `clCreateBuffer` returned it. -/
def init (outputBuffer : ResultWords) : GpuResults := ⟨some outputBuffer, {}⟩

/-- Every store is inside of the buffer and every word that is read comes before the counter.
If the results fit below the counter, each of them is checked and submitted once, and none of
another kernel is ever checked. -/
structure Law (_ : GpuResults) (turn : Turn) (s' : GpuResults) : Prop where
  inside : s'.outputBuffer.isSome = true
  reads : ∀ entry ∈ s'.posted.reads, entry < 15
  once : (hits inner cfg optWorkId turn).length ≤ 15 →
    s'.posted.checked = hits inner cfg optWorkId turn ∧
      s'.posted.offered = hits inner cfg optWorkId turn
  own : ∀ nonce ∈ s'.posted.checked, nonce ∈ hits inner cfg optWorkId turn

end

/-- There is room for the nonces.  One that takes the last word while others follow is where the
next one is stored. -/
def Fits : ℕ → List UInt32 → Prop
  | _, [] => True
  | 0, _ :: _ => False
  | 1, nonce :: rest => Fits (16 - nonce.toNat) rest
  | room + 2, _ :: rest => Fits (room + 1) rest

/-- There is room for the results, and unless there are too many to submit them, the upper 64 bits
of their hashes are below those of the target. -/
def Sound (inner : Inner) (cfg : OpenclConfig) (optWorkId : Option (Fin 19)) (_ : GpuResults)
    (turn : Turn) (_ : GpuResults) : Prop :=
  Fits 16 (hits inner cfg optWorkId turn) ∧
    ((hits inner cfg optWorkId turn).length ≤ 15 → ∀ nonce ∈ hits inner cfg optWorkId turn,
      (jumpHash inner turn.work.data nonce).word64 3 < turn.work.target.word64 3)

/-! ## Stores -/

/-- **The stores stay inside of the buffer** exactly if there is room for them. -/
theorem isSome_foldlM_store_iff (hits : List UInt32) (goodNonce : ResultWords) :
    (hits.foldlM store goodNonce).isSome = true ↔ Fits (16 - goodNonce[15].toNat) hits := by
  induction hits generalizing goodNonce with
  | nil => simp [Fits]
  | cons nonce rest ih =>
    rw [List.foldlM_cons, store]
    have hslot := goodNonce[15].toNat_lt
    rcases Nat.lt_or_ge goodNonce[15].toNat 16 with hin | hout
    · rw [dif_pos hin]
      simp only [Option.bind_eq_bind, Option.bind_some, ih, Vector.getElem_set]
      split
      · next hlast =>
        rw [hlast]
        rfl
      · next hbelow =>
        obtain ⟨room, hroom⟩ : ∃ room, 16 - goodNonce[15].toNat = room + 2 :=
          ⟨14 - goodNonce[15].toNat, by omega⟩
        have hnext : 16 - (goodNonce[15] + 1).toNat = room + 1 := by
          rw [UInt32.toNat_add, UInt32.toNat_one, Nat.mod_eq_of_lt (by omega)]
          omega
        rw [if_pos trivial, hroom, hnext]
        rfl
    · rw [dif_neg (by omega), Nat.sub_eq_zero_of_le hout]
      simp [Fits]

/-- Results that fit below the counter stand there in their order. -/
theorem foldlM_store_few (hits : List UInt32) (goodNonce : ResultWords)
    (H : goodNonce[15].toNat + hits.length ≤ 15) :
    ∃ res, hits.foldlM store goodNonce = some res ∧
      res[15].toNat = goodNonce[15].toNat + hits.length ∧
      ∀ i (hi : i < 15), res[i] = if i < goodNonce[15].toNat then goodNonce[i]
        else hits[i - goodNonce[15].toNat]?.getD goodNonce[i] := by
  induction hits generalizing goodNonce with
  | nil => exact ⟨goodNonce, rfl, rfl, fun i hi => by simp⟩
  | cons nonce rest ih =>
    rw [List.length_cons] at H
    have hslot : goodNonce[15].toNat < 16 := by omega
    obtain ⟨next, hnext⟩ : ∃ next, next =
        (goodNonce.set 15 (goodNonce[15] + 1)).set goodNonce[15].toNat nonce hslot := ⟨_, rfl⟩
    have hcount : next[15].toNat = goodNonce[15].toNat + 1 := by
      rw [hnext, Vector.getElem_set, if_neg (by omega), Vector.getElem_set, if_pos rfl,
        UInt32.toNat_add, UInt32.toNat_one]
      omega
    obtain ⟨res, hres, hlen, hwords⟩ := ih next (by omega)
    refine ⟨res, ?_, by rw [hlen, hcount, List.length_cons]; omega, fun i hi => ?_⟩
    · rw [List.foldlM_cons, store, dif_pos hslot, ← hnext]
      exact hres
    · rw [hwords i hi, hcount]
      have hword : next[i] = if goodNonce[15].toNat = i then nonce else goodNonce[i] := by
        rw [hnext, Vector.getElem_set, Vector.getElem_set, if_neg (show ¬ 15 = i by omega)]
      rw [hword]
      rcases Nat.lt_trichotomy i goodNonce[15].toNat with hlt | heq | hgt
      · rw [if_pos (by omega), if_neg (by omega), if_pos hlt]
      · rw [if_pos (by omega), if_pos heq.symm, if_neg (by omega),
          show i - goodNonce[15].toNat = 0 by omega]
        rfl
      · obtain ⟨k, hk⟩ : ∃ k, i - goodNonce[15].toNat = k + 1 :=
          ⟨i - goodNonce[15].toNat - 1, by omega⟩
        rw [if_neg (by omega), if_neg (by omega), if_neg (by omega), hk, List.getElem?_cons_succ,
          show i - (goodNonce[15].toNat + 1) = k by omega]

/-- Below the counter a store puts nothing but its result. -/
theorem forall_foldlM_store {p : UInt32 → Prop} {hits : List UInt32} {goodNonce res : ResultWords}
    (hrun : hits.foldlM store goodNonce = some res) (hhits : ∀ nonce ∈ hits, p nonce)
    (hwords : ∀ i (_ : i < 15), p goodNonce[i]) : ∀ i (_ : i < 15), p res[i] := by
  induction hits generalizing goodNonce with
  | nil =>
    obtain rfl := Option.some.inj hrun
    exact hwords
  | cons nonce rest ih =>
    rw [List.forall_mem_cons] at hhits
    obtain ⟨next, hnext, hrest⟩ := Option.bind_eq_some_iff.mp hrun
    rw [store] at hnext
    split at hnext
    · obtain rfl := Option.some.inj hnext
      refine ih hrest hhits.2 fun i hi => ?_
      rw [Vector.getElem_set, Vector.getElem_set, if_neg (show ¬ 15 = i by omega)]
      split
      · exact hhits.1
      · exact hwords i hi
    · cases hnext

/-- Once the counter has been reached, every word below it is one of the results. -/
theorem mem_foldlM_store {hits : List UInt32} {goodNonce res : ResultWords}
    (hzero : goodNonce[15] = 0) (hrun : hits.foldlM store goodNonce = some res)
    (hmany : 15 ≤ hits.length) : ∀ i (_ : i < 15), res[i] ∈ hits := by
  rw [← List.take_append_drop 15 hits, List.foldlM_append] at hrun
  have hcount : goodNonce[15].toNat = 0 := by rw [hzero]; rfl
  have hlen : (hits.take 15).length = 15 := List.length_take_of_le hmany
  obtain ⟨full, hfull, -, hwords⟩ := foldlM_store_few (hits.take 15) goodNonce (by omega)
  rw [hfull] at hrun
  refine forall_foldlM_store hrun (fun nonce hnonce => List.mem_of_mem_drop hnonce) ?_
  intro i hi
  rw [hwords i hi, hcount, if_neg (by omega), Nat.sub_zero,
    List.getElem?_eq_getElem (by omega), Option.getD_some]
  exact List.mem_of_mem_take (List.getElem_mem _)

theorem fits_of_length_le {hits : List UInt32} {room : ℕ} (H : hits.length ≤ room) :
    Fits room hits := by
  induction hits generalizing room with
  | nil => simp [Fits]
  | cons nonce rest ih =>
    rw [List.length_cons] at H
    match room, H with
    | 1, H =>
      rw [List.length_eq_zero_iff.mp (Nat.le_zero.mp (Nat.le_of_succ_le_succ H))]
      trivial
    | room + 2, H => exact ih (Nat.le_of_succ_le_succ H)

theorem fits_append_cons (front : List UInt32) (nonce : UInt32) (rest : List UInt32) :
    Fits (front.length + 1) (front ++ nonce :: rest) ↔ Fits (16 - nonce.toNat) rest := by
  induction front with
  | nil => rfl
  | cons _ front ih => exact ih

/-- **In any order** there is room for the results exactly if there are sixteen of them at most. -/
theorem forall_perm_fits_iff {hits : List UInt32} (hnodup : hits.Nodup) :
    (∀ order : List UInt32, order.Perm hits → Fits 16 order) ↔ hits.length ≤ 16 := by
  constructor
  · intro hall
    by_contra hmany
    -- one of the results is no word of the buffer, and may come sixteenth
    obtain ⟨nonce, hnonce, hlarge⟩ : ∃ nonce ∈ hits, 16 ≤ nonce.toNat := by
      by_contra hsmall
      push Not at hsmall
      have hinj : (hits.map UInt32.toNat).Nodup :=
        hnodup.map fun _ _ h => UInt32.toNat_inj.mp h
      have hsub : hits.map UInt32.toNat ⊆ List.range 16 := by
        intro n hn
        obtain ⟨nonce, hnonce, rfl⟩ := List.mem_map.mp hn
        exact List.mem_range.mpr (hsmall nonce hnonce)
      have hle := (List.subperm_of_subset hinj hsub).length_le
      rw [List.length_map, List.length_range] at hle
      omega
    have hlen := List.length_erase_of_mem hnonce
    have hperm : ((hits.erase nonce).take 15 ++ nonce :: (hits.erase nonce).drop 15).Perm hits := by
      refine List.perm_middle.trans ?_
      rw [List.take_append_drop]
      exact (List.perm_cons_erase hnonce).symm
    have hfits := hall _ hperm
    have hfront : ((hits.erase nonce).take 15).length + 1 = 16 := by
      rw [List.length_take]
      omega
    rw [← hfront, fits_append_cons, Nat.sub_eq_zero_of_le hlarge] at hfits
    cases hrest : (hits.erase nonce).drop 15 with
    | nil =>
      have := List.drop_eq_nil_iff.mp hrest
      omega
    | cons _ _ =>
      rw [hrest] at hfits
      exact hfits
  · exact fun hfew order hperm => fits_of_length_le (hperm.length_eq.trans_le hfew)

section
variable (inner : Inner)

/-- Only work items that meet the target store anything. -/
theorem foldlM_runItem (launch : Launch) (order : List ℕ) (goodNonce : ResultWords) :
    order.foldlM (runItem inner launch) goodNonce =
      (order.filterMap fun gid => launch.report inner (UInt32.ofNat gid)).foldlM store
        goodNonce := by
  induction order generalizing goodNonce with
  | nil => rfl
  | cons gid rest ih =>
    rw [List.foldlM_cons, List.filterMap_cons, runItem]
    generalize launch.report inner (UInt32.ofNat gid) = report
    cases report with
    | none => exact ih goodNonce
    | some nonce => exact congrArg _ (funext ih)

/-! ## The host -/

/-- The check looks at nothing that it writes. -/
theorem jumphashCheck_jumphashCheck (work : Work) (nonce nonce' : UInt32) :
    (jumphashCheck inner (jumphashCheck inner work nonce).2 nonce').1 =
      (jumphashCheck inner work nonce').1 := by
  rw [Bool.eq_iff_iff, jumphashCheck_iff, jumphashCheck_iff]
  rw [jumphashCheck]

/-- The loop reads, checks and submits in order. -/
theorem foldl_postcalcEntry (res : ResultWords) (entries : List ℕ) (check : UInt32 → Bool)
    (work : Work) (posted : Posted)
    (hcheck : ∀ nonce, (jumphashCheck inner work nonce).1 = check nonce) :
    (entries.foldl (postcalcEntry inner res) (work, posted)).2.reads = posted.reads ++ entries ∧
      (entries.foldl (postcalcEntry inner res) (work, posted)).2.checked =
        posted.checked ++ entries.map (res[·]?.getD 0) ∧
      (entries.foldl (postcalcEntry inner res) (work, posted)).2.offered =
        posted.offered ++ (entries.map (res[·]?.getD 0)).filter check := by
  induction entries generalizing work posted with
  | nil => simp
  | cons entry rest ih =>
    obtain ⟨nonce, hnonce⟩ : ∃ nonce, nonce = res[entry]?.getD 0 := ⟨_, rfl⟩
    obtain ⟨posted', hposted⟩ : ∃ posted',
      posted' = (postcalcEntry inner res (work, posted) entry).2 := ⟨_, rfl⟩
    have hentry : postcalcEntry inner res (work, posted) entry =
        ((jumphashCheck inner work nonce).2, posted') := by
      rw [hposted, postcalcEntry, ← hnonce]
      dsimp only
      split <;> rfl
    have hfields : posted'.reads = posted.reads ++ [entry] ∧
        posted'.checked = posted.checked ++ [nonce] ∧
        posted'.offered = posted.offered ++ [nonce].filter check := by
      rw [hposted, postcalcEntry, ← hnonce]
      dsimp only
      rw [hcheck, List.filter_singleton]
      cases check nonce with
      | true => exact ⟨rfl, rfl, rfl⟩
      | false => exact ⟨rfl, rfl, (List.append_nil _).symm⟩
    have hfilter : (nonce :: rest.map (res[·]?.getD 0)).filter check =
        [nonce].filter check ++ (rest.map (res[·]?.getD 0)).filter check :=
      List.filter_append [nonce] _
    rw [List.foldl_cons, hentry, List.map_cons, ← hnonce, hfilter]
    obtain ⟨hreads, hchecked, hoffered⟩ := ih (jumphashCheck inner work nonce).2 posted'
      fun nonce' => (jumphashCheck_jumphashCheck inner work nonce nonce').trans (hcheck nonce')
    rw [hreads, hchecked, hoffered, hfields.1, hfields.2.1, hfields.2.2]
    simp only [List.append_assoc, List.singleton_append, and_self]

/-- **The host** reads as many words as are counted, but for the higher bits of the counter,
checks each of them, and submits those that pass. -/
theorem postcalcHash_spec (work : Work) (res : ResultWords) :
    ∃ count < 16, (res[15].toNat < 16 → count = res[15].toNat) ∧
      (postcalcHash inner work res).reads = List.range count ∧
      (postcalcHash inner work res).checked = (List.range count).map (res[·]?.getD 0) ∧
      (postcalcHash inner work res).offered = (postcalcHash inner work res).checked.filter
        fun nonce => (jumphashCheck inner work nonce).1 := by
  have hlow : (res[15] &&& 15).toNat = res[15].toNat % 2 ^ 4 := by
    rw [UInt32.toNat_and, ← Nat.and_two_pow_sub_one_eq_mod]
    rfl
  have hmask : res[15] &&& ~~~15 = 0 ↔ res[15].toNat < 16 := by
    rw [UInt32.and_not_eq_zero_iff, ← UInt32.toNat_inj, hlow]
    omega
  obtain ⟨count, hcount⟩ : ∃ count : UInt32, count =
    if res[15] &&& ~~~15 ≠ 0 then res[15] &&& 15 else res[15] := ⟨_, rfl⟩
  obtain ⟨hreads, hchecked, hoffered⟩ := foldl_postcalcEntry inner res (List.range count.toNat)
    _ work { hwErrors := if res[15] &&& ~~~15 ≠ 0 then 1 else 0 } fun _ => rfl
  have hpost : postcalcHash inner work res = ((List.range count.toNat).foldl
      (postcalcEntry inner res)
      (work, { hwErrors := if res[15] &&& ~~~15 ≠ 0 then 1 else 0 })).2 := by
    rw [postcalcHash, hcount]
  rw [hpost, hreads, hchecked, hoffered]
  refine ⟨count.toNat, ?_, fun hvalid => ?_, rfl, rfl, rfl⟩
  · rw [hcount]
    split
    · omega
    · next hvalid => exact hmask.mp (not_not.mp hvalid)
  · rw [hcount, if_neg (not_not.mpr (hmask.mpr hvalid))]

end

/-! ## Launches -/

section
variable (inner : Inner) (cfg : OpenclConfig) (optWorkId : Option (Fin 19))

/-- The buffer is there, and counts nothing. -/
def Inv (s : GpuResults) : Prop := ∃ goodNonce, s.outputBuffer = some goodNonce ∧ goodNonce[15] = 0

theorem checks_iff (turn : Turn) (nonce : UInt32) :
    (jumphashCheck inner (call cfg optWorkId turn).work nonce).1 = true ↔
      (jumpHash inner turn.work.data nonce).word64 3 < turn.work.target.word64 3 := by
  have hdata : (call cfg optWorkId turn).work.data = turn.work.data := by
    simp [call, openclScanhash]
  have htarget : (call cfg optWorkId turn).work.target = turn.work.target := by
    simp [call, openclScanhash]
  rw [jumphashCheck_iff, hdata, htarget]

/-- What a launch makes of an empty buffer. -/
theorem step_spec {s s' : GpuResults} {turn : Turn} {goodNonce : ResultWords}
    (hbuf : s.outputBuffer = some goodNonce)
    (hstep : step inner cfg optWorkId s turn = some s') :
    ((hits inner cfg optWorkId turn).foldlM store goodNonce = none ∧ s'.outputBuffer = none) ∨
    ∃ res, (hits inner cfg optWorkId turn).foldlM store goodNonce = some res ∧
      ((res[15] = 0 ∧ s' = ⟨some res, {}⟩) ∨
        (res[15] ≠ 0 ∧ s' = ⟨some (Vector.replicate 16 0),
          postcalcHash inner (call cfg optWorkId turn).work res⟩)) := by
  rw [step] at hstep
  split at hstep
  · obtain rfl := Option.some.inj hstep
    rw [hbuf, Option.bind_some, foldlM_runItem]
    rw [show (turn.order.filterMap fun gid => (call cfg optWorkId turn).launch.report inner
      (UInt32.ofNat gid)) = hits inner cfg optWorkId turn from rfl]
    cases hrun : (hits inner cfg optWorkId turn).foldlM store goodNonce with
    | none => exact .inl ⟨rfl, rfl⟩
    | some res =>
      refine .inr ⟨res, rfl, ?_⟩
      by_cases hzero : res[15] = 0
      · exact .inl ⟨hzero, by simp [hzero]⟩
      · exact .inr ⟨hzero, by simp [hzero]⟩
  · cases hstep

/-- **A launch** on an empty buffer does what is expected exactly if it is sound. -/
theorem law_iff_sound {s s' : GpuResults} {turn : Turn} (H : s.Inv)
    (hstep : step inner cfg optWorkId s turn = some s') :
    Law inner cfg optWorkId s turn s' ↔ Sound inner cfg optWorkId s turn s' := by
  obtain ⟨goodNonce, hbuf, hcount⟩ := H
  obtain ⟨results, hresults⟩ : ∃ results, results = hits inner cfg optWorkId turn := ⟨_, rfl⟩
  have hzero : goodNonce[15].toNat = 0 := by rw [hcount]; rfl
  have hroom : (results.foldlM store goodNonce).isSome = true ↔ Fits 16 results := by
    rw [isSome_foldlM_store_iff, hzero]
  -- the words that are read, once the results are in the buffer
  have hfew : ∀ res, results.foldlM store goodNonce = some res → results.length ≤ 15 →
      res[15].toNat = results.length ∧
        (List.range results.length).map (res[·]?.getD 0) = results := by
    intro res hrun hlen
    obtain ⟨res', hres', hcount', hwords⟩ := foldlM_store_few results goodNonce (by omega)
    obtain rfl := Option.some.inj (hrun.symm.trans hres')
    refine ⟨by omega, List.ext_getElem (by simp) fun i hi hi' => ?_⟩
    rw [List.getElem_map, List.getElem_range, Vector.getElem?_eq_getElem (by omega),
      Option.getD_some, hwords i (by omega), if_neg (by omega), hzero, Nat.sub_zero,
      List.getElem?_eq_getElem hi', Option.getD_some]
  have hpass : ∀ checked : List UInt32, (checked.filter fun nonce =>
      (jumphashCheck inner (call cfg optWorkId turn).work nonce).1) = checked ↔
      ∀ nonce ∈ checked,
        (jumpHash inner turn.work.data nonce).word64 3 < turn.work.target.word64 3 := by
    intro checked
    rw [List.filter_eq_self]
    exact forall₂_congr fun nonce _ => checks_iff inner cfg optWorkId turn nonce
  rcases step_spec inner cfg optWorkId hbuf hstep with ⟨hrun, hout⟩ | ⟨res, hrun, hcases⟩
  · -- a store has left the buffer
    rw [← hresults] at hrun
    refine iff_of_false (fun h => ?_) fun h => ?_
    · have hinside := h.inside
      rw [hout] at hinside
      cases hinside
    · have hsome := hroom.mpr (hresults ▸ h.1)
      rw [hrun] at hsome
      cases hsome
  · rw [← hresults] at hrun
    have hfits : Fits 16 results := hroom.mp (by rw [hrun]; rfl)
    rw [Sound, ← hresults, and_iff_right hfits]
    rcases hcases with ⟨hnone, rfl⟩ | ⟨hsome, rfl⟩
    · -- nothing is counted
      constructor
      · intro h hlen nonce hnonce
        have hnil : [] = results := hresults ▸ (h.once (hresults ▸ hlen)).1
        rw [← hnil] at hnonce
        cases hnonce
      · intro _
        refine ⟨rfl, by simp, fun hlen => ?_, by simp⟩
        rw [← hresults] at hlen ⊢
        have hlen' := (hfew res hrun hlen).1
        rw [hnone] at hlen'
        rw [List.length_eq_zero_iff.mp hlen'.symm]
        exact ⟨rfl, rfl⟩
    · obtain ⟨count, hlt, hvalid, hreads, hchecked, hoffered⟩ :=
        postcalcHash_spec inner (call cfg optWorkId turn).work res
      have hall : results.length ≤ 15 →
          (postcalcHash inner (call cfg optWorkId turn).work res).checked = results := by
        intro hlen
        obtain ⟨hlen', hwords⟩ := hfew res hrun hlen
        rw [hchecked, hvalid (by omega), hlen', hwords]
      constructor
      · intro h hlen
        obtain ⟨-, hsubmitted⟩ := h.once (hresults ▸ hlen)
        rw [hoffered, hall hlen, ← hresults] at hsubmitted
        exact (hpass results).mp hsubmitted
      · intro hbelow
        constructor
        case inside => rfl
        case reads =>
          intro entry hentry
          rw [hreads, List.mem_range] at hentry
          omega
        case once =>
          rw [← hresults]
          intro hlen
          exact ⟨hall hlen, by rw [hoffered, hall hlen, (hpass results).mpr (hbelow hlen)]⟩
        case own =>
          rw [← hresults]
          intro nonce hnonce
          rcases Nat.lt_or_ge 15 results.length with hmany | hlen
          · rw [hchecked] at hnonce
            obtain ⟨i, hi, rfl⟩ := List.mem_map.mp hnonce
            rw [List.mem_range] at hi
            rw [Vector.getElem?_eq_getElem (by omega), Option.getD_some]
            exact mem_foldlM_store hcount hrun hmany.le i (by omega)
          · rw [← hall hlen]
            exact hnonce

/-- A launch that does what is expected leaves an empty buffer. -/
theorem Law.inv {s s' : GpuResults} {turn : Turn} (H : s.Inv)
    (hstep : step inner cfg optWorkId s turn = some s') (hlaw : Law inner cfg optWorkId s turn s') :
    s'.Inv := by
  obtain ⟨goodNonce, hbuf, -⟩ := H
  rcases step_spec inner cfg optWorkId hbuf hstep with ⟨-, hout⟩ | ⟨res, -, hcases⟩
  · have hinside := hlaw.inside
    rw [hout] at hinside
    cases hinside
  · rcases hcases with ⟨hzero, rfl⟩ | ⟨-, rfl⟩
    · exact ⟨res, rfl, hzero⟩
    · exact ⟨_, rfl, by simp⟩

/-- **Launch after launch**, if the buffer counts nothing at first, all do what is expected exactly
if all are sound. -/
theorem allSteps_law_iff (outputBuffer : ResultWords) (hempty : outputBuffer[15] = 0)
    (turns : List Turn) :
    Run.AllSteps (step inner cfg optWorkId) (Law inner cfg optWorkId) (init outputBuffer) turns ↔
      Run.AllSteps (step inner cfg optWorkId) (Sound inner cfg optWorkId) (init outputBuffer)
        turns := by
  have hiff : ∀ s turn s', Inv s → step inner cfg optWorkId s turn = some s' →
      (Law inner cfg optWorkId s turn s' ↔ Sound inner cfg optWorkId s turn s') :=
    fun s turn s' H hstep => law_iff_sound inner cfg optWorkId H hstep
  have hkeep : ∀ s turn s', Inv s → step inner cfg optWorkId s turn = some s' →
      Law inner cfg optWorkId s turn s' → Inv s' :=
    fun s turn s' H hstep hlaw => hlaw.inv inner cfg optWorkId H hstep
  exact Run.allSteps_congr hiff hkeep turns ⟨outputBuffer, rfl, hempty⟩

/-- With whatever else is in the buffer at first, a counter that is no word of it leads the first
result out of it. -/
theorem not_law_of_counter {outputBuffer : ResultWords} {turn : Turn} {s' : GpuResults}
    (hcounter : 16 ≤ outputBuffer[15].toNat) (hhit : hits inner cfg optWorkId turn ≠ [])
    (hstep : step inner cfg optWorkId (init outputBuffer) turn = some s') :
    ¬ Law inner cfg optWorkId (init outputBuffer) turn s' := by
  intro hlaw
  obtain ⟨nonce, rest, hhits⟩ := List.exists_cons_of_ne_nil hhit
  rcases step_spec inner cfg optWorkId rfl hstep with ⟨-, hout⟩ | ⟨res, hrun, -⟩
  · have hinside := hlaw.inside
    rw [hout] at hinside
    cases hinside
  · have hfits := (isSome_foldlM_store_iff _ outputBuffer).mp (by rw [hrun]; rfl)
    rw [Nat.sub_eq_zero_of_le hcounter, hhits] at hfits
    exact hfits

end

/-- A work that every hash meets. -/
def easyWork : Work := { tiedWork with target := Vector.replicate 32 255 }

/-- Seventeen work items. -/
def manyConfig : OpenclConfig where
  optGpuglobalThreads := 17
  accepted := by omega
  enSettingGlobalThread := false
  vwidth := 1

/-- The last but one of the work items comes last. -/
def manyTurn : Turn where
  work := easyWork
  seen := none
  order := List.range 15 ++ [16, 15]

/-- One launch on a buffer of zeros. -/
theorem allSteps_law_iff_manyTurn :
    Run.AllSteps (step (fun _ block => block) manyConfig none)
        (Law (fun _ block => block) manyConfig none) (init (Vector.replicate 16 0)) [manyTurn] ↔
      Run.AllSteps (step (fun _ block => block) manyConfig none)
        (Sound (fun _ block => block) manyConfig none) (init (Vector.replicate 16 0))
        [manyTurn] :=
  allSteps_law_iff _ _ _ (Vector.replicate 16 0) (by decide) _

theorem hits_manyTurn : hits (fun _ block => block) manyConfig none manyTurn =
    [0, 1, 2, 3, 4, 5, 6, 7, 8, 9, 10, 11, 12, 13, 14, 16, 15] := by
  have htarget : (call manyConfig none manyTurn).launch.target = 0xffffffffffffffff := by decide
  have hreport : ∀ gid, (call manyConfig none manyTurn).launch.report (fun _ block => block) gid =
      some gid := by
    intro gid
    obtain ⟨outcome, houtcome⟩ : ∃ outcome : Hash, outcome = sha256DeviceDigest
      (placeNonce (call manyConfig none manyTurn).launch.input (gid + 0)).toList := ⟨_, rfl⟩
    have hlow := outcome.word32_lt (2 * 3)
    have hhigh := outcome.word32_lt (2 * 3 + 1)
    have hmeets : outcome.word64 3 ≤ 0xffffffffffffffff := by
      rw [Bytes.word64]
      omega
    rw [Launch.report, scanHash, htarget,
      show (call manyConfig none manyTurn).launch.nonceStart = 0 from rfl, ← houtcome,
      if_pos hmeets, UInt32.add_zero]
  rw [hits]
  simp only [hreport]
  decide

/-- The sixteenth result becomes the place of the next one. -/
theorem not_law_manyTurn :
    ¬ Run.AllSteps (step (fun _ block => block) manyConfig none)
      (Law (fun _ block => block) manyConfig none) (init (Vector.replicate 16 0)) [manyTurn] := by
  intro hall
  have hthreads : (call manyConfig none manyTurn).launch.globalThreads = 17 := rfl
  have hrange : List.range 17 = List.range 15 ++ [15, 16] := by
    rw [List.range_succ, List.range_succ, List.append_assoc]
    rfl
  have hperm : manyTurn.order.Perm (List.range 17) := by
    rw [hrange]
    exact (List.Perm.swap 15 16 []).append_left (List.range 15)
  obtain ⟨s', hstep⟩ : ∃ s', step (fun _ block => block) manyConfig none
      (init (Vector.replicate 16 0)) manyTurn = some s' := by
    rw [step, hthreads, if_pos hperm]
    exact ⟨_, rfl⟩
  have hsound := (law_iff_sound _ _ _ ⟨_, rfl, by decide⟩ hstep).mp (hall s' hstep).1
  rw [Sound, hits_manyTurn] at hsound
  exact (fits_append_cons [0, 1, 2, 3, 4, 5, 6, 7, 8, 9, 10, 11, 12, 13, 14] 16 [15]).mp hsound.1

end GpuResults

end MassGridMiner

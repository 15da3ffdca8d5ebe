import MassGridMiner.Device.Minergate
import MassGridMiner.Lib.Keyed

/-!
# The calls of a minergate, one after the other

The works of the list have the ids that were given last, so no work that waits is replaced, and a
flush finds all of them in the table.  The responses of a packet complete the works of the table
whose ids they name.  So a call does what is expected of it exactly if it stays inside of the
packets and an SP30 completes works that are there.

## Main definitions

* `Minergate.Good` — what a call relies on and keeps.
* `Minergate.foldlM_response` — the responses of a packet.
* `Minergate.law_iff_sane`, `Minergate.allSteps_served_iff` — one call, and all of them.
-/

namespace MassGridMiner

/-- A configuration whose packets have the sizes that were meant. -/
structure MinergateConfig.Sound (c : MinergateConfig) : Prop where
  nReqQueue_lt : c.nReqQueue < 2 ^ 31
  pktReqSz : c.pktReqSz = (8 + 0x34 * c.nReq : ℕ)
  pktRspSz : c.pktRspSz = (8 + c.pktRspItemSz * c.nRsp : ℕ)
  pktRspItemSz : c.pktRspItemSz = match c.protover with | .sp10 => 0x14 | .sp30 => 0x10

/-- The sizes of the packets are an `int`. -/
def MinergateConfig.Fits (c : MinergateConfig) : Prop :=
  8 + 0x34 * c.nReq < 2 ^ 31 ∧ 8 + c.pktRspItemSz * c.nRsp < 2 ^ 31

/-- A size that is in the range of an `int`. -/
theorem pktSz_eq {itemSz n : ℕ} (H : 8 + itemSz * n < 2 ^ 31) :
    pktSz itemSz n = (8 + itemSz * n : ℕ) := by
  have hint : ∀ size : ℕ, size < 2 ^ 31 → (size : ℤ).bmod (2 ^ 32) = size := by
    intro size hlt
    have hsize : ((2 ^ 32 : ℕ) : ℤ) = 4294967296 := rfl
    exact Int.bmod_eq_of_le_mul_two (by rw [hsize]; omega) (by rw [hsize]; omega)
  exact hint _ H

theorem bfgInit_lt {var dflt n : ℕ} (hvar : var < n) (hdflt : dflt < n) : bfgInit var dflt < n := by
  rw [bfgInit]
  split
  · exact hdflt
  · exact hvar

theorem MinergateSettings.sound_config (o : MinergateSettings) (hfits : o.config.Fits) :
    o.config.Sound := by
  obtain ⟨hreq, hrsp⟩ := hfits
  obtain ⟨hnReq, hnReqQueue, -⟩ := o.accepted
  constructor
  case nReqQueue_lt =>
    rw [config]
    split
    · exact bfgInit_lt hnReqQueue (bfgInit_lt hnReq (by omega))
    · exact bfgInit_lt hnReqQueue (by omega)
  case pktReqSz => exact pktSz_eq hreq
  case pktRspSz => exact pktSz_eq hrsp
  case pktRspItemSz =>
    rw [config]
    cases o.protover <;> rfl

namespace Minergate
variable {c : MinergateConfig} {s : Minergate}

/-! ## The functions -/

theorem exists_checkFull (H : 4 ≤ s.reqBuffer.length) : ∃ full,
    s.checkFull c = some { s with queueFull := full } ∧
      (full = false → s.readyToQueue < c.nReqQueue) := by
  rw [checkFull, List.getElem?_eq_getElem (show 3 < s.reqBuffer.length by omega)]
  refine ⟨_, rfl, fun hfull => ?_⟩
  simp only [Bool.or_eq_false_iff, decide_eq_false_iff_not] at hfull
  omega

/-- A work of the table is freed. -/
theorem custody_erase {n : ℕ} {work : List MinergateJob} {freed : List ℕ} {job : MinergateJob}
    (H : Custody n (work.map (·.work)) freed) (hjob : job ∈ work) :
    Custody n ((work.erase job).map (·.work)) (job.work :: freed) :=
  H.release ((List.perm_cons_erase hjob).map (·.work))

/-- What another job with the id leaves of the table. -/
theorem exists_dropOld (hids : (s.work.map (·.deviceId)).Nodup)
    (H : Custody s.appended (s.work.map (·.work)) s.freed) (id : UInt32) :
    ∃ freed, s.dropOld id =
        { s with work := s.work.filter (·.deviceId ≠ id), freed } ∧
      Custody s.appended ((s.work.filter (·.deviceId ≠ id)).map (·.work)) freed := by
  rw [dropOld]
  cases hfind : s.work.find? (·.deviceId = id) with
  | none =>
    have hall : s.work.filter (·.deviceId ≠ id) = s.work := by
      rw [List.filter_eq_self]
      intro job hjob
      simpa using List.find?_eq_none.mp hfind job hjob
    rw [hall]
    exact ⟨s.freed, rfl, H⟩
  | some old =>
    obtain ⟨hold, rfl⟩ := (Keyed.find?_eq_some hids).mp hfind
    rw [← Keyed.erase_eq_filter hids hold]
    exact ⟨_, rfl, custody_erase H hold⟩

/-- A flush takes the works of the list out of the table. -/
theorem exists_foldlM_dropListed {works : List ℕ} (hlist : s.workList = works)
    (hnodup : works.Nodup) (hthere : ∀ work ∈ works, work ∈ s.work.map (·.work))
    (H : Custody s.appended (s.work.map (·.work)) s.freed) :
    ∃ freed, works.foldlM dropListed s =
        some { s with work := s.work.filter (·.work ∉ works), workList := [], freed } ∧
      Custody s.appended ((s.work.filter (·.work ∉ works)).map (·.work)) freed := by
  induction works generalizing s with
  | nil =>
    have hall : s.work.filter (·.work ∉ ([] : List ℕ)) = s.work := by simp
    rw [hall, List.foldlM_nil, ← hlist]
    exact ⟨s.freed, rfl, H⟩
  | cons work works ih =>
    obtain ⟨hnot, hrest⟩ := List.nodup_cons.mp hnodup
    rw [List.forall_mem_cons] at hthere
    obtain ⟨job, hfind, hjob, rfl⟩ := Keyed.exists_find? hthere.1
    obtain ⟨next, hnext⟩ : ∃ next : Minergate, next = { s with
      work := s.work.erase job, workList := works, freed := job.work :: s.freed } := ⟨_, rfl⟩
    have hdrop : dropListed s job.work = some next := by
      rw [dropListed, hfind, hnext, hlist, List.erase_cons_head]
      rfl
    have hleft : next.work = s.work.filter (·.work ≠ job.work) := by
      rw [hnext]
      exact Keyed.erase_eq_filter H.nodup hjob
    have hthere' : ∀ work ∈ works, work ∈ next.work.map (·.work) := by
      intro work hwork
      obtain ⟨other, hother, rfl⟩ := List.mem_map.mp (hthere.2 work hwork)
      rw [hleft]
      refine List.mem_map_of_mem (List.mem_filter.mpr ⟨hother, ?_⟩)
      exact decide_eq_true (ne_of_mem_of_not_mem hwork hnot)
    have hcustody : Custody next.appended (next.work.map (·.work)) next.freed := by
      rw [hnext]
      exact custody_erase H hjob
    obtain ⟨freed, hfold, hfreed⟩ := ih (by rw [hnext]) hrest hthere' hcustody
    have hboth : next.work.filter (·.work ∉ works) =
        s.work.filter (·.work ∉ job.work :: works) := by
      rw [hleft, List.filter_filter]
      refine List.filter_congr fun other _ => ?_
      rw [Bool.eq_iff_iff]
      simp [and_comm]
    rw [hboth] at hfold hfreed
    subst hnext
    refine ⟨freed, ?_, hfreed⟩
    rw [List.foldlM_cons, hdrop]
    exact hfold

/-! ## What a call relies on -/

/-- The books are right, the packet has its size, the ids are distinct, and those of the works that
wait were given last. -/
structure Good (c : MinergateConfig) (s : Minergate) : Prop extends Books s where
  buffer : s.reqBuffer.length = 8 + 0x34 * c.nReq
  ids : (s.work.map (·.deviceId)).Nodup
  nodup : s.written.Nodup
  ready_le : s.readyToQueue ≤ c.nReqQueue
  numbered : ∀ k work, s.written[k]? = some work → ∀ job ∈ s.work, job.work = work →
    job.deviceId + UInt32.ofNat (s.readyToQueue - k) = s.nextJobid

theorem Good.withFull (H : s.Good c) (full : Bool) : Good c { s with queueFull := full } :=
  ⟨⟨H.custody, H.list, H.ready, H.packet⟩, H.buffer, H.ids, H.nodup, H.ready_le, H.numbered⟩

theorem Good.length_written (H : s.Good c) : s.written.length = s.readyToQueue := by
  rw [H.ready, H.list, List.length_reverse]

theorem Good.lt_ready (H : s.Good c) {k work : ℕ} (hk : s.written[k]? = some work) :
    k < s.readyToQueue := by
  obtain ⟨hlt, -⟩ := List.getElem?_eq_some_iff.mp hk
  exact hlt.trans_eq H.length_written

/-- A work that waits is in the table. -/
theorem Good.mem_work (H : s.Good c) {work : ℕ} (hwork : work ∈ s.written) :
    work ∈ s.work.map (·.work) := by
  obtain ⟨k, hk⟩ := List.mem_iff_getElem?.mp hwork
  obtain ⟨job, hjob, rfl, -⟩ := H.packet k work hk
  exact List.mem_map_of_mem hjob

/-- The next id is none of those of the works that wait. -/
theorem Good.deviceId_ne (hc : c.Sound) (H : s.Good c) {job : MinergateJob} (hjob : job ∈ s.work)
    (hwaits : job.work ∈ s.written) : job.deviceId ≠ s.nextJobid := by
  obtain ⟨k, hk⟩ := List.mem_iff_getElem?.mp hwaits
  have hlt := H.lt_ready hk
  have hle := H.ready_le
  have hqueue := hc.nReqQueue_lt
  have hnext := H.numbered k _ hk job hjob rfl
  intro heq
  rw [heq] at hnext
  have hzero : UInt32.ofNat (s.readyToQueue - k) = 0 := by simpa using hnext
  rw [← UInt32.toNat_inj, UInt32.toNat_ofNat', UInt32.toNat_zero] at hzero
  omega

/-! ## A work is appended -/

/-- There is room for an item behind so many others. -/
theorem isSome_memcpyAll_item_iff {n k : ℕ} {buf : List UInt8} (hbuf : buf.length = 8 + 0x34 * n)
    (w : MinergateWork) (id : UInt32) (ntimeroll : UInt8) :
    (memcpyAll (8 + 0x34 * k) buf (w.item id ntimeroll)).isSome = true ↔ k < n := by
  rw [isSome_memcpyAll_iff, hbuf]
  simp only [MinergateWork.item, List.forall_mem_cons, List.length_cons, List.length_nil,
    List.length_take, List.length_drop, Vector.length_toList, be32]
  constructor
  · rintro ⟨-, -, -, -, -, -, -, -, hlast, -⟩
    omega
  · intro hlt
    refine ⟨by omega, by omega, by omega, by omega, by omega, by omega, by omega, by omega,
      by omega, by simp⟩

/-- The item begins with the id. -/
theorem jobid_memcpyAll_item {off : ℕ} {buf out : List UInt8} {w : MinergateWork} {id : UInt32}
    {ntimeroll : UInt8} (H : memcpyAll off buf (w.item id ntimeroll) = some out) :
    jobid out off = some id := by
  rw [MinergateWork.item, memcpyAll_cons] at H
  obtain ⟨buf₁, -, H⟩ := Option.bind_eq_some_iff.mp H
  rw [memcpyAll_cons] at H
  obtain ⟨buf₂, hid, H⟩ := Option.bind_eq_some_iff.mp H
  have hsame : readAt out off 4 = readAt buf₂ off 4 := by
    refine readAt_memcpyAll_of_disjoint H ?_
    simp
  have hread : readAt buf₂ off 4 = some (be32 id) := readAt_memcpy hid
  rw [jobid, hsame, hread, Option.map_some, ofBe32_be32]

/-- What comes in front of an item stays. -/
theorem jobid_memcpyAll_of_lt {k n : ℕ} {buf out : List UInt8} {w : MinergateWork} {id : UInt32}
    {ntimeroll : UInt8} (H : memcpyAll (8 + 0x34 * n) buf (w.item id ntimeroll) = some out)
    (hk : k < n) : jobid out (8 + 0x34 * k) = jobid buf (8 + 0x34 * k) := by
  rw [jobid, jobid, readAt_memcpyAll_of_disjoint H fun part _ => ?_]
  omega

/-- **A work that is enqueued** takes the place of one with its id, and comes last. -/
theorem Good.enqueue (hc : c.Sound) (H : s.Good c) (hqueue : s.readyToQueue < c.nReqQueue)
    {w : MinergateWork} {ntimeroll : UInt8} {reqBuffer : List UInt8}
    (hitem : memcpyAll (8 + 0x34 * s.readyToQueue) s.reqBuffer (w.item s.nextJobid ntimeroll) =
      some reqBuffer) :
    (s.enqueue w reqBuffer).Good c ∧ ∀ work, work ∈ (s.enqueue w reqBuffer).work.map (·.work) ↔
      (∃ job ∈ s.work, job.work = work ∧ job.deviceId ≠ s.nextJobid) ∨ work = s.appended := by
  obtain ⟨freed, hdrop, hfreed⟩ := exists_dropOld H.ids H.custody s.nextJobid
  obtain ⟨left, hleft⟩ : ∃ left, left = s.work.filter (·.deviceId ≠ s.nextJobid) := ⟨_, rfl⟩
  rw [← hleft] at hdrop hfreed
  obtain ⟨job, hjob⟩ : ∃ job : MinergateJob, job = ⟨s.appended, s.nextJobid, w.zerobits, false⟩ :=
    ⟨_, rfl⟩
  have hmem : ∀ other, other ∈ left ↔ other ∈ s.work ∧ other.deviceId ≠ s.nextJobid := by
    intro other
    rw [hleft, List.mem_filter, decide_eq_true_iff]
  have hnew : s.enqueue w reqBuffer = { s with
      nextJobid := s.nextJobid + 1
      readyToQueue := s.readyToQueue + 1
      reqBuffer
      work := left ++ [job]
      freed
      workList := s.appended :: s.workList
      appended := s.appended + 1
      written := s.written ++ [s.appended] } := by
    rw [Minergate.enqueue, hdrop, hjob]
  have hlen := H.length_written
  have hbelow : ∀ other ∈ s.work, other.work < s.appended :=
    fun other hother => H.custody.lt (List.mem_map_of_mem hother)
  have hwaits : ∀ other ∈ s.work, other.work ∈ s.written → other ∈ left :=
    fun other hother hwritten => (hmem other).mpr ⟨hother, H.deviceId_ne hc hother hwritten⟩
  rw [hnew]
  refine ⟨?_, fun work => ?_⟩
  · constructor
    case toBooks =>
      constructor
      case custody =>
        refine hfreed.obtain ?_
        rw [List.map_append, List.map_singleton, hjob]
        exact List.perm_append_singleton _ _
      case list => rw [List.reverse_append, H.list]; rfl
      case ready => rw [List.length_cons, H.ready]
      case packet =>
        intro k work hk
        rcases Nat.lt_or_ge k s.written.length with hlt | hge
        · rw [List.getElem?_append_left hlt] at hk
          obtain ⟨other, hother, rfl, hid⟩ := H.packet k work hk
          have hstays := hwaits other hother (List.mem_of_getElem? hk)
          refine ⟨other, List.mem_append_left _ hstays, rfl, ?_⟩
          rw [jobid_memcpyAll_of_lt hitem (H.lt_ready hk), hid]
        · rw [List.getElem?_append_right hge, List.getElem?_singleton] at hk
          split at hk
          · next hlast =>
            obtain rfl := Option.some.inj hk
            have hk : k = s.readyToQueue := by omega
            refine ⟨job, List.mem_append_right _ List.mem_cons_self, by rw [hjob], ?_⟩
            rw [hk, jobid_memcpyAll_item hitem, hjob]
          · cases hk
    case buffer => rw [length_memcpyAll hitem, H.buffer]
    case ids =>
      rw [List.map_append, List.map_singleton]
      refine List.nodup_append.mpr ⟨?_, List.nodup_singleton _, ?_⟩
      · rw [hleft]
        exact Keyed.nodup_filter H.ids _
      · intro id hid id' hid' heq
        obtain ⟨other, hother, rfl⟩ := List.mem_map.mp hid
        rw [List.mem_singleton, hjob] at hid'
        exact ((hmem other).mp hother).2 (heq.trans hid')
    case nodup =>
      refine List.nodup_append.mpr ⟨H.nodup, List.nodup_singleton _, ?_⟩
      intro work hwork last hlast heq
      obtain ⟨other, hother, rfl⟩ := List.mem_map.mp (H.mem_work hwork)
      rw [List.mem_singleton.mp hlast] at heq
      exact (hbelow other hother).ne heq
    case ready_le => exact hqueue
    case numbered =>
      intro k work hk other hother hname
      rcases Nat.lt_or_ge k s.written.length with hlt | hge
      · rw [List.getElem?_append_left hlt] at hk
        rcases List.mem_append.mp hother with hold | hlast
        · have hnext := H.numbered k work hk other ((hmem other).mp hold).1 hname
          have hsucc : s.readyToQueue + 1 - k = s.readyToQueue - k + 1 := by omega
          show other.deviceId + UInt32.ofNat (s.readyToQueue + 1 - k) = s.nextJobid + 1
          rw [hsucc, UInt32.ofNat_add, ← UInt32.add_assoc, hnext]
          rfl
        · rw [List.mem_singleton.mp hlast, hjob] at hname
          obtain ⟨old, hold, hold', -⟩ := H.packet k work hk
          have hlt := hbelow old hold
          simp only at hname
          omega
      · rw [List.getElem?_append_right hge, List.getElem?_singleton] at hk
        split at hk
        · next hlast =>
          obtain rfl := Option.some.inj hk
          have hk : s.readyToQueue + 1 - k = 1 := by omega
          show other.deviceId + UInt32.ofNat (s.readyToQueue + 1 - k) = s.nextJobid + 1
          rw [hk]
          rcases List.mem_append.mp hother with hold | hnew
          · exact absurd hname (hbelow other ((hmem other).mp hold).1).ne
          · rw [List.mem_singleton.mp hnew, hjob]
            rfl
        · cases hk
  · rw [List.map_append, List.mem_append, List.map_singleton, List.mem_singleton, hjob]
    refine or_congr ?_ Iff.rfl
    rw [List.mem_map]
    constructor
    · rintro ⟨other, hother, rfl⟩
      exact ⟨other, ((hmem other).mp hother).1, rfl, ((hmem other).mp hother).2⟩
    · rintro ⟨other, hother, rfl, hid⟩
      exact ⟨other, (hmem other).mpr ⟨hother, hid⟩, rfl⟩

/-! ## Responses -/

section
variable {t : MinergateTable} {x : Exchange} {i : ℕ}

/-- A table with the works that are in another, and the works that were freed there. -/
def SameWorks (t t' : MinergateTable) : Prop := t'.work = t.work ∧ t'.freed = t.freed

theorem sameWorks_submit (t : MinergateTable) (work : Option MinergateJob) (nonce : UInt32)
    (ntimeOffset : UInt8) : SameWorks t (Minergate.submit c t work nonce ntimeOffset).2 := by
  cases work <;>
    · rw [Minergate.submit]
      split <;> exact ⟨rfl, rfl⟩

theorem exists_upkU32le {buf : List UInt8} {off : ℕ} (H : off + 4 ≤ buf.length) :
    ∃ nonce, upkU32le buf off = some nonce := by
  obtain ⟨bs, hbs⟩ := exists_readAt H
  exact ⟨_, by rw [upkU32le, hbs]; rfl⟩

/-- The nonces of a response that is inside of the packet are read. -/
theorem exists_submitNonces {buf : List UInt8} {jobrsp : ℕ} (hc : c.Sound)
    (hin : jobrsp + c.pktRspItemSz ≤ buf.length) (t : MinergateTable)
    (work : Option MinergateJob) :
    ∃ t', submitNonces c buf jobrsp t work = some t' ∧ SameWorks t t' := by
  have hsize : 0x10 ≤ c.pktRspItemSz ∧ (c.protover = .sp10 → c.pktRspItemSz = 0x14) := by
    rw [hc.pktRspItemSz]
    cases c.protover <;> decide
  obtain ⟨off, hoff⟩ : ∃ off : ℕ, off = if c.protover = .sp10 then 0x10 else 0xc := ⟨_, rfl⟩
  have hlt : jobrsp + off < buf.length := by
    rw [hoff]
    split
    · next hver =>
      have := hsize.2 hver
      omega
    · omega
  obtain ⟨nonce, hnonce⟩ := @exists_upkU32le buf (jobrsp + 8) (by omega)
  obtain ⟨nonce', hnonce'⟩ := @exists_upkU32le buf (jobrsp + 0xc) (by omega)
  rw [submitNonces, hnonce, Option.bind_eq_bind, Option.bind_some]
  dsimp only
  rw [← hoff, List.getElem?_eq_getElem hlt, Option.bind_eq_bind, Option.bind_some, hnonce',
    Option.map_some]
  obtain ⟨first, hfirst⟩ : ∃ first, first =
    Minergate.submit c t work nonce buf[jobrsp + off] := ⟨_, rfl⟩
  have hsame : SameWorks t first.2 := hfirst ▸ sameWorks_submit t work _ _
  rw [← hfirst]
  split
  · split
    · have hagain := sameWorks_submit (c := c) first.2 work nonce' buf[jobrsp + off]
      exact ⟨_, rfl, hagain.1.trans hsame.1, hagain.2.trans hsame.2⟩
    · exact ⟨_, rfl, hsame⟩
  · split
    · exact ⟨_, rfl, hsame⟩
    · exact ⟨_, rfl, hsame⟩

/-- A response is outside of the packet. -/
theorem response_of_length_le (hout : x.buf.length ≤ 8 + c.pktRspItemSz * i) :
    response c x.buf t i = none := by
  rw [response]
  dsimp only
  rw [jobid, readAt_eq_none (by omega)]
  rfl

theorem foldlM_response_eq_none {is : List ℕ} (hi : i ∈ is)
    (hout : x.buf.length ≤ 8 + c.pktRspItemSz * i) :
    is.foldlM (response c x.buf) t = none := by
  induction is generalizing t with
  | nil => cases hi
  | cons j is ih =>
    rw [List.foldlM_cons]
    rcases List.mem_cons.mp hi with rfl | hi
    · rw [response_of_length_le hout]
      rfl
    · cases response c x.buf t j with
      | none => rfl
      | some t' => exact ih hi

/-- **A response** that is inside of the packet: where it completes nothing, where it completes a
job of the table, and where it is for another job. -/
theorem response_spec (hc : c.Sound) (hin : 8 + c.pktRspItemSz * (i + 1) ≤ x.buf.length)
    (t : MinergateTable) :
    ∃ id, jobid x.buf (8 + c.pktRspItemSz * i) = some id ∧
      (x.completes c i = false → ∃ t', response c x.buf t i = some t' ∧ SameWorks t t') ∧
      (x.completes c i = true →
        (∀ job, t.work.find? (·.deviceId = id) = some job → ∃ t', response c x.buf t i = some t' ∧
          t'.work = t.work.erase job ∧ t'.freed = job.work :: t.freed) ∧
        (t.work.find? (·.deviceId = id) = none → if c.protover = .sp30
          then response c x.buf t i = none
          else ∃ t', response c x.buf t i = some t' ∧ SameWorks t t')) := by
  have hsize : 0x10 ≤ c.pktRspItemSz := by
    rw [hc.pktRspItemSz]
    cases c.protover <;> decide
  rw [Nat.mul_add, Nat.mul_one] at hin
  obtain ⟨bs, hbs⟩ := @exists_readAt x.buf (8 + c.pktRspItemSz * i) 4 (by omega)
  have hid : jobid x.buf (8 + c.pktRspItemSz * i) = some (ofBe32 bs) := by rw [jobid, hbs]; rfl
  refine ⟨ofBe32 bs, hid, ?_⟩
  obtain ⟨work, hwork⟩ : ∃ work, work = t.work.find? (·.deviceId = ofBe32 bs) := ⟨_, rfl⟩
  obtain ⟨t₁, ht₁, hsame, hsame'⟩ := exists_submitNonces hc (show 8 + c.pktRspItemSz * i +
    c.pktRspItemSz ≤ x.buf.length by omega) t work
  obtain ⟨completed, hcompleted⟩ : ∃ completed,
      workCompleted c x.buf (8 + c.pktRspItemSz * i) work = some completed := by
    rw [workCompleted]
    split
    · exact ⟨_, rfl⟩
    · rw [List.getElem?_eq_getElem (show 8 + c.pktRspItemSz * i + 0xe < x.buf.length by omega)]
      exact ⟨_, rfl⟩
  have hbody : response c x.buf t i = if completed then do
      let job ← work
      some { t₁ with
        work := t₁.work.erase job
        freed := job.work :: t₁.freed
        hashes := if c.desiredRoll = 0 ∧ job.flushed = false then
          t₁.hashes + 2 ^ job.zerobits.toNat else t₁.hashes }
      else some t₁ := by
    rw [response]
    dsimp only
    rw [hid, Option.bind_eq_bind, Option.bind_some, ← hwork, ht₁, Option.bind_eq_bind,
      Option.bind_some, hcompleted]
    rfl
  have hfound : ∀ job, work = some job → completed = true → ∃ t', response c x.buf t i = some t' ∧
      t'.work = t.work.erase job ∧ t'.freed = job.work :: t.freed := by
    intro job hjob htrue
    rw [hbody, if_pos htrue, hjob]
    exact ⟨_, rfl, by rw [hsame], by rw [hsame']⟩
  have hkept : completed = false → ∃ t', response c x.buf t i = some t' ∧ SameWorks t t' := by
    intro hfalse
    rw [hbody, if_neg (by simp [hfalse])]
    exact ⟨t₁, rfl, hsame, hsame'⟩
  rw [← hwork]
  rw [workCompleted] at hcompleted
  cases hver : c.protover with
  | sp10 =>
    have htrue : x.completes c i = true := by rw [Exchange.completes, hver]
    simp only [hver, Option.some.injEq] at hcompleted
    refine ⟨fun hfalse => absurd (htrue.symm.trans hfalse) (by decide), fun _ => ⟨?_, ?_⟩⟩
    · intro job hjob
      exact hfound job hjob (by rw [← hcompleted, hjob]; rfl)
    · intro hnone
      exact hkept (by rw [← hcompleted, hnone]; rfl)
  | sp30 =>
    have hflag : x.completes c i = completed := by
      simp only [hver, Option.map_eq_some_iff] at hcompleted
      obtain ⟨b, hb, hflag⟩ := hcompleted
      rw [Exchange.completes, hver]
      dsimp only
      rw [hb]
      exact hflag
    rw [hflag]
    refine ⟨hkept, fun htrue => ⟨fun job hjob => hfound job hjob htrue, fun hnone => ?_⟩⟩
    rw [if_pos rfl, hbody, if_pos htrue, hnone]
    rfl

/-- The responses of a packet succeed exactly if an SP30 completes jobs of the table, each once;
and they take those that they complete out of it. -/
theorem foldlM_response (hc : c.Sound) {is : List ℕ}
    (hin : ∀ i ∈ is, 8 + c.pktRspItemSz * (i + 1) ≤ x.buf.length)
    (hids : (t.work.map (·.deviceId)).Nodup) {n : ℕ}
    (H : Custody n (t.work.map (·.work)) t.freed) :
    ((is.foldlM (response c x.buf) t).isSome = true ↔ (c.protover = .sp30 →
      (is.filterMap (x.completedId c)).Nodup ∧
        ∀ id ∈ is.filterMap (x.completedId c), id ∈ t.work.map (·.deviceId))) ∧
    ∀ t', is.foldlM (response c x.buf) t = some t' →
      t'.work = t.work.filter (·.deviceId ∉ is.filterMap (x.completedId c)) ∧
        Custody n (t'.work.map (·.work)) t'.freed := by
  induction is generalizing t with
  | nil =>
    refine ⟨by simp, fun t' ht' => ?_⟩
    obtain rfl := Option.some.inj ht'
    exact ⟨by simp, H⟩
  | cons i is ih =>
    rw [List.forall_mem_cons] at hin
    obtain ⟨id, hid, hnot, hcompletes⟩ := response_spec hc hin.1 t
    rw [List.foldlM_cons, List.filterMap_cons, Exchange.completedId, hid]
    have hkept : ∀ t₁, SameWorks t t₁ → (t₁.work.map (·.deviceId)).Nodup ∧
        Custody n (t₁.work.map (·.work)) t₁.freed := by
      intro t₁ ⟨hwork, hfreed⟩
      rw [hwork, hfreed]
      exact ⟨hids, H⟩
    cases hflag : x.completes c i with
    | false =>
      obtain ⟨t₁, ht₁, hsame⟩ := hnot hflag
      obtain ⟨hids₁, hcustody₁⟩ := hkept t₁ hsame
      obtain ⟨hiff, hleft⟩ := ih hin.2 hids₁ hcustody₁
      rw [ht₁, Option.bind_eq_bind, Option.bind_some]
      rw [hsame.1] at hiff hleft
      exact ⟨hiff, hleft⟩
    | true =>
      obtain ⟨hfound, hunknown⟩ := hcompletes hflag
      obtain ⟨others, hothers⟩ : ∃ others, others = is.filterMap (x.completedId c) := ⟨_, rfl⟩
      rw [← hothers] at ih ⊢
      rw [if_pos rfl]
      cases hfind : t.work.find? (·.deviceId = id) with
      | some job =>
        obtain ⟨hjob, rfl⟩ := (Keyed.find?_eq_some hids).mp hfind
        obtain ⟨t₁, ht₁, hwork, hfreed⟩ := hfound job hfind
        have hleft : t₁.work = t.work.filter (·.deviceId ≠ job.deviceId) := by
          rw [hwork, Keyed.erase_eq_filter hids hjob]
        have hids₁ : (t₁.work.map (·.deviceId)).Nodup := hleft ▸ Keyed.nodup_filter hids _
        have hcustody₁ : Custody n (t₁.work.map (·.work)) t₁.freed := by
          rw [hwork, hfreed]
          exact custody_erase H hjob
        have hmem : ∀ id, id ∈ t₁.work.map (·.deviceId) ↔
            id ∈ t.work.map (·.deviceId) ∧ id ≠ job.deviceId := by
          intro id
          rw [hleft, List.mem_map, List.mem_map]
          constructor
          · rintro ⟨other, hother, rfl⟩
            obtain ⟨hother, hne⟩ := List.mem_filter.mp hother
            exact ⟨⟨other, hother, rfl⟩, of_decide_eq_true hne⟩
          · rintro ⟨⟨other, hother, rfl⟩, hne⟩
            exact ⟨other, List.mem_filter.mpr ⟨hother, decide_eq_true hne⟩, rfl⟩
        obtain ⟨hiff, hrest⟩ := ih hin.2 hids₁ hcustody₁
        rw [ht₁, Option.bind_eq_bind, Option.bind_some, hiff]
        constructor
        · refine imp_congr_right fun _ => ?_
          rw [List.nodup_cons, List.forall_mem_cons, and_iff_right (List.mem_map_of_mem hjob)]
          constructor
          · rintro ⟨hnodup, hall⟩
            exact ⟨⟨fun hagain => ((hmem _).mp (hall _ hagain)).2 rfl, hnodup⟩,
              fun id hmore => ((hmem id).mp (hall id hmore)).1⟩
          · rintro ⟨⟨honce, hnodup⟩, hall⟩
            exact ⟨hnodup, fun id hmore =>
              (hmem id).mpr ⟨hall id hmore, ne_of_mem_of_not_mem hmore honce⟩⟩
        · intro t' ht'
          obtain ⟨hwork', hcustody'⟩ := hrest t' ht'
          refine ⟨?_, hcustody'⟩
          rw [hwork', hleft, List.filter_filter]
          refine List.filter_congr fun other _ => ?_
          rw [Bool.eq_iff_iff]
          simp [and_comm]
      | none =>
        have habsent : id ∉ t.work.map (·.deviceId) := Keyed.find?_eq_none.mp hfind
        have hnone := hunknown hfind
        split at hnone
        · next hver =>
          rw [hnone]
          refine ⟨iff_of_false Bool.false_ne_true fun hall => ?_, fun t' ht' => by cases ht'⟩
          exact habsent ((hall hver).2 id List.mem_cons_self)
        · next hver =>
          obtain ⟨t₁, ht₁, hsame⟩ := hnone
          obtain ⟨hids₁, hcustody₁⟩ := hkept t₁ hsame
          obtain ⟨hiff, hrest⟩ := ih hin.2 hids₁ hcustody₁
          rw [ht₁, Option.bind_eq_bind, Option.bind_some, hiff]
          refine ⟨iff_of_true (fun h => absurd h hver) fun h => absurd h hver, fun t' ht' => ?_⟩
          obtain ⟨hwork', hcustody'⟩ := hrest t' ht'
          refine ⟨?_, hcustody'⟩
          rw [hwork', hsame.1]
          refine List.filter_congr fun other hother => ?_
          have hne : other.deviceId ≠ id :=
            fun heq => habsent (heq ▸ List.mem_map_of_mem hother)
          simp [hne]

end

/-! ## One call -/

/-- A call that puts nothing into the table and takes nothing out of it. -/
theorem moves_of_eq {call : MinergateCall} {s' : Minergate}
    (hwork : s'.work.map (·.work) = s.work.map (·.work))
    (hleaves : ∀ job ∈ s.work, ¬ s.Leaves c job call) (henters : ¬ s.Enters c call) :
    s.Moves c call s' := by
  intro work
  rw [hwork, List.mem_map, or_iff_left fun h => henters h.1]
  constructor
  · rintro ⟨job, hjob, rfl⟩
    exact ⟨job, hjob, rfl, hleaves job hjob⟩
  · rintro ⟨job, hjob, rfl, -⟩
    exact ⟨job, hjob, rfl⟩

/-- A state in which no work waits. -/
theorem good_of_nothing_waits (hwaits : s.workList = [] ∧ s.written = [] ∧ s.readyToQueue = 0)
    (hcustody : Custody s.appended (s.work.map (·.work)) s.freed)
    (hbuffer : s.reqBuffer.length = 8 + 0x34 * c.nReq)
    (hids : (s.work.map (·.deviceId)).Nodup) : s.Good c := by
  obtain ⟨hlist, hwritten, hready⟩ := hwaits
  constructor
  case toBooks =>
    refine ⟨hcustody, by rw [hlist, hwritten]; rfl, by rw [hlist, hready]; rfl, ?_⟩
    rw [hwritten]
    intro k work hk
    cases hk
  case buffer => exact hbuffer
  case ids => exact hids
  case nodup => exact hwritten ▸ List.nodup_nil
  case ready_le => exact hready ▸ Nat.zero_le _
  case numbered =>
    rw [hwritten]
    intro k work hk
    cases hk

theorem Good.four_le (H : s.Good c) : 4 ≤ s.reqBuffer.length := by
  rw [H.buffer]
  omega

/-- A work that is appended where there is room for its item. -/
theorem Good.exists_queueAppend (hc : c.Sound) (H : s.Good c) (w : MinergateWork)
    (hsane : s.Accepts c → s.readyToQueue < c.nReq) : ∃ s', s.queueAppend c w = some s' ∧
      s'.Good c ∧ s.Moves c (.queueAppend w) s' := by
  obtain ⟨full, hfull, hqueue⟩ := exists_checkFull (c := c) H.four_le
  rw [queueAppend, hfull, Option.bind_eq_bind, Option.bind_some]
  dsimp only
  cases full with
  | true =>
    have hrefuses : ¬ s.Accepts c := by
      rintro ⟨t, ht, hfree⟩
      rw [hfull] at ht
      obtain rfl := Option.some.inj ht
      cases hfree
    rw [if_pos rfl]
    exact ⟨_, rfl, H.withFull true,
      moves_of_eq rfl (fun _ _ h => hrefuses h.1) hrefuses⟩
  | false =>
    have haccepts : s.Accepts c := ⟨_, hfull, rfl⟩
    have hroom := hsane haccepts
    rw [if_neg Bool.false_ne_true]
    obtain ⟨ntimeroll, hroll⟩ : ∃ ntimeroll, ntimeroll = if c.desiredRoll ≠ 0 then
      UInt8.ofInt (min 0xff (max c.minimumRoll w.ntimeRange)) else 0 := ⟨_, rfl⟩
    obtain ⟨reqBuffer, hitem⟩ := Option.isSome_iff_exists.mp
      ((isSome_memcpyAll_item_iff H.buffer w s.nextJobid ntimeroll).mpr hroom)
    obtain ⟨hgood, hmem⟩ := (H.withFull false).enqueue hc (hqueue rfl) hitem
    obtain ⟨full, hnext, -⟩ := exists_checkFull (c := c) hgood.four_le
    rw [← hroll, hitem, Option.bind_eq_bind, Option.bind_some, hnext]
    refine ⟨_, rfl, hgood.withFull full, fun work => (hmem work).trans ?_⟩
    refine or_congr ?_ (and_iff_right haccepts).symm
    refine exists_congr fun job => and_congr_right fun _ => and_congr_right fun _ => ?_
    exact not_congr (and_iff_right haccepts).symm

/-- There is no room for its item. -/
theorem Good.queueAppend_eq_none (H : s.Good c) (w : MinergateWork) (haccepts : s.Accepts c)
    (hfull : c.nReq ≤ s.readyToQueue) : s.queueAppend c w = none := by
  obtain ⟨t, ht, hfree⟩ := haccepts
  obtain ⟨full, hcheck, -⟩ := exists_checkFull (c := c) H.four_le
  obtain rfl := Option.some.inj (ht.symm.trans hcheck)
  rw [queueAppend, ht, Option.bind_eq_bind, Option.bind_some, if_neg (by simpa using hfree)]
  dsimp only
  obtain ⟨ntimeroll, hroll⟩ : ∃ ntimeroll, ntimeroll = if c.desiredRoll ≠ 0 then
    UInt8.ofInt (min 0xff (max c.minimumRoll w.ntimeRange)) else 0 := ⟨_, rfl⟩
  rw [← hroll]
  have hroom := isSome_memcpyAll_item_iff (k := s.readyToQueue) H.buffer w s.nextJobid ntimeroll
  cases hitem : memcpyAll (8 + 0x34 * s.readyToQueue) s.reqBuffer
      (w.item s.nextJobid ntimeroll) with
  | none => rfl
  | some out =>
    rw [hitem] at hroom
    exact absurd (hroom.mp rfl) (by omega)

/-- A flush finds the works that wait. -/
theorem Good.exists_queueFlush (H : s.Good c) : ∃ s', s.queueFlush = some s' ∧ s'.Good c ∧
    s.Moves c .queueFlush s' := by
  have hmem : ∀ work, work ∈ s.workList ↔ work ∈ s.written := by
    intro work
    rw [H.list, List.mem_reverse]
  have hnodup : s.workList.Nodup := by
    rw [H.list]
    exact List.nodup_reverse.mpr H.nodup
  obtain ⟨freed, hfold, hcustody⟩ := exists_foldlM_dropListed rfl hnodup
    (fun work hwork => H.mem_work ((hmem work).mp hwork)) H.custody
  have hfour := H.four_le
  obtain ⟨reqBuffer, hcopy⟩ := @exists_memcpy s.reqBuffer [s.reqBuffer[3] ||| 2] 3 hfour
  rw [queueFlush, hfold, Option.bind_eq_bind, Option.bind_some]
  dsimp only
  rw [List.getElem?_eq_getElem (show 3 < s.reqBuffer.length by omega), Option.bind_eq_bind,
    Option.bind_some, hcopy]
  refine ⟨_, rfl, ?_, fun work => ?_⟩
  · refine good_of_nothing_waits ⟨rfl, rfl, rfl⟩ hcustody ?_ (Keyed.nodup_filter H.ids _)
    rw [length_memcpy hcopy, H.buffer]
  · show work ∈ (s.work.filter (·.work ∉ s.workList)).map (·.work) ↔ _
    rw [List.mem_map, or_iff_left fun h : s.Enters c .queueFlush ∧ _ => h.1]
    constructor
    · rintro ⟨job, hjob, rfl⟩
      obtain ⟨hjob, hstays⟩ := List.mem_filter.mp hjob
      have hnot : job.work ∉ s.workList := of_decide_eq_true hstays
      exact ⟨job, hjob, rfl, hnot⟩
    · rintro ⟨job, hjob, rfl, hstays⟩
      have hnot : job.work ∉ s.workList := hstays
      exact ⟨job, List.mem_filter.mpr ⟨hjob, decide_eq_true hnot⟩, rfl⟩

/-- The packet is written to outside of its items. -/
theorem Good.withBuffer (H : s.Good c) {reqBuffer : List UInt8}
    (hlen : reqBuffer.length = s.reqBuffer.length)
    (hitems : ∀ off, 8 ≤ off → jobid reqBuffer off = jobid s.reqBuffer off) :
    Good c { s with reqBuffer } := by
  refine ⟨⟨H.custody, H.list, H.ready, fun k work hk => ?_⟩, hlen.trans H.buffer, H.ids, H.nodup,
    H.ready_le, H.numbered⟩
  obtain ⟨job, hjob, hname, hid⟩ := H.packet k work hk
  exact ⟨job, hjob, hname, by rw [← hid]; exact hitems _ (Nat.le_add_right _ _)⟩

theorem jobid_memcpy {buf bs out : List UInt8} {off : ℕ} (H : memcpy buf off bs = some out)
    (hheader : off + bs.length ≤ 8) (k : ℕ) (hk : 8 ≤ k) : jobid out k = jobid buf k := by
  rw [jobid, jobid, readAt_memcpy_of_disjoint H (.inr (hheader.trans hk))]

/-- **The responses are handled** exactly if those that are counted are inside of the packet and an
SP30 completes jobs of the table, each once. -/
theorem handle_spec (hc : c.Sound) {x : Exchange} (hbuffer : s.reqBuffer.length = 8 + 0x34 * c.nReq)
    (hwaits : s.workList = [] ∧ s.written = [] ∧ s.readyToQueue = 0)
    (hcustody : Custody s.appended (s.work.map (·.work)) s.freed)
    (hids : (s.work.map (·.deviceId)).Nodup) (hsize : (x.buf.length : ℤ) = c.pktRspSz)
    (flags : UInt8) :
    ((s.handle c x.buf flags).isSome = true ↔ x.rspCount ≤ c.nRsp ∧ (c.protover = .sp30 →
      (x.completed c).Nodup ∧ ∀ id ∈ x.completed c, id ∈ s.work.map (·.deviceId))) ∧
    ∀ s', s.handle c x.buf flags = some s' → s'.Good c ∧ ∀ work,
      work ∈ s'.work.map (·.work) ↔
        ∃ job ∈ s.work, job.work = work ∧ job.deviceId ∉ x.completed c := by
  have hlen : x.buf.length = 8 + c.pktRspItemSz * c.nRsp := by
    rw [hc.pktRspSz] at hsize
    exact_mod_cast hsize
  obtain ⟨bs, hbs⟩ := @exists_readAt x.buf 6 2 (by omega)
  have hcount : x.rspCount = leNat bs := by rw [Exchange.rspCount, hbs]; rfl
  rw [handle, hbs, Option.map_some, Option.bind_eq_bind, Option.bind_some, ← hcount]
  rcases Nat.lt_or_ge c.nRsp x.rspCount with hmany | hfew
  · rw [foldlM_response_eq_none (List.mem_range.mpr hmany) hlen.le]
    refine ⟨iff_of_false Bool.false_ne_true fun h => by omega, fun s' hs' => by cases hs'⟩
  · have hin : ∀ i ∈ List.range x.rspCount, 8 + c.pktRspItemSz * (i + 1) ≤ x.buf.length := by
      intro i hi
      have hle : c.pktRspItemSz * (i + 1) ≤ c.pktRspItemSz * c.nRsp :=
        Nat.mul_le_mul_left _ ((List.mem_range.mp hi).trans_le hfew)
      omega
    obtain ⟨hiff, hrest⟩ := foldlM_response (t := s.toMinergateTable) hc hin hids hcustody
    rw [and_iff_right hfew]
    cases hfold : (List.range x.rspCount).foldlM (response c x.buf) s.toMinergateTable with
    | none =>
      rw [hfold] at hiff
      exact ⟨hiff, fun s' hs' => by cases hs'⟩
    | some t =>
      rw [hfold] at hiff
      obtain ⟨hwork, hfreed⟩ := hrest t hfold
      rw [Option.bind_eq_bind, Option.bind_some]
      obtain ⟨work', hwork'⟩ : ∃ work' : List MinergateJob, work' = if flags &&& 2 ≠ 0 then
        t.work.map fun job => { job with flushed := true } else t.work := ⟨_, rfl⟩
      -- the mark changes neither names nor ids
      have hnames : work'.map (·.work) = t.work.map (·.work) := by
        rw [hwork']
        split
        · rw [List.map_map]
          rfl
        · rfl
      have hids' : work'.map (·.deviceId) = t.work.map (·.deviceId) := by
        rw [hwork']
        split
        · rw [List.map_map]
          rfl
        · rfl
      obtain ⟨next, hnext⟩ : ∃ next : Minergate,
        next = { s with toMinergateTable := { t with work := work' } } := ⟨_, rfl⟩
      have hgood : next.Good c := by
        rw [hnext]
        refine good_of_nothing_waits hwaits ?_ hbuffer ?_
        · show Custody s.appended (work'.map (·.work)) t.freed
          rw [hnames]
          exact hfreed
        · show (work'.map (·.deviceId)).Nodup
          rw [hids', hwork]
          exact Keyed.nodup_filter hids _
      obtain ⟨full, hfull, -⟩ := exists_checkFull (c := c) hgood.four_le
      rw [← hwork']
      rw [hnext] at hfull
      dsimp only at hfull ⊢
      rw [hfull]
      refine ⟨hiff, fun s' hs' => ?_⟩
      obtain rfl := Option.some.inj hs'
      rw [hnext] at hgood
      refine ⟨hgood.withFull full, fun work => ?_⟩
      show work ∈ work'.map (·.work) ↔ _
      rw [hnames, hwork, List.mem_map]
      constructor
      · rintro ⟨job, hjob, rfl⟩
        obtain ⟨hjob, hstays⟩ := List.mem_filter.mp hjob
        exact ⟨job, hjob, rfl, of_decide_eq_true hstays⟩
      · rintro ⟨job, hjob, rfl, hstays⟩
        exact ⟨job, List.mem_filter.mpr ⟨hjob, decide_eq_true hstays⟩, rfl⟩

/-- **A poll** succeeds exactly if it is not answered or the answer is sane. -/
theorem Good.poll_spec (hc : c.Sound) (H : s.Good c) (x : Exchange) :
    ((s.poll c x).isSome = true ↔ (x.Answered c → x.rspCount ≤ c.nRsp ∧ (c.protover = .sp30 →
      (x.completed c).Nodup ∧ ∀ id ∈ x.completed c, id ∈ s.work.map (·.deviceId)))) ∧
    ∀ s', s.poll c x = some s' → s'.Good c ∧ s.Moves c (.poll x) s' := by
  have hbuffer := H.buffer
  obtain ⟨counted, hcounted⟩ := @exists_memcpy s.reqBuffer
    [UInt8.ofNat s.readyToQueue, UInt8.ofNat (s.readyToQueue / 2 ^ 8)] 6
    (by rw [hbuffer]; exact Nat.le_add_right 8 _)
  have hlen := length_memcpy hcounted
  rw [poll, hcounted, Option.bind_eq_bind, Option.bind_some]
  -- nothing has changed where no answer is read
  have hsame : ∀ s' : Minergate, s'.Good c → s'.work = s.work → ¬ x.Answered c →
      ((some s').isSome = true ↔ (x.Answered c → x.rspCount ≤ c.nRsp ∧ (c.protover = .sp30 →
        (x.completed c).Nodup ∧ ∀ id ∈ x.completed c, id ∈ s.work.map (·.deviceId)))) ∧
      ∀ t, some s' = some t → t.Good c ∧ s.Moves c (.poll x) t := by
    intro s' hgood hwork hnot
    refine ⟨iff_of_true rfl fun h => absurd h hnot, fun t ht => ?_⟩
    obtain rfl := Option.some.inj ht
    exact ⟨hgood, moves_of_eq (by rw [hwork]) (fun _ _ h => hnot h.1) id⟩
  by_cases hwrote : x.wrote ≠ c.pktReqSz
  · rw [if_pos hwrote]
    have hgood := H.withBuffer hlen (jobid_memcpy hcounted le_rfl)
    exact hsame _ hgood rfl fun h => hwrote h.1
  · rw [if_neg hwrote]
    obtain ⟨cleared, hcleared⟩ := @exists_memcpy counted [0] 3
      (by simp only [List.length_cons, List.length_nil]; omega)
    rw [List.getElem?_eq_getElem (show 3 < counted.length by omega), Option.bind_eq_bind,
      Option.bind_some, hcleared, Option.bind_some]
    dsimp only
    obtain ⟨next, hnext⟩ : ∃ next : Minergate, next = { s with
      reqBuffer := cleared, readyToQueue := 0, workList := [], written := [] } := ⟨_, rfl⟩
    rw [← hnext]
    have hwaits : next.workList = [] ∧ next.written = [] ∧ next.readyToQueue = 0 := by
      rw [hnext]
      exact ⟨rfl, rfl, rfl⟩
    have hbuffer' : next.reqBuffer.length = 8 + 0x34 * c.nReq := by
      rw [hnext]
      exact (length_memcpy hcleared).trans (hlen.trans hbuffer)
    have htable : next.toMinergateTable = s.toMinergateTable ∧ next.appended = s.appended := by
      rw [hnext]
      exact ⟨rfl, rfl⟩
    have hcustody : Custody next.appended (next.work.map (·.work)) next.freed := by
      rw [htable.1, htable.2]
      exact H.custody
    have hids : (next.work.map (·.deviceId)).Nodup := by
      rw [htable.1]
      exact H.ids
    have hgood : next.Good c := good_of_nothing_waits hwaits hcustody hbuffer' hids
    have hwork : next.work = s.work := by rw [htable.1]
    by_cases hsize : (x.buf.length : ℤ) ≠ c.pktRspSz
    · rw [if_pos hsize]
      exact hsame next hgood hwork fun h => hsize h.2.1
    · rw [if_neg hsize]
      have height : 8 ≤ x.buf.length := by
        rw [not_not, hc.pktRspSz] at hsize
        have : x.buf.length = 8 + c.pktRspItemSz * c.nRsp := by exact_mod_cast hsize
        omega
      obtain ⟨magic, hmagic⟩ := @exists_readAt x.buf 4 2 (le_trans (by decide) height)
      have htwo : 2 < x.buf.length := le_trans (by decide) height
      have hver := List.getElem?_eq_getElem htwo
      rw [hver, hmagic, Option.bind_some, Option.bind_some]
      by_cases hheader : x.buf[2] ≠ c.protover.byte ∨ magic ≠ [0xf4, 0xca]
      · rw [if_pos hheader]
        refine hsame next hgood hwork fun ⟨_, _, hver', hmagic'⟩ => ?_
        rw [hver, Option.some.injEq] at hver'
        rw [hmagic, Option.some.injEq] at hmagic'
        exact hheader.elim (fun h => h hver') fun h => h hmagic'
      · rw [if_neg hheader]
        push Not at hheader
        have hanswered : x.Answered c := by
          refine ⟨not_not.mp hwrote, not_not.mp hsize, ?_, ?_⟩
          · rw [hver, hheader.1]
          · rw [hmagic, hheader.2]
        obtain ⟨hiff, hrest⟩ := handle_spec hc hbuffer' hwaits hcustody hids (not_not.mp hsize)
          counted[3]
        rw [hwork] at hiff hrest
        refine ⟨hiff.trans ⟨fun h _ => h, fun h => h hanswered⟩, fun s' hs' => ?_⟩
        obtain ⟨hgood', hmem⟩ := hrest s' hs'
        refine ⟨hgood', fun work => (hmem work).trans ?_⟩
        rw [or_iff_left fun h : s.Enters c (.poll x) ∧ _ => h.1]
        refine exists_congr fun job => and_congr_right fun _ => and_congr_right fun _ => ?_
        exact not_congr (and_iff_right hanswered).symm

/-! ## The calls, one after the other -/

/-- The driver is at work, with the books right. -/
def Inv (c : MinergateConfig) (s : Option Minergate) : Prop := ∃ t, s = some t ∧ t.Good c

/-- **A call** succeeds exactly if it is sane, and what it leaves is right. -/
theorem step_spec (hc : c.Sound) {s s' : Option Minergate} {call : MinergateCall} (H : Inv c s)
    (hstep : step c s call = some s') : (s'.isSome = true ↔ Sane c s call s') ∧
      (s'.isSome = true → Inv c s' ∧ Law c s call s') := by
  obtain ⟨s, rfl, H⟩ := H
  have hlaw : ∀ t : Minergate, t.Good c → s.Moves c call t →
      Inv c (some t) ∧ Law c (some s) call (some t) :=
    fun t hgood hmoves => ⟨⟨t, rfl, hgood⟩, hgood.toBooks, hmoves⟩
  cases call with
  | queueAppend w =>
    obtain rfl := Option.some.inj hstep
    by_cases hsane : s.Accepts c → s.readyToQueue < c.nReq
    · obtain ⟨t, ht, hgood, hmoves⟩ := H.exists_queueAppend hc w hsane
      rw [ht]
      exact ⟨iff_of_true rfl hsane, fun _ => hlaw t hgood hmoves⟩
    · have hnone : s.queueAppend c w = none := by
        rw [Classical.not_imp] at hsane
        exact H.queueAppend_eq_none w hsane.1 (Nat.le_of_not_lt hsane.2)
      rw [hnone]
      exact ⟨iff_of_false Bool.false_ne_true hsane, fun h => absurd h Bool.false_ne_true⟩
  | queueFlush =>
    obtain rfl := Option.some.inj hstep
    obtain ⟨t, ht, hgood, hmoves⟩ := H.exists_queueFlush
    rw [ht]
    exact ⟨iff_of_true rfl trivial, fun _ => hlaw t hgood hmoves⟩
  | poll x =>
    obtain rfl := Option.some.inj hstep
    obtain ⟨hiff, hrest⟩ := H.poll_spec hc x
    refine ⟨hiff, fun hsome => ?_⟩
    obtain ⟨t, ht⟩ := Option.isSome_iff_exists.mp hsome
    rw [ht]
    exact hlaw t (hrest t ht).1 (hrest t ht).2

theorem law_iff_sane (hc : c.Sound) {s s' : Option Minergate} {call : MinergateCall} (H : Inv c s)
    (hstep : step c s call = some s') : Law c s call s' ↔ Sane c s call s' := by
  obtain ⟨hiff, hlaw⟩ := step_spec hc H hstep
  refine Iff.trans ⟨fun h => ?_, fun h => (hlaw h).2⟩ hiff
  cases s' with
  | none => cases s <;> cases h
  | some t => rfl

/-- What `minergate_init` leaves. -/
theorem inv_init (hc : c.Sound) : Inv c (init c) := by
  have hlen : (List.replicate c.pktReqSz.toNat (0 : UInt8)).length = 8 + 0x34 * c.nReq := by
    rw [List.length_replicate, hc.pktReqSz, Int.toNat_natCast]
  obtain ⟨b₁, hb₁⟩ := @exists_memcpy (List.replicate c.pktReqSz.toNat 0) [c.protover.byte] 2
    (by rw [hlen, List.length_singleton]; omega)
  have hlen₁ := length_memcpy hb₁
  obtain ⟨b₂, hb₂⟩ := @exists_memcpy b₁ [3] 3 (by rw [hlen₁, hlen, List.length_singleton]; omega)
  have hlen₂ := length_memcpy hb₂
  obtain ⟨b₃, hb₃⟩ := @exists_memcpy b₂ [0xf4, 0xca] 4
    (by rw [hlen₂, hlen₁, hlen]; exact Nat.le_add_right_of_le (by decide))
  have hlen₃ := length_memcpy hb₃
  rw [init, hb₁, Option.bind_eq_bind, Option.bind_some, hb₂, Option.bind_some, hb₃,
    Option.bind_some]
  refine ⟨_, rfl, good_of_nothing_waits ⟨rfl, rfl, rfl⟩ Custody.zero ?_ List.nodup_nil⟩
  exact hlen₃.trans (hlen₂.trans (hlen₁.trans hlen))

/-- **In every run**, if the packets have sizes that an `int` can hold, all calls do what is
expected exactly if all are sane. -/
theorem allSteps_served_iff (o : MinergateSettings) (hfits : o.config.Fits)
    (calls : List MinergateCall) :
    Run.AllSteps (step o.config) (Law o.config) (init o.config) calls ↔
      Run.AllSteps (step o.config) (Sane o.config) (init o.config) calls := by
  have hc := o.sound_config hfits
  have hiff : ∀ s call s', Inv o.config s → step o.config s call = some s' →
      (Law o.config s call s' ↔ Sane o.config s call s') :=
    fun s call s' H hstep => law_iff_sane hc H hstep
  have hkeep : ∀ s call s', Inv o.config s → step o.config s call = some s' →
      Law o.config s call s' → Inv o.config s' := by
    intro s call s' H hstep hlaw
    obtain ⟨hsane, hinv⟩ := step_spec hc H hstep
    exact (hinv (hsane.mpr ((hiff s call s' H hstep).mp hlaw))).1
  exact Run.allSteps_congr hiff hkeep calls (inv_init hc)

/-- One job in a request, one response, and a minergate of the second protocol. -/
def oneJob : MinergateSettings where
  protover := .sp30
  nReq := 1
  nReqQueue := 1
  nRsp := 1
  queue := 1
  minimumRoll := -1
  desiredRoll := -1
  accepted := by decide

/-- One response, for job 0, with the flag that completes it. -/
def completesZero : Exchange where
  wrote := 60
  buf := [0, 0, 30, 0, 0xf4, 0xca, 1, 0, 0, 0, 0, 0, 0, 0, 0, 0, 0, 0, 0, 0, 0, 0, 1, 0]

/-- The first poll is answered at once. -/
theorem allSteps_served_iff_oneJob :
    Run.AllSteps (step oneJob.config) (Law oneJob.config) (init oneJob.config)
        [.poll completesZero] ↔
      Run.AllSteps (step oneJob.config) (Sane oneJob.config) (init oneJob.config)
        [.poll completesZero] :=
  allSteps_served_iff oneJob ⟨by decide, by decide⟩ _

/-- A job is completed before any was given. -/
theorem not_law_completesZero :
    ¬ Run.AllSteps (step oneJob.config) (Law oneJob.config) (init oneJob.config)
      [.poll completesZero] := by
  intro hall
  obtain ⟨s, hs, -⟩ := inv_init (oneJob.sound_config ⟨by decide, by decide⟩)
  have hnone : (init oneJob.config).bind (poll oneJob.config · completesZero) = none := by
    decide +kernel
  rw [hs, Option.bind_some] at hnone
  rw [hs] at hall
  have hlaw := (hall none (by rw [step, hnone])).1
  exact hlaw

end Minergate

end MassGridMiner

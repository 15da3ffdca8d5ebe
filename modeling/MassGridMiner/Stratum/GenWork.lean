import MassGridMiner.Share.Work2d
import MassGridMiner.Stratum.Reply
import MassGridMiner.Stratum.Template
import Mathlib.Data.List.Nodup

/-!
# Generating works from a job

`gen_stratum_work` gives every work the next value of a 64-bit counter as its second
extranonce, cut to the size the pool has chosen or filled up with zeros, and writes it into
the gap of the job's coinbase.  The two functions that install a job start the counter
anew.

## Main definitions

* `fillNonce2`, `genStratumWork` — the second extranonce, and the work.
* `Installed` — a pool whose job has just been installed.
* `generate` — the works of a run between two installations.
* `ServesJob` — they carry different extranonces, each in the gap of the coinbase.
-/

namespace MassGridMiner

/-- The second extranonce that `gen_stratum_work` fills in; `mem` is what newly allocated
memory holds. -/
def fillNonce2 (mem : ℕ → UInt8) (pool : StratumPool) : List UInt8 :=
  let n2size := pool.swork.n2size
  let buf := bytesResize [] n2size mem
  let buf := if pool.nonce2sz < n2size then
    writeAt buf pool.nonce2sz (List.replicate (n2size - pool.nonce2sz) 0) else buf
  writeAt buf 0 ((leBytes 8 pool.nonce2.toNat).take pool.nonce2sz)

/-- A work that was generated, with the extranonce it carries and the job as it is left. -/
structure Generated where
  work : Work
  nonce2 : List UInt8
  job : StratumWork

/-- The job after `gen_stratum_work2` has written an extranonce into its coinbase. -/
def writeNonce2 (swork : StratumWork) (nonce2 : List UInt8) : StratumWork :=
  { swork with coinbase := writeAt swork.coinbase swork.nonce2Offset nonce2 }

section
variable (genHash : List UInt8 → Hash)

/-- `gen_stratum_work`. -/
def genStratumWork (now : ℕ) (mem : ℕ → UInt8) (workPool : Pool) (pool : StratumPool) :
    Generated × StratumPool :=
  let nonce2 := fillNonce2 mem pool
  let swork := writeNonce2 pool.swork nonce2
  ({ work := genStratumWork2 genHash now (Work.zero workPool) pool.swork nonce2
     nonce2 := nonce2
     job := swork },
    { pool with swork := swork, nonce2 := pool.nonce2 + 1 })

/-- What happens between two installations: a work is generated, or the pool announces
sizes for the next job. -/
inductive JobEvent
  | gen (now : ℕ) (mem : ℕ → UInt8) (workPool : Pool)
  | setExtranonce (env : ReplyEnv) (val : Json) (params : Option Json)

/-- The works of a run, and the pool after it. -/
def generate (pool : StratumPool) : List JobEvent → List Generated × StratumPool
  | [] => ([], pool)
  | .gen now mem workPool :: es =>
    let (g, pool) := genStratumWork genHash now mem workPool pool
    (g :: (generate pool es).1, (generate pool es).2)
  | .setExtranonce env val params :: es =>
    generate (stratumSetExtranonce env pool val params).pool es

/-- A job has just been installed, by a notify or from a template. -/
inductive Installed : StratumPool → Prop
  | notify (env : NotifyEnv) (pool : StratumPool) (val : Option Json) :
      (parseNotify env pool val).1 = true → Installed (parseNotify env pool val).2
  | template (now : ℕ) (target : Hash) (tmpl : BlockTemplate) {pool pool' : StratumPool} :
      installTemplate now target pool tmpl = some pool' → Installed pool'

/-- The works of a run after an installation carry different extranonces of the size of the
gap, which lies inside the coinbase; and what is written is the gap, and nothing else. -/
structure ServesJob (pool : StratumPool) (es : List JobEvent) : Prop where
  distinct : ((generate genHash pool es).1.map Generated.nonce2).Nodup
  length_eq : ∀ g ∈ (generate genHash pool es).1, g.nonce2.length = pool.swork.n2size
  inside : pool.swork.nonce2Offset + pool.swork.n2size ≤ pool.swork.coinbase.length
  written : ∀ g ∈ (generate genHash pool es).1, g.job.coinbase =
    pool.swork.coinbase.take pool.swork.nonce2Offset ++ g.nonce2 ++
      pool.swork.coinbase.drop (pool.swork.nonce2Offset + pool.swork.n2size)

end

/-! ## Installations -/

/-- The gap of a job lies inside its coinbase. -/
def StratumWork.HasGap (swork : StratumWork) : Prop :=
  swork.nonce2Offset + swork.n2size ≤ swork.coinbase.length

/-- The counter starts anew, as wide as the gap and eight bytes at the most. -/
structure Ready (pool : StratumPool) : Prop where
  nonce2sz_eq : pool.nonce2sz = min pool.swork.n2size 8
  nonce2_eq : pool.nonce2 = 0
  hasGap : pool.swork.HasGap

/-- What is written of the coinbase lies inside it. -/
theorem length_writeCoinbase {buf : List UInt8} {fields : NotifyFields} {nonce1 : Option CStr}
    {n1Len n2size : ℕ}
    (H : buf.length = fields.coinbase1.length / 2 + n1Len + n2size + fields.coinbase2.length / 2) :
    (writeCoinbase buf fields nonce1 n1Len n2size).length = buf.length := by
  have hcb1 := length_hex2bin_le fields.coinbase1.bytes (fields.coinbase1.length / 2)
  have hcb2 := length_hex2bin_le fields.coinbase2.bytes (fields.coinbase2.length / 2)
  have hn1 : ((nonce1.map fun n => hexBytes n n1Len).getD []).length ≤ n1Len := by
    cases nonce1 with
    | none => exact Nat.zero_le _
    | some n => exact length_hex2bin_le n.bytes n1Len
  rw [← hexBytes] at hcb1 hcb2
  have hfirst : (writeAt buf 0 (hexBytes fields.coinbase1 (fields.coinbase1.length / 2))).length
      = buf.length := length_writeAt (by omega)
  have hsecond : (writeAt (writeAt buf 0 (hexBytes fields.coinbase1
      (fields.coinbase1.length / 2))) (fields.coinbase1.length / 2)
      ((nonce1.map fun n => hexBytes n n1Len).getD [])).length = buf.length := by
    rw [length_writeAt (by omega), hfirst]
  rw [writeCoinbase, length_writeAt (by omega), hsecond]

theorem Installed.ready {pool : StratumPool} (H : Installed pool) : Ready pool := by
  cases H with
  | notify env pool val htrue =>
      cases hfields : notifyFields val with
      | none =>
          rw [parseNotify_of_none hfields] at htrue
          cases htrue
      | some fields =>
          have hlen : (installJob env pool fields).HasGap := by
            simp only [StratumWork.HasGap, installJob]
            rw [length_writeCoinbase (by rw [length_bytesResize]), length_bytesResize]
            omega
          simp only [parseNotify, hfields]
          split
          · exact ⟨rfl, rfl, hlen⟩
          · exact ⟨rfl, rfl, hlen⟩
  | template now target tmpl hinstall =>
      obtain ⟨mdata, hmdata, rfl⟩ := Option.map_eq_some_iff.mp hinstall
      exact ⟨rfl, rfl, blkmkGetMdata_fits hmdata⟩

/-! ## A run -/

/-- The text of an extranonce: the low bytes of the counter, then zeros. -/
def nonce2Text (n2size c : ℕ) : List UInt8 :=
  leBytes (min n2size 8) c ++ List.replicate (n2size - min n2size 8) 0

@[simp] theorem length_nonce2Text (n2size c : ℕ) : (nonce2Text n2size c).length = n2size := by
  simp [nonce2Text]

/-- What the allocated memory held is overwritten. -/
theorem fillNonce2_eq {mem : ℕ → UInt8} {pool : StratumPool}
    (H : pool.nonce2sz = min pool.swork.n2size 8) :
    fillNonce2 mem pool = nonce2Text pool.swork.n2size pool.nonce2.toNat := by
  have hlen : (bytesResize [] pool.swork.n2size mem).length = pool.swork.n2size :=
    length_bytesResize _ _ _
  rw [fillNonce2, nonce2Text, H, take_leBytes (by omega), writeAt_zero, length_leBytes]
  congr 1
  split
  next hwide =>
    rw [writeAt, List.length_replicate, List.append_assoc, List.drop_append,
      List.drop_eq_nil_of_le (by simp), List.length_take, hlen,
      show min pool.swork.n2size 8 - min (min pool.swork.n2size 8) pool.swork.n2size = 0 by omega,
      List.drop_zero, List.nil_append, List.drop_eq_nil_of_le (by omega), List.append_nil]
  next hnarrow =>
    rw [List.drop_eq_nil_of_le (by omega),
      show pool.swork.n2size - min pool.swork.n2size 8 = 0 by omega, List.replicate_zero]

/-- The coinbase of the job, with so many bytes in its gap. -/
def StratumWork.fillGap (swork : StratumWork) (gap : List UInt8) : List UInt8 :=
  swork.coinbase.take swork.nonce2Offset ++ gap ++
    swork.coinbase.drop (swork.nonce2Offset + swork.n2size)

/-- A write into the gap replaces what it held. -/
theorem StratumWork.writeAt_fillGap {swork : StratumWork} (H : swork.HasGap)
    {gap bs : List UInt8} (hgap : gap.length = swork.n2size) (hbs : bs.length = swork.n2size) :
    writeAt (swork.fillGap gap) swork.nonce2Offset bs = swork.fillGap bs := by
  have hoff : (swork.coinbase.take swork.nonce2Offset).length = swork.nonce2Offset := by
    rw [StratumWork.HasGap] at H
    rw [List.length_take]
    omega
  have hwrite := writeAt_append (swork.coinbase.take swork.nonce2Offset)
    (gap ++ swork.coinbase.drop (swork.nonce2Offset + swork.n2size)) bs
  rw [hoff, ← List.append_assoc, hbs, ← hgap, List.drop_left] at hwrite
  rw [fillGap, fillGap, ← hgap, hwrite]

theorem StratumWork.fillGap_self (swork : StratumWork) :
    swork.fillGap ((swork.coinbase.drop swork.nonce2Offset).take swork.n2size) =
      swork.coinbase := by
  rw [fillGap, ← List.take_add, List.take_append_drop]

/-- What the gap was filled with is found there. -/
theorem StratumWork.take_drop_fillGap {swork : StratumWork} (H : swork.HasGap) {gap : List UInt8}
    (hgap : gap.length = swork.n2size) :
    ((swork.fillGap gap).drop swork.nonce2Offset).take swork.n2size = gap := by
  have hoff : (swork.coinbase.take swork.nonce2Offset).length = swork.nonce2Offset := by
    rw [StratumWork.HasGap] at H
    rw [List.length_take]
    omega
  rw [fillGap, List.append_assoc, List.drop_left' hoff, List.take_left' hgap]

/-- The same job with other bytes in the gap of its coinbase. -/
def StratumWork.withGap (swork : StratumWork) (gap : List UInt8) : StratumWork :=
  { swork with coinbase := swork.fillGap gap }

theorem StratumWork.withGap_self (swork : StratumWork) :
    swork.withGap ((swork.coinbase.drop swork.nonce2Offset).take swork.n2size) = swork := by
  rw [withGap, fillGap_self]

theorem writeNonce2_withGap {swork : StratumWork} (hgap : swork.HasGap) {gap nonce2 : List UInt8}
    (hlen : gap.length = swork.n2size) (hnonce2 : nonce2.length = swork.n2size) :
    writeNonce2 (swork.withGap gap) nonce2 = swork.withGap nonce2 := by
  simp only [writeNonce2, StratumWork.withGap, StratumWork.writeAt_fillGap hgap hlen hnonce2]

/-- The pool after so many works: its job is the one installed, but for the gap. -/
structure Serving (pool₀ : StratumPool) (c : ℕ) (pool : StratumPool) : Prop where
  nonce2Offset_eq : pool.swork.nonce2Offset = pool₀.swork.nonce2Offset
  n2size_eq : pool.swork.n2size = pool₀.swork.n2size
  nonce2sz_eq : pool.nonce2sz = min pool₀.swork.n2size 8
  nonce2_eq : pool.nonce2 = UInt64.ofNat c
  coinbase_eq : ∃ gap, gap.length = pool₀.swork.n2size ∧
    pool.swork.coinbase = pool₀.swork.fillGap gap

theorem Ready.serving {pool : StratumPool} (H : Ready pool) : Serving pool 0 pool where
  nonce2Offset_eq := rfl
  n2size_eq := rfl
  nonce2sz_eq := H.nonce2sz_eq
  nonce2_eq := H.nonce2_eq
  coinbase_eq := by
    have hgap := H.hasGap
    rw [StratumWork.HasGap] at hgap
    refine ⟨_, ?_, pool.swork.fillGap_self.symm⟩
    rw [List.length_take, List.length_drop]
    omega

section
variable (genHash : List UInt8 → Hash)

/-- A work carries the text of the counter, and the counter moves on. -/
theorem Serving.genStratumWork {pool₀ pool : StratumPool} {c : ℕ} (hgap : pool₀.swork.HasGap)
    (H : Serving pool₀ c pool) (now : ℕ) (mem : ℕ → UInt8) (workPool : Pool) :
    (genStratumWork genHash now mem workPool pool).1.nonce2 =
        nonce2Text pool₀.swork.n2size (UInt64.ofNat c).toNat ∧
      (genStratumWork genHash now mem workPool pool).1.job.coinbase =
        pool₀.swork.fillGap (nonce2Text pool₀.swork.n2size (UInt64.ofNat c).toNat) ∧
      Serving pool₀ (c + 1) (genStratumWork genHash now mem workPool pool).2 := by
  have hfill : fillNonce2 mem pool = nonce2Text pool₀.swork.n2size (UInt64.ofNat c).toNat := by
    rw [fillNonce2_eq (by rw [H.nonce2sz_eq, H.n2size_eq]), H.n2size_eq, H.nonce2_eq]
  obtain ⟨gap, hlen, hcoinbase⟩ := H.coinbase_eq
  have hwrite : (writeNonce2 pool.swork (fillNonce2 mem pool)).coinbase =
      pool₀.swork.fillGap (nonce2Text pool₀.swork.n2size (UInt64.ofNat c).toNat) := by
    rw [writeNonce2, hcoinbase, H.nonce2Offset_eq, hfill,
      StratumWork.writeAt_fillGap hgap hlen (length_nonce2Text _ _)]
  refine ⟨hfill, hwrite, H.nonce2Offset_eq, H.n2size_eq, H.nonce2sz_eq, ?_,
    _, length_nonce2Text _ _, hwrite⟩
  rw [MassGridMiner.genStratumWork, H.nonce2_eq, UInt64.ofNat_add]
  rfl

/-- Sizes for the next job leave this one alone. -/
theorem Serving.setExtranonce {pool₀ pool : StratumPool} {c : ℕ} (H : Serving pool₀ c pool)
    (env : ReplyEnv) (val : Json) (params : Option Json) :
    Serving pool₀ c (stratumSetExtranonce env pool val params).pool := by
  rw [stratumSetExtranonce]
  split
  · exact ⟨H.nonce2Offset_eq, H.n2size_eq, H.nonce2sz_eq, H.nonce2_eq, H.coinbase_eq⟩
  · exact H

/-- How many works a run generates. -/
def gens (es : List JobEvent) : ℕ :=
  es.countP fun
    | .gen .. => true
    | .setExtranonce .. => false

/-- The works of a run carry the texts of consecutive counters, each written into the gap. -/
theorem Serving.generate {pool₀ pool : StratumPool} {c : ℕ} (hgap : pool₀.swork.HasGap)
    (H : Serving pool₀ c pool) (es : List JobEvent) :
    (generate genHash pool es).1.map Generated.nonce2 =
        (List.range' c (gens es)).map
          (fun i => nonce2Text pool₀.swork.n2size (UInt64.ofNat i).toNat) ∧
      ∀ g ∈ (generate genHash pool es).1, g.nonce2.length = pool₀.swork.n2size ∧
        g.job.coinbase = pool₀.swork.fillGap g.nonce2 := by
  induction es generalizing pool c with
  | nil => exact ⟨rfl, fun g hg => by cases hg⟩
  | cons e es ih =>
      cases e with
      | gen now mem workPool =>
          obtain ⟨hnonce2, hjob, hnext⟩ := H.genStratumWork genHash hgap now mem workPool
          obtain ⟨hmap, hall⟩ := ih hnext
          have hcount : gens (.gen now mem workPool :: es) = gens es + 1 :=
            List.countP_cons_of_pos rfl
          constructor
          · rw [MassGridMiner.generate, List.map_cons, hmap, hcount, List.range'_succ,
              List.map_cons, hnonce2]
          · intro g hg
            rw [MassGridMiner.generate] at hg
            rcases List.mem_cons.mp hg with rfl | hg
            · exact ⟨by rw [hnonce2, length_nonce2Text], by rw [hjob, hnonce2]⟩
            · exact hall g hg
      | setExtranonce env val params =>
          have hcount : gens (.setExtranonce env val params :: es) = gens es :=
            List.countP_cons_of_neg (by simp)
          rw [hcount]
          exact ih (H.setExtranonce env val params)

/-- However many works were generated, the job is the one installed but for the gap. -/
theorem Serving.exists_generate {pool₀ pool : StratumPool} {c : ℕ} (hgap : pool₀.swork.HasGap)
    (H : Serving pool₀ c pool) (es : List JobEvent) :
    ∃ c', Serving pool₀ c' (MassGridMiner.generate genHash pool es).2 := by
  induction es generalizing pool c with
  | nil => exact ⟨c, H⟩
  | cons e es ih =>
      cases e with
      | gen now mem workPool => exact ih (H.genStratumWork genHash hgap now mem workPool).2.2
      | setExtranonce env val params => exact ih (H.setExtranonce env val params)

end

theorem StratumWork.length_fillGap {swork : StratumWork} (H : swork.HasGap) {gap : List UInt8}
    (hgap : gap.length = swork.n2size) : (swork.fillGap gap).length = swork.coinbase.length := by
  rw [StratumWork.HasGap] at H
  rw [fillGap, List.length_append, List.length_append, List.length_take, List.length_drop]
  omega

theorem Serving.hasGap {pool₀ pool : StratumPool} {c : ℕ} (hgap : pool₀.swork.HasGap)
    (H : Serving pool₀ c pool) : pool.swork.HasGap := by
  obtain ⟨gap, hlen, hcoinbase⟩ := H.coinbase_eq
  rw [StratumWork.HasGap, H.nonce2Offset_eq, H.n2size_eq, hcoinbase,
    StratumWork.length_fillGap hgap hlen]
  exact hgap

/-- Counters below the width of the gap have different texts. -/
theorem nodup_nonce2Text {n2size N : ℕ} (H : N ≤ 256 ^ min n2size 8) :
    ((List.range' 0 N).map fun i => nonce2Text n2size (UInt64.ofNat i).toNat).Nodup := by
  have hpow : 256 ^ min n2size 8 = 2 ^ (8 * min n2size 8) := by
    rw [show 256 = 2 ^ 8 by rfl, ← pow_mul]
  have hwidth : 2 ^ (8 * min n2size 8) ≤ 2 ^ 64 := Nat.pow_le_pow_right (by decide) (by omega)
  have htext : ∀ i ∈ List.range' 0 N, nonce2Text n2size (UInt64.ofNat i).toNat =
      nonce2Text n2size i := by
    intro i hi
    have hlt := (List.mem_range'_1.mp hi).2
    rw [UInt64.toNat_ofNat_of_lt' (by rw [UInt64.size]; omega)]
  rw [List.map_congr_left htext]
  refine List.Nodup.map_on ?_ List.nodup_range'
  intro i hi j hj heq
  have hilt := (List.mem_range'_1.mp hi).2
  have hjlt := (List.mem_range'_1.mp hj).2
  rw [nonce2Text, nonce2Text] at heq
  exact (leBytes_inj (by omega) (by omega)).mp (List.append_cancel_right heq)

section
variable (genHash : List UInt8 → Hash)

/-- **Works of one job carry different extranonces**, until the counter has gone once round
the width of the gap; each is written into the gap and nowhere else. -/
theorem servesJob {pool : StratumPool} {es : List JobEvent} (H : Installed pool)
    (hlen : gens es ≤ 256 ^ min pool.swork.n2size 8) : ServesJob genHash pool es := by
  have hready := H.ready
  obtain ⟨hmap, hall⟩ := hready.serving.generate genHash hready.hasGap es
  exact
    { distinct := by rw [hmap]; exact nodup_nonce2Text hlen
      length_eq := fun g hg => (hall g hg).1
      inside := hready.hasGap
      written := fun g hg => (hall g hg).2 }

end

/-- A notify of zeros. -/
def zeroNotify : Json :=
  .array [.string (zeroDigits 1), .string (zeroDigits 64), .string (zeroDigits 2),
    .string (zeroDigits 2), .array [], .string (zeroDigits 8), .string (zeroDigits 8),
    .string (zeroDigits 8), .bool true]

theorem servesJob_zeroNotify : ServesJob (fun _ => Hash.zero)
    (parseNotify ⟨0, fun _ => 0, fun _ => 0, false⟩ subscribedPool (some zeroNotify)).2
    [.gen 0 (fun _ => 0) ⟨.no, true, Hash.ones⟩, .gen 1 (fun _ => 1) ⟨.no, true, Hash.ones⟩] :=
  servesJob _ (.notify _ _ _ rfl) (by decide)

end MassGridMiner

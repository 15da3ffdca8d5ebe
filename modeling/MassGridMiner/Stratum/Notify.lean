import MassGridMiner.Lib.Buffer
import MassGridMiner.Lib.Hex
import MassGridMiner.Stratum.Job
import MassGridMiner.Stratum.Json

/-!
# Installing a job

`parse_notify` checks that the parameters of a notify are of the right JSON types, and then
decodes their hexadecimal texts straight into the job of the pool.  Whether a text was
decoded is not looked at: a text that is too short, too long or not hexadecimal leaves old
bytes in the job, and the job is installed.

## Main definitions

* `NotifyFields`, `notifyFields` — the parameters, where they have the right types.
* `parseNotify` — the result, and the pool as it is left.
* `InstallsDecoded` — the pool is unchanged, or its job is the decoding of the parameters.
* `WellFormedNotify` — each text has the hexadecimal digits it should have.
-/

namespace MassGridMiner

/-- The strings in the parameters of a notify. -/
structure NotifyFields where
  jobId : CStr
  prevHash : CStr
  coinbase1 : CStr
  coinbase2 : CStr
  merkles : List CStr
  bbversion : CStr
  nbit : CStr
  ntime : CStr

/-- The merkle links, if they are an array of strings. -/
def notifyMerkles : Option Json → Option (List CStr)
  | some (.array elems) => elems.mapM fun elem => jsonStringValue (some elem)
  | _ => none

/-- The checks of `parse_notify`. -/
def notifyFields (val : Option Json) : Option NotifyFields :=
  match notifyMerkles (Json.arrayGet val 4), jsonArrayString val 1, jsonArrayString val 2,
    jsonArrayString val 3, jsonArrayString val 5, jsonArrayString val 6, jsonArrayString val 7,
    jsonArrayString val 0 with
  | some merkles, some prevHash, some coinbase1, some coinbase2, some bbversion, some nbit,
    some ntime, some jobId =>
    some { jobId, prevHash, coinbase1, coinbase2, merkles, bbversion, nbit, ntime }
  | _, _, _, _, _, _, _, _ => none

/-- `bytes_resize`: what was not there before is whatever the memory held. -/
def bytesResize (old : List UInt8) (newsz : ℕ) (fresh : ℕ → UInt8) : List UInt8 :=
  (List.range newsz).map fun i => old[i]?.getD (fresh i)

/-- What `hex2bin` writes. -/
def hexBytes (s : CStr) (len : ℕ) : List UInt8 := (hex2bin s.bytes len).1

/-- The loop over the merkle links, from the `i`-th on. -/
def writeMerkles (buf : List UInt8) (i : ℕ) : List CStr → List UInt8
  | [] => buf
  | merkle :: rest => writeMerkles (writeAt buf (i * 32) (hexBytes merkle 32)) (i + 1) rest

/-- What the machine contributes to a notify: the time, the contents of memory that is
newly allocated, and whether chance asks for the pool's transactions. -/
structure NotifyEnv where
  now : ℕ
  freshCoinbase : ℕ → UInt8
  freshMerkle : ℕ → UInt8
  probe : Bool

/-- The job's first extranonce and its length, after one that waits has been adopted. -/
def adoptNonce1 (pool : StratumPool) : Option CStr × ℕ :=
  match pool.nextNonce1 with
  | some nonce1 => (some nonce1, nonce1.length / 2)
  | none => (pool.swork.nonce1, pool.n1Len)

/-- The coinbase of the job: both parts and the first extranonce between, with a gap for
the second. -/
def writeCoinbase (buf : List UInt8) (fields : NotifyFields) (nonce1 : Option CStr)
    (n1Len n2size : ℕ) : List UInt8 :=
  let cb1Len := fields.coinbase1.length / 2
  let cb2Len := fields.coinbase2.length / 2
  let buf := writeAt buf 0 (hexBytes fields.coinbase1 cb1Len)
  let buf := writeAt buf cb1Len ((nonce1.map fun n => hexBytes n n1Len).getD [])
  writeAt buf (cb1Len + n1Len + n2size) (hexBytes fields.coinbase2 cb2Len)

/-- `stratum_probe_transparency`, without the request it sends. -/
def probeTransparency (swork : StratumWork) : StratumWork :=
  { swork with
    tvTransparencySet := swork.tvTransparencySet || !swork.isOpaque
    transparencyProbed := true }

/-- The job that a notify installs. -/
def installJob (env : NotifyEnv) (pool : StratumPool) (fields : NotifyFields) : StratumWork :=
  let nonce1 := (adoptNonce1 pool).1
  let n1Len := (adoptNonce1 pool).2
  let n2size := pool.nextN2size
  let ntime := ofBe32 (writeAt (le32 pool.swork.ntime) 0 (hexBytes fields.ntime 4))
  let nonce2Offset := fields.coinbase1.length / 2 + n1Len
  let coinbase := bytesResize pool.swork.coinbase
    (nonce2Offset + n2size + fields.coinbase2.length / 2) env.freshCoinbase
  let merkleBin := bytesResize pool.swork.merkleBin (32 * fields.merkles.length) env.freshMerkle
  { pool.swork with
    nonce1 := nonce1
    jobId := some fields.jobId
    clean := true
    tvReceived := env.now
    header1 := (pool.swork.header1.overwrite 0 (hexBytes fields.bbversion 4)).overwrite 4
      (hexBytes fields.prevHash 32)
    ntime := ntime
    diffbits := pool.swork.diffbits.overwrite 0 (hexBytes fields.nbit 4)
    ntimeRollLimits := setSimpleNtimeRollLimit ntime 60 env.now
    n2size := n2size
    nonce2Offset := nonce2Offset
    coinbase := writeCoinbase coinbase fields nonce1 n1Len n2size
    merkleBin := writeMerkles merkleBin 0 fields.merkles
    merkles := fields.merkles.length
    target := pool.nextTarget }

/-- Chance, or a request that is pending, has the pool asked for its transactions. -/
def asksTransactions (env : NotifyEnv) (swork : StratumWork) : Bool :=
  (swork.merkles != 0 && (!swork.transparencyProbed || env.probe)) || swork.tvTransparencySet

/-- `parse_notify`.  The check of the coinbase against what the user asked for, which may
disable the pool, is left out. -/
def parseNotify (env : NotifyEnv) (pool : StratumPool) (val : Option Json) :
    Bool × StratumPool :=
  match notifyFields val with
  | none => (false, pool)
  | some fields =>
    let swork := installJob env pool fields
    let clean := jsonIsTrue (Json.arrayGet val 8)
    (true, { pool with
      swork := if asksTransactions env swork && pool.probed then probeTransparency swork
        else swork
      submitOld := !clean
      goalname := pool.nextGoalname
      goalMalgo := pool.nextGoalMalgo.getD pool.goalMalgo
      nextGoalMalgo := none
      nextNonce1 := none
      n1Len := (adoptNonce1 pool).2
      nonce2sz := min pool.nextN2size 8
      nonce2 := 0 })

/-- The text is hexadecimal with two digits for each of so many bytes. -/
def Decodes (s : CStr) (bs : List UInt8) (len : ℕ) : Prop :=
  decodeHex s.bytes = some bs ∧ bs.length = len

/-- The job is the decoding of the parameters, but for the gap in its coinbase. -/
structure DecodedJob (fields : NotifyFields) (swork : StratumWork) : Prop where
  header1 : ∃ version prev, Decodes fields.bbversion version 4 ∧ Decodes fields.prevHash prev 32 ∧
    swork.header1.toList = version ++ prev
  ntime : Decodes fields.ntime (be32 swork.ntime) 4
  diffbits : Decodes fields.nbit swork.diffbits.toList 4
  merkleBin : ∃ links : List (List UInt8),
    List.Forall₂ (fun merkle link => Decodes merkle link 32) fields.merkles links ∧
      swork.merkleBin = links.flatten
  coinbase : ∃ nonce1 cb1 n1 gap cb2, swork.nonce1 = some nonce1 ∧
    decodeHex fields.coinbase1.bytes = some cb1 ∧ decodeHex nonce1.bytes = some n1 ∧
    decodeHex fields.coinbase2.bytes = some cb2 ∧ gap.length = swork.n2size ∧
    swork.nonce2Offset = (cb1 ++ n1).length ∧ swork.coinbase = cb1 ++ n1 ++ gap ++ cb2

/-- A notify is refused and leaves the job alone, or its job is the decoding of the
parameters. -/
structure InstallsDecoded (env : NotifyEnv) (pool : StratumPool) (val : Option Json) : Prop where
  refused : (parseNotify env pool val).1 = false → (parseNotify env pool val).2 = pool
  installed : (parseNotify env pool val).1 = true → ∃ fields, notifyFields val = some fields ∧
    DecodedJob fields (parseNotify env pool val).2.swork

/-- The text is of two hexadecimal digits for each of so many bytes. -/
def IsHex (s : CStr) (len : ℕ) : Prop :=
  s.length = 2 * len ∧ ∀ c ∈ s.bytes, (hexChar c).isSome = true

/-- Every parameter, and the first extranonce, has the digits it should have. -/
structure WellFormedNotify (pool : StratumPool) (fields : NotifyFields) : Prop where
  bbversion : IsHex fields.bbversion 4
  prevHash : IsHex fields.prevHash 32
  ntime : IsHex fields.ntime 4
  nbit : IsHex fields.nbit 4
  coinbase1 : IsHex fields.coinbase1 (fields.coinbase1.length / 2)
  nonce1 : ∃ nonce1, (adoptNonce1 pool).1 = some nonce1 ∧ IsHex nonce1 (adoptNonce1 pool).2
  coinbase2 : IsHex fields.coinbase2 (fields.coinbase2.length / 2)
  merkles : ∀ merkle ∈ fields.merkles, IsHex merkle 32

/-! ### What is decoded -/

theorem isHex_iff {s : CStr} {len : ℕ} : IsHex s len ↔ ∃ bs, Decodes s bs len :=
  exists_decodeHex_iff.symm

theorem Decodes.hexBytes_eq {s : CStr} {bs : List UInt8} {len : ℕ} (H : Decodes s bs len) :
    hexBytes s len = bs := by
  obtain ⟨hbs, rfl⟩ := H
  rw [hexBytes, hex2bin_of_decodeHex hbs]

/-- A text that decodes has two digits for each byte. -/
theorem decodes_half {s : CStr} {bs : List UInt8} (H : decodeHex s.bytes = some bs) :
    Decodes s bs (s.length / 2) := by
  have hlen := length_of_decodeHex H
  refine ⟨H, ?_⟩
  rw [CStr.length, hlen]
  omega

@[simp] theorem length_bytesResize (old : List UInt8) (newsz : ℕ) (fresh : ℕ → UInt8) :
    (bytesResize old newsz fresh).length = newsz := by
  simp [bytesResize]

/-- The previous hash goes right behind the version. -/
theorem header1_eq {header1 : Bytes 36} {version prev : List UInt8} (Hversion : version.length = 4)
    (Hprev : prev.length = 32) :
    ((header1.overwrite 0 version).overwrite 4 prev).toList = version ++ prev := by
  rw [Bytes.toList_overwrite _ (by omega), Bytes.toList_overwrite _ (by omega), writeAt_zero,
    ← Hversion, writeAt_append, List.drop_eq_nil_of_le (by simp [Hversion, Hprev]),
    List.append_nil]

theorem diffbits_eq {diffbits : Bytes 4} {nbit : List UInt8} (Hnbit : nbit.length = 4) :
    (diffbits.overwrite 0 nbit).toList = nbit := by
  rw [Bytes.toList_overwrite _ (by omega), writeAt_zero,
    List.drop_eq_nil_of_le (by simp [Hnbit]), List.append_nil]

theorem ntime_eq {old : UInt32} {ntime : List UInt8} (Hntime : ntime.length = 4) :
    be32 (ofBe32 (writeAt (le32 old) 0 ntime)) = ntime := by
  rw [writeAt_zero, List.drop_eq_nil_of_le (by simp [le32, Hntime]), List.append_nil,
    be32_ofBe32 Hntime]

/-- Each link is written right behind those before it. -/
theorem writeMerkles_eq {merkles : List CStr} {links : List (List UInt8)}
    (Hlinks : List.Forall₂ (fun m link => Decodes m link 32) merkles links) :
    ∀ {i : ℕ} {done left : List UInt8}, done.length = i * 32 →
      left.length = 32 * merkles.length →
      writeMerkles (done ++ left) i merkles = done ++ links.flatten := by
  induction Hlinks with
  | nil =>
      intro i done left _ hleft
      obtain rfl : left = [] := List.length_eq_zero_iff.mp hleft
      rfl
  | @cons merkle link merkles links hlink _ ih =>
      intro i done left hdone hleft
      have hlen : link.length = 32 := hlink.2
      rw [List.length_cons] at hleft
      rw [writeMerkles, hlink.hexBytes_eq, ← hdone, writeAt_append,
        ih (by rw [List.length_append, hdone, hlen]; omega) (by rw [List.length_drop]; omega),
        List.flatten_cons, List.append_assoc]

/-- Links can be had from texts that are all of 32 bytes. -/
theorem exists_links_iff {merkles : List CStr} :
    (∃ links : List (List UInt8), List.Forall₂ (fun m link => Decodes m link 32) merkles links) ↔
      ∀ merkle ∈ merkles, IsHex merkle 32 := by
  induction merkles with
  | nil => exact ⟨fun _ => by simp, fun _ => ⟨[], .nil⟩⟩
  | cons merkle merkles ih =>
      rw [List.forall_mem_cons, ← ih, isHex_iff]
      constructor
      · rintro ⟨_, hlinks⟩
        cases hlinks with
        | cons hlink hlinks => exact ⟨⟨_, hlink⟩, ⟨_, hlinks⟩⟩
      · rintro ⟨⟨link, hlink⟩, ⟨links, hlinks⟩⟩
        exact ⟨link :: links, .cons hlink hlinks⟩

/-- The first part of the coinbase, the first extranonce, whatever the buffer held in place
of the second, and the second part. -/
theorem writeCoinbase_eq {buf : List UInt8} {fields : NotifyFields} {nonce1 : CStr}
    {n1Len n2size : ℕ} {cb1 n1 cb2 : List UInt8}
    (Hcb1 : Decodes fields.coinbase1 cb1 (fields.coinbase1.length / 2))
    (Hn1 : Decodes nonce1 n1 n1Len)
    (Hcb2 : Decodes fields.coinbase2 cb2 (fields.coinbase2.length / 2))
    (Hbuf : buf.length = cb1.length + n1.length + n2size + cb2.length) :
    ∃ gap, gap.length = n2size ∧
      writeCoinbase buf fields (some nonce1) n1Len n2size = cb1 ++ n1 ++ gap ++ cb2 := by
  refine ⟨((buf.drop cb1.length).drop n1.length).take n2size, by simp; omega, ?_⟩
  simp only [writeCoinbase, Option.map_some, Option.getD_some, Hcb1.hexBytes_eq, Hn1.hexBytes_eq,
    Hcb2.hexBytes_eq]
  have hleft : ((buf.drop cb1.length).drop n1.length).drop (n2size + cb2.length) = [] :=
    List.drop_eq_nil_of_le (by simp only [List.length_drop]; omega)
  rw [← Hcb1.2, ← Hn1.2, writeAt_zero, writeAt_append, ← List.length_append, writeAt_append_add,
    hleft, List.append_nil]

/-- A job whose parameters all decode is their decoding. -/
theorem decodedJob_installJob {env : NotifyEnv} {pool : StratumPool} {fields : NotifyFields}
    (H : WellFormedNotify pool fields) : DecodedJob fields (installJob env pool fields) := by
  obtain ⟨version, hversion⟩ := isHex_iff.mp H.bbversion
  obtain ⟨prev, hprev⟩ := isHex_iff.mp H.prevHash
  obtain ⟨ntime, hntime⟩ := isHex_iff.mp H.ntime
  obtain ⟨nbit, hnbit⟩ := isHex_iff.mp H.nbit
  obtain ⟨cb1, hcb1⟩ := isHex_iff.mp H.coinbase1
  obtain ⟨cb2, hcb2⟩ := isHex_iff.mp H.coinbase2
  obtain ⟨nonce1, hnonce1, hn1⟩ := H.nonce1
  obtain ⟨n1, hn1⟩ := isHex_iff.mp hn1
  obtain ⟨links, hlinks⟩ := exists_links_iff.mpr H.merkles
  refine ⟨⟨version, prev, hversion, hprev, ?_⟩, ?_, ?_, ⟨links, hlinks, ?_⟩, ?_⟩
  · simp only [installJob, hversion.hexBytes_eq, hprev.hexBytes_eq]
    exact header1_eq hversion.2 hprev.2
  · simp only [installJob, hntime.hexBytes_eq]
    rwa [ntime_eq hntime.2]
  · simp only [installJob, hnbit.hexBytes_eq]
    rwa [diffbits_eq hnbit.2]
  · exact writeMerkles_eq hlinks (List.length_nil.trans (Nat.zero_mul 32).symm)
      (length_bytesResize _ _ _)
  · have hbuf : (bytesResize pool.swork.coinbase (fields.coinbase1.length / 2
        + (adoptNonce1 pool).2 + pool.nextN2size + fields.coinbase2.length / 2)
        env.freshCoinbase).length = cb1.length + n1.length + pool.nextN2size + cb2.length := by
      rw [length_bytesResize, hcb1.2, hn1.2, hcb2.2]
    obtain ⟨gap, hgap, hcoinbase⟩ := writeCoinbase_eq hcb1 hn1 hcb2 hbuf
    refine ⟨nonce1, cb1, n1, gap, cb2, hnonce1, hcb1.1, hn1.1, hcb2.1, hgap, ?_, ?_⟩
    · rw [List.length_append, hcb1.2, hn1.2]
      rfl
    · simp only [installJob, hnonce1]
      exact hcoinbase

/-- Where the job is the decoding of the parameters, they all decode. -/
theorem wellFormedNotify_of_decodedJob {env : NotifyEnv} {pool : StratumPool}
    {fields : NotifyFields} (H : DecodedJob fields (installJob env pool fields)) :
    WellFormedNotify pool fields := by
  obtain ⟨version, prev, hversion, hprev, _⟩ := H.header1
  obtain ⟨links, hlinks, _⟩ := H.merkleBin
  obtain ⟨nonce1, cb1, n1, gap, cb2, hnonce1, hcb1, hn1, hcb2, _, hoff, _⟩ := H.coinbase
  have hcb1 := decodes_half hcb1
  have hlen : n1.length = (adoptNonce1 pool).2 := by
    have : fields.coinbase1.length / 2 + (adoptNonce1 pool).2 = cb1.length + n1.length := by
      rw [← List.length_append, ← hoff]
      rfl
    have := hcb1.2
    omega
  exact
    { bbversion := isHex_iff.mpr ⟨version, hversion⟩
      prevHash := isHex_iff.mpr ⟨prev, hprev⟩
      ntime := isHex_iff.mpr ⟨_, H.ntime⟩
      nbit := isHex_iff.mpr ⟨_, H.diffbits⟩
      coinbase1 := isHex_iff.mpr ⟨cb1, hcb1⟩
      nonce1 := ⟨nonce1, hnonce1, isHex_iff.mpr ⟨n1, hn1, hlen⟩⟩
      coinbase2 := isHex_iff.mpr ⟨cb2, decodes_half hcb2⟩
      merkles := exists_links_iff.mp ⟨links, hlinks⟩ }

theorem parseNotify_of_none {env : NotifyEnv} {pool : StratumPool} {val : Option Json}
    (H : notifyFields val = none) : parseNotify env pool val = (false, pool) := by
  simp only [parseNotify, H]

/-- Asking for the transactions changes nothing of what was decoded. -/
theorem decodedJob_probeTransparency {fields : NotifyFields} {swork : StratumWork} :
    DecodedJob fields (probeTransparency swork) ↔ DecodedJob fields swork :=
  ⟨fun H => ⟨H.header1, H.ntime, H.diffbits, H.merkleBin, H.coinbase⟩,
    fun H => ⟨H.header1, H.ntime, H.diffbits, H.merkleBin, H.coinbase⟩⟩

theorem parseNotify_of_some (env : NotifyEnv) (pool : StratumPool) {val : Option Json}
    {fields : NotifyFields} (H : notifyFields val = some fields) :
    (parseNotify env pool val).1 = true ∧
      (DecodedJob fields (parseNotify env pool val).2.swork ↔
        DecodedJob fields (installJob env pool fields)) := by
  simp only [parseNotify, H, true_and]
  split
  · exact decodedJob_probeTransparency
  · exact Iff.rfl

/-- **When a notify installs what it says.**  A notify that passes the checks of its types
becomes the job whatever its texts are, so the job is their decoding only if they are
hexadecimal and of the right lengths. -/
theorem installsDecoded_iff (env : NotifyEnv) (pool : StratumPool) (val : Option Json) :
    InstallsDecoded env pool val ↔
      ∀ fields, notifyFields val = some fields → WellFormedNotify pool fields := by
  rcases hfields : notifyFields val with _ | fields
  · refine ⟨fun _ fields h => by simp at h, fun _ => ⟨fun _ => ?_, fun htrue => ?_⟩⟩
    · rw [parseNotify_of_none hfields]
    · rw [parseNotify_of_none hfields] at htrue
      cases htrue
  · obtain ⟨htrue, hjob⟩ := parseNotify_of_some env pool hfields
    constructor
    · rintro H _ ⟨⟩
      obtain ⟨_, hsome, hdecoded⟩ := H.installed htrue
      obtain rfl := Option.some.inj (hfields.symm.trans hsome)
      exact wellFormedNotify_of_decodedJob (hjob.mp hdecoded)
    · intro H
      refine ⟨fun hfalse => ?_, fun _ => ?_⟩
      · rw [htrue] at hfalse
        cases hfalse
      · exact ⟨fields, hfields, hjob.mpr (decodedJob_installJob (H fields rfl))⟩

/-- A text of zeros. -/
def zeroDigits (n : ℕ) : CStr := ⟨List.replicate n 0x30, by simp [List.mem_replicate]⟩

/-- A notify with one digit for the time. -/
def shortNtimeNotify : Json :=
  .array [.string (zeroDigits 1), .string (zeroDigits 64), .string (zeroDigits 2),
    .string (zeroDigits 2), .array [], .string (zeroDigits 8), .string (zeroDigits 8),
    .string ⟨[0x35], by decide⟩, .bool true]

/-- A pool that has subscribed and waits for its first job. -/
def subscribedPool : StratumPool where
  swork :=
    { nonce1 := some (zeroDigits 8), jobId := none, clean := false, coinbase := []
      nonce2Offset := 0, n2size := 0, merkles := 0, merkleBin := []
      header1 := .replicate 36 0, diffbits := .replicate 4 0, ntime := 0, tvReceived := 0
      ntimeRollLimits := ⟨0, 0, 0, 0, 0⟩, target := .replicate 32 0
      transparencyProbed := false, tvTransparencySet := false, isOpaque := false }
  nextTarget := .replicate 32 0
  submitOld := false
  goalname := none
  nextGoalname := none
  goalMalgo := ⟨"SHA256d", "SHA256d|SHA256|SHA2", fun outHash _ => outHash⟩
  nextGoalMalgo := none
  nextNonce1 := none
  n1Len := 4
  nextN2size := 4
  nonce2 := 0
  nonce2sz := 4
  probed := false
  stratumNotify := false
  adminMsg := none

/-- The notify is accepted, and the job keeps the bytes of the old time. -/
theorem not_installsDecoded_shortNtime :
    ¬ InstallsDecoded ⟨0, fun _ => 0, fun _ => 0, false⟩ subscribedPool
      (some shortNtimeNotify) := by
  intro H
  obtain ⟨fields, hfields, hdecoded⟩ := H.installed rfl
  obtain rfl := Option.some.inj hfields
  have hntime : decodeHex [0x35] = some _ := hdecoded.ntime.1
  cases hntime

end MassGridMiner

import MassGridMiner.Lib.Format
import MassGridMiner.Proxy.Subscribe
import MassGridMiner.Stratum.GenWork

/-!
# The coinbase that a miner behind the proxy assembles

`stratumsrv_update_notify_str` sends a job to the miners with the padding of the second
extranonce as text at the end of the first part of the coinbase.  A miner puts the value of
its subscription and an extranonce of its own behind it, and then the second part.  When it
submits, the proxy lays the same pieces out in binary, from the end of the gap.

## Main definitions

* `stratumsrvUpdateNotifyStr` — the job kept, and the parameters sent.
* `StratumsrvNotify.text` — the line, which fits the buffer allocated for it.
* `stratumsrvMiningSubmit` — what a submission hands to `work2d_submit_nonce`.
* `dummyWork` — the work that is rebuilt from it, with its extranonce and coinbase.
* `assembledCoinbase` — the coinbase of the miner.
-/

namespace MassGridMiner

/-- `work2d_pad_xnonce_size`. -/
def work2dPadXnonceSize (swork : StratumWork) : ℤ :=
  (swork.n2size : ℤ) - work2dXnonce1sz - work2dXnonce2sz

/-- What `work2d_pad_xnonce` writes; nothing where there is no room. -/
def work2dPadXnonce (swork : StratumWork) (hex : Bool) : List UInt8 :=
  let pad := work2dPadXnonceSize swork
  if pad < 0 then []
  else if hex then List.replicate (pad.toNat * 2) 0x62
  else List.replicate pad.toNat 0xbb

/-- `struct stratumsrv_job`, without its share difficulties. -/
structure StratumsrvJob where
  myJobId : List UInt8
  tvPrepared : ℕ
  swork : StratumWork

/-- The parameters of a notify to the miners. -/
structure StratumsrvNotify where
  jobId : List UInt8
  prevhash : List UInt8
  coinb1 : List UInt8
  coinb2 : List UInt8
  merkles : List (List UInt8)
  version : List UInt8
  nbits : List UInt8
  ntime : List UInt8
  clean : Bool

/-- What `stratumsrv_update_notify_str` reads besides the job of the pool: the time, the
number of the next job, whether the pool's job is usable, whether it is stale, and whether
the job it replaces is. -/
structure NotifyStrEnv where
  now : ℕ
  ssmJobid : UInt64
  usable : Bool
  isStale : Bool
  clean : Bool

/-- What `stratumsrv_update_notify_str` comes to. -/
inductive NotifyUpdate
  | fail
  | ignored
  | skipped
  | advertised (ssj : StratumsrvJob) (notify : StratumsrvNotify)

/-- A number in lower-case hexadecimal, as `%x` prints it. -/
def printHex (n : UInt64) : List UInt8 := literal (String.ofList (Nat.toDigits 16 n.toNat))

/-- `my_job_id`. -/
def myJobId (env : NotifyStrEnv) : List UInt8 :=
  printHex (UInt64.ofNat env.now) ++ literal "-" ++ printHex env.ssmJobid

/-- The new job is the last one, but for the gap in its coinbase. -/
def sameWork2d (swork last : StratumWork) : Bool :=
  let coinb2Offset := swork.nonce2Offset + swork.n2size
  swork.header1 == last.header1 && swork.nonce2Offset == last.nonce2Offset &&
    swork.coinbase.length == last.coinbase.length &&
    swork.coinbase.take swork.nonce2Offset == last.coinbase.take swork.nonce2Offset &&
    swork.coinbase.drop coinb2Offset == last.coinbase.drop coinb2Offset &&
    swork.diffbits == last.diffbits

/-- The parameters that are sent for a job. -/
def notifyParams (env : NotifyStrEnv) (swork : StratumWork) : StratumsrvNotify where
  jobId := myJobId env
  prevhash := bin2hex ((swork.header1.toList.drop 4).take 32)
  coinb1 := bin2hex (swork.coinbase.take swork.nonce2Offset) ++ work2dPadXnonce swork true
  coinb2 := bin2hex (swork.coinbase.drop (swork.nonce2Offset + swork.n2size))
  merkles := (List.range swork.merkles).map fun i =>
    bin2hex ((swork.merkleBin.drop (i * 32)).take 32)
  version := bin2hex (swork.header1.toList.take 4)
  nbits := bin2hex swork.diffbits.toList
  ntime := bin2hex (be32 (swork.ntime + UInt32.ofNat (env.now - swork.tvReceived)))
  clean := env.clean

/-- `stratumsrv_update_notify_str`, up to the job it keeps and the text it sends; `last` is
the job of `_ssm_last_ssj`. -/
def stratumsrvUpdateNotifyStr (env : NotifyStrEnv) (last : Option StratumWork)
    (swork : StratumWork) : NotifyUpdate :=
  if !env.usable then .fail
  else if env.isStale then .ignored
  else if last.any (sameWork2d swork) then .skipped
  else if work2dPadXnonceSize swork < 0 then .fail
  else .advertised { myJobId := myJobId env, tvPrepared := env.now, swork }
    (notifyParams env swork)

/-- The merkle links of the line, from the `i`-th on. -/
def merklesText (i : ℕ) : List (List UInt8) → List UInt8
  | [] => []
  | merkle :: rest =>
    (if i = 0 then [] else literal ",") ++ literal "\"" ++ merkle ++ literal "\"" ++
      merklesText (i + 1) rest

/-- What the line begins and ends with. -/
def notifyHead : String := "\x7b\"params\":[\"%s\",\"%s\",\"%s\",\"%s\",["
def notifyTail : String :=
  "],\"%s\",\"%s\",\"%s\",%s],\"method\":\"mining.notify\",\"id\":null\x7d\n"

/-- The line that is sent. -/
def StratumsrvNotify.text (notify : StratumsrvNotify) : List UInt8 :=
  format (literal notifyHead)
    [notify.jobId, notify.prevhash, notify.coinb1, notify.coinb2] ++
  merklesText 0 notify.merkles ++
  format (literal notifyTail)
    [notify.version, notify.nbits, notify.ntime,
      if notify.clean then literal "true" else literal "false"]

/-- `bufsz`, the size of the buffer that the line is formatted in. -/
def notifyBufsz (swork : StratumWork) (jobIdLen : ℕ) : ℕ :=
  let coinb1Lenx := swork.nonce2Offset * 2 + (work2dPadXnonceSize swork).toNat * 2
  let coinb2Lenx := (swork.coinbase.length - swork.nonce2Offset - swork.n2size) * 2
  24 + jobIdLen + 64 + coinb1Lenx + coinb2Lenx + swork.merkles * 67 + 49 + 8 + 8 + 8 + 5 + 1

/-! ## Submissions -/

/-- The parameters of a submission behind the name of the user. -/
structure SubmitParams where
  jobId : Option CStr
  extranonce2 : Option CStr
  ntime : Option CStr
  nonce : Option CStr

/-- What `work2d_submit_nonce` is given. -/
structure Submission where
  swork : StratumWork
  xnonce2 : Bytes 2
  xnonce1 : UInt32
  nonce : UInt32
  ntime : UInt32

/-- `hex2bin` into an array on the stack. -/
def hexArray (n : ℕ) (stack : Bytes n) (s : CStr) : Bytes n := stack.overwrite 0 (hexBytes s n)

/-- `stratumsrv_mining_submit`, up to the call of `work2d_submit_nonce`; the refusals are as
they are answered. -/
def stratumsrvMiningSubmit (jobs : List StratumsrvJob) (client : Bool)
    (stack : Bytes 2 × Bytes 4 × Bytes 4) (conn : StratumsrvConn) (params : SubmitParams) :
    Except (ℕ × String) Submission :=
  if !client then .error (20, "Failed creating new cgpu")
  else
    match params.jobId, params.extranonce2, params.ntime, params.nonce with
    | some jobId, some extranonce2, some ntime, some nonce =>
      if nonce.length < 8 then .error (20, "nonce too short")
      else if ntime.length < 8 then .error (20, "ntime too short")
      else if extranonce2.length < work2dXnonce2sz * 2 then .error (20, "extranonce2 too short")
      else
        match jobs.find? fun ssj => ssj.myJobId == jobId.bytes with
        | none => .error (21, "Job not found")
        | some ssj => .ok
          { swork := ssj.swork
            xnonce2 := hexArray 2 stack.1 extranonce2
            xnonce1 := conn.xnonce1Le
            ntime := ofBe32 (hexArray 4 stack.2.1 ntime).toList
            nonce := UInt32.ofNat (leNat (hexArray 4 stack.2.2 nonce).toList) }
    | _, _, _, _ => .error (20, "Couldn't understand parameters")

/-- The second extranonce that `work2d_gen_dummy_work` fills in, from the end; `mem` is what
newly allocated memory holds. -/
def work2dFillNonce2 (mem : ℕ → UInt8) (swork : StratumWork) (xnonce2 : Bytes 2)
    (xnonce1 : UInt32) : List UInt8 :=
  let p := swork.n2size - work2dXnonce2sz
  let s := writeAt (bytesResize [] swork.n2size mem) p xnonce2.toList
  let s := writeAt s (p - work2dXnonce1sz) ((le32 xnonce1).take work2dXnonce1sz)
  writeAt s 0 (work2dPadXnonce swork false)

section
variable (genHash : List UInt8 → Hash)

/-- `work2d_gen_dummy_work`, with the extranonce of the work and the job as it is left.  No
work where there is no room for the extranonce. -/
def dummyWork (now : ℕ) (mem : ℕ → UInt8) (pool : Pool) (sub : Submission) : Option Generated :=
  if sub.swork.n2size < work2dXnonce1sz + work2dXnonce2sz then none
  else
    let nonce2 := work2dFillNonce2 mem sub.swork sub.xnonce2 sub.xnonce1
    some
      { work := genStratumWork2 genHash now (work2dGenDummyWorkPrepare pool) sub.swork nonce2
        nonce2 := nonce2
        job := writeNonce2 sub.swork nonce2 }

/-- The pool's job, as it is left by the works generated from it since it was installed. -/
def IsJob (swork : StratumWork) : Prop :=
  ∃ pool es, Installed pool ∧ (generate genHash pool es).2.swork = swork

end

/-- The job of the proxy after submissions have been rebuilt from it. -/
def StratumsrvJob.afterSubmits (ssj : StratumsrvJob)
    (earlier : List ((ℕ → UInt8) × Bytes 2 × UInt32)) : StratumsrvJob :=
  { ssj with
    swork := earlier.foldl
      (fun swork sub => writeNonce2 swork (work2dFillNonce2 sub.1 swork sub.2.1 sub.2.2))
      ssj.swork }

/-- The coinbase that a miner assembles: the text of both parts with the value of its
subscription and its own extranonce between, decoded. -/
def assembledCoinbase (notify : StratumsrvNotify) (xnonce1x : List UInt8) (extranonce2 : CStr) :
    Option (List UInt8) :=
  decodeHex (notify.coinb1 ++ xnonce1x ++ extranonce2.bytes ++ notify.coinb2)

/-! ## The line -/

theorem length_merklesText_le {merkles : List (List UInt8)} (H : ∀ m ∈ merkles, m.length ≤ 64)
    (i : ℕ) : (merklesText i merkles).length ≤ 67 * merkles.length := by
  induction merkles generalizing i with
  | nil => exact Nat.zero_le _
  | cons merkle rest ih =>
      have hmerkle := H merkle (by simp)
      have hrest := ih (fun m hm => H m (by simp [hm])) (i + 1)
      have hcomma : (if i = 0 then [] else literal ",").length ≤ 1 := by
        split <;> decide +kernel
      have hquote : (literal "\"").length = 1 := by decide +kernel
      simp only [merklesText, List.length_append, List.length_cons, hquote]
      omega

theorem length_work2dPadXnonce (swork : StratumWork) :
    (work2dPadXnonce swork true).length = (work2dPadXnonceSize swork).toNat * 2 := by
  rw [work2dPadXnonce]
  split
  next hneg =>
    rw [Int.toNat_of_nonpos (by omega)]
    rfl
  next => simp

theorem notifyHead_spec : conversions (literal notifyHead) = 4 ∧
    (literal notifyHead).length = 24 + 2 * 4 := by
  decide +kernel

theorem notifyTail_spec : conversions (literal notifyTail) = 4 ∧
    (literal notifyTail).length = 49 + 2 * 4 := by
  decide +kernel

/-- The line is as long as its arguments and the two constants of the source. -/
theorem length_text (notify : StratumsrvNotify) :
    notify.text.length = 24 + notify.jobId.length + notify.prevhash.length +
      notify.coinb1.length + notify.coinb2.length + (merklesText 0 notify.merkles).length + 49 +
      notify.version.length + notify.nbits.length + notify.ntime.length +
      (if notify.clean then literal "true" else literal "false").length := by
  have hhead := length_format (show _ = [notify.jobId, notify.prevhash, notify.coinb1,
    notify.coinb2].length from notifyHead_spec.1)
  have htail := length_format (show _ = [notify.version, notify.nbits, notify.ntime,
    if notify.clean then literal "true" else literal "false"].length from notifyTail_spec.1)
  simp only [List.map_cons, List.map_nil, List.sum_cons, List.sum_nil, List.length_cons,
    List.length_nil, notifyHead_spec.2, notifyTail_spec.2] at hhead htail
  rw [StratumsrvNotify.text, List.length_append, List.length_append]
  omega

/-- **The line fits its buffer**, with the terminator behind it. -/
theorem length_text_lt (env : NotifyStrEnv) (swork : StratumWork) :
    (notifyParams env swork).text.length < notifyBufsz swork (myJobId env).length := by
  have hmerkles : (merklesText 0 (notifyParams env swork).merkles).length ≤ 67 * swork.merkles := by
    refine (length_merklesText_le (fun m hm => ?_) 0).trans_eq (by simp [notifyParams])
    obtain ⟨i, -, rfl⟩ := List.mem_map.mp hm
    rw [length_bin2hex, List.length_take]
    omega
  have hclean : (if (notifyParams env swork).clean then literal "true"
      else literal "false").length ≤ 5 := by
    split <;> decide +kernel
  rw [length_text, notifyBufsz]
  simp only [notifyParams, List.length_append, length_bin2hex, length_work2dPadXnonce,
    List.length_take, List.length_drop, Vector.length_toList, be32, List.length_cons,
    List.length_nil] at hmerkles hclean ⊢
  omega

/-! ## The two layouts -/

/-- What is laid out from the end of the gap, written down from its front. -/
theorem work2dFillNonce2_eq {mem : ℕ → UInt8} {swork : StratumWork} {xnonce2 : Bytes 2}
    {xnonce1 : UInt32} (H : work2dXnonce1sz + work2dXnonce2sz ≤ swork.n2size) :
    work2dFillNonce2 mem swork xnonce2 xnonce1 =
      List.replicate (swork.n2size - work2dXnonce1sz - work2dXnonce2sz) 0xbb ++
        [xnonce1.toUInt8] ++ xnonce2.toList := by
  simp only [work2dXnonce1sz, work2dXnonce2sz] at H ⊢
  set buf := bytesResize [] swork.n2size mem with hbuf
  have hlen : buf.length = swork.n2size := by rw [hbuf, length_bytesResize]
  have hx2 : xnonce2.toList.length = 2 := Vector.length_toList
  have hpad : work2dPadXnonce swork false = List.replicate (swork.n2size - 1 - 2) 0xbb := by
    have hsize : work2dPadXnonceSize swork = ((swork.n2size - 1 - 2 : ℕ) : ℤ) := by
      simp only [work2dPadXnonceSize, work2dXnonce1sz, work2dXnonce2sz]
      omega
    simp [work2dPadXnonce, hsize]
  -- the buffer in the three pieces that are written to
  obtain ⟨front, one, two, hpieces, hfront, hone, htwo⟩ : ∃ front one two : List UInt8,
      buf = front ++ (one ++ two) ∧ front.length = swork.n2size - 1 - 2 ∧ one.length = 1 ∧
        two.length = 2 := by
    refine ⟨buf.take (swork.n2size - 1 - 2), (buf.drop (swork.n2size - 1 - 2)).take 1,
      (buf.drop (swork.n2size - 1 - 2)).drop 1, ?_, ?_, ?_, ?_⟩
    · rw [List.take_append_drop, List.take_append_drop]
    · rw [List.length_take]
      omega
    · rw [List.length_take, List.length_drop]
      omega
    · rw [List.length_drop, List.length_drop]
      omega
  have hsecond :
      writeAt buf (swork.n2size - 2) xnonce2.toList = front ++ one ++ xnonce2.toList := by
    have hwrite := writeAt_append (front ++ one) two xnonce2.toList
    rwa [List.length_append, hfront, hone,
      show swork.n2size - 1 - 2 + 1 = swork.n2size - 2 by omega, List.append_assoc, ← hpieces, hx2,
      List.drop_eq_nil_of_le htwo.le, List.append_nil] at hwrite
  have hfirst : writeAt (front ++ one ++ xnonce2.toList) (swork.n2size - 2 - 1)
      ((le32 xnonce1).take 1) = front ++ [xnonce1.toUInt8] ++ xnonce2.toList := by
    have hwrite := writeAt_append front (one ++ xnonce2.toList) [xnonce1.toUInt8]
    rwa [hfront, ← List.append_assoc, show swork.n2size - 1 - 2 = swork.n2size - 2 - 1 by omega,
      List.length_singleton, List.drop_left' hone] at hwrite
  rw [work2dFillNonce2, work2dXnonce1sz, work2dXnonce2sz, ← hbuf, hsecond, hfirst, hpad,
    writeAt_zero, List.length_replicate, ← hfront, List.append_assoc, List.drop_left,
    List.append_assoc]

theorem length_work2dFillNonce2 {mem : ℕ → UInt8} {swork : StratumWork} {xnonce2 : Bytes 2}
    {xnonce1 : UInt32} (H : work2dXnonce1sz + work2dXnonce2sz ≤ swork.n2size) :
    (work2dFillNonce2 mem swork xnonce2 xnonce1).length = swork.n2size := by
  rw [work2dFillNonce2_eq H]
  simp only [work2dXnonce1sz, work2dXnonce2sz, List.length_append, List.length_replicate,
    List.length_singleton, Vector.length_toList] at H ⊢
  omega

/-- The text that is sent and the extranonce of the miner spell the coinbase with the gap
filled in. -/
theorem assembledCoinbase_eq {env : NotifyStrEnv} {swork : StratumWork} {mem : ℕ → UInt8}
    {xnonce2 : Bytes 2} {xnonce1 : UInt32} {extranonce2 : CStr}
    (H : work2dXnonce1sz + work2dXnonce2sz ≤ swork.n2size)
    (hextra : decodeHex extranonce2.bytes = some xnonce2.toList) :
    assembledCoinbase (notifyParams env swork) (bin2hex ((le32 xnonce1).take work2dXnonce1sz))
      extranonce2 = some (swork.fillGap (work2dFillNonce2 mem swork xnonce2 xnonce1)) := by
  have hpad : work2dPadXnonce swork true =
      List.replicate ((swork.n2size - work2dXnonce1sz - work2dXnonce2sz) * 2) 0x62 := by
    have hsize : work2dPadXnonceSize swork =
        ((swork.n2size - work2dXnonce1sz - work2dXnonce2sz : ℕ) : ℤ) := by
      rw [work2dPadXnonceSize]
      omega
    simp [work2dPadXnonce, hsize]
  have hcoinb1 : decodeHex (notifyParams env swork).coinb1 =
      some (swork.coinbase.take swork.nonce2Offset ++
        List.replicate (swork.n2size - work2dXnonce1sz - work2dXnonce2sz) 0xbb) := by
    rw [notifyParams, hpad]
    exact decodeHex_append (decodeHex_bin2hex _) (decodeHex_replicate (by rfl) _)
  have hcoinb2 : decodeHex (notifyParams env swork).coinb2 =
      some (swork.coinbase.drop (swork.nonce2Offset + swork.n2size)) := decodeHex_bin2hex _
  rw [assembledCoinbase, decodeHex_append (decodeHex_append (decodeHex_append hcoinb1
    (decodeHex_bin2hex _)) hextra) hcoinb2, work2dFillNonce2_eq H, StratumWork.fillGap]
  simp only [List.append_assoc, work2dXnonce1sz, le32, List.take_succ_cons, List.take_zero]

/-- The work is over the coinbase that is left in the job. -/
theorem dummyWork_work (genHash : List UInt8 → Hash) (now : ℕ) (mem : ℕ → UInt8) (pool : Pool)
    (sub : Submission) :
    (dummyWork genHash now mem pool sub).map Generated.work =
      work2dGenDummyWork genHash now pool sub.swork sub.xnonce2 sub.xnonce1 := by
  rw [dummyWork, work2dGenDummyWork]
  split
  next => rfl
  next hroom => rw [Option.map_some, work2dFillNonce2_eq (by omega)]

/-! ## Jobs -/

theorem IsJob.hasGap {genHash : List UInt8 → Hash} {swork : StratumWork}
    (H : IsJob genHash swork) : swork.HasGap := by
  obtain ⟨pool, es, hinstalled, rfl⟩ := H
  have hready := hinstalled.ready
  obtain ⟨c, hserving⟩ := hready.serving.exists_generate genHash hready.hasGap es
  exact hserving.hasGap hready.hasGap

/-- What was submitted for a job before has only changed the gap of its coinbase. -/
theorem StratumsrvJob.afterSubmits_swork (ssj : StratumsrvJob) (hgap : ssj.swork.HasGap)
    (hroom : work2dXnonce1sz + work2dXnonce2sz ≤ ssj.swork.n2size)
    (earlier : List ((ℕ → UInt8) × Bytes 2 × UInt32)) :
    ∃ gap, gap.length = ssj.swork.n2size ∧
      (ssj.afterSubmits earlier).swork = ssj.swork.withGap gap := by
  have hrun : ∀ gap : List UInt8, gap.length = ssj.swork.n2size →
      ∃ gap' : List UInt8, gap'.length = ssj.swork.n2size ∧
        earlier.foldl
          (fun swork sub => writeNonce2 swork (work2dFillNonce2 sub.1 swork sub.2.1 sub.2.2))
          (ssj.swork.withGap gap) = ssj.swork.withGap gap' := by
    induction earlier with
    | nil => exact fun gap hlen => ⟨gap, hlen, rfl⟩
    | cons sub earlier ih =>
        intro gap hlen
        have hfill : (work2dFillNonce2 sub.1 (ssj.swork.withGap gap) sub.2.1 sub.2.2).length =
            ssj.swork.n2size := length_work2dFillNonce2 hroom
        rw [List.foldl_cons, writeNonce2_withGap hgap hlen hfill]
        exact ih _ hfill
  obtain ⟨gap, hlen, hswork⟩ := hrun
    ((ssj.swork.coinbase.drop ssj.swork.nonce2Offset).take ssj.swork.n2size) (by
      rw [StratumWork.HasGap] at hgap
      rw [List.length_take, List.length_drop]
      omega)
  rw [StratumWork.withGap_self] at hswork
  exact ⟨gap, hlen, hswork⟩

/-! ## A subscription and a submission -/

theorem Stratumsrv.find_grant {s : Stratumsrv} {conn : ℕ} {c : StratumsrvConn}
    (H : s.find conn = some c) (reserved : Work2dReserved) (xnonce1 : UInt32) :
    Stratumsrv.find { s with reserved := reserved, connections := s.grant conn xnonce1 } conn =
      some { c with xnonce1Le := xnonce1, subscribed := true } := by
  have hident := (Stratumsrv.mem_of_find H).2
  rw [Stratumsrv.find] at H
  have hsame : ((fun c : StratumsrvConn => c.ident == conn) ∘ fun c : StratumsrvConn =>
      if c.ident = conn then { c with xnonce1Le := xnonce1, subscribed := true } else c) =
      fun c => c.ident == conn := by
    funext c
    simp only [Function.comp]
    split <;> rfl
  rw [Stratumsrv.find, Stratumsrv.grant, List.find?_map, hsame, H, Option.map_some, if_pos hident]

/-- A subscription spells the low byte of the value that it leaves the connection with. -/
theorem Stratumsrv.miningSubscribe_granted {s s' : Stratumsrv} {conn : ℕ}
    {c c' : StratumsrvConn} {xnonce1x : List UInt8} (hfind : s.find conn = some c)
    (hsubscribe : s.miningSubscribe true c = (s', .granted xnonce1x))
    (hfind' : s'.find conn = some c') :
    xnonce1x = bin2hex ((le32 c'.xnonce1Le).take work2dXnonce1sz) := by
  have hident := (Stratumsrv.mem_of_find hfind).2
  simp only [Stratumsrv.miningSubscribe, Bool.not_true, Bool.false_eq_true, if_false] at hsubscribe
  split at hsubscribe
  next hnone =>
    split at hsubscribe
    next => cases (Prod.mk.inj hsubscribe).2
    next reserved xnonce1 hreserve =>
      obtain ⟨rfl, hanswer⟩ := Prod.mk.inj hsubscribe
      rw [hident, Stratumsrv.find_grant hfind] at hfind'
      obtain rfl := Option.some.inj hfind'
      exact (SubscribeAnswer.granted.inj hanswer).symm
  next hvalue =>
    obtain ⟨rfl, hanswer⟩ := Prod.mk.inj hsubscribe
    obtain rfl := Option.some.inj (hfind.symm.trans hfind')
    exact (SubscribeAnswer.granted.inj hanswer).symm

/-- What a submission that is not refused hands on. -/
theorem stratumsrvMiningSubmit_ok {jobs : List StratumsrvJob} {client : Bool}
    {stack : Bytes 2 × Bytes 4 × Bytes 4} {conn : StratumsrvConn} {jobId extranonce2 : CStr}
    {ntime nonce : Option CStr} {sub : Submission} {xnonce2 : Bytes 2} {ssj : StratumsrvJob}
    (H : stratumsrvMiningSubmit jobs client stack conn
        ⟨some jobId, some extranonce2, ntime, nonce⟩ = .ok sub)
    (hextra : decodeHex extranonce2.bytes = some xnonce2.toList)
    (hfind : jobs.find? (fun ssj => ssj.myJobId == jobId.bytes) = some ssj) :
    sub.swork = ssj.swork ∧ sub.xnonce2 = xnonce2 ∧ sub.xnonce1 = conn.xnonce1Le := by
  have hxnonce2 : hexArray 2 stack.1 extranonce2 = xnonce2 := by
    have hdecoded : Decodes extranonce2 xnonce2.toList 2 := ⟨hextra, Vector.length_toList⟩
    apply Vector.toList_inj.mp
    rw [hexArray, hdecoded.hexBytes_eq, Bytes.toList_overwrite _ (by simp), writeAt_zero,
      List.drop_eq_nil_of_le (by simp), List.append_nil]
  cases client with
  | false => cases H
  | true =>
      rcases ntime with _ | ntime
      · cases H
      rcases nonce with _ | nonce
      · cases H
      simp only [stratumsrvMiningSubmit, Bool.not_true, Bool.false_eq_true, if_false, hfind] at H
      split at H
      · cases H
      split at H
      · cases H
      split at H
      · cases H
      obtain rfl := Except.ok.inj H
      exact ⟨rfl, hxnonce2, rfl⟩

/-- A job is advertised as it is, and only where there is room for the two values. -/
theorem stratumsrvUpdateNotifyStr_advertised {env : NotifyStrEnv} {last : Option StratumWork}
    {swork : StratumWork} {ssj : StratumsrvJob} {notify : StratumsrvNotify}
    (H : stratumsrvUpdateNotifyStr env last swork = .advertised ssj notify) :
    work2dXnonce1sz + work2dXnonce2sz ≤ swork.n2size ∧
      ssj = { myJobId := myJobId env, tvPrepared := env.now, swork } ∧
        notify = notifyParams env swork := by
  rw [stratumsrvUpdateNotifyStr] at H
  split at H
  · cases H
  split at H
  · cases H
  split at H
  · cases H
  split at H
  · cases H
  next hroom =>
    obtain ⟨rfl, rfl⟩ := NotifyUpdate.advertised.inj H
    refine ⟨?_, rfl, rfl⟩
    rw [work2dPadXnonceSize] at hroom
    omega

/-- The coinbase of the miner is the one that is rebuilt, and the extranonce of the rebuilt
work is what fills the gap. -/
structure CoinbaseAgrees (notify : StratumsrvNotify) (xnonce1x : List UInt8) (extranonce2 : CStr)
    (g : Generated) : Prop where
  coinbase_eq : assembledCoinbase notify xnonce1x extranonce2 = some g.job.coinbase
  nonce2_eq : g.nonce2 = (g.job.coinbase.drop g.job.nonce2Offset).take g.job.n2size
  length_nonce2 : g.nonce2.length = g.job.n2size

section
variable {genHash : List UInt8 → Hash}

/-- **Miner and proxy mine the same coinbase.**  Whatever job is advertised, whatever value a
connection subscribes with and whatever two bytes its miner adds, the submission is rebuilt
over the coinbase that the miner has put together. -/
theorem coinbaseAgrees {swork : StratumWork} (hjob : IsJob genHash swork)
    -- the job is advertised
    {env : NotifyStrEnv} {last : Option StratumWork} {ssj : StratumsrvJob}
    {notify : StratumsrvNotify}
    (hnotify : stratumsrvUpdateNotifyStr env last swork = .advertised ssj notify)
    -- the miner subscribes
    {s s' : Stratumsrv} {conn : ℕ} {c c' : StratumsrvConn} {xnonce1x : List UInt8}
    (hfind : s.find conn = some c)
    (hsubscribe : s.miningSubscribe true c = (s', .granted xnonce1x))
    (hfind' : s'.find conn = some c')
    -- and submits, when others have done so before
    {jobs : List StratumsrvJob} {client : Bool} {stack : Bytes 2 × Bytes 4 × Bytes 4}
    {jobId extranonce2 : CStr} {ntime nonce : Option CStr} {sub : Submission} {xnonce2 : Bytes 2}
    (hextra : decodeHex extranonce2.bytes = some xnonce2.toList)
    (earlier : List ((ℕ → UInt8) × Bytes 2 × UInt32))
    (hfindJob : jobs.find? (fun ssj => ssj.myJobId == jobId.bytes) =
      some (ssj.afterSubmits earlier))
    (hsubmit : stratumsrvMiningSubmit jobs client stack c'
      ⟨some jobId, some extranonce2, ntime, nonce⟩ = .ok sub)
    (now : ℕ) (mem : ℕ → UInt8) (pool : Pool) :
    ∃ g, dummyWork genHash now mem pool sub = some g ∧
      CoinbaseAgrees notify xnonce1x extranonce2 g := by
  have hgap := hjob.hasGap
  obtain ⟨hroom, rfl, rfl⟩ := stratumsrvUpdateNotifyStr_advertised hnotify
  obtain rfl := Stratumsrv.miningSubscribe_granted hfind hsubscribe hfind'
  obtain ⟨hswork, rfl, hxnonce1⟩ := stratumsrvMiningSubmit_ok hsubmit hextra hfindJob
  obtain ⟨gap, hlen, hafter⟩ := StratumsrvJob.afterSubmits_swork ⟨_, _, swork⟩ hgap hroom
    earlier
  rw [hafter] at hswork
  have hroom' : work2dXnonce1sz + work2dXnonce2sz ≤ sub.swork.n2size := by
    rw [hswork]
    exact hroom
  have hfill : work2dFillNonce2 mem sub.swork sub.xnonce2 sub.xnonce1 =
      work2dFillNonce2 mem swork sub.xnonce2 c'.xnonce1Le := by
    rw [hswork, hxnonce1]
    rfl
  have hnonce2 : (work2dFillNonce2 mem swork sub.xnonce2 c'.xnonce1Le).length = swork.n2size :=
    length_work2dFillNonce2 hroom
  have hleft : writeNonce2 sub.swork (work2dFillNonce2 mem sub.swork sub.xnonce2 sub.xnonce1) =
      swork.withGap (work2dFillNonce2 mem swork sub.xnonce2 c'.xnonce1Le) := by
    rw [hfill, hswork]
    exact writeNonce2_withGap hgap hlen hnonce2
  refine ⟨_, by rw [dummyWork, if_neg (by omega)], ?_⟩
  constructor
  · dsimp only
    rw [hleft]
    exact assembledCoinbase_eq hroom hextra
  · dsimp only
    rw [hleft, hfill]
    exact (StratumWork.take_drop_fillGap hgap hnonce2).symm
  · dsimp only
    rw [hleft, hfill]
    exact hnonce2

end

/-- A job with a gap of four bytes, and the proxy when one miner has connected. -/
def zeroSwork : StratumWork :=
  (parseNotify ⟨0, fun _ => 0, fun _ => 0, false⟩ subscribedPool (some zeroNotify)).2.swork

def zeroStrEnv : NotifyStrEnv := ⟨0, 0, true, false, true⟩

def zeroSsj : StratumsrvJob := ⟨myJobId zeroStrEnv, 0, zeroSwork⟩

theorem nul_free_zeroSsj : 0 ∉ zeroSsj.myJobId := by decide +kernel

theorem coinbaseAgrees_zero :
    ∃ sub, stratumsrvMiningSubmit [zeroSsj] true (.replicate 2 1, .replicate 4 1, .replicate 4 1)
        ⟨0, 255, true⟩ ⟨some ⟨zeroSsj.myJobId, nul_free_zeroSsj⟩, some (zeroDigits 4),
          some (zeroDigits 8), some (zeroDigits 8)⟩ = .ok sub ∧
      ∃ g, dummyWork (fun _ => Hash.zero) 0 (fun _ => 7) ⟨.no, true, Hash.ones⟩ sub = some g ∧
        CoinbaseAgrees (notifyParams zeroStrEnv zeroSwork) [0x66, 0x66] (zeroDigits 4) g := by
  have hjob : IsJob (fun _ => Hash.zero) zeroSwork := ⟨_, [], .notify ⟨0, fun _ => 0, fun _ => 0,
    false⟩ subscribedPool (some zeroNotify) rfl, rfl⟩
  have hfind : Stratumsrv.init.listen.find 0 = some ⟨0, 0, false⟩ := by rfl
  have hnotify : stratumsrvUpdateNotifyStr zeroStrEnv none zeroSwork =
    .advertised zeroSsj (notifyParams zeroStrEnv zeroSwork) := by rfl
  have hsubscribe : Stratumsrv.init.listen.miningSubscribe true ⟨0, 0, false⟩ =
    ((Stratumsrv.init.listen.miningSubscribe true ⟨0, 0, false⟩).1, .granted [0x66, 0x66]) := by
    rfl
  have hextra : decodeHex (zeroDigits 4).bytes = some (Vector.replicate 2 0).toList := by rfl
  have hfind' : (Stratumsrv.init.listen.miningSubscribe true ⟨0, 0, false⟩).1.find 0 =
    some ⟨0, 255, true⟩ := by rfl
  have hfindJob : [zeroSsj].find? (fun ssj => ssj.myJobId == zeroSsj.myJobId) =
    some (zeroSsj.afterSubmits []) := by simp [StratumsrvJob.afterSubmits]
  obtain ⟨sub, hsubmit⟩ : ∃ sub, stratumsrvMiningSubmit [zeroSsj] true
      (.replicate 2 1, .replicate 4 1, .replicate 4 1) ⟨0, 255, true⟩
      ⟨some ⟨zeroSsj.myJobId, nul_free_zeroSsj⟩, some (zeroDigits 4), some (zeroDigits 8),
        some (zeroDigits 8)⟩ = .ok sub := by
    simp only [stratumsrvMiningSubmit, hfindJob]
    exact ⟨_, rfl⟩
  exact ⟨sub, hsubmit,
    coinbaseAgrees hjob hnotify hfind hsubscribe hfind' hextra [] hfindJob hsubmit 0 _ _⟩

end MassGridMiner

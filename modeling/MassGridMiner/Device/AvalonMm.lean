import MassGridMiner.Difficulty
import MassGridMiner.Lib.Run
import MassGridMiner.Share.Work2d
import MassGridMiner.Util.Checksum

/-!
# Avalon MM modules

A module gets a job of a stratum pool in packets, and goes through extranonces of four bytes on
its own.  The driver has fewer bytes to give away, and has the others keep their values by the
range that it announces.  A reply names its job by a number, which is looked up among the last
jobs.

## Main definitions

* `AvalonMm.writeCmd`, `AvalonMm.sendSwork` — the packets of a command, and those of a job.
* `AvalonMm.hashedCoinbase`, `AvalonMm.rebuiltCoinbase` — the coinbase that a module hashes, and
  the one that is rebuilt from its reply.
* `AvalonMm.History.step` — uploads and replies.
* `AvalonMm.right_iff_roomy` — the two agree exactly for jobs with room for the extranonces.
-/

namespace MassGridMiner
namespace AvalonMm

/-! ## Packets -/

/-- An entry of `crc16tab`. -/
def crc16tab (i : UInt8) : UInt16 :=
  (List.range 8).foldl (fun crc _ =>
    if crc &&& 0x8000 ≠ 0 then crc <<< 1 ^^^ 0x1021 else crc <<< 1) (i.toUInt16 <<< 8)

/-- `crc16`, from `crc16_floating` for each byte. -/
def crc16 (s : List UInt8) (crc : UInt16) : UInt16 :=
  s.foldl (fun crc b => crc <<< 8 ^^^ crc16tab ((crc >>> 8).toUInt8 ^^^ b)) crc

def crc16xmodem (s : List UInt8) : UInt16 := crc16 s 0

/-- The entries of the table, as they are written out. -/
theorem crc16tab_getElem? (i : UInt8) : Checksum.crc16tab[i.toNat]? = some (crc16tab i) := by
  have hall : ∀ j : Fin 256, Checksum.crc16tab[j.val]? = some (crc16tab (UInt8.ofNat j)) := by
    decide +kernel
  have hi := hall ⟨i.toNat, i.toNat_lt⟩
  rwa [UInt8.ofNat_toNat] at hi

/-- The checksum never looks outside of the table. -/
theorem checksum_crc16 (s : List UInt8) (crc : UInt16) :
    Checksum.crc16 s crc = some (crc16 s crc) := by
  induction s generalizing crc with
  | nil => rfl
  | cons b s ih =>
    rw [Checksum.crc16, List.foldlM_cons, Checksum.crc16Floating, Checksum.index_crc16Floating,
      crc16tab_getElem?, Option.map_some, Checksum.and_mask]
    exact ih _

/-- The commands that a job is sent with. -/
inductive Cmd
  | newJob
  | jobId
  | coinbase
  | merkles
  | blkhdr
  | target
  | start
  deriving DecidableEq

def Cmd.code : Cmd → UInt8
  | .newJob => 0x0b
  | .jobId => 0x0c
  | .coinbase => 0x0d
  | .merkles => 0x0e
  | .blkhdr => 0x0f
  | .target => 0x11
  | .start => 0x13

/-- A packet with up to 32 bytes. -/
def packet (cmd : Cmd) (n packets : UInt8) (data : List UInt8) : List UInt8 :=
  let data := data ++ List.replicate (0x20 - data.length) 0
  let crc := crc16xmodem data
  [0x41, 0x56, cmd.code, n, packets] ++ data ++ [(crc >>> 8).toUInt8, crc.toUInt8]

/-- The loop of `avalonmm_write_cmd`. -/
def writeLoop (cmd : Cmd) (packets n : UInt8) (data : List UInt8) : List (List UInt8) :=
  packet cmd n packets (data.take 0x20) ::
    if 0x20 < data.length then writeLoop cmd packets (n + 1) (data.drop 0x20) else []
termination_by data.length
decreasing_by simp; omega

/-- `avalonmm_write_cmd`, where every write succeeds. -/
def writeCmd (cmd : Cmd) (data : List UInt8) : List (List UInt8) :=
  writeLoop cmd (UInt8.ofNat (max ((data.length + 0x20 - 1) / 0x20) 1)) 1 data

/-! ## Jobs -/

/-- `struct avalonmm_job`, without its time. -/
structure Job where
  jobid : UInt32
  swork : StratumWork
  nonceDiff : Float

/-- `struct avalonmm_chain_state`. -/
structure Chain where
  xnonce1 : UInt32
  jobs : Vector (Option Job) 2
  nextJobid : UInt32
  fanDesired : UInt32
  clockDesired : UInt32
  voltcfgDesired : UInt32

/-- Whether `avalonmm_send_swork` takes a job. -/
def accepts (swork : StratumWork) : Bool :=
  swork.coinbase.length ≤ 6 * 1024 && swork.merkles ≤ 20

/-- The bytes of an extranonce that keep their values. -/
def fixedMmXnonce2Bytes : ℕ := if 4 ≤ work2dXnonce2sz then 0 else 4 - work2dXnonce2sz

/-- `avalonmm_send_swork` for a job that it takes: the packets, and the difficulty.  None is a byte
of the coinbase that there is not. -/
def sendSwork (chain : Chain) (swork : StratumWork) (jobid : UInt32) :
    Option (List (List UInt8) × Float) := do
  let pad : ℤ := swork.n2size - work2dXnonce1sz - work2dXnonce2sz
  let newJob := be32 (UInt32.ofNat swork.coinbase.length) ++
    be32 (UInt32.ofInt (swork.nonce2Offset + pad + work2dXnonce1sz)) ++ be32 4 ++ be32 0x24 ++
    be32 (UInt32.ofNat swork.merkles) ++ be32 1 ++ be32 0
  let nonceDiff := targetDiff swork.target
  let target := if 0x20 ≤ nonceDiff then setTargetToPdiff 0x20 else swork.target
  let coinbase ← if pad < 0 then some swork.coinbase
    else memcpy swork.coinbase swork.nonce2Offset (List.replicate pad.toNat 0xbb)
  let cbp := swork.nonce2Offset + pad
  let coinbase ← if cbp < 0 then none else memcpy coinbase cbp.toNat [chain.xnonce1.toUInt8]
  let header := swork.header1.toList ++ List.replicate 0x20 0 ++ be32 swork.ntime ++
    swork.diffbits.toList ++ List.replicate 4 0 ++ workpaddingBin
  let cbp := cbp.toNat + work2dXnonce1sz + work2dXnonce2sz
  let following ← (List.range fixedMmXnonce2Bytes).mapM fun i => coinbase[cbp + i]?
  let mmXnonce2Start := following.reverse ++ List.replicate (4 - fixedMmXnonce2Bytes) 0
  let xnonce2Range : UInt32 :=
    if 0 < fixedMmXnonce2Bytes then 1 <<< (8 * UInt32.ofNat work2dXnonce2sz) - 1 else 0xffffffff
  let start := be32 chain.fanDesired ++ be32 chain.voltcfgDesired ++ be32 chain.clockDesired ++
    mmXnonce2Start ++ be32 xnonce2Range
  some (writeCmd .newJob newJob ++ writeCmd .target target.toList ++ writeCmd .jobId (be32 jobid) ++
    writeCmd .coinbase coinbase ++ writeCmd .merkles swork.merkleBin ++ writeCmd .blkhdr header ++
    writeCmd .start start, if 0x20 ≤ nonceDiff then 0x20 else nonceDiff)

/-! ## The module -/

/-- The bytes that a packet carries. -/
def payload (pkt : List UInt8) : List UInt8 := (pkt.drop 5).take 0x20

/-- What arrives with a command. -/
def received (cmd : Cmd) (pkts : List (List UInt8)) : List UInt8 :=
  (pkts.filter fun pkt => pkt[2]? = some cmd.code).flatMap payload

/-- The number in four bytes from an index on. -/
def word (data : List UInt8) (off : ℕ) : UInt32 := ofBe32 ((data.drop off).take 4)

/-- An extranonce in the range that is announced. -/
def Announced (pkts : List (List UInt8)) (v : UInt32) : Prop :=
  (word (received .start pkts) 0xc).toNat ≤ v.toNat ∧
    v.toNat ≤ (word (received .start pkts) 0xc).toNat + (word (received .start pkts) 0x10).toNat

/-- The coinbase that a module hashes for an extranonce. -/
def hashedCoinbase (pkts : List (List UInt8)) (v : UInt32) : List UInt8 :=
  writeAt ((received .coinbase pkts).take (word (received .newJob pkts) 0).toNat)
    (word (received .newJob pkts) 4).toNat (le32 v)

/-! ## Replies -/

/-- The second extranonce of a reply, which has its bytes the other way round. -/
def replyXnonce2 (buf : Bytes 0x20) : Bytes 2 :=
  Vector.ofFn fun i : Fin 2 =>
    (buf[8 + fixedMmXnonce2Bytes + (work2dXnonce2sz - 1 - i.val)]?).getD 0

def replyNonce (buf : Bytes 0x20) : UInt32 := word buf.toList 0x10 - 0x180

def replyJobid (buf : Bytes 0x20) : UInt32 := word buf.toList 0x14

/-- A reply with an extranonce. -/
def Reports (buf : Bytes 0x20) (v : UInt32) : Prop := (buf.toList.drop 8).take 4 = be32 v

/-- The entry of the jobs for a number. -/
def jobIndex (jobid : UInt32) : Fin 2 := ⟨jobid.toNat % 2, Nat.mod_lt _ (by decide)⟩

/-- A number that is not one of the last two. -/
def invalidJobid (chain : Chain) (jobid : UInt32) : Bool :=
  if chain.nextJobid < chain.nextJobid - 2 then
    jobid < chain.nextJobid - 2 && chain.nextJobid ≤ jobid
  else jobid < chain.nextJobid - 2 || chain.nextJobid ≤ jobid

/-- The part of `avalonmm_poll_once` that finds the job of a nonce, from a module that is known or
not. -/
def creditedJob (chain : Chain) (buf : Bytes 0x20) (known : Bool) : Option Job :=
  if !known then none
  else if invalidJobid chain (replyJobid buf) then none
  else chain.jobs.get (jobIndex (replyJobid buf))

/-- The coinbase of the work that `work2d_submit_nonce` submits. -/
def rebuiltCoinbase (swork : StratumWork) (xnonce2 : Bytes 2) (xnonce1 : UInt32) :
    Option (List UInt8) :=
  if swork.n2size < work2dXnonce1sz + work2dXnonce2sz then none
  else
    memcpy swork.coinbase swork.nonce2Offset
      (List.replicate (swork.n2size - work2dXnonce1sz - work2dXnonce2sz) 0xbb ++
        [xnonce1.toUInt8] ++ xnonce2.toList)

/-- It is that of `work2d_gen_dummy_work`. -/
theorem work2dGenDummyWork_eq {swork : StratumWork} {xnonce2 : Bytes 2} {xnonce1 : UInt32}
    {coinbase : List UInt8} (h : rebuiltCoinbase swork xnonce2 xnonce1 = some coinbase)
    (genHash : List UInt8 → Hash) (now : ℕ) (pool : Pool) :
    work2dGenDummyWork genHash now pool swork xnonce2 xnonce1 =
      some (genStratumWork3 genHash now (work2dGenDummyWorkPrepare pool)
        { swork with coinbase := coinbase }) := by
  rw [rebuiltCoinbase] at h
  rw [work2dGenDummyWork]
  split at h
  · cases h
  · next hsize =>
    rw [if_neg hsize]
    rw [memcpy] at h
    split at h
    · obtain rfl := Option.some.inj h
      rfl
    · cases h

/-! ## Uploads and replies -/

/-- A job that was sent. -/
structure Upload where
  jobid : UInt32
  pkts : List (List UInt8)

/-- The driver, with all jobs that were sent. -/
structure History where
  chain : Chain
  uploads : List Upload

/-- A job is sent, where every write succeeds or not; a nonce is reported; and other settings of
the fan, the clock and the voltage are chosen. -/
inductive Event
  | update (swork : StratumWork) (written : Bool)
  | nonce (buf : Bytes 0x20) (known : Bool)
  | settings (fanDesired clockDesired voltcfgDesired : UInt32)

namespace History

/-- `avalonmm_update_swork_from_pool` for a job that is sent. -/
def upload (s : History) (swork : StratumWork) : History :=
  let (pkts, nonceDiff) := (sendSwork s.chain swork s.chain.nextJobid).getD ([], 0)
  { chain := { s.chain with
      nextJobid := s.chain.nextJobid + 1
      jobs := s.chain.jobs.set (jobIndex s.chain.nextJobid)
        (some ⟨s.chain.nextJobid, swork, nonceDiff⟩) }
    uploads := s.uploads ++ [⟨s.chain.nextJobid, pkts⟩] }

/-- The rebuilt coinbase stays in the job. -/
def credit (s : History) (buf : Bytes 0x20) (job : Job) : History :=
  match rebuiltCoinbase job.swork (replyXnonce2 buf) s.chain.xnonce1 with
  | none => s
  | some coinbase =>
    { s with chain := { s.chain with
        jobs := s.chain.jobs.set (jobIndex (replyJobid buf))
          (some { job with swork := { job.swork with coinbase := coinbase } })
          (jobIndex (replyJobid buf)).isLt } }

/-- One step. -/
def step (s : History) : Event → Option History
  | .update swork written => some (if accepts swork && written then s.upload swork else s)
  | .nonce buf known =>
    match creditedJob s.chain buf known with
    | none => some s
    | some job => some (s.credit buf job)
  | .settings fanDesired clockDesired voltcfgDesired =>
    some { s with chain := { s.chain with
      fanDesired := fanDesired, clockDesired := clockDesired, voltcfgDesired := voltcfgDesired } }

/-- Before any job is sent. -/
def init (xnonce1 fanDesired clockDesired voltcfgDesired : UInt32) : History where
  chain := ⟨xnonce1, Vector.replicate 2 none, 0, fanDesired, clockDesired, voltcfgDesired⟩
  uploads := []

end History

/-! ## What is expected -/

/-- For each extranonce that is announced the coinbase that is rebuilt from the reply is the one
that the module hashed. -/
def Serves (xnonce1 : UInt32) (swork : StratumWork) (pkts : List (List UInt8)) : Prop :=
  ∀ v, Announced pkts v → ∀ buf, Reports buf v →
    rebuiltCoinbase swork (replyXnonce2 buf) xnonce1 = some (hashedCoinbase pkts v)

/-- The last job that was sent with a number. -/
def Latest (uploads : List Upload) (jobid : UInt32) (upload : Upload) : Prop :=
  upload.jobid = jobid ∧ ∃ front behind, uploads = front ++ upload :: behind ∧
    ∀ other ∈ behind, other.jobid ≠ jobid

/-- A job that is taken is sent without a read or write outside its coinbase, and its replies are
understood.  A nonce is credited to the last job that was sent with its number, or to none, and
understood by the packets of that job. -/
def Right (s : History) (e : Event) (_ : History) : Prop :=
  match e with
  | .update swork written => accepts swork → written →
      ∃ pkts nonceDiff, sendSwork s.chain swork s.chain.nextJobid = some (pkts, nonceDiff) ∧
        Serves s.chain.xnonce1 swork pkts
  | .nonce buf known => ∀ job, creditedJob s.chain buf known = some job →
      job.jobid = replyJobid buf ∧ ∃ upload, Latest s.uploads (replyJobid buf) upload ∧
        Serves s.chain.xnonce1 job.swork upload.pkts
  | .settings .. => True

/-- A job has room for both extranonces, and two bytes behind them. -/
def Roomy (swork : StratumWork) : Prop :=
  work2dXnonce1sz + work2dXnonce2sz ≤ swork.n2size ∧
    swork.nonce2Offset + swork.n2size + fixedMmXnonce2Bytes ≤ swork.coinbase.length

/-- Every job that is taken and sent has. -/
def SendsRoomy (_ : History) (e : Event) (_ : History) : Prop :=
  match e with
  | .update swork written => accepts swork → written → Roomy swork
  | .nonce _ _ | .settings .. => True

/-! ## What a module receives -/

theorem code_injective {c c' : Cmd} (h : c.code = c'.code) : c = c' := by
  cases c <;> cases c' <;> first | rfl | exact absurd h (by decide)

theorem received_append (cmd : Cmd) (pkts pkts' : List (List UInt8)) :
    received cmd (pkts ++ pkts') = received cmd pkts ++ received cmd pkts' := by
  simp [received]

theorem payload_packet (cmd : Cmd) (n packets : UInt8) {data : List UInt8}
    (hlen : data.length ≤ 0x20) :
    payload (packet cmd n packets data) = data ++ List.replicate (0x20 - data.length) 0 := by
  have hfull : (data ++ List.replicate (0x20 - data.length) (0 : UInt8)).length = 0x20 := by
    rw [List.length_append, List.length_replicate]
    omega
  rw [payload, packet, List.append_assoc, List.drop_append_of_le_length (by simp)]
  rw [show [0x41, 0x56, cmd.code, n, packets].drop 5 = [] from rfl, List.nil_append,
    List.take_append_of_le_length hfull.ge, List.take_of_length_le hfull.le]

/-- The bytes that are sent arrive with their command, with zeros behind them. -/
theorem received_writeLoop (cmd : Cmd) (packets n : UInt8) (data : List UInt8) :
    ∃ k, received cmd (writeLoop cmd packets n data) = data ++ List.replicate k 0 := by
  induction n, data using writeLoop.induct with
  | case1 n data ih =>
    have hlen : (data.take 0x20).length ≤ 0x20 := List.length_take_le _ _
    have hhead : ∀ rest, received cmd (packet cmd n packets (data.take 0x20) :: rest) =
        data.take 0x20 ++ List.replicate (0x20 - (data.take 0x20).length) 0 ++
          received cmd rest := by
      intro rest
      have hcode : (packet cmd n packets (data.take 0x20))[2]? = some cmd.code := rfl
      rw [received, List.filter_cons_of_pos (by simpa using hcode), List.flatMap_cons,
        payload_packet _ _ _ hlen, received]
    rw [writeLoop]
    split
    · next hmore =>
      obtain ⟨k, hk⟩ := ih hmore
      refine ⟨k, ?_⟩
      rw [hhead, hk, List.length_take_of_le hmore.le, Nat.sub_self, List.replicate_zero,
        List.append_nil, ← List.append_assoc, List.take_append_drop]
    · next hlast =>
      refine ⟨0x20 - data.length, ?_⟩
      rw [hhead, List.take_of_length_le (by omega)]
      exact List.append_nil _

/-- Nothing arrives with another command. -/
theorem received_writeLoop_of_ne {cmd cmd' : Cmd} (hne : cmd ≠ cmd') (packets n : UInt8)
    (data : List UInt8) : received cmd' (writeLoop cmd packets n data) = [] := by
  induction n, data using writeLoop.induct with
  | case1 n data ih =>
    have hcode : ¬ (packet cmd n packets (data.take 0x20))[2]? = some cmd'.code := fun h =>
      hne (code_injective (Option.some.inj h))
    rw [writeLoop, received, List.filter_cons_of_neg (by simpa using hcode)]
    split
    · next hmore => exact ih hmore
    · rfl

theorem word_append (front rest : List UInt8) (x : UInt32) :
    word (front ++ (be32 x ++ rest)) front.length = x := by
  rw [word, List.drop_left, List.take_append_of_le_length (by simp [be32])]
  exact ofBe32_be32 x

/-! ## The bytes of an announced extranonce -/

/-- The range goes through the low half of a number with a high half of zeros below it. -/
theorem high_of_announced {hi lo : UInt8} {v : UInt32}
    (hlow : (ofBe32 [hi, lo, 0, 0]).toNat ≤ v.toNat)
    (hhigh : v.toNat ≤ (ofBe32 [hi, lo, 0, 0]).toNat + 0xffff) :
    (v >>> 24).toUInt8 = hi ∧ (v >>> 16).toUInt8 = lo := by
  have hhi := hi.toNat_lt
  have hlo := lo.toNat_lt
  have hstart : (ofBe32 [hi, lo, 0, 0]).toNat = 2 ^ 24 * hi.toNat + 2 ^ 16 * lo.toNat := by
    simp only [ofBe32, List.foldl_cons, List.foldl_nil, UInt32.toNat_ofNat']
    have hzero : (0 : UInt8).toNat = 0 := rfl
    rw [hzero]
    omega
  rw [hstart] at hlow hhigh
  constructor
  · rw [← UInt8.toNat_inj]
    simp [UInt32.toNat_shiftRight, Nat.shiftRight_eq_div_pow]
    omega
  · rw [← UInt8.toNat_inj]
    simp [UInt32.toNat_shiftRight, Nat.shiftRight_eq_div_pow]
    omega

/-- The two bytes of a reply that the driver gave away, in their order. -/
theorem replyXnonce2_toList {buf : Bytes 0x20} {v : UInt32} (hreport : Reports buf v) :
    (replyXnonce2 buf).toList = [v.toUInt8, (v >>> 8).toUInt8] := by
  have hbyte : ∀ i < 4, buf[8 + i]? = (be32 v)[i]? := by
    intro i hi
    rw [← hreport, List.getElem?_take_of_lt hi, List.getElem?_drop, Vector.getElem?_toList]
  have hlast := hbyte 3 (by omega)
  have hthird := hbyte 2 (by omega)
  have hlist : (replyXnonce2 buf).toList = [(buf[11]?).getD 0, (buf[10]?).getD 0] := by
    rw [replyXnonce2, Vector.toList_ofFn]
    rfl
  rw [hlist, hlast, hthird]
  rfl

/-- A reply with an extranonce. -/
theorem exists_reports (v : UInt32) : ∃ buf : Bytes 0x20, Reports buf v :=
  ⟨Vector.ofFn fun i => ((List.replicate 8 0 ++ be32 v)[i.val]?).getD 0, by
    rw [Reports, Vector.toList_ofFn]
    rfl⟩

/-! ## A job with room -/

/-- The coinbase of a job with room in its parts: what is before the extranonce, its padding, the
bytes of both extranonces, two bytes and the others. -/
theorem Roomy.split {swork : StratumWork} (hroomy : Roomy swork) :
    ∃ front pad a b c lo hi tail,
      swork.coinbase = front ++ (pad ++ ([a, b, c, lo, hi] ++ tail)) ∧
      front.length = swork.nonce2Offset ∧ pad.length + 3 = swork.n2size := by
  obtain ⟨hsize, hlen⟩ := hroomy
  have hx1 : work2dXnonce1sz = 1 := rfl
  have hx2 : work2dXnonce2sz = 2 := rfl
  have hfixed : fixedMmXnonce2Bytes = 2 := rfl
  rw [hx1, hx2] at hsize
  rw [hfixed] at hlen
  obtain ⟨rest, hrest⟩ : ∃ rest, rest = swork.coinbase.drop swork.nonce2Offset := ⟨_, rfl⟩
  have hlenRest : rest.length = swork.coinbase.length - swork.nonce2Offset := by
    rw [hrest, List.length_drop]
  obtain ⟨more, hmore⟩ : ∃ more, more = rest.drop (swork.n2size - 3) := ⟨_, rfl⟩
  have hlenMore : more.length = rest.length - (swork.n2size - 3) := by
    rw [hmore, List.length_drop]
  match more, hlenMore, hmore with
  | a :: b :: c :: lo :: hi :: tail, _, hmore =>
    refine ⟨swork.coinbase.take swork.nonce2Offset, rest.take (swork.n2size - 3), a, b, c, lo, hi,
      tail, ?_, List.length_take_of_le (by omega), ?_⟩
    · show swork.coinbase = _ ++ (_ ++ (a :: b :: c :: lo :: hi :: tail))
      rw [hmore, List.take_append_drop, hrest, List.take_append_drop]
    · rw [List.length_take_of_le (by omega)]
      omega
  | [], h, _ | [_], h, _ | [_, _], h, _ | [_, _, _], h, _ | [_, _, _, _], h, _ =>
    simp only [List.length_cons, List.length_nil] at h
    omega

/-- The coinbase with the padding, and the bytes of the extranonces in place. -/
def filled (front : List UInt8) (n : ℕ) (extranonces behind : List UInt8) : List UInt8 :=
  front ++ (List.replicate n 0xbb ++ (extranonces ++ behind))

/-- What is rebuilt, by the parts of the coinbase. -/
theorem rebuiltCoinbase_split {swork : StratumWork} {front pad tail : List UInt8}
    {a b c lo hi : UInt8}
    (hcoinbase : swork.coinbase = front ++ (pad ++ ([a, b, c, lo, hi] ++ tail)))
    (hfront : front.length = swork.nonce2Offset) (hpad : pad.length + 3 = swork.n2size)
    {xnonce2 : Bytes 2} {x y : UInt8} (hxnonce2 : xnonce2.toList = [x, y]) (xnonce1 : UInt32) :
    rebuiltCoinbase swork xnonce2 xnonce1 =
      some (filled front pad.length [xnonce1.toUInt8, x, y, lo, hi] tail) := by
  have hx1 : work2dXnonce1sz = 1 := rfl
  have hx2 : work2dXnonce2sz = 2 := rfl
  have hn : swork.n2size - work2dXnonce1sz - work2dXnonce2sz = pad.length := by
    rw [hx1, hx2]
    omega
  rw [rebuiltCoinbase, if_neg (by rw [hx1, hx2]; omega), hn, hcoinbase, ← hfront, hxnonce2, memcpy,
    if_pos (by simp), writeAt_append, filled]
  simp [List.drop_append]

/-- What a module needs to hash the coinbase. -/
structure Carries (pkts : List (List UInt8)) (coinbase : List UInt8) (offset : ℕ)
    (start : List UInt8) : Prop where
  coinbase_eq : ∃ k, received .coinbase pkts = coinbase ++ List.replicate k 0
  newJob_eq : ∃ rest, received .newJob pkts =
    be32 (UInt32.ofNat coinbase.length) ++ (be32 (UInt32.ofInt offset) ++ rest)
  start_eq : ∃ front rest, front.length = 0xc ∧
    received .start pkts = front ++ (start ++ (be32 0xffff ++ rest))

/-- The packets of a job, by the parts of its coinbase. -/
theorem sendSwork_split {swork : StratumWork} {front pad tail : List UInt8} {a b c lo hi : UInt8}
    (hcoinbase : swork.coinbase = front ++ (pad ++ ([a, b, c, lo, hi] ++ tail)))
    (hfront : front.length = swork.nonce2Offset) (hpad : pad.length + 3 = swork.n2size)
    (chain : Chain) (jobid : UInt32) :
    ∃ pkts nonceDiff, sendSwork chain swork jobid = some (pkts, nonceDiff) ∧
      Carries pkts (filled front pad.length [chain.xnonce1.toUInt8, b, c, lo, hi] tail)
        (front.length + pad.length + 1) [hi, lo, 0, 0] := by
  have hx1 : work2dXnonce1sz = 1 := rfl
  have hx2 : work2dXnonce2sz = 2 := rfl
  have hfixed : fixedMmXnonce2Bytes = 2 := rfl
  have hn : (swork.n2size : ℤ) - (1 : ℕ) - (2 : ℕ) = pad.length := by omega
  have hpadded : memcpy swork.coinbase front.length (List.replicate pad.length 0xbb) =
      some (filled front pad.length [a, b, c, lo, hi] tail) := by
    rw [hcoinbase, memcpy, if_pos (by simp), writeAt_append, filled]
    simp
  have hoff : ((front.length : ℤ) + pad.length).toNat = front.length + pad.length := by omega
  have hxnonce1 : memcpy (filled front pad.length [a, b, c, lo, hi] tail)
      (front.length + pad.length) [chain.xnonce1.toUInt8] =
      some (filled front pad.length [chain.xnonce1.toUInt8, b, c, lo, hi] tail) := by
    have hroom : front.length + pad.length + [chain.xnonce1.toUInt8].length ≤
        (filled front pad.length [a, b, c, lo, hi] tail).length := by
      simp only [filled, List.length_append, List.length_replicate, List.length_cons]
      omega
    rw [memcpy, if_pos hroom, filled, writeAt_append_add,
      List.take_append_of_le_length (by simp), List.take_of_length_le (by simp), filled]
    simp [List.drop_append]
  have hbyte : ∀ i, (filled front pad.length [chain.xnonce1.toUInt8, b, c, lo, hi] tail)[
      front.length + pad.length + 1 + 2 + i]? = ([lo, hi] ++ tail)[i]? := by
    intro i
    rw [filled, List.getElem?_append_right (by omega), List.getElem?_append_right (by simp; omega)]
    have hidx : front.length + pad.length + 1 + 2 + i - front.length -
        (List.replicate pad.length (0xbb : UInt8)).length = i + 3 := by
      rw [List.length_replicate]
      omega
    rw [hidx]
    rfl
  have hfollowing : ((List.range 2).mapM fun i =>
      (filled front pad.length [chain.xnonce1.toUInt8, b, c, lo, hi] tail)[
        front.length + pad.length + 1 + 2 + i]?) = some [lo, hi] := by
    simp only [hbyte]
    rfl
  have hlength : (filled front pad.length [chain.xnonce1.toUInt8, b, c, lo, hi] tail).length =
      swork.coinbase.length := by
    rw [hcoinbase]
    simp [filled]
  simp only [sendSwork, hx1, hx2, hfixed, hn, ← hfront, hoff]
  rw [if_neg (by omega), Int.toNat_natCast, hpadded]
  simp only [Option.bind_eq_bind, Option.bind_some]
  rw [if_neg (by omega), hxnonce1]
  simp only [Option.bind_some, hfollowing]
  have hself : ∀ cmd data, ∃ k, received cmd (writeCmd cmd data) = data ++ List.replicate k 0 :=
    fun cmd data => received_writeLoop cmd _ _ data
  have hother : ∀ {cmd cmd'} data, cmd ≠ cmd' → received cmd' (writeCmd cmd data) = [] :=
    fun data hne => received_writeLoop_of_ne hne _ _ data
  refine ⟨_, _, rfl, ?_, ?_, ?_⟩
  · obtain ⟨k, hk⟩ := hself .coinbase
      (filled front pad.length [chain.xnonce1.toUInt8, b, c, lo, hi] tail)
    refine ⟨k, ?_⟩
    simp only [received_append, ne_eq, reduceCtorEq, not_false_eq_true, hother, List.nil_append,
      List.append_nil, hk]
  · simp only [received_append, ne_eq, reduceCtorEq, not_false_eq_true, hother, List.append_nil]
    obtain ⟨k, hk⟩ := hself .newJob _
    rw [hk, hlength]
    simp only [List.append_assoc]
    exact ⟨_, rfl⟩
  · simp only [received_append, ne_eq, reduceCtorEq, not_false_eq_true, hother, List.nil_append]
    obtain ⟨k, hk⟩ := hself .start _
    rw [hk]
    refine ⟨be32 chain.fanDesired ++ be32 chain.voltcfgDesired ++ be32 chain.clockDesired,
      List.replicate k 0, rfl, ?_⟩
    simp only [List.append_assoc]
    rfl

/-- **The coinbases agree for a job with room**, whose upload reads and writes nothing outside its
coinbase. -/
theorem Roomy.serves {swork : StratumWork} (hroomy : Roomy swork) (haccepts : accepts swork)
    (chain : Chain) (jobid : UInt32) :
    ∃ pkts nonceDiff, sendSwork chain swork jobid = some (pkts, nonceDiff) ∧
      Serves chain.xnonce1 swork pkts := by
  obtain ⟨front, pad, a, b, c, lo, hi, tail, hcoinbase, hfront, hpad⟩ := hroomy.split
  obtain ⟨pkts, nonceDiff, hsend, hcarries⟩ :=
    sendSwork_split hcoinbase hfront hpad chain jobid
  refine ⟨pkts, nonceDiff, hsend, ?_⟩
  have hmax : front.length + (pad.length + (tail.length + 5)) ≤ 6 * 1024 := by
    have hlen := (Bool.and_eq_true_iff.mp haccepts).1
    rw [decide_eq_true_eq, hcoinbase] at hlen
    simpa using hlen
  obtain ⟨k, hk⟩ := hcarries.coinbase_eq
  obtain ⟨rest, hrest⟩ := hcarries.newJob_eq
  obtain ⟨before, behind, hbefore, hstart⟩ := hcarries.start_eq
  have hword : word (received .start pkts) 0xc = ofBe32 [hi, lo, 0, 0] := by
    rw [hstart, ← hbefore, word, List.drop_left]
    rfl
  have hrange : word (received .start pkts) 0x10 = 0xffff := by
    have hsixteen : (before ++ [hi, lo, 0, 0]).length = 0x10 := by
      rw [List.length_append, hbefore]
      rfl
    rw [hstart, ← List.append_assoc, ← hsixteen]
    exact word_append _ _ _
  intro v hv buf hbuf
  rw [Announced, hword, hrange] at hv
  obtain ⟨hhi, hlo⟩ := high_of_announced hv.1 hv.2
  rw [rebuiltCoinbase_split hcoinbase hfront hpad (replyXnonce2_toList hbuf)]
  -- the module cuts off the zeros of the last packet
  have hcut : (received .coinbase pkts).take (word (received .newJob pkts) 0).toNat =
      filled front pad.length [chain.xnonce1.toUInt8, b, c, lo, hi] tail := by
    have hlength := word_append [] (be32 (UInt32.ofInt
      ((front.length + pad.length + 1 : ℕ) : ℤ)) ++ rest) (UInt32.ofNat
        (filled front pad.length [chain.xnonce1.toUInt8, b, c, lo, hi] tail).length)
    rw [List.nil_append, List.length_nil] at hlength
    rw [hk, hrest, hlength, UInt32.toNat_ofNat', Nat.mod_eq_of_lt (by simp [filled]; omega),
      List.take_left]
  have hoff : (word (received .newJob pkts) 4).toNat = front.length + pad.length + 1 := by
    have hfour := word_append (be32 (UInt32.ofNat
      (filled front pad.length [chain.xnonce1.toUInt8, b, c, lo, hi] tail).length)) rest
      (UInt32.ofInt ((front.length + pad.length + 1 : ℕ) : ℤ))
    rw [hrest, show (4 : ℕ) = (be32 (UInt32.ofNat
      (filled front pad.length [chain.xnonce1.toUInt8, b, c, lo, hi] tail).length)).length from rfl,
      hfour]
    simp [UInt32.ofInt]
    omega
  rw [hashedCoinbase, hcut, hoff]
  have hparts : filled front pad.length [chain.xnonce1.toUInt8, b, c, lo, hi] tail =
      (front ++ (List.replicate pad.length 0xbb ++ [chain.xnonce1.toUInt8])) ++
        ([b, c, lo, hi] ++ tail) := by
    simp [filled]
  have hplace : front.length + pad.length + 1 =
      (front ++ (List.replicate pad.length 0xbb ++ [chain.xnonce1.toUInt8])).length := by
    simp
    omega
  rw [hparts, hplace, writeAt_append]
  simp [filled, le32, hhi, hlo]

/-- A job without room is read or written outside its coinbase, or its replies are not
understood. -/
theorem roomy_of_serves {chain : Chain} {swork : StratumWork} {jobid : UInt32}
    {pkts : List (List UInt8)} {nonceDiff : Float}
    (hsend : sendSwork chain swork jobid = some (pkts, nonceDiff))
    (hserves : Serves chain.xnonce1 swork pkts) : Roomy swork := by
  have hx1 : work2dXnonce1sz = 1 := rfl
  have hx2 : work2dXnonce2sz = 2 := rfl
  have hfixed : fixedMmXnonce2Bytes = 2 := rfl
  have hsize : 3 ≤ swork.n2size := by
    obtain ⟨buf, hbuf⟩ := exists_reports (word (received .start pkts) 0xc)
    have hrebuilt := hserves _ ⟨le_rfl, Nat.le_add_right _ _⟩ buf hbuf
    by_contra hsmall
    rw [rebuiltCoinbase, if_pos (by rw [hx1, hx2]; omega)] at hrebuilt
    cases hrebuilt
  refine ⟨hsize, ?_⟩
  obtain ⟨n, hn⟩ : ∃ n, swork.n2size = n + 3 := ⟨swork.n2size - 3, by omega⟩
  have hpad : (swork.n2size : ℤ) - (1 : ℕ) - (2 : ℕ) = n := by omega
  simp only [sendSwork, hx1, hx2, hfixed, hpad] at hsend
  rw [if_neg (by omega)] at hsend
  obtain ⟨padded, hpadded, hsend⟩ := Option.bind_eq_some_iff.mp hsend
  rw [if_neg (by omega)] at hsend
  obtain ⟨coinbase, hcoinbase, hsend⟩ := Option.bind_eq_some_iff.mp hsend
  obtain ⟨following, hfollowing, -⟩ := Option.bind_eq_some_iff.mp hsend
  have hlenPadded : padded.length = swork.coinbase.length := length_memcpy hpadded
  have hlenCoinbase : coinbase.length = padded.length := length_memcpy hcoinbase
  have hlast : ∃ b, coinbase[((swork.nonce2Offset : ℤ) + n).toNat + 1 + 2 + 1]? = some b := by
    have hrange : List.range 2 = [0, 1] := rfl
    simp only [hrange, List.mapM_cons, Option.bind_eq_bind] at hfollowing
    obtain ⟨first, -, hfollowing⟩ := Option.bind_eq_some_iff.mp hfollowing
    obtain ⟨second, hsecond, -⟩ := Option.bind_eq_some_iff.mp hfollowing
    obtain ⟨b, hb, -⟩ := Option.bind_eq_some_iff.mp hsecond
    exact ⟨b, hb⟩
  obtain ⟨b, hb⟩ := hlast
  have hidx := (List.getElem?_eq_some_iff.mp hb).1
  rw [hfixed]
  omega

/-! ## Histories -/

/-- The packets go on to serve a job whose coinbase was rebuilt. -/
theorem Serves.rebuilt {xnonce1 : UInt32} {swork : StratumWork} {pkts : List (List UInt8)}
    (hserves : Serves xnonce1 swork pkts) {xnonce2 : Bytes 2} {coinbase : List UInt8}
    (hcoinbase : rebuiltCoinbase swork xnonce2 xnonce1 = some coinbase) :
    Serves xnonce1 { swork with coinbase := coinbase } pkts := by
  intro v hv buf hbuf
  rw [← hserves v hv buf hbuf]
  rw [rebuiltCoinbase] at hcoinbase
  split at hcoinbase
  · cases hcoinbase
  · next hsize =>
    rw [rebuiltCoinbase, rebuiltCoinbase, if_neg hsize, if_neg hsize]
    exact memcpy_memcpy hcoinbase (by simp)

/-- The numbers that are taken are the last two. -/
theorem invalidJobid_eq_false {chain : Chain} {jobid : UInt32} :
    invalidJobid chain jobid = false ↔
      jobid = chain.nextJobid - 1 ∨ jobid = chain.nextJobid - 2 := by
  have hnext := chain.nextJobid.toNat_lt
  have hjobid := jobid.toNat_lt
  have hone : (chain.nextJobid - 1).toNat = (2 ^ 32 - 1 + chain.nextJobid.toNat) % 2 ^ 32 := rfl
  have htwo : (chain.nextJobid - 2).toNat = (2 ^ 32 - 2 + chain.nextJobid.toNat) % 2 ^ 32 := rfl
  rw [invalidJobid]
  split
  · next hwrap =>
    simp only [UInt32.lt_iff_toNat_lt, UInt32.le_iff_toNat_le, ← UInt32.toNat_inj, hone, htwo,
      Bool.and_eq_false_iff, decide_eq_false_iff_not] at hwrap ⊢
    omega
  · next hwrap =>
    simp only [UInt32.lt_iff_toNat_lt, UInt32.le_iff_toNat_le, ← UInt32.toNat_inj, hone, htwo,
      Bool.or_eq_false_iff, decide_eq_false_iff_not] at hwrap ⊢
    omega

/-- The jobs are those of the last two uploads, which are numbered. -/
structure Cached (s : History) : Prop where
  next : s.chain.nextJobid = UInt32.ofNat s.uploads.length
  numbered : ∀ i (hi : i < s.uploads.length), (s.uploads.get ⟨i, hi⟩).jobid = UInt32.ofNat i
  cached : ∀ (slot : Fin 2) job, s.chain.jobs.get slot = some job →
    ∃ i, ∃ hi : i < s.uploads.length, i % 2 = slot.val ∧ s.uploads.length ≤ i + 2 ∧
      job.jobid = UInt32.ofNat i ∧
      Serves s.chain.xnonce1 job.swork (s.uploads.get ⟨i, hi⟩).pkts

theorem cached_init (xnonce1 fanDesired clockDesired voltcfgDesired : UInt32) :
    Cached (History.init xnonce1 fanDesired clockDesired voltcfgDesired) where
  next := rfl
  numbered i hi := absurd hi (Nat.not_lt_zero i)
  cached slot job hjob := by
    have hempty : (Vector.replicate 2 (none : Option Job)).get slot = none :=
      Vector.getElem_replicate _
    rw [History.init, hempty] at hjob
    cases hjob

theorem get_set_jobs (jobs : Vector (Option Job) 2) (slot slot' : Fin 2) (job : Option Job) :
    (jobs.set slot job).get slot' = if slot.val = slot'.val then job else jobs.get slot' :=
  Vector.getElem_set _ _

theorem toNat_jobIndex (n : ℕ) : (jobIndex (UInt32.ofNat n)).val = n % 2 := by
  simp only [jobIndex, UInt32.toNat_ofNat']
  omega

/-- **A nonce is credited to the upload with its number.** -/
theorem Cached.credited {s : History} (hcached : Cached s) {buf : Bytes 0x20} {known : Bool}
    {job : Job} (hjob : creditedJob s.chain buf known = some job) :
    job.jobid = replyJobid buf ∧ ∃ upload, Latest s.uploads (replyJobid buf) upload ∧
      Serves s.chain.xnonce1 job.swork upload.pkts := by
  rw [creditedJob] at hjob
  split at hjob
  · cases hjob
  split at hjob
  · cases hjob
  next hvalid =>
  obtain ⟨i, hi, hslot, hlast, hid, hserves⟩ := hcached.cached _ _ hjob
  have hlater : ∀ k, i < k → k < s.uploads.length → k = i + 1 := by omega
  -- the slot tells the last two numbers apart
  have hreply : replyJobid buf = UInt32.ofNat i := by
    have hwindow := invalidJobid_eq_false.mp (Bool.not_eq_true _ ▸ hvalid)
    rw [hcached.next] at hwindow
    have hone : (UInt32.ofNat s.uploads.length - 1).toNat =
        (2 ^ 32 - 1 + s.uploads.length % 2 ^ 32) % 2 ^ 32 := rfl
    have htwo : (UInt32.ofNat s.uploads.length - 2).toNat =
        (2 ^ 32 - 2 + s.uploads.length % 2 ^ 32) % 2 ^ 32 := rfl
    simp only [← UInt32.toNat_inj, hone, htwo, UInt32.toNat_ofNat'] at hwindow ⊢
    simp only [jobIndex] at hslot
    omega
  have hlatest : Latest s.uploads (replyJobid buf) (s.uploads.get ⟨i, hi⟩) := by
    refine ⟨?_, s.uploads.take i, s.uploads.drop (i + 1), ?_, ?_⟩
    · rw [hcached.numbered, hreply]
    · rw [List.get_eq_getElem, ← List.drop_eq_getElem_cons hi, List.take_append_drop]
    · intro other hother
      obtain ⟨k, hk, rfl⟩ := List.getElem_of_mem hother
      rw [List.length_drop] at hk
      rw [List.getElem_drop, hreply]
      have hnumber := hcached.numbered (i + 1 + k) (by omega)
      rw [List.get_eq_getElem] at hnumber
      rw [hnumber, hlater (i + 1 + k) (by omega) (by omega), Ne, ← UInt32.toNat_inj]
      simp only [UInt32.toNat_ofNat']
      omega
  exact ⟨hid.trans hreply.symm, _, hlatest, hserves⟩

/-- A job with room is put in the place of the last but one. -/
theorem Cached.upload {s : History} (hcached : Cached s) {swork : StratumWork}
    (haccepts : accepts swork) (hroomy : Roomy swork) : Cached (s.upload swork) := by
  obtain ⟨pkts, nonceDiff, hsend, hserves⟩ :=
    hroomy.serves haccepts s.chain s.chain.nextJobid
  rw [History.upload, hsend]
  have hslotNext : (jobIndex s.chain.nextJobid).val = s.uploads.length % 2 := by
    rw [hcached.next, toNat_jobIndex]
  constructor
  · show s.chain.nextJobid + 1 = UInt32.ofNat (s.uploads ++ [_]).length
    rw [hcached.next, List.length_append, List.length_singleton, UInt32.ofNat_add]
    rfl
  · intro i hi
    rw [List.get_eq_getElem]
    rcases Nat.lt_or_ge i s.uploads.length with hold | hnew
    · rw [List.getElem_append_left hold]
      exact hcached.numbered i hold
    · have hlast : i = s.uploads.length := by
        rw [List.length_append, List.length_singleton] at hi
        omega
      subst hlast
      rw [List.getElem_concat_length rfl]
      exact hcached.next
  · intro slot job hjob
    simp only [Option.getD_some, get_set_jobs] at hjob
    split at hjob
    · next hslot =>
      obtain rfl := Option.some.inj hjob
      refine ⟨s.uploads.length, by simp, by rw [← hslot, hslotNext], by simp, hcached.next, ?_⟩
      simpa using hserves
    · next hslot =>
      obtain ⟨i, hi, hslotI, hlast, hid, hold⟩ := hcached.cached slot job hjob
      rw [hslotNext] at hslot
      refine ⟨i, ?_, hslotI, ?_, hid, ?_⟩
      · simp only [List.length_append, List.length_singleton]
        omega
      · simp only [List.length_append, List.length_singleton]
        have hdiff : i + 2 ≠ s.uploads.length := by omega
        omega
      · rw [List.get_eq_getElem, List.getElem_append_left hi]
        exact hold

/-- The rebuilt coinbase takes the place of that of the job. -/
theorem Cached.credit {s : History} (hcached : Cached s) {buf : Bytes 0x20} {known : Bool}
    {job : Job} (hjob : creditedJob s.chain buf known = some job) : Cached (s.credit buf job) := by
  rw [creditedJob] at hjob
  split at hjob
  · cases hjob
  split at hjob
  · cases hjob
  rw [History.credit]
  split
  · exact hcached
  next coinbase hcoinbase =>
  refine ⟨hcached.next, hcached.numbered, ?_⟩
  intro slot other hother
  simp only [get_set_jobs] at hother
  split at hother
  · next hslot =>
    obtain rfl := Option.some.inj hother
    obtain ⟨i, hi, hslotI, hlast, hid, hserves⟩ := hcached.cached _ _ hjob
    exact ⟨i, hi, hslotI.trans hslot, hlast, hid, hserves.rebuilt hcoinbase⟩
  · exact hcached.cached slot other hother

/-- **What is expected holds exactly for jobs with room**: a nonce is credited to the job with its
number in every history. -/
theorem right_iff_sendsRoomy {s s' : History} {e : Event} (hcached : Cached s) :
    Right s e s' ↔ SendsRoomy s e s' := by
  cases e with
  | update swork written =>
    refine forall_congr' fun haccepts => forall_congr' fun _ => ?_
    constructor
    · rintro ⟨pkts, nonceDiff, hsend, hserves⟩
      exact roomy_of_serves hsend hserves
    · intro hroomy
      exact hroomy.serves haccepts s.chain s.chain.nextJobid
  | nonce buf known => exact iff_of_true (fun job hjob => hcached.credited hjob) trivial
  | settings fanDesired clockDesired voltcfgDesired => exact Iff.rfl

/-- One step. -/
theorem Cached.step {s s' : History} {e : Event} (hcached : Cached s)
    (hstep : s.step e = some s') (hright : Right s e s') : Cached s' := by
  cases e with
  | update swork written =>
    have hsends : SendsRoomy s (.update swork written) s' :=
      (right_iff_sendsRoomy hcached).mp hright
    obtain rfl := Option.some.inj hstep
    split
    · next hsent =>
      obtain ⟨haccepts, hwritten⟩ := Bool.and_eq_true_iff.mp hsent
      exact hcached.upload haccepts (hsends haccepts hwritten)
    · exact hcached
  | nonce buf known =>
    rw [History.step] at hstep
    split at hstep
    · obtain rfl := Option.some.inj hstep
      exact hcached
    · next job hjob =>
      obtain rfl := Option.some.inj hstep
      exact hcached.credit hjob
  | settings fanDesired clockDesired voltcfgDesired =>
    obtain rfl := Option.some.inj hstep
    exact ⟨hcached.next, hcached.numbered, hcached.cached⟩

/-- **Every history is as expected exactly when every job that is sent has room** for both
extranonces in what the pool says, and two bytes of the coinbase behind them. -/
theorem right_iff_roomy (xnonce1 fanDesired clockDesired voltcfgDesired : UInt32)
    (es : List Event) :
    Run.AllSteps History.step Right
        (History.init xnonce1 fanDesired clockDesired voltcfgDesired) es ↔
      Run.AllSteps History.step SendsRoomy
        (History.init xnonce1 fanDesired clockDesired voltcfgDesired) es := by
  have hiff : ∀ s e s', Cached s → s.step e = some s' → (Right s e s' ↔ SendsRoomy s e s') :=
    fun s e s' hcached _ => right_iff_sendsRoomy hcached
  have hkeep : ∀ s e s', Cached s → s.step e = some s' → Right s e s' → Cached s' :=
    fun s e s' hcached hstep hright => hcached.step hstep hright
  exact Run.allSteps_congr hiff hkeep es
    (cached_init xnonce1 fanDesired clockDesired voltcfgDesired)

/-- A pool that gives away two bytes. -/
def twoBytes : StratumWork where
  nonce1 := none
  jobId := none
  clean := true
  coinbase := List.replicate 100 0
  nonce2Offset := 46
  n2size := 2
  merkles := 0
  merkleBin := []
  header1 := Vector.replicate 36 0
  diffbits := Vector.replicate 4 0
  ntime := 0x53000000
  tvReceived := 0
  ntimeRollLimits := setSimpleNtimeRollLimit 0x53000000 0 0
  target := Vector.replicate 32 0xff
  transparencyProbed := false
  tvTransparencySet := false
  isOpaque := false

/-- Its job is sent as well, where the driver has no room for its extranonces. -/
theorem not_right_twoBytes :
    ¬ Run.AllSteps History.step Right (History.init 1 90 200 0) [.update twoBytes true] := by
  intro hall
  obtain ⟨pkts, nonceDiff, hsend, hserves⟩ := (hall _ rfl).1 (by decide) rfl
  have hsize : 3 ≤ twoBytes.n2size := (roomy_of_serves hsend hserves).1
  exact absurd hsize (by decide)

end AvalonMm
end MassGridMiner

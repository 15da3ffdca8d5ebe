import MassGridMiner.Share.TestNonce
import MassGridMiner.Stratum.Job

/-!
# Shares from behind the proxy

`work2d_submit_nonce` rebuilds the work a downstream miner says it solved, sets the
time it claims and submits its nonce.  The rebuilt work starts from an empty record, so
its hash field is zero when the share is tested.

## Main definitions

* `genStratumWork2`, `genStratumWork3` — the header of a work, from the job.
* `work2dGenDummyWork`, `work2dSubmitNonce` — the rebuilt work, and its submission.
-/

namespace MassGridMiner

/-- `bfg_workpadding_bin`, the 48 bytes after the header. -/
def workpaddingBin : List UInt8 := [0, 0, 0, 0x80] ++ List.replicate 40 0 ++ [0x80, 2, 0, 0]

def work2dXnonce1sz : ℕ := 1
def work2dXnonce2sz : ℕ := 2

/-- The work of `work2d_gen_dummy_work_prepare`. -/
def work2dGenDummyWorkPrepare (pool : Pool) : Work := Work.zero pool

section
variable (genHash : List UInt8 → Hash)

/-- The merkle root: fold the links of the job into the hash of its coinbase. -/
def merkleRoot (swork : StratumWork) : Hash :=
  (List.range swork.merkles).foldl
    (fun root i => genHash (root.toList ++ (swork.merkleBin.drop (32 * i)).take 32))
    (genHash swork.coinbase)

/-- `gen_stratum_work3`, at time `now`.  The hash `gen_hash` is a parameter. -/
def genStratumWork3 (now : ℕ) (work : Work) (swork : StratumWork) : Work :=
  let ntime := swork.ntime + UInt32.ofNat (now - swork.tvReceived)
  { work with
    data := work.data.overwrite 0 (swork.header1.toList ++
      swap32yes (merkleRoot genHash swork) (32 / 4) ++ be32 ntime ++ swork.diffbits.toList ++
      [0, 0, 0, 0] ++ workpaddingBin)
    target := swork.target
    blkNonce := 0
    workDifficulty := targetDiff swork.target }

/-- `gen_stratum_work2`: the second extranonce goes into the coinbase first. -/
def genStratumWork2 (now : ℕ) (work : Work) (swork : StratumWork) (nonce2 : List UInt8) :
    Work :=
  genStratumWork3 genHash now work { swork with
    coinbase := swork.coinbase.take swork.nonce2Offset ++ nonce2 ++
      swork.coinbase.drop (swork.nonce2Offset + nonce2.length) }

/-- `work2d_gen_dummy_work`: the extranonce is padding, then the low byte of `xnonce1`,
then `xnonce2`.  No work where it is too small for both. -/
def work2dGenDummyWork (now : ℕ) (pool : Pool) (swork : StratumWork) (xnonce2 : Bytes 2)
    (xnonce1 : UInt32) : Option Work :=
  if swork.n2size < work2dXnonce1sz + work2dXnonce2sz then none
  else
    let pad := swork.n2size - work2dXnonce1sz - work2dXnonce2sz
    some (genStratumWork2 genHash now (work2dGenDummyWorkPrepare pool) swork
      (List.replicate pad 0xbb ++ [xnonce1.toUInt8] ++ xnonce2.toList))

/-- `work2d_submit_nonce`, without the staleness it reports. -/
def work2dSubmitNonce (malgo : MiningAlgorithm) (now : ℕ) (pool : Pool) (swork : StratumWork)
    (xnonce2 : Bytes 2) (xnonce1 nonce ntime : UInt32) (nonceDiff : Float) :
    Option (Bool × Option Work) :=
  (work2dGenDummyWork genHash now pool swork xnonce2 xnonce1).map fun work =>
    submitNonce malgo
      { work with data := work.data.overwrite 68 (be32 ntime), nonceDiff := nonceDiff } nonce

/-- Nothing between the empty record and the test writes the hash. -/
theorem work2dGenDummyWork_hash {now : ℕ} {pool : Pool} {swork : StratumWork}
    {xnonce2 : Bytes 2} {xnonce1 : UInt32} {work : Work}
    (H : work2dGenDummyWork genHash now pool swork xnonce2 xnonce1 = some work) :
    work.hash = Hash.zero := by
  simp only [work2dGenDummyWork] at H
  split at H
  · simp at H
  · rw [← Option.some.inj H]
    rfl

/-- **Under SHA256d whatever a downstream miner sends is queued**: every nonce, at every
time, for every job and target. -/
theorem work2dSubmitNonce_queues {now : ℕ} {pool : Pool} {swork : StratumWork}
    {xnonce2 : Bytes 2} {xnonce1 nonce ntime : UInt32} {nonceDiff : Float}
    {res : Bool × Option Work}
    (H : work2dSubmitNonce genHash malgoSha256d now pool swork xnonce2 xnonce1 nonce ntime
      nonceDiff = some res) :
    res.2.isSome = true := by
  obtain ⟨work, hwork, rfl⟩ := Option.map_eq_some_iff.mp H
  have hhash := work2dGenDummyWork_hash genHash hwork
  rw [submitNonce, submitNoffsetNonce_sha256d_iff]
  exact ⟨by rw [hhash]; exact testHash_zero _, by rw [hhash]; exact meetsTarget_zero _⟩

end

end MassGridMiner

import MassGridMiner.JumpHash

/-!
# The test a share passes before it is queued

Every driver hands its nonces to `submit_noffset_nonce`, which copies the work, rolls
its time, sets the nonce and asks `_test_nonce2`.  That test hashes the work with the
`hash_data_f` of the pool's mining algorithm and compares the bytes it then finds in
the work.  The function of the SHA256d record returns without writing its output, so
the bytes compared are those that were there before.

## Main definitions

* `malgoSha256d` — the algorithm record.
* `testNonce2`, `submitNoffsetNonce` — the test, and the submission that relies on it.
* `MeetsTarget` — what a hash must satisfy, retroactive targets included.
* `JudgesJumpHash` — a verdict that is about the JumpHash of the header.
-/

namespace MassGridMiner

/-- `hash_data` of `malgo/sha256d.c`.  The byte-swapped header is a local variable, and
the call that hashed it is commented out: nothing is written to the output. -/
def hashData (outHash : Hash) (data : Bytes 128) : Hash :=
  let _blkheader := swap32yes data (80 / 4)
  outHash

def malgoSha256d : MiningAlgorithm where
  name := "SHA256d"
  aliases := "SHA256d|SHA256|SHA2"
  hashDataF := hashData

/-- `enum test_nonce2_result`. -/
inductive TestNonce2Result
  | good
  | high
  | bad
  deriving DecidableEq, Repr

/-- `target_diff`. -/
def targetDiff (target : Hash) : Float :=
  let targ := target.toList.foldr (fun b acc => acc * 256 + Float.ofNat b.toNat) 0
  26959946667150639794667015087019630673637144422540572481103610249215.0 /
    (if targ == 0 then 1 else targ)

/-- `(uint32_t)ceil(x)`.  C leaves the conversion undefined outside the type's range;
here such a value saturates at 64 bits and is then reduced. -/
def ceilToUInt32 (x : Float) : ℕ :=
  let t := x.toUInt64
  (if t.toFloat < x then t + 1 else t).toNat % 2 ^ 32

/-- `test_hash`. -/
def testHash (hash : Hash) (diff : Float) : Bool :=
  if diff ≥ 1 then hash.word32 7 == 0
  else decide (hash.word32 7 ≤ ceilToUInt32 (1 / diff - 1))

/-- `pool_diff_effective_retroactively`. -/
def poolDiffEffectiveRetroactively (pool : Pool) : Bool :=
  match pool.poolDiffEffectiveRetroactively with
  | .yes => true
  | .no => false
  | .unknown => pool.stratumActive

/-- The work with `nonce` in its header. -/
def setNonce (work : Work) (nonce : UInt32) : Work :=
  { work with data := work.data.overwrite (64 + 12) (le32 nonce) }

/-- `ntime`, the big-endian word at byte 68 of the header. -/
def workNtime (data : Bytes 128) : UInt32 := UInt32.ofNat (bswap32 (data.word32 17))

/-- `_copy_work`, as far as the fields here go: `noffset` is added to the time. -/
def copyWork (work : Work) (noffset : ℤ) : Work :=
  if noffset = 0 then work
  else { work with
    data := work.data.overwrite 68 (be32 (workNtime work.data + UInt32.ofInt noffset)) }

section
variable (malgo : MiningAlgorithm)

/-- `work_hash`. -/
def workHash (work : Work) : Work :=
  { work with hash := malgo.hashDataF work.hash work.data }

/-- `_test_nonce2`: the verdict, and the work as the test leaves it. -/
def testNonce2 (work : Work) (nonce : UInt32) (checktarget : Bool) : TestNonce2Result × Work :=
  let work := workHash malgo (setNonce work nonce)
  if !testHash work.hash work.nonceDiff then (.bad, work)
  else if checktarget && !hashTargetCheck work.hash work.target then
    if poolDiffEffectiveRetroactively work.pool && work.pool.nextTarget != work.target &&
        hashTargetCheck work.hash work.pool.nextTarget then
      (.good, { work with workDifficulty := targetDiff work.pool.nextTarget })
    else (.high, work)
  else (.good, work)

/-- `submit_noffset_nonce`: the value returned, and the share queued if any.  The
statistics it updates are left out. -/
def submitNoffsetNonce (workIn : Work) (nonce : UInt32) (noffset : ℤ) : Bool × Option Work :=
  let work := setNonce (copyWork workIn noffset) nonce
  match testNonce2 malgo work nonce true with
  | (.bad, _) => (false, none)
  | (.high, _) => (true, none)
  | (.good, work) => (true, some work)

/-- `submit_nonce`. -/
def submitNonce (work : Work) (nonce : UInt32) : Bool × Option Work :=
  submitNoffsetNonce malgo work nonce 0

end

/-- The rule that lets a share of an older job meet the pool's next target. -/
def RetroRule (work : Work) : Prop :=
  poolDiffEffectiveRetroactively work.pool = true ∧ work.pool.nextTarget ≠ work.target

/-- A hash is at most the work's target, or the pool's next target where that rule
applies. -/
def MeetsTarget (work : Work) (hash : Hash) : Prop :=
  hash.toNat ≤ work.target.toNat ∨ RetroRule work ∧ hash.toNat ≤ work.pool.nextTarget.toNat

theorem MeetsTarget.mono {work : Work} {h h' : Hash} (hle : h'.toNat ≤ h.toNat)
    (H : MeetsTarget work h) : MeetsTarget work h' := by
  rcases H with H | ⟨hr, H⟩
  · exact .inl (hle.trans H)
  · exact .inr ⟨hr, hle.trans H⟩

theorem meetsTarget_zero (work : Work) : MeetsTarget work Hash.zero := by
  simp [MeetsTarget]

theorem testHash_zero (diff : Float) : testHash Hash.zero diff = true := by
  have hword : Hash.zero.word32 7 = 0 := by decide +kernel
  rw [testHash]
  split <;> simp [hword]

/-- **The verdict, in terms of the hash that `hash_data_f` leaves.** -/
theorem testNonce2_eq_good_iff (malgo : MiningAlgorithm) (work : Work) (nonce : UInt32) :
    (testNonce2 malgo work nonce true).1 = .good ↔
      testHash (malgo.hashDataF work.hash (setNonce work nonce).data) work.nonceDiff = true ∧
        MeetsTarget work (malgo.hashDataF work.hash (setNonce work nonce).data) := by
  simp only [testNonce2, workHash, setNonce, MeetsTarget, RetroRule, Bool.true_and,
    hashTargetCheck_eq]
  split_ifs with hbad hhigh hretro <;> simp_all

/-- A share is queued exactly when the test on the rolled copy says so. -/
theorem submitNoffsetNonce_isSome_iff (malgo : MiningAlgorithm) (work : Work)
    (nonce : UInt32) (noffset : ℤ) :
    (submitNoffsetNonce malgo work nonce noffset).2.isSome = true ↔
      (testNonce2 malgo (setNonce (copyWork work noffset) nonce) nonce true).1 = .good := by
  simp only [submitNoffsetNonce]
  obtain ⟨verdict, left⟩ := testNonce2 malgo (setNonce (copyWork work noffset) nonce) nonce true
  cases verdict <;> simp

@[simp] theorem copyWork_hash (work : Work) (noffset : ℤ) :
    (copyWork work noffset).hash = work.hash := by
  rw [copyWork]
  split <;> rfl

@[simp] theorem copyWork_nonceDiff (work : Work) (noffset : ℤ) :
    (copyWork work noffset).nonceDiff = work.nonceDiff := by
  rw [copyWork]
  split <;> rfl

@[simp] theorem copyWork_target (work : Work) (noffset : ℤ) :
    (copyWork work noffset).target = work.target := by
  rw [copyWork]
  split <;> rfl

@[simp] theorem copyWork_pool (work : Work) (noffset : ℤ) :
    (copyWork work noffset).pool = work.pool := by
  rw [copyWork]
  split <;> rfl

theorem meetsTarget_copyWork (work : Work) (nonce : UInt32) (noffset : ℤ) (hash : Hash) :
    MeetsTarget (setNonce (copyWork work noffset) nonce) hash ↔ MeetsTarget work hash := by
  simp only [MeetsTarget, RetroRule, setNonce, copyWork_target, copyWork_pool]

/-- Under SHA256d the verdict is about the bytes the work already held. -/
theorem testNonce2_sha256d_iff (work : Work) (nonce : UInt32) :
    (testNonce2 malgoSha256d work nonce true).1 = .good ↔
      testHash work.hash work.nonceDiff = true ∧ MeetsTarget work work.hash :=
  testNonce2_eq_good_iff malgoSha256d work nonce

/-- So is the decision to queue, whatever the offset. -/
theorem submitNoffsetNonce_sha256d_iff (work : Work) (nonce : UInt32) (noffset : ℤ) :
    (submitNoffsetNonce malgoSha256d work nonce noffset).2.isSome = true ↔
      testHash work.hash work.nonceDiff = true ∧ MeetsTarget work work.hash := by
  rw [submitNoffsetNonce_isSome_iff, testNonce2_sha256d_iff, meetsTarget_copyWork]
  simp [setNonce]

/-- The greatest hash passes the first test only if every hash does. -/
theorem testHash_of_ones {diff : Float} (H : testHash Hash.ones diff = true) (hash : Hash) :
    testHash hash diff = true := by
  have hword : Hash.ones.word32 7 = 2 ^ 32 - 1 := by decide +kernel
  simp only [testHash] at H ⊢
  split at H
  · simp [hword] at H
  · have hlt := hash.word32_lt 7
    rw [hword, decide_eq_true_iff] at H
    rw [if_neg ‹_›, decide_eq_true_iff]
    omega

/-- The verdict on a work and the decision to queue it are about the JumpHash of its
header, and do not change with the bytes its hash field held. -/
structure JudgesJumpHash (inner : Inner) (malgo : MiningAlgorithm) (work : Work)
    (nonce : UInt32) (noffset : ℤ) : Prop where
  good_meets : (testNonce2 malgo work nonce true).1 = .good →
    MeetsTarget work (jumpHash inner work.data nonce)
  queued_meets : (submitNoffsetNonce malgo work nonce noffset).2.isSome = true →
    MeetsTarget work (jumpHash inner (copyWork work noffset).data nonce)
  verdict_eq : ∀ h, (testNonce2 malgo { work with hash := h } nonce true).1 =
    (testNonce2 malgo work nonce true).1
  queued_eq : ∀ h, (submitNoffsetNonce malgo { work with hash := h } nonce noffset).2.isSome =
    (submitNoffsetNonce malgo work nonce noffset).2.isSome

/-- **Under SHA256d the verdict is about the JumpHash only where nothing can fail**: when
the all-ones hash passes both tests, and with it every other. -/
theorem judgesJumpHash_sha256d_iff (inner : Inner) (work : Work) (nonce : UInt32)
    (noffset : ℤ) :
    JudgesJumpHash inner malgoSha256d work nonce noffset ↔
      testHash Hash.ones work.nonceDiff = true ∧ MeetsTarget work Hash.ones := by
  constructor
  · intro H
    -- The zero hash is always accepted, so independence of the old bytes accepts them all.
    have hzero : (testNonce2 malgoSha256d { work with hash := Hash.zero } nonce true).1 = .good :=
      (testNonce2_sha256d_iff _ nonce).mpr ⟨testHash_zero _, meetsTarget_zero _⟩
    have hones :
        (testNonce2 malgoSha256d { work with hash := Hash.ones } nonce true).1 = .good := by
      rw [H.verdict_eq, ← H.verdict_eq Hash.zero, hzero]
    exact (testNonce2_sha256d_iff _ nonce).mp hones
  · rintro ⟨htest, hmeets⟩
    have hevery : ∀ h : Hash, testHash h work.nonceDiff = true ∧ MeetsTarget work h := fun h =>
      ⟨testHash_of_ones htest h, hmeets.mono (by rw [Hash.toNat_ones]; exact h.toNat_le)⟩
    have hgood : ∀ h : Hash,
        (testNonce2 malgoSha256d { work with hash := h } nonce true).1 = .good := fun h =>
      (testNonce2_sha256d_iff _ nonce).mpr (hevery h)
    have hqueued : ∀ h : Hash,
        (submitNoffsetNonce malgoSha256d { work with hash := h } nonce noffset).2.isSome = true :=
      fun h => (submitNoffsetNonce_sha256d_iff _ nonce noffset).mpr (hevery h)
    exact {
      good_meets := fun _ => (hevery _).2
      queued_meets := fun _ => (hevery _).2
      verdict_eq := fun h => (hgood h).trans (hgood work.hash).symm
      queued_eq := fun h => (hqueued h).trans (hqueued work.hash).symm }

/-- A work of difficulty one whose target and hash field are zero. -/
def zeroTargetWork : Work :=
  { Work.zero { poolDiffEffectiveRetroactively := .no, stratumActive := true,
                nextTarget := Hash.zero } with
    workDifficulty := 1, nonceDiff := 1 }

/-- Its nonce zero is queued, and the hash there is not zero. -/
theorem not_judgesJumpHash_zeroTargetWork :
    ¬ JudgesJumpHash (fun _ block => block) malgoSha256d zeroTargetWork 0 0 := by
  intro H
  have hqueued : (submitNoffsetNonce malgoSha256d zeroTargetWork 0 0).2.isSome = true :=
    (submitNoffsetNonce_sha256d_iff zeroTargetWork 0 0).mpr ⟨testHash_zero _, meetsTarget_zero _⟩
  have hhash :
      ¬ (jumpHash (fun _ block => block) zeroTargetWork.data 0).toNat ≤ Hash.zero.toNat := by
    have hword : (jumpHash (fun _ block => block) zeroTargetWork.data 0).word64 3 =
        0xde9b5fe5d7977139 := word64_jumpHash_zeros
    have hzero : Hash.zero.word64 3 = 0 := by decide +kernel
    rw [Hash.toNat_le_iff_of_ne (by rw [hword, hzero]; decide), hword, hzero]
    decide
  rcases H.queued_meets hqueued with h | ⟨hretro, -⟩
  · exact hhash h
  · exact absurd hretro.1 (by decide)

end MassGridMiner

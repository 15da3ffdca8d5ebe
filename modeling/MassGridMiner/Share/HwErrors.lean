import MassGridMiner.Difficulty
import MassGridMiner.Share.TestNonce

/-!
# Shares that are taken for hardware errors

`test_hash` looks at the leading word of a hash only: for a difficulty of one or more it has to
be zero, and for a lower one at most the reciprocal.  A hash that meets the target of the work
should pass that test, and does where `set_target_to_pdiff` keeps the leading word of the target
that small.  The difficulties are rational numbers here.

## Main definitions

* `RatedWork` — a work with its difficulties.
* `testHash`, `testNonce2`, `submitNoffsetNonce` — the functions of the source.
* `JudgesByTarget` — no hash that meets a target is taken for an error.
* `TopBelow` — when a leading word is small enough.
-/

namespace MassGridMiner

namespace Rated

/-- A work with its difficulties; those of `struct work` itself are not read. -/
structure RatedWork where
  work : Work
  nonceDiff : ℚ
  workDifficulty : ℚ

/-- `test_hash`; nothing where the conversion to `uint32_t` is not defined. -/
def testHash (hash : Hash) (diff : ℚ) : Option Bool :=
  if 1 ≤ diff then some (hash.word32 7 == 0)
  else
    let htarg := ⌈1 / diff - 1⌉
    if 0 ≤ htarg ∧ htarg < 2 ^ 32 then some (decide (hash.word32 7 ≤ htarg.toNat)) else none

/-- `target_diff`. -/
def targetDiff (target : Hash) : ℚ :=
  26959946667150639794667015087019630673637144422540572481103610249215 /
    (if target.toNat = 0 then 1 else target.toNat)

section
variable (malgo : MiningAlgorithm)

/-- `_test_nonce2`: the verdict, and the work as the test leaves it. -/
def testNonce2 (rated : RatedWork) (nonce : UInt32) (checktarget : Bool) :
    Option (TestNonce2Result × RatedWork) :=
  let work := workHash malgo (setNonce rated.work nonce)
  let rated := { rated with work := work }
  (testHash work.hash rated.nonceDiff).map fun passes =>
    if !passes then (.bad, rated)
    else if checktarget && !hashTargetCheck work.hash work.target then
      if poolDiffEffectiveRetroactively work.pool && work.pool.nextTarget != work.target &&
          hashTargetCheck work.hash work.pool.nextTarget then
        (.good, { rated with workDifficulty := targetDiff work.pool.nextTarget })
      else (.high, rated)
    else (.good, rated)

/-- What `submit_noffset_nonce` returns, what it adds to the counters of hardware errors and of
the difficulty of bad and of good nonces, and the share that it queues. -/
structure Submission where
  ret : Bool
  hwErrors : ℕ
  badDiff1 : ℚ
  diff1 : ℚ
  queued : Option RatedWork

/-- `submit_noffset_nonce`. -/
def submitNoffsetNonce (ratedIn : RatedWork) (nonce : UInt32) (noffset : ℤ) :
    Option Submission :=
  let rated := { ratedIn with work := setNonce (copyWork ratedIn.work noffset) nonce }
  (testNonce2 malgo rated nonce true).map fun res =>
    match res with
    | (.bad, rated) => ⟨false, 1, rated.nonceDiff, 0, none⟩
    | (.high, rated) => ⟨true, 0, 0, rated.nonceDiff, none⟩
    | (.good, rated) => ⟨true, 0, 0, rated.nonceDiff, some rated⟩

/-- The hash that is tested. -/
def testedHash (rated : RatedWork) (nonce : UInt32) (noffset : ℤ) : Hash :=
  malgo.hashDataF rated.work.hash
    (setNonce (setNonce (copyWork rated.work noffset) nonce) nonce).data

end

/-- For whatever algorithm, nonce and offset: a share that meets the target of the work is
queued, and a nonce that meets the target of its own difficulty is counted; neither is taken for
a hardware error. -/
structure JudgesByTarget (rated : RatedWork) : Prop where
  queued : ∀ malgo nonce noffset,
    hashTargetCheck (testedHash malgo rated nonce noffset) rated.work.target = true →
      ∃ submission, submitNoffsetNonce malgo rated nonce noffset = some submission ∧
        submission.hwErrors = 0 ∧ submission.queued.isSome = true
  counted : ∀ malgo nonce noffset,
    hashTargetCheck (testedHash malgo rated nonce noffset) (setTargetToPdiff rated.nonceDiff) =
      true →
      ∃ submission, submitNoffsetNonce malgo rated nonce noffset = some submission ∧
        submission.hwErrors = 0 ∧ submission.diff1 = rated.nonceDiff

/-- The leading word of the target of a difficulty is no greater than `test_hash` has it: a number
that, without the powers of 2^32 that are divided out, goes that often into 4294901760 / 2^32 is
below the reciprocal of the difficulty of the nonce. -/
def TopBelow (nonceDiff d : ℚ) : Prop :=
  ∀ n : ℕ, n * (2 ^ 32 * scaled d) ≤ 4294901760 → n * nonceDiff < 1

/-! ## Leading words -/

theorem toNat_eq (hash : Hash) : hash.toNat = hash.lowWords 7 + 2 ^ 224 * hash.word32 7 :=
  Bytes.lowWords_succ hash 7

theorem word32_seven_le_of_le {h t : Hash} (H : h.toNat ≤ t.toNat) :
    h.word32 7 ≤ t.word32 7 := by
  rw [toNat_eq, toNat_eq, Bytes.add_mul_le_add_mul_iff (h.lowWords_lt 7) (t.lowWords_lt 7)] at H
  omega

/-- The leading word of a target. -/
theorem word32_setTargetToPdiff {d : ℚ} (H : 1 / 2 ^ 32 ≤ d) :
    (setTargetToPdiff d).word32 7 = ⌊4294901760 / scaled d⌋₊ / 2 ^ 32 := by
  have hwritten := toNat_setTargetToPdiff H
  have hlow := (setTargetToPdiff d).lowWords_lt 7
  rw [toNat_eq] at hwritten
  omega

theorem le_word32_setTargetToPdiff_iff {d : ℚ} (H : 1 / 2 ^ 32 ≤ d) (n : ℕ) :
    n ≤ (setTargetToPdiff d).word32 7 ↔ n * (2 ^ 32 * scaled d) ≤ 4294901760 := by
  have hpos := scaled_pos H
  rw [word32_setTargetToPdiff H, Nat.le_div_iff_mul_le (by norm_num),
    Nat.le_floor_iff (by positivity), le_div_iff₀ hpos, Nat.cast_mul, Nat.cast_pow,
    Nat.cast_ofNat, mul_assoc]

/-- A hash passes the test if its leading word is below the reciprocal of the difficulty. -/
theorem testHash_eq (hash : Hash) {diff : ℚ} (H : 1 / 2 ^ 32 ≤ diff) :
    testHash hash diff = some (decide (hash.word32 7 * diff < 1)) := by
  have hpos : 0 < diff := lt_of_lt_of_le (by norm_num) H
  rw [testHash]
  split
  next hge =>
    congr 1
    rcases Nat.eq_zero_or_pos (hash.word32 7) with hzero | hword
    · rw [hzero]
      simp
    · have hone : (1 : ℚ) ≤ hash.word32 7 := by exact_mod_cast hword
      have hle : 1 ≤ hash.word32 7 * diff := one_le_mul_of_one_le_of_one_le hone hge
      rw [decide_eq_false (not_lt.mpr hle)]
      exact beq_false_of_ne hword.ne'
  next hlt =>
    rw [not_le] at hlt
    have hrecip : 1 < 1 / diff := (one_lt_div hpos).mpr hlt
    have hsmall : 1 / diff ≤ 2 ^ 32 := by
      rw [div_le_iff₀ hpos]
      linarith
    have hceil : ⌈1 / diff - 1⌉ = ⌈1 / diff⌉ - 1 := Int.ceil_sub_one _
    have hlow : 1 ≤ ⌈1 / diff⌉ := Int.one_le_ceil_iff.mpr (by linarith)
    have hhigh : ⌈1 / diff⌉ ≤ 2 ^ 32 := Int.ceil_le.mpr (by exact_mod_cast hsmall)
    dsimp only
    rw [hceil, if_pos ⟨by omega, by omega⟩]
    congr 1
    apply decide_eq_decide.mpr
    have hword : (hash.word32 7 : ℤ) < ⌈1 / diff⌉ ↔ (hash.word32 7 : ℚ) < 1 / diff := by
      rw [Int.lt_ceil]
      push_cast
      rfl
    rw [← lt_div_iff₀ hpos, ← hword]
    omega

/-- Below 2^-32 nothing is defined. -/
theorem testHash_eq_none (hash : Hash) {diff : ℚ} (hpos : 0 < diff) (H : diff < 1 / 2 ^ 32) :
    testHash hash diff = none := by
  have hlarge : 2 ^ 32 < 1 / diff := by
    rw [lt_div_iff₀ hpos]
    linarith
  have hlt : ((2 ^ 32 - 1 : ℤ) : ℚ) < 1 / diff - 1 := by
    push_cast
    linarith
  have hceil : 2 ^ 32 - 1 < ⌈1 / diff - 1⌉ := Int.lt_ceil.mpr hlt
  rw [testHash, if_neg (by norm_num at H ⊢; linarith)]
  dsimp only
  rw [if_neg (by omega)]

/-- The hashes that meet the target of a difficulty all pass exactly when the target itself
does. -/
theorem testHash_of_topBelow_iff {nonceDiff d : ℚ} (hmin : 1 / 2 ^ 32 ≤ nonceDiff)
    (hd : 1 / 2 ^ 32 ≤ d) :
    (∀ hash, hashTargetCheck hash (setTargetToPdiff d) = true →
      testHash hash nonceDiff = some true) ↔ TopBelow nonceDiff d := by
  have hpos : 0 < nonceDiff := lt_of_lt_of_le (by norm_num) hmin
  constructor
  · intro hall n hn
    have htop := hall (setTargetToPdiff d) ((hashTargetCheck_iff _ _).mpr le_rfl)
    rw [testHash_eq _ hmin, Option.some.injEq, decide_eq_true_iff] at htop
    have hle : (n : ℚ) ≤ (setTargetToPdiff d).word32 7 := by
      exact_mod_cast (le_word32_setTargetToPdiff_iff hd n).mpr hn
    exact (mul_le_mul_of_nonneg_right hle hpos.le).trans_lt htop
  · intro hbelow hash hmeets
    have hle := word32_seven_le_of_le ((hashTargetCheck_iff _ _).mp hmeets)
    rw [testHash_eq _ hmin, decide_eq_true (hbelow _ ?_)]
    exact (le_word32_setTargetToPdiff_iff hd _).mp hle

/-! ## Submissions -/

section
variable {malgo : MiningAlgorithm} {rated : RatedWork} {nonce : UInt32} {noffset : ℤ}

/-- The work that is tested. -/
theorem work_tested :
    workHash malgo (setNonce (setNonce (copyWork rated.work noffset) nonce) nonce) =
    { setNonce (setNonce (copyWork rated.work noffset) nonce) nonce with
      hash := testedHash malgo rated nonce noffset } := by
  rw [workHash, testedHash]
  simp [setNonce]

/-- What becomes of a nonce whose hash passes the test. -/
theorem submitNoffsetNonce_of_passes
    (H : testHash (testedHash malgo rated nonce noffset) rated.nonceDiff = some true) :
    ∃ submission, submitNoffsetNonce malgo rated nonce noffset = some submission ∧
      submission.hwErrors = 0 ∧ submission.diff1 = rated.nonceDiff ∧
      (hashTargetCheck (testedHash malgo rated nonce noffset) rated.work.target = true →
        submission.queued.isSome = true) := by
  rw [submitNoffsetNonce, testNonce2]
  dsimp only
  rw [work_tested, H]
  simp only [Option.map_some, Bool.not_true, Bool.false_eq_true, if_false, setNonce,
    copyWork_target, copyWork_pool]
  by_cases hmeets : hashTargetCheck (testedHash malgo rated nonce noffset) rated.work.target = true
  · rw [hmeets]
    exact ⟨_, rfl, rfl, rfl, fun _ => rfl⟩
  · rw [Bool.not_eq_true] at hmeets
    rw [hmeets]
    simp only [Bool.not_false, Bool.and_true, if_true]
    generalize (poolDiffEffectiveRetroactively rated.work.pool &&
      rated.work.pool.nextTarget != rated.work.target &&
      hashTargetCheck (testedHash malgo rated nonce noffset) rated.work.pool.nextTarget) = retro
    cases retro with
    | false => exact ⟨_, rfl, rfl, rfl, fun h => absurd h Bool.false_ne_true⟩
    | true => exact ⟨_, rfl, rfl, rfl, fun h => absurd h Bool.false_ne_true⟩

/-- A nonce that is not taken for an error has passed it. -/
theorem passes_of_hwErrors {submission : Submission}
    (hsubmit : submitNoffsetNonce malgo rated nonce noffset = some submission)
    (H : submission.hwErrors = 0) :
    testHash (testedHash malgo rated nonce noffset) rated.nonceDiff = some true := by
  rw [submitNoffsetNonce, testNonce2] at hsubmit
  dsimp only at hsubmit
  rw [work_tested] at hsubmit
  cases htest : testHash (testedHash malgo rated nonce noffset) rated.nonceDiff with
  | none =>
      rw [htest] at hsubmit
      cases hsubmit
  | some passes =>
      rw [htest] at hsubmit
      cases passes with
      | true => rfl
      | false =>
          obtain rfl := Option.some.inj hsubmit
          cases H

end

/-- An algorithm whose hashes are all the same. -/
def constMalgo (hash : Hash) : MiningAlgorithm := ⟨"", "", fun _ _ => hash⟩

theorem testedHash_constMalgo (hash : Hash) (rated : RatedWork) (nonce : UInt32) (noffset : ℤ) :
    testedHash (constMalgo hash) rated nonce noffset = hash := rfl

/-- **No hash that meets a target is taken for a hardware error exactly where the leading words of
both targets are small enough** and the conversion is defined. -/
theorem judgesByTarget_iff (rated : RatedWork) (hpos : 0 < rated.nonceDiff)
    (hle : rated.nonceDiff ≤ rated.workDifficulty)
    (htarget : rated.work.target = setTargetToPdiff rated.workDifficulty) :
    JudgesByTarget rated ↔ 1 / 2 ^ 32 ≤ rated.nonceDiff ∧
      TopBelow rated.nonceDiff rated.workDifficulty ∧
      TopBelow rated.nonceDiff rated.nonceDiff := by
  constructor
  · intro H
    have hpasses : ∀ hash, hashTargetCheck hash rated.work.target = true →
        testHash hash rated.nonceDiff = some true := by
      intro hash hmeets
      rw [← testedHash_constMalgo hash rated 0 0] at hmeets ⊢
      obtain ⟨submission, hsubmit, herrors, -⟩ := H.queued (constMalgo hash) 0 0 hmeets
      exact passes_of_hwErrors hsubmit herrors
    have hcounted : ∀ hash, hashTargetCheck hash (setTargetToPdiff rated.nonceDiff) = true →
        testHash hash rated.nonceDiff = some true := by
      intro hash hmeets
      rw [← testedHash_constMalgo hash rated 0 0] at hmeets ⊢
      obtain ⟨submission, hsubmit, herrors, -⟩ := H.counted (constMalgo hash) 0 0 hmeets
      exact passes_of_hwErrors hsubmit herrors
    have hmin : 1 / 2 ^ 32 ≤ rated.nonceDiff := by
      by_contra hsmall
      have hnone := testHash_eq_none rated.work.target hpos (not_le.mp hsmall)
      rw [hpasses _ ((hashTargetCheck_iff _ _).mpr le_rfl)] at hnone
      cases hnone
    rw [htarget] at hpasses
    exact ⟨hmin, (testHash_of_topBelow_iff hmin (hmin.trans hle)).mp hpasses,
      (testHash_of_topBelow_iff hmin hmin).mp hcounted⟩
  · rintro ⟨hmin, hwork, hnonce⟩
    have hpasses := (testHash_of_topBelow_iff hmin (hmin.trans hle)).mpr hwork
    have hcounted := (testHash_of_topBelow_iff hmin hmin).mpr hnonce
    rw [← htarget] at hpasses
    constructor
    · intro malgo nonce noffset hmeets
      obtain ⟨submission, hsubmit, herrors, -, hqueued⟩ :=
        submitNoffsetNonce_of_passes (hpasses _ hmeets)
      exact ⟨submission, hsubmit, herrors, hqueued hmeets⟩
    · intro malgo nonce noffset hmeets
      obtain ⟨submission, hsubmit, herrors, hdiff, -⟩ :=
        submitNoffsetNonce_of_passes (hcounted _ hmeets)
      exact ⟨submission, hsubmit, herrors, hdiff⟩

/-- Up to difficulty one nothing is divided out, and the leading word is small enough. -/
theorem topBelow_of_le_one {nonceDiff d : ℚ} (hle : nonceDiff ≤ d) (hone : d ≤ 1) :
    TopBelow nonceDiff d := by
  have hscaled : scaled d = d := by
    rw [scaled, leadPowers, clog_ceil_eq_zero hone, Nat.min_zero, pow_zero, div_one]
  intro n hn
  rw [hscaled] at hn
  have hmul : (n : ℚ) * nonceDiff ≤ n * d := mul_le_mul_of_nonneg_left hle n.cast_nonneg
  linarith

/-- A work of such difficulties, with the target of its own. -/
def ofDifficulties (nonceDiff workDifficulty : ℚ) : RatedWork where
  work := { zeroTargetWork with target := setTargetToPdiff workDifficulty }
  nonceDiff := nonceDiff
  workDifficulty := workDifficulty

/-- A hash that meets the target of difficulty two is taken for an error by a nonce of difficulty
one. -/
theorem not_judgesByTarget_two : (0 : ℚ) < 1 ∧ (1 : ℚ) ≤ 2 ∧
    ¬ JudgesByTarget (ofDifficulties 1 2) := by
  refine ⟨by norm_num, by norm_num, fun H => ?_⟩
  have hmeets : hashTargetCheck (setTargetToPdiff 2) (setTargetToPdiff 2) = true :=
    (hashTargetCheck_iff _ _).mpr le_rfl
  obtain ⟨submission, hsubmit, herrors, -⟩ :=
    H.queued (constMalgo (setTargetToPdiff 2)) 0 0 hmeets
  have hpasses := passes_of_hwErrors hsubmit herrors
  rw [testedHash_constMalgo] at hpasses
  have hfails : testHash (setTargetToPdiff 2) 1 = some false := by decide +kernel
  exact absurd (hfails.symm.trans hpasses) (by decide)

/-- Between one half and one, no hash is. -/
theorem judgesByTarget_half : JudgesByTarget (ofDifficulties (1 / 2) 1) :=
  (judgesByTarget_iff (ofDifficulties (1 / 2) 1) (by norm_num [ofDifficulties])
    (by norm_num [ofDifficulties]) rfl).mpr
    ⟨by norm_num [ofDifficulties],
      topBelow_of_le_one (by norm_num [ofDifficulties]) le_rfl,
      topBelow_of_le_one le_rfl (by norm_num [ofDifficulties])⟩

end Rated

end MassGridMiner

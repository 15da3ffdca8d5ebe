import MassGridMiner.Device.ScanHash
import MassGridMiner.Lib.Run

/-!
# The limit of a scan

`minerloop_scanhash` asks a driver that can limit its work to scan up to `max_nonce` nonces on.
After each call `hashes_done` rescales that limit by the time that was taken, so that the next
call takes one cycle.  It divides by the time, which may be zero; the limit becomes zero where
the call took too long; and `abandon_work` compares the nonces that are left with the greatest
number of hashes so far, not with the new limit.

## Main definitions

* `ScanRound`, `HashLimit`, `HashLimit.step` — the rounds, and what the loop keeps between them.
* `Sane` — what must hold after each step.
* `Timely` — when it does.
-/

namespace MassGridMiner

/-- What happens in a turn of the inner loop: `hashes` is what `api->scanhash` returns, `nonce`
the nonce of the work as it leaves it, `elapsed` the microseconds it took, `otherHashes` the
greatest number of hashes that other threads of the device have had, and `stops` says that the
work is stale or its scan time over. -/
structure ScanRound where
  hashes : ℤ
  nonce : UInt32
  elapsed : ℕ
  optLogInterval : Fin 10000
  optRestart : Bool
  workRestart : Bool
  otherHashes : ℕ
  stops : Bool

/-- The variables of the loop: `nonce` is that of the work at hand, and `crashed` says that
there was a division by zero. -/
structure HashLimit where
  maxNonce : UInt32
  maxHashes : ℕ
  scanhashWorking : Bool
  tvHashesDone : ℕ
  nonce : Option UInt32
  crashed : Bool

inductive LimitEvent
  | getWork
  | scan (round : ScanRound)

namespace ScanRound

/-- `opt_log_interval / 5 ? : 1`. -/
def cycle (round : ScanRound) : ℕ :=
  if round.optLogInterval.val / 5 = 0 then 1 else round.optLogInterval.val / 5

/-- The hashes that are counted: none where the call failed. -/
def counted (round : ScanRound) : ℤ := if round.hashes = -1 then 0 else round.hashes

end ScanRound

/-- The rescaled limit; `none` where the division is by zero. -/
def newMaxNonce (maxNonce : UInt32) (cycle tvHashesDone : ℕ) : Option UInt32 :=
  let elapsed := tvHashesDone % 2 ^ 64
  let newMaxNonce := maxNonce.toNat * cycle % 2 ^ 64 * 1000000 % 2 ^ 64
  if elapsed = 0 then none
  else some (UInt32.ofNat (min (newMaxNonce / elapsed) 0xffffffff))

namespace HashLimit

/-- The branch of `hashes_done` that returns false. -/
def disables (s : HashLimit) (round : ScanRound) : Bool :=
  round.hashes == -1 && !(s.scanhashWorking && round.optRestart)

/-- `cgpu->max_hashes` after `hashes_done`. -/
def hashesAtAbandon (s : HashLimit) (round : ScanRound) : ℕ :=
  let maxHashes := max s.maxHashes round.otherHashes
  if s.disables round then maxHashes else hashesDone round.counted maxHashes

/-- What `hashes_done` does where it returns true.  `hashmeter2` clears the time. -/
def rescale (s : HashLimit) (round : ScanRound) : HashLimit :=
  let maxNonce := newMaxNonce s.maxNonce round.cycle (s.tvHashesDone + round.elapsed)
  { s with
    scanhashWorking := round.hashes != -1
    maxNonce := maxNonce.getD s.maxNonce
    tvHashesDone := 0
    crashed := maxNonce.isNone }

/-- The work is left after the round. -/
def leaves (s : HashLimit) (round : ScanRound) : Bool :=
  (!s.disables round && round.workRestart) ||
    abandonWork round.nonce (s.hashesAtAbandon round) round.stops

/-- A turn of the inner loop. -/
def scan (s : HashLimit) (round : ScanRound) : HashLimit :=
  let done := if s.disables round then s else s.rescale round
  { done with
    maxHashes := s.hashesAtAbandon round
    nonce := if s.leaves round then none else some round.nonce }

/-- `minerloop_scanhash`: a work is got when there is none, and scanned until it is left. -/
def step (s : HashLimit) : LimitEvent → Option HashLimit
  | .getWork => if s.crashed = false ∧ s.nonce = none then some { s with nonce := some 0 } else none
  | .scan round =>
      if s.crashed = false ∧ s.nonce.isSome then some (s.scan round) else none

/-- The thread starts, with the limit that the driver gives. -/
structure Started (s : HashLimit) : Prop where
  maxNonce : 1 ≤ s.maxNonce
  tvHashesDone : s.tvHashesDone = 0
  nonce : s.nonce = none
  crashed : s.crashed = false

/-- There was no division by zero, the limit is not zero, and the bound of the next scan,
`work->blk.nonce + max_nonce`, is not below the nonce it starts at. -/
structure Sane (s : HashLimit) : Prop where
  divides : s.crashed = false
  maxNonce : 1 ≤ s.maxNonce
  bound : ∀ nonce ∈ s.nonce, nonce ≤ nonce + s.maxNonce

/-- The condition on a round: the call took some time, and no longer than the limit times the
cycle in microseconds; and if the work is not left, it was not so short that the limit grows
beyond the nonces that remain.  A call that failed leaves the limit as it was. -/
def Timely (s : HashLimit) : LimitEvent → Prop
  | .getWork => True
  | .scan round =>
      if s.disables round then
        s.leaves round = true ∨ round.nonce.toNat + s.maxNonce.toNat < 2 ^ 32
      else
        let elapsed := round.elapsed % 2 ^ 64
        (1 ≤ elapsed ∧ elapsed ≤ s.maxNonce.toNat * round.cycle * 1000000) ∧
          (s.leaves round = true ∨ round.nonce = 0 ∨
            s.maxNonce.toNat * round.cycle * 1000000 < (2 ^ 32 - round.nonce.toNat) * elapsed)

end HashLimit

/-! ## The limit -/

theorem le_add_iff (a b : UInt32) : a ≤ a + b ↔ a.toNat + b.toNat < 2 ^ 32 := by
  have hb := b.toNat_lt
  rw [UInt32.le_iff_toNat_le, UInt32.toNat_add]
  constructor
  · intro hle
    by_contra hge
    have hwrap : (a.toNat + b.toNat) % 2 ^ 32 = a.toNat + b.toNat - 2 ^ 32 := by
      have ha := a.toNat_lt
      omega
    omega
  · intro hlt
    rw [Nat.mod_eq_of_lt hlt]
    omega

theorem cycle_le (round : ScanRound) : round.cycle ≤ 2000 := by
  have hlt := round.optLogInterval.isLt
  rw [ScanRound.cycle]
  split <;> omega

section
variable {maxNonce nonce : UInt32} {cycle elapsed : ℕ}

theorem newMaxNonce_eq_none_iff : newMaxNonce maxNonce cycle elapsed = none ↔
    elapsed % 2 ^ 64 = 0 := by
  simp [newMaxNonce]

/-- No product overflows. -/
theorem newMaxNonce_eq (hcycle : cycle ≤ 2000) (helapsed : elapsed % 2 ^ 64 ≠ 0) :
    newMaxNonce maxNonce cycle elapsed = some (UInt32.ofNat
      (min (maxNonce.toNat * cycle * 1000000 / (elapsed % 2 ^ 64)) 0xffffffff)) := by
  have hmul : maxNonce.toNat * cycle ≤ 2 ^ 32 * 2000 :=
    Nat.mul_le_mul maxNonce.toNat_lt.le hcycle
  rw [newMaxNonce, if_neg helapsed, Nat.mod_eq_of_lt (by omega : maxNonce.toNat * cycle < 2 ^ 64),
    Nat.mod_eq_of_lt (by omega : maxNonce.toNat * cycle * 1000000 < 2 ^ 64)]

theorem toNat_capped (n : ℕ) : (UInt32.ofNat (min n 0xffffffff)).toNat = min n 0xffffffff :=
  UInt32.toNat_ofNat_of_lt' (by rw [UInt32.size]; omega)

/-- The new limit is not zero if the time is not longer than what it is scaled to. -/
theorem one_le_newMaxNonce {limit : UInt32} (hcycle : cycle ≤ 2000)
    (H : newMaxNonce maxNonce cycle elapsed = some limit) :
    1 ≤ limit ↔ elapsed % 2 ^ 64 ≤ maxNonce.toNat * cycle * 1000000 := by
  have hne : elapsed % 2 ^ 64 ≠ 0 := by
    intro hzero
    rw [newMaxNonce_eq_none_iff.mpr hzero] at H
    cases H
  rw [newMaxNonce_eq hcycle hne] at H
  obtain rfl := Option.some.inj H
  rw [UInt32.le_iff_toNat_le, toNat_capped, UInt32.toNat_one]
  have hdiv := Nat.div_pos_iff (a := maxNonce.toNat * cycle * 1000000) (b := elapsed % 2 ^ 64)
  omega

/-- The next bound does not wrap if the time is long enough for the nonces that remain. -/
theorem le_add_newMaxNonce {limit : UInt32} (hcycle : cycle ≤ 2000)
    (H : newMaxNonce maxNonce cycle elapsed = some limit) :
    nonce ≤ nonce + limit ↔ nonce = 0 ∨
      maxNonce.toNat * cycle * 1000000 < (2 ^ 32 - nonce.toNat) * (elapsed % 2 ^ 64) := by
  have hne : elapsed % 2 ^ 64 ≠ 0 := by
    intro hzero
    rw [newMaxNonce_eq_none_iff.mpr hzero] at H
    cases H
  rw [newMaxNonce_eq hcycle hne] at H
  obtain rfl := Option.some.inj H
  have hnonce := nonce.toNat_lt
  have hdiv : maxNonce.toNat * cycle * 1000000 / (elapsed % 2 ^ 64) < 2 ^ 32 - nonce.toNat ↔
      maxNonce.toNat * cycle * 1000000 < (2 ^ 32 - nonce.toNat) * (elapsed % 2 ^ 64) :=
    Nat.div_lt_iff_lt_mul (Nat.pos_of_ne_zero hne)
  rw [le_add_iff, toNat_capped, ← hdiv, ← UInt32.toNat_inj, UInt32.toNat_zero]
  omega

end

/-! ## A round -/

namespace HashLimit

section
variable {s s' : HashLimit} {round : ScanRound}

/-- Where the call failed, the limit and the time stay as they were. -/
theorem scan_of_disables (H : s.disables round = true) :
    s.scan round = { s with
      maxHashes := s.hashesAtAbandon round
      nonce := if s.leaves round then none else some round.nonce } := by
  rw [scan, if_pos H]

theorem sane_scan_of_disables (hs : s.Sane) (H : s.disables round = true) :
    (s.scan round).Sane ↔ s.leaves round = true ∨
      round.nonce.toNat + s.maxNonce.toNat < 2 ^ 32 := by
  rw [scan_of_disables H, ← le_add_iff]
  cases hleaves : s.leaves round with
  | true =>
      refine ⟨fun _ => .inl rfl, fun _ => ⟨hs.divides, hs.maxNonce, ?_⟩⟩
      intro nonce hnonce
      cases hnonce
  | false =>
      constructor
      · intro hsane
        exact .inr (hsane.bound round.nonce rfl)
      · intro hcond
        refine ⟨hs.divides, hs.maxNonce, ?_⟩
        intro nonce hnonce
        obtain rfl := Option.some.inj hnonce
        exact hcond.resolve_left Bool.false_ne_true

theorem sane_scan_of_rescales (htime : s.tvHashesDone = 0)
    (H : s.disables round = false) :
    (s.scan round).Sane ↔
      (1 ≤ round.elapsed % 2 ^ 64 ∧
        round.elapsed % 2 ^ 64 ≤ s.maxNonce.toNat * round.cycle * 1000000) ∧
      (s.leaves round = true ∨ round.nonce = 0 ∨
        s.maxNonce.toNat * round.cycle * 1000000 <
          (2 ^ 32 - round.nonce.toNat) * (round.elapsed % 2 ^ 64)) := by
  have hscan : s.scan round = { s.rescale round with
      maxHashes := s.hashesAtAbandon round
      nonce := if s.leaves round then none else some round.nonce } := by
    rw [scan, H]
    rfl
  have hcycle := cycle_le round
  rw [hscan, rescale, htime, Nat.zero_add]
  cases hnew : newMaxNonce s.maxNonce round.cycle round.elapsed with
  | none =>
      have hzero := newMaxNonce_eq_none_iff.mp hnew
      constructor
      · intro hsane
        exact absurd hsane.divides (by simp)
      · intro hcond
        omega
  | some limit =>
      have hpos : 1 ≤ round.elapsed % 2 ^ 64 := by
        by_contra hzero
        rw [newMaxNonce_eq_none_iff.mpr (by omega)] at hnew
        cases hnew
      have hone := one_le_newMaxNonce hcycle hnew
      have hbound := @le_add_newMaxNonce _ round.nonce _ _ _ hcycle hnew
      rw [← hone, ← hbound]
      cases hleaves : s.leaves round with
      | true =>
          constructor
          · intro hsane
            exact ⟨⟨hpos, hsane.maxNonce⟩, .inl rfl⟩
          · intro hcond
            refine ⟨rfl, hcond.1.2, ?_⟩
            intro nonce hnonce
            cases hnonce
      | false =>
          constructor
          · intro hsane
            exact ⟨⟨hpos, hsane.maxNonce⟩, .inr (hsane.bound round.nonce rfl)⟩
          · intro hcond
            refine ⟨rfl, hcond.1.2, ?_⟩
            intro nonce hnonce
            obtain rfl := Option.some.inj hnonce
            exact hcond.2.resolve_left Bool.false_ne_true

/-- A work starts at nonce zero, so that no limit is too large for it. -/
theorem Sane.getWork (hs : s.Sane) : ({ s with nonce := some 0 } : HashLimit).Sane := by
  refine ⟨hs.divides, hs.maxNonce, ?_⟩
  intro nonce hnonce
  obtain rfl := Option.some.inj hnonce
  rw [le_add_iff]
  exact (Nat.zero_add _).trans_lt s.maxNonce.toNat_lt

/-- **Steps.**  What follows a sane state is sane exactly when the round is timely. -/
theorem sane_step_iff {e : LimitEvent} (hs : s.Sane) (htime : s.tvHashesDone = 0)
    (hstep : s.step e = some s') : s'.Sane ↔ s.Timely e := by
  cases e with
  | getWork =>
      rw [step, Option.ite_none_right_eq_some] at hstep
      obtain rfl := Option.some.inj hstep.2
      exact ⟨fun _ => trivial, fun _ => hs.getWork⟩
  | scan round =>
      rw [step, Option.ite_none_right_eq_some] at hstep
      obtain rfl := Option.some.inj hstep.2
      rw [Timely]
      cases hdisables : s.disables round with
      | true => exact sane_scan_of_disables hs hdisables
      | false => exact sane_scan_of_rescales htime hdisables

/-- The time is that of one round. -/
theorem tvHashesDone_step {e : LimitEvent} (htime : s.tvHashesDone = 0)
    (hstep : s.step e = some s') : s'.tvHashesDone = 0 := by
  cases e with
  | getWork =>
      rw [step, Option.ite_none_right_eq_some] at hstep
      obtain rfl := Option.some.inj hstep.2
      exact htime
  | scan round =>
      rw [step, Option.ite_none_right_eq_some] at hstep
      obtain rfl := Option.some.inj hstep.2
      rw [scan]
      split
      next => exact htime
      next => rfl

theorem Started.sane (hs : s.Started) : s.Sane := by
  refine ⟨hs.crashed, hs.maxNonce, ?_⟩
  intro nonce hnonce
  rw [hs.nonce] at hnonce
  cases hnonce

end

/-- **Every state of a run is sane exactly when every round of it is timely.** -/
theorem allSteps_sane_iff {s : HashLimit} (hs : s.Started) (es : List LimitEvent) :
    Run.AllSteps step (fun _ _ s' => s'.Sane) s es ↔
      Run.AllSteps step (fun s e _ => s.Timely e) s es :=
  Run.allSteps_congr (P := fun _ _ s' => s'.Sane) (Q := fun s e _ => s.Timely e)
    (I := fun s => s.Sane ∧ s.tvHashesDone = 0)
    (fun _ _ _ hI hstep => sane_step_iff hI.1 hI.2 hstep)
    (fun _ _ _ hI hstep hsane => ⟨hsane, tvHashesDone_step hI.2 hstep⟩)
    es ⟨hs.sane, hs.tvHashesDone⟩

/-- The start of a thread with such a limit. -/
def ofLimit (maxNonce : UInt32) : HashLimit := ⟨maxNonce, 0, false, 0, none, false⟩

/-- A work is got and scanned once: that many hashes in so many microseconds, with a cycle of
four seconds. -/
def scannedOnce (hashes : ℕ) (elapsed : ℕ) : List LimitEvent :=
  [.getWork, .scan ⟨hashes, UInt32.ofNat hashes, elapsed, 20, true, false, 0, false⟩]

/-- What a run of one scan comes to. -/
theorem sane_of_scannedOnce {s : HashLimit} {hashes elapsed : ℕ}
    (H : Run.AllSteps step (fun _ _ s' => s'.Sane) s (scannedOnce hashes elapsed)) :
    ∀ s' ∈ Run.exec step s (scannedOnce hashes elapsed), s'.Sane := by
  intro s' hs'
  obtain ⟨got, hgot, hrest⟩ := Option.bind_eq_some_iff.mp hs'
  obtain ⟨scanned, hscanned, hend⟩ := Option.bind_eq_some_iff.mp hrest
  obtain rfl := Option.some.inj hend
  exact ((H got hgot).2 scanned hscanned).1

/-- A call that takes no time, one that takes longer than a cycle for one nonce, and one that
takes fifty microseconds for all that it was asked for. -/
theorem not_sane_scannedOnce :
    ¬ Run.AllSteps step (fun _ _ s' => s'.Sane) (ofLimit 0xffff) (scannedOnce 0 0) ∧
    ¬ Run.AllSteps step (fun _ _ s' => s'.Sane) (ofLimit 1) (scannedOnce 1 5000000) ∧
    ¬ Run.AllSteps step (fun _ _ s' => s'.Sane) (ofLimit 0xffff) (scannedOnce 0xffff 50) := by
  refine ⟨fun H => ?_, fun H => ?_, fun H => ?_⟩
  · exact absurd (sane_of_scannedOnce H _ rfl).divides (by decide)
  · exact absurd (sane_of_scannedOnce H _ rfl).maxNonce (by decide)
  · exact absurd ((sane_of_scannedOnce H _ rfl).bound 0xffff (by decide)) (by decide)

/-- In a second, the limit grows fourfold. -/
theorem sane_scannedOnce : Run.AllSteps step (fun _ _ s' => s'.Sane) (ofLimit 0xffff)
    (scannedOnce 0xffff 1000000) :=
  (allSteps_sane_iff ⟨by decide, rfl, rfl, rfl⟩ _).mpr
    (Run.allSteps_cons_of_eq rfl trivial (Run.allSteps_cons_of_eq rfl
      ⟨by decide, .inr (.inr (by decide))⟩ trivial))

end HashLimit

end MassGridMiner

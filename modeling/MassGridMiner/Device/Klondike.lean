import MassGridMiner.Lib.Run
import Mathlib.Algebra.Order.Ring.Nat
import Mathlib.Data.List.Basic

/-!
# Chip statistics of a Klondike

Each device of a Klondike has counters for the good and the bad nonces of its chips, as many as it
has chips when the driver is initialised.  Which chip a nonce is from is the nonce divided by the
size of the range that a chip searches.  The chip count that the bad ones are counted behind is the
one that the device reported last.

## Main definitions

* `Klondike.klondikeInit`, `Klondike.klondikeCheckNonce`, `Klondike.klondikeZeroStats` — the
  functions.
* `Klondike.step` — the messages of a device.
* `Klondike.Lawful` — no division by zero and no counter outside of the array, and a good nonce is
  counted for one of the chips.
* `Klondike.allSteps_replied_iff` — the runs in which all is lawful.
-/

namespace MassGridMiner
namespace Klondike

/-- What is used of a status reply. -/
structure WorkStatus where
  chipcount : UInt8
  slavecount : UInt8
  deriving DecidableEq

/-- A `DEVINFO`: its statistics. -/
structure DevInfo where
  noncecount : UInt32
  rangesize : UInt32
  chipstats : List UInt32

/-- A `struct klondike_info`: the arrays, which are empty before they are allocated, and the
counts.  The delays, which are times, are left out. -/
structure Klninfo where
  status : List WorkStatus
  devinfo : List DevInfo
  noncecount : ℕ
  nonceOffset : ℤ
  hashcount : ℕ
  errorcount : ℕ
  noisecount : ℕ

/-- As `klondike_lowl_probe` makes it. -/
def probe : Klninfo := ⟨[], [], 0, 0, 0, 0, 0⟩

/-! ## Initialisation -/

/-- `klondike_get_stats`: the replies that come are stored. -/
def klondikeGetStats (replies : ℕ → Option WorkStatus) (status : List WorkStatus) :
    List WorkStatus :=
  status.mapIdx fun dev ws => (replies dev).getD ws

/-- The statistics of a device with so many chips. -/
def newDevInfo (chips : ℕ) : DevInfo where
  noncecount := 0
  rangesize := UInt32.ofNat (2 ^ 32 / chips)
  chipstats := List.replicate (chips * 2) 0

/-- The statistics of a device, from its status; none if that is a division by zero. -/
def initDevInfo (ws : WorkStatus) : Option DevInfo :=
  if ws.chipcount = 0 then none else some (newDevInfo ws.chipcount.toNat)

/-- `klondike_init`, given the reply for the master and what the devices reply then. -/
def klondikeInit (first : WorkStatus) (replies : ℕ → Option WorkStatus) (k : Klninfo) :
    Option Klninfo := do
  let status := first :: List.replicate first.slavecount.toNat ⟨0, 0⟩
  let status := klondikeGetStats replies status
  let devinfo ← status.mapM initDevInfo
  some { k with status, devinfo }

/-! ## Nonces -/

/-- A work in the queue, with what comes of testing and of submitting a nonce for it, and whether
it is recent enough by now. -/
structure Look where
  subid : ℕ
  recent : Bool
  test : UInt32 → Bool
  submit : UInt32 → Bool

/-- A `WORKRESULT`, and the queue when it is looked at. -/
structure WorkResult where
  dev : UInt8
  workid : UInt8
  nonce : UInt32
  queued : List Look

/-- The work that a result is for. -/
def findWork (wr : WorkResult) : Option Look :=
  wr.queued.find? fun look => look.recent && look.subid == wr.dev.toNat * 256 + wr.workid.toNat

/-- The nonce of a result, and the offset of nonces, once it is known. -/
def offsetNonce (k : Klninfo) (look : Look) (wr : WorkResult) : UInt32 × ℤ :=
  let nonce := wr.nonce + UInt32.ofInt k.nonceOffset
  if k.nonceOffset = 0 then
    let testC0 := look.test (nonce - 0xc0)
    let test180 := look.test (nonce - 0x180)
    if testC0 then
      if test180 then (nonce - 0xc0, 0) else (nonce + UInt32.ofInt (-0xc0), -0xc0)
    else if test180 then (nonce + UInt32.ofInt (-0x180), -0x180)
    else (nonce, 0)
  else (nonce, k.nonceOffset)

/-- A counter is counted up; none if it is outside of the array. -/
def countUp (stats : List UInt32) (i : ℕ) : Option (List UInt32) :=
  if i < stats.length then some (stats.modify i (· + 1)) else none

/-- `klondike_check_nonce`; none if it divides by zero or leaves an array. -/
def klondikeCheckNonce (k : Klninfo) (wr : WorkResult) : Option Klninfo :=
  match findWork wr with
  | none => some k
  | some look => do
    let (nonce, nonceOffset) := offsetNonce k look wr
    let dev := wr.dev.toNat
    let d ← k.devinfo[dev]?
    let ws ← k.status[dev]?
    let ok := look.submit nonce
    if d.rangesize = 0 then none
    else
      let index := (nonce / d.rangesize).toNat + if ok then 0 else ws.chipcount.toNat
      let chipstats ← countUp d.chipstats index
      some
        { k with
          devinfo := k.devinfo.set dev { d with noncecount := d.noncecount + 1, chipstats }
          noncecount := k.noncecount + 1
          nonceOffset }

/-! ## Zeroing -/

/-- The counters of a device are zeroed, as many as the device has chips now. -/
def zeroDev (k : Klninfo) (devn : ℕ) : Option Klninfo := do
  let ws ← k.status[devn]?
  let d ← k.devinfo[devn]?
  let n := ws.chipcount.toNat * 2
  if n ≤ d.chipstats.length then
    let chipstats := List.replicate n 0 ++ d.chipstats.drop n
    some { k with devinfo := k.devinfo.set devn { d with chipstats } }
  else none

/-- `klondike_zero_stats`; none if it leaves an array. -/
def klondikeZeroStats (k : Klninfo) : Option Klninfo := do
  let master ← k.status[0]?
  let k ← (List.range (master.slavecount.toNat + 1)).reverse.foldlM zeroDev k
  some { k with hashcount := 0, errorcount := 0, noisecount := 0 }

/-! ## Runs -/

/-- What comes from a device, and a user's zeroing of the statistics. -/
inductive Event
  | init (first : WorkStatus) (replies : ℕ → Option WorkStatus)
  | status (dev : ℕ) (ws : WorkStatus)
  | result (wr : WorkResult)
  | zeroStats

/-- The driver is initialised once.  Any status is stored for any device, and results are for the
devices that there were then. -/
def enabled (k : Klninfo) : Event → Bool
  | .init _ _ => k.status.isEmpty
  | .status dev _ => dev < k.status.length
  | .result wr => wr.dev.toNat < k.devinfo.length
  | .zeroStats => true

/-- The effect of an event; none for a fault. -/
def run (k : Klninfo) : Event → Option Klninfo
  | .init first replies => klondikeInit first replies k
  | .status dev ws => some { k with status := k.status.set dev ws }
  | .result wr => klondikeCheckNonce k wr
  | .zeroStats => klondikeZeroStats k

/-- The step function; after a fault there is no step. -/
def step (s : Option Klninfo) (e : Event) : Option (Option Klninfo) :=
  s.bind fun k => if enabled k e then some (run k e) else none

/-- A good nonce is counted for one of the chips that the device has. -/
def CountedFor (k : Klninfo) (wr : WorkResult) (k' : Klninfo) : Prop :=
  ∀ look, findWork wr = some look → look.submit (offsetNonce k look wr).1 = true →
    ∃ d ws d' chip, k.devinfo[wr.dev.toNat]? = some d ∧ k.status[wr.dev.toNat]? = some ws ∧
      k'.devinfo[wr.dev.toNat]? = some d' ∧ chip < ws.chipcount.toNat ∧
      chip < d.chipstats.length ∧ d'.chipstats = d.chipstats.modify chip (· + 1)

/-- There is no fault, and good nonces are counted for a chip. -/
def Lawful (s : Option Klninfo) (e : Event) (s' : Option Klninfo) : Prop :=
  ∃ k k', s = some k ∧ s' = some k' ∧ ∀ wr, e = .result wr → CountedFor k wr k'

/-- The chips that a device had when the driver was initialised. -/
def Klninfo.chips (k : Klninfo) (dev : ℕ) : ℕ :=
  (k.devinfo[dev]?.map fun d => d.chipstats.length / 2).getD 0

/-- The chips that it reported last. -/
def Klninfo.chipcount (k : Klninfo) (dev : ℕ) : ℕ :=
  (k.status[dev]?.map fun ws => ws.chipcount.toNat).getD 0

/-- The condition on an event: at first every device has a chip; a result of a work that is found
is from a device that had two, and its nonce is in the ranges of the chips that there are counters
for; the statistics are zeroed when no device has more chips than at first, and there are not more
devices. -/
def Fits (k : Klninfo) : Event → Prop
  | .init first replies => ∀ dev ≤ first.slavecount.toNat,
      ((replies dev).getD (if dev = 0 then first else ⟨0, 0⟩)).chipcount ≠ 0
  | .status _ _ => True
  | .result wr => ∀ look, findWork wr = some look →
      2 ≤ k.chips wr.dev.toNat ∧
      (offsetNonce k look wr).1.toNat <
        (if look.submit (offsetNonce k look wr).1 then k.chipcount wr.dev.toNat
          else 2 * k.chips wr.dev.toNat - k.chipcount wr.dev.toNat) *
        (2 ^ 32 / k.chips wr.dev.toNat)
  | .zeroStats => ∃ master, k.status[0]? = some master ∧
      master.slavecount.toNat < k.status.length ∧
      ∀ dev ≤ master.slavecount.toNat, k.chipcount dev ≤ k.chips dev

/-- The condition on a step. -/
def Within (s : Option Klninfo) (e : Event) (_ : Option Klninfo) : Prop :=
  ∀ k, s = some k → Fits k e

/-! ## The arrays -/

/-- There are statistics for every device, made for the chips that it had. -/
structure Sized (k : Klninfo) : Prop where
  length_eq : k.devinfo.length = k.status.length
  devs : ∀ d ∈ k.devinfo, ∃ c, 0 < c ∧ c ≤ 255 ∧ d.chipstats.length = c * 2 ∧
    d.rangesize = UInt32.ofNat (2 ^ 32 / c)

theorem sized_probe : Sized probe := ⟨rfl, fun _ hd => nomatch hd⟩

theorem chipcount_bounds {ws : WorkStatus} (H : ws.chipcount ≠ 0) :
    0 < ws.chipcount.toNat ∧ ws.chipcount.toNat ≤ 255 := by
  have hlt := ws.chipcount.toNat_lt
  have hne : ws.chipcount.toNat ≠ 0 := fun h => H (UInt8.toNat_inj.mp h)
  omega

theorem mapM_initDevInfo {status : List WorkStatus} (H : ∀ ws ∈ status, ws.chipcount ≠ 0) :
    status.mapM initDevInfo = some (status.map fun ws => newDevInfo ws.chipcount.toNat) := by
  induction status with
  | nil => rfl
  | cons ws status ih =>
    rw [List.forall_mem_cons] at H
    rw [List.mapM_cons, initDevInfo, if_neg H.1, ih H.2]
    rfl

theorem mapM_initDevInfo_eq_none {status : List WorkStatus} {ws : WorkStatus} (hmem : ws ∈ status)
    (hzero : ws.chipcount = 0) : status.mapM initDevInfo = none := by
  induction status with
  | nil => cases hmem
  | cons first status ih =>
    rw [List.mapM_cons, initDevInfo]
    rcases List.mem_cons.mp hmem with rfl | hmem
    · rw [if_pos hzero]
      rfl
    · rw [ih hmem]
      split <;> rfl

/-- The status of the devices after the first replies. -/
theorem getElem?_klondikeGetStats (first : WorkStatus) (replies : ℕ → Option WorkStatus) {dev : ℕ}
    (hdev : dev ≤ first.slavecount.toNat) :
    (klondikeGetStats replies (first :: List.replicate first.slavecount.toNat ⟨0, 0⟩))[dev]? =
      some ((replies dev).getD (if dev = 0 then first else ⟨0, 0⟩)) := by
  rw [klondikeGetStats, List.getElem?_mapIdx]
  cases dev with
  | zero => rfl
  | succ dev =>
    rw [List.getElem?_cons_succ, List.getElem?_replicate, if_pos (by omega), Option.map_some,
      if_neg (Nat.succ_ne_zero dev)]

/-- The driver is initialised exactly if every device has a chip. -/
theorem isSome_klondikeInit {first : WorkStatus} {replies : ℕ → Option WorkStatus} {k : Klninfo} :
    (klondikeInit first replies k).isSome = true ↔
      ∀ dev ≤ first.slavecount.toNat,
        ((replies dev).getD (if dev = 0 then first else ⟨0, 0⟩)).chipcount ≠ 0 := by
  constructor
  · intro hinit dev hdev hzero
    rw [klondikeInit, mapM_initDevInfo_eq_none
      (List.mem_of_getElem? (getElem?_klondikeGetStats first replies hdev)) hzero] at hinit
    cases hinit
  · intro H
    rw [klondikeInit, mapM_initDevInfo]
    · rfl
    · intro ws hws
      obtain ⟨dev, hget⟩ := List.mem_iff_getElem?.mp hws
      have hlt := (List.getElem?_eq_some_iff.mp hget).1
      rw [klondikeGetStats, List.length_mapIdx, List.length_cons, List.length_replicate] at hlt
      have hdev : dev ≤ first.slavecount.toNat := Nat.le_of_lt_succ hlt
      rw [getElem?_klondikeGetStats first replies hdev] at hget
      exact Option.some.inj hget ▸ H dev hdev

theorem sized_klondikeInit {first : WorkStatus} {replies : ℕ → Option WorkStatus}
    {k k' : Klninfo} (H : klondikeInit first replies k = some k') : Sized k' := by
  have hall : ∀ ws ∈ klondikeGetStats replies
      (first :: List.replicate first.slavecount.toNat ⟨0, 0⟩), ws.chipcount ≠ 0 := by
    intro ws hws hzero
    rw [klondikeInit, mapM_initDevInfo_eq_none hws hzero] at H
    cases H
  rw [klondikeInit, mapM_initDevInfo hall] at H
  obtain rfl := Option.some.inj H
  refine ⟨List.length_map _, fun d hd => ?_⟩
  obtain ⟨ws, hws, rfl⟩ := List.mem_map.mp hd
  obtain ⟨hpos, hle⟩ := chipcount_bounds (hall ws hws)
  exact ⟨ws.chipcount.toNat, hpos, hle, List.length_replicate, rfl⟩

/-! ## Results -/

/-- With two chips or more the size of a range is one of 32 bits. -/
theorem toNat_rangesize {c : ℕ} (H : 2 ≤ c) : (UInt32.ofNat (2 ^ 32 / c)).toNat = 2 ^ 32 / c := by
  have hle : 2 ^ 32 / c ≤ 2 ^ 32 / 2 := Nat.div_le_div_left H (by decide)
  rw [UInt32.toNat_ofNat', Nat.mod_eq_of_lt (by omega)]

theorem rangesize_bounds {c : ℕ} (hpos : 0 < c) (hle : c ≤ 255) :
    255 ≤ 2 ^ 32 / c ∧ 2 ^ 32 < (c + 1) * (2 ^ 32 / c) := by
  have hbig : 2 ^ 32 / 255 ≤ 2 ^ 32 / c := Nat.div_le_div_left hle hpos
  have hsum := Nat.div_add_mod (2 ^ 32) c
  have hmod := Nat.mod_lt (2 ^ 32) hpos
  rw [Nat.succ_mul]
  omega

/-- A nonce is from one of the chips, or from the remainder behind them. -/
theorem div_rangesize_le {c n : ℕ} (hpos : 0 < c) (hle : c ≤ 255) (hn : n < 2 ^ 32) :
    n / (2 ^ 32 / c) ≤ c := by
  have hbounds := (rangesize_bounds hpos hle).2
  refine Nat.le_of_lt_succ (Nat.div_lt_of_lt_mul ?_)
  rw [Nat.mul_comm]
  exact hn.trans hbounds

theorem countUp_eq_some {stats stats' : List UInt32} {i : ℕ} :
    countUp stats i = some stats' ↔ i < stats.length ∧ stats' = stats.modify i (· + 1) := by
  rw [countUp]
  split
  · next hlt => simp [hlt, eq_comm]
  · next hge => simp [hge]

theorem modify_inj {stats : List UInt32} {i j : ℕ} (hi : i < stats.length)
    (H : stats.modify i (· + 1) = stats.modify j (· + 1)) : i = j := by
  by_contra hne
  have hget := congrArg (fun l => l[i]?) H
  simp only [List.getElem?_modify, if_pos, List.getElem?_eq_getElem hi,
    if_neg (Ne.symm hne)] at hget
  exact absurd hget (by simp)

section
variable {k : Klninfo} {wr : WorkResult}

/-- What happens to a result of a work that is found. -/
theorem klondikeCheckNonce_eq {look : Look} {d : DevInfo} {ws : WorkStatus}
    (hfind : findWork wr = some look) (hd : k.devinfo[wr.dev.toNat]? = some d)
    (hws : k.status[wr.dev.toNat]? = some ws) :
    klondikeCheckNonce k wr =
      if d.rangesize = 0 then none
      else (countUp d.chipstats (((offsetNonce k look wr).1 / d.rangesize).toNat +
          if look.submit (offsetNonce k look wr).1 then 0 else ws.chipcount.toNat)).map
        fun chipstats =>
          { k with
            devinfo := k.devinfo.set wr.dev.toNat
              { d with noncecount := d.noncecount + 1, chipstats }
            noncecount := k.noncecount + 1
            nonceOffset := (offsetNonce k look wr).2 } := by
  rw [klondikeCheckNonce, hfind]
  simp only [hd, hws, Option.bind_eq_bind, Option.bind_some]
  split
  · rfl
  · rw [Option.map_eq_bind]
    rfl

theorem Sized.chips_eq (H : Sized k) {dev : ℕ} {d : DevInfo} (hd : k.devinfo[dev]? = some d) :
    0 < k.chips dev ∧ k.chips dev ≤ 255 ∧ d.chipstats.length = k.chips dev * 2 ∧
      d.rangesize = UInt32.ofNat (2 ^ 32 / k.chips dev) := by
  obtain ⟨c, hpos, hle, hlen, hrange⟩ := H.devs d (List.mem_of_getElem? hd)
  have hchips : k.chips dev = c := by
    rw [Klninfo.chips, hd, Option.map_some, Option.getD_some, hlen,
      Nat.mul_div_cancel c (by decide)]
  rw [hchips]
  exact ⟨hpos, hle, hlen, hrange⟩

theorem Sized.exists_status (H : Sized k) {dev : ℕ} (hdev : dev < k.devinfo.length) :
    ∃ d ws, k.devinfo[dev]? = some d ∧ k.status[dev]? = some ws ∧
      k.chipcount dev = ws.chipcount.toNat := by
  have hstatus : dev < k.status.length := H.length_eq ▸ hdev
  refine ⟨_, _, List.getElem?_eq_getElem hdev, List.getElem?_eq_getElem hstatus, ?_⟩
  rw [Klninfo.chipcount, List.getElem?_eq_getElem hstatus]
  rfl

/-- Statistics of the same size take the place of others. -/
theorem Sized.set (H : Sized k) {dev : ℕ} {d : DevInfo} (hd : k.devinfo[dev]? = some d)
    {d' : DevInfo} (hlen : d'.chipstats.length = d.chipstats.length) (hrange : d'.rangesize = d.rangesize)
    {k' : Klninfo} (hdevinfo : k'.devinfo = k.devinfo.set dev d') (hstatus : k'.status = k.status) :
    Sized k' where
  length_eq := by rw [hdevinfo, hstatus, List.length_set, H.length_eq]
  devs e he := by
    rw [hdevinfo] at he
    rcases List.mem_or_eq_of_mem_set he with he | rfl
    · exact H.devs e he
    · rw [hlen, hrange]
      exact H.devs d (List.mem_of_getElem? hd)

theorem chips_of_set {k' : Klninfo} {i : ℕ} {d d' : DevInfo} (hd : k.devinfo[i]? = some d)
    (hlen : d'.chipstats.length = d.chipstats.length) (hdevinfo : k'.devinfo = k.devinfo.set i d')
    (dev : ℕ) : k'.chips dev = k.chips dev := by
  rw [Klninfo.chips, Klninfo.chips, hdevinfo, List.getElem?_set]
  split
  · next hsame =>
    rw [if_pos (List.getElem?_eq_some_iff.mp hd).1, ← hsame, hd, Option.map_some, Option.map_some,
      hlen]
  · rfl

/-- A counted nonce leaves the arrays as large as they are. -/
theorem Sized.result {k' : Klninfo} (H : Sized k) (hdev : wr.dev.toNat < k.devinfo.length)
    (hcheck : klondikeCheckNonce k wr = some k') : Sized k' := by
  obtain ⟨d, ws, hd, hws, -⟩ := H.exists_status hdev
  cases hfind : findWork wr with
  | none =>
    rw [klondikeCheckNonce, hfind] at hcheck
    exact Option.some.inj hcheck ▸ H
  | some look =>
    rw [klondikeCheckNonce_eq hfind hd hws] at hcheck
    split at hcheck
    · cases hcheck
    · obtain ⟨chipstats, hcount, rfl⟩ := Option.map_eq_some_iff.mp hcheck
      obtain ⟨-, rfl⟩ := countUp_eq_some.mp hcount
      exact @Sized.set k H _ _ hd ⟨d.noncecount + 1, d.rangesize, _⟩ (List.length_modify ..) rfl _ rfl rfl

/-- A result is counted as it is to exactly if its nonce is in the ranges of the chips. -/
theorem Sized.result_iff (H : Sized k) (hdev : wr.dev.toNat < k.devinfo.length) :
    (∃ k', klondikeCheckNonce k wr = some k' ∧ CountedFor k wr k') ↔
      ∀ look, findWork wr = some look → 2 ≤ k.chips wr.dev.toNat ∧
        (offsetNonce k look wr).1.toNat <
          (if look.submit (offsetNonce k look wr).1 then k.chipcount wr.dev.toNat
            else 2 * k.chips wr.dev.toNat - k.chipcount wr.dev.toNat) *
          (2 ^ 32 / k.chips wr.dev.toNat) := by
  obtain ⟨d, ws, hd, hws, hcount⟩ := H.exists_status hdev
  obtain ⟨hpos, hle, hlen, hrange⟩ := H.chips_eq hd
  cases hfind : findWork wr with
  | none =>
    refine iff_of_true ⟨k, by rw [klondikeCheckNonce, hfind], fun look h => ?_⟩
      fun look h => nomatch h
    rw [hfind] at h
    cases h
  | some look =>
    have hcounted : ∀ k', CountedFor k wr k' ↔
        (look.submit (offsetNonce k look wr).1 = true → ∃ d' chip,
          k'.devinfo[wr.dev.toNat]? = some d' ∧ chip < ws.chipcount.toNat ∧
          chip < d.chipstats.length ∧ d'.chipstats = d.chipstats.modify chip (· + 1)) := by
      intro k'
      constructor
      · intro h hok
        obtain ⟨d₀, ws₀, d', chip, hd₀, hws₀, hrest⟩ := h look hfind hok
        obtain rfl := Option.some.inj (hd.symm.trans hd₀)
        obtain rfl := Option.some.inj (hws.symm.trans hws₀)
        exact ⟨d', chip, hrest⟩
      · intro h look' hfind' hok
        obtain rfl := Option.some.inj (hfind.symm.trans hfind')
        obtain ⟨d', chip, hrest⟩ := h hok
        exact ⟨d, ws, d', chip, hd, hws, hrest⟩
    simp only [hcounted, klondikeCheckNonce_eq hfind hd hws, Option.some.injEq, forall_eq', hcount]
    generalize offsetNonce k look wr = nonce
    generalize k.chips wr.dev.toNat = c at hpos hle hlen hrange
    rcases (Nat.succ_le_of_lt hpos).eq_or_lt with rfl | htwo
    · -- the size of the range of a single chip is zero
      have hzero : d.rangesize = 0 := by
        rw [hrange]
        rfl
      simp [hzero]
    · have hne : d.rangesize ≠ 0 := by
        intro hzero
        have hnat := toNat_rangesize htwo
        rw [← hrange, hzero] at hnat
        have := (rangesize_bounds hpos hle).1
        rw [← hnat] at this
        exact absurd this (by decide)
      have hr : 0 < 2 ^ 32 / c := by
        have := (rangesize_bounds hpos hle).1
        omega
      have hdiv : (nonce.1 / d.rangesize).toNat = nonce.1.toNat / (2 ^ 32 / c) := by
        rw [UInt32.toNat_div, hrange, toNat_rangesize htwo]
      have hchip := div_rangesize_le hpos hle nonce.1.toNat_lt
      rw [if_neg hne, hdiv]
      simp only [Option.map_eq_some_iff, countUp_eq_some]
      have hset : ∀ d', (k.devinfo.set wr.dev.toNat d')[wr.dev.toNat]? = some d' := fun d' =>
        List.getElem?_set_self hdev
      cases hok : look.submit nonce.1
      · simp only [Bool.false_eq_true, if_false]
        constructor
        · rintro ⟨k', ⟨stats, ⟨hlt, -⟩, -⟩, -⟩
          exact ⟨htwo, (Nat.div_lt_iff_lt_mul hr).mp (by omega)⟩
        · rintro ⟨-, hlt⟩
          have hless := (Nat.div_lt_iff_lt_mul hr).mpr hlt
          exact ⟨_, ⟨_, ⟨by omega, rfl⟩, rfl⟩, fun h => h.elim⟩
      · simp only [if_true, Nat.add_zero]
        constructor
        · rintro ⟨k', ⟨stats, ⟨hlt, rfl⟩, rfl⟩, hgood⟩
          obtain ⟨d', chip, hd', hless, -, hstats⟩ := hgood trivial
          obtain rfl := Option.some.inj ((hset _).symm.trans hd')
          obtain rfl := modify_inj hlt hstats
          exact ⟨htwo, (Nat.div_lt_iff_lt_mul hr).mp hless⟩
        · rintro ⟨-, hlt⟩
          have hless := (Nat.div_lt_iff_lt_mul hr).mpr hlt
          have hroom : nonce.1.toNat / (2 ^ 32 / c) < d.chipstats.length := by omega
          exact ⟨_, ⟨_, ⟨hroom, rfl⟩, rfl⟩, fun _ => ⟨_, _, hset _, hless, hroom, rfl⟩⟩

end

/-! ## Zeroing -/

/-- There are counters for all chips that a device has now. -/
def Covered (k : Klninfo) (devn : ℕ) : Prop :=
  devn < k.status.length ∧ k.chipcount devn ≤ k.chips devn

theorem zeroDev_eq {k : Klninfo} {devn : ℕ} {d : DevInfo} {ws : WorkStatus}
    (hd : k.devinfo[devn]? = some d) (hws : k.status[devn]? = some ws) :
    zeroDev k devn =
      if ws.chipcount.toNat * 2 ≤ d.chipstats.length then
        some
          { k with
            devinfo := k.devinfo.set devn
              { d with
                chipstats := List.replicate (ws.chipcount.toNat * 2) 0 ++
                  d.chipstats.drop (ws.chipcount.toNat * 2) } }
      else none := by
  rw [zeroDev, hd, hws]
  rfl

/-- The counters of a device are zeroed exactly if they are all in the array. -/
theorem Sized.isSome_zeroDev {k : Klninfo} (H : Sized k) (devn : ℕ) :
    (zeroDev k devn).isSome = true ↔ Covered k devn := by
  rcases Nat.lt_or_ge devn k.devinfo.length with hdev | hdev
  · obtain ⟨d, ws, hd, hws, hcount⟩ := H.exists_status hdev
    obtain ⟨-, -, hlen, -⟩ := H.chips_eq hd
    have hstatus : devn < k.status.length := H.length_eq ▸ hdev
    rw [zeroDev_eq hd hws, hlen, Covered, hcount]
    split
    · next hle => exact iff_of_true rfl ⟨hstatus, Nat.le_of_mul_le_mul_right hle (by decide)⟩
    · next hgt =>
      exact iff_of_false Bool.false_ne_true fun h => hgt (Nat.mul_le_mul_right 2 h.2)
  · have hstatus : k.status[devn]? = none := List.getElem?_eq_none (H.length_eq ▸ hdev)
    rw [Klondike.zeroDev, hstatus]
    refine iff_of_false Bool.false_ne_true fun h => ?_
    have := h.1
    rw [← H.length_eq] at this
    omega

/-- The arrays stay as large as they are. -/
theorem Sized.zeroDev {k k' : Klninfo} (H : Sized k) {devn : ℕ}
    (hzero : zeroDev k devn = some k') :
    Sized k' ∧ ∀ dev, Covered k' dev ↔ Covered k dev := by
  have hcovered : Covered k devn := (H.isSome_zeroDev devn).mp (by rw [hzero]; rfl)
  have hdev : devn < k.devinfo.length := H.length_eq ▸ hcovered.1
  obtain ⟨d, ws, hd, hws, -⟩ := H.exists_status hdev
  rw [zeroDev_eq hd hws] at hzero
  split at hzero
  · next hle =>
    obtain rfl := Option.some.inj hzero
    have hlen : (List.replicate (ws.chipcount.toNat * 2) 0 ++
        d.chipstats.drop (ws.chipcount.toNat * 2)).length = d.chipstats.length := by
      rw [List.length_append, List.length_replicate, List.length_drop]
      omega
    refine ⟨@Sized.set k H _ _ hd ⟨_, _, _⟩ hlen rfl _ rfl rfl, fun dev => ?_⟩
    rw [Covered, @chips_of_set k _ _ _ ⟨_, _, _⟩ hd hlen rfl]
    rfl
  · cases hzero

/-- Some devices are zeroed exactly if each of them has counters for its chips. -/
theorem Sized.foldlM_zeroDev {k : Klninfo} (H : Sized k) (devs : List ℕ) :
    ((devs.foldlM Klondike.zeroDev k).isSome = true ↔ ∀ dev ∈ devs, Covered k dev) ∧
      ∀ k', devs.foldlM Klondike.zeroDev k = some k' → Sized k' := by
  induction devs generalizing k with
  | nil => exact ⟨iff_of_true rfl (List.forall_mem_nil _), fun k' hk' => Option.some.inj hk' ▸ H⟩
  | cons dev devs ih =>
    rw [List.foldlM_cons, List.forall_mem_cons, ← H.isSome_zeroDev]
    cases hzero : Klondike.zeroDev k dev with
    | none => exact ⟨iff_of_false Bool.false_ne_true fun h => Bool.false_ne_true h.1, nofun⟩
    | some k₁ =>
      obtain ⟨hsized, hsame⟩ := H.zeroDev hzero
      obtain ⟨hiff, hkeep⟩ := ih hsized
      refine ⟨hiff.trans ?_, hkeep⟩
      rw [Option.isSome_some, eq_self_iff_true, true_and]
      exact forall₂_congr fun dev _ => hsame dev

/-- The statistics are zeroed exactly if every device has counters for its chips. -/
theorem Sized.isSome_klondikeZeroStats {k : Klninfo} (H : Sized k) :
    (klondikeZeroStats k).isSome = true ↔
      ∃ master, k.status[0]? = some master ∧ master.slavecount.toNat < k.status.length ∧
        ∀ dev ≤ master.slavecount.toNat, k.chipcount dev ≤ k.chips dev := by
  rw [klondikeZeroStats]
  cases hmaster : k.status[0]? with
  | none => simp
  | some master =>
    have hdevs := (H.foldlM_zeroDev (List.range (master.slavecount.toNat + 1)).reverse).1
    simp only [List.mem_reverse, List.mem_range, Nat.lt_succ_iff] at hdevs
    have hiff : (∀ dev ≤ master.slavecount.toNat, Covered k dev) ↔
        master.slavecount.toNat < k.status.length ∧
          ∀ dev ≤ master.slavecount.toNat, k.chipcount dev ≤ k.chips dev :=
      ⟨fun h => ⟨(h _ le_rfl).1, fun dev hdev => (h dev hdev).2⟩,
        fun h dev hdev => ⟨hdev.trans_lt h.1, h.2 dev hdev⟩⟩
    rw [hiff] at hdevs
    simp only [Option.bind_eq_bind, Option.bind_some, Option.isSome_bind, Option.isSome_some,
      Option.any_true, hdevs, Option.some.injEq, exists_eq_left']

theorem Sized.klondikeZeroStats {k k' : Klninfo} (H : Sized k)
    (hzero : klondikeZeroStats k = some k') : Sized k' := by
  obtain ⟨master, -, hrest⟩ := Option.bind_eq_some_iff.mp hzero
  obtain ⟨k₁, hfold, hk'⟩ := Option.bind_eq_some_iff.mp hrest
  have hsized := (H.foldlM_zeroDev _).2 k₁ hfold
  obtain rfl := Option.some.inj hk'
  exact ⟨hsized.length_eq, hsized.devs⟩

/-! ## Runs -/

theorem Sized.status {k : Klninfo} (H : Sized k) (dev : ℕ) (ws : WorkStatus) :
    Sized { k with status := k.status.set dev ws } :=
  ⟨H.length_eq.trans (List.length_set ..).symm, H.devs⟩

/-- An event is lawful exactly under its condition. -/
theorem Sized.run_iff {k : Klninfo} (H : Sized k) {e : Event} (hen : enabled k e = true) :
    (∃ k', run k e = some k' ∧ ∀ wr, e = .result wr → CountedFor k wr k') ↔ Fits k e := by
  cases e with
  | init first replies =>
    refine Iff.trans ?_ (isSome_klondikeInit (k := k))
    rw [Option.isSome_iff_exists]
    exact exists_congr fun k' => and_iff_left fun _ h => nomatch h
  | status dev ws => exact iff_of_true ⟨_, rfl, fun _ h => nomatch h⟩ trivial
  | result wr =>
    refine Iff.trans ?_ (H.result_iff (of_decide_eq_true hen))
    exact exists_congr fun k' => and_congr_right fun _ =>
      ⟨fun h => h wr rfl, fun h wr' hwr => Event.result.inj hwr ▸ h⟩
  | zeroStats =>
    refine Iff.trans ?_ H.isSome_klondikeZeroStats
    rw [Option.isSome_iff_exists]
    exact exists_congr fun k' => and_iff_left fun _ h => nomatch h

/-- The arrays stay as they are to be. -/
theorem Sized.run {k k' : Klninfo} (H : Sized k) {e : Event} (hen : enabled k e = true)
    (hrun : run k e = some k') : Sized k' := by
  cases e with
  | init first replies => exact sized_klondikeInit hrun
  | status dev ws => exact Option.some.inj hrun ▸ H.status dev ws
  | result wr => exact H.result (of_decide_eq_true hen) hrun
  | zeroStats => exact H.klondikeZeroStats hrun

/-- **No division by zero and no counter outside of the array, and good nonces are counted for a
chip** in the runs whose steps are all within the chips that there were at first, and in no
others. -/
theorem allSteps_replied_iff (es : List Event) :
    Run.AllSteps step Lawful (some probe) es ↔ Run.AllSteps step Within (some probe) es := by
  have hrun : ∀ k e s', step (some k) e = some s' → enabled k e = true ∧ s' = run k e := by
    intro k e s' hstep
    rw [step, Option.bind_some] at hstep
    split at hstep
    · next hen => exact ⟨hen, (Option.some.inj hstep).symm⟩
    · cases hstep
  have hiff : ∀ s e s', (∀ k, s = some k → Sized k) → step s e = some s' →
      (Lawful s e s' ↔ Within s e s') := by
    intro s e s' hsized hstep
    cases s with
    | none => cases hstep
    | some k =>
      obtain ⟨hen, rfl⟩ := hrun k e s' hstep
      constructor
      · rintro ⟨_, k', hk, hk', hgood⟩ k₁ hk₁
        obtain rfl := Option.some.inj hk
        obtain rfl := Option.some.inj hk₁
        exact ((hsized _ rfl).run_iff hen).mp ⟨k', hk', hgood⟩
      · intro hwithin
        obtain ⟨k', hk', hgood⟩ := ((hsized k rfl).run_iff hen).mpr (hwithin k rfl)
        exact ⟨k, k', rfl, hk', hgood⟩
  have hkeep : ∀ s e s', (∀ k, s = some k → Sized k) → step s e = some s' → Lawful s e s' →
      ∀ k, s' = some k → Sized k := by
    intro s e s' hsized hstep _ k' hk'
    cases s with
    | none => cases hstep
    | some k =>
      obtain ⟨hen, rfl⟩ := hrun k e s' hstep
      exact (hsized k rfl).run hen hk'
  exact Run.allSteps_congr hiff hkeep es fun k hk => Option.some.inj hk ▸ sized_probe

/-- A work that a nonce is good for. -/
def anyWork : Look := ⟨0, true, fun _ => false, fun _ => true⟩

/-- A result from a device with one chip is divided by zero. -/
theorem not_lawful_one_chip : ¬ Run.AllSteps step Lawful (some probe)
    [.init ⟨1, 0⟩ (fun _ => some ⟨1, 0⟩), .result ⟨0, 0, 0, [anyWork]⟩] := by
  intro h
  have hinit : ∃ k, step (some probe) (.init ⟨1, 0⟩ fun _ => some ⟨1, 0⟩) = some (some k) ∧
      step (some k) (.result ⟨0, 0, 0, [anyWork]⟩) = some none := ⟨_, rfl, rfl⟩
  obtain ⟨k, hfirst, hsecond⟩ := hinit
  obtain ⟨_, k', -, hnone, -⟩ := ((h _ hfirst).2 _ hsecond).1
  cases hnone

end Klondike
end MassGridMiner

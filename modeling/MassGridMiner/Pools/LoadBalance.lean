import MassGridMiner.Lib.FixedWidth
import MassGridMiner.Lib.Rotation
import MassGridMiner.Pools.Balanced
import Mathlib.Data.List.Count

/-!
# Taking turns by quota

`select_loadbalance` goes around the pools and returns one while it has quota left; when none
has, all are given new quota.  If an algorithm is asked for, it passes over the pools of others,
and where none of the right ones has quota left it takes the one that was used the least times
its quota.  That number is found by a division, and the quota may be zero.

## Main definitions

* `LoadTable` — the pools, and the place in the rotation.
* `selectLoadbalance` — the function of the source.
* `SelectsSafely` — it divides by no zero, and returns a pool of the algorithm.
* `ZeroQuotaTaken` — when it does not.
-/

namespace MassGridMiner

/-- The pools with the static variable of `select_loadbalance`, which is one of their numbers. -/
structure LoadTable extends QuotaTable where
  rotatingPool : ℕ
  rotating_lt : rotatingPool < pools.length

namespace LoadTable

def quotaUsed (s : LoadTable) (p : ℕ) : ℤ := (s.stake p).quotaUsed
def quotaGcd (s : LoadTable) (p : ℕ) : ℤ := (s.stake p).quotaGcd

/-- `pools[rotating_pool]`. -/
def rotating (s : LoadTable) : ℕ := s.pools.get ⟨s.rotatingPool, s.rotating_lt⟩

/-- `++rotating_pool`, back to zero behind the last pool. -/
def rotate (s : LoadTable) : LoadTable :=
  { s with
    rotatingPool := if s.totalPools ≤ s.rotatingPool + 1 then 0 else s.rotatingPool + 1
    rotating_lt := stepAround_lt s.rotating_lt }

/-- Other numbers of uses. -/
def withUsed (s : LoadTable) (used : ℕ → ℤ) : LoadTable :=
  { s with stake := fun p => { s.stake p with quotaUsed := used p } }

/-- `pool->quota_used += d`. -/
def addUsed (s : LoadTable) (p : ℕ) (d : ℤ) : LoadTable :=
  s.withUsed (Function.update s.quotaUsed p (s.quotaUsed p + d))

/-- A pool has quota left. -/
def quotaLeft (s : LoadTable) (p : ℕ) : Bool := decide (s.quotaUsed p < s.quotaGcd p)

/-- The pools are given new quota, if none has any left. -/
def startRound (s : LoadTable) : LoadTable :=
  if s.pools.any s.quotaLeft then s
  else
    (s.withUsed fun p => if p ∈ s.pools then s.quotaUsed p - s.quotaGcd p else s.quotaUsed p).rotate

/-- The quota of a pool that does not work is given to the pool of the highest priority. -/
def giveBack (s : LoadTable) : LoadTable :=
  if s.optFailOnly then (s.priorityPool 0).elim s fun p => s.addUsed p (-1) else s

/-- The loop of `select_loadbalance`, so many turns before its end, with `pool_lowest` and
`lowest`.  There is no result where it divides by zero. -/
def search (malgo : Option ℕ) :
    ℕ → LoadTable → Option ℕ → ℤ → Option (Option ℕ × LoadTable)
  | 0, s, poolLowest, _ => some (poolLowest, s)
  | turns + 1, s, poolLowest, lowest =>
    let p := s.rotating
    if s.otherMalgo malgo p then search malgo turns s.rotate poolLowest lowest
    else if s.quotaLeft p && !s.poolUnworkable p then some (some p, s.addUsed p 1)
    else
      let s := if s.quotaLeft p then (s.addUsed p 1).giveBack else s
      if malgo.isSome then
        if s.quotaGcd p = 0 then none
        else
          let count := (s.quotaUsed p).tdiv (s.quotaGcd p)
          if count < lowest then search malgo turns s.rotate (some p) count
          else search malgo turns s.rotate poolLowest lowest
      else search malgo turns s.rotate poolLowest lowest

/-- `rotating_pool = rpsave`. -/
def restoreRotating (s : LoadTable) (rpsave : ℕ) : LoadTable :=
  if h : rpsave < s.pools.length then { s with rotatingPool := rpsave, rotating_lt := h } else s

/-- `select_loadbalance`. -/
def selectLoadbalance (s : LoadTable) (malgo : Option ℕ) : Option (Option ℕ × LoadTable) :=
  (search malgo s.totalPools s.startRound none intMax).map fun r =>
    (r.1, if malgo.isSome then r.2.restoreRotating s.startRound.rotatingPool else r.2)

/-- The pools in the order in which the loop comes to them. -/
def rotation (s : LoadTable) : List ℕ := s.pools.rotate s.rotatingPool

/-- No zero is divided by, and a pool that is returned uses the algorithm that is asked for. -/
def SelectsSafely (s : LoadTable) (malgo : Option ℕ) : Prop :=
  ∃ pool t, s.selectLoadbalance malgo = some (pool, t) ∧
    ∀ m ∈ malgo, ∀ p ∈ pool, (s.stake p).malgo = m

/-- The uses of a pool, less those that pools before it, with quota and not working, give back
to it. -/
def usedAt (s : LoadTable) (front : List ℕ) (p : ℕ) : ℤ :=
  s.quotaUsed p -
    if s.optFailOnly && s.priorityPool 0 == some p then
      ((front.countP fun q => s.quotaLeft q && s.poolUnworkable q : ℕ) : ℤ)
    else 0

/-- A pool that works has quota left when the loop comes to it. -/
def TakenAt (s : LoadTable) (front : List ℕ) (p : ℕ) : Prop :=
  s.poolUnworkable p = false ∧ s.usedAt front p < s.quotaGcd p

/-- No algorithm is asked for; or of the pools that use it, in the order of the rotation, one
with a quota of zero is itself taken, or one before it is. -/
def ZeroQuotaTaken (s : LoadTable) (malgo : Option ℕ) : Prop :=
  ∀ m ∈ malgo, ∀ front p back,
    (s.rotation.filter fun q => (s.stake q).malgo == m) = front ++ p :: back →
    s.quotaGcd p = 0 → s.TakenAt front p ∨
      ∃ front₁ q front₂, front = front₁ ++ q :: front₂ ∧ s.TakenAt front₁ q

/-! ## The rotation -/

section
variable {s : LoadTable} {p : ℕ}

/-- The loop is at the first pool of the rotation, and moves it to the end. -/
theorem exists_rotation (s : LoadTable) :
    ∃ rest, s.rotation = s.rotating :: rest ∧ s.rotate.rotation = rest ++ [s.rotating] := by
  obtain ⟨rest, hfirst, hlast⟩ := exists_rotate s.rotating_lt
  exact ⟨rest, hfirst, (rotate_stepAround s.rotating_lt).trans hlast⟩

theorem rotation_perm (s : LoadTable) : s.rotation.Perm s.pools := s.pools.rotate_perm _

theorem mem_rotation : p ∈ s.rotation ↔ p ∈ s.pools := List.mem_rotate

theorem nodup_rotation (s : LoadTable) : s.rotation.Nodup := List.nodup_rotate.mpr s.nodup

theorem length_rotation (s : LoadTable) : s.rotation.length = s.totalPools :=
  s.pools.length_rotate _

@[simp] theorem rotation_addUsed (s : LoadTable) (p : ℕ) (d : ℤ) :
    (s.addUsed p d).rotation = s.rotation := rfl

@[simp] theorem quotaUsed_withUsed (s : LoadTable) (used : ℕ → ℤ) :
    (s.withUsed used).quotaUsed = used := rfl

@[simp] theorem quotaGcd_withUsed (s : LoadTable) (used : ℕ → ℤ) :
    (s.withUsed used).quotaGcd = s.quotaGcd := rfl

@[simp] theorem quotaUsed_rotate (s : LoadTable) : s.rotate.quotaUsed = s.quotaUsed := rfl

@[simp] theorem quotaGcd_rotate (s : LoadTable) : s.rotate.quotaGcd = s.quotaGcd := rfl

theorem quotaUsed_addUsed (s : LoadTable) (p q : ℕ) (d : ℤ) :
    (s.addUsed p d).quotaUsed q = s.quotaUsed q + if q = p then d else 0 := by
  rw [addUsed, quotaUsed_withUsed, Function.update_apply]
  split
  next heq => rw [heq]
  next => rw [add_zero]

theorem quotaUsed_giveBack (s : LoadTable) (q : ℕ) :
    s.giveBack.quotaUsed q =
      s.quotaUsed q - if s.optFailOnly && s.priorityPool 0 == some q then 1 else 0 := by
  rw [giveBack]
  cases hfail : s.optFailOnly with
  | false => simp
  | true =>
      cases hprio : s.priorityPool 0 with
      | none => simp
      | some p =>
          rw [if_pos rfl, Option.elim_some, quotaUsed_addUsed]
          by_cases hq : q = p
          · simp [hq]
            omega
          · simp [hq, Ne.symm hq]

end

/-! ## Changes of the uses only -/

/-- The tables agree but for the uses and the place in the rotation. -/
structure SamePools (s t : LoadTable) : Prop where
  table : t.toPoolTable = s.toPoolTable
  quotaGcd : t.quotaGcd = s.quotaGcd
  malgo : ∀ p, (t.stake p).malgo = (s.stake p).malgo
  stratumActive : ∀ p, (t.stake p).stratumActive = (s.stake p).stratumActive

section
variable {s t u : LoadTable} {malgo : Option ℕ} {p : ℕ}

theorem SamePools.refl (s : LoadTable) : SamePools s s := ⟨rfl, rfl, fun _ => rfl, fun _ => rfl⟩

theorem SamePools.trans (H : SamePools s t) (H' : SamePools t u) : SamePools s u :=
  ⟨H'.table.trans H.table, H'.quotaGcd.trans H.quotaGcd, fun p => (H'.malgo p).trans (H.malgo p),
    fun p => (H'.stratumActive p).trans (H.stratumActive p)⟩

theorem SamePools.rotate (s : LoadTable) : SamePools s s.rotate :=
  ⟨rfl, rfl, fun _ => rfl, fun _ => rfl⟩

theorem SamePools.withUsed (s : LoadTable) (used : ℕ → ℤ) : SamePools s (s.withUsed used) :=
  ⟨rfl, rfl, fun _ => rfl, fun _ => rfl⟩

/-- A pool that is passed may have been used, and what it has left be given back. -/
theorem exists_withUsed_giveBack (s : LoadTable) (q : ℕ) :
    ∃ used, (if s.quotaLeft q then (s.addUsed q 1).giveBack else s) = s.withUsed used := by
  by_cases hleft : s.quotaLeft q = true
  · rw [if_pos hleft, giveBack]
    split
    next =>
      cases (s.addUsed q 1).priorityPool 0 with
      | none => exact ⟨_, rfl⟩
      | some p => exact ⟨_, rfl⟩
    next => exact ⟨_, rfl⟩
  · exact ⟨s.quotaUsed, by rw [if_neg hleft]; rfl⟩

theorem SamePools.startRound (s : LoadTable) : SamePools s s.startRound := by
  rw [LoadTable.startRound]
  split
  next => exact .refl s
  next => exact (SamePools.withUsed s _).trans (.rotate _)

theorem SamePools.poolUnworkable (H : SamePools s t) (p : ℕ) :
    t.poolUnworkable p = s.poolUnworkable p := by
  rw [QuotaTable.poolUnworkable, H.table, H.stratumActive]
  rfl

theorem SamePools.otherMalgo (H : SamePools s t) (malgo : Option ℕ) (p : ℕ) :
    t.otherMalgo malgo p = s.otherMalgo malgo p := by
  simp only [QuotaTable.otherMalgo, H.malgo]

theorem SamePools.totalPools (H : SamePools s t) : t.totalPools = s.totalPools := by
  rw [H.table]

end

/-! ## Whole rounds -/

section
variable {s t : LoadTable} {p q : ℕ}

/-- The loop passes over the pools without quota left, and returns the first with some. -/
theorem search_none_of_rotation {skip rest : List ℕ} (hrot : s.rotation = skip ++ q :: rest)
    (hskip : ∀ p ∈ skip, s.quotaLeft p = false) (hleft : s.quotaLeft q = true)
    (hwork : s.poolUnworkable q = false) {turns : ℕ} (hturns : skip.length < turns)
    (poolLowest : Option ℕ) (lowest : ℤ) :
    ∃ t, search none turns s poolLowest lowest = some (some q, t.addUsed q 1) ∧ SamePools s t ∧
      t.quotaUsed = s.quotaUsed ∧ t.rotation = q :: rest ++ skip := by
  induction skip generalizing s rest turns with
  | nil =>
      obtain ⟨turns, rfl⟩ : ∃ n, turns = n + 1 := ⟨turns - 1, by simp at hturns; omega⟩
      obtain ⟨rest', hcons, -⟩ := exists_rotation s
      have hq : s.rotating = q := (List.cons.inj (hcons.symm.trans hrot)).1
      refine ⟨s, ?_, .refl s, rfl, by simpa using hrot⟩
      simp [search, hq, QuotaTable.otherMalgo, hleft, hwork]
  | cons p skip ih =>
      obtain ⟨turns, rfl⟩ : ∃ n, turns = n + 1 := ⟨turns - 1, by simp at hturns; omega⟩
      obtain ⟨rest', hcons, hnext⟩ := exists_rotation s
      rw [List.cons_append] at hrot
      obtain ⟨hp, hrest⟩ := List.cons.inj (hcons.symm.trans hrot)
      rw [hrest, hp, List.append_assoc, List.cons_append] at hnext
      have hpass : search none (turns + 1) s poolLowest lowest =
          search none turns s.rotate poolLowest lowest := by
        have hno := hskip p List.mem_cons_self
        simp [search, hp, QuotaTable.otherMalgo, hno]
      have hlen : skip.length < turns := by simpa using hturns
      obtain ⟨t, hsearch, hsame, hused, hrotation⟩ :=
        ih hnext (fun r hr => hskip r (List.mem_cons_of_mem _ hr)) hleft hwork hlen
      refine ⟨t, hpass.trans hsearch, (SamePools.rotate s).trans hsame, hused, ?_⟩
      rw [hrotation]
      simp

/-- A pool as often as its quota. -/
def share (s : LoadTable) (p : ℕ) : List ℕ := List.replicate (s.quotaGcd p).toNat p

/-- The pools that the next calls return, a whole round of them: what is left of the one in the
rotation, the others, and what it was used already. -/
def upcoming (s : LoadTable) : List ℕ :=
  match s.rotation with
  | [] => []
  | p :: rest =>
    List.replicate (s.quotaGcd p - s.quotaUsed p).toNat p ++ rest.flatMap s.share ++
      List.replicate (s.quotaUsed p).toNat p

/-- All pools work, none has a negative quota and one has a positive one; and in the middle of a
round, those that the loop has come past are used up, and those to come are not used. -/
structure Fair (s : LoadTable) : Prop where
  workable : ∀ p ∈ s.pools, s.poolUnworkable p = false
  nonneg : ∀ p ∈ s.pools, 0 ≤ s.quotaGcd p
  pos : ∃ p ∈ s.pools, 0 < s.quotaGcd p
  turn : ∃ p back front, s.rotation = p :: (back ++ front) ∧
    0 ≤ s.quotaUsed p ∧ s.quotaUsed p ≤ s.quotaGcd p ∧
    (∀ q ∈ back, s.quotaUsed q = 0) ∧ ∀ q ∈ front, s.quotaUsed q = s.quotaGcd q

/-- No pool is used more than its quota. -/
theorem Fair.bounds (H : s.Fair) (hp : p ∈ s.pools) :
    0 ≤ s.quotaUsed p ∧ s.quotaUsed p ≤ s.quotaGcd p := by
  obtain ⟨first, back, front, hrot, hzero, hle, hback, hfront⟩ := H.turn
  have hmem : p ∈ s.rotation := mem_rotation.mpr hp
  have hnonneg := H.nonneg p hp
  rw [hrot, List.mem_cons, List.mem_append] at hmem
  rcases hmem with rfl | hmem | hmem
  · exact ⟨hzero, hle⟩
  · rw [hback p hmem]
    exact ⟨le_rfl, hnonneg⟩
  · rw [hfront p hmem]
    exact ⟨hnonneg, le_rfl⟩

theorem share_eq (H : SamePools s t) : t.share = s.share := by
  funext p
  rw [share, share, H.quotaGcd]

theorem upcoming_eq {rest : List ℕ} (hrot : s.rotation = p :: rest) :
    s.upcoming = List.replicate (s.quotaGcd p - s.quotaUsed p).toNat p ++ rest.flatMap s.share ++
      List.replicate (s.quotaUsed p).toNat p := by
  rw [upcoming, hrot]

/-- What stays of `Fair` when only the uses change. -/
theorem Fair.congr (H : s.Fair) (hsame : SamePools s t) {first : ℕ} {back front : List ℕ}
    (hrot : t.rotation = first :: (back ++ front)) (hzero : 0 ≤ t.quotaUsed first)
    (hle : t.quotaUsed first ≤ t.quotaGcd first) (hback : ∀ q ∈ back, t.quotaUsed q = 0)
    (hfront : ∀ q ∈ front, t.quotaUsed q = t.quotaGcd q) : t.Fair where
  workable p hp := by
    rw [hsame.poolUnworkable]
    rw [hsame.table] at hp
    exact H.workable p hp
  nonneg p hp := by
    rw [hsame.quotaGcd]
    rw [hsame.table] at hp
    exact H.nonneg p hp
  pos := by
    rw [hsame.quotaGcd, hsame.table]
    exact H.pos
  turn := ⟨first, back, front, hrot, hzero, hle, hback, hfront⟩

theorem mem_pools_of_rotation {front rest : List ℕ} (hrot : s.rotation = front ++ q :: rest) :
    q ∈ s.pools := by
  rw [← mem_rotation, hrot]
  simp

/-- The loop returns the first pool with quota left, when those before it are used up. -/
theorem Fair.take (H : s.Fair) {skip back front : List ℕ}
    (hrot : s.rotation = skip ++ q :: (back ++ front))
    (hskip : ∀ p ∈ skip, s.quotaUsed p = s.quotaGcd p) (hback : ∀ p ∈ back, s.quotaUsed p = 0)
    (hfront : ∀ p ∈ front, s.quotaUsed p = s.quotaGcd p) (hzero : 0 ≤ s.quotaUsed q)
    (hlt : s.quotaUsed q < s.quotaGcd q) :
    ∃ t, search none s.totalPools s none intMax = some (some q, t) ∧ t.Fair ∧ SamePools s t ∧
      t.upcoming = List.replicate (s.quotaGcd q - s.quotaUsed q - 1).toNat q ++
        (back ++ (front ++ skip)).flatMap s.share ++
        List.replicate ((s.quotaUsed q).toNat + 1) q := by
  have hlen := length_rotation s
  rw [hrot, List.length_append, List.length_cons] at hlen
  obtain ⟨t, hsearch, hsame, hused, hrotation⟩ :=
    search_none_of_rotation hrot (fun p hp => by simp [quotaLeft, hskip p hp])
      (by simpa [quotaLeft] using hlt) (H.workable q (mem_pools_of_rotation hrot))
      (by omega : skip.length < s.totalPools) none intMax
  have hpools : SamePools s (t.addUsed q 1) := hsame.trans (.withUsed t _)
  have hself : (t.addUsed q 1).quotaUsed q = s.quotaUsed q + 1 := by
    rw [quotaUsed_addUsed, hused, if_pos rfl]
  have hrotation' : (t.addUsed q 1).rotation = q :: (back ++ (front ++ skip)) := by
    rw [rotation_addUsed, hrotation]
    simp
  have hothers : ∀ p ∈ back ++ (front ++ skip), (t.addUsed q 1).quotaUsed p = s.quotaUsed p := by
    intro p hp
    have hnodup := nodup_rotation (t.addUsed q 1)
    rw [hrotation'] at hnodup
    have hne : p ≠ q := by
      intro heq
      exact (List.nodup_cons.mp hnodup).1 (heq ▸ hp)
    rw [quotaUsed_addUsed, hused, if_neg hne, add_zero]
  refine ⟨_, hsearch, H.congr hpools hrotation' ?_ ?_ ?_ ?_, hpools, ?_⟩
  · rw [hself]
    omega
  · rw [hself, hpools.quotaGcd]
    omega
  · intro p hp
    rw [hothers p (List.mem_append_left _ hp), hback p hp]
  · intro p hp
    rw [hothers p (List.mem_append_right _ hp), hpools.quotaGcd]
    rcases List.mem_append.mp hp with hp | hp
    · exact hfront p hp
    · exact hskip p hp
  · rw [upcoming_eq hrotation', hself, hpools.quotaGcd, share_eq hpools,
      show (s.quotaUsed q + 1).toNat = (s.quotaUsed q).toNat + 1 by omega,
      show s.quotaGcd q - (s.quotaUsed q + 1) = s.quotaGcd q - s.quotaUsed q - 1 by omega]

/-- The pool that the loop is at is returned while it has quota left. -/
theorem Fair.search_first (H : s.Fair) {first : ℕ} {back front : List ℕ}
    (hrot : s.rotation = first :: (back ++ front)) (hzero : 0 ≤ s.quotaUsed first)
    (hlt : s.quotaUsed first < s.quotaGcd first) (hback : ∀ q ∈ back, s.quotaUsed q = 0)
    (hfront : ∀ q ∈ front, s.quotaUsed q = s.quotaGcd q) :
    ∃ l t, s.upcoming = first :: l ∧
      LoadTable.search none s.totalPools s none intMax = some (some first, t) ∧
      t.Fair ∧ t.upcoming = l ++ [first] ∧ SamePools s t := by
  obtain ⟨t, hsearch, hfair, hsame, hup⟩ :=
    H.take (show s.rotation = [] ++ first :: (back ++ front) from hrot) (by simp) hback hfront
      hzero hlt
  refine ⟨List.replicate (s.quotaGcd first - s.quotaUsed first - 1).toNat first ++
    (back ++ front).flatMap s.share ++ List.replicate (s.quotaUsed first).toNat first, t, ?_,
    hsearch, hfair, ?_, hsame⟩
  · rw [upcoming_eq hrot, show (s.quotaGcd first - s.quotaUsed first).toNat =
      (s.quotaGcd first - s.quotaUsed first - 1).toNat + 1 by omega, List.replicate_succ,
      List.cons_append, List.cons_append]
  · rw [hup, List.replicate_succ', List.append_nil, ← List.append_assoc]

/-- Where it is used up, the first behind it is returned that has a quota. -/
theorem Fair.search_back (H : s.Fair) {first : ℕ} {skip back front : List ℕ}
    (hrot : s.rotation = first :: (skip ++ q :: back ++ front))
    (hfull : s.quotaUsed first = s.quotaGcd first)
    (hskip : ∀ p ∈ skip, s.quotaUsed p = 0 ∧ s.quotaGcd p = 0) (hzero : s.quotaUsed q = 0)
    (hpos : 0 < s.quotaGcd q) (hback : ∀ p ∈ back, s.quotaUsed p = 0)
    (hfront : ∀ p ∈ front, s.quotaUsed p = s.quotaGcd p) :
    ∃ l t, s.upcoming = q :: l ∧
      LoadTable.search none s.totalPools s none intMax = some (some q, t) ∧
      t.Fair ∧ t.upcoming = l ++ [q] ∧ SamePools s t := by
  have hrot' : s.rotation = (first :: skip) ++ q :: (back ++ front) := by
    rw [hrot]
    simp
  have hspent : ∀ p ∈ first :: skip, s.quotaUsed p = s.quotaGcd p := by
    intro p hp
    rcases List.mem_cons.mp hp with rfl | hp
    · exact hfull
    · rw [(hskip p hp).1, (hskip p hp).2]
  obtain ⟨t, hsearch, hfair, hsame, hup⟩ :=
    H.take hrot' hspent hback hfront hzero.ge (hzero.trans_lt hpos)
  have hnone : skip.flatMap s.share = [] := by
    rw [List.flatMap_eq_nil_iff]
    intro p hp
    rw [share, (hskip p hp).2]
    rfl
  refine ⟨List.replicate (s.quotaGcd q - 1).toNat q ++ (back ++ front).flatMap s.share ++
    s.share first, t, ?_, hsearch, hfair, ?_, hsame⟩
  · rw [upcoming_eq hrot, hfull, sub_self]
    simp only [List.flatMap_append, hnone, List.flatMap_cons, share]
    rw [show (s.quotaGcd q).toNat = (s.quotaGcd q - 1).toNat + 1 by omega, List.replicate_succ]
    simp
  · rw [hup, hzero]
    simp [hnone, share]

/-- A pool with quota left is at the front of the coming round, and is then moved to its end. -/
theorem Fair.search (H : s.Fair) (hleft : ∃ p ∈ s.pools, s.quotaLeft p = true) :
    ∃ q l t, s.upcoming = q :: l ∧
      LoadTable.search none s.totalPools s none intMax = some (some q, t) ∧
      t.Fair ∧ t.upcoming = l ++ [q] ∧ SamePools s t := by
  obtain ⟨first, back, front, hrot, hzero, hle, hback, hfront⟩ := H.turn
  by_cases hfirst : s.quotaUsed first < s.quotaGcd first
  · exact ⟨first, H.search_first hrot hzero hfirst hback hfront⟩
  · have hex : ∃ q ∈ back, s.quotaLeft q = true := by
      obtain ⟨r, hr, hrleft⟩ := hleft
      rw [quotaLeft, decide_eq_true_eq] at hrleft
      rw [← mem_rotation, hrot, List.mem_cons, List.mem_append] at hr
      rcases hr with rfl | hr | hr
      · exact absurd hrleft hfirst
      · exact ⟨r, hr, by simpa [quotaLeft] using hrleft⟩
      · have := hfront r hr
        omega
    obtain ⟨q, hq⟩ := Option.isSome_iff_exists.mp (List.find?_isSome.mpr hex)
    obtain ⟨hqleft, skip, back', rfl, hskip⟩ := List.find?_eq_some_iff_append.mp hq
    rw [quotaLeft, decide_eq_true_eq] at hqleft
    have hempty : ∀ p ∈ skip, s.quotaUsed p = 0 ∧ s.quotaGcd p = 0 := by
      intro p hp
      have hno := hskip p hp
      have hused := hback p (List.mem_append_left _ hp)
      have hmem : p ∈ s.pools := by
        rw [← mem_rotation, hrot]
        simp [hp]
      have hnonneg := H.nonneg p hmem
      simp only [quotaLeft, Bool.not_eq_true', decide_eq_false_iff_not, not_lt] at hno
      omega
    have hqzero : s.quotaUsed q = 0 := hback q (by simp)
    refine ⟨q, H.search_back hrot (le_antisymm hle (not_lt.mp hfirst)) hempty hqzero ?_ ?_ hfront⟩
    · rwa [hqzero] at hqleft
    · exact fun p hp => hback p (by simp [hp])

/-- Where all pools are used up, a round starts with none used, one place on. -/
theorem Fair.startRound_of_spent (H : s.Fair) (hleft : ¬ s.pools.any s.quotaLeft = true)
    {first : ℕ} {rest : List ℕ} (hrot : s.rotation = first :: rest) :
    (∀ p ∈ s.pools, s.quotaUsed p = s.quotaGcd p) ∧
      (∀ p ∈ s.pools, s.startRound.quotaUsed p = 0) ∧
      s.startRound.rotation = rest ++ [first] := by
  have hfull : ∀ p ∈ s.pools, s.quotaUsed p = s.quotaGcd p := by
    intro p hp
    have hno : ¬ s.quotaUsed p < s.quotaGcd p := by
      intro hlt
      exact hleft (List.any_eq_true.mpr ⟨p, hp, by simpa [quotaLeft] using hlt⟩)
    have := (H.bounds hp).2
    omega
  refine ⟨hfull, ?_, ?_⟩
  · intro p hp
    rw [LoadTable.startRound, if_neg hleft, quotaUsed_rotate, quotaUsed_withUsed, if_pos hp,
      hfull p hp, sub_self]
  · obtain ⟨rest', hcons, hnext⟩ := exists_rotation
      (s.withUsed fun p => if p ∈ s.pools then s.quotaUsed p - s.quotaGcd p else s.quotaUsed p)
    have hold : first :: rest = _ := hrot.symm.trans hcons
    rw [LoadTable.startRound, if_neg hleft, hnext, (List.cons.inj hold).1, (List.cons.inj hold).2]

/-- New quota comes when a round is over, and changes nothing about the pools to come. -/
theorem Fair.startRound (H : s.Fair) :
    s.startRound.Fair ∧ s.startRound.upcoming = s.upcoming ∧
      ∃ p ∈ s.startRound.pools, s.startRound.quotaLeft p = true := by
  by_cases hleft : s.pools.any s.quotaLeft = true
  · rw [LoadTable.startRound, if_pos hleft]
    exact ⟨H, rfl, List.any_eq_true.mp hleft⟩
  · obtain ⟨first, back, front, hrot, -⟩ := H.turn
    have hsame := SamePools.startRound s
    obtain ⟨hfull, hused, hrotation⟩ := H.startRound_of_spent hleft hrot
    have hmem : ∀ p ∈ s.startRound.rotation, p ∈ s.pools := by
      intro p hp
      rw [mem_rotation, hsame.table] at hp
      exact hp
    obtain ⟨next, rest, hnext⟩ : ∃ next rest, s.startRound.rotation = next :: rest := by
      rw [hrotation]
      cases back ++ front with
      | nil => exact ⟨_, _, rfl⟩
      | cons next rest => exact ⟨next, _, rfl⟩
    have hrest : ∀ p ∈ next :: rest, s.startRound.quotaUsed p = 0 := fun p hp =>
      hused p (hmem p (hnext ▸ hp))
    have hnextPool : next ∈ s.pools := hmem next (hnext ▸ List.mem_cons_self)
    have hnonneg := H.nonneg next hnextPool
    have hnextZero := hrest next List.mem_cons_self
    have hturn : s.startRound.rotation = next :: (rest ++ []) := by
      rw [hnext, List.append_nil]
    refine ⟨H.congr hsame hturn ?_ ?_ ?_ ?_, ?_, ?_⟩
    · exact hnextZero.ge
    · rw [hnextZero, hsame.quotaGcd]
      exact hnonneg
    · exact fun p hp => hrest p (List.mem_cons_of_mem _ hp)
    · exact fun p hp => absurd hp List.not_mem_nil
    · have hfirst := hfull first
        (mem_pools_of_rotation (show s.rotation = [] ++ first :: _ from hrot))
      have hshares :
          (next :: rest).flatMap s.share = (back ++ front ++ [first]).flatMap s.share := by
        rw [← hnext, hrotation]
      rw [upcoming_eq hnext, upcoming_eq hrot, share_eq hsame, hnextZero, hfirst, hsame.quotaGcd,
        sub_zero, sub_self]
      rw [List.flatMap_append, List.flatMap_cons] at hshares
      simp only [share, List.flatMap_cons, List.flatMap_nil, List.append_nil] at hshares
      simpa [share] using hshares
    · obtain ⟨p, hp, hpos⟩ := H.pos
      refine ⟨p, hsame.table ▸ hp, ?_⟩
      rw [quotaLeft, hused p hp, hsame.quotaGcd]
      simpa using hpos

/-- A call returns the first of the pools to come, and moves it to the end. -/
theorem Fair.selectLoadbalance (H : s.Fair) :
    ∃ q l t, s.upcoming = q :: l ∧ s.selectLoadbalance none = some (some q, t) ∧ t.Fair ∧
      t.upcoming = l ++ [q] ∧ SamePools s t := by
  obtain ⟨hfair, hup, hleft⟩ := H.startRound
  have hsame := SamePools.startRound s
  obtain ⟨q, l, t, hcons, hsearch, hfair', hup', hsame'⟩ := hfair.search hleft
  refine ⟨q, l, t, hup ▸ hcons, ?_, hfair', hup', hsame.trans hsame'⟩
  rw [LoadTable.selectLoadbalance, ← hsame.totalPools, hsearch]
  rfl

/-- So many calls without an algorithm, and what they return. -/
def calls : ℕ → LoadTable → Option (List (Option ℕ) × LoadTable)
  | 0, s => some ([], s)
  | n + 1, s =>
    (s.selectLoadbalance none).bind fun r =>
      (calls n r.2).map fun rest => (r.1 :: rest.1, rest.2)

/-- The calls of a round return the pools to come, in order. -/
theorem Fair.calls (H : s.Fair) {n : ℕ} (hn : n ≤ s.upcoming.length) :
    ∃ t, LoadTable.calls n s = some ((s.upcoming.take n).map some, t) ∧ t.Fair ∧
      SamePools s t := by
  induction n generalizing s with
  | zero => exact ⟨s, by simp [LoadTable.calls], H, .refl s⟩
  | succ n ih =>
      obtain ⟨q, l, t, hcons, hselect, hfair, hup, hsame⟩ := H.selectLoadbalance
      rw [hcons, List.length_cons] at hn
      obtain ⟨u, hcalls, hfair', hsame'⟩ := ih hfair (by rw [hup]; simp; omega)
      refine ⟨u, ?_, hfair', hsame.trans hsame'⟩
      rw [hup, List.take_append_of_le_length (by omega)] at hcalls
      rw [LoadTable.calls, hselect, Option.bind_some, hcalls, hcons]
      rfl

/-- However many calls there have been, the pools work and are in the middle of a round. -/
theorem Fair.exists_calls (H : s.Fair) (n : ℕ) :
    ∃ pools t, LoadTable.calls n s = some (pools, t) ∧ t.Fair ∧ SamePools s t := by
  induction n generalizing s with
  | zero => exact ⟨[], s, rfl, H, .refl s⟩
  | succ n ih =>
      obtain ⟨q, l, t, -, hselect, hfair, -, hsame⟩ := H.selectLoadbalance
      obtain ⟨pools, u, hcalls, hfair', hsame'⟩ := ih hfair
      refine ⟨some q :: pools, u, ?_, hfair', hsame.trans hsame'⟩
      rw [LoadTable.calls, hselect, Option.bind_some, hcalls]
      rfl

/-- A round has each pool as often as its quota. -/
theorem Fair.upcoming_perm (H : s.Fair) : s.upcoming.Perm (s.pools.flatMap s.share) := by
  obtain ⟨first, back, front, hrot, hzero, hle, -, -⟩ := H.turn
  refine List.Perm.trans ?_ ((rotation_perm s).flatMap_right s.share)
  have hshare : s.share first =
      List.replicate (s.quotaUsed first).toNat first ++
        List.replicate (s.quotaGcd first - s.quotaUsed first).toNat first := by
    rw [share, List.replicate_append_replicate]
    congr 1
    omega
  rw [upcoming_eq hrot, hrot, List.flatMap_cons, hshare]
  refine List.perm_append_comm.trans ?_
  rw [List.append_assoc]

theorem count_share (s : LoadTable) (p q : ℕ) :
    (s.share q).count p = if q = p then (s.quotaGcd q).toNat else 0 := by
  rw [share, List.count_replicate]
  simp

theorem count_flatMap_share {l : List ℕ} (hnodup : l.Nodup) (hp : p ∈ l) :
    (l.flatMap s.share).count p = (s.quotaGcd p).toNat := by
  induction l with
  | nil => cases hp
  | cons q l ih =>
      obtain ⟨hq, hl⟩ := List.nodup_cons.mp hnodup
      rw [List.flatMap_cons, List.count_append, count_share]
      by_cases heq : q = p
      · have hnone : p ∉ l.flatMap s.share := by
          intro hmem
          obtain ⟨r, hr, hpr⟩ := List.mem_flatMap.mp hmem
          exact hq (heq ▸ List.eq_of_mem_replicate hpr ▸ hr)
        rw [if_pos heq, List.count_eq_zero_of_not_mem hnone, heq, add_zero]
      · rw [if_neg heq, zero_add]
        exact ih hl ((List.mem_cons.mp hp).resolve_left (Ne.symm heq))

theorem length_flatMap_share {l : List ℕ} (H : ∀ p ∈ l, 0 ≤ s.quotaGcd p) :
    ((l.flatMap s.share).length : ℤ) = (l.map s.quotaGcd).sum := by
  induction l with
  | nil => rfl
  | cons p l ih =>
      have hp := H p List.mem_cons_self
      rw [List.flatMap_cons, List.length_append, List.map_cons, List.sum_cons, share,
        List.length_replicate, Nat.cast_add, ih fun q hq => H q (List.mem_cons_of_mem _ hq),
        Int.toNat_of_nonneg hp]

/-- Before the first call. -/
theorem fair_of_unused (hwork : ∀ p ∈ s.pools, s.poolUnworkable p = false)
    (hnonneg : ∀ p ∈ s.pools, 0 ≤ s.quotaGcd p) (hpos : ∃ p ∈ s.pools, 0 < s.quotaGcd p)
    (hused : ∀ p ∈ s.pools, s.quotaUsed p = 0) : s.Fair := by
  obtain ⟨rest, hrot, -⟩ := exists_rotation s
  have hzero : ∀ p ∈ s.rotating :: rest, s.quotaUsed p = 0 := fun p hp =>
    hused p (mem_rotation.mp (hrot ▸ hp))
  have hfirst := hzero _ List.mem_cons_self
  refine ⟨hwork, hnonneg, hpos, s.rotating, rest, [], ?_, hfirst.ge, ?_, ?_, ?_⟩
  · rw [hrot, List.append_nil]
  · rw [hfirst]
    exact hnonneg _ (mem_pools_of_rotation (show s.rotation = [] ++ s.rotating :: rest from hrot))
  · exact fun p hp => hzero p (List.mem_cons_of_mem _ hp)
  · exact fun p hp => absurd hp List.not_mem_nil

end

/-- **After however many calls, as many more as the quotas together return every pool as often
as its quota**, and no pool is ever used more than that. -/
theorem calls_fair (s : LoadTable) (hwork : ∀ p ∈ s.pools, s.poolUnworkable p = false)
    (hnonneg : ∀ p ∈ s.pools, 0 ≤ s.quotaGcd p) (hpos : ∃ p ∈ s.pools, 0 < s.quotaGcd p)
    (hused : ∀ p ∈ s.pools, s.quotaUsed p = 0) (n : ℕ) :
    ∃ before t, calls n s = some (before, t) ∧
      (∀ p ∈ s.pools, 0 ≤ t.quotaUsed p ∧ t.quotaUsed p ≤ s.quotaGcd p) ∧
      ∃ block u, calls (s.pools.map s.quotaGcd).sum.toNat t = some (block, u) ∧
        ∀ p ∈ s.pools, (block.count (some p) : ℤ) = s.quotaGcd p := by
  obtain ⟨before, t, hcalls, hfair, hsame⟩ :=
    (fair_of_unused hwork hnonneg hpos hused).exists_calls n
  have hpools : t.pools = s.pools := by rw [hsame.table]
  have hperm := hfair.upcoming_perm
  rw [share_eq hsame, hpools] at hperm
  have hlen : t.upcoming.length = (s.pools.map s.quotaGcd).sum.toNat := by
    rw [← length_flatMap_share hnonneg, Int.toNat_natCast, hperm.length_eq]
  obtain ⟨u, hblock, -, -⟩ := hfair.calls hlen.ge
  refine ⟨before, t, hcalls, ?_, _, u, hblock, ?_⟩
  · intro p hp
    have hbounds := hfair.bounds (hpools ▸ hp)
    rwa [hsame.quotaGcd] at hbounds
  · intro p hp
    rw [← hlen, List.take_length, List.count_map_of_injective _ _ (Option.some_injective ℕ),
      hperm.count_eq, count_flatMap_share s.nodup hp, Int.toNat_of_nonneg (hnonneg p hp)]

/-- Pools with such quotas, whose rotation begins with the first. -/
def ofQuotas (quotas : List ℕ) (hne : quotas ≠ []) : LoadTable :=
  { (QuotaTable.ofQuotas quotas).adjustQuotaGcd with
    rotatingPool := 0
    rotating_lt := by
      have hpools : (QuotaTable.ofQuotas quotas).adjustQuotaGcd.pools =
        List.range quotas.length := rfl
      rw [hpools, List.length_range]
      exact List.length_pos_iff.mpr hne }

/-- One call after the first, two pools of quotas 2 and 1. -/
theorem calls_fair_two_one :
    ∃ before t, calls 1 (ofQuotas [2, 1] (by decide)) = some (before, t) ∧
      (∀ p ∈ [0, 1], 0 ≤ t.quotaUsed p ∧
        t.quotaUsed p ≤ (ofQuotas [2, 1] (by decide)).quotaGcd p) ∧
      ∃ block u, calls 3 t = some (block, u) ∧
        ∀ p ∈ [0, 1], (block.count (some p) : ℤ) = (ofQuotas [2, 1] (by decide)).quotaGcd p :=
  calls_fair (ofQuotas [2, 1] (by decide)) (by decide) (by decide) (by decide) (by decide) 1

/-! ## Asking for an algorithm -/

section
variable {s t u : LoadTable} {malgo : Option ℕ} {p q m : ℕ}

/-- A pool with a zero quota is come to and not taken, and none before it is. -/
def ZeroReached (s : LoadTable) (front : List ℕ) : List ℕ → Prop
  | [] => False
  | p :: rest => ¬ s.TakenAt front p ∧ (s.quotaGcd p = 0 ∨ ZeroReached s (front ++ [p]) rest)

theorem zeroReached_iff {front l : List ℕ} : s.ZeroReached front l ↔
    ∃ before p back, l = before ++ p :: back ∧ s.quotaGcd p = 0 ∧
      ¬ s.TakenAt (front ++ before) p ∧
      ∀ f q b, before = f ++ q :: b → ¬ s.TakenAt (front ++ f) q := by
  induction l generalizing front with
  | nil =>
      refine iff_of_false id ?_
      intro hex
      obtain ⟨before, p, back, hl, -⟩ := hex
      simp at hl
  | cons a l ih =>
      rw [ZeroReached, ih]
      constructor
      · intro hreach
        obtain ⟨hno, hzero | hlater⟩ := hreach
        · refine ⟨[], a, l, rfl, hzero, by simpa using hno, ?_⟩
          intro f q b hnil
          simp at hnil
        · obtain ⟨before, p, back, hl, hzero, hpno, hbefore⟩ := hlater
          refine ⟨a :: before, p, back, by rw [hl]; rfl, hzero, by simpa using hpno, ?_⟩
          intro f q b hsplit
          cases f with
          | nil => simpa [(List.cons.inj hsplit).1] using hno
          | cons a' f =>
              obtain ⟨rfl, hrest⟩ := List.cons.inj hsplit
              have := hbefore f q b hrest
              simpa using this
      · intro hex
        obtain ⟨before, p, back, hl, hzero, hpno, hbefore⟩ := hex
        cases before with
        | nil =>
            obtain ⟨rfl, rfl⟩ := List.cons.inj hl
            exact ⟨by simpa using hpno, .inl hzero⟩
        | cons a' before =>
            obtain ⟨rfl, rfl⟩ := List.cons.inj hl
            refine ⟨by simpa using hbefore [] a before rfl, .inr ⟨before, p, back, rfl, hzero,
              by simpa using hpno, ?_⟩⟩
            intro f q b hsplit
            have := hbefore (a :: f) q b (by rw [hsplit]; rfl)
            simpa using this

/-- The loop has come past some pools and taken none: the others were used as often as at its
start, but for what was given back. -/
structure Passed (s u : LoadTable) (front : List ℕ) : Prop where
  same : SamePools s u
  used : ∀ p, p ∉ front → u.quotaUsed p = s.usedAt front p

theorem passed_refl (s : LoadTable) : Passed s s [] := by
  refine ⟨.refl s, ?_⟩
  intro p _
  rw [usedAt]
  split <;> simp

theorem Passed.rotate {front : List ℕ} (H : Passed s u front) : Passed s u.rotate front :=
  ⟨H.same.trans (.rotate u), H.used⟩

theorem Passed.quotaLeft {front : List ℕ} (H : Passed s u front) (hq : q ∉ front) :
    (u.quotaLeft q && !u.poolUnworkable q) = true ↔ s.TakenAt front q := by
  rw [LoadTable.quotaLeft, TakenAt, H.used q hq, H.same.quotaGcd, H.same.poolUnworkable]
  simp [and_comm]

/-- A pool that is not taken is passed. -/
theorem Passed.step {front : List ℕ} (H : Passed s u front) (hq : q ∉ front)
    (hno : ¬ s.TakenAt front q) :
    Passed s (if u.quotaLeft q then (u.addUsed q 1).giveBack else u) (front ++ [q]) := by
  have hsame : SamePools s (if u.quotaLeft q then (u.addUsed q 1).giveBack else u) := by
    obtain ⟨used, hused⟩ := exists_withUsed_giveBack u q
    rw [hused]
    exact H.same.trans (.withUsed u used)
  refine ⟨hsame, ?_⟩
  intro p hp
  rw [List.mem_append, List.mem_singleton, not_or] at hp
  have hprio : (u.addUsed q 1).optFailOnly = s.optFailOnly ∧
      (u.addUsed q 1).priorityPool 0 = s.priorityPool 0 := by
    have htable : (u.addUsed q 1).toPoolTable = s.toPoolTable := H.same.table
    rw [htable]
    exact ⟨rfl, rfl⟩
  have hcount : (front ++ [q]).countP (fun r => s.quotaLeft r && s.poolUnworkable r) =
      front.countP (fun r => s.quotaLeft r && s.poolUnworkable r) +
        if s.quotaLeft q && s.poolUnworkable q then 1 else 0 := by
    rw [List.countP_append, List.countP_singleton]
  have hused := H.used p hp.1
  by_cases hgive : (s.optFailOnly && s.priorityPool 0 == some p) = true
  · -- what the pool that is passed has left comes to this one
    have hself : u.quotaLeft q = s.quotaLeft q := by
      have hother : (s.optFailOnly && s.priorityPool 0 == some q) = false := by
        rw [Bool.and_eq_true, beq_iff_eq] at hgive
        rw [hgive.2]
        simp [hp.2]
      rw [LoadTable.quotaLeft, LoadTable.quotaLeft, H.used q hq, usedAt, hother, H.same.quotaGcd]
      simp
    have hidle : s.quotaLeft q = true → s.poolUnworkable q = true := by
      intro hleft
      by_contra hwork
      rw [Bool.not_eq_true] at hwork
      refine hno ((H.quotaLeft hq).mp ?_)
      rw [hself, hleft, H.same.poolUnworkable, hwork]
      rfl
    rw [usedAt, if_pos hgive] at hused ⊢
    rw [hcount, hself]
    cases hleft : s.quotaLeft q with
    | false => simpa using hused
    | true =>
        rw [if_pos rfl, quotaUsed_giveBack, hprio.1, hprio.2, if_pos hgive, quotaUsed_addUsed,
          if_neg hp.2, hused, hidle hleft]
        simp
        omega
  · rw [usedAt, if_neg hgive] at hused ⊢
    split
    next =>
      rw [quotaUsed_giveBack, hprio.1, hprio.2, if_neg hgive, quotaUsed_addUsed, if_neg hp.2, hused]
      omega
    next => exact hused

/-- The loop divides by zero exactly when it comes to a quota of zero. -/
theorem search_eq_none_iff {front l rest : List ℕ} (H : Passed s u front)
    (hrot : u.rotation = l ++ rest) (hnodup : (front ++ l).Nodup) (poolLowest : Option ℕ)
    (lowest : ℤ) :
    search (some m) l.length u poolLowest lowest = none ↔
      s.ZeroReached front (l.filter fun q => (s.stake q).malgo == m) := by
  induction l generalizing u front rest poolLowest lowest with
  | nil => simp [search, ZeroReached]
  | cons q l ih =>
      obtain ⟨rest', hcons, hnext⟩ := exists_rotation u
      rw [List.cons_append] at hrot
      obtain ⟨hq, hrest⟩ := List.cons.inj (hcons.symm.trans hrot)
      rw [hrest, hq, List.append_assoc] at hnext
      have hfront : q ∉ front := by
        intro hmem
        exact (List.nodup_append.mp hnodup).2.2 q hmem q List.mem_cons_self rfl
      have hskip : (front ++ l).Nodup :=
        hnodup.sublist ((List.sublist_cons_self q l).append_left front)
      have hmove : (front ++ [q] ++ l).Nodup := by
        rwa [List.append_assoc, List.singleton_append]
      rw [List.length_cons, search, hq]
      dsimp only
      rw [H.same.otherMalgo]
      by_cases hmalgo : (s.stake q).malgo = m
      · have hother : s.otherMalgo (some m) q = false := by simp [QuotaTable.otherMalgo, hmalgo]
        rw [hother, if_neg Bool.false_ne_true, List.filter_cons_of_pos (by simpa using hmalgo),
          ZeroReached]
        by_cases htaken : s.TakenAt front q
        · rw [if_pos ((H.quotaLeft hfront).mpr htaken)]
          exact iff_of_false (by simp) fun hreach => hreach.1 htaken
        · rw [if_neg fun hleft => htaken ((H.quotaLeft hfront).mp hleft)]
          have hstep := H.step hfront htaken
          have hrotation : (if u.quotaLeft q then (u.addUsed q 1).giveBack else u).rotate.rotation =
              l ++ (rest ++ [q]) := by
            obtain ⟨used, hused⟩ := exists_withUsed_giveBack u q
            rw [hused]
            exact hnext
          generalize (if u.quotaLeft q then (u.addUsed q 1).giveBack else u) = u'
            at hstep hrotation ⊢
          rw [if_pos Option.isSome_some, hstep.same.quotaGcd]
          by_cases hzero : s.quotaGcd q = 0
          · rw [if_pos hzero]
            exact iff_of_true rfl ⟨htaken, .inl hzero⟩
          · rw [if_neg hzero]
            have hih := ih hstep.rotate hrotation hmove
            split
            next => rw [hih]; simp [htaken, hzero]
            next => rw [hih]; simp [htaken, hzero]
      · have hother : s.otherMalgo (some m) q = true := by simp [QuotaTable.otherMalgo, hmalgo]
        rw [hother, if_pos rfl, List.filter_cons_of_neg (by simpa using hmalgo)]
        exact ih H.rotate hnext hskip poolLowest lowest

/-- Only a pool of the algorithm is returned. -/
theorem otherMalgo_of_search {turns : ℕ} {poolLowest pool : Option ℕ} {lowest : ℤ}
    (hsame : SamePools s u) (hlowest : ∀ p ∈ poolLowest, s.otherMalgo malgo p = false)
    (hsearch : search malgo turns u poolLowest lowest = some (pool, t)) :
    ∀ p ∈ pool, s.otherMalgo malgo p = false := by
  induction turns generalizing u poolLowest lowest with
  | zero =>
      obtain ⟨rfl, -⟩ := Prod.mk.inj (Option.some.inj hsearch)
      exact hlowest
  | succ turns ih =>
      rw [search] at hsearch
      dsimp only at hsearch
      rw [hsame.otherMalgo] at hsearch
      by_cases hother : s.otherMalgo malgo u.rotating = true
      · rw [if_pos hother] at hsearch
        exact ih (hsame.trans (.rotate u)) hlowest hsearch
      · rw [if_neg hother] at hsearch
        rw [Bool.not_eq_true] at hother
        obtain ⟨used, hused⟩ := exists_withUsed_giveBack u u.rotating
        rw [hused] at hsearch
        have hnext := (hsame.trans (.withUsed u used)).trans (.rotate (u.withUsed used))
        split at hsearch
        next =>
          obtain ⟨hpool, -⟩ := Prod.mk.inj (Option.some.inj hsearch)
          intro p hp
          obtain rfl := Option.some.inj (hpool.trans hp)
          exact hother
        next =>
          split at hsearch
          next =>
            split at hsearch
            next => cases hsearch
            next =>
              split at hsearch
              next =>
                refine ih hnext ?_ hsearch
                intro p hp
                obtain rfl := Option.some.inj hp
                exact hother
              next => exact ih hnext hlowest hsearch
          next => exact ih hnext hlowest hsearch

/-- Without an algorithm there is no division. -/
theorem search_none_isSome (turns : ℕ) (u : LoadTable) (poolLowest : Option ℕ) (lowest : ℤ) :
    (search none turns u poolLowest lowest).isSome = true := by
  induction turns generalizing u with
  | zero => rfl
  | succ turns ih =>
      simp only [search]
      split
      next => exact ih _
      next =>
        split
        next => rfl
        next => exact ih _

/-- No division is by zero exactly when the pools with a quota of zero are taken. -/
theorem search_isSome_iff (s : LoadTable) (malgo : Option ℕ) (poolLowest : Option ℕ)
    (lowest : ℤ) :
    (search malgo s.totalPools s poolLowest lowest).isSome = true ↔ s.ZeroQuotaTaken malgo := by
  cases malgo with
  | none => exact iff_of_true (search_none_isSome _ s _ _) fun m hm => by cases hm
  | some m =>
      have hrot : s.rotation = s.rotation ++ [] := (List.append_nil _).symm
      have hnone := search_eq_none_iff (m := m) (passed_refl s) hrot (nodup_rotation s) poolLowest
        lowest
      rw [length_rotation] at hnone
      rw [← Option.ne_none_iff_isSome, Ne, hnone, zeroReached_iff]
      constructor
      · intro hno m' hm' front p back hsplit hzero
        obtain rfl := Option.some.inj hm'
        by_contra htaken
        rw [not_or] at htaken
        refine hno ⟨front, p, back, hsplit, hzero, htaken.1, ?_⟩
        intro f q b hfront htake
        exact htaken.2 ⟨f, q, b, hfront, htake⟩
      · intro hall hex
        obtain ⟨front, p, back, hsplit, hzero, hno, hbefore⟩ := hex
        rcases hall m rfl front p back hsplit hzero with htake | hearlier
        · exact hno htake
        · obtain ⟨f, q, b, hfront, htake⟩ := hearlier
          exact hbefore f q b hfront htake

end

/-- **A pool is selected safely exactly when no algorithm is asked for, or every pool of the
algorithm with a quota of zero that the loop comes to is taken.** -/
theorem selectsSafely_iff (s : LoadTable) (malgo : Option ℕ) :
    s.SelectsSafely malgo ↔ s.startRound.ZeroQuotaTaken malgo := by
  have hsame := SamePools.startRound s
  rw [← search_isSome_iff s.startRound malgo none intMax, hsame.totalPools]
  constructor
  · intro H
    obtain ⟨pool, t, hselect, -⟩ := H
    obtain ⟨r, hr, -⟩ := Option.map_eq_some_iff.mp hselect
    rw [hr]
    rfl
  · intro hsome
    obtain ⟨r, hr⟩ := Option.isSome_iff_exists.mp hsome
    refine ⟨r.1, _, by rw [selectLoadbalance, hr]; rfl, ?_⟩
    intro m hm p hp
    have hpool := otherMalgo_of_search hsame (fun p hp => by cases hp) hr p hp
    exact QuotaTable.otherMalgo_eq_false_iff.mp hpool m hm

/-- A pool that is switched off by a quota of zero comes first, and its algorithm is asked
for. -/
theorem not_selectsSafely_zero : ¬ (ofQuotas [0, 1] (by decide)).SelectsSafely (some 0) := by
  intro H
  obtain ⟨pool, t, hselect, -⟩ := H
  have hnone : (ofQuotas [0, 1] (by decide)).selectLoadbalance (some 0) = none := by rfl
  rw [hnone] at hselect
  cases hselect

end LoadTable

end MassGridMiner

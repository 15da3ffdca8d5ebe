import MassGridMiner.Pools.Quota

/-!
# The pool with the fewest shares

`select_balanced` looks for the workable pool with the fewest shares, and only if there is
none for one that is for failover only.  It starts from the current pool, whatever that pool is:
where no other has fewer shares, the current pool is what the search ends with.

## Main definitions

* `poolUnworkable`, `selectBalanced` — the functions of the source.
* `Balances` — who is chosen and counted.
* `balances_iff` — when it is the right pool.
-/

namespace MassGridMiner

namespace QuotaTable

/-- `pool_unworkable`. -/
def poolUnworkable (s : QuotaTable) (p : ℕ) : Bool :=
  (s.pool p).idle || (s.pool p).enabled != .enabled ||
    ((s.pool p).hasStratum && !(s.stake p).stratumActive)

/-- An algorithm is asked for, and the pool has another. -/
def otherMalgo (s : QuotaTable) (malgo : Option ℕ) (p : ℕ) : Bool :=
  malgo.any fun m => (s.stake p).malgo != m

/-- The variables of the loop of `select_balanced`. -/
structure BalancedSearch where
  lowest : ℤ
  ret : ℕ
  failoverPool : Option ℕ

/-- A turn of that loop. -/
def searchBalanced (s : QuotaTable) (malgo : Option ℕ) (found : BalancedSearch) (p : ℕ) :
    BalancedSearch :=
  if s.otherMalgo malgo p then found
  else if s.poolUnworkable p then found
  else if (s.pool p).failoverOnly then
    { found with failoverPool := some (found.failoverPool.getD p) }
  else if (s.stake p).shares < found.lowest then
    { found with lowest := (s.stake p).shares, ret := p }
  else found

/-- `++ret->shares`. -/
def countShare (s : QuotaTable) (p : ℕ) : QuotaTable :=
  { s with
    stake := Function.update s.stake p { s.stake p with shares := (s.stake p).shares + 1 } }

/-- The pool that `select_balanced` returns. -/
def balancedPool (s : QuotaTable) (cp : ℕ) (malgo : Option ℕ) : Option ℕ :=
  let found := s.pools.foldl (s.searchBalanced malgo) ⟨(s.stake cp).shares, cp, none⟩
  if s.otherMalgo malgo found.ret then found.failoverPool
  else if s.poolUnworkable found.ret && found.failoverPool.isSome then found.failoverPool
  else some found.ret

/-- `select_balanced`. -/
def selectBalanced (s : QuotaTable) (cp : ℕ) (malgo : Option ℕ) : Option ℕ × QuotaTable :=
  let ret := s.balancedPool cp malgo
  (ret, ret.elim s s.countShare)

/-- A listed pool that works can be used for the algorithm. -/
structure Serves (s : QuotaTable) (malgo : Option ℕ) (p : ℕ) : Prop where
  mem : p ∈ s.pools
  malgo : ∀ m ∈ malgo, (s.stake p).malgo = m
  workable : s.poolUnworkable p = false

/-- One that is not for failover only, and one that is. -/
structure Candidate (s : QuotaTable) (malgo : Option ℕ) (p : ℕ) : Prop
    extends Serves s malgo p where
  failoverOnly : (s.pool p).failoverOnly = false

structure Failover (s : QuotaTable) (malgo : Option ℕ) (p : ℕ) : Prop
    extends Serves s malgo p where
  failoverOnly : (s.pool p).failoverOnly = true

/-- A pool with the fewest shares is returned, or one for failover, and only its shares are
counted. -/
structure Balances (s : QuotaTable) (cp : ℕ) (malgo : Option ℕ) : Prop where
  fewest : (∃ p, s.Candidate malgo p) → ∃ p, (s.selectBalanced cp malgo).1 = some p ∧
    s.Candidate malgo p ∧ ∀ q, s.Candidate malgo q → (s.stake p).shares ≤ (s.stake q).shares
  failover : (¬ ∃ p, s.Candidate malgo p) → (∃ p, s.Failover malgo p) →
    ∃ p, (s.selectBalanced cp malgo).1 = some p ∧ s.Failover malgo p
  counted : ∀ p, ((s.selectBalanced cp malgo).2.stake p).shares =
    (s.stake p).shares + if (s.selectBalanced cp malgo).1 = some p then 1 else 0

/-! ## The search -/

section
variable {s : QuotaTable} {malgo : Option ℕ} {cp p : ℕ}

theorem otherMalgo_eq_false_iff : s.otherMalgo malgo p = false ↔
    ∀ m ∈ malgo, (s.stake p).malgo = m := by
  cases malgo <;> simp [otherMalgo]

/-- What the loop has found among the pools that it has seen. -/
structure Found (s : QuotaTable) (cp : ℕ) (malgo : Option ℕ) (seen : List ℕ)
    (found : BalancedSearch) : Prop where
  lowest_eq : found.lowest = (s.stake found.ret).shares
  fewest : ∀ q ∈ seen, s.Candidate malgo q → found.lowest ≤ (s.stake q).shares
  ret : found.ret = cp ∨ s.Candidate malgo found.ret ∧ found.lowest < (s.stake cp).shares
  failover : ∀ p ∈ found.failoverPool, s.Failover malgo p
  noFailover : found.failoverPool = none → ∀ q ∈ seen, ¬ s.Failover malgo q

theorem found_nil (s : QuotaTable) (cp : ℕ) (malgo : Option ℕ) :
    Found s cp malgo [] ⟨(s.stake cp).shares, cp, none⟩ := by
  refine ⟨rfl, ?_, .inl rfl, ?_, ?_⟩ <;> simp

/-- A pool that cannot be used changes nothing. -/
theorem Found.skip {seen : List ℕ} {found : BalancedSearch} (H : Found s cp malgo seen found)
    (hp : ¬ s.Serves malgo p) : Found s cp malgo (seen ++ [p]) found := by
  refine ⟨H.lowest_eq, ?_, H.ret, H.failover, ?_⟩
  · intro q hq hcand
    rcases List.mem_append.mp hq with hseen | hlast
    · exact H.fewest q hseen hcand
    · rw [List.mem_singleton] at hlast
      exact absurd (hlast ▸ hcand.toServes) hp
  · intro hnone q hq hfail
    rcases List.mem_append.mp hq with hseen | hlast
    · exact H.noFailover hnone q hseen hfail
    · rw [List.mem_singleton] at hlast
      exact absurd (hlast ▸ hfail.toServes) hp

/-- One that is for failover only is kept, if it is the first. -/
theorem Found.keepFailover {seen : List ℕ} {found : BalancedSearch}
    (H : Found s cp malgo seen found) (hp : s.Failover malgo p) :
    Found s cp malgo (seen ++ [p])
      { found with failoverPool := some (found.failoverPool.getD p) } := by
  refine ⟨H.lowest_eq, ?_, H.ret, ?_, ?_⟩
  · intro q hq hcand
    rcases List.mem_append.mp hq with hseen | hlast
    · exact H.fewest q hseen hcand
    · rw [List.mem_singleton] at hlast
      have hboth := hp.failoverOnly
      rw [← hlast, hcand.failoverOnly] at hboth
      cases hboth
  · intro q hq
    obtain rfl := Option.some.inj hq
    cases hpool : found.failoverPool with
    | none => exact hp
    | some r => exact H.failover r hpool
  · intro hnone
    cases hnone

/-- A candidate is taken if it has fewer shares. -/
theorem Found.take {seen : List ℕ} {found : BalancedSearch} (H : Found s cp malgo seen found)
    (hp : s.Candidate malgo p) :
    Found s cp malgo (seen ++ [p])
      (if (s.stake p).shares < found.lowest then
        { found with lowest := (s.stake p).shares, ret := p }
      else found) := by
  have hno : found.failoverPool = none → ∀ q ∈ seen ++ [p], ¬ s.Failover malgo q := by
    intro hnone q hq hfail
    rcases List.mem_append.mp hq with hseen | hlast
    · exact H.noFailover hnone q hseen hfail
    · rw [List.mem_singleton] at hlast
      have hboth := hp.failoverOnly
      rw [← hlast, hfail.failoverOnly] at hboth
      cases hboth
  split
  next hlt =>
    refine ⟨rfl, ?_, .inr ⟨hp, ?_⟩, H.failover, hno⟩
    · intro q hq hcand
      rcases List.mem_append.mp hq with hseen | hlast
      · exact hlt.le.trans (H.fewest q hseen hcand)
      · rw [List.mem_singleton.mp hlast]
    · rcases H.ret with hret | hret
      · rw [← hret, ← H.lowest_eq]
        exact hlt
      · exact hlt.trans hret.2
  next hge =>
    refine ⟨H.lowest_eq, ?_, H.ret, H.failover, hno⟩
    intro q hq hcand
    rcases List.mem_append.mp hq with hseen | hlast
    · exact H.fewest q hseen hcand
    · rw [List.mem_singleton.mp hlast]
      exact not_lt.mp hge

/-- A turn of the loop. -/
theorem Found.step {seen : List ℕ} {found : BalancedSearch} (H : Found s cp malgo seen found)
    (hp : p ∈ s.pools) : Found s cp malgo (seen ++ [p]) (s.searchBalanced malgo found p) := by
  rw [searchBalanced]
  by_cases hother : s.otherMalgo malgo p = true
  · rw [if_pos hother]
    refine H.skip fun hserves => ?_
    rw [otherMalgo_eq_false_iff.mpr hserves.malgo] at hother
    cases hother
  by_cases hwork : s.poolUnworkable p = true
  · rw [if_neg hother, if_pos hwork]
    refine H.skip fun hserves => ?_
    rw [hserves.workable] at hwork
    cases hwork
  rw [if_neg hother, if_neg hwork]
  rw [Bool.not_eq_true] at hother hwork
  have hserves : s.Serves malgo p := ⟨hp, otherMalgo_eq_false_iff.mp hother, hwork⟩
  by_cases hfail : (s.pool p).failoverOnly = true
  · rw [if_pos hfail]
    exact H.keepFailover ⟨hserves, hfail⟩
  · rw [if_neg hfail]
    exact H.take ⟨hserves, by simpa using hfail⟩

theorem Found.foldl {seen : List ℕ} {found : BalancedSearch} (H : Found s cp malgo seen found)
    {rest : List ℕ} (hrest : ∀ p ∈ rest, p ∈ s.pools) :
    Found s cp malgo (seen ++ rest) (rest.foldl (s.searchBalanced malgo) found) := by
  induction rest generalizing seen found with
  | nil => simpa using H
  | cons p rest ih =>
      have hstep := H.step (hrest p List.mem_cons_self)
      have hall := ih hstep fun q hq => hrest q (List.mem_cons_of_mem _ hq)
      rwa [List.append_assoc, List.singleton_append] at hall

/-- The whole loop. -/
theorem found_pools (s : QuotaTable) (cp : ℕ) (malgo : Option ℕ) :
    Found s cp malgo s.pools
      (s.pools.foldl (s.searchBalanced malgo) ⟨(s.stake cp).shares, cp, none⟩) := by
  have hall := (found_nil s cp malgo).foldl fun p (hp : p ∈ s.pools) => hp
  rwa [List.nil_append] at hall

/-! ## The pool that is returned -/

/-- Where there is none to be preferred, a pool for failover is returned. -/
theorem failover_balancedPool (hcp : cp ∈ s.pools) (hnone : ¬ ∃ p, s.Candidate malgo p)
    (hfail : ∃ p, s.Failover malgo p) :
    ∃ p, s.balancedPool cp malgo = some p ∧ s.Failover malgo p := by
  have H := found_pools s cp malgo
  rw [balancedPool]
  generalize s.pools.foldl (s.searchBalanced malgo) ⟨(s.stake cp).shares, cp, none⟩ = found at H ⊢
  obtain ⟨f, hf⟩ := hfail
  -- the search has found a pool for failover, and ends where it began
  obtain ⟨r, hr⟩ : ∃ r, found.failoverPool = some r := by
    cases hpool : found.failoverPool with
    | none => exact absurd hf (H.noFailover hpool f hf.mem)
    | some r => exact ⟨r, rfl⟩
  have hret : found.ret = cp := H.ret.resolve_right fun hcand => hnone ⟨_, hcand.1⟩
  have hpool : s.Failover malgo r := H.failover r hr
  rw [hret, hr]
  by_cases hother : s.otherMalgo malgo cp = true
  · exact ⟨r, by rw [if_pos hother], hpool⟩
  by_cases hwork : s.poolUnworkable cp = true
  · exact ⟨r, by simp [hother, hwork], hpool⟩
  rw [Bool.not_eq_true] at hother hwork
  have hserves : s.Serves malgo cp := ⟨hcp, otherMalgo_eq_false_iff.mp hother, hwork⟩
  refine ⟨cp, by simp [hother, hwork], hserves, ?_⟩
  by_contra honly
  exact hnone ⟨cp, hserves, by simpa using honly⟩

/-- A pool with the fewest shares is returned exactly when the current one is a candidate or
another has fewer shares. -/
theorem fewest_balancedPool_iff :
    (∃ p, s.balancedPool cp malgo = some p ∧ s.Candidate malgo p ∧
      ∀ q, s.Candidate malgo q → (s.stake p).shares ≤ (s.stake q).shares) ↔
    s.Candidate malgo cp ∨
      ∃ q, s.Candidate malgo q ∧ (s.stake q).shares < (s.stake cp).shares := by
  have H := found_pools s cp malgo
  rw [balancedPool]
  generalize s.pools.foldl (s.searchBalanced malgo) ⟨(s.stake cp).shares, cp, none⟩ = found at H ⊢
  have hbest : s.Candidate malgo found.ret →
      ∃ p, (if s.otherMalgo malgo found.ret then found.failoverPool
        else if s.poolUnworkable found.ret && found.failoverPool.isSome then found.failoverPool
        else some found.ret) = some p ∧ s.Candidate malgo p ∧
        ∀ q, s.Candidate malgo q → (s.stake p).shares ≤ (s.stake q).shares := by
    intro hcand
    refine ⟨found.ret, ?_, hcand, ?_⟩
    · simp [otherMalgo_eq_false_iff.mpr hcand.malgo, hcand.workable]
    · intro q hq
      rw [← H.lowest_eq]
      exact H.fewest q hq.mem hq
  constructor
  · intro hret
    obtain ⟨p, hp, hcand, hle⟩ := hret
    rcases H.ret with hsame | hother
    · left
      -- what is returned is the current pool or a pool for failover
      rw [hsame] at hp
      have hfail : ∀ r ∈ found.failoverPool, ¬ s.Candidate malgo r := by
        intro r hr hc
        have hboth := (H.failover r hr).failoverOnly
        rw [hc.failoverOnly] at hboth
        cases hboth
      split at hp
      next => exact absurd hcand (hfail p hp)
      next =>
        split at hp
        next => exact absurd hcand (hfail p hp)
        next => exact Option.some.inj hp ▸ hcand
    · right
      exact ⟨found.ret, hother.1, H.lowest_eq ▸ hother.2⟩
  · intro hcond
    apply hbest
    rcases H.ret with hsame | hother
    · rcases hcond with hcp | hfewer
      · rw [hsame]
        exact hcp
      · obtain ⟨q, hq, hlt⟩ := hfewer
        have hle := H.fewest q hq.mem hq
        rw [H.lowest_eq, hsame] at hle
        omega
    · exact hother.1

theorem shares_countShare (s : QuotaTable) (p q : ℕ) :
    ((s.countShare p).stake q).shares = (s.stake q).shares + if some p = some q then 1 else 0 := by
  by_cases hq : q = p
  · subst hq
    simp [countShare]
  · simp [countShare, Function.update_of_ne hq, Ne.symm hq]

end

/-- **The right pool is chosen exactly when there is no candidate, the current pool is one, or
one has fewer shares than the current pool.** -/
theorem balances_iff (s : QuotaTable) {cp : ℕ} (malgo : Option ℕ) (hcp : cp ∈ s.pools) :
    s.Balances cp malgo ↔ ((∃ p, s.Candidate malgo p) → s.Candidate malgo cp ∨
      ∃ q, s.Candidate malgo q ∧ (s.stake q).shares < (s.stake cp).shares) := by
  constructor
  · intro H hex
    exact fewest_balancedPool_iff.mp (H.fewest hex)
  · intro hcond
    refine ⟨fun hex => fewest_balancedPool_iff.mpr (hcond hex),
      fun hnone hfail => failover_balancedPool hcp hnone hfail, ?_⟩
    intro p
    rw [selectBalanced]
    dsimp only
    cases s.balancedPool cp malgo with
    | none => simp
    | some r => exact shares_countShare s r p

/-- Two pools that work; the first is for failover only, and the second has five shares. -/
def failoverFirst : QuotaTable :=
  { ofQuotas [1, 1] with
    pool := fun p => { (ofQuotas [1, 1]).pool p with failoverOnly := p == 0 }
    stake := fun p => ⟨1, 1, 0, if p = 0 then 0 else 5, 0, false⟩ }

theorem candidate_failoverFirst : failoverFirst.Candidate none 1 :=
  ⟨⟨by decide, by simp, by decide⟩, by decide⟩

/-- A pool for failover only that is current and has no shares is chosen. -/
theorem not_balances_failoverFirst : ¬ failoverFirst.Balances 0 none := by
  intro H
  obtain ⟨p, hp, hcand, -⟩ := H.fewest ⟨1, candidate_failoverFirst⟩
  have hzero : (failoverFirst.selectBalanced 0 none).1 = some 0 := by decide
  obtain rfl := Option.some.inj (hzero.symm.trans hp)
  exact absurd hcand.failoverOnly (by decide)

/-- When the other pool is current, it is chosen. -/
theorem balances_failoverFirst : failoverFirst.Balances 1 none :=
  (balances_iff failoverFirst none (by decide)).mpr fun _ => .inl candidate_failoverFirst

end QuotaTable

end MassGridMiner

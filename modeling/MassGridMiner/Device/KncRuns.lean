import Mathlib.Algebra.BigOperators.Group.Finset.Sigma
import Mathlib.Data.Int.Interval
import MassGridMiner.Device.KncDies
import MassGridMiner.Lib.Run

/-!
# A KnC miner from its detection on

The driver starts with the dies that were found, and then the cores are scanned, their works are
flushed, and dies are enabled and disabled, in any order.

## Main definitions

* `Places` — each die is one of a channel, and there are no more of them than the arrays hold.
* `Inv.step`, `step_isSome` — what every call keeps, and when it has an end.
* `Right`, `right_of_run` — the works, the slots, the dies and the messages after any calls.
-/

namespace MassGridMiner
namespace KncAsic

variable {s s' : Knc} {hand : Multiset Work} {d k : ℕ} {ndebug : Bool}

/-! ## The dies that there are -/

/-- Each die is one of the four of one of the six channels, with as many cores as it can have. -/
structure Places (s : Knc) : Prop where
  channel : ∀ i < s.dies, 0 ≤ (s.die i).channel ∧ (s.die i).channel < 6
  die : ∀ i < s.dies, 0 ≤ (s.die i).die ∧ (s.die i).die < 4
  inj : ∀ i < s.dies, ∀ j < s.dies, (s.die i).channel = (s.die j).channel →
    (s.die i).die = (s.die j).die → i = j
  sizes_le : ∀ i < s.dies, s.sizes i ≤ 571

/-- Each die has cores. -/
def Populated (s : Knc) : Prop := ∀ i < s.dies, 0 < s.sizes i

theorem Places.of_fixed (P : Places s) (F : Fixed s s') : Places s' := by
  refine ⟨?_, ?_, ?_, ?_⟩
  · rw [F.dies, F.die]
    exact P.channel
  · rw [F.dies, F.die]
    exact P.die
  · rw [F.dies, F.die]
    exact P.inj
  · intro i hi
    rw [Knc.sizes, F.die]
    exact P.sizes_le i (F.dies ▸ hi)

theorem Populated.of_fixed (Q : Populated s) (F : Fixed s s') : Populated s' := by
  intro i hi
  rw [Knc.sizes, F.die]
  exact Q i (F.dies ▸ hi)

theorem Places.addDie (P : Places s) {channel die : ℤ} (info : DieInfo)
    (hchannel : 0 ≤ channel ∧ channel < 6) (hdie : 0 ≤ die ∧ die < 4)
    (hnew : ∀ i < s.dies, ¬((s.die i).channel = channel ∧ (s.die i).die = die)) :
    Places (s.addDie channel die info) := by
  have hcases : ∀ {i}, i < s.dies + 1 →
      (i < s.dies ∧ (s.addDie channel die info).die i = s.die i) ∨ (i = s.dies ∧
        (s.addDie channel die info).die i = ⟨channel, die, info.version, info.cores, s.cores⟩) := by
    intro i hi
    rcases Nat.lt_succ_iff_lt_or_eq.mp hi with hlt | rfl
    · exact Or.inl ⟨hlt, die_addDie_of_lt channel die info hlt⟩
    · exact Or.inr ⟨rfl, die_addDie_self channel die info⟩
  refine ⟨fun i hi => ?_, fun i hi => ?_, fun i hi j hj hc hd => ?_, fun i hi => ?_⟩
  · rcases hcases hi with ⟨hlt, heq⟩ | ⟨-, heq⟩ <;> rw [heq]
    · exact P.channel i hlt
    · exact hchannel
  · rcases hcases hi with ⟨hlt, heq⟩ | ⟨-, heq⟩ <;> rw [heq]
    · exact P.die i hlt
    · exact hdie
  · rcases hcases hi with ⟨hlt, heq⟩ | ⟨rfl, heq⟩ <;>
      rcases hcases hj with ⟨hlt', heq'⟩ | ⟨rfl, heq'⟩
    · rw [heq, heq'] at hc hd
      exact P.inj i hlt j hlt' hc hd
    · rw [heq, heq'] at hc hd
      exact absurd ⟨hc, hd⟩ (hnew i hlt)
    · rw [heq, heq'] at hc hd
      exact absurd ⟨hc.symm, hd.symm⟩ (hnew j hlt')
    · rfl
  · rw [Knc.sizes]
    rcases hcases hi with ⟨hlt, heq⟩ | ⟨-, heq⟩ <;> rw [heq]
    · exact P.sizes_le i hlt
    · exact info.cores_le

theorem Populated.addDie (Q : Populated s) (channel die : ℤ) {info : DieInfo}
    (hinfo : 0 < info.cores) : Populated (s.addDie channel die info) := by
  intro i hi
  rcases Nat.lt_succ_iff_lt_or_eq.mp hi with hlt | rfl
  · rw [sizes_addDie_of_lt channel die info hlt]
    exact Q i hlt
  · rw [sizes_addDie_self]
    exact hinfo

theorem Removed.before_dies_lt (R : Removed s s' d) {j : ℕ} (hj : j < s'.dies) :
    before d 1 j < s.dies := by
  have hdies := R.dies
  rw [before]
  split <;> omega

theorem Removed.places (R : Removed s s' d) (P : Places s) : Places s' := by
  refine ⟨fun j hj => ?_, fun j hj => ?_, fun i hi j hj hc hd => ?_, fun j hj => ?_⟩
  · rw [R.die j hj]
    exact P.channel _ (R.before_dies_lt hj)
  · rw [R.die j hj]
    exact P.die _ (R.before_dies_lt hj)
  · rw [R.die i hi, R.die j hj] at hc hd
    exact before_inj (P.inj _ (R.before_dies_lt hi) _ (R.before_dies_lt hj) hc hd)
  · rw [Knc.sizes, R.die j hj]
    exact P.sizes_le _ (R.before_dies_lt hj)

theorem Removed.populated (R : Removed s s' d) (Q : Populated s) : Populated s' := by
  intro j hj
  rw [Knc.sizes, R.die j hj]
  exact Q _ (R.before_dies_lt hj)

/-- There are no more dies than channels with four each. -/
theorem Places.dies_le (P : Places s) : s.dies ≤ 24 := by
  have hmaps : Set.MapsTo (fun i => ((s.die i).channel, (s.die i).die))
      (Finset.range s.dies : Set ℕ)
      (Finset.Ico (0 : ℤ) 6 ×ˢ Finset.Ico (0 : ℤ) 4 : Finset (ℤ × ℤ)) := by
    intro i hi
    have hi' := Finset.mem_range.mp (Finset.mem_coe.mp hi)
    exact Finset.mem_coe.mpr (Finset.mem_product.mpr
      ⟨Finset.mem_Ico.mpr (P.channel i hi'), Finset.mem_Ico.mpr (P.die i hi')⟩)
  have hinj : Set.InjOn (fun i => ((s.die i).channel, (s.die i).die))
      (Finset.range s.dies : Set ℕ) := by
    intro i hi j hj heq
    obtain ⟨hc, hd⟩ := Prod.mk.inj heq
    exact P.inj i (Finset.mem_range.mp (Finset.mem_coe.mp hi)) j
      (Finset.mem_range.mp (Finset.mem_coe.mp hj)) hc hd
  have hle := Finset.card_le_card_of_injOn _ hmaps hinj
  rwa [Finset.card_range, Finset.card_product, Int.card_Ico, Int.card_Ico] at hle

theorem Places.cores_le (P : Places s) (H : Layout s) : s.cores ≤ 24 * 571 := by
  have hsum := Finset.sum_le_card_nsmul (Finset.range s.dies) s.sizes 571 fun i hi =>
    P.sizes_le i (Finset.mem_range.mp hi)
  rw [Finset.card_range, Nat.nsmul_eq_mul] at hsum
  rw [H.cores_eq]
  exact hsum.trans (Nat.mul_le_mul_right 571 P.dies_le)

/-! ## Calls -/

theorem lt_of_findDie {asicId dieId : ℤ} (h : s.findDie asicId dieId = some d) : d < s.dies :=
  List.mem_range.mp (List.mem_of_find?_eq_some h)

theorem ne_of_findDie {asicId dieId : ℤ} (h : s.findDie asicId dieId = none) {i : ℕ}
    (hi : i < s.dies) : ¬((s.die i).channel = asicId ∧ (s.die i).die = dieId) := by
  intro heq
  have hnot := List.find?_eq_none.mp h i (List.mem_range.mpr hi)
  rw [Bool.and_eq_true, decide_eq_true_iff, decide_eq_true_iff] at hnot
  exact hnot heq

/-- What a change of a die comes to. -/
theorem changeDieState_cases {asicId dieId : ℤ} {enable : Bool} {info : Option DieInfo}
    (hs : s.changeDieState ndebug asicId dieId enable info = some s') :
    s' = s ∨ (∃ d, d < s.dies ∧ s.removeDie ndebug d = some s') ∨
      ∃ i ∈ info, (0 ≤ asicId ∧ asicId < 6) ∧ (0 ≤ dieId ∧ dieId < 4) ∧
        (∀ j < s.dies, ¬((s.die j).channel = asicId ∧ (s.die j).die = dieId)) ∧
          s' = s.addDie asicId dieId i := by
  unfold Knc.changeDieState at hs
  split at hs
  · exact Or.inl (Option.some.inj hs).symm
  · next hrange =>
    cases hfind : s.findDie asicId dieId with
    | some d =>
        simp only [hfind] at hs
        cases enable with
        | true => exact Or.inl (Option.some.inj hs).symm
        | false => exact Or.inr (Or.inl ⟨d, lt_of_findDie hfind, hs⟩)
    | none =>
        simp only [hfind] at hs
        cases enable with
        | false => exact Or.inl (Option.some.inj hs).symm
        | true =>
            cases info with
            | none => exact Or.inl (Option.some.inj hs).symm
            | some i =>
                exact Or.inr (Or.inr ⟨i, rfl, by omega, by omega,
                  fun j hj => ne_of_findDie hfind hj, (Option.some.inj hs).symm⟩)

/-- **Every call** keeps the works, the dies and the messages. -/
theorem Inv.step (env : Env) (H : Inv s 0) (P : Places s) {call : Call}
    (hs : step ndebug env s call = some s') : Inv s' 0 ∧ Places s' := by
  cases call with
  | scanwork now =>
      obtain ⟨t, ht, H', F⟩ := H.scanwork env now
      obtain rfl := Option.some.inj (ht.symm.trans hs)
      exact ⟨H', P.of_fixed F⟩
  | flushWork =>
      obtain rfl := Option.some.inj hs
      exact ⟨H.flushWork.1, P.of_fixed H.flushWork.2⟩
  | changeDieState asicId dieId enable info =>
      rcases changeDieState_cases hs with rfl | ⟨d, hd, hremove⟩ |
        ⟨i, -, hchannel, hdie, hnew, rfl⟩
      · exact ⟨H, P⟩
      · have R := removed_of_eq_some H.toLayout hd hremove
        exact ⟨R.inv hd H, R.places P⟩
      · exact ⟨H.addDie asicId dieId i, P.addDie i hchannel hdie hnew⟩

/-- A die that is enabled has cores. -/
def Call.Populated : Call → Prop
  | .changeDieState _ _ _ (some info) => 0 < info.cores
  | _ => True

theorem Populated.step (env : Env) (H : Inv s 0) (Q : Populated s) {call : Call}
    (hcall : call.Populated) (hs : step ndebug env s call = some s') : Populated s' := by
  cases call with
  | scanwork now =>
      obtain ⟨t, ht, -, F⟩ := H.scanwork env now
      obtain rfl := Option.some.inj (ht.symm.trans hs)
      exact Q.of_fixed F
  | flushWork =>
      obtain rfl := Option.some.inj hs
      exact Q.of_fixed H.flushWork.2
  | changeDieState asicId dieId enable info =>
      rcases changeDieState_cases hs with rfl | ⟨d, hd, hremove⟩ | ⟨i, hi, -, -, -, rfl⟩
      · exact Q
      · exact (removed_of_eq_some H.toLayout hd hremove).populated Q
      · obtain rfl := Option.mem_def.mp hi
        exact Q.addDie asicId dieId hcall

/-- Every call has an end, but for an assertion about dies without cores. -/
theorem step_isSome (env : Env) (H : Inv s 0) (hpos : ndebug = true ∨ Populated s) (call : Call) :
    ∃ s', step ndebug env s call = some s' := by
  cases call with
  | scanwork now =>
      obtain ⟨t, ht, -⟩ := H.scanwork env now
      exact ⟨t, ht⟩
  | flushWork => exact ⟨_, rfl⟩
  | changeDieState asicId dieId enable info =>
      simp only [KncAsic.step, Knc.changeDieState]
      split
      · exact ⟨_, rfl⟩
      · cases hfind : s.findDie asicId dieId with
        | some d =>
            cases enable with
            | true => exact ⟨_, rfl⟩
            | false => exact removeDie_isSome H.toLayout (lt_of_findDie hfind) hpos
        | none =>
            cases enable with
            | false => exact ⟨_, rfl⟩
            | true => cases info <;> exact ⟨_, rfl⟩

/-! ## Detection -/

theorem Inv.zero : Inv Knc.zero 0 := by
  refine ⟨⟨fun i hi => ?_, rfl, fun k hk => ?_, fun k hk => ?_, fun k hk => ?_, fun k hk => ?_,
    fun b r hr => ?_⟩, ⟨rfl, fun w hw => ?_, List.nodup_nil, fun k hk => ?_, fun k hk => ?_,
    fun e he => ?_⟩⟩
  · exact absurd hi (Nat.not_lt_zero i)
  · exact absurd hk (Nat.not_lt_zero k)
  · exact absurd hk (Nat.not_lt_zero k)
  · exact absurd hk (Nat.not_lt_zero k)
  · exact absurd hk (Nat.not_lt_zero k)
  · cases hr
  · cases hw
  · exact absurd hk (Nat.not_lt_zero k)
  · exact absurd hk (Nat.not_lt_zero k)
  · cases he

/-- The dies that are found come one by one, each at a place of its own. -/
theorem foldl_detectDie (info : ℕ → ℕ → Option DieInfo) (ps : List (ℕ × ℕ)) (hnodup : ps.Nodup)
    (hrange : ∀ p ∈ ps, p.1 < 6 ∧ p.2 < 4) (H : Inv s 0) (P : Places s) (Q : Populated s)
    (hnew : ∀ p ∈ ps, ∀ i < s.dies, ¬((s.die i).channel = p.1 ∧ (s.die i).die = p.2)) :
    Inv (ps.foldl (Knc.detectDie info) s) 0 ∧ Places (ps.foldl (Knc.detectDie info) s) ∧
      Populated (ps.foldl (Knc.detectDie info) s) := by
  induction ps generalizing s with
  | nil => exact ⟨H, P, Q⟩
  | cons p ps ih =>
      obtain ⟨hp, hnodup'⟩ := List.nodup_cons.mp hnodup
      have hrange' := fun q hq => hrange q (List.mem_cons_of_mem p hq)
      have hskip := ih hnodup' hrange' H P Q fun q hq => hnew q (List.mem_cons_of_mem p hq)
      rw [List.foldl_cons, Knc.detectDie]
      split
      · next i hi =>
        split
        · exact hskip
        · next hcores =>
          obtain ⟨hchannel, hdie⟩ := hrange p List.mem_cons_self
          refine ih hnodup' hrange' (H.addDie _ _ i)
            (P.addDie i ⟨Int.natCast_nonneg _, by omega⟩ ⟨Int.natCast_nonneg _, by omega⟩
              (hnew p List.mem_cons_self))
            (Q.addDie _ _ (Nat.pos_of_ne_zero hcores)) fun q hq j hj => ?_
          rcases Nat.lt_succ_iff_lt_or_eq.mp hj with hlt | rfl
          · rw [die_addDie_of_lt _ _ i hlt]
            exact hnew q (List.mem_cons_of_mem p hq) j hlt
          · rw [die_addDie_self]
            rintro ⟨hc, hd⟩
            exact hp (Prod.ext (Int.natCast_inj.mp hc) (Int.natCast_inj.mp hd) ▸ hq)
      · exact hskip

theorem inv_of_detectOne {info : ℕ → ℕ → Option DieInfo} (hs : Knc.detectOne info = some s) :
    Inv s 0 ∧ Places s ∧ Populated s := by
  rw [Knc.detectOne] at hs
  split at hs
  · cases hs
  · obtain rfl := Option.some.inj hs
    refine foldl_detectDie info Knc.places (by decide) (by decide) .zero ⟨?_, ?_, ?_, ?_⟩ ?_ ?_
    · exact fun i hi => absurd hi (Nat.not_lt_zero i)
    · exact fun i hi => absurd hi (Nat.not_lt_zero i)
    · exact fun i hi => absurd hi (Nat.not_lt_zero i)
    · exact fun i hi => absurd hi (Nat.not_lt_zero i)
    · exact fun i hi => absurd hi (Nat.not_lt_zero i)
    · exact fun _ _ i hi => absurd hi (Nat.not_lt_zero i)

/-! ## Runs -/

/-- The works, the slots, the dies and the messages are as they are to be. -/
structure Right (s : Knc) : Prop where
  works : ∀ w ∈ s.obtained,
    s.freed.count w + ∑ k ∈ Finset.range s.cores, (s.core k).held.count w = 1
  owner : ∀ k < s.cores, ∀ w ∈ (s.core k).held, w ∈ s.obtained ∧ w.owner = (s.core k).ident
  ident : ∀ k < s.cores, ∀ l < s.cores, (s.core k).ident = (s.core l).ident → k = l
  chosen : ∀ e ∈ s.chosen, 1 ≤ e.2 ∧ e.2 ≤ 14 ∧ ∀ w ∈ e.1.workslots, w.slot ≠ e.2
  start : ∀ i < s.dies, (s.die i).core = ∑ j ∈ Finset.range i, (s.die j).cores
  cores_eq : s.cores = ∑ j ∈ Finset.range s.dies, (s.die j).cores
  die : ∀ k < s.cores, (s.core k).die < s.dies ∧ (s.die (s.core k).die).core ≤ k ∧
    k < (s.die (s.core k).die).core + (s.die (s.core k).die).cores
  target : ∀ b, ∀ r ∈ (s.buffer b).responses, ∀ k ∈ r.core,
    k < s.cores ∧ (s.core k).ident = r.target
  room : s.dies ≤ 24 ∧ s.cores ≤ 24 * 571

theorem Inv.right (H : Inv s 0) (P : Places s) : Right s where
  works := fun w hw => by
    have hcount := congrArg (Multiset.count w) H.custody
    rw [add_zero, Multiset.count_add, Multiset.count_sum'] at hcount
    simp only [Multiset.coe_count, List.count_eq_one_of_mem H.nodup hw] at hcount
    rw [Nat.add_comm]
    exact hcount
  owner := fun k hk w hw => by
    refine ⟨?_, H.owner k hk w hw⟩
    have hle := Finset.single_le_sum_of_canonicallyOrdered
      (f := fun k => ((s.core k).held : Multiset Work)) (Finset.mem_range.mpr hk)
    have hall := (hle.trans (Multiset.le_add_right _ (s.freed : Multiset Work))).trans
      (Multiset.le_add_right _ 0)
    rw [H.custody] at hall
    exact Multiset.mem_coe.mp (Multiset.subset_of_le hall (Multiset.mem_coe.mpr hw))
  ident := H.ident_inj
  chosen := H.chosen
  start := H.start
  cores_eq := H.cores_eq
  die := fun k hk => by
    rw [H.start _ (H.die_lt k hk)]
    exact ⟨H.die_lt k hk, H.inBlock k hk⟩
  target := H.target
  room := ⟨P.dies_le, P.cores_le H.toLayout⟩

/-- Calls that enable no die without cores have an end. -/
theorem exists_exec (env : Env) (H : Inv s 0) (P : Places s) {calls : List Call}
    (hpos : ndebug = true ∨ Populated s ∧ ∀ call ∈ calls, call.Populated) :
    ∃ t, Run.exec (step ndebug env) s calls = some t := by
  induction calls generalizing s with
  | nil => exact ⟨s, rfl⟩
  | cons call calls ih =>
      obtain ⟨s', hs⟩ := step_isSome env H (hpos.imp_right And.left) call
      obtain ⟨H', P'⟩ := H.step env P hs
      rw [Run.exec_cons, hs]
      refine ih H' P' (hpos.imp_right fun ⟨Q, hcalls⟩ => ⟨?_, fun c hc => ?_⟩)
      · exact Q.step env H (hcalls call List.mem_cons_self) hs
      · exact hcalls c (List.mem_cons_of_mem call hc)

/-- **In every run** from the detection on, all is right after every call, and only a die without
cores can end the run at an assertion. -/
theorem right_of_run (ndebug : Bool) (env : Env) {info : ℕ → ℕ → Option DieInfo} {s : Knc}
    (hs : Knc.detectOne info = some s) (calls : List Call) :
    (∀ t, Run.exec (step ndebug env) s calls = some t → Right t) ∧
      ((ndebug = true ∨ ∀ call ∈ calls, call.Populated) →
        ∃ t, Run.exec (step ndebug env) s calls = some t) := by
  obtain ⟨H, P, Q⟩ := inv_of_detectOne hs
  constructor
  · intro t ht
    have hinv := Run.exec_of_invariant (I := fun s => Inv s 0 ∧ Places s)
      (fun s call s' h hstep => h.1.step env h.2 hstep) ⟨H, P⟩ ht
    exact hinv.1.right hinv.2
  · intro hpos
    exact exists_exec env H P (hpos.imp_right fun hcalls => ⟨Q, hcalls⟩)

/-- The two dies of the first channel that are found, with two cores each. -/
def twoDies (channel die : ℕ) : Option DieInfo :=
  if channel = 0 ∧ die < 2 then some ⟨.neptune, 2, by decide⟩ else none

/-- Every transfer is finished at once, and no core says anything. -/
def quiet : Env where
  finished := fun _ => true
  status := fun _ => 0
  report := fun _ => ⟨true, 0, 0, []⟩
  submit := fun _ _ _ => true

/-- Two dies work, and the first is disabled. -/
theorem right_of_dies :
    ∃ s t, Knc.detectOne twoDies = some s ∧
      Run.exec (step false quiet) s
        [.scanwork 0, .scanwork 1, .scanwork 2, .changeDieState 0 0 false none, .flushWork,
          .scanwork 3] = some t ∧ Right t := by
  have hs : Knc.detectOne twoDies = some (Knc.places.foldl (Knc.detectDie twoDies) Knc.zero) :=
    if_neg (by decide)
  obtain ⟨hall, hend⟩ := right_of_run false quiet hs
    [.scanwork 0, .scanwork 1, .scanwork 2, .changeDieState 0 0 false none, .flushWork,
      .scanwork 3]
  obtain ⟨t, ht⟩ := hend (Or.inr (by simp [Call.Populated]))
  exact ⟨_, t, hs, ht, hall t ht⟩

end KncAsic
end MassGridMiner

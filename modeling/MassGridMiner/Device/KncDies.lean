import MassGridMiner.Device.KncWorks

/-!
# The dies of a KnC miner

A die that is enabled comes behind the others with its cores.  One that is disabled goes with its
cores: their works are freed, the dies and the cores behind it move up, and so does what points to
them.

## Main definitions

* `Inv.addDie` — a die comes.
* `Removed`, `removed_of_eq_some`, `Inv.removeDie` — a die goes.
* `removeDie_isSome` — no assertion fails where each die has cores.
-/

namespace MassGridMiner
namespace KncAsic

variable {s s' : Knc} {hand : Multiset Work} {d k : ℕ}

/-! ## A die comes -/

section
variable (channel die : ℤ) (info : DieInfo)

theorem core_addDie_of_lt (hk : k < s.cores) : (s.addDie channel die info).core k = s.core k :=
  if_neg fun h => Nat.not_lt.mpr h.1 hk

theorem core_addDie_of_ge (hge : s.cores ≤ k) (hlt : k < s.cores + info.cores) :
    (s.addDie channel die info).core k =
      { Core.zero with
        die := s.dies, core := k - s.cores, ident := s.made + (k - s.cores) } :=
  if_pos ⟨hge, hlt⟩

theorem die_addDie_of_lt {i : ℕ} (hi : i < s.dies) :
    (s.addDie channel die info).die i = s.die i :=
  Function.update_of_ne (Nat.ne_of_lt hi) ..

theorem die_addDie_self : (s.addDie channel die info).die s.dies =
    ⟨channel, die, info.version, info.cores, s.cores⟩ :=
  Function.update_self ..

theorem sizes_addDie_of_lt {i : ℕ} (hi : i < s.dies) :
    (s.addDie channel die info).sizes i = s.sizes i :=
  congrArg Die.cores (die_addDie_of_lt channel die info hi)

theorem sizes_addDie_self : (s.addDie channel die info).sizes s.dies = info.cores :=
  congrArg Die.cores (die_addDie_self channel die info)

theorem start_addDie {i : ℕ} (hi : i ≤ s.dies) :
    Blocks.start (s.addDie channel die info).sizes i = Blocks.start s.sizes i :=
  Blocks.start_congr fun _ hj =>
    sizes_addDie_of_lt channel die info (Nat.lt_of_lt_of_le hj hi)

theorem Layout.addDie (H : Layout s) : Layout (s.addDie channel die info) := by
  have hcases : ∀ {k}, k < s.cores + info.cores → s.cores ≤ k → s.cores ≤ k ∧
      (s.addDie channel die info).core k =
        { Core.zero with
          die := s.dies, core := k - s.cores, ident := s.made + (k - s.cores) } :=
    fun hlt hge => ⟨hge, core_addDie_of_ge channel die info hge hlt⟩
  refine ⟨fun i hi => ?_, ?_, fun k hk => ?_, fun k hk => ?_, fun k hk => ?_,
    fun k hk l hl heq => ?_, fun b r hr k hk => ?_⟩
  · rcases Nat.lt_succ_iff_lt_or_eq.mp hi with hi | rfl
    · rw [die_addDie_of_lt channel die info hi, start_addDie channel die info (Nat.le_of_lt hi)]
      exact H.start i hi
    · rw [die_addDie_self, start_addDie channel die info le_rfl]
      exact H.cores_eq
  · change s.cores + info.cores = Blocks.start _ (s.dies + 1)
    rw [Blocks.start_succ, start_addDie channel die info le_rfl, sizes_addDie_self, H.cores_eq]
  · rcases Nat.lt_or_ge k s.cores with hlt | hge
    · rw [core_addDie_of_lt channel die info hlt]
      exact Nat.lt_succ_of_lt (H.die_lt k hlt)
    · rw [(hcases hk hge).2]
      exact Nat.lt_succ_self _
  · rcases Nat.lt_or_ge k s.cores with hlt | hge
    · rw [core_addDie_of_lt channel die info hlt]
      exact (H.inBlock k hlt).congr fun j hj =>
        sizes_addDie_of_lt channel die info (Nat.lt_of_le_of_lt hj (H.die_lt k hlt))
    · rw [(hcases hk hge).2]
      dsimp only
      rw [Blocks.InBlock, start_addDie channel die info le_rfl, sizes_addDie_self, ← H.cores_eq]
      exact ⟨hge, hk⟩
  · change _ < s.made + info.cores
    rcases Nat.lt_or_ge k s.cores with hlt | hge
    · rw [core_addDie_of_lt channel die info hlt]
      exact Nat.lt_add_right _ (H.ident_lt k hlt)
    · rw [(hcases hk hge).2]
      change k < s.cores + info.cores at hk
      dsimp only
      omega
  · change k < s.cores + info.cores at hk
    change l < s.cores + info.cores at hl
    rcases Nat.lt_or_ge k s.cores with hlt | hge <;> rcases Nat.lt_or_ge l s.cores with hlt' | hge'
    · rw [core_addDie_of_lt channel die info hlt, core_addDie_of_lt channel die info hlt'] at heq
      exact H.ident_inj k hlt l hlt' heq
    · rw [core_addDie_of_lt channel die info hlt, (hcases hl hge').2] at heq
      have hident := H.ident_lt k hlt
      dsimp only at heq
      omega
    · rw [(hcases hk hge).2, core_addDie_of_lt channel die info hlt'] at heq
      have hident := H.ident_lt l hlt'
      dsimp only at heq
      omega
    · rw [(hcases hk hge).2, (hcases hl hge').2] at heq
      dsimp only at heq
      omega
  · obtain ⟨hlt, hident⟩ := H.target b r hr k hk
    exact ⟨Nat.lt_add_right _ hlt, (core_addDie_of_lt channel die info hlt).symm ▸ hident⟩

/-- **A die comes**, with cores that have no works. -/
theorem Inv.addDie (H : Inv s hand) : Inv (s.addDie channel die info) hand := by
  refine ⟨H.toLayout.addDie channel die info, ⟨?_, H.id_lt, H.nodup, fun k hk w hw => ?_,
    fun k hk => ?_, H.chosen⟩⟩
  · change ∑ k ∈ Finset.range (s.cores + info.cores), _ + (s.freed : Multiset Work) + hand = _
    have hold : ∑ k ∈ Finset.range s.cores,
        (((s.addDie channel die info).core k).held : Multiset Work) =
        ∑ k ∈ Finset.range s.cores, ((s.core k).held : Multiset Work) :=
      Finset.sum_congr rfl fun k hk => by
        rw [core_addDie_of_lt channel die info (Finset.mem_range.mp hk)]
    have hnew : ∑ i ∈ Finset.range info.cores,
        (((s.addDie channel die info).core (s.cores + i)).held : Multiset Work) = 0 :=
      Finset.sum_eq_zero fun i hi => by
        rw [core_addDie_of_ge channel die info (Nat.le_add_right _ _)
          (Nat.add_lt_add_left (Finset.mem_range.mp hi) _)]
        rfl
    rw [Finset.sum_range_add, hold, hnew, add_zero]
    exact H.custody
  · change k < s.cores + info.cores at hk
    rcases Nat.lt_or_ge k s.cores with hlt | hge
    · rw [core_addDie_of_lt channel die info hlt] at hw ⊢
      exact H.owner k hlt w hw
    · rw [core_addDie_of_ge channel die info hge hk] at hw
      cases hw
  · change k < s.cores + info.cores at hk
    rcases Nat.lt_or_ge k s.cores with hlt | hge
    · rw [core_addDie_of_lt channel die info hlt]
      exact H.lastSlot k hlt
    · rw [core_addDie_of_ge channel die info hge hk]
      exact ⟨le_rfl, (by decide : (0 : ℤ) ≤ 14)⟩

end

/-! ## A die goes -/

/-- Where what is at a place was, before so many were taken out from another place on. -/
def before (start deleted k : ℕ) : ℕ := if k < start then k else k + deleted

theorem before_inj {start deleted l : ℕ} (H : before start deleted k = before start deleted l) :
    k = l := by
  rw [before, before] at H
  split at H <;> split at H <;> omega

/-- A die was taken out. -/
structure Removed (s s' : Knc) (d : ℕ) : Prop where
  dies : s'.dies + 1 = s.dies
  cores : s'.cores + s.sizes d = s.cores
  made : s'.made = s.made
  obtained : s'.obtained = s.obtained
  chosen : s'.chosen = s.chosen
  die : ∀ j < s'.dies, s'.die j =
    { s.die (before d 1 j) with core := Blocks.start (Blocks.erase s.sizes d) j }
  core : ∀ k < s'.cores, ∃ die, s'.core k =
      { s.core (before (s.die d).core (s.sizes d) k) with die := die } ∧
    before d 1 die = (s.core (before (s.die d).core (s.sizes d) k)).die
  target : ∀ b, ∀ r ∈ (s'.buffer b).responses, ∀ k ∈ r.core, k < s'.cores ∧
    ∃ b, ∃ r' ∈ (s.buffer b).responses, r'.target = r.target ∧
      r'.core = some (before (s.die d).core (s.sizes d) k)
  held : ∑ k ∈ Finset.range s'.cores, ((s'.core k).held : Multiset Work) + s'.freed =
    ∑ k ∈ Finset.range s.cores, ((s.core k).held : Multiset Work) + s.freed

/-- The block of a die is in the array. -/
theorem Layout.start_add_le (H : Layout s) (hd : d < s.dies) :
    (s.die d).core + s.sizes d ≤ s.cores := by
  rw [H.start d hd, H.cores_eq]
  exact Blocks.start_add_le s.sizes hd

/-- The cores in front of a die are of dies in front of it. -/
theorem Layout.die_lt_of_lt (H : Layout s) (hd : d < s.dies) (hk : k < s.cores)
    (hlt : k < (s.die d).core) : (s.core k).die < d :=
  (H.inBlock k hk).lt_of_lt (H.start d hd ▸ hlt)

theorem Layout.lt_die_of_ge (H : Layout s) (hd : d < s.dies) (hk : k < s.cores)
    (hge : (s.die d).core + s.sizes d ≤ k) : d < (s.core k).die :=
  (H.inBlock k hk).gt_of_ge (H.start d hd ▸ hge)

theorem coe_flatMap_held (f : ℕ → List Work) (n : ℕ) :
    (((List.range n).flatMap f : List Work) : Multiset Work) =
      ∑ i ∈ Finset.range n, (f i : Multiset Work) := by
  induction n with
  | zero => rfl
  | succ n ih =>
      rw [List.range_succ, List.flatMap_append, List.flatMap_singleton, ← Multiset.coe_add, ih,
        Finset.sum_range_succ]

theorem mem_fixCore_iff {start deleted l : ℕ} (H : Knc.fixCore start deleted l = some k) :
    l = before start deleted k ∧ ¬(start ≤ l ∧ l < start + deleted) := by
  rw [Knc.fixCore] at H
  rw [before]
  split at H
  · obtain rfl := Option.some.inj H
    rw [if_pos ‹_›]
    exact ⟨rfl, by omega⟩
  · split at H
    · cases H
    · obtain rfl := Option.some.inj H
      rw [if_neg (by omega)]
      exact ⟨by omega, by omega⟩

/-- **What is left** when a die goes. -/
theorem removed_of_eq_some {ndebug : Bool} (H : Layout s) (hd : d < s.dies)
    (hs : s.removeDie ndebug d = some s') : Removed s s' d := by
  have hle := H.start_add_le hd
  have hsizes : (s.die d).cores = s.sizes d := rfl
  simp only [Knc.removeDie, hsizes] at hs
  split at hs
  case isFalse => cases hs
  obtain rfl := Option.some.inj hs
  have hcore : ∀ k < s.cores - s.sizes d,
      Blocks.memmove (s.die d).core ((s.die d).core + s.sizes d)
        (s.cores - s.sizes d - (s.die d).core) s.core k =
      s.core (before (s.die d).core (s.sizes d) k) := by
    intro k hk
    rw [before]
    split
    next hlt => exact Blocks.memmove_of_lt hlt
    next hge =>
      obtain ⟨i, rfl⟩ := Nat.exists_eq_add_of_le (Nat.le_of_not_lt hge)
      rw [Blocks.memmove_add (by omega), Nat.add_right_comm]
  refine ⟨Nat.sub_add_cancel (Nat.lt_of_le_of_lt (Nat.zero_le d) hd),
    Nat.sub_add_cancel ((Nat.le_add_left _ _).trans hle), rfl, rfl, rfl, fun j hj => ?_,
    fun k hk => ?_, fun b r hr k hk => ?_, ?_⟩
  · change j < s.dies - 1 at hj
    have hmove : Blocks.memmove d (d + 1) (s.dies - 1 - d) s.die j = s.die (before d 1 j) := by
      rw [before]
      split
      next hlt => exact Blocks.memmove_of_lt hlt
      next hge =>
        obtain ⟨i, rfl⟩ := Nat.exists_eq_add_of_le (Nat.le_of_not_lt hge)
        rw [Blocks.memmove_add (by omega), Nat.add_right_comm]
    have hstart : (s.die (before d 1 j)).core = Blocks.start s.sizes (before d 1 j) :=
      H.start _ (by rw [before]; split <;> omega)
    change (if j < s.dies - 1 ∧ (s.die d).core < (Blocks.memmove d (d + 1) (s.dies - 1 - d) s.die
      j).core then _ else _) = _
    rw [hmove]
    rcases Nat.lt_or_ge j d with hlt | hge
    · have hb : before d 1 j = j := if_pos hlt
      rw [hb] at hstart ⊢
      have hfront := Blocks.start_mono s.sizes (Nat.le_of_lt hlt)
      rw [← H.start d hd, ← hstart] at hfront
      rw [if_neg (fun h => Nat.not_lt.mpr hfront h.2),
        Blocks.start_erase_of_le (Nat.le_of_lt hlt), ← hstart]
    · have hb : before d 1 j = j + 1 := if_neg (Nat.not_lt.mpr hge)
      rw [hb] at hstart ⊢
      have herase := Blocks.start_erase_of_ge s.sizes hge
      have hbehind := Blocks.start_add_le s.sizes (Nat.lt_succ_of_le hge)
      rw [← hstart] at herase hbehind
      rw [← H.start d hd] at hbehind
      split
      next => rw [← herase, Nat.add_sub_cancel]
      next hnot =>
        have hnone : s.sizes d = 0 := by omega
        rw [← Nat.add_zero (Blocks.start _ j), ← hnone, herase]
  · change k < s.cores - s.sizes d at hk
    have hold : before (s.die d).core (s.sizes d) k < s.cores := by
      rw [before]
      split <;> omega
    change ∃ die, (if k < s.cores - s.sizes d ∧ d < (Blocks.memmove _ _ _ s.core k).die then _
      else _) = _ ∧ _
    rw [hcore k hk]
    rcases Nat.lt_or_ge k (s.die d).core with hlt | hge
    · have hb : before (s.die d).core (s.sizes d) k = k := if_pos hlt
      rw [hb] at hold ⊢
      have hdie := H.die_lt_of_lt hd hold hlt
      refine ⟨(s.core k).die, if_neg fun h => ?_, if_pos hdie⟩
      omega
    · have hb : before (s.die d).core (s.sizes d) k = k + s.sizes d :=
        if_neg (Nat.not_lt.mpr hge)
      rw [hb] at hold ⊢
      have hdie := H.lt_die_of_ge hd hold (Nat.add_le_add_right hge _)
      refine ⟨(s.core (k + s.sizes d)).die - 1, if_pos ⟨hk, hdie⟩, ?_⟩
      rw [before, if_neg (by omega)]
      omega
  · obtain ⟨r0, hr0, rfl⟩ := List.mem_map.mp hr
    obtain ⟨l, hl, hfix⟩ := Option.bind_eq_some_iff.mp hk
    obtain ⟨hold, hout⟩ := mem_fixCore_iff hfix
    obtain ⟨hlt, -⟩ := H.target b r0 hr0 l hl
    refine ⟨?_, b, r0, hr0, rfl, hl.trans (congrArg some hold)⟩
    change k < s.cores - s.sizes d
    rw [hold, before] at hlt hout
    split at hlt <;> split at hout <;> omega
  · have hsum := Blocks.sum_memmove (fun c => (c.held : Multiset Work)) s.core (s.die d).core
      (s.sizes d) (s.cores - s.sizes d - (s.die d).core)
    have hto : (s.die d).core + (s.cores - s.sizes d - (s.die d).core) = s.cores - s.sizes d := by
      omega
    have hall : (s.die d).core + s.sizes d + (s.cores - s.sizes d - (s.die d).core) = s.cores := by
      omega
    rw [hto, hall] at hsum
    rw [← hsum, add_assoc]
    change ∑ k ∈ Finset.range (s.cores - s.sizes d), _ + ((_ ++ s.freed : List Work) :
      Multiset Work) = _
    rw [← Multiset.coe_add, coe_flatMap_held]
    congr 1
    refine Finset.sum_congr rfl fun k _ => ?_
    change ((if _ then _ else _ : Core).held : Multiset Work) = _
    split <;> rfl

theorem Removed.before_lt (R : Removed s s' d) (hk : k < s'.cores) :
    before (s.die d).core (s.sizes d) k < s.cores := by
  have hcores := R.cores
  rw [before]
  split <;> omega

theorem Removed.ident_eq (R : Removed s s' d) (hk : k < s'.cores) :
    (s'.core k).ident = (s.core (before (s.die d).core (s.sizes d) k)).ident := by
  obtain ⟨die, hcore, -⟩ := R.core k hk
  rw [hcore]

theorem Removed.held_eq (R : Removed s s' d) (hk : k < s'.cores) :
    (s'.core k).held = (s.core (before (s.die d).core (s.sizes d) k)).held := by
  obtain ⟨die, hcore, -⟩ := R.core k hk
  rw [hcore]
  rfl

theorem Removed.sizes_eq (R : Removed s s' d) {j : ℕ} (hj : j < s'.dies) :
    s'.sizes j = Blocks.erase s.sizes d j := by
  rw [Knc.sizes, R.die j hj, before, Blocks.erase]
  split <;> rfl

theorem Removed.start_eq (R : Removed s s' d) {j : ℕ} (hj : j ≤ s'.dies) :
    Blocks.start s'.sizes j = Blocks.start (Blocks.erase s.sizes d) j :=
  Blocks.start_congr fun _ hi => R.sizes_eq (Nat.lt_of_lt_of_le hi hj)

theorem Removed.layout (R : Removed s s' d) (hd : d < s.dies) (H : Layout s) : Layout s' := by
  have hdies := R.dies
  have hdie : ∀ k < s'.cores, (s'.core k).die < s'.dies ∧
      Blocks.InBlock s'.sizes (s'.core k).die k := by
    intro k hk
    obtain ⟨die, hcore, hbefore⟩ := R.core k hk
    have hold := R.before_lt hk
    have hlt := H.die_lt _ hold
    have hblock := H.inBlock _ hold
    rw [← hbefore] at hlt hblock
    have hlt' : die < s'.dies := by
      rw [before] at hlt
      split at hlt <;> omega
    rw [hcore]
    refine ⟨hlt', ?_⟩
    have herase : Blocks.InBlock (Blocks.erase s.sizes d) die k := by
      rcases Nat.lt_or_ge die d with hfront | hbehind
      · have hb : before d 1 die = die := if_pos hfront
        rw [hb] at hblock
        have hk' : before (s.die d).core (s.sizes d) k = k := by
          refine if_pos (Nat.lt_of_not_le fun hge => ?_)
          have hout := H.lt_die_of_ge hd hold (by
            rw [before, if_neg (Nat.not_lt.mpr hge)]
            omega)
          rw [← hbefore, hb] at hout
          omega
        rw [hk'] at hblock
        exact hblock.erase_of_lt hfront
      · have hb : before d 1 die = die + 1 := if_neg (Nat.not_lt.mpr hbehind)
        rw [hb] at hblock
        have hk' : before (s.die d).core (s.sizes d) k = k + s.sizes d := by
          refine if_neg fun hlt => ?_
          have hin := H.die_lt_of_lt hd hold (by rwa [before, if_pos hlt])
          rw [← hbefore, hb] at hin
          omega
        rw [hk'] at hblock
        exact hblock.erase_of_gt hbehind
    exact herase.congr fun j hj => R.sizes_eq (Nat.lt_of_le_of_lt hj hlt')
  refine ⟨fun j hj => ?_, ?_, fun k hk => (hdie k hk).1, fun k hk => (hdie k hk).2, fun k hk => ?_,
    fun k hk l hl heq => ?_, fun b r hr k hk => ?_⟩
  · rw [R.die j hj, R.start_eq (Nat.le_of_lt hj)]
  · have herase := Blocks.start_erase_of_ge s.sizes (i := s'.dies) (by omega : d ≤ s'.dies)
    rw [R.start_eq le_rfl]
    rw [hdies, ← H.cores_eq, ← R.cores] at herase
    exact (Nat.add_right_cancel herase).symm
  · rw [R.ident_eq hk, R.made]
    exact H.ident_lt _ (R.before_lt hk)
  · rw [R.ident_eq hk, R.ident_eq hl] at heq
    exact before_inj (H.ident_inj _ (R.before_lt hk) _ (R.before_lt hl) heq)
  · obtain ⟨hlt, b', r', hr', htarget, hcore⟩ := R.target b r hr k hk
    obtain ⟨-, hident⟩ := H.target b' r' hr' _ hcore
    exact ⟨hlt, (R.ident_eq hlt).trans (hident.trans htarget)⟩

/-- **A die goes**, and the works of its cores are freed. -/
theorem Removed.inv (R : Removed s s' d) (hd : d < s.dies) (H : Inv s hand) : Inv s' hand := by
  refine ⟨R.layout hd H.toLayout, ⟨?_, ?_, ?_, fun k hk w hw => ?_, fun k hk => ?_, ?_⟩⟩
  · rw [R.held, R.obtained]
    exact H.custody
  · rw [R.obtained]
    exact H.id_lt
  · rw [R.obtained]
    exact H.nodup
  · rw [R.held_eq hk] at hw
    rw [R.ident_eq hk]
    exact H.owner _ (R.before_lt hk) w hw
  · obtain ⟨die, hcore, -⟩ := R.core k hk
    rw [hcore]
    exact H.lastSlot _ (R.before_lt hk)
  · rw [R.chosen]
    exact H.chosen

/-- No assertion fails where each die has cores. -/
theorem removeDie_isSome {ndebug : Bool} (H : Layout s) (hd : d < s.dies)
    (hpos : ndebug = true ∨ ∀ i < s.dies, 0 < s.sizes i) :
    ∃ s', s.removeDie ndebug d = some s' := by
  have hle := H.start_add_le hd
  have hsizes : (s.die d).cores = s.sizes d := rfl
  simp only [Knc.removeDie, hsizes]
  rw [if_pos]
  · exact ⟨_, rfl⟩
  · refine hpos.imp_right fun hpos => ⟨by omega, by omega, fun j hj => ?_, fun k hk => ?_⟩
    · rcases Nat.lt_or_ge j d with hlt | hge
      · have hbehind := Blocks.start_add_le s.sizes hlt
        have hsize := hpos j (by omega)
        rw [Blocks.memmove_of_lt hlt, H.start j (by omega), H.start d hd]
        omega
      · obtain ⟨i, rfl⟩ := Nat.exists_eq_add_of_le hge
        have hbehind := Blocks.start_add_le s.sizes (by omega : d < d + 1 + i)
        have hsize := hpos d hd
        rw [Blocks.memmove_add (by omega), H.start (d + 1 + i) (by omega), H.start d hd]
        omega
    · rcases Nat.lt_or_ge k (s.die d).core with hlt | hge
      · rw [Blocks.memmove_of_lt hlt]
        exact Nat.ne_of_lt (H.die_lt_of_lt hd (by omega) hlt)
      · obtain ⟨i, rfl⟩ := Nat.exists_eq_add_of_le hge
        rw [Blocks.memmove_add (by omega)]
        exact Nat.ne_of_gt (H.lt_die_of_ge hd (by omega) (Nat.le_add_right _ _))

end KncAsic
end MassGridMiner

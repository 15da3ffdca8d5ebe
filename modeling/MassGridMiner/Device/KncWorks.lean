import MassGridMiner.Device.KncCores

/-!
# The works of a KnC miner

Each work that was obtained is with the core that it was obtained for, in one place, or was freed.
Messages are sent and answered in between, which may free works of any core, so that it is said
what is kept with works in hand that are with no core yet.

## Main definitions

* `Layout`, `Books`, `Inv` — the places of the dies and the cores, and the works.
* `Fixed` — the dies and the cores stay as they are.
* `Inv.transfer`, `Inv.flush`, `Inv.sendWork`, `Inv.scanwork` — the functions keep this.
-/

namespace MassGridMiner
namespace KncAsic

/-- The numbers of cores of the dies. -/
def Knc.sizes (s : Knc) (i : ℕ) : ℕ := (s.die i).cores

/-- The cores are in blocks, one for each die in the order of the dies, and what points to a core or
to a die points to the right one. -/
structure Layout (s : Knc) : Prop where
  start : ∀ i < s.dies, (s.die i).core = Blocks.start s.sizes i
  cores_eq : s.cores = Blocks.start s.sizes s.dies
  die_lt : ∀ k < s.cores, (s.core k).die < s.dies
  inBlock : ∀ k < s.cores, Blocks.InBlock s.sizes (s.core k).die k
  ident_lt : ∀ k < s.cores, (s.core k).ident < s.made
  ident_inj : ∀ k < s.cores, ∀ l < s.cores, (s.core k).ident = (s.core l).ident → k = l
  target : ∀ b, ∀ r ∈ (s.buffer b).responses, ∀ k ∈ r.core,
    k < s.cores ∧ (s.core k).ident = r.target

/-- The works that were obtained are with their cores, in hand, or freed, and the slots that were
found were free. -/
structure Books (s : Knc) (hand : Multiset Work) : Prop where
  custody : ∑ k ∈ Finset.range s.cores, ((s.core k).held : Multiset Work) + s.freed + hand =
    s.obtained
  id_lt : ∀ w ∈ s.obtained, w.id < s.obtained.length
  nodup : s.obtained.Nodup
  owner : ∀ k < s.cores, ∀ w ∈ (s.core k).held, w.owner = (s.core k).ident
  lastSlot : ∀ k < s.cores, 0 ≤ (s.core k).lastSlot ∧ (s.core k).lastSlot ≤ 14
  chosen : ∀ e ∈ s.chosen, 1 ≤ e.2 ∧ e.2 ≤ 14 ∧ ∀ w ∈ e.1.workslots, w.slot ≠ e.2

structure Inv (s : Knc) (hand : Multiset Work) : Prop extends Layout s, Books s hand

/-- The dies are as they were, and each core is at its place. -/
structure Fixed (s s' : Knc) : Prop where
  dies : s'.dies = s.dies
  die : s'.die = s.die
  cores : s'.cores = s.cores
  made : s'.made = s.made
  coreDie : ∀ k, (s'.core k).die = (s.core k).die
  ident : ∀ k, (s'.core k).ident = (s.core k).ident

variable {s s' s'' : Knc} {hand taken : Multiset Work} {k : ℕ}

theorem Fixed.refl (s : Knc) : Fixed s s := ⟨rfl, rfl, rfl, rfl, fun _ => rfl, fun _ => rfl⟩

theorem Fixed.trans (H : Fixed s s') (H' : Fixed s' s'') : Fixed s s'' where
  dies := H'.dies.trans H.dies
  die := H'.die.trans H.die
  cores := H'.cores.trans H.cores
  made := H'.made.trans H.made
  coreDie := fun k => (H'.coreDie k).trans (H.coreDie k)
  ident := fun k => (H'.ident k).trans (H.ident k)

/-- The messages are still for cores that there are. -/
theorem Layout.of_fixed (H : Layout s) (F : Fixed s s')
    (htarget : ∀ b, ∀ r ∈ (s'.buffer b).responses, ∀ k ∈ r.core,
      k < s.cores ∧ (s.core k).ident = r.target) : Layout s' := by
  have hsizes : s'.sizes = s.sizes := by
    funext i
    rw [Knc.sizes, F.die, Knc.sizes]
  refine ⟨?_, ?_, ?_, ?_, ?_, ?_, ?_⟩
  · rw [F.dies, F.die, hsizes]
    exact H.start
  · rw [F.cores, hsizes, F.dies]
    exact H.cores_eq
  · rw [F.cores, F.dies]
    exact fun k hk => F.coreDie k ▸ H.die_lt k hk
  · rw [F.cores, hsizes]
    exact fun k hk => F.coreDie k ▸ H.inBlock k hk
  · rw [F.cores, F.made]
    exact fun k hk => F.ident k ▸ H.ident_lt k hk
  · rw [F.cores]
    intro k hk l hl
    rw [F.ident, F.ident]
    exact H.ident_inj k hk l hl
  · intro b r hr k hk
    rw [F.cores, F.ident]
    exact htarget b r hr k hk

/-! ## A core is changed -/

/-- What is changed of a core, when works are freed and others are taken from hand. -/
theorem Inv.putCore (H : Inv s (hand + taken)) (hk : k < s.cores) {c : Core} {gone : List Work}
    (hheld : (c.held + gone : Multiset Work) = (s.core k).held + taken)
    (hdie : c.die = (s.core k).die) (hident : c.ident = (s.core k).ident)
    (hlast : 0 ≤ c.lastSlot ∧ c.lastSlot ≤ 14)
    (howner : ∀ w ∈ taken, w.owner = (s.core k).ident) :
    Inv ((s.putCore k c).freeWork gone) hand ∧ Fixed s ((s.putCore k c).freeWork gone) := by
  have hcore : ∀ l, ((s.putCore k c).freeWork gone).core l =
      if l = k then c else s.core l := fun l => Function.update_apply ..
  have hfixed : Fixed s ((s.putCore k c).freeWork gone) := by
    refine ⟨rfl, rfl, rfl, rfl, fun l => ?_, fun l => ?_⟩
    · rw [hcore]
      split
      next heq => rw [heq, hdie]
      next => rfl
    · rw [hcore]
      split
      next heq => rw [heq, hident]
      next => rfl
  refine ⟨⟨H.toLayout.of_fixed hfixed H.target, ⟨?_, H.id_lt, H.nodup, ?_, ?_, H.chosen⟩⟩, hfixed⟩
  · have hothers : ∑ l ∈ (Finset.range s.cores).erase k,
        ((((s.putCore k c).freeWork gone).core l).held : Multiset Work) =
        ∑ l ∈ (Finset.range s.cores).erase k, ((s.core l).held : Multiset Work) :=
      Finset.sum_congr rfl fun l hl => by
        rw [hcore, if_neg (Finset.ne_of_mem_erase hl)]
    have hcustody := H.custody
    rw [← Finset.add_sum_erase _ _ (Finset.mem_range.mpr hk)] at hcustody
    change ∑ l ∈ Finset.range s.cores, _ + ((gone ++ s.freed : List Work) : Multiset Work) + hand =
      (s.obtained : Multiset Work)
    rw [← Finset.add_sum_erase _ _ (Finset.mem_range.mpr hk), hothers, hcore, if_pos rfl,
      ← hcustody, ← Multiset.coe_add]
    calc (c.held : Multiset Work) + _ + (gone + s.freed) + hand
        = (c.held + gone : Multiset Work) + ∑ l ∈ (Finset.range s.cores).erase k,
            ((s.core l).held : Multiset Work) + s.freed + hand := by abel
      _ = _ := by
        rw [hheld]
        abel
  · intro l hl w hw
    rw [hfixed.ident]
    rw [hcore] at hw
    split at hw
    next heq =>
      subst heq
      have hmem : w ∈ ((s.core l).held + taken : Multiset Work) :=
        hheld ▸ Multiset.mem_add.mpr (Or.inl (Multiset.mem_coe.mpr hw))
      exact (Multiset.mem_add.mp hmem).elim (fun h => H.owner l hl w (Multiset.mem_coe.mp h))
        (howner w)
    next => exact H.owner l hl w hw
  · intro l hl
    rw [hcore]
    split
    · exact hlast
    · exact H.lastSlot l hl

/-- A core keeps its works, but for those that are freed. -/
theorem Inv.keep (H : Inv s hand) (hk : k < s.cores) {c : Core} {gone : List Work}
    (hkeeps : Core.Keeps (s.core k) c gone) :
    Inv ((s.putCore k c).freeWork gone) hand ∧ Fixed s ((s.putCore k c).freeWork gone) := by
  rw [← add_zero hand] at H
  refine H.putCore hk ?_ hkeeps.die hkeeps.ident ?_ fun w hw => (Multiset.notMem_zero w hw).elim
  · rw [hkeeps.held, add_zero]
  · rw [hkeeps.lastSlot]
    exact H.lastSlot k hk

/-- Something else is changed than the dies, the cores and the works. -/
structure Same (s s' : Knc) : Prop where
  dies : s'.dies = s.dies
  die : s'.die = s.die
  cores : s'.cores = s.cores
  core : s'.core = s.core
  made : s'.made = s.made
  obtained : s'.obtained = s.obtained
  freed : s'.freed = s.freed
  chosen : s'.chosen = s.chosen

theorem Same.fixed (H : Same s s') : Fixed s s' where
  dies := H.dies
  die := H.die
  cores := H.cores
  made := H.made
  coreDie := fun k => congrArg Core.die (congrFun H.core k)
  ident := fun k => congrArg Core.ident (congrFun H.core k)

theorem Books.of_same (H : Books s hand) (S : Same s s') : Books s' hand := by
  refine ⟨?_, ?_, ?_, ?_, ?_, ?_⟩
  · rw [S.cores, S.core, S.freed, S.obtained]
    exact H.custody
  · rw [S.obtained]
    exact H.id_lt
  · rw [S.obtained]
    exact H.nodup
  · rw [S.cores, S.core]
    exact H.owner
  · rw [S.cores, S.core]
    exact H.lastSlot
  · rw [S.chosen]
    exact H.chosen

theorem Inv.same (H : Inv s hand) (s' : Knc) (S : Same s s')
    (htarget : ∀ b, ∀ r ∈ (s'.buffer b).responses, ∀ k ∈ r.core,
      k < s.cores ∧ (s.core k).ident = r.target) : Inv s' hand ∧ Fixed s s' :=
  ⟨⟨H.toLayout.of_fixed S.fixed htarget, H.toBooks.of_same S⟩, S.fixed⟩

theorem Inv.rest (H : Inv s hand) (s' : Knc) (S : Same s s') (hbuffer : s'.buffer = s.buffer) :
    Inv s' hand ∧ Fixed s s' :=
  H.same s' S (hbuffer ▸ H.target)

/-! ## Messages -/

variable (env : Env) (now : ℤ)

/-- The messages in a buffer are replaced. -/
theorem Inv.putBuffer (H : Inv s hand) (b : ℕ) (buffer : Buffer)
    (hbuffer : ∀ r ∈ buffer.responses, ∀ k ∈ r.core,
      k < s.cores ∧ (s.core k).ident = r.target) :
    Inv (s.putBuffer b buffer) hand ∧ Fixed s (s.putBuffer b buffer) := by
  refine H.same _ ⟨rfl, rfl, rfl, rfl, rfl, rfl, rfl, rfl⟩ fun b' r hr => ?_
  simp only [Knc.putBuffer, Function.update_apply] at hr
  split at hr
  · exact hbuffer r hr
  · exact H.target b' r hr

theorem Inv.setState (H : Inv s hand) (b : ℕ) (state : BufferState) :
    Inv (s.putBuffer b { s.buffer b with state := state }) hand ∧
      Fixed s (s.putBuffer b { s.buffer b with state := state }) :=
  H.putBuffer b { s.buffer b with state := state } (H.target b)

theorem Inv.look (H : Inv s hand) (b : ℕ) :
    Inv (s.look env b) hand ∧ Fixed s (s.look env b) := by
  have hclock : Inv { s with clock := s.clock + 1 } hand ∧
      Fixed s { s with clock := s.clock + 1 } :=
    H.rest _ ⟨rfl, rfl, rfl, rfl, rfl, rfl, rfl, rfl⟩ rfl
  rw [Knc.look]
  split
  · obtain ⟨H', F'⟩ := hclock.1.setState b .done
    exact ⟨H', hclock.2.trans F'⟩
  · exact hclock

theorem Inv.processReport (H : Inv s hand) (hk : k < s.cores) (commErrors : Bool) :
    Inv (s.processReport env now k commErrors) hand ∧
      Fixed s (s.processReport env now k commErrors) := by
  obtain ⟨H', F'⟩ := H.keep hk (Core.keeps_processReport now (s.startup != 0)
    (s.transferCompleted (s.core k).transferStamp) (env.submit s.clock) (env.report s.clock)
    commErrors (s.core k))
  obtain ⟨H'', F''⟩ := H'.rest (s.processReport env now k commErrors)
    ⟨rfl, rfl, rfl, rfl, rfl, rfl, rfl, rfl⟩ rfl
  exact ⟨H'', F'.trans F''⟩

theorem Inv.checkStatus (H : Inv s hand) (hk : k < s.cores) (type : ResponseType) :
    Inv (s.checkStatus env now k type).1 hand ∧ Fixed s (s.checkStatus env now k type).1 := by
  obtain ⟨H1, F1⟩ := H.rest { s with clock := s.clock + 1 }
    ⟨rfl, rfl, rfl, rfl, rfl, rfl, rfl, rfl⟩ rfl
  have hinuse : Core.Keeps (s.core k) { s.core k with inuse := false } [] :=
    .of_held_eq rfl rfl rfl rfl
  simp only [Knc.checkStatus]
  split
  · split
    · obtain ⟨H2, F2⟩ := H1.keep hk (hinuse.trans (Core.keeps_failure now _))
      exact ⟨H2, F1.trans F2⟩
    · obtain ⟨H2, F2⟩ := H1.keep hk (Core.keeps_failure now (s.core k))
      exact ⟨H2, F1.trans F2⟩
  · exact ⟨H1, F1⟩

theorem Inv.processResponse (H : Inv s hand) {r : Response} (hr : ∀ k ∈ r.core, k < s.cores) :
    Inv (s.processResponse env now r) hand ∧ Fixed s (s.processResponse env now r) := by
  obtain ⟨type, core, target⟩ := r
  cases core with
  | none => exact ⟨H, .refl s⟩
  | some k =>
      have hk := hr k rfl
      obtain ⟨H1, F1⟩ := H.checkStatus env now hk type
      obtain ⟨H2, F2⟩ := H1.processReport env now (F1.cores.symm ▸ hk)
        (s.checkStatus env now k type).2
      cases type with
      | report | setwork => exact ⟨H2, F1.trans F2⟩
      | noResponse => exact ⟨H1, F1⟩

theorem Inv.foldl_processResponse (H : Inv s hand) (rs : List Response)
    (hrs : ∀ r ∈ rs, ∀ k ∈ r.core, k < s.cores) :
    Inv (rs.foldl (Knc.processResponse env now) s) hand ∧
      Fixed s (rs.foldl (Knc.processResponse env now) s) := by
  induction rs generalizing s with
  | nil => exact ⟨H, .refl s⟩
  | cons r rs ih =>
      obtain ⟨H1, F1⟩ := H.processResponse env now (hrs r List.mem_cons_self)
      obtain ⟨H2, F2⟩ := ih H1 fun r' hr' k hk =>
        F1.cores.symm ▸ hrs r' (List.mem_cons_of_mem r hr') k hk
      exact ⟨H2, F1.trans F2⟩

theorem Inv.processResponses (H : Inv s hand) (fuel : ℕ) :
    Inv (s.processResponses env now fuel) hand ∧ Fixed s (s.processResponses env now fuel) := by
  induction fuel generalizing s with
  | zero => exact ⟨H, .refl s⟩
  | succ fuel ih =>
      obtain ⟨H1, F1⟩ := H.look env s.readBuffer
      have hnext : ∀ {s1 : Knc}, Inv s1 hand → Fixed s s1 →
          Inv (Knc.processResponses env now fuel
            { s1 with
              readBuffer := bufferAfter s1.readBuffer
              readBufferCount := s1.readBufferCount + 1 }) hand ∧
          Fixed s (Knc.processResponses env now fuel
            { s1 with
              readBuffer := bufferAfter s1.readBuffer
              readBufferCount := s1.readBufferCount + 1 }) := by
        intro s1 Hs1 Fs1
        obtain ⟨H2, F2⟩ := Hs1.rest
          { s1 with
            readBuffer := bufferAfter s1.readBuffer
            readBufferCount := s1.readBufferCount + 1 }
          ⟨rfl, rfl, rfl, rfl, rfl, rfl, rfl, rfl⟩ rfl
        obtain ⟨H3, F3⟩ := ih H2
        exact ⟨H3, Fs1.trans (F2.trans F3)⟩
      simp only [Knc.processResponses]
      split
      · obtain ⟨H2, F2⟩ := H1.foldl_processResponse env now
          ((s.look env s.readBuffer).buffer (s.look env s.readBuffer).readBuffer).responses
          fun r hr k hk => (H1.target _ r hr k hk).1
        obtain ⟨H3, F3⟩ := H2.putBuffer _ ⟨.idle, 0, []⟩ fun r hr => by cases hr
        exact hnext H3 (F1.trans (F2.trans F3))
      · exact ⟨H1, F1⟩

theorem Inv.sendPending (H : Inv s hand) :
    Inv s.sendPending hand ∧ Fixed s s.sendPending := by
  obtain ⟨H1, F1⟩ := H.setState s.sendBuffer .pending
  obtain ⟨H2, F2⟩ := H1.rest
    { s.putBuffer s.sendBuffer { s.buffer s.sendBuffer with state := .pending } with
      sendBuffer := bufferAfter s.sendBuffer
      sendBufferCount := s.sendBufferCount + 1 }
    ⟨rfl, rfl, rfl, rfl, rfl, rfl, rfl, rfl⟩ rfl
  simp only [Knc.sendPending]
  split
  · obtain ⟨H3, F3⟩ := H2.setState (bufferAfter s.sendBuffer) .done
    exact ⟨H3, F1.trans (F2.trans F3)⟩
  · exact ⟨H2, F1.trans F2⟩

theorem Inv.flush (H : Inv s hand) : Inv (s.flush env now) hand ∧ Fixed s (s.flush env now) := by
  simp only [Knc.flush]
  split
  · obtain ⟨H1, F1⟩ := H.sendPending
    obtain ⟨H2, F2⟩ := H1.processResponses env now 3
    exact ⟨H2, F1.trans F2⟩
  · exact H.processResponses env now 3

/-- **A message** is for a core that there is. -/
theorem Inv.transfer (H : Inv s hand) (hk : k < s.cores) (requestLength responseLength : ℤ)
    (type : ResponseType) :
    Inv (s.transfer env now k requestLength responseLength type) hand ∧
      Fixed s (s.transfer env now k requestLength responseLength type) := by
  have hput : ∀ {s1 : Knc}, Inv s1 hand → Fixed s s1 →
      Inv (s1.putBuffer s1.sendBuffer
        { s1.buffer s1.sendBuffer with
          size := prepareTransfer (s1.buffer s1.sendBuffer).size requestLength responseLength
          responses := (s1.buffer s1.sendBuffer).responses ++
            [⟨type, some k, (s1.core k).ident⟩] }) hand ∧
      Fixed s (s1.putBuffer s1.sendBuffer
        { s1.buffer s1.sendBuffer with
          size := prepareTransfer (s1.buffer s1.sendBuffer).size requestLength responseLength
          responses := (s1.buffer s1.sendBuffer).responses ++
            [⟨type, some k, (s1.core k).ident⟩] }) := by
    intro s1 H1 F1
    obtain ⟨H2, F2⟩ := H1.putBuffer s1.sendBuffer
      { s1.buffer s1.sendBuffer with
        size := prepareTransfer (s1.buffer s1.sendBuffer).size requestLength responseLength
        responses := (s1.buffer s1.sendBuffer).responses ++
          [⟨type, some k, (s1.core k).ident⟩] } fun r hr l hl => by
        rcases List.mem_append.mp hr with hr | hr
        · exact H1.target _ r hr l hl
        · obtain rfl := List.mem_singleton.mp hr
          obtain rfl := Option.some.inj hl
          exact ⟨F1.cores.symm ▸ hk, rfl⟩
    exact ⟨H2, F1.trans F2⟩
  simp only [Knc.transfer]
  split
  · obtain ⟨H1, F1⟩ := H.flush env now
    exact hput H1 F1
  · exact hput H (.refl s)

/-! ## Works -/

theorem Inv.sendMessages (H : Inv s hand) (hk : k < s.cores) (clean : Bool)
    {version : AsicVersion} (hs : s.sendMessages env now k clean version = some s') :
    Inv s' hand ∧ Fixed s s' := by
  cases version with
  | unknown | titan => cases hs
  | neptune =>
      obtain rfl := Option.some.inj hs
      exact H.transfer env now hk 73 27 .setwork
  | jupiter =>
      obtain rfl := Option.some.inj hs
      cases clean with
      | false => exact H.transfer env now hk 49 0 .noResponse
      | true =>
          obtain ⟨H1, F1⟩ := H.transfer env now hk 4 0 .noResponse
          have hk1 := F1.cores.symm ▸ hk
          obtain ⟨H2, F2⟩ := H1.transfer env now hk1 4 0 .noResponse
          obtain ⟨H3, F3⟩ := H2.transfer env now (F2.cores.symm ▸ hk1) 49 0 .noResponse
          exact ⟨H3, F1.trans (F2.trans F3)⟩

/-- A slot is found for a core. -/
theorem Inv.chooseSlot (H : Inv s hand) (hk : k < s.cores) {slot : ℤ} (hge : 1 ≤ slot)
    (hle : slot ≤ 14) (hfree : slot ∉ (s.core k).busySlots) :
    Inv (s.chooseSlot k slot { s.core k with lastSlot := slot }) hand ∧
      Fixed s (s.chooseSlot k slot { s.core k with lastSlot := slot }) := by
  have hlast : 0 ≤ slot ∧ slot ≤ 14 := ⟨by omega, hle⟩
  rw [← add_zero hand] at H
  obtain ⟨H1, F1⟩ := H.putCore hk (c := { s.core k with lastSlot := slot }) rfl rfl rfl hlast
    fun w hw => (Multiset.notMem_zero w hw).elim
  refine ⟨⟨⟨H1.start, H1.cores_eq, H1.die_lt, H1.inBlock, H1.ident_lt, H1.ident_inj, H1.target⟩,
    ⟨H1.custody, H1.id_lt, H1.nodup, H1.owner, H1.lastSlot, fun e he => ?_⟩⟩,
    ⟨rfl, rfl, rfl, rfl, F1.coreDie, F1.ident⟩⟩
  rcases List.mem_cons.mp he with rfl | he
  · refine ⟨hge, hle, fun w hw heq => hfree ?_⟩
    have hslot : w.slot = slot := heq
    exact hslot ▸ Core.slot_mem_busySlots hw
  · exact H.chosen e he

/-- A work that is not sent is freed. -/
theorem Inv.failWork {work : Work} (H : Inv s (hand + {work})) (hk : k < s.cores)
    (howner : work.owner = (s.core k).ident) :
    Inv (s.failWork now k work) hand ∧ Fixed s (s.failWork now k work) := by
  have hfailure := Core.keeps_failure now (s.core k)
  have hheld := hfailure.held
  rw [Multiset.coe_nil, add_zero] at hheld
  refine H.putCore hk ?_ hfailure.die hfailure.ident ?_ fun w hw => ?_
  · rw [hheld]
    rfl
  · rw [hfailure.lastSlot]
    exact H.lastSlot k hk
  · rw [Multiset.mem_singleton.mp hw, howner]

/-- A work that is sent is pending at its core. -/
theorem Inv.keepWork {work : Work} (H : Inv s (hand + {work})) (hk : k < s.cores)
    (howner : work.owner = (s.core k).ident) (slot : ℤ) :
    Inv (s.keepWork now k slot work) hand ∧ Fixed s (s.keepWork now k slot work) := by
  refine H.putCore hk ?_ rfl rfl (H.lastSlot k hk) fun w hw => ?_
  · simp only [Core.held, Option.toList_some, ← Multiset.coe_add, Multiset.coe_singleton]
    abel
  · rw [Multiset.mem_singleton.mp hw, howner]

/-- **A work** is put with the core that it was obtained for, or freed. -/
theorem Inv.sendWork {work : Work} (H : Inv s (hand + {work})) (hk : k < s.cores)
    (howner : work.owner = (s.core k).ident) (clean : Bool) :
    ∃ s', s.sendWork env now k work clean = some s' ∧ Inv s' hand ∧ Fixed s s' := by
  obtain ⟨slot, hslot, hge, hle, hfree⟩ := Core.exists_nextSlot (H.lastSlot k hk)
  obtain ⟨H1, F1⟩ := H.chooseSlot hk hge hle hfree
  simp only [Knc.sendWork, hslot, Option.bind_eq_bind, Option.bind_some]
  generalize s.chooseSlot k slot { s.core k with lastSlot := slot } = s1 at H1 F1 ⊢
  have hk1 : k < s1.cores := F1.cores.symm ▸ hk
  obtain ⟨Hfail, Ffail⟩ := H1.failWork now hk1 (howner.trans (F1.ident k).symm)
  split
  · exact ⟨_, rfl, Hfail, F1.trans Ffail⟩
  · cases hsend : s1.sendMessages env now k clean (s1.die (s1.core k).die).version with
    | none => exact ⟨_, rfl, Hfail, F1.trans Ffail⟩
    | some s2 =>
        obtain ⟨H2, F2⟩ := H1.sendMessages env now hk1 clean hsend
        have F12 := F1.trans F2
        obtain ⟨H3, F3⟩ :=
          H2.keepWork now (F12.cores.symm ▸ hk) (howner.trans (F12.ident k).symm) slot
        exact ⟨_, rfl, H3, F12.trans F3⟩

theorem Inv.requestReport (H : Inv s hand) (hk : k < s.cores) :
    Inv (s.requestReport env now k) hand ∧ Fixed s (s.requestReport env now k) := by
  rw [Knc.requestReport]
  split
  · exact H.transfer env now hk 4 7 .report
  · exact H.transfer env now hk 4 27 .report
  · exact H.keep hk (Core.keeps_failure now (s.core k))

/-- A work comes, for a core. -/
theorem Inv.getWork (H : Inv s hand) (k : ℕ) :
    Inv (s.getWork k).2 (hand + {(s.getWork k).1}) ∧ Fixed s (s.getWork k).2 := by
  have hnew : (s.getWork k).1 ∉ s.obtained := fun h => Nat.lt_irrefl _ (H.id_lt _ h)
  refine ⟨⟨⟨H.start, H.cores_eq, H.die_lt, H.inBlock, H.ident_lt, H.ident_inj, H.target⟩,
    ⟨?_, ?_, List.nodup_cons.mpr ⟨hnew, H.nodup⟩, H.owner, H.lastSlot, H.chosen⟩⟩,
    ⟨rfl, rfl, rfl, rfl, fun _ => rfl, fun _ => rfl⟩⟩
  · change _ + (s.freed : Multiset Work) + (hand + {(s.getWork k).1}) =
      (((s.getWork k).1 :: s.obtained : List Work) : Multiset Work)
    rw [← Multiset.cons_coe, ← H.custody, ← add_assoc, ← Multiset.singleton_add, add_comm {_}]
    rfl
  · intro w hw
    rcases List.mem_cons.mp hw with rfl | hw
    · exact Nat.lt_succ_self _
    · exact Nat.lt_succ_of_lt (H.id_lt w hw)

theorem Inv.forget (H : Inv s hand) (hk : k < s.cores) :
    Inv (s.forget now k) hand ∧ Fixed s (s.forget now k) := by
  refine H.keep hk ⟨?_, rfl, rfl, rfl⟩
  simp only [Core.held, Workslot.empty, Option.toList_none, List.append_nil, Multiset.coe_nil,
    zero_add]

/-- The loop's body, for a core that there is. -/
theorem Inv.visit (H : Inv s hand) (hk : k < s.cores) :
    ∃ s', s.visit env now k = some s' ∧ Inv s' hand ∧ Fixed s s' := by
  simp only [Knc.visit]
  split
  · exact ⟨s, rfl, H, .refl s⟩
  · have hforget : Inv (if (s.core k).generation ≠ s.generation then s.forget now k else s) hand ∧
        Fixed s (if (s.core k).generation ≠ s.generation then s.forget now k else s) := by
      split
      · exact H.forget now hk
      · exact ⟨H, .refl s⟩
    generalize (if (s.core k).generation ≠ s.generation then s.forget now k else s) = s1
      at hforget ⊢
    obtain ⟨H1, F1⟩ := hforget
    have hk1 : k < s1.cores := F1.cores.symm ▸ hk
    split
    · obtain ⟨H2, F2⟩ := H1.getWork k
      obtain ⟨s3, h3, H3, F3⟩ := H2.sendWork env now (F2.cores.symm ▸ hk1) rfl _
      exact ⟨s3, h3, H3, F1.trans (F2.trans F3)⟩
    · obtain ⟨H2, F2⟩ := H1.requestReport env now hk1
      exact ⟨_, rfl, H2, F1.trans F2⟩

theorem Inv.foldlM_visit (H : Inv s hand) (is : List ℕ) (his : ∀ i ∈ is, i < s.cores) :
    ∃ s', is.foldlM (Knc.visit env now) s = some s' ∧ Inv s' hand ∧ Fixed s s' := by
  induction is generalizing s with
  | nil => exact ⟨s, rfl, H, .refl s⟩
  | cons i is ih =>
      obtain ⟨s1, h1, H1, F1⟩ := H.visit env now (his i List.mem_cons_self)
      obtain ⟨s2, h2, H2, F2⟩ := ih H1 fun j hj =>
        F1.cores.symm ▸ his j (List.mem_cons_of_mem i hj)
      refine ⟨s2, ?_, H2, F1.trans F2⟩
      rw [List.foldlM_cons, h1]
      exact h2

/-- Each core keeps its works. -/
theorem Inv.mapCores (H : Inv s hand) (core : ℕ → Core)
    (hcore : ∀ k, Core.Keeps (s.core k) (core k) []) :
    Inv { s with core := core } hand ∧ Fixed s { s with core := core } := by
  have hfixed : Fixed s { s with core := core } :=
    ⟨rfl, rfl, rfl, rfl, fun k => (hcore k).die, fun k => (hcore k).ident⟩
  have hheld : ∀ k, ((core k).held : Multiset Work) = (s.core k).held := fun k => by
    rw [← (hcore k).held, Multiset.coe_nil, add_zero]
  refine ⟨⟨H.toLayout.of_fixed hfixed H.target, ⟨?_, H.id_lt, H.nodup, fun k hk w hw => ?_,
    fun k hk => ?_, H.chosen⟩⟩, hfixed⟩
  · rw [← H.custody]
    exact congrArg (fun m => m + (s.freed : Multiset Work) + hand)
      (Finset.sum_congr rfl fun k _ => hheld k)
  · rw [hfixed.ident]
    refine H.owner k hk w (Multiset.mem_coe.mp ?_)
    rw [← hheld]
    exact Multiset.mem_coe.mpr hw
  · exact (hcore k).lastSlot ▸ H.lastSlot k hk

theorem Inv.resetErrors (H : Inv s hand) :
    Inv (s.resetErrors now) hand ∧ Fixed s (s.resetErrors now) := by
  rw [Knc.resetErrors]
  split
  · obtain ⟨H1, F1⟩ := H.mapCores
      (fun k => if k < s.cores then { s.core k with errorsNow := 0 } else s.core k)
      fun k => by
        split
        · exact .of_held_eq rfl rfl rfl rfl
        · exact .refl _
    have hrest : ∀ s2, Same _ s2 → s2.buffer = s.buffer → Inv s2 hand ∧ Fixed s s2 :=
      fun s2 S hbuffer =>
        ⟨(H1.rest s2 S hbuffer).1, F1.trans (H1.rest s2 S hbuffer).2⟩
    exact hrest _ ⟨rfl, rfl, rfl, rfl, rfl, rfl, rfl, rfl⟩ rfl
  · exact ⟨H, .refl s⟩

/-- **A scan** of the cores. -/
theorem Inv.scanwork (H : Inv s hand) :
    ∃ s', s.scanwork env now = some s' ∧ Inv s' hand ∧ Fixed s s' := by
  obtain ⟨H1, F1⟩ := H.processResponses env now 3
  obtain ⟨H2, F2⟩ := H1.resetErrors now
  obtain ⟨s3, h3, H3, F3⟩ := H2.foldlM_visit env now
    (List.range ((s.processResponses env now 3).resetErrors now).cores)
    fun i hi => List.mem_range.mp hi
  have hadjust : ∀ s4 : Knc, Same s3 s4 → s4.buffer = s3.buffer →
      Inv (s4.flush env now) hand ∧ Fixed s3 (s4.flush env now) := by
    intro s4 S4 hbuffer
    obtain ⟨H4, F4⟩ := H3.rest s4 S4 hbuffer
    obtain ⟨H5, F5⟩ := H4.flush env now
    exact ⟨H5, F4.trans F5⟩
  have F123 := F1.trans (F2.trans F3)
  simp only [Knc.scanwork, h3, Option.bind_eq_bind, Option.bind_some, Option.pure_def]
  refine ⟨_, rfl, ?_⟩
  split
  · obtain ⟨H4, F4⟩ := hadjust { s3 with startup := s3.startup - 1 }
      ⟨rfl, rfl, rfl, rfl, rfl, rfl, rfl, rfl⟩ rfl
    exact ⟨H4, F123.trans F4⟩
  · split
    · obtain ⟨H4, F4⟩ := hadjust { s3 with scanAdjust := s3.scanAdjust + 1 }
        ⟨rfl, rfl, rfl, rfl, rfl, rfl, rfl, rfl⟩ rfl
      exact ⟨H4, F123.trans F4⟩
    · obtain ⟨H4, F4⟩ := hadjust s3 ⟨rfl, rfl, rfl, rfl, rfl, rfl, rfl, rfl⟩ rfl
      exact ⟨H4, F123.trans F4⟩

theorem Inv.flushWork (H : Inv s hand) : Inv s.flushWork hand ∧ Fixed s s.flushWork :=
  H.rest _ ⟨rfl, rfl, rfl, rfl, rfl, rfl, rfl, rfl⟩ rfl

end KncAsic
end MassGridMiner

import MassGridMiner.Lib.Run
import MassGridMiner.Lib.Word
import Mathlib.Data.List.Nodup

/-!
# The blocks a goal has seen

Every goal keeps a table of the last blocks that work was issued for, and points to the one
that is current.  A work for a block that is not in the table puts it there; where the table
is full, the first block by the order in which they were seen is evicted before.  The order
is taken from a counter that all goals share.

## Main definitions

* `BlockInfo`, `BlockchainInfo` — a block, and the table with the pointer.
* `testWorkCurrent`, `haveBlockHeight`, `miningGoalReset` — what changes the tables.
* `Goals`, `Goals.step` — the goals, and one call.
* `BlockchainInfo.Sound` — the pointer is to the newest block of a small table without
  duplicates.
-/

namespace MassGridMiner

/-- `struct block_info`.  The number stands for the address: it counts the allocations, and a
block is allocated when it is first seen. -/
structure BlockInfo where
  ident : ℕ
  blockId : UInt32
  prevblkhash : Bytes 32
  blockSeenOrder : UInt32
  height : UInt32
  firstSeenTime : ℕ

/-- `struct blockchain_info`, without what is displayed of the current block.  The table is a
list in the order of the hash table's iteration; `currentblk` is an address. -/
structure BlockchainInfo where
  blocks : List BlockInfo
  currentblk : ℕ

/-- `block_sort`. -/
def blockSort (blocka blockb : BlockInfo) : Int32 :=
  (blocka.blockSeenOrder - blockb.blockSeenOrder).toInt32

/-- `HASH_SORT` of the hash table library: it rearranges a table by a comparison. -/
structure HashSort where
  sort : (BlockInfo → BlockInfo → Int32) → List BlockInfo → List BlockInfo
  perm : ∀ cmp blocks, (sort cmp blocks).Perm blocks

/-- The dummy block of `blkchain_init_block`. -/
def dummyBlock (ident : ℕ) : BlockInfo where
  ident := ident
  blockId := 0
  prevblkhash := .replicate 32 0
  blockSeenOrder := 0
  height := 0
  firstSeenTime := 0

/-- `blkchain_init_block`, of an empty table. -/
def blkchainInitBlock (ident : ℕ) : BlockchainInfo := ⟨[dummyBlock ident], ident⟩

/-- `block_exists`. -/
def blockExists (blkchain : BlockchainInfo) (prevblkhash : Bytes 32) : Option BlockInfo :=
  blkchain.blocks.find? fun b => b.prevblkhash == prevblkhash

/-- What `test_work_current` reads of a work and of its pool: `goal` and `poolBlockId` are the
goal of the pool and the block it works on. -/
structure TestedWork where
  mandatory : Bool
  data : Bytes 128
  goal : ℕ
  poolBlockId : UInt32

/-- `prevblkhash`, the bytes of the header behind the version. -/
def TestedWork.prevblkhash (work : TestedWork) : Bytes 32 :=
  Vector.ofFn fun i => work.data[4 + i.val]

/-- `block_id`. -/
def TestedWork.blockId (work : TestedWork) : UInt32 := UInt32.ofNat (work.data.word32 1)

/-- The work has nothing in the bytes that are looked at. -/
def TestedWork.isDud (work : TestedWork) : Bool :=
  (List.range' 8 18).all fun i => work.data.byte i == 0

/-- The table with a place free for one more block. -/
def evict (hashSort : HashSort) (blocks : List BlockInfo) : List BlockInfo :=
  if blocks.length > 6 then (hashSort.sort blockSort blocks).tail else blocks

/-- A block that is not in the table is added and becomes the current one. -/
def addBlock (hashSort : HashSort) (blkchain : BlockchainInfo) (s : BlockInfo) : BlockchainInfo :=
  ⟨evict hashSort blkchain.blocks ++ [s], s.ident⟩

/-- The goals with their tables, the counter they share, and the number of allocations. -/
structure Goals where
  blkchains : List BlockchainInfo
  newBlocks : UInt32
  fresh : ℕ

/-- What `test_work_current` returns, the block that the pool works on afterwards, and the
goals. -/
structure TestedCurrent where
  ret : Bool
  poolBlockId : UInt32
  goals : Goals

/-- `test_work_current`, at a time. -/
def testWorkCurrent (hashSort : HashSort) (now : ℕ) (goals : Goals) (work : TestedWork) :
    Option TestedCurrent :=
  if work.mandatory || work.isDud then some ⟨true, work.poolBlockId, goals⟩
  else
    goals.blkchains[work.goal]?.map fun blkchain =>
      match blockExists blkchain work.prevblkhash with
      | some _ => ⟨true, work.blockId, goals⟩
      | none =>
        let s : BlockInfo :=
          { ident := goals.fresh, blockId := work.blockId, prevblkhash := work.prevblkhash
            blockSeenOrder := goals.newBlocks, height := 0, firstSeenTime := now }
        ⟨false, work.blockId,
          { blkchains := goals.blkchains.set work.goal (addBlock hashSort blkchain s)
            newBlocks := goals.newBlocks + 1
            fresh := goals.fresh + 1 }⟩

/-- `have_block_height`, of the table. -/
def haveBlockHeight (blkchain : BlockchainInfo) (prevblkhash : Bytes 32) (blkheight : UInt32) :
    BlockchainInfo :=
  match blockExists blkchain prevblkhash with
  | none => blkchain
  | some blkinfo =>
    if blkinfo.height ≠ 0 then blkchain
    else
      { blkchain with
        blocks := blkchain.blocks.map fun b =>
          if b.ident = blkinfo.ident then { b with height := blkheight } else b }

namespace Goals

/-- The calls: of `get_mining_goal` for a goal that is new, and of the three functions. -/
inductive Event
  | getMiningGoal
  | testWorkCurrent (now : ℕ) (work : TestedWork)
  | haveBlockHeight (goal : ℕ) (prevblkhash : Bytes 32) (blkheight : UInt32)
  | miningGoalReset (goal : ℕ)

def init : Goals := ⟨[], 0, 0⟩

/-- `blkchain_init_block` for a new goal. -/
def getMiningGoal (s : Goals) : Goals :=
  { s with blkchains := s.blkchains ++ [blkchainInitBlock s.fresh], fresh := s.fresh + 1 }

/-- `mining_goal_reset`. -/
def miningGoalReset (s : Goals) (goal : ℕ) : Goals :=
  { s with blkchains := s.blkchains.set goal (blkchainInitBlock s.fresh), fresh := s.fresh + 1 }

/-- One call; none where there is no such goal. -/
def step (hashSort : HashSort) (s : Goals) : Event → Option Goals
  | .getMiningGoal => some s.getMiningGoal
  | .testWorkCurrent now work =>
    (MassGridMiner.testWorkCurrent hashSort now s work).map TestedCurrent.goals
  | .haveBlockHeight goal prevblkhash blkheight =>
    s.blkchains[goal]?.map fun blkchain =>
      { s with
        blkchains := s.blkchains.set goal
          (MassGridMiner.haveBlockHeight blkchain prevblkhash blkheight) }
  | .miningGoalReset goal => s.blkchains[goal]?.map fun _ => s.miningGoalReset goal

end Goals

/-- The current block is in the table and the one of it that was first seen last, and the
table has at most seven blocks, each with a hash of its own. -/
structure BlockchainInfo.Sound (blkchain : BlockchainInfo) : Prop where
  current_mem : ∃ b ∈ blkchain.blocks, b.ident = blkchain.currentblk
  newest : ∀ b ∈ blkchain.blocks, b.ident ≤ blkchain.currentblk
  hashes : (blkchain.blocks.map BlockInfo.prevblkhash).Nodup
  length_le : blkchain.blocks.length ≤ 7

/-! ## One table -/

section
variable {blkchain : BlockchainInfo}

theorem blkchainInitBlock_sound (ident : ℕ) : (blkchainInitBlock ident).Sound where
  current_mem := ⟨_, List.mem_singleton_self _, rfl⟩
  newest := by
    intro b hb
    rw [List.mem_singleton.mp hb]
    exact le_rfl
  hashes := List.nodup_singleton _
  length_le := (Nat.le_add_left 1 6)

/-- A place is free, and what is left of the table was in it. -/
theorem evict_spec (hashSort : HashSort) {blocks : List BlockInfo} (H : blocks.length ≤ 7) :
    (evict hashSort blocks).length ≤ 6 ∧ evict hashSort blocks ⊆ blocks ∧
      ((blocks.map BlockInfo.prevblkhash).Nodup →
        ((evict hashSort blocks).map BlockInfo.prevblkhash).Nodup) := by
  have hperm := hashSort.perm blockSort blocks
  rw [evict]
  split
  next hfull =>
    refine ⟨?_, fun b hb => hperm.subset (List.mem_of_mem_tail hb), fun hnodup => ?_⟩
    · rw [List.length_tail, hperm.length_eq]
      omega
    · rw [List.map_tail]
      exact ((hperm.map _).nodup_iff.mpr hnodup).tail
  next hroom => exact ⟨by omega, fun b hb => hb, fun h => h⟩

/-- What comes in is not in the table, and newer than what is. -/
theorem BlockchainInfo.Sound.addBlock (H : blkchain.Sound) (hashSort : HashSort) {s : BlockInfo}
    (hnew : blockExists blkchain s.prevblkhash = none) (hident : blkchain.currentblk ≤ s.ident) :
    (addBlock hashSort blkchain s).Sound := by
  obtain ⟨hlen, hsub, hnodup⟩ := evict_spec hashSort H.length_le
  constructor
  · exact ⟨s, by simp [MassGridMiner.addBlock], rfl⟩
  · simp only [MassGridMiner.addBlock, List.mem_append, List.mem_singleton]
    rintro b (hb | rfl)
    · exact (H.newest b (hsub hb)).trans hident
    · exact le_rfl
  · rw [MassGridMiner.addBlock, List.map_append, List.map_singleton]
    refine List.nodup_append.mpr ⟨hnodup H.hashes, List.nodup_singleton _, ?_⟩
    intro hash hmem hash' hs heq
    rw [List.mem_singleton] at hs
    obtain ⟨b, hb, rfl⟩ := List.mem_map.mp hmem
    have hother := List.find?_eq_none.mp hnew b (hsub hb)
    exact hother (by simp [heq, hs])
  · simp only [MassGridMiner.addBlock, List.length_append, List.length_singleton]
    omega

/-- A height changes neither the blocks nor their hashes. -/
theorem BlockchainInfo.Sound.haveBlockHeight (H : blkchain.Sound) (prevblkhash : Bytes 32)
    (blkheight : UInt32) : (haveBlockHeight blkchain prevblkhash blkheight).Sound := by
  rw [MassGridMiner.haveBlockHeight]
  split
  next => exact H
  next blkinfo _ =>
    split
    next => exact H
    next =>
      set f : BlockInfo → BlockInfo := fun b =>
        if b.ident = blkinfo.ident then { b with height := blkheight } else b with hf
      have hident : ∀ b, (f b).ident = b.ident := fun b => by
        simp only [hf]
        split <;> rfl
      have hhash : BlockInfo.prevblkhash ∘ f = BlockInfo.prevblkhash := by
        funext b
        simp only [hf, Function.comp]
        split <;> rfl
      constructor
      · obtain ⟨b, hb, hcurrent⟩ := H.current_mem
        exact ⟨f b, List.mem_map_of_mem hb, (hident b).trans hcurrent⟩
      · intro b hb
        obtain ⟨b, hmem, rfl⟩ := List.mem_map.mp hb
        rw [hident]
        exact H.newest b hmem
      · rw [List.map_map, hhash]
        exact H.hashes
      · rw [List.length_map]
        exact H.length_le

end

/-! ## Runs -/

namespace Goals

/-- Every table is sound, and older than what will be allocated. -/
def Inv (s : Goals) : Prop := ∀ b ∈ s.blkchains, b.Sound ∧ b.currentblk < s.fresh

section
variable {s s' : Goals}

/-- A table is replaced, when blocks may have been allocated. -/
theorem Inv.set (H : s.Inv) {goal : ℕ} {blkchain : BlockchainInfo} {newBlocks : UInt32} {fresh : ℕ}
    (hfresh : s.fresh ≤ fresh) (hsound : blkchain.Sound) (hlt : blkchain.currentblk < fresh) :
    Inv ⟨s.blkchains.set goal blkchain, newBlocks, fresh⟩ := by
  intro b hb
  rcases List.mem_or_eq_of_mem_set hb with hmem | rfl
  · exact ⟨(H b hmem).1, (H b hmem).2.trans_le hfresh⟩
  · exact ⟨hsound, hlt⟩

theorem Inv.getMiningGoal (H : s.Inv) : s.getMiningGoal.Inv := by
  intro b hb
  rcases List.mem_append.mp hb with hmem | hnew
  · exact ⟨(H b hmem).1, (H b hmem).2.trans (Nat.lt_succ_self _)⟩
  · obtain rfl := List.mem_singleton.mp hnew
    exact ⟨blkchainInitBlock_sound _, Nat.lt_succ_self _⟩

theorem Inv.miningGoalReset (H : s.Inv) (goal : ℕ) : (s.miningGoalReset goal).Inv :=
  H.set (Nat.le_succ _) (blkchainInitBlock_sound _) (Nat.lt_succ_self _)

/-- A work either changes nothing or adds a block that is newer than all. -/
theorem Inv.testWorkCurrent {hashSort : HashSort} {now : ℕ} {work : TestedWork}
    {res : TestedCurrent} (H : s.Inv)
    (htest : MassGridMiner.testWorkCurrent hashSort now s work = some res) : res.goals.Inv := by
  rw [MassGridMiner.testWorkCurrent] at htest
  split at htest
  next =>
    obtain rfl := Option.some.inj htest
    exact H
  next =>
    obtain ⟨blkchain, hblkchain, hres⟩ := Option.map_eq_some_iff.mp htest
    obtain ⟨hsound, hlt⟩ := H blkchain (List.mem_of_getElem? hblkchain)
    split at hres
    next =>
      obtain rfl := hres
      exact H
    next hnew =>
      obtain rfl := hres
      exact H.set (Nat.le_succ _) (hsound.addBlock hashSort hnew hlt.le) (Nat.lt_succ_self _)

theorem currentblk_haveBlockHeight (blkchain : BlockchainInfo) (prevblkhash : Bytes 32)
    (blkheight : UInt32) :
    (haveBlockHeight blkchain prevblkhash blkheight).currentblk = blkchain.currentblk := by
  rw [haveBlockHeight]
  split
  next => rfl
  next => split <;> rfl

/-- Every call keeps the tables sound. -/
theorem Inv.step {hashSort : HashSort} {e : Event} (H : s.Inv)
    (hstep : s.step hashSort e = some s') : s'.Inv := by
  cases e with
  | getMiningGoal => exact Option.some.inj hstep ▸ H.getMiningGoal
  | testWorkCurrent now work =>
      obtain ⟨res, hres, rfl⟩ := Option.map_eq_some_iff.mp hstep
      exact H.testWorkCurrent hres
  | haveBlockHeight goal prevblkhash blkheight =>
      obtain ⟨blkchain, hblkchain, rfl⟩ := Option.map_eq_some_iff.mp hstep
      obtain ⟨hsound, hlt⟩ := H blkchain (List.mem_of_getElem? hblkchain)
      refine H.set le_rfl (hsound.haveBlockHeight prevblkhash blkheight) ?_
      rw [currentblk_haveBlockHeight]
      exact hlt
  | miningGoalReset goal =>
      obtain ⟨_, _, rfl⟩ := Option.map_eq_some_iff.mp hstep
      exact H.miningGoalReset goal

end

/-- **The current block of a goal is the newest of its table**, whatever works were tested,
heights learned and goals reset. -/
theorem sound_of_exec (hashSort : HashSort) {es : List Event} {s : Goals}
    (H : Run.exec (step hashSort) init es = some s) : ∀ b ∈ s.blkchains, b.Sound := by
  have hstart : init.Inv := fun b hb => by cases hb
  have hinv : s.Inv := Run.exec_of_invariant (fun _ _ _ h hstep => Inv.step h hstep) hstart H
  exact fun b hb => (hinv b hb).1

/-- A sort that leaves a table as it is. -/
def keepSort : HashSort := ⟨fun _ blocks => blocks, fun _ _ => .rfl⟩

/-- A work for a block whose hash spells a number. -/
def workFor (n : UInt8) : TestedWork := ⟨false, .replicate 128 n, 0, 0⟩

/-- Eight blocks, the last of them evicting the dummy; then a reset. -/
def eightBlocks : List Event :=
  .getMiningGoal ::
    ((List.range 8).map fun n => .testWorkCurrent n (workFor (UInt8.ofNat (n + 1)))) ++
    [.haveBlockHeight 0 (.replicate 32 8) 7, .miningGoalReset 0, .testWorkCurrent 9 (workFor 1)]

theorem sound_eightBlocks :
    ∃ s, Run.exec (step keepSort) init eightBlocks = some s ∧ ∀ b ∈ s.blkchains, b.Sound := by
  obtain ⟨s, hs⟩ : ∃ s, Run.exec (step keepSort) init eightBlocks = some s := ⟨_, rfl⟩
  exact ⟨s, hs, sound_of_exec keepSort hs⟩

end Goals

end MassGridMiner

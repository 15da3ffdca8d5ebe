import MassGridMiner.Blocks

/-!
# The subsidy of the current block

The subsidy is halved every 210000 blocks, which is done by a shift.  The height of a block is
whatever the pool says, and nothing bounds the number of bits that are shifted.

## Main definitions

* `RewardedChain` — the blocks that a goal has seen, with the subsidy of the current one.
* `PaysHalved` — the subsidy for a height is what is left of fifty coins after the halvings.
* `paysHalved_iff` — the heights for which it is.
-/

namespace MassGridMiner

/-- `struct blockchain_info` with the subsidy of the current block. -/
structure RewardedChain extends BlockchainInfo where
  currentblkSubsidy : UInt64

/-- What is left of fifty coins at a height. -/
def halvedSubsidy (height : ℕ) : ℕ := 5000000000 / 2 ^ (height / 210000)

/-- `5000000000LL >> (height / 210000)`.  A shift by 64 bits or more is undefined. -/
def shiftedSubsidy (height : UInt32) : Option UInt64 :=
  let halvings := (height / 210000).toNat
  if halvings < 64 then some (UInt64.ofNat (5000000000 >>> halvings)) else none

namespace RewardedChain

/-- `have_block_height`. -/
def haveBlockHeight (blkchain : RewardedChain) (prevblkhash : Bytes 32) (blkheight : UInt32) :
    Option RewardedChain :=
  match blockExists blkchain.toBlockchainInfo prevblkhash with
  | none => some blkchain
  | some blkinfo =>
    if blkinfo.height ≠ 0 then some blkchain
    else
      let learned := MassGridMiner.haveBlockHeight blkchain.toBlockchainInfo prevblkhash blkheight
      if blkinfo.ident = blkchain.currentblk then
        (shiftedSubsidy blkheight).map (RewardedChain.mk learned)
      else some ⟨learned, blkchain.currentblkSubsidy⟩

/-- `set_curblock`. -/
def setCurblock (blkchain : RewardedChain) (blkinfo : BlockInfo) : Option RewardedChain :=
  (shiftedSubsidy blkinfo.height).map
    (RewardedChain.mk { blkchain.toBlockchainInfo with currentblk := blkinfo.ident })

/-- The current block has this hash, and its height is not known yet. -/
def Awaits (blkchain : RewardedChain) (prevblkhash : Bytes 32) : Prop :=
  ∃ blkinfo, blockExists blkchain.toBlockchainInfo prevblkhash = some blkinfo ∧
    blkinfo.height = 0 ∧ blkinfo.ident = blkchain.currentblk

end RewardedChain

/-- On both ways the subsidy becomes that of the height, with no undefined shift. -/
structure PaysHalved (height : UInt32) : Prop where
  learned : ∀ (blkchain : RewardedChain) (prevblkhash : Bytes 32), blkchain.Awaits prevblkhash →
    ∃ s, blkchain.haveBlockHeight prevblkhash height = some s ∧
      s.currentblkSubsidy.toNat = halvedSubsidy height.toNat
  current : ∀ (blkchain : RewardedChain) (blkinfo : BlockInfo), blkinfo.height = height →
    ∃ s, blkchain.setCurblock blkinfo = some s ∧
      s.currentblkSubsidy.toNat = halvedSubsidy height.toNat

theorem toNat_halvings (height : UInt32) : (height / 210000).toNat = height.toNat / 210000 :=
  UInt32.toNat_div _ _

/-- Where the shift is defined it halves as often as it should. -/
theorem shiftedSubsidy_eq (height : UInt32) (H : height.toNat / 210000 < 64) :
    ∃ subsidy, shiftedSubsidy height = some subsidy ∧
      subsidy.toNat = halvedSubsidy height.toNat := by
  have hle : halvedSubsidy height.toNat ≤ 5000000000 := Nat.div_le_self _ _
  refine ⟨UInt64.ofNat (halvedSubsidy height.toNat), ?_, ?_⟩
  · rw [shiftedSubsidy, toNat_halvings, if_pos H, Nat.shiftRight_eq_div_pow, halvedSubsidy]
  · exact UInt64.toNat_ofNat_of_lt (hle.trans_lt (by decide))

theorem shiftedSubsidy_eq_none {height : UInt32} (H : 64 ≤ height.toNat / 210000) :
    shiftedSubsidy height = none := by
  rw [shiftedSubsidy, toNat_halvings, if_neg (by omega)]

/-- The height of the current block is learned. -/
theorem RewardedChain.Awaits.haveBlockHeight_eq {blkchain : RewardedChain}
    {prevblkhash : Bytes 32} (H : blkchain.Awaits prevblkhash) (height : UInt32) :
    blkchain.haveBlockHeight prevblkhash height = (shiftedSubsidy height).map (RewardedChain.mk
      (MassGridMiner.haveBlockHeight blkchain.toBlockchainInfo prevblkhash height)) := by
  obtain ⟨blkinfo, hexists, hunknown, hcurrent⟩ := H
  rw [RewardedChain.haveBlockHeight, hexists]
  dsimp only
  rw [if_neg (not_not.mpr hunknown), if_pos hcurrent]

/-- **The heights with the right subsidy** are those below the sixty-fourth halving. -/
theorem paysHalved_iff (height : UInt32) : PaysHalved height ↔ height.toNat < 13440000 := by
  constructor
  · intro H
    by_contra hge
    have hnone : shiftedSubsidy height = none := shiftedSubsidy_eq_none (by omega)
    obtain ⟨s, hs, -⟩ := H.current ⟨blkchainInitBlock 0, 0⟩
      { dummyBlock 0 with height := height } rfl
    rw [RewardedChain.setCurblock, hnone] at hs
    cases hs
  · intro hlt
    obtain ⟨subsidy, hshift, heq⟩ := shiftedSubsidy_eq height (by omega)
    refine ⟨?_, ?_⟩
    · intro blkchain prevblkhash hawaits
      rw [hawaits.haveBlockHeight_eq, hshift]
      exact ⟨_, rfl, heq⟩
    · intro blkchain blkinfo hheight
      rw [RewardedChain.setCurblock, hheight, hshift]
      exact ⟨_, rfl, heq⟩

/-- The lowest height with an undefined shift fits in the three bytes of a coinbase. -/
theorem not_paysHalved_sixtyFour : (13440000 : UInt32).toNat < 2 ^ 24 ∧ ¬ PaysHalved 13440000 := by
  refine ⟨by decide, fun H => ?_⟩
  have hexists : blockExists (blkchainInitBlock 0) (.replicate 32 0) = some (dummyBlock 0) := rfl
  have hawaits : (RewardedChain.mk (blkchainInitBlock 0) 5000000000).Awaits (.replicate 32 0) :=
    ⟨dummyBlock 0, hexists, rfl, rfl⟩
  obtain ⟨s, hs, -⟩ := H.learned _ _ hawaits
  rw [hawaits.haveBlockHeight_eq, shiftedSubsidy_eq_none (by decide)] at hs
  cases hs

end MassGridMiner

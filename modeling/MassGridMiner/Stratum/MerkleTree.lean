import MassGridMiner.Crypto.HeaderHash
import MassGridMiner.Lib.Merkle
import MassGridMiner.Share.Work2d

/-!
# The merkle tree of a template

The transactions of a template are hashed once into the branches of the merkle tree, and each
coinbase with the branches into a root.  The hashes of a level are written over those of the level
below, from the front.

## Main definitions

* `nextLevel` — one level over the one below it.
* `blkmkBuildMerkleBranches`, `buildMerkleRoot` — the branches, and the root of a coinbase.
* `blkmkCalculateWitnessMrklroot` — the root that a witness commitment is for.
* `merkleRoot_branches` — all of them are about the tree of the transactions.
* `header_genStratumWork3` — the header of a work that is generated from a job.
-/

namespace MassGridMiner

/-- `blkmk_flsl`. -/
def blkmkFlsl (n : ℕ) : ℕ := if n = 0 then 0 else blkmkFlsl (n >>> 1) + 1
termination_by n
decreasing_by
  rw [Nat.shiftRight_eq_div_pow]
  omega

/-- `struct blktxn_t`, as far as its hashes go. -/
structure BlkTxn where
  data : List UInt8
  hash : Option Hash
  txid : Option Hash

/-- A hash is written into an array, or none where it leaves it. -/
def setHash (hashes : List Hash) (i : ℕ) (h : Hash) : Option (List Hash) :=
  if i < hashes.length then some (hashes.set i h) else none

section
variable (dblsha256 : List UInt8 → Hash)

/-- The hash of two hashes. -/
def hashPair (a b : Hash) : Hash := dblsha256 (a.toList ++ b.toList)

/-- The body of the inner loops. -/
def hashInto (hashes : List Hash) (i : ℕ) : Option (List Hash) := do
  let a ← hashes[i]?
  let b ← hashes[i + 1]?
  setHash hashes (i / 2) (hashPair dblsha256 a b)

/-- The last of an odd number of hashes is duplicated. -/
def duplicateLast (hashes : List Hash) (hashcount : ℕ) : Option (List Hash) :=
  if hashcount % 2 = 1 then do
    let last ← hashes[hashcount - 1]?
    setHash hashes hashcount last
  else some hashes

/-- The number of hashes with the last of them duplicated. -/
def evenCount (hashcount : ℕ) : ℕ := hashcount + hashcount % 2

/-- One level over the one below it, from the index `start` on. -/
def nextLevel (start : ℕ) (hashes : List Hash) (hashcount : ℕ) : Option (List Hash) := do
  let hashes ← duplicateLast hashes hashcount
  (List.range' start ((evenCount hashcount - start + 1) / 2) 2).foldlM (hashInto dblsha256) hashes

/-- The loop of `blkmk_build_merkle_branches`, for so many branches. -/
def branchLoop : ℕ → List Hash → ℕ → Option (List Hash)
  | 0, _, _ => some []
  | branchcount + 1, hashes, hashcount => do
    let branch ← hashes[1]?
    let hashes ← nextLevel dblsha256 2 hashes hashcount
    let branches ← branchLoop branchcount hashes (evenCount hashcount / 2)
    return branch :: branches

/-- `blkmk_hash_transactions`: the hash of a transaction. -/
def BlkTxn.hash_ (txn : BlkTxn) : Hash := txn.hash.getD (dblsha256 txn.data)

/-- The hash of a transaction in the tree. -/
def BlkTxn.id (txn : BlkTxn) : Hash := txn.txid.getD (txn.hash_ dblsha256)

/-- `blkmk_build_merkle_branches`.  The array has room for two hashes more, which hold anything. -/
def blkmkBuildMerkleBranches (room room' : Hash) (txns : List BlkTxn) : Option (List Hash) :=
  branchLoop dblsha256 (blkmkFlsl txns.length)
    (room :: txns.map (BlkTxn.id dblsha256) ++ [room']) (txns.length + 1)

/-- `build_merkle_root`, with the branches. -/
def buildMerkleRoot (branches : List Hash) (cbtxn : List UInt8) : Hash :=
  branches.foldl (hashPair dblsha256) (dblsha256 cbtxn)

/-- The loop of `_blkmk_calculate_witness_mrklroot`. -/
def reduceLoop (hashes : List Hash) (hashcount : ℕ) : Option (List Hash) :=
  if hashcount ≤ 1 then some hashes
  else do
    let hashes ← nextLevel dblsha256 0 hashes hashcount
    reduceLoop hashes (evenCount hashcount / 2)
termination_by hashcount
decreasing_by
  rw [evenCount]
  omega

/-- What becomes of `witness_needed`. -/
def witnessNeeded (txns : List BlkTxn) : Bool :=
  txns.any fun txn => txn.txid.any fun txid => decide (txn.hash_ dblsha256 ≠ txid)

/-- `_blkmk_calculate_witness_mrklroot`: the root, where a commitment is needed. -/
def blkmkCalculateWitnessMrklroot (room : Hash) (txns : List BlkTxn) : Option (Option Hash) :=
  if witnessNeeded dblsha256 txns then do
    let hashes ← reduceLoop dblsha256
      (Hash.zero :: txns.map (BlkTxn.hash_ dblsha256) ++ [room]) (txns.length + 1)
    (hashes[0]?).map some
  else some none

end

/-! ## One level -/

section
variable (dblsha256 : List UInt8 → Hash)

/-- The hashes of a level are behind what is in front of them, over as many others. -/
theorem foldlM_hashInto {rest : List Hash} (heven : rest.length % 2 = 0)
    (front below left : List Hash) (hbelow : below.length = front.length) :
    ∃ junk, (List.range' (2 * front.length) (rest.length / 2) 2).foldlM (hashInto dblsha256)
        (front ++ below ++ rest ++ left) =
          some (front ++ Merkle.pairUp (hashPair dblsha256) rest ++ junk) ∧
      junk.length = front.length + rest.length / 2 + left.length := by
  fun_induction Merkle.pairUp (hashPair dblsha256) rest generalizing front below with
  | case1 => exact ⟨below ++ left, by simp, by simp [hbelow]⟩
  | case2 b => simp at heven
  | case3 a b rest ih =>
    simp only [List.length_cons] at heven
    have hcount : (a :: b :: rest).length / 2 = rest.length / 2 + 1 := by
      simp only [List.length_cons]
      omega
    have hread : (front ++ below ++ a :: b :: rest ++ left)[2 * front.length]? = some a := by
      rw [List.append_assoc, List.getElem?_append_right (by simp [hbelow]; omega)]
      simp [hbelow, ← Nat.two_mul]
    have hread' : (front ++ below ++ a :: b :: rest ++ left)[2 * front.length + 1]? = some b := by
      rw [List.append_assoc, List.getElem?_append_right (by simp [hbelow]; omega)]
      simp [hbelow, ← Nat.two_mul, Nat.add_comm]
    -- what is written over is in front of what is still to be read
    obtain ⟨c, tail, htail⟩ : ∃ c tail, below ++ [a, b] = c :: tail := by
      cases below with
      | nil => exact ⟨a, [b], rfl⟩
      | cons c below => exact ⟨c, below ++ [a, b], rfl⟩
    have hmemory : front ++ below ++ a :: b :: rest ++ left =
        front ++ (c :: (tail ++ rest ++ left)) := by
      rw [← List.cons_append, ← List.cons_append, ← htail]
      simp
    have hwrite : setHash (front ++ below ++ a :: b :: rest ++ left) front.length
        (hashPair dblsha256 a b) =
          some (front ++ [hashPair dblsha256 a b] ++ tail ++ rest ++ left) := by
      rw [hmemory, setHash, if_pos (by simp)]
      simp
    have hlen : tail.length = (front ++ [hashPair dblsha256 a b]).length := by
      have hsame := congrArg List.length htail
      simp only [List.length_append, List.length_cons, List.length_nil, hbelow] at hsame ⊢
      omega
    obtain ⟨junk, hrun, hjunk⟩ := ih (by omega) (front ++ [hashPair dblsha256 a b]) tail hlen
    have hstep : hashInto dblsha256 (front ++ below ++ a :: b :: rest ++ left) (2 * front.length) =
        some (front ++ [hashPair dblsha256 a b] ++ tail ++ rest ++ left) := by
      have hhalf : 2 * front.length / 2 = front.length := by omega
      simp only [hashInto, hread, hread', Option.bind_eq_bind, Option.bind_some, hhalf, hwrite]
    have hnext : 2 * front.length + 2 = 2 * (front ++ [hashPair dblsha256 a b]).length := by
      rw [List.length_append, List.length_singleton, Nat.mul_add]
    refine ⟨junk, ?_, ?_⟩
    · rw [hcount, List.range'_succ, List.foldlM_cons, hstep, hnext]
      rw [Option.bind_eq_bind, Option.bind_some, hrun]
      simp
    · rw [hjunk, hcount, List.length_append, List.length_singleton]
      omega

/-- **A level** over the one below it, where there is room for one hash more. -/
theorem nextLevel_spec (front below rest : List Hash) {left : List Hash}
    (hbelow : below.length = front.length) (hleft : left ≠ []) :
    ∃ junk, nextLevel dblsha256 (2 * front.length) (front ++ below ++ rest ++ left)
        (2 * front.length + rest.length) =
          some (front ++ Merkle.pairUp (hashPair dblsha256) rest ++ junk) ∧
      (front ++ Merkle.pairUp (hashPair dblsha256) rest ++ junk).length =
        2 * front.length + rest.length + left.length := by
  obtain ⟨c, left, rfl⟩ := List.exists_cons_of_ne_nil hleft
  rcases Nat.mod_two_eq_zero_or_one rest.length with heven | hodd
  · obtain ⟨junk, hrun, hjunk⟩ := foldlM_hashInto dblsha256 heven front below
      (c :: left) hbelow
    have hcount : (evenCount (2 * front.length + rest.length) - 2 * front.length + 1) / 2 =
        rest.length / 2 := by
      rw [evenCount]
      omega
    have hduplicate : duplicateLast (front ++ below ++ rest ++ c :: left)
        (2 * front.length + rest.length) = some (front ++ below ++ rest ++ c :: left) :=
      if_neg (by omega)
    refine ⟨junk, ?_, ?_⟩
    · rw [nextLevel, hduplicate, hcount]
      exact hrun
    · rw [List.length_append, List.length_append, Merkle.length_pairUp, hjunk]
      omega
  · obtain ⟨init, last, rfl⟩ : ∃ init last, rest = init ++ [last] :=
      ⟨rest.dropLast, rest.getLast (List.ne_nil_of_length_pos (by omega)),
        (List.dropLast_append_getLast _).symm⟩
    rw [List.length_append, List.length_singleton] at hodd
    have heven : (init ++ [last, last]).length % 2 = 0 := by
      rw [List.length_append]
      simp only [List.length_cons, List.length_nil]
      omega
    obtain ⟨junk, hrun, hjunk⟩ := foldlM_hashInto dblsha256 heven front below left
      hbelow
    have hduplicate : duplicateLast (front ++ below ++ (init ++ [last]) ++ c :: left)
        (2 * front.length + (init ++ [last]).length) =
          some (front ++ below ++ (init ++ [last, last]) ++ left) := by
      have hlength : (front ++ below ++ init).length = 2 * front.length + init.length := by
        simp only [List.length_append, hbelow]
        omega
      have hmemory : front ++ below ++ (init ++ [last]) ++ c :: left =
          front ++ below ++ init ++ (last :: c :: left) := by simp
      rw [duplicateLast, if_pos (by rw [List.length_append, List.length_singleton]; omega), hmemory,
        List.length_append, List.length_singleton, ← Nat.add_assoc, ← hlength, Nat.add_sub_cancel,
        List.getElem?_append_right (Nat.le_refl _), Nat.sub_self, List.getElem?_cons_zero,
        Option.bind_eq_bind, Option.bind_some, setHash, if_pos (by simp; omega),
        List.set_append_right _ _ (Nat.le_add_right _ 1), Nat.add_sub_cancel_left]
      simp
    have hcount : (evenCount (2 * front.length + (init ++ [last]).length) - 2 * front.length + 1) /
        2 = (init ++ [last, last]).length / 2 := by
      simp only [evenCount, List.length_append, List.length_cons, List.length_nil]
      omega
    refine ⟨junk, ?_, ?_⟩
    · rw [nextLevel, hduplicate, hcount, Merkle.pairUp_append_last _ (by omega)]
      exact hrun
    · rw [List.length_append, List.length_append, Merkle.length_pairUp, hjunk]
      simp only [List.length_append, List.length_cons, List.length_nil]
      omega

/-- There are as many branches as levels. -/
theorem blkmkFlsl_succ (n : ℕ) : blkmkFlsl (n + 1) = blkmkFlsl ((n + 1) / 2) + 1 := by
  rw [blkmkFlsl, if_neg (Nat.succ_ne_zero n), Nat.shiftRight_eq_div_pow, Nat.pow_one]

theorem blkmkFlsl_zero : blkmkFlsl 0 = 0 := by rw [blkmkFlsl, if_pos rfl]

/-- The loop makes the branch of the first leaf, whatever that is. -/
theorem branchLoop_eq (first : Hash) (xs left : List Hash) (hleft : left ≠ []) :
    branchLoop dblsha256 (blkmkFlsl xs.length) (first :: xs ++ left) (xs.length + 1) =
      some (Merkle.branch (hashPair dblsha256) xs) := by
  fun_induction Merkle.branch (hashPair dblsha256) xs generalizing left with
  | case1 => rw [List.length_nil, blkmkFlsl_zero, branchLoop]
  | case2 b rest ih =>
    obtain ⟨junk, hrun, hlength⟩ := nextLevel_spec dblsha256 [first] [b] rest rfl hleft
    have hpairs := Merkle.length_pairUp (hashPair dblsha256) rest
    have hjunk : junk ≠ [] := by
      rintro rfl
      simp only [List.length_append, List.length_cons, List.length_nil, hpairs] at hlength
      omega
    have hcount : evenCount ((b :: rest).length + 1) / 2 =
        (Merkle.pairUp (hashPair dblsha256) rest).length + 1 := by
      rw [hpairs, evenCount, List.length_cons]
      omega
    have hlevels : blkmkFlsl (b :: rest).length =
        blkmkFlsl (Merkle.pairUp (hashPair dblsha256) rest).length + 1 := by
      rw [List.length_cons, blkmkFlsl_succ, hpairs]
    have hlevel : nextLevel dblsha256 2 (first :: b :: rest ++ left) ((b :: rest).length + 1) =
        some ([first] ++ Merkle.pairUp (hashPair dblsha256) rest ++ junk) := by
      rw [← hrun, List.length_cons, List.length_singleton]
      congr 1
      omega
    rw [hlevels, branchLoop, hlevel, hcount]
    simp only [List.cons_append, List.getElem?_cons_succ, List.getElem?_cons_zero,
      Option.bind_eq_bind, Option.bind_some, List.nil_append]
    rw [← List.cons_append, ih junk hjunk]
    rfl

/-- Level after level, what is left in front is the root. -/
theorem reduceLoop_eq (a : Hash) (xs left : List Hash) (hleft : left ≠ []) :
    ∃ junk, reduceLoop dblsha256 (a :: xs ++ left) (xs.length + 1) =
      some (Merkle.root (hashPair dblsha256) a xs :: junk) := by
  fun_induction Merkle.root (hashPair dblsha256) a xs generalizing left with
  | case1 a =>
    refine ⟨left, ?_⟩
    rw [reduceLoop, if_pos (by simp)]
    rfl
  | case2 a b rest ih =>
    obtain ⟨junk, hrun, hlength⟩ := nextLevel_spec dblsha256 [] [] (a :: b :: rest) rfl hleft
    have hpairs := Merkle.length_pairUp (hashPair dblsha256) rest
    have hjunk : junk ≠ [] := by
      rintro rfl
      simp only [List.length_append, List.length_cons, List.length_nil, Merkle.pairUp,
        hpairs] at hlength
      omega
    have hcount : evenCount ((b :: rest).length + 1) / 2 =
        (Merkle.pairUp (hashPair dblsha256) rest).length + 1 := by
      rw [hpairs, evenCount, List.length_cons]
      omega
    have hlevel : nextLevel dblsha256 0 (a :: b :: rest ++ left) ((b :: rest).length + 1) =
        some (hashPair dblsha256 a b :: Merkle.pairUp (hashPair dblsha256) rest ++ junk) := by
      rw [List.length_nil, Nat.mul_zero, Nat.zero_add, Merkle.pairUp] at hrun
      exact hrun
    obtain ⟨junk', hrest⟩ := ih junk hjunk
    refine ⟨junk', ?_⟩
    rw [reduceLoop, if_neg (by simp), hlevel, hcount]
    exact hrest

/-! ## The tree of the transactions -/

/-- `gen_stratum_work3` goes up the branches of a job one after another. -/
theorem merkleRoot_eq_foldl (swork : StratumWork) (branches : List Hash) :
    merkleRoot dblsha256 { swork with
      merkles := branches.length, merkleBin := branches.flatMap Vector.toList } =
        branches.foldl (hashPair dblsha256) (dblsha256 swork.coinbase) := by
  have hlinks : ∀ (branches : List Hash) (root : Hash), (List.range branches.length).foldl
      (fun root i => dblsha256
        (root.toList ++ ((branches.flatMap Vector.toList).drop (32 * i)).take 32)) root =
      branches.foldl (hashPair dblsha256) root := by
    intro branches
    induction branches with
    | nil => intro root; rfl
    | cons b rest ih =>
      intro root
      have hlen : b.toList.length = 32 := b.length_toList
      have hdrop : ∀ i, ((b.toList ++ rest.flatMap Vector.toList).drop (32 * (i + 1))) =
          (rest.flatMap Vector.toList).drop (32 * i) := fun i => by
        rw [Nat.mul_succ, Nat.add_comm, ← List.drop_drop, List.drop_left' hlen]
      rw [List.length_cons, List.range_succ_eq_map, List.foldl_cons, List.foldl_map,
        List.flatMap_cons, List.foldl_cons, ← ih]
      simp only [Nat.succ_eq_add_one, hdrop, Nat.mul_zero, List.drop_zero, List.take_left' hlen]
      rfl
  exact hlinks branches _

/-- **The branches of a template** make, with any coinbase, the root of the tree over the coinbase
and the transactions, both where the library computes it and where a job's work does.  The hashes of
the transactions are computed once, and over each other; what memory held before does not matter. -/
theorem merkleRoot_branches (room room' : Hash) (txns : List BlkTxn) :
    ∃ branches, blkmkBuildMerkleBranches dblsha256 room room' txns = some branches ∧
      branches.length = txns.length.size ∧
      (∀ cbtxn, buildMerkleRoot dblsha256 branches cbtxn =
        Merkle.root (hashPair dblsha256) (dblsha256 cbtxn)
          (txns.map (BlkTxn.id dblsha256))) ∧
      ∀ swork : StratumWork, merkleRoot dblsha256 { swork with
        merkles := branches.length, merkleBin := branches.flatMap Vector.toList } =
          Merkle.root (hashPair dblsha256) (dblsha256 swork.coinbase)
            (txns.map (BlkTxn.id dblsha256)) := by
  have hloop := branchLoop_eq dblsha256 room (txns.map (BlkTxn.id dblsha256)) [room']
    (List.cons_ne_nil _ _)
  have hlength := Merkle.length_branch (hashPair dblsha256) (txns.map (BlkTxn.id dblsha256))
  rw [List.length_map] at hloop hlength
  refine ⟨_, hloop, hlength, fun cbtxn => ?_, fun swork => ?_⟩
  · rw [buildMerkleRoot, Merkle.foldl_branch]
  · rw [merkleRoot_eq_foldl, Merkle.foldl_branch]

/-- **The root of a witness commitment** is that of the tree over a null hash and the hashes of the
transactions, and is there exactly where a commitment is needed. -/
theorem blkmkCalculateWitnessMrklroot_eq (room : Hash) (txns : List BlkTxn) :
    blkmkCalculateWitnessMrklroot dblsha256 room txns =
      some (if witnessNeeded dblsha256 txns then
        some (Merkle.root (hashPair dblsha256) Hash.zero (txns.map (BlkTxn.hash_ dblsha256)))
      else none) := by
  rw [blkmkCalculateWitnessMrklroot]
  split
  · obtain ⟨junk, hrun⟩ := reduceLoop_eq dblsha256 Hash.zero (txns.map (BlkTxn.hash_ dblsha256))
      [room] (List.cons_ne_nil _ _)
    rw [List.length_map] at hrun
    rw [hrun]
    rfl
  · rfl

/-! ## The header of a job -/

/-- **The header** of a work that is made from a job has the words of the job and the root of the
merkle tree in their places; the bytes of the root are those of the hash, after they are reversed
twice. -/
theorem header_genStratumWork3 (now : ℕ) (work : Work) (swork : StratumWork) (nonce : UInt32) :
    header (genStratumWork3 dblsha256 now work swork).data nonce =
      swap32yes swork.header1 9 ++ (merkleRoot dblsha256 swork).toList ++
        le32 (swork.ntime + UInt32.ofNat (now - swork.tvReceived)) ++ swap32yes swork.diffbits 1 ++
        be32 nonce := by
  obtain ⟨root, hroot⟩ : ∃ root, merkleRoot dblsha256 swork = root := ⟨_, rfl⟩
  obtain ⟨ntime, hntime⟩ : ∃ ntime, swork.ntime + UInt32.ofNat (now - swork.tvReceived) = ntime :=
    ⟨_, rfl⟩
  have hswap : swap32yes root (32 / 4) = swapBytes root.toList := by
    rw [swap32yes_eq_swapBytes root (by decide), List.take_of_length_le root.length_toList.le]
  have hswapLen : (swapBytes root.toList).length = 4 * 8 := by
    rw [← hswap, length_swap32yes]
  have hheader1 : swap32yes swork.header1 9 = swapBytes swork.header1.toList := by
    rw [swap32yes_eq_swapBytes _ (by decide),
      List.take_of_length_le swork.header1.length_toList.le]
  have hdiffbits : swap32yes swork.diffbits 1 = swapBytes swork.diffbits.toList := by
    rw [swap32yes_eq_swapBytes _ (by decide),
      List.take_of_length_le swork.diffbits.length_toList.le]
  have hfields : (swork.header1.toList ++ swapBytes root.toList ++ be32 ntime ++
      swork.diffbits.toList).length = 4 * 19 := by
    simp only [List.length_append, Vector.length_toList, hswapLen]
    rfl
  have hdata : (genStratumWork3 dblsha256 now work swork).data.toList.take (4 * 19) =
      swork.header1.toList ++ swapBytes root.toList ++ be32 ntime ++ swork.diffbits.toList := by
    have hroom : 0 + (swork.header1.toList ++ swapBytes root.toList ++ be32 ntime ++
        swork.diffbits.toList ++ [0, 0, 0, 0] ++ workpaddingBin).length ≤ 128 := by
      rw [List.length_append, List.length_append, hfields]
      decide
    simp only [genStratumWork3, hroot, hntime, hswap]
    rw [Bytes.toList_overwrite _ hroom, writeAt_zero, List.append_assoc _ [0, 0, 0, 0],
      List.append_assoc, List.take_left' hfields]
  rw [header, swap32yes_eq_swapBytes _ (by decide), hdata, hroot, hntime, hheader1, hdiffbits]
  have hfront : (swork.header1.toList ++ swapBytes root.toList).length = 4 * 17 := by
    rw [List.length_append, hswapLen, Vector.length_toList]
  have hmid : (swork.header1.toList ++ swapBytes root.toList ++ be32 ntime).length = 4 * 18 := by
    rw [List.length_append, hfront]
    rfl
  have hstart : swork.header1.toList.length = 4 * 9 := swork.header1.length_toList
  have hlen : root.toList.length = 4 * 8 := root.length_toList
  rw [swapBytes_append hmid, swapBytes_append hfront, swapBytes_append hstart,
    swapBytes_swapBytes hlen]
  rfl

end

end MassGridMiner

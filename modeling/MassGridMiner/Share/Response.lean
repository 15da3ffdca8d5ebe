import MassGridMiner.Stratum.Json
import MassGridMiner.Work

/-!
# Answers to submitted shares

A share that has been sent waits in `stratum_shares` for its answer.  The table is one
for all pools, and its ids come from one counter.  `parse_stratum_response` looks an
answer up by its id, as an `int`, and by nothing else; `answersOwn_iff` says exactly
when the answer it finds is the right one.

## Main definitions

* `Share`, `StratumShare` — a share, and a share that waits under an id.
* `parseStratumResponse` — the handling of one line, given its JSON value.
* `AnswersOwn` — the line resolves at most the share of this pool with this id.
-/

namespace MassGridMiner

/-- The part of a work that the share pipeline reads.  `ident` tells one share from
another; the copies of one share carry the same. -/
structure Share where
  ident : ℕ
  pool : ℕ
  nonce1 : CStr
  thrId : ℕ
  hash : Hash
  target : Hash
  deriving DecidableEq

/-- `struct stratum_share`. -/
structure StratumShare where
  id : Int32
  work : Share
  deriving DecidableEq

/-- What an answer makes of a share. -/
inductive ShareResult
  | accepted
  | ignored
  | rejected
  deriving DecidableEq, Repr

/-- `share_result`: a share that missed its own target is not counted as rejected. -/
def shareResult (res err : Option Json) (work : Share) : ShareResult :=
  if jsonIsNone err && (jsonIsNull res || jsonIsTrue res) then .accepted
  else if !hashTargetCheck work.hash work.target then .ignored
  else .rejected

/-- What the handling of a line does: the table it leaves, the share it takes from it and
the result given to that share, the result counted for the pool alone when there is no
such share, and the value returned. -/
structure Handled where
  shares : List StratumShare
  removed : Option (StratumShare × ShareResult)
  untracked : Option ShareResult
  ret : Bool

/-- A line that changes nothing. -/
def Handled.nothing (shares : List StratumShare) (ret : Bool) : Handled where
  shares := shares
  removed := none
  untracked := none
  ret := ret

/-- `HASH_FIND_INT`.  The table lists its entries from the newest on. -/
def hashFindInt (shares : List StratumShare) (id : Int32) : Option StratumShare :=
  shares.find? fun sshare => sshare.id = id

/-- `HASH_DEL` of the entry that `HASH_FIND_INT` found. -/
def hashDel (shares : List StratumShare) (id : Int32) : List StratumShare :=
  shares.eraseP fun sshare => sshare.id = id

/-- The id of a transaction list that was asked for. -/
def isTxlistId : Option Json → Bool
  | some (.string s) => [116, 120, 108, 105, 115, 116].isPrefixOf s.bytes
  | _ => false

/-- `parse_stratum_response` on the JSON value of a line, if it has one.  A transaction
list only tells whether the pool hides its transactions, which is left out. -/
def parseStratumResponse (shares : List StratumShare) (val : Option Json) : Handled :=
  match val with
  | none => .nothing shares false
  | some val =>
    let resVal := val.get "result"
    let errVal := val.get "error"
    match val.get "id" with
    | some (.integer n) =>
      let id := Int32.ofInt n
      match hashFindInt shares id with
      | none => { Handled.nothing shares false with
          untracked := some (if jsonIsTrue resVal then .accepted else .rejected) }
      | some sshare =>
        { shares := hashDel shares id
          removed := some (sshare, shareResult resVal errVal sshare.work)
          untracked := none
          ret := true }
    | idVal => .nothing shares (isTxlistId idVal)

/-- The JSON id of a line, where it is an integer. -/
def lineId (val : Option Json) : Option ℤ :=
  match val.bind (·.get "id") with
  | some (.integer n) => some n
  | _ => none

/-- An entry is the one that an answer of `pool` with this id is about. -/
def StratumShare.IsAnsweredBy (sshare : StratumShare) (pool : ℕ) (id : Option ℤ) : Prop :=
  sshare.work.pool = pool ∧ id = some sshare.id.toInt

/-- A line of `pool` takes from the table, and counts, at most a share of that pool whose
id is the JSON id, and leaves the table alone where there is none. -/
structure AnswersOwn (pool : ℕ) (val : Option Json) (shares : List StratumShare) : Prop where
  removed : ∀ sshare res, (parseStratumResponse shares val).removed = some (sshare, res) →
    sshare.IsAnsweredBy pool (lineId val)
  taken : ∀ sshare, (parseStratumResponse shares val).shares.count sshare < shares.count sshare →
    sshare.IsAnsweredBy pool (lineId val)
  unchanged : (∀ sshare ∈ shares, ¬ sshare.IsAnsweredBy pool (lineId val)) →
    (parseStratumResponse shares val).shares = shares

/-- The entry found under a JSON id reduced to `int`, if there is one, belongs to this
pool and carries that id unreduced. -/
def FindsOwn (pool : ℕ) (val : Option Json) (shares : List StratumShare) : Prop :=
  ∀ n, lineId val = some n → ∀ sshare, hashFindInt shares (Int32.ofInt n) = some sshare →
    sshare.work.pool = pool ∧ sshare.id.toInt = n

/-- What a line with an integer id does. -/
theorem parseStratumResponse_of_lineId {val : Option Json} {n : ℤ} (H : lineId val = some n)
    (shares : List StratumShare) :
    (hashFindInt shares (Int32.ofInt n) = none ∧
        (parseStratumResponse shares val).shares = shares ∧
        (parseStratumResponse shares val).removed = none) ∨
      ∃ sshare res, hashFindInt shares (Int32.ofInt n) = some sshare ∧
        (parseStratumResponse shares val).shares = hashDel shares (Int32.ofInt n) ∧
        (parseStratumResponse shares val).removed = some (sshare, res) := by
  cases val with
  | none => simp [lineId] at H
  | some val =>
      have hid : val.get "id" = some (.integer n) := by
        simp only [lineId, Option.bind_some] at H
        split at H
        · rename_i hid
          rw [hid, Option.some.inj H]
        · simp at H
      cases hfind : hashFindInt shares (Int32.ofInt n) with
      | none => exact .inl ⟨rfl, by simp [parseStratumResponse, hid, hfind, Handled.nothing]⟩
      | some sshare =>
          exact .inr ⟨sshare, shareResult (val.get "result") (val.get "error") sshare.work, rfl,
            by simp [parseStratumResponse, hid, hfind]⟩

/-- A line without an integer id does nothing to the table. -/
theorem parseStratumResponse_of_lineId_none {val : Option Json} (H : lineId val = none)
    (shares : List StratumShare) :
    (parseStratumResponse shares val).shares = shares ∧
      (parseStratumResponse shares val).removed = none := by
  cases val with
  | none => exact ⟨rfl, rfl⟩
  | some val =>
      simp only [lineId, Option.bind_some] at H
      simp only [parseStratumResponse]
      split
      · rename_i n hid
        simp [hid] at H
      · exact ⟨rfl, rfl⟩

theorem hashFindInt_mem {shares : List StratumShare} {id : Int32} {sshare : StratumShare}
    (H : hashFindInt shares id = some sshare) : sshare ∈ shares ∧ sshare.id = id :=
  ⟨List.mem_of_find?_eq_some H, by simpa using List.find?_some H⟩

/-- Deleting a found entry removes one occurrence of it, and nothing else. -/
theorem perm_cons_hashDel {shares : List StratumShare} {id : Int32} {sshare : StratumShare}
    (H : hashFindInt shares id = some sshare) :
    shares.Perm (sshare :: hashDel shares id) := by
  induction shares with
  | nil => simp [hashFindInt] at H
  | cons s rest ih =>
      by_cases hs : s.id = id
      · obtain rfl : s = sshare := by simpa [hashFindInt, hs] using H
        simp [hashDel, hs]
      · have hrest : hashFindInt rest id = some sshare := by simpa [hashFindInt, hs] using H
        have hdel : hashDel (s :: rest) id = s :: hashDel rest id := by simp [hashDel, hs]
        rw [hdel]
        exact ((ih hrest).cons s).trans (.swap ..)

/-- **An answer resolves the right share exactly where the one found is the right one.** -/
theorem answersOwn_iff_findsOwn (pool : ℕ) (val : Option Json) (shares : List StratumShare) :
    AnswersOwn pool val shares ↔ FindsOwn pool val shares := by
  constructor
  · intro H n hn sshare hfind
    rcases parseStratumResponse_of_lineId hn shares with ⟨hnone, -, -⟩ | ⟨s, res, hs, -, hrem⟩
    · rw [hnone] at hfind
      cases hfind
    · obtain rfl : s = sshare := by rwa [hs, Option.some.injEq] at hfind
      obtain ⟨hpool, hid⟩ := H.removed s res hrem
      rw [hn, Option.some.injEq] at hid
      exact ⟨hpool, hid.symm⟩
  · intro H
    cases hline : lineId val with
    | none =>
        obtain ⟨hshares, hrem⟩ := parseStratumResponse_of_lineId_none hline shares
        exact ⟨by simp [hrem], by simp [hshares], fun _ => hshares⟩
    | some n =>
        rcases parseStratumResponse_of_lineId hline shares with
          ⟨-, hshares, hrem⟩ | ⟨s, res, hs, hshares, hrem⟩
        · exact ⟨by simp [hrem], by simp [hshares], fun _ => hshares⟩
        · obtain ⟨hpool, hid⟩ := H n hline s hs
          have hown : s.IsAnsweredBy pool (lineId val) := ⟨hpool, by rw [hline, hid]⟩
          refine ⟨?_, ?_, ?_⟩
          · intro sshare r hr
            rw [hrem, Option.some.injEq, Prod.mk.injEq] at hr
            exact hr.1 ▸ hown
          · intro sshare hcount
            rw [hshares, (perm_cons_hashDel hs).count_eq, List.count_cons] at hcount
            by_cases heq : s = sshare
            · exact heq ▸ hown
            · simp [heq] at hcount
          · intro hnone
            exact absurd hown (hnone s (hashFindInt_mem hs).1)

end MassGridMiner

import MassGridMiner.JumpHash
import MassGridMiner.Lib.Varint
import MassGridMiner.Stratum.Job

/-!
# Installing a job from a template

`work_decode` takes a job for local work generation from a block template.  The template
library appends room for an extranonce to the script of the coinbase, inserts a witness
commitment where one is needed, and says at which offset the extranonce goes.

## Main definitions

* `BlockTemplate`, `Gentx` — what the library reads of a template.
* `blkmkAppendCb`, `blkmkInsertWitnessCommitment`, `blkmkGetMdata` — the library's
  functions.
* `installTemplate` — the job that `work_decode` installs.
-/

namespace MassGridMiner

/-- `GBT_XNONCESZ`. -/
def gbtXnoncesz : ℕ := 4

/-- `cbScriptSigLen`, where the length of the input script is. -/
def cbScriptSigLen : ℕ := 41

/-- The length that a coinbase announces for its input script. -/
def scriptSigLen (gentx : List UInt8) : ℕ := (gentx[cbScriptSigLen]?.getD 0).toNat

/-- The coinbase of a template.  It holds the script it announces: the library copies what
follows the script, and would read behind a shorter one. -/
structure Gentx where
  data : List UInt8
  holds : cbScriptSigLen + 1 + scriptSigLen data ≤ data.length

/-- What `blkmk_get_mdata` reads of a template: whether time is left and the coinbase may be
changed, whether the limits leave room for so many bytes more, the root that a witness
commitment is for, where one is needed and where it cannot be computed, the header up to
its nonce, and the branches of the merkle tree. -/
structure BlockTemplate where
  usable : Bool
  gentx : Gentx
  roomFor : ℕ → Bool
  commitment : Option (Option (Bytes 32))
  header : Bytes 80
  branches : List Hash

/-- `_blkmk_append_cb`, for zero bytes: the new coinbase, and where they are in it. -/
def blkmkAppendCb (tmpl : BlockTemplate) (appendsz : ℕ) : Option (List UInt8 × ℕ) :=
  let data := tmpl.gentx.data
  let post := cbScriptSigLen + 1 + scriptSigLen data
  if appendsz > 100 || scriptSigLen data > 100 - appendsz || !tmpl.roomFor appendsz then none
  else some ((data.set cbScriptSigLen
      (data[cbScriptSigLen]?.getD 0 + UInt8.ofNat appendsz)).take post ++
    List.replicate appendsz 0 ++ data.drop post, post)

/-- The output with the commitment: no value, and a script of 38 bytes. -/
def commitmentTxout (commitment : Bytes 32) : List UInt8 :=
  List.replicate 8 0 ++ [38, 0x6a, 0x24, 0xaa, 0x21, 0xa9, 0xed] ++ commitment.toList

/-- `_blkmk_insert_witness_commitment`: the number of outputs is written anew, and the
output goes in front of the last four bytes. -/
def blkmkInsertWitnessCommitment (commitment : Option (Option (Bytes 32)))
    (gentx : List UInt8) : Option (List UInt8) :=
  match commitment with
  | none => none
  | some none => some gentx
  | some (some commitment) =>
    let txoutCount := cbScriptSigLen + scriptSigLen gentx + 1 + 4
    if cbScriptSigLen ≥ gentx.length || txoutCount ≥ gentx.length then none
    else
      match decodeVarint (gentx.drop txoutCount) with
      | none => none
      | some (sz, count) =>
        some (gentx.take txoutCount ++ encodeVarint ((count + 1) % 2 ^ 64) ++
          (gentx.drop (txoutCount + sz)).take (gentx.length - 4 - (txoutCount + sz)) ++
          commitmentTxout commitment ++ gentx.drop (gentx.length - 4))

/-- What `blkmk_get_mdata` returns. -/
structure Mdata where
  header : Bytes 80
  cbtxn : List UInt8
  cbextranonceoffset : ℕ
  branches : List Hash

/-- `blkmk_get_mdata`. -/
def blkmkGetMdata (tmpl : BlockTemplate) (extranoncesz : ℕ) : Option Mdata :=
  if !tmpl.usable then none
  else
    let extranoncesz := if extranoncesz = 4 then extranoncesz + 1 else extranoncesz
    let scriptLen := scriptSigLen tmpl.gentx.data
    let extranoncesz := if scriptLen + extranoncesz < 4 then 4 - scriptLen else extranoncesz
    match blkmkAppendCb tmpl extranoncesz with
    | none => none
    | some (cbtxn, offset) =>
      (blkmkInsertWitnessCommitment tmpl.commitment cbtxn).map fun cbtxn =>
        { header := tmpl.header, cbtxn, cbextranonceoffset := offset, branches := tmpl.branches }

/-- The part of `work_decode` that installs a job, at time `now`, for a work with a target. -/
def installTemplate (now : ℕ) (target : Hash) (pool : StratumPool) (tmpl : BlockTemplate) :
    Option StratumPool :=
  (blkmkGetMdata tmpl gbtXnoncesz).map fun mdata =>
    { pool with
      swork := { pool.swork with
        jobId := none
        clean := true
        coinbase := mdata.cbtxn
        nonce2Offset := mdata.cbextranonceoffset
        n2size := gbtXnoncesz
        merkles := mdata.branches.length
        merkleBin := mdata.branches.flatMap Vector.toList
        header1 := pool.swork.header1.overwrite 0 (swap32yes mdata.header (36 / 4))
        ntime := UInt32.ofNat (mdata.header.word32 17)
        tvReceived := now
        diffbits := Vector.ofFn fun i => mdata.header[75 - i.val]
        target := target }
      nonce2sz := gbtXnoncesz
      nonce2 := 0 }

/-! ## The room for the extranonce -/

/-- The appended bytes lie inside the coinbase, and its script ends behind them. -/
theorem blkmkAppendCb_spec {tmpl : BlockTemplate} {appendsz offset : ℕ} {cbtxn : List UInt8}
    (H : blkmkAppendCb tmpl appendsz = some (cbtxn, offset)) :
    offset + appendsz ≤ cbtxn.length ∧
      offset + appendsz = cbScriptSigLen + 1 + scriptSigLen cbtxn := by
  rw [blkmkAppendCb] at H
  split at H
  next => cases H
  next hroom =>
    simp only [Bool.or_eq_true, decide_eq_true_eq, not_or, not_lt] at hroom
    obtain ⟨⟨hsize, hscript⟩, -⟩ := hroom
    obtain ⟨hcbtxn, hoffset⟩ := Prod.mk.inj (Option.some.inj H)
    have hholds := tmpl.gentx.holds
    rw [cbScriptSigLen] at hholds
    have hlen : ((tmpl.gentx.data.set cbScriptSigLen (tmpl.gentx.data[cbScriptSigLen]?.getD 0 +
        UInt8.ofNat appendsz)).take (cbScriptSigLen + 1 + scriptSigLen tmpl.gentx.data)).length =
        cbScriptSigLen + 1 + scriptSigLen tmpl.gentx.data := by
      rw [List.length_take, List.length_set, cbScriptSigLen]
      omega
    have hsigLen : scriptSigLen cbtxn = scriptSigLen tmpl.gentx.data + appendsz := by
      rw [← hcbtxn, scriptSigLen, List.append_assoc, List.getElem?_append_left (by omega),
        List.getElem?_take_of_lt (by omega), List.getElem?_set_self (by rw [cbScriptSigLen]; omega),
        Option.getD_some, UInt8.toNat_add, UInt8.toNat_ofNat']
      have hold : (tmpl.gentx.data[cbScriptSigLen]?.getD 0).toNat =
        scriptSigLen tmpl.gentx.data := rfl
      omega
    constructor
    · rw [← hcbtxn, List.length_append, List.length_append, hlen, List.length_replicate]
      omega
    · rw [hsigLen]
      omega

/-- A commitment goes behind the script. -/
theorem blkmkInsertWitnessCommitment_le {commitment : Option (Option (Bytes 32))}
    {gentx cbtxn : List UInt8} (H : blkmkInsertWitnessCommitment commitment gentx = some cbtxn)
    (hholds : cbScriptSigLen + 1 + scriptSigLen gentx ≤ gentx.length) :
    cbScriptSigLen + 1 + scriptSigLen gentx ≤ cbtxn.length := by
  rcases commitment with _ | _ | commitment
  · cases H
  · obtain rfl := Option.some.inj H
    exact hholds
  · simp only [blkmkInsertWitnessCommitment] at H
    split at H
    next => cases H
    next hcount =>
      simp only [Bool.or_eq_true, decide_eq_true_eq, not_or, not_le] at hcount
      split at H
      next => cases H
      next sz count _ =>
        rw [← Option.some.inj H]
        simp only [List.length_append, List.length_take]
        omega

/-- **The extranonce of a template lies inside its coinbase.** -/
theorem blkmkGetMdata_fits {tmpl : BlockTemplate} {mdata : Mdata}
    (H : blkmkGetMdata tmpl gbtXnoncesz = some mdata) :
    mdata.cbextranonceoffset + gbtXnoncesz ≤ mdata.cbtxn.length := by
  rw [blkmkGetMdata] at H
  split at H
  next => cases H
  next =>
    simp only [gbtXnoncesz, if_true, show ¬ scriptSigLen tmpl.gentx.data + (4 + 1) < 4 by omega,
      if_false] at H
    split at H
    next => cases H
    next cbtxn offset happend =>
      obtain ⟨hle, hends⟩ := blkmkAppendCb_spec happend
      obtain ⟨cbtxn', hinsert, rfl⟩ := Option.map_eq_some_iff.mp H
      have hlen := blkmkInsertWitnessCommitment_le hinsert (by omega)
      simp only [gbtXnoncesz]
      omega

end MassGridMiner

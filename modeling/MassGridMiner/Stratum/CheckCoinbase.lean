import MassGridMiner.Stratum.CoinbaseOutputs

/-!
# The check of a pool's coinbase

`check_coinbase` walks over the outputs of a coinbase that a pool made, with positions and
sums that wrap at 64 bits, and with amounts that are read at a position reduced to an `int`.
Where none of this happens it is the walk over the natural numbers; where it does, the
script of an output that claims to be almost 2^64 bytes long passes the test of its length.

## Main definitions

* `checkCoinbase` — the function of the source, with every read checked.
* `ChecksCoinbase` — the reads are within the coinbase, and only a good coinbase passes.
* `WalkFits`, `CoinbaseFits` — no position on the way overflows, and no amount is misread.
-/

namespace MassGridMiner

/-- A coinbase in memory. -/
structure CoinbaseTxn where
  bytes : List UInt8
  length_lt : bytes.length < 2 ^ 63

/-- `struct coinbase_param`; `scripts` are the keys of its table, and the debug output alone
looks at `testnet`. -/
structure CoinbaseParam where
  scripts : List (List UInt8)
  total : Int64
  perc : Float32

/-- How the check ends where it does not return true: with false, or with a read that is
not within the coinbase. -/
inductive CbStop
  | rejected
  | outOfBounds
  deriving DecidableEq, Repr

/-- A sum in a 64-bit type. -/
def add64 (a b : ℕ) : ℕ := (a + b) % 2 ^ 64

/-- The bytes of a range. -/
def readRange (bytes : List UInt8) (pos len : ℕ) : Except CbStop (List UInt8) :=
  if pos + len ≤ bytes.length then .ok ((bytes.drop pos).take len) else .error .outOfBounds

/-- The offset that a position becomes where it is passed as an `int`. -/
def intOffset (pos : ℕ) : ℤ := (pos : ℤ).bmod (2 ^ 32)

/-- The offset is not negative, and those of the seven bytes behind it are an `int`. -/
def OffsetFits (pos : ℕ) : Prop := 0 ≤ intOffset pos ∧ intOffset pos + 7 < 2 ^ 31

instance (pos : ℕ) : Decidable (OffsetFits pos) := inferInstanceAs (Decidable (_ ∧ _))

/-- `upk_u64le`. -/
def upkU64le (bytes : List UInt8) (pos : ℕ) : Except CbStop ℕ :=
  if OffsetFits pos then leNat <$> readRange bytes (intOffset pos).toNat 8
  else .error .outOfBounds

/-- `varint_decode` of the bytes from a position on, given how many there are. -/
def varintDecode (bytes : List UInt8) (pos size : ℕ) : Except CbStop (ℕ × ℕ) :=
  if size = 0 then .ok (0, 0)
  else do
    let p0 := leNat (← readRange bytes pos 1)
    if size > 8 ∧ p0 = 0xff then return (9, leNat (← readRange bytes (pos + 1) 8))
    if size > 4 ∧ p0 = 0xfe then return (5, leNat (← readRange bytes (pos + 1) 4))
    if size > 2 ∧ p0 = 0xfd then return (3, leNat (← readRange bytes (pos + 1) 2))
    if p0 ≤ 0xfc then return (1, p0)
    return (0, 0)

/-- The variables of the loop over the outputs. -/
structure CbState where
  pos : ℕ
  total : ℕ
  target : ℕ
  foundTarget : Bool
  deriving DecidableEq, Repr

/-- The variables after an output that ends at `next`. -/
def CbState.addOutput (st : CbState) (scripts : List (List UInt8)) (amount : ℕ)
    (script : List UInt8) (next : ℕ) : CbState where
  pos := next
  total := add64 st.total amount
  target := if scripts.contains script then add64 st.target amount else st.target
  foundTarget := scripts.contains script || st.foundTarget

/-- The body of the loop over the outputs. -/
def checkOutput (bytes : List UInt8) (scripts : List (List UInt8)) (st : CbState) :
    Except CbStop CbState :=
  if bytes.length ≤ add64 st.pos 8 then .error .rejected
  else do
    let amount ← upkU64le bytes st.pos
    let pos := add64 st.pos 8
    let (i, len) ← varintDecode bytes pos (bytes.length - pos)
    if i = 0 ∨ bytes.length ≤ add64 (add64 pos i) len then .error .rejected
    else
      let pos := add64 pos i
      let script ← readRange bytes pos len
      return st.addOutput scripts amount script (add64 pos len)

/-- The loop over so many outputs. -/
def checkOutputs (bytes : List UInt8) (scripts : List (List UInt8)) :
    ℕ → CbState → Except CbStop CbState
  | 0, st => .ok st
  | len + 1, st => (checkOutput bytes scripts st).bind (checkOutputs bytes scripts len)

/-- The checks before the loop: where the outputs start, and how many there are. -/
def checkInput (bytes : List UInt8) : Except CbStop (ℕ × ℕ) :=
  if bytes.length < 62 then .error .rejected
  else do
    let inputs := leNat (← readRange bytes 4 1)
    if inputs ≠ 1 then .error .rejected
    else
      let sigLen := leNat (← readRange bytes 41 1)
      if sigLen < 2 ∨ sigLen > 100 then .error .rejected
      else
        let pos := 41 + (1 + sigLen + 4)
        if bytes.length ≤ pos then .error .rejected
        else
          let (i, len) ← varintDecode bytes pos (bytes.length - pos)
          if i = 0 then .error .rejected else return (pos + i, len)

/-- `(float)((double)target / total) >= perc` does not hold though `perc` asks for it. -/
def percFails (param : CoinbaseParam) (st : CbState) : Bool :=
  param.perc != 0 && !(st.total != 0 &&
    decide ((Float.ofNat st.target / Float.ofNat st.total).toFloat32 ≥ param.perc))

/-- `check_coinbase`: it returns true where this is `.ok`. -/
def checkCoinbase (bytes : List UInt8) (param : CoinbaseParam) : Except CbStop Unit := do
  let (pos, len) ← checkInput bytes
  let st ← checkOutputs bytes param.scripts len ⟨pos, 0, 0, false⟩
  if st.total < param.total.toUInt64.toNat then .error .rejected
  else if param.scripts ≠ [] ∧ (percFails param st ∨ ¬ st.foundTarget) then .error .rejected
  else if bytes.length < st.pos + 4 then .error .rejected
  else .ok ()

/-- No position overflows in the step at a position: its offset is an `int`, and if the end
of the script wraps, it does not wrap to somewhere in the coinbase. -/
def StepFits (bytes : List UInt8) (pos : ℕ) : Prop :=
  bytes.length ≤ pos + 8 ∨ OffsetFits pos ∧
    ∀ v ∈ outputScript bytes pos, 2 ^ 64 ≤ v.1 + v.2 → bytes.length ≤ v.1 + v.2 - 2 ^ 64

instance (bytes : List UInt8) (pos : ℕ) : Decidable (StepFits bytes pos) :=
  inferInstanceAs (Decidable (_ ∨ _))

/-- No position overflows on the way over so many outputs. -/
def WalkFits (bytes : List UInt8) : ℕ → ℕ → Prop
  | 0, _ => True
  | n + 1, pos => StepFits bytes pos ∧ ∀ out ∈ readOutput bytes pos, WalkFits bytes n out.2

instance decidableWalkFits (bytes : List UInt8) : (n pos : ℕ) → Decidable (WalkFits bytes n pos)
  | 0, _ => isTrue trivial
  | n + 1, _ =>
    have := decidableWalkFits bytes n
    inferInstanceAs (Decidable (_ ∧ _))

/-- Every read is within the coinbase, and a coinbase that passes is one with the total and
with a script that were asked for.  The loop ends, as it counts down. -/
structure ChecksCoinbase (cb : CoinbaseTxn) (param : CoinbaseParam) : Prop where
  inBounds : checkCoinbase cb.bytes param ≠ .error .outOfBounds
  sound : checkCoinbase cb.bytes param = .ok () → ∃ outs, IsCoinbase cb.bytes outs ∧
    param.total.toInt ≤ (outs.map Output.amount).sum ∧
      (param.scripts ≠ [] → ∃ out ∈ outs, out.script ∈ param.scripts)

/-- The amount that is read for an output at a position. -/
def seenAmount (bytes : List UInt8) (pos : ℕ) : ℕ :=
  leNat ((bytes.drop (intOffset pos).toNat).take 8)

/-- The sum of the amounts that are read for some outputs. -/
def seenTotal (bytes : List UInt8) (outs : List (ℕ × Output)) : ℕ :=
  (outs.map fun out => seenAmount bytes out.1).sum

/-- One of the outputs has one of the scripts. -/
def hasScript (scripts : List (List UInt8)) (outs : List (ℕ × Output)) : Bool :=
  outs.any fun out => scripts.contains out.2.script

/-- The walk over the outputs does not overflow, and if the amounts read come to the total
asked for, then so do the amounts of the outputs. -/
structure CoinbaseFits (cb : CoinbaseTxn) (param : CoinbaseParam) : Prop where
  walk : 62 ≤ cb.bytes.length → ∀ pos n, outputsStart cb.bytes = some (pos, n) →
    WalkFits cb.bytes n pos
  total : 62 ≤ cb.bytes.length → ∀ outs, coinbaseOutputs cb.bytes = some outs →
    (param.scripts ≠ [] → hasScript param.scripts outs = true) →
      param.total.toUInt64.toNat ≤ seenTotal cb.bytes outs % 2 ^ 64 →
        param.total.toInt ≤ (outs.map fun out => out.2.amount).sum

/-! ### One step of the check -/

theorem readRange_eq {bytes : List UInt8} {pos len : ℕ} (H : pos + len ≤ bytes.length) :
    readRange bytes pos len = .ok ((bytes.drop pos).take len) := if_pos H

/-- `varint_decode` of all the bytes from a position on; zero stands for a failure. -/
theorem varintDecode_eq {bytes : List UInt8} {pos : ℕ} (Hpos : pos ≤ bytes.length) :
    varintDecode bytes pos (bytes.length - pos) =
      .ok ((decodeVarint (bytes.drop pos)).getD (0, 0)) := by
  rcases hrest : bytes.drop pos with _ | ⟨mark, rest⟩
  · have hsize : bytes.length - pos = 0 := by rw [← List.length_drop, hrest]; rfl
    rw [hsize]
    rfl
  · have hsize : bytes.length - pos = rest.length + 1 := by
      rw [← List.length_drop, hrest]
      rfl
    have hread : readRange bytes pos 1 = .ok [mark] := by
      rw [readRange_eq (by omega), hrest]
      rfl
    have hwide : ∀ k ≤ rest.length, readRange bytes (pos + 1) k = .ok (rest.take k) := by
      intro k hk
      rw [readRange_eq (by omega), ← List.drop_drop, hrest]
      rfl
    have hmark : leNat [mark] = mark.toNat := by simp [leNat]
    have hcases : mark = 0xff ∨ mark = 0xfe ∨ mark = 0xfd ∨ mark.toNat ≤ 0xfc := by
      simp only [← UInt8.toNat_inj, UInt8.reduceToNat]
      have := mark.toNat_lt
      omega
    rw [hsize, varintDecode, if_neg (Nat.succ_ne_zero _), hread]
    simp only [bind, Except.bind, pure, Except.pure, hmark]
    rcases hcases with rfl | rfl | rfl | hshort
    · by_cases hlen : 8 < rest.length + 1
      · have hle : 8 ≤ rest.length := Nat.le_of_lt_succ hlen
        simp [decodeVarint, varintWidth, hwide 8 hle, hlen, hle]
      · simp [decodeVarint, varintWidth, hlen, show ¬ 8 ≤ rest.length by omega]
    · by_cases hlen : 4 < rest.length + 1
      · have hle : 4 ≤ rest.length := Nat.le_of_lt_succ hlen
        simp [decodeVarint, varintWidth, hwide 4 hle, hlen, hle]
      · simp [decodeVarint, varintWidth, hlen, show ¬ 4 ≤ rest.length by omega]
    · by_cases hlen : 2 < rest.length + 1
      · have hle : 2 ≤ rest.length := Nat.le_of_lt_succ hlen
        simp [decodeVarint, varintWidth, hwide 2 hle, hlen, hle]
      · simp [decodeVarint, varintWidth, hlen, show ¬ 2 ≤ rest.length by omega]
    · have hwidth : varintWidth mark = 0 := by
        rw [varintWidth]
        split_ifs with h8 h4 h2 <;> simp_all
      rw [if_neg (by omega), if_neg (by omega), if_neg (by omega), if_pos hshort, decodeVarint,
        if_pos hwidth]
      rfl


theorem intOffset_toNat_le {pos : ℕ} (H : OffsetFits pos) : (intOffset pos).toNat ≤ pos := by
  have hbmod := Int.bmod_def (pos : ℤ) (2 ^ 32)
  have hnonneg := H.1
  unfold intOffset at hnonneg ⊢
  split_ifs at hbmod <;> omega

/-- In the first two gigabytes a position is the offset it becomes. -/
theorem offsetFits_of_lt {pos : ℕ} (H : pos + 7 < 2 ^ 31) :
    OffsetFits pos ∧ (intOffset pos).toNat = pos := by
  have hoffset : intOffset pos = pos := Int.bmod_eq_of_le (by omega) (by omega)
  rw [OffsetFits]
  rw [hoffset]
  omega

theorem upkU64le_eq {bytes : List UInt8} {pos : ℕ} (Hpos : pos + 8 ≤ bytes.length)
    (H : OffsetFits pos) : upkU64le bytes pos = .ok (seenAmount bytes pos) := by
  have hle := intOffset_toNat_le H
  rw [upkU64le, if_pos H, readRange_eq (by omega)]
  rfl

theorem add64_eq {a b : ℕ} (H : a + b < 2 ^ 64) : add64 a b = a + b := Nat.mod_eq_of_lt H

section

variable {bytes : List UInt8} (Hlen : bytes.length < 2 ^ 63) {scripts : List (List UInt8)}
  {st : CbState}

include Hlen

theorem checkOutput_of_short (Hpos : st.pos ≤ bytes.length) (H : bytes.length ≤ st.pos + 8) :
    checkOutput bytes scripts st = .error .rejected := by
  rw [checkOutput, add64_eq (by omega), if_pos H]

theorem checkOutput_of_offset (Hpos : st.pos + 8 < bytes.length) (H : ¬ OffsetFits st.pos) :
    checkOutput bytes scripts st = .error .outOfBounds := by
  rw [checkOutput, add64_eq (by omega), if_neg (by omega), upkU64le, if_neg H]
  rfl

/-- Past the amount, the length of the script decides. -/
theorem checkOutput_eq (Hpos : st.pos + 8 < bytes.length) (H : OffsetFits st.pos) :
    checkOutput bytes scripts st =
      match outputScript bytes st.pos with
      | none => .error .rejected
      | some (start, len) =>
        if bytes.length ≤ (start + len) % 2 ^ 64 then .error .rejected
        else do
          let script ← readRange bytes start len
          return st.addOutput scripts (seenAmount bytes st.pos) script
            ((start + len) % 2 ^ 64) := by
  rw [checkOutput, add64_eq (by omega), if_neg (by omega), upkU64le_eq (by omega) H, outputScript,
    if_neg (by omega)]
  simp only [bind, Except.bind]
  rw [varintDecode_eq (by omega)]
  rcases hdecode : decodeVarint (bytes.drop (st.pos + 8)) with _ | ⟨i, len⟩
  · rfl
  · obtain ⟨hle, hvarint⟩ := isVarint_of_decodeVarint hdecode
    rw [List.length_drop] at hle
    have hi : i ≠ 0 := by
      rintro rfl
      simpa using hvarint.length_pos
    simp only [Option.getD_some, hi, false_or, Option.map_some]
    have hstart : add64 (st.pos + 8) i = st.pos + 8 + i := add64_eq (by omega)
    rw [hstart]
    rfl

/-- A step that fits finds the output that is there. -/
theorem checkOutput_of_some {out : Output} {next : ℕ} (Hfits : StepFits bytes st.pos)
    (H : readOutput bytes st.pos = some (out, next)) :
    checkOutput bytes scripts st =
      .ok (st.addOutput scripts (seenAmount bytes st.pos) out.script next) := by
  obtain ⟨⟨start, len⟩, hscript, hout⟩ := Option.bind_eq_some_iff.mp H
  dsimp only at hout
  split_ifs at hout with hend
  cases hout
  obtain ⟨hroom, _, _, _, hle, _⟩ := outputScript_eq_some hscript
  have hoffset : OffsetFits st.pos := (Hfits.resolve_left (by omega)).1
  have hmod : (start + len) % 2 ^ 64 = start + len := Nat.mod_eq_of_lt (by omega)
  rw [checkOutput_eq Hlen hroom hoffset, hscript]
  dsimp only
  rw [hmod, if_neg hend, readRange_eq (by omega)]
  rfl

/-- A step that fits is refused where there is no output. -/
theorem checkOutput_of_none (Hpos : st.pos ≤ bytes.length) (Hfits : StepFits bytes st.pos)
    (H : readOutput bytes st.pos = none) :
    checkOutput bytes scripts st = .error .rejected := by
  rcases Hfits with hshort | ⟨hoffset, hwrap⟩
  · exact checkOutput_of_short Hlen Hpos hshort
  by_cases hroom : bytes.length ≤ st.pos + 8
  · exact checkOutput_of_short Hlen Hpos hroom
  rw [checkOutput_eq Hlen (by omega) hoffset]
  rcases hscript : outputScript bytes st.pos with _ | ⟨start, len⟩
  · rfl
  · have hend : bytes.length ≤ start + len := by
      by_contra hin
      rw [readOutput, hscript, Option.bind_some] at H
      simp [hin] at H
    have hwrap : 2 ^ 64 ≤ start + len → bytes.length ≤ start + len - 2 ^ 64 := hwrap _ hscript
    obtain ⟨_, v, hvarint, _, hle, _⟩ := outputScript_eq_some hscript
    have hlen := hvarint.lt
    dsimp only
    rw [if_pos (by omega)]

/-- A step that does not fit reads outside the coinbase. -/
theorem checkOutput_of_not_fits (H : ¬ StepFits bytes st.pos) :
    checkOutput bytes scripts st = .error .outOfBounds := by
  obtain ⟨hroom, hstep⟩ := not_or.mp H
  rw [not_le] at hroom
  by_cases hoffset : OffsetFits st.pos
  · simp only [hoffset, true_and, not_forall] at hstep
    obtain ⟨⟨start, len⟩, hscript, hwrap, hin⟩ := hstep
    obtain ⟨_, v, hvarint, _, hle, _⟩ := outputScript_eq_some hscript
    have hlen := hvarint.lt
    rw [checkOutput_eq Hlen hroom hoffset, hscript]
    dsimp only at hwrap hin ⊢
    rw [if_neg (by omega), readRange, if_neg (by omega)]
    rfl
  · exact checkOutput_of_offset Hlen hroom hoffset

/-! ### The whole check -/

/-- **A walk that does not fit reads outside the coinbase.** -/
theorem checkOutputs_of_not_fits {n : ℕ} (H : ¬ WalkFits bytes n st.pos) :
    checkOutputs bytes scripts n st = .error .outOfBounds := by
  induction n generalizing st with
  | zero => exact absurd trivial H
  | succ n ih =>
      rw [checkOutputs]
      by_cases hstep : StepFits bytes st.pos
      · simp only [WalkFits, hstep, true_and, not_forall] at H
        obtain ⟨⟨out, next⟩, hout, hrest⟩ := H
        rw [checkOutput_of_some Hlen hstep hout]
        exact ih hrest
      · rw [checkOutput_of_not_fits Hlen hstep]
        rfl

theorem checkOutputs_of_none {n : ℕ} (Hpos : st.pos ≤ bytes.length)
    (Hfits : WalkFits bytes n st.pos) (H : readOutputs bytes n st.pos = none) :
    checkOutputs bytes scripts n st = .error .rejected := by
  induction n generalizing st with
  | zero => cases H
  | succ n ih =>
      rw [checkOutputs]
      rcases hout : readOutput bytes st.pos with _ | ⟨out, next⟩
      · rw [checkOutput_of_none Hlen Hpos Hfits.1 hout]
        rfl
      · rw [readOutputs, hout, Option.bind_some, Option.map_eq_none_iff] at H
        rw [checkOutput_of_some Hlen Hfits.1 hout]
        exact ih (readOutput_eq_some hout).1.le (Hfits.2 _ hout) H

/-- **A walk that fits finds the outputs that are there**, and adds up what it reads as
their amounts. -/
theorem checkOutputs_of_some {n stop s : ℕ} {outs : List (ℕ × Output)}
    (Hfits : WalkFits bytes n st.pos) (H : readOutputs bytes n st.pos = some (outs, stop))
    (Htotal : st.total = s % 2 ^ 64) :
    ∃ st', checkOutputs bytes scripts n st = .ok st' ∧ st'.pos = stop ∧
      st'.total = (s + seenTotal bytes outs) % 2 ^ 64 ∧
      st'.foundTarget = (hasScript scripts outs || st.foundTarget) := by
  induction n generalizing st s outs with
  | zero =>
      cases H
      exact ⟨st, rfl, rfl, Htotal, rfl⟩
  | succ n ih =>
      obtain ⟨⟨out, next⟩, hout, hrest⟩ := Option.bind_eq_some_iff.mp H
      obtain ⟨⟨outs', stop'⟩, houts, heq⟩ := Option.map_eq_some_iff.mp hrest
      cases heq
      have htotal : (st.addOutput scripts (seenAmount bytes st.pos) out.script next).total =
          (s + seenAmount bytes st.pos) % 2 ^ 64 := by
        simp only [CbState.addOutput, add64, Htotal, Nat.mod_add_mod]
      obtain ⟨st', hok, hstop, hsum, hfound⟩ := ih (Hfits.2 _ hout) houts htotal
      refine ⟨st', ?_, hstop, ?_, ?_⟩
      · rw [checkOutputs, checkOutput_of_some Hlen Hfits.1 hout]
        exact hok
      · rw [hsum, seenTotal, seenTotal, List.map_cons, List.sum_cons, Nat.add_assoc]
      · rw [hfound, hasScript, hasScript, List.any_cons, CbState.addOutput, ← Bool.or_assoc,
          Bool.or_comm (scripts.contains out.script)]

end

/-- One byte is read as itself. -/
theorem readRange_one {bytes : List UInt8} {pos : ℕ} (Hpos : pos < bytes.length) :
    ∃ b, bytes[pos]? = some b ∧ readRange bytes pos 1 = .ok [b] := by
  have hget := List.getElem?_eq_getElem Hpos
  refine ⟨bytes[pos], hget, ?_⟩
  rw [readRange_eq Hpos, drop_eq_cons hget]
  rfl

theorem leNat_singleton (b : UInt8) : leNat [b] = b.toNat := by simp [leNat]

/-- The checks before the loop find the outputs where they are. -/
theorem checkInput_eq {bytes : List UInt8} (Hlen : 62 ≤ bytes.length) :
    checkInput bytes = match outputsStart bytes with
      | none => .error .rejected
      | some start => .ok start := by
  obtain ⟨inputs, hinputs, hread4⟩ := readRange_one (show 4 < bytes.length by omega)
  obtain ⟨sigLen, hsigLen, hread41⟩ := readRange_one (show 41 < bytes.length by omega)
  have hone : inputs.toNat = 1 ↔ inputs = 1 := UInt8.toNat_inj (b := 1)
  have hpos : 41 + (1 + sigLen.toNat + 4) = 46 + sigLen.toNat := by omega
  rw [checkInput, if_neg (by omega), outputsStart, hinputs, hsigLen, hread4, hread41]
  simp only [bind, Except.bind, leNat_singleton, hpos]
  by_cases hchecks : inputs = 1 ∧ 2 ≤ sigLen.toNat ∧ sigLen.toNat ≤ 100 ∧
      46 + sigLen.toNat < bytes.length
  · obtain ⟨hin, hmin, hmax, hroom⟩ := hchecks
    rw [if_neg (not_not_intro (hone.mpr hin)), if_neg (by omega), if_neg (by omega),
      varintDecode_eq (by omega), if_pos ⟨hin, hmin, hmax, hroom⟩]
    rcases hdecode : decodeVarint (bytes.drop (46 + sigLen.toNat)) with _ | ⟨i, n⟩
    · rfl
    · have hi : i ≠ 0 := by
        rintro rfl
        simpa using (isVarint_of_decodeVarint hdecode).2.length_pos
      simp only [Option.getD_some, if_neg hi, Option.map_some]
      rfl
  · rw [if_neg hchecks]
    split_ifs with hin hsig hroom
    · rfl
    · rfl
    · rfl
    · exact absurd ⟨hone.mp (not_not.mp hin), by omega, by omega, by omega⟩ hchecks

/-- Below the smallest length nothing is read. -/
theorem checkCoinbase_of_short {bytes : List UInt8} {param : CoinbaseParam}
    (H : bytes.length < 62) : checkCoinbase bytes param = .error .rejected := by
  rw [checkCoinbase, checkInput, if_pos H]
  rfl

theorem checkCoinbase_of_none {bytes : List UInt8} {param : CoinbaseParam}
    (Hlen : 62 ≤ bytes.length) (H : outputsStart bytes = none) :
    checkCoinbase bytes param = .error .rejected := by
  rw [checkCoinbase, checkInput_eq Hlen, H]
  rfl

/-- The outputs start within the coinbase. -/
theorem outputsStart_le {bytes : List UInt8} {pos n : ℕ}
    (H : outputsStart bytes = some (pos, n)) : pos ≤ bytes.length := by
  obtain ⟨_, _, _, _, _, _, _, hpos⟩ := outputsStart_eq_some H
  exact hpos

section

variable {cb : CoinbaseTxn} {param : CoinbaseParam}

/-- **Where the walk fits, the check is over the natural numbers** but for the amounts it
reads. -/
theorem checkCoinbase_eq_ok_iff (Hperc : (param.perc != 0) = false)
    (Hlen : 62 ≤ cb.bytes.length)
    (Hwalk : ∀ pos n, outputsStart cb.bytes = some (pos, n) → WalkFits cb.bytes n pos) :
    checkCoinbase cb.bytes param ≠ .error .outOfBounds ∧
      (checkCoinbase cb.bytes param = .ok () ↔ ∃ outs, coinbaseOutputs cb.bytes = some outs ∧
        (param.scripts ≠ [] → hasScript param.scripts outs = true) ∧
        param.total.toUInt64.toNat ≤ seenTotal cb.bytes outs % 2 ^ 64) := by
  rcases hstart : outputsStart cb.bytes with _ | ⟨pos, n⟩
  · rw [checkCoinbase_of_none Hlen hstart, coinbaseOutputs, hstart]
    simp
  have hfits := Hwalk pos n hstart
  have hpos := outputsStart_le hstart
  rcases hread : readOutputs cb.bytes n pos with _ | ⟨outs, stop⟩
  · have hloop : checkOutputs cb.bytes param.scripts n ⟨pos, 0, 0, false⟩ = .error .rejected :=
      checkOutputs_of_none cb.length_lt hpos hfits hread
    rw [checkCoinbase, checkInput_eq Hlen, coinbaseOutputs, hstart]
    simp [hloop, hread, bind, Except.bind]
  · have hloop : ∃ st', checkOutputs cb.bytes param.scripts n ⟨pos, 0, 0, false⟩ = .ok st' ∧
        st'.pos = stop ∧ st'.total = (0 + seenTotal cb.bytes outs) % 2 ^ 64 ∧
        st'.foundTarget = (hasScript param.scripts outs || false) :=
      checkOutputs_of_some cb.length_lt hfits hread rfl
    obtain ⟨st, hloop, hstop, htotal, hfound⟩ := hloop
    rw [Nat.zero_add] at htotal
    rw [Bool.or_false] at hfound
    rw [checkCoinbase, checkInput_eq Hlen, coinbaseOutputs, hstart]
    simp only [bind, Except.bind, Option.bind_some, hloop, hread, hstop, htotal, hfound, percFails,
      Hperc, Bool.false_and, Bool.false_eq_true, false_or]
    by_cases hroom : stop + 4 ≤ cb.bytes.length
    · rw [if_pos hroom, if_neg (not_lt.mpr hroom)]
      simp only [Option.some.injEq, exists_eq_left']
      split_ifs with hlow hmissing
      · exact ⟨by simp, False.elim, fun hpass => absurd hlow (not_lt.mpr hpass.2)⟩
      · exact ⟨by simp, False.elim, fun hpass => absurd (hpass.1 hmissing.1) hmissing.2⟩
      · refine ⟨by simp, fun _ => ⟨fun hscripts => ?_, not_lt.mp hlow⟩, fun _ => rfl⟩
        by_contra hno
        exact hmissing ⟨hscripts, hno⟩
    · rw [if_neg hroom, if_pos (not_le.mp hroom)]
      simp

/-- An output with a listed script, among the outputs without their positions. -/
theorem hasScript_eq_true_iff {scripts : List (List UInt8)} {outs : List (ℕ × Output)} :
    hasScript scripts outs = true ↔ ∃ out ∈ outs.map Prod.snd, out.script ∈ scripts := by
  simp only [hasScript, List.any_eq_true, List.contains_iff_mem, List.mem_map]
  constructor
  · rintro ⟨out, hout, hscript⟩
    exact ⟨out.2, ⟨out, hout, rfl⟩, hscript⟩
  · rintro ⟨_, ⟨out, hout, rfl⟩, hscript⟩
    exact ⟨out, hout, hscript⟩

/-- A total is at most a sum, if as an unsigned number it is at most the sum modulo 2^64. -/
theorem total_toInt_le {total : Int64} {sum : ℕ} (H : total.toUInt64.toNat ≤ sum % 2 ^ 64) :
    total.toInt ≤ sum := by
  have hcond := BitVec.toInt_eq_toNat_cond total.toBitVec
  rw [Int64.toInt_toBitVec, Int64.toNat_toBitVec] at hcond
  have hle := Nat.mod_le sum (2 ^ 64)
  split_ifs at hcond <;> omega

/-- In the first two gigabytes an amount is read where it is. -/
theorem seenAmount_eq {bytes : List UInt8} {pos next : ℕ} {out : Output}
    (Hlen : bytes.length ≤ 2 ^ 31) (H : readOutput bytes pos = some (out, next)) :
    seenAmount bytes pos = out.amount := by
  obtain ⟨⟨start, len⟩, hscript, hout⟩ := Option.bind_eq_some_iff.mp H
  dsimp only at hout
  split_ifs at hout
  cases hout
  have hroom := (outputScript_eq_some hscript).1
  rw [seenAmount, (offsetFits_of_lt (by omega)).2]

theorem seenTotal_eq {bytes : List UInt8} {n pos stop : ℕ} {outs : List (ℕ × Output)}
    (Hlen : bytes.length ≤ 2 ^ 31) (H : readOutputs bytes n pos = some (outs, stop)) :
    seenTotal bytes outs = (outs.map fun out => out.2.amount).sum := by
  induction n generalizing pos outs with
  | zero =>
      cases H
      simp only [seenTotal, List.map_nil]
  | succ n ih =>
      obtain ⟨⟨out, next⟩, hout, hrest⟩ := Option.bind_eq_some_iff.mp H
      obtain ⟨⟨outs', stop'⟩, houts, heq⟩ := Option.map_eq_some_iff.mp hrest
      cases heq
      rw [List.map_cons, List.sum_cons, ← ih houts, ← seenAmount_eq Hlen hout, seenTotal,
        seenTotal, List.map_cons, List.sum_cons]

/-- **In a coinbase of at most two gigabytes**, only the lengths of the scripts matter. -/
theorem coinbaseFits_iff_of_length_le (Hlen : cb.bytes.length ≤ 2 ^ 31) :
    CoinbaseFits cb param ↔
      (62 ≤ cb.bytes.length → ∀ pos n, outputsStart cb.bytes = some (pos, n) →
        WalkFits cb.bytes n pos) := by
  refine ⟨CoinbaseFits.walk, fun hwalk => ⟨hwalk, fun _ outs houts _ htotal => ?_⟩⟩
  obtain ⟨⟨pos, n⟩, _, H⟩ := Option.bind_eq_some_iff.mp houts
  obtain ⟨⟨_, stop⟩, hread, H⟩ := Option.bind_eq_some_iff.mp H
  dsimp only at H
  split_ifs at H
  cases H
  rw [seenTotal_eq Hlen hread] at htotal
  exact total_toInt_le htotal

/-- **When the check does what it should.**  A read outside the coinbase is one whose position
overflowed; a coinbase that passes though it should not has amounts that are misread. -/
theorem checksCoinbase_iff (Hperc : (param.perc != 0) = false) :
    ChecksCoinbase cb param ↔ CoinbaseFits cb param := by
  rcases Nat.lt_or_ge cb.bytes.length 62 with hshort | Hlen
  · have hrejected : checkCoinbase cb.bytes param = .error .rejected :=
      checkCoinbase_of_short hshort
    refine ⟨fun _ => ⟨fun h => ?_, fun h => ?_⟩, fun _ => ⟨?_, fun h => ?_⟩⟩
    · omega
    · omega
    · rw [hrejected]
      simp
    · rw [hrejected] at h
      cases h
  constructor
  · intro H
    have hwalk : ∀ pos n, outputsStart cb.bytes = some (pos, n) → WalkFits cb.bytes n pos := by
      intro pos n hstart
      by_contra hfits
      have hloop : checkOutputs cb.bytes param.scripts n ⟨pos, 0, 0, false⟩ =
          .error .outOfBounds := checkOutputs_of_not_fits cb.length_lt hfits
      apply H.inBounds
      rw [checkCoinbase, checkInput_eq Hlen, hstart]
      simp [hloop, bind, Except.bind]
    refine ⟨fun _ => hwalk, fun _ outs houts hscripts htotal => ?_⟩
    have hok := (checkCoinbase_eq_ok_iff Hperc Hlen hwalk).2.mpr ⟨outs, houts, hscripts, htotal⟩
    obtain ⟨outs', hcoinbase, hsum, _⟩ := H.sound hok
    obtain ⟨found, hfound, rfl⟩ := coinbaseOutputs_of_isCoinbase hcoinbase
    obtain rfl := Option.some.inj (houts.symm.trans hfound)
    rwa [List.map_map] at hsum
  · intro H
    obtain ⟨hbounds, hok⟩ := checkCoinbase_eq_ok_iff Hperc Hlen (H.walk Hlen)
    refine ⟨hbounds, fun hpass => ?_⟩
    obtain ⟨outs, houts, hscripts, htotal⟩ := hok.mp hpass
    refine ⟨outs.map Prod.snd, isCoinbase_of_coinbaseOutputs houts, ?_, fun hne => ?_⟩
    · rw [List.map_map]
      exact H.total Hlen outs houts hscripts htotal
    · exact hasScript_eq_true_iff.mp (hscripts hne)

end

/-- A coinbase of one input, as far as its outputs. -/
def sampleInput : List UInt8 :=
  [1, 0, 0, 0] ++ 1 :: (List.replicate 32 0 ++ [0xff, 0xff, 0xff, 0xff] ++ 2 :: [0, 0] ++
    [0xff, 0xff, 0xff, 0xff])

/-- One output of 1000 units to a script of one byte. -/
def ordinaryCoinbase : CoinbaseTxn where
  bytes := sampleInput ++ [1] ++ [0xe8, 3, 0, 0, 0, 0, 0, 0] ++ [1, 0x51] ++ [0, 0, 0, 0]
  length_lt := by decide

/-- One output, whose script claims to be 2^64 - 1 bytes long. -/
def wrappedCoinbase : CoinbaseTxn where
  bytes := sampleInput ++ [1] ++ List.replicate 8 0 ++ List.replicate 9 0xff ++ [0, 0, 0, 0]
  length_lt := by decide

/-- At least 1000 units, and an output to that script. -/
def sampleParam : CoinbaseParam where
  scripts := [[0x51]]
  total := 1000
  perc := 0

theorem checksCoinbase_ordinary : ChecksCoinbase ordinaryCoinbase sampleParam := by
  refine (checksCoinbase_iff (by decide +kernel)).mpr
    ((coinbaseFits_iff_of_length_le (by decide)).mpr fun _ pos n hstart => ?_)
  have hsome : outputsStart ordinaryCoinbase.bytes = some (49, 1) := by decide
  rw [hsome, Option.some.injEq, Prod.mk.injEq] at hstart
  obtain ⟨rfl, rfl⟩ := hstart
  decide

/-- The end of the script wraps to within the coinbase, and the script is looked up. -/
theorem not_checksCoinbase_wrapped : ¬ ChecksCoinbase wrappedCoinbase sampleParam :=
  fun H => H.inBounds (by rfl)

end MassGridMiner

import MassGridMiner.Lib.Varint

/-!
# What a coinbase consists of

A coinbase is a concatenation: the version, one input, the outputs with their count in
front, and a lock time.  `coinbaseOutputs` takes one apart, position by position and over
the natural numbers, and finds the outputs of exactly the byte strings that are such a
concatenation.

## Main definitions

* `Output`, `IsOutput` — an output, and the bytes that are one.
* `CoinbaseLayout`, `IsCoinbase` — the pieces of a coinbase, with their lengths.
* `readOutput`, `readOutputs`, `coinbaseOutputs` — the walk that takes it apart.
-/

namespace MassGridMiner

/-- An output of a coinbase. -/
structure Output where
  amount : ℕ
  script : List UInt8
  deriving DecidableEq, Repr

/-- Where the script of the output at a position starts, and its length, if the coinbase
goes on that far. -/
def outputScript (bytes : List UInt8) (pos : ℕ) : Option (ℕ × ℕ) :=
  if bytes.length ≤ pos + 8 then none
  else (decodeVarint (bytes.drop (pos + 8))).map fun v => (pos + 8 + v.1, v.2)

/-- The output at a position, and where it ends, if it is not the end of the coinbase. -/
def readOutput (bytes : List UInt8) (pos : ℕ) : Option (Output × ℕ) :=
  (outputScript bytes pos).bind fun (start, len) =>
    if bytes.length ≤ start + len then none
    else some (⟨leNat ((bytes.drop pos).take 8), (bytes.drop start).take len⟩, start + len)

/-- So many outputs from a position on, each with its position, and where they end. -/
def readOutputs (bytes : List UInt8) : ℕ → ℕ → Option (List (ℕ × Output) × ℕ)
  | 0, pos => some ([], pos)
  | n + 1, pos =>
    (readOutput bytes pos).bind fun (out, next) =>
      (readOutputs bytes n next).map fun (outs, stop) => ((pos, out) :: outs, stop)

/-- Where the outputs start, and how many there are. -/
def outputsStart (bytes : List UInt8) : Option (ℕ × ℕ) :=
  match bytes[4]?, bytes[41]? with
  | some inputs, some sigLen =>
    let pos := 46 + sigLen.toNat
    if inputs = 1 ∧ 2 ≤ sigLen.toNat ∧ sigLen.toNat ≤ 100 ∧ pos < bytes.length then
      (decodeVarint (bytes.drop pos)).map fun v => (pos + v.1, v.2)
    else none
  | _, _ => none

/-- The outputs of a coinbase, each with its position, if it has room for a lock time behind
them. -/
def coinbaseOutputs (bytes : List UInt8) : Option (List (ℕ × Output)) :=
  (outputsStart bytes).bind fun (pos, n) =>
    (readOutputs bytes n pos).bind fun (outs, stop) =>
      if stop + 4 ≤ bytes.length then some outs else none

/-! ### The concatenation -/

/-- An amount of eight bytes, the length of the script and the script. -/
def IsOutput (raw : List UInt8) (out : Output) : Prop :=
  ∃ amount len, amount.length = 8 ∧ leNat amount = out.amount ∧ IsVarint len out.script.length ∧
    raw = amount ++ len ++ out.script

/-- The pieces of a coinbase with one input and the outputs given. -/
structure CoinbaseLayout (outs : List Output) where
  version : List UInt8
  prevout : List UInt8
  script : List UInt8
  sequence : List UInt8
  count : List UInt8
  raws : List (List UInt8)
  rest : List UInt8
  version_length : version.length = 4
  prevout_length : prevout.length = 36
  script_length : 2 ≤ script.length ∧ script.length ≤ 100
  sequence_length : sequence.length = 4
  count_isVarint : IsVarint count outs.length
  raws_isOutput : List.Forall₂ IsOutput raws outs
  rest_length : 4 ≤ rest.length

namespace CoinbaseLayout

variable {outs : List Output} (layout : CoinbaseLayout outs)

/-- What comes before the count of the outputs: the number of inputs is one. -/
def input : List UInt8 :=
  layout.version ++ 1 :: (layout.prevout ++ UInt8.ofNat layout.script.length ::
    (layout.script ++ layout.sequence))

/-- The whole coinbase. -/
def bytes : List UInt8 :=
  layout.input ++ (layout.count ++ (layout.raws.flatten ++ layout.rest))

end CoinbaseLayout

/-- The bytes are a coinbase with these outputs. -/
def IsCoinbase (bytes : List UInt8) (outs : List Output) : Prop :=
  ∃ layout : CoinbaseLayout outs, layout.bytes = bytes

/-! ### What the walk finds is there -/

theorem drop_eq_take_append (bytes : List UInt8) (pos k : ℕ) :
    bytes.drop pos = (bytes.drop pos).take k ++ bytes.drop (pos + k) := by
  rw [← List.drop_drop, List.take_append_drop]

theorem drop_eq_cons {bytes : List UInt8} {pos : ℕ} {b : UInt8}
    (H : bytes[pos]? = some b) : bytes.drop pos = b :: bytes.drop (pos + 1) := by
  obtain ⟨hpos, rfl⟩ := List.getElem?_eq_some_iff.mp H
  exact List.drop_eq_getElem_cons hpos

/-- The length of the script is behind the amount, and the script behind its length. -/
theorem outputScript_eq_some {bytes : List UInt8} {pos start len : ℕ}
    (H : outputScript bytes pos = some (start, len)) :
    pos + 8 < bytes.length ∧ ∃ v, IsVarint v len ∧ start = pos + 8 + v.length ∧
      start ≤ bytes.length ∧ bytes.drop (pos + 8) = v ++ bytes.drop start := by
  simp only [outputScript] at H
  split_ifs at H with hroom
  obtain ⟨⟨i, n⟩, hdecode, heq⟩ := Option.map_eq_some_iff.mp H
  cases heq
  obtain ⟨hle, hvarint⟩ := isVarint_of_decodeVarint hdecode
  rw [List.length_drop] at hle
  have hlen : ((bytes.drop (pos + 8)).take i).length = i := by
    rw [List.length_take, List.length_drop]
    omega
  exact ⟨by omega, _, hvarint, by rw [hlen], by omega, drop_eq_take_append bytes (pos + 8) i⟩

/-- The output read is at its position, and something is behind it. -/
theorem readOutput_eq_some {bytes : List UInt8} {pos next : ℕ} {out : Output}
    (H : readOutput bytes pos = some (out, next)) :
    next < bytes.length ∧ ∃ raw, IsOutput raw out ∧
      bytes.drop pos = raw ++ bytes.drop next := by
  obtain ⟨⟨start, len⟩, hscript, hout⟩ := Option.bind_eq_some_iff.mp H
  dsimp only at hout
  split_ifs at hout with hend
  cases hout
  obtain ⟨hroom, v, hvarint, hstart, hle, hv⟩ := outputScript_eq_some hscript
  have hlen : ((bytes.drop start).take len).length = len := by
    rw [List.length_take, List.length_drop]
    omega
  refine ⟨by omega, _, ⟨(bytes.drop pos).take 8, v, ?_, rfl, ?_, rfl⟩, ?_⟩
  · rw [List.length_take, List.length_drop]
    omega
  · rwa [hlen]
  · rw [List.append_assoc, List.append_assoc, ← drop_eq_take_append, ← hv, ← drop_eq_take_append]

/-- The outputs read are there, one behind the other. -/
theorem readOutputs_eq_some {bytes : List UInt8} {n pos stop : ℕ} {outs : List (ℕ × Output)}
    (H : readOutputs bytes n pos = some (outs, stop)) :
    outs.length = n ∧ ∃ raws, List.Forall₂ IsOutput raws (outs.map Prod.snd) ∧
      bytes.drop pos = raws.flatten ++ bytes.drop stop := by
  induction n generalizing pos outs with
  | zero =>
      cases H
      exact ⟨rfl, [], .nil, rfl⟩
  | succ n ih =>
      obtain ⟨⟨out, next⟩, hout, hrest⟩ := Option.bind_eq_some_iff.mp H
      obtain ⟨⟨outs', stop'⟩, houts, heq⟩ := Option.map_eq_some_iff.mp hrest
      cases heq
      obtain ⟨_, raw, hraw, hdrop⟩ := readOutput_eq_some hout
      obtain ⟨hlen, raws, hraws, hdrops⟩ := ih houts
      refine ⟨by rw [List.length_cons, hlen], raw :: raws, .cons hraw hraws, ?_⟩
      rw [List.flatten_cons, List.append_assoc, ← hdrops, hdrop]

/-- The count is behind the input. -/
theorem outputsStart_eq_some {bytes : List UInt8} {pos n : ℕ}
    (H : outputsStart bytes = some (pos, n)) :
    ∃ script count : List UInt8, 2 ≤ script.length ∧ script.length ≤ 100 ∧ IsVarint count n ∧
      bytes = bytes.take 4 ++ 1 :: ((bytes.drop 5).take 36 ++ UInt8.ofNat script.length ::
        (script ++ (bytes.drop (42 + script.length)).take 4)) ++ (count ++ bytes.drop pos) ∧
      46 + script.length < bytes.length ∧ pos ≤ bytes.length := by
  unfold outputsStart at H
  split at H
  case h_2 => cases H
  case h_1 inputs sigLen hinputs hsigLen =>
    dsimp only at H
    split_ifs at H with hchecks
    obtain ⟨rfl, hmin, hmax, hpos⟩ := hchecks
    obtain ⟨⟨i, _⟩, hdecode, heq⟩ := Option.map_eq_some_iff.mp H
    cases heq
    have hscript : ((bytes.drop 42).take sigLen.toNat).length = sigLen.toNat := by
      rw [List.length_take, List.length_drop]
      omega
    obtain ⟨hle, hvarint⟩ := isVarint_of_decodeVarint hdecode
    rw [List.length_drop] at hle
    refine ⟨(bytes.drop 42).take sigLen.toNat, _, by omega, by omega, hvarint, ?_, by omega,
      by omega⟩
    have hsplit : 46 + sigLen.toNat = 42 + sigLen.toNat + 4 := by omega
    rw [hscript, UInt8.ofNat_toNat, ← drop_eq_take_append, hsplit]
    simp only [List.append_assoc, List.cons_append]
    rw [← drop_eq_take_append, ← drop_eq_take_append, ← drop_eq_cons hsigLen,
      ← drop_eq_take_append, ← drop_eq_cons hinputs, List.take_append_drop]

/-- **The walk takes apart coinbases only.** -/
theorem isCoinbase_of_coinbaseOutputs {bytes : List UInt8} {outs : List (ℕ × Output)}
    (H : coinbaseOutputs bytes = some outs) : IsCoinbase bytes (outs.map Prod.snd) := by
  obtain ⟨⟨pos, n⟩, hstart, H⟩ := Option.bind_eq_some_iff.mp H
  obtain ⟨⟨_, stop⟩, houts, H⟩ := Option.bind_eq_some_iff.mp H
  dsimp only at H
  split_ifs at H with hroom
  cases H
  obtain ⟨script, count, hmin, hmax, hcount, hbytes, hlen, _⟩ := outputsStart_eq_some hstart
  obtain ⟨hn, raws, hraws, hdrop⟩ := readOutputs_eq_some houts
  refine ⟨{
    version := bytes.take 4
    prevout := (bytes.drop 5).take 36
    script := script
    sequence := (bytes.drop (42 + script.length)).take 4
    count := count
    raws := raws
    rest := bytes.drop stop
    version_length := by rw [List.length_take]; omega
    prevout_length := by rw [List.length_take, List.length_drop]; omega
    script_length := ⟨hmin, hmax⟩
    sequence_length := by rw [List.length_take, List.length_drop]; omega
    count_isVarint := by rwa [List.length_map, hn]
    raws_isOutput := hraws
    rest_length := by rw [List.length_drop]; omega }, ?_⟩
  rw [CoinbaseLayout.bytes, CoinbaseLayout.input, ← hdrop, ← hbytes]

/-! ### What is there is found -/

/-- An output at a position is read, if something is behind it. -/
theorem readOutput_of_isOutput {bytes raw rest : List UInt8} {pos : ℕ} {out : Output}
    (Hraw : IsOutput raw out) (Hdrop : bytes.drop pos = raw ++ rest) (Hrest : rest ≠ []) :
    readOutput bytes pos = some (out, pos + raw.length) := by
  obtain ⟨amount, v, hamount, hvalue, hvarint, rfl⟩ := Hraw
  have hv := hvarint.length_pos
  have hrest := List.length_pos_iff.mpr Hrest
  have hlen : bytes.length = pos + (8 + v.length + out.script.length) + rest.length := by
    have := congrArg List.length Hdrop
    simp only [List.length_drop, List.length_append, hamount] at this
    omega
  have hdrop8 : bytes.drop (pos + 8) = v ++ (out.script ++ rest) := by
    rw [← List.drop_drop, Hdrop, ← hamount]
    simp only [List.append_assoc, List.drop_left]
  have hscript : outputScript bytes pos = some (pos + 8 + v.length, out.script.length) := by
    rw [outputScript, if_neg (by omega), hdrop8, decodeVarint_append hvarint]
    rfl
  have hdrop : bytes.drop (pos + 8 + v.length) = out.script ++ rest := by
    rw [← List.drop_drop, hdrop8, List.drop_left]
  have hnext : pos + 8 + v.length + out.script.length =
      pos + (amount ++ v ++ out.script).length := by
    simp only [List.length_append, hamount, Nat.add_assoc]
  rw [readOutput, hscript, Option.bind_some]
  dsimp only
  rw [if_neg (by omega), hdrop, List.take_left, hnext, Hdrop, List.append_assoc,
    List.append_assoc, ← hamount, List.take_left, hvalue]

theorem readOutputs_of_isOutput {bytes rest : List UInt8} {raws : List (List UInt8)}
    {outs : List Output} (Hraws : List.Forall₂ IsOutput raws outs) (Hrest : rest ≠ []) :
    ∀ {pos : ℕ}, bytes.drop pos = raws.flatten ++ rest →
      ∃ found, found.map Prod.snd = outs ∧
        readOutputs bytes outs.length pos = some (found, pos + raws.flatten.length) := by
  induction Hraws with
  | nil => exact fun _ => ⟨[], rfl, rfl⟩
  | @cons raw out raws outs hraw _ ih =>
      intro pos hdrop
      rw [List.flatten_cons, List.append_assoc] at hdrop
      have hnext : bytes.drop (pos + raw.length) = raws.flatten ++ rest := by
        rw [← List.drop_drop, hdrop, List.drop_left]
      obtain ⟨found, hfound, hread⟩ := ih hnext
      refine ⟨(pos, out) :: found, by rw [List.map_cons, hfound], ?_⟩
      rw [List.length_cons, readOutputs, readOutput_of_isOutput hraw hdrop (by simp [Hrest]),
        Option.bind_some]
      dsimp only
      rw [hread]
      simp [Nat.add_assoc]

theorem outputsStart_bytes {outs : List Output} (layout : CoinbaseLayout outs) :
    outputsStart layout.bytes =
      some (layout.input.length + layout.count.length, outs.length) := by
  have hversion := layout.version_length
  have hprevout := layout.prevout_length
  have hscript := layout.script_length
  have hcount := layout.count_isVarint.length_pos
  have hinput : layout.input.length = 46 + layout.script.length := by
    simp only [CoinbaseLayout.input, List.length_append, List.length_cons, hversion, hprevout,
      layout.sequence_length]
    omega
  have hinputs : layout.bytes[4]? = some 1 := by
    simp [CoinbaseLayout.bytes, CoinbaseLayout.input, hversion]
  have hsigLen : layout.bytes[41]? = some (UInt8.ofNat layout.script.length) := by
    have hhead : (layout.version ++ 1 :: layout.prevout).length = 41 := by
      simp [hversion, hprevout]
    have hbytes : layout.bytes = (layout.version ++ 1 :: layout.prevout) ++
        UInt8.ofNat layout.script.length :: (layout.script ++ layout.sequence ++
          (layout.count ++ (layout.raws.flatten ++ layout.rest))) := by
      simp [CoinbaseLayout.bytes, CoinbaseLayout.input]
    rw [hbytes, List.getElem?_append_right hhead.le, hhead]
    rfl
  have htoNat : (UInt8.ofNat layout.script.length).toNat = layout.script.length :=
    UInt8.toNat_ofNat_of_lt' (show _ < 256 by omega)
  have hdrop : layout.bytes.drop (46 + layout.script.length) =
      layout.count ++ (layout.raws.flatten ++ layout.rest) := by
    rw [← hinput, CoinbaseLayout.bytes, List.drop_left]
  have hlen : 46 + layout.script.length < layout.bytes.length := by
    rw [CoinbaseLayout.bytes, List.length_append, List.length_append]
    omega
  rw [outputsStart, hinputs, hsigLen]
  dsimp only
  rw [htoNat, if_pos ⟨rfl, hscript.1, hscript.2, hlen⟩, hdrop,
    decodeVarint_append layout.count_isVarint, hinput]
  rfl

/-- **The walk takes apart every coinbase**, in one way. -/
theorem coinbaseOutputs_of_isCoinbase {bytes : List UInt8} {outs : List Output}
    (H : IsCoinbase bytes outs) :
    ∃ found, coinbaseOutputs bytes = some found ∧ found.map Prod.snd = outs := by
  obtain ⟨layout, rfl⟩ := H
  have hrest := layout.rest_length
  have hdrop : layout.bytes.drop (layout.input.length + layout.count.length) =
      layout.raws.flatten ++ layout.rest := by
    rw [← List.drop_drop, CoinbaseLayout.bytes, List.drop_left, List.drop_left]
  obtain ⟨found, hfound, hread⟩ := readOutputs_of_isOutput layout.raws_isOutput
    (List.length_pos_iff.mp (by omega)) hdrop
  refine ⟨found, ?_, hfound⟩
  have hroom : layout.input.length + layout.count.length + layout.raws.flatten.length + 4 ≤
      layout.bytes.length := by
    simp only [CoinbaseLayout.bytes, List.length_append]
    omega
  rw [coinbaseOutputs, outputsStart_bytes, Option.bind_some]
  dsimp only
  rw [hread, Option.bind_some]
  exact if_pos hroom

end MassGridMiner

import MassGridMiner.Device.Match
import MassGridMiner.Lib.Double
import MassGridMiner.Lib.StringBuffer

/-!
# The names of the processors of a device

A device is named by its driver and a number, and each of its processors by letters behind that,
if it has more than one.  The names are put into buffers of nine bytes, and how many letters
there are is found by dividing the number of processors by 26.

## Main definitions

* `renumberCgpu` — `renumber_cgpu`.
* `lpDigits`, `addLetters` — how many letters there are, and how they are added.
* `Renumbered.NamesProcs` — the names are told apart and read back.
* `namesProcs_iff` — when they are.
-/

namespace MassGridMiner

open CStr

/-- The name of a driver: three characters. -/
structure DrvName where
  name : CStr
  length_eq : name.length = 3

/-- The names of a processor in its `struct cgpu_info`. -/
structure ProcNames where
  procRepr : Bytes 9
  procReprNs : Bytes 9

/-- What `renumber_cgpu` writes: `devids` has for each driver the last number that was given. -/
structure Renumbered where
  devids : List UInt8 → Option ℕ
  deviceId : ℕ
  devRepr : CStr
  devReprNs : CStr
  maxLpdigits : ℕ
  procs : List ProcNames

/-- `%u`. -/
def uintText (n : ℕ) : CStr := ⟨paddedDigits 1 n, zero_notMem_paddedDigits 1 n⟩

/-- `%2u`. -/
def uintText2 (n : ℕ) : CStr where
  bytes := List.replicate (2 - (uintText n).length) 0x20 ++ (uintText n).bytes
  nul_free h := by
    rcases List.mem_append.mp h with hpad | hdigit
    · exact absurd (List.eq_of_mem_replicate hpad) (by decide)
    · exact (uintText n).nul_free hdigit

/-- The number of a new device of a driver. -/
def nextDeviceId (devids : List UInt8 → Option ℕ) (name : DrvName) : ℕ :=
  (devids name.name.bytes).elim 0 (· + 1)

/-- The loop that counts letters. -/
def lpDigits (i lpdigits : ℕ) : ℕ :=
  if 26 < i ∧ lpdigits < 3 then lpDigits (i / 26) (lpdigits + 1) else lpdigits
termination_by 3 - lpdigits

/-- The loop over `x` and `y` that adds letters, or none where it leaves a buffer. -/
def addLetters (ns : ℕ) (x : ℕ) (y : ℤ) (slave : ProcNames) : Option ProcNames :=
  let y := y - 1
  if x = 0 then some slave
  else
    match slave.procRepr.peek (5 + y) with
    | none => none
    | some c =>
      let c := c + UInt8.ofNat (x % 26)
      match slave.procRepr.poke (5 + y) c, slave.procReprNs.poke (ns + y) c with
      | some procRepr, some procReprNs => addLetters ns (x / 26) y ⟨procRepr, procReprNs⟩
      | _, _ => none
termination_by x
decreasing_by exact Nat.div_lt_self (by omega) (by decide)

/-- The names of the first processor are copied to another, and the letters are added. -/
def nameSlave (cgpu : ProcNames) (ns lpdigits i : ℕ) (slave : ProcNames) : Option ProcNames :=
  match slave.procRepr.strcpy 0 (cgpu.procRepr.cstrAt 0),
    slave.procReprNs.strcpy 0 (cgpu.procReprNs.cstrAt 0) with
  | some procRepr, some procReprNs => addLetters ns i lpdigits ⟨procRepr, procReprNs⟩
  | _, _ => none

/-- The loop over the other processors, from number `i` on. -/
def nameSlaves (cgpu : ProcNames) (ns lpdigits : ℕ) : ℕ → List ProcNames → Option (List ProcNames)
  | _, [] => some []
  | i, slave :: rest =>
    match nameSlave cgpu ns lpdigits i slave, nameSlaves cgpu ns lpdigits (i + 1) rest with
    | some slave, some rest => some (slave :: rest)
    | _, _ => none

/-- The first processor is named after the device. -/
def nameDevice (devRepr longName : CStr) (cgpu : ProcNames) : Option ProcNames :=
  match cgpu.procRepr.strcpy 0 devRepr, cgpu.procReprNs.strcpy 0 longName with
  | some procRepr, some procReprNs => some ⟨procRepr, procReprNs⟩
  | _, _ => none

/-- The letters of the first processor. -/
def firstLetters (lpdigits : ℕ) (cgpu : ProcNames) : Option ProcNames :=
  match (cgpu.procRepr.memset 5 0x61 lpdigits).bind fun buf => buf.write (5 + lpdigits) [0] with
  | none => none
  | some procRepr =>
    (cgpu.procReprNs.strcpy (cgpu.procReprNs.cstrAt 0).length (procRepr.cstrAt 5)).map
      fun procReprNs => ⟨procRepr, procReprNs⟩

/-- `renumber_cgpu` for a device of one or more processors, or none where it writes outside the
names. -/
def renumberCgpu (devids : List UInt8 → Option ℕ) (maxLpdigits : ℕ) (drv : DrvName)
    (cgpu : ProcNames) (slaves : List ProcNames) : Option Renumbered :=
  let deviceId := nextDeviceId devids drv
  let devids := Function.update devids drv.name.bytes (some deviceId)
  let devRepr := drv.name.append (uintText2 (deviceId % 100))
  let devReprNs := drv.name.append (uintText (deviceId % 100))
  match nameDevice devRepr (drv.name.append (uintText deviceId)) cgpu with
  | none => none
  | some cgpu =>
    let lpcount := slaves.length + 1
    if 1 < lpcount then
      let lpdigits := lpDigits lpcount 1
      let ns := (cgpu.procReprNs.cstrAt 0).length
      match firstLetters lpdigits cgpu with
      | none => none
      | some cgpu =>
        (nameSlaves cgpu ns lpdigits 1 slaves).map fun slaves =>
          ⟨devids, deviceId, devRepr, devReprNs, max maxLpdigits lpdigits, cgpu :: slaves⟩
    else some ⟨devids, deviceId, devRepr, devReprNs, maxLpdigits, [cgpu]⟩

/-! ## What is asked of the names -/

/-- The name of a processor is what comes before the letters, and these spell its number. -/
def Spells (front name : List UInt8) (procId : ℕ) : Prop :=
  ∃ letters, name = front ++ letters ∧ procLetterToNumber letters = ((procId : ℤ), [])

/-- Each of the names is that of the device with the letters of the processor behind it, and no
two processors have a name in common. -/
structure Renumbered.NamesProcs (r : Renumbered) (drv : DrvName) (n : ℕ) : Prop where
  length_procs : r.procs.length = n
  repr : ∀ i p, r.procs[i]? = some p → Spells r.devRepr.bytes (p.procRepr.cstrAt 0).bytes i
  reprNs : ∀ i p, r.procs[i]? = some p →
    Spells (drv.name.append (uintText r.deviceId)).bytes (p.procReprNs.cstrAt 0).bytes i
  nodup : (r.procs.map fun p => p.procRepr.cstrAt 0).Nodup
  nodupNs : (r.procs.map fun p => p.procReprNs.cstrAt 0).Nodup

/-! ## Letters -/

/-- The letters of a processor, so many of them. -/
def letters : ℕ → ℕ → List UInt8
  | 0, _ => []
  | k + 1, i => letters k (i / 26) ++ [0x61 + UInt8.ofNat (i % 26)]

theorem letters_zero (k : ℕ) : letters k 0 = List.replicate k 0x61 := by
  induction k with
  | zero => rfl
  | succ k ih =>
      rw [letters, Nat.zero_div, ih, List.replicate_succ']
      rfl

theorem letter_of_lt {d : ℕ} (H : d < 26) : 0x61 + UInt8.ofNat d ≠ 0 ∧
    ((tolower (0x61 + UInt8.ofNat d)).toNat : ℤ) - 0x61 = d := by
  interval_cases d <;> decide

theorem zero_notMem_letters (k i : ℕ) : 0 ∉ letters k i := by
  induction k generalizing i with
  | zero => exact List.not_mem_nil
  | succ k ih =>
      rw [letters, List.mem_append, List.mem_singleton, not_or]
      exact ⟨ih _, (letter_of_lt (Nat.mod_lt i (by decide))).1.symm⟩

/-- Letters are read as digits, the first one the most significant. -/
theorem procLetterLoop_letters {k i : ℕ} (hi : i < 26 ^ k) {n : ℤ} (hn : 0 ≤ n)
    (hmax : n * 26 ^ k + i ≤ intMax) (rest : List UInt8) :
    procLetterLoop n (letters k i ++ rest) = procLetterLoop (n * 26 ^ k + i) rest := by
  induction k generalizing i rest with
  | zero =>
      obtain rfl : i = 0 := by omega
      simp [letters]
  | succ k ih =>
      have hdiv : i / 26 < 26 ^ k := Nat.div_lt_of_lt_mul (by rwa [← Nat.pow_succ'])
      have hcast : (i : ℤ) = 26 * (i / 26 : ℕ) + (i % 26 : ℕ) := by omega
      have hpow : n * 26 ^ (k + 1) + i = (n * 26 ^ k + (i / 26 : ℕ)) * 26 + (i % 26 : ℕ) := by
        rw [hcast]
        ring
      have hpos : 0 ≤ n * 26 ^ k := by positivity
      rw [hpow] at hmax ⊢
      have hlt : i % 26 < 26 := Nat.mod_lt i (by decide)
      have hletter := (letter_of_lt hlt).2
      have hmax' : intMax = 2147483647 := rfl
      rw [letters, List.append_assoc, ih hdiv (by omega), List.singleton_append, procLetterLoop]
      generalize n * 26 ^ k + ((i / 26 : ℕ) : ℤ) = m at *
      rw [hletter, if_neg (by omega), if_neg (by omega), if_neg (by omega)]

theorem procLetterToNumber_letters {k i : ℕ} (hk : k ≤ 3) (hi : i < 26 ^ k) :
    procLetterToNumber (letters k i) = ((i : ℤ), []) := by
  have hle : 26 ^ k ≤ 26 ^ 3 := Nat.pow_le_pow_right (by decide) hk
  have hmax : (0 : ℤ) * 26 ^ k + i ≤ intMax := by
    rw [intMax]
    omega
  have hloop := procLetterLoop_letters hi (le_refl 0) hmax []
  rw [List.append_nil] at hloop
  rw [procLetterToNumber, hloop, procLetterLoop]
  simp

/-! ## The number of letters -/

/-- How many letters the names of so many processors need. -/
def lettersNeeded (n : ℕ) : ℕ :=
  if n ≤ 1 then 0 else if n ≤ 26 then 1 else if n ≤ 26 ^ 2 then 2 else 3

theorem lpDigits_eq (n : ℕ) : lpDigits n 1 = if n ≤ 26 then 1 else if n < 702 then 2 else 3 := by
  rw [lpDigits]
  split
  next hmore =>
    rw [if_neg (by omega), lpDigits]
    split
    next hmore' =>
      rw [if_neg (by omega), lpDigits]
      exact if_neg (by omega)
    next => rw [if_pos (by omega)]
  next => rw [if_pos (by omega)]

/-- The loop counts too few letters only in one range. -/
theorem lpDigits_eq_lettersNeeded {n : ℕ} (hn : 1 < n) (H : ¬ (677 ≤ n ∧ n ≤ 701)) :
    lpDigits n 1 = lettersNeeded n := by
  have hmany : ¬ n ≤ 1 := by omega
  rw [lpDigits_eq, lettersNeeded, if_neg hmany]
  by_cases hone : n ≤ 26
  · rw [if_pos hone, if_pos hone]
  · rw [if_neg hone, if_neg hone]
    by_cases htwo : n ≤ 26 ^ 2
    · rw [if_pos (by omega), if_pos htwo]
    · rw [if_neg (by omega), if_neg htwo]

theorem le_pow_lettersNeeded {n : ℕ} (H : n ≤ 26 ^ 3) : n ≤ 26 ^ lettersNeeded n := by
  rw [lettersNeeded]
  split
  next => omega
  next =>
    split
    next => omega
    next =>
      split
      next => assumption
      next => exact H

theorem lettersNeeded_le (n : ℕ) : lettersNeeded n ≤ 3 := by
  rw [lettersNeeded]
  split
  next => decide
  next =>
    split
    next => decide
    next => split <;> decide

/-! ## Numbers as text -/

theorem length_uintText_le_iff {n k : ℕ} (hk : 1 ≤ k) :
    (uintText n).length ≤ k ↔ n < 10 ^ k := by
  have hdigits := Nat.digits_length_le_iff (b := 10) (k := k) (by decide) n
  simp only [CStr.length, uintText, paddedDigits, List.length_append, List.length_replicate,
    List.length_map, List.length_reverse]
  omega

theorem one_le_length_uintText (n : ℕ) : 1 ≤ (uintText n).length := by
  simp only [CStr.length, uintText, paddedDigits, List.length_append, List.length_replicate]
  omega

theorem length_uintText2 {m : ℕ} (H : m < 100) : (uintText2 m).length = 2 := by
  have hle := (length_uintText_le_iff (n := m) (k := 2) (by decide)).mpr H
  rw [CStr.length] at hle
  rw [CStr.length, uintText2, List.length_append, List.length_replicate, CStr.length]
  omega

/-- The names end in a digit. -/
theorem exists_lastDigit (n : ℕ) : ∃ front c, (uintText n).bytes = front ++ [c] ∧ c + 1 ≠ 0 := by
  have hpos := one_le_length_uintText n
  rcases List.eq_nil_or_concat' (uintText n).bytes with hnil | ⟨front, c, hconcat⟩
  · rw [CStr.length, hnil] at hpos
    cases hpos
  · have hmem : c ∈ (uintText n).bytes :=
      hconcat ▸ List.mem_append_right front (List.mem_singleton_self c)
    have hle := UInt8.le_iff_toNat_le.mp (digit_of_mem_paddedDigits hmem).2
    refine ⟨front, c, hconcat, fun hzero => ?_⟩
    have hnat := congrArg UInt8.toNat hzero
    rw [UInt8.toNat_add] at hnat
    change (c.toNat + 1) % 256 = 0 at hnat
    change c.toNat ≤ 57 at hle
    omega

/-! ## One processor -/

/-- The names of a processor are those of the device with letters behind them. -/
def Lettered (front frontNs lets : List UInt8) (p : ProcNames) : Prop :=
  p.procRepr.Holds (front ++ lets) ∧ p.procReprNs.Holds (frontNs ++ lets)

section
variable {front frontNs done : List UInt8} {slave : ProcNames}

/-- One pass of the loop adds to one letter. -/
theorem addLetters_step {s sNs t tNs : List UInt8} {c c' : UInt8} (ns : ℕ) {x : ℕ} (y : ℤ)
    (hx : x ≠ 0) (H : slave.procRepr.Holds (s ++ c :: t))
    (HNs : slave.procReprNs.Holds (sNs ++ c' :: tNs))
    (hs : (s.length : ℤ) = 5 + (y - 1)) (hsNs : (sNs.length : ℤ) = ns + (y - 1)) :
    ∃ p : ProcNames, addLetters ns x y slave = addLetters ns (x / 26) (y - 1) p ∧
      p.procRepr.Holds (s ++ (c + UInt8.ofNat (x % 26)) :: t) ∧
      p.procReprNs.Holds (sNs ++ (c + UInt8.ofNat (x % 26)) :: tNs) := by
  obtain ⟨buf, hbuf, hholds⟩ := H.poke (c + UInt8.ofNat (x % 26))
  obtain ⟨bufNs, hbufNs, hholdsNs⟩ := HNs.poke (c + UInt8.ofNat (x % 26))
  refine ⟨⟨buf, bufNs⟩, ?_, hholds, hholdsNs⟩
  rw [hs] at hbuf
  rw [hsNs] at hbufNs
  have hpeek := H.peek
  rw [hs] at hpeek
  rw [addLetters]
  dsimp only
  rw [if_neg hx, hpeek]
  dsimp only
  rw [hbuf, hbufNs]

/-- With enough letters for the number, they come to spell it. -/
theorem addLetters_spec {k x : ℕ} (hx : x < 26 ^ k) (hfront : front.length = 5)
    (H : Lettered front frontNs (List.replicate k 0x61 ++ done) slave) :
    ∃ p, addLetters frontNs.length x k slave = some p ∧
      Lettered front frontNs (letters k x ++ done) p := by
  induction k generalizing x slave done with
  | zero =>
      obtain rfl : x = 0 := by omega
      refine ⟨slave, ?_, H⟩
      rw [addLetters]
      exact if_pos rfl
  | succ k ih =>
      rcases Nat.eq_zero_or_pos x with rfl | hpos
      · refine ⟨slave, ?_, by rwa [letters_zero]⟩
        rw [addLetters]
        exact if_pos rfl
      · have hdiv : x / 26 < 26 ^ k := Nat.div_lt_of_lt_mul (by rwa [← Nat.pow_succ'])
        have hsplit : ∀ f : List UInt8, f ++ (List.replicate (k + 1) 0x61 ++ done) =
            f ++ List.replicate k 0x61 ++ 0x61 :: done := by
          intro f
          rw [List.replicate_succ']
          simp
        obtain ⟨hrepr, hreprNs⟩ := H
        rw [hsplit] at hrepr hreprNs
        obtain ⟨p, hp, hlettered, hletteredNs⟩ :=
          addLetters_step frontNs.length (k + 1 : ℕ) hpos.ne' hrepr hreprNs
            (by simp [hfront]) (by simp)
        rw [List.append_assoc] at hlettered hletteredNs
        have hcast : (((k + 1 : ℕ) : ℤ) - 1) = k := by omega
        obtain ⟨q, hq, hspell⟩ := ih hdiv ⟨hlettered, hletteredNs⟩
        refine ⟨q, ?_, ?_⟩
        · rw [hp, hcast, hq]
        · rw [letters, List.append_assoc]
          exact hspell

/-- The number of the 677th processor has three letters, and with two the loop goes on before
them. -/
theorem addLetters_three {s sNs : List UInt8} {c c' : UInt8} (hs : s.length = 4)
    (H : Lettered (s ++ [c]) (sNs ++ [c']) (letters 2 0) slave) :
    ∃ p : ProcNames, addLetters (sNs.length + 1) 676 2 slave = some p ∧
      p.procRepr.Holds (s ++ (c + 1) :: letters 2 0) := by
  have hletters : letters 2 0 = [0x61, 0x61] := rfl
  obtain ⟨hrepr, hreprNs⟩ := H
  rw [hletters] at hrepr hreprNs ⊢
  have hlast : ∀ (f : List UInt8) (d : UInt8), f ++ [d] ++ [0x61, 0x61] =
      f ++ [d] ++ [0x61] ++ 0x61 :: [] := by simp
  have hmiddle : ∀ (f : List UInt8) (d e : UInt8), f ++ [d] ++ [0x61] ++ [e] =
      f ++ [d] ++ 0x61 :: [e] := by simp
  have hbefore : ∀ (f : List UInt8) (d e e' : UInt8), f ++ [d] ++ e :: [e'] =
      f ++ d :: [e, e'] := by simp
  rw [hlast] at hrepr hreprNs
  obtain ⟨p, hp, hrepr, hreprNs⟩ := addLetters_step (sNs.length + 1) 2
    (by decide : 676 ≠ 0) hrepr hreprNs (by simp [hs]) (by simp; omega)
  rw [hmiddle] at hrepr hreprNs
  obtain ⟨q, hq, hrepr, hreprNs⟩ := addLetters_step (sNs.length + 1) 1
    (by decide : 26 ≠ 0) hrepr hreprNs (by simp [hs]) (by simp)
  rw [hbefore] at hrepr hreprNs
  obtain ⟨r, hr, hrepr, -⟩ := addLetters_step (sNs.length + 1) 0
    (by decide : 1 ≠ 0) hrepr hreprNs (by simp [hs]) (by simp)
  refine ⟨r, ?_, hrepr⟩
  have hp' : addLetters (sNs.length + 1) 676 2 slave = addLetters (sNs.length + 1) 26 1 p := hp
  have hq' : addLetters (sNs.length + 1) 26 1 p = addLetters (sNs.length + 1) 1 0 q := hq
  have hr' : addLetters (sNs.length + 1) 1 0 q = addLetters (sNs.length + 1) 0 (-1) r := hr
  rw [hp', hq', hr', addLetters]
  exact if_pos rfl

/-- The letters of the first processor, where there is room for them. -/
theorem firstLetters_spec {cgpu : ProcNames} {k : ℕ} (hfront : front.length = 5) (hk : k ≤ 3)
    (hnul : 0 ∉ frontNs) (H : Lettered front frontNs [] cgpu) :
    if frontNs.length + k ≤ 8 then
      ∃ p, firstLetters k cgpu = some p ∧ Lettered front frontNs (letters k 0) p
    else firstLetters k cgpu = none := by
  obtain ⟨hrepr, hreprNs⟩ := H
  rw [List.append_nil] at hrepr hreprNs
  have hpre : front <+: cgpu.procRepr.toList := (List.prefix_append _ _).trans hrepr
  have hlen : (List.replicate k (0x61 : UInt8)).length = k := List.length_replicate
  obtain ⟨buf, hbuf, hmem⟩ := Bytes.write_of_prefix hpre (t := List.replicate k 0x61) (by omega)
  have hlen' : (front ++ List.replicate k (0x61 : UInt8)).length = 5 + k := by
    rw [List.length_append, hlen, hfront]
  obtain ⟨buf', hbuf', hholds⟩ := Bytes.write_of_prefix hmem (t := [0])
    (by rw [hlen', List.length_singleton]; omega)
  have hletters : (buf'.cstrAt 5).bytes = List.replicate k 0x61 := by
    rw [← hfront]
    refine Bytes.Holds.cstrAt hholds fun hin => ?_
    exact absurd (List.eq_of_mem_replicate hin) (by decide)
  have hns : (cgpu.procReprNs.cstrAt 0).length = frontNs.length := by
    rw [CStr.length, hreprNs.cstrAt_zero hnul]
  have hfirst : firstLetters k cgpu = (cgpu.procReprNs.strcpy frontNs.length (buf'.cstrAt 5)).map
      fun procReprNs => ⟨buf', procReprNs⟩ := by
    rw [hfront] at hbuf
    rw [hlen'] at hbuf'
    rw [firstLetters, Bytes.memset, hbuf, Option.bind_some, hbuf', hns]
  have hcount : (buf'.cstrAt 5).length = k := by rw [CStr.length, hletters, hlen]
  rw [hfirst]
  split
  next hroom =>
    obtain ⟨bufNs, hbufNs, hholdsNs⟩ := Bytes.holds_strcpy
      ((List.prefix_append _ _).trans hreprNs) (buf'.cstrAt 5) (by omega)
    rw [hletters] at hholdsNs
    refine ⟨⟨buf', bufNs⟩, by rw [hbufNs, Option.map_some], ?_, ?_⟩
    · rw [letters_zero]
      exact hholds
    · rw [letters_zero]
      exact hholdsNs
  next hroom =>
    rw [Bytes.strcpy_eq_none _ (by omega), Option.map_none]

/-- A processor is named after the first one. -/
theorem nameSlave_eq {cgpu : ProcNames} {lets : List UInt8} (hnul : 0 ∉ front ++ lets)
    (hnulNs : 0 ∉ frontNs ++ lets) (H : Lettered front frontNs lets cgpu) (ns k i : ℕ)
    (slave : ProcNames) :
    ∃ copy, Lettered front frontNs lets copy ∧
      nameSlave cgpu ns k i slave = addLetters ns i k copy := by
  have hbytes := H.1.cstrAt_zero hnul
  have hbytesNs := H.2.cstrAt_zero hnulNs
  have hlen := H.1.length_lt
  have hlenNs := H.2.length_lt
  obtain ⟨buf, hbuf, hholds⟩ := Bytes.holds_strcpy_zero slave.procRepr (cgpu.procRepr.cstrAt 0)
    (by rw [CStr.length, hbytes]; omega)
  obtain ⟨bufNs, hbufNs, hholdsNs⟩ := Bytes.holds_strcpy_zero slave.procReprNs
    (cgpu.procReprNs.cstrAt 0) (by rw [CStr.length, hbytesNs]; omega)
  rw [hbytes] at hholds
  rw [hbytesNs] at hholdsNs
  refine ⟨⟨buf, bufNs⟩, ⟨hholds, hholdsNs⟩, ?_⟩
  rw [nameSlave, hbuf, hbufNs]

/-- The character in front of the letters of the 677th processor is not that of the first one. -/
theorem nameSlave_three {cgpu p : ProcNames} {s sNs : List UInt8} {c c' : UInt8}
    (hs : s.length = 4) (hc : c + 1 ≠ 0) (hnul : 0 ∉ s ++ [c]) (hnulNs : 0 ∉ sNs ++ [c'])
    (H : Lettered (s ++ [c]) (sNs ++ [c']) (letters 2 0) cgpu)
    (hp : nameSlave cgpu (sNs ++ [c']).length 2 676 slave = some p) :
    (p.procRepr.cstrAt 0).bytes = s ++ (c + 1) :: letters 2 0 := by
  have hzero := zero_notMem_letters 2 0
  obtain ⟨copy, hcopy, hadd⟩ := nameSlave_eq
    (fun hin => (List.mem_append.mp hin).elim hnul hzero)
    (fun hin => (List.mem_append.mp hin).elim hnulNs hzero) H (sNs ++ [c']).length 2 676 slave
  obtain ⟨q, hq, hholds⟩ := addLetters_three hs hcopy
  have hsame : p = q := by
    rw [List.length_append, List.length_singleton] at hadd hp
    exact Option.some.inj (hp.symm.trans (hadd.trans hq))
  subst hsame
  refine hholds.cstrAt_zero ?_
  rw [List.mem_append, List.mem_cons, not_or, not_or]
  exact ⟨fun hin => hnul (List.mem_append_left _ hin), hc.symm, hzero⟩

/-! ## All of them -/

theorem nameSlaves_getElem? {cgpu : ProcNames} {ns k i : ℕ} {slaves out : List ProcNames}
    (H : nameSlaves cgpu ns k i slaves = some out) :
    out.length = slaves.length ∧
      ∀ j p, out[j]? = some p → ∃ slave, nameSlave cgpu ns k (i + j) slave = some p := by
  induction slaves generalizing i out with
  | nil =>
      obtain rfl := Option.some.inj H
      exact ⟨rfl, nofun⟩
  | cons slave rest ih =>
      rw [nameSlaves] at H
      split at H
      next p rest' hp hrest =>
        obtain rfl := Option.some.inj H
        obtain ⟨hlen, hall⟩ := ih hrest
        refine ⟨by rw [List.length_cons, List.length_cons, hlen], fun j q hq => ?_⟩
        cases j with
        | zero =>
            obtain rfl := Option.some.inj hq
            exact ⟨slave, hp⟩
        | succ j =>
            have hadd : i + (j + 1) = i + 1 + j := by omega
            rw [hadd]
            exact hall j q hq
      next => cases H

theorem exists_nameSlaves (cgpu : ProcNames) (ns k i : ℕ) (slaves : List ProcNames)
    (H : ∀ j < slaves.length, ∀ slave, ∃ p, nameSlave cgpu ns k (i + j) slave = some p) :
    ∃ out, nameSlaves cgpu ns k i slaves = some out := by
  induction slaves generalizing i with
  | nil => exact ⟨[], rfl⟩
  | cons slave rest ih =>
      obtain ⟨p, hp⟩ := H 0 (Nat.succ_pos _) slave
      obtain ⟨out, hout⟩ := ih (i + 1) fun j hj slave => by
        have hadd : i + 1 + j = i + (j + 1) := by omega
        rw [hadd]
        exact H (j + 1) (Nat.succ_lt_succ hj) slave
      rw [Nat.add_zero] at hp
      refine ⟨p :: out, ?_⟩
      rw [nameSlaves, hp, hout]

/-- The processors have the letters of their numbers. -/
def AllLettered (front frontNs : List UInt8) (k : ℕ) (procs : List ProcNames) : Prop :=
  ∀ i p, procs[i]? = some p → Lettered front frontNs (letters k i) p

/-- With enough letters for their number, all processors are named. -/
theorem nameSlaves_spec {cgpu : ProcNames} {k : ℕ} {slaves : List ProcNames}
    (hfront : front.length = 5) (hnul : 0 ∉ front) (hnulNs : 0 ∉ frontNs)
    (hmany : slaves.length + 1 ≤ 26 ^ k) (H : Lettered front frontNs (letters k 0) cgpu) :
    ∃ out, nameSlaves cgpu frontNs.length k 1 slaves = some out ∧
      out.length = slaves.length ∧ AllLettered front frontNs k (cgpu :: out) := by
  have hslave : ∀ i < 26 ^ k, ∀ slave, ∃ p, nameSlave cgpu frontNs.length k i slave = some p ∧
      Lettered front frontNs (letters k i) p := by
    intro i hi slave
    have hzero := zero_notMem_letters k 0
    obtain ⟨copy, hcopy, heq⟩ := nameSlave_eq
      (fun hin => (List.mem_append.mp hin).elim hnul hzero)
      (fun hin => (List.mem_append.mp hin).elim hnulNs hzero) H frontNs.length k i slave
    rw [letters_zero, ← List.append_nil (List.replicate k 0x61)] at hcopy
    obtain ⟨p, hp, hlettered⟩ := addLetters_spec hi hfront hcopy
    rw [List.append_nil] at hlettered
    exact ⟨p, heq.trans hp, hlettered⟩
  obtain ⟨out, hout⟩ := exists_nameSlaves cgpu frontNs.length k 1 slaves fun j hj slave => by
      obtain ⟨p, hp, -⟩ := hslave (1 + j) (by omega) slave
      exact ⟨p, hp⟩
  obtain ⟨hlen, hall⟩ := nameSlaves_getElem? hout
  refine ⟨out, hout, hlen, fun i p hp => ?_⟩
  cases i with
  | zero =>
      obtain rfl := Option.some.inj hp
      exact H
  | succ j =>
      obtain ⟨slave, hslaveEq⟩ := hall j p hp
      have hj := (List.getElem?_eq_some_iff.mp hp).1
      rw [List.length_cons] at hj
      obtain ⟨q, hq, hlettered⟩ := hslave (1 + j) (by omega) slave
      obtain rfl := Option.some.inj (hslaveEq.symm.trans hq)
      rwa [Nat.add_comm j 1]

end

/-! ## When the names are right -/

section
variable {devids : List UInt8 → Option ℕ} {maxLpdigits : ℕ} {drv : DrvName} {cgpu : ProcNames}
  {slaves : List ProcNames} {r : Renumbered}

/-- What stands before the letters, in either name. -/
def reprFront (drv : DrvName) (deviceId : ℕ) : CStr := drv.name.append (uintText2 (deviceId % 100))

def reprNsFront (drv : DrvName) (deviceId : ℕ) : CStr := drv.name.append (uintText deviceId)

theorem length_reprFront (drv : DrvName) (deviceId : ℕ) :
    (reprFront drv deviceId).bytes.length = 5 := by
  have hname : drv.name.bytes.length = 3 := drv.length_eq
  have htwo : (uintText2 (deviceId % 100)).bytes.length = 2 :=
    length_uintText2 (Nat.mod_lt _ (by decide))
  rw [reprFront, CStr.append, List.length_append, hname, htwo]

theorem length_reprNsFront (drv : DrvName) (deviceId : ℕ) :
    (reprNsFront drv deviceId).bytes.length = 3 + (uintText deviceId).length := by
  have hname : drv.name.bytes.length = 3 := drv.length_eq
  rw [reprNsFront, CStr.append, List.length_append, hname, CStr.length]

theorem reprFront_eq_concat (drv : DrvName) (deviceId : ℕ) :
    ∃ s c, (reprFront drv deviceId).bytes = s ++ [c] ∧ s.length = 4 ∧ c + 1 ≠ 0 := by
  obtain ⟨lead, c, hlead, hc⟩ := exists_lastDigit (deviceId % 100)
  have hlen := length_reprFront drv deviceId
  rw [reprFront, CStr.append, uintText2] at hlen ⊢
  dsimp only at hlen ⊢
  rw [hlead, ← List.append_assoc, ← List.append_assoc] at hlen ⊢
  rw [List.length_append, List.length_singleton] at hlen
  exact ⟨_, c, rfl, by omega, hc⟩

theorem reprNsFront_eq_concat (drv : DrvName) (deviceId : ℕ) :
    ∃ s c, (reprNsFront drv deviceId).bytes = s ++ [c] := by
  obtain ⟨lead, c, hlead, -⟩ := exists_lastDigit deviceId
  refine ⟨drv.name.bytes ++ lead, c, ?_⟩
  change drv.name.bytes ++ (uintText deviceId).bytes = _
  rw [hlead, List.append_assoc]

/-- There is room for the name and so many letters exactly if the number is short enough. -/
theorem room_iff (drv : DrvName) (deviceId : ℕ) {k : ℕ} (hk : k ≤ 3) :
    (reprNsFront drv deviceId).bytes.length + k ≤ 8 ↔ deviceId < 10 ^ (5 - k) := by
  rw [length_reprNsFront, ← length_uintText_le_iff (by omega)]
  omega

theorem nameDevice_spec (drv : DrvName) (deviceId : ℕ) (cgpu : ProcNames) :
    if (reprNsFront drv deviceId).bytes.length ≤ 8 then
      ∃ p, nameDevice (reprFront drv deviceId) (reprNsFront drv deviceId) cgpu = some p ∧
        Lettered (reprFront drv deviceId).bytes (reprNsFront drv deviceId).bytes [] p
    else nameDevice (reprFront drv deviceId) (reprNsFront drv deviceId) cgpu = none := by
  have hlen := length_reprFront drv deviceId
  obtain ⟨buf, hbuf, hholds⟩ := Bytes.holds_strcpy_zero cgpu.procRepr (reprFront drv deviceId)
    (by rw [CStr.length]; omega)
  rw [nameDevice, hbuf]
  split
  next hroom =>
    obtain ⟨bufNs, hbufNs, hholdsNs⟩ := Bytes.holds_strcpy_zero cgpu.procReprNs
      (reprNsFront drv deviceId) (by rw [CStr.length]; omega)
    refine ⟨⟨buf, bufNs⟩, by rw [hbufNs], ?_, ?_⟩
    · rw [List.append_nil]
      exact hholds
    · rw [List.append_nil]
      exact hholdsNs
  next hroom =>
    rw [Bytes.strcpy_eq_none (reprNsFront drv deviceId) (by rw [CStr.length]; omega)]

/-- Names that spell different numbers are different. -/
theorem nodup_of_spells (front : List UInt8) {l : List CStr}
    (H : ∀ i s, l[i]? = some s → Spells front s.bytes i) : l.Nodup := by
  rw [List.nodup_iff_getElem?_ne_getElem?]
  intro i j hij hj heq
  have hsome : l[j]? = some l[j] := List.getElem?_eq_getElem hj
  obtain ⟨a, ha, hnum⟩ := H i _ (heq.trans hsome)
  obtain ⟨b, hb, hnum'⟩ := H j _ hsome
  obtain rfl : a = b := List.append_cancel_left (ha.symm.trans hb)
  have hsame := congrArg Prod.fst (hnum.symm.trans hnum')
  dsimp only at hsame
  omega

theorem namesProcs_of_allLettered {n k : ℕ} (hk : k ≤ 3) (hn : n ≤ 26 ^ k)
    (hlen : r.procs.length = n) (hrepr : r.devRepr = reprFront drv r.deviceId)
    (H : AllLettered (reprFront drv r.deviceId).bytes (reprNsFront drv r.deviceId).bytes k
      r.procs) : r.NamesProcs drv n := by
  have hzero := zero_notMem_letters k
  have hlt : ∀ i p, r.procs[i]? = some p → i < 26 ^ k := by
    intro i p hp
    have hi := (List.getElem?_eq_some_iff.mp hp).1
    omega
  have hspells : ∀ i p, r.procs[i]? = some p →
      Spells r.devRepr.bytes (p.procRepr.cstrAt 0).bytes i := by
    intro i p hp
    have hnul : 0 ∉ (reprFront drv r.deviceId).bytes ++ letters k i := fun hin =>
      (List.mem_append.mp hin).elim (reprFront drv r.deviceId).nul_free (hzero i)
    rw [hrepr, (H i p hp).1.cstrAt_zero hnul]
    exact ⟨_, rfl, procLetterToNumber_letters hk (hlt i p hp)⟩
  have hspellsNs : ∀ i p, r.procs[i]? = some p →
      Spells (reprNsFront drv r.deviceId).bytes (p.procReprNs.cstrAt 0).bytes i := by
    intro i p hp
    have hnul : 0 ∉ (reprNsFront drv r.deviceId).bytes ++ letters k i := fun hin =>
      (List.mem_append.mp hin).elim (reprNsFront drv r.deviceId).nul_free (hzero i)
    rw [(H i p hp).2.cstrAt_zero hnul]
    exact ⟨_, rfl, procLetterToNumber_letters hk (hlt i p hp)⟩
  refine ⟨hlen, hspells, hspellsNs, nodup_of_spells r.devRepr.bytes fun i s hs => ?_,
    nodup_of_spells (reprNsFront drv r.deviceId).bytes fun i s hs => ?_⟩
  · rw [List.getElem?_map] at hs
    obtain ⟨p, hp, rfl⟩ := Option.map_eq_some_iff.mp hs
    exact hspells i p hp
  · rw [List.getElem?_map] at hs
    obtain ⟨p, hp, rfl⟩ := Option.map_eq_some_iff.mp hs
    exact hspellsNs i p hp

/-- How many letters the names of so many processors are given. -/
def lettersGiven (n : ℕ) : ℕ := if n ≤ 1 then 0 else lpDigits n 1

theorem lettersGiven_le (n : ℕ) : lettersGiven n ≤ 3 := by
  rw [lettersGiven, lpDigits_eq]
  split
  next => decide
  next =>
    split
    next => decide
    next => split <;> decide

theorem lettersGiven_eq_lettersNeeded {n : ℕ} (H : ¬ (677 ≤ n ∧ n ≤ 701)) :
    lettersGiven n = lettersNeeded n := by
  rw [lettersGiven]
  split
  next hone => rw [lettersNeeded, if_pos hone]
  next hone => exact lpDigits_eq_lettersNeeded (by omega) H

/-- Where there is room for the letters, the first processor is named and the others are named
after it; otherwise a buffer is left. -/
theorem renumberCgpu_spec (devids : List UInt8 → Option ℕ) (maxLpdigits : ℕ) (drv : DrvName)
    (cgpu : ProcNames) (slaves : List ProcNames) {deviceId k : ℕ}
    (hid : nextDeviceId devids drv = deviceId) (hk : lettersGiven (slaves.length + 1) = k) :
    if (reprNsFront drv deviceId).bytes.length + k ≤ 8 then
      ∃ (first : ProcNames) (mk : List ProcNames → Renumbered),
        Lettered (reprFront drv deviceId).bytes (reprNsFront drv deviceId).bytes (letters k 0)
          first ∧
        (∀ procs, (mk procs).procs = procs ∧ (mk procs).deviceId = deviceId ∧
          (mk procs).devRepr = reprFront drv deviceId) ∧
        renumberCgpu devids maxLpdigits drv cgpu slaves =
          (nameSlaves first (reprNsFront drv deviceId).bytes.length k 1 slaves).map
            fun slaves => mk (first :: slaves)
    else renumberCgpu devids maxLpdigits drv cgpu slaves = none := by
  subst hid
  have hspec := nameDevice_spec drv (nextDeviceId devids drv) cgpu
  by_cases hdevice : (reprNsFront drv (nextDeviceId devids drv)).bytes.length ≤ 8
  · rw [if_pos hdevice] at hspec
    obtain ⟨p, hp, hlettered⟩ := hspec
    rw [reprFront, reprNsFront] at hp
    rw [renumberCgpu]
    dsimp only
    rw [hp]
    dsimp only
    by_cases hmany : 1 < slaves.length + 1
    · have hcount : lpDigits (slaves.length + 1) 1 = k := by
        rw [← hk, lettersGiven, if_neg (by omega)]
      have hnul := (reprNsFront drv (nextDeviceId devids drv)).nul_free
      have hns : (p.procReprNs.cstrAt 0).length =
          (reprNsFront drv (nextDeviceId devids drv)).bytes.length := by
        have hholds := hlettered.2
        rw [List.append_nil] at hholds
        rw [CStr.length, hholds.cstrAt_zero hnul]
      have hfirst := firstLetters_spec (length_reprFront drv (nextDeviceId devids drv))
        (hk ▸ lettersGiven_le _) hnul hlettered
      rw [if_pos hmany, hcount, hns]
      split
      next hroom =>
        rw [if_pos hroom] at hfirst
        obtain ⟨first, hfirst, hzero⟩ := hfirst
        rw [hfirst]
        exact ⟨first, _, hzero, fun procs => ⟨rfl, rfl, rfl⟩, rfl⟩
      next hroom =>
        rw [if_neg hroom] at hfirst
        rw [hfirst]
    · have hnone : slaves = [] := List.length_eq_zero_iff.mp (by omega)
      subst hnone
      obtain rfl : k = 0 := hk.symm
      rw [if_neg hmany, Nat.add_zero, if_pos hdevice]
      exact ⟨p, fun procs => ⟨_, _, _, _, _, procs⟩, hlettered, fun procs => ⟨rfl, rfl, rfl⟩, rfl⟩
  · rw [if_neg hdevice] at hspec
    rw [if_neg (by omega)]
    rw [reprFront, reprNsFront] at hspec
    rw [renumberCgpu]
    dsimp only
    rw [hspec]

/-- Between 677 and 701 processors, the 677th has the letters of the first one, and the name of
the device in front of them is changed. -/
theorem not_namesProcs_of_three (hthree : 677 ≤ slaves.length + 1 ∧ slaves.length + 1 ≤ 701)
    (hr : renumberCgpu devids maxLpdigits drv cgpu slaves = some r) :
    ¬ r.NamesProcs drv (slaves.length + 1) := by
  intro H
  have hk : lettersGiven (slaves.length + 1) = 2 := by
    rw [lettersGiven, lpDigits_eq, if_neg (by omega), if_neg (by omega), if_pos (by omega)]
  have hspec := renumberCgpu_spec devids maxLpdigits drv cgpu slaves rfl hk
  generalize nextDeviceId devids drv = deviceId at hspec
  split at hspec
  next hroom =>
    obtain ⟨first, mk, hfirst, hmk, heq⟩ := hspec
    rw [hr] at heq
    obtain ⟨out, hout, hrout⟩ := Option.map_eq_some_iff.mp heq.symm
    obtain ⟨hprocs, -, hrepr⟩ := hmk (first :: out)
    rw [hrout] at hprocs hrepr
    obtain ⟨hlen, hall⟩ := nameSlaves_getElem? hout
    have hlast : 675 < out.length := by omega
    obtain ⟨slave, hslave⟩ := hall 675 _ (List.getElem?_eq_getElem hlast)
    have hspells := H.repr 676 out[675] (by rw [hprocs]; exact List.getElem?_eq_getElem hlast)
    generalize out[675] = p at hslave hspells
    obtain ⟨s, c, hs, hslen, hc⟩ := reprFront_eq_concat drv deviceId
    obtain ⟨sNs, cNs, hsNs⟩ := reprNsFront_eq_concat drv deviceId
    have hnul := (reprFront drv deviceId).nul_free
    have hnulNs := (reprNsFront drv deviceId).nul_free
    rw [hs] at hfirst hnul
    rw [hsNs] at hfirst hnulNs hslave
    obtain ⟨lets, hlets, -⟩ := hspells
    rw [nameSlave_three hslen hc hnul hnulNs hfirst hslave, hrepr, hs, List.append_assoc,
      List.singleton_append] at hlets
    have hhead := (List.cons.inj (List.append_cancel_left hlets)).1
    exact absurd hhead (by simp)
  next =>
    rw [hr] at hspec
    cases hspec

/-- **The names are right** exactly if the number of the device is short enough for the letters
that the processors need, and there are not between 677 and 701 of them. -/
theorem namesProcs_iff (devids : List UInt8 → Option ℕ) (maxLpdigits : ℕ) (drv : DrvName)
    (cgpu : ProcNames) (slaves : List ProcNames) (H : slaves.length + 1 ≤ 26 ^ 3) :
    (∃ r, renumberCgpu devids maxLpdigits drv cgpu slaves = some r ∧
      r.NamesProcs drv (slaves.length + 1)) ↔
      ¬ (677 ≤ slaves.length + 1 ∧ slaves.length + 1 ≤ 701) ∧
        nextDeviceId devids drv < 10 ^ (5 - lettersNeeded (slaves.length + 1)) := by
  by_cases hthree : 677 ≤ slaves.length + 1 ∧ slaves.length + 1 ≤ 701
  · refine ⟨fun ⟨r, hr, hnames⟩ => absurd hnames (not_namesProcs_of_three hthree hr), ?_⟩
    exact fun hcond => absurd hthree hcond.1
  · have hk := lettersGiven_eq_lettersNeeded hthree
    have hle := lettersNeeded_le (slaves.length + 1)
    have hspec := renumberCgpu_spec devids maxLpdigits drv cgpu slaves rfl hk
    have hroom := room_iff drv (nextDeviceId devids drv) hle
    constructor
    · rintro ⟨r, hr, -⟩
      refine ⟨hthree, hroom.mp ?_⟩
      by_contra hnot
      rw [if_neg hnot, hr] at hspec
      cases hspec
    · rintro ⟨-, hshort⟩
      rw [if_pos (hroom.mpr hshort)] at hspec
      obtain ⟨first, mk, hfirst, hmk, heq⟩ := hspec
      have hmany := le_pow_lettersNeeded H
      obtain ⟨out, hout, hlen, hall⟩ := nameSlaves_spec (length_reprFront drv _)
        (reprFront drv _).nul_free (reprNsFront drv _).nul_free hmany hfirst
      obtain ⟨hprocs, hid, hrepr⟩ := hmk (first :: out)
      refine ⟨mk (first :: out), by rw [heq, hout, Option.map_some], ?_⟩
      refine namesProcs_of_allLettered hle hmany ?_ ?_ ?_
      · rw [hprocs, List.length_cons, hlen]
      · rw [hrepr, hid]
      · rw [hprocs, hid]
        exact hall

end

/-- The driver of processors of the host. -/
def cpuDrv : DrvName := ⟨⟨[0x43, 0x50, 0x55], by decide⟩, rfl⟩

/-- Names that were not written yet. -/
def blankNames : ProcNames := ⟨Vector.replicate 9 0, Vector.replicate 9 0⟩

/-- A device of two processors. -/
theorem namesProcs_two :
    ∃ r, renumberCgpu (fun _ => none) 0 cpuDrv blankNames [blankNames] = some r ∧
      r.NamesProcs cpuDrv 2 :=
  (namesProcs_iff (fun _ => none) 0 cpuDrv blankNames [blankNames] (by decide)).mpr
    ⟨by decide, by decide⟩

/-- A device of 677 processors. -/
theorem not_namesProcs_many :
    ¬ ∀ (devids : List UInt8 → Option ℕ) (maxLpdigits : ℕ) (drv : DrvName) (cgpu : ProcNames)
      (slaves : List ProcNames), slaves.length + 1 ≤ 26 ^ 3 →
        ∃ r, renumberCgpu devids maxLpdigits drv cgpu slaves = some r ∧
          r.NamesProcs drv (slaves.length + 1) := by
  intro H
  have hlen : (List.replicate 676 blankNames).length = 676 := List.length_replicate
  obtain ⟨r, hr, hnames⟩ := H (fun _ => none) 0 cpuDrv blankNames (List.replicate 676 blankNames)
    (by rw [hlen]; decide)
  refine not_namesProcs_of_three ?_ hr hnames
  rw [hlen]
  decide

end MassGridMiner

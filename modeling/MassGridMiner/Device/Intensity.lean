import MassGridMiner.Lib.Strtod

/-!
# The intensity of a GPU

The intensity that is set before a GPU is there is checked, and what is left of its text is kept
and set again when the GPU is.  By then a letter in front has been read, so that it is missing the
second time, and what the number of threads depends on is still to come.

## Main definitions

* `setIntensityFromStr` — an intensity is set.
* `openclCreateClState` — the GPU is there.
* `SetsAgain` — what is expected of an intensity that is set before.
-/

namespace MassGridMiner

/-- The part of `struct opencl_device_data` that intensities are about. -/
structure IntensityData where
  oclthreads : ℕ
  intensity : DoubleValue
  initIntensity : Option (List UInt8)
  isDynamic : Bool

/-- `intensity_not_set`. -/
def intensityNotSet : DoubleValue := .ofRat DoubleValue.floatMax

/-- What `opencl_early_init` makes of a GPU. -/
def openclEarlyInit : IntensityData := ⟨0, intensityNotSet, none, true⟩

/-- `xintensity_to_oclthreads`.  No number converts to an `unsigned long` as it does on x86. -/
def xintensityToOclthreads (xintensity : DoubleValue) (maxComputeUnits : ℕ) : ℕ :=
  match xintensity with
  | .num (some (some x)) =>
    (truncate (roundDouble (roundDouble (x * maxComputeUnits) * 0x40))).toNat
  | _ => 2 ^ 63

/-- `min_intensity` and `max_intensity`. -/
structure IntensityRange where
  min : ℤ
  max : ℤ

/-- The number of threads, zero for none, and the intensity that a text asks for; or none where
it is not accepted.  The entry of the GPU's first thread in `clStates` is `clState`, with the
compute units that there are; without it nothing can be read from there. -/
def parseIntensity (range : IntensityRange) (clState : Option ℕ) (ready isDynamic : Bool)
    (val : List UInt8) : Option (Option (ℕ × DoubleValue)) :=
  if CStr.beginsNoCase [0x78] val then
    let v := (CStr.strtod (val.drop 1)).getD (DoubleValue.ofRat 0)
    if v.lt (DoubleValue.ofRat 1) || (DoubleValue.ofRat 9999).lt v then some none
    else if ready then
      clState.map fun maxComputeUnits =>
        some (xintensityToOclthreads v maxComputeUnits, intensityNotSet)
    else some (some (0, intensityNotSet))
  else
    match CStr.strtod val with
    | none => some (if isDynamic then some (0, intensityNotSet) else none)
    | some v =>
      if v.lt (DoubleValue.ofRat range.min) || (DoubleValue.ofRat range.max).lt v then some none
      else some (some (1, v.toFloat))

/-- `opencl_set_intensity_from_str`: whether the text is accepted, and what is made of it. -/
def setIntensityFromStr (range : IntensityRange) (clState : Option ℕ) (data : IntensityData)
    (val : List UInt8) : Option (Bool × IntensityData) :=
  let isDynamic := CStr.beginsNoCase [0x64] val
  let val := if isDynamic then val.drop 1 else val
  (parseIntensity range clState (data.oclthreads ≠ 0) isDynamic val).map fun
    | none => (false, data)
    | some (oclthreads, intensity) =>
      let data := { data with isDynamic }
      if data.oclthreads ≠ 0 then
        (true, if oclthreads ≠ 0 then { data with oclthreads, intensity } else data)
      else (true, { data with initIntensity := some val })

/-- `opencl_create_clState`, as far as intensities go.  Its result is not in `clStates` yet. -/
def openclCreateClState (range : IntensityRange) (data : IntensityData) : Option IntensityData :=
  match data.initIntensity with
  | some val =>
    (setIntensityFromStr range none { data with oclthreads := 1 } val).map Prod.snd
  | none => some { data with oclthreads := 1, intensity := .ofRat (-2 ^ 31) }

/-- An intensity: a `d` that may be missing; and nothing, a number, or an `x` and a number. -/
def IsIntensity (val : List UInt8) : Prop :=
  ∃ mark body, val = mark ++ body ∧ (mark = [] ∨ ∃ c, mark = [c] ∧ CStr.tolower c = 0x64) ∧
    (body = [] ∨ (CStr.strtod body).isSome = true ∨
      ∃ c number, body = c :: number ∧ CStr.tolower c = 0x78 ∧ (CStr.strtod number).isSome = true)

/-- A GPU that is not there yet. -/
structure Uninitialised (data : IntensityData) : Prop where
  oclthreads : data.oclthreads = 0
  intensity : data.intensity = intensityNotSet

/-- What the threads go by. -/
def IntensityData.Same (a b : IntensityData) : Prop :=
  a.isDynamic = b.isDynamic ∧ a.intensity = b.intensity ∧ a.oclthreads = b.oclthreads

/-- A text that is accepted before the GPU is there is as good as one that is set on the GPU with
nothing set before, and one that is rejected changes nothing. -/
structure SetsAgain (range : IntensityRange) (maxComputeUnits : ℕ) (data : IntensityData)
    (val : List UInt8) : Prop where
  reapplied : ∀ data', setIntensityFromStr range none data val = some (true, data') →
    ∃ initialised again direct, openclCreateClState range { data with initIntensity := none } =
      some initialised ∧ openclCreateClState range data' = some again ∧
      setIntensityFromStr range (some maxComputeUnits) initialised val = some (true, direct) ∧
      again.Same direct
  rejected : ∀ clState before after,
    setIntensityFromStr range clState before val = some (false, after) → after = before

/-- A number without a letter in front. -/
def IsPlain (val : List UInt8) : Prop :=
  CStr.beginsNoCase [0x64] val = false ∧ CStr.beginsNoCase [0x78] val = false

section
variable {range : IntensityRange} {data : IntensityData} {val : List UInt8}

theorem uninitialised_openclEarlyInit : Uninitialised openclEarlyInit := ⟨rfl, rfl⟩

/-- A GPU that is not there yet is not there when an intensity has been set for it. -/
theorem Uninitialised.setIntensityFromStr {data' : IntensityData} {ok : Bool}
    (H : Uninitialised data) {clState : Option ℕ}
    (hset : setIntensityFromStr range clState data val = some (ok, data')) :
    Uninitialised data' := by
  obtain ⟨parsed, -, hparsed⟩ := Option.map_eq_some_iff.mp hset
  match parsed, hparsed with
  | none, hparsed =>
    obtain rfl := (Prod.mk.inj hparsed).2
    exact H
  | some (oclthreads, intensity), hparsed =>
    simp only [H.oclthreads, ne_eq, not_true_eq_false, if_false] at hparsed
    obtain rfl := (Prod.mk.inj hparsed).2
    exact ⟨rfl, H.intensity⟩

theorem beginsNoCase_singleton (d c : UInt8) (s : List UInt8) :
    CStr.beginsNoCase [d] (c :: s) = true ↔ CStr.tolower c = CStr.tolower d := by
  rw [CStr.beginsNoCase, List.map_cons, List.map_cons, List.isPrefixOf_cons_cons, Bool.and_eq_true,
    beq_iff_eq]
  exact ⟨fun h => h.1.symm, fun h => ⟨h.symm, rfl⟩⟩

/-- A text that a number starts has no letter in front. -/
theorem isPlain_of_strtod (H : (CStr.strtod val).isSome = true) : IsPlain val := by
  cases val with
  | nil => exact ⟨rfl, rfl⟩
  | cons c s =>
    refine ⟨Bool.eq_false_iff.mpr fun hd => ?_, Bool.eq_false_iff.mpr fun hx => ?_⟩
    · rw [CStr.strtod_cons_letter (.inl ((beginsNoCase_singleton _ _ _).mp hd))] at H
      cases H
    · rw [CStr.strtod_cons_letter (.inr ((beginsNoCase_singleton _ _ _).mp hx))] at H
      cases H

/-- A text that is rejected changes nothing. -/
theorem eq_of_setIntensityFromStr {clState : Option ℕ} {after : IntensityData}
    (hset : setIntensityFromStr range clState data val = some (false, after)) : after = data := by
  obtain ⟨parsed, -, hparsed⟩ := Option.map_eq_some_iff.mp hset
  match parsed, hparsed with
  | none, hparsed => exact (Prod.mk.inj hparsed).2.symm
  | some (oclthreads, intensity), hparsed =>
    dsimp only at hparsed
    split at hparsed <;> cases hparsed

/-- Without an `x` the same is asked for whether the GPU is there or not. -/
theorem parseIntensity_of_not_x (hx : CStr.beginsNoCase [0x78] val = false) (clState : Option ℕ)
    (ready isDynamic : Bool) : parseIntensity range clState ready isDynamic val =
      parseIntensity range none false isDynamic val := by
  rw [parseIntensity, parseIntensity, hx]
  rfl

/-- A number without a letter, the GPU being there or not. -/
theorem setIntensityFromStr_of_isPlain (hplain : IsPlain val) (clState : Option ℕ) :
    setIntensityFromStr range clState data val =
      (parseIntensity range none false false val).map fun
        | none => (false, data)
        | some (oclthreads, intensity) =>
          let data := { data with isDynamic := false }
          if data.oclthreads ≠ 0 then
            (true, if oclthreads ≠ 0 then { data with oclthreads, intensity } else data)
          else (true, { data with initIntensity := some val }) := by
  rw [setIntensityFromStr, hplain.1]
  dsimp only
  rw [if_neg (by decide), parseIntensity_of_not_x hplain.2]

/-- A number without a letter asks for a thread. -/
theorem fst_eq_one_of_parseIntensity (hplain : IsPlain val) {oclthreads : ℕ}
    {intensity : DoubleValue}
    (hparse : parseIntensity range none false false val = some (some (oclthreads, intensity))) :
    oclthreads = 1 := by
  rw [parseIntensity, hplain.2, if_neg (by decide)] at hparse
  cases hnumber : CStr.strtod val with
  | none =>
    rw [hnumber] at hparse
    cases hparse
  | some v =>
    rw [hnumber] at hparse
    dsimp only at hparse
    split at hparse
    · cases hparse
    · exact (Prod.mk.inj (Option.some.inj (Option.some.inj hparse))).1.symm

/-- **A number without a letter** is set again as it was set first. -/
theorem setsAgain_of_isPlain (H : Uninitialised data) (hplain : IsPlain val) (units : ℕ) :
    SetsAgain range units data val where
  rejected _ _ _ := eq_of_setIntensityFromStr
  reapplied data' hset := by
    rw [setIntensityFromStr_of_isPlain hplain] at hset
    obtain ⟨parsed, hparse, hparsed⟩ := Option.map_eq_some_iff.mp hset
    match parsed, hparsed with
    | some (oclthreads, intensity), hparsed =>
      obtain rfl := fst_eq_one_of_parseIntensity hplain hparse
      simp only [H.oclthreads, ne_eq, not_true_eq_false, if_false] at hparsed
      obtain rfl := (Prod.mk.inj hparsed).2
      refine ⟨_, ⟨1, intensity, some val, false⟩, ⟨1, intensity, none, false⟩, rfl, ?_, ?_, rfl,
        rfl, rfl⟩
      · rw [openclCreateClState]
        dsimp only
        rw [setIntensityFromStr_of_isPlain hplain, hparse]
        rfl
      · rw [setIntensityFromStr_of_isPlain hplain, hparse]
        rfl

/-- What is accepted before the GPU is there is kept, without a `d` in front. -/
theorem Uninitialised.kept (H : Uninitialised data) {data' : IntensityData}
    (hset : MassGridMiner.setIntensityFromStr range none data val = some (true, data')) :
    ∃ kept parsed, kept = (if CStr.beginsNoCase [0x64] val then val.drop 1 else val) ∧
      parseIntensity range none false (CStr.beginsNoCase [0x64] val) kept = some (some parsed) ∧
      data' = { data with
        isDynamic := CStr.beginsNoCase [0x64] val
        initIntensity := some kept } := by
  rw [MassGridMiner.setIntensityFromStr] at hset
  obtain ⟨parsed, hparse, hparsed⟩ := Option.map_eq_some_iff.mp hset
  simp only [H.oclthreads, ne_eq, not_true_eq_false, decide_false, if_false] at hparse hparsed
  match parsed, hparsed with
  | some parsed, hparsed =>
    refine ⟨_, parsed, rfl, hparse, ?_⟩
    obtain rfl := (Prod.mk.inj hparsed).2
    rw [← H.oclthreads]

/-- An `x` that is accepted is looked up in `clStates` when it is set again. -/
theorem openclCreateClState_x {isDynamic : Bool} {parsed : ℕ × DoubleValue}
    (hx : CStr.beginsNoCase [0x78] val = true)
    (haccept : parseIntensity range none false isDynamic val = some (some parsed)) :
    openclCreateClState range { data with isDynamic, initIntensity := some val } = none := by
  have hd : CStr.beginsNoCase [0x64] val = false := by
    cases val with
    | nil => rfl
    | cons c s =>
      rw [beginsNoCase_singleton] at hx
      rw [Bool.eq_false_iff, ne_eq, beginsNoCase_singleton, hx]
      decide
  rw [parseIntensity, if_pos hx] at haccept
  dsimp only at haccept
  split at haccept
  · cases haccept
  · next hrange =>
    have hcrash : parseIntensity range none true false val = none := by
      rw [parseIntensity, if_pos hx]
      dsimp only
      rw [if_neg hrange]
      rfl
    rw [openclCreateClState]
    dsimp only
    rw [setIntensityFromStr, hd]
    dsimp only
    rw [if_neg (by decide), show decide (1 ≠ 0) = true from rfl, hcrash]
    rfl

/-- A text that is accepted sets whether the GPU is dynamic. -/
theorem isDynamic_of_setIntensityFromStr {clState : Option ℕ} {after : IntensityData}
    (hset : setIntensityFromStr range clState data val = some (true, after)) :
    after.isDynamic = CStr.beginsNoCase [0x64] val := by
  obtain ⟨parsed, -, hparsed⟩ := Option.map_eq_some_iff.mp hset
  match parsed, hparsed with
  | some (oclthreads, intensity), hparsed =>
    dsimp only at hparsed
    split at hparsed
    · obtain rfl := (Prod.mk.inj hparsed).2
      split <;> rfl
    · obtain rfl := (Prod.mk.inj hparsed).2
      rfl

/-- An intensity with a `d` that no number follows. -/
theorem drop_eq_nil_of_isIntensity (hval : IsIntensity val)
    (hd : CStr.beginsNoCase [0x64] val = true)
    (hx : CStr.beginsNoCase [0x78] (val.drop 1) = false)
    (hnumber : CStr.strtod (val.drop 1) = none) : val.drop 1 = [] := by
  obtain ⟨mark, body, rfl, rfl | ⟨c, rfl, -⟩, hbody⟩ := hval
  · exfalso
    rw [List.nil_append] at hd
    rcases hbody with rfl | hsome | ⟨c, number, rfl, hc, -⟩
    · cases hd
    · rw [(isPlain_of_strtod hsome).1] at hd
      cases hd
    · rw [beginsNoCase_singleton, hc] at hd
      revert hd
      decide
  · rw [List.singleton_append, List.drop_one, List.tail_cons] at hx hnumber ⊢
    rcases hbody with rfl | hsome | ⟨c, number, rfl, hc, -⟩
    · rfl
    · rw [hnumber] at hsome
      cases hsome
    · rw [Bool.eq_false_iff, ne_eq, beginsNoCase_singleton, hc] at hx
      exact absurd rfl hx

/-- **With a letter** it is not. -/
theorem isPlain_of_setsAgain (H : Uninitialised data) (hval : IsIntensity val) {units : ℕ}
    {data' : IntensityData} (hset : setIntensityFromStr range none data val = some (true, data'))
    (hagain : SetsAgain range units data val) : IsPlain val := by
  obtain ⟨initialised, again, direct, hinit, hcreate, hdirect, hdynamic, hintensity, -⟩ :=
    hagain.reapplied data' hset
  obtain ⟨kept, parsed, hkept, hparse, rfl⟩ := H.kept hset
  cases hx : CStr.beginsNoCase [0x78] kept with
  | true =>
    -- nothing comes back
    rw [openclCreateClState_x hx hparse] at hcreate
    cases hcreate
  | false =>
    cases hd : CStr.beginsNoCase [0x64] val with
    | false =>
      rw [hd, if_neg (by decide)] at hkept
      exact ⟨hd, hkept ▸ hx⟩
    | true =>
      rw [hd] at hparse hkept hcreate
      rw [if_pos rfl] at hkept
      exfalso
      cases hnumber : CStr.strtod kept with
      | some v =>
        -- the second time it is not dynamic
        have hplain : IsPlain kept := isPlain_of_strtod (by rw [hnumber]; rfl)
        have hparse' : parseIntensity range none false false kept = some (some parsed) := by
          rw [parseIntensity, hx, if_neg (by decide), hnumber] at hparse ⊢
          exact hparse
        obtain ⟨⟨ok, again'⟩, hset', rfl⟩ := Option.map_eq_some_iff.mp hcreate
        have haccepted : ok = true := by
          rw [setIntensityFromStr_of_isPlain hplain, hparse'] at hset'
          exact (Prod.mk.inj (Option.some.inj hset')).1.symm
        rw [haccepted] at hset'
        have hagain' := isDynamic_of_setIntensityFromStr hset'
        have hdirect' := isDynamic_of_setIntensityFromStr hdirect
        rw [hplain.1] at hagain'
        rw [hd] at hdirect'
        rw [hagain', hdirect'] at hdynamic
        cases hdynamic
      | none =>
        -- the second time there is nothing left
        obtain rfl : kept = [] := hkept ▸ drop_eq_nil_of_isIntensity hval hd (hkept ▸ hx)
          (hkept ▸ hnumber)
        obtain rfl := Option.some.inj hinit
        obtain rfl := Option.some.inj hcreate
        have hplus : direct.intensity = DoubleValue.ofRat (-2 ^ 31) := by
          rw [setIntensityFromStr, hd] at hdirect
          dsimp only at hdirect
          rw [if_pos rfl, ← hkept] at hdirect
          exact (congrArg IntensityData.intensity (Prod.mk.inj (Option.some.inj hdirect)).2).symm
        rw [hplus] at hintensity
        have hne := DoubleValue.ofRat_inj (H.intensity.symm.trans hintensity)
        norm_num [DoubleValue.floatMax] at hne

/-- **An intensity that is set before the GPU is there** is as good as one that is set on it, if
it is accepted, exactly if it is a number without a letter. -/
theorem setsAgain_iff (range : IntensityRange) (units : ℕ) (data : IntensityData)
    (H : Uninitialised data) (val : List UInt8) (hval : IsIntensity val) :
    SetsAgain range units data val ↔
      ((∃ data', setIntensityFromStr range none data val = some (true, data')) → IsPlain val) := by
  constructor
  · rintro hagain ⟨data', hset⟩
    exact isPlain_of_setsAgain H hval hset hagain
  · intro hplain
    constructor
    case rejected => exact fun _ _ _ => eq_of_setIntensityFromStr
    case reapplied =>
      intro data' hset
      exact (setsAgain_of_isPlain H (hplain ⟨data', hset⟩) units).reapplied data' hset

end

/-- The intensity `10`, for a GPU as it is at first. -/
theorem setsAgain_iff_ten :
    SetsAgain ⟨-10, 31⟩ 28 openclEarlyInit [0x31, 0x30] ↔
      ((∃ data', setIntensityFromStr ⟨-10, 31⟩ none openclEarlyInit [0x31, 0x30] =
        some (true, data')) → IsPlain [0x31, 0x30]) :=
  setsAgain_iff ⟨-10, 31⟩ 28 openclEarlyInit uninitialised_openclEarlyInit [0x31, 0x30]
    ⟨[], [0x31, 0x30], rfl, .inl rfl, .inr (.inl rfl)⟩

/-- The intensity `d10` is not dynamic when it is set again. -/
theorem not_setsAgain_dynamicTen :
    ¬ SetsAgain ⟨-10, 31⟩ 28 openclEarlyInit [0x64, 0x31, 0x30] := by
  intro hagain
  have hnumber : CStr.strtod [0x31, 0x30] = some (CStr.nearest 10) := by
    have hvalue : CStr.strtod [0x31, 0x30] = some (CStr.nearest ((10 : ℕ) * 10 ^ (0 : ℤ))) := rfl
    rw [hvalue]
    norm_num
  have hnearest : CStr.nearest 10 = DoubleValue.ofRat (roundDouble 10) := by
    have hten : (10 : ℚ) ≤ 2 ^ 4 := by norm_num
    exact CStr.nearest_of_le (hten.trans (pow_le_pow_right₀ (by norm_num) (by norm_num)))
  have hlow : ¬ roundDouble 10 < -10 := by
    have hpos := roundDouble_nonneg (show (0 : ℚ) ≤ 10 by norm_num)
    linarith
  have hhigh : ¬ 31 < roundDouble 10 :=
    not_lt.mpr (roundDouble_le (isDouble_natCast (n := 31) (by norm_num)) (by norm_num)
      (by norm_num))
  have hset : setIntensityFromStr ⟨-10, 31⟩ none openclEarlyInit [0x64, 0x31, 0x30] =
      some (true, { openclEarlyInit with initIntensity := some [0x31, 0x30] }) := by
    have hparse : parseIntensity ⟨-10, 31⟩ none false true [0x31, 0x30] =
        some (some (1, (DoubleValue.ofRat (roundDouble 10)).toFloat)) := by
      rw [parseIntensity, if_neg (by decide), hnumber, hnearest]
      dsimp only
      rw [DoubleValue.ofRat_lt, DoubleValue.ofRat_lt, if_neg]
      push_cast
      simp [hlow, hhigh]
    exact congrArg (Option.map _) hparse
  have hplain := isPlain_of_setsAgain uninitialised_openclEarlyInit
    ⟨[0x64], [0x31, 0x30], rfl, .inr ⟨_, rfl, rfl⟩, .inr (.inl rfl)⟩ hset hagain
  exact absurd hplain.1 (by decide)

end MassGridMiner

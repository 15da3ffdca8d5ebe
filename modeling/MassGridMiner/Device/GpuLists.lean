import MassGridMiner.Lib.Atof
import Mathlib.Data.List.Infix

/-!
# Options with a value for each GPU

An option of the OpenCL driver is a list of values, one for each GPU in order, or one for them
all.  `_set_list` cuts the list and calls a setter of the option; `set_gpu_map` has a loop of its
own, and its values name the GPU that they are for.

## Main definitions

* `setList` — the calls of a setter.
* `setGpuMap` — the map of GPUs.
* `ListLaw`, `MapLaw` — what is expected of them.
* `ListSound`, `MapSound` — the conditions for that.
-/

namespace MassGridMiner

/-- The elements that `strtok` finds between commas. -/
def strtokElements (arg : List UInt8) : List (List UInt8) :=
  (arg.splitOn 0x2c).filter fun element => !element.isEmpty

/-! ## A setter for each GPU -/

section
universe u
variable {σ : Type u}

/-- A run of setters: the GPUs that they are called with and what for, what they leave, and
whether the last one has accepted its value. -/
structure SetterCalls (σ : Type u) where
  calls : List (ℕ × List UInt8)
  state : σ
  accepted : Bool

variable (setFunc : ℕ → List UInt8 → σ → Bool × σ)

/-- The setter is called for GPU after GPU, until it accepts a value no more. -/
def setEach : ℕ → List (List UInt8) → σ → SetterCalls σ
  | _, [], s => ⟨[], s, true⟩
  | device, element :: rest, s =>
    let (ok, s) := setFunc device element s
    if ok then
      let after := setEach (device + 1) rest s
      { after with calls := (device, element) :: after.calls }
    else ⟨[(device, element)], s, false⟩

/-- The setter is called for the other GPUs, whatever it makes of that. -/
def setOthers (buf : List UInt8) (s : σ) : List ℕ → SetterCalls σ
  | [] => ⟨[], s, true⟩
  | device :: rest =>
    let after := setOthers buf (setFunc device buf s).2 rest
    { after with calls := (device, buf) :: after.calls }

/-- `_set_list`, with a copy of 15 bytes of the first value. -/
def setList (arg : List UInt8) (s : σ) : SetterCalls σ :=
  match strtokElements arg with
  | [] => ⟨[], s, false⟩
  | first :: rest =>
    let run := setEach setFunc 0 (first :: rest) s
    if run.accepted && rest.isEmpty then
      let others := setOthers setFunc (first.take 15) run.state (List.range' 1 15)
      { others with calls := run.calls ++ others.calls }
    else run

/-- The setter is called for GPUs that there are; with the element that comes as far in the list
as the GPU, and with every element unless one is not accepted; and where there is a single
element that is accepted, with that element for every GPU. -/
structure ListLaw (arg : List UInt8) (s : σ) : Prop where
  inside : ∀ call ∈ (setList setFunc arg s).calls, call.1 < 16
  each : (strtokElements arg).length ≠ 1 →
    (setList setFunc arg s).calls <+: (strtokElements arg).zipIdx.map Prod.swap ∧
      ((setList setFunc arg s).accepted = true →
        (setList setFunc arg s).calls = (strtokElements arg).zipIdx.map Prod.swap)
  all : ∀ element, strtokElements arg = [element] → (setFunc 0 element s).1 = true →
    (setList setFunc arg s).calls = (List.range 16).map fun device => (device, element)

/-- The setter accepts the values one after the other. -/
def Accepts : ℕ → List (List UInt8) → σ → Prop
  | _, [], _ => True
  | device, element :: rest, s =>
    (setFunc device element s).1 = true ∧ Accepts (device + 1) rest (setFunc device element s).2

/-- There are no more values than GPUs, unless one that has a GPU is not accepted; and a single
one that is accepted is shorter than the copy of it. -/
def ListSound (arg : List UInt8) (s : σ) : Prop :=
  ((strtokElements arg).length ≤ 16 ∨ ¬ Accepts setFunc 0 ((strtokElements arg).take 16) s) ∧
    ∀ element, strtokElements arg = [element] → (setFunc 0 element s).1 = true →
      element.length ≤ 15

end

/-! ## The map of GPUs -/

/-- `sscanf` with `%d:%d`, if it reads both numbers. -/
def scanPair (s : List UInt8) : Option (ℤ × ℤ) :=
  match CStr.scanInt s with
  | some (val1, 0x3a :: rest) => (CStr.scanInt rest).map fun second => (val1, second.1)
  | _ => none

/-- What the map is about in a GPU's data. -/
structure GpuMapping where
  virtualAdl : ℤ
  mapped : Bool

/-- The values that `set_gpu_map` has nothing against. -/
def mapAccepts (val1 val2 : ℤ) : Bool :=
  !(decide (val1 < 0) || decide (val1 > 16) || decide (val2 < 0) || decide (val2 > 16))

/-- The loop of `set_gpu_map`: what it returns, or none where it leaves the GPUs. -/
def mapEach : List (List UInt8) → Vector GpuMapping 16 →
    Option (Option String × Vector GpuMapping 16)
  | [], gpus => some (none, gpus)
  | element :: rest, gpus =>
    match scanPair element with
    | none => some (some "Invalid description for map pair", gpus)
    | some (val1, val2) =>
      if mapAccepts val1 val2 then
        if h : val1.toNat < 16 then mapEach rest (gpus.set val1.toNat ⟨val2, true⟩ h) else none
      else some (some "Invalid value passed to set_gpu_map", gpus)

/-- `set_gpu_map`.  The first pair is read from the start of the argument, commas in front of it
included. -/
def setGpuMap (arg : List UInt8) (gpus : Vector GpuMapping 16) :
    Option (Option String × Vector GpuMapping 16) :=
  match strtokElements arg with
  | [] => some (some "Invalid parameters for set gpu map", gpus)
  | first :: rest => mapEach ((arg.takeWhile (· == 0x2c) ++ first) :: rest) gpus

/-- The pairs that elements spell, up to the first that is not accepted. -/
def acceptedPairs : List (List UInt8) → List (ℤ × ℤ)
  | [] => []
  | element :: rest =>
    match scanPair element with
    | none => []
    | some pair => if mapAccepts pair.1 pair.2 then pair :: acceptedPairs rest else []

/-- The pairs of a list. -/
def mapPairs (arg : List UInt8) : List (ℤ × ℤ) :=
  match strtokElements arg with
  | [] => []
  | first :: rest => acceptedPairs ((arg.takeWhile (· == 0x2c) ++ first) :: rest)

/-- What is known of a GPU when pairs have been accepted: what the last one for it says. -/
def mappingAfter (pairs : List (ℤ × ℤ)) (i : ℕ) (before : GpuMapping) : GpuMapping :=
  match pairs.reverse.find? fun pair => decide (pair.1 = (i : ℤ)) with
  | some pair => ⟨pair.2, true⟩
  | none => before

/-- Nothing but the GPUs is written to, and each of them is mapped as the accepted pairs say. -/
def MapLaw (arg : List UInt8) (gpus : Vector GpuMapping 16) : Prop :=
  ∃ message gpus', setGpuMap arg gpus = some (message, gpus') ∧
    ∀ (i : ℕ) (_ : i < 16), gpus'[i] = mappingAfter (mapPairs arg) i gpus[i]

/-- No accepted pair is for the GPU behind the last one. -/
def MapSound (arg : List UInt8) : Prop := ∀ pair ∈ mapPairs arg, pair.1 ≠ 16

/-! ## Lists -/

section
universe u
variable {σ : Type u} (setFunc : ℕ → List UInt8 → σ → Bool × σ)

/-- As many setters are called as there are values up to the first that is not accepted. -/
theorem length_calls_setEach_le_iff (elements : List (List UInt8)) (device n : ℕ) (s : σ) :
    (setEach setFunc device elements s).calls.length ≤ n ↔
      elements.length ≤ n ∨ ¬ Accepts setFunc device (elements.take n) s := by
  induction elements generalizing device n s with
  | nil => simp [setEach]
  | cons element rest ih =>
    cases n with
    | zero =>
      have hcalled : 0 < (setEach setFunc device (element :: rest) s).calls.length := by
        rw [setEach]
        dsimp only
        split <;> exact Nat.succ_pos _
      simp only [Nat.le_zero, List.length_cons, List.take_zero, Accepts, not_true_eq_false,
        or_false]
      exact iff_of_false hcalled.ne' (Nat.succ_ne_zero _)
    | succ n =>
      rw [setEach, List.take_succ_cons, Accepts, List.length_cons]
      dsimp only
      cases hok : (setFunc device element s).1 with
      | true =>
        rw [if_pos rfl, List.length_cons, Nat.add_le_add_iff_right, Nat.add_le_add_iff_right, ih,
          eq_self_iff_true, true_and]
      | false =>
        rw [if_neg (by decide)]
        exact iff_of_true (Nat.succ_le_succ (Nat.zero_le n)) (.inr fun h => by cases h.1)

/-- The calls are for one GPU after the other. -/
theorem calls_setEach_start (elements : List (List UInt8)) (device : ℕ) (s : σ) :
    (setEach setFunc device elements s).calls <+: (elements.zipIdx device).map Prod.swap ∧
      ((setEach setFunc device elements s).accepted = true →
        (setEach setFunc device elements s).calls = (elements.zipIdx device).map Prod.swap) := by
  induction elements generalizing device s with
  | nil => simp [setEach]
  | cons element rest ih =>
    rw [setEach, List.zipIdx_cons, List.map_cons]
    dsimp only
    cases hok : (setFunc device element s).1 with
    | true =>
      obtain ⟨hstart, hall⟩ := ih (device + 1) (setFunc device element s).2
      rw [if_pos rfl]
      exact ⟨List.cons_prefix_cons.mpr ⟨rfl, hstart⟩, fun h => congrArg _ (hall h)⟩
    | false =>
      rw [if_neg (by decide)]
      exact ⟨List.cons_prefix_cons.mpr ⟨rfl, List.nil_prefix⟩, fun h => by cases h⟩

theorem calls_setOthers (buf : List UInt8) (s : σ) (devices : List ℕ) :
    (setOthers setFunc buf s devices).calls = devices.map fun device => (device, buf) := by
  induction devices generalizing s with
  | nil => rfl
  | cons device rest ih => exact congrArg _ (ih _)

/-- The GPUs that setters are called for are there as long as there are not too many calls. -/
theorem forall_calls_setEach_iff (elements : List (List UInt8)) (s : σ) :
    (∀ call ∈ (setEach setFunc 0 elements s).calls, call.1 < 16) ↔
      (setEach setFunc 0 elements s).calls.length ≤ 16 := by
  obtain ⟨calls, hcalls⟩ : ∃ calls, calls = (setEach setFunc 0 elements s).calls := ⟨_, rfl⟩
  have hstart := ((calls_setEach_start setFunc elements 0 s).1).map Prod.fst
  have hsnd : ((elements.zipIdx 0).map Prod.swap).map Prod.fst = List.range' 0 elements.length := by
    rw [List.map_map, ← List.zipIdx_map_snd]
    rfl
  rw [hsnd, ← hcalls] at hstart
  rw [← hcalls]
  obtain ⟨others, happend⟩ := hstart
  obtain ⟨count, -, hcount, -⟩ := List.range'_eq_append_iff.mp happend.symm
  have hdevices : calls.map Prod.fst = List.range' 0 calls.length := by
    rw [hcount, ← List.length_map (f := Prod.fst), hcount, List.length_range']
  constructor
  · intro hall
    by_contra hmany
    have hmem : 16 ∈ calls.map Prod.fst := by
      rw [hdevices]
      exact List.mem_range'_1.mpr ⟨Nat.zero_le _, by omega⟩
    obtain ⟨call, hcall, heq⟩ := List.mem_map.mp hmem
    exact (hall call hcall).ne heq
  · intro hfew call hcall
    have hmem : call.1 ∈ calls.map Prod.fst := List.mem_map_of_mem hcall
    rw [hdevices] at hmem
    have := (List.mem_range'_1.mp hmem).2
    omega

/-- **A list** is set as expected exactly if it is sound. -/
theorem listLaw_iff (arg : List UInt8) (s : σ) :
    ListLaw setFunc arg s ↔ ListSound setFunc arg s := by
  cases helements : strtokElements arg with
  | nil =>
    have hlist : setList setFunc arg s = ⟨[], s, false⟩ := by rw [setList, helements]
    refine iff_of_true ⟨?_, fun _ => ⟨?_, ?_⟩, ?_⟩ ⟨.inl ?_, ?_⟩
    · rw [hlist]
      exact fun _ hcall => by cases hcall
    · rw [hlist]
      exact List.nil_prefix
    · rw [hlist]
      exact fun h => by cases h
    · rw [helements]
      exact fun _ h => by cases h
    · rw [helements]
      exact Nat.zero_le _
    · rw [helements]
      exact fun _ h => by cases h
  | cons first rest =>
    cases rest with
    | nil =>
      have hsound : ListSound setFunc arg s ↔
          ((setFunc 0 first s).1 = true → first.length ≤ 15) := by
        rw [ListSound, helements]
        constructor
        · exact fun h => h.2 first rfl
        · refine fun h => ⟨.inl (by simp), ?_⟩
          rintro element heq
          obtain rfl := (List.cons.inj heq).1
          exact h
      rw [hsound]
      cases hok : (setFunc 0 first s).1 with
      | false =>
        have hcalls : (setList setFunc arg s).calls = [(0, first)] := by
          rw [setList, helements]
          simp [setEach, hok]
        refine iff_of_true ⟨?_, fun hne => absurd (by rw [helements]; rfl) hne, ?_⟩ fun h => by
          cases h
        · rw [hcalls]
          intro call hcall
          obtain rfl := List.mem_singleton.mp hcall
          exact Nat.zero_lt_succ _
        · rw [helements]
          intro element heq haccepted
          obtain rfl := (List.cons.inj heq).1
          rw [hok] at haccepted
          cases haccepted
      | true =>
        have hcalls : (setList setFunc arg s).calls =
            (0, first) :: (List.range' 1 15).map fun device => (device, first.take 15) := by
          rw [setList, helements]
          simp only [setEach, hok, if_true, Bool.true_and, List.isEmpty_nil, calls_setOthers,
            List.singleton_append]
        constructor
        · intro h _
          have hall := h.all first helements hok
          rw [hcalls] at hall
          have hsecond := congrArg (fun calls => calls[1]?) hall
          have htake : first.take 15 = first :=
            (Prod.mk.inj (Option.some.inj hsecond)).2
          exact (List.take_eq_self_iff _).mp htake
        · intro h
          have htake : first.take 15 = first := List.take_of_length_le (h rfl)
          rw [htake] at hcalls
          refine ⟨?_, fun hne => absurd (by rw [helements]; rfl) hne, ?_⟩
          · rw [hcalls]
            intro call hcall
            rcases List.mem_cons.mp hcall with rfl | hcall
            · exact Nat.zero_lt_succ _
            · obtain ⟨device, hdevice, rfl⟩ := List.mem_map.mp hcall
              exact (List.mem_range'_1.mp hdevice).2
          · rw [helements]
            intro element heq _
            obtain rfl := (List.cons.inj heq).1
            exact hcalls
    | cons second rest =>
      have hlist : setList setFunc arg s = setEach setFunc 0 (first :: second :: rest) s := by
        rw [setList, helements]
        dsimp only
        rw [List.isEmpty_cons, Bool.and_false, if_neg (by decide)]
      have hstart := calls_setEach_start setFunc (first :: second :: rest) 0 s
      rw [ListSound, helements, ← length_calls_setEach_le_iff, ← forall_calls_setEach_iff, ← hlist]
      rw [← hlist] at hstart
      constructor
      · exact fun h => ⟨h.inside, fun _ heq => by cases heq⟩
      · refine fun h => ⟨h.1, fun _ => helements ▸ hstart, ?_⟩
        rw [helements]
        exact fun _ heq => by cases heq

end

/-! ## The map -/

theorem mappingAfter_cons (pair : ℤ × ℤ) (rest : List (ℤ × ℤ)) (i : ℕ) (before : GpuMapping) :
    mappingAfter (pair :: rest) i before =
      mappingAfter rest i (if pair.1 = i then ⟨pair.2, true⟩ else before) := by
  rw [mappingAfter, mappingAfter, List.reverse_cons, List.find?_append]
  cases rest.reverse.find? fun pair => decide (pair.1 = (i : ℤ)) with
  | some last => rfl
  | none =>
    by_cases hi : pair.1 = i
    · simp [hi]
    · simp [hi]

/-- The pairs are written one after the other, as long as they are for GPUs that there are. -/
theorem mapEach_of_forall (elements : List (List UInt8)) (gpus : Vector GpuMapping 16)
    (H : ∀ pair ∈ acceptedPairs elements, pair.1 ≠ 16) :
    ∃ message gpus', mapEach elements gpus = some (message, gpus') ∧
      ∀ (i : ℕ) (_ : i < 16), gpus'[i] = mappingAfter (acceptedPairs elements) i gpus[i] := by
  induction elements generalizing gpus with
  | nil => exact ⟨none, gpus, rfl, fun _ _ => rfl⟩
  | cons element rest ih =>
    rw [mapEach]
    rw [acceptedPairs] at H ⊢
    cases hpair : scanPair element with
    | none => exact ⟨_, gpus, rfl, fun _ _ => rfl⟩
    | some pair =>
      rw [hpair] at H
      dsimp only at H ⊢
      cases haccept : mapAccepts pair.1 pair.2 with
      | false => exact ⟨_, gpus, rfl, fun _ _ => rfl⟩
      | true =>
        rw [haccept, if_pos rfl, List.forall_mem_cons] at H
        have hin : 0 ≤ pair.1 ∧ pair.1 < 16 := by
          simp only [mapAccepts, Bool.not_eq_true', Bool.or_eq_false_iff, decide_eq_false_iff_not]
            at haccept
          omega
        obtain ⟨message, gpus', hrun, hmaps⟩ :=
          ih (gpus.set pair.1.toNat ⟨pair.2, true⟩ (by omega)) H.2
        rw [if_pos rfl, if_pos rfl, dif_pos (show pair.1.toNat < 16 by omega)]
        refine ⟨message, gpus', hrun, fun i hi => ?_⟩
        rw [hmaps i hi, mappingAfter_cons, Vector.getElem_set]
        congr 1
        by_cases heq : pair.1 = i
        · rw [if_pos (by omega), if_pos heq]
        · rw [if_neg (by omega), if_neg heq]

/-- A pair for the GPU behind the last one is written there. -/
theorem mapEach_eq_none (elements : List (List UInt8)) (gpus : Vector GpuMapping 16)
    (H : ∃ pair ∈ acceptedPairs elements, pair.1 = 16) : mapEach elements gpus = none := by
  induction elements generalizing gpus with
  | nil =>
    obtain ⟨pair, hpair, -⟩ := H
    cases hpair
  | cons element rest ih =>
    rw [mapEach]
    rw [acceptedPairs] at H
    cases hpair : scanPair element with
    | none =>
      rw [hpair] at H
      obtain ⟨pair, hpair, -⟩ := H
      cases hpair
    | some pair =>
      rw [hpair] at H
      dsimp only at H ⊢
      cases haccept : mapAccepts pair.1 pair.2 with
      | false =>
        rw [haccept] at H
        obtain ⟨pair, hpair, -⟩ := H
        cases hpair
      | true =>
        rw [haccept, if_pos rfl, List.exists_mem_cons_iff] at H
        rw [if_pos rfl]
        split
        · next hin =>
          refine ih _ (H.resolve_left fun h => ?_)
          rw [h] at hin
          exact absurd hin (by decide)
        · rfl

theorem mapLaw_iff (arg : List UInt8) (gpus : Vector GpuMapping 16) :
    MapLaw arg gpus ↔ MapSound arg := by
  rw [MapLaw, MapSound, setGpuMap, mapPairs]
  cases strtokElements arg with
  | nil => exact iff_of_true ⟨_, gpus, rfl, fun _ _ => rfl⟩ fun pair hpair => by cases hpair
  | cons first rest =>
    dsimp only
    constructor
    · rintro ⟨message, gpus', hrun, -⟩ pair hpair hlast
      rw [mapEach_eq_none _ gpus ⟨pair, hpair, hlast⟩] at hrun
      cases hrun
    · exact fun H => mapEach_of_forall _ gpus H

/-! ## The options -/

/-- **The options for GPUs** are set as expected exactly if their lists are sound. -/
theorem gpuLists_iff {σ : Type*} (setFunc : ℕ → List UInt8 → σ → Bool × σ) (arg : List UInt8)
    (s : σ) (gpus : Vector GpuMapping 16) :
    (ListLaw setFunc arg s ↔ ListSound setFunc arg s) ∧ (MapLaw arg gpus ↔ MapSound arg) :=
  ⟨listLaw_iff setFunc arg s, mapLaw_iff arg gpus⟩

/-- `_set_vector`, which is made with `_SET_INT_LIST`, on the widths of all GPUs. -/
def setVector (device : ℕ) (val : List UInt8) (vwidth : ℕ → ℤ) : Bool × (ℕ → ℤ) :=
  let v := CStr.atoi val
  if v = 1 ∨ v = 2 ∨ v = 4 then (true, fun i => if i = device then v else vwidth i)
  else (false, vwidth)

/-- A width for each of seventeen GPUs. -/
def seventeenWidths : List UInt8 := [0x31] ++ (List.replicate 16 [0x2c, 0x31]).flatten

/-- The last width is set behind the GPUs. -/
theorem not_listLaw_seventeenWidths : ¬ ListLaw setVector seventeenWidths fun _ => 1 := by
  intro hlaw
  have hcall : (16, [0x31]) ∈ (setList setVector seventeenWidths fun _ => 1).calls := by
    decide +kernel
  exact absurd (hlaw.inside _ hcall) (by decide)

end MassGridMiner

import MassGridMiner.Lib.Atof
import MassGridMiner.Lib.Format
import MassGridMiner.Stratum.Json
import Mathlib.Computability.StateTransition

/-!
# Configurations that include others

`load_config` loads a file or a document from the web and has `parse_config` go through its
options; an object in an array is parsed as a configuration of its own, and each may include
another one.  What is to keep the includes from going on for ever is the number of files loaded,
which is not the depth of the chain of includes: it is never lowered, and documents from
the web are not counted.

## Main definitions

* `ConfigEnv` — the options, the files and the documents.
* `LoadState`, `LoadState.step` — the calls of `load_config` and `parse_config`, step by step.
* `LoadsRight` — it returns, and refuses the loads that are nested too deep.
* `Guards` — the condition on the loads.
-/

namespace MassGridMiner

open StateTransition

/-- The errors of the two functions; `option` is what an error comes to when an object within an
option has it. -/
inductive ConfigError
  | invalidValue
  | callback (text : CStr)
  | maxDepth
  | web
  | decode (file text : CStr)
  | option (name : String) (err : ConfigError)

/-- There are too many levels, in whatever option. -/
def ConfigError.isMaxDepth : ConfigError → Bool
  | .maxDepth => true
  | .option _ err => err.isMaxDepth
  | _ => false

/-- The options by whether they have an argument.  What the callbacks do to the rest of the
program is left open; one without argument may be called for `false` as another. -/
inductive OptionType (σ : Type)
  | hasArg (cbArg : CStr → σ → Option CStr × σ)
  | noArg (cb : σ → Option CStr × σ) (inverse : Option (σ → Option CStr × σ))

/-- An entry of `opt_config_table`, its names taken apart. -/
structure ConfigOption (σ : Type) where
  names : List String
  type : OptionType σ

/-- The options, `snprintf` with `%f`, and what is found at a path and at a URL: the value that
a file holds or the text of the error, and the value that a document holds. -/
structure ConfigEnv (σ : Type) where
  optConfigTable : List (ConfigOption σ)
  printNumber : Float → List UInt8
  jsonLoadFile : CStr → Except CStr Json
  jsonWebConfig : CStr → Option Json

/-- `JSON_MAX_DEPTH`. -/
def jsonMaxDepth : ℕ := 10

/-- The URL of a document, by its beginning. -/
def isWebConfig (arg : CStr) : Bool :=
  CStr.beginsNoCase (literal "http://") arg.bytes ||
    CStr.beginsNoCase (literal "https://") arg.bytes

/-- A name that is not a short option. -/
def isLongOption (p : String) : Bool := p.toList[1]? == some '-'

/-- `p + 2`. -/
def optionKey (p : String) : String := String.ofList (p.toList.drop 2)

/-- A number without a fraction of zeros. -/
def trimNumber (buf : List UInt8) : CStr :=
  let whole := buf.takeWhile (· != 0x2e)
  let fraction := (buf.dropWhile (· != 0x2e)).drop 1
  CStr.ofMem (if fraction.all (· == 0x30) then whole else buf)

/-- A call of `parse_config`: the names that are left to see, and of an array the elements; whether
this is a whole file, and which of the loaded ones. -/
structure ParseFrame (σ : Type) where
  config : Json
  fileconf : Bool
  cfginfo : ℕ
  entries : List (OptionType σ × String)
  elems : Option (List Json)

/-- Who waits for a return. -/
inductive Caller (σ : Type)
  | loadConfig
  | parseConfig (frame : ParseFrame σ)

/-- What is done next: `load_config` is called, `parse_config` goes on, or one of them returns. -/
inductive LoadControl (σ : Type)
  | load (arg : CStr)
  | parse (frame : ParseFrame σ)
  | ret (err : Option ConfigError)

/-- The variables of the program, what was logged, the files and documents that were loaded with
their `fileconf_load`, and the calls under way. -/
structure LoadState (σ : Type) where
  includeCount : ℕ
  app : σ
  log : List (String × ConfigError)
  loaded : List (CStr × ℤ)
  stack : List (Caller σ)
  control : LoadControl σ

namespace ConfigEnv

/-- The names of the options, in order. -/
def entries {σ : Type} (env : ConfigEnv σ) : List (OptionType σ × String) :=
  env.optConfigTable.flatMap fun opt =>
    (opt.names.filter isLongOption).map fun p => (opt.type, p)

end ConfigEnv

/-- The next name. -/
def ParseFrame.advance {σ : Type} (frame : ParseFrame σ) : ParseFrame σ :=
  { frame with entries := frame.entries.tail, elems := none }

namespace LoadState

section
variable {σ : Type} (env : ConfigEnv σ) (s : LoadState σ)

def setControl (control : LoadControl σ) : LoadState σ := { s with control := control }

def setStack (stack : List (Caller σ)) : LoadState σ := { s with stack := stack }

def setFileconfLoad (cfginfo : ℕ) (value : ℤ) : LoadState σ :=
  { s with loaded := s.loaded.modify cfginfo fun file => (file.1, value) }

/-- The end of the body of the loop over the names: an error is logged and the option skipped in a
file, and returned from an object. -/
def finishOption (frame : ParseFrame σ) (p : String) (err : Option ConfigError) : LoadState σ :=
  match err with
  | none => s.setControl (.parse frame.advance)
  | some err =>
    if frame.fileconf then
      { s.setFileconfLoad frame.cfginfo (-1) with
        log := s.log ++ [(p, err)]
        control := .parse frame.advance }
    else s.setControl (.ret (some (.option p err)))

/-- A callback, with what it does to the program. -/
def callback (frame : ParseFrame σ) (p : String) (result : Option CStr × σ) : LoadState σ :=
  { s with app := result.2 }.finishOption frame p (result.1.map .callback)

/-- The value of an option. -/
def parseValue (frame : ParseFrame σ) (p : String) (type : OptionType σ) (val : Json) :
    LoadState σ :=
  match type, val with
  | .hasArg cbArg, .string text => s.callback frame p (cbArg text s.app)
  | .hasArg cbArg, .integer n =>
    s.callback frame p (cbArg (trimNumber (env.printNumber (Float.ofInt n))) s.app)
  | .hasArg cbArg, .real x => s.callback frame p (cbArg (trimNumber (env.printNumber x)) s.app)
  | .hasArg _, .array elems => s.setControl (.parse { frame with elems := some elems })
  | .noArg cb _, .bool true => s.callback frame p (cb s.app)
  | .noArg _ (some cb), .bool false => s.callback frame p (cb s.app)
  | _, _ => s.finishOption frame p (some .invalidValue)

/-- A call of `parse_config` begins. -/
def startParse (config : Json) (fileconf : Bool) (cfginfo : ℕ) : LoadState σ :=
  s.setControl (.parse ⟨config, fileconf, cfginfo, env.entries, none⟩)

/-- An element of an array: a string is for the callback, an object a configuration, and anything
else is passed over. -/
def parseElem (frame : ParseFrame σ) (p : String) (type : OptionType σ) (elem : Json)
    (elems : List Json) : LoadState σ :=
  let frame := { frame with elems := some elems }
  match type, elem with
  | .hasArg cbArg, .string text =>
    let result := cbArg text s.app
    match result.1 with
    | none => { s with app := result.2, control := .parse frame }
    | some _ => s.callback frame p result
  | _, .object members =>
    (s.setStack (.parseConfig frame :: s.stack)).startParse env (.object members) false
      frame.cfginfo
  | _, _ => s.setControl (.parse frame)

/-- `parse_config` goes on. -/
def parse (frame : ParseFrame σ) : LoadState σ :=
  match frame.entries with
  | [] =>
    match frame.config.get "include" with
    | some (.string arg) => s.setControl (.load arg)
    | _ => s.setControl (.ret none)
  | (type, p) :: _ =>
    match frame.elems with
    | some [] => s.finishOption frame p none
    | some (elem :: elems) => s.parseElem env frame p type elem elems
    | none =>
      match frame.config.get (optionKey p) with
      | none => s.setControl (.parse frame.advance)
      | some val => s.parseValue env frame p type val

/-- What was loaded is parsed. -/
def startFile (arg : CStr) (config : Json) : LoadState σ :=
  { s with loaded := s.loaded ++ [(arg, 1)] }.startParse env config true s.loaded.length

/-- `load_web_config`. -/
def loadWebConfig (arg : CStr) : LoadState σ :=
  match env.jsonWebConfig arg with
  | some (.object members) => s.startFile env arg (.object members)
  | _ => s.setControl (.ret (some .web))

/-- `load_config`. -/
def loadConfig (arg : CStr) : LoadState σ :=
  let s := s.setStack (.loadConfig :: s.stack)
  if isWebConfig arg then s.loadWebConfig env arg
  else
    let s := { s with includeCount := s.includeCount + 1 }
    if s.includeCount > jsonMaxDepth then
      { s with loaded := s.loaded ++ [(arg, 0)], control := .ret (some .maxDepth) }
    else
      match env.jsonLoadFile arg with
      | .ok (.object members) => s.startFile env arg (.object members)
      | .ok _ =>
        { s with
          loaded := s.loaded ++ [(arg, 0)]
          control := .ret (some (.decode arg .empty)) }
      | .error text =>
        { s with
          loaded := s.loaded ++ [(arg, 0)]
          control := .ret (some (.decode arg text)) }

/-- A return to the caller. -/
def resume (err : Option ConfigError) : Caller σ → LoadState σ
  | .loadConfig => s.setControl (.ret err)
  | .parseConfig frame =>
    match err with
    | none => s.setControl (.parse frame)
    | some err =>
      match frame.entries with
      | [] => s.setControl (.ret (some err))
      | (_, p) :: _ => s.finishOption frame p (some err)

/-- A step; there is none when the first call has returned. -/
def step : Option (LoadState σ) :=
  match s.control with
  | .load arg => some (s.loadConfig env arg)
  | .parse frame => some (s.parse env frame)
  | .ret err =>
    match s.stack with
    | [] => none
    | caller :: stack => some ((s.setStack stack).resume err caller)

end

/-- How many of the callers are `load_config`. -/
def loads {σ : Type} : List (Caller σ) → ℕ
  | [] => 0
  | .loadConfig :: stack => loads stack + 1
  | .parseConfig _ :: stack => loads stack

section
variable {σ : Type} (env : ConfigEnv σ) (s : LoadState σ)

/-- How many calls of `load_config` are under way. -/
def depth : ℕ := loads s.stack

/-- A call of `load_config` is refused. -/
def Refuses : Prop :=
  ∃ arg t, s.control = .load arg ∧ s.step env = some t ∧ t.control = .ret (some .maxDepth)

/-- The error was logged. -/
def Logged : Prop := ∃ entry ∈ s.log, entry.2.isMaxDepth = true

/-- It was logged, or is returned. -/
def Reports : Prop :=
  (∃ err, s.control = .ret (some err) ∧ err.isMaxDepth = true) ∨ s.Logged

/-- The first call of `load_config`, however many files were loaded before. -/
structure Starts : Prop where
  control : ∃ arg, s.control = .load arg
  stack : s.stack = []
  log : s.log = []

/-- The call returns; each call within it is refused if ten others are under way, and only then; and
the error is reported in the end if, and only if, the calls were nested so deep. -/
structure LoadsRight : Prop where
  returns : (eval (step env) s).Dom
  refuses : ∀ t arg, Reaches (step env) s t → t.control = .load arg →
    (t.Refuses env ↔ jsonMaxDepth ≤ t.depth)
  reports : ∀ t ∈ eval (step env) s, t.Reports ↔
    ∃ u arg, Reaches (step env) s u ∧ u.control = .load arg ∧ jsonMaxDepth ≤ u.depth

/-- A document from the web is loaded only where fewer than ten calls are under way, and by the time
that a file is loaded, ten files have been if and only if ten calls are under way. -/
def Guarded : Prop :=
  ∀ t arg, Reaches (step env) s t → t.control = .load arg →
    if isWebConfig arg then t.depth < jsonMaxDepth
    else jsonMaxDepth ≤ t.includeCount ↔ jsonMaxDepth ≤ t.depth

/-- Wherever the run gets back to these callers, it ends. -/
def ReturnsTo (stack : List (Caller σ)) : Prop :=
  ∀ t err, Reaches (step env) s t → t.stack = stack → t.control = .ret err →
    (eval (step env) t).Dom

/-- A state above these callers, of a run that meets the condition and ends if it gets back to
them. -/
structure Ready (stack : List (Caller σ)) : Prop where
  guarded : s.Guarded env
  stack_eq : s.stack = stack
  returnsTo : s.ReturnsTo env stack

end

/-! ## Steps -/

section
variable {σ : Type} {env : ConfigEnv σ} {s t u : LoadState σ} {stack : List (Caller σ)}
  {frame : ParseFrame σ} {p : String} {err : Option ConfigError} {arg : CStr}

theorem finishOption_cases (s : LoadState σ) (frame : ParseFrame σ) (p : String)
    (err : Option ConfigError) :
    (s.finishOption frame p err).stack = s.stack ∧
      ((s.finishOption frame p err).control = .parse frame.advance ∨
        ∃ e, (s.finishOption frame p err).control = .ret e) := by
  cases err with
  | none => exact ⟨rfl, .inl rfl⟩
  | some err =>
      rw [finishOption]
      split
      · exact ⟨rfl, .inl rfl⟩
      · exact ⟨rfl, .inr ⟨_, rfl⟩⟩

/-- A call of `load_config` returns at once, or what it has loaded is parsed. -/
theorem loadConfig_cases (env : ConfigEnv σ) (s : LoadState σ) (arg : CStr) :
    (s.loadConfig env arg).stack = .loadConfig :: s.stack ∧
      ((∃ err, (s.loadConfig env arg).control = .ret err) ∨
        ∃ config cfginfo,
          (s.loadConfig env arg).control = .parse ⟨config, true, cfginfo, env.entries, none⟩) := by
  rw [loadConfig]
  dsimp only
  split
  · rw [loadWebConfig]
    split
    · exact ⟨rfl, .inr ⟨_, _, rfl⟩⟩
    · exact ⟨rfl, .inl ⟨_, rfl⟩⟩
  · split
    · exact ⟨rfl, .inl ⟨_, rfl⟩⟩
    · split
      · exact ⟨rfl, .inr ⟨_, _, rfl⟩⟩
      · exact ⟨rfl, .inl ⟨_, rfl⟩⟩
      · exact ⟨rfl, .inl ⟨_, rfl⟩⟩

/-- Only files are refused, and by their number. -/
theorem refuses_iff (H : s.control = .load arg) :
    s.Refuses env ↔ isWebConfig arg = false ∧ jsonMaxDepth ≤ s.includeCount := by
  have hstep : s.step env = some (s.loadConfig env arg) := by rw [step, H]
  have hrefuses : s.Refuses env ↔
      (s.loadConfig env arg).control = .ret (some .maxDepth) := by
    constructor
    · rintro ⟨arg', t, -, ht, hcontrol⟩
      obtain rfl := Option.some.inj (hstep.symm.trans ht)
      exact hcontrol
    · intro hcontrol
      exact ⟨arg, _, H, hstep, hcontrol⟩
  rw [hrefuses, loadConfig]
  cases hweb : isWebConfig arg with
  | true =>
      simp only [if_true, Bool.true_eq_false, false_and, iff_false]
      rw [loadWebConfig]
      split <;> simp [startFile, startParse, setControl]
  | false =>
      simp only [Bool.false_eq_true, if_false, true_and]
      rw [← Nat.lt_succ_iff, ← Nat.succ_eq_add_one]
      split
      next hgt => exact ⟨fun _ => hgt, fun _ => rfl⟩
      next hle =>
        refine ⟨fun h => ?_, fun h => absurd h hle⟩
        exfalso
        revert h
        split <;> simp [startFile, startParse, setControl]

/-! ## The end of a run -/

theorem dom_of_step (hstep : s.step env = some t) (H : (eval (step env) t).Dom) :
    (eval (step env) s).Dom := by
  rwa [reaches_eval (Relation.ReflTransGen.single hstep)]

theorem reaches_of_step (hstep : s.step env = some t) (H : Reaches (step env) t u) :
    Reaches (step env) s u := Relation.ReflTransGen.head hstep H

theorem Ready.next (H : s.Ready env stack) (hstep : s.step env = some t)
    (hstack : t.stack = stack) : t.Ready env stack where
  guarded u arg hu := H.guarded u arg (reaches_of_step hstep hu)
  stack_eq := hstack
  returnsTo u err hu := H.returnsTo u err (reaches_of_step hstep hu)

theorem stack_resume (s : LoadState σ) (err : Option ConfigError) (caller : Caller σ) :
    (s.resume err caller).stack = s.stack := by
  cases caller with
  | loadConfig => rfl
  | parseConfig frame =>
      cases err with
      | none => rfl
      | some err =>
          rw [resume]
          split
          · rfl
          · exact (finishOption_cases _ _ _ _).1

/-- A call is made: the run ends where it gets back to this caller, if it ends when that one
goes on. -/
theorem Ready.call {caller : Caller σ} (H : s.Ready env stack) (hstep : s.step env = some t)
    (hstack : t.stack = caller :: stack)
    (hback : ∀ (u : LoadState σ) err, ((u.setStack stack).resume err caller).Ready env stack →
      (eval (step env) ((u.setStack stack).resume err caller)).Dom) :
    t.Ready env (caller :: stack) where
  guarded u arg hu := H.guarded u arg (reaches_of_step hstep hu)
  stack_eq := hstack
  returnsTo u err hu hsame hcontrol := by
    have hreturn : u.step env = some ((u.setStack stack).resume err caller) := by
      rw [step, hcontrol, hsame]
    have hreach := (reaches_of_step hstep hu).tail hreturn
    refine dom_of_step hreturn (hback u err ⟨?_, stack_resume _ err caller, ?_⟩)
    · intro v arg hv
      exact H.guarded v arg (hreach.trans hv)
    · intro v err' hv
      exact H.returnsTo v err' (hreach.trans hv)

theorem Ready.dom_of_ret (H : s.Ready env stack) (hcontrol : s.control = .ret err) :
    (eval (step env) s).Dom :=
  H.returnsTo s err Relation.ReflTransGen.refl H.stack_eq hcontrol

/-- An option is done with. -/
theorem Ready.dom_of_finishes (H : Ready env (u.finishOption frame p err) stack)
    (hadvance : ∀ t : LoadState σ, t.Ready env stack → t.control = .parse frame.advance →
      (eval (step env) t).Dom) :
    (eval (step env) (u.finishOption frame p err)).Dom := by
  rcases (finishOption_cases u frame p err).2 with hparse | ⟨e, hret⟩
  · exact hadvance _ H hparse
  · exact H.dom_of_ret hret

/-- What is done when an option is done with is done next. -/
theorem Ready.dom_of_step_finishes (H : s.Ready env stack)
    (hstep : s.step env = some (u.finishOption frame p err)) (hstack : u.stack = stack)
    (hadvance : ∀ t : LoadState σ, t.Ready env stack → t.control = .parse frame.advance →
      (eval (step env) t).Dom) :
    (eval (step env) s).Dom :=
  dom_of_step hstep ((H.next hstep ((finishOption_cases _ _ _ _).1.trans hstack)).dom_of_finishes
    hadvance)

/-- A call of `load_config` is made. -/
theorem Ready.loads (H : s.Ready env stack) (hcontrol : s.control = .load arg)
    (hstep : s.step env = some t) : t.Ready env (.loadConfig :: stack) := by
  have ht : t = s.loadConfig env arg := by
    rw [step, hcontrol] at hstep
    exact (Option.some.inj hstep).symm
  refine H.call hstep ?_ fun u err hback => hback.dom_of_ret rfl
  rw [ht, (loadConfig_cases env s arg).1, H.stack_eq]

/-! ## Parsing ends -/

theorem sizeOf_lt_of_get {config val : Json} {key : String} (H : config.get key = some val) :
    sizeOf val < sizeOf config := by
  cases config with
  | object members =>
      obtain ⟨m, hm, rfl⟩ := Option.map_eq_some_iff.mp H
      have hmem := List.sizeOf_lt_of_mem (List.mem_of_find?_eq_some hm)
      have hval : sizeOf m.2 < sizeOf m := by
        cases m
        simp +arith
      simp only [Json.object.sizeOf_spec]
      omega
  | _ => cases H

/-- What a callback complains of is not the depth. -/
theorem isMaxDepth_callback (result : Option CStr) :
    ∀ e ∈ result.map ConfigError.callback, e.isMaxDepth = false := by
  intro e he
  obtain ⟨text, -, rfl⟩ := Option.map_eq_some_iff.mp he
  rfl

/-- The value of an option is done with, or an array that is gone through. -/
theorem parseValue_cases (env : ConfigEnv σ) (s : LoadState σ) (frame : ParseFrame σ) (p : String)
    (type : OptionType σ) (val : Json) :
    (∃ u err, s.parseValue env frame p type val = finishOption u frame p err ∧
      u.stack = s.stack ∧ u.log = s.log ∧ ∀ e ∈ err, e.isMaxDepth = false) ∨
    ∃ elems, val = .array elems ∧ s.parseValue env frame p type val =
      s.setControl (.parse { frame with elems := some elems }) := by
  unfold parseValue
  split
  case h_4 elems => exact .inr ⟨_, rfl, rfl⟩
  case h_7 =>
    refine .inl ⟨_, _, rfl, rfl, rfl, ?_⟩
    intro e he
    obtain rfl := Option.some.inj he
    rfl
  all_goals exact .inl ⟨_, _, rfl, rfl, rfl, isMaxDepth_callback _⟩

/-- After an element the array goes on, or the option is done with, or the element is parsed. -/
theorem parseElem_cases (env : ConfigEnv σ) (s : LoadState σ) (frame : ParseFrame σ) (p : String)
    (type : OptionType σ) (elem : Json) (elems : List Json) :
    ((s.parseElem env frame p type elem elems).stack = s.stack ∧
      (s.parseElem env frame p type elem elems).log = s.log ∧
      (s.parseElem env frame p type elem elems).control =
        .parse { frame with elems := some elems }) ∨
    (∃ u err, s.parseElem env frame p type elem elems =
      finishOption u { frame with elems := some elems } p err ∧ u.stack = s.stack ∧
        u.log = s.log ∧ ∀ e ∈ err, e.isMaxDepth = false) ∨
    ∃ members, elem = .object members ∧ s.parseElem env frame p type elem elems =
      (s.setStack (.parseConfig { frame with elems := some elems } :: s.stack)).startParse env elem
        false frame.cfginfo := by
  unfold parseElem
  dsimp only
  split
  · split
    · exact .inl ⟨rfl, rfl, rfl⟩
    · exact .inr (.inl ⟨_, _, rfl, rfl, rfl, isMaxDepth_callback _⟩)
  next members => exact .inr (.inr ⟨members, rfl, rfl⟩)
  · exact .inl ⟨rfl, rfl, rfl⟩

/-- The elements of an array are gone through, if the objects among them can be parsed. -/
theorem dom_of_elems {type : OptionType σ} {rest : List (OptionType σ × String)}
    (hentries : frame.entries = (type, p) :: rest)
    (hnested : ∀ config, sizeOf config < sizeOf frame.config → ∀ above,
      loads above = loads stack → ∀ (t : LoadState σ) fileconf cfginfo, t.Ready env above →
        t.control = .parse ⟨config, fileconf, cfginfo, env.entries, none⟩ →
          (eval (step env) t).Dom)
    (hadvance : ∀ t : LoadState σ, t.Ready env stack → t.control = .parse frame.advance →
      (eval (step env) t).Dom)
    (elems : List Json) (helems : ∀ elem ∈ elems, sizeOf elem < sizeOf frame.config)
    {s : LoadState σ} (H : s.Ready env stack)
    (hcontrol : s.control = .parse { frame with elems := some elems }) :
    (eval (step env) s).Dom := by
  induction elems generalizing s with
  | nil =>
      have hstep : s.step env = some (s.finishOption { frame with elems := some [] } p none) := by
        rw [step, hcontrol]
        simp only [parse, hentries]
      exact H.dom_of_step_finishes hstep H.stack_eq hadvance
  | cons elem elems ih =>
      have hstep : s.step env = some
          (s.parseElem env { frame with elems := some (elem :: elems) } p type elem elems) := by
        rw [step, hcontrol]
        simp only [parse, hentries]
      have hrest := fun e he => helems e (List.mem_cons_of_mem _ he)
      rcases parseElem_cases env s { frame with elems := some (elem :: elems) } p type elem
        elems with
          ⟨hstack, -, hnext⟩ | ⟨u, err, hfinish, hstack, -⟩ | ⟨members, rfl, hobject⟩
      · exact dom_of_step hstep (ih hrest (H.next hstep (hstack.trans H.stack_eq)) hnext)
      · rw [hfinish] at hstep
        exact H.dom_of_step_finishes hstep (hstack.trans H.stack_eq) hadvance
      · -- an object is parsed, and then the array goes on
        rw [hobject] at hstep
        have hcall := @Ready.call _ _ _ _ _ (.parseConfig { frame with elems := some elems }) H
          hstep (by rw [← H.stack_eq]; rfl) ?_
        · exact dom_of_step hstep (hnested (.object members) (helems _ List.mem_cons_self)
            (.parseConfig { frame with elems := some elems } :: stack) rfl _ _ _ hcall rfl)
        · intro u err hback
          cases err with
          | none => exact ih hrest hback rfl
          | some err =>
              have hresume : (u.setStack stack).resume (some err)
                  (.parseConfig { frame with elems := some elems }) =
                  (u.setStack stack).finishOption { frame with elems := some elems } p
                    (some err) := by
                simp only [resume, hentries]
              rw [hresume] at hback ⊢
              exact hback.dom_of_finishes hadvance

/-- `parse_config` returns, if the calls of `load_config` that it makes do. -/
theorem dom_of_parse {d : ℕ}
    (hload : ∀ stack, loads stack = d → ∀ (t : LoadState σ) arg, t.Ready env stack →
      t.control = .load arg → (eval (step env) t).Dom)
    (n : ℕ) : ∀ config : Json, sizeOf config = n → ∀ stack, loads stack = d →
      ∀ fileconf cfginfo entries (s : LoadState σ), s.Ready env stack →
        s.control = .parse ⟨config, fileconf, cfginfo, entries, none⟩ →
          (eval (step env) s).Dom := by
  induction n using Nat.strong_induction_on with
  | _ n ihn =>
  intro config hn stack hd fileconf cfginfo entries
  induction entries with
  | nil =>
      intro s H hcontrol
      have hstep : s.step env = some (s.parse env ⟨config, fileconf, cfginfo, [], none⟩) := by
        rw [step, hcontrol]
      rw [parse] at hstep
      dsimp only at hstep
      split at hstep
      next arg _ =>
        exact dom_of_step hstep (hload stack hd _ arg (H.next hstep H.stack_eq) rfl)
      · exact dom_of_step hstep ((H.next hstep H.stack_eq).dom_of_ret rfl)
  | cons entry entries ih =>
      obtain ⟨type, p⟩ := entry
      intro s H hcontrol
      have hstep : s.step env =
          some (s.parse env ⟨config, fileconf, cfginfo, (type, p) :: entries, none⟩) := by
        rw [step, hcontrol]
      rw [parse] at hstep
      dsimp only at hstep
      split at hstep
      · exact dom_of_step hstep (ih _ (H.next hstep H.stack_eq) rfl)
      next val hval =>
        have hsize := sizeOf_lt_of_get hval
        rcases parseValue_cases env s ⟨config, fileconf, cfginfo, (type, p) :: entries, none⟩
          p type val with ⟨u, err, hfinish, hstack, -⟩ | ⟨elems, rfl, harray⟩
        · rw [hfinish] at hstep
          exact H.dom_of_step_finishes hstep (hstack.trans H.stack_eq) ih
        · rw [harray] at hstep
          refine dom_of_step hstep (@dom_of_elems _ _ _ ⟨config, fileconf, cfginfo,
            (type, p) :: entries, none⟩ _ _ _ rfl ?_ ih elems ?_ _ (H.next hstep H.stack_eq) rfl)
          · intro nested hlt above habove t fileconf' cfginfo' ht hparse
            exact ihn (sizeOf nested) (hn ▸ hlt) nested rfl above (habove.trans hd) _ _ _ t ht
              hparse
          · intro elem helem
            have hmem := List.sizeOf_lt_of_mem helem
            simp only [Json.array.sizeOf_spec] at hsize
            dsimp only
            omega

/-- `load_config` returns: there are not more than ten calls of it under way. -/
theorem dom_of_load (k : ℕ) : ∀ stack : List (Caller σ), jsonMaxDepth ≤ loads stack + k →
    ∀ (s : LoadState σ) arg, s.Ready env stack → s.control = .load arg →
      (eval (step env) s).Dom := by
  induction k with
  | zero =>
      intro stack hk s arg H hcontrol
      have hguard := H.guarded s arg Relation.ReflTransGen.refl hcontrol
      rw [depth, H.stack_eq] at hguard
      have hrefused : s.Refuses env := by
        rw [refuses_iff hcontrol]
        cases hweb : isWebConfig arg with
        | true =>
            rw [hweb, if_pos rfl] at hguard
            omega
        | false =>
            rw [hweb, if_neg Bool.false_ne_true] at hguard
            exact ⟨rfl, hguard.mpr hk⟩
      obtain ⟨_, t, _, hstep, hret⟩ := hrefused
      exact dom_of_step hstep ((H.loads hcontrol hstep).dom_of_ret hret)
  | succ k ih =>
      intro stack hk s arg H hcontrol
      have hstep : s.step env = some (s.loadConfig env arg) := by rw [step, hcontrol]
      have hcall := H.loads hcontrol hstep
      rcases (loadConfig_cases env s arg).2 with ⟨err, hret⟩ | ⟨config, cfginfo, hparse⟩
      · exact dom_of_step hstep (hcall.dom_of_ret hret)
      · refine dom_of_step hstep (dom_of_parse (d := loads stack + 1) ?_ (sizeOf config) config rfl
          (.loadConfig :: stack) rfl true cfginfo env.entries _ hcall hparse)
        intro above habove t arg' ht hload
        exact ih above (by omega) t arg' ht hload

end

/-! ## Runs -/

section
variable {σ : Type} {env : ConfigEnv σ} {s t u : LoadState σ} {frame : ParseFrame σ}
  {p : String} {arg : CStr}

theorem reports_of_load (H : s.control = .load arg) : s.Reports ↔ s.Logged := by
  simp [Reports, H]

theorem reports_of_parse (H : s.control = .parse frame) : s.Reports ↔ s.Logged := by
  simp [Reports, H]

theorem logged_congr (H : t.log = s.log) : t.Logged ↔ s.Logged := by
  rw [Logged, Logged, H]

/-- An error that ends an option is logged or returned. -/
theorem reports_finishOption (s : LoadState σ) (frame : ParseFrame σ) (p : String)
    (err : Option ConfigError) : (s.finishOption frame p err).Reports ↔
      (∃ e ∈ err, e.isMaxDepth = true) ∨ s.Logged := by
  cases err with
  | none => simp [finishOption, Reports, Logged, setControl]
  | some err =>
      rw [finishOption]
      split
      · simp [Reports, Logged, or_and_right, exists_or, or_comm]
      · simp [Reports, Logged, setControl, ConfigError.isMaxDepth]

theorem reports_finishOption_of_other {err : Option ConfigError}
    (H : ∀ e ∈ err, e.isMaxDepth = false) (hlog : u.log = s.log) :
    (u.finishOption frame p err).Reports ↔ s.Logged := by
  rw [reports_finishOption, logged_congr hlog]
  constructor
  · rintro (⟨e, he, hdepth⟩ | hlogged)
    · rw [H e he] at hdepth
      cases hdepth
    · exact hlogged
  · exact .inr

/-- Going on with `parse_config` reports nothing new. -/
theorem reports_parse (s : LoadState σ) (frame : ParseFrame σ) :
    (s.parse env frame).Reports ↔ s.Logged := by
  unfold parse
  split
  · split
    · exact reports_of_load rfl
    · simp [Reports, Logged, setControl]
  · split
    · exact reports_finishOption_of_other (by simp) rfl
    next type p _ _ _ elem elems _ =>
      rcases parseElem_cases env s frame p type elem elems with
        ⟨-, hlog, hnext⟩ | ⟨u, err, hfinish, -, hlog, herr⟩ | ⟨members, -, hobject⟩
      · rw [reports_of_parse hnext, logged_congr hlog]
      · rw [hfinish]
        exact reports_finishOption_of_other herr hlog
      · rw [hobject]
        exact reports_of_parse rfl
    · split
      · exact reports_of_parse rfl
      next type p _ _ _ _ _ val _ =>
        rcases parseValue_cases env s frame p type val with
          ⟨u, err, hfinish, -, hlog, herr⟩ | ⟨elems, -, harray⟩
        · rw [hfinish]
          exact reports_finishOption_of_other herr hlog
        · rw [harray]
          exact reports_of_parse rfl

/-- A call of `load_config` reports it if it is refused. -/
theorem reports_loadConfig (s : LoadState σ) (arg : CStr) :
    (s.loadConfig env arg).Reports ↔
      s.Logged ∨ (s.loadConfig env arg).control = .ret (some .maxDepth) := by
  rw [loadConfig]
  dsimp only
  split
  · rw [loadWebConfig]
    split
    · simp [Reports, Logged, startFile, startParse, setControl, setStack]
    · simp [Reports, Logged, setControl, setStack, ConfigError.isMaxDepth]
  · split
    · simp [Reports, Logged, setStack, ConfigError.isMaxDepth]
    · split <;> simp [Reports, Logged, startFile, startParse, setControl, setStack,
        ConfigError.isMaxDepth]

/-- A return hands the error on. -/
theorem reports_resume (s : LoadState σ) (err : Option ConfigError) (caller : Caller σ) :
    (s.resume err caller).Reports ↔ (∃ e ∈ err, e.isMaxDepth = true) ∨ s.Logged := by
  cases caller with
  | loadConfig => simp [resume, Reports, Logged, setControl]
  | parseConfig frame =>
      cases err with
      | none => simp [resume, Reports, Logged, setControl]
      | some err =>
          rw [resume]
          split
          · simp [Reports, Logged, setControl]
          · exact reports_finishOption _ _ _ _

/-- **Steps.**  The error is reported when it was before, or a call is refused. -/
theorem reports_step (hstep : s.step env = some t) : t.Reports ↔ s.Reports ∨ s.Refuses env := by
  cases hcontrol : s.control with
  | load arg =>
      have ht : t = s.loadConfig env arg := by
        rw [step, hcontrol] at hstep
        exact (Option.some.inj hstep).symm
      have hrefuses : s.Refuses env ↔ t.control = .ret (some .maxDepth) := by
        constructor
        · rintro ⟨_, t', -, ht', hret⟩
          obtain rfl := Option.some.inj (hstep.symm.trans ht')
          exact hret
        · intro hret
          exact ⟨arg, t, hcontrol, hstep, hret⟩
      rw [hrefuses, reports_of_load hcontrol, ht]
      exact reports_loadConfig s arg
  | parse frame =>
      have hrefuses : ¬ s.Refuses env := by
        rintro ⟨arg, _, hload, -⟩
        rw [hcontrol] at hload
        cases hload
      rw [step, hcontrol] at hstep
      obtain rfl := Option.some.inj hstep
      rw [reports_of_parse hcontrol, reports_parse, or_iff_left hrefuses]
  | ret err =>
      have hrefuses : ¬ s.Refuses env := by
        rintro ⟨arg, _, hload, -⟩
        rw [hcontrol] at hload
        cases hload
      have hreports : s.Reports ↔ (∃ e ∈ err, e.isMaxDepth = true) ∨ s.Logged := by
        rw [Reports, hcontrol]
        cases err <;> simp
      rw [step, hcontrol] at hstep
      dsimp only at hstep
      split at hstep
      · cases hstep
      · obtain rfl := Option.some.inj hstep
        rw [or_iff_left hrefuses, hreports, reports_resume]
        rfl

/-- What is reported stays so. -/
theorem Reports.of_reaches (H : s.Reports) (hreach : Reaches (step env) s t) : t.Reports := by
  induction hreach with
  | refl => exact H
  | tail _ hstep ih => exact (reports_step hstep).mpr (.inl ih)

/-- What is reported was refused somewhere. -/
theorem exists_refuses_of_reports (hs : ¬ s.Reports) (hreach : Reaches (step env) s t)
    (H : t.Reports) : ∃ u, Reaches (step env) s u ∧ u.Refuses env := by
  induction hreach with
  | refl => exact absurd H hs
  | @tail u v hu hstep ih =>
      rcases (reports_step hstep).mp H with hreports | hrefuses
      · exact ih hreports
      · exact ⟨u, hu, hrefuses⟩

/-- At the end it is reported exactly where a call was refused. -/
theorem reports_of_mem_eval (hs : ¬ s.Reports) (H : t ∈ eval (step env) s) :
    t.Reports ↔ ∃ u, Reaches (step env) s u ∧ u.Refuses env := by
  obtain ⟨hreach, hend⟩ := mem_eval.mp H
  constructor
  · exact exists_refuses_of_reports hs hreach
  · rintro ⟨u, hu, hrefuses⟩
    obtain ⟨v, hstep⟩ : ∃ v, u.step env = some v := by
      obtain ⟨_, v, -, hstep, -⟩ := hrefuses
      exact ⟨v, hstep⟩
    have hv : v.Reports := (reports_step hstep).mpr (.inr hrefuses)
    have hevals : t ∈ eval (step env) v := by
      rw [← reaches_eval (hu.tail hstep)]
      exact H
    exact hv.of_reaches (mem_eval.mp hevals).1

/-- A run that never leaves a set of states that all go on does not end. -/
theorem not_dom_of_forall_step {P : LoadState σ → Prop}
    (H : ∀ s, P s → ∃ t, s.step env = some t ∧ P t) (hs : P s) : ¬ (eval (step env) s).Dom := by
  intro hdom
  refine evalInduction (C := fun s => ¬ P s) (Part.get_mem hdom) (fun u _ ih hu => ?_) hs
  obtain ⟨t, hstep, ht⟩ := H u hu
  exact ih t hstep ht

/-! ## The condition -/

/-- What a load is to meet, to be refused where it is too deep and nowhere else. -/
theorem refuses_iff_depth (hload : s.control = .load arg) :
    (s.Refuses env ↔ jsonMaxDepth ≤ s.depth) ↔
      if isWebConfig arg then s.depth < jsonMaxDepth
      else jsonMaxDepth ≤ s.includeCount ↔ jsonMaxDepth ≤ s.depth := by
  rw [refuses_iff hload]
  cases isWebConfig arg <;> simp

/-- **Nested includes.**  Loading a configuration returns, and reports that there are too many
levels exactly where there are, if and only if at each load the files loaded so far tell the depth
of the calls: ten of them where there are ten, and no document from the web there. -/
theorem loadsRight_iff (env : ConfigEnv σ) {s : LoadState σ} (hs : s.Starts) :
    s.LoadsRight env ↔ s.Guarded env := by
  constructor
  · intro H t arg hreach hload
    exact (refuses_iff_depth hload).mp (H.refuses t arg hreach hload)
  · intro H
    have hrefuses : ∀ t arg, Reaches (step env) s t → t.control = .load arg →
        (t.Refuses env ↔ jsonMaxDepth ≤ t.depth) := fun t arg hreach hload =>
      (refuses_iff_depth hload).mpr (H t arg hreach hload)
    obtain ⟨arg, hload⟩ := hs.control
    refine ⟨?_, hrefuses, ?_⟩
    · refine dom_of_load jsonMaxDepth [] (Nat.le_add_left _ _) s arg ⟨H, hs.stack, ?_⟩ hload
      intro t err _ hstack hret
      have hend : t.step env = none := by
        rw [step, hret, hstack]
      exact Part.dom_iff_mem.mpr ⟨t, mem_eval.mpr ⟨Relation.ReflTransGen.refl, hend⟩⟩
    · intro t ht
      have hnew : ¬ s.Reports := by
        rw [reports_of_load hload, Logged, hs.log]
        rintro ⟨entry, hentry, -⟩
        cases hentry
      rw [reports_of_mem_eval hnew ht]
      constructor
      · rintro ⟨u, hu, hrefused⟩
        obtain ⟨arg', hload'⟩ : ∃ arg', u.control = .load arg' := by
          obtain ⟨arg', -, hload', -⟩ := hrefused
          exact ⟨arg', hload'⟩
        exact ⟨u, arg', hu, hload', (hrefuses u arg' hu hload').mp hrefused⟩
      · rintro ⟨u, arg', hu, hload', hdepth⟩
        exact ⟨u, hu, (hrefuses u arg' hu hload').mpr hdepth⟩

theorem guarded_of_step (hstep : s.step env = some t)
    (hload : ∀ arg, s.control = .load arg → if isWebConfig arg then s.depth < jsonMaxDepth
      else jsonMaxDepth ≤ s.includeCount ↔ jsonMaxDepth ≤ s.depth)
    (H : t.Guarded env) : s.Guarded env := by
  intro u arg hreach hcontrol
  rcases hreach.cases_head with rfl | ⟨v, hv, hreach⟩
  · exact hload arg hcontrol
  · obtain rfl := Option.some.inj (hstep.symm.trans hv)
    exact H u arg hreach hcontrol

theorem guarded_of_ret (hcontrol : s.control = .ret err) (hstack : s.stack = []) :
    s.Guarded env := by
  intro u arg hreach hload
  rcases hreach.cases_head with rfl | ⟨v, hv, -⟩
  · rw [hcontrol] at hload
    cases hload
  · have hend : s.step env = none := by
      rw [step, hcontrol, hstack]
    cases hend.symm.trans hv

end

/-! ## Two configurations -/

/-- `http://a`. -/
def webArg : CStr := ⟨[0x68, 0x74, 0x74, 0x70, 0x3a, 0x2f, 0x2f, 0x61], by decide⟩

/-- The file `b`, and the file `c`. -/
def fileArg (c : Bool) : CStr := ⟨[if c then 0x63 else 0x62], by cases c <;> decide⟩

/-- A configuration with nothing but an include. -/
def includes (arg : CStr) : Json := .object [("include", .string arg)]

/-- One option; the document includes itself, and the file `b` includes `c`, which is not there. -/
def cycleEnv : ConfigEnv Unit where
  optConfigTable := [⟨["--pools"], .hasArg fun _ app => (none, app)⟩]
  printNumber _ := []
  jsonLoadFile arg := if arg = fileArg false then .ok (includes (fileArg true)) else .error .empty
  jsonWebConfig _ := some (includes webArg)

/-- The first call, after some files. -/
def starting (arg : CStr) (includeCount : ℕ) : LoadState Unit :=
  ⟨includeCount, (), [], [], [], .load arg⟩

theorem starts_starting (arg : CStr) (includeCount : ℕ) : (starting arg includeCount).Starts :=
  ⟨⟨arg, rfl⟩, rfl, rfl⟩

theorem isWebConfig_webArg : isWebConfig webArg = true := by decide +kernel

theorem isWebConfig_fileArg : ∀ c, isWebConfig (fileArg c) = false := by decide +kernel

/-- The name of the one option. -/
theorem entries_cycleEnv :
    cycleEnv.entries = [(.hasArg fun _ app => (none, app), "--pools")] := by
  have hlong : isLongOption "--pools" = true := by decide +kernel
  simp [ConfigEnv.entries, cycleEnv, hlong]

/-- It is not in the configurations. -/
theorem get_includes (arg : CStr) : (includes arg).get (optionKey "--pools") = none := by
  have hkey : ("include" == optionKey "--pools") = false := by decide +kernel
  simp [includes, Json.get, hkey]

theorem parse_includes (s : LoadState Unit) (arg : CStr) (cfginfo : ℕ) :
    (s.parse cycleEnv ⟨includes arg, true, cfginfo, cycleEnv.entries, none⟩).control =
      .parse ⟨includes arg, true, cfginfo, [], none⟩ := by
  rw [entries_cycleEnv]
  simp only [parse, get_includes]
  rfl

/-- The document is about to be loaded, or gone through. -/
def InCycle (s : LoadState Unit) : Prop :=
  s.control = .load webArg ∨ ∃ cfginfo entries,
    s.control = .parse ⟨includes webArg, true, cfginfo, entries, none⟩ ∧
      (entries = cycleEnv.entries ∨ entries = [])

theorem InCycle.exists_step (s : LoadState Unit) (H : s.InCycle) :
    ∃ t, s.step cycleEnv = some t ∧ t.InCycle := by
  rcases H with hload | ⟨cfginfo, entries, hparse, rfl | rfl⟩
  · refine ⟨_, by rw [step, hload], .inr ⟨s.loaded.length, cycleEnv.entries, ?_, .inl rfl⟩⟩
    rw [loadConfig, if_pos isWebConfig_webArg]
    rfl
  · exact ⟨_, by rw [step, hparse], .inr ⟨cfginfo, [], parse_includes s webArg cfginfo, .inr rfl⟩⟩
  · exact ⟨_, by rw [step, hparse], .inl rfl⟩

/-- A document that includes itself is loaded for ever, and a file after ten others is refused
though no call is under way. -/
theorem not_loadsRight_cycle :
    ¬ (eval (step cycleEnv) (starting webArg 0)).Dom ∧
      ¬ (starting webArg 0).LoadsRight cycleEnv ∧
      ¬ (starting (fileArg false) 10).LoadsRight cycleEnv := by
  have hcycle : ¬ (eval (step cycleEnv) (starting webArg 0)).Dom :=
    not_dom_of_forall_step InCycle.exists_step (.inl rfl)
  refine ⟨hcycle, fun H => hcycle H.returns, fun H => ?_⟩
  have hdepth := (H.refuses _ _ Relation.ReflTransGen.refl rfl).mp
    ((refuses_iff rfl).mpr ⟨isWebConfig_fileArg false, le_refl _⟩)
  exact absurd hdepth (by decide)

/-- A file that includes one that is not there. -/
theorem guarded_file : (starting (fileArg false) 0).Guarded cycleEnv := by
  have hweb := isWebConfig_fileArg
  have hfirst : (starting (fileArg false) 0).step cycleEnv =
      some ⟨1, (), [], [(fileArg false, 1)], [.loadConfig],
        .parse ⟨includes (fileArg true), true, 0, cycleEnv.entries, none⟩⟩ := by
    simp [step, starting, loadConfig, hweb, cycleEnv, includes, startFile, startParse, setStack,
      setControl, jsonMaxDepth]
  have hsecond : step cycleEnv ⟨1, (), [], [(fileArg false, 1)], [.loadConfig],
        .parse ⟨includes (fileArg true), true, 0, cycleEnv.entries, none⟩⟩ =
      some ⟨1, (), [], [(fileArg false, 1)], [.loadConfig],
        .parse ⟨includes (fileArg true), true, 0, [], none⟩⟩ := by
    rw [entries_cycleEnv]
    simp only [step, parse, get_includes]
    rfl
  have hfourth : step cycleEnv ⟨1, (), [], [(fileArg false, 1)], [.loadConfig],
        .load (fileArg true)⟩ =
      some ⟨2, (), [], [(fileArg false, 1), (fileArg true, 0)], [.loadConfig, .loadConfig],
        .ret (some (.decode (fileArg true) .empty))⟩ := by
    have hother : fileArg true ≠ fileArg false := by decide
    simp [step, loadConfig, hweb, cycleEnv, hother, setStack, jsonMaxDepth]
  refine guarded_of_step hfirst ?_ (guarded_of_step hsecond ?_ (guarded_of_step rfl ?_
    (guarded_of_step hfourth ?_ (guarded_of_step rfl ?_ (guarded_of_step rfl ?_
      (guarded_of_ret rfl rfl))))))
  all_goals rintro arg ⟨⟩
  · rw [hweb]
    decide
  · rw [hweb]
    decide

/-- It is loaded as it should be. -/
theorem loadsRight_file : (starting (fileArg false) 0).LoadsRight cycleEnv :=
  (loadsRight_iff cycleEnv (starts_starting _ 0)).mpr guarded_file

end LoadState

end MassGridMiner

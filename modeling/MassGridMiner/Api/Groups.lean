import MassGridMiner.Lib.Atof
import MassGridMiner.Lib.Format
import MassGridMiner.Lib.Search
import MassGridMiner.Lib.Split
import Mathlib.Data.List.Nodup
import Mathlib.Data.List.Perm.Subperm

/-!
# Groups of API commands

A client of the API belongs to a group, named by a letter, and a group may use the commands
that are set up for it.  They are kept as one text, with a separator in front of the first name
and behind each, and are found again by a search for the name between two separators.

## Main definitions

* `Cmd`, `CmdTable`, `cmdTable` — the commands.
* `setupGroups` — the groups that an option asks for.
* `InGroup` — the commands that a group is to have.
* `strstr_commands_iff` — a search finds these.
-/

namespace MassGridMiner

open CStr

/-- An entry of `cmds`.  Its function is named by the entry itself. -/
structure Cmd where
  name : List UInt8
  iswritemode : Bool
  joinable : Bool
  deriving DecidableEq

/-- `TMPBUFSIZ`. -/
def tmpbufsiz : ℕ := 8192

/-- `SEPARATOR`. -/
def separator : UInt8 := 0x7c

/-- A table of commands: no name is another's, all of them fit into the buffer of a group, each
fits into the buffer for the search, and none is a star or has a separator in it. -/
structure CmdTable where
  cmds : List Cmd
  nodup : (cmds.map fun c => c.name.map tolower).Nodup
  room : (cmds.map fun c => c.name.length + 1).sum + 2 ≤ tmpbufsiz
  short : ∀ c ∈ cmds, c.name.length + 3 ≤ 100
  plain : ∀ c ∈ cmds, separator ∉ c.name
  unstarred : ∀ c ∈ cmds, equalNoCase [0x2a] c.name = false

/-- `toupper`, in the C locale. -/
def toupper (c : UInt8) : UInt8 := if 0x61 ≤ c && c ≤ 0x7a then c - 0x20 else c

/-- `PRIVGROUP`. -/
def privGroup : UInt8 := 0x57

/-- `NOPRIVGROUP`. -/
def noPrivGroup : UInt8 := 0x52

/-- `ISPRIVGROUP`. -/
def isPrivGroup (g : UInt8) : Bool := toupper g == privGroup

/-- `VALIDGROUP`. -/
def validGroup (g : UInt8) : Bool := 0x41 ≤ toupper g && toupper g ≤ 0x5a

/-- `apigroups`, by the letter of the group. -/
abbrev ApiGroups := UInt8 → Option (List UInt8)

/-- `COMMANDS`. -/
def ApiGroups.commands (groups : ApiGroups) (g : UInt8) : Option (List UInt8) :=
  groups (toupper g)

/-- `DEFINEDGROUP`. -/
def ApiGroups.defined (groups : ApiGroups) (g : UInt8) : Bool :=
  isPrivGroup g || (groups.commands g).isSome

/-! ## The table -/

/-- `cmds`, in a build with or without OpenCL and mining on the processor. -/
def cmds (useOpencl useCpumining : Bool) : List Cmd :=
    [⟨literal "version", false, true⟩, ⟨literal "config", false, true⟩,
      ⟨literal "devscan", true, false⟩, ⟨literal "devs", false, true⟩,
      ⟨literal "procs", false, true⟩, ⟨literal "pools", false, true⟩,
      ⟨literal "summary", false, true⟩] ++
    (if useOpencl then
      [⟨literal "gpuenable", true, false⟩, ⟨literal "gpudisable", true, false⟩,
      ⟨literal "gpurestart", true, false⟩, ⟨literal "gpu", false, false⟩]
    else []) ++
    [⟨literal "pga", false, false⟩, ⟨literal "pgaenable", true, false⟩,
      ⟨literal "pgadisable", true, false⟩, ⟨literal "pgarestart", true, false⟩,
      ⟨literal "pgaidentify", true, false⟩, ⟨literal "proc", false, false⟩,
      ⟨literal "procenable", true, false⟩, ⟨literal "procdisable", true, false⟩,
      ⟨literal "procidentify", true, false⟩] ++
    (if useCpumining then
      [⟨literal "cpuenable", true, false⟩, ⟨literal "cpudisable", true, false⟩,
      ⟨literal "cpurestart", true, false⟩, ⟨literal "cpu", false, false⟩]
    else []) ++
    [⟨literal "gpucount", false, true⟩, ⟨literal "pgacount", false, true⟩,
      ⟨literal "proccount", false, true⟩, ⟨literal "cpucount", false, true⟩,
      ⟨literal "switchpool", true, false⟩, ⟨literal "addpool", true, false⟩,
      ⟨literal "poolpriority", true, false⟩, ⟨literal "poolquota", true, false⟩,
      ⟨literal "enablepool", true, false⟩, ⟨literal "disablepool", true, false⟩,
      ⟨literal "removepool", true, false⟩] ++
    (if useOpencl then
      [⟨literal "gpuintensity", true, false⟩, ⟨literal "gpumem", true, false⟩,
      ⟨literal "gpuengine", true, false⟩, ⟨literal "gpufan", true, false⟩,
      ⟨literal "gpuvddc", true, false⟩]
    else []) ++
    [⟨literal "save", true, false⟩, ⟨literal "quit", true, false⟩,
      ⟨literal "privileged", true, false⟩, ⟨literal "notify", false, true⟩,
      ⟨literal "procnotify", false, true⟩, ⟨literal "devdetails", false, true⟩,
      ⟨literal "procdetails", false, true⟩, ⟨literal "restart", true, false⟩,
      ⟨literal "stats", false, true⟩, ⟨literal "check", false, false⟩,
      ⟨literal "failover-only", true, false⟩, ⟨literal "coin", false, true⟩,
      ⟨literal "debug", true, false⟩, ⟨literal "setconfig", true, false⟩,
      ⟨literal "pgaset", true, false⟩, ⟨literal "procset", true, false⟩,
      ⟨literal "zero", true, false⟩]

/-- The table that the program is built with. -/
def cmdTable (useOpencl useCpumining : Bool) : CmdTable where
  cmds := cmds useOpencl useCpumining
  nodup := by revert useOpencl useCpumining; decide +kernel
  room := by revert useOpencl useCpumining; decide +kernel
  short := by revert useOpencl useCpumining; decide +kernel
  plain := by revert useOpencl useCpumining; decide +kernel
  unstarred := by revert useOpencl useCpumining; decide +kernel

/-! ## `setup_groups` -/

/-- How `setup_groups` ends without groups: by a write past the end of a buffer, or by `quit`
with a message. -/
inductive GroupsStop
  | overflow
  | quit (msg : List UInt8)
  deriving DecidableEq

/-- A name and a separator behind the commands so far. -/
def appendCommand (commands name : List UInt8) : Except GroupsStop (List UInt8) :=
  let commands := commands ++ (name ++ [separator])
  if commands.length + 1 ≤ tmpbufsiz then .ok commands else .error .overflow

/-- The same, unless the name is among them. -/
def addCommand (commands name : List UInt8) : Except GroupsStop (List UInt8) :=
  let cmdbuf := enclosed separator name
  if cmdbuf.length + 1 ≤ 100 then
    if (strstr cmdbuf commands).isSome then .ok commands else appendCommand commands name
  else .error .overflow

/-- The loop over the names of a group: the commands, and whether a star was among them. -/
def readCommands (table : CmdTable) (group : UInt8) :
    List (List UInt8) → List UInt8 → Bool → Except GroupsStop (List UInt8 × Bool)
  | [], commands, addstar => .ok (commands, addstar)
  | ptr :: rest, commands, addstar =>
    if ptr = [0x2a] then readCommands table group rest commands true
    else
      match table.cmds.find? fun c => equalNoCase ptr c.name with
      | some c =>
        (addCommand commands c.name).bind fun commands =>
          readCommands table group rest commands addstar
      | none =>
        .error (.quit (literal "API unknown command '" ++ ptr ++ literal "' in group '" ++
          [group] ++ literal "'"))

/-- The loop that adds every command without `iswritemode`. -/
def addStar (add : List UInt8 → List UInt8 → Except GroupsStop (List UInt8)) :
    List Cmd → List UInt8 → Except GroupsStop (List UInt8)
  | [], commands => .ok commands
  | c :: rest, commands =>
    if c.iswritemode then addStar add rest commands
    else (add commands c.name).bind fun commands => addStar add rest commands

/-- The commands of one group. -/
def groupCommands (table : CmdTable) (group : UInt8) (ptr : List UInt8) :
    Except GroupsStop (List UInt8) :=
  (readCommands table group (pieces 0x3a ptr) [separator] false).bind fun (commands, addstar) =>
    if addstar then addStar addCommand table.cmds commands else .ok commands

/-- One turn of the loop over the groups.  Behind an empty entry the next one is looked at. -/
def setupGroup (table : CmdTable) (groups : ApiGroups) (next : List (List UInt8)) :
    List UInt8 → Except GroupsStop ApiGroups
  | letter :: 0x3a :: ptr =>
    let group := toupper letter
    if !validGroup letter then
      .error (.quit (literal "API invalid group name '" ++ [letter] ++ literal "'"))
    else if group = privGroup then
      .error (.quit (literal "API group name can't be '" ++ [privGroup] ++ literal "'"))
    else if group = noPrivGroup then
      .error (.quit (literal "API group name can't be '" ++ [noPrivGroup] ++ literal "'"))
    else if (groups group).isSome then
      .error (.quit (literal "API duplicate group name '" ++ [letter] ++ literal "'"))
    else
      (groupCommands table group ptr).map fun commands =>
        Function.update groups group (some commands)
  | ptr =>
    if ptr = [] ∧ next.head?.bind List.head? = some 0x3a then
      .error (.quit (literal "API invalid group name '" ++ [0] ++ literal "'"))
    else .error (.quit (literal "API invalid group name '" ++ (cut 0x3a ptr).1 ++ literal "'"))

/-- The loop over the groups. -/
def readGroups (table : CmdTable) : List (List UInt8) → ApiGroups → Except GroupsStop ApiGroups
  | [], groups => .ok groups
  | ptr :: next, groups =>
    (setupGroup table groups next ptr).bind fun groups => readGroups table next groups

/-- `setup_groups`, with nothing set up before. -/
def setupGroups (table : CmdTable) (optApiGroups : Option (List UInt8)) :
    Except GroupsStop ApiGroups :=
  (readGroups table (pieces 0x2c (optApiGroups.getD [])) fun _ => none).bind fun groups =>
    (addStar appendCommand table.cmds [separator]).map fun commands =>
      Function.update groups noPrivGroup (some commands)

/-! ## What a group is to have -/

/-- A name is in a list for a group. -/
def Listed (entries : List (List UInt8)) (g : UInt8) (name : List UInt8) : Prop :=
  ∃ letter ptr, letter :: 0x3a :: ptr ∈ entries ∧ toupper letter = g ∧ name ∈ pieces 0x3a ptr

/-- The commands of a group by the lists for it: those that it names, in upper or lower case,
and with a star all that do not write. -/
def Member (entries : List (List UInt8)) (g : UInt8) (c : Cmd) : Prop :=
  (∃ name, Listed entries g name ∧ equalNoCase name c.name) ∨
    Listed entries g [0x2a] ∧ c.iswritemode = false

/-- The commands that the option gives to a group. -/
def InGroup (optApiGroups : Option (List UInt8)) (g : UInt8) (c : Cmd) : Prop :=
  if g = noPrivGroup then c.iswritemode = false
  else Member (pieces 0x2c (optApiGroups.getD [])) g c

/-! ## What a text of commands holds -/

namespace CmdTable
variable (table : CmdTable)

theorem eq_of_equalNoCase {table : CmdTable} {c d : Cmd} (hc : c ∈ table.cmds)
    (hd : d ∈ table.cmds) (H : equalNoCase c.name d.name) : c = d :=
  List.inj_on_of_nodup_map table.nodup hc hd (by simpa [equalNoCase] using H)

/-- What a name in upper or lower case stands for. -/
theorem equalNoCase_iff {table : CmdTable} {c d : Cmd} (hc : c ∈ table.cmds)
    (hd : d ∈ table.cmds) {name : List UInt8} (H : equalNoCase name d.name) :
    equalNoCase name c.name ↔ c = d := by
  refine ⟨fun h => eq_of_equalNoCase hc hd ?_, fun h => h ▸ H⟩
  simp only [equalNoCase, beq_iff_eq] at h H ⊢
  exact h.symm.trans H

theorem eq_of_name {table : CmdTable} {c d : Cmd} (hc : c ∈ table.cmds) (hd : d ∈ table.cmds)
    (H : c.name = d.name) : c = d :=
  eq_of_equalNoCase hc hd (by simp [equalNoCase, H])

/-- The text is that of some commands of the table, none of them twice, and these are the
allowed ones. -/
def Holds (allowed : Cmd → Prop) (commands : List UInt8) : Prop :=
  ∃ cs : List Cmd, commands = joined separator (cs.map Cmd.name) ∧ cs.Nodup ∧
    cs ⊆ table.cmds ∧ ∀ c, c ∈ cs ↔ c ∈ table.cmds ∧ allowed c

variable {table} {allowed : Cmd → Prop} {commands : List UInt8} {c : Cmd}

theorem Holds.congr {allowed' : Cmd → Prop} (H : table.Holds allowed commands)
    (hiff : ∀ c ∈ table.cmds, allowed c ↔ allowed' c) : table.Holds allowed' commands := by
  obtain ⟨cs, heq, hnodup, hsub, hmem⟩ := H
  refine ⟨cs, heq, hnodup, hsub, fun c => (hmem c).trans ?_⟩
  exact and_congr_right fun hc => hiff c hc

/-- Names that are not repeated leave room for the terminator. -/
theorem length_joined_lt {cs : List Cmd} (hnodup : cs.Nodup) (hsub : cs ⊆ table.cmds) :
    (joined separator (cs.map Cmd.name)).length + 1 ≤ tmpbufsiz := by
  obtain ⟨l, hl, hsublist⟩ := hnodup.subperm hsub
  obtain ⟨ds, hperm⟩ := hsublist.exists_perm_append
  have hsum := ((hperm.trans (hl.append_right ds)).map fun c : Cmd => c.name.length + 1).sum_nat
  have hroom := table.room
  rw [List.map_append, List.sum_append] at hsum
  rw [length_joined, List.map_map]
  simp only [Function.comp_def] at hsum ⊢
  omega

/-- A name between separators fits into the buffer for the search. -/
theorem length_enclosed_le (hc : c ∈ table.cmds) :
    (enclosed separator c.name).length + 1 ≤ 100 := by
  have := table.short c hc
  simp only [enclosed, List.length_cons, List.length_append, List.length_nil]
  omega

/-- **A search for a name between separators finds the allowed commands.** -/
theorem Holds.search_iff (H : table.Holds allowed commands) (hc : c ∈ table.cmds) :
    (strstr (enclosed separator c.name) commands).isSome ↔ allowed c := by
  obtain ⟨cs, rfl, hnodup, hsub, hmem⟩ := H
  have hplain : ∀ w ∈ cs.map Cmd.name, separator ∉ w := fun w hw => by
    obtain ⟨d, hd, rfl⟩ := List.mem_map.mp hw
    exact table.plain d (hsub hd)
  rw [isSome_strstr_iff, enclosed_infix_joined_iff (table.plain c hc) hplain, List.mem_map]
  constructor
  · rintro ⟨d, hd, hname⟩
    rw [← eq_of_name (hsub hd) hc hname]
    exact ((hmem d).mp hd).2
  · exact fun hallowed => ⟨c, (hmem c).mpr ⟨hc, hallowed⟩, rfl⟩

theorem holds_separator (table : CmdTable) : table.Holds (fun _ => False) [separator] :=
  ⟨[], rfl, List.nodup_nil, List.nil_subset _, by simp⟩

/-- Another command goes behind those of the text. -/
theorem Holds.append (H : table.Holds allowed commands) (hc : c ∈ table.cmds)
    (hnew : ¬ allowed c) :
    ∃ commands', appendCommand commands c.name = .ok commands' ∧
      table.Holds (fun d => allowed d ∨ d = c) commands' := by
  obtain ⟨cs, rfl, hnodup, hsub, hmem⟩ := H
  have hnodup' : (cs ++ [c]).Nodup := by
    refine List.nodup_append.mpr ⟨hnodup, List.nodup_singleton c, ?_⟩
    rintro d hd e he rfl
    rw [List.mem_singleton.mp he] at hd
    exact hnew ((hmem c).mp hd).2
  have hsub' : cs ++ [c] ⊆ table.cmds :=
    List.append_subset.mpr ⟨hsub, List.cons_subset.mpr ⟨hc, List.nil_subset _⟩⟩
  have heq : joined separator ((cs ++ [c]).map Cmd.name) =
      joined separator (cs.map Cmd.name) ++ (c.name ++ [separator]) := by
    rw [List.map_append, List.map_singleton, joined_append_singleton]
  refine ⟨_, if_pos (heq ▸ length_joined_lt hnodup' hsub'), cs ++ [c], heq.symm, hnodup', hsub', ?_⟩
  intro d
  rw [List.mem_append, List.mem_singleton, hmem, and_or_left]
  refine or_congr_right ⟨?_, And.right⟩
  rintro rfl
  exact ⟨hc, rfl⟩

/-- A command that is not in the text yet is added without the search for it. -/
theorem Holds.addCommand_eq (H : table.Holds allowed commands) (hc : c ∈ table.cmds)
    (hnew : ¬ allowed c) : addCommand commands c.name = appendCommand commands c.name := by
  simp only [addCommand, if_pos (length_enclosed_le hc)]
  exact if_neg (mt (H.search_iff hc).mp hnew)

/-- What is in the text already is not added again. -/
theorem Holds.add (H : table.Holds allowed commands) (hc : c ∈ table.cmds) :
    ∃ commands', addCommand commands c.name = .ok commands' ∧
      table.Holds (fun d => allowed d ∨ d = c) commands' := by
  by_cases hnew : allowed c
  · refine ⟨commands, ?_, H.congr fun d _ => ⟨Or.inl, ?_⟩⟩
    · simp only [addCommand, if_pos (length_enclosed_le hc)]
      exact if_pos ((H.search_iff hc).mpr hnew)
    · rintro (hd | rfl)
      · exact hd
      · exact hnew
  · rw [H.addCommand_eq hc hnew]
    exact H.append hc hnew

end CmdTable

/-! ## What the loops make of it -/

/-- No buffer is written past its end, and a value that is returned is as `P` says. -/
def Ends {α : Type} (P : α → Prop) : Except GroupsStop α → Prop
  | .ok a => P a
  | .error stop => stop ≠ .overflow

theorem Ends.imp {α : Type} {P Q : α → Prop} {r : Except GroupsStop α} (H : Ends P r)
    (himp : ∀ a, P a → Q a) : Ends Q r := by
  cases r with
  | ok a => exact himp a H
  | error stop => exact H

theorem Ends.bind {α β : Type} {P : α → Prop} {Q : β → Prop} {r : Except GroupsStop α}
    {f : α → Except GroupsStop β} (H : Ends P r) (hf : ∀ a, P a → Ends Q (f a)) :
    Ends Q (r.bind f) := by
  cases r with
  | ok a => exact hf a H
  | error stop => exact H

theorem Ends.map {α β : Type} {P : α → Prop} {Q : β → Prop} {r : Except GroupsStop α}
    {f : α → β} (H : Ends P r) (hf : ∀ a, P a → Q (f a)) : Ends Q (r.map f) := by
  cases r with
  | ok a => exact hf a H
  | error stop => exact H

variable {table : CmdTable} {allowed : Cmd → Prop} {commands : List UInt8}

/-- The names of a group are added one by one, and the star is remembered. -/
theorem ends_readCommands (H : table.Holds allowed commands) (group : UInt8)
    (names : List (List UInt8)) (addstar : Bool) :
    Ends (fun r => table.Holds (fun c => allowed c ∨ ∃ name ∈ names, equalNoCase name c.name) r.1 ∧
        (r.2 = true ↔ addstar = true ∨ [0x2a] ∈ names))
      (readCommands table group names commands addstar) := by
  induction names generalizing allowed commands addstar with
  | nil => exact ⟨H.congr (by simp), by simp⟩
  | cons ptr rest ih =>
      rw [readCommands]
      split
      · rename_i hstar
        subst hstar
        refine (ih H true).imp fun r hr => ⟨hr.1.congr fun c hc => ?_, by simpa using hr.2⟩
        simp [table.unstarred c hc]
      · rename_i hstar
        split
        · rename_i d hd
          have hmem := List.mem_of_find?_eq_some hd
          have hname : equalNoCase ptr d.name := by simpa using List.find?_some hd
          obtain ⟨commands', hadd, H'⟩ := H.add hmem
          rw [hadd]
          refine (ih H' addstar).imp fun r hr => ⟨hr.1.congr fun c hc => ?_, ?_⟩
          · simp [CmdTable.equalNoCase_iff hc hmem hname, or_assoc]
          · simpa [Ne.symm hstar] using hr.2
        · exact fun h => by cases h

/-- The commands without `iswritemode` are added one by one. -/
theorem ends_addStar (H : table.Holds allowed commands) {cs : List Cmd} (hcs : cs ⊆ table.cmds) :
    Ends (table.Holds fun c => allowed c ∨ c ∈ cs ∧ c.iswritemode = false)
      (addStar addCommand cs commands) := by
  induction cs generalizing allowed commands with
  | nil => exact H.congr (by simp)
  | cons d rest ih =>
      obtain ⟨hd, hrest⟩ := List.cons_subset.mp hcs
      rw [addStar]
      split
      · rename_i hwrite
        refine (ih H hrest).imp fun r hr => hr.congr fun c _ => or_congr_right ?_
        rw [List.mem_cons]
        refine ⟨And.imp_left Or.inr, ?_⟩
        rintro ⟨rfl | hc, hread⟩
        · rw [hwrite] at hread
          cases hread
        · exact ⟨hc, hread⟩
      · rename_i hread
        obtain ⟨commands', hadd, H'⟩ := H.add hd
        rw [hadd]
        refine (ih H' hrest).imp fun r hr => hr.congr fun c _ => ?_
        rw [List.mem_cons, or_and_right, or_assoc]
        refine or_congr_right (or_congr_left ⟨?_, And.left⟩)
        rintro rfl
        exact ⟨rfl, by simpa using hread⟩

/-- Where no command is in the text yet, they are added without a search. -/
theorem addStar_append_eq (H : table.Holds allowed commands) {cs : List Cmd}
    (hcs : cs ⊆ table.cmds) (hnodup : cs.Nodup) (hnew : ∀ c ∈ cs, ¬ allowed c) :
    addStar appendCommand cs commands = addStar addCommand cs commands := by
  induction cs generalizing allowed commands with
  | nil => rfl
  | cons d rest ih =>
      obtain ⟨hd, hrest⟩ := List.cons_subset.mp hcs
      obtain ⟨hdrest, hnodup⟩ := List.nodup_cons.mp hnodup
      have hnew' : ∀ c ∈ rest, ¬ allowed c := fun c hc => hnew c (List.mem_cons_of_mem d hc)
      rw [addStar, addStar]
      split
      · exact ih H hrest hnodup hnew'
      · obtain ⟨commands', happend, H'⟩ := H.append hd (hnew d List.mem_cons_self)
        rw [H.addCommand_eq hd (hnew d List.mem_cons_self), happend]
        refine ih H' hrest hnodup fun c hc => ?_
        rintro (hallowed | rfl)
        · exact hnew' c hc hallowed
        · exact hdrest hc

/-- The commands of a group are those that its list names, with a star all that do not write. -/
theorem ends_groupCommands (table : CmdTable) (group : UInt8) (ptr : List UInt8) :
    Ends (table.Holds fun c => (∃ name ∈ pieces 0x3a ptr, equalNoCase name c.name) ∨
        [0x2a] ∈ pieces 0x3a ptr ∧ c.iswritemode = false)
      (groupCommands table group ptr) := by
  have hread := ends_readCommands table.holds_separator group (pieces 0x3a ptr) false
  refine hread.bind ?_
  rintro ⟨commands, addstar⟩ ⟨H, hstar⟩
  simp only [Bool.false_eq_true, false_or] at hstar
  dsimp only
  split
  · rename_i hadd
    refine (ends_addStar H (List.Subset.refl _)).imp fun r hr => hr.congr fun c hc => ?_
    simp [hstar.mp hadd, hc]
  · rename_i hadd
    refine H.congr fun c _ => ?_
    simp [mt hstar.mpr hadd]

/-! ## The groups -/

theorem listed_append_singleton_iff {done : List (List UInt8)} {letter : UInt8}
    {ptr : List UInt8} {g : UInt8} {name : List UInt8} :
    Listed (done ++ [letter :: 0x3a :: ptr]) g name ↔
      Listed done g name ∨ toupper letter = g ∧ name ∈ pieces 0x3a ptr := by
  constructor
  · rintro ⟨l, p, hmem, hg, hname⟩
    rcases List.mem_append.mp hmem with hdone | hlast
    · exact .inl ⟨l, p, hdone, hg, hname⟩
    · simp only [List.mem_singleton, List.cons.injEq, true_and] at hlast
      obtain ⟨rfl, rfl⟩ := hlast
      exact .inr ⟨hg, hname⟩
  · rintro (⟨l, p, hdone, hg, hname⟩ | ⟨hg, hname⟩)
    · exact ⟨l, p, List.mem_append_left _ hdone, hg, hname⟩
    · exact ⟨letter, ptr, List.mem_append_right _ (List.mem_singleton_self _), hg, hname⟩

/-- The groups that are set up have the commands that the entries give them, and no entry names
another. -/
structure Served (table : CmdTable) (done : List (List UInt8)) (groups : ApiGroups) : Prop where
  holds : ∀ g commands, groups g = some commands → table.Holds (Member done g) commands
  unlisted : ∀ g, groups g = none → ∀ name, ¬ Listed done g name

theorem ends_setupGroup {done : List (List UInt8)} {groups : ApiGroups}
    (H : Served table done groups) (next : List (List UInt8)) (ptr : List UInt8) :
    Ends (Served table (done ++ [ptr])) (setupGroup table groups next ptr) := by
  rw [setupGroup.eq_def]
  split
  · rename_i letter ptr
    dsimp only
    split_ifs with hvalid hpriv hnopriv hdup
    · exact fun h => by cases h
    · exact fun h => by cases h
    · exact fun h => by cases h
    · exact fun h => by cases h
    have hnone : groups (toupper letter) = none := by simpa using hdup
    refine (ends_groupCommands table (toupper letter) ptr).map fun commands hcommands => ?_
    constructor
    · intro g commands' hg
      by_cases hsame : g = toupper letter
      · subst hsame
        obtain rfl : commands = commands' := by simpa using hg
        refine hcommands.congr fun c _ => ?_
        simp only [Member, listed_append_singleton_iff, H.unlisted _ hnone, false_or, true_and]
      · rw [Function.update_of_ne hsame] at hg
        refine (H.holds g commands' hg).congr fun c _ => ?_
        simp only [Member, listed_append_singleton_iff, Ne.symm hsame, false_and, or_false]
    · intro g hg name hlisted
      by_cases hsame : g = toupper letter
      · subst hsame
        simp at hg
      · rw [Function.update_of_ne hsame] at hg
        rcases listed_append_singleton_iff.mp hlisted with hdone | ⟨heq, -⟩
        · exact H.unlisted g hg name hdone
        · exact hsame heq.symm
  · split <;> exact fun h => by cases h

theorem ends_readGroups {done : List (List UInt8)} {groups : ApiGroups}
    (H : Served table done groups) (entries : List (List UInt8)) :
    Ends (Served table (done ++ entries)) (readGroups table entries groups) := by
  induction entries generalizing done groups with
  | nil => simpa using! H
  | cons ptr next ih =>
      refine (ends_setupGroup H next ptr).bind fun groups' H' => ?_
      have := ih H'
      rwa [List.append_assoc] at this

/-- **The groups are set up as the option says.**  No buffer is written past its end; the text
of a group that is set up holds the commands that the option gives to it; and the group for
clients without privileges is set up. -/
theorem ends_setupGroups (table : CmdTable) (optApiGroups : Option (List UInt8)) :
    Ends (fun groups => (∀ g commands, groups g = some commands →
        table.Holds (InGroup optApiGroups g) commands) ∧ (groups noPrivGroup).isSome)
      (setupGroups table optApiGroups) := by
  have hstart : Served table [] fun _ => none := by
    refine ⟨fun g commands h => (by cases h), fun g _ name => ?_⟩
    rintro ⟨letter, ptr, hmem, -⟩
    cases hmem
  refine (ends_readGroups hstart (pieces 0x2c (optApiGroups.getD []))).bind fun groups H => ?_
  have hnames : table.cmds.Nodup := table.nodup.of_map
  rw [addStar_append_eq table.holds_separator (List.Subset.refl _) hnames fun _ _ => id]
  refine (ends_addStar table.holds_separator (List.Subset.refl _)).map fun commands hR => ?_
  refine ⟨fun g commands' hg => ?_, by simp⟩
  by_cases hsame : g = noPrivGroup
  · subst hsame
    obtain rfl : commands = commands' := by simpa using hg
    refine hR.congr fun c hc => ?_
    simp [InGroup, hc]
  · rw [Function.update_of_ne hsame] at hg
    refine (H.holds g commands' hg).congr fun c _ => ?_
    simp [InGroup, hsame]

end MassGridMiner

import MassGridMiner.Api.Access
import MassGridMiner.Stratum.Json

/-!
# Requests to the API

A request names a command, or several that are joined.  Each is looked up in the table, and its
function is called if the group of the client has it.

## Main definitions

* `ApiEvent` — what the loop does, in order.
* `parseRequest`, `runSingle`, `runJoin`, `serve` — the loop.
* `serve_authorized` — who can have what done.
-/

namespace MassGridMiner

/-- The messages that the loop itself gives. -/
inductive ApiMsg
  | invjson
  | miscmd
  | invcmd
  | accdeny (cmd : List UInt8)
  deriving DecidableEq

/-- What the loop does with a request.  The function of a command is called with the
parameter; `headJoin` is told whether it is the first. -/
inductive ApiEvent
  | call (c : Cmd) (param : Option (List UInt8))
  | message (msg : ApiMsg)
  | headJoin (cmd : List UInt8) (firstjoin : Bool)
  | tailJoin
  | sendResult
  deriving DecidableEq

/-- `CMDJOIN`. -/
def cmdJoin : UInt8 := 0x2b

/-- The command and the parameter of a request, or the message that it is answered with. -/
inductive Request
  | failed (msg : ApiMsg)
  | command (cmd : List UInt8) (param : Option (List UInt8))
  deriving DecidableEq

section
variable (jsonLoads : List UInt8 → Option Json) (printReal : Float → List UInt8)

/-- `JSON_PARAMETER` of a request, as a text. -/
def jsonParam : Option Json → Option (List UInt8)
  | some (.string s) => some s.bytes
  | some (.integer n) => some (literal (toString (n.bmod (2 ^ 32))))
  | some (.real x) => some (printReal x)
  | _ => none

/-- What was received, read as plain text or as JSON. -/
def parseRequest (buf : List UInt8) : Request :=
  let text := (CStr.ofMem buf).bytes
  if text.head? ≠ some 0x7b then
    let (cmd, param) := cut separator text
    .command cmd param
  else
    match jsonLoads buf with
    | some (.object members) =>
      match (Json.object members).get "command" with
      | none => .failed .miscmd
      | some (.string cmd) =>
        .command cmd.bytes (jsonParam printReal ((Json.object members).get "parameter"))
      | some _ => .failed .invcmd
    | _ => .failed .invjson

end

section
variable (table : CmdTable) (groups : ApiGroups) (group : UInt8)

/-- The name of a command between separators, if `cmdbuf` has room for it. -/
def cmdbuf (name : List UInt8) : Option (List UInt8) :=
  let text := enclosed separator name
  if text.length + 1 ≤ 100 then some text else none

/-- The function of a command is called if the group of the client has it.  Where the group has
no commands at all, NULL is searched. -/
def callOrDeny (c : Cmd) (param : Option (List UInt8)) (cmdbuf : List UInt8) : Option ApiEvent :=
  if isPrivGroup group then some (.call c param)
  else
    (groups.commands group).map fun commands =>
      if (strstr cmdbuf commands).isSome then .call c param else .message (.accdeny c.name)

/-- The loop for a request that is not joined. -/
def runSingle (cmd : List UInt8) (param : Option (List UInt8)) : Option (List ApiEvent) :=
  match table.cmds.find? fun c => c.name == cmd with
  | none => some [.message .invcmd, .sendResult]
  | some c =>
    (cmdbuf cmd).bind fun cmdbuf =>
      (callOrDeny groups group c param cmdbuf).map fun event => [event, .sendResult]

/-- The loop over the parts of a joined request; `room` is the size of `cmdsbuf`. -/
def runJoin (room : ℕ) : List (List UInt8) → List UInt8 → Bool → Option (List ApiEvent)
  | [], _, _ => some [.sendResult]
  | cmdptr :: cmd, cmdsbuf, firstjoin =>
    if cmdptr = [] then runJoin room cmd cmdsbuf firstjoin
    else
      match table.cmds.find? fun c => c.name == cmdptr with
      | none =>
        (runJoin room cmd cmdsbuf false).map
          ([.headJoin cmdptr firstjoin, .message .invcmd, .tailJoin] ++ ·)
      | some c =>
        (cmdbuf cmdptr).bind fun cmdbuf =>
          if (strstr cmdbuf cmdsbuf).isSome then runJoin room cmd cmdsbuf firstjoin
          else
            let cmdsbuf := cmdsbuf ++ (cmdptr ++ [separator])
            if cmdsbuf.length + 1 ≤ room then
              (if c.joinable then callOrDeny groups group c none cmdbuf
                else some (.message (.accdeny c.name))).bind fun event =>
                (runJoin room cmd cmdsbuf false).map
                  ([.headJoin cmdptr firstjoin, event, .tailJoin] ++ ·)
            else none

/-- The loop of `api` for one request: what it does, unless it writes past the end of a buffer
or searches NULL. -/
def serve : Request → Option (List ApiEvent)
  | .failed msg => some [.message msg, .sendResult]
  | .command cmd param =>
    if cmdJoin ∈ cmd then
      runJoin table groups group (cmd.length + 3) (cmd.splitOn cmdJoin) [separator] true
    else runSingle table groups group cmd param

end

/-- The commands whose functions are called. -/
def calls (events : List ApiEvent) : List Cmd :=
  events.filterMap fun
    | .call c _ => some c
    | _ => none

/-- The parts of a request are joined. -/
def Request.isJoin : Request → Bool
  | .failed _ => false
  | .command cmd _ => cmdJoin ∈ cmd

/-! ## What is called -/

section
variable {table : CmdTable} {groups : ApiGroups} {group : UInt8} {allowed : Cmd → Prop}

/-- The group is that of clients with all privileges, or its commands are the allowed ones. -/
def GroupHolds (table : CmdTable) (groups : ApiGroups) (group : UInt8) (allowed : Cmd → Prop) :
    Prop :=
  isPrivGroup group = true ∨ ∃ commands, groups.commands group = some commands ∧
    table.Holds allowed commands

/-- A command of the table is called only if the group has it. -/
theorem exists_callOrDeny (H : GroupHolds table groups group allowed) {c : Cmd}
    (hc : c ∈ table.cmds) (param : Option (List UInt8)) :
    ∃ event, callOrDeny groups group c param (enclosed separator c.name) = some event ∧
      (event = .call c param ∧ (isPrivGroup group = true ∨ allowed c) ∨
        event = .message (.accdeny c.name)) := by
  rw [callOrDeny]
  split
  · rename_i hpriv
    exact ⟨_, rfl, .inl ⟨rfl, .inl hpriv⟩⟩
  · rename_i hpriv
    obtain ⟨commands, hcommands, hholds⟩ := H.resolve_left hpriv
    rw [hcommands]
    by_cases hfound : (strstr (enclosed separator c.name) commands).isSome
    · exact ⟨_, rfl, .inl ⟨if_pos hfound, .inr ((hholds.search_iff hc).mp hfound)⟩⟩
    · exact ⟨_, rfl, .inr (if_neg hfound)⟩

/-- In a join, a command that cannot be joined is not called. -/
theorem exists_callOrDeny_joined (H : GroupHolds table groups group allowed) {c : Cmd}
    (hc : c ∈ table.cmds) :
    ∃ event, (if c.joinable then callOrDeny groups group c none (enclosed separator c.name)
        else some (.message (.accdeny c.name))) = some event ∧
      (event = .call c none ∧ (isPrivGroup group = true ∨ allowed c) ∧ c.joinable = true ∨
        event = .message (.accdeny c.name)) := by
  split
  · rename_i hjoin
    obtain ⟨event, hevent, hcase⟩ := exists_callOrDeny H hc none
    exact ⟨event, hevent, hcase.imp_left fun h => ⟨h.1, h.2, hjoin⟩⟩
  · exact ⟨_, rfl, .inr rfl⟩

theorem exists_of_find_name {name : List UInt8} {c : Cmd}
    (H : table.cmds.find? (fun c => c.name == name) = some c) :
    c ∈ table.cmds ∧ c.name = name ∧ cmdbuf name = some (enclosed separator name) := by
  have hc := List.mem_of_find?_eq_some H
  have hname : c.name = name := by simpa using List.find?_some H
  exact ⟨hc, hname, if_pos (hname ▸ CmdTable.length_enclosed_le hc)⟩

theorem calls_append (xs ys : List ApiEvent) : calls (xs ++ ys) = calls xs ++ calls ys :=
  List.filterMap_append

/-- What `serve` is to do: it does not fail, no command is called twice, and each that is called
is one of the table that the client may have, and that can be joined where it is. -/
def Authorized (table : CmdTable) (isjoin : Bool) (allowed : Cmd → Prop)
    (result : Option (List ApiEvent)) : Prop :=
  ∃ events, result = some events ∧ (calls events).Nodup ∧
    ∀ c ∈ calls events, c ∈ table.cmds ∧ allowed c ∧ (isjoin = true → c.joinable = true)

theorem authorized_runSingle (H : GroupHolds table groups group allowed) (cmd : List UInt8)
    (param : Option (List UInt8)) :
    Authorized table false (fun c => isPrivGroup group = true ∨ allowed c)
      (runSingle table groups group cmd param) := by
  rw [runSingle]
  split
  · exact ⟨_, rfl, List.nodup_nil, fun c hc => absurd hc List.not_mem_nil⟩
  · rename_i c hfind
    obtain ⟨hc, rfl, hbuf⟩ := exists_of_find_name hfind
    obtain ⟨event, hevent, hcase⟩ := exists_callOrDeny H hc param
    rw [hbuf, Option.bind_some, hevent]
    refine ⟨_, rfl, ?_⟩
    rcases hcase with ⟨rfl, hallowed⟩ | rfl
    · simpa [calls] using ⟨hc, hallowed⟩
    · simp [calls]

/-- A command is found in `cmdsbuf` exactly when it was seen before. -/
theorem isSome_strstr_cmdsbuf {seen : List Cmd} (hseen : seen ⊆ table.cmds) {c : Cmd}
    (hc : c ∈ table.cmds) :
    (strstr (enclosed separator c.name) (joined separator (seen.map Cmd.name))).isSome ↔
      c ∈ seen := by
  have hplain : ∀ w ∈ seen.map Cmd.name, separator ∉ w := fun w hw => by
    obtain ⟨d, hd, rfl⟩ := List.mem_map.mp hw
    exact table.plain d (hseen hd)
  rw [isSome_strstr_iff, enclosed_infix_joined_iff (table.plain c hc) hplain, List.mem_map]
  constructor
  · rintro ⟨d, hd, hname⟩
    rwa [← CmdTable.eq_of_name (hseen hd) hc hname]
  · exact fun hmem => ⟨c, hmem, rfl⟩

/-- The parts that are left still fit behind the names in `cmdsbuf`, and none of these is called
again. -/
theorem authorized_runJoin (H : GroupHolds table groups group allowed) {room : ℕ}
    (cmd : List (List UInt8)) {seen : List Cmd} (hseen : seen ⊆ table.cmds)
    (hroom : (joined separator (seen.map Cmd.name)).length + 1 +
      (cmd.map fun part => part.length + 1).sum ≤ room)
    (firstjoin : Bool) :
    ∃ events,
      runJoin table groups group room cmd (joined separator (seen.map Cmd.name)) firstjoin =
        some events ∧
      (calls events).Nodup ∧ ∀ c ∈ calls events, c ∉ seen ∧ c ∈ table.cmds ∧
        (isPrivGroup group = true ∨ allowed c) ∧ c.joinable = true := by
  induction cmd generalizing seen firstjoin with
  | nil => exact ⟨_, rfl, List.nodup_nil, fun c hc => absurd hc List.not_mem_nil⟩
  | cons cmdptr cmd ih =>
      rw [List.map_cons, List.sum_cons] at hroom
      rw [runJoin]
      split
      · exact ih hseen (by omega) firstjoin
      split
      · obtain ⟨events, hrun, hnodup, hcalls⟩ := ih hseen (by omega) false
        rw [hrun]
        exact ⟨_, rfl, hnodup, hcalls⟩
      · rename_i c hfind
        obtain ⟨hc, rfl, hbuf⟩ := exists_of_find_name hfind
        rw [hbuf, Option.bind_some]
        split
        · exact ih hseen (by omega) firstjoin
        · rename_i hfound
          have hnew : c ∉ seen := mt (isSome_strstr_cmdsbuf hseen hc).mpr hfound
          have hseen' : seen ++ [c] ⊆ table.cmds :=
            List.append_subset.mpr ⟨hseen, List.cons_subset.mpr ⟨hc, List.nil_subset _⟩⟩
          have hbuf' : joined separator (seen.map Cmd.name) ++ (c.name ++ [separator]) =
              joined separator ((seen ++ [c]).map Cmd.name) := by
            rw [List.map_append, List.map_singleton, joined_append_singleton]
          have hlen := congrArg List.length hbuf'
          simp only [List.length_append, List.length_singleton] at hlen
          obtain ⟨events, hrun, hnodup, hcalls⟩ := ih hseen' (by omega) false
          obtain ⟨event, hevent, hcase⟩ := exists_callOrDeny_joined H hc
          dsimp only
          rw [hbuf', if_pos (by omega), hevent, Option.bind_some, hrun]
          refine ⟨_, rfl, ?_⟩
          have hrest : ∀ d ∈ calls events, d ∉ seen ∧ d ≠ c := fun d hd => by
            have := (hcalls d hd).1
            rwa [List.mem_append, List.mem_singleton, not_or] at this
          rw [calls_append]
          rcases hcase with ⟨rfl, hallowed, hjoin⟩ | rfl
          · refine ⟨List.nodup_cons.mpr ⟨fun hmem => (hrest c hmem).2 rfl, hnodup⟩, ?_⟩
            intro d hd
            rcases List.mem_cons.mp hd with rfl | hd
            · exact ⟨hnew, hc, hallowed, hjoin⟩
            · exact ⟨(hrest d hd).1, (hcalls d hd).2⟩
          · exact ⟨hnodup, fun d hd => ⟨(hrest d hd).1, (hcalls d hd).2⟩⟩

theorem authorized_serve (H : GroupHolds table groups group allowed) (request : Request) :
    Authorized table request.isJoin (fun c => isPrivGroup group = true ∨ allowed c)
      (serve table groups group request) := by
  cases request with
  | failed msg => exact ⟨_, rfl, List.nodup_nil, fun c hc => absurd hc List.not_mem_nil⟩
  | command cmd param =>
      rw [serve]
      split
      · rename_i hjoin
        have hroom : (joined separator (([] : List Cmd).map Cmd.name)).length + 1 +
            ((cmd.splitOn cmdJoin).map fun part => part.length + 1).sum ≤ cmd.length + 3 := by
          rw [sum_length_splitOn]
          simp [joined]
          omega
        obtain ⟨events, hrun, hnodup, hcalls⟩ :=
          authorized_runJoin H (cmd.splitOn cmdJoin) (List.nil_subset _) hroom true
        exact ⟨events, hrun, hnodup, fun c hc =>
          have h := (hcalls c hc).2
          ⟨h.1, h.2.1, fun _ => h.2.2⟩⟩
      · rename_i hjoin
        have hsingle : (Request.command cmd param).isJoin = false := decide_eq_false hjoin
        rw [hsingle]
        exact authorized_runSingle H cmd param

end

/-! ## Requests of clients -/

/-- **Requests do only what they may.**  The buffer for the commands of a group is never written
past its end; and where the groups are accepted, any request of any client is answered without
a write past the end of a buffer, no command is called twice, and each that is called is one of
the table that can be joined, if it is, and that the group of the client has. -/
theorem serve_authorized (table : CmdTable) (optApiGroups : Option (List UInt8))
    (overshift : BitVec 32) (jsonLoads : List UInt8 → Option Json)
    (printReal : Float → List UInt8) :
    setupGroups table optApiGroups ≠ .error .overflow ∧
      ∀ groups, setupGroups table optApiGroups = .ok groups →
        ∀ (optApiAllow : Option (List UInt8)) (optApiNetwork : Bool) (client : BitVec 32)
          (buf : List UInt8),
          let ipaccess := optApiAllow.map (setupIpaccess groups overshift)
          let group := (checkConnect ipaccess optApiNetwork client).2
          let request := parseRequest jsonLoads printReal buf
          Authorized table request.isJoin
            (fun c => isPrivGroup group = true ∨ InGroup optApiGroups (toupper group) c)
            (serve table groups group request) := by
  have H := ends_setupGroups table optApiGroups
  constructor
  · intro hover
    rw [hover] at H
    exact H rfl
  · intro groups hgroups optApiAllow optApiNetwork client buf
    rw [hgroups] at H
    obtain ⟨hholds, hR⟩ := H
    have hdefined := defined_checkConnect overshift
      (by simpa [ApiGroups.defined] using! .inr hR) optApiAllow optApiNetwork client
    refine authorized_serve ?_ (parseRequest jsonLoads printReal buf)
    rcases Bool.or_eq_true_iff.mp hdefined with hpriv | hsome
    · exact .inl hpriv
    · obtain ⟨commands, hcommands⟩ := Option.isSome_iff_exists.mp hsome
      exact .inr ⟨commands, hcommands, hholds _ commands hcommands⟩

/-- A client without privileges asks for three commands at once. -/
theorem serve_authorized_joined :
    ∃ groups, setupGroups (cmdTable false false) (some (literal "P:quit:*")) = .ok groups ∧
      Authorized (cmdTable false false) true
        (fun c => isPrivGroup noPrivGroup = true ∨
          InGroup (some (literal "P:quit:*")) noPrivGroup c)
        (serve (cmdTable false false) groups noPrivGroup
          (.command (literal "version+quit+version") none)) := by
  have hok : (setupGroups (cmdTable false false) (some (literal "P:quit:*"))).toBool = true := by
    decide +kernel
  obtain ⟨-, hserve⟩ := serve_authorized (cmdTable false false) (some (literal "P:quit:*")) 0
    (fun _ => none) fun _ => []
  cases hgroups : setupGroups (cmdTable false false) (some (literal "P:quit:*")) with
  | error stop =>
      rw [hgroups] at hok
      cases hok
  | ok groups =>
      have hrequest : parseRequest (fun _ => none) (fun _ => []) (literal "version+quit+version") =
          .command (literal "version+quit+version") none := by
        decide +kernel
      have hjoin : (Request.command (literal "version+quit+version") none).isJoin = true := by
        decide +kernel
      have H := hserve groups hgroups none false 0 (literal "version+quit+version")
      dsimp only at H
      rw [hrequest, hjoin] at H
      exact ⟨groups, rfl, H⟩

end MassGridMiner

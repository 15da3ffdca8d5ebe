import MassGridMiner.Api.State

/-!
# Messages

Every reply starts with a message.  It is looked up in a table by its number; the table has the
letter of the message, its text, and which arguments the text is to be given.  The text goes to
one buffer, and the list that shows it, with the description of the program, to another.

## Main definitions

* `codes` — the table.
* `message` — the two buffers.
* `describeRoom`, `messageRoom` — the bytes that they take.
* `fits_message_iff` — how long the arguments may be.
-/

namespace MassGridMiner

/-! ## The table -/

/-- `enum code_severity`. -/
inductive CodeSeverity
  | err
  | warn
  | info
  | succ

/-- `enum code_parameters`. -/
inductive CodeParameters
  | count
  | gpu
  | pga
  | cpu
  | pid
  | gpumax
  | pgamax
  | cpumax
  | pmax
  | poolmax
  | dmax
  | cmd
  | pool
  | str
  | both
  | bool
  | set
  | none

/-- An entry of `codes`. -/
structure Code where
  severity : CodeSeverity
  code : ℕ
  params : CodeParameters
  description : String

/-! `MSG_`, for each of the messages. -/

abbrev Msg.invgpu : ℕ := 1
abbrev Msg.alrena : ℕ := 2
abbrev Msg.alrdis : ℕ := 3
abbrev Msg.gpumre : ℕ := 4
abbrev Msg.gpuren : ℕ := 5
abbrev Msg.gpunon : ℕ := 6
abbrev Msg.pool : ℕ := 7
abbrev Msg.nopool : ℕ := 8
abbrev Msg.devs : ℕ := 9
abbrev Msg.nodevs : ℕ := 10
abbrev Msg.summ : ℕ := 11
abbrev Msg.gpudis : ℕ := 12
abbrev Msg.gpurei : ℕ := 13
abbrev Msg.invcmd : ℕ := 14
abbrev Msg.misid : ℕ := 15
abbrev Msg.gpudev : ℕ := 17
abbrev Msg.cpunon : ℕ := 16
abbrev Msg.cpudev : ℕ := 18
abbrev Msg.invcpu : ℕ := 19
abbrev Msg.alrenac : ℕ := 98
abbrev Msg.alrdisc : ℕ := 99
abbrev Msg.cpumre : ℕ := 100
abbrev Msg.cpuren : ℕ := 101
abbrev Msg.cpudis : ℕ := 102
abbrev Msg.cpurei : ℕ := 103
abbrev Msg.numgpu : ℕ := 20
abbrev Msg.numcpu : ℕ := 21
abbrev Msg.version : ℕ := 22
abbrev Msg.invjson : ℕ := 23
abbrev Msg.miscmd : ℕ := 24
abbrev Msg.mispid : ℕ := 25
abbrev Msg.invpid : ℕ := 26
abbrev Msg.switchp : ℕ := 27
abbrev Msg.misval : ℕ := 28
abbrev Msg.noadl : ℕ := 29
abbrev Msg.nogpuadl : ℕ := 30
abbrev Msg.invint : ℕ := 31
abbrev Msg.gpuint : ℕ := 32
abbrev Msg.mineconfig : ℕ := 33
abbrev Msg.gpumerr : ℕ := 34
abbrev Msg.gpumem : ℕ := 35
abbrev Msg.gpueerr : ℕ := 36
abbrev Msg.gpueng : ℕ := 37
abbrev Msg.gpuverr : ℕ := 38
abbrev Msg.gpuvddc : ℕ := 39
abbrev Msg.gpuferr : ℕ := 40
abbrev Msg.gpufan : ℕ := 41
abbrev Msg.misfn : ℕ := 42
abbrev Msg.badfn : ℕ := 43
abbrev Msg.saved : ℕ := 44
abbrev Msg.accdeny : ℕ := 45
abbrev Msg.accok : ℕ := 46
abbrev Msg.enapool : ℕ := 47
abbrev Msg.dispool : ℕ := 48
abbrev Msg.alrenap : ℕ := 49
abbrev Msg.alrdisp : ℕ := 50
abbrev Msg.dislastp : ℕ := 51
abbrev Msg.mispdp : ℕ := 52
abbrev Msg.invpdp : ℕ := 53
abbrev Msg.toomanyp : ℕ := 54
abbrev Msg.addpool : ℕ := 55
abbrev Msg.pganon : ℕ := 56
abbrev Msg.pgadev : ℕ := 57
abbrev Msg.invpga : ℕ := 58
abbrev Msg.numpga : ℕ := 59
abbrev Msg.notify : ℕ := 60
abbrev Msg.pgalrena : ℕ := 61
abbrev Msg.pgalrdis : ℕ := 62
abbrev Msg.pgaena : ℕ := 63
abbrev Msg.pgadis : ℕ := 64
abbrev Msg.pgarei : ℕ := 0x101
abbrev Msg.pgaunw : ℕ := 65
abbrev Msg.remlastp : ℕ := 66
abbrev Msg.actpool : ℕ := 67
abbrev Msg.rempool : ℕ := 68
abbrev Msg.devdetails : ℕ := 69
abbrev Msg.minestats : ℕ := 70
abbrev Msg.mischk : ℕ := 71
abbrev Msg.check : ℕ := 72
abbrev Msg.poolprio : ℕ := 73
abbrev Msg.duppid : ℕ := 74
abbrev Msg.misbool : ℕ := 75
abbrev Msg.invbool : ℕ := 76
abbrev Msg.foo : ℕ := 77
abbrev Msg.minecoin : ℕ := 78
abbrev Msg.debugset : ℕ := 79
abbrev Msg.pgaident : ℕ := 80
abbrev Msg.pganoid : ℕ := 81
abbrev Msg.setconfig : ℕ := 82
abbrev Msg.unkcon : ℕ := 83
abbrev Msg.invnum : ℕ := 84
abbrev Msg.conpar : ℕ := 85
abbrev Msg.conval : ℕ := 86
abbrev Msg.mispgaopt : ℕ := 89
abbrev Msg.pganoset : ℕ := 90
abbrev Msg.pgahelp : ℕ := 91
abbrev Msg.pgasetok : ℕ := 92
abbrev Msg.pgaseterr : ℕ := 93
abbrev Msg.zermis : ℕ := 94
abbrev Msg.zerinv : ℕ := 95
abbrev Msg.zersum : ℕ := 96
abbrev Msg.zernosum : ℕ := 97
abbrev Msg.devscan : ℕ := 0x100
abbrev Msg.bye : ℕ := 0x101
abbrev Msg.invneg : ℕ := 121
abbrev Msg.setquota : ℕ := 122
abbrev Msg.invstrategy : ℕ := 0x102
abbrev Msg.failport : ℕ := 0x103

/-- `USE_ALTMSG`. -/
abbrev useAltmsg : ℕ := 0x4000

/-- `codes`. -/
def codes (b : Build) : List Code :=
    (if b.useOpencl then
      [⟨.err, Msg.invgpu, .gpumax, "Invalid GPU id %d - range is 0 - %d"⟩,
      ⟨.info, Msg.alrena, .gpu, "GPU %d already enabled"⟩,
      ⟨.info, Msg.alrdis, .gpu, "GPU %d already disabled"⟩,
      ⟨.warn, Msg.gpumre, .gpu, "GPU %d must be restarted first"⟩,
      ⟨.info, Msg.gpuren, .gpu, "GPU %d sent enable message"⟩]
    else []) ++
    [⟨.err, Msg.gpunon, .none, "No GPUs"⟩,
      ⟨.succ, Msg.pool, .pmax, "%d Pool(s)"⟩,
      ⟨.err, Msg.nopool, .none, "No pools"⟩,
      ⟨.succ, Msg.devs, .dmax, "%d PGA(s)"⟩,
      ⟨.err, Msg.nodevs, .none, "No PGAs"⟩,
      ⟨.succ, Msg.summ, .none, "Summary"⟩] ++
    (if b.useOpencl then
      [⟨.info, Msg.gpudis, .gpu, "GPU %d set disable flag"⟩,
      ⟨.info, Msg.gpurei, .gpu, "GPU %d restart attempted"⟩]
    else []) ++
    [⟨.err, Msg.invcmd, .none, "Invalid command"⟩,
      ⟨.err, Msg.misid, .none, "Missing device id parameter"⟩] ++
    (if b.useOpencl then
      [⟨.succ, Msg.gpudev, .gpu, "GPU%d"⟩]
    else []) ++
    [⟨.err, Msg.pganon, .none, "No PGAs"⟩,
      ⟨.succ, Msg.pgadev, .pga, "PGA%d"⟩,
      ⟨.err, Msg.invpga, .pgamax, "Invalid PGA id %d - range is 0 - %d"⟩,
      ⟨.info, Msg.pgalrena, .pga, "PGA %d already enabled"⟩,
      ⟨.info, Msg.pgalrdis, .pga, "PGA %d already disabled"⟩,
      ⟨.info, Msg.pgaena, .pga, "PGA %d sent enable message"⟩,
      ⟨.info, Msg.pgadis, .pga, "PGA %d set disable flag"⟩,
      ⟨.err, Msg.pgaunw, .pga, "PGA %d is not flagged WELL, cannot enable"⟩] ++
    (if b.useCpumining then
      [⟨.err, Msg.cpunon, .none, "No CPUs"⟩,
      ⟨.succ, Msg.cpudev, .cpu, "CPU%d"⟩,
      ⟨.err, Msg.invcpu, .cpumax, "Invalid CPU id %d - range is 0 - %d"⟩,
      ⟨.info, Msg.alrenac, .cpu, "CPU %d already enabled"⟩,
      ⟨.info, Msg.alrdisc, .cpu, "CPU %d already disabled"⟩,
      ⟨.warn, Msg.cpumre, .cpu, "CPU %d must be restarted first"⟩,
      ⟨.info, Msg.cpuren, .cpu, "CPU %d sent enable message"⟩,
      ⟨.info, Msg.cpudis, .cpu, "CPU %d set disable flag"⟩,
      ⟨.info, Msg.cpurei, .cpu, "CPU %d restart attempted"⟩]
    else []) ++
    [⟨.succ, Msg.numgpu, .none, "GPU count"⟩,
      ⟨.succ, Msg.numpga, .none, "PGA count"⟩,
      ⟨.succ, Msg.numcpu, .none, "CPU count"⟩,
      ⟨.succ, Msg.version, .none, "BFGMiner versions"⟩,
      ⟨.err, Msg.invjson, .none, "Invalid JSON"⟩,
      ⟨.err, Msg.miscmd, .cmd, "Missing JSON '%s'"⟩,
      ⟨.err, Msg.mispid, .none, "Missing pool id parameter"⟩,
      ⟨.err, Msg.invpid, .poolmax, "Invalid pool id %d - range is 0 - %d"⟩,
      ⟨.succ, Msg.switchp, .pool, "Switching to pool %d:'%s'"⟩,
      ⟨.err, Msg.misval, .none, "Missing comma after GPU number"⟩,
      ⟨.err, Msg.noadl, .none, "ADL is not available"⟩,
      ⟨.err, Msg.nogpuadl, .gpu, "GPU %d does not have ADL"⟩,
      ⟨.err, Msg.invint, .str, "Invalid intensity (%s) - must be 'D' or range -10 - 31"⟩,
      ⟨.info, Msg.gpuint, .both, "GPU %d set new intensity to %s"⟩,
      ⟨.succ, Msg.mineconfig, .none, "BFGMiner config"⟩] ++
    (if b.useOpencl then
      [⟨.err, Msg.gpumerr, .both, "Setting GPU %d memoryclock to (%s) reported failure"⟩,
      ⟨.succ, Msg.gpumem, .both, "Setting GPU %d memoryclock to (%s) reported success"⟩,
      ⟨.err, Msg.gpueerr, .both, "Setting GPU %d clock to (%s) reported failure"⟩,
      ⟨.succ, Msg.gpueng, .both, "Setting GPU %d clock to (%s) reported success"⟩,
      ⟨.err, Msg.gpuverr, .both, "Setting GPU %d vddc to (%s) reported failure"⟩,
      ⟨.succ, Msg.gpuvddc, .both, "Setting GPU %d vddc to (%s) reported success"⟩,
      ⟨.err, Msg.gpuferr, .both, "Setting GPU %d fan to (%s) reported failure"⟩,
      ⟨.succ, Msg.gpufan, .both, "Setting GPU %d fan to (%s) reported success"⟩]
    else []) ++
    [⟨.err, Msg.misfn, .none, "Missing save filename parameter"⟩,
      ⟨.err, Msg.badfn, .str, "Can't open or create save file '%s'"⟩,
      ⟨.succ, Msg.saved, .str, "Configuration saved to file '%s'"⟩,
      ⟨.err, Msg.accdeny, .str, "Access denied to '%s' command"⟩,
      ⟨.succ, Msg.accok, .none, "Privileged access OK"⟩,
      ⟨.succ, Msg.enapool, .pool, "Enabling pool %d:'%s'"⟩,
      ⟨.succ, Msg.poolprio, .none, "Changed pool priorities"⟩,
      ⟨.err, Msg.duppid, .pid, "Duplicate pool specified %d"⟩,
      ⟨.succ, Msg.dispool, .pool, "Disabling pool %d:'%s'"⟩,
      ⟨.info, Msg.alrenap, .pool, "Pool %d:'%s' already enabled"⟩,
      ⟨.info, Msg.alrdisp, .pool, "Pool %d:'%s' already disabled"⟩,
      ⟨.err, Msg.dislastp, .pool, "Cannot disable last active pool %d:'%s'"⟩,
      ⟨.err, Msg.mispdp, .none, "Missing addpool details"⟩,
      ⟨.err, Msg.invpdp, .str, "Invalid addpool details '%s'"⟩,
      ⟨.err, Msg.toomanyp, .none, "Reached maximum number of pools (%d)"⟩,
      ⟨.succ, Msg.addpool, .str, "Added pool '%s'"⟩,
      ⟨.err, Msg.remlastp, .pool, "Cannot remove last pool %d:'%s'"⟩,
      ⟨.err, Msg.actpool, .pool, "Cannot remove active pool %d:'%s'"⟩,
      ⟨.succ, Msg.rempool, .both, "Removed pool %d:'%s'"⟩,
      ⟨.succ, Msg.notify, .none, "Notify"⟩,
      ⟨.succ, Msg.devdetails, .none, "Device Details"⟩,
      ⟨.succ, Msg.minestats, .none, "BFGMiner stats"⟩,
      ⟨.err, Msg.mischk, .none, "Missing check cmd"⟩,
      ⟨.succ, Msg.check, .none, "Check command"⟩,
      ⟨.err, Msg.misbool, .none, "Missing parameter: true/false"⟩,
      ⟨.err, Msg.invbool, .none, "Invalid parameter should be true or false"⟩,
      ⟨.succ, Msg.foo, .bool, "Failover-Only set to %s"⟩,
      ⟨.succ, Msg.minecoin, .none, "BFGMiner coin"⟩,
      ⟨.succ, Msg.debugset, .none, "Debug settings"⟩,
      ⟨.succ, Msg.pgaident, .pga, "Identify command sent to PGA%d"⟩,
      ⟨.warn, Msg.pganoid, .pga, "PGA%d does not support identify"⟩,
      ⟨.succ, Msg.setconfig, .set, "Set config '%s' to %d"⟩,
      ⟨.err, Msg.unkcon, .str, "Unknown config '%s'"⟩,
      ⟨.err, Msg.invnum, .both, "Invalid number (%d) for '%s' range is 0-9999"⟩,
      ⟨.err, Msg.invneg, .both, "Invalid negative number (%d) for '%s'"⟩,
      ⟨.err, Msg.invstrategy, .str, "Invalid strategy for '%s'"⟩,
      ⟨.err, Msg.failport, .both, "Failed to set port (%d) for '%s'"⟩,
      ⟨.succ, Msg.setquota, .set, "Set pool '%s' to quota %d'"⟩,
      ⟨.err, Msg.conpar, .none, "Missing config parameters 'name,N'"⟩,
      ⟨.err, Msg.conval, .str, "Missing config value N for '%s,N'"⟩,
      ⟨.err, Msg.mispgaopt, .none, "Missing option after PGA number"⟩,
      ⟨.warn, Msg.pganoset, .pga, "PGA %d does not support pgaset"⟩,
      ⟨.info, Msg.pgahelp, .both, "PGA %d set help: %s"⟩,
      ⟨.succ, Msg.pgasetok, .pga, "PGA %d set OK"⟩,
      ⟨.succ, (useAltmsg ||| Msg.pgasetok), .both, "PGA %d set OK: %s"⟩,
      ⟨.err, Msg.pgaseterr, .both, "PGA %d set failed: %s"⟩,
      ⟨.err, Msg.zermis, .none, "Missing zero parameters"⟩,
      ⟨.err, Msg.zerinv, .str, "Invalid zero parameter '%s'"⟩,
      ⟨.succ, Msg.zersum, .str, "Zeroed %s stats with summary"⟩,
      ⟨.succ, Msg.zernosum, .str, "Zeroed %s stats without summary"⟩,
      ⟨.succ, Msg.devscan, .count, "Added %d new device(s)"⟩,
      ⟨.succ, Msg.bye, .str, "%s"⟩]

/-- The letter of a message. -/
def CodeSeverity.letter : CodeSeverity → CStr
  | .warn => cstr "W"
  | .info => cstr "I"
  | .succ => cstr "S"
  | .err => cstr "E"

/-! ## The text -/

/-- A format with its conversions, each of one letter, replaced by the arguments. -/
def expand : List UInt8 → List (List UInt8) → List UInt8
  | 0x25 :: _ :: fmt, arg :: args => arg ++ expand fmt args
  | c :: fmt, args => c :: expand fmt args
  | [], _ => []

/-- The number of conversions in a format. -/
def conversionsOf : List UInt8 → ℕ
  | 0x25 :: _ :: fmt => conversionsOf fmt + 1
  | _ :: fmt => conversionsOf fmt
  | [] => 0

/-- What a caller gives `message` as its last argument: NULL, a string, or what `escape_string`
makes of one. -/
inductive Param2
  | null
  | string (s : CStr)
  | escaped (s : CStr)

/-- The string that is passed. -/
def Param2.passed (isjson : Bool) : Param2 → Option CStr
  | .null => none
  | .string s => some s
  | .escaped s => some (escapeString isjson s)

/-- A call of `message`. -/
structure MessageCall where
  messageid2 : ℕ
  paramid : ℤ
  param2 : Param2

section
variable (b : Build) (st : ApiState) (perProc : Bool)

/-- What a description is formatted with. -/
def CodeParameters.args (paramid : ℤ) (param2 : Option CStr) : CodeParameters → List (List UInt8)
  | .count | .gpu | .pga | .cpu | .pid => [printInt paramid]
  | .pool => [printInt paramid, CStr.printed (st.pools[paramid.toNat]?.map ApiPool.rpcUrl)]
  | .gpumax => [printInt paramid, printInt (st.gpus.length - 1)]
  | .pgamax => [printInt paramid, printInt (numpgas st perProc - 1)]
  | .cpumax =>
    [printInt paramid, printInt ((if 0 < st.optNThreads then (st.cpus.length : ℤ) else 0) - 1)]
  | .pmax => [printInt st.pools.length]
  | .poolmax => [printInt paramid, printInt (st.pools.length - 1)]
  | .dmax => [printInt (numpgas st perProc)]
  | .cmd => [literal "command"]
  | .str => [CStr.printed param2]
  | .both => [printInt paramid, CStr.printed param2]
  | .bool => [(trueFalse (paramid ≠ 0)).bytes]
  | .set => [CStr.printed param2, printInt paramid]
  | .none => []

/-- The letter of a message and its text, in the buffer `buf`.  A number that is not in the table
is its own text. -/
def describe (call : MessageCall) (param2 : Option CStr) : CStr × TextBuffer :=
  match (codes b).find? fun c => c.code == call.messageid2 with
  | some c =>
    (c.severity.letter,
      { size := tmpbufsiz
        text := expand (literal c.description) (c.params.args st perProc call.paramid param2) })
  | none =>
    (cstr "F",
      { size := tmpbufsiz
        text := printInt (call.messageid2 &&& 0xffffbfff : ℕ) })

/-- The number that a message is shown with. -/
def shownCode (call : MessageCall) : Int32 :=
  if ((codes b).find? fun c => c.code == call.messageid2).isSome then
    Int32.ofNat (call.messageid2 &&& 0xffffbfff)
  else -1

/-- The list of a message. -/
def messageRoot (call : MessageCall) (param2 : Option CStr) : List ApiField :=
  let (severity, buf) := describe b st perProc call param2
  [field "STATUS" (.string severity), field "When" (.time st.requestTime),
    field "Code" (.int (shownCode b call)), field "Msg" (.escape (.ofMem buf.text)),
    field "Description" (.nullable .escape st.optApiDescription)]

/-- `message`: the buffers `buf` and `buf2`. -/
def message (printDouble : ℕ → Float → List UInt8) (isjson : Bool) (call : MessageCall) :
    TextBuffer × TextBuffer :=
  let param2 := call.param2.passed isjson
  ((describe b st perProc call param2).2,
    printData printDouble (messageRoot b st perProc call param2) isjson false)

/-! ## Room -/

/-- The arguments that a description takes. -/
def CodeParameters.arity : CodeParameters → ℕ
  | .none => 0
  | .pool | .gpumax | .pgamax | .cpumax | .poolmax | .both | .set => 2
  | _ => 1

/-- A description without its conversions. -/
def Code.plain (c : Code) : List UInt8 :=
  expand (literal c.description) (List.replicate c.params.arity [])

/-- What the text of a message is made of: its description and its arguments. -/
def pieces (call : MessageCall) (param2 : Option CStr) : List (List UInt8) :=
  match (codes b).find? fun c => c.code == call.messageid2 with
  | some c => c.plain :: c.params.args st perProc call.paramid param2
  | none => [printInt (call.messageid2 &&& 0xffffbfff : ℕ)]

/-- The bytes that the text takes. -/
def describeRoom (isjson : Bool) (call : MessageCall) : ℕ :=
  ((pieces b st perProc call (call.param2.passed isjson)).map List.length).sum

/-- The list of a message with no text in it. -/
def messageFrame (call : MessageCall) : List ApiField :=
  [field "STATUS" (.string (describe b st perProc call none).1),
    field "When" (.time st.requestTime), field "Code" (.int (shownCode b call)),
    field "Msg" (.escape .empty), field "Description" (.nullable .escape st.optApiDescription)]

/-- The bytes that the list takes: the text is escaped. -/
def messageRoom (printDouble : ℕ → Float → List UInt8) (isjson : Bool) (call : MessageCall) : ℕ :=
  listRoom printDouble (messageFrame b st perProc call) isjson false +
    ((pieces b st perProc call (call.param2.passed isjson)).map (escapedRoom isjson)).sum

end

/-- A text has what is in its format and what is in the arguments. -/
theorem perm_expand {fmt : List UInt8} {args : List (List UInt8)}
    (H : args.length ≤ conversionsOf fmt) :
    (expand fmt args).Perm (expand fmt (List.replicate args.length []) ++ args.flatten) := by
  induction fmt, args using expand.induct with
  | case1 c fmt arg args ih =>
      rw [conversionsOf, List.length_cons, Nat.add_le_add_iff_right] at H
      rw [expand, List.length_cons, List.replicate_succ, expand, List.nil_append,
        List.flatten_cons]
      exact ((ih H).append_left arg).trans (List.perm_append_comm_assoc _ _ _)
  | case2 c fmt args hne ih =>
      cases args with
      | nil => simp
      | cons arg args =>
          -- a conversion here would take the argument
          have hplain : ∀ d rest, c = 0x25 → fmt = d :: rest → False := by
            rintro d rest rfl rfl
            exact hne d rest arg args rfl rfl rfl
          rw [conversionsOf.eq_2 _ _ hplain] at H
          have hblank : expand (c :: fmt) (List.replicate (arg :: args).length []) =
              c :: expand fmt (List.replicate (arg :: args).length []) :=
            expand.eq_2 _ _ _ fun d rest _ _ _ hc hfmt => hplain d rest hc hfmt
          rw [expand.eq_2 _ _ _ hne, hblank]
          exact (ih H).cons c
  | case3 args =>
      obtain rfl : args = [] := by simpa [conversionsOf] using H
      exact .nil

/-- A text has nothing that is neither in its format nor in an argument. -/
theorem forall_mem_expand {P : UInt8 → Prop} {fmt : List UInt8} {args : List (List UInt8)}
    (hfmt : ∀ c ∈ fmt, P c) (hargs : ∀ arg ∈ args, ∀ c ∈ arg, P c) :
    ∀ c ∈ expand fmt args, P c := by
  induction fmt, args using expand.induct with
  | case1 c fmt arg args ih =>
      rw [List.forall_mem_cons, List.forall_mem_cons] at hfmt
      rw [List.forall_mem_cons] at hargs
      rw [expand, List.forall_mem_append]
      exact ⟨hargs.1, ih hfmt.2.2 hargs.2⟩
  | case2 c fmt args hne ih =>
      rw [List.forall_mem_cons] at hfmt
      rw [expand.eq_2 _ _ _ hne, List.forall_mem_cons]
      exact ⟨hfmt.1, ih hfmt.2 hargs⟩
  | case3 args => exact List.forall_mem_nil _

theorem escapedRoom_append (isjson : Bool) (xs ys : List UInt8) :
    escapedRoom isjson (xs ++ ys) = escapedRoom isjson xs + escapedRoom isjson ys := by
  simp only [escapedRoom, List.length_append, List.countP_append]
  omega

theorem escapedRoom_flatten (isjson : Bool) (xss : List (List UInt8)) :
    escapedRoom isjson xss.flatten = (xss.map (escapedRoom isjson)).sum := by
  induction xss with
  | nil => rfl
  | cons xs xss ih => rw [List.flatten_cons, escapedRoom_append, ih, List.map_cons, List.sum_cons]

theorem escapedRoom_perm (isjson : Bool) {xs ys : List UInt8} (H : xs.Perm ys) :
    escapedRoom isjson xs = escapedRoom isjson ys := by
  rw [escapedRoom, escapedRoom, H.length_eq, H.countP_eq]

/-- Every build has some of the messages of one with everything. -/
theorem codes_subset (b : Build) : codes b ⊆ codes ⟨true, true, true, true, true, true, true⟩ := by
  have hblock : ∀ (flag : Bool) (block : List Code), (if flag then block else []).Sublist block :=
    fun flag block => by cases flag <;> simp
  apply List.Sublist.subset
  simp only [codes, if_true]
  repeat' apply List.Sublist.append
  all_goals first | exact hblock _ _ | exact List.Sublist.refl _

/-- A description takes as many arguments as its parameters need, and has no control character. -/
theorem codes_formats (b : Build) :
    ∀ c ∈ codes b, conversionsOf (literal c.description) ≥ c.params.arity ∧
      ∀ ch ∈ literal c.description, 0x20 ≤ ch := by
  have hall : ∀ c ∈ codes ⟨true, true, true, true, true, true, true⟩,
      conversionsOf (literal c.description) ≥ c.params.arity ∧
        (literal c.description).all (fun ch => 0x20 ≤ ch) = true := by
    simp only [literal_eq]
    decide +kernel
  intro c hc
  obtain ⟨hconv, hprint⟩ := hall c (codes_subset b hc)
  exact ⟨hconv, by simpa using hprint⟩

/-- Nor has it one without its conversions. -/
theorem printable_plain (b : Build) {c : Code} (hc : c ∈ codes b) : ∀ ch ∈ c.plain, 0x20 ≤ ch :=
  forall_mem_expand (codes_formats b c hc).2 fun arg harg => by
    rw [List.eq_of_mem_replicate harg]
    exact List.forall_mem_nil _

theorem zero_notMem_printInt (n : ℤ) : 0 ∉ printInt n := by
  rw [printInt]
  split
  · rw [List.mem_cons, not_or]
    exact ⟨by decide, zero_notMem_paddedDigits 1 _⟩
  · exact zero_notMem_paddedDigits 1 _

theorem zero_notMem_printed (s : Option CStr) : 0 ∉ CStr.printed s := by
  cases s with
  | none => decide +kernel
  | some s => exact s.nul_free

section
variable {b : Build} {st : ApiState} {perProc isjson : Bool}

theorem length_args (st : ApiState) (perProc : Bool) (params : CodeParameters) (paramid : ℤ)
    (param2 : Option CStr) :
    (params.args st perProc paramid param2).length = params.arity := by
  cases params <;> rfl

theorem zero_notMem_args {params : CodeParameters} {paramid : ℤ} {param2 : Option CStr} :
    ∀ arg ∈ params.args st perProc paramid param2, 0 ∉ arg := by
  cases params <;>
    simp only [CodeParameters.args, List.forall_mem_cons, List.not_mem_nil, false_implies,
      implies_true, and_true, zero_notMem_printInt, zero_notMem_printed, not_false_eq_true]
  case cmd => decide +kernel
  case bool => exact (trueFalse _).nul_free

/-- The text of a message is its description and its arguments, in some order. -/
theorem perm_pieces (b : Build) (st : ApiState) (perProc : Bool) (call : MessageCall)
    (param2 : Option CStr) :
    (describe b st perProc call param2).2.text.Perm (pieces b st perProc call param2).flatten ∧
      0 ∉ (describe b st perProc call param2).2.text := by
  rw [describe, pieces]
  split
  · rename_i c hfind
    obtain ⟨hconv, hprint⟩ := codes_formats b c (List.mem_of_find?_eq_some hfind)
    have hlen := length_args st perProc c.params call.paramid param2
    have hperm := perm_expand (hlen ▸ hconv :
      (c.params.args st perProc call.paramid param2).length ≤ conversionsOf (literal c.description))
    rw [hlen] at hperm
    have hnul : ∀ ch ∈ expand (literal c.description)
        (c.params.args st perProc call.paramid param2), ch ≠ 0 :=
      forall_mem_expand (fun ch hch h => absurd (h ▸ hprint ch hch) (by decide))
        fun arg harg ch hch h => zero_notMem_args arg harg (h ▸ hch)
    exact ⟨hperm, fun h => hnul 0 h rfl⟩
  · refine ⟨by simp, ?_⟩
    exact zero_notMem_printInt (call.messageid2 &&& 0xffffbfff : ℕ)

theorem fits_describe_iff (call : MessageCall) :
    (describe b st perProc call (call.param2.passed isjson)).2.Fits ↔
      describeRoom b st perProc isjson call < tmpbufsiz := by
  have hperm := (perm_pieces b st perProc call (call.param2.passed isjson)).1
  have hsize : (describe b st perProc call (call.param2.passed isjson)).2.size = tmpbufsiz := by
    rw [describe]
    split <;> rfl
  rw [TextBuffer.Fits, hsize, hperm.length_eq, List.length_flatten, describeRoom,
    Nat.add_one_le_iff]

/-- `message` stays in its buffers exactly if its description and its arguments have room in the
first, and, with the frame of the list and once more for what is escaped, in the second. -/
theorem fits_message_iff (printDouble : ℕ → Float → List UInt8) (call : MessageCall) :
    (message b st perProc printDouble isjson call).1.Fits ∧
        (message b st perProc printDouble isjson call).2.Fits ↔
      describeRoom b st perProc isjson call < tmpbufsiz ∧
        messageRoom b st perProc printDouble isjson call < tmpbufsiz := by
  obtain ⟨hperm, hnul⟩ := perm_pieces b st perProc call (call.param2.passed isjson)
  have hletter : (describe b st perProc call (call.param2.passed isjson)).1 =
      (describe b st perProc call none).1 := by
    rw [describe, describe]
    split <;> rfl
  have hescaped := (escapedRoom_perm isjson hperm).trans
    (escapedRoom_flatten isjson _)
  refine and_congr (fits_describe_iff call) ?_
  rw [message, fits_printData_iff, messageRoom, ← hescaped]
  simp only [listRoom, messageRoot, messageFrame, hletter, List.map_cons, List.map_nil,
    List.sum_cons, ApiField.room, field, ApiData.room, CStr.bytes_ofMem hnul, CStr.empty]
  have hempty : escapedRoom isjson [] = 0 := rfl
  omega

end

end MassGridMiner

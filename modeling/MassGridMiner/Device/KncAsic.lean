import Mathlib.Data.Multiset.Range
import MassGridMiner.Lib.Blocks

/-!
# The cores of a KnC miner

A core has a work that it is at, the next one, and one that was sent and is not accepted yet.  What
a report says moves them from one of these places to another.  The cores of a die are together in
one array, to which the dies and the pending messages point, and a die that is disabled is taken
out of it.

## Main definitions

* `Knc`, `Die`, `Core`, `Workslot`, `Buffer` — the state of the driver.
* `Core.nextSlot`, `Core.processReport` — the slot for a work, and what a report does.
* `Knc.transfer`, `Knc.flush`, `Knc.processResponses` — the messages.
* `Knc.scanwork`, `Knc.flushWork`, `Knc.changeDieState`, `Knc.detectOne` — the functions that are
  called.
-/

namespace MassGridMiner
namespace KncAsic

/-! ## The state -/

/-- A work, by a number of its own and the core that it was obtained for. -/
structure Work where
  id : ℕ
  owner : ℕ
deriving DecidableEq

structure Workslot where
  slot : ℤ
  work : Option Work

structure Nonce where
  slot : ℤ
  nonce : UInt32
deriving DecidableEq

/-- `struct knc_report`: what is read of it. -/
structure Report where
  nextState : Bool
  nextSlot : ℤ
  activeSlot : ℤ
  nonce : List Nonce

/-- `struct knc_core_state`.  Its die is a place in the array of dies.  `ident` is not in the
source: it tells cores apart that were at the same place. -/
structure Core where
  generation : Int32
  core : ℕ
  die : ℕ
  workslot0 : Workslot
  workslot1 : Workslot
  workslot2 : Workslot
  transferStamp : Int32
  report : Report
  lastNonce : Nonce
  lastNonceVerified : UInt32
  lastSlot : ℤ
  errorsNow : UInt32
  disabledUntil : ℤ
  holdWorkUntil : ℤ
  timeout : ℤ
  inuse : Bool
  ident : ℕ

/-- `enum asic_version`. -/
inductive AsicVersion
  | unknown
  | jupiter
  | neptune
  | titan
deriving DecidableEq

/-- `struct knc_die`.  Its first core is a place in the array of cores. -/
structure Die where
  channel : ℤ
  die : ℤ
  version : AsicVersion
  cores : ℕ
  core : ℕ

inductive ResponseType
  | noResponse
  | setwork
  | report
deriving DecidableEq

/-- `struct knc_spi_response`.  `target` is the core that the message is for. -/
structure Response where
  type : ResponseType
  core : Option ℕ
  target : ℕ

inductive BufferState
  | idle
  | pending
  | done
deriving DecidableEq

/-- `struct knc_spi_buffer`, with the responses that are counted. -/
structure Buffer where
  state : BufferState
  size : ℤ
  responses : List Response

/-- `struct knc_state`.  `made`, `obtained`, `freed` and `chosen` are not in the source: how many
cores there were, the works that came and went, and the slots that were found, with the core as it
was before.  `clock` counts what was asked of the device. -/
structure Knc where
  generation : Int32
  dies : ℕ
  die : ℕ → Die
  cores : ℕ
  core : ℕ → Core
  scanAdjust : ℕ
  startup : ℕ
  nextErrorInterval : ℤ
  buffer : ℕ → Buffer
  sendBuffer : ℕ
  readBuffer : ℕ
  sendBufferCount : Int32
  readBufferCount : Int32
  made : ℕ
  obtained : List Work
  freed : List Work
  chosen : List (Core × ℤ)
  clock : ℕ

/-- What the device and other threads do, each time that it matters: whether a transfer is finished,
the status and the report that are decoded from an answer, and whether the nonces of that report
are good, by the nonce and the place of the work. -/
structure Env where
  finished : ℕ → Bool
  status : ℕ → UInt32
  report : ℕ → Report
  submit : ℕ → Nonce → ℕ → Bool

/-! ## A core -/

namespace Workslot

/-- What is in a place that was given up. -/
def empty : Workslot := ⟨-1, none⟩

end Workslot

/-- Microseconds. -/
def second : ℤ := 1000000

namespace Core

def workslots (c : Core) : List Workslot := [c.workslot0, c.workslot1, c.workslot2]

/-- The works that a core has. -/
def held (c : Core) : List Work :=
  c.workslot0.work.toList ++ c.workslot1.work.toList ++ c.workslot2.work.toList

/-- A core that is all zero. -/
def zero : Core where
  generation := 0
  core := 0
  die := 0
  workslot0 := ⟨0, none⟩
  workslot1 := ⟨0, none⟩
  workslot2 := ⟨0, none⟩
  transferStamp := 0
  report := ⟨false, 0, 0, List.replicate 5 ⟨0, 0⟩⟩
  lastNonce := ⟨0, 0⟩
  lastNonceVerified := 0
  lastSlot := 0
  errorsNow := 0
  disabledUntil := 0
  holdWorkUntil := 0
  timeout := 0
  inuse := false
  ident := 0

/-- `knc_core_hold_work`. -/
def holdWork (now : ℤ) (c : Core) : Bool := now < c.holdWorkUntil

/-- `knc_core_has_work`. -/
def hasWork (c : Core) : Bool := c.workslots.any fun w => 0 < w.slot

/-- `knc_core_need_work`. -/
def needWork (now : ℤ) (c : Core) : Bool :=
  !c.holdWork now && c.workslot1.work.isNone && c.workslot2.work.isNone

/-- `knc_core_disabled`. -/
def disabled (now : ℤ) (c : Core) : Bool := now < c.disabledUntil

/-- The slot that `_knc_core_next_slot` tries after another one. -/
def slotAfter (slot : ℤ) : ℤ := if 15 ≤ slot + 1 then 1 else slot + 1

/-- `knc_core_slot_busy`. -/
def slotBusy (c : Core) (slot : ℤ) : Bool :=
  slot == c.report.activeSlot || slot == c.report.nextSlot ||
    c.workslots.any fun w => slot == w.slot

/-- `knc_core_next_slot`, which tries so many slots. -/
def nextSlot : ℕ → Core → Option (ℤ × Core)
  | 0, _ => none
  | fuel + 1, c =>
    let slot := slotAfter c.lastSlot
    let c := { c with lastSlot := slot }
    if c.slotBusy slot then nextSlot fuel c else some (slot, c)

/-- `knc_core_failure`. -/
def failure (now : ℤ) (c : Core) : Core :=
  let c := { c with errorsNow := c.errorsNow + 1 }
  if c.disabled now then c
  else if 30 < c.errorsNow then { c with disabledUntil := now + 5 * 60 * second }
  else c

/-- `knc_core_handle_nonce`, for one of the places of a core. -/
def submitNonce (now : ℤ) (submit : Bool) (nonce : Nonce) (w : Workslot) (c : Core) : Core :=
  if nonce.slot = w.slot ∧ w.work.isSome then
    if submit then { c with lastNonceVerified := nonce.nonce, errorsNow := 0 } else c.failure now
  else c

/-- `knc_core_handle_nonce`. -/
def handleNonce (now : ℤ) (startup : Bool) (submit : Nonce → ℕ → Bool) (c : Core)
    (nonce : Nonce) : Core :=
  if nonce.slot = 0 then c
  else
    let c := { c with lastNonce := nonce }
    if startup then c
    else
      ((c.submitNonce now (submit nonce 0) nonce c.workslot0).submitNonce now (submit nonce 1) nonce
        c.workslot1).submitNonce now (submit nonce 2) nonce c.workslot2

/-- The nonces of a report that are new, the latest first. -/
def newNonces (c : Core) : List Nonce :=
  (c.report.nonce.takeWhile fun n => 0 ≤ n.slot && n != c.lastNonce).reverse

/-- A core switched to its next work, or to the one that was pending. -/
def switchWork (c : Core) : Core × List Work :=
  if c.report.activeSlot ≠ 0 ∧ c.workslot0.slot ≠ c.report.activeSlot then
    let gone := c.workslot0.work.toList
    let c := { c with workslot0 := c.workslot1, workslot1 := .empty }
    if c.report.activeSlot = c.workslot2.slot then
      ({ c with workslot0 := c.workslot2, workslot2 := .empty },
        gone ++ c.workslot0.work.toList)
    else (c, gone)
  else (c, [])

/-- A core accepted the work that was pending. -/
def acceptWork (c : Core) : Core × List Work :=
  if c.report.nextState ∧ 0 < c.workslot2.slot ∧
      (c.workslot2.slot = c.report.nextSlot ∨ c.report.nextSlot = -1) then
    ({ c with workslot1 := c.workslot2, workslot2 := .empty }, c.workslot1.work.toList)
  else (c, [])

/-- A work that is still pending after its transfer was not taken. -/
def expireWork (completed : Bool) (c : Core) : Core × List Work :=
  if c.workslot2.work.isSome ∧ completed then
    ({ c with workslot2 := .empty }, c.workslot2.work.toList)
  else (c, [])

/-- `knc_core_process_report`: the core, and the works that are freed. -/
def processReport (now : ℤ) (startup completed : Bool) (submit : Nonce → ℕ → Bool)
    (report : Report) (commErrors : Bool) (c : Core) : Core × List Work :=
  let c := { c with report := report }
  let c := c.newNonces.foldl (handleNonce now startup submit) c
  let (c, switched) := if commErrors then (c, []) else c.switchWork
  let (c, accepted) := if commErrors then (c, []) else c.acceptWork
  let (c, expired) := c.expireWork completed
  (c, switched ++ accepted ++ expired)

end Core

/-! ## Messages -/

/-- `KNC_ACCEPTED`. -/
def accepted : UInt32 := 1

/-- `KNC_IS_ERROR`. -/
def isError (status : UInt32) : Bool := status &&& ~~~accepted != 0

/-- The status of an answer, where `KNC_ACCEPTED` is inverted. -/
def answerStatus (type : ResponseType) (status : UInt32) : UInt32 :=
  if type = .setwork ∧ !isError status then status ^^^ accepted else status

/-- The buffer after another one. -/
def bufferAfter (b : ℕ) : ℕ := if 3 ≤ b + 1 then 0 else b + 1

/-- `knc_prepare_transfer`: where the next message is put. -/
def prepareTransfer (offset requestLength responseLength : ℤ) : ℤ :=
  let len := 2 + (max requestLength (4 + responseLength) + 4 + 1 + 3)
  if 4096 < len + offset then -1 else offset + len

namespace Knc
variable (env : Env) (now : ℤ)

def putCore (s : Knc) (k : ℕ) (c : Core) : Knc := { s with core := Function.update s.core k c }

def putBuffer (s : Knc) (b : ℕ) (buffer : Buffer) : Knc :=
  { s with buffer := Function.update s.buffer b buffer }

/-- `free_work`. -/
def freeWork (s : Knc) (works : List Work) : Knc := { s with freed := works ++ s.freed }

/-- A buffer that is pending may be found done, which the SPI thread makes it. -/
def look (s : Knc) (b : ℕ) : Knc :=
  let s' := { s with clock := s.clock + 1 }
  if (s.buffer b).state = .pending ∧ env.finished s.clock then
    s'.putBuffer b { s.buffer b with state := .done }
  else s'

/-- `knc_transfer_completed`. -/
def transferCompleted (s : Knc) (stamp : Int32) : Bool := 1 ≤ (s.readBufferCount - stamp).toInt

/-- `knc_core_process_report`. -/
def processReport (s : Knc) (k : ℕ) (commErrors : Bool) : Knc :=
  let c := s.core k
  let (c, gone) := c.processReport now (s.startup != 0) (s.transferCompleted c.transferStamp)
    (env.submit s.clock) (env.report s.clock) commErrors
  { s.putCore k c with clock := s.clock + 1 }.freeWork gone

/-- What the status of an answer makes of a core, and whether there was a communication error. -/
def checkStatus (s : Knc) (k : ℕ) (type : ResponseType) : Knc × Bool :=
  let status := answerStatus type (env.status s.clock)
  let c := s.core k
  let s := { s with clock := s.clock + 1 }
  if (s.die c.die).version ≠ .jupiter ∧ status ≠ 0 then
    if type = .setwork ∧ status = accepted then
      (s.putCore k ({ c with inuse := false }.failure now), false)
    else (s.putCore k (c.failure now), true)
  else (s, false)

/-- The body of the inner loop of `knc_process_responses`. -/
def processResponse (s : Knc) (r : Response) : Knc :=
  match r.core with
  | none => s
  | some k =>
    let (s, commErrors) := s.checkStatus env now k r.type
    match r.type with
    | .report | .setwork => s.processReport env now k commErrors
    | .noResponse => s

/-- `knc_process_responses`, for so many buffers. -/
def processResponses : ℕ → Knc → Knc
  | 0, s => s
  | fuel + 1, s =>
    let s := s.look env s.readBuffer
    if (s.buffer s.readBuffer).state = .done then
      let s := (s.buffer s.readBuffer).responses.foldl (processResponse env now) s
      let s := s.putBuffer s.readBuffer ⟨.idle, 0, []⟩
      processResponses fuel
        { s with
          readBuffer := bufferAfter s.readBuffer
          readBufferCount := s.readBufferCount + 1 }
    else s

/-- The send buffer is handed to the SPI thread, and the next one is waited for. -/
def sendPending (s : Knc) : Knc :=
  let s := s.putBuffer s.sendBuffer { s.buffer s.sendBuffer with state := .pending }
  let s := { s with
    sendBuffer := bufferAfter s.sendBuffer
    sendBufferCount := s.sendBufferCount + 1 }
  if (s.buffer s.sendBuffer).state = .pending then
    s.putBuffer s.sendBuffer { s.buffer s.sendBuffer with state := .done }
  else s

/-- `knc_flush`. -/
def flush (s : Knc) : Knc :=
  let b := s.buffer s.sendBuffer
  processResponses env now 3 (if b.state = .idle ∧ 0 < b.size then s.sendPending else s)

/-- `knc_transfer`. -/
def transfer (s : Knc) (k : ℕ) (requestLength responseLength : ℤ) (type : ResponseType) : Knc :=
  let b := s.buffer s.sendBuffer
  let msglen := 2 + max requestLength (4 + responseLength) + 4 + 1 + 3
  let s := if 4096 < b.size + msglen ∨ 315 ≤ b.responses.length then s.flush env now else s
  let b := s.buffer s.sendBuffer
  s.putBuffer s.sendBuffer
    { b with
      size := prepareTransfer b.size requestLength responseLength
      responses := b.responses ++ [⟨type, some k, (s.core k).ident⟩] }

/-! ## Works -/

/-- The messages of `knc_core_send_work`, for the versions that it knows. -/
def sendMessages (s : Knc) (k : ℕ) (clean : Bool) : AsicVersion → Option Knc
  | .jupiter =>
    let s := if clean then
        (s.transfer env now k 4 0 .noResponse).transfer env now k 4 0 .noResponse
      else s
    some (s.transfer env now k 49 0 .noResponse)
  | .neptune => some (s.transfer env now k 73 27 .setwork)
  | _ => none

/-- A slot is found, and noted. -/
def chooseSlot (s : Knc) (k : ℕ) (slot : ℤ) (c : Core) : Knc :=
  { s.putCore k c with chosen := (s.core k, slot) :: s.chosen }

/-- The end of `knc_core_send_work` at `error`. -/
def failWork (s : Knc) (k : ℕ) (work : Work) : Knc :=
  (s.putCore k ((s.core k).failure now)).freeWork [work]

/-- The end of `knc_core_send_work` when the messages are sent. -/
def keepWork (s : Knc) (k : ℕ) (slot : ℤ) (work : Work) : Knc :=
  let c := s.core k
  (s.putCore k
    { c with
      workslot2 := ⟨slot, some work⟩
      transferStamp := s.sendBufferCount
      inuse := true
      holdWorkUntil := now + 2 * second
      timeout := now + 20 * second }).freeWork c.workslot2.work.toList

/-- `knc_core_send_work`. -/
def sendWork (s : Knc) (k : ℕ) (work : Work) (clean : Bool) : Option Knc := do
  let (slot, c) ← (s.core k).nextSlot 14
  let s := s.chooseSlot k slot c
  if slot < 0 ∨ (!clean ∧ !(s.core k).needWork now) then return s.failWork now k work
  else
    match s.sendMessages env now k clean (s.die (s.core k).die).version with
    | none => return s.failWork now k work
    | some s => return s.keepWork now k slot work

/-- `knc_core_request_report`. -/
def requestReport (s : Knc) (k : ℕ) : Knc :=
  match (s.die (s.core k).die).version with
  | .jupiter => s.transfer env now k 4 7 .report
  | .neptune => s.transfer env now k 4 27 .report
  | _ => s.putCore k ((s.core k).failure now)

/-- `get_work`, for a core. -/
def getWork (s : Knc) (k : ℕ) : Work × Knc :=
  let work : Work := ⟨s.obtained.length, (s.core k).ident⟩
  (work, { s with obtained := work :: s.obtained })

/-- A core forgets what it had, as its works are of an earlier generation. -/
def forget (s : Knc) (k : ℕ) : Knc :=
  let c := s.core k
  (s.putCore k
    { c with
      workslot0 := .empty
      workslot1 := .empty
      workslot2 := .empty
      holdWorkUntil := now
      generation := s.generation }).freeWork c.held

/-- The body of the loop of `knc_scanwork`. -/
def visit (s : Knc) (i : ℕ) : Option Knc :=
  let c := s.core i
  if c.disabled now then some s
  else
    let flushed := c.generation ≠ s.generation
    let late := ¬flushed ∧ c.timeout ≤ now ∧ c.hasWork
    let s := if flushed then s.forget now i else s
    let c := s.core i
    let clean := !c.inuse || late || !c.hasWork ||
      (c.workslots.all fun w => w.slot < 0) || i % 32 == s.scanAdjust
    if (c.needWork now || clean) && s.startup == 0 then
      let (work, s) := s.getWork i
      s.sendWork env now i work clean
    else some (s.requestReport env now i)

/-- The errors are forgotten every interval. -/
def resetErrors (s : Knc) : Knc :=
  if now < s.nextErrorInterval then
    { s with
      nextErrorInterval := now + 30 * second
      core := fun k => if k < s.cores then { s.core k with errorsNow := 0 } else s.core k }
  else s

/-- `knc_scanwork`. -/
def scanwork (s : Knc) : Option Knc := do
  let s := (s.processResponses env now 3).resetErrors now
  let s ← (List.range s.cores).foldlM (visit env now) s
  let s :=
    if s.startup ≠ 0 then { s with startup := s.startup - 1 }
    else if s.scanAdjust < 32 then { s with scanAdjust := s.scanAdjust + 1 }
    else s
  return s.flush env now

end Knc

/-! ## Dies -/

/-- What `knc_detect_die` finds. -/
structure DieInfo where
  version : AsicVersion
  cores : ℕ
  cores_le : cores ≤ 571

namespace Knc

/-- A die is put behind the others, and its cores behind theirs. -/
def addDie (s : Knc) (channel die : ℤ) (info : DieInfo) : Knc :=
  { s with
    die := Function.update s.die s.dies ⟨channel, die, info.version, info.cores, s.cores⟩
    core := fun k =>
      if s.cores ≤ k ∧ k < s.cores + info.cores then
        { Core.zero with
          die := s.dies
          core := k - s.cores
          ident := s.made + (k - s.cores) }
      else s.core k
    dies := s.dies + 1
    cores := s.cores + info.cores
    made := s.made + info.cores }

/-- The die of a channel. -/
def findDie (s : Knc) (channel die : ℤ) : Option ℕ :=
  (List.range s.dies).find? fun i => (s.die i).channel = channel && (s.die i).die = die

/-- A pointer to a core, when the cores from one on, so many, are deleted. -/
def fixCore (start deleted k : ℕ) : Option ℕ :=
  if k < start then some k else if k < start + deleted then none else some (k - deleted)

/-- A die is taken out of `knc_change_die_state`'s arrays.  There is no result when an assertion
fails. -/
def removeDie (ndebug : Bool) (s : Knc) (d : ℕ) : Option Knc :=
  let deleted := (s.die d).cores
  let cores := s.cores - deleted
  let dies := s.dies - 1
  let start := (s.die d).core
  let gone := (List.range deleted).flatMap fun i => (s.core (start + i)).held
  let core := Blocks.memmove start (start + deleted) (cores - start) s.core
  let die := Blocks.memmove d (d + 1) (dies - d) s.die
  if ndebug ∨ (start ≤ cores ∧ d ≤ dies ∧ (∀ j < dies, (die j).core ≠ start) ∧
      ∀ k < cores, (core k).die ≠ d) then
    some ({ s with
      cores := cores
      dies := dies
      die := fun j =>
        if j < dies ∧ start < (die j).core then { die j with core := (die j).core - deleted }
        else die j
      core := fun k =>
        if k < cores ∧ d < (core k).die then { core k with die := (core k).die - 1 } else core k
      buffer := fun b =>
        let fix (r : Response) := { r with core := r.core.bind (fixCore start deleted) }
        { s.buffer b with responses := (s.buffer b).responses.map fix } }.freeWork gone)
  else none

/-- `knc_change_die_state`, with what `knc_detect_die` finds. -/
def changeDieState (ndebug : Bool) (s : Knc) (asicId dieId : ℤ) (enable : Bool)
    (info : Option DieInfo) : Option Knc :=
  if asicId < 0 ∨ 6 ≤ asicId ∨ dieId < 0 ∨ 4 ≤ dieId then some s
  else
    match s.findDie asicId dieId with
    | some d => if enable then some s else s.removeDie ndebug d
    | none =>
      if enable then
        match info with
        | some info => some (s.addDie asicId dieId info)
        | none => some s
      else some s

/-- `knc_flush_work`. -/
def flushWork (s : Knc) : Knc :=
  let generation := s.generation + 1
  { s with
    generation := if generation = 0 then generation + 1 else generation
    scanAdjust := 0 }

/-- The memory that `knc_detect_one` has, with what it sets at the end. -/
def zero : Knc where
  generation := 1
  dies := 0
  die := fun _ => ⟨0, 0, .unknown, 0, 0⟩
  cores := 0
  core := fun _ => .zero
  scanAdjust := 0
  startup := 2
  nextErrorInterval := 0
  buffer := fun _ => ⟨.idle, 0, []⟩
  sendBuffer := 0
  readBuffer := 0
  sendBufferCount := 0
  readBufferCount := 0
  made := 0
  obtained := []
  freed := []
  chosen := []
  clock := 0

/-- The dies of the channels, in the order of `knc_detect_one`. -/
def places : List (ℕ × ℕ) := (List.range 6).product (List.range 4)

/-- The body of the second loop of `knc_detect_one`. -/
def detectDie (info : ℕ → ℕ → Option DieInfo) (s : Knc) (p : ℕ × ℕ) : Knc :=
  match info p.1 p.2 with
  | some i => if i.cores = 0 then s else s.addDie p.1 p.2 i
  | none => s

/-- `knc_detect_one`, with what `knc_detect_die` finds. -/
def detectOne (info : ℕ → ℕ → Option DieInfo) : Option Knc :=
  if places.all fun p => (info p.1 p.2).all fun i => i.cores == 0 then none
  else some (places.foldl (detectDie info) zero)

end Knc

/-- A call of the driver. -/
inductive Call
  | scanwork (now : ℤ)
  | flushWork
  | changeDieState (asicId dieId : ℤ) (enable : Bool) (info : Option DieInfo)

def step (ndebug : Bool) (env : Env) (s : Knc) : Call → Option Knc
  | .scanwork now => s.scanwork env now
  | .flushWork => some s.flushWork
  | .changeDieState asicId dieId enable info => s.changeDieState ndebug asicId dieId enable info

end KncAsic
end MassGridMiner

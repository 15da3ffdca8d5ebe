import MassGridMiner.Lib.Buffer
import MassGridMiner.Lib.Custody
import MassGridMiner.Lib.Run
import MassGridMiner.Lib.Varint

/-!
# The works of a minergate

A hash table holds the works that a minergate may still answer, a list those among them that wait
in the packet of the next request, and the packet the items that were made of them.  A poll writes
the packet and reads one with the responses, which complete works.  The driver takes the number of
responses and, from an SP30, whether they complete a work as the minergate gives them.

## Main definitions

* `MinergateSettings.config` — what is made of the settings of a device.
* `queueAppend`, `queueFlush`, `poll` — the calls, or none where they access memory outside of a
  packet or a work that is not there.
* `Minergate.Law` — what is expected of a call.
* `Minergate.Sane` — the condition for that.
-/

namespace MassGridMiner

inductive Protover
  | sp10
  | sp30
  deriving DecidableEq, Repr

def Protover.byte : Protover → UInt8
  | .sp10 => 6
  | .sp30 => 30

/-- The options of a device, each as `drv_set_defaults` leaves it; the protocol is that of the
path.  An option that is not given leaves `0`, or `-1` where `detect` starts from that. -/
structure MinergateSettings where
  protover : Protover
  nReq : ℕ
  nReqQueue : ℕ
  nRsp : ℕ
  queue : ℕ
  minimumRoll : ℤ
  desiredRoll : ℤ
  accepted : nReq < 2 ^ 31 ∧ nReqQueue < 2 ^ 31 ∧ nRsp < 2 ^ 31 ∧ queue < 2 ^ 31 ∧
    -1 ≤ minimumRoll ∧ minimumRoll < 2 ^ 31 ∧ -1 ≤ desiredRoll ∧ desiredRoll < 2 ^ 31

/-- `struct minergate_config`, but for the sizes of the packets. -/
structure MinergateConfig where
  protover : Protover
  nReq : ℕ
  nReqQueue : ℕ
  nRsp : ℕ
  queue : ℕ
  minimumRoll : ℤ
  desiredRoll : ℤ
  pktRspItemSz : ℕ

/-- `BFGINIT`. -/
def bfgInit (var dflt : ℕ) : ℕ := if var = 0 then dflt else var

/-- A header and so many items, as an `int`. -/
def pktSz (itemSz n : ℕ) : ℤ := ((8 + itemSz * n : ℕ) : ℤ).bmod (2 ^ 32)

/-- `minergate_detect_one_extra`, as far as it computes the configuration. -/
def MinergateSettings.config (o : MinergateSettings) : MinergateConfig :=
  match o.protover with
  | .sp10 =>
    let nReq := bfgInit o.nReq 100
    { protover := .sp10
      nReq
      nReqQueue := bfgInit o.nReqQueue nReq
      nRsp := bfgInit o.nRsp 300
      queue := bfgInit o.queue 300
      minimumRoll := 0
      desiredRoll := max 0 0
      pktRspItemSz := 0x14 }
  | .sp30 =>
    let nReq := bfgInit o.nReq 30
    let minimumRoll := if o.minimumRoll = -1 then 60 else o.minimumRoll
    { protover := .sp30
      nReq
      nReqQueue := bfgInit o.nReqQueue (min 10 nReq)
      nRsp := bfgInit o.nRsp 60
      queue := bfgInit o.queue 40
      minimumRoll
      desiredRoll := max o.desiredRoll minimumRoll
      pktRspItemSz := 0x10 }

def MinergateConfig.pktReqSz (c : MinergateConfig) : ℤ := pktSz 0x34 c.nReq

def MinergateConfig.pktRspSz (c : MinergateConfig) : ℤ := pktSz c.pktRspItemSz c.nRsp

/-- A work that is appended, with the exponent of its `nonce_diff` and what `work_ntime_range`
returns for it. -/
structure MinergateWork where
  data : Bytes 128
  midstate : Bytes 32
  zerobits : UInt16
  ntimeRange : ℤ

/-- A work in the hash table, under the number it was appended with; `flushed` is its
`tv_stamp.tv_sec`. -/
structure MinergateJob where
  work : ℕ
  deviceId : UInt32
  zerobits : UInt16
  flushed : Bool
  deriving DecidableEq

/-- What responses change: the hash table, and what became of works, nonces and hashes. -/
structure MinergateTable where
  work : List MinergateJob := []
  freed : List ℕ := []
  submitted : List (ℕ × UInt32 × UInt8) := []
  hwErrors : ℕ := 0
  hashes : ℤ := 0

/-- The state of the driver.  `appended` counts the works that were appended, and `written` are
those with an item that was written since the last request, unless they were flushed. -/
structure Minergate extends MinergateTable where
  nextJobid : UInt32
  readyToQueue : ℕ
  reqBuffer : List UInt8
  workList : List ℕ
  queueFull : Bool
  appended : ℕ
  written : List ℕ

/-- What a poll gets: the result of `write` and the bytes that `minergate_read` reads. -/
structure Exchange where
  wrote : ℤ
  buf : List UInt8

/-- The calls. -/
inductive MinergateCall
  | queueAppend (work : MinergateWork)
  | queueFlush
  | poll (x : Exchange)

/-! ## Works -/

/-- The parts of an item, in the order they are written. -/
def MinergateWork.item (w : MinergateWork) (deviceId : UInt32) (ntimeroll : UInt8) :
    List (ℕ × List UInt8) :=
  [(0x31, [ntimeroll]), (0, be32 deviceId), (4, (w.data.toList.drop 0x48).take 4),
    (8, (w.data.toList.drop 0x44).take 4), (0x0c, (w.data.toList.drop 0x40).take 4),
    (0x10, w.midstate.toList), (0x30, [w.zerobits.toUInt8]), (0x32, [0]), (0x33, [0])]

/-- The job that the response, or the item, at an offset is for. -/
def jobid (buf : List UInt8) (off : ℕ) : Option UInt32 := (readAt buf off 4).map ofBe32

/-- A nonce of a response. -/
def upkU32le (buf : List UInt8) (off : ℕ) : Option UInt32 :=
  (readAt buf off 4).map fun bs => ofBe32 bs.reverse

namespace Exchange

/-- The request was written and a packet of the protocol was read. -/
def Answered (c : MinergateConfig) (x : Exchange) : Prop :=
  x.wrote = c.pktReqSz ∧ (x.buf.length : ℤ) = c.pktRspSz ∧ x.buf[2]? = some c.protover.byte ∧
    readAt x.buf 4 2 = some [0xf4, 0xca]

/-- The number of responses. -/
def rspCount (x : Exchange) : ℕ := ((readAt x.buf 6 2).map leNat).getD 0

/-- The response says that its job is completed.  To an SP10 each does. -/
def completes (c : MinergateConfig) (x : Exchange) (i : ℕ) : Bool :=
  match c.protover with
  | .sp10 => true
  | .sp30 => x.buf[8 + c.pktRspItemSz * i + 0xe]?.elim false fun b => decide (b ≠ 0)

/-- The job that a response completes. -/
def completedId (c : MinergateConfig) (x : Exchange) (i : ℕ) : Option UInt32 :=
  if x.completes c i then jobid x.buf (8 + c.pktRspItemSz * i) else none

/-- The jobs that the responses complete. -/
def completed (c : MinergateConfig) (x : Exchange) : List UInt32 :=
  (List.range x.rspCount).filterMap (x.completedId c)

end Exchange

namespace Minergate
section
variable (c : MinergateConfig)

/-- `minergate_init`. -/
def init : Option Minergate := do
  let reqBuffer := List.replicate c.pktReqSz.toNat 0
  let reqBuffer ← memcpy reqBuffer 2 [c.protover.byte]
  let reqBuffer ← memcpy reqBuffer 3 [3]
  let reqBuffer ← memcpy reqBuffer 4 [0xf4, 0xca]
  some { nextJobid := 0, readyToQueue := 0, reqBuffer, workList := [], queueFull := false,
         appended := 0, written := [] }

/-- `minergate_queue_full`. -/
def checkFull (s : Minergate) : Option Minergate := do
  let flags : UInt8 ← s.reqBuffer[3]?
  some { s with queueFull := decide (c.queue ≤ s.work.length + s.readyToQueue) ||
    (decide (c.nReqQueue ≤ s.readyToQueue) || decide (flags &&& 2 ≠ 0)) }

/-- The work that has the same id leaves the table and is freed. -/
def dropOld (s : Minergate) (deviceId : UInt32) : Minergate :=
  match s.work.find? (·.deviceId = deviceId) with
  | none => s
  | some old => { s with work := s.work.erase old, freed := old.work :: s.freed }

/-- The works after one was given the next id and its item was written. -/
def enqueue (s : Minergate) (w : MinergateWork) (reqBuffer : List UInt8) : Minergate :=
  let deviceId := s.nextJobid
  let s := s.dropOld deviceId
  { s with
    nextJobid := deviceId + 1
    readyToQueue := s.readyToQueue + 1
    reqBuffer
    work := s.work ++ [⟨s.appended, deviceId, w.zerobits, false⟩]
    workList := s.appended :: s.workList
    appended := s.appended + 1
    written := s.written ++ [s.appended] }

/-- `minergate_queue_append`. -/
def queueAppend (s : Minergate) (w : MinergateWork) : Option Minergate := do
  let s ← s.checkFull c
  if s.queueFull then some s
  else do
    let ntimeroll := if c.desiredRoll ≠ 0 then
      UInt8.ofInt (min 0xff (max c.minimumRoll w.ntimeRange)) else 0
    let item := w.item s.nextJobid ntimeroll
    let reqBuffer ← memcpyAll (8 + 0x34 * s.readyToQueue) s.reqBuffer item
    (s.enqueue w reqBuffer).checkFull c

/-- A work of `work_list` leaves both the table and the list and is freed. -/
def dropListed (s : Minergate) (work : ℕ) : Option Minergate := do
  let job ← s.work.find? (·.work = work)
  some { s with
    work := s.work.erase job
    workList := s.workList.erase work
    freed := work :: s.freed }

/-- `minergate_queue_flush`. -/
def queueFlush (s : Minergate) : Option Minergate := do
  let s ← s.workList.foldlM dropListed s
  let flags : UInt8 ← s.reqBuffer[3]?
  let reqBuffer ← memcpy s.reqBuffer 3 [flags ||| 2]
  some { s with readyToQueue := 0, reqBuffer, written := [] }

/-- `minergate_submit`. -/
def submit (t : MinergateTable) (work : Option MinergateJob) (nonce : UInt32)
    (ntimeOffset : UInt8) : Bool × MinergateTable :=
  if nonce = 0 then (false, t)
  else match work with
    | none => (true, { t with hwErrors := t.hwErrors + 1 })
    | some job => (true, { t with
        submitted := t.submitted ++ [(job.work, nonce, ntimeOffset)]
        hashes := if c.desiredRoll ≠ 0 then t.hashes + 2 ^ job.zerobits.toNat else t.hashes })

/-- The nonces of a response are submitted. -/
def submitNonces (buf : List UInt8) (jobrsp : ℕ) (t : MinergateTable)
    (work : Option MinergateJob) : Option MinergateTable := do
  let nonce ← upkU32le buf (jobrsp + 8)
  let off : ℕ := if c.protover = .sp10 then 0x10 else 0xc
  let ntimeOffset ← buf[jobrsp + off]?
  let first := submit c t work nonce ntimeOffset
  if first.1 then
    if c.protover = .sp10 then
      (upkU32le buf (jobrsp + 0xc)).map fun nonce => (submit c first.2 work nonce ntimeOffset).2
    else some first.2
  else if work.isNone then some { first.2 with hwErrors := first.2.hwErrors + 1 }
  else some first.2

/-- `work_completed`. -/
def workCompleted (buf : List UInt8) (jobrsp : ℕ) (work : Option MinergateJob) : Option Bool :=
  match c.protover with
  | .sp10 => some work.isSome
  | .sp30 => buf[jobrsp + 0xe]?.map fun b => decide (b ≠ 0)

/-- The body of the loop over the responses. -/
def response (buf : List UInt8) (t : MinergateTable) (i : ℕ) : Option MinergateTable := do
  let jobrsp := 8 + c.pktRspItemSz * i
  let id ← jobid buf jobrsp
  let work := t.work.find? (·.deviceId = id)
  let t ← submitNonces c buf jobrsp t work
  let completed ← workCompleted c buf jobrsp work
  if completed then do
    let job ← work
    some { t with
      work := t.work.erase job
      freed := job.work :: t.freed
      hashes := if c.desiredRoll = 0 ∧ job.flushed = false then t.hashes + 2 ^ job.zerobits.toNat
        else t.hashes }
  else some t

/-- The responses are handled; if the request told the minergate to flush, the jobs that are left
are marked. -/
def handle (s : Minergate) (buf : List UInt8) (flags : UInt8) : Option Minergate := do
  let rspCount ← (readAt buf 6 2).map leNat
  let t ← (List.range rspCount).foldlM (response c buf) s.toMinergateTable
  let work := if flags &&& 2 ≠ 0 then t.work.map fun job => { job with flushed := true } else t.work
  checkFull c { s with toMinergateTable := { t with work } }

/-- `minergate_poll`. -/
def poll (s : Minergate) (x : Exchange) : Option Minergate := do
  let reqBuffer ← memcpy s.reqBuffer 6
    [UInt8.ofNat s.readyToQueue, UInt8.ofNat (s.readyToQueue / 2 ^ 8)]
  if x.wrote ≠ c.pktReqSz then some { s with reqBuffer }
  else do
    let flags : UInt8 ← reqBuffer[3]?
    let reqBuffer ← memcpy reqBuffer 3 [0]
    let s := { s with reqBuffer, readyToQueue := 0, workList := [], written := [] }
    if x.buf.length ≠ c.pktRspSz then some s
    else do
      let ver ← x.buf[2]?
      let magic ← readAt x.buf 4 2
      if ver ≠ c.protover.byte ∨ magic ≠ [0xf4, 0xca] then some s
      else s.handle c x.buf flags

/-- A call, while none has accessed what is not there. -/
def step : Option Minergate → MinergateCall → Option (Option Minergate)
  | none, _ => none
  | some s, .queueAppend w => some (s.queueAppend c w)
  | some s, .queueFlush => some s.queueFlush
  | some s, .poll x => some (s.poll c x)

/-! ## The law -/

/-- The driver takes another work. -/
def Accepts (s : Minergate) : Prop := ∃ t, s.checkFull c = some t ∧ t.queueFull = false

/-- A call that puts a work into the table. -/
def Enters (s : Minergate) : MinergateCall → Prop
  | .queueAppend _ => s.Accepts c
  | .queueFlush => False
  | .poll _ => False

/-- A call that takes a job out of the table: another job is given its id, it is flushed before it
was sent, or a response completes it. -/
def Leaves (s : Minergate) (job : MinergateJob) : MinergateCall → Prop
  | .queueAppend _ => s.Accepts c ∧ job.deviceId = s.nextJobid
  | .queueFlush => job.work ∈ s.workList
  | .poll x => x.Answered c ∧ job.deviceId ∈ x.completed c

/-- The works that were appended are in the table or were freed, once; and the list, the count and
the items of the packet are those of the works that were written. -/
structure Books (s : Minergate) : Prop where
  custody : Custody s.appended (s.work.map (·.work)) s.freed
  list : s.workList = s.written.reverse
  ready : s.readyToQueue = s.workList.length
  packet : ∀ k work, s.written[k]? = some work → ∃ job ∈ s.work, job.work = work ∧
    jobid s.reqBuffer (8 + 0x34 * k) = some job.deviceId

/-- A work is in the table after a call if it was and does not leave, or if it is the one that
enters. -/
def Moves (s : Minergate) (call : MinergateCall) (s' : Minergate) : Prop :=
  ∀ work, work ∈ s'.work.map (·.work) ↔
    (∃ job ∈ s.work, job.work = work ∧ ¬ s.Leaves c job call) ∨
      (s.Enters c call ∧ work = s.appended)

/-- What is expected of a call: it accesses only what is there, the books are right after it, and
works come to the table and leave it as they should. -/
def Law : Option Minergate → MinergateCall → Option Minergate → Prop
  | some s, call, some s' => s'.Books ∧ s.Moves c call s'
  | _, _, _ => False

/-- There is room in the packet for a work that is taken, and in the packet that was read for the
responses it counts; and the jobs that an SP30 completes are in the table and are not the same. -/
def Sane : Option Minergate → MinergateCall → Option Minergate → Prop
  | some s, .queueAppend _, _ => s.Accepts c → s.readyToQueue < c.nReq
  | some s, .poll x, _ => x.Answered c → x.rspCount ≤ c.nRsp ∧ (c.protover = .sp30 →
      (x.completed c).Nodup ∧ ∀ id ∈ x.completed c, id ∈ s.work.map (·.deviceId))
  | _, _, _ => True

end

end Minergate

end MassGridMiner

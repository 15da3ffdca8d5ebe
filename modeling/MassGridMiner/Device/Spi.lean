import MassGridMiner.Lib.Buffer
import MassGridMiner.Lib.Chunks
import MassGridMiner.Lib.Run

/-!
# The buffer of an SPI port

Pieces are put into the buffer of a port as long as they fit, and the buffer is then sent in
transfers of at most 4096 bytes.  The transfers are laid out in an array of 16 entries before any of
them is submitted, so a buffer that needs more of them is written out past its end.

## Main definitions

* `SpiPort.emit` — a piece is put into the buffer.
* `SpiPort.sysTxrx` — the buffer is sent.
* `SpiPort.TransfersRight` — the transfers are those of the buffer.
* `SpiPort.emitsAndSends_iff` — so they are if the buffer has at most 65536 bytes.
-/

namespace MassGridMiner

open Chunks

/-! ## Pieces are put into the buffer -/

/-- `SPIMAXSZ`. -/
def spiMaxSz : ℕ := 256 * 1024

/-- A `struct spi_port`, as far as the system's port goes. -/
structure SpiPort where
  spibuf : Bytes spiMaxSz
  spibufsz : ℕ
  speed : UInt32

/-- Bytes that are somewhere in memory.  No object has more than half the address space. -/
structure CObject where
  bytes : List UInt8
  length_lt : bytes.length < 2 ^ 63

/-- The sum of two values of type `size_t`. -/
def addSizeT (a b : ℕ) : ℕ := (a + b) % 2 ^ 64

/-- `bitflip8`. -/
def bitflip8 (p : UInt8) : UInt8 :=
  let p := ((p &&& 0xaa) >>> 1) ||| ((p &&& 0x55) <<< 1)
  let p := ((p &&& 0xcc) >>> 2) ||| ((p &&& 0x33) <<< 2)
  ((p &&& 0xf0) >>> 4) ||| ((p &&& 0x0f) <<< 4)

namespace SpiPort

/-- Bytes are written to the buffer behind those that it has, or outside of it. -/
def write (port : SpiPort) (bs : List UInt8) : Option SpiPort :=
  if port.spibufsz + bs.length ≤ spiMaxSz then
    some { port with
      spibuf := port.spibuf.overwrite port.spibufsz bs
      spibufsz := addSizeT port.spibufsz bs.length }
  else none

/-- `spi_clear_buf`. -/
def clearBuf (port : SpiPort) : SpiPort := { port with spibufsz := 0 }

/-- `spi_emit_buf`. -/
def emitBuf (port : SpiPort) (str : List UInt8) : Option SpiPort :=
  if spiMaxSz ≤ addSizeT port.spibufsz str.length then some port else port.write str

/-- The loop of `spi_emit_buf_reverse`. -/
def reverseLoop (port : SpiPort) : List UInt8 → Option SpiPort
  | [] => some port
  | c :: str => do
    let port ← port.write [bitflip8 c]
    reverseLoop port str

/-- `spi_emit_buf_reverse`, with the index that the pointer it returns is for. -/
def emitBufReverse (port : SpiPort) (str : List UInt8) : Option (SpiPort × Option ℕ) :=
  if spiMaxSz ≤ addSizeT port.spibufsz str.length then some (port, none)
  else (port.reverseLoop str).map fun port' => (port', some port.spibufsz)

/-- The loop of `spi_emit_fasync` and `spi_emit_nop`. -/
def emitTimes (port : SpiPort) (str : List UInt8) : ℕ → Option SpiPort
  | 0 => some port
  | n + 1 => do
    let port ← port.emitBuf str
    emitTimes port str n

/-- The bytes in front of the data of a frame. -/
def frameHeader (addr : UInt16) (len : ℕ) : List UInt8 :=
  [UInt8.ofNat (len - 1) ||| 0xE0, (addr >>> 8).toUInt8, addr.toUInt8]

/-- `spi_emit_data`. -/
def emitData (port : SpiPort) (addr : UInt16) (buf : List UInt8) : Option (SpiPort × Option ℕ) :=
  if buf.length < 4 ∨ 128 < buf.length then some (port, none)
  else do
    let len := buf.length / 4
    let port ← port.emitBuf (frameHeader addr len)
    port.emitBufReverse (buf.take (len * 4))

/-- The calls that put something into the buffer. -/
inductive Emit
  | buf (str : CObject)
  | brk
  | fsync
  | fasync (n : ℤ)
  | nop (n : ℤ)
  | data (addr : UInt16) (buf : CObject)

/-- One of the calls. -/
def emit (port : SpiPort) : Emit → Option SpiPort
  | .buf str => port.emitBuf str.bytes
  | .brk => port.emitBuf [0x04]
  | .fsync => port.emitBuf [0x06]
  | .fasync n => port.emitTimes [0x05] n.toNat
  | .nop n => port.emitTimes [0x00] n.toNat
  | .data addr buf => (port.emitData addr buf.bytes).map Prod.fst

/-! ## The buffer is sent -/

/-- A `struct spi_ioc_transfer`; its buffers are given by where they are in those of the port. -/
structure Transfer where
  txBuf : ℕ
  rxBuf : ℕ
  len : ℕ
  delayUsecs : ℕ
  speedHz : UInt32
  bitsPerWord : ℕ

/-- What the system answers: whether the device opens and takes the settings, and what becomes of
each message. -/
structure Answers where
  fd : Bool
  wrMode : Bool
  rdMode : Bool
  wrBits : Bool
  rdBits : Bool
  wrSpeed : Bool
  rdSpeed : Bool
  message : ℕ → Bool

/-- The device is there. -/
def Answers.ready (a : Answers) : Bool :=
  a.fd && a.wrMode && a.rdMode && a.wrBits && a.rdBits && a.wrSpeed && a.rdSpeed

/-- A transfer of so many bytes. -/
def transfer (speed : UInt32) (off len : ℕ) : Transfer := ⟨off, off, len, 1, speed, 8⟩

/-- An entry of the array is filled in, or memory behind it. -/
def setEntry (tr : Vector Transfer 16) (rv : ℕ) (t : Transfer) : Option (Vector Transfer 16) :=
  if h : rv < 16 then some (tr.set rv t h) else none

/-- The loop that lays out the transfers, and what comes behind it. -/
def layOut (speed : UInt32) (bufsz off : ℕ) (tr : Vector Transfer 16) (rv : ℕ) :
    Option (Vector Transfer 16 × ℕ) :=
  if _h : 4096 ≤ bufsz then do
    let tr ← setEntry tr rv (transfer speed off 4096)
    layOut speed (bufsz - 4096) (off + 4096) tr (rv + 1)
  else if 0 < bufsz then do
    let tr ← setEntry tr rv (transfer speed off bufsz)
    some (tr, rv + 1)
  else some (tr, rv)
termination_by bufsz

/-- The loop that submits the transfers, with the index. -/
def submit (message : ℕ → Bool) : ℕ → List Transfer → List Transfer × Bool
  | _, [] => ([], true)
  | j, t :: ts =>
    if message j then
      let (submitted, rv) := submit message (j + 1) ts
      (t :: submitted, rv)
    else ([t], false)

/-- `sys_spi_txrx`: the transfers that it submits and the result. -/
def sysTxrx (port : SpiPort) (a : Answers) : Option (List Transfer × Bool) :=
  let tr := Vector.replicate 16 ⟨0, 0, 0, 0, 0, 0⟩
  let speed := if port.speed = 0 then 4000000 else port.speed
  if !a.ready then some ([], false)
  else do
    let (tr, i) ← layOut speed port.spibufsz 0 tr 0
    some (submit a.message 0 (tr.toList.take i))

/-! ## What is to be sent -/

/-- Where a transfer starts, and its length. -/
def Transfer.range (t : Transfer) : ℕ × ℕ := (t.txBuf, t.len)

/-- Transfers that follow each other from the start of the buffer to its end, each of at most 4096
bytes and received where it is sent from.  Each byte of the buffer is in exactly one of them. -/
structure Covers (ts : List Transfer) (n : ℕ) : Prop where
  rx_eq_tx : ∀ t ∈ ts, t.rxBuf = t.txBuf
  len_le : ∀ t ∈ ts, 0 < t.len ∧ t.len ≤ 4096
  consecutive : ts.IsChain fun t t' => t'.txBuf = t.txBuf + t.len
  once : ∀ k, (ts.map Transfer.range).countP (has k) = if k < n then 1 else 0

/-- No entry outside the array is used, and what is submitted is a layout of the buffer, up to the
transfer that fails if there is one. -/
def TransfersRight (port : SpiPort) (a : Answers) : Prop :=
  ∃ submitted rv all, port.sysTxrx a = some (submitted, rv) ∧ Covers all port.spibufsz ∧
    submitted <+: all ∧ (rv = true → submitted = all) ∧
    (rv = true ↔ a.ready = true ∧ ∀ j < all.length, a.message j = true)

/-- Calls that put something into an empty buffer keep inside it and below its size, and what is
sent then is right. -/
def EmitsAndSends (port : SpiPort) (calls : List Emit) (a : Answers) : Prop :=
  (∀ n, ∃ port', Run.exec emit port.clearBuf (calls.take n) = some port' ∧
    port'.spibufsz < spiMaxSz) ∧
  ∃ port', Run.exec emit port.clearBuf calls = some port' ∧ port'.TransfersRight a

/-- The pieces that a call puts into the buffer if they fit. -/
def Emit.pieces : Emit → List (List UInt8)
  | .buf str => [str.bytes]
  | .brk => [[0x04]]
  | .fsync => [[0x06]]
  | .fasync n => List.replicate n.toNat [0x05]
  | .nop n => List.replicate n.toNat [0x00]
  | .data addr str =>
    if str.bytes.length < 4 ∨ 128 < str.bytes.length then []
    else
      [frameHeader addr (str.bytes.length / 4),
        (str.bytes.take (str.bytes.length / 4 * 4)).map bitflip8]

/-- A piece that does not fit is left out. -/
def accept (bytes piece : List UInt8) : List UInt8 :=
  if spiMaxSz ≤ bytes.length + piece.length then bytes else bytes ++ piece

/-- What is in the buffer after some calls. -/
def buffered (calls : List Emit) : List UInt8 := (calls.flatMap Emit.pieces).foldl accept []

/-! ## What the buffer holds -/

/-- The buffer starts with some bytes, and they are all that counts. -/
structure Holds (port : SpiPort) (bytes : List UInt8) : Prop where
  starts : Starts port.spibuf.toList bytes spiMaxSz
  spibufsz : port.spibufsz = bytes.length
  length_lt : bytes.length < spiMaxSz

theorem holds_clearBuf (port : SpiPort) : Holds port.clearBuf [] :=
  ⟨starts_nil Vector.length_toList, rfl, by decide⟩

/-- A sum of sizes that is no larger than an object is not reduced. -/
theorem addSizeT_eq {a b : ℕ} (ha : a < spiMaxSz) (hb : b < 2 ^ 63) : addSizeT a b = a + b :=
  Nat.mod_eq_of_lt (by rw [spiMaxSz] at ha; omega)

section
variable {port : SpiPort} {bytes : List UInt8}

/-- Bytes that fit are written behind the others. -/
theorem Holds.write (H : Holds port bytes) (bs : List UInt8)
    (hfit : bytes.length + bs.length < spiMaxSz) :
    ∃ port', port.write bs = some port' ∧ Holds port' (bytes ++ bs) := by
  have hroom : port.spibufsz + bs.length ≤ spiMaxSz := by
    rw [H.spibufsz]
    exact hfit.le
  have hsum : addSizeT port.spibufsz bs.length = (bytes ++ bs).length := by
    rw [addSizeT, H.spibufsz, List.length_append]
    exact Nat.mod_eq_of_lt (by rw [spiMaxSz] at hfit; omega)
  obtain ⟨buf, hcopy, hstarts⟩ := H.starts.copy H.spibufsz hroom
  rw [memcpy, if_pos (by rwa [Vector.length_toList]), Option.some.injEq,
    ← Bytes.toList_overwrite port.spibuf hroom] at hcopy
  refine ⟨_, if_pos hroom, ?_, hsum, by rwa [List.length_append]⟩
  rw [hcopy]
  exact hstarts

/-- `spi_emit_buf` puts a piece into the buffer if it fits. -/
theorem Holds.emitBuf (H : Holds port bytes) (str : List UInt8) (hstr : str.length < 2 ^ 63) :
    ∃ port', port.emitBuf str = some port' ∧ Holds port' (accept bytes str) := by
  rw [SpiPort.emitBuf, H.spibufsz, addSizeT_eq H.length_lt hstr, accept]
  split
  · exact ⟨port, rfl, H⟩
  · next hfit => exact H.write str (by omega)

theorem Holds.reverseLoop (H : Holds port bytes) (str : List UInt8)
    (hfit : bytes.length + str.length < spiMaxSz) :
    ∃ port', port.reverseLoop str = some port' ∧ Holds port' (bytes ++ str.map bitflip8) := by
  induction str generalizing port bytes with
  | nil => exact ⟨port, rfl, by rwa [List.map_nil, List.append_nil]⟩
  | cons c str ih =>
      rw [List.length_cons] at hfit
      obtain ⟨port1, hwrite, H1⟩ :=
        H.write [bitflip8 c] (by rw [List.length_singleton]; omega)
      obtain ⟨port2, hloop, H2⟩ :=
        ih H1 (by rw [List.length_append, List.length_singleton]; omega)
      refine ⟨port2, ?_, by simpa using H2⟩
      rw [SpiPort.reverseLoop, hwrite, Option.bind_eq_bind, Option.bind_some, hloop]

theorem Holds.emitBufReverse (H : Holds port bytes) (str : List UInt8)
    (hstr : str.length < 2 ^ 63) :
    ∃ port' rv, port.emitBufReverse str = some (port', rv) ∧
      Holds port' (accept bytes (str.map bitflip8)) := by
  rw [SpiPort.emitBufReverse, H.spibufsz, addSizeT_eq H.length_lt hstr, accept, List.length_map]
  split
  · exact ⟨port, none, rfl, H⟩
  · next hfit =>
    obtain ⟨port', hloop, H'⟩ := H.reverseLoop str (by omega)
    exact ⟨port', _, by rw [hloop, Option.map_some], H'⟩

theorem Holds.emitTimes (H : Holds port bytes) (str : List UInt8) (hstr : str.length < 2 ^ 63)
    (n : ℕ) :
    ∃ port', port.emitTimes str n = some port' ∧
      Holds port' ((List.replicate n str).foldl accept bytes) := by
  induction n generalizing port bytes with
  | zero => exact ⟨port, rfl, H⟩
  | succ n ih =>
      obtain ⟨port1, hemit, H1⟩ := H.emitBuf str hstr
      obtain ⟨port2, hloop, H2⟩ := ih H1
      refine ⟨port2, ?_, H2⟩
      rw [SpiPort.emitTimes, hemit, Option.bind_eq_bind, Option.bind_some, hloop]

/-- Each call puts its pieces into the buffer as far as they fit, and writes nowhere else. -/
theorem Holds.emit (H : Holds port bytes) (call : Emit) :
    ∃ port', port.emit call = some port' ∧ Holds port' (call.pieces.foldl accept bytes) := by
  cases call with
  | buf str => exact H.emitBuf str.bytes str.length_lt
  | brk => exact H.emitBuf [0x04] (by decide)
  | fsync => exact H.emitBuf [0x06] (by decide)
  | fasync n => exact H.emitTimes [0x05] (by decide) n.toNat
  | nop n => exact H.emitTimes [0x00] (by decide) n.toNat
  | data addr str =>
    rw [SpiPort.emit, emitData, Emit.pieces]
    split
    · exact ⟨port, rfl, H⟩
    · obtain ⟨port1, hhead, H1⟩ :=
        H.emitBuf (frameHeader addr (str.bytes.length / 4)) (by simp [frameHeader])
      obtain ⟨port2, rv, hdata, H2⟩ :=
        H1.emitBufReverse (str.bytes.take (str.bytes.length / 4 * 4)) (by
          rw [List.length_take]
          exact (min_le_right _ _).trans_lt str.length_lt)
      refine ⟨port2, ?_, H2⟩
      simp only [hhead, Option.bind_eq_bind, Option.bind_some, hdata, Option.map_some]

/-- A run of calls leaves in the buffer what is abstractly in it. -/
theorem Holds.exec (H : Holds port bytes) (calls : List Emit) :
    ∃ port', Run.exec SpiPort.emit port calls = some port' ∧
      Holds port' ((calls.flatMap Emit.pieces).foldl accept bytes) := by
  induction calls generalizing port bytes with
  | nil => exact ⟨port, rfl, H⟩
  | cons call calls ih =>
      obtain ⟨port1, hcall, H1⟩ := H.emit call
      obtain ⟨port2, hrun, H2⟩ := ih H1
      refine ⟨port2, ?_, ?_⟩
      · rw [Run.exec_cons, hcall, Option.bind_some, hrun]
      · rwa [List.flatMap_cons, List.foldl_append]

end

/-! ## The layout -/

/-- The transfers of the pieces of a buffer. -/
def pieceTransfers (speed : UInt32) (off n : ℕ) : List Transfer :=
  (chunks 4096 off n).map fun p => transfer speed p.1 p.2

/-- The first entries are kept when the next one is filled in. -/
theorem take_setEntry {tr tr' : Vector Transfer 16} {rv : ℕ} {t : Transfer}
    (h : setEntry tr rv t = some tr') :
    rv < 16 ∧ tr'.toList.take (rv + 1) = tr.toList.take rv ++ [t] := by
  rw [setEntry] at h
  split at h
  · next hrv =>
    obtain rfl := Option.some.inj h
    refine ⟨hrv, ?_⟩
    rw [Vector.toList_set, List.take_add_one, List.take_set_of_le le_rfl]
    simp [hrv]
  · cases h

/-- Entries are filled in one after the other. -/
def fillEntries (tr : Vector Transfer 16) (rv : ℕ) :
    List Transfer → Option (Vector Transfer 16 × ℕ)
  | [] => some (tr, rv)
  | t :: ts => (setEntry tr rv t).bind fun tr => fillEntries tr (rv + 1) ts

/-- The loop fills in the transfers of the pieces of the buffer. -/
theorem layOut_eq (speed : UInt32) (n off : ℕ) (tr : Vector Transfer 16) (rv : ℕ) :
    layOut speed n off tr rv = fillEntries tr rv (pieceTransfers speed off n) := by
  induction n using Nat.strong_induction_on generalizing off tr rv with
  | _ n ih =>
    rw [layOut, pieceTransfers]
    rcases Nat.lt_or_ge n 4096 with hlt | hle
    · rw [dif_neg (by omega), chunks_of_lt hlt]
      split <;> rfl
    · rw [dif_pos hle, chunks_of_le (by decide) hle, List.map_cons, fillEntries,
        Option.bind_eq_bind]
      exact congrArg _ (funext fun tr => ih (n - 4096) (by omega) (off + 4096) tr (rv + 1))

/-- Entries are filled in behind those that are, if there are enough of them. -/
theorem fillEntries_of_le {tr : Vector Transfer 16} {rv : ℕ} {ts : List Transfer}
    (h : rv + ts.length ≤ 16) :
    ∃ tr', fillEntries tr rv ts = some (tr', rv + ts.length) ∧
      tr'.toList.take (rv + ts.length) = tr.toList.take rv ++ ts := by
  induction ts generalizing tr rv with
  | nil => exact ⟨tr, rfl, (List.append_nil _).symm⟩
  | cons t ts ih =>
      rw [List.length_cons] at h ⊢
      have hset : setEntry tr rv t = some (tr.set rv t (by omega)) := dif_pos (by omega)
      obtain ⟨tr', hfill, htake⟩ := @ih (tr.set rv t (by omega)) (rv + 1) (by omega)
      have hsum : rv + (ts.length + 1) = rv + 1 + ts.length := by omega
      rw [fillEntries, hset, Option.bind_some, hsum]
      refine ⟨tr', hfill, ?_⟩
      rw [htake, (take_setEntry hset).2, List.append_assoc, List.singleton_append]

/-- Where there are not, memory behind them is written. -/
theorem fillEntries_of_lt {tr : Vector Transfer 16} {rv : ℕ} {ts : List Transfer}
    (hrv : rv ≤ 16) (h : 16 < rv + ts.length) : fillEntries tr rv ts = none := by
  induction ts generalizing tr rv with
  | nil => simp at h; omega
  | cons t ts ih =>
      rw [List.length_cons] at h
      rw [fillEntries]
      cases hset : setEntry tr rv t with
      | none => rfl
      | some tr' => exact ih (take_setEntry hset).1 (by omega)

/-! ## The transfers -/

theorem length_pieceTransfers (speed : UInt32) (n : ℕ) :
    (pieceTransfers speed 0 n).length = (n + 4095) / 4096 := by
  rw [pieceTransfers, List.length_map, length_chunks (by decide)]

/-- The transfers of the pieces cover the buffer. -/
theorem covers_pieceTransfers (speed : UInt32) (n : ℕ) : Covers (pieceTransfers speed 0 n) n := by
  have htiles := tiles_chunks (show 0 < 4096 by decide) 0 n
  rw [Nat.zero_add] at htiles
  have hrange : (pieceTransfers speed 0 n).map Transfer.range = chunks 4096 0 n := by
    rw [pieceTransfers, List.map_map]
    exact List.map_id _
  refine ⟨fun t ht => ?_, fun t ht => ?_, ?_, fun k => ?_⟩
  · obtain ⟨p, -, rfl⟩ := List.mem_map.mp ht
    rfl
  · obtain ⟨p, hp, rfl⟩ := List.mem_map.mp ht
    exact htiles.len_le p hp
  · exact (List.isChain_map _).mpr htiles.isChain
  · rw [hrange, htiles.countP]
    exact if_congr (by omega) rfl rfl

/-- What is submitted are the first of the transfers, and all of them if no message fails. -/
theorem submit_spec (message : ℕ → Bool) (j : ℕ) (ts : List Transfer) :
    (submit message j ts).1 <+: ts ∧
      ((submit message j ts).2 = true → (submit message j ts).1 = ts) ∧
      ((submit message j ts).2 = true ↔ ∀ k < ts.length, message (j + k) = true) := by
  induction ts generalizing j with
  | nil => exact ⟨List.prefix_refl _, fun _ => rfl, by simp [submit]⟩
  | cons t ts ih =>
      obtain ⟨hpre, hall, hiff⟩ := ih (j + 1)
      rw [submit]
      split
      · next hmessage =>
        refine ⟨(List.prefix_cons_inj t).mpr hpre, fun h => congrArg _ (hall h), ?_⟩
        rw [hiff]
        constructor
        · rintro h (_ | k) hk
          · exact hmessage
          · rw [List.length_cons] at hk
            have hsum : j + (k + 1) = j + 1 + k := by omega
            rw [hsum]
            exact h k (by omega)
        · intro h k hk
          have hnext := h (k + 1) (by rw [List.length_cons]; omega)
          have hsum : j + (k + 1) = j + 1 + k := by omega
          rwa [hsum] at hnext
      · next hmessage =>
        refine ⟨⟨ts, rfl⟩, fun h => (by cases h), ⟨fun h => (by cases h), fun h => ?_⟩⟩
        exact absurd (h 0 (by simp)) hmessage

section
variable {port : SpiPort} {a : Answers}

/-- The transfers of the buffer of a port. -/
def transfers (port : SpiPort) : List Transfer :=
  pieceTransfers (if port.speed = 0 then 4000000 else port.speed) 0 port.spibufsz

/-- A buffer that needs no more entries than there are is sent. -/
theorem sysTxrx_of_le (hready : a.ready = true) (h : port.spibufsz ≤ 16 * 4096) :
    port.sysTxrx a = some (submit a.message 0 port.transfers) := by
  have hlen : 0 + port.transfers.length ≤ 16 := by
    rw [transfers, length_pieceTransfers]
    omega
  obtain ⟨tr', hfill, htake⟩ :=
    @fillEntries_of_le (Vector.replicate 16 ⟨0, 0, 0, 0, 0, 0⟩) 0 _ hlen
  rw [sysTxrx, hready, if_neg (by decide), layOut_eq]
  rw [transfers] at hfill htake ⊢
  rw [hfill, Option.bind_eq_bind, Option.bind_some]
  dsimp only
  rw [htake, List.take_zero, List.nil_append]

/-- One that needs more is written past the end of the array. -/
theorem sysTxrx_of_lt (hready : a.ready = true) (h : 16 * 4096 < port.spibufsz) :
    port.sysTxrx a = none := by
  have hlen : 16 < 0 + port.transfers.length := by
    rw [transfers, length_pieceTransfers]
    omega
  rw [sysTxrx, hready, if_neg (by decide), layOut_eq]
  rw [transfers] at hlen
  rw [fillEntries_of_lt (by decide) hlen]
  rfl

/-- The transfers are right exactly if the device does not come up or the buffer needs no more
entries than there are. -/
theorem transfersRight_iff :
    port.TransfersRight a ↔ (a.ready = true → port.spibufsz ≤ 16 * 4096) := by
  constructor
  · rintro ⟨submitted, rv, all, hsend, -⟩ hready
    by_contra hlarge
    rw [sysTxrx_of_lt hready (by omega)] at hsend
    cases hsend
  · intro h
    have hcovers : Covers port.transfers port.spibufsz := covers_pieceTransfers _ _
    cases hready : a.ready with
    | false =>
      refine ⟨[], false, _, ?_, hcovers, List.nil_prefix, fun h => (by cases h), by simp [hready]⟩
      rw [sysTxrx, hready]
      rfl
    | true =>
      obtain ⟨hpre, hall, hiff⟩ := submit_spec a.message 0 port.transfers
      simp only [Nat.zero_add] at hiff
      exact ⟨_, _, _, sysTxrx_of_le hready (h hready), hcovers, hpre, hall,
        hiff.trans (by simp [hready])⟩

/-- The port that some calls leave has what is abstractly in its buffer. -/
theorem exec_emit (port : SpiPort) (calls : List Emit) :
    ∃ port', Run.exec emit port.clearBuf calls = some port' ∧
      port'.spibufsz = (buffered calls).length ∧ port'.spibufsz < spiMaxSz := by
  obtain ⟨port', hexec, H⟩ := (holds_clearBuf port).exec calls
  exact ⟨port', hexec, H.spibufsz, by rw [H.spibufsz]; exact H.length_lt⟩

/-- What is sent rightly needs no more entries than there are. -/
theorem length_buffered_le {calls : List Emit} (h : port.EmitsAndSends calls a)
    (hready : a.ready = true) : (buffered calls).length ≤ 65536 := by
  obtain ⟨-, port', hexec, hsends⟩ := h
  obtain ⟨port'', hexec', hsize, -⟩ := exec_emit port calls
  obtain rfl := Option.some.inj (hexec.symm.trans hexec')
  exact hsize ▸ transfersRight_iff.mp hsends hready

/-- Calls that put something into the buffer of a port keep inside it, and what is sent then is
right, exactly if the device does not come up or what is in the buffer has at most 65536 bytes. -/
theorem emitsAndSends_iff (port : SpiPort) (calls : List Emit) (a : Answers) :
    port.EmitsAndSends calls a ↔ (a.ready = true → (buffered calls).length ≤ 65536) := by
  constructor
  · exact length_buffered_le
  · intro h
    obtain ⟨port', hexec, hsize, -⟩ := exec_emit port calls
    refine ⟨fun n => ?_, port', hexec, transfersRight_iff.mpr (hsize ▸ h)⟩
    obtain ⟨port'', hexec', -, hlt⟩ := exec_emit port (calls.take n)
    exact ⟨port'', hexec', hlt⟩

/-- Zeros that need 17 transfers. -/
def manyZeros : CObject := ⟨List.replicate 65537 0, by rw [List.length_replicate]; decide⟩

/-- A port with nothing in its buffer. -/
def emptyPort : SpiPort := ⟨Vector.replicate spiMaxSz 0, 0, 0⟩

/-- They are not sent rightly by a device that takes everything. -/
theorem not_emitsAndSends_manyZeros :
    ¬emptyPort.EmitsAndSends [.buf manyZeros]
      ⟨true, true, true, true, true, true, true, fun _ => true⟩ := by
  intro h
  have hle := length_buffered_le h rfl
  have hall : ∀ str : CObject, buffered [.buf str] = accept [] str.bytes := fun _ => rfl
  have hlen : manyZeros.bytes.length = 65537 := List.length_replicate
  rw [hall, accept, hlen, if_neg (by decide), List.nil_append, hlen] at hle
  exact absurd hle (by decide)

end

end SpiPort

end MassGridMiner

import Mathlib.Data.List.Basic
import Mathlib.Data.List.Range
import Mathlib.Data.UInt

/-!
# The messages of a CoinTerra

The device sends messages of 64 bytes (`CTA_MSG_SIZE`), each of which starts with the header `ZZ`,
and there may be garbage before the first.  `cta_open` waits for the answer to a reset, and
`cta_recv_thread` hands every message to `cta_parse_msg`.  Both look for the header in what they
have read, and move it to the start of their buffer.

## Main definitions

* `Cointerra.mystrstr`, `Cointerra.ctaRecvThread`, `Cointerra.ctaOpenLoop` — the functions of the
  source.
* `Cointerra.Stream` — garbage, and then messages.
* `Cointerra.Stream.ParsedRight` — each message that was read whole is parsed, and nothing else.
* `Cointerra.Stream.Recognised` — the answer to the reset is found.
* `Cointerra.Stream.parsedRight_iff`, `Cointerra.Stream.recognised` — when this is so.
-/

namespace MassGridMiner
namespace Cointerra

/-- A byte that was read, and its place in all that the device has sent. -/
abbrev Cell := UInt8 × ℕ

/-- Both bytes of `cointerra_hdr`. -/
def hdr : UInt8 := 0x5a

/-- The header is at a place of a buffer. -/
def headerAt (haystack : List Cell) (loop : ℕ) : Bool :=
  haystack[loop]?.map Prod.fst == some hdr && haystack[loop + 1]?.map Prod.fst == some hdr

/-- `mystrstr` with the header as the needle: where it is first found. -/
def mystrstr (haystack : List Cell) (size : ℕ) : Option ℕ :=
  (List.range (size - 1)).find? (headerAt haystack)

/-- `memmove` of `n` bytes to the start of a buffer. -/
def memmove (buf : List Cell) (start n : ℕ) : List Cell :=
  (buf.drop start).take n ++ buf.drop n

/-- What a read comes to: the bytes asked for once they are there, no bytes in time, or an error. -/
inductive UsbRead
  | bytes
  | nothing
  | failed
  deriving DecidableEq

/-- `usb_read` from what is still to be read.  Too few bytes are kept for the next read. -/
def usbRead (r : UsbRead) (rest : List Cell) (datasz : ℕ) : Option (List Cell) × List Cell :=
  match r with
  | .failed => (none, rest)
  | .nothing => (some [], rest)
  | .bytes =>
    if datasz ≤ rest.length then (some (rest.take datasz), rest.drop datasz) else (some [], rest)

/-- The loop of `cta_recv_thread` over the first `offset` bytes of its buffer.  The last of its
arguments are the bytes that `cta_parse_msg` has been handed. -/
def recvLoop (buf : List Cell) (offset : ℕ) (parsed : List (List Cell)) : List (List Cell) :=
  if offset < 64 then parsed
  else
    match mystrstr buf offset with
    | none => recvLoop (memmove buf 63 (offset - 63)) (offset - 63) parsed
    | some start =>
      let offset' := offset - start
      let buf' := if start = 0 then buf else memmove buf start offset'
      if start ≠ 0 ∧ offset' < 64 then parsed
      else
        recvLoop (if 0 < offset' - 64 then memmove buf' 64 (offset' - 64) else buf') (offset' - 64)
          (parsed ++ [(buf'.drop start).take 64])
termination_by offset

/-- A call of `cta_recv_thread`: what its buffer held before, and what its read comes to. -/
structure Call where
  stack : List Cell
  read : UsbRead

/-- `cta_recv_thread`, which ends after one read: what was parsed, and what is still to be read. -/
def ctaRecvThread (call : Call) (rest : List Cell) : List (List Cell) × List Cell :=
  match usbRead call.read rest 64 with
  | (none, rest) => ([], rest)
  | (some bytes, rest) =>
    (recvLoop (bytes ++ call.stack.drop bytes.length) bytes.length [], rest)

/-- Some calls of `cta_recv_thread` after each other. -/
def recvThreads : List Call → List Cell → List (List Cell) × List Cell
  | [], rest => ([], rest)
  | call :: calls, rest =>
    let (parsed, rest) := ctaRecvThread call rest
    let (more, rest) := recvThreads calls rest
    (parsed ++ more, rest)

/-- `cta_reset_init`. -/
def ctaResetInit (buf : List UInt8) : Bool :=
  buf[2]? == some 8 && buf[3]?.map (· &&& 3) == some 3

/-- How `cta_open` ends: with the answer in its buffer, after two seconds, or with an error. -/
inductive Outcome
  | opened (msg : List Cell)
  | timedOut
  | failed
  deriving DecidableEq

/-- The loop of `cta_open`, with the reads there is time for, and what is left to be read. -/
def ctaOpenLoop : List UsbRead → List Cell → List Cell → ℕ → Outcome × List Cell
  | [], rest, _, _ => (.timedOut, rest)
  | r :: reads, rest, buf, offset =>
    match usbRead r rest (64 - offset) with
    | (none, rest) => (.failed, rest)
    | (some bytes, rest) =>
      if bytes.length = 0 then ctaOpenLoop reads rest buf offset
      else
        let buf := buf.take offset ++ bytes ++ buf.drop (offset + bytes.length)
        match mystrstr buf bytes.length with
        | none => ctaOpenLoop reads rest (memmove buf (bytes.length - 1) 1) 1
        | some msg =>
          if 0 < msg then ctaOpenLoop reads rest (memmove buf msg (64 - msg)) (64 - msg)
          else if ctaResetInit ((buf.take 64).map Prod.fst) then (.opened (buf.take 64), rest)
          else ctaOpenLoop reads rest buf offset

/-- `cta_open`, once the reset is sent from the buffer. -/
def ctaOpen (sent : List Cell) (reads : List UsbRead) (rest : List Cell) : Outcome × List Cell :=
  ctaOpenLoop reads rest sent 0

/-- What a device sends: garbage without a header, that does not end in the start of one, and then
messages. -/
structure Stream where
  garbage : List UInt8
  messages : List (List UInt8)
  not_header : ∀ i, garbage[i]? = some hdr → garbage[i + 1]? ≠ some hdr
  last_ne : garbage.getLast? ≠ some hdr
  header : ∀ m ∈ messages, m.length = 64 ∧ m[0]? = some hdr ∧ m[1]? = some hdr

namespace Stream

/-- All that is sent. -/
def bytes (s : Stream) : List UInt8 := s.garbage ++ s.messages.flatten

/-- All that is sent, each byte with its place. -/
def cells (s : Stream) : List Cell := s.bytes.zipIdx

/-- Some of what is sent. -/
def window (s : Stream) (start n : ℕ) : List Cell := (s.cells.drop start).take n

/-- The place of a message. -/
def start (s : Stream) (j : ℕ) : ℕ := s.garbage.length + 64 * j

/-- A message's own bytes. -/
def message (s : Stream) (j : ℕ) : List Cell := s.window (s.start j) 64

/-- **Each message that was read whole was parsed**, once and in order, from its own bytes, and
nothing else was. -/
def ParsedRight (s : Stream) (calls : List Call) : Prop :=
  (recvThreads calls s.cells).1 =
    (List.range ((s.cells.length - (recvThreads calls s.cells).2.length -
      s.garbage.length) / 64)).map s.message

/-- **An answer to the reset is found** if there is one in time: the device is opened on the bytes
of such a message, or the time is over before as many bytes are read, or as many reads are made, as
there are up to the end of any. -/
def Recognised (s : Stream) (sent : List Cell) (reads : List UsbRead) : Prop :=
  ∀ j m, s.messages[j]? = some m → ctaResetInit m = true → UsbRead.failed ∉ reads →
    (∃ j' m', s.messages[j']? = some m' ∧ ctaResetInit m' = true ∧
        (ctaOpen sent reads s.cells).1 = .opened (s.message j')) ∨
      (ctaOpen sent reads s.cells).1 = .timedOut ∧
        s.cells.length - (ctaOpen sent reads s.cells).2.length < s.start (j + 1) ∧
        reads.count .bytes < s.start (j + 1)

/-- Some garbage has the first message's header come where it is found whole: the place is counted
from the last byte kept, after reads of 63 bytes of which each loses one.  Nor do the bytes around
a lost one look like a header. -/
def Aligned (s : Stream) : Prop :=
  2 ≤ s.garbage.length ∧ s.garbage.length ≤ 63 ∨
    64 ≤ s.garbage.length ∧ 1 ≤ (s.garbage.length - 64) % 63 ∧
      (s.garbage.length - 64) % 63 ≤ 60 ∧
      ∀ i, 127 + 63 * i < s.garbage.length → s.garbage[125 + 63 * i]? = some hdr →
        s.garbage[127 + 63 * i]? ≠ some hdr

end Stream

/-! ## The header -/

theorem headerAt_iff {haystack : List Cell} {loop : ℕ} : headerAt haystack loop = true ↔
    haystack[loop]?.map Prod.fst = some hdr ∧ haystack[loop + 1]?.map Prod.fst = some hdr := by
  rw [headerAt, Bool.and_eq_true_iff, beq_iff_eq, beq_iff_eq]

theorem mystrstr_eq_some {haystack : List Cell} {size k : ℕ} :
    mystrstr haystack size = some k ↔
      headerAt haystack k = true ∧ k + 1 < size ∧ ∀ i < k, headerAt haystack i = false := by
  rw [mystrstr, List.find?_range_eq_some]
  simp only [List.mem_range, Bool.not_eq_true', Nat.lt_sub_iff_add_lt]

theorem mystrstr_eq_none {haystack : List Cell} {size : ℕ} :
    mystrstr haystack size = none ↔ ∀ i, i + 1 < size → headerAt haystack i = false := by
  rw [mystrstr, List.find?_range_eq_none]
  simp only [Bool.not_eq_true', Nat.lt_sub_iff_add_lt]

/-! ## Receiving -/

/-- **One read** is parsed exactly if it starts with a header. -/
theorem recvLoop_read {bytes : List Cell} (hlen : bytes.length = 64) (stack : List Cell) :
    recvLoop (bytes ++ stack) 64 [] = if headerAt bytes 0 then [bytes] else [] := by
  have hfront : ∀ i, i + 1 < 64 → headerAt (bytes ++ stack) i = headerAt bytes i := by
    intro i hi
    rw [headerAt, headerAt, List.getElem?_append_left (by omega),
      List.getElem?_append_left (by omega)]
  rw [recvLoop, if_neg (by decide)]
  cases hfind : mystrstr (bytes ++ stack) 64 with
  | none =>
    have hnot := mystrstr_eq_none.mp hfind 0 (by decide)
    rw [hfront 0 (by decide)] at hnot
    rw [hnot]
    dsimp only
    rw [recvLoop]
    rfl
  | some start =>
    obtain ⟨hheader, hlt, hbefore⟩ := mystrstr_eq_some.mp hfind
    cases start with
    | zero =>
      rw [hfront 0 (by decide)] at hheader
      rw [hheader]
      dsimp only
      rw [if_neg (by decide), recvLoop, if_pos (by decide), if_pos rfl, if_pos rfl, List.drop_zero,
        List.take_append_of_le_length hlen.ge, List.take_of_length_le hlen.le, List.nil_append]
    | succ start =>
      have hnot := hbefore 0 (Nat.succ_pos _)
      rw [hfront 0 (by decide)] at hnot
      rw [hnot]
      dsimp only
      rw [if_pos ⟨Nat.succ_ne_zero _, by omega⟩]
      rfl

/-! ## What is sent -/

namespace Stream
variable {s : Stream}

theorem length_flatten {l : List (List UInt8)} (H : ∀ m ∈ l, m.length = 64) :
    l.flatten.length = 64 * l.length := by
  induction l with
  | nil => rfl
  | cons m l ih =>
    rw [List.forall_mem_cons] at H
    rw [List.flatten_cons, List.length_append, H.1, ih H.2, List.length_cons]
    omega

theorem getElem?_flatten {l : List (List UInt8)} (H : ∀ m ∈ l, m.length = 64) {j i : ℕ}
    {m : List UInt8} (hj : l[j]? = some m) (hi : i < 64) : l.flatten[64 * j + i]? = m[i]? := by
  induction l generalizing j with
  | nil => cases hj
  | cons m₀ l ih =>
    rw [List.forall_mem_cons] at H
    cases j with
    | zero =>
      obtain rfl := Option.some.inj hj
      rw [List.flatten_cons, Nat.mul_zero, Nat.zero_add, List.getElem?_append_left (by omega)]
    | succ j =>
      rw [List.flatten_cons, List.getElem?_append_right (by omega), ← ih H.2 hj]
      congr 1
      omega

theorem length_bytes (s : Stream) :
    s.bytes.length = s.garbage.length + 64 * s.messages.length := by
  rw [bytes, List.length_append, length_flatten fun m hm => (s.header m hm).1]

theorem length_cells (s : Stream) :
    s.cells.length = s.garbage.length + 64 * s.messages.length := by
  rw [cells, List.length_zipIdx, length_bytes]

theorem getElem?_cells (s : Stream) (p : ℕ) : s.cells[p]? = s.bytes[p]?.map (·, p) := by
  rw [cells, List.getElem?_zipIdx]
  simp only [Nat.zero_add]

theorem map_getElem?_cells (s : Stream) (p : ℕ) : s.cells[p]?.map Prod.fst = s.bytes[p]? := by
  rw [getElem?_cells, Option.map_map]
  exact Option.map_id'

theorem getElem?_window (s : Stream) {start n i : ℕ} (hi : i < n) :
    (s.window start n)[i]? = s.cells[start + i]? := by
  rw [window, List.getElem?_take_of_lt hi, List.getElem?_drop]

theorem length_window {start n : ℕ} (H : start + n ≤ s.cells.length) :
    (s.window start n).length = n := by
  rw [window, List.length_take, List.length_drop]
  omega

theorem headerAt_window (s : Stream) {start n i : ℕ} (hi : i + 1 < n) :
    headerAt (s.window start n) i = true ↔
      s.bytes[start + i]? = some hdr ∧ s.bytes[start + i + 1]? = some hdr := by
  rw [headerAt_iff, getElem?_window s (by omega), getElem?_window s hi, map_getElem?_cells,
    map_getElem?_cells, Nat.add_assoc]

/-- A byte of a message. -/
theorem getElem?_bytes_start {j i : ℕ} {m : List UInt8} (hj : s.messages[j]? = some m)
    (hi : i < 64) : s.bytes[s.start j + i]? = m[i]? := by
  rw [bytes, start, List.getElem?_append_right (by omega),
    ← getElem?_flatten (fun m hm => (s.header m hm).1) hj hi]
  congr 1
  omega

/-- There is a header at the start of every message. -/
theorem header_start {j : ℕ} (hj : j < s.messages.length) :
    s.bytes[s.start j]? = some hdr ∧ s.bytes[s.start j + 1]? = some hdr := by
  have hm := List.getElem?_eq_getElem hj
  have hheader := s.header _ (List.mem_of_getElem? hm)
  exact ⟨(getElem?_bytes_start hm (by decide)).trans hheader.2.1,
    (getElem?_bytes_start hm (by decide)).trans hheader.2.2⟩

/-- There is none that starts in the garbage. -/
theorem not_header_of_lt {p : ℕ} (hp : p < s.garbage.length) :
    ¬(s.bytes[p]? = some hdr ∧ s.bytes[p + 1]? = some hdr) := by
  rintro ⟨hfirst, hsecond⟩
  rw [bytes, List.getElem?_append_left hp] at hfirst
  rcases Nat.lt_or_ge (p + 1) s.garbage.length with hlt | hge
  · rw [bytes, List.getElem?_append_left hlt] at hsecond
    exact s.not_header p hfirst hsecond
  · refine s.last_ne ?_
    rw [List.getLast?_eq_getElem?, ← hfirst]
    congr 1
    omega

/-! ### The messages parsed -/

/-- How many of the calls are there bytes for. -/
def delivered (calls : List Call) : ℕ := calls.countP fun call => decide (call.read = .bytes)

/-- **The calls parse those of their reads that start with a header.** -/
theorem recvThreads_eq (calls : List Call) {i : ℕ} (hi : 64 * i ≤ s.cells.length) :
    recvThreads calls (s.cells.drop (64 * i)) =
      (((List.range' i (min (delivered calls) ((s.cells.length - 64 * i) / 64))).map fun k =>
          s.window (64 * k) 64).filter (headerAt · 0),
        s.cells.drop (64 * (i + min (delivered calls) ((s.cells.length - 64 * i) / 64)))) := by
  induction calls generalizing i with
  | nil => rw [recvThreads, delivered, List.countP_nil, Nat.zero_min, List.range'_zero]; rfl
  | cons call calls ih =>
    have hempty : recvLoop ([] ++ call.stack.drop 0) 0 [] = [] := by
      rw [recvLoop, if_pos (by decide)]
    have hnone : call.read ≠ .bytes → delivered (call :: calls) = delivered calls := by
      intro hne
      rw [delivered, delivered, List.countP_cons_of_neg (by simpa using hne)]
    rw [recvThreads, ctaRecvThread]
    cases hread : call.read with
    | failed =>
      rw [hnone (by rw [hread]; decide), usbRead]
      dsimp only
      rw [ih hi]
      rfl
    | nothing =>
      rw [hnone (by rw [hread]; decide), usbRead]
      dsimp only
      rw [ih hi, List.length_nil, hempty]
      rfl
    | bytes =>
      have hmore : delivered (call :: calls) = delivered calls + 1 := by
        rw [delivered, delivered, List.countP_cons_of_pos (by simpa using hread)]
      rw [hmore, usbRead]
      dsimp only
      rw [List.length_drop]
      by_cases hroom : 64 ≤ s.cells.length - 64 * i
      · have hlen := @length_window s (64 * i) 64 (by omega)
        have hpieces : (s.cells.drop (64 * i)).drop 64 = s.cells.drop (64 * (i + 1)) := by
          rw [List.drop_drop]
          congr 1
        have hcount : min (delivered calls + 1) ((s.cells.length - 64 * i) / 64) =
            min (delivered calls) ((s.cells.length - 64 * (i + 1)) / 64) + 1 := by omega
        have hplace : i + (min (delivered calls) ((s.cells.length - 64 * (i + 1)) / 64) + 1) =
            i + 1 + min (delivered calls) ((s.cells.length - 64 * (i + 1)) / 64) := by omega
        rw [if_pos hroom]
        dsimp only
        rw [hpieces, ih (by omega), hcount, hplace, List.range'_succ, List.map_cons,
          List.filter_cons]
        have hwindow : (s.cells.drop (64 * i)).take 64 = s.window (64 * i) 64 := rfl
        rw [hwindow, hlen, recvLoop_read hlen]
        split <;> rfl
      · have hcount : min (delivered calls + 1) ((s.cells.length - 64 * i) / 64) =
            min (delivered calls) ((s.cells.length - 64 * i) / 64) := by omega
        rw [if_neg hroom]
        dsimp only
        rw [ih hi, hcount, List.length_nil, hempty]
        rfl

/-- What the first reads of 64 bytes have parsed. -/
def parsed (s : Stream) (n : ℕ) : List (List Cell) :=
  ((List.range n).map fun k => s.window (64 * k) 64).filter (headerAt · 0)

theorem headerAt_read (s : Stream) (k : ℕ) : headerAt (s.window (64 * k) 64) 0 = true ↔
    s.bytes[64 * k]? = some hdr ∧ s.bytes[64 * k + 1]? = some hdr := by
  rw [headerAt_window s (by decide), Nat.add_zero]

/-- Where the messages come with the reads, each is parsed. -/
theorem parsed_of_eq {q n : ℕ} (hq : s.garbage.length = 64 * q) (hn : 64 * n ≤ s.cells.length) :
    s.parsed n = (List.range (n - q)).map s.message := by
  induction n with
  | zero => rw [Nat.zero_sub]; rfl
  | succ n ih =>
    have hnext : s.parsed (n + 1) = s.parsed n ++
        if headerAt (s.window (64 * n) 64) 0 then [s.window (64 * n) 64] else [] := by
      rw [parsed, List.range_succ, List.map_append, List.filter_append, List.map_singleton,
        List.filter_singleton, cond_eq_ite]
      rfl
    rw [hnext, ih (by omega)]
    rcases Nat.lt_or_ge n q with hlt | hge
    · have hnot : headerAt (s.window (64 * n) 64) 0 = false := by
        rw [← Bool.not_eq_true, headerAt_read]
        exact not_header_of_lt (by omega)
      rw [hnot, if_neg Bool.false_ne_true, List.append_nil, Nat.sub_eq_zero_of_le hlt.le,
        Nat.sub_eq_zero_of_le hlt]
    · have hplace : 64 * n = s.start (n - q) := by rw [start]; omega
      have hheader : headerAt (s.window (64 * n) 64) 0 = true := by
        rw [headerAt_read, hplace]
        rw [length_cells] at hn
        exact header_start (by omega)
      rw [hheader, if_pos rfl, Nat.succ_sub hge, List.range_succ, List.map_append,
        List.map_singleton, message, ← hplace]

/-- Before a message is read whole, nothing is parsed. -/
theorem parsed_of_lt {n : ℕ} (hn : 64 * n < s.garbage.length + 64) : s.parsed n = [] := by
  rw [parsed, List.filter_eq_nil_iff, List.forall_mem_map]
  intro k hk
  rw [List.mem_range] at hk
  rw [headerAt_read]
  exact not_header_of_lt (by omega)

/-- **Each message is parsed as it is to** exactly if the garbage fills some reads, or no message is
read whole: since a call of `cta_recv_thread` ends with its first read, what it has not parsed is
lost. -/
theorem parsedRight_iff (s : Stream) (calls : List Call) :
    s.ParsedRight calls ↔ 64 ∣ s.garbage.length ∨ s.messages.length ≤ 1 ∨
      64 * delivered calls < s.garbage.length + 64 := by
  have hrun := s.recvThreads_eq calls (i := 0) (Nat.zero_le _)
  rw [Nat.mul_zero, List.drop_zero, Nat.sub_zero, Nat.zero_add, ← List.range_eq_range'] at hrun
  have hlen := s.length_cells
  generalize hn : min (delivered calls) (s.cells.length / 64) = n at hrun
  have hroom : 64 * n ≤ s.cells.length := by omega
  have hreceived : s.cells.length - (s.cells.length - 64 * n) - s.garbage.length =
      64 * n - s.garbage.length := by omega
  rw [ParsedRight, hrun, List.length_drop, hreceived]
  change s.parsed n = _ ↔ _
  have hright : 64 ∣ s.garbage.length ∨ 64 * n < s.garbage.length + 64 →
      s.parsed n = (List.range ((64 * n - s.garbage.length) / 64)).map s.message := by
    intro h
    by_cases hdvd : 64 ∣ s.garbage.length
    · obtain ⟨q, hq⟩ := hdvd
      rw [parsed_of_eq hq hroom, hq, ← Nat.mul_sub, Nat.mul_div_cancel_left _ (by decide)]
    · have hlt := h.resolve_left hdvd
      rw [parsed_of_lt hlt, Nat.div_eq_of_lt (by omega)]
      rfl
  constructor
  · intro heq
    by_contra hnot
    rw [not_or, not_or, not_le, not_lt] at hnot
    obtain ⟨hdvd, hmessages, hcalls⟩ := hnot
    -- the first message would have been parsed from where no read starts
    have hfirst : s.message 0 ∈ s.parsed n := by
      rw [heq]
      exact List.mem_map_of_mem (List.mem_range.mpr (by omega))
    obtain ⟨k, hk, hsame⟩ := List.mem_map.mp (List.mem_of_mem_filter hfirst)
    rw [List.mem_range] at hk
    have hhead := congrArg (fun l : List Cell => l[0]?) hsame
    simp only [message, getElem?_window s (show 0 < 64 by decide), Nat.add_zero,
      getElem?_cells] at hhead
    have hthere : 64 * k < s.bytes.length := by rw [length_bytes]; omega
    rw [List.getElem?_eq_getElem hthere, Option.map_some] at hhead
    obtain ⟨b, -, hb⟩ := Option.map_eq_some_iff.mp hhead.symm
    have hplace : s.start 0 = 64 * k := congrArg Prod.snd hb
    exact hdvd ⟨k, hplace⟩
  · intro h
    refine hright ?_
    by_cases hdvd : 64 ∣ s.garbage.length
    · exact .inl hdvd
    · exact .inr (by omega)

/-! ### The buffer of `cta_open` -/

theorem map_message {j : ℕ} {m : List UInt8} (hj : s.messages[j]? = some m) :
    (s.message j).map Prod.fst = m := by
  have hlen : m.length = 64 := (s.header m (List.mem_of_getElem? hj)).1
  refine List.ext_getElem? fun i => ?_
  rw [List.getElem?_map]
  rcases Nat.lt_or_ge i 64 with hlt | hge
  · rw [message, getElem?_window s hlt, map_getElem?_cells, getElem?_bytes_start hj hlt]
  · have hshort : (s.message j).length ≤ 64 := List.length_take_le _ _
    rw [List.getElem?_eq_none (hshort.trans hge), List.getElem?_eq_none (hlen.le.trans hge)]
    rfl

theorem take_eq_window {l : List Cell} {p n : ℕ} (H : ∀ i < n, l[i]? = s.cells[p + i]?) :
    l.take n = s.window p n := by
  refine List.ext_getElem? fun i => ?_
  rcases Nat.lt_or_ge i n with hlt | hge
  · rw [List.getElem?_take_of_lt hlt, getElem?_window s hlt, H i hlt]
  · rw [List.getElem?_take_eq_none hge, window, List.getElem?_take_eq_none hge]

/-- What the buffer holds after a read behind its first `offset` bytes, which are from `q` on. -/
def got (s : Stream) (q offset taken : ℕ) (tail : List Cell) : List Cell :=
  s.window q offset ++ s.window taken (64 - offset) ++ tail

/-- Where its bytes are from. -/
def place (q offset taken i : ℕ) : ℕ := if i < offset then q + i else taken + (i - offset)

section
variable {q offset taken : ℕ} {tail : List Cell}

theorem length_got (hq : q + offset ≤ s.cells.length)
    (htaken : taken + (64 - offset) ≤ s.cells.length) :
    (s.got q offset taken tail).length = offset + (64 - offset) + tail.length := by
  rw [got, List.length_append, List.length_append, length_window hq, length_window htaken]

theorem getElem?_got (hq : q + offset ≤ s.cells.length)
    (htaken : taken + (64 - offset) ≤ s.cells.length) {i : ℕ} (hi : i < 64) :
    (s.got q offset taken tail)[i]? = s.cells[place q offset taken i]? := by
  have hfront := length_window hq
  have hback := length_window htaken
  rw [got, List.append_assoc, place]
  split
  · next hlt => rw [List.getElem?_append_left (by omega), getElem?_window s hlt]
  · next hge =>
    rw [List.getElem?_append_right (by omega), hfront, List.getElem?_append_left (by omega),
      getElem?_window s (by omega)]

theorem headerAt_got (hq : q + offset ≤ s.cells.length)
    (htaken : taken + (64 - offset) ≤ s.cells.length) {i : ℕ} (hi : i + 1 < 64) :
    headerAt (s.got q offset taken tail) i = true ↔
      s.bytes[place q offset taken i]? = some hdr ∧
        s.bytes[place q offset taken (i + 1)]? = some hdr := by
  rw [headerAt_iff, getElem?_got hq htaken (by omega), getElem?_got hq htaken hi,
    map_getElem?_cells, map_getElem?_cells]

theorem getElem?_memmove {buf : List Cell} {start n i : ℕ} (hlen : start + n ≤ buf.length)
    (hi : i < n) : (memmove buf start n)[i]? = buf[start + i]? := by
  have hmoved : ((buf.drop start).take n).length = n := by
    rw [List.length_take, List.length_drop]
    omega
  rw [memmove, List.getElem?_append_left (by omega), List.getElem?_take_of_lt hi,
    List.getElem?_drop]

variable {buf : List Cell} (hbuf : buf.take offset = s.window q offset)
  (htaken : taken + (64 - offset) ≤ s.cells.length) (hoffset : offset < 64)
include hbuf htaken hoffset

/-- The loop after a read that there are bytes for. -/
theorem ctaOpenLoop_bytes (reads : List UsbRead) :
    ctaOpenLoop (.bytes :: reads) (s.cells.drop taken) buf offset =
      match mystrstr (s.got q offset taken (buf.drop 64)) (64 - offset) with
      | none =>
        ctaOpenLoop reads (s.cells.drop (taken + (64 - offset)))
          (memmove (s.got q offset taken (buf.drop 64)) (64 - offset - 1) 1) 1
      | some msg =>
        if 0 < msg then
          ctaOpenLoop reads (s.cells.drop (taken + (64 - offset)))
            (memmove (s.got q offset taken (buf.drop 64)) msg (64 - msg)) (64 - msg)
        else if ctaResetInit (((s.got q offset taken (buf.drop 64)).take 64).map Prod.fst) then
          (.opened ((s.got q offset taken (buf.drop 64)).take 64),
            s.cells.drop (taken + (64 - offset)))
        else
          ctaOpenLoop reads (s.cells.drop (taken + (64 - offset)))
            (s.got q offset taken (buf.drop 64)) offset := by
  have hread := length_window htaken
  have hroom : 64 - offset ≤ (s.cells.drop taken).length := by rw [List.length_drop]; omega
  have hsum : offset + (64 - offset) = 64 := by omega
  have hwindow : (s.cells.drop taken).take (64 - offset) = s.window taken (64 - offset) := rfl
  rw [ctaOpenLoop, usbRead, if_pos hroom, hwindow, List.drop_drop]
  dsimp only
  rw [hread, if_neg (by omega), hbuf, hsum]
  rfl

variable (hq : q + offset ≤ s.cells.length)
include hq

/-- No header is found: one byte is kept. -/
theorem ctaOpenLoop_none (H : ∀ i, i + 1 < 64 - offset →
      ¬(s.bytes[place q offset taken i]? = some hdr ∧
        s.bytes[place q offset taken (i + 1)]? = some hdr)) :
    ∃ buf', buf'.take 1 = s.window (place q offset taken (64 - offset - 1)) 1 ∧
      ∀ reads, ctaOpenLoop (.bytes :: reads) (s.cells.drop taken) buf offset =
        ctaOpenLoop reads (s.cells.drop (taken + (64 - offset))) buf' 1 := by
  have hnone : mystrstr (s.got q offset taken (buf.drop 64)) (64 - offset) = none := by
    rw [mystrstr_eq_none]
    intro i hi
    rw [← Bool.not_eq_true, headerAt_got hq htaken (by omega)]
    exact H i hi
  refine ⟨memmove (s.got q offset taken (buf.drop 64)) (64 - offset - 1) 1,
    take_eq_window fun i hi => ?_, fun reads => ?_⟩
  · obtain rfl : i = 0 := by omega
    have hlen := @length_got s _ _ _ (buf.drop 64) hq htaken
    rw [getElem?_memmove (by omega) hi, getElem?_got hq htaken (by omega)]
    rfl
  · rw [ctaOpenLoop_bytes hbuf htaken hoffset, hnone]

/-- A header is found behind the start, in what was read: it is moved there. -/
theorem ctaOpenLoop_some {k : ℕ} (hk : k + 1 < 64 - offset) (hpos : 0 < k) (hle : offset ≤ k)
    (hheader : s.bytes[taken + (k - offset)]? = some hdr ∧
      s.bytes[taken + (k - offset) + 1]? = some hdr)
    (H : ∀ i < k, ¬(s.bytes[place q offset taken i]? = some hdr ∧
        s.bytes[place q offset taken (i + 1)]? = some hdr)) :
    ∃ buf', buf'.take (64 - k) = s.window (taken + (k - offset)) (64 - k) ∧
      ∀ reads, ctaOpenLoop (.bytes :: reads) (s.cells.drop taken) buf offset =
        ctaOpenLoop reads (s.cells.drop (taken + (64 - offset))) buf' (64 - k) := by
  have hplace : ∀ i, k ≤ i → place q offset taken i = taken + (i - offset) :=
    fun i hi => if_neg (by omega)
  have hsome : mystrstr (s.got q offset taken (buf.drop 64)) (64 - offset) = some k := by
    rw [mystrstr_eq_some]
    refine ⟨?_, hk, fun i hi => ?_⟩
    · rw [headerAt_got hq htaken (by omega), hplace k le_rfl, hplace (k + 1) (by omega)]
      have hnext : taken + (k + 1 - offset) = taken + (k - offset) + 1 := by omega
      rwa [hnext]
    · rw [← Bool.not_eq_true, headerAt_got hq htaken (by omega)]
      exact H i hi
  refine ⟨memmove (s.got q offset taken (buf.drop 64)) k (64 - k),
    take_eq_window fun i hi => ?_, fun reads => ?_⟩
  · have hlen := @length_got s _ _ _ (buf.drop 64) hq htaken
    rw [getElem?_memmove (by omega) hi, getElem?_got hq htaken (by omega), hplace _ (by omega)]
    congr 1
    omega
  · rw [ctaOpenLoop_bytes hbuf htaken hoffset, hsome]
    exact if_pos hpos

/-- A header is found at the start: if it is not that of the answer, the next read is to where this
one was. -/
theorem ctaOpenLoop_zero (hlt : offset < 63)
    (hheader : s.bytes[place q offset taken 0]? = some hdr ∧
      s.bytes[place q offset taken 1]? = some hdr) :
    ∃ buf', (∀ i < 64, buf'[i]? = s.cells[place q offset taken i]?) ∧
      ∀ reads, ctaOpenLoop (.bytes :: reads) (s.cells.drop taken) buf offset =
        if ctaResetInit ((buf'.take 64).map Prod.fst) then
          (.opened (buf'.take 64), s.cells.drop (taken + (64 - offset)))
        else ctaOpenLoop reads (s.cells.drop (taken + (64 - offset))) buf' offset := by
  have hzero : mystrstr (s.got q offset taken (buf.drop 64)) (64 - offset) = some 0 := by
    rw [mystrstr_eq_some, headerAt_got hq htaken (by decide)]
    exact ⟨hheader, by omega, fun i hi => absurd hi (Nat.not_lt_zero i)⟩
  refine ⟨s.got q offset taken (buf.drop 64), fun i hi => getElem?_got hq htaken hi,
    fun reads => ?_⟩
  rw [ctaOpenLoop_bytes hbuf htaken hoffset, hzero]
  rfl

end

/-! ### The first message -/

/-- Where `cta_open` is before it has the first message: from where it has the start of its buffer,
how much that is, and how much was read. -/
inductive Searching (s : Stream) (q offset taken : ℕ) : Prop
  | start (hq : q = 0) (hoffset : offset = 0) (htaken : taken = 0)
  | kept (hq : q = 63) (hoffset : offset = 1) (htaken : taken = 64) (hle : 64 ≤ s.garbage.length)
  | skipped (i : ℕ) (hq : q = 125 + 63 * i) (hoffset : offset = 1) (htaken : taken = 127 + 63 * i)
      (hle : taken ≤ s.garbage.length)
  | found (hq : q = s.garbage.length) (htaken : taken = s.garbage.length + offset)
      (hpos : 1 ≤ offset) (hle : offset ≤ 62) (htwo : s.garbage.length ≠ 63 → 2 ≤ offset)

theorem header_garbage (hm : 0 < s.messages.length) :
    s.bytes[s.garbage.length]? = some hdr ∧ s.bytes[s.garbage.length + 1]? = some hdr :=
  header_start hm

/-- A read of 63 bytes behind one that was kept.  They are garbage up to a place that is not right
behind them. -/
theorem exists_searching_of_kept {q taken : ℕ} (hA : s.Aligned) (hm : 0 < s.messages.length)
    (hq : q + 1 ≤ s.cells.length) (hge : 64 ≤ taken) (hlt : taken < s.garbage.length)
    (hperiod : (taken - 64) % 63 = 0)
    (hjoint : ¬(s.bytes[q]? = some hdr ∧ s.bytes[taken]? = some hdr)) {buf : List Cell}
    (hbuf : buf.take 1 = s.window q 1) :
    ∃ q' offset' taken' buf', s.Searching q' offset' taken' ∧
      buf'.take offset' = s.window q' offset' ∧ taken < taken' ∧
      ∀ reads, ctaOpenLoop (.bytes :: reads) (s.cells.drop taken) buf 1 =
        ctaOpenLoop reads (s.cells.drop taken') buf' offset' := by
  have hlen := s.length_cells
  have hplace : ∀ i, 1 ≤ i → place q 1 taken i = taken + (i - 1) := fun i hi => if_neg (by omega)
  have hclear : ∀ i, taken + i ≤ s.garbage.length →
      ¬(s.bytes[place q 1 taken i]? = some hdr ∧ s.bytes[place q 1 taken (i + 1)]? = some hdr) := by
    intro i hi
    rw [hplace (i + 1) (by omega), Nat.add_sub_cancel]
    cases i with
    | zero => exact hjoint
    | succ i =>
      rw [hplace (i + 1) (by omega), Nat.add_sub_cancel]
      exact not_header_of_lt (by omega)
  have hgap : s.garbage.length - taken ≤ 60 ∨ 63 ≤ s.garbage.length - taken := by
    rcases hA with hA | ⟨-, -, hA, -⟩ <;> omega
  rcases hgap with hnear | hfar
  · -- the header is among what was read
    have hk : s.garbage.length - taken + 1 - 1 = s.garbage.length - taken := Nat.add_sub_cancel ..
    have hthere : taken + (s.garbage.length - taken) = s.garbage.length := by omega
    obtain ⟨buf', hbuf', hloop⟩ := @ctaOpenLoop_some s q 1 taken buf hbuf (by omega) (by decide)
      hq (s.garbage.length - taken + 1) (by omega) (by omega) (by omega)
      (by rw [hk, hthere]; exact header_garbage hm) (fun i hi => hclear i (by omega))
    rw [hk, hthere] at hbuf'
    exact ⟨_, _, _, buf', .found rfl (by omega) (by omega) (by omega) (fun _ => by omega), hbuf',
      by omega, hloop⟩
  · -- of garbage alone, all but its last byte is kept
    obtain ⟨buf', hbuf', hloop⟩ := @ctaOpenLoop_none s q 1 taken buf hbuf (by omega) (by decide) hq
      (fun i hi => hclear i (by omega))
    rw [hplace (64 - 1 - 1) (by decide)] at hbuf'
    exact ⟨_, _, _, buf', .skipped ((taken - 64) / 63) (by omega) rfl (by omega) (by omega), hbuf',
      by omega, hloop⟩

/-- **One read of the search**: either the first message follows what is in the buffer, or the
search goes on. -/
theorem Searching.step {q offset taken : ℕ} (H : s.Searching q offset taken) (hA : s.Aligned)
    (hm : 0 < s.messages.length) {buf : List Cell} (hbuf : buf.take offset = s.window q offset) :
    (q = s.garbage.length ∧ taken = s.garbage.length + offset ∧ 1 ≤ offset ∧ offset ≤ 62 ∧
        (s.garbage.length ≠ 63 → 2 ≤ offset)) ∨
      ∃ q' offset' taken' buf', s.Searching q' offset' taken' ∧
        buf'.take offset' = s.window q' offset' ∧ taken < taken' ∧
        ∀ reads, ctaOpenLoop (.bytes :: reads) (s.cells.drop taken) buf offset =
          ctaOpenLoop reads (s.cells.drop taken') buf' offset' := by
  have hlen := s.length_cells
  cases H with
  | found hq htaken hpos hle htwo => exact .inl ⟨hq, htaken, hpos, hle, htwo⟩
  | kept hq hoffset htaken hle =>
    subst hq hoffset htaken
    have hlt : 64 < s.garbage.length := by
      rcases hA with hA | ⟨-, hA, -, -⟩ <;> omega
    exact .inr (exists_searching_of_kept hA hm (by omega) le_rfl hlt (by decide)
      (not_header_of_lt (by omega)) hbuf)
  | skipped i hq hoffset htaken hle =>
    subst hq hoffset
    have hlt : taken < s.garbage.length := by
      rcases hA with hA | ⟨-, hA, -, -⟩ <;> omega
    refine .inr (exists_searching_of_kept hA hm (by omega) (by omega) hlt (by omega) ?_ hbuf)
    rintro ⟨hfirst, hsecond⟩
    rw [htaken] at hsecond hlt
    rw [bytes, List.getElem?_append_left (by omega)] at hfirst hsecond
    rcases hA with hA | ⟨-, -, -, hA⟩
    · omega
    · exact hA i hlt hfirst hsecond
  | start hq hoffset htaken =>
    subst hq hoffset htaken
    have htwo : 2 ≤ s.garbage.length := by rcases hA with hA | hA <;> omega
    have hplace : ∀ i, place 0 0 0 i = i := fun i => (if_neg (Nat.not_lt_zero i)).trans (by omega)
    have hclear : ∀ i < s.garbage.length, ¬(s.bytes[place 0 0 0 i]? = some hdr ∧
        s.bytes[place 0 0 0 (i + 1)]? = some hdr) := by
      intro i hi
      rw [hplace, hplace]
      exact not_header_of_lt hi
    right
    rcases Nat.lt_or_ge s.garbage.length 63 with hlt | hge
    · have hthere : 0 + (s.garbage.length - 0) = s.garbage.length := by omega
      obtain ⟨buf', hbuf', hloop⟩ := @ctaOpenLoop_some s 0 0 0 buf hbuf (by omega) (by decide)
        (by omega) s.garbage.length (by omega) (by omega) (by omega)
        (by rw [hthere]; exact header_garbage hm) hclear
      rw [hthere] at hbuf'
      exact ⟨_, _, _, buf', .found rfl (by omega) (by omega) (by omega) (fun _ => by omega), hbuf',
        by omega, hloop⟩
    · obtain ⟨buf', hbuf', hloop⟩ := @ctaOpenLoop_none s 0 0 0 buf hbuf (by omega) (by decide)
        (by omega) (fun i hi => hclear i (by omega))
      rw [hplace] at hbuf'
      rcases Nat.lt_or_ge s.garbage.length 64 with hlt | hge
      · exact ⟨_, _, _, buf', .found (by omega) (by omega) le_rfl (by decide) (by omega), hbuf',
          by decide, hloop⟩
      · exact ⟨_, _, _, buf', .kept rfl rfl rfl hge, hbuf', by decide, hloop⟩

/-- A read that ends a message whose start is in the buffer. -/
theorem ctaOpenLoop_message {p offset : ℕ} {buf : List Cell}
    (hbuf : buf.take offset = s.window p offset) (hend : p + 64 ≤ s.cells.length)
    (hoffset : offset ≤ 62)
    (hheader : s.bytes[p]? = some hdr ∧ s.bytes[p + 1]? = some hdr) :
    ∃ buf', buf'.take offset = s.window p offset ∧
      ∀ reads, ctaOpenLoop (.bytes :: reads) (s.cells.drop (p + offset)) buf offset =
        if ctaResetInit ((s.window p 64).map Prod.fst) then
          (.opened (s.window p 64), s.cells.drop (p + 64))
        else ctaOpenLoop reads (s.cells.drop (p + 64)) buf' offset := by
  have hplace : ∀ i, place p offset (p + offset) i = p + i := by
    intro i
    rw [place]
    split <;> omega
  have hrest : p + offset + (64 - offset) = p + 64 := by omega
  obtain ⟨buf', hbuf', hloop⟩ := @ctaOpenLoop_zero s p offset (p + offset) buf hbuf (by omega)
    (by omega) (by omega) (by omega) (by rw [hplace, hplace]; exact hheader)
  simp only [hplace] at hbuf'
  rw [hrest, take_eq_window hbuf'] at hloop
  exact ⟨buf', take_eq_window fun i hi => hbuf' i (by omega), hloop⟩

theorem Searching.taken_lt {q offset taken : ℕ} (H : s.Searching q offset taken) :
    taken < s.garbage.length + 64 := by
  cases H <;> omega

/-- **The first message is reached**, or else there was not time for it. -/
theorem Searching.reach (hA : s.Aligned) (hm : 0 < s.messages.length) {reads : List UsbRead}
    (hfailed : UsbRead.failed ∉ reads) {q offset taken : ℕ} (H : s.Searching q offset taken)
    {buf : List Cell} (hbuf : buf.take offset = s.window q offset) :
    ((ctaOpenLoop reads (s.cells.drop taken) buf offset).1 = .timedOut ∧
        s.cells.length - (ctaOpenLoop reads (s.cells.drop taken) buf offset).2.length <
          s.garbage.length + 64 ∧
        reads.count .bytes + taken < s.garbage.length + 64) ∨
      ∃ reads' buf' offset', offset' ≤ 62 ∧ (s.garbage.length ≠ 63 → 2 ≤ offset') ∧
        buf'.take offset' = s.window s.garbage.length offset' ∧
        ctaOpenLoop reads (s.cells.drop taken) buf offset =
          if ctaResetInit ((s.message 0).map Prod.fst) then
            (.opened (s.message 0), s.cells.drop (s.garbage.length + 64))
          else ctaOpenLoop reads' (s.cells.drop (s.garbage.length + 64)) buf' offset' := by
  have hlen := s.length_cells
  induction reads generalizing q offset taken buf with
  | nil =>
    have hlt := H.taken_lt
    refine .inl ⟨rfl, ?_, by rw [List.count_nil]; omega⟩
    rw [ctaOpenLoop, List.length_drop]
    omega
  | cons r reads ih =>
    rw [List.mem_cons, not_or] at hfailed
    cases r with
    | failed => exact absurd rfl hfailed.1
    | nothing =>
      rw [List.count_cons_of_ne (by decide)]
      exact ih hfailed.2 H hbuf
    | bytes =>
      rw [List.count_cons_self]
      rcases H.step hA hm hbuf with ⟨rfl, rfl, -, hle, htwo⟩ |
        ⟨q', offset', taken', buf', H', hbuf', hlt, hloop⟩
      · obtain ⟨buf', hbuf', hloop⟩ := ctaOpenLoop_message hbuf (by omega) hle (header_garbage hm)
        exact .inr ⟨reads, buf', offset, hle, htwo, hbuf', hloop reads⟩
      · rw [hloop]
        refine (ih hfailed.2 H' hbuf').imp_left fun h => ⟨h.1, h.2.1, ?_⟩
        have hcount := h.2.2
        omega

/-- A first message that is not the answer stays at the start of the buffer, and no other is read
whole. -/
theorem not_opened_of_stuck {offset : ℕ} (htwo : 2 ≤ offset) (hle : offset ≤ 62)
    (hm : 0 < s.messages.length) (reads : List UsbRead) {taken : ℕ}
    (htaken : s.garbage.length + 64 ≤ taken) {buf : List Cell}
    (hbuf : buf.take offset = s.window s.garbage.length offset) (j : ℕ) :
    (ctaOpenLoop reads (s.cells.drop taken) buf offset).1 ≠ .opened (s.message j) := by
  have hlen := s.length_cells
  induction reads generalizing taken buf with
  | nil => rw [ctaOpenLoop]; nofun
  | cons r reads ih =>
    cases r with
    | failed => rw [ctaOpenLoop, usbRead]; nofun
    | nothing => exact ih htaken hbuf
    | bytes =>
      by_cases hroom : taken + (64 - offset) ≤ s.cells.length
      · have hplace : ∀ i < offset,
            place s.garbage.length offset taken i = s.garbage.length + i := fun i hi => if_pos hi
        have hheader := header_garbage hm
        obtain ⟨buf', hbuf', hloop⟩ := @ctaOpenLoop_zero s s.garbage.length offset taken buf hbuf
          hroom (by omega) (by omega) (by omega)
          (by rw [hplace 0 (by omega), hplace 1 (by omega)]; exact hheader)
        rw [hloop]
        split
        · -- the end of what is in the buffer is not from the message at its start
          intro hopened
          have hsame := Outcome.opened.inj hopened
          have hcell : ∀ i < 64, s.cells[place s.garbage.length offset taken i]? =
              s.cells[s.start j + i]? := by
            intro i hi
            rw [← hbuf' i hi, ← List.getElem?_take_of_lt hi, hsame, message, getElem?_window s hi]
          have hplaces : ∀ i < 64, place s.garbage.length offset taken i < s.cells.length →
              place s.garbage.length offset taken i = s.start j + i := by
            intro i hi hthere
            have hboth := hcell i hi
            rw [length_cells, ← length_bytes] at hthere
            rw [getElem?_cells, getElem?_cells, List.getElem?_eq_getElem hthere] at hboth
            obtain ⟨b, -, hb⟩ := Option.map_eq_some_iff.mp hboth.symm
            exact (congrArg Prod.snd hb).symm
          have hfirst := hplaces 0 (by decide) (by rw [hplace 0 (by omega)]; omega)
          have hback : place s.garbage.length offset taken 63 = taken + (63 - offset) :=
            if_neg (by omega)
          have hlast := hplaces 63 (by decide) (by rw [hback]; omega)
          rw [hplace 0 (by omega)] at hfirst
          rw [hback] at hlast
          omega
        · refine ih (by omega) (take_eq_window fun i hi => ?_)
          rw [hbuf' i (by omega), hplace i hi]
      · have hshort : ¬64 - offset ≤ (s.cells.drop taken).length := by
          rw [List.length_drop]
          omega
        rw [ctaOpenLoop, usbRead, if_neg hshort]
        exact ih htaken hbuf

/-! ### The answer -/

/-- With no garbage, each message is read by itself. -/
theorem opened_of_no_garbage (hzero : s.garbage.length = 0) {j : ℕ} {m : List UInt8}
    (hj : s.messages[j]? = some m) (hreset : ctaResetInit m = true) {reads : List UsbRead}
    (hfailed : UsbRead.failed ∉ reads) {i : ℕ} (hi : i ≤ j) (buf : List Cell) :
    (∃ j' m', s.messages[j']? = some m' ∧ ctaResetInit m' = true ∧
        (ctaOpenLoop reads (s.cells.drop (64 * i)) buf 0).1 = .opened (s.message j')) ∨
      (ctaOpenLoop reads (s.cells.drop (64 * i)) buf 0).1 = .timedOut ∧
        s.cells.length - (ctaOpenLoop reads (s.cells.drop (64 * i)) buf 0).2.length <
          s.start (j + 1) ∧
        reads.count .bytes + 64 * i < s.start (j + 1) := by
  have hlen := s.length_cells
  have hjlt := (List.getElem?_eq_some_iff.mp hj).1
  have hend : s.start (j + 1) = 64 * (j + 1) := by rw [start, hzero, Nat.zero_add]
  induction reads generalizing i buf with
  | nil =>
    refine .inr ⟨rfl, ?_, by rw [List.count_nil]; omega⟩
    rw [ctaOpenLoop, List.length_drop]
    omega
  | cons r reads ih =>
    rw [List.mem_cons, not_or] at hfailed
    cases r with
    | failed => exact absurd rfl hfailed.1
    | nothing =>
      rw [List.count_cons_of_ne (by decide)]
      exact ih hfailed.2 hi buf
    | bytes =>
      rw [List.count_cons_self]
      have hthere : i < s.messages.length := by omega
      have hmessage := List.getElem?_eq_getElem hthere
      have hplace : s.start i = 64 * i := by rw [start, hzero, Nat.zero_add]
      have hheader := header_start hthere
      rw [hplace] at hheader
      obtain ⟨buf', -, hloop⟩ := @ctaOpenLoop_message s (64 * i) 0 buf rfl (by omega) (by decide)
        hheader
      have hown : s.window (64 * i) 64 = s.message i := by rw [message, hplace]
      rw [Nat.add_zero, hown, map_message hmessage] at hloop
      rw [hloop]
      split
      · next hanswer => exact .inl ⟨i, _, hmessage, hanswer, rfl⟩
      · next hanswer =>
        have hne : i ≠ j := by
          rintro rfl
          rw [hmessage] at hj
          exact hanswer (Option.some.inj hj ▸ hreset)
        refine (ih hfailed.2 (i := i + 1) (by omega) buf').imp_right fun h => ⟨h.1, h.2.1, ?_⟩
        have hcount := h.2.2
        omega

/-- **The answer is found** where there is no garbage, or else where the garbage leaves the first
message whole and this is the answer. -/
theorem recognised (H : s.garbage.length = 0 ∨
      s.Aligned ∧ ∃ m, s.messages[0]? = some m ∧ ctaResetInit m = true)
    (sent : List Cell) (reads : List UsbRead) : s.Recognised sent reads := by
  intro j m hj hreset hfailed
  rcases H with hzero | ⟨hA, m₀, hm₀, hanswer⟩
  · exact opened_of_no_garbage hzero hj hreset hfailed (Nat.zero_le j) sent
  · have hm := (List.getElem?_eq_some_iff.mp hm₀).1
    have hmore : s.garbage.length + 64 ≤ s.start (j + 1) := by rw [start]; omega
    rcases @Searching.reach s hA hm reads hfailed 0 0 0 (.start rfl rfl rfl) sent rfl with
      ⟨htime, htaken, hcount⟩ | ⟨reads', buf', offset', -, -, -, hloop⟩
    · exact .inr ⟨htime, htaken.trans_le hmore, hcount.trans_le hmore⟩
    · rw [map_message hm₀, if_pos hanswer] at hloop
      exact .inl ⟨0, m₀, hm₀, hanswer, congrArg Prod.fst hloop⟩

/-- **Only the first message is found** where the garbage leaves it whole, and more of it than its
header is read with the garbage. -/
theorem recognised_iff (hA : s.Aligned) (hne : s.garbage.length ≠ 63) :
    (∀ sent reads, s.Recognised sent reads) ↔
      ((∃ m ∈ s.messages, ctaResetInit m = true) →
        ∃ m, s.messages[0]? = some m ∧ ctaResetInit m = true) := by
  constructor
  · rintro H ⟨m, hmem, hreset⟩
    obtain ⟨j, hj⟩ := List.getElem?_of_mem hmem
    have hm : 0 < s.messages.length := (Nat.zero_le j).trans_lt (List.getElem?_eq_some_iff.mp hj).1
    have hm₀ := List.getElem?_eq_getElem hm
    refine ⟨_, hm₀, ?_⟩
    by_contra hnot
    have hfailed : UsbRead.failed ∉ List.replicate (s.start (j + 1)) UsbRead.bytes :=
      fun h => nomatch List.eq_of_mem_replicate h
    have hmore : s.garbage.length + 64 ≤ s.start (j + 1) := by rw [start]; omega
    rcases H [] _ j m hj hreset hfailed with ⟨j', m', -, -, hopened⟩ | ⟨-, -, hcount⟩
    · rcases @Searching.reach s hA hm _ hfailed 0 0 0 (.start rfl rfl rfl) [] rfl with
        ⟨-, -, hcount⟩ | ⟨reads', buf', offset', hle, htwo, hbuf', hloop⟩
      · rw [List.count_replicate_self] at hcount
        omega
      · rw [map_message hm₀, if_neg hnot] at hloop
        refine not_opened_of_stuck (htwo hne) hle hm reads' le_rfl hbuf' j' ?_
        rw [← hloop]
        exact hopened
    · rw [List.count_replicate_self] at hcount
      exact absurd hcount (lt_irrefl _)
  · intro H sent reads j m hj hreset hfailed
    have hfirst := H ⟨m, List.mem_of_getElem? hj, hreset⟩
    exact recognised (.inr ⟨hA, hfirst⟩) sent reads j m hj hreset hfailed

/-- **Both loops keep to the messages** in these cases.  What `cta_recv_thread` parses is right
exactly if the garbage fills some reads, or no message is read whole.  What `cta_open` finds is
right without garbage, and after garbage that leaves the first message whole it is that one only. -/
theorem framed_iff (s : Stream) (calls : List Call) :
    (s.ParsedRight calls ↔ 64 ∣ s.garbage.length ∨ s.messages.length ≤ 1 ∨
        64 * delivered calls < s.garbage.length + 64) ∧
      ((s.garbage.length = 0 ∨ s.Aligned ∧ ∃ m, s.messages[0]? = some m ∧ ctaResetInit m = true) →
        ∀ sent reads, s.Recognised sent reads) ∧
      (s.Aligned → s.garbage.length ≠ 63 →
        ((∀ sent reads, s.Recognised sent reads) ↔
          ((∃ m ∈ s.messages, ctaResetInit m = true) →
            ∃ m, s.messages[0]? = some m ∧ ctaResetInit m = true))) :=
  ⟨s.parsedRight_iff calls, recognised, recognised_iff⟩

/-- Two bytes, a message of another type, and the answer to the reset. -/
def late : Stream where
  garbage := [0, 0]
  messages := [[hdr, hdr, 1] ++ List.replicate 61 0, [hdr, hdr, 8, 3] ++ List.replicate 60 0]
  not_header i h := absurd (List.mem_of_getElem? h) (by decide)
  last_ne := by decide
  header := by decide

theorem not_framed_late :
    ¬late.ParsedRight (List.replicate 3 ⟨[], .bytes⟩) ∧
      ¬∀ sent reads, late.Recognised sent reads := by
  constructor
  · rw [parsedRight_iff]
    decide
  · have hA : late.Aligned := .inl ⟨le_rfl, by decide⟩
    rw [recognised_iff hA (by decide)]
    intro H
    obtain ⟨m, hm, hreset⟩ := H ⟨_, List.mem_cons_of_mem _ (List.mem_singleton_self _), by decide⟩
    obtain rfl := Option.some.inj hm
    exact absurd hreset (by decide)

end Stream

end Cointerra
end MassGridMiner

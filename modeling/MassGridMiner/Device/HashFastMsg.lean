import MassGridMiner.Lib.Search
import MassGridMiner.Lib.Windows
import MassGridMiner.Util.Checksum

/-!
# Messages of HashFast devices

A message is a header of eight bytes, the last of which is a checksum, and data.  What a device
sends is read header by header; where the checksum is wrong the bytes that were read are searched
for the next place where a header may start, and only the bytes missing from there on are read.

## Main definitions

* `HashFast.prepareMsg` — the header of a message.
* `HashFast.parseMsg` — the next message.
* `HashFast.receive` — the messages of a stream.
* `HashFast.Framed` — the messages that there are in a stream.
* `HashFast.receive_iff` — they are those that are received.
-/

namespace MassGridMiner
namespace HashFast

/-! ## Checksums -/

/-- An entry of `_crc8ccitt_table`, as `bfg_init_checksums` makes it. -/
def crc8Table (i : UInt8) : UInt8 :=
  (List.range 8).foldl (fun crc _ => (crc <<< 1) ^^^ (if crc &&& 0x80 ≠ 0 then 7 else 0)) i

/-- `crc8ccitt`. -/
def crc8ccitt (buf : List UInt8) : UInt8 := buf.foldl (fun crc c => crc8Table (crc ^^^ c)) 0xff

/-- The checksum of a string that is not too long for the loop. -/
theorem checksum_crc8ccitt {buf : List UInt8} (H : buf.length ≤ 2 ^ 31) :
    Checksum.crc8ccitt buf = some (crc8ccitt buf) := by
  have hentry : ∀ i : UInt8, Checksum.bfgInitChecksums[i.toNat]? = some (crc8Table i) := by
    intro i
    rw [Checksum.bfgInitChecksums, List.getElem?_map, List.getElem?_range i.toNat_lt,
      Option.map_some, UInt8.ofNat_toNat, crc8Table]
  have hfold : ∀ (rest : List UInt8) (crc : UInt8),
      rest.foldlM (fun crc c => Checksum.bfgInitChecksums[(crc ^^^ c).toNat]?) crc =
        some (rest.foldl (fun crc c => crc8Table (crc ^^^ c)) crc) := by
    intro rest
    induction rest with
    | nil => exact fun _ => rfl
    | cons c rest ih =>
      intro crc
      rw [List.foldlM_cons, hentry]
      exact ih _
  rw [Checksum.crc8ccitt, forInt_of_le H, hfold, crc8ccitt]

/-! ## Messages -/

/-- `HASHFAST_HEADER_SIZE`. -/
def headerSize : ℕ := 8

/-- `HASHFAST_MAX_DATA`. -/
def maxData : ℕ := 0x3fc

/-- A `struct hashfast_parsed_msg`, with as many bytes of data as it has. -/
structure ParsedMsg where
  opcode : UInt8
  chipaddr : UInt8
  coreaddr : UInt8
  hdata : UInt16
  data : List UInt8
  deriving DecidableEq

/-- `hashfast_prepare_msg`: the header, if it accepts the length of the data. -/
def prepareMsg (opcode chipaddr coreaddr : UInt8) (hdata : UInt16) (datalen : ℕ) :
    Option (List UInt8) :=
  let buf := [opcode, chipaddr, coreaddr, (hdata &&& 0xff).toUInt8, (hdata >>> 8).toUInt8]
  if 1020 < datalen ∨ datalen % 4 ≠ 0 then none
  else
    let buf := buf ++ [UInt8.ofNat (datalen / 4)]
    some (0xaa :: buf ++ [crc8ccitt buf])

/-- A byte of a header. -/
def byteAt (buf : List UInt8) (i : ℕ) : UInt8 := buf[i]?.getD 0

mutual

/-- `hashfast_parse_msg` from `startover` on, up to a header with the right checksum: the header,
and what is left of the stream. -/
def startover (s : List UInt8) : Option (List UInt8 × List UInt8) :=
  if _h : s.length < headerSize then none
  else
    match memchr 0xaa (s.take headerSize) 0 with
    | some 0 => checkCrc (s.take headerSize) (s.drop headerSize)
    | some (p + 1) =>
      ignoresome (s.take headerSize) (some ⟨p + 1, p.succ_pos⟩) (s.drop headerSize)
    | none => ignoresome (s.take headerSize) none (s.drop headerSize)
termination_by (s.length, 0)
decreasing_by
  all_goals
    refine Prod.Lex.left _ _ ?_
    rw [headerSize] at *
    rw [List.length_drop]
    omega

/-- From `ignoresome` on.  A place that is found is behind the start of the buffer. -/
def ignoresome (buf : List UInt8) (p : Option {p : ℕ // 0 < p}) (s : List UInt8) :
    Option (List UInt8 × List UInt8) :=
  match p with
  | none => startover s
  | some ⟨moreneeded, _h⟩ =>
    if _hread : s.length < moreneeded then none
    else checkCrc (buf.drop moreneeded ++ s.take moreneeded) (s.drop moreneeded)
termination_by (s.length, 1)
decreasing_by
  · exact Prod.Lex.right _ (by decide)
  · refine Prod.Lex.left _ _ ?_
    rw [List.length_drop]
    omega

/-- The check of the checksum. -/
def checkCrc (buf : List UInt8) (s : List UInt8) : Option (List UInt8 × List UInt8) :=
  if byteAt buf 7 = crc8ccitt ((buf.drop 1).take 6) then some (buf, s)
  else
    match h : memchr 0xaa buf 1 with
    | some p => ignoresome buf (some ⟨p, le_of_memchr h⟩) s
    | none => ignoresome buf none s
termination_by (s.length, 2)

end

/-- The length of the data behind a header. -/
def datalen (buf : List UInt8) : ℕ := (byteAt buf 6).toNat * 4

/-- The message with a header and data. -/
def message (buf data : List UInt8) : ParsedMsg where
  opcode := byteAt buf 1
  chipaddr := byteAt buf 2
  coreaddr := byteAt buf 3
  hdata := (byteAt buf 4).toUInt16 ||| ((byteAt buf 5).toUInt16 <<< 8)
  data := data

/-- `hashfast_parse_msg`: the next message, and what is left of the stream. -/
def parseMsg (s : List UInt8) : Option (ParsedMsg × List UInt8) :=
  match startover s with
  | none => none
  | some (buf, s) =>
    if s.length < datalen buf then none
    else some (message buf (s.take (datalen buf)), s.drop (datalen buf))

/-! ## What is in a stream -/

/-- Eight bytes that are a header. -/
def isHeader (w : List UInt8) : Bool :=
  decide (w.length = headerSize ∧ byteAt w 0 = 0xaa ∧ byteAt w 7 = crc8ccitt ((w.drop 1).take 6))

/-- The headers of a stream. -/
def header : Windows.Pattern UInt8 where
  size := headerSize
  size_pos := by decide
  test := isHeader
  length_eq _ h := (of_decide_eq_true h).1

/-- The messages in a stream: behind bytes in which no header starts there is a header with its
data, and then the rest of the messages, until there is no header or not all of its data. -/
inductive Framed : List UInt8 → List ParsedMsg → Prop
  | none {s : List UInt8} (h : ∀ i, ¬header.At s i) : Framed s []
  | cut {s front w behind : List UInt8} (h : header.IsFirst s front w behind)
      (hcut : behind.length < datalen w) : Framed s []
  | message {s front w behind : List UInt8} {ms : List ParsedMsg}
      (h : header.IsFirst s front w behind) (hdata : datalen w ≤ behind.length)
      (hrest : Framed (behind.drop (datalen w)) ms) :
      Framed s (message w (behind.take (datalen w)) :: ms)

/-! ## The first header -/

/-- A header starts with its mark. -/
theorem getElem?_of_at {s : List UInt8} {i : ℕ} (h : header.At s i) : s[i]? = some 0xaa := by
  obtain ⟨hlen, hmark, -⟩ := of_decide_eq_true h
  have hfirst : ((s.drop i).take headerSize)[0]? = s[i]? := by
    rw [List.getElem?_take_of_lt (by decide), List.getElem?_drop, Nat.add_zero]
  rw [byteAt, show ((s.drop i).take header.size)[0]? = s[i]? from hfirst] at hmark
  cases hs : s[i]? with
  | none => rw [hs] at hmark; cases hmark
  | some c => rw [hs] at hmark; exact congrArg some hmark

/-- In bytes without a mark no header starts, whatever comes behind them. -/
theorem not_at_append {buf : List UInt8} {i : ℕ} (hi : i < buf.length)
    (h : buf[i]? ≠ some 0xaa) (s : List UInt8) : ¬header.At (buf ++ s) i := fun hat =>
  h ((List.getElem?_append_left hi).symm.trans (getElem?_of_at hat))

/-- The first header, where it is not to be found in front of a place. -/
theorem first_append_drop {buf : List UInt8} {p : ℕ} (hp : p ≤ buf.length)
    {s : List UInt8} (h : ∀ i < p, ¬header.At (buf ++ s) i) :
    header.first (buf ++ s) = header.first (buf.drop p ++ s) := by
  rw [Windows.Pattern.first_drop h, List.drop_append_of_le_length hp]

/-- What the three parts of the parser do with a stream of some length. -/
structure Searches (n : ℕ) : Prop where
  startover : ∀ s : List UInt8, s.length = n → startover s = header.first s
  ignoresome : ∀ (buf s : List UInt8) (p : {p : ℕ // 0 < p}), s.length = n →
    buf.length = headerSize → buf[p.1]? = some 0xaa →
    ignoresome buf (some p) s = header.first (buf.drop p.1 ++ s)
  checkCrc : ∀ buf s : List UInt8, s.length = n → buf.length = headerSize →
    buf[0]? = some 0xaa → checkCrc buf s = header.first (buf ++ s)

section
variable {n : ℕ} (ih : ∀ m < n, Searches m) {buf s : List UInt8} (hs : s.length = n)
include ih hs

/-- Only the bytes missing behind a mark are read. -/
theorem ignoresome_eq (hbuf : buf.length = headerSize) (p : {p : ℕ // 0 < p})
    (hp : buf[p.1]? = some 0xaa) :
    ignoresome buf (some p) s = header.first (buf.drop p.1 ++ s) := by
  obtain ⟨p, hpos⟩ := p
  have hlt : p < buf.length := (List.getElem?_eq_some_iff.mp hp).1
  rw [ignoresome]
  split
  · next hread =>
    have hshort : (buf.drop p ++ s).length < header.size := by
      rw [List.length_append, List.length_drop, hbuf]
      exact (by omega : headerSize - p + s.length < headerSize)
    exact (Windows.Pattern.first_eq_none header hshort).symm
  · next hread =>
    have hlen : (buf.drop p ++ s.take p).length = headerSize := by
      rw [List.length_append, List.length_drop, List.length_take, hbuf]
      omega
    have hmark : (buf.drop p ++ s.take p)[0]? = some 0xaa := by
      rw [List.getElem?_append_left (by rw [List.length_drop]; omega), List.getElem?_drop]
      exact hp
    have hless : (s.drop p).length < n := by
      rw [List.length_drop]
      omega
    rw [(ih _ hless).checkCrc _ _ rfl hlen hmark, List.append_assoc, List.take_append_drop]

/-- The search starts over behind bytes in which there is no mark, or goes on from the first. -/
theorem startover_eq : startover s = header.first s := by
  rw [startover]
  split
  · next hread => exact (Windows.Pattern.first_eq_none header hread).symm
  · next hread =>
    have hread : headerSize ≤ s.length := Nat.le_of_not_lt hread
    have hlen : (s.take headerSize).length = headerSize := by
      rw [List.length_take]
      omega
    have hless : (s.drop headerSize).length < n := by
      have hpos : 0 < headerSize := by decide
      rw [List.length_drop]
      omega
    have hsplit := List.take_append_drop headerSize s
    split
    · next hp =>
      rw [(ih _ hless).checkCrc _ _ rfl hlen (getElem?_of_memchr hp), hsplit]
    · next p hp =>
      have hmark := getElem?_of_memchr hp
      have hlt := lt_of_memchr hp
      rw [(ih _ hless).ignoresome _ _ _ rfl hlen hmark, ← first_append_drop hlt.le ?_, hsplit]
      exact fun i hi => not_at_append (hi.trans hlt)
        (getElem?_ne_of_memchr hp (Nat.zero_le i) hi) _
    · next hp =>
      have hnone : 0xaa ∉ s.take headerSize := by
        have h := memchr_eq_none_iff.mp hp
        rwa [List.drop_zero] at h
      rw [ignoresome, (ih _ hless).startover _ rfl]
      refine (Windows.Pattern.first_drop fun i hi hat => ?_).symm
      rw [← hsplit] at hat
      exact not_at_append (hi.trans_eq hlen.symm)
        (fun hmark => hnone (List.mem_of_getElem? hmark)) _ hat

/-- Where the checksum is wrong the search goes on behind the mark. -/
theorem checkCrc_eq (hbuf : buf.length = headerSize) (hmark : buf[0]? = some 0xaa) :
    checkCrc buf s = header.first (buf ++ s) := by
  rw [checkCrc]
  split
  · next hcrc =>
    have hheader : isHeader buf = true :=
      decide_eq_true ⟨hbuf, by rw [byteAt, hmark, Option.getD_some], hcrc⟩
    exact (Windows.Pattern.first_append (p := header) hheader).symm
  · next hcrc =>
    have hzero : ¬header.At (buf ++ s) 0 := by
      intro hat
      obtain ⟨-, -, h⟩ := of_decide_eq_true hat
      rw [List.drop_zero, show header.size = buf.length from hbuf.symm, List.take_left] at h
      exact hcrc h
    split
    · next p hp =>
      have hlt := lt_of_memchr hp
      rw [ignoresome_eq ih hs hbuf _ (getElem?_of_memchr hp), first_append_drop hlt.le]
      rintro (_ | i) hi
      · exact hzero
      · exact not_at_append (hi.trans hlt) (getElem?_ne_of_memchr hp (Nat.succ_pos i) hi) _
    · next hp =>
      have hnone := memchr_eq_none_iff.mp hp
      rw [ignoresome, startover_eq ih hs, first_append_drop le_rfl, List.drop_length,
        List.nil_append]
      rintro (_ | i) hi
      · exact hzero
      · refine not_at_append hi (fun hmark => hnone ?_) _
        rw [← Nat.add_comm 1 i, ← List.getElem?_drop] at hmark
        exact List.mem_of_getElem? hmark

end

/-- The parser finds the first header. -/
theorem searches (n : ℕ) : Searches n := by
  induction n using Nat.strong_induction_on with
  | _ n ih =>
    exact ⟨fun s hs => startover_eq ih hs,
      fun buf s p hs hbuf hp => ignoresome_eq ih hs hbuf p hp,
      fun buf s hs hbuf hmark => checkCrc_eq ih hs hbuf hmark⟩

/-! ## Messages one after the other -/

theorem startover_eq_first (s : List UInt8) : startover s = header.first s :=
  (searches s.length).startover s rfl

/-- The data of a message fits where it is read to. -/
theorem datalen_le (buf : List UInt8) : datalen buf ≤ maxData := by
  have hlt := (byteAt buf 6).toNat_lt
  rw [datalen, maxData]
  omega

section
variable {s front w behind : List UInt8}

theorem parseMsg_none (h : ∀ i, ¬header.At s i) : parseMsg s = none := by
  have hnone : header.first s = none := by
    rcases header.first_cases s with ⟨hnone, -⟩ | ⟨front, w, behind, -, hfirst⟩
    · exact hnone
    · refine absurd ?_ (h front.length)
      have hlen := header.length_eq w hfirst.test
      rw [Windows.Pattern.At, hfirst.eq, List.append_assoc, List.drop_left, ← hlen, List.take_left]
      exact hfirst.test
  rw [parseMsg, startover_eq_first, hnone]

/-- The next message is the first header, with its data. -/
theorem parseMsg_isFirst (h : header.IsFirst s front w behind) : parseMsg s =
    if behind.length < datalen w then none
    else some (message w (behind.take (datalen w)), behind.drop (datalen w)) := by
  rw [parseMsg, startover_eq_first, h.first]

theorem length_of_parseMsg {msg : ParsedMsg} {rest : List UInt8}
    (h : parseMsg s = some (msg, rest)) : rest.length < s.length := by
  rcases header.first_cases s with ⟨-, hnone⟩ | ⟨front, w, behind, -, hfirst⟩
  · rw [parseMsg_none hnone] at h
    cases h
  · rw [parseMsg_isFirst hfirst] at h
    split at h
    · cases h
    · obtain ⟨-, rfl⟩ := Prod.mk.inj (Option.some.inj h)
      have hlen : w.length = headerSize := header.length_eq w hfirst.test
      rw [hfirst.eq, List.length_append, List.length_append, List.length_drop, hlen, headerSize]
      omega

end

/-- The messages that `hashfast_parse_msg` returns call after call, until it fails. -/
def receive (s : List UInt8) : List ParsedMsg :=
  match _h : parseMsg s with
  | none => []
  | some (msg, rest) => msg :: receive rest
termination_by s.length
decreasing_by exact length_of_parseMsg _h

theorem receive_of_none {s : List UInt8} (h : parseMsg s = none) : receive s = [] := by
  rw [receive]
  split
  · rfl
  · next hsome => rw [h] at hsome; cases hsome

theorem receive_of_some {s rest : List UInt8} {msg : ParsedMsg}
    (h : parseMsg s = some (msg, rest)) : receive s = msg :: receive rest := by
  rw [receive]
  split
  · next hnone => rw [h] at hnone; cases hnone
  · next hsome =>
    obtain ⟨rfl, rfl⟩ := Prod.mk.inj (Option.some.inj (h.symm.trans hsome))
    rfl

/-- What is in a stream is received. -/
theorem Framed.receive {s : List UInt8} {ms : List ParsedMsg} (h : Framed s ms) :
    receive s = ms := by
  induction h with
  | none h => exact receive_of_none (parseMsg_none h)
  | cut h hcut => exact receive_of_none ((parseMsg_isFirst h).trans (if_pos hcut))
  | message h hdata _ ih =>
    rw [receive_of_some ((parseMsg_isFirst h).trans (if_neg (by omega))), ih]

/-- What is received is in the stream. -/
theorem framed_receive (s : List UInt8) : Framed s (receive s) := by
  induction hn : s.length using Nat.strong_induction_on generalizing s with
  | _ n ih =>
    rcases header.first_cases s with ⟨-, hnone⟩ | ⟨front, w, behind, -, hfirst⟩
    · rw [receive_of_none (parseMsg_none hnone)]
      exact .none hnone
    · have hparse := parseMsg_isFirst hfirst
      by_cases hcut : behind.length < datalen w
      · rw [if_pos hcut] at hparse
        rw [receive_of_none hparse]
        exact .cut hfirst hcut
      · rw [if_neg hcut] at hparse
        rw [receive_of_some hparse]
        exact .message hfirst (by omega) (ih _ (hn ▸ length_of_parseMsg hparse) _ rfl)

/-! ## Messages that are sent -/

/-- The two bytes of a number make it up. -/
theorem hdata_eq (x : UInt16) :
    (x &&& 0xff).toUInt8.toUInt16 ||| ((x >>> 8).toUInt8.toUInt16 <<< 8) = x := by
  have hx := x.toNat_lt
  have hlow : (x &&& 0xff).toUInt8.toUInt16.toNat = x.toNat % 256 := by
    have hmask := Nat.and_two_pow_sub_one_eq_mod (x.toNat % 256) 8
    simpa using hmask
  have hhigh : ((x >>> 8).toUInt8.toUInt16 <<< 8).toNat = x.toNat / 256 * 256 := by
    simp [Nat.shiftRight_eq_div_pow, Nat.shiftLeft_eq]
    omega
  have hor := Nat.shiftLeft_add_eq_or_of_lt (show x.toNat % 256 < 2 ^ 8 by omega) (x.toNat / 256)
  rw [Nat.shiftLeft_eq] at hor
  rw [← UInt16.toNat_inj, UInt16.toNat_or, hlow, hhigh, Nat.or_comm, ← hor]
  omega

/-- A header that is prepared is one, with the fields that it was prepared from. -/
theorem prepareMsg_spec {opcode chipaddr coreaddr : UInt8} {hdata : UInt16} {len : ℕ}
    {buf : List UInt8} (h : prepareMsg opcode chipaddr coreaddr hdata len = some buf) :
    isHeader buf = true ∧ datalen buf = len ∧
      ∀ data, message buf data = ⟨opcode, chipaddr, coreaddr, hdata, data⟩ := by
  rw [prepareMsg] at h
  split at h
  · cases h
  · next hlen =>
    obtain rfl := Option.some.inj h
    refine ⟨decide_eq_true ⟨rfl, rfl, rfl⟩, ?_, fun data => ?_⟩
    · have hbyte : (UInt8.ofNat (len / 4)).toNat = len / 4 :=
        UInt8.toNat_ofNat_of_lt' (by simp [UInt8.size]; omega)
      show (UInt8.ofNat (len / 4)).toNat * 4 = len
      rw [hbyte]
      omega
    · exact congrArg (fun hdata => ParsedMsg.mk opcode chipaddr coreaddr hdata data)
        (hdata_eq hdata)

/-- What is sent as a message. -/
structure Sent (msg : ParsedMsg) (bytes : List UInt8) : Prop where
  exists_header : ∃ buf, prepareMsg msg.opcode msg.chipaddr msg.coreaddr msg.hdata
    msg.data.length = some buf ∧ bytes = buf ++ msg.data

/-- A message that is sent comes first in what follows it. -/
theorem parseMsg_sent {msg : ParsedMsg} {bytes : List UInt8} (h : Sent msg bytes)
    (rest : List UInt8) : parseMsg (bytes ++ rest) = some (msg, rest) := by
  obtain ⟨buf, hbuf, rfl⟩ := h.exists_header
  obtain ⟨hheader, hlen, hmessage⟩ := prepareMsg_spec hbuf
  have hfirst : header.IsFirst (buf ++ msg.data ++ rest) [] buf (msg.data ++ rest) :=
    ⟨List.append_assoc _ _ _, hheader, fun i hi => absurd hi (Nat.not_lt_zero i)⟩
  rw [parseMsg_isFirst hfirst, hlen, if_neg (by rw [List.length_append]; omega), List.take_left,
    List.drop_left, hmessage]

/-- Messages that are sent one after the other are all received, whatever follows them. -/
theorem receive_sent {msgs : List (ParsedMsg × List UInt8)} (h : ∀ m ∈ msgs, Sent m.1 m.2)
    (rest : List UInt8) :
    receive (msgs.flatMap Prod.snd ++ rest) = msgs.map Prod.fst ++ receive rest := by
  induction msgs with
  | nil => rfl
  | cons m msgs ih =>
      obtain ⟨hm, hmsgs⟩ := List.forall_mem_cons.mp h
      rw [List.flatMap_cons, List.append_assoc, receive_of_some (parseMsg_sent hm _), ih hmsgs]
      rfl

/-- The messages that are received are those that there are in the stream, each behind bytes in
which no header starts; and a message that is prepared is received as it was, with its data. -/
theorem receive_iff :
    (∀ s ms, receive s = ms ↔ Framed s ms) ∧
      ∀ (msg : ParsedMsg) (buf rest : List UInt8),
        prepareMsg msg.opcode msg.chipaddr msg.coreaddr msg.hdata msg.data.length = some buf →
          parseMsg (buf ++ msg.data ++ rest) = some (msg, rest) := by
  refine ⟨fun s ms => ⟨?_, Framed.receive⟩, fun msg buf rest hbuf => ?_⟩
  · rintro rfl
    exact framed_receive s
  · exact parseMsg_sent ⟨buf, hbuf, rfl⟩ rest

/-- A message with four bytes of data is received, and what follows it is left. -/
theorem parseMsg_nonce :
    parseMsg ([0xaa, 0x0a, 0, 1, 0x34, 0x12, 1, 0x94] ++ [5, 6, 7, 8] ++ [0xaa, 0xff]) =
      some (⟨0x0a, 0, 1, 0x1234, [5, 6, 7, 8]⟩, [0xaa, 0xff]) :=
  receive_iff.2 ⟨0x0a, 0, 1, 0x1234, [5, 6, 7, 8]⟩ _ _ (by decide +kernel)

end HashFast
end MassGridMiner

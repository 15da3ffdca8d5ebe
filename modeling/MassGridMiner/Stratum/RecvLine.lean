import MassGridMiner.Lib.CString
import MassGridMiner.Lib.Lines
import MassGridMiner.Lib.Run

/-!
# Reading lines from a pool

`recv_line` collects what a pool sends in `sockbuf` until there is a newline in it, cuts
the first line off with `strtok`, and moves the rest of the buffer to its front.
`strtok` skips newlines before the line, but the rest is looked for as far into the
buffer as the line is long; `faithful_iff` says which calls survive the difference.

## Main definitions

* `Sock`, `Chunk` — the buffer, and what one receive returns.
* `recvLine` — a call.
* `Conn`, `step` — a connection, and the next call on it.
* `Faithful` — the lines returned are the first of the stream, and the buffer goes on
  where they end.
* `KeepsRest` — the condition on a call.
-/

namespace MassGridMiner.RecvLine

/-- `'\n'`. -/
def nl : UInt8 := 10

/-- `RBUFSIZE`. -/
def rbufsize : ℕ := 8192

/-- `RECVSIZE`. -/
def recvsize : ℕ := rbufsize - 4

/-- What a receive returns. -/
structure Chunk where
  text : CStr
  nonempty : 0 < text.length
  length_le : text.length ≤ recvsize

/-- `sockbuf` and its size, which leaves room for the terminator and one byte more, and
for a receive into the buffer itself. -/
structure Sock where
  buf : CStr
  size : ℕ
  room : buf.length + 1 < size
  large : rbufsize ≤ size

/-- The size of the buffer after `recalloc_sock`, from the lengths it holds and is to
take. -/
def recallocSock (size old len : ℕ) : ℕ :=
  let new := old + len + 1
  if new < size then size else new + (rbufsize - new % rbufsize)

theorem lt_recallocSock (size old len : ℕ) : old + len + 1 < recallocSock size old len := by
  have : (old + len + 1) % rbufsize < rbufsize := Nat.mod_lt _ (by decide)
  simp only [recallocSock]
  split <;> omega

theorem le_recallocSock (size old len : ℕ) : size ≤ recallocSock size old len := by
  simp only [recallocSock]
  split <;> omega

namespace Sock

/-- The received text is appended to a buffer made large enough for it. -/
def append (sock : Sock) (chunk : Chunk) : Sock where
  buf := sock.buf.append chunk.text
  size := recallocSock sock.size sock.buf.length chunk.text.length
  room := by
    simpa [CStr.append, CStr.length] using
      lt_recallocSock sock.size sock.buf.length chunk.text.length
  large := sock.large.trans (le_recallocSock ..)

/-- The buffer with a string in it that is no longer. -/
def replace (sock : Sock) (buf : CStr) (H : buf.length ≤ sock.buf.length) : Sock :=
  { sock with buf := buf, room := by have := sock.room; omega }

end Sock

/-- The buffer of a new connection. -/
def Sock.init : Sock where
  buf := .empty
  size := rbufsize
  room := by decide
  large := le_rfl

/-- Receive until there is a newline in the buffer; none if that never comes. -/
def fill (sock : Sock) : List Chunk → Option (Sock × List Chunk)
  | [] => if nl ∈ sock.buf.bytes then some (sock, []) else none
  | chunk :: rest =>
    if nl ∈ sock.buf.bytes then some (sock, chunk :: rest) else fill (sock.append chunk) rest

/-- `strtok` of a buffer, which skips newlines, takes the text up to the next one and
writes a NUL over that.  With the text, the buffer as it is left. -/
def strtok (buf : List UInt8) : Option (List UInt8 × List UInt8) :=
  let start := buf.dropWhile (· == nl)
  if start = [] then none
  else
    let tok := start.takeWhile (· != nl)
    let mem := match start.dropWhile (· != nl) with
      | [] => buf
      | _ :: rest => buf.takeWhile (· == nl) ++ tok ++ 0 :: rest
    some (tok, mem)

/-- What `sockbuf` holds after the first `len` bytes and the newline are moved away. -/
def moved (buflen len : ℕ) (mem : List UInt8) : CStr :=
  if buflen > len + 1 then .ofMem (mem.drop (len + 1)) else .empty

theorem strtok_length {buf tok mem : List UInt8} (H : strtok buf = some (tok, mem)) :
    mem.length = buf.length := by
  simp only [strtok] at H
  split at H
  · simp at H
  · simp only [Option.some.injEq, Prod.mk.injEq] at H
    obtain ⟨-, rfl⟩ := H
    split
    · rfl
    · rename_i x rest htail
      have hlead := congrArg List.length (Lines.lead_append_strip nl buf)
      have hword := congrArg List.length (Lines.word_append_tail nl (Lines.strip nl buf))
      simp only [Lines.lead, Lines.strip, Lines.word, Lines.tail, htail, List.length_append,
        List.length_cons] at hlead hword ⊢
      omega

theorem moved_length_le (buflen len : ℕ) (mem : List UInt8) :
    (moved buflen len mem).length ≤ mem.length := by
  rw [moved]
  split
  · exact (CStr.ofMem_length_le _).trans (by simp)
  · exact Nat.zero_le _

/-- `recv_line`, where every wait finds data before its timeout: the line, if any, the
buffer and what is still to come.  A call without a line drops the buffer and the chunks
that have arrived, `arrived` of them. -/
def recvLine (sock : Sock) (chunks : List Chunk) (arrived : ℕ) :
    Option (Option (List UInt8) × Sock × List Chunk) :=
  (fill sock chunks).map fun (sock, chunks) =>
    match H : strtok sock.buf.bytes with
    | none => (none, sock.replace .empty (CStr.empty_length_le _), chunks.drop arrived)
    | some (tok, mem) =>
      (some tok, sock.replace (moved sock.buf.length tok.length mem)
        ((moved_length_le ..).trans (strtok_length H).le), chunks)

/-- A connection: the buffer and what is still to come, and with them the whole stream and
the lines returned so far. -/
structure Conn where
  sock : Sock
  chunks : List Chunk
  stream : List UInt8
  returned : List (List UInt8)

/-- What is still to come. -/
def incoming (chunks : List Chunk) : List UInt8 := chunks.flatMap (·.text.bytes)

/-- A new connection, over which the pool will send these chunks. -/
def Conn.init (chunks : List Chunk) : Conn where
  sock := .init
  chunks := chunks
  stream := incoming chunks
  returned := []

/-- The next call; `arrived` is how many chunks wait when it drops what has arrived. -/
def step (c : Conn) (arrived : ℕ) : Option Conn :=
  (recvLine c.sock c.chunks arrived).map fun (line, sock, chunks) =>
    { c with sock := sock, chunks := chunks, returned := c.returned ++ line.toList }

/-- The lines returned are the first lines of the stream, and the buffer, followed by what
is still to come, is the rest of it, up to newlines in front. -/
def Faithful (c : Conn) : Prop :=
  ∃ rest, Lines.read nl c.returned.length c.stream = some (c.returned, rest) ∧
    Lines.strip nl rest = Lines.strip nl (c.sock.buf.bytes ++ incoming c.chunks)

/-- The bytes of the buffer that are kept where newlines come before the line: as many as
the line is long, and one, are lost from the front. -/
def keptAfter (buf line : List UInt8) : List UInt8 :=
  (Lines.lead nl buf ++ line).drop (line.length + 1)

/-- The call finds a buffer that begins with a line; or one of newlines alone, and only
newlines are dropped with it; or one in which what is kept happens to be what follows the
line. -/
def KeepsRest (c : Conn) (arrived : ℕ) : Prop :=
  ∀ sock chunks, fill c.sock c.chunks = some (sock, chunks) →
    match Lines.next nl sock.buf.bytes with
    | none => ∀ x ∈ incoming (chunks.take arrived), x = nl
    | some (line, after) => Lines.lead nl sock.buf.bytes = [] ∨
        Lines.strip nl (keptAfter sock.buf.bytes line) = Lines.strip nl after ∧
          (after = [] → Lines.word nl (incoming chunks) = [])

/-! ### One call -/

theorem incoming_cons (chunk : Chunk) (chunks : List Chunk) :
    incoming (chunk :: chunks) = chunk.text.bytes ++ incoming chunks := rfl

theorem incoming_take_append_drop (n : ℕ) (chunks : List Chunk) :
    incoming (chunks.take n) ++ incoming (chunks.drop n) = incoming chunks := by
  rw [incoming, incoming, ← List.flatMap_append, List.take_append_drop, incoming]

/-- Receiving moves bytes into the buffer, until there is a newline in it. -/
theorem fill_spec {sock sock' : Sock} {chunks chunks' : List Chunk}
    (H : fill sock chunks = some (sock', chunks')) :
    sock'.buf.bytes ++ incoming chunks' = sock.buf.bytes ++ incoming chunks ∧
      nl ∈ sock'.buf.bytes := by
  induction chunks generalizing sock with
  | nil =>
      simp only [fill] at H
      split at H
      · simp only [Option.some.injEq, Prod.mk.injEq] at H
        obtain ⟨rfl, rfl⟩ := H
        exact ⟨rfl, ‹_›⟩
      · simp at H
  | cons chunk rest ih =>
      simp only [fill] at H
      split at H
      · simp only [Option.some.injEq, Prod.mk.injEq] at H
        obtain ⟨rfl, rfl⟩ := H
        exact ⟨rfl, ‹_›⟩
      · obtain ⟨heq, hnl⟩ := ih H
        refine ⟨?_, hnl⟩
        rw [heq, incoming_cons, ← List.append_assoc]
        rfl

theorem strtok_eq_none_iff {buf : List UInt8} : strtok buf = none ↔ Lines.next nl buf = none := by
  simp [strtok, Lines.next, Lines.strip]

/-- The text that is cut off is the first line, and a NUL stands where its newline was. -/
theorem strtok_spec {buf tok mem : List UInt8} (H : strtok buf = some (tok, mem)) :
    ∃ after, Lines.next nl buf = some (tok, after) ∧ nl ∉ tok ∧
      buf = Lines.lead nl buf ++ tok ++ after ∧
      mem = Lines.lead nl buf ++ tok ++ (match after with | [] => [] | _ :: rest => 0 :: rest) := by
  have hsplit := Lines.lead_append_strip nl buf
  have hword := Lines.word_append_tail nl (Lines.strip nl buf)
  simp only [strtok] at H
  split at H
  · simp at H
  · rename_i hne
    simp only [Option.some.injEq, Prod.mk.injEq] at H
    obtain ⟨htok, hmem⟩ := H
    have htok' : Lines.word nl (Lines.strip nl buf) = tok := htok
    have hbuf : buf = Lines.lead nl buf ++ tok ++ Lines.tail nl (Lines.strip nl buf) := by
      rw [List.append_assoc, ← htok', hword, hsplit]
    refine ⟨Lines.tail nl (Lines.strip nl buf), ?_, ?_, hbuf, ?_⟩
    · rw [Lines.next, if_neg (by exact hne), htok']
    · intro hmem
      rw [← htok] at hmem
      simpa using List.mem_takeWhile_imp (p := (· != nl)) hmem
    · have hmem' : mem = match Lines.tail nl (Lines.strip nl buf) with
          | [] => buf
          | _ :: rest => Lines.lead nl buf ++ tok ++ 0 :: rest := by
        rw [← hmem, ← htok]
        rfl
      cases htail : Lines.tail nl (Lines.strip nl buf) with
      | nil =>
          rw [htail] at hbuf hmem'
          rw [hmem', ← hbuf]
      | cons x rest => rw [hmem', htail]

/-- A buffer that begins with a line holds afterwards what follows the newline. -/
theorem bytes_moved_of_line_first {tok rest : List UInt8} {x : UInt8} (hnul : 0 ∉ rest) :
    (moved (tok ++ x :: rest).length tok.length (tok ++ 0 :: rest)).bytes = rest := by
  have hdrop : (tok ++ 0 :: rest).drop (tok.length + 1) = rest := by simp [List.drop_append]
  rw [moved]
  split
  · rw [hdrop, CStr.bytes_ofMem hnul]
  · rename_i hle
    have : rest = [] := List.eq_nil_of_length_eq_zero (by
      simp only [List.length_append, List.length_cons] at hle
      omega)
    rw [this]
    rfl

/-- A buffer that begins with newlines holds afterwards bytes of these and of the line. -/
theorem bytes_moved_of_newlines_first {lead tok after : List UInt8} (hlead : lead ≠ [])
    (hnul : 0 ∉ lead ++ tok) :
    (moved (lead ++ tok ++ after).length tok.length
      (lead ++ tok ++ (match after with | [] => [] | _ :: rest => 0 :: rest))).bytes =
      (lead ++ tok).drop (tok.length + 1) := by
  have hpos := List.length_pos_iff.mpr hlead
  have hle : tok.length + 1 ≤ (lead ++ tok).length := by
    rw [List.length_append]
    omega
  have hkept : 0 ∉ (lead ++ tok).drop (tok.length + 1) := fun h => hnul (List.mem_of_mem_drop h)
  rw [moved]
  split
  · rw [List.drop_append_of_le_length hle]
    cases after with
    | nil => rw [List.append_nil, CStr.bytes_ofMem hkept]
    | cons x rest => rw [CStr.bytes_ofMem_append_nul hkept]
  · rename_i hshort
    simp only [List.length_append] at hshort
    have hnil : (lead ++ tok).drop (tok.length + 1) = [] := List.drop_eq_nil_of_le (by
      rw [List.length_append]
      omega)
    rw [hnil]
    rfl

/-- What a call with a line leaves in the buffer. -/
theorem bytes_moved {buf : CStr} {tok mem after : List UInt8} (hnl : nl ∈ buf.bytes)
    (H : strtok buf.bytes = some (tok, mem)) (hnext : Lines.next nl buf.bytes = some (tok, after)) :
    if Lines.lead nl buf.bytes = [] then
      ∃ rest, after = nl :: rest ∧ (moved buf.length tok.length mem).bytes = rest
    else (moved buf.length tok.length mem).bytes = keptAfter buf.bytes tok := by
  obtain ⟨after', hnext', hline, hbuf, hmem⟩ := strtok_spec H
  obtain rfl : after' = after := by
    rw [hnext, Option.some.injEq, Prod.mk.injEq] at hnext'
    exact hnext'.2.symm
  have hfree := buf.nul_free
  split_ifs with hlead
  · rw [hlead, List.nil_append] at hbuf hmem
    cases after' with
    | nil =>
        rw [hbuf, List.append_nil] at hnl
        exact absurd hnl hline
    | cons x rest =>
        have hx : x = nl := by
          have := Lines.head_of_next nl hnext
          simpa using this
        subst hx
        refine ⟨rest, rfl, ?_⟩
        rw [hbuf] at hfree
        have hlen : buf.length = (tok ++ nl :: rest).length := by rw [CStr.length, ← hbuf]
        rw [hlen, hmem]
        exact bytes_moved_of_line_first fun h => hfree (by simp [h])
  · have hlen : buf.length = (Lines.lead nl buf.bytes ++ tok ++ after').length := by
      rw [CStr.length, ← hbuf]
    rw [hlen, hmem]
    refine bytes_moved_of_newlines_first hlead fun h => hfree ?_
    rw [hbuf]
    exact List.mem_append_left _ h

/-! ### Calls on a connection -/

theorem faithful_init (chunks : List Chunk) : Faithful (Conn.init chunks) :=
  ⟨incoming chunks, rfl, rfl⟩

/-- Where the connection is faithful so far, a call without a line leaves it so exactly if
the stream goes on, up to newlines, with what the call leaves. -/
theorem faithful_without_line {c c' : Conn} {xs : List UInt8} (H : Faithful c)
    (hxs : c.sock.buf.bytes ++ incoming c.chunks = xs)
    (hstream : c'.stream = c.stream) (hreturned : c'.returned = c.returned) :
    Faithful c' ↔
      Lines.strip nl xs = Lines.strip nl (c'.sock.buf.bytes ++ incoming c'.chunks) := by
  obtain ⟨rest, hread, hrest⟩ := H
  rw [hxs] at hrest
  rw [Faithful]
  rw [hstream, hreturned, hread, ← hrest]
  simp

/-- With a line, that line has to be the next one of the stream. -/
theorem faithful_with_line {c c' : Conn} {xs : List UInt8} (line : List UInt8) (H : Faithful c)
    (hxs : c.sock.buf.bytes ++ incoming c.chunks = xs)
    (hstream : c'.stream = c.stream) (hreturned : c'.returned = c.returned ++ [line]) :
    Faithful c' ↔ ∃ rest, Lines.next nl xs = some (line, rest) ∧
      Lines.strip nl rest = Lines.strip nl (c'.sock.buf.bytes ++ incoming c'.chunks) := by
  obtain ⟨rest, hread, hrest⟩ := H
  rw [hxs] at hrest
  rw [Faithful]
  rw [hstream, hreturned, List.length_append, List.length_singleton, Lines.read_succ, hread,
    Option.bind_some, Lines.next_congr nl hrest]
  cases Lines.next nl xs with
  | none => simp
  | some p =>
      obtain ⟨l, r⟩ := p
      simp only [Option.map_some, Option.some.injEq, Prod.mk.injEq, List.append_cancel_left_eq,
        List.cons.injEq, and_true]

/-- The three outcomes of the look for the next line, when newlines came before the one
that was cut off. -/
theorem next_kept_iff {buf line after kept rest : List UInt8}
    (hnext : Lines.next nl buf = some (line, after)) :
    (∃ r, Lines.next nl (buf ++ rest) = some (line, r) ∧
        Lines.strip nl r = Lines.strip nl (kept ++ rest)) ↔
      Lines.strip nl kept = Lines.strip nl after ∧ (after = [] → Lines.word nl rest = []) := by
  by_cases hafter : after = []
  · subst hafter
    rw [Lines.next_append_of_tail_nil nl hnext]
    constructor
    · rintro ⟨r, hr, hstrip⟩
      simp only [Option.some.injEq, Prod.mk.injEq, List.append_right_eq_self] at hr
      obtain ⟨hword, rfl⟩ := hr
      rw [Lines.tail_of_word_nil nl hword] at hstrip
      exact ⟨((Lines.strip_append_inj nl [] kept).mp hstrip).symm,
        fun _ => hword⟩
    · rintro ⟨hstrip, hword⟩
      rw [hword rfl, List.append_nil, Lines.tail_of_word_nil nl (hword rfl)]
      exact ⟨rest, rfl, ((Lines.strip_append_inj nl kept []).mpr hstrip).symm⟩
  · rw [Lines.next_append nl hnext hafter]
    constructor
    · rintro ⟨r, hr, hstrip⟩
      simp only [Option.some.injEq, Prod.mk.injEq, true_and] at hr
      subst hr
      exact ⟨((Lines.strip_append_inj nl _ _).mp hstrip).symm, fun h => absurd h hafter⟩
    · rintro ⟨hstrip, -⟩
      exact ⟨after ++ rest, rfl, ((Lines.strip_append_inj nl _ _).mpr hstrip).symm⟩

/-- **One call.**  A faithful connection stays so exactly where the condition holds. -/
theorem faithful_step_iff {c c' : Conn} {arrived : ℕ} (H : Faithful c)
    (hstep : step c arrived = some c') : Faithful c' ↔ KeepsRest c arrived := by
  obtain ⟨⟨line, sock', chunks'⟩, hrecv, rfl⟩ := Option.map_eq_some_iff.mp hstep
  obtain ⟨⟨sock, chunks⟩, hfill, hcut⟩ := Option.map_eq_some_iff.mp hrecv
  obtain ⟨hxs, hnl⟩ := fill_spec hfill
  have hkeeps : KeepsRest c arrived ↔
      match Lines.next nl sock.buf.bytes with
      | none => ∀ x ∈ incoming (chunks.take arrived), x = nl
      | some (line, after) => Lines.lead nl sock.buf.bytes = [] ∨
          Lines.strip nl (keptAfter sock.buf.bytes line) = Lines.strip nl after ∧
            (after = [] → Lines.word nl (incoming chunks) = []) := by
    rw [KeepsRest]
    rw [hfill]
    simp only [Option.some.injEq, Prod.mk.injEq, and_imp, forall_eq', forall_apply_eq_imp_iff]
  rw [hkeeps]
  simp only at hcut
  split at hcut
  · rename_i hnone
    simp only [Prod.mk.injEq] at hcut
    obtain ⟨rfl, rfl, rfl⟩ := hcut
    rw [strtok_eq_none_iff] at hnone
    have hempty := (Lines.next_eq_none_iff nl).mp hnone
    refine Iff.trans (faithful_without_line H hxs.symm ?_ ?_) ?_
    · rfl
    · exact List.append_nil _
    rw [hnone]
    have hstrip : Lines.strip nl (sock.buf.bytes ++ incoming chunks) =
        Lines.strip nl (incoming (chunks.take arrived) ++ incoming (chunks.drop arrived)) := by
      rw [Lines.strip_append, if_pos hempty, incoming_take_append_drop]
    rw [hstrip]
    exact (Lines.strip_append_inj nl _ []).trans (Lines.strip_eq_nil_iff nl)
  · rename_i tok mem htok
    simp only [Prod.mk.injEq] at hcut
    obtain ⟨rfl, rfl, rfl⟩ := hcut
    obtain ⟨after, hnext, -⟩ := strtok_spec htok
    have hmoved := bytes_moved hnl htok hnext
    refine Iff.trans (faithful_with_line tok H hxs.symm ?_ ?_) ?_
    · rfl
    · rfl
    rw [hnext]
    simp only [Sock.replace]
    split_ifs at hmoved with hlead
    · obtain ⟨rest, rfl, hmoved⟩ := hmoved
      rw [hmoved]
      simp only [hlead, true_or, iff_true]
      refine ⟨_, Lines.next_append nl hnext (by simp), ?_⟩
      rw [List.cons_append, Lines.strip_cons_self]
    · rw [hmoved, next_kept_iff hnext]
      simp only [hlead, false_or]

/-- **The lines returned are those of the stream, and the buffer its rest, after every call
of a run, exactly where every call meets the condition**, however the stream is cut into
chunks. -/
theorem faithful_iff (chunks : List Chunk) (calls : List ℕ) :
    Run.AllSteps step (fun _ _ c' => Faithful c') (Conn.init chunks) calls ↔
      Run.AllSteps step (fun c arrived _ => KeepsRest c arrived) (Conn.init chunks) calls := by
  refine Run.allSteps_congr (I := Faithful) ?_ ?_ calls (faithful_init chunks)
  · exact fun c arrived c' H hs => faithful_step_iff H hs
  · exact fun c arrived c' _ _ H => H

/-- Without blank lines a call leaves a stream without blank lines, and meets the
condition. -/
theorem noBlank_step {c c' : Conn} {arrived : ℕ}
    (H : Lines.NoBlank nl (c.sock.buf.bytes ++ incoming c.chunks))
    (hstep : step c arrived = some c') :
    Lines.NoBlank nl (c'.sock.buf.bytes ++ incoming c'.chunks) ∧ KeepsRest c arrived := by
  obtain ⟨⟨line, sock', chunks'⟩, hrecv, rfl⟩ := Option.map_eq_some_iff.mp hstep
  obtain ⟨⟨sock, chunks⟩, hfill, hcut⟩ := Option.map_eq_some_iff.mp hrecv
  obtain ⟨hxs, hnl⟩ := fill_spec hfill
  rw [← hxs] at H
  have hlead := H.lead_nil
  have hne : Lines.next nl sock.buf.bytes ≠ none := by
    rw [Ne, Lines.next_eq_none_iff]
    intro hempty
    have := Lines.lead_append_strip nl sock.buf.bytes
    rw [hlead, hempty] at this
    simp [← this] at hnl
  refine ⟨?_, ?_⟩
  · simp only at hcut
    split at hcut
    · rename_i hnone
      exact absurd (strtok_eq_none_iff.mp hnone) hne
    · rename_i tok mem htok
      simp only [Prod.mk.injEq] at hcut
      obtain ⟨rfl, rfl, rfl⟩ := hcut
      obtain ⟨after, hnext, -, hbuf, -⟩ := strtok_spec htok
      have hmoved := bytes_moved hnl htok hnext
      rw [if_pos hlead] at hmoved
      obtain ⟨rest, rfl, hmoved⟩ := hmoved
      rw [hlead, List.nil_append] at hbuf
      rw [hbuf, List.append_assoc] at H
      simp only [Sock.replace, hmoved]
      exact H.rest
  · intro s cs hs
    rw [hfill, Option.some.injEq, Prod.mk.injEq] at hs
    obtain ⟨rfl, rfl⟩ := hs
    cases hnext : Lines.next nl sock.buf.bytes with
    | none => exact absurd hnext hne
    | some p => exact .inl hlead

/-- **A stream without blank lines is read line by line**, however it is cut into chunks and
however often `recv_line` is called. -/
theorem faithful_of_noBlank {chunks : List Chunk} (H : Lines.NoBlank nl (incoming chunks))
    (calls : List ℕ) :
    Run.AllSteps step (fun _ _ c' => Faithful c') (Conn.init chunks) calls := by
  refine Run.allSteps_of_invariant
    (I := fun c => Faithful c ∧ Lines.NoBlank nl (c.sock.buf.bytes ++ incoming c.chunks))
    ?_ calls ⟨faithful_init chunks, H⟩
  rintro c arrived c' ⟨hfaithful, hblank⟩ hs
  obtain ⟨hblank', hkeeps⟩ := noBlank_step hblank hs
  have hfaithful' := (faithful_step_iff hfaithful hs).mpr hkeeps
  exact ⟨⟨hfaithful', hblank'⟩, hfaithful'⟩

/-- A newline, and the lines `ab` and `cd`, in one chunk. -/
def blankFirst : Chunk where
  text := ⟨[10, 97, 98, 10, 99, 100, 10], by decide⟩
  nonempty := by decide
  length_le := by decide

/-- The first call returns `ab` and loses `cd`. -/
theorem not_faithful_blankFirst :
    ¬ Run.AllSteps step (fun _ _ c' => Faithful c') (Conn.init [blankFirst]) [0] := by
  intro H
  obtain ⟨rest, hread, hstrip⟩ := (H _ rfl).1
  have hfirst : Lines.read nl 1 [10, 97, 98, 10, 99, 100, 10] =
      some ([[97, 98]], [10, 99, 100, 10]) := by decide
  obtain rfl : [10, 99, 100, 10] = rest :=
    congrArg Prod.snd (Option.some.inj (hfirst.symm.trans hread))
  revert hstrip
  decide

end MassGridMiner.RecvLine

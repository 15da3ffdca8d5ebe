import MassGridMiner.Lib.Double
import MassGridMiner.Lib.Format
import MassGridMiner.Lib.Hex
import MassGridMiner.Lib.StringBuffer

/-!
# The log of shares

A reason for which the pool rejects a share is put in parentheses, cut off where its buffer ends,
and without them behind a colon into the disposition.  The line that is logged is formatted into a
buffer of its own, and written with the number of bytes that it would have needed.

## Main definitions

* `putInParens`, `disposition`, `sharelog` — the functions, with what they write to.
* `LogsSafely` — no byte is written or read outside.
* `logsSafely_iff` — so it is exactly where the line is not too long.
-/

namespace MassGridMiner

open CStr Bytes

/-- A number as a `size_t`. -/
def sizeT (x : ℤ) : ℤ := x % 2 ^ 64

/-- `put_in_parens`, for a buffer of so many bytes. -/
def putInParens {n : ℕ} (buf : Bytes n) : Option CStr → Option (Bytes n × ℤ)
  | none => if n ≠ 0 then (buf.poke 0 0).map fun buf => (buf, 0) else some (buf, 0)
  | some s => do
    let (buf, p) ← buf.snprintf 0 n (literal " (" ++ s.bytes)
    let p := if sizeT (n - 1) ≤ sizeT p then (n - 2 : ℤ) else p
    if p < 0 then none
    else
      let buf ← buf.strcpy p.toNat (.ofMem (literal ")"))
      some (buf, p + 1)

/-- The `disposition` that `share_result` starts with. -/
def rejectBuffer : Bytes 36 := Bytes.overwrite (Vector.replicate 36 0) 0 (literal "reject")

/-- `%.*s`: a precision that is negative is as if there was none. -/
def printedPrec (prec : ℤ) (s : CStr) : List UInt8 :=
  if prec < 0 then s.bytes else s.bytes.take prec.toNat

/-- The part of `share_result` that makes the disposition of a share that was rejected, with the
precision that it passes on. -/
def disposition (reason : Bytes 32) (reasontmp : Option CStr) : Option (Bytes 36 × Option ℤ) := do
  let (reason, n) ← putInParens reason reasontmp
  if reason.peek 0 = some 0 then some (rejectBuffer, none)
  else
    let prec := n - 3
    let text := literal ":" ++ printedPrec prec (reason.cstrAt 2)
    let (buf, _) ← rejectBuffer.snprintf 6 (36 - 6) text
    some (buf, some prec)

/-- What `sharelog` logs of a share. -/
structure ShareLogEntry where
  t : UInt64
  target : Bytes 32
  rpcUrl : CStr
  procReprNs : CStr
  thrId : Int32
  hash : Bytes 32
  data : Bytes 128

/-- The line with its arguments in the order of the format. -/
def ShareLogEntry.line (work : ShareLogEntry) (disposition : CStr) : List UInt8 :=
  format (literal "%s,%s,%s,%s,%s,%s,%s,%s\n")
    [paddedDigits 1 work.t.toNat, disposition.bytes, bin2hex work.target.toList,
      work.rpcUrl.bytes, work.procReprNs.bytes, paddedDigits 1 work.thrId.toUInt32.toNat,
      bin2hex work.hash.toList, bin2hex work.data.toList]

/-- A call of `fwrite`, for so many bytes of the line. -/
structure FwriteCall where
  s : Bytes 1024
  size : ℤ

/-- `sharelog`, with what it asks `fwrite` for. -/
def sharelog (s : Bytes 1024) (disposition : CStr) (work : ShareLogEntry) :
    Option (Option FwriteCall) := do
  let (s, rv) ← s.snprintf 0 1024 (work.line disposition)
  if 1024 ≤ rv then
    let s ← s.poke (1024 - 1) 0
    some (some ⟨s, rv⟩)
  else if rv < 0 then some none
  else some (some ⟨s, rv⟩)

/-- What `share_result` does to log a share that was rejected: the precision that it passes on,
and what `fwrite` is asked for. -/
def logRejected (reason : Bytes 32) (s : Bytes 1024) (reasontmp : Option CStr)
    (work : ShareLogEntry) : Option (Option ℤ × Option FwriteCall) := do
  let (buf, prec) ← disposition reason reasontmp
  let call ← sharelog s (buf.cstrAt 0) work
  some (prec, call)

/-- Every write is inside its buffer, no precision is negative, and `fwrite` is not asked for more
than the line holds. -/
def LogsSafely (reason : Bytes 32) (s : Bytes 1024) (reasontmp : Option CStr)
    (work : ShareLogEntry) : Prop :=
  ∃ prec call, logRejected reason s reasontmp work = some (prec, call) ∧
    (∀ p ∈ prec, 0 ≤ p) ∧ ∀ c ∈ call, c.size ≤ 1024

/-! ## The texts -/

/-- The texts around a reason. -/
theorem literals_reason :
    literal " (" = [0x20, 0x28] ∧ literal ")" = [0x29] ∧
      (CStr.ofMem (literal ")")).bytes = literal ")" ∧ literal ":" = [0x3a] := by
  decide +kernel

/-- The texts of a disposition, with and without a reason. -/
theorem literals_reject :
    literal "reject" <+: rejectBuffer.toList ∧ (literal "reject").length = 6 ∧
      (rejectBuffer.cstrAt 0).length = 6 ∧ literal "reject" ++ literal ":" = literal "reject:" ∧
      0 ∉ literal "reject:" ∧ (literal "reject:").length = 7 := by
  decide +kernel

/-- How many conversions are in the format of a line, and how long it is. -/
theorem length_logFormat :
    conversions (literal "%s,%s,%s,%s,%s,%s,%s,%s\n") = 8 ∧
      (literal "%s,%s,%s,%s,%s,%s,%s,%s\n").length = 24 := by
  decide +kernel

/-! ## In parentheses -/

/-- A reason is put in parentheses, cut off where there is no room for more. -/
theorem putInParens_some {n : ℕ} (buf : Bytes n) (s : CStr) (h2 : 2 ≤ n) (hn : n < 2 ^ 31) :
    ∃ buf' : Bytes n, putInParens buf (some s) =
        some (buf', ((min (literal " (" ++ s.bytes).length (n - 2) + 1 : ℕ) : ℤ)) ∧
      buf'.Holds ((literal " (" ++ s.bytes).take (n - 2) ++ literal ")") := by
  set text := literal " (" ++ s.bytes with htext
  have hnil : ([] : List UInt8) <+: buf.toList := List.nil_prefix
  obtain ⟨buf₁, hprint, hholds⟩ := holds_snprintf hnil text (show 0 < n by omega) (by simp)
  have hp : (if sizeT (n - 1) ≤ sizeT (snprintfResult text) then (n - 2 : ℤ)
      else snprintfResult text) = (min text.length (n - 2) : ℕ) := by
    rw [snprintfResult, sizeT, sizeT]
    split <;> split <;> omega
  -- what is in front of the place where the text may be cut off
  have hpre : text.take (n - 2) <+: buf₁.toList := by
    have htake : text.take (n - 2) <+: text.take (n - 1) := List.take_prefix_take_left (by omega)
    exact htake.trans ((List.prefix_append _ _).trans hholds)
  have hlen : (text.take (n - 2)).length = min text.length (n - 2) := by
    rw [List.length_take, Nat.min_comm]
  have hbytes := literals_reason.2.2.1
  have hparen : (CStr.ofMem (literal ")")).length = 1 := by
    rw [CStr.length, hbytes, literals_reason.2.1]
    rfl
  obtain ⟨buf₂, hcopy, hholds₂⟩ := holds_strcpy hpre (.ofMem (literal ")")) (by omega)
  refine ⟨buf₂, ?_, ?_⟩
  · rw [putInParens, ← htext]
    simp only [List.length_nil] at hprint
    simp only [hprint, Option.bind_eq_bind, Option.bind_some, hp]
    rw [if_neg (by omega), Int.toNat_natCast, ← hlen, hcopy]
    simp
  · rwa [hbytes] at hholds₂

theorem putInParens_none {n : ℕ} (buf : Bytes n) (hn : n ≠ 0) :
    ∃ buf' : Bytes n, putInParens buf none = some (buf', 0) ∧ buf'.peek 0 = some 0 := by
  have hnil : ([] : List UInt8) <+: buf.toList := List.nil_prefix
  obtain ⟨buf', hwrite, left, hleft⟩ := write_of_prefix hnil (t := [0])
    (by rw [List.length_nil, List.length_singleton]; omega)
  refine ⟨buf', ?_, ?_⟩
  · have hpoke : buf.poke 0 0 = some buf' := hwrite
    rw [putInParens, if_pos hn, hpoke]
    rfl
  · rw [Bytes.peek, if_pos (le_refl _), Int.toNat_zero, ← Vector.getElem?_toList, ← hleft]
    rfl

/-! ## The disposition -/

/-- Without a reason the disposition stays as it is. -/
theorem disposition_none (reason : Bytes 32) :
    disposition reason none = some (rejectBuffer, none) := by
  obtain ⟨buf, hput, hpeek⟩ := putInParens_none reason (by decide)
  simp [disposition, hput, hpeek]

/-- A reason comes behind a colon, cut off after 28 characters. -/
theorem disposition_some (reason : Bytes 32) (s : CStr) :
    ∃ buf : Bytes 36, disposition reason (some s) = some (buf, some ((min s.length 28 : ℕ) : ℤ)) ∧
      buf.Holds (literal "reject:" ++ s.bytes.take 28) := by
  obtain ⟨buf, hput, hholds⟩ := putInParens_some reason s (by decide) (by decide)
  obtain ⟨hopen, hclose, -, hcolon⟩ := literals_reason
  obtain ⟨hstart, hlen, -, hjoin, -⟩ := literals_reject
  have htext : (literal " (" ++ s.bytes).take (32 - 2) ++ literal ")" =
      [0x20, 0x28] ++ (s.bytes.take 28 ++ [0x29]) := by
    rw [hopen, hclose]
    rfl
  rw [htext] at hholds
  have hpeek : buf.peek 0 = some 0x20 := hholds.peek (s := [])
  have hnul : (0 : UInt8) ∉ s.bytes.take 28 ++ [0x29] := by
    intro h
    rcases List.mem_append.mp h with h | h
    · exact s.nul_free (List.mem_of_mem_take h)
    · exact absurd (List.mem_singleton.mp h) (by decide)
  have hrest : (buf.cstrAt 2).bytes = s.bytes.take 28 ++ [0x29] := hholds.cstrAt hnul
  have hprec : ((min (literal " (" ++ s.bytes).length (32 - 2) + 1 : ℕ) : ℤ) - 3 =
      (min s.length 28 : ℕ) := by
    rw [hopen, List.length_append, CStr.length]
    simp only [List.length_cons, List.length_nil]
    omega
  have hprinted : printedPrec ((min s.length 28 : ℕ) : ℤ) (buf.cstrAt 2) = s.bytes.take 28 := by
    rw [printedPrec, if_neg (by omega), Int.toNat_natCast, hrest, CStr.length]
    have hlen : (s.bytes.take 28).length = min s.bytes.length 28 := by
      rw [List.length_take, Nat.min_comm]
    rw [← hlen, List.take_left]
  have hfits : (literal ":" ++ s.bytes.take 28).take (36 - 6 - 1) =
      literal ":" ++ s.bytes.take 28 := by
    refine List.take_of_length_le ?_
    rw [List.length_append, hcolon, List.length_singleton, List.length_take]
    omega
  obtain ⟨disp, hprint, hdisp⟩ := holds_snprintf hstart
    (literal ":" ++ s.bytes.take 28) (show 0 < 36 - 6 by decide) (by omega)
  rw [hlen] at hprint
  refine ⟨disp, ?_, ?_⟩
  · simp only [disposition, hput, Option.bind_eq_bind, Option.bind_some, hpeek, hprec, hprinted,
      hprint]
    rw [if_neg (by decide)]
  · rw [hfits, ← List.append_assoc] at hdisp
    rwa [hjoin] at hdisp

/-! ## The line -/

theorem ShareLogEntry.length_line (work : ShareLogEntry) (disposition : CStr) :
    (work.line disposition).length =
      (paddedDigits 1 work.t.toNat).length + disposition.length + work.rpcUrl.length +
        work.procReprNs.length + (paddedDigits 1 work.thrId.toUInt32.toNat).length + 392 := by
  obtain ⟨hconv, hfmt⟩ := length_logFormat
  have hlen := @length_format (literal "%s,%s,%s,%s,%s,%s,%s,%s\n")
    [paddedDigits 1 work.t.toNat, disposition.bytes, bin2hex work.target.toList,
      work.rpcUrl.bytes, work.procReprNs.bytes, paddedDigits 1 work.thrId.toUInt32.toNat,
      bin2hex work.hash.toList, bin2hex work.data.toList] hconv
  simp only [List.length_cons, List.length_nil, List.map_cons, List.map_nil, List.sum_cons,
    List.sum_nil, length_bin2hex, Vector.length_toList, hfmt] at hlen
  simp only [ShareLogEntry.line, CStr.length]
  omega

/-- `fwrite` is asked for as many bytes as the line has, whether they fit or not. -/
theorem sharelog_spec (s : Bytes 1024) (disposition : CStr) (work : ShareLogEntry) :
    ∃ call, sharelog s disposition work = some call ∧
      ((∀ c ∈ call, c.size ≤ 1024) ↔ (work.line disposition).length ≤ 1024 ∨
        2 ^ 31 ≤ (work.line disposition).length) := by
  have hnil : ([] : List UInt8) <+: s.toList := List.nil_prefix
  obtain ⟨buf, hprint, -⟩ := holds_snprintf hnil (work.line disposition)
    (show 0 < 1024 by decide) (by decide)
  rw [List.length_nil] at hprint
  simp only [sharelog, hprint, Option.bind_eq_bind, Option.bind_some]
  rcases Nat.lt_or_ge (work.line disposition).length (2 ^ 31) with hint | hint
  · have hrv : snprintfResult (work.line disposition) = (work.line disposition).length :=
      if_pos hint
    rw [hrv]
    split
    · have hpoke : buf.poke (1024 - 1) 0 = some (buf.overwrite 1023 [0]) := rfl
      rw [hpoke]
      refine ⟨_, rfl, ?_⟩
      simp
      omega
    · rw [if_neg (by omega)]
      refine ⟨_, rfl, ?_⟩
      simp
      omega
  · have hrv : snprintfResult (work.line disposition) = -1 := if_neg (by omega)
    rw [hrv, if_neg (by decide), if_pos (by decide)]
    exact ⟨none, rfl, by simp; omega⟩

/-- What is said of a reason takes this many characters. -/
def dispositionLength : Option CStr → ℕ
  | none => 6
  | some s => 7 + min s.length 28

/-- The length of the line for a share that was rejected. -/
def ShareLogEntry.lineLength (work : ShareLogEntry) (reasontmp : Option CStr) : ℕ :=
  (paddedDigits 1 work.t.toNat).length + dispositionLength reasontmp + work.rpcUrl.length +
    work.procReprNs.length + (paddedDigits 1 work.thrId.toUInt32.toNat).length + 392

/-- The disposition is made inside its buffers. -/
theorem disposition_spec (reason : Bytes 32) (reasontmp : Option CStr) :
    ∃ buf prec, disposition reason reasontmp = some (buf, prec) ∧ (∀ p ∈ prec, 0 ≤ p) ∧
      (buf.cstrAt 0).length = dispositionLength reasontmp := by
  cases reasontmp with
  | none =>
      exact ⟨_, _, disposition_none reason, by simp, literals_reject.2.2.1⟩
  | some s =>
      obtain ⟨buf, hdisp, hholds⟩ := disposition_some reason s
      refine ⟨buf, _, hdisp, ?_, ?_⟩
      · intro p hp
        obtain rfl := Option.some.inj hp
        exact Int.natCast_nonneg _
      · have hreject := literals_reject.2.2.2.2
        have hnul : 0 ∉ literal "reject:" ++ s.bytes.take 28 := by
          intro h
          rcases List.mem_append.mp h with h | h
          · exact hreject.1 h
          · exact s.nul_free (List.mem_of_mem_take h)
        rw [CStr.length, hholds.cstrAt_zero hnul, List.length_append, hreject.2, List.length_take,
          dispositionLength, CStr.length, Nat.min_comm]

/-- **A rejected share is logged safely** exactly where its line is no longer than the buffer, or
so long that its length is no `int`. -/
theorem logsSafely_iff (reason : Bytes 32) (s : Bytes 1024) (reasontmp : Option CStr)
    (work : ShareLogEntry) :
    LogsSafely reason s reasontmp work ↔
      work.lineLength reasontmp ≤ 1024 ∨ 2 ^ 31 ≤ work.lineLength reasontmp := by
  obtain ⟨buf, prec, hdisp, hprec, hlen⟩ := disposition_spec reason reasontmp
  obtain ⟨call, hlog, hsize⟩ := sharelog_spec s (buf.cstrAt 0) work
  have hline : (work.line (buf.cstrAt 0)).length = work.lineLength reasontmp := by
    rw [work.length_line, hlen, ShareLogEntry.lineLength]
  have hrun : logRejected reason s reasontmp work = some (prec, call) := by
    simp only [logRejected, hdisp, hlog, Option.bind_eq_bind, Option.bind_some]
  rw [← hline, ← hsize]
  constructor
  · rintro ⟨prec', call', heq, -, hcall⟩
    obtain ⟨-, rfl⟩ := Prod.mk.inj (Option.some.inj (hrun.symm.trans heq))
    exact hcall
  · intro hcall
    exact ⟨prec, call, hrun, hprec, hcall⟩

/-- A share of a pool with a URL of 700 characters. -/
def longUrlShare : ShareLogEntry where
  t := 0
  target := Vector.replicate 32 0
  rpcUrl := ⟨List.replicate 700 0x61, fun h => absurd (List.eq_of_mem_replicate h) (by decide)⟩
  procReprNs := .empty
  thrId := 0
  hash := Vector.replicate 32 0
  data := Vector.replicate 128 0

theorem not_logsSafely_longUrl :
    ¬LogsSafely (Vector.replicate 32 0) (Vector.replicate 1024 0) none longUrlShare := by
  rintro ⟨prec, call, heq, -, hsize⟩
  obtain ⟨call', hlog, hiff⟩ := sharelog_spec (Vector.replicate 1024 0) (rejectBuffer.cstrAt 0)
    longUrlShare
  have hrun : logRejected (Vector.replicate 32 0) (Vector.replicate 1024 0) none longUrlShare =
      some (none, call') := by
    simp only [logRejected, disposition_none, hlog, Option.bind_eq_bind, Option.bind_some]
  obtain ⟨-, rfl⟩ := Prod.mk.inj (Option.some.inj (hrun.symm.trans heq))
  have hline := longUrlShare.length_line (rejectBuffer.cstrAt 0)
  have hreject := literals_reject.2.2.1
  have hlen : (paddedDigits 1 longUrlShare.t.toNat).length = 1 ∧
      (paddedDigits 1 longUrlShare.thrId.toUInt32.toNat).length = 1 ∧
      longUrlShare.procReprNs.length = 0 := by
    decide +kernel
  have hurl : longUrlShare.rpcUrl.length = 700 := List.length_replicate
  rcases hiff.mp hsize with h | h <;> omega

end MassGridMiner

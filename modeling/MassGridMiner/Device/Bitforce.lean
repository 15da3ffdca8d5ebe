import MassGridMiner.Lib.Format
import MassGridMiner.Lib.Looks

/-!
# The reply of a BitForce

A BitForce is asked for its results and replies with a line that counts them, a line for each, and
an `OK`.  The lines are gathered in one buffer, and more are discarded where it is nearly full.

## Main definitions

* `Bitforce.gets`, `Bitforce.zox` — the functions of the source.
* `Bitforce.pieces`, `Bitforce.replyText` — the lines of a reply, and what is kept of them.
* `Bitforce.Fits` — each line is shorter than what is left for it.
* `Bitforce.zox_spec` — the reply is read into the arrays exactly if its lines fit.
-/

namespace MassGridMiner
namespace Bitforce

open CStr

/-- What comes from the port: a byte, or none where a read fails or times out.  After the end there
is nothing more. -/
abbrev Stream := List (Option UInt8)

/-- `sizeof(data->noncebuf)`. -/
def noncebufSize : ℕ := 14 + (16 + 1) * 165

/-- `BITFORCE_QRESULT_LINE_LEN`. -/
def qresultLineLen : ℕ := 165

/-- `sizeof(_discardedbuf)`. -/
def discardedSize : ℕ := 0x10

/-- A difference of two `size_t`. -/
def sizeSub (m n : ℕ) : ℕ := (m + 2 ^ 64 - n) % 2 ^ 64

/-! ## Reading a reply -/

/-- `bitforce_vcom_gets`: what is written before the terminator, and what is left to be read. -/
def gets (bufLen : ℕ) : Stream → List UInt8 × Stream
  | some c :: stream =>
    if 1 < bufLen then
      if c = 0x0a then ([c], stream)
      else (c :: (gets bufLen stream).1, (gets bufLen stream).2)
    else ([], some c :: stream)
  | none :: stream => ([], if 1 < bufLen then stream else none :: stream)
  | [] => ([], [])

/-- A call of it: the length that it is given, the room that there is in the array, and how much is
written. -/
structure Call where
  bufLen : ℕ
  room : ℕ
  written : ℕ

/-- The end of the results, or of what the port has. -/
def Ends (line : List UInt8) : Prop :=
  beginsNoCase (literal "OK") (strAt line 0) = true ∨ strAt line 0 = []

instance (line : List UInt8) : Decidable (Ends line) := inferInstanceAs (Decidable (_ ∨ _))

theorem length_gets_le (bufLen : ℕ) (stream : Stream) :
    (gets bufLen stream).2.length ≤ stream.length := by
  induction stream with
  | nil => exact Nat.le_refl _
  | cons read stream ih =>
    cases read with
    | none =>
      rw [gets]
      split
      · exact Nat.le_succ _
      · exact Nat.le_refl _
    | some c =>
      rw [gets]
      split
      · split
        · exact Nat.le_succ _
        · exact Nat.le_succ_of_le ih
      · exact Nat.le_refl _

/-- A line that is not empty has been read. -/
theorem length_gets_lt {bufLen : ℕ} {stream : Stream} (hline : (gets bufLen stream).1 ≠ []) :
    (gets bufLen stream).2.length < stream.length := by
  match stream with
  | [] => exact absurd rfl hline
  | none :: _ => exact absurd rfl hline
  | some c :: stream =>
    rw [gets] at hline ⊢
    by_cases hroom : 1 < bufLen
    · rw [if_pos hroom]
      split
      · exact Nat.lt_succ_self _
      · exact Nat.lt_succ_of_le (length_gets_le bufLen stream)
    · rw [if_neg hroom] at hline
      exact absurd rfl hline

theorem line_ne_nil {line : List UInt8} (H : ¬Ends line) : line ≠ [] :=
  fun h => H (.inr (by rw [h]; rfl))

/-- The loop of `bitforce_zox`: the text it leaves in `noncebuf`, and its calls. -/
def zoxLoop (text : List UInt8) (discarding : Bool) (szleft : ℕ) (stream : Stream) :
    List UInt8 × List Call :=
  let line := (gets szleft stream).1
  let room := if discarding then discardedSize else noncebufSize - text.length
  if Ends line then (text, [⟨szleft, room, line.length + 1⟩])
  else
    let text := if discarding then text else text ++ strAt line 0
    let szleft' := sizeSub szleft (strAt line 0).length
    let short := decide (szleft' < qresultLineLen)
    let r := zoxLoop text (discarding || short) (if short then discardedSize else szleft')
      (gets szleft stream).2
    (r.1, ⟨szleft, room, line.length + 1⟩ :: r.2)
termination_by stream.length
decreasing_by exact length_gets_lt (line_ne_nil ‹_›)

/-- What the first lines of a reply come to: `out_inprog`, the line that may count results, the
calls, and what is left to be read. -/
structure Head where
  inprog : ℤ
  text : List UInt8
  calls : List Call
  rest : Stream

/-- The first lines of `bitforce_zox`. -/
def zoxHead (stream : Stream) : Head :=
  let call (line : List UInt8) : Call := ⟨noncebufSize, noncebufSize, line.length + 1⟩
  let first := gets noncebufSize stream
  if beginsNoCase (literal "INPROCESS:") (strAt first.1 0) then
    let second := gets noncebufSize first.2
    ⟨atoi ((strAt first.1 0).drop 10), strAt second.1 0, [call first.1, call second.1], second.2⟩
  else ⟨-1, strAt first.1 0, [call first.1], first.2⟩

/-- What `bitforce_zox` returns and leaves in `noncebuf`, and the calls of `bitforce_vcom_gets`. -/
structure Zox where
  count : ℤ
  inprog : ℤ
  text : List UInt8
  calls : List Call

/-- `bitforce_zox`. -/
def zox (stream : Stream) : Zox :=
  let head := zoxHead stream
  if beginsNoCase (literal "COUNT:") head.text then
    let r := zoxLoop head.text false (sizeSub noncebufSize head.text.length) head.rest
    ⟨atoi (head.text.drop 6), head.inprog, r.1, head.calls ++ r.2⟩
  else ⟨-1, head.inprog, head.text, head.calls⟩

/-! ## The lines of a reply -/

/-- The pieces in which a reply comes: each ends with a newline, or where a read fails. -/
def pieces : Stream → List (List UInt8)
  | [] => []
  | none :: stream => [] :: pieces stream
  | some c :: stream =>
    if c = 0x0a then [c] :: pieces stream
    else (c :: (pieces stream).headD []) :: (pieces stream).tail

/-- The first line, or the second if the first says what is in process, and the pieces after it. -/
def header (lines : List (List UInt8)) : List UInt8 × List (List UInt8) :=
  let text := strAt (lines.headD []) 0
  if beginsNoCase (literal "INPROCESS:") text then (strAt (lines.tail.headD []) 0, lines.tail.tail)
  else (text, lines.tail)

/-- What is left of the buffer after a line. -/
def leftAfter (room : ℕ) (line : List UInt8) : ℕ := room - (strAt line 0).length

/-- Each line is shorter than what is left for it: that of the buffer, or once it is nearly full, of
the other one. -/
def FitsFrom : ℕ → List (List UInt8) → Prop
  | _, [] => True
  | room, line :: lines => 1 < room → line.length < room ∧ (¬Ends line →
      FitsFrom (if leftAfter room line < qresultLineLen then discardedSize else leftAfter room line)
        lines)

/-- The lines that are kept. -/
def keptFrom : ℕ → List (List UInt8) → List (List UInt8)
  | _, [] => []
  | room, line :: lines =>
    if 1 < room ∧ ¬Ends line then
      strAt line 0 ::
        if leftAfter room line < qresultLineLen then [] else keptFrom (leftAfter room line) lines
    else []

/-- The first lines of a reply fit. -/
def FirstFits (lines : List (List UInt8)) : Prop :=
  (lines.headD []).length < noncebufSize ∧
    (beginsNoCase (literal "INPROCESS:") (strAt (lines.headD []) 0) = true →
      (lines.tail.headD []).length < noncebufSize)

/-- **Every line of a reply fits** where it is read. -/
structure Fits (lines : List (List UInt8)) : Prop where
  first : FirstFits lines
  results : beginsNoCase (literal "COUNT:") (header lines).1 = true →
    FitsFrom (noncebufSize - (header lines).1.length) (header lines).2

/-- The text of a reply. -/
def replyText (lines : List (List UInt8)) : List UInt8 :=
  if beginsNoCase (literal "COUNT:") (header lines).1 then
    (header lines).1 ++
      (keptFrom (noncebufSize - (header lines).1.length) (header lines).2).flatten
  else (header lines).1

/-! ## The reply in the buffer -/

variable {stream : Stream} {line text : List UInt8} {szleft : ℕ}

theorem sizeSub_eq {m n : ℕ} (hle : n ≤ m) (hlt : m < 2 ^ 64) : sizeSub m n = m - n := by
  rw [sizeSub]
  omega

theorem strAt_zero (mem : List UInt8) : strAt mem 0 = mem.takeWhile (· ≠ 0) := by
  rw [strAt, List.drop_zero]

theorem length_strAt_le (mem : List UInt8) : (strAt mem 0).length ≤ mem.length := by
  rw [strAt_zero]
  exact (List.takeWhile_prefix _).length_le

theorem notMem_strAt (mem : List UInt8) (p : ℕ) : 0 ∉ strAt mem p := fun h => by
  simpa using List.mem_takeWhile_imp h

theorem gets_of_not_lt (hfull : ¬1 < szleft) : (gets szleft stream).1 = [] := by
  match stream with
  | [] => rfl
  | none :: _ => rfl
  | some _ :: _ => rw [gets, if_neg hfull]

/-- What is read is a piece of the reply, whatever the length. -/
theorem gets_pieces (hroom : 1 < szleft) (stream : Stream) :
    (gets szleft stream).1 = (pieces stream).headD [] ∧
      pieces (gets szleft stream).2 = (pieces stream).tail := by
  induction stream with
  | nil => exact ⟨rfl, rfl⟩
  | cons read stream ih =>
    cases read with
    | none =>
      rw [gets, if_pos hroom]
      exact ⟨rfl, rfl⟩
    | some c =>
      rw [gets, if_pos hroom, pieces]
      split
      · exact ⟨rfl, rfl⟩
      · exact ⟨congrArg _ ih.1, ih.2⟩

/-- A line that does not end is one piece. -/
theorem headD_pieces (hline : 0x0a ∉ line) : (pieces (line.map some)).headD [] = line := by
  induction line with
  | nil => rfl
  | cons c line ih =>
    rw [List.mem_cons, not_or] at hline
    rw [List.map_cons, pieces, if_neg fun h => hline.1 h.symm, List.headD_cons, ih hline.2]

/-- The room that there is for the next line. -/
def roomAfter (room : ℕ) (line : List UInt8) : ℕ :=
  if leftAfter room line < qresultLineLen then discardedSize else leftAfter room line

theorem ends_nil : Ends [] := .inr rfl

/-- **The lines fit** if the one that is read does, and those that are read next. -/
theorem fitsFrom_iff (hpos : 0 < szleft) :
    FitsFrom szleft (pieces stream) ↔ (gets szleft stream).1.length < szleft ∧
      (¬Ends (gets szleft stream).1 → FitsFrom (roomAfter szleft (gets szleft stream).1)
        (pieces (gets szleft stream).2)) := by
  by_cases hroom : 1 < szleft
  · obtain ⟨hline, hrest⟩ := gets_pieces hroom stream
    rw [hline, hrest]
    cases pieces stream with
    | nil => exact iff_of_true trivial ⟨hpos, fun h => absurd ends_nil h⟩
    | cons line lines =>
      rw [FitsFrom]
      exact ⟨fun h => h hroom, fun h _ => h⟩
  · rw [gets_of_not_lt hroom]
    refine iff_of_true ?_ ⟨hpos, fun h => absurd ends_nil h⟩
    cases pieces stream with
    | nil => trivial
    | cons line lines => exact fun h => absurd h hroom

theorem keptFrom_eq :
    keptFrom szleft (pieces stream) =
      if Ends (gets szleft stream).1 then []
      else strAt (gets szleft stream).1 0 ::
        if leftAfter szleft (gets szleft stream).1 < qresultLineLen then []
        else keptFrom (leftAfter szleft (gets szleft stream).1)
          (pieces (gets szleft stream).2) := by
  by_cases hroom : 1 < szleft
  · obtain ⟨hline, hrest⟩ := gets_pieces hroom stream
    rw [hline, hrest]
    cases pieces stream with
    | nil => exact (if_pos ends_nil).symm
    | cons line lines =>
      rw [keptFrom, List.headD_cons, List.tail_cons]
      by_cases hends : Ends line
      · rw [if_neg (fun h => h.2 hends), if_pos hends]
      · rw [if_pos ⟨hroom, hends⟩, if_neg hends]
  · rw [gets_of_not_lt hroom, if_pos ends_nil]
    cases pieces stream with
    | nil => rfl
    | cons line lines => rw [keptFrom, if_neg fun h => hroom h.1]

/-- What a call writes is no longer than it may, where that is the room that there is. -/
def Call.Fits (c : Call) : Prop := c.written ≤ c.bufLen ∧ c.bufLen = c.room

/-- The room in the array that is written. -/
def roomIn (text : List UInt8) (discarding : Bool) : ℕ :=
  if discarding then discardedSize else noncebufSize - text.length

/-- The loop goes on after a line that fits. -/
theorem zoxLoop_of_fits {discarding : Bool} (hends : ¬Ends (gets szleft stream).1)
    (hfits : (gets szleft stream).1.length < szleft) (hle : szleft ≤ noncebufSize)
    (hroom : roomIn text discarding = szleft) :
    ∃ text' discarding', roomIn text' discarding' = roomAfter szleft (gets szleft stream).1 ∧
      zoxLoop text discarding szleft stream =
        ((zoxLoop text' discarding' (roomAfter szleft (gets szleft stream).1)
            (gets szleft stream).2).1,
          ⟨szleft, szleft, (gets szleft stream).1.length + 1⟩ ::
            (zoxLoop text' discarding' (roomAfter szleft (gets szleft stream).1)
              (gets szleft stream).2).2) ∧
      ∀ more, (if discarding' then text' else text' ++ more) =
        if discarding then text
        else text ++ (strAt (gets szleft stream).1 0 ++
          if leftAfter szleft (gets szleft stream).1 < qresultLineLen then [] else more) := by
  have hstr := length_strAt_le (gets szleft stream).1
  have hsize : noncebufSize < 2 ^ 64 := by decide
  have hleft : sizeSub szleft (strAt (gets szleft stream).1 0).length =
      leftAfter szleft (gets szleft stream).1 := sizeSub_eq (by omega) (by omega)
  have hlt : discarding = true → leftAfter szleft (gets szleft stream).1 < qresultLineLen := by
    intro h
    have h16 : szleft = discardedSize := by rw [← hroom, h, roomIn, if_pos rfl]
    rw [h16]
    exact Nat.lt_of_le_of_lt (Nat.sub_le _ _) (by decide : discardedSize < qresultLineLen)
  have hstep := zoxLoop.eq_1 text discarding szleft stream
  rw [if_neg hends] at hstep
  rw [← roomIn, hroom] at hstep
  simp only [hleft, decide_eq_true_eq] at hstep
  refine ⟨_, _, ?_, hstep, fun more => ?_⟩
  · rw [roomIn, roomAfter]
    by_cases hshort : leftAfter szleft (gets szleft stream).1 < qresultLineLen
    · rw [decide_eq_true hshort, Bool.or_true, if_pos rfl, if_pos hshort]
    · have hkeep : discarding = false := by
        rw [← Bool.not_eq_true]
        exact fun h => hshort (hlt h)
      subst hkeep
      rw [if_neg hshort, decide_eq_false hshort, Bool.or_false, if_neg Bool.false_ne_true,
        if_neg Bool.false_ne_true, List.length_append, leftAfter, ← hroom, roomIn,
        if_neg Bool.false_ne_true]
      omega
  · by_cases hshort : leftAfter szleft (gets szleft stream).1 < qresultLineLen
    · rw [decide_eq_true hshort, Bool.or_true, if_pos rfl, if_pos hshort, List.append_nil]
    · have hkeep : discarding = false := by
        rw [← Bool.not_eq_true]
        exact fun h => hshort (hlt h)
      subst hkeep
      rw [if_neg hshort, decide_eq_false hshort, Bool.or_false]
      simp only [Bool.false_eq_true, if_false, List.append_assoc]

/-- **The loop** stays inside of the arrays as long as the lines fit, and gathers those that are to
be kept.  The first that does not fit is written beyond the end. -/
theorem zoxLoop_spec (text : List UInt8) (discarding : Bool) (szleft : ℕ) (stream : Stream)
    (hpos : 0 < szleft) (hle : szleft ≤ noncebufSize) (hroom : roomIn text discarding = szleft) :
    (FitsFrom szleft (pieces stream) →
      (∀ c ∈ (zoxLoop text discarding szleft stream).2, c.Fits) ∧
        (zoxLoop text discarding szleft stream).1 =
          if discarding then text else text ++ (keptFrom szleft (pieces stream)).flatten) ∧
    (¬FitsFrom szleft (pieces stream) →
      ∃ c ∈ (zoxLoop text discarding szleft stream).2, ¬c.written ≤ c.bufLen) := by
  generalize hn : stream.length = n
  induction n using Nat.strong_induction_on generalizing text discarding szleft stream with
  | _ n ih =>
    rw [fitsFrom_iff hpos, keptFrom_eq]
    by_cases hends : Ends (gets szleft stream).1
    · have hloop : zoxLoop text discarding szleft stream =
          (text, [⟨szleft, szleft, (gets szleft stream).1.length + 1⟩]) := by
        rw [zoxLoop, if_pos hends, ← roomIn, hroom]
      rw [hloop, if_pos hends]
      constructor
      · rintro ⟨hfits, -⟩
        refine ⟨fun c hc => ?_, ?_⟩
        · rw [List.mem_singleton] at hc
          subst hc
          exact ⟨hfits, rfl⟩
        · rw [List.flatten_nil, List.append_nil, ite_self]
      · intro hlong
        refine ⟨_, List.mem_singleton_self _, fun hle => hlong ⟨hle, fun h => absurd hends h⟩⟩
    · by_cases hfits : (gets szleft stream).1.length < szleft
      · obtain ⟨text', discarding', hroom', hloop, htext⟩ :=
          zoxLoop_of_fits hends hfits hle hroom
        have hstr := length_strAt_le (gets szleft stream).1
        have hleft : leftAfter szleft (gets szleft stream).1 =
            szleft - (strAt (gets szleft stream).1 0).length := rfl
        have hdiscarded : discardedSize = 16 := rfl
        have hsize : noncebufSize = 2819 := rfl
        obtain ⟨hkept, hlong⟩ := ih _ (hn ▸ length_gets_lt (line_ne_nil hends)) text' discarding'
          (roomAfter szleft (gets szleft stream).1) (gets szleft stream).2
          (by rw [roomAfter]; split <;> omega) (by rw [roomAfter]; split <;> omega) hroom' rfl
        rw [hloop]
        constructor
        · rintro ⟨-, hmore⟩
          obtain ⟨hcalls, hfinal⟩ := hkept (hmore hends)
          refine ⟨fun c hc => ?_, ?_⟩
          · rcases List.mem_cons.mp hc with rfl | hc
            · exact ⟨hfits, rfl⟩
            · exact hcalls c hc
          · dsimp only
            rw [hfinal, htext, if_neg hends, List.flatten_cons]
            by_cases hshort : leftAfter szleft (gets szleft stream).1 < qresultLineLen
            · rw [if_pos hshort, if_pos hshort, List.flatten_nil]
            · rw [if_neg hshort, if_neg hshort, roomAfter, if_neg hshort]
        · intro hlate
          obtain ⟨c, hc, hover⟩ := hlong fun h => hlate ⟨hfits, fun _ => h⟩
          exact ⟨c, List.mem_cons_of_mem _ hc, hover⟩
      · refine ⟨fun h => absurd h.1 hfits, fun _ => ?_⟩
        rw [zoxLoop, if_neg hends]
        exact ⟨_, List.mem_cons_self, hfits⟩

/-- **The first lines** are those of the reply. -/
theorem zoxHead_spec (stream : Stream) :
    header (pieces stream) = ((zoxHead stream).text, pieces (zoxHead stream).rest) ∧
      (∀ c ∈ (zoxHead stream).calls, c.bufLen = c.room) ∧
      ((∀ c ∈ (zoxHead stream).calls, c.written ≤ c.bufLen) ↔ FirstFits (pieces stream)) ∧
      (FirstFits (pieces stream) → (zoxHead stream).text.length < noncebufSize) := by
  have hroom : 1 < noncebufSize := by decide
  obtain ⟨hfirst, hrest⟩ := gets_pieces hroom stream
  obtain ⟨hsecond, hmore⟩ := gets_pieces hroom (gets noncebufSize stream).2
  rw [hrest] at hsecond hmore
  rw [header, FirstFits, zoxHead, ← hfirst, ← hsecond, ← hmore, ← hrest]
  dsimp only
  have hstr₁ := length_strAt_le (gets noncebufSize stream).1
  have hstr₂ := length_strAt_le (gets noncebufSize (gets noncebufSize stream).2).1
  split
  case isTrue hprocess =>
    simp only [hprocess, true_implies, List.mem_cons, List.not_mem_nil, or_false, forall_eq_or_imp,
      forall_eq, and_self, true_and]
    exact ⟨Iff.rfl, fun h => Nat.lt_of_le_of_lt hstr₂ h.2⟩
  case isFalse hprocess =>
    simp only [hprocess, Bool.false_eq_true, false_implies, List.mem_singleton, forall_eq, and_true,
      true_and]
    exact ⟨Iff.rfl, fun h => Nat.lt_of_le_of_lt hstr₁ h⟩

/-- **Where the lines of a reply fit**, it is read into the arrays, and its text is left in the
buffer.  Where one does not, it is written beyond the end. -/
theorem zox_spec (stream : Stream) :
    (Fits (pieces stream) → (∀ c ∈ (zox stream).calls, c.Fits) ∧
      (zox stream).text = replyText (pieces stream) ∧
      (zox stream).count = if beginsNoCase (literal "COUNT:") (header (pieces stream)).1 then
        atoi ((header (pieces stream)).1.drop 6) else -1) ∧
    (¬Fits (pieces stream) → ∃ c ∈ (zox stream).calls, ¬c.written ≤ c.bufLen) := by
  obtain ⟨hheader, hcalls, hfirst, htext⟩ := zoxHead_spec stream
  have hfits : Fits (pieces stream) ↔ FirstFits (pieces stream) ∧
      (beginsNoCase (literal "COUNT:") (zoxHead stream).text = true →
        FitsFrom (noncebufSize - (zoxHead stream).text.length) (pieces (zoxHead stream).rest)) := by
    have hrefl : ∀ {h}, header (pieces stream) = h → (Fits (pieces stream) ↔
        FirstFits (pieces stream) ∧ (beginsNoCase (literal "COUNT:") h.1 = true →
          FitsFrom (noncebufSize - h.1.length) h.2)) := by
      rintro _ rfl
      exact ⟨fun h => ⟨h.first, h.results⟩, fun h => ⟨h.1, h.2⟩⟩
    exact hrefl hheader
  rw [hfits, replyText, hheader, zox]
  dsimp only
  by_cases hfirsts : FirstFits (pieces stream)
  · have hlt := htext hfirsts
    have hhead : ∀ c ∈ (zoxHead stream).calls, c.Fits := fun c hc =>
      ⟨hfirst.mpr hfirsts c hc, hcalls c hc⟩
    by_cases hcount : beginsNoCase (literal "COUNT:") (zoxHead stream).text = true
    · have hsub : sizeSub noncebufSize (zoxHead stream).text.length =
          noncebufSize - (zoxHead stream).text.length := sizeSub_eq hlt.le (by decide)
      obtain ⟨hkept, hlong⟩ := zoxLoop_spec (zoxHead stream).text false
        (noncebufSize - (zoxHead stream).text.length) (zoxHead stream).rest (Nat.sub_pos_of_lt hlt)
        (Nat.sub_le _ _) rfl
      rw [if_pos hcount, if_pos hcount, if_pos hcount, hsub]
      simp only [hcount, true_implies, hfirsts, true_and]
      constructor
      · intro h
        obtain ⟨hloop, hfinal⟩ := hkept h
        refine ⟨fun c hc => ?_, hfinal, trivial⟩
        exact (List.mem_append.mp hc).elim (hhead c) (hloop c)
      · intro h
        obtain ⟨c, hc, hover⟩ := hlong h
        exact ⟨c, List.mem_append_right _ hc, hover⟩
    · rw [if_neg hcount, if_neg hcount, if_neg hcount]
      refine ⟨fun _ => ⟨hhead, rfl, rfl⟩, fun h => ?_⟩
      exact absurd ⟨hfirsts, fun h => absurd h hcount⟩ h
  · refine ⟨fun h => absurd h.1 hfirsts, fun _ => ?_⟩
    rw [← hfirst] at hfirsts
    push Not at hfirsts
    obtain ⟨c, hc, hover⟩ := hfirsts
    refine ⟨c, ?_, Nat.not_le.mpr hover⟩
    split
    · exact List.mem_append_left _ hc
    · exact hc

/-- What is kept is text that has room. -/
theorem keptFrom_spec (room : ℕ) (lines : List (List UInt8)) (hpos : 0 < room)
    (H : FitsFrom room lines) :
    0 ∉ (keptFrom room lines).flatten ∧ (keptFrom room lines).flatten.length < room := by
  induction lines generalizing room with
  | nil => exact ⟨nofun, hpos⟩
  | cons line lines ih =>
    rw [keptFrom]
    split
    case isFalse => exact ⟨nofun, hpos⟩
    case isTrue hgoes =>
      obtain ⟨hfits, hmore⟩ := H hgoes.1
      have hstr := length_strAt_le line
      have hleft : leftAfter room line = room - (strAt line 0).length := rfl
      rw [List.flatten_cons, List.mem_append, not_or, List.length_append]
      by_cases hshort : leftAfter room line < qresultLineLen
      · rw [if_pos hshort]
        refine ⟨⟨notMem_strAt line 0, nofun⟩, ?_⟩
        rw [List.flatten_nil, List.length_nil]
        omega
      · rw [if_neg hshort]
        have hrest := hmore hgoes.2
        rw [if_neg hshort] at hrest
        obtain ⟨hnul, hlen⟩ := ih (leftAfter room line) (by omega) hrest
        exact ⟨⟨notMem_strAt line 0, hnul⟩, by omega⟩

/-- **The text of a reply** whose lines fit has no terminator, and there is room for one. -/
theorem replyText_spec {lines : List (List UInt8)} (H : Fits lines) :
    0 ∉ replyText lines ∧ (replyText lines).length < noncebufSize := by
  have hheader : 0 ∉ (header lines).1 ∧ (header lines).1.length < noncebufSize := by
    have hstr₁ := length_strAt_le (lines.headD [])
    have hstr₂ := length_strAt_le (lines.tail.headD [])
    obtain ⟨hfirst, hsecond⟩ := H.first
    rw [header]
    split
    case isTrue h => exact ⟨notMem_strAt _ _, Nat.lt_of_le_of_lt hstr₂ (hsecond h)⟩
    case isFalse => exact ⟨notMem_strAt _ _, Nat.lt_of_le_of_lt hstr₁ hfirst⟩
  rw [replyText]
  split
  case isFalse => exact hheader
  case isTrue hcount =>
    obtain ⟨hnul, hlen⟩ := keptFrom_spec _ _ (Nat.sub_pos_of_lt hheader.2) (H.results hcount)
    rw [List.mem_append, not_or, List.length_append]
    exact ⟨⟨hheader.1, hnul⟩, by omega⟩

end Bitforce
end MassGridMiner

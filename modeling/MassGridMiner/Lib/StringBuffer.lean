import MassGridMiner.Lib.Buffer
import MassGridMiner.Lib.CString

/-!
# Strings in buffers of a fixed size

A buffer holds a text if it starts with its bytes and a terminator.  Each write says whether it
stays inside the buffer, and what text the buffer holds behind it.

## Main definitions

* `Bytes.strcpy`, `Bytes.memset`, `Bytes.poke` — writes, or none where they leave the buffer.
* `Bytes.snprintf` — a write that is cut off, with the number that it returns.
* `Bytes.cstrAt` — the string that starts at an index.
* `Bytes.Holds` — the buffer holds a text.
-/

namespace Bytes
variable {n : ℕ}

/-- `memcpy` to an index, or none where it leaves the buffer. -/
def write (buf : Bytes n) (off : ℕ) (bs : List UInt8) : Option (Bytes n) :=
  if off + bs.length ≤ n then some (buf.overwrite off bs) else none

/-- `strcpy` to an index. -/
def strcpy (buf : Bytes n) (off : ℕ) (s : CStr) : Option (Bytes n) :=
  buf.write off (s.bytes ++ [0])

/-- `memset` at an index. -/
def memset (buf : Bytes n) (off : ℕ) (c : UInt8) (k : ℕ) : Option (Bytes n) :=
  buf.write off (List.replicate k c)

/-- The byte at an index, or none outside the buffer. -/
def peek (buf : Bytes n) (i : ℤ) : Option UInt8 := if 0 ≤ i then buf[i.toNat]? else none

/-- A byte is written at an index. -/
def poke (buf : Bytes n) (i : ℤ) (c : UInt8) : Option (Bytes n) :=
  if 0 ≤ i then buf.write i.toNat [c] else none

/-- What `snprintf` returns for a text: its length, or -1 where that is no `int`. -/
def snprintfResult (text : List UInt8) : ℤ := if text.length < 2 ^ 31 then text.length else -1

/-- `snprintf` of a text to an index, for some number of bytes. -/
def snprintf (buf : Bytes n) (off size : ℕ) (text : List UInt8) : Option (Bytes n × ℤ) :=
  if size = 0 then some (buf, snprintfResult text)
  else (buf.write off (text.take (size - 1) ++ [0])).map fun buf => (buf, snprintfResult text)

/-- The string that starts at an index. -/
def cstrAt (buf : Bytes n) (off : ℕ) : CStr := .ofMem (buf.toList.drop off)

/-- The buffer starts with the text and a terminator. -/
def Holds (buf : Bytes n) (s : List UInt8) : Prop := s ++ [0] <+: buf.toList

section
variable {buf : Bytes n} {s t : List UInt8} {c : UInt8}

theorem Holds.length_lt (H : buf.Holds s) : s.length < n := by
  have hle := H.length_le
  rw [List.length_append, List.length_singleton, Vector.length_toList] at hle
  omega

/-- Behind what the buffer starts with, as much can be written as there is room for. -/
theorem write_of_prefix (H : s <+: buf.toList) (hle : s.length + t.length ≤ n) :
    ∃ buf', buf.write s.length t = some buf' ∧ s ++ t <+: buf'.toList := by
  obtain ⟨left, hleft⟩ := H
  refine ⟨buf.overwrite s.length t, if_pos hle, ?_⟩
  rw [toList_overwrite buf hle, ← hleft, writeAt_append]
  exact List.prefix_append _ _

theorem write_eq_none {off : ℕ} (H : n < off + t.length) : buf.write off t = none :=
  if_neg (by omega)

theorem strcpy_eq_none (s : CStr) {off : ℕ} (H : n < off + s.length + 1) :
    buf.strcpy off s = none := by
  have hlen : (s.bytes ++ [0]).length = s.length + 1 := by
    rw [List.length_append, List.length_singleton, CStr.length]
  exact write_eq_none (by omega)

/-- A string is put behind what the buffer starts with. -/
theorem holds_strcpy (H : s <+: buf.toList) (t : CStr) (hle : s.length + t.length + 1 ≤ n) :
    ∃ buf', buf.strcpy s.length t = some buf' ∧ buf'.Holds (s ++ t.bytes) := by
  have hlen : (t.bytes ++ [0]).length = t.length + 1 := by
    rw [List.length_append, List.length_singleton, CStr.length]
  obtain ⟨buf', hwrite, hpre⟩ := write_of_prefix H (t := t.bytes ++ [0]) (by omega)
  refine ⟨buf', hwrite, ?_⟩
  rw [Holds, List.append_assoc]
  exact hpre

/-- A string is put into a buffer. -/
theorem holds_strcpy_zero (buf : Bytes n) (t : CStr) (hle : t.length + 1 ≤ n) :
    ∃ buf', buf.strcpy 0 t = some buf' ∧ buf'.Holds t.bytes := by
  have hnone : ([] : List UInt8) <+: buf.toList := List.nil_prefix
  exact holds_strcpy hnone t (by rw [List.length_nil]; omega)

/-- The string that starts inside the text is the rest of it. -/
theorem Holds.cstrAt (H : buf.Holds (s ++ t)) (hnul : 0 ∉ t) :
    (buf.cstrAt s.length).bytes = t := by
  obtain ⟨left, hleft⟩ := H
  rw [Bytes.cstrAt, ← hleft, List.append_assoc, List.append_assoc, List.drop_left]
  exact CStr.bytes_ofMem_append_nul hnul left

theorem Holds.cstrAt_zero (H : buf.Holds s) (hnul : 0 ∉ s) : (buf.cstrAt 0).bytes = s :=
  H.cstrAt (s := []) hnul

/-- A text that is cut off is put behind what the buffer starts with. -/
theorem holds_snprintf (H : s <+: buf.toList) (text : List UInt8) {size : ℕ} (hsize : 0 < size)
    (hle : s.length + size ≤ n) :
    ∃ buf', buf.snprintf s.length size text = some (buf', snprintfResult text) ∧
      buf'.Holds (s ++ text.take (size - 1)) := by
  have hlen : (text.take (size - 1) ++ [0]).length ≤ size := by
    rw [List.length_append, List.length_take, List.length_singleton]
    omega
  obtain ⟨buf', hwrite, hpre⟩ := write_of_prefix H (t := text.take (size - 1) ++ [0])
    (le_trans (Nat.add_le_add_left hlen _) hle)
  refine ⟨buf', ?_, ?_⟩
  · rw [snprintf, if_neg (Nat.ne_of_gt hsize), hwrite]
    rfl
  · rw [Holds, List.append_assoc]
    exact hpre

/-- A character of the text. -/
theorem Holds.peek (H : buf.Holds (s ++ c :: t)) : buf.peek s.length = some c := by
  obtain ⟨left, hleft⟩ := H
  rw [Bytes.peek, if_pos (Int.natCast_nonneg _), Int.toNat_natCast, ← Vector.getElem?_toList,
    ← hleft, List.append_assoc, List.append_assoc, List.getElem?_append_right (le_refl _),
    Nat.sub_self]
  rfl

/-- A character of the text is replaced. -/
theorem Holds.poke (H : buf.Holds (s ++ c :: t)) (d : UInt8) :
    ∃ buf', buf.poke s.length d = some buf' ∧ buf'.Holds (s ++ d :: t) := by
  have hlen := H.length_lt
  rw [List.length_append, List.length_cons] at hlen
  obtain ⟨left, hleft⟩ := H
  have hsplit : buf.toList = s ++ (c :: t ++ [0] ++ left) := by
    rw [← hleft]
    simp
  have hle : s.length + [d].length ≤ n := by
    rw [List.length_singleton]
    omega
  refine ⟨buf.overwrite s.length [d], ?_, left, ?_⟩
  · rw [Bytes.poke, if_pos (Int.natCast_nonneg _), Int.toNat_natCast, write, if_pos hle]
  · rw [toList_overwrite buf hle, hsplit, writeAt_append]
    simp

end

end Bytes

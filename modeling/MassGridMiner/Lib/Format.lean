import MassGridMiner.Lib.CString
import Mathlib.Algebra.Ring.Nat

/-!
# Formatting into a buffer

`sprintf` writes whatever the format and its arguments come to; `snprintf` stops one byte
before the end of the buffer.  A line needs room for a newline and for the terminator
behind it, and `snprintf_fitsLine_iff` says that truncation does not provide it: a text
that is cut is always one byte too long.

## Main definitions

* `format` — the text a format makes of its arguments, with `%s` as the only conversion.
* `TextBuffer`, `sprintf`, `snprintf` — a buffer with the text formatted into it.
* `TextBuffer.FitsLine` — the text, a newline and the terminator fit.
* `LeavesRoom` — what a format leaves of a buffer for its arguments.
-/

/-- The bytes of a literal. -/
def literal (s : String) : List UInt8 := s.toUTF8.toList

theorem ByteArray.toList_loop_eq (bs : ByteArray) (i : ℕ) (r : List UInt8) :
    ByteArray.toList.loop bs i r = r.reverse ++ bs.data.toList.drop i := by
  fun_induction ByteArray.toList.loop bs i r with
  | case1 i r hlt ih =>
      have hi : i < bs.data.toList.length := hlt
      have hget : bs.get! i = bs.data.toList[i] := getElem!_pos bs.data i hlt
      rw [ih, hget, List.drop_eq_getElem_cons hi, List.reverse_cons, List.append_assoc,
        List.singleton_append]
  | case2 i r hle =>
      have hend : bs.data.toList.length ≤ i := not_lt.mp hle
      rw [List.drop_eq_nil_of_le hend, List.append_nil]

theorem ByteArray.toList_eq (bs : ByteArray) : bs.toList = bs.data.toList :=
  bs.toList_loop_eq 0 []

/-- The same bytes without an index, which are faster to compute. -/
theorem literal_eq (s : String) : literal s = s.toUTF8.data.toList :=
  ByteArray.toList_eq s.toUTF8

/-- What `%s` makes of a pointer; the library prints `(null)` for NULL. -/
def CStr.printed : Option CStr → List UInt8
  | some s => s.bytes
  | none => literal "(null)"

/-- The format, with each `%s` replaced by the next argument. -/
def format : List UInt8 → List (List UInt8) → List UInt8
  | 0x25 :: 0x73 :: fmt, arg :: args => arg ++ format fmt args
  | c :: fmt, args => c :: format fmt args
  | [], _ => []

/-- The number of `%s` in a format. -/
def conversions : List UInt8 → ℕ
  | 0x25 :: 0x73 :: fmt => conversions fmt + 1
  | _ :: fmt => conversions fmt
  | [] => 0

theorem length_format {fmt : List UInt8} {args : List (List UInt8)}
    (H : conversions fmt = args.length) :
    (format fmt args).length + 2 * args.length = fmt.length + (args.map List.length).sum := by
  induction fmt, args using format.induct with
  | case1 fmt arg args ih =>
      simp only [conversions, List.length_cons, Nat.add_right_cancel_iff] at H
      have := ih H
      simp only [format, List.length_append, List.length_cons, List.map_cons, List.sum_cons]
      omega
  | case2 c fmt args hne ih =>
      -- a `%s` here would be one that finds no argument
      have hplain : ∀ rest, c = 0x25 → fmt = 0x73 :: rest → False := by
        rintro rest rfl rfl
        cases args with
        | nil => simp [conversions] at H
        | cons arg args => exact hne rest arg args rfl rfl rfl
      have hconv : conversions fmt = args.length := by rwa [conversions.eq_2 _ _ hplain] at H
      have := ih hconv
      rw [format.eq_2 _ _ _ hne, List.length_cons, List.length_cons]
      omega
  | case3 args =>
      obtain rfl : args = [] := List.length_eq_zero_iff.mp H.symm
      rfl

/-- The same for a literal with `k` conversions and `n` bytes. -/
theorem length_format_literal (fmt : String) (args : List (List UInt8)) (k n : ℕ)
    (hargs : args.length = k) (H : conversions (literal fmt) = k ∧ (literal fmt).length = n) :
    (format (literal fmt) args).length + 2 * k = n + (args.map List.length).sum := by
  rw [← H.2, ← hargs]
  exact length_format (H.1.trans hargs.symm)

/-- What stands before the first conversion is copied. -/
theorem format_append {front : List UInt8} (H : 0x25 ∉ front) (fmt : List UInt8)
    (args : List (List UInt8)) : format (front ++ fmt) args = front ++ format fmt args := by
  induction front with
  | nil => rfl
  | cons c front ih =>
      rw [List.mem_cons, not_or] at H
      have hplain : ∀ rest arg args', args = arg :: args' → c = 0x25 →
          front ++ fmt = 0x73 :: rest → False := fun _ _ _ _ hc _ => H.1 hc.symm
      rw [List.cons_append, format.eq_2 _ _ _ hplain, ih H.2, List.cons_append]

/-- The text that a literal makes of its first argument. -/
theorem format_literal {fmt front back : String} (arg : List UInt8) (args : List (List UInt8))
    (H : 0x25 ∉ literal front ∧ literal fmt = literal front ++ 0x25 :: 0x73 :: literal back) :
    format (literal fmt) (arg :: args) = literal front ++ arg ++ format (literal back) args := by
  rw [H.2, format_append H.1, List.append_assoc]
  rfl

/-- A buffer of some size, and the text formatted into it. -/
structure TextBuffer where
  size : ℕ
  text : List UInt8

/-- `sprintf` into a buffer of some size. -/
def sprintf (size : ℕ) (fmt : String) (args : List (List UInt8)) : TextBuffer where
  size := size
  text := format (literal fmt) args

/-- `snprintf` into a buffer, given its size. -/
def snprintf (size : ℕ) (fmt : String) (args : List (List UInt8)) : TextBuffer where
  size := size
  text := (format (literal fmt) args).take (size - 1)

/-- The text fits into its buffer with the terminator behind it. -/
def TextBuffer.Fits (buf : TextBuffer) : Prop := buf.text.length + 1 ≤ buf.size

/-- The text fits into its buffer with a newline and the terminator behind it. -/
def TextBuffer.FitsLine (buf : TextBuffer) : Prop := buf.text.length + 2 ≤ buf.size

/-- The format has so many conversions, and leaves so many bytes of a buffer for what they
print when the text is to be sent as a line. -/
def LeavesRoom (fmt : String) (n size room : ℕ) : Prop :=
  conversions (literal fmt) = n ∧ room + (literal fmt).length + 2 = size + 2 * n

instance (fmt : String) (n size room : ℕ) : Decidable (LeavesRoom fmt n size room) :=
  inferInstanceAs (Decidable (_ ∧ _))

section

variable {fmt : String} {size room : ℕ} {args : List (List UInt8)}

theorem sprintf_fitsLine_iff (H : LeavesRoom fmt args.length size room) :
    (sprintf size fmt args).FitsLine ↔ (args.map List.length).sum ≤ room := by
  have hlen := length_format H.1
  have hroom := H.2
  rw [TextBuffer.FitsLine, sprintf]
  dsimp only
  omega

/-- **Truncation makes no line fit**: the room is the same. -/
theorem snprintf_fitsLine_iff (H : LeavesRoom fmt args.length size room) (Hsize : 2 ≤ size) :
    (snprintf size fmt args).FitsLine ↔ (args.map List.length).sum ≤ room := by
  have hlen := length_format H.1
  have hroom := H.2
  rw [TextBuffer.FitsLine, snprintf]
  simp only [List.length_take]
  omega

end

import MassGridMiner.Lib.Atof
import MassGridMiner.Lib.Reads

/-!
# Strings trimmed

`trimmed_strdup` copies a string without the white space at both of its ends.  It looks for the last
character that it keeps from the end back and stops at none but a character to keep, so that where
there is none it looks at what is before the string.

## Main definitions

* `trimmedStrdup` — the function, none where it reads outside of the string.
* `trim` — a string without the white space at its ends.
* `trim_iff` — the strings that the function does trim.
-/

namespace MassGridMiner
namespace Trim

open CStr (isSpace)

/-- `trimmed_strdup`: the characters of the copy, or none if a character outside of the string and
its terminator is read.

The size `n` and the place `first` of the pointer are added up to a place in the string, of which
`end_` is the next.  Where `strlen(s)` is zero, `n` wraps around, and `s[n]` is the character before
the place of the pointer. -/
def trimmedStrdup (str : CStr) : Option (List UInt8) := do
  let first ← skipAhead isSpace (str.bytes ++ [0])
  let strlen := str.length - first
  let end_ ← skipBack isSpace (str.bytes ++ [0]) (first + strlen)
  let n := end_ - first
  some ((str.bytes.drop first).take n)

/-- A string without the white space at its ends. -/
def trim (s : List UInt8) : List UInt8 := (s.dropWhile isSpace).rdropWhile isSpace

/-- The function trims a string. -/
def Trims (str : CStr) : Prop := trimmedStrdup str = some (trim str.bytes)

/-- There is something in a string that is not white space. -/
def HasText (str : CStr) : Prop := ∃ c ∈ str.bytes, isSpace c = false

instance (str : CStr) : Decidable (Trims str) := inferInstanceAs (Decidable (_ = _))

instance (str : CStr) : Decidable (HasText str) :=
  inferInstanceAs (Decidable (∃ c ∈ str.bytes, isSpace c = false))

theorem isSpace_nul : isSpace 0 = false := by decide

/-- The place of the first character to keep; that of the terminator if there is none. -/
theorem skipAhead_str (str : CStr) :
    skipAhead isSpace (str.bytes ++ [0]) = some (str.bytes.takeWhile isSpace).length := by
  have hstop : ∃ c ∈ str.bytes ++ [0], isSpace c = false := ⟨0, by simp, isSpace_nul⟩
  have hnul : List.takeWhile isSpace [0] = [] := by decide
  rw [skipAhead_eq hstop, List.takeWhile_append]
  split
  next hall => rw [hnul, List.append_nil, hall]
  next => rfl

theorem skipBack_str (str : CStr) :
    skipBack isSpace (str.bytes ++ [0]) str.length =
      if str.bytes.rdropWhile isSpace = [] then none
      else some (str.bytes.rdropWhile isSpace).length := by
  rw [skipBack_eq (by simp [CStr.length]), CStr.length, List.take_left]

/-- A string with something in it to keep is trimmed at the end before it is at the beginning. -/
theorem drop_rdropWhile {str : CStr} (H : HasText str) :
    (str.bytes.rdropWhile isSpace).drop (str.bytes.takeWhile isSpace).length = trim str.bytes := by
  have hkept : ∃ c ∈ str.bytes.dropWhile isSpace, isSpace c = false := by
    obtain ⟨c, hc, hspace⟩ := H
    rw [← List.takeWhile_append_dropWhile (p := isSpace) (l := str.bytes), List.mem_append] at hc
    rcases hc with hc | hc
    · rw [List.mem_takeWhile_imp hc] at hspace
      cases hspace
    · exact ⟨c, hc, hspace⟩
  have hsplit := rdropWhile_append_of_exists (a := str.bytes.takeWhile isSpace) hkept
  rw [List.takeWhile_append_dropWhile] at hsplit
  rw [hsplit, List.drop_left, trim]

/-- The function reads inside of a string that there is something to keep of, and trims it; of any
other string it reads what is before it. -/
theorem trimmedStrdup_eq (str : CStr) :
    trimmedStrdup str = if HasText str then some (trim str.bytes) else none := by
  have hlen : (str.bytes.takeWhile isSpace).length ≤ str.length :=
    (List.takeWhile_prefix _).length_le
  have hnil : str.bytes.rdropWhile isSpace = [] ↔ ¬HasText str := by
    simp [List.rdropWhile_eq_nil_iff, HasText]
  simp only [trimmedStrdup, skipAhead_str, Option.bind_eq_bind, Option.bind_some,
    Nat.add_sub_cancel' hlen, skipBack_str]
  by_cases htext : HasText str
  · have hprefix : str.bytes.rdropWhile isSpace =
        str.bytes.take (str.bytes.rdropWhile isSpace).length :=
      List.prefix_iff_eq_take.mp (List.rdropWhile_prefix _ _)
    rw [if_neg fun h => hnil.mp h htext, if_pos htext, Option.bind_some, ← List.drop_take,
      ← hprefix, drop_rdropWhile htext]
  · rw [if_pos (hnil.mpr htext), if_neg htext, Option.bind_none]

/-- **The function trims** the strings that there is something to keep of, and only these: it reads
outside of any other. -/
theorem trims_iff (str : CStr) : Trims str ↔ HasText str := by
  rw [Trims, trimmedStrdup_eq]
  by_cases htext : HasText str <;> simp [htext]

/-- Of the empty string, the function reads the character before it. -/
theorem not_trims_empty : ¬∀ str, Trims str :=
  fun h => absurd (h CStr.empty) (by decide)

example : trim [0x20, 0x61, 0x20, 0x62, 0x9] = [0x61, 0x20, 0x62] := by decide

end Trim
end MassGridMiner

import Mathlib.Data.List.TakeWhile

/-!
# NUL-terminated strings

A C string is the list of bytes before its terminator, none of them NUL.  Reading at
or past the end of the list reads the terminator.

## Main definitions

* `CStr` — a string, with the proof that it holds no NUL.
* `CStr.length`, `CStr.get` — `strlen`, and the character at an index.
* `CStr.ofMem` — the string that starts where a piece of memory does.
-/

/-- The bytes of a NUL-terminated string before the terminator. -/
@[ext]
structure CStr where
  bytes : List UInt8
  nul_free : 0 ∉ bytes
  deriving DecidableEq

namespace CStr

/-- `strlen`. -/
def length (s : CStr) : ℕ := s.bytes.length

/-- The character at index `i`; the terminator from the length on. -/
def get (s : CStr) (i : ℕ) : UInt8 := s.bytes[i]?.getD 0

/-- `strcat`. -/
def append (s t : CStr) : CStr where
  bytes := s.bytes ++ t.bytes
  nul_free := by simp [s.nul_free, t.nul_free]

/-- The string at the start of a piece of memory that a NUL follows. -/
def ofMem (mem : List UInt8) : CStr where
  bytes := mem.takeWhile (· != 0)
  nul_free h := by simpa using List.mem_takeWhile_imp (p := (· != 0)) h

/-- The empty string. -/
def empty : CStr := ⟨[], List.not_mem_nil⟩

instance : Inhabited CStr := ⟨empty⟩

theorem empty_length_le (n : ℕ) : empty.length ≤ n := Nat.zero_le n

theorem ofMem_length_le (mem : List UInt8) : (ofMem mem).length ≤ mem.length :=
  (List.takeWhile_prefix _).length_le

/-- A piece of memory without a NUL is a string as it is. -/
theorem bytes_ofMem {mem : List UInt8} (H : 0 ∉ mem) : (ofMem mem).bytes = mem :=
  List.takeWhile_eq_self_iff.mpr fun x hx => by
    simpa using fun h : x = 0 => H (h ▸ hx)

/-- A string ends at the first NUL. -/
theorem bytes_ofMem_append_nul {mem : List UInt8} (H : 0 ∉ mem) (rest : List UInt8) :
    (ofMem (mem ++ 0 :: rest)).bytes = mem := by
  have hall : ∀ x ∈ mem, (x != 0) = true := fun x hx => by
    simpa using fun h : x = 0 => H (h ▸ hx)
  simp [ofMem, List.takeWhile_append_of_pos hall]

end CStr

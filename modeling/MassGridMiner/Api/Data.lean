import MassGridMiner.Api.Groups
import MassGridMiner.Lib.Double

/-!
# What a command prints

A command makes a list of named values, each of a type, and prints the list into a buffer on its
stack, as text or as a JSON object.  The number of bytes that this takes is known beforehand:
a character that is escaped takes two.

## Main definitions

* `escapeString` — a string with backslashes.
* `ApiData`, `ApiField` — a value, and one with its name.
* `printData` — the buffer with the list.
* `listRoom`, `fits_printData_iff` — how many bytes it takes.
-/

namespace MassGridMiner

/-! ## Strings -/

/-- The characters that `escape_string` puts a backslash in front of. -/
def escapes (isjson : Bool) (c : UInt8) : Bool :=
  c == 0x5c || if isjson then c == 0x22 else c == 0x2c || c == 0x7c || c == 0x3d

/-- `escape_string`. -/
def escapeString (isjson : Bool) (str : CStr) : CStr where
  bytes := str.bytes.flatMap fun c => if escapes isjson c then [0x5c, c] else [c]
  nul_free h := by
    obtain ⟨c, hc, hmem⟩ := List.mem_flatMap.mp h
    have hne : (0 : UInt8) ≠ c := fun h0 => str.nul_free (h0 ▸ hc)
    split at hmem <;> simp [hne] at hmem

/-- The bytes that a string takes when it is escaped. -/
def escapedRoom (isjson : Bool) (str : List UInt8) : ℕ := str.length + str.countP (escapes isjson)

theorem length_escapeString (isjson : Bool) (str : CStr) :
    (escapeString isjson str).bytes.length = escapedRoom isjson str.bytes := by
  have hlist : ∀ s : List UInt8,
      (s.flatMap fun c => if escapes isjson c then [0x5c, c] else [c]).length =
        escapedRoom isjson s := by
    intro s
    induction s with
    | nil => rfl
    | cons c s ih =>
        simp only [escapedRoom] at ih
        rw [List.flatMap_cons, List.length_append, ih, escapedRoom, List.countP_cons]
        split <;> simp +arith
  exact hlist str.bytes

/-- A literal as a string. -/
def cstr (s : String) : CStr := .ofMem (literal s)

/-- `NULLSTR`. -/
def nullstr : CStr := cstr "(null)"

/-- `YES` and `NO`. -/
def bool2str (b : Bool) : CStr := cstr (if b then "Y" else "N")

/-- `TRUESTR` and `FALSESTR`. -/
def trueFalse (b : Bool) : CStr := cstr (if b then "true" else "false")

/-! ## Values -/

/-- The data of an `api_data`, by its type.  Nothing adds an `API_JSON`. -/
inductive ApiData
  | string (s : CStr)
  | const (s : CStr)
  | escape (s : CStr)
  | uint8 (n : UInt8)
  | int16 (n : Int16)
  | uint16 (n : UInt16)
  | int (n : Int32)
  | uint (n : UInt32)
  | uint32 (n : UInt32)
  | uint64 (n : UInt64)
  | time (n : Int64)
  | double (x : Float)
  | elapsed (x : Float)
  | utility (x : Float)
  | freq (x : Float)
  | mhs (x : Float)
  | volts (x : Float32)
  | mhtotal (x : Float)
  | hs (x : Float)
  | diff (x : Float)
  | bool (b : Bool)
  | timeval (sec usec : Int64)
  | temp (x : Float32)
  | percent (x : Float)

/-- A string that may be NULL; NULL is taken for a constant. -/
def ApiData.nullable (data : CStr → ApiData) : Option CStr → ApiData
  | some s => data s
  | none => .const nullstr

/-- An `api_data`. -/
structure ApiField where
  name : List UInt8
  data : ApiData

/-- `api_add_data_full`, which adds one at the end of a list. -/
def field (name : String) (data : ApiData) : ApiField := ⟨literal name, data⟩

/-- `%d`. -/
def printInt (n : ℤ) : List UInt8 :=
  if n < 0 then 0x2d :: paddedDigits 1 n.natAbs else paddedDigits 1 n.natAbs

/-- `%u`. -/
def printUint (n : ℕ) : List UInt8 := paddedDigits 1 n

section
variable (printDouble : ℕ → Float → List UInt8)

/-- What `print_data` prints of a number, and of a value that is not text; `printDouble` is `%.*f`.
A difficulty is a whole number if `fmod` of it and 1 is zero. -/
def ApiData.number : ApiData → List UInt8
  | .string _ | .const _ | .escape _ => []
  | .uint8 n => printUint n.toNat
  | .int16 n => printInt n.toInt
  | .uint16 n => printUint n.toNat
  | .int n => printInt n.toInt
  | .uint n => printUint n.toNat
  | .uint32 n => printUint n.toNat
  | .uint64 n => printUint n.toNat
  | .time n => printUint n.toUInt64.toNat
  | .double x => printDouble 6 x
  | .elapsed x => printDouble 0 x
  | .utility x => printDouble 3 x
  | .freq x => printDouble 3 x
  | .mhs x => printDouble 3 x
  | .volts x => printDouble 3 x.toFloat
  | .mhtotal x => printDouble 4 x
  | .hs x => printDouble 15 x
  | .diff x => printDouble (if x - x.floor == 0 then 0 else 8) x
  | .bool b => (trueFalse b).bytes
  | .timeval sec usec =>
    printUint sec.toUInt64.toNat ++ 0x2e :: paddedDigits 6 usec.toUInt64.toNat
  | .temp x => printDouble 2 x.toFloat
  | .percent x => printDouble 4 (x * 100)

/-- The text of a value, if it is one, as it is printed between the quotes. -/
def ApiData.text (isjson : Bool) : ApiData → Option (List UInt8)
  | .string s | .const s => some s.bytes
  | .escape s => some (escapeString isjson s).bytes
  | _ => none

/-! ## Lists -/

/-- `COMMA`. -/
def comma : UInt8 := 0x2c

/-- A text in quotes, where there are any. -/
def quoted (isjson : Bool) (text : List UInt8) : List UInt8 :=
  if isjson then 0x22 :: (text ++ [0x22]) else text

/-- A value as it is printed. -/
def ApiData.print (isjson : Bool) (data : ApiData) : List UInt8 :=
  match data.text isjson with
  | some text => quoted isjson text
  | none => data.number printDouble

/-- A name and its value. -/
def ApiField.print (isjson : Bool) (f : ApiField) : List UInt8 :=
  quoted isjson f.name ++ (if isjson then 0x3a else 0x3d) :: f.data.print printDouble isjson

/-- The loop of `print_data`. -/
def printFields (isjson : Bool) : Bool → List ApiField → List UInt8
  | _, [] => []
  | first, f :: root =>
    (if first then [] else [comma]) ++ f.print printDouble isjson ++ printFields isjson false root

/-- The text that `print_data` makes. -/
def printDataText (root : List ApiField) (isjson precom : Bool) : List UInt8 :=
  (if precom then [comma] else []) ++ (if isjson then [0x7b] else []) ++
    printFields printDouble isjson true root ++ [if isjson then 0x7d else separator]

/-- `print_data` into a buffer of a command. -/
def printData (root : List ApiField) (isjson precom : Bool) : TextBuffer where
  size := tmpbufsiz
  text := printDataText printDouble root isjson precom

/-! ## Room -/

/-- The bytes that quotes take. -/
def quotesRoom (isjson : Bool) : ℕ := if isjson then 2 else 0

/-- The bytes that a value takes. -/
def ApiData.room (isjson : Bool) : ApiData → ℕ
  | .string s | .const s => quotesRoom isjson + s.length
  | .escape s => quotesRoom isjson + escapedRoom isjson s.bytes
  | data => (data.number printDouble).length

/-- The bytes that a name and its value take, with a comma or a brace behind them. -/
def ApiField.room (isjson : Bool) (f : ApiField) : ℕ :=
  quotesRoom isjson + f.name.length + f.data.room printDouble isjson + 2

/-- The bytes that a list takes.  A comma in front of it and the brace that opens it take one
each; a list of nothing still is closed. -/
def listRoom (root : List ApiField) (isjson precom : Bool) : ℕ :=
  precom.toNat + isjson.toNat + max 1 (root.map (ApiField.room printDouble isjson)).sum

end

section
variable {printDouble : ℕ → Float → List UInt8} {isjson : Bool}

theorem length_quoted (isjson : Bool) (text : List UInt8) :
    (quoted isjson text).length = quotesRoom isjson + text.length := by
  cases isjson <;> simp +arith [quoted, quotesRoom]

theorem length_data_print (printDouble : ℕ → Float → List UInt8) (isjson : Bool)
    (data : ApiData) :
    (data.print printDouble isjson).length = data.room printDouble isjson := by
  cases data with
  | string s | const s => exact length_quoted isjson s.bytes
  | escape s =>
      rw [ApiData.room, ← length_escapeString]
      exact length_quoted isjson _
  | _ => rfl

theorem length_field_print (printDouble : ℕ → Float → List UInt8) (isjson : Bool)
    (f : ApiField) :
    (f.print printDouble isjson).length + 1 = f.room printDouble isjson := by
  rw [ApiField.print, List.length_append, List.length_cons, length_quoted, length_data_print,
    ApiField.room]
  omega

/-- Behind each value there is a comma, but for the last. -/
theorem length_printFields (root : List ApiField) :
    (printFields printDouble isjson false root).length =
      (root.map (ApiField.room printDouble isjson)).sum := by
  induction root with
  | nil => rfl
  | cons f root ih =>
      have hf := length_field_print printDouble isjson f
      simp only [printFields, List.length_append, ih, List.map_cons, List.sum_cons]
      simp only [Bool.false_eq_true, if_false, List.length_singleton]
      omega

theorem length_printDataText (root : List ApiField) (precom : Bool) :
    (printDataText printDouble root isjson precom).length =
      listRoom printDouble root isjson precom := by
  have hfields : (printFields printDouble isjson true root).length + 1 =
      max 1 (root.map (ApiField.room printDouble isjson)).sum := by
    cases root with
    | nil => rfl
    | cons f root =>
        have hf := length_field_print printDouble isjson f
        simp only [printFields, List.length_append, length_printFields, List.map_cons,
          List.sum_cons, if_true, List.length_nil]
        omega
  cases precom <;> cases isjson <;>
    simp only [printDataText, listRoom, List.length_append, List.length_singleton, if_true,
      Bool.false_eq_true, if_false, List.length_nil, Bool.toNat_true, Bool.toNat_false] <;>
    omega

/-- `print_data` stays in its buffer exactly if the list takes less bytes than that has. -/
theorem fits_printData_iff (root : List ApiField) (precom : Bool) :
    (printData printDouble root isjson precom).Fits ↔
      listRoom printDouble root isjson precom < tmpbufsiz := by
  rw [TextBuffer.Fits, printData, length_printDataText, Nat.add_one_le_iff]

end

end MassGridMiner

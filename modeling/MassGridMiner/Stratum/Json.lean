import MassGridMiner.Lib.CString
import Mathlib.Data.Int.Notation

/-!
# JSON values

The values the JSON library hands to the client, and the accessors the client calls on
them.  The accessors take a pointer that may be NULL, here an option.  The parser itself
is not part of the repository; results that start from a line of text take it as a
parameter.

## Main definitions

* `Json` — a value.
* `Json.get`, `Json.arrayGet` — the member of an object, the element of an array.
* `jsonStringValue`, `jsonNumberValue` — what a value holds, with the library's answer
  where it is of another type.
-/

/-- A JSON value.  A string holds no NUL, which the library's parser refuses. -/
inductive Json
  | null
  | bool (b : Bool)
  | integer (n : ℤ)
  | real (x : Float)
  | string (s : CStr)
  | array (elems : List Json)
  | object (members : List (String × Json))

namespace Json

/-- `json_object_get`. -/
def get (val : Json) (key : String) : Option Json :=
  match val with
  | object members => (members.find? fun m => m.1 == key).map Prod.snd
  | _ => none

/-- `json_array_get`. -/
def arrayGet (val : Option Json) (i : ℕ) : Option Json :=
  match val with
  | some (array elems) => elems[i]?
  | _ => none

end Json

/-- `json_is_null`, false of a missing value. -/
def jsonIsNull : Option Json → Bool
  | some .null => true
  | _ => false

/-- `json_is_true`. -/
def jsonIsTrue : Option Json → Bool
  | some (.bool true) => true
  | _ => false

/-- A value that is missing or null. -/
def jsonIsNone (val : Option Json) : Bool := val.isNone || jsonIsNull val

/-- `json_string_value`, NULL of anything else. -/
def jsonStringValue : Option Json → Option CStr
  | some (.string s) => some s
  | _ => none

/-- `json_number_value`, zero of anything else. -/
def jsonNumberValue : Option Json → Float
  | some (.integer n) => Float.ofInt n
  | some (.real x) => x
  | _ => 0

/-- `__json_array_string`: the string at an index of an array. -/
def jsonArrayString (val : Option Json) (entry : ℕ) : Option CStr :=
  jsonStringValue (Json.arrayGet val entry)

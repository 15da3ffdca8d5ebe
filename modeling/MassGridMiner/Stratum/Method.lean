import MassGridMiner.Lib.Atof
import MassGridMiner.Stratum.Json

/-!
# Requests from a pool, and the difficulty it sets

`parse_method` chooses a handler by the beginning of the method's name.  For
`mining.set_difficulty` it reads the number a second time, from the text of the line
between the first brackets, into a buffer of 48 bytes, and this reading wins over the
element of `params` unless it is zero.

## Main definitions

* `Handler`, `methodHandler` — the choice of a handler.
* `scanDiff` — the bytes copied from the line.
* `parseDiff`, `setDifficulty` — the difficulty used.
* `UsesFirstElement` — the copy is within bounds and the difficulty is that of `params`.
-/

namespace MassGridMiner

/-- What `parse_method` may call. -/
inductive Handler
  | notify
  | setDifficulty
  | reconnect
  | getVersion
  | showMessage
  | setExtranonce
  | setGoal
  deriving DecidableEq, Repr

/-- The beginnings of method names, in the order in which they are tried. -/
def methodNames : List (String × Handler) := [
  ("mining.notify", .notify),
  ("mining.set_difficulty", .setDifficulty),
  ("client.reconnect", .reconnect),
  ("client.get_version", .getVersion),
  ("client.show_message", .showMessage),
  ("mining.set_extranonce", .setExtranonce),
  ("mining.set_goal", .setGoal)]

/-- The handler for a method.  No beginning is one of another, so at most one is tried. -/
def methodHandler (method : CStr) : Option Handler :=
  (methodNames.find? fun m => CStr.beginsNoCase m.1.toUTF8.toList method.bytes).map Prod.snd

/-- The method of a request, where `parse_method` gets as far as to look at it: it stops at
an error that is not null. -/
def requestMethod (val : Json) : Option CStr :=
  if val.get "error" = none ∨ jsonIsNull (val.get "error") = true then
    jsonStringValue (val.get "method")
  else none

/-- A line asks for the difficulty to be set, and `parse_method` gets as far as that. -/
def SetsDifficulty (val : Json) : Prop :=
  (requestMethod val).bind methodHandler = some .setDifficulty

/-- `strstr` of a single character. -/
def strchr (s : List UInt8) (c : UInt8) : Option ℕ := s.findIdx? (· == c)

/-- The difference of two pointers into one string, as an `int`. -/
def pointerDiff (e p : ℕ) : ℤ := ((e : ℤ) - p).bmod (2 ^ 32)

/-- Where the copy starts and how long it is: from behind the first `[` to the first `]`.
None where one is missing, and the pointers are not into the line. -/
def scanArgs (s : List UInt8) : Option (ℕ × ℤ) :=
  match strchr s 0x5b, strchr s 0x5d with
  | some p, some e => some (p + 1, pointerDiff e (p + 1))
  | _, _ => none

/-- The text in `strdiff` after a copy that stays within the line and the buffer, which is
zeroed before. -/
def scanDiff (s : CStr) : CStr :=
  match scanArgs s.bytes with
  | some (p, len) => .ofMem ((s.bytes.drop p).take len.toNat)
  | none => .empty

/-- The size of `strdiff`. -/
def strdiffSize : ℕ := 48

/-- `parse_diff`, given the number scanned from the line: the difficulty it uses, or none
where it returns false.  What follows in the source only converts the difficulty, by its
being a fraction and by the mining algorithm, and writes the target for it. -/
def parseDiff (params : Option Json) (e : Float) : Option Float :=
  let diff := jsonNumberValue (Json.arrayGet params 0)
  let diff := if e != 0 then e else diff
  if diff == 0 then none else some diff

/-- The difficulty that `parse_method` has `parse_diff` use. -/
def setDifficulty (s : CStr) (val : Json) : Option Float :=
  parseDiff (val.get "params") (CStr.atof (scanDiff s))

/-- The copy reads bytes of the line only and leaves room for the terminator. -/
def CopyInBounds (s : CStr) : Prop :=
  ∃ p len, scanArgs s.bytes = some (p, len) ∧
    0 ≤ len ∧ len < strdiffSize ∧ p + len.toNat ≤ s.length

/-- The first element of `params`, as a number. -/
def firstElement (val : Json) : Float := jsonNumberValue (Json.arrayGet (val.get "params") 0)

/-- A line that sets the difficulty is copied within bounds, and sets it to the first
element of `params`, where that is a number other than zero. -/
structure UsesFirstElement (jsonLoads : CStr → Option Json) (s : CStr) : Prop where
  inBounds : ∀ val, jsonLoads s = some val → SetsDifficulty val → CopyInBounds s
  first : ∀ val, jsonLoads s = some val → SetsDifficulty val → (firstElement val != 0) = true →
    ∀ diff, setDifficulty s val = some diff → diff = firstElement val

/-- The line has brackets, the first `]` at most 47 bytes behind the first `[`. -/
def BracketsFit (s : CStr) : Prop :=
  ∃ p e, strchr s.bytes 0x5b = some p ∧ strchr s.bytes 0x5d = some e ∧
    0 ≤ pointerDiff e (p + 1) ∧ pointerDiff e (p + 1) < 48 ∧
      p + 1 + (pointerDiff e (p + 1)).toNat ≤ s.length

/-- The text between these brackets reads as zero, or as the first element of `params`. -/
def BracketsAgree (s : CStr) (val : Json) : Prop :=
  (CStr.atof (scanDiff s) != 0) = true → CStr.atof (scanDiff s) = firstElement val

theorem bracketsFit_iff (s : CStr) : BracketsFit s ↔ CopyInBounds s := by
  rw [BracketsFit, CopyInBounds, scanArgs, strdiffSize]
  constructor
  · rintro ⟨p, e, hp, he, hfit⟩
    rw [hp, he]
    exact ⟨p + 1, pointerDiff e (p + 1), rfl, hfit⟩
  · rintro ⟨p, len, hargs, hfit⟩
    split at hargs
    · rename_i p e hp he
      cases hargs
      exact ⟨p, e, hp, he, hfit⟩
    · cases hargs

/-- In a line of less than two gigabytes these are the distances one sees. -/
theorem bracketsFit_iff_of_length_lt {s : CStr} (H : s.length < 2 ^ 31) :
    BracketsFit s ↔ ∃ p e, strchr s.bytes 0x5b = some p ∧ strchr s.bytes 0x5d = some e ∧
      p < e ∧ e ≤ p + 48 := by
  refine exists_congr fun p => exists_congr fun e => and_congr_right fun hp =>
    and_congr_right fun he => ?_
  have hplt : p < s.length := (List.findIdx?_eq_some_iff_getElem.mp hp).1
  have helt : e < s.length := (List.findIdx?_eq_some_iff_getElem.mp he).1
  have hdiff : pointerDiff e (p + 1) = (e : ℤ) - (p + 1 : ℕ) :=
    Int.bmod_eq_of_le (by omega) (by omega)
  rw [hdiff]
  omega

/-- The difficulty set, where the first element is a number other than zero. -/
theorem setDifficulty_eq {s : CStr} {val : Json} (H : (firstElement val != 0) = true) :
    setDifficulty s val = some (if (CStr.atof (scanDiff s) != 0) = true
      then CStr.atof (scanDiff s) else firstElement val) := by
  have hdiff : ((if (CStr.atof (scanDiff s) != 0) = true
      then CStr.atof (scanDiff s) else firstElement val) == 0) = false := by
    split
    · rename_i hscan
      rwa [bne, Bool.not_eq_true'] at hscan
    · rwa [bne, Bool.not_eq_true'] at H
  show (if ((if (CStr.atof (scanDiff s) != 0) = true then CStr.atof (scanDiff s)
    else firstElement val) == 0) = true then none else some _) = _
  rw [hdiff]
  rfl

/-- **The difficulty is that of `params`, and the copy safe, exactly where the first
brackets of the line fit the buffer and agree with it.** -/
theorem usesFirstElement_iff (jsonLoads : CStr → Option Json) (s : CStr) :
    UsesFirstElement jsonLoads s ↔
      ∀ val, jsonLoads s = some val → SetsDifficulty val →
        BracketsFit s ∧ ((firstElement val != 0) = true → BracketsAgree s val) := by
  constructor
  · intro H val hval hsets
    refine ⟨(bracketsFit_iff s).mpr (H.inBounds val hval hsets), fun hfirst hscan => ?_⟩
    have hdiff := H.first val hval hsets hfirst _ (setDifficulty_eq hfirst)
    rwa [if_pos hscan] at hdiff
  · intro H
    refine ⟨fun val hval hsets => (bracketsFit_iff s).mp (H val hval hsets).1, ?_⟩
    intro val hval hsets hfirst diff hdiff
    rw [setDifficulty_eq hfirst, Option.some.injEq] at hdiff
    rw [← hdiff]
    split
    · exact (H val hval hsets).2 hfirst ‹_›
    · rfl

/-- `{"id":[5],"method":"mining.set_difficulty","params":[8]}`. -/
def idFirst : CStr :=
  ⟨"\x7b\"id\":[5],\"method\":\"mining.set_difficulty\",\"params\":[8]\x7d".toUTF8.toList,
    by decide +kernel⟩

/-- Its value. -/
def idFirstJson : Json := .object [("id", .array [.integer 5]),
  ("method", .string ⟨"mining.set_difficulty".toUTF8.toList, by decide +kernel⟩),
  ("params", .array [.integer 8])]

/-- The difficulty set is 5. -/
theorem not_usesFirstElement_idFirst :
    ¬ UsesFirstElement (fun s => if s = idFirst then some idFirstJson else none) idFirst := by
  intro H
  have hsets : SetsDifficulty idFirstJson := by
    rw [SetsDifficulty]
    decide +kernel
  have hfirst : (firstElement idFirstJson != 0) = true := by decide +kernel
  have hdiff := H.first idFirstJson (if_pos rfl) hsets hfirst _ (setDifficulty_eq hfirst)
  revert hdiff
  decide +kernel

end MassGridMiner

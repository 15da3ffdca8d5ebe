import MassGridMiner.Lib.JsonText
import Mathlib.Data.List.Forall2

/-!
# Objects that are written

A program that writes an object puts its members behind each other, with commas between them.
The text is read as the object that is meant if each key is plain and the text of each value is
read as that value where it is.

## Main definitions

* `Reads` — a text that is read as a value inside an object.
* `writtenMembers`, `writtenObject` — the text of an object.
* `reads_writtenObject`, `isText_writtenObject` — it is read as the object.
-/

namespace JsonText

/-- A text that is read as a value in front of a comma, and of the brace that closes an object. -/
structure Reads (text : List UInt8) (v : Tree) : Prop where
  comma : ∀ rest, Value (text ++ 0x2c :: rest) v (0x2c :: rest)
  close : ∀ rest, Value (text ++ 0x7d :: rest) v (0x7d :: rest)

/-- Members with the texts of their values. -/
def writtenMembers : List (List UInt8 × List UInt8) → List UInt8
  | [] => []
  | [(k, text)] => 0x22 :: (k ++ 0x22 :: 0x3a :: text)
  | (k, text) :: m :: ms => 0x22 :: (k ++ 0x22 :: 0x3a :: (text ++ 0x2c :: writtenMembers (m :: ms)))

/-- An object with the texts of its values. -/
def writtenObject (ms : List (List UInt8 × List UInt8)) : List UInt8 :=
  0x7b :: (writtenMembers ms ++ [0x7d])

/-- A member as it is written and as it is meant. -/
structure ReadsMember (m : List UInt8 × List UInt8) (m' : List UInt8 × Tree) : Prop where
  key : m.1 = m'.1
  plain : ∀ c ∈ m.1, Plain c
  reads : Reads m.2 m'.2

/-- A plain text is read up to the quote behind it. -/
theorem str_of_plain {s : List UInt8} (H : ∀ c ∈ s, Plain c) (rest : List UInt8) :
    Str (s ++ 0x22 :: rest) s rest := by
  induction s with
  | nil => exact .close
  | cons c s ih =>
      exact .plain (H c List.mem_cons_self) (ih fun d hd => H d (List.mem_cons_of_mem _ hd))

theorem reads_null : Reads [0x6e, 0x75, 0x6c, 0x6c] .null :=
  ⟨fun _ => .null rfl, fun _ => .null rfl⟩

theorem reads_bool (b : Bool) :
    Reads (if b then [0x74, 0x72, 0x75, 0x65] else [0x66, 0x61, 0x6c, 0x73, 0x65]) (.bool b) := by
  cases b with
  | true => exact ⟨fun _ => .true rfl, fun _ => .true rfl⟩
  | false => exact ⟨fun _ => .false rfl, fun _ => .false rfl⟩

theorem reads_number {n : List UInt8} (hn : IsNumber n) : Reads n (.number n) := by
  obtain ⟨c, t, rfl, hc⟩ := hn.exists_cons
  have hws : isWs c = false := isWs_of_number hc
  exact ⟨fun rest => .number (skipWs_cons hws _) hn, fun rest => .number (skipWs_cons hws _) hn⟩

theorem reads_string {s : List UInt8} (H : ∀ c ∈ s, Plain c) :
    Reads (0x22 :: (s ++ [0x22])) (.string s) := by
  have hread : ∀ rest, Value (0x22 :: (s ++ [0x22]) ++ rest) (.string s) rest := by
    intro rest
    rw [List.cons_append, List.append_assoc, List.singleton_append]
    exact .string (skipWs_cons rfl _) (str_of_plain H rest)
  exact ⟨fun _ => hread _, fun _ => hread _⟩

/-- The members are read up to the brace behind them. -/
theorem members_writtenMembers {ms : List (List UInt8 × List UInt8)} {m : List UInt8 × Tree}
    {ms' : List (List UInt8 × Tree)} (H : List.Forall₂ ReadsMember ms (m :: ms'))
    (rest : List UInt8) : Members (writtenMembers ms ++ 0x7d :: rest) (m :: ms') rest := by
  induction ms generalizing m ms' with
  | nil => cases H
  | cons a ms ih =>
      obtain ⟨ha, hms⟩ := List.forall₂_cons.mp H
      obtain ⟨k, text⟩ := a
      obtain ⟨k', v⟩ := m
      obtain ⟨rfl, hplain, hreads⟩ := ha
      cases hms with
      | nil =>
          refine .last (skipWs_cons rfl _) ?_ (skipWs_cons rfl _) (hreads.close rest)
            (skipWs_cons rfl _)
          simpa using str_of_plain hplain (0x3a :: (text ++ 0x7d :: rest))
      | cons hb hrest =>
          refine .cons (skipWs_cons rfl _) ?_ (skipWs_cons rfl _) (hreads.comma _)
            (skipWs_cons rfl _) (ih (.cons hb hrest))
          simpa using str_of_plain hplain _

/-- An object is read as it is meant. -/
theorem reads_writtenObject {ms : List (List UInt8 × List UInt8)} {m : List UInt8 × Tree}
    {ms' : List (List UInt8 × Tree)} (H : List.Forall₂ ReadsMember ms (m :: ms')) :
    Reads (writtenObject ms) (.object (m :: ms')) := by
  have hread : ∀ rest, Value (writtenObject ms ++ rest) (.object (m :: ms')) rest := by
    intro rest
    rw [writtenObject, List.cons_append, List.append_assoc, List.singleton_append]
    exact .object (skipWs_cons rfl _) (members_writtenMembers H rest)
  exact ⟨fun _ => hread _, fun _ => hread _⟩

/-- The text of an object is that object and nothing else. -/
theorem isText_writtenObject {ms : List (List UInt8 × List UInt8)} {m : List UInt8 × Tree}
    {ms' : List (List UInt8 × Tree)} (H : List.Forall₂ ReadsMember ms (m :: ms')) :
    IsText (writtenObject ms) (.object (m :: ms')) :=
  ⟨[], .object (skipWs_cons rfl _) (members_writtenMembers H []), rfl⟩

end JsonText

import MassGridMiner.Lib.Atof
import MassGridMiner.Lib.Hex

/-!
# Text in memory

A function that is given a pointer to text looks at one place after another, up to the terminator
at most.  What it looks at is then inside of a text exactly if the pointer is.

## Main definitions

* `strAt mem p` — the text that starts at a place in memory.
* `Stops looks` — a function of texts looks at so many places, up to the terminator at most.
* `looksHex`, `longLength`, `looksLong` — how far `hex2bin` and `strtol` look.
* `Stops.inside_iff` — what is looked at is inside of a text.
-/

/-- The text that starts at a place in memory. -/
def strAt (mem : List UInt8) (p : ℕ) : List UInt8 := (mem.drop p).takeWhile (· ≠ 0)

/-- A function of texts looks at so many places, up to the terminator at most. -/
structure Stops (looks : List UInt8 → ℕ) : Prop where
  pos : ∀ s, 0 < looks s
  le : ∀ s, looks s ≤ s.length + 1

/-- The places that `hex2bin` looks at. -/
def looksHex : List UInt8 → ℕ → ℕ
  | n :: o :: s, len + 1 =>
    if (hexChar n).isNone then 1 else if (hexChar o).isNone then 2 else looksHex s len + 2
  | [n], _ + 1 => if (hexChar n).isNone then 1 else 2
  | [], _ + 1 => 1
  | _, 0 => 1

/-- Where the number ends that `strtol` reads: the white space and the sign before it, and its
digits. -/
def longParts (s : List UInt8) : ℕ × ℕ :=
  let spaces := (s.takeWhile CStr.isSpace).length
  let start := spaces + if (s[spaces]?.any fun c => c == 0x2d || c == 0x2b) then 1 else 0
  (start, (CStr.digits 10 (s.drop start)).length)

/-- The length of what `strtol` takes for a number. -/
def longLength (s : List UInt8) : ℕ :=
  if (longParts s).2 = 0 then 0 else (longParts s).1 + (longParts s).2

/-- The places that `strtol` looks at. -/
def looksLong (s : List UInt8) : ℕ := (longParts s).1 + (longParts s).2 + 1

variable {text behind : List UInt8} {looks : List UInt8 → ℕ} {p : ℕ}

theorem strAt_of_le (htext : 0 ∉ text) (hp : p ≤ text.length) :
    strAt (text ++ 0 :: behind) p = text.drop p := by
  have hall : ∀ c ∈ text.drop p, decide (c ≠ 0) = true := fun c hc =>
    decide_eq_true fun h => htext (h ▸ List.mem_of_mem_drop hc)
  rw [strAt, List.drop_append_of_le_length hp, List.takeWhile_append_of_pos hall]
  simp

/-- **What a function looks at** is inside of a text and its terminator exactly if the pointer that
it is given is. -/
theorem Stops.inside_iff (H : Stops looks) (htext : 0 ∉ text) (behind : List UInt8) :
    p + looks (strAt (text ++ 0 :: behind) p) ≤ text.length + 1 ↔ p ≤ text.length := by
  have hpos := H.pos (strAt (text ++ 0 :: behind) p)
  constructor
  · omega
  · intro hp
    have hle := H.le (text.drop p)
    rw [List.length_drop] at hle
    rw [strAt_of_le htext hp]
    omega

theorem looksHex_bounds (s : List UInt8) (len : ℕ) :
    0 < looksHex s len ∧ looksHex s len ≤ s.length + 1 := by
  induction s, len using looksHex.induct with
  | case1 n o s len hn => simp [looksHex, hn]
  | case2 n o s len hn ho =>
    rw [looksHex, if_neg hn, if_pos ho]
    exact ⟨Nat.two_pos, by simp⟩
  | case3 n o s len hn ho ih =>
    rw [looksHex, if_neg hn, if_neg ho]
    simp only [List.length_cons]
    omega
  | case4 n len hn => simp [looksHex, hn]
  | case5 n len hn => simp [looksHex, hn]
  | case6 len => simp [looksHex]
  | case7 s => simp [looksHex]

theorem stops_looksHex (len : ℕ) : Stops (looksHex · len) :=
  ⟨fun s => (looksHex_bounds s len).1, fun s => (looksHex_bounds s len).2⟩

/-- The parts of a number are inside of its text. -/
theorem longParts_le (s : List UInt8) : (longParts s).1 + (longParts s).2 ≤ s.length := by
  have hspaces : (s.takeWhile CStr.isSpace).length ≤ s.length :=
    (List.takeWhile_prefix _).length_le
  have hstart : (longParts s).1 ≤ s.length := by
    simp only [longParts]
    split
    case isTrue hsign =>
      obtain ⟨c, hc, -⟩ := (Option.any_eq_true _ _).mp hsign
      exact (List.getElem?_eq_some_iff.mp hc).1
    case isFalse => exact hspaces
  have hdigits : (longParts s).2 ≤ (s.drop (longParts s).1).length :=
    (List.takeWhile_prefix _).length_le
  rw [List.length_drop] at hdigits
  omega

theorem stops_looksLong : Stops looksLong :=
  ⟨fun _ => Nat.succ_pos _, fun s => Nat.succ_le_succ (longParts_le s)⟩

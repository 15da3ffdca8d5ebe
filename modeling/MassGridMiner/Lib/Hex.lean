import Mathlib.Data.List.Basic

/-!
# Hexadecimal text

`hex2bin` decodes a given number of bytes and says whether the text was just that long and
had only digits.  Its result and what it writes are those of `decodeHex` whenever it
succeeds; when it fails it has written the bytes before the failure.  `bin2hex` spells
bytes, and what it spells is decoded to the same bytes.

## Main definitions

* `hexChar`, `hex2bin`, `bin2hex` — the functions of the source.
* `decodeHex` — the bytes a text spells, if it is hexadecimal of even length.
-/

/-- `_hex2bin_char`. -/
def hexChar (c : UInt8) : Option UInt8 :=
  if 0x30 ≤ c && c ≤ 0x39 then some (c - 0x30)
  else if 0x61 ≤ c && c ≤ 0x66 then some (c - 0x61 + 10)
  else if 0x41 ≤ c && c ≤ 0x46 then some (c - 0x41 + 10)
  else none

/-- The byte that two digits spell. -/
def hexByte (n o : UInt8) : Option UInt8 :=
  (hexChar n).bind fun n => (hexChar o).map fun o => n <<< 4 ||| o

/-- `hex2bin` of the text before the terminator: the bytes written, and the result. -/
def hex2bin : List UInt8 → ℕ → List UInt8 × Bool
  | s, 0 => ([], s.isEmpty)
  | n :: o :: s, len + 1 =>
    match hexByte n o with
    | some b => (b :: (hex2bin s len).1, (hex2bin s len).2)
    | none => ([], false)
  | _, _ + 1 => ([], false)

/-- The bytes that a text of digit pairs spells. -/
def decodeHex : List UInt8 → Option (List UInt8)
  | [] => some []
  | [_] => none
  | n :: o :: s => (hexByte n o).bind fun b => (decodeHex s).map (b :: ·)

theorem length_hex2bin_le (s : List UInt8) (len : ℕ) : (hex2bin s len).1.length ≤ len := by
  induction s, len using hex2bin.induct with
  | case1 s => simp [hex2bin]
  | case2 n o s len b hb ih => simp [hex2bin, hb, ih]
  | case3 n o s len hb => simp [hex2bin, hb]
  | case4 s len hshort => simp [hex2bin]

/-- A text of so many digit pairs is decoded. -/
theorem hex2bin_of_decodeHex {s bs : List UInt8} (H : decodeHex s = some bs) :
    hex2bin s bs.length = (bs, true) := by
  induction s using decodeHex.induct generalizing bs with
  | case1 =>
      obtain rfl := Option.some.inj H
      rfl
  | case2 c => simp [decodeHex] at H
  | case3 n o s ih =>
      simp only [decodeHex, Option.bind_eq_some_iff, Option.map_eq_some_iff] at H
      obtain ⟨b, hb, rest, hrest, rfl⟩ := H
      simp [hex2bin, hb, ih hrest]

/-- The first bytes that are decoded are those that the beginning of the text spells. -/
theorem fst_hex2bin_of_take {s bs : List UInt8} {len : ℕ}
    (H : decodeHex (s.take (2 * len)) = some bs) (hlen : bs.length = len) : (hex2bin s len).1 = bs := by
  induction s, len using hex2bin.induct generalizing bs with
  | case1 s =>
      rw [List.length_eq_zero_iff] at hlen
      rw [hlen, hex2bin]
  | case2 n o s len b hb ih =>
      rw [Nat.mul_succ, List.take_succ_cons, List.take_succ_cons, decodeHex, hb, Option.bind_some,
        Option.map_eq_some_iff] at H
      obtain ⟨rest, hrest, rfl⟩ := H
      rw [hex2bin, hb]
      exact congrArg _ (ih hrest (Nat.succ.inj hlen))
  | case3 n o s len hb =>
      rw [Nat.mul_succ, List.take_succ_cons, List.take_succ_cons, decodeHex, hb] at H
      cases H
  | case4 s len hshort =>
      match s with
      | [] =>
          rw [List.take_nil] at H
          obtain rfl := Option.some.inj H
          cases hlen
      | [_] =>
          rw [Nat.mul_succ, List.take_succ_cons, List.take_nil] at H
          cases H
      | n :: o :: s => exact absurd rfl (hshort n o s)

theorem length_of_decodeHex {s bs : List UInt8} (H : decodeHex s = some bs) :
    s.length = 2 * bs.length := by
  induction s using decodeHex.induct generalizing bs with
  | case1 =>
      obtain rfl := Option.some.inj H
      rfl
  | case2 c => simp [decodeHex] at H
  | case3 n o s ih =>
      simp only [decodeHex, Option.bind_eq_some_iff, Option.map_eq_some_iff] at H
      obtain ⟨b, hb, rest, hrest, rfl⟩ := H
      have := ih hrest
      simp only [List.length_cons]
      omega

theorem hexByte_eq_some_iff {n o b : UInt8} :
    hexByte n o = some b ↔
      ∃ hi lo, hexChar n = some hi ∧ hexChar o = some lo ∧ hi <<< 4 ||| lo = b := by
  simp only [hexByte, Option.bind_eq_some_iff, Option.map_eq_some_iff]
  constructor
  · rintro ⟨hi, hhi, lo, hlo, hb⟩
    exact ⟨hi, lo, hhi, hlo, hb⟩
  · rintro ⟨hi, lo, hhi, hlo, hb⟩
    exact ⟨hi, hhi, lo, hlo, hb⟩

theorem isSome_of_decodeHex {s bs : List UInt8} (H : decodeHex s = some bs) :
    ∀ c ∈ s, (hexChar c).isSome = true := by
  induction s using decodeHex.induct generalizing bs with
  | case1 => simp
  | case2 c => simp [decodeHex] at H
  | case3 n o s ih =>
      simp only [decodeHex, Option.bind_eq_some_iff, Option.map_eq_some_iff] at H
      obtain ⟨b, hb, rest, hrest, rfl⟩ := H
      obtain ⟨hi, lo, hhi, hlo, _⟩ := hexByte_eq_some_iff.mp hb
      simp only [List.mem_cons, forall_eq_or_imp, hhi, hlo, Option.isSome_some, true_and]
      exact ih hrest

theorem decodeHex_of_isSome {s : List UInt8} (Heven : s.length % 2 = 0)
    (H : ∀ c ∈ s, (hexChar c).isSome = true) : ∃ bs, decodeHex s = some bs := by
  induction s using decodeHex.induct with
  | case1 => exact ⟨[], rfl⟩
  | case2 c => simp at Heven
  | case3 n o s ih =>
      simp only [List.mem_cons, forall_eq_or_imp, Option.isSome_iff_exists] at H
      obtain ⟨⟨hi, hhi⟩, ⟨lo, hlo⟩, hrest⟩ := H
      simp only [List.length_cons] at Heven
      obtain ⟨bs, hbs⟩ := ih (by omega) fun c hc => Option.isSome_iff_exists.mpr (hrest c hc)
      exact ⟨_, by rw [decodeHex, hexByte_eq_some_iff.mpr ⟨hi, lo, hhi, hlo, rfl⟩, hbs]; rfl⟩

/-- **The texts that spell so many bytes** are those of twice as many digits. -/
theorem exists_decodeHex_iff {s : List UInt8} {len : ℕ} :
    (∃ bs, decodeHex s = some bs ∧ bs.length = len) ↔
      s.length = 2 * len ∧ ∀ c ∈ s, (hexChar c).isSome = true := by
  constructor
  · rintro ⟨bs, hbs, rfl⟩
    exact ⟨length_of_decodeHex hbs, isSome_of_decodeHex hbs⟩
  · rintro ⟨hlen, hdigits⟩
    obtain ⟨bs, hbs⟩ := decodeHex_of_isSome (by omega) hdigits
    exact ⟨bs, hbs, by have := length_of_decodeHex hbs; omega⟩

/-- Texts one behind the other spell their bytes one behind the other. -/
theorem decodeHex_append {s t bs cs : List UInt8} (hs : decodeHex s = some bs)
    (ht : decodeHex t = some cs) : decodeHex (s ++ t) = some (bs ++ cs) := by
  induction s using decodeHex.induct generalizing bs with
  | case1 =>
      obtain rfl := Option.some.inj hs
      exact ht
  | case2 c => simp [decodeHex] at hs
  | case3 n o s ih =>
      simp only [decodeHex, Option.bind_eq_some_iff, Option.map_eq_some_iff] at hs
      obtain ⟨b, hb, rest, hrest, rfl⟩ := hs
      simp [decodeHex, hb, ih hrest]

/-- A pair of digits again and again. -/
theorem decodeHex_replicate {n : UInt8} {b : UInt8} (H : hexByte n n = some b) (k : ℕ) :
    decodeHex (List.replicate (k * 2) n) = some (List.replicate k b) := by
  induction k with
  | zero => rfl
  | succ k ih =>
      rw [Nat.succ_mul, List.replicate_succ, List.replicate_succ, List.replicate_succ, decodeHex,
        H, ih]
      rfl

/-! ## Spelling bytes -/

/-- `_hexchars`. -/
def hexDigits : Vector UInt8 16 := #v[0x30, 0x31, 0x32, 0x33, 0x34, 0x35, 0x36, 0x37, 0x38, 0x39,
  0x61, 0x62, 0x63, 0x64, 0x65, 0x66]

/-- `bin2hex`, without the terminator. -/
def bin2hex : List UInt8 → List UInt8
  | [] => []
  | b :: bs => hexDigits[(b >>> 4).toNat % 16] :: hexDigits[(b &&& 0xf).toNat % 16] :: bin2hex bs

@[simp] theorem length_bin2hex (bs : List UInt8) : (bin2hex bs).length = 2 * bs.length := by
  induction bs with
  | nil => rfl
  | cons b bs ih => simp only [bin2hex, List.length_cons, ih, Nat.mul_add]

theorem hexByte_hexDigits (b : UInt8) :
    hexByte hexDigits[(b >>> 4).toNat % 16] hexDigits[(b &&& 0xf).toNat % 16] = some b := by
  obtain ⟨x⟩ := b
  revert x
  decide +kernel

/-- **What is spelt is decoded again.** -/
theorem decodeHex_bin2hex (bs : List UInt8) : decodeHex (bin2hex bs) = some bs := by
  induction bs with
  | nil => rfl
  | cons b bs ih => simp only [bin2hex, decodeHex, hexByte_hexDigits, Option.bind_some, ih,
      Option.map_some]

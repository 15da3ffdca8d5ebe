import MassGridMiner.Lib.Format

/-!
# Numbers in hexadecimal

A number that is printed in hexadecimal can be read back, and its text holds no other characters
than digits.

## Main definitions

* `hexNumber` — the text of a number.
* `hexNumber_injective` — different numbers have different texts.
* `hexNumber_append_inj` — a text ends in one number behind a hyphen at most.
-/

/-- A number in lower-case hexadecimal. -/
def hexNumber (n : ℕ) : List UInt8 := literal (String.ofList (Nat.toDigits 16 n))

theorem literal_ofList_append (l l' : List Char) :
    literal (String.ofList (l ++ l')) =
      literal (String.ofList l) ++ literal (String.ofList l') := by
  rw [literal_eq, literal_eq, literal_eq, String.ofList_append, ← Array.toList_append,
    ← ByteArray.data_append]
  rfl

/-- The byte of a digit. -/
def hexDigit (d : ℕ) : UInt8 := if d < 10 then 0x30 + UInt8.ofNat d else 0x57 + UInt8.ofNat d

theorem hexNumber_of_lt {d : ℕ} (H : d < 16) : hexNumber d = [hexDigit d] := by
  have hall : ∀ i : Fin 16, hexNumber i = [hexDigit i] := by decide +kernel
  exact hall ⟨d, H⟩

theorem hexDigit_inj {d d' : ℕ} (H : d < 16) (H' : d' < 16) (heq : hexDigit d = hexDigit d') :
    d = d' := by
  have hall : ∀ i j : Fin 16, hexDigit i = hexDigit j → i = j := by decide +kernel
  exact congrArg Fin.val (hall ⟨d, H⟩ ⟨d', H'⟩ heq)

theorem hexDigit_ne_hyphen {d : ℕ} (H : d < 16) : hexDigit d ≠ 0x2d := by
  have hall : ∀ i : Fin 16, hexDigit i ≠ 0x2d := by decide +kernel
  exact hall ⟨d, H⟩

/-- The last digit stands behind the number without it. -/
theorem hexNumber_of_le {n : ℕ} (H : 16 ≤ n) :
    hexNumber n = hexNumber (n / 16) ++ [hexDigit (n % 16)] := by
  have hlt : n % 16 < 16 := Nat.mod_lt n (by decide)
  rw [← hexNumber_of_lt hlt, hexNumber, hexNumber, hexNumber, Nat.toDigits_of_base_le (by decide) H,
    ← Nat.toDigits_of_lt_base hlt, literal_ofList_append]

theorem hexNumber_ne_nil (n : ℕ) : hexNumber n ≠ [] := by
  by_cases h : n < 16
  · simp [hexNumber_of_lt h]
  · simp [hexNumber_of_le (not_lt.mp h)]

theorem hyphen_notMem_hexNumber (n : ℕ) : 0x2d ∉ hexNumber n := by
  induction n using Nat.strongRecOn with
  | ind n ih =>
      by_cases h : n < 16
      · rw [hexNumber_of_lt h, List.mem_singleton]
        exact (hexDigit_ne_hyphen h).symm
      · rw [hexNumber_of_le (not_lt.mp h), List.mem_append, List.mem_singleton, not_or]
        exact ⟨ih (n / 16) (by omega), (hexDigit_ne_hyphen (Nat.mod_lt n (by decide))).symm⟩

theorem hexNumber_injective : Function.Injective hexNumber := by
  intro n
  induction n using Nat.strongRecOn with
  | ind n ih =>
      intro m heq
      by_cases hn : n < 16
      · by_cases hm : m < 16
        · rw [hexNumber_of_lt hn, hexNumber_of_lt hm, List.singleton_inj] at heq
          exact hexDigit_inj hn hm heq
        · rw [hexNumber_of_lt hn, hexNumber_of_le (not_lt.mp hm)] at heq
          have hlen := congrArg List.length heq
          have hpos := List.length_pos_iff.mpr (hexNumber_ne_nil (m / 16))
          simp only [List.length_append, List.length_singleton] at hlen
          omega
      · rw [hexNumber_of_le (not_lt.mp hn)] at heq
        by_cases hm : m < 16
        · rw [hexNumber_of_lt hm] at heq
          have hlen := congrArg List.length heq
          have hpos := List.length_pos_iff.mpr (hexNumber_ne_nil (n / 16))
          simp only [List.length_append, List.length_singleton] at hlen
          omega
        · rw [hexNumber_of_le (not_lt.mp hm)] at heq
          obtain ⟨hfront, hlast⟩ := List.append_inj' heq rfl
          have hdiv := ih (n / 16) (by omega) hfront
          have hmod := hexDigit_inj (Nat.mod_lt n (by decide)) (Nat.mod_lt m (by decide))
            (List.singleton_inj.mp hlast)
          omega

/-- What stands behind the last of an element is determined. -/
theorem eq_of_append_cons_eq {α : Type*} {x : α} {front front' l l' : List α} (hl : x ∉ l)
    (hl' : x ∉ l') (heq : front ++ x :: l = front' ++ x :: l') : l = l' := by
  rcases List.append_eq_append_iff.mp heq with ⟨a, -, ha⟩ | ⟨a, -, ha⟩
  · cases a with
    | nil => exact (List.cons.inj ha).2
    | cons y a =>
        apply absurd _ hl
        rw [(List.cons.inj ha).2]
        simp
  · cases a with
    | nil => exact (List.cons.inj ha).2.symm
    | cons y a =>
        apply absurd _ hl'
        rw [(List.cons.inj ha).2]
        simp

/-- A number behind a hyphen can be told from the end of a text. -/
theorem hexNumber_append_inj {front front' : List UInt8} {n m : ℕ}
    (heq : front ++ 0x2d :: hexNumber n = front' ++ 0x2d :: hexNumber m) : n = m :=
  hexNumber_injective
    (eq_of_append_cons_eq (hyphen_notMem_hexNumber n) (hyphen_notMem_hexNumber m) heq)

import Mathlib.Data.List.Basic

/-!
# UTF-8

A text is UTF-8 if it is made of encoded characters.  A byte below 0x80 stands for itself and is
in no other encoding, so that a text is UTF-8 exactly if the pieces between such bytes are.

A piece of text is well encoded exactly under a condition if it and whatever follows it are UTF-8
exactly if the condition holds and what follows it is UTF-8.

## Main definitions

* `Utf8` — a text of encoded characters.
* `utf8_append_cons_iff` — a text that is cut at a byte below 0x80.
* `Encoded` — a piece that is well encoded exactly under a condition.
-/

/-- A text of encoded characters. -/
def Utf8 (text : List UInt8) : Prop := ∃ cs : List Char, text = cs.flatMap String.utf8EncodeChar

theorem utf8_nil : Utf8 [] := ⟨[], rfl⟩

theorem Utf8.append {a b : List UInt8} (ha : Utf8 a) (hb : Utf8 b) : Utf8 (a ++ b) := by
  obtain ⟨cs, rfl⟩ := ha
  obtain ⟨ds, rfl⟩ := hb
  exact ⟨cs ++ ds, List.flatMap_append.symm⟩

section
variable {c : UInt8} (hc : c < 0x80)
include hc

/-- A byte below 0x80 is the encoding of a character. -/
theorem exists_utf8EncodeChar : ∃ ch : Char, String.utf8EncodeChar ch = [c] := by
  have hlt : c.toNat < 128 := hc
  have hvalid : c.toNat.isValidChar := .inl (by omega)
  refine ⟨Char.ofNatAux c.toNat hvalid, ?_⟩
  have hval : (Char.ofNatAux c.toNat hvalid).val.toNat = c.toNat := rfl
  rw [String.utf8EncodeChar, hval, if_pos (by omega), UInt8.ofNat_toNat]

/-- A byte below 0x80 is in no encoding but its own. -/
theorem utf8EncodeChar_eq_of_mem {ch : Char} (H : c ∈ String.utf8EncodeChar ch) :
    String.utf8EncodeChar ch = [c] := by
  have hlt : c.toNat < 128 := hc
  -- the bytes of a longer encoding have a mark added that is too large
  have hmark : ∀ n m k : ℕ, 0x80 ≤ k → m + k ≤ 256 → 0 < m → c = UInt8.ofNat (n % m + k) →
      False := by
    rintro n m k hk hsum hm rfl
    have hmod := Nat.mod_lt n hm
    rw [UInt8.toNat_ofNat', Nat.mod_eq_of_lt (by omega)] at hlt
    omega
  rw [String.utf8EncodeChar] at H ⊢
  split at H
  · rw [List.mem_singleton] at H
    rw [if_pos ‹_›, H]
  · exfalso
    split at H
    · simp only [List.mem_cons, List.not_mem_nil, or_false] at H
      rcases H with h | h
      · exact hmark _ _ _ (by decide) (by decide) (by decide) h
      · exact hmark _ _ _ (by decide) (by decide) (by decide) h
    · split at H
      · simp only [List.mem_cons, List.not_mem_nil, or_false] at H
        rcases H with h | h | h
        · exact hmark _ _ _ (by decide) (by decide) (by decide) h
        · exact hmark _ _ _ (by decide) (by decide) (by decide) h
        · exact hmark _ _ _ (by decide) (by decide) (by decide) h
      · simp only [List.mem_cons, List.not_mem_nil, or_false] at H
        rcases H with h | h | h | h
        · exact hmark _ _ _ (by decide) (by decide) (by decide) h
        · exact hmark _ _ _ (by decide) (by decide) (by decide) h
        · exact hmark _ _ _ (by decide) (by decide) (by decide) h
        · exact hmark _ _ _ (by decide) (by decide) (by decide) h

/-- **A text is cut at a byte below 0x80.** -/
theorem utf8_append_cons_iff {a b : List UInt8} : Utf8 (a ++ c :: b) ↔ Utf8 a ∧ Utf8 b := by
  constructor
  · rintro ⟨cs, htext⟩
    induction cs generalizing a with
    | nil => simp at htext
    | cons ch cs ih =>
        rw [List.flatMap_cons] at htext
        rcases List.append_eq_append_iff.mp htext with ⟨more, hmore, hrest⟩ | ⟨more, ha, hrest⟩
        · cases more with
          | nil =>
              have hnext := ih (a := []) (by simpa using hrest)
              rw [List.append_nil] at hmore
              exact ⟨⟨[ch], by simp [hmore]⟩, hnext.2⟩
          | cons d more =>
              obtain ⟨rfl, hb⟩ := List.cons.inj hrest
              have hmem : c ∈ String.utf8EncodeChar ch := by simp [hmore]
              have hself := utf8EncodeChar_eq_of_mem hc hmem
              rw [hmore] at hself
              have hlen := congrArg List.length hself
              rw [List.length_append, List.length_cons, List.length_singleton] at hlen
              obtain rfl : a = [] := List.length_eq_zero_iff.mp (by omega)
              obtain rfl : more = [] := List.length_eq_zero_iff.mp (by omega)
              exact ⟨utf8_nil, cs, hb⟩
        · have hnext := ih hrest.symm
          rw [ha]
          exact ⟨Utf8.append ⟨[ch], by simp⟩ hnext.1, hnext.2⟩
  · rintro ⟨ha, hb⟩
    obtain ⟨ch, hch⟩ := exists_utf8EncodeChar hc
    exact ha.append (Utf8.append (a := [c]) ⟨[ch], by simp [hch]⟩ hb)

theorem utf8_cons_iff {b : List UInt8} : Utf8 (c :: b) ↔ Utf8 b :=
  (utf8_append_cons_iff hc (a := [])).trans (and_iff_right utf8_nil)

end

/-! ## Pieces -/

/-- A piece of text that is well encoded exactly under a condition, whatever follows it. -/
def Encoded (text : List UInt8) (P : Prop) : Prop :=
  ∀ rest, Utf8 (text ++ rest) ↔ P ∧ Utf8 rest

section
variable {text text' : List UInt8} {P Q : Prop}

theorem Encoded.congr (H : Encoded text P) (hPQ : P ↔ Q) : Encoded text Q := fun rest =>
  (H rest).trans (and_congr_left' hPQ)

theorem Encoded.append (H : Encoded text P) (H' : Encoded text' Q) :
    Encoded (text ++ text') (P ∧ Q) := fun rest => by
  rw [List.append_assoc, H, H', and_assoc]

theorem Encoded.utf8_iff (H : Encoded text P) : Utf8 text ↔ P := by
  have hall := H []
  rw [List.append_nil] at hall
  exact hall.trans (and_iff_left utf8_nil)

theorem encoded_nil : Encoded [] True := fun _ => (iff_of_eq (true_and _)).symm

/-- All bytes are below 0x80. -/
def IsAscii (text : List UInt8) : Prop := ∀ c ∈ text, c < 0x80

instance (text : List UInt8) : Decidable (IsAscii text) := List.decidableBAll _ text

/-- Bytes below 0x80 need nothing. -/
theorem encoded_ascii (H : IsAscii text) : Encoded text True := by
  intro rest
  rw [true_and]
  induction text with
  | nil => rfl
  | cons c text ih =>
      obtain ⟨hc, hrest⟩ := List.forall_mem_cons.mp H
      rw [List.cons_append, utf8_cons_iff hc, ih hrest]

/-- A text up to a byte below 0x80 has to be UTF-8 itself. -/
theorem encoded_concat (text : List UInt8) {c : UInt8} (hc : c < 0x80) :
    Encoded (text ++ [c]) (Utf8 text) := fun rest => by
  rw [List.append_assoc, List.singleton_append, utf8_append_cons_iff hc]

/-- Pieces one behind the other. -/
theorem encoded_flatMap {α : Type} {f : α → List UInt8} {P : α → Prop} {xs : List α}
    (H : ∀ x ∈ xs, Encoded (f x) (P x)) : Encoded (xs.flatMap f) (∀ x ∈ xs, P x) := by
  induction xs with
  | nil => exact encoded_nil.congr (by simp)
  | cons x xs ih =>
      rw [List.forall_mem_cons] at H
      rw [List.flatMap_cons]
      exact (H.1.append (ih H.2)).congr List.forall_mem_cons.symm

end

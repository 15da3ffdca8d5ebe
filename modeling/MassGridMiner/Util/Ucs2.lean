import Mathlib.Data.List.GetD
import MassGridMiner.Lib.CString
import MassGridMiner.Lib.ForInt

/-!
# Code units as UTF-8

`ucs2_to_utf8` writes each unit of 16 bits as up to three bytes.  `utf8_decode` reads a code point
where it is, and `utf8_strlen` counts them up to a NUL, whatever the bytes before it are.

## Main definitions

* `ucs2ToUtf8`, `utf8Decode`, `utf8Strlen` — the functions.
* `decodeAll` — the code points of a text, each decoded behind the one before.
* `utf8Strlen_terminated` — a text is counted without a read past its NUL.
* `transcoded_iff` — the units that are found again.
-/

namespace MassGridMiner
namespace Ucs2

/-- The bytes that the loop of `ucs2_to_utf8` writes for a unit. -/
def unitBytes (c : UInt16) : List UInt8 :=
  if c < 0x80 then [c.toUInt8]
  else
    (if c < 0x800 then [((0xc0 : UInt16) ||| (c >>> 6)).toUInt8]
      else [((0xe0 : UInt16) ||| (c >>> 12)).toUInt8,
        ((0x80 : UInt16) ||| ((c >>> 6) &&& 0x3f)).toUInt8])
    ++ [((0x80 : UInt16) ||| (c &&& 0x3f)).toUInt8]

/-- `ucs2_to_utf8`: what is written to `out`; none if a unit past the end is read. -/
def ucs2ToUtf8 (units : List UInt16) : Option (List UInt8) :=
  forInt (fun out c => some (out ++ unitBytes c)) [] units

/-- `ucs2_to_utf8_dup`; none if it writes past what it allocates. -/
def ucs2ToUtf8Dup (units : List UInt16) : Option (List UInt8) :=
  (ucs2ToUtf8 units).bind fun out =>
    if out.length < units.length * 4 + 1 then some (out ++ [0]) else none

/-- `utf8_len`. -/
def utf8Len (b : UInt8) : ℕ :=
  if b &&& 0x80 = 0 then 1
  else if b &&& 0x20 = 0 then 2
  else if b &&& 0x10 = 0 then 3
  else 4

/-- `utf8_decode` as it is compiled without `STRICT_UTF8`: the code point and `*out_len`; none if a
byte past the memory is read. -/
def utf8Decode (s : List UInt8) : Option (ℕ × ℕ) := do
  let b : UInt8 ← s[0]?
  let outLen := utf8Len b
  if outLen = 1 then some (b.toNat, outLen)
  else
    let w ← (List.range' 1 (outLen - 1)).foldlM
      (fun w i => s[i]?.map fun c : UInt8 => (w <<< 6) ||| (c.toNat &&& 0x3f))
      (b.toNat &&& ((2 <<< (6 - outLen)) - 1))
    some (w, outLen)

theorem utf8Len_pos (b : UInt8) : 0 < utf8Len b := by
  unfold utf8Len
  split <;> (try split) <;> (try split) <;> decide

/-- The inner loop of `utf8_strlen`, which gives up a sequence that a NUL is in. -/
def lengthLoop (s : List UInt8) (clen i : ℕ) : Option ℕ :=
  if i < clen then
    match s[i]? with
    | none => none
    | some b => if b = 0 then lengthLoop s 1 (i + 1) else lengthLoop s clen (i + 1)
  else some clen
termination_by clen - i

theorem lengthLoop_pos {s : List UInt8} {clen i n : ℕ} (hpos : 0 < clen)
    (H : lengthLoop s clen i = some n) : 0 < n := by
  fun_induction lengthLoop s clen i with
  | case1 => cases H
  | case2 _ _ _ _ ih => exact ih Nat.one_pos H
  | case3 _ _ _ _ _ _ ih => exact ih hpos H
  | case4 => exact Option.some.inj H ▸ hpos

/-- `utf8_strlen` from a place on, with what has been counted; none if a byte past the memory is
read. -/
def utf8StrlenFrom (c : ℕ) : List UInt8 → Option ℕ
  | [] => none
  | b :: rest =>
    if b = 0 then some c
    else
      match H : lengthLoop (b :: rest) (utf8Len b) 0 with
      | none => none
      | some clen => utf8StrlenFrom (c + 1) ((b :: rest).drop clen)
termination_by s => s.length
decreasing_by
  have hpos := lengthLoop_pos (utf8Len_pos b) H
  rw [List.length_drop, List.length_cons]
  omega

/-- `utf8_strlen`. -/
def utf8Strlen (s : List UInt8) : Option ℕ := utf8StrlenFrom 0 s

/-- The code points of a text, decoded with `utf8_decode` one behind the other. -/
def decodeAll : List UInt8 → Option (List ℕ)
  | [] => some []
  | b :: rest =>
    match utf8Decode (b :: rest) with
    | none => none
    | some (w, len) => (decodeAll (rest.drop (len - 1))).map (w :: ·)
termination_by s => s.length
decreasing_by
  rw [List.length_drop, List.length_cons]
  omega

/-- The units are found again in what is written for them: they are decoded, they are counted,
and they take no more than three bytes each. -/
def Transcoded (units : List UInt16) : Prop :=
  ∃ out, ucs2ToUtf8 units = some out ∧ decodeAll out = some (units.map UInt16.toNat) ∧
    utf8Strlen (out ++ [0]) = some units.length ∧ out.length ≤ 3 * units.length

/-! ## The bytes of a unit -/

/-- A mark above so many bits. -/
theorem toUInt8_or {m x : UInt16} {a k : ℕ} (hm : m.toNat = 2 ^ k * a) (hx : x.toNat < 2 ^ k) :
    (m ||| x).toUInt8 = UInt8.ofNat (m.toNat + x.toNat) := by
  apply UInt8.toNat_inj.mp
  rw [UInt16.toNat_toUInt8, UInt16.toNat_or, hm, ← Nat.two_pow_add_eq_or_of_lt hx a,
    UInt8.toNat_ofNat']

theorem shift_or {w x : ℕ} (hx : x < 64) : (w <<< 6) ||| x = w * 64 + x := by
  rw [← Nat.shiftLeft_add_eq_or_of_lt (show x < 2 ^ 6 from hx), Nat.shiftLeft_eq]

theorem lead_one {x : ℕ} (H : x < 128) : utf8Len (UInt8.ofNat x) = 1 := by
  have hall : ∀ y : Fin 128, utf8Len (UInt8.ofNat y) = 1 := by decide
  exact hall ⟨x, H⟩

/-- The lead of two bytes. -/
theorem lead_two {x : ℕ} (H : x < 32) : utf8Len (UInt8.ofNat (0xc0 + x)) = 2 ∧
    (UInt8.ofNat (0xc0 + x)).toNat &&& 0x1f = x := by
  have hall : ∀ y : Fin 32, utf8Len (UInt8.ofNat (0xc0 + y)) = 2 ∧
    (UInt8.ofNat (0xc0 + y)).toNat &&& 0x1f = y := by decide
  exact hall ⟨x, H⟩

/-- The lead of three bytes. -/
theorem lead_three {x : ℕ} (H : x < 16) : utf8Len (UInt8.ofNat (0xe0 + x)) = 3 ∧
    (UInt8.ofNat (0xe0 + x)).toNat &&& 0xf = x := by
  have hall : ∀ y : Fin 16, utf8Len (UInt8.ofNat (0xe0 + y)) = 3 ∧
    (UInt8.ofNat (0xe0 + y)).toNat &&& 0xf = y := by decide
  exact hall ⟨x, H⟩

/-- A continuation. -/
theorem continuation {x : ℕ} (H : x < 64) : (UInt8.ofNat (0x80 + x)).toNat &&& 0x3f = x := by
  have hall : ∀ y : Fin 64, (UInt8.ofNat (0x80 + y)).toNat &&& 0x3f = y := by decide
  exact hall ⟨x, H⟩

/-- The continuation byte with the six lowest bits of a number. -/
def tailByte (n : ℕ) : UInt8 := UInt8.ofNat (0x80 + n % 64)

theorem and_tailByte (n : ℕ) : (tailByte n).toNat &&& 0x3f = n % 64 :=
  continuation (Nat.mod_lt _ (by decide))

theorem tailByte_ne_zero (n : ℕ) : tailByte n ≠ 0 := by
  intro h
  have hnat := congrArg UInt8.toNat h
  rw [tailByte, UInt8.toNat_ofNat', UInt8.toNat_zero] at hnat
  omega

theorem tailByte_eq {x : UInt16} {n : ℕ} (hx : x.toNat = n) :
    ((0x80 : UInt16) ||| (x &&& 0x3f)).toUInt8 = tailByte n := by
  have hmod : (x &&& 0x3f).toNat = n % 64 := by
    rw [UInt16.toNat_and, hx]
    exact Nat.and_two_pow_sub_one_eq_mod n 6
  rw [toUInt8_or (a := 1) (k := 7) rfl (by omega), hmod, tailByte]
  rfl

theorem utf8Decode_one {b : UInt8} (H : utf8Len b = 1) (rest : List UInt8) :
    utf8Decode (b :: rest) = some (b.toNat, 1) := by
  simp [utf8Decode, H]

theorem utf8Decode_two {b : UInt8} (H : utf8Len b = 2) (n : ℕ) (rest : List UInt8) :
    utf8Decode (b :: tailByte n :: rest) = some ((b.toNat &&& 0x1f) * 64 + n % 64, 2) := by
  have hloop : List.range' 1 (2 - 1) = [1] := rfl
  simp [utf8Decode, H, hloop, and_tailByte, shift_or (Nat.mod_lt n (by decide : 64 > 0))]

theorem utf8Decode_three {b : UInt8} (H : utf8Len b = 3) (m n : ℕ) (rest : List UInt8) :
    utf8Decode (b :: tailByte m :: tailByte n :: rest) =
      some (((b.toNat &&& 0xf) * 64 + m % 64) * 64 + n % 64, 3) := by
  have hloop : List.range' 1 (3 - 1) = [1, 2] := rfl
  simp [utf8Decode, H, hloop, and_tailByte, shift_or (Nat.mod_lt _ (by decide : 64 > 0))]

/-- The bytes of a unit, and what is decoded and counted of them. -/
theorem exists_unitBytes (c : UInt16) : ∃ b tail, unitBytes c = b :: tail ∧
    utf8Len b = tail.length + 1 ∧ tail.length ≤ 2 ∧ (c ≠ 0 → 0 ∉ b :: tail) ∧
    ∀ rest, utf8Decode (b :: tail ++ rest) = some (c.toNat, tail.length + 1) := by
  have hlt := c.toNat_lt
  have hhigh : (c >>> 6).toNat = c.toNat / 64 := by simp [Nat.shiftRight_eq_div_pow]
  have htop : (c >>> 12).toNat = c.toNat / 4096 := by simp [Nat.shiftRight_eq_div_pow]
  rcases Nat.lt_or_ge c.toNat 0x80 with h1 | h1
  · -- one byte
    have hnat : c.toUInt8.toNat = c.toNat := by
      rw [UInt16.toNat_toUInt8, Nat.mod_eq_of_lt (by omega)]
    have hlen : utf8Len c.toUInt8 = 1 := by
      rw [← UInt8.ofNat_toNat (x := c.toUInt8), hnat]
      exact lead_one h1
    refine ⟨c.toUInt8, [], if_pos h1, hlen, Nat.zero_le 2, ?_, ?_⟩
    · intro hne h0
      refine hne (UInt16.toNat_inj.mp ?_)
      rw [← hnat, ← List.mem_singleton.mp h0]
      rfl
    · intro rest
      rw [List.cons_append, utf8Decode_one hlen, hnat, List.length_nil]
  · rcases Nat.lt_or_ge c.toNat 0x800 with h2 | h2
    · -- two bytes
      obtain ⟨hlen, hlead⟩ := lead_two (x := c.toNat / 64) (by omega)
      refine ⟨UInt8.ofNat (0xc0 + c.toNat / 64), [tailByte c.toNat], ?_, hlen, Nat.le_succ 1, ?_,
        ?_⟩
      · have hge : ¬ c < 0x80 := not_lt.mpr h1
        have hless : c < 0x800 := h2
        rw [unitBytes, if_neg hge, if_pos hless, toUInt8_or (a := 3) (k := 6) rfl (by omega), hhigh,
          tailByte_eq rfl]
        rfl
      · intro _ h0
        rcases List.mem_cons.mp h0 with h0 | h0
        · rw [← h0] at hlen
          exact absurd hlen (by decide)
        · exact tailByte_ne_zero _ (List.mem_singleton.mp h0).symm
      · intro rest
        rw [List.cons_append, List.singleton_append, utf8Decode_two hlen, hlead]
        congr 2
        omega
    · -- three bytes
      obtain ⟨hlen, hlead⟩ := lead_three (x := c.toNat / 4096) (by omega)
      refine ⟨UInt8.ofNat (0xe0 + c.toNat / 4096), [tailByte (c.toNat / 64), tailByte c.toNat], ?_,
        hlen, le_rfl, ?_, ?_⟩
      · have hge : ¬ c < 0x80 := not_lt.mpr h1
        have hge' : ¬ c < 0x800 := not_lt.mpr h2
        rw [unitBytes, if_neg hge, if_neg hge', toUInt8_or (a := 7) (k := 5) rfl (by omega), htop,
          tailByte_eq hhigh, tailByte_eq rfl]
        rfl
      · intro _ h0
        rcases List.mem_cons.mp h0 with h0 | h0
        · rw [← h0] at hlen
          exact absurd hlen (by decide)
        · rcases List.mem_cons.mp h0 with h0 | h0
          · exact tailByte_ne_zero _ h0.symm
          · exact tailByte_ne_zero _ (List.mem_singleton.mp h0).symm
      · intro rest
        rw [List.cons_append, List.cons_append, List.singleton_append, utf8Decode_three hlen, hlead]
        congr 2
        omega

/-! ## Counting -/

/-- A sequence without a NUL is kept. -/
theorem lengthLoop_eq {s : List UInt8} {clen i : ℕ}
    (H : ∀ j, i ≤ j → j < clen → ∃ b, s[j]? = some b ∧ b ≠ 0) :
    lengthLoop s clen i = some clen := by
  fun_induction lengthLoop s clen i with
  | case1 clen i hlt hnone =>
    obtain ⟨b, hb, -⟩ := H i le_rfl hlt
    rw [hnone] at hb
    cases hb
  | case2 clen i hlt hzero =>
    obtain ⟨b, hb, hne⟩ := H i le_rfl hlt
    exact absurd (Option.some.inj (hzero.symm.trans hb)).symm hne
  | case3 clen i hlt b hb hne ih => exact ih fun j hj hjlt => H j (by omega) hjlt
  | case4 => rfl

/-- A sequence in a text is not longer than what is left of the text. -/
theorem exists_lengthLoop {text : List UInt8} (htext : text ≠ []) (clen : ℕ) {i : ℕ}
    (hi : i ≤ text.length) : ∃ n ≤ text.length, lengthLoop (text ++ [0]) clen i = some n := by
  fun_induction lengthLoop (text ++ [0]) clen i with
  | case1 clen i hlt hnone =>
    rw [List.getElem?_eq_none_iff, List.length_append, List.length_singleton] at hnone
    omega
  | case2 clen i hlt hzero =>
    have hone : lengthLoop (text ++ [0]) 1 (i + 1) = some 1 := by
      rw [lengthLoop, if_neg (by omega)]
    exact ⟨1, List.length_pos_iff.mpr htext, hone⟩
  | case3 clen i hlt b hb hne ih =>
    refine ih ?_
    by_contra hend
    obtain rfl : i = text.length := by omega
    rw [List.getElem?_concat_length] at hb
    exact hne (Option.some.inj hb).symm
  | case4 clen i hge => exact ⟨clen, by omega, rfl⟩

/-- **A text is counted** without a read past its NUL, whatever its bytes are. -/
theorem utf8StrlenFrom_terminated (text : List UInt8) (h0 : 0 ∉ text) (c : ℕ) :
    ∃ n ≤ text.length, utf8StrlenFrom c (text ++ [0]) = some (c + n) := by
  induction hlen : text.length using Nat.strong_induction_on generalizing text c with
  | h len ih =>
    cases text with
    | nil => exact ⟨0, Nat.zero_le _, by rw [List.nil_append, utf8StrlenFrom, if_pos rfl]; rfl⟩
    | cons b rest =>
      have hb : b ≠ 0 := fun h => h0 (h ▸ List.mem_cons_self)
      obtain ⟨clen, hle, hloop⟩ :=
        exists_lengthLoop (List.cons_ne_nil b rest) (utf8Len b) (Nat.zero_le _)
      have hpos := lengthLoop_pos (utf8Len_pos b) hloop
      have hdrop : ((b :: rest) ++ [0]).drop clen = (b :: rest).drop clen ++ [0] :=
        List.drop_append_of_le_length hle
      have hless : ((b :: rest).drop clen).length < len := by
        rw [List.length_drop]
        omega
      obtain ⟨n, hn, hrest⟩ := ih _ hless ((b :: rest).drop clen)
        (fun h => h0 (List.mem_of_mem_drop h)) (c + 1) rfl
      refine ⟨n + 1, by omega, ?_⟩
      rw [List.cons_append, utf8StrlenFrom, if_neg hb]
      split
      · next hnone =>
        rw [← List.cons_append, hloop] at hnone
        cases hnone
      · next clen' hsome =>
        rw [← List.cons_append, hloop] at hsome
        obtain rfl := Option.some.inj hsome
        rw [← List.cons_append, hdrop, hrest]
        congr 1
        omega

/-! ## What is written -/

/-- A unit at the start of a text is decoded. -/
theorem decodeAll_unitBytes (c : UInt16) (rest : List UInt8) :
    decodeAll (unitBytes c ++ rest) = (decodeAll rest).map (c.toNat :: ·) := by
  obtain ⟨b, tail, hbytes, -, -, -, hdecode⟩ := exists_unitBytes c
  have hdrop : (tail ++ rest).drop (tail.length + 1 - 1) = rest := List.drop_left
  rw [hbytes, List.cons_append, decodeAll, ← List.cons_append, hdecode]
  exact congrArg (fun s => (decodeAll s).map (c.toNat :: ·)) hdrop

/-- A unit at the start of a text is counted once. -/
theorem utf8StrlenFrom_unitBytes {c : UInt16} (hc : c ≠ 0) (n : ℕ) (rest : List UInt8) :
    utf8StrlenFrom n (unitBytes c ++ rest) = utf8StrlenFrom (n + 1) rest := by
  obtain ⟨b, tail, hbytes, hlen, -, hnul, -⟩ := exists_unitBytes c
  have hb : b ≠ 0 := fun h => hnul hc (h ▸ List.mem_cons_self)
  have hloop : lengthLoop (b :: tail ++ rest) (utf8Len b) 0 = some (tail.length + 1) := by
    rw [hlen]
    refine lengthLoop_eq fun j _ hj => ?_
    have hget : j < (b :: tail).length := hj
    refine ⟨(b :: tail)[j], ?_, fun h => hnul hc (h ▸ List.getElem_mem hget)⟩
    rw [List.getElem?_append_left hget, List.getElem?_eq_getElem hget]
  have hdrop : (b :: tail ++ rest).drop (tail.length + 1) = rest := List.drop_left
  rw [hbytes, List.cons_append, utf8StrlenFrom, if_neg hb]
  split
  · next hnone =>
    rw [← List.cons_append, hloop] at hnone
    cases hnone
  · next clen hsome =>
    rw [← List.cons_append, hloop] at hsome
    obtain rfl := Option.some.inj hsome
    rw [← List.cons_append, hdrop]

theorem decodeAll_flatMap (units : List UInt16) :
    decodeAll (units.flatMap unitBytes) = some (units.map UInt16.toNat) := by
  induction units with
  | nil => rw [List.flatMap_nil, decodeAll]; rfl
  | cons c units ih =>
    rw [List.flatMap_cons, decodeAll_unitBytes, ih]
    rfl

theorem utf8StrlenFrom_flatMap {units : List UInt16} (h0 : 0 ∉ units) (n : ℕ) :
    utf8StrlenFrom n (units.flatMap unitBytes ++ [0]) = some (n + units.length) := by
  induction units generalizing n with
  | nil =>
    rw [List.flatMap_nil, List.nil_append, utf8StrlenFrom, if_pos rfl]
    rfl
  | cons c units ih =>
    rw [List.mem_cons, not_or] at h0
    rw [List.flatMap_cons, List.append_assoc, utf8StrlenFrom_unitBytes (Ne.symm h0.1), ih h0.2,
      List.length_cons]
    congr 1
    omega

theorem length_flatMap_unitBytes (units : List UInt16) :
    (units.flatMap unitBytes).length ≤ 3 * units.length := by
  induction units with
  | nil => exact le_rfl
  | cons c units ih =>
    obtain ⟨b, tail, hbytes, -, htail, -, -⟩ := exists_unitBytes c
    rw [List.flatMap_cons, List.length_append, hbytes, List.length_cons, List.length_cons]
    omega

/-- What is written is the bytes of the units that the loop goes around for. -/
theorem ucs2ToUtf8_eq {units : List UInt16} (H : units.length < 2 ^ 64) :
    ucs2ToUtf8 units = some ((units.take (roundsInt units.length)).flatMap unitBytes) := by
  have hfold : ∀ (rest : List UInt16) (out : List UInt8),
      rest.foldlM (fun out c => some (out ++ unitBytes c)) out =
        some (out ++ rest.flatMap unitBytes) := by
    intro rest
    induction rest with
    | nil => exact fun out => congrArg some (List.append_nil out).symm
    | cons c rest ih =>
      intro out
      rw [List.foldlM_cons, List.flatMap_cons, ← List.append_assoc]
      exact ih _
  rw [ucs2ToUtf8, forInt_eq H, hfold, List.nil_append]

/-- The copy is in the memory that is allocated for it, and ends with a NUL. -/
theorem exists_ucs2ToUtf8Dup {units : List UInt16} (H : units.length < 2 ^ 64) :
    ∃ out, ucs2ToUtf8 units = some out ∧ ucs2ToUtf8Dup units = some (out ++ [0]) := by
  refine ⟨_, ucs2ToUtf8_eq H, ?_⟩
  have hout := length_flatMap_unitBytes (units.take (roundsInt units.length))
  rw [ucs2ToUtf8Dup, ucs2ToUtf8_eq H, Option.bind_some, if_pos]
  have hle : (units.take (roundsInt units.length)).length ≤ units.length :=
    List.length_take_le' _ _
  omega

/-- Too many units are not all written. -/
theorem not_transcoded_of_lt {units : List UInt16} (H : 2 ^ 31 < units.length) :
    ¬ Transcoded units := by
  rintro ⟨out, hout, hdecode, -, -⟩
  rcases Nat.lt_or_ge units.length (2 ^ 64) with hsize | hsize
  · rw [ucs2ToUtf8_eq hsize] at hout
    obtain rfl := Option.some.inj hout
    rw [decodeAll_flatMap] at hdecode
    have hlen := congrArg List.length (Option.some.inj hdecode)
    have hrounds := roundsInt_lt H
    rw [List.length_map, List.length_map, List.length_take] at hlen
    omega
  · rw [ucs2ToUtf8, forInt_eq_none hsize] at hout
    cases hout

/-- **The units are found again** exactly if the counter has the range for them, and any text is
counted up to its NUL. -/
theorem transcoded_iff {units : List UInt16} (h0 : 0 ∉ units) (s : CStr) :
    (Transcoded units ↔ units.length ≤ 2 ^ 31) ∧
      ∃ c ≤ s.length, utf8Strlen (s.bytes ++ [0]) = some c := by
  constructor
  · constructor
    · intro htrans
      by_contra hgt
      exact not_transcoded_of_lt (not_le.mp hgt) htrans
    · intro hle
      have hout := @ucs2ToUtf8_eq units (by omega)
      rw [roundsInt_of_le hle, List.take_length] at hout
      refine ⟨_, hout, decodeAll_flatMap units, ?_, length_flatMap_unitBytes units⟩
      rw [utf8Strlen, utf8StrlenFrom_flatMap h0, Nat.zero_add]
  · obtain ⟨n, hn, hstrlen⟩ := utf8StrlenFrom_terminated s.bytes s.nul_free 0
    exact ⟨n, hn, by rw [utf8Strlen, hstrlen, Nat.zero_add]⟩

/-- A letter and a currency sign, and a text that ends within a sequence. -/
theorem transcoded_iff_euro :
    (Transcoded [0x41, 0x20ac] ↔ [(0x41 : UInt16), 0x20ac].length ≤ 2 ^ 31) ∧
      ∃ c ≤ 2, utf8Strlen [0xe2, 0x82, 0] = some c :=
  transcoded_iff (by decide) ⟨[0xe2, 0x82], by decide⟩

/-- Of one unit more than the counter counts, the last one is not written. -/
theorem not_transcoded_past : 0 ∉ List.replicate (2 ^ 31 + 1) (0x41 : UInt16) ∧
    ¬ Transcoded (List.replicate (2 ^ 31 + 1) 0x41) := by
  constructor
  · intro h0
    exact absurd (List.eq_of_mem_replicate h0) (by decide)
  · refine not_transcoded_of_lt ?_
    rw [List.length_replicate]
    exact Nat.lt_succ_self _

end Ucs2
end MassGridMiner

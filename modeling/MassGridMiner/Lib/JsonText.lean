import Mathlib.Data.List.Basic
import Mathlib.Data.List.TakeWhile

/-!
# JSON texts

The grammar of JSON over bytes, each rule with the text it starts from and what it leaves.  Text
from the byte 0x80 on is the encoding of other characters, and is left as it is.

A piece of text is read exactly under a condition if, in front of whatever may follow it, it is
read as one value under this condition, and up to its end.  Pieces that are are put together to
others, from strings and numbers up to objects.

## Main definitions

* `Tree` — a value, with its numbers as they are written.
* `Str`, `Value`, `Elements`, `Members` — the grammar.
* `IsText` — a text that is one value.
* `Exact` — a piece that is read as a value exactly under a condition.
* `exact_string`, `exact_member`, `exact_object`, `exact_array` — how pieces are put together.
-/

namespace JsonText

/-- A value. -/
inductive Tree
  | null
  | bool (b : Bool)
  | number (text : List UInt8)
  | string (s : List UInt8)
  | array (xs : List Tree)
  | object (ms : List (List UInt8 × Tree))

/-! ## The grammar -/

/-- A blank between tokens. -/
def isWs (c : UInt8) : Bool := c == 0x20 || c == 0x9 || c == 0xa || c == 0xd

/-- What follows the blanks. -/
def skipWs (text : List UInt8) : List UInt8 := text.dropWhile isWs

/-- Digits, at least one. -/
def Digits (ds : List UInt8) : Prop := ds ≠ [] ∧ ∀ c ∈ ds, 0x30 ≤ c ∧ c ≤ 0x39

/-- Digits without a zero in front, but for zero itself. -/
def IntPart (ds : List UInt8) : Prop := Digits ds ∧ (ds.head? = some 0x30 → ds.length = 1)

/-- Nothing, or a point and digits. -/
def FracPart (text : List UInt8) : Prop := text = [] ∨ ∃ ds, text = 0x2e :: ds ∧ Digits ds

/-- Nothing, or an exponent. -/
def ExpPart (text : List UInt8) : Prop :=
  text = [] ∨ ∃ e sgn ds, (e = 0x65 ∨ e = 0x45) ∧ (sgn = [] ∨ sgn = [0x2b] ∨ sgn = [0x2d]) ∧
    text = e :: (sgn ++ ds) ∧ Digits ds

/-- A number. -/
def IsNumber (text : List UInt8) : Prop :=
  ∃ sgn int frac exp, (sgn = [] ∨ sgn = [0x2d]) ∧ IntPart int ∧ FracPart frac ∧ ExpPart exp ∧
    text = sgn ++ (int ++ (frac ++ exp))

/-- The value of a hexadecimal digit. -/
def hexValue (c : UInt8) : Option ℕ :=
  if 0x30 ≤ c ∧ c ≤ 0x39 then some (c.toNat - 0x30)
  else if 0x61 ≤ c ∧ c ≤ 0x66 then some (c.toNat - 0x57)
  else if 0x41 ≤ c ∧ c ≤ 0x46 then some (c.toNat - 0x37)
  else none

/-- The number that four hexadecimal digits make. -/
def hex4 (ds : List UInt8) : Option ℕ :=
  if ds.length = 4 then
    ds.foldl (fun n c => n.bind fun n => (hexValue c).map (n * 16 + ·)) (some 0)
  else none

/-- A character in UTF-8. -/
def utf8 (n : ℕ) : List UInt8 := String.utf8EncodeChar (Char.ofNat n)

/-- What may follow a backslash, and what it stands for. -/
inductive Escape : List UInt8 → List UInt8 → Prop
  | quote : Escape [0x22] [0x22]
  | backslash : Escape [0x5c] [0x5c]
  | slash : Escape [0x2f] [0x2f]
  | b : Escape [0x62] [0x8]
  | f : Escape [0x66] [0xc]
  | n : Escape [0x6e] [0xa]
  | r : Escape [0x72] [0xd]
  | t : Escape [0x74] [0x9]
  | unicode {ds : List UInt8} {n : ℕ} (hn : hex4 ds = some n) (hplain : n < 0xd800 ∨ 0xdfff < n) :
      Escape (0x75 :: ds) (utf8 n)
  | pair {hi lo : List UInt8} {m n : ℕ} (hm : hex4 hi = some m) (hn : hex4 lo = some n)
      (hhigh : 0xd800 ≤ m ∧ m < 0xdc00) (hlow : 0xdc00 ≤ n ∧ n ≤ 0xdfff) :
      Escape (0x75 :: (hi ++ 0x5c :: 0x75 :: lo))
        (utf8 (0x10000 + (m - 0xd800) * 0x400 + (n - 0xdc00)))

/-- A byte that stands for itself in a string. -/
def Plain (c : UInt8) : Prop := 0x20 ≤ c ∧ c ≠ 0x22 ∧ c ≠ 0x5c

instance (c : UInt8) : Decidable (Plain c) := inferInstanceAs (Decidable (_ ∧ _))

/-- The bytes of a list are looked at one by one. -/
theorem plain_of_all {s : List UInt8} (h : s.all (fun c => Plain c) = true) : ∀ c ∈ s, Plain c :=
  fun c hc => of_decide_eq_true (List.all_eq_true.mp h c hc)

/-- A string, behind the quote that opens it: what it says, and what is left. -/
inductive Str : List UInt8 → List UInt8 → List UInt8 → Prop
  | close {rest : List UInt8} : Str (0x22 :: rest) [] rest
  | plain {c : UInt8} {text s rest : List UInt8} (hc : Plain c) (h : Str text s rest) :
      Str (c :: text) (c :: s) rest
  | escape {e d text s rest : List UInt8} (he : Escape e d) (h : Str text s rest) :
      Str (0x5c :: (e ++ text)) (d ++ s) rest

mutual

/-- A value. -/
inductive Value : List UInt8 → Tree → List UInt8 → Prop
  | null {text rest : List UInt8} (h : skipWs text = 0x6e :: 0x75 :: 0x6c :: 0x6c :: rest) :
      Value text .null rest
  | true {text rest : List UInt8} (h : skipWs text = 0x74 :: 0x72 :: 0x75 :: 0x65 :: rest) :
      Value text (.bool .true) rest
  | false {text rest : List UInt8}
      (h : skipWs text = 0x66 :: 0x61 :: 0x6c :: 0x73 :: 0x65 :: rest) :
      Value text (.bool .false) rest
  | number {text n rest : List UInt8} (h : skipWs text = n ++ rest) (hn : IsNumber n) :
      Value text (.number n) rest
  | string {text t s rest : List UInt8} (h : skipWs text = 0x22 :: t) (hs : Str t s rest) :
      Value text (.string s) rest
  | emptyArray {text t rest : List UInt8} (h : skipWs text = 0x5b :: t)
      (hend : skipWs t = 0x5d :: rest) : Value text (.array []) rest
  | array {text t rest : List UInt8} {xs : List Tree} (h : skipWs text = 0x5b :: t)
      (hs : Elements t xs rest) : Value text (.array xs) rest
  | emptyObject {text t rest : List UInt8} (h : skipWs text = 0x7b :: t)
      (hend : skipWs t = 0x7d :: rest) : Value text (.object []) rest
  | object {text t rest : List UInt8} {ms : List (List UInt8 × Tree)}
      (h : skipWs text = 0x7b :: t) (hs : Members t ms rest) : Value text (.object ms) rest

/-- The values of an array, up to the bracket behind them. -/
inductive Elements : List UInt8 → List Tree → List UInt8 → Prop
  | last {text t rest : List UInt8} {x : Tree} (hx : Value text x t)
      (hend : skipWs t = 0x5d :: rest) : Elements text [x] rest
  | cons {text t t' rest : List UInt8} {x : Tree} {xs : List Tree} (hx : Value text x t)
      (hcomma : skipWs t = 0x2c :: t') (hs : Elements t' xs rest) : Elements text (x :: xs) rest

/-- The members of an object, up to the brace behind them. -/
inductive Members : List UInt8 → List (List UInt8 × Tree) → List UInt8 → Prop
  | last {text t k t₁ t₂ t₃ rest : List UInt8} {v : Tree} (h : skipWs text = 0x22 :: t)
      (hk : Str t k t₁) (hcolon : skipWs t₁ = 0x3a :: t₂) (hv : Value t₂ v t₃)
      (hend : skipWs t₃ = 0x7d :: rest) : Members text [(k, v)] rest
  | cons {text t k t₁ t₂ t₃ t₄ rest : List UInt8} {v : Tree} {ms : List (List UInt8 × Tree)}
      (h : skipWs text = 0x22 :: t) (hk : Str t k t₁) (hcolon : skipWs t₁ = 0x3a :: t₂)
      (hv : Value t₂ v t₃) (hcomma : skipWs t₃ = 0x2c :: t₄) (hs : Members t₄ ms rest) :
      Members text ((k, v) :: ms) rest

end

/-- A text that is one value, and nothing else. -/
def IsText (text : List UInt8) (v : Tree) : Prop := ∃ rest, Value text v rest ∧ skipWs rest = []

/-! ## Strings -/

/-- The next quote comes before the next backslash. -/
def Tame (rest : List UInt8) : Prop := 0x5c ∉ rest.takeWhile (· ≠ 0x22)

theorem tame_nil : Tame [] := List.not_mem_nil

theorem tame_quote (rest : List UInt8) : Tame (0x22 :: rest) := by simp [Tame]

theorem Tame.cons {rest : List UInt8} (H : Tame rest) {c : UInt8} (hc : c ≠ 0x5c) :
    Tame (c :: rest) := by
  rw [Tame, List.takeWhile_cons]
  split
  · rw [List.mem_cons, not_or]
    exact ⟨Ne.symm hc, H⟩
  · exact List.not_mem_nil

theorem Tame.append {rest : List UInt8} (H : Tame rest) {text : List UInt8} (ht : 0x5c ∉ text) :
    Tame (text ++ rest) := by
  induction text with
  | nil => exact H
  | cons c text ih =>
      rw [List.mem_cons, not_or] at ht
      exact (ih ht.2).cons (Ne.symm ht.1)

theorem length_utf8_le (n : ℕ) : (utf8 n).length ≤ 4 := by
  rw [utf8, String.length_utf8EncodeChar]
  exact Char.utf8Size_le_four _

theorem length_of_hex4 {ds : List UInt8} {n : ℕ} (H : hex4 ds = some n) : ds.length = 4 := by
  by_contra hne
  rw [hex4, if_neg hne] at H
  cases H

/-- A quote is no hexadecimal digit. -/
theorem quote_notMem_of_hex4 {ds : List UInt8} {n : ℕ} (H : hex4 ds = some n) : 0x22 ∉ ds := by
  have hfold : ∀ (ds : List UInt8) (start : Option ℕ),
      (ds.foldl (fun n c => n.bind fun n => (hexValue c).map (n * 16 + ·)) start).isSome →
        start.isSome ∧ 0x22 ∉ ds := by
    intro ds
    induction ds with
    | nil => exact fun start h => ⟨h, List.not_mem_nil⟩
    | cons c ds ih =>
        intro start h
        obtain ⟨hstep, hds⟩ := ih _ h
        cases start with
        | none => exact absurd hstep (by simp)
        | some m =>
            refine ⟨rfl, ?_⟩
            rw [List.mem_cons, not_or]
            refine ⟨?_, hds⟩
            rintro rfl
            exact absurd hstep (by simp [hexValue])
  rw [hex4, if_pos (length_of_hex4 H)] at H
  exact (hfold ds (some 0) (by rw [H]; rfl)).2

theorem Escape.length_le {e d : List UInt8} (H : Escape e d) : d.length ≤ e.length := by
  cases H with
  | unicode hn hplain =>
      have hlen := length_utf8_le ‹_›
      rw [List.length_cons, length_of_hex4 hn]
      omega
  | @pair hi lo m n hm hn hhigh hlow =>
      have hlen := length_utf8_le (0x10000 + (m - 0xd800) * 0x400 + (n - 0xdc00))
      rw [List.length_cons, List.length_append, length_of_hex4 hm]
      omega
  | _ => exact le_refl _

/-- A quote is in an escape only where it is escaped itself. -/
theorem Escape.eq_of_quote_mem {e d : List UInt8} (H : Escape e d) (hq : 0x22 ∈ e) :
    e = [0x22] ∧ d = [0x22] := by
  cases H with
  | quote => exact ⟨rfl, rfl⟩
  | unicode hn hplain =>
      rcases List.mem_cons.mp hq with h | h
      · exact absurd h (by decide)
      · exact absurd h (quote_notMem_of_hex4 hn)
  | @pair hi lo m n hm hn hhigh hlow =>
      have hhi := quote_notMem_of_hex4 hm
      have hlo := quote_notMem_of_hex4 hn
      simp only [List.mem_cons, List.mem_append] at hq
      simp_all
  | _ => simp at hq

/-- Where the next quote comes before the next backslash, a string has no backslash. -/
theorem Str.notMem_of_tame {rest v rest' : List UInt8} (H : Str rest v rest') (ht : Tame rest) :
    0x5c ∉ v := by
  induction H with
  | close => exact List.not_mem_nil
  | plain hc h ih =>
      rw [Tame, List.takeWhile_cons, if_pos (by simpa using hc.2.1), List.mem_cons, not_or] at ht
      rw [List.mem_cons, not_or]
      exact ⟨ht.1, ih ht.2⟩
  | escape he h ih => exact absurd ht (by simp [Tame])

/-- An escape takes more than it says, so that what is behind it cannot make up for it. -/
theorem not_escape_of {e d text v rest rest' t w : List UInt8} (ht : Tame rest) (he : Escape e d)
    (hv : Str text v rest')
    (hno : ∀ t' w', w' ≠ [] → text = t' ++ 0x22 :: rest → v ≠ w' ++ t')
    (htext : e ++ text = t ++ 0x22 :: rest) (hspell : d ++ v = w ++ 0x5c :: t) : False := by
  have hlen := he.length_le
  -- the text goes on behind the escape, and so does what is said
  have hinside : ∀ t', t = e ++ t' → text = t' ++ 0x22 :: rest → False := by
    rintro t' rfl htext'
    have hspell' : d ++ v = (w ++ 0x5c :: e) ++ t' := by simpa using hspell
    rcases List.append_eq_append_iff.mp hspell' with ⟨w', hw', hv'⟩ | ⟨w', hw', -⟩
    · refine hno t' w' ?_ htext' hv'
      rintro rfl
      have := congrArg List.length hw'
      simp only [List.length_append, List.length_cons, List.length_nil] at this
      omega
    · have := congrArg List.length hw'
      simp only [List.length_append, List.length_cons] at this
      omega
  rcases List.append_eq_append_iff.mp htext with ⟨t', ht', htext'⟩ | ⟨bs, hbs, hrest⟩
  · exact hinside t' ht' htext'
  · cases bs with
    | nil => exact hinside [] (by simpa using hbs.symm) (by simpa using hrest.symm)
    | cons b bs =>
        -- the quote that was to close the string is escaped
        obtain ⟨rfl, htail⟩ := List.cons.inj hrest
        obtain ⟨he', hd'⟩ := he.eq_of_quote_mem (by simp [hbs])
        obtain ⟨rfl, hbs'⟩ : t = [] ∧ bs = [] := by
          have hlen' := congrArg List.length (hbs.symm.trans he')
          simp only [List.length_append, List.length_cons, List.length_nil] at hlen'
          exact ⟨List.length_eq_zero_iff.mp (by omega), List.length_eq_zero_iff.mp (by omega)⟩
        have hrest' : rest = text := by simpa [hbs'] using htail
        rw [hd'] at hspell
        have hmem : 0x5c ∈ v := by
          cases w with
          | nil => simp at hspell
          | cons c w =>
              have hv' : v = w ++ [0x5c] := (List.cons.inj hspell).2
              simp [hv']
        exact (hrest' ▸ hv).notMem_of_tame (hrest' ▸ ht) hmem

/-- Text cannot be read as itself with something in front of it. -/
theorem not_str_append {t rest rest' w : List UInt8} (ht : Tame rest) (hw : w ≠ []) :
    ¬ Str (t ++ 0x22 :: rest) (w ++ t) rest' := by
  intro H
  generalize htext : t ++ 0x22 :: rest = text at H
  generalize hspell : w ++ t = v at H
  induction H generalizing t w with
  | close => exact hw (List.append_eq_nil_iff.mp hspell).1
  | @plain c text s rest' hc h ih =>
      cases t with
      | nil => exact hc.2.1 (List.cons.inj htext).1.symm
      | cons x t =>
          obtain ⟨rfl, htail⟩ := List.cons.inj htext
          cases w with
          | nil => exact hw rfl
          | cons y w =>
              refine ih (t := t) (w := w ++ [x]) (by simp) htail ?_
              simpa using (List.cons.inj hspell).2
  | @escape e d text s rest' he h ih =>
      cases t with
      | nil => exact absurd (List.cons.inj htext).1 (by decide)
      | cons x t =>
          obtain ⟨rfl, htail⟩ := List.cons.inj htext
          exact not_escape_of ht he h (fun t' w' hw' htext' hv' => ih hw' htext'.symm hv'.symm)
            htail.symm hspell.symm

/-- **Text without escapes.**  It is read as itself exactly if it needs none. -/
theorem str_raw_iff {s rest rest' : List UInt8} (ht : Tame rest) :
    Str (s ++ 0x22 :: rest) s rest' ↔ (∀ c ∈ s, Plain c) ∧ rest' = rest := by
  induction s with
  | nil =>
      constructor
      · intro H
        cases H with
        | close => exact ⟨by simp, rfl⟩
      · rintro ⟨-, rfl⟩
        exact .close
  | cons c s ih =>
      constructor
      · intro H
        generalize htext : c :: s ++ 0x22 :: rest = text at H
        generalize hspell : c :: s = v at H
        cases H with
        | close => cases hspell
        | plain hc h =>
            obtain ⟨rfl, rfl⟩ := List.cons.inj hspell
            obtain ⟨-, rfl⟩ := List.cons.inj htext
            obtain ⟨hs, rfl⟩ := ih.mp h
            exact ⟨List.forall_mem_cons.mpr ⟨hc, hs⟩, rfl⟩
        | escape he h =>
            obtain ⟨rfl, htail⟩ := List.cons.inj htext
            refine (not_escape_of (w := []) ht he h (fun t' w' hw' htext' hv' => ?_) htail.symm
              hspell.symm).elim
            rw [htext', hv'] at h
            exact not_str_append ht hw' h
      · rintro ⟨hplain, rfl⟩
        rw [List.forall_mem_cons] at hplain
        exact .plain hplain.1 (ih.mpr ⟨hplain.2, rfl⟩)

/-! ## Tokens -/

theorem skipWs_cons {c : UInt8} (hc : isWs c = false) (text : List UInt8) :
    skipWs (c :: text) = c :: text := by
  simp [skipWs, hc]

/-- A number starts with a digit, or with a sign and one. -/
theorem IsNumber.exists_digit {text : List UInt8} (H : IsNumber text) :
    ∃ sgn c t, (sgn = [] ∨ sgn = [0x2d]) ∧ (0x30 ≤ c ∧ c ≤ 0x39) ∧ text = sgn ++ c :: t := by
  obtain ⟨sgn, int, frac, exp, hsgn, ⟨⟨hne, hdigits⟩, -⟩, -, -, rfl⟩ := H
  cases int with
  | nil => exact absurd rfl hne
  | cons c int => exact ⟨sgn, c, _, hsgn, hdigits c List.mem_cons_self, rfl⟩

/-- A number starts with a sign or a digit. -/
theorem IsNumber.exists_cons {text : List UInt8} (H : IsNumber text) :
    ∃ c t, text = c :: t ∧ (c = 0x2d ∨ 0x30 ≤ c ∧ c ≤ 0x39) := by
  obtain ⟨sgn, c, t, rfl | rfl, hc, rfl⟩ := H.exists_digit
  · exact ⟨c, t, rfl, .inr hc⟩
  · exact ⟨_, _, rfl, .inl rfl⟩

theorem backslash_notMem_of_digits {ds : List UInt8} (H : Digits ds) : 0x5c ∉ ds := fun h =>
  absurd (H.2 _ h) (by decide)

/-- Nothing in a number is escaped. -/
theorem IsNumber.backslash_notMem {text : List UInt8} (H : IsNumber text) : 0x5c ∉ text := by
  obtain ⟨sgn, int, frac, exp, hsgn, hint, hfrac, hexp, rfl⟩ := H
  have hsgn' : 0x5c ∉ sgn := by rcases hsgn with rfl | rfl <;> decide
  have hfrac' : 0x5c ∉ frac := by
    rcases hfrac with rfl | ⟨ds, rfl, hds⟩
    · exact List.not_mem_nil
    · simpa using backslash_notMem_of_digits hds
  have hexp' : 0x5c ∉ exp := by
    rcases hexp with rfl | ⟨e, sgn, ds, he, hs, rfl, hds⟩
    · exact List.not_mem_nil
    · have := backslash_notMem_of_digits hds
      rcases he with rfl | rfl <;> rcases hs with rfl | rfl | rfl <;> simpa using this
  simp [hsgn', hfrac', hexp', backslash_notMem_of_digits hint.1]

theorem isWs_of_number {c : UInt8} (H : c = 0x2d ∨ 0x30 ≤ c ∧ c ≤ 0x39) : isWs c = false := by
  rcases H with rfl | ⟨hlo, -⟩
  · rfl
  · have hne : ∀ d : UInt8, ¬ 0x30 ≤ d → (c == d) = false := fun d hd =>
      beq_eq_false_iff_ne.mpr fun h => hd (h ▸ hlo)
    simp [isWs, hne 0x20 (by decide), hne 0x9 (by decide), hne 0xa (by decide), hne 0xd (by decide)]

theorem value_number_iff {n rest rest' : List UInt8} :
    Value (n ++ rest) (.number n) rest' ↔ IsNumber n ∧ rest' = rest := by
  have hskip : IsNumber n → skipWs (n ++ rest) = n ++ rest := fun hn => by
    obtain ⟨c, t, rfl, hc⟩ := hn.exists_cons
    exact skipWs_cons (isWs_of_number hc) _
  constructor
  · intro H
    cases H with
    | number h hn =>
        rw [hskip hn] at h
        exact ⟨hn, (List.append_cancel_left h).symm⟩
  · rintro ⟨hn, rfl⟩
    exact .number (hskip hn) hn

theorem value_string_iff {text s rest : List UInt8} :
    Value (0x22 :: text) (.string s) rest ↔ Str text s rest := by
  constructor
  · intro H
    cases H with
    | string h hs =>
        rw [skipWs_cons rfl] at h
        exact (List.cons.inj h).2 ▸ hs
  · exact .string (skipWs_cons rfl _)

/-! ## Lists -/

/-- Things separated by commas, up to a byte behind the last. -/
inductive Listed {α : Type} (R : List UInt8 → α → List UInt8 → Prop) (close : UInt8) :
    List UInt8 → List α → List UInt8 → Prop
  | last {text t rest : List UInt8} {x : α} (hx : R text x t) (hend : skipWs t = close :: rest) :
      Listed R close text [x] rest
  | cons {text t t' rest : List UInt8} {x : α} {xs : List α} (hx : R text x t)
      (hcomma : skipWs t = 0x2c :: t') (hs : Listed R close t' xs rest) :
      Listed R close text (x :: xs) rest

/-- A member of an object. -/
inductive Member : List UInt8 → List UInt8 × Tree → List UInt8 → Prop
  | mk {text t k t₁ t₂ rest : List UInt8} {v : Tree} (h : skipWs text = 0x22 :: t)
      (hk : Str t k t₁) (hcolon : skipWs t₁ = 0x3a :: t₂) (hv : Value t₂ v rest) :
      Member text (k, v) rest

theorem elements_iff {text rest : List UInt8} {xs : List Tree} :
    Elements text xs rest ↔ Listed Value 0x5d text xs rest := by
  induction xs generalizing text with
  | nil => exact ⟨nofun, nofun⟩
  | cons x xs ih =>
      constructor
      · intro H
        cases H with
        | last hx hend => exact .last hx hend
        | cons hx hcomma hs => exact .cons hx hcomma (ih.mp hs)
      · intro H
        cases H with
        | last hx hend => exact .last hx hend
        | cons hx hcomma hs => exact .cons hx hcomma (ih.mpr hs)

theorem members_iff {text rest : List UInt8} {ms : List (List UInt8 × Tree)} :
    Members text ms rest ↔ Listed Member 0x7d text ms rest := by
  induction ms generalizing text with
  | nil => exact ⟨nofun, nofun⟩
  | cons m ms ih =>
      constructor
      · intro H
        cases H with
        | last h hk hcolon hv hend => exact .last ⟨h, hk, hcolon, hv⟩ hend
        | cons h hk hcolon hv hcomma hs => exact .cons ⟨h, hk, hcolon, hv⟩ hcomma (ih.mp hs)
      · intro H
        cases H with
        | last hm hend =>
            obtain ⟨h, hk, hcolon, hv⟩ := hm
            exact .last h hk hcolon hv hend
        | cons hm hcomma hs =>
            obtain ⟨h, hk, hcolon, hv⟩ := hm
            exact .cons h hk hcolon hv hcomma (ih.mpr hs)

theorem value_array_iff {text rest : List UInt8} {x : Tree} {xs : List Tree} :
    Value (0x5b :: text) (.array (x :: xs)) rest ↔ Listed Value 0x5d text (x :: xs) rest := by
  rw [← elements_iff]
  constructor
  · intro H
    cases H with
    | array h hs =>
        rw [skipWs_cons rfl] at h
        exact (List.cons.inj h).2 ▸ hs
  · exact .array (skipWs_cons rfl _)

theorem value_object_iff {text rest : List UInt8} {m : List UInt8 × Tree}
    {ms : List (List UInt8 × Tree)} :
    Value (0x7b :: text) (.object (m :: ms)) rest ↔ Listed Member 0x7d text (m :: ms) rest := by
  rw [← members_iff]
  constructor
  · intro H
    cases H with
    | object h hs =>
        rw [skipWs_cons rfl] at h
        exact (List.cons.inj h).2 ▸ hs
  · exact .object (skipWs_cons rfl _)

theorem value_emptyObject_iff {rest rest' : List UInt8} :
    Value (0x7b :: 0x7d :: rest) (.object []) rest' ↔ rest' = rest := by
  constructor
  · intro H
    cases H with
    | emptyObject h hend =>
        rw [skipWs_cons rfl] at h
        rw [← (List.cons.inj h).2, skipWs_cons rfl] at hend
        exact (List.cons.inj hend).2.symm
    | object h hs => cases hs
  · rintro rfl
    exact .emptyObject (skipWs_cons rfl _) (skipWs_cons rfl _)

theorem value_bool_iff {b : Bool} {rest rest' : List UInt8} :
    Value ((if b then [0x74, 0x72, 0x75, 0x65] else [0x66, 0x61, 0x6c, 0x73, 0x65]) ++ rest)
      (.bool b) rest' ↔ rest' = rest := by
  constructor
  · intro H
    cases H with
    | true h =>
        rw [if_pos rfl, List.cons_append, skipWs_cons rfl] at h
        simpa using h.symm
    | false h =>
        rw [if_neg Bool.false_ne_true, List.cons_append, skipWs_cons rfl] at h
        simpa using h.symm
  · rintro rfl
    cases b with
    | true => exact .true (skipWs_cons rfl _)
    | false => exact .false (skipWs_cons rfl _)

/-! ## Escaped strings -/

/-- A string with a backslash in front of each quote and each backslash. -/
def escaped (s : List UInt8) : List UInt8 :=
  s.flatMap fun c => if c = 0x22 ∨ c = 0x5c then [0x5c, c] else [c]

theorem escaped_append (a b : List UInt8) : escaped (a ++ b) = escaped a ++ escaped b :=
  List.flatMap_append

/-- What needs no escape gets none. -/
theorem escaped_of_plain {s : List UInt8} (H : ∀ c ∈ s, Plain c) : escaped s = s := by
  rw [escaped, List.flatMap_congr fun c hc => if_neg (not_or.mpr (H c hc).2)]
  exact List.flatMap_singleton' s

/-- What follows a backslash in front of a quote or a backslash is read as itself. -/
theorem Escape.eq_of_head {e d text rest : List UInt8} {c : UInt8} (H : Escape e d)
    (hc : c = 0x22 ∨ c = 0x5c) (htext : e ++ text = c :: rest) : d = [c] ∧ text = rest := by
  have hhead := congrArg List.head? htext
  cases H with
  | quote | backslash =>
      obtain ⟨rfl, hrest⟩ := List.cons.inj htext
      exact ⟨rfl, hrest⟩
  | _ => rcases hc with rfl | rfl <;> simp at hhead

theorem str_escaped_iff {s v rest rest' : List UInt8} :
    Str (escaped s ++ 0x22 :: rest) v rest' ↔
      ((∀ c ∈ s, 0x20 ≤ c) ∧ v = s) ∧ rest' = rest := by
  induction s generalizing v with
  | nil =>
      constructor
      · intro H
        cases H with
        | close => exact ⟨⟨by simp, rfl⟩, rfl⟩
        | plain hc h => exact absurd rfl hc.2.1
      · rintro ⟨⟨-, rfl⟩, rfl⟩
        exact .close
  | cons c s ih =>
      rw [escaped, List.flatMap_cons, ← escaped]
      split
      · rename_i hc
        have hprint : 0x20 ≤ c := by rcases hc with rfl | rfl <;> decide
        rw [List.forall_mem_cons]
        constructor
        · intro H
          generalize htext : [0x5c, c] ++ escaped s ++ 0x22 :: rest = text at H
          cases H with
          | close => exact absurd (List.cons.inj htext).1 (by decide)
          | plain hplain h => exact absurd (List.cons.inj htext).1.symm hplain.2.2
          | escape he h =>
              obtain ⟨rfl, rfl⟩ := he.eq_of_head hc (List.cons.inj htext).2.symm
              obtain ⟨⟨hs, rfl⟩, rfl⟩ := ih.mp h
              exact ⟨⟨⟨hprint, hs⟩, rfl⟩, rfl⟩
        · rintro ⟨⟨⟨-, hs⟩, rfl⟩, rfl⟩
          have he : Escape [c] [c] := by
            rcases hc with rfl | rfl
            · exact .quote
            · exact .backslash
          exact .escape he (ih.mpr ⟨⟨hs, rfl⟩, rfl⟩)
      · rename_i hc
        rw [not_or] at hc
        rw [List.forall_mem_cons]
        constructor
        · intro H
          generalize htext : [c] ++ escaped s ++ 0x22 :: rest = text at H
          cases H with
          | close => exact absurd (List.cons.inj htext).1 hc.1
          | plain hplain h =>
              obtain ⟨rfl, rfl⟩ := List.cons.inj htext
              obtain ⟨⟨hs, rfl⟩, rfl⟩ := ih.mp h
              exact ⟨⟨⟨hplain.1, hs⟩, rfl⟩, rfl⟩
          | escape he h => exact absurd (List.cons.inj htext).1 hc.2
        · rintro ⟨⟨⟨hprint, hs⟩, rfl⟩, rfl⟩
          exact .plain ⟨hprint, hc⟩ (ih.mpr ⟨⟨hs, rfl⟩, rfl⟩)

/-! ## Pieces -/

/-- A piece of text that is read as a value exactly under a condition, whatever may follow it. -/
structure Exact {α : Type} (R : List UInt8 → α → List UInt8 → Prop) (text : List UInt8) (a : α)
    (P : Prop) : Prop where
  tame : ∀ {rest}, Tame rest → Tame (text ++ rest)
  reads_iff : ∀ {rest rest'}, Tame rest → (R (text ++ rest) a rest' ↔ P ∧ rest' = rest)

theorem Exact.congr {α : Type} {R : List UInt8 → α → List UInt8 → Prop} {text : List UInt8} {a : α}
    {P Q : Prop} (H : Exact R text a P) (hPQ : P ↔ Q) : Exact R text a Q :=
  ⟨H.tame, fun ht => (H.reads_iff ht).trans (and_congr_left' hPQ)⟩

/-- The text of a string, up to the quote that closes it, that is read as one exactly under a
condition. -/
def ExactStr (text s : List UInt8) (P : Prop) : Prop :=
  ∀ {rest rest'}, Tame rest → (Str (text ++ 0x22 :: rest) s rest' ↔ P ∧ rest' = rest)

theorem exactStr_raw (s : List UInt8) : ExactStr s s (∀ c ∈ s, Plain c) := str_raw_iff

theorem exactStr_escaped (s v : List UInt8) :
    ExactStr (escaped s) v ((∀ c ∈ s, 0x20 ≤ c) ∧ v = s) := fun _ => str_escaped_iff

/-- A number. -/
theorem exact_number {n : List UInt8} (hn : 0x5c ∉ n) : Exact Value n (.number n) (IsNumber n) :=
  ⟨fun ht => ht.append hn, fun _ => value_number_iff⟩

/-- A truth value. -/
theorem exact_bool (b : Bool) :
    Exact Value (if b then [0x74, 0x72, 0x75, 0x65] else [0x66, 0x61, 0x6c, 0x73, 0x65]) (.bool b)
      True :=
  ⟨fun ht => ht.append (by cases b <;> decide), fun _ => by rw [value_bool_iff, true_and]⟩

/-- A string. -/
theorem exact_string {text s : List UInt8} {P : Prop} (H : ExactStr text s P) :
    Exact Value (0x22 :: (text ++ [0x22])) (.string s) P :=
  ⟨fun _ => tame_quote _, fun ht => by
    rw [List.cons_append, List.append_assoc, List.singleton_append, value_string_iff, H ht]⟩

/-! ### Lists -/

section
variable {α : Type} {R : List UInt8 → α → List UInt8 → Prop} {close : UInt8}

/-- What is behind a thing of a list: the byte that closes the list, or a comma and more. -/
def Behind (R : List UInt8 → α → List UInt8 → Prop) (close : UInt8) (text : List UInt8)
    (xs : List α) (rest : List UInt8) : Prop :=
  xs = [] ∧ skipWs text = close :: rest ∨
    ∃ t, skipWs text = 0x2c :: t ∧ Listed R close t xs rest

theorem listed_cons_iff {text rest : List UInt8} {x : α} {xs : List α} :
    Listed R close text (x :: xs) rest ↔ ∃ t, R text x t ∧ Behind R close t xs rest := by
  constructor
  · intro H
    cases H with
    | last hx hend => exact ⟨_, hx, .inl ⟨rfl, hend⟩⟩
    | cons hx hcomma hs => exact ⟨_, hx, .inr ⟨_, hcomma, hs⟩⟩
  · rintro ⟨t, hx, ⟨rfl, hend⟩ | ⟨t', hcomma, hs⟩⟩
    · exact .last hx hend
    · exact .cons hx hcomma hs

theorem exact_listed {text text' : List UInt8} {x : α} {xs : List α} {P Q : Prop}
    (hx : Exact R text x P) (hxs : Exact (Behind R close) text' xs Q) :
    Exact (Listed R close) (text ++ text') (x :: xs) (P ∧ Q) := by
  refine ⟨fun ht => ?_, fun {rest rest'} ht => ?_⟩
  · rw [List.append_assoc]
    exact hx.tame (hxs.tame ht)
  · rw [List.append_assoc, listed_cons_iff]
    simp only [hx.reads_iff (hxs.tame ht), and_assoc, exists_and_left, exists_eq_left,
      hxs.reads_iff ht]

/-- A list ends with the byte that closes it. -/
theorem exact_close (hws : isWs close = false) (hcomma : close ≠ 0x2c) (hback : close ≠ 0x5c) :
    Exact (Behind R close) [close] [] True := by
  refine ⟨fun ht => ht.cons hback, fun {rest rest'} ht => ?_⟩
  rw [List.singleton_append, true_and]
  constructor
  · rintro (⟨-, h⟩ | ⟨t, h, -⟩) <;> rw [skipWs_cons hws] at h
    · exact (List.cons.inj h).2.symm
    · exact absurd (List.cons.inj h).1 hcomma
  · rintro rfl
    exact .inl ⟨rfl, skipWs_cons hws _⟩

/-- A list goes on behind a comma. -/
theorem exact_comma {text : List UInt8} {xs : List α} {P : Prop} (hcomma : close ≠ 0x2c)
    (H : Exact (Listed R close) text xs P) : Exact (Behind R close) (0x2c :: text) xs P := by
  refine ⟨fun ht => (H.tame ht).cons (by decide), fun {rest rest'} ht => ?_⟩
  rw [← H.reads_iff ht, List.cons_append]
  constructor
  · rintro (⟨-, h⟩ | ⟨t, h, hs⟩) <;> rw [skipWs_cons rfl] at h
    · exact absurd (List.cons.inj h).1.symm hcomma
    · exact (List.cons.inj h).2 ▸ hs
  · exact fun hs => .inr ⟨_, skipWs_cons rfl _, hs⟩

end

/-- An array. -/
theorem exact_array {text : List UInt8} {x : Tree} {xs : List Tree} {P : Prop}
    (H : Exact (Listed Value 0x5d) text (x :: xs) P) :
    Exact Value (0x5b :: text) (.array (x :: xs)) P :=
  ⟨fun ht => (H.tame ht).cons (by decide), fun ht => by
    rw [List.cons_append, value_array_iff, H.reads_iff ht]⟩

/-- An object. -/
theorem exact_object {text : List UInt8} {m : List UInt8 × Tree}
    {ms : List (List UInt8 × Tree)} {P : Prop} (H : Exact (Listed Member 0x7d) text (m :: ms) P) :
    Exact Value (0x7b :: text) (.object (m :: ms)) P :=
  ⟨fun ht => (H.tame ht).cons (by decide), fun ht => by
    rw [List.cons_append, value_object_iff, H.reads_iff ht]⟩

/-- An object of nothing. -/
theorem exact_emptyObject : Exact Value [0x7b, 0x7d] (.object []) True :=
  ⟨fun ht => ht.append (by decide), fun _ =>
    value_emptyObject_iff.trans (iff_of_eq (true_and _)).symm⟩

/-- No value starts with a comma. -/
theorem not_value_comma {text rest : List UInt8} {v : Tree} : ¬ Value (0x2c :: text) v rest := by
  intro H
  have hskip : skipWs (0x2c :: text) = 0x2c :: text := skipWs_cons rfl _
  cases H with
  | number h hn =>
      obtain ⟨c, t, rfl, hc⟩ := hn.exists_cons
      rw [hskip] at h
      obtain ⟨rfl, -⟩ := List.cons.inj h
      exact absurd hc (by decide)
  | _ => simp_all

/-- A text that is read exactly under a condition is one value exactly under it. -/
theorem Exact.isText_iff {text : List UInt8} {v : Tree} {P : Prop} (H : Exact Value text v P) :
    IsText text v ↔ P := by
  have hreads : ∀ rest, Value (text ++ []) v rest ↔ P ∧ rest = [] := fun rest =>
    H.reads_iff tame_nil
  simp only [List.append_nil] at hreads
  simp only [IsText, hreads]
  constructor
  · rintro ⟨-, ⟨hP, -⟩, -⟩
    exact hP
  · exact fun hP => ⟨[], ⟨hP, rfl⟩, rfl⟩

/-! ## Blanks -/

/-- Blanks between tokens. -/
def Blank (ws : List UInt8) : Prop := ∀ c ∈ ws, isWs c = true

instance (ws : List UInt8) : Decidable (Blank ws) := List.decidableBAll _ ws

theorem skipWs_append {ws : List UInt8} (H : Blank ws) (text : List UInt8) :
    skipWs (ws ++ text) = skipWs text := by
  induction ws with
  | nil => rfl
  | cons c ws ih =>
      rw [Blank, List.forall_mem_cons] at H
      rw [List.cons_append, skipWs, List.dropWhile_cons_of_pos H.1]
      exact ih H.2

theorem Blank.backslash_notMem {ws : List UInt8} (H : Blank ws) : 0x5c ∉ ws := fun h =>
  absurd (H _ h) (by decide)

/-- A rule that skips the blanks before it. -/
def SkipsBlanks {α : Type} (R : List UInt8 → α → List UInt8 → Prop) : Prop :=
  ∀ (text text' : List UInt8) (a : α) (rest : List UInt8), skipWs text = skipWs text' →
    R text a rest → R text' a rest

theorem skipsBlanks_value : SkipsBlanks Value := by
  intro text text' v rest hskip H
  cases H with
  | null h => exact .null (hskip ▸ h)
  | true h => exact .true (hskip ▸ h)
  | false h => exact .false (hskip ▸ h)
  | number h hn => exact .number (hskip ▸ h) hn
  | string h hs => exact .string (hskip ▸ h) hs
  | emptyArray h hend => exact .emptyArray (hskip ▸ h) hend
  | array h hs => exact .array (hskip ▸ h) hs
  | emptyObject h hend => exact .emptyObject (hskip ▸ h) hend
  | object h hs => exact .object (hskip ▸ h) hs

theorem skipsBlanks_member : SkipsBlanks Member := by
  rintro text text' _ rest hskip ⟨h, hk, hcolon, hv⟩
  exact ⟨hskip ▸ h, hk, hcolon, hv⟩

theorem skipsBlanks_behind {α : Type} {R : List UInt8 → α → List UInt8 → Prop} {close : UInt8} :
    SkipsBlanks (Behind R close) := by
  rintro text text' xs rest hskip (⟨hnil, hend⟩ | ⟨t, hcomma, hs⟩)
  · exact .inl ⟨hnil, hskip ▸ hend⟩
  · exact .inr ⟨t, hskip ▸ hcomma, hs⟩

theorem Exact.blanks {α : Type} {R : List UInt8 → α → List UInt8 → Prop} {text ws : List UInt8}
    {a : α} {P : Prop} (hR : SkipsBlanks R) (hws : Blank ws) (H : Exact R text a P) :
    Exact R (ws ++ text) a P := by
  refine ⟨fun ht => ?_, fun {rest rest'} ht => ?_⟩
  · rw [List.append_assoc]
    exact (H.tame ht).append hws.backslash_notMem
  · have hskip : skipWs (ws ++ (text ++ rest)) = skipWs (text ++ rest) := skipWs_append hws _
    rw [List.append_assoc, ← H.reads_iff ht]
    exact ⟨hR _ _ _ _ hskip, hR _ _ _ _ hskip.symm⟩

/-- A member with blanks around the colon. -/
theorem exact_member_blanks {text k text' ws ws' : List UInt8} {v : Tree} {P Q : Prop}
    (hk : ExactStr text k P) (hws : Blank ws) (hws' : Blank ws') (hv : Exact Value text' v Q) :
    Exact Member (0x22 :: (text ++ 0x22 :: (ws ++ 0x3a :: (ws' ++ text')))) (k, v) (P ∧ Q) := by
  have hv := hv.blanks skipsBlanks_value hws'
  refine ⟨fun _ => tame_quote _, fun {rest rest'} ht => ?_⟩
  have hcolon : Tame (ws ++ 0x3a :: (ws' ++ text' ++ rest)) :=
    ((hv.tame ht).cons (by decide)).append hws.backslash_notMem
  have hskip : skipWs (ws ++ 0x3a :: (ws' ++ text' ++ rest)) = 0x3a :: (ws' ++ text' ++ rest) :=
    (skipWs_append hws _).trans (skipWs_cons rfl _)
  have htext : 0x22 :: (text ++ 0x22 :: (ws ++ 0x3a :: (ws' ++ text'))) ++ rest =
      0x22 :: (text ++ 0x22 :: (ws ++ 0x3a :: (ws' ++ text' ++ rest))) := by
    simp only [List.append_assoc, List.cons_append]
  rw [htext]
  constructor
  · rintro ⟨h, hs, hcol, hval⟩
    rw [skipWs_cons rfl] at h
    obtain ⟨hP, rfl⟩ := (hk hcolon).mp ((List.cons.inj h).2 ▸ hs)
    rw [hskip] at hcol
    obtain ⟨hQ, rfl⟩ := (hv.reads_iff ht).mp ((List.cons.inj hcol).2 ▸ hval)
    exact ⟨⟨hP, hQ⟩, rfl⟩
  · rintro ⟨⟨hP, hQ⟩, rfl⟩
    exact ⟨skipWs_cons rfl _, (hk hcolon).mpr ⟨hP, rfl⟩, hskip, (hv.reads_iff ht).mpr ⟨hQ, rfl⟩⟩

/-- A member. -/
theorem exact_member {text k text' : List UInt8} {v : Tree} {P Q : Prop} (hk : ExactStr text k P)
    (hv : Exact Value text' v Q) :
    Exact Member (0x22 :: (text ++ 0x22 :: 0x3a :: text')) (k, v) (P ∧ Q) :=
  @exact_member_blanks text k text' [] [] v P Q hk (by decide) (by decide) hv

/-- An array of nothing but blanks. -/
theorem exact_blankArray {ws : List UInt8} (hws : Blank ws) :
    Exact Value (0x5b :: (ws ++ [0x5d])) (.array []) True := by
  refine ⟨fun ht => ?_, fun {rest rest'} ht => ?_⟩
  · rw [List.cons_append, List.append_assoc]
    exact (((ht.cons (by decide)).append hws.backslash_notMem).cons (by decide))
  · have hskip : skipWs (ws ++ 0x5d :: rest) = 0x5d :: rest :=
      (skipWs_append hws _).trans (skipWs_cons rfl _)
    rw [List.cons_append, List.append_assoc, List.singleton_append, true_and]
    constructor
    · intro H
      cases H with
      | emptyArray h hend =>
          rw [skipWs_cons rfl] at h
          rw [← (List.cons.inj h).2, hskip] at hend
          exact (List.cons.inj hend).2.symm
      | array h hs => cases hs
    · rintro rfl
      exact .emptyArray (skipWs_cons rfl _) hskip

/-! ## Arrays of pieces -/

section
variable {β : Type} {text : β → List UInt8} {val : β → Tree} {P : β → Prop} {ws : List UInt8}

/-- Pieces one behind the other, each with a comma in front or without, up to the bracket. -/
def piecesText (text : β → List UInt8) (ws : List UInt8) (ps : List (β × Bool)) : List UInt8 :=
  ps.flatMap (fun p => (if p.2 then [0x2c] else []) ++ text p.1) ++ (ws ++ [0x5d])

/-- Each piece but the first has a comma in front. -/
def Separated : List (β × Bool) → Prop
  | [] => True
  | p :: ps => p.2 = false ∧ ∀ p ∈ ps, p.2 = true

/-- A text that goes on with neither a comma nor a bracket. -/
def StartsValue (text : List UInt8) : Prop :=
  ∃ c t, skipWs text = c :: t ∧ c ≠ 0x2c ∧ c ≠ 0x5d

theorem StartsValue.append {a : List UInt8} (H : StartsValue a) (rest : List UInt8) :
    StartsValue (a ++ rest) := by
  obtain ⟨c, t, hskip, hcomma, hclose⟩ := H
  refine ⟨c, t ++ rest, ?_, hcomma, hclose⟩
  have hne : ∃ x ∈ a, isWs x = false := by
    by_contra hall
    have : skipWs a = [] := by
      rw [skipWs, List.dropWhile_eq_nil_iff]
      intro x hx
      by_contra hx'
      exact hall ⟨x, hx, by simpa using hx'⟩
    rw [this] at hskip
    cases hskip
  obtain ⟨x, hx, hws⟩ := hne
  rw [skipWs, List.dropWhile_append, ← skipWs, hskip]
  rfl

theorem not_behind_of_startsValue {t rest : List UInt8} {xs : List Tree} (H : StartsValue t) :
    ¬ Behind Value 0x5d t xs rest := by
  obtain ⟨c, t', hskip, hcomma, hclose⟩ := H
  rintro (⟨-, h⟩ | ⟨t'', h, -⟩) <;> rw [hskip] at h
  · exact hclose (List.cons.inj h).1
  · exact hcomma (List.cons.inj h).1

theorem exact_behind_pieces (H : ∀ b, Exact Value (text b) (val b) (P b))
    (hstart : ∀ b, StartsValue (text b)) (hws : Blank ws) (ps : List (β × Bool)) :
    Exact (Behind Value 0x5d) (piecesText text ws ps) (ps.map fun p => val p.1)
      (∀ p ∈ ps, p.2 = true ∧ P p.1) := by
  induction ps with
  | nil =>
      have hclose : Exact (Behind Value 0x5d) [0x5d] [] True :=
        exact_close rfl (by decide) (by decide)
      exact (hclose.blanks skipsBlanks_behind hws).congr (by simp)
  | cons p ps ih =>
      obtain ⟨b, comma⟩ := p
      have htext : piecesText text ws ((b, comma) :: ps) =
          (if comma then [0x2c] else []) ++ (text b ++ piecesText text ws ps) := by
        simp [piecesText]
      rw [htext, List.map_cons]
      cases comma with
      | true =>
          refine (exact_comma (by decide) (exact_listed (H b) ih)).congr ?_
          rw [List.forall_mem_cons]
          exact and_congr_left' (and_iff_right rfl).symm
      | false =>
          refine ⟨fun ht => ?_, fun ht => ?_⟩
          · rw [if_neg Bool.false_ne_true, List.nil_append, List.append_assoc]
            exact (H b).tame (ih.tame ht)
          · -- the list goes on without the comma
            rw [if_neg Bool.false_ne_true, List.nil_append, List.append_assoc]
            constructor
            · exact fun h => absurd h (not_behind_of_startsValue ((hstart b).append _))
            · rintro ⟨h, -⟩
              exact absurd (h _ List.mem_cons_self).1 Bool.false_ne_true

/-- **Pieces in an array.** -/
theorem exact_pieces (H : ∀ b, Exact Value (text b) (val b) (P b))
    (hstart : ∀ b, StartsValue (text b)) (hws : Blank ws) (ps : List (β × Bool)) :
    Exact Value (0x5b :: piecesText text ws ps) (.array (ps.map fun p => val p.1))
      (Separated ps ∧ ∀ p ∈ ps, P p.1) := by
  cases ps with
  | nil => exact (exact_blankArray hws).congr (by simp [Separated])
  | cons p ps =>
      obtain ⟨b, comma⟩ := p
      have hbehind := exact_behind_pieces H hstart hws ps
      have htext : piecesText text ws ((b, comma) :: ps) =
          (if comma then [0x2c] else []) ++ (text b ++ piecesText text ws ps) := by
        simp [piecesText]
      rw [htext, List.map_cons]
      cases comma with
      | false =>
          refine (exact_array (exact_listed (H b) hbehind)).congr ?_
          rw [Separated, List.forall_mem_cons]
          constructor
          · exact fun ⟨hb, hps⟩ => ⟨⟨rfl, fun p hp => (hps p hp).1⟩, hb, fun p hp => (hps p hp).2⟩
          · exact fun ⟨⟨_, hcommas⟩, hb, hps⟩ => ⟨hb, fun p hp => ⟨hcommas p hp, hps p hp⟩⟩
      | true =>
          refine ⟨fun ht => ?_, fun ht => ?_⟩
          · have hrest := (exact_listed (H b) hbehind).tame ht
            exact (hrest.cons (by decide)).cons (by decide)
          · -- the array starts with a comma
            constructor
            · intro h
              obtain ⟨t, hvalue, -⟩ := listed_cons_iff.mp (value_array_iff.mp h)
              exact absurd hvalue not_value_comma
            · rintro ⟨⟨⟨hfirst, -⟩, -⟩, -⟩
              cases hfirst

end

end JsonText

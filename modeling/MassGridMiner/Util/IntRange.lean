import MassGridMiner.Lib.Format
import MassGridMiner.Lib.Strtol

/-!
# Ranges of integers in text

`get_intrange` reads a number, or two with a dash between them, of which each may have a dash for a
sign.  The numbers are read as values of type `long` and kept as values of type `int`, and nothing
looks at whether these are the same.

## Main definitions

* `getIntrange` — the function.
* `Range` — the form of a range, and its numbers.
* `Law` — what is expected of the function.
* `accepted_iff` — the texts that it is so for.
-/

namespace MassGridMiner
namespace IntRange

open CStr

/-- What the loop behind the first number stops at. -/
inductive Stop
  | all
  | dash (p2 : List UInt8)
  | garbage

/-- The loop behind the first number. -/
def toDash : List UInt8 → Stop
  | [] => .all
  | c :: p => if c = 0x2d then .dash p else if !isSpace c then .garbage else toDash p

/-- The loop behind the second number. -/
def toEnd : List UInt8 → Bool
  | [] => true
  | c :: p => if !isSpace c then false else toEnd p

/-- `get_intrange`: what it returns, and what is in `*val1` and `*val2` then. -/
def getIntrange (arg : CStr) (val2 : ℤ) : Bool × ℤ × ℤ :=
  let (long, p) := strtol arg.bytes
  let val1 := toInt long
  if arg.bytes.length = p.length then (false, val1, val2)
  else
    match toDash p with
    | .all => (true, val1, val1)
    | .garbage => (false, val1, val2)
    | .dash p2 =>
      let (long, p) := strtol p2
      let val2 := toInt long
      if p2.length = p.length then (false, val1, val2) else (toEnd p, val1, val2)

/-- Nothing but white space. -/
def Blank (s : List UInt8) : Prop := ∀ c ∈ s, isSpace c = true

/-- A text is a number, or two with a dash between them, and these are the numbers, of which the
single one is both. -/
def Range (s : List UInt8) (m n : ℤ) : Prop :=
  ∃ rest, readNumber s = some (m, rest) ∧
    ((Blank rest ∧ n = m) ∨
      ∃ space t rest', rest = space ++ 0x2d :: t ∧ Blank space ∧ readNumber t = some (n, rest') ∧
        Blank rest')

/-- What is expected: the ranges with numbers that an `int` can hold are accepted, and no other
text, and their numbers are the values. -/
structure Law (arg : CStr) : Prop where
  accepts_iff : ∀ val2, (getIntrange arg val2).1 = true ↔
    ∃ m n, Range arg.bytes m n ∧ InInt m ∧ InInt n
  values : ∀ val2 m n, Range arg.bytes m n → InInt m → InInt n →
    getIntrange arg val2 = (true, m, n)

/-- The numbers of a text that is a range are values of an `int`. -/
def Holds (arg : CStr) : Prop := ∀ m n, Range arg.bytes m n → InInt m ∧ InInt n

theorem toEnd_eq_true_iff {s : List UInt8} : toEnd s = true ↔ Blank s := by
  induction s with
  | nil => simp [toEnd, Blank]
  | cons c s ih =>
    rw [toEnd, Blank, List.forall_mem_cons, ← Blank, ← ih]
    cases isSpace c <;> simp

theorem isSpace_dash : isSpace 0x2d = false := by decide

theorem not_blank_dash (space t : List UInt8) : ¬Blank (space ++ 0x2d :: t) := fun h =>
  absurd (h 0x2d (List.mem_append_right _ List.mem_cons_self)) (by decide)

theorem toDash_eq_all_iff {s : List UInt8} : toDash s = .all ↔ Blank s := by
  induction s with
  | nil => simp [toDash, Blank]
  | cons c s ih =>
    rw [toDash, Blank, List.forall_mem_cons, ← Blank, ← ih]
    split
    next hdash => simp [hdash, isSpace_dash]
    next => cases isSpace c <;> simp

theorem toDash_eq_dash_iff {s t : List UInt8} :
    toDash s = .dash t ↔ ∃ space, s = space ++ 0x2d :: t ∧ Blank space := by
  induction s with
  | nil => simp [toDash]
  | cons c s ih =>
    rw [toDash]
    constructor
    · intro h
      split at h
      next hdash =>
        obtain rfl := Stop.dash.inj h
        exact ⟨[], by rw [hdash]; rfl, fun x hx => absurd hx List.not_mem_nil⟩
      next =>
        split at h
        · cases h
        next hspace =>
          obtain ⟨space, rfl, hblank⟩ := ih.mp h
          exact ⟨c :: space, rfl, List.forall_mem_cons.mpr ⟨by simpa using hspace, hblank⟩⟩
    · rintro ⟨space, hs, hblank⟩
      cases space with
      | nil =>
        obtain ⟨rfl, rfl⟩ := List.cons.inj hs
        rfl
      | cons x space =>
        obtain ⟨rfl, rfl⟩ := List.cons.inj hs
        obtain ⟨hspace, hblank⟩ := List.forall_mem_cons.mp hblank
        have hdash : c ≠ 0x2d := fun h => by
          rw [h, isSpace_dash] at hspace
          cases hspace
        rw [if_neg hdash, if_neg (by simp [hspace])]
        exact ih.mpr ⟨space, rfl, hblank⟩

/-- Of a range, the function makes what an `int` keeps of its numbers. -/
theorem getIntrange_eq {arg : CStr} {m n : ℤ} (H : Range arg.bytes m n) (val2 : ℤ) :
    getIntrange arg val2 = (true, toInt (toLong m), toInt (toLong n)) := by
  obtain ⟨rest, hfirst, hform⟩ := H
  have hlt := length_lt_of_readNumber hfirst
  simp only [getIntrange, strtol, hfirst, if_neg (Nat.ne_of_gt hlt)]
  rcases hform with ⟨hblank, rfl⟩ | ⟨space, t, rest', rfl, hblank, hsecond, hend⟩
  · rw [toDash_eq_all_iff.mpr hblank]
  · have hlt' := length_lt_of_readNumber hsecond
    rw [toDash_eq_dash_iff.mpr ⟨space, rfl, hblank⟩]
    simp only [hsecond, if_neg (Nat.ne_of_gt hlt'), toEnd_eq_true_iff.mpr hend]

/-- What the function accepts is a range. -/
theorem range_of_accepted {arg : CStr} {val2 : ℤ} (H : (getIntrange arg val2).1 = true) :
    ∃ m n, Range arg.bytes m n := by
  unfold getIntrange strtol at H
  cases hfirst : readNumber arg.bytes with
  | none => simp [hfirst] at H
  | some first =>
    obtain ⟨m, rest⟩ := first
    have hlt := length_lt_of_readNumber hfirst
    simp only [hfirst, if_neg (Nat.ne_of_gt hlt)] at H
    cases hstop : toDash rest with
    | all => exact ⟨m, m, rest, hfirst, Or.inl ⟨toDash_eq_all_iff.mp hstop, rfl⟩⟩
    | garbage =>
      rw [hstop] at H
      cases H
    | dash t =>
      obtain ⟨space, hrest, hblank⟩ := toDash_eq_dash_iff.mp hstop
      rw [hstop] at H
      cases hsecond : readNumber t with
      | none => simp [hsecond] at H
      | some second =>
        obtain ⟨n, rest'⟩ := second
        have hlt' := length_lt_of_readNumber hsecond
        simp only [hsecond, if_neg (Nat.ne_of_gt hlt')] at H
        exact ⟨m, n, rest, hfirst,
          Or.inr ⟨space, t, rest', hrest, hblank, hsecond, toEnd_eq_true_iff.mp H⟩⟩

/-- A text is a range in one way. -/
theorem range_unique {s : List UInt8} {m n m' n' : ℤ} (H : Range s m n) (H' : Range s m' n') :
    m = m' ∧ n = n' := by
  obtain ⟨rest, hfirst, hform⟩ := H
  obtain ⟨rest', hfirst', hform'⟩ := H'
  obtain ⟨rfl, rfl⟩ := Prod.mk.inj (Option.some.inj (hfirst.symm.trans hfirst'))
  refine ⟨rfl, ?_⟩
  rcases hform with ⟨hblank, rfl⟩ | ⟨space, t, r, hrest, hblank, hsecond, -⟩
  · rcases hform' with ⟨-, rfl⟩ | ⟨space, t, -, rfl, -⟩
    · rfl
    · exact absurd hblank (not_blank_dash space t)
  · rcases hform' with ⟨hblank', -⟩ | ⟨space', t', r', hrest', hblank', hsecond', -⟩
    · exact absurd (hrest ▸ hblank') (not_blank_dash space t)
    · have hstop := toDash_eq_dash_iff.mpr ⟨space, hrest, hblank⟩
      have hstop' := toDash_eq_dash_iff.mpr ⟨space', hrest', hblank'⟩
      obtain rfl := Stop.dash.inj (hstop.symm.trans hstop')
      exact (Prod.mk.inj (Option.some.inj (hsecond.symm.trans hsecond'))).1

/-- **The function reads the ranges** of numbers that an `int` can hold and nothing else, exactly
on the texts that are not ranges of any other numbers. -/
theorem accepted_iff (arg : CStr) : Law arg ↔ Holds arg := by
  constructor
  · intro H m n hrange
    have haccepts : (getIntrange arg 0).1 = true := by rw [getIntrange_eq hrange]
    obtain ⟨m', n', hrange', hm, hn⟩ := (H.accepts_iff 0).mp haccepts
    obtain ⟨rfl, rfl⟩ := range_unique hrange hrange'
    exact ⟨hm, hn⟩
  · intro H
    refine ⟨fun val2 => ⟨fun haccepts => ?_, ?_⟩, fun val2 m n hrange hm hn => ?_⟩
    · obtain ⟨m, n, hrange⟩ := range_of_accepted haccepts
      exact ⟨m, n, hrange, H m n hrange⟩
    · rintro ⟨m, n, hrange, -⟩
      rw [getIntrange_eq hrange]
    · rw [getIntrange_eq hrange, toInt_toLong hm, toInt_toLong hn]

/-- The text of the number `2 ^ 32 + 1`. -/
def beyond : CStr := ⟨literal "4294967297", by simp only [literal_eq]; decide⟩

/-- It is accepted as the number `1`. -/
theorem not_law_beyond : ¬∀ arg, Law arg := by
  intro H
  have haccepts : (getIntrange beyond 0).1 = true := by
    simp only [beyond, literal_eq]
    decide
  obtain ⟨m, n, ⟨rest, hfirst, -⟩, hm, -⟩ := ((H beyond).accepts_iff 0).mp haccepts
  have hread : readNumber beyond.bytes = some (4294967297, []) := by
    simp only [beyond, literal_eq]
    decide
  obtain ⟨rfl, -⟩ := Prod.mk.inj (Option.some.inj (hread.symm.trans hfirst))
  exact absurd hm (by decide)

example : getIntrange ⟨literal "-1--2", by simp only [literal_eq]; decide⟩ 0 = (true, -1, -2) := by
  simp only [literal_eq]
  decide

end IntRange
end MassGridMiner

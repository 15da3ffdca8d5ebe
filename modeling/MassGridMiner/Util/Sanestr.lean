import MassGridMiner.Lib.Buffer
import MassGridMiner.Lib.CString

/-!
# Strings made sane

`sanestr` keeps some characters of a string and drops the others, and joins two digits that only
dropped characters were between with an underscore.  It looks back at the character before the
place that it writes to, unless that is the place that it reads from, which is only so in place.

## Main definitions

* `sanestrTo`, `sanestrIn` — the function into another buffer, and in place.
* `between` — what is to be written.
* `Sane` — both write it.
* `sane_iff` — the strings that they do so for.
-/

namespace MassGridMiner
namespace Sanestr

/-- `c >= '0' && c <= '9'`. -/
def isDigit (c : UInt8) : Bool := 0x30 ≤ c && c ≤ 0x39

def sanechars : List Bool :=
  [false, false, false, false, false, false, false, false,
   false, false, false, false, false, false, false, false,
   false, false, false, false, false, false, false, false,
   false, false, false, false, false, false, false, false,
   false, false, false, false, false, false, false, false,
   false, false, false, false, false, true, false, false,
   true, true, true, true, true, true, true, true,
   true, true, false, false, false, false, false, false,
   false, true, true, true, true, true, true, true,
   true, true, true, true, true, true, true, true,
   true, true, true, true, true, true, true, true,
   true, true, true, false, false, false, false, false,
   false, true, true, true, true, true, true, true,
   true, true, true, true, true, true, true, true,
   true, true, true, true, true, true, true, true,
   true, true, true, false, false, false, false, false]

/-- `sanechars[c & 0x7f]`. -/
def kept (c : UInt8) : Bool := sanechars[(c &&& 0x7f).toNat]?.getD false

/-- `sanestr` into another buffer, from a character on: what is written to the buffer, or none if a
byte is read that was not written. -/
def sanestrTo : List UInt8 → List UInt8 → Bool → Option (List UInt8)
  | [], o, _ => some (o ++ [0])
  | c :: s, o, br =>
    if kept c then
      sanestrTo s ((if br && isDigit c then o ++ [0x5f] else o) ++ [c]) false
    else
      o.getLast?.bind fun last => sanestrTo s o (br || isDigit last)

/-- A byte of the memory that is written, and the first byte that is not read for the last time by
then. -/
abbrev Write := ℕ × ℕ

/-- `sanestr` in place, from a character on, for as many characters as there can be: the memory
and what was written, or none if a byte outside of the memory is read or written. -/
def sanestrFrom : ℕ → List UInt8 → ℕ → ℕ → Bool → List Write → Option (List UInt8 × List Write)
  | 0, _, _, _, _, _ => none
  | fuel + 1, mem, o, s, br, writes => do
    let c : UInt8 ← mem[s]?
    if c = 0 then
      let mem ← memcpy mem o [0]
      some (mem, writes ++ [(o, s + 1)])
    else if kept c then
      if br && isDigit c then
        let mem ← memcpy mem o [0x5f]
        let c : UInt8 ← mem[s]?
        let mem ← memcpy mem (o + 1) [c]
        sanestrFrom fuel mem (o + 2) (s + 1) false (writes ++ [(o, s), (o + 1, s + 1)])
      else
        let mem ← memcpy mem o [c]
        sanestrFrom fuel mem (o + 1) (s + 1) false (writes ++ [(o, s + 1)])
    else if o = s then sanestrFrom fuel mem o (s + 1) br writes
    else if o = 0 then none
    else
      let last : UInt8 ← mem[o - 1]?
      sanestrFrom fuel mem o (s + 1) (br || isDigit last) writes

/-- `sanestr` in place. -/
def sanestrIn (mem : List UInt8) : Option (List UInt8 × List Write) :=
  sanestrFrom mem.length mem 0 0 false []

/-- The kept characters of a string, an underscore between two digits that characters were dropped
between; behind the last kept character, and what was dropped since. -/
def between : Option UInt8 → Bool → List UInt8 → List UInt8
  | _, _, [] => []
  | last, dropped, c :: s =>
    if kept c then
      (if dropped && last.any isDigit && isDigit c then [0x5f, c] else [c]) ++
        between (some c) false s
    else between last true s

/-- The string is made sane in both ways: what is to be written is written, and in place nothing is
overwritten that is yet to be read. -/
structure Sane (s : CStr) : Prop where
  separate : sanestrTo s.bytes [] false = some (between none false s.bytes ++ [0])
  inPlace : ∃ rest writes, sanestrIn (s.bytes ++ [0]) =
    some (between none false s.bytes ++ 0 :: rest, writes) ∧ ∀ w ∈ writes, w.1 < w.2

/-- The first character that is dropped is the only one between two digits. -/
def SingleDrop (s : List UInt8) : Prop :=
  ∃ front a x b rest, s = front ++ a :: x :: b :: rest ∧ (∀ c ∈ front, kept c = true) ∧
    isDigit a = true ∧ kept x = false ∧ isDigit b = true

theorem index_lt (c : UInt8) : (c &&& 0x7f).toNat < sanechars.length := by
  have hlen : sanechars.length = 128 := rfl
  rw [hlen, UInt8.toNat_and]
  exact Nat.lt_succ_of_le Nat.and_le_right

theorem kept_of_isDigit {c : UInt8} (H : isDigit c = true) : kept c = true := by
  have hall : ∀ i : Fin 10, kept (UInt8.ofNat (0x30 + i)) = true := by decide
  rw [isDigit, Bool.and_eq_true, decide_eq_true_eq, decide_eq_true_eq] at H
  have hlow : 0x30 ≤ c.toNat := H.1
  have hhigh : c.toNat ≤ 0x39 := H.2
  have hc := hall ⟨c.toNat - 0x30, by omega⟩
  rwa [show 0x30 + (c.toNat - 0x30) = c.toNat by omega, UInt8.ofNat_toNat] at hc

/-! ## Into another buffer -/

/-- Behind a kept character the function writes what it has to. -/
theorem sanestrTo_eq (s o : List UInt8) (last : UInt8) (dropped : Bool) :
    sanestrTo s (o ++ [last]) (dropped && isDigit last) =
      some (o ++ [last] ++ between (some last) dropped s ++ [0]) := by
  induction s generalizing o last dropped with
  | nil => rw [sanestrTo, between, List.append_nil]
  | cons c s ih =>
    rw [sanestrTo, between]
    split
    · rw [Option.any_some]
      have hkeep := ih (if dropped && isDigit last && isDigit c then o ++ [last] ++ [0x5f]
        else o ++ [last]) c false
      rw [Bool.false_and] at hkeep
      rw [hkeep]
      split <;> simp only [List.append_assoc, List.cons_append, List.nil_append]
    · rw [List.getLast?_concat, Option.bind_some]
      have hdrop : (dropped && isDigit last || isDigit last) = (true && isDigit last) := by
        cases dropped <;> cases isDigit last <;> rfl
      rw [hdrop, ih]

/-- Nothing is looked back at exactly if the first character is kept. -/
theorem sanestrTo_iff (s : List UInt8) :
    sanestrTo s [] false = some (between none false s ++ [0]) ↔
      ∀ c ∈ s.head?, kept c = true := by
  cases s with
  | nil => simp [sanestrTo, between]
  | cons c s =>
    rw [sanestrTo, between, List.head?_cons]
    split
    · next hc =>
      have hkeep := sanestrTo_eq s [] c false
      rw [Bool.false_and, List.nil_append] at hkeep
      simp only [Bool.false_and, if_neg Bool.false_ne_true, List.nil_append, hkeep,
        Option.mem_some_iff, forall_eq', hc]
    · next hc =>
      simp only [List.getLast?_nil, Option.bind_none, Option.mem_some_iff, forall_eq', hc,
        reduceCtorEq]

/-! ## In place -/

/-- The function in place by what is written, unread and between the two, which is so many
bytes. -/
def placeLoop : List UInt8 → List UInt8 → ℕ → Bool → Option (List UInt8)
  | [], o, _, _ => some o
  | c :: s, o, gap, br =>
    if kept c then
      if br && isDigit c then placeLoop s (o ++ [0x5f, c]) (gap - 1) false
      else placeLoop s (o ++ [c]) gap false
    else if gap = 0 then placeLoop s o 1 br
    else o.getLast?.bind fun last => placeLoop s o (gap + 1) (br || isDigit last)

/-- A write behind what is written takes from what is between, as what was read joins it. -/
theorem memcpy_between (o mid s : List UInt8) (c d : UInt8) :
    memcpy (o ++ mid ++ d :: s) o.length [c] = some (o ++ [c] ++ (mid ++ [d]).drop 1 ++ s) := by
  rw [memcpy, if_pos (by simp; omega), List.append_assoc, writeAt_append, List.length_singleton]
  congr 1
  cases mid <;> simp

theorem getElem?_between (o mid s : List UInt8) (c : UInt8) :
    (o ++ mid ++ c :: s)[o.length + mid.length]? = some c := by
  rw [← List.length_append, List.getElem?_append_right le_rfl, Nat.sub_self]
  rfl

theorem forall_writes_append {writes more : List Write} (H : ∀ w ∈ writes, w.1 < w.2)
    (hmore : ∀ w ∈ more, w.1 < w.2) : ∀ w ∈ writes ++ more, w.1 < w.2 := fun w hw =>
  (List.mem_append.mp hw).elim (H w) (hmore w)

/-- The memory holds what is written, what is between, and what is unread. -/
theorem sanestrFrom_of_placeLoop {s out : List UInt8} (o mid : List UInt8) (br : Bool)
    {fuel : ℕ} {writes : List Write} (h0 : 0 ∉ s) (hfuel : s.length < fuel) (hbr : br = true → mid ≠ [])
    (hwrites : ∀ w ∈ writes, w.1 < w.2) (H : placeLoop s o mid.length br = some out) :
    ∃ rest writes', sanestrFrom fuel (o ++ mid ++ (s ++ [0])) o.length (o.length + mid.length) br
      writes = some (out ++ 0 :: rest, writes') ∧ ∀ w ∈ writes', w.1 < w.2 := by
  induction s generalizing o mid br fuel writes with
  | nil =>
    obtain ⟨fuel, rfl⟩ : ∃ n, fuel = n + 1 := ⟨fuel - 1, by omega⟩
    obtain rfl := Option.some.inj H
    have hmore : ∀ w ∈ [(o.length, o.length + mid.length + 1)], w.1 < w.2 := by
      simp only [List.mem_singleton, forall_eq]
      omega
    refine ⟨(mid ++ [0]).drop 1, writes ++ [(o.length, o.length + mid.length + 1)], ?_,
      forall_writes_append hwrites hmore⟩
    rw [List.nil_append, sanestrFrom, getElem?_between, memcpy_between]
    simp
  | cons c s ih =>
    obtain ⟨fuel, rfl⟩ : ∃ n, fuel = n + 1 := ⟨fuel - 1, by omega⟩
    rw [List.mem_cons, not_or] at h0
    have hc : c ≠ 0 := Ne.symm h0.1
    rw [List.length_cons] at hfuel
    have hless : s.length < fuel := by omega
    rw [placeLoop] at H
    rw [List.cons_append, sanestrFrom, getElem?_between]
    simp only [Option.bind_eq_bind, Option.bind_some, if_neg hc]
    split at H
    · next hkept =>
      rw [if_pos hkept]
      split at H
      · next hdigit =>
        -- an underscore takes the place of a dropped character
        obtain ⟨m, mid, rfl⟩ : ∃ m rest, mid = m :: rest :=
          List.exists_cons_of_ne_nil (hbr (Bool.and_eq_true_iff.mp hdigit).1)
        have hshift : o ++ [0x5f] ++ (m :: mid ++ [c]).drop 1 ++ (s ++ [0]) =
            o ++ [0x5f] ++ mid ++ c :: (s ++ [0]) := by simp
        have hread := getElem?_between (o ++ [0x5f]) mid (s ++ [0]) c
        have hplace : (o ++ [0x5f]).length + mid.length = o.length + (m :: mid).length := by
          simp only [List.length_append, List.length_cons, List.length_nil]
          omega
        have hwrite := memcpy_between (o ++ [0x5f]) mid (s ++ [0]) c c
        rw [hplace] at hread
        rw [List.length_append, List.length_singleton] at hwrite
        have hmid : ((mid ++ [c]).drop 1).length = mid.length := by simp
        have hmore : ∀ w ∈ [(o.length, o.length + (m :: mid).length),
            (o.length + 1, o.length + (m :: mid).length + 1)], w.1 < w.2 := by simp
        have hnext := ih (o ++ [0x5f] ++ [c]) ((mid ++ [c]).drop 1) false h0.2 hless
          (fun h => nomatch h) (forall_writes_append hwrites hmore)
          (by rw [hmid, List.append_assoc]; exact H)
        have hend : (o ++ [0x5f] ++ [c]).length + ((mid ++ [c]).drop 1).length =
            o.length + (m :: mid).length + 1 := by
          rw [hmid]
          simp only [List.length_append, List.length_cons, List.length_nil]
          omega
        rw [hend] at hnext
        rw [if_pos hdigit, memcpy_between, Option.bind_some, hshift, hread, Option.bind_some,
          hwrite, Option.bind_some]
        simpa only [List.length_append, List.length_singleton] using hnext
      · next hdigit =>
        have hmid : ((mid ++ [c]).drop 1).length = mid.length := by simp
        have hmore : ∀ w ∈ [(o.length, o.length + mid.length + 1)], w.1 < w.2 := by
          simp only [List.mem_singleton, forall_eq]
          omega
        have hnext := ih (o ++ [c]) ((mid ++ [c]).drop 1) false h0.2 hless
          (fun h => nomatch h) (forall_writes_append hwrites hmore) (by rw [hmid]; exact H)
        have hend : o.length + 1 + mid.length = o.length + mid.length + 1 := by omega
        rw [hmid, List.length_append, List.length_singleton, hend] at hnext
        rw [if_neg hdigit, memcpy_between, Option.bind_some]
        exact hnext
    · next hkept =>
      have hmem : o ++ mid ++ c :: (s ++ [0]) = o ++ (mid ++ [c]) ++ (s ++ [0]) := by simp
      have hlen : (mid ++ [c]).length = mid.length + 1 := by simp
      rw [if_neg hkept, hmem]
      split at H
      · next hgap =>
        rw [if_pos (by omega)]
        have hnext := ih o (mid ++ [c]) _ h0.2 hless (fun _ => by simp) hwrites
          (by rw [hlen, hgap]; exact H)
        rwa [hlen, ← Nat.add_assoc] at hnext
      · next hgap =>
        obtain ⟨last, hlast, H⟩ := Option.bind_eq_some_iff.mp H
        obtain ⟨front, rfl⟩ := List.getLast?_eq_some_iff.mp hlast
        have hread : (front ++ [last] ++ (mid ++ [c]) ++
            (s ++ [0]))[(front ++ [last]).length - 1]? = some last := by simp
        have hnext := ih (front ++ [last]) (mid ++ [c]) _ h0.2 hless (fun _ => by simp)
          hwrites (by rw [hlen]; exact H)
        rw [if_neg (by omega), if_neg (by simp), hread, Option.bind_some]
        rwa [hlen, ← Nat.add_assoc] at hnext

/-- Behind a dropped character the function in place writes what it has to. -/
theorem placeLoop_eq (s o : List UInt8) (last : UInt8) (dropped : Bool) (gap : ℕ)
    (hgap : 1 ≤ gap) (hroom : (dropped && isDigit last) = true → 2 ≤ gap) :
    placeLoop s (o ++ [last]) gap (dropped && isDigit last) =
      some (o ++ [last] ++ between (some last) dropped s) := by
  induction s generalizing o last dropped gap with
  | nil => rw [placeLoop, between, List.append_nil]
  | cons c s ih =>
    rw [placeLoop, between]
    split
    · rw [Option.any_some]
      split
      · next hdigit =>
        have hkeep := ih (o ++ [last] ++ [0x5f]) c false (gap - 1)
          (Nat.le_sub_of_add_le (hroom (Bool.and_eq_true_iff.mp hdigit).1)) (fun h => nomatch h)
        rw [Bool.false_and, List.append_assoc _ [0x5f]] at hkeep
        rw [List.append_assoc] at hkeep ⊢
        refine hkeep.trans ?_
        simp
      · have hkeep := ih (o ++ [last]) c false gap hgap (fun h => nomatch h)
        rw [Bool.false_and] at hkeep
        rw [hkeep]
        simp
    · rw [if_neg (by omega), List.getLast?_concat, Option.bind_some]
      have hdrop : (dropped && isDigit last || isDigit last) = (true && isDigit last) := by
        cases dropped <;> cases isDigit last <;> rfl
      rw [hdrop, ih o last true _ (by omega) (fun _ => by omega)]

theorem singleDrop_cons_of_kept {last c : UInt8} {s : List UInt8} (hlast : kept last = true)
    (hc : kept c = true) : SingleDrop (last :: c :: s) ↔ SingleDrop (c :: s) := by
  constructor
  · rintro ⟨front, a, x, b, rest, hs, hfront, ha, hx, hb⟩
    cases front with
    | nil =>
      obtain ⟨-, rfl, -⟩ := by simpa using hs
      rw [hc] at hx
      cases hx
    | cons f front =>
      exact ⟨front, a, x, b, rest, (List.cons.inj hs).2,
        fun d hd => hfront d (List.mem_cons_of_mem _ hd), ha, hx, hb⟩
  · rintro ⟨front, a, x, b, rest, hs, hfront, ha, hx, hb⟩
    exact ⟨last :: front, a, x, b, rest, congrArg (last :: ·) hs,
      List.forall_mem_cons.mpr ⟨hlast, hfront⟩, ha, hx, hb⟩

theorem singleDrop_cons_of_dropped {last c : UInt8} {s : List UInt8} (hc : kept c = false) :
    SingleDrop (last :: c :: s) ↔ isDigit last = true ∧ s.head?.any isDigit = true := by
  have hnot : ¬ kept c = true := by rw [hc]; exact Bool.false_ne_true
  constructor
  · rintro ⟨front, a, x, b, rest, hs, hfront, ha, hx, hb⟩
    match front with
    | [] =>
      obtain ⟨rfl, rfl, rfl⟩ := by simpa using hs
      exact ⟨ha, hb⟩
    | [f] =>
      obtain ⟨-, rfl, -⟩ := by simpa using hs
      exact absurd (kept_of_isDigit ha) hnot
    | f :: g :: front =>
      obtain ⟨-, rfl, -⟩ := by simpa using hs
      exact absurd (hfront c (by simp)) hnot
  · rintro ⟨hlast, hs⟩
    cases s with
    | nil => cases hs
    | cons b rest => exact ⟨[], last, c, b, rest, rfl, List.forall_mem_nil _, hlast, hc, hs⟩

/-- Before a character is dropped it does so unless that one is the only one between two digits;
there the underscore is left out. -/
theorem placeLoop_iff {s o : List UInt8} {last : UInt8} (hlast : kept last = true) :
    ∃ out, placeLoop s (o ++ [last]) 0 false = some out ∧
      (out = o ++ [last] ++ between (some last) false s ↔ ¬ SingleDrop (last :: s)) := by
  induction s generalizing o last with
  | nil =>
    refine ⟨o ++ [last], rfl, iff_of_true (List.append_nil _).symm ?_⟩
    rintro ⟨front, a, x, b, rest, hs, -⟩
    have hlen := congrArg List.length hs
    simp at hlen
    omega
  | cons c s ih =>
    rw [placeLoop, between]
    by_cases hc : kept c = true
    · obtain ⟨out, hout, hiff⟩ := ih (o := o ++ [last]) hc
      rw [if_pos hc, if_pos hc, Bool.false_and, if_neg Bool.false_ne_true, Bool.false_and,
        Bool.false_and, if_neg Bool.false_ne_true, ← List.append_assoc,
        singleDrop_cons_of_kept hlast hc]
      exact ⟨out, hout, hiff⟩
    · rw [if_neg hc, if_neg hc, if_pos rfl,
        singleDrop_cons_of_dropped (Bool.eq_false_iff.mpr hc)]
      cases s with
      | nil => exact ⟨o ++ [last], rfl, by simp [between]⟩
      | cons d s =>
        rw [placeLoop, between]
        by_cases hd : kept d = true
        · -- the only one that was dropped, which was not looked back from
          have hkeep := placeLoop_eq s (o ++ [last]) d false 1 le_rfl (fun h => nomatch h)
          rw [Bool.false_and] at hkeep
          rw [if_pos hd, if_pos hd, Bool.false_and, if_neg Bool.false_ne_true, hkeep]
          refine ⟨_, rfl, ?_⟩
          simp only [List.head?_cons, Option.any_some, Bool.true_and]
          by_cases hdigits : (isDigit last && isDigit d) = true
          · rw [if_pos hdigits, ← Bool.and_eq_true_iff, hdigits]
            refine iff_of_false (fun h => ?_) (fun h => h rfl)
            have hlen := congrArg List.length h
            simp at hlen
          · rw [if_neg hdigits, ← Bool.and_eq_true_iff]
            exact iff_of_true (by simp) hdigits
        · have hkeep := placeLoop_eq s o last true 2 (by decide) (fun _ => le_rfl)
          rw [Bool.true_and] at hkeep
          rw [if_neg hd, if_neg hd, if_neg one_ne_zero, List.getLast?_concat, Option.bind_some,
            Bool.false_or, hkeep]
          refine ⟨_, rfl, iff_of_true rfl ?_⟩
          rintro ⟨-, hdigit⟩
          exact hd (kept_of_isDigit hdigit)

/-! ## Both -/

theorem ne_zero_of_kept {c : UInt8} (H : kept c = true) : 0 ≠ c := by
  rintro rfl
  exact absurd H (by decide)

theorem placeLoop_nul_free {s o out : List UInt8} {gap : ℕ} {br : Bool} (h0 : 0 ∉ o)
    (H : placeLoop s o gap br = some out) : 0 ∉ out := by
  induction s generalizing o gap br with
  | nil => exact Option.some.inj H ▸ h0
  | cons c s ih =>
    rw [placeLoop] at H
    split at H
    · next hc =>
      have hne := ne_zero_of_kept hc
      split at H
      · exact ih (by simp [h0, hne]) H
      · exact ih (by simp [h0, hne]) H
    · split at H
      · exact ih h0 H
      · obtain ⟨last, -, H⟩ := Option.bind_eq_some_iff.mp H
        exact ih h0 H

theorem between_nul_free (last : Option UInt8) (dropped : Bool) (s : List UInt8) :
    0 ∉ between last dropped s := by
  induction s generalizing last dropped with
  | nil => exact List.not_mem_nil
  | cons c s ih =>
    rw [between]
    split
    · next hc =>
      have hne := ne_zero_of_kept hc
      split
      · simp [hne, ih]
      · simp [hne, ih]
    · exact ih _ _

/-- In place a string whose first character is kept is made sane, but for a single drop. -/
theorem exists_sanestrIn (s : CStr) (hhead : ∀ c ∈ s.bytes.head?, kept c = true) :
    ∃ out rest writes, sanestrIn (s.bytes ++ [0]) = some (out ++ 0 :: rest, writes) ∧
      (∀ w ∈ writes, w.1 < w.2) ∧ 0 ∉ out ∧
      (out = between none false s.bytes ↔ ¬ SingleDrop s.bytes) := by
  have hplace : ∃ out, placeLoop s.bytes [] 0 false = some out ∧
      (out = between none false s.bytes ↔ ¬ SingleDrop s.bytes) := by
    cases hs : s.bytes with
    | nil =>
      refine ⟨[], rfl, iff_of_true rfl ?_⟩
      rintro ⟨front, a, x, b, rest, hnil, -⟩
      simp at hnil
    | cons c rest =>
      rw [hs] at hhead
      have hc : kept c = true := hhead c rfl
      rw [placeLoop, between, if_pos hc, if_pos hc]
      exact placeLoop_iff (o := []) hc
  obtain ⟨out, hout, hiff⟩ := hplace
  have hfuel : s.bytes.length < (s.bytes ++ [0]).length := by simp
  have hbr : false = true → ([] : List UInt8) ≠ [] := fun h => nomatch h
  obtain ⟨rest, writes, hrun, hwrites⟩ :=
    sanestrFrom_of_placeLoop [] [] false s.nul_free hfuel hbr (List.forall_mem_nil _) hout
  exact ⟨out, rest, writes, hrun, hwrites, placeLoop_nul_free List.not_mem_nil hout, hiff⟩

/-- **A string is made sane in both ways** exactly if its first character is kept, and the first
one that is dropped is not the only one between two digits. -/
theorem sane_iff (s : CStr) :
    Sane s ↔ (∀ c ∈ s.bytes.head?, kept c = true) ∧ ¬ SingleDrop s.bytes := by
  constructor
  · intro hsane
    have hhead := (sanestrTo_iff s.bytes).mp hsane.separate
    obtain ⟨out, rest, writes, hrun, -, h0, hiff⟩ := exists_sanestrIn s hhead
    obtain ⟨rest', writes', hrun', -⟩ := hsane.inPlace
    have hmem : out ++ 0 :: rest = between none false s.bytes ++ 0 :: rest' :=
      congrArg Prod.fst (Option.some.inj (hrun.symm.trans hrun'))
    have hstring := congrArg (fun mem => (CStr.ofMem mem).bytes) hmem
    simp only [CStr.bytes_ofMem_append_nul h0,
      CStr.bytes_ofMem_append_nul (between_nul_free _ _ _)] at hstring
    exact ⟨hhead, hiff.mp hstring⟩
  · rintro ⟨hhead, hsingle⟩
    obtain ⟨out, rest, writes, hrun, hwrites, -, hiff⟩ := exists_sanestrIn s hhead
    exact ⟨(sanestrTo_iff s.bytes).mpr hhead, rest, writes, hiff.mpr hsingle ▸ hrun, hwrites⟩

/-- In place no underscore is written between two digits with one character between them. -/
theorem not_sane_one_space_two :
    sanestrTo [0x31, 0x20, 0x32] [] false = some [0x31, 0x5f, 0x32, 0] ∧
      sanestrIn [0x31, 0x20, 0x32, 0] = some ([0x31, 0x32, 0, 0], [(0, 1), (1, 3), (2, 4)]) ∧
      ¬ Sane ⟨[0x31, 0x20, 0x32], by decide⟩ := by
  have hin : sanestrIn [0x31, 0x20, 0x32, 0] =
      some ([0x31, 0x32, 0, 0], [(0, 1), (1, 3), (2, 4)]) := by decide
  refine ⟨by decide, hin, fun hsane => ?_⟩
  obtain ⟨rest, writes, hrun, -⟩ := hsane.inPlace
  have hmem : [0x31, 0x32, 0, 0] = [0x31, 0x5f, 0x32] ++ 0 :: rest :=
    congrArg Prod.fst (Option.some.inj (hin.symm.trans hrun))
  exact absurd (List.cons.inj (List.cons.inj hmem).2).1 (by decide)

end Sanestr
end MassGridMiner

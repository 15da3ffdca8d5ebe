import Mathlib.Data.List.TakeDrop
import Mathlib.Tactic.Ring

/-!
# Variable-length integers

A number is written as one byte below `0xfd`, or as a mark and the two, four or eight
bytes the mark announces, least significant first.  `decodeVarint` reads one from the
front of a list, and the lemmas say that it reads exactly those.

## Main definitions

* `leNat` — the number that bytes spell, least significant first.
* `leBytes k n` — the low `k` bytes of a number.
* `encodeVarint` — a number as a varint of the least length.
* `IsVarint v n` — `v` is a way to write `n`.
* `decodeVarint` — the length and the number of the varint at the front of a list.
-/

/-- The number that bytes spell, least significant first. -/
def leNat (bs : List UInt8) : ℕ := bs.foldr (fun b acc => b.toNat + 2 ^ 8 * acc) 0

theorem leNat_lt (bs : List UInt8) : leNat bs < 2 ^ (8 * bs.length) := by
  induction bs with
  | nil => exact Nat.one_pos
  | cons b bs ih =>
      have hb : b.toNat < 2 ^ 8 := b.toNat_lt
      calc leNat (b :: bs) = b.toNat + 2 ^ 8 * leNat bs := rfl
        _ < 2 ^ 8 * (leNat bs + 1) := by omega
        _ ≤ 2 ^ 8 * 2 ^ (8 * bs.length) := Nat.mul_le_mul_left _ ih
        _ = 2 ^ (8 * (b :: bs).length) := by
            rw [← pow_add, List.length_cons]
            ring_nf

/-- The low `k` bytes of a number, least significant first. -/
def leBytes : ℕ → ℕ → List UInt8
  | 0, _ => []
  | k + 1, n => UInt8.ofNat n :: leBytes k (n / 2 ^ 8)

@[simp] theorem length_leBytes (k n : ℕ) : (leBytes k n).length = k := by
  induction k generalizing n with
  | zero => rfl
  | succ k ih => rw [leBytes, List.length_cons, ih]

/-- The low bytes spell the number, reduced to their width. -/
theorem leNat_leBytes (k n : ℕ) : leNat (leBytes k n) = n % 2 ^ (8 * k) := by
  induction k generalizing n with
  | zero => simp [leBytes, leNat, Nat.mod_one]
  | succ k ih =>
      have hcons :
          leNat (leBytes (k + 1) n) = n % 2 ^ 8 + 2 ^ 8 * leNat (leBytes k (n / 2 ^ 8)) := by
        rw [leBytes, leNat, List.foldr_cons, UInt8.toNat_ofNat']
        rfl
      rw [hcons, ih, show 8 * (k + 1) = 8 + 8 * k by ring, pow_add, Nat.mod_mul]

/-- Fewer of the low bytes. -/
theorem take_leBytes {j k : ℕ} (H : j ≤ k) (n : ℕ) : (leBytes k n).take j = leBytes j n := by
  induction j generalizing k n with
  | zero => rfl
  | succ j ih =>
      cases k with
      | zero => omega
      | succ k => rw [leBytes, leBytes, List.take_succ_cons, ih (by omega)]

/-- Numbers below the width have different low bytes. -/
theorem leBytes_inj {k m n : ℕ} (hm : m < 2 ^ (8 * k)) (hn : n < 2 ^ (8 * k)) :
    leBytes k m = leBytes k n ↔ m = n := by
  constructor
  · intro heq
    have hnat := congrArg leNat heq
    rwa [leNat_leBytes, leNat_leBytes, Nat.mod_eq_of_lt hm, Nat.mod_eq_of_lt hn] at hnat
  · rintro rfl
    rfl

/-- A number as a varint of the least length. -/
def encodeVarint (n : ℕ) : List UInt8 :=
  if n < 0xfd then [UInt8.ofNat n]
  else if n ≤ 0xffff then 0xfd :: leBytes 2 n
  else if n ≤ 0xffffffff then 0xfe :: leBytes 4 n
  else 0xff :: leBytes 8 n

/-- How many bytes a mark announces; none, if the byte is the number itself. -/
def varintWidth (mark : UInt8) : ℕ :=
  if mark = 0xff then 8 else if mark = 0xfe then 4 else if mark = 0xfd then 2 else 0

theorem varintWidth_le (mark : UInt8) : varintWidth mark ≤ 8 := by
  rw [varintWidth]
  split_ifs <;> omega

/-- The bytes are a way to write the number. -/
inductive IsVarint : List UInt8 → ℕ → Prop
  | short (b : UInt8) : varintWidth b = 0 → IsVarint [b] b.toNat
  | wide (mark : UInt8) (l : List UInt8) :
      varintWidth mark ≠ 0 → l.length = varintWidth mark → IsVarint (mark :: l) (leNat l)

theorem IsVarint.length_pos {v : List UInt8} {n : ℕ} (H : IsVarint v n) : 0 < v.length := by
  cases H <;> simp

theorem IsVarint.lt {v : List UInt8} {n : ℕ} (H : IsVarint v n) : n < 2 ^ 64 := by
  cases H with
  | short b hb => exact b.toNat_lt.trans (by decide)
  | wide mark l hmark hl =>
      have hwidth : 8 * l.length ≤ 64 := by
        have := varintWidth_le mark
        omega
      exact (leNat_lt l).trans_le (Nat.pow_le_pow_right (by decide) hwidth)

/-- The varint at the front of a list: how many bytes it has, and the number. -/
def decodeVarint : List UInt8 → Option (ℕ × ℕ)
  | [] => none
  | mark :: rest =>
    if varintWidth mark = 0 then some (1, mark.toNat)
    else if varintWidth mark ≤ rest.length then
      some (varintWidth mark + 1, leNat (rest.take (varintWidth mark)))
    else none

/-- What is written at the front is read. -/
theorem decodeVarint_append {v : List UInt8} {n : ℕ} (H : IsVarint v n) (rest : List UInt8) :
    decodeVarint (v ++ rest) = some (v.length, n) := by
  cases H with
  | short b hb => rw [List.singleton_append, decodeVarint, if_pos hb, List.length_singleton]
  | wide mark l hmark hl =>
      rw [List.cons_append, decodeVarint, if_neg hmark, if_pos (by simp [hl]), ← hl,
        List.take_left, List.length_cons]

/-- What is read is at the front. -/
theorem isVarint_of_decodeVarint {bs : List UInt8} {i n : ℕ} (H : decodeVarint bs = some (i, n)) :
    i ≤ bs.length ∧ IsVarint (bs.take i) n := by
  cases bs with
  | nil => cases H
  | cons mark rest =>
      rw [decodeVarint] at H
      split_ifs at H with hmark hlen
      · cases H
        exact ⟨by simp, .short mark hmark⟩
      · cases H
        refine ⟨by simpa using hlen, ?_⟩
        rw [List.take_succ_cons]
        exact .wide mark _ hmark (by rw [List.length_take, Nat.min_eq_left hlen])

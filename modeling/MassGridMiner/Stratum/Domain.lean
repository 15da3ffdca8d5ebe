import MassGridMiner.Lib.Reads
import MassGridMiner.Stratum.Uri
import Mathlib.Data.Set.Basic

/-!
# What `extract_domain` reads

`extract_domain` moves a pointer to the begin of the host and one to its end, by rules that do
not look at each other.  Of a URI that begins with two slashes it finds the end before the begin:
the length is negative, and as a `size_t` it is huge.

## Main definitions

* `Uri` — a URI with a length.
* `extractDomainAt` — `extract_domain` with its pointers, and every read that it makes.
* `Uri.Inside` — it reads inside of the URI and returns a part of it.
* `DomainsSound` — so it does of all of some URIs, and `match_domains` is an equivalence on them.
-/

namespace MassGridMiner

/-- A URI that is not empty, the length of which is a `size_t`. -/
structure Uri where
  bytes : List UInt8
  nul_free : 0 ∉ bytes
  ne_nil : bytes ≠ []
  length_lt : bytes.length < 2 ^ 64

/-- The difference of two places as a `size_t`. -/
def sizeDiff (a b : ℕ) : ℕ := (a + 2 ^ 64 - b) % 2 ^ 64

/-- The text of a URI in memory. -/
def uriMemory (uri : List UInt8) : List UInt8 := uri ++ [0]

/-- `pathBegin`; the slashes of a scheme are read up to what is not a slash. -/
def pathBeginAt (uri : List UInt8) : Option (Option ℕ) :=
  let mem := uriMemory uri
  (readFind (· == 0x2f) mem (sizeDiff uri.length 1) 1).bind fun
    | none => some none
    | some p =>
      mem[p - 1]?.bind fun c =>
        if c = 0x3a then
          (readFind (· != 0x2f) mem (mem.length + 1) p).join.bind fun p =>
            readFind (· == 0x2f) mem (sizeDiff uri.length p) p
        else some (some p)

/-- `hostEnd`. -/
def hostEndAt (uri : List UInt8) : Option ℕ :=
  let mem := uriMemory uri
  (pathBeginAt uri).bind fun
    | some p => some p
    | none =>
      (readFind (· == 0x3f) mem uri.length 0).bind fun
        | some p => some p
        | none => (readFind (· == 0x23) mem uri.length 0).map fun p => p.getD uri.length

/-- `portBegin`. -/
def portBeginAt (uri : List UInt8) (p : ℕ) : Option ℕ :=
  let mem := uriMemory uri
  (readBack 0x3a mem p).bind fun
    | none => some p
    | some q =>
      (readFind (fun c => !isDigit c) mem (p - (q + 1)) (q + 1)).map fun other =>
        if other = none ∧ p ≠ q + 1 then q else p

/-- `schemeEnd`. -/
def schemeEndAt (uri : List UInt8) (p : ℕ) : Option ℕ :=
  let mem := uriMemory uri
  (readFind (· == 0x3a) mem p 0).bind fun
    | none => some 0
    | some c =>
      (readFind (fun c => !isDigit c) mem c 0).map fun other =>
        if c = 0 ∨ other ≠ none then c + 1 else 0

/-- The loop over the slashes before the host, which may go one place beyond its end. -/
def hostBeginAt (uri : List UInt8) (p b : ℕ) : Option ℕ :=
  (readFind (· != 0x2f) (uriMemory uri) (p + 1 - b) b).map fun i => i.getD (p + 1)

/-- Whether the host is in brackets. -/
def bracketedAt (uri : List UInt8) (p b : ℕ) : Option Bool :=
  let mem := uriMemory uri
  if b + 1 < p then mem[b]?.bind fun x => mem[p - 1]?.map fun y => x == 0x5b && y == 0x5d
  else some false

/-- The host without brackets, or with what was taken for a port if there is another colon. -/
def hostAt (uri : List UInt8) (s p b : ℕ) : Option (ℕ × ℕ) :=
  (bracketedAt uri p b).bind fun
    | true => some (b + 1, p - 1)
    | false =>
      (readFind (· == 0x3a) (uriMemory uri) (sizeDiff p b) b).map fun q =>
        (b, if q = none then p else s)

/-- The end of the host without a dot behind it. -/
def dotlessAt (uri : List UInt8) (p b : ℕ) : Option ℕ :=
  if b < p then (uriMemory uri)[p - 1]?.map fun c => if c = 0x2e then p - 1 else p else some p

/-- `extract_domain`: where the domain begins, and its length as a `size_t`; none if a byte
behind the terminator is read. -/
def extractDomainAt (uri : List UInt8) : Option (ℕ × ℕ) :=
  (hostEndAt uri).bind fun s =>
    (portBeginAt uri s).bind fun p =>
      (schemeEndAt uri p).bind fun b =>
        (hostBeginAt uri p b).bind fun b =>
          (hostAt uri s p b).bind fun (b, p) =>
            (dotlessAt uri p b).map fun p => (b, sizeDiff p b)

/-- `extract_domain` reads inside of the URI and its terminator, and returns a part of it. -/
def Uri.Inside (u : Uri) : Prop :=
  ∃ b len, extractDomainAt u.bytes = some (b, len) ∧ b + len ≤ u.bytes.length

/-- So it does of all of some URIs, and `match_domains` is an equivalence on them. -/
structure DomainsSound (U : Set Uri) : Prop where
  inside : ∀ a ∈ U, a.Inside
  refl : ∀ a ∈ U, matchDomains a.bytes a.bytes = some true
  symm : ∀ a ∈ U, ∀ b ∈ U, matchDomains a.bytes b.bytes = some true →
    matchDomains b.bytes a.bytes = some true
  trans : ∀ a ∈ U, ∀ b ∈ U, ∀ c ∈ U, matchDomains a.bytes b.bytes = some true →
    matchDomains b.bytes c.bytes = some true → matchDomains a.bytes c.bytes = some true

/-! ## The reads -/

section
variable {uri : List UInt8} {s p b : ℕ}

theorem sizeDiff_eq {a b : ℕ} (hle : b ≤ a) (hlt : a < 2 ^ 64) : sizeDiff a b = a - b := by
  rw [sizeDiff]
  omega

theorem length_uriMemory : (uriMemory uri).length = uri.length + 1 := List.length_append

theorem take_uriMemory (hp : p ≤ uri.length) : (uriMemory uri).take p = uri.take p :=
  List.take_append_of_le_length hp

theorem getElem?_uriMemory (hp : p < uri.length) : (uriMemory uri)[p]? = uri[p]? :=
  List.getElem?_append_left hp

/-- An item is looked for up to a place inside of the URI. -/
theorem readFind_uri (c : UInt8) (hb : b ≤ p) (hp : p ≤ uri.length) :
    readFind (· == c) (uriMemory uri) (p - b) b = some (memchr c (uri.take p) b) := by
  have hend : b + (p - b) = p := by omega
  rw [readFind_item c (by rw [length_uriMemory]; omega), hend, take_uriMemory hp]

/-- Whether there are digits only is read up to a place inside of the URI. -/
theorem readFind_digits (hb : b ≤ p) (hp : p ≤ uri.length) :
    ∃ other, readFind (fun c => !isDigit c) (uriMemory uri) (p - b) b = some other ∧
      (other = none ↔ ((uri.take p).drop b).all isDigit = true) := by
  refine ⟨_, readFind_eq (by rw [length_uriMemory]; omega), ?_⟩
  rw [← List.drop_take, Option.map_eq_none_iff, List.findIdx?_eq_none_iff, List.all_eq_true,
    take_uriMemory hp]
  simp only [Bool.not_eq_false']

theorem slashes_le (l : List UInt8) : slashes l ≤ l.length := 
  (List.takeWhile_sublist _).length_le

theorem findIdx?_notSlash (l : List UInt8) :
    (l ++ [0]).findIdx? (· != 0x2f) = some (slashes l) := by
  induction l with
  | nil => rfl
  | cons c l ih =>
      rw [List.cons_append, List.findIdx?_cons, ih, slashes, slashes, List.takeWhile_cons]
      by_cases hc : c = 0x2f <;> simp [hc]

/-- The first item that is no slash stands behind all that are. -/
theorem getD_findIdx?_notSlash (l : List UInt8) :
    (l.findIdx? (· != 0x2f)).getD l.length = slashes l := by
  induction l with
  | nil => rfl
  | cons c l ih =>
      rw [List.findIdx?_cons, slashes, List.takeWhile_cons]
      by_cases hc : c = 0x2f
      · rw [if_neg (by simp [hc]), if_pos (by simp [hc]), List.length_cons, List.length_cons]
        rw [slashes] at ih
        rw [← ih]
        cases l.findIdx? (· != 0x2f) <;> rfl
      · rw [if_pos (by simpa using hc), if_neg (by simpa using hc)]
        rfl

theorem pathBeginAt_eq (hne : uri ≠ []) (hlt : uri.length < 2 ^ 64) :
    pathBeginAt uri = some (pathBegin uri) := by
  have hpos : 1 ≤ uri.length := List.length_pos_iff.mpr hne
  rw [pathBeginAt, pathBegin, sizeDiff_eq hpos hlt]
  rw [readFind_uri 0x2f hpos le_rfl, List.take_length, Option.bind_some]
  cases hfirst : memchr 0x2f uri 1 with
  | none => rfl
  | some p =>
      have hp : p < uri.length := lt_of_memchr hfirst
      have hslashes := slashes_le (uri.drop p)
      rw [List.length_drop] at hslashes
      have hskip : readFind (· != 0x2f) (uriMemory uri) ((uriMemory uri).length + 1) p =
          some (some (p + slashes (uri.drop p))) := by
        refine readFind_of_findIdx ?_ ?_
        · rw [uriMemory, List.drop_append_of_le_length hp.le, findIdx?_notSlash]
        · rw [length_uriMemory]
          omega
      have hle : p + slashes (uri.drop p) ≤ uri.length := by omega
      dsimp only
      rw [getElem?_uriMemory (by omega), List.getElem?_eq_getElem (by omega), Option.bind_some,
        hskip, Option.join_some, Option.bind_some, sizeDiff_eq hle hlt,
        readFind_uri 0x2f hle le_rfl, List.take_length]
      by_cases hcolon : uri[p - 1] = 0x3a
      · rw [if_pos hcolon, if_pos (by rw [hcolon])]
      · rw [if_neg hcolon, if_neg (by simpa using hcolon)]

theorem hostEndAt_eq (hne : uri ≠ []) (hlt : uri.length < 2 ^ 64) :
    hostEndAt uri = some (hostEnd uri) := by
  have hfind (c : UInt8) : readFind (· == c) (uriMemory uri) uri.length 0 =
      some (memchr c uri 0) := by
    simpa using readFind_uri c (Nat.zero_le uri.length) le_rfl
  rw [hostEndAt, hostEnd, pathBeginAt_eq hne hlt, Option.bind_some]
  cases pathBegin uri with
  | some p => rfl
  | none =>
      dsimp only
      rw [hfind, hfind, Option.bind_some]
      cases memchr 0x3f uri 0 <;> rfl

theorem pathBegin_lt (H : pathBegin uri = some p) : p < uri.length := by
  rw [pathBegin] at H
  split at H
  next => cases H
  next q hfirst =>
    split at H
    next => exact lt_of_memchr H
    next => exact Option.some.inj H ▸ lt_of_memchr hfirst

theorem hostEnd_le : hostEnd uri ≤ uri.length := by
  rw [hostEnd]
  cases hpath : pathBegin uri with
  | some p => exact (pathBegin_lt hpath).le
  | none =>
      cases hquery : memchr 0x3f uri 0 with
      | some p => exact (lt_of_memchr hquery).le
      | none =>
          cases hfragment : memchr 0x23 uri 0 with
          | some p => exact (lt_of_memchr hfragment).le
          | none => exact le_rfl

theorem portBeginAt_eq (hp : p ≤ uri.length) : portBeginAt uri p = some (portBegin uri p) := by
  rw [portBeginAt, portBegin, readBack_eq 0x3a (by rw [length_uriMemory]; omega), take_uriMemory hp,
    Option.bind_some]
  cases hlast : memrchr 0x3a (uri.take p) with
  | none => rfl
  | some q =>
      have hq : q + 1 ≤ p := (lt_of_memrchr hlast).trans_le (List.length_take_le _ _)
      obtain ⟨other, hread, hall⟩ := readFind_digits hq hp
      have hport : (uri.take p).drop (q + 1) ≠ [] ↔ p ≠ q + 1 := by
        rw [Ne, List.drop_eq_nil_iff, List.length_take, Nat.min_eq_left hp]
        omega
      dsimp only
      rw [hread, Option.map_some]
      congr 1
      simp only [Bool.and_eq_true, bne_iff_ne, hport, hall]

theorem schemeEndAt_eq (hp : p ≤ uri.length) : schemeEndAt uri p = some (schemeEnd uri p) := by
  rw [schemeEndAt, schemeEnd]
  have hfind := readFind_uri 0x3a (Nat.zero_le p) hp
  rw [Nat.sub_zero] at hfind
  rw [hfind, Option.bind_some]
  cases hfirst : memchr 0x3a (uri.take p) 0 with
  | none => rfl
  | some c =>
      have hc : c ≤ uri.length :=
        ((lt_of_memchr hfirst).trans_le (List.length_take_le _ _)).le.trans hp
      obtain ⟨other, hread, hall⟩ := readFind_digits (Nat.zero_le c) hc
      rw [Nat.sub_zero] at hread
      rw [List.drop_zero] at hall
      dsimp only
      rw [hread, Option.map_some]
      congr 1
      simp only [Bool.or_eq_true, decide_eq_true_eq, Bool.not_eq_true', ← Bool.not_eq_true, ← hall]

theorem hostBeginAt_eq (hb : b ≤ p) (hp : p ≤ uri.length) :
    hostBeginAt uri p b = some (b + slashes (slice uri b (p + 1))) := by
  have hlen : ((uriMemory uri).take (p + 1)).length = p + 1 := by
    rw [List.length_take, length_uriMemory]
    omega
  have hslice : slashes (((uriMemory uri).take (p + 1)).drop b) =
      slashes (slice uri b (p + 1)) := by
    rw [slice]
    rcases hp.lt_or_eq with hlt | rfl
    · rw [take_uriMemory hlt]
    · -- the terminator is no slash
      rw [List.take_of_length_le (by rw [length_uriMemory]), uriMemory,
        List.drop_append_of_le_length hb, List.take_of_length_le (Nat.le_succ _),
        ← getD_findIdx?_notSlash, findIdx?_notSlash, Option.getD_some]
  rw [hostBeginAt, readFind_eq (by rw [length_uriMemory]; omega), ← List.drop_take, Option.map_some,
    ← hslice, ← getD_findIdx?_notSlash, List.length_drop, hlen]
  cases (((uriMemory uri).take (p + 1)).drop b).findIdx? (· != 0x2f) with
  | none =>
      dsimp only [Option.map_none, Option.getD_none]
      congr 1
      omega
  | some i => rfl

/-! ## The places -/

theorem portBegin_le (uri : List UInt8) (p : ℕ) : portBegin uri p ≤ p := by
  rw [portBegin]
  split
  next => exact le_rfl
  next q hlast =>
    dsimp only
    split
    · exact (lt_of_memrchr hlast).le.trans (List.length_take_le _ _)
    · exact le_rfl

theorem schemeEnd_le (uri : List UInt8) (p : ℕ) : schemeEnd uri p ≤ p := by
  rw [schemeEnd]
  split
  next => exact Nat.zero_le p
  next c hfirst =>
    split
    · exact (lt_of_memchr hfirst).trans_le (List.length_take_le _ _)
    · exact Nat.zero_le p

/-- Where the host begins. -/
def hostBegin (uri : List UInt8) (p : ℕ) : ℕ :=
  schemeEnd uri p + slashes (slice uri (schemeEnd uri p) (p + 1))

/-- Where the host begins and ends, if it is a host. -/
def hostSpan (uri : List UInt8) (s p b : ℕ) : ℕ × ℕ :=
  if 1 < p - b && uri[b]? == some 0x5b && uri[p - 1]? == some 0x5d then (b + 1, p - 1)
  else if (slice uri b p).contains 0x3a then (b, s)
  else (b, p)

/-- Where it ends without a dot. -/
def dotless (uri : List UInt8) (p b : ℕ) : ℕ :=
  if b < p && uri[p - 1]? == some 0x2e then p - 1 else p

/-- Whether the host is where `extract_domain` looks for it. -/
theorem extractDomain_eq_slice (hne : uri ≠ []) (hs : hostEnd uri = s) (hp : portBegin uri s = p)
    (hb : hostBegin uri p = b) :
    extractDomain uri = if p < b then none
      else some (slice uri (hostSpan uri s p b).1
        (dotless uri (hostSpan uri s p b).2 (hostSpan uri s p b).1)) := by
  subst hs hp hb
  rw [extractDomain, if_neg hne]
  rfl

theorem bracketedAt_eq (hp : p ≤ uri.length) : bracketedAt uri p b =
    some (decide (1 < p - b) && uri[b]? == some 0x5b && uri[p - 1]? == some 0x5d) := by
  rw [bracketedAt]
  by_cases hlt : b + 1 < p
  · have hb : b < uri.length := by omega
    have hlast : p - 1 < uri.length := by omega
    have hroom : 1 < p - b := by omega
    simp [if_pos hlt, getElem?_uriMemory hb, getElem?_uriMemory hlast, hb, hlast, hroom]
  · have hroom : ¬ 1 < p - b := by omega
    simp [if_neg hlt, hroom]

theorem hostAt_eq (hlt : uri.length < 2 ^ 64) (hb : b ≤ p) (hp : p ≤ uri.length) :
    hostAt uri s p b = some (hostSpan uri s p b) := by
  have hcolon : memchr 0x3a (uri.take p) b = none ↔ (slice uri b p).contains 0x3a = false := by
    rw [memchr, Option.map_eq_none_iff, List.idxOf?_eq_none_iff, slice]
    simp
  rw [hostAt, bracketedAt_eq hp, Option.bind_some, hostSpan]
  cases (decide (1 < p - b) && uri[b]? == some 0x5b && uri[p - 1]? == some 0x5d) with
  | true => rfl
  | false =>
      dsimp only
      rw [sizeDiff_eq hb (by omega), readFind_uri 0x3a hb hp, Option.map_some,
        if_neg Bool.false_ne_true]
      cases hcontains : (slice uri b p).contains 0x3a with
      | true =>
          rw [if_pos rfl, if_neg (by rw [hcolon, hcontains]; decide)]
      | false => rw [if_pos (hcolon.mpr hcontains), if_neg Bool.false_ne_true]

theorem dotlessAt_eq (hp : p ≤ uri.length) : dotlessAt uri p b = some (dotless uri p b) := by
  rw [dotlessAt, dotless]
  by_cases hlt : b < p
  · have hlast : p - 1 < uri.length := by omega
    simp [hlt, getElem?_uriMemory hlast, hlast]
  · simp [hlt]

theorem hostSpan_bounds (hb : b ≤ p) (hp : p ≤ s) :
    (hostSpan uri s p b).1 ≤ (hostSpan uri s p b).2 ∧ (hostSpan uri s p b).2 ≤ s := by
  rw [hostSpan]
  split
  next hbracket =>
    simp only [Bool.and_eq_true, decide_eq_true_eq] at hbracket
    dsimp only
    omega
  next =>
    split <;> dsimp only <;> omega

theorem dotless_bounds (hb : b ≤ p) : b ≤ dotless uri p b ∧ dotless uri p b ≤ p := by
  rw [dotless]
  split
  next hdot =>
    simp only [Bool.and_eq_true, decide_eq_true_eq] at hdot
    omega
  next => exact ⟨hb, le_rfl⟩

/-- What `extract_domain` returns where the begin is not behind the end. -/
theorem extractDomainAt_of_le {q : ℕ} (hne : uri ≠ []) (hlt : uri.length < 2 ^ 64)
    (hs : hostEnd uri = s) (hp : portBegin uri s = p) (hb : hostBegin uri p ≤ p)
    (hspan : hostSpan uri s p (hostBegin uri p) = (b, q)) :
    extractDomainAt uri = some (b, dotless uri q b - b) ∧ b ≤ dotless uri q b ∧
      dotless uri q b ≤ q ∧ q ≤ s := by
  have hsle : s ≤ uri.length := hs ▸ hostEnd_le
  have hple : p ≤ s := hp ▸ portBegin_le uri s
  have hbegin : hostBeginAt uri p (schemeEnd uri p) = some (hostBegin uri p) :=
    hostBeginAt_eq (schemeEnd_le uri p) (hple.trans hsle)
  have hbounds := @hostSpan_bounds uri s p _ hb hple
  rw [hspan] at hbounds
  obtain ⟨hbq, hq⟩ := hbounds
  obtain ⟨hdot, hdotle⟩ := @dotless_bounds uri q b hbq
  dsimp only at hbq hq hdot hdotle
  refine ⟨?_, hdot, hdotle, hq⟩
  rw [extractDomainAt, hostEndAt_eq hne hlt, hs, Option.bind_some, portBeginAt_eq hsle, hp,
    Option.bind_some, schemeEndAt_eq (hple.trans hsle), Option.bind_some, hbegin,
    Option.bind_some, hostAt_eq hlt hb (hple.trans hsle), hspan, Option.bind_some]
  dsimp only
  rw [dotlessAt_eq (hq.trans hsle), Option.map_some,
    sizeDiff_eq hdot ((hdotle.trans (hq.trans hsle)).trans_lt hlt)]

/-- **`extract_domain` is what it is taken for** where the begin is not behind the end. -/
theorem extractDomainAt_eq (hne : uri ≠ []) (hlt : uri.length < 2 ^ 64) (hs : hostEnd uri = s)
    (hp : portBegin uri s = p) (hb : hostBegin uri p ≤ p) :
    ∃ b len, extractDomainAt uri = some (b, len) ∧ b + len ≤ uri.length ∧
      extractDomain uri = some ((uri.drop b).take len) := by
  have hsle : s ≤ uri.length := hs ▸ hostEnd_le
  have hdomain := extractDomain_eq_slice hne hs hp rfl
  rw [if_neg (Nat.not_lt.mpr hb)] at hdomain
  obtain ⟨⟨b, q⟩, hspan⟩ : ∃ span, hostSpan uri s p (hostBegin uri p) = span := ⟨_, rfl⟩
  obtain ⟨hat, hdot, hdotle, hq⟩ := extractDomainAt_of_le hne hlt hs hp hb hspan
  rw [hspan] at hdomain
  refine ⟨b, _, hat, by omega, ?_⟩
  rw [hdomain, slice, List.drop_take]

/-! ## The begin and the end -/

theorem getElem?_of_lt_slashes {l : List UInt8} {i : ℕ} (H : i < slashes l) :
    l[i]? = some 0x2f := by
  induction l generalizing i with
  | nil => cases H
  | cons c l ih =>
      rw [slashes, List.takeWhile_cons] at H
      split at H
      next hc =>
        cases i with
        | zero => simpa using hc
        | succ i => exact ih (Nat.lt_of_succ_lt_succ H)
      next => cases H

theorem getElem?_slashes_ne (l : List UInt8) : l[slashes l]? ≠ some 0x2f := by
  induction l with
  | nil => simp
  | cons c l ih =>
      rw [slashes, List.takeWhile_cons]
      split
      next => exact ih
      next hc => simpa using hc

/-- From the scheme on to a begin behind the end there are slashes only. -/
theorem slash_of_lt (H : p < hostBegin uri p) {i : ℕ} (hi : schemeEnd uri p ≤ i) (hip : i ≤ p) :
    uri[i]? = some 0x2f := by
  rw [hostBegin] at H
  have hslash := getElem?_of_lt_slashes
    (show i - schemeEnd uri p < slashes (slice uri (schemeEnd uri p) (p + 1)) by omega)
  rw [slice, List.getElem?_drop, Nat.add_sub_cancel' hi, List.getElem?_take] at hslash
  split at hslash
  next => exact hslash
  next => cases hslash

/-- The scheme ends at the begin of the URI, or behind the first colon. -/
theorem schemeEnd_cases (uri : List UInt8) (p : ℕ) : schemeEnd uri p = 0 ∨
    ∃ c, schemeEnd uri p = c + 1 ∧ c < p ∧ uri[c]? = some 0x3a ∧
      ∀ i < c, uri[i]? ≠ some 0x3a := by
  rw [schemeEnd]
  split
  next => exact .inl rfl
  next c hfirst =>
    split
    · right
      have hget := getElem?_of_memchr hfirst
      have hlt := (lt_of_memchr hfirst).trans_le (List.length_take_le _ _)
      obtain ⟨xs, ys, hsplit, hlen, hxs⟩ := exists_of_memchr hfirst
      rw [List.getElem?_take_of_lt hlt] at hget
      refine ⟨c, rfl, hlt, hget, fun i hi hcolon => hxs ?_⟩
      have hi' : (uri.take p)[i]? = some 0x3a := by
        rw [List.getElem?_take_of_lt (hi.trans hlt), hcolon]
      rw [hsplit, List.getElem?_append_left (hlen ▸ hi)] at hi'
      exact List.mem_of_getElem? hi'
    · exact .inl rfl

theorem portBegin_cases (uri : List UInt8) (p : ℕ) :
    portBegin uri p = p ∨ uri[portBegin uri p]? = some 0x3a := by
  rw [portBegin]
  split
  next => exact .inl rfl
  next q hlast =>
    dsimp only
    split
    · right
      have hget := getElem?_of_memrchr hlast
      rwa [List.getElem?_take_of_lt ((lt_of_memrchr hlast).trans_le (List.length_take_le _ _))]
        at hget
    · exact .inl rfl

/-- If the host ends at a slash, the path begins there. -/
theorem pathBegin_of_slash (H : uri[hostEnd uri]? = some 0x2f) :
    pathBegin uri = some (hostEnd uri) := by
  rw [hostEnd] at H ⊢
  cases hpath : pathBegin uri with
  | some p => rfl
  | none =>
      rw [hpath] at H
      cases hquery : memchr 0x3f uri 0 with
      | some p =>
          rw [hquery, Option.getD_none, Option.getD_some, getElem?_of_memchr hquery] at H
          cases H
      | none =>
          cases hfragment : memchr 0x23 uri 0 with
          | some p =>
              rw [hquery, hfragment, Option.getD_none, Option.getD_none, Option.getD_some,
                getElem?_of_memchr hfragment] at H
              cases H
          | none =>
              rw [hquery, hfragment, Option.getD_none, Option.getD_none, Option.getD_none,
                List.getElem?_eq_none le_rfl] at H
              cases H

/-- The path begins at the first slash behind the first character, or at the first behind the
slashes of the scheme. -/
theorem pathBegin_cases (H : pathBegin uri = some s) :
    ∃ p, memchr 0x2f uri 1 = some p ∧ (uri[p - 1]? ≠ some 0x3a ∧ s = p ∨
      uri[p - 1]? = some 0x3a ∧ memchr 0x2f uri (p + slashes (uri.drop p)) = some s) := by
  rw [pathBegin] at H
  split at H
  next => cases H
  next p hfirst =>
    refine ⟨p, hfirst, ?_⟩
    split at H
    next hcolon => exact .inr ⟨hcolon, H⟩
    next hcolon => exact .inl ⟨hcolon, (Option.some.inj H).symm⟩

theorem prefix_of_slashes (hzero : uri[0]? = some 0x2f) (hone : uri[1]? = some 0x2f) :
    [0x2f, 0x2f] <+: uri := by
  match uri with
  | [] => cases hzero
  | [_] => cases hone
  | c :: d :: rest =>
      obtain rfl := Option.some.inj hzero
      obtain rfl := Option.some.inj hone
      exact ⟨rest, rfl⟩

/-- The begin is behind the end only if both are at the begin of the URI. -/
theorem hostBegin_le (hne : ¬ [0x2f, 0x2f] <+: uri) (hp : portBegin uri (hostEnd uri) = p) :
    hostBegin uri p ≤ p := by
  by_contra hgt
  rw [Nat.not_le] at hgt
  have hslash := fun i => slash_of_lt (i := i) hgt
  have hend := hslash p (schemeEnd_le uri p) le_rfl
  obtain rfl : p = hostEnd uri := by
    rcases portBegin_cases uri (hostEnd uri) with hsame | hcolon
    · exact hp.symm.trans hsame
    · rw [hp, hend] at hcolon
      cases hcolon
  obtain ⟨first, hfirst, ⟨hplain, hs⟩ | ⟨hcolon, hs⟩⟩ := pathBegin_cases (pathBegin_of_slash hend)
  · -- the first slash would stand behind the colon of the scheme, or be the second character
    have hpos := le_of_memchr hfirst
    rcases schemeEnd_cases uri (hostEnd uri) with hscheme | ⟨c, hscheme, hc, hcolon, -⟩
    · have hzero := hslash 0 (by omega) (by omega)
      have hone := hslash 1 (by omega) (by omega)
      exact hne (prefix_of_slashes hzero hone)
    · rcases (show c + 1 ≤ first by omega).lt_or_eq with hlt | heq
      · exact getElem?_ne_of_memchr hfirst (by omega) hlt (hslash (c + 1) (by omega) hc)
      · rw [← heq, Nat.add_sub_cancel] at hplain
        exact hplain hcolon
  · -- between the slashes of the scheme and the path stands something else
    have hother := getElem?_slashes_ne (uri.drop first)
    rw [List.getElem?_drop] at hother
    have hpos := le_of_memchr hfirst
    have hle := le_of_memchr hs
    rcases schemeEnd_cases uri (hostEnd uri) with hscheme | ⟨c, hscheme, -, hc, hno⟩
    · have := hslash (first - 1) (by omega) (by omega)
      rw [hcolon] at this
      cases this
    · have hle' : c ≤ first - 1 := by
        by_contra hlt
        exact hno (first - 1) (by omega) hcolon
      exact hother (hslash _ (by omega) hle)

end

/-! ## When it is sound -/

/-- With two slashes at its begin, a URI has a host that ends before it begins. -/
theorem extractDomainAt_slashes (rest : List UInt8) (hlt : (0x2f :: 0x2f :: rest).length < 2 ^ 64)
    {b len : ℕ} (H : extractDomainAt (0x2f :: 0x2f :: rest) = some (b, len)) :
    b = 2 ∧ len = 2 ^ 64 - 1 := by
  have hend : hostEnd (0x2f :: 0x2f :: rest) = 1 := rfl
  have hport : portBegin (0x2f :: 0x2f :: rest) 1 = 1 := rfl
  have hscheme : schemeEnd (0x2f :: 0x2f :: rest) 1 = 0 := rfl
  have hbegin : hostBeginAt (0x2f :: 0x2f :: rest) 1 0 = some 2 := rfl
  have hle : 1 ≤ (0x2f :: 0x2f :: rest).length := Nat.succ_le_succ (Nat.zero_le _)
  rw [extractDomainAt, hostEndAt_eq (List.cons_ne_nil _ _) hlt, hend, Option.bind_some,
    portBeginAt_eq hle, hport, Option.bind_some, schemeEndAt_eq hle, hscheme, Option.bind_some,
    hbegin, Option.bind_some] at H
  obtain ⟨⟨b', p⟩, hhost, hdot⟩ := Option.bind_eq_some_iff.mp H
  have hbracket : bracketedAt (0x2f :: 0x2f :: rest) 1 2 = some false := rfl
  rw [hostAt, hbracket, Option.bind_some] at hhost
  obtain ⟨q, -, hspan⟩ := Option.map_eq_some_iff.mp hhost
  rw [ite_self, Prod.mk.injEq] at hspan
  obtain ⟨rfl, rfl⟩ := hspan
  have hdotless : dotlessAt (0x2f :: 0x2f :: rest) 1 2 = some 1 := rfl
  dsimp only at hdot
  rw [hdotless, Option.map_some, Option.some_inj, Prod.mk.injEq] at hdot
  exact ⟨hdot.1.symm, hdot.2.symm⟩

/-- A URI that does not begin with two slashes has its domain inside. -/
theorem extractDomain_of_inside (u : Uri) (H : ¬ [0x2f, 0x2f] <+: u.bytes) :
    u.Inside ∧ ∃ domain, extractDomain u.bytes = some domain := by
  obtain ⟨b, len, hat, hle, hdomain⟩ :=
    extractDomainAt_eq u.ne_nil u.length_lt rfl rfl (hostBegin_le H rfl)
  exact ⟨⟨b, len, hat, hle⟩, _, hdomain⟩

theorem inside_iff (u : Uri) : u.Inside ↔ ¬ [0x2f, 0x2f] <+: u.bytes := by
  constructor
  · rintro ⟨b, len, hat, hle⟩ ⟨rest, hrest⟩
    have hlt := u.length_lt
    rw [← hrest] at hat hlt hle
    obtain ⟨rfl, rfl⟩ := extractDomainAt_slashes rest hlt hat
    omega
  · exact fun H => (extractDomain_of_inside u H).1

theorem matchDomains_iff {a b aDomain bDomain : List UInt8} (ha : extractDomain a = some aDomain)
    (hb : extractDomain b = some bDomain) : matchDomains a b = some true ↔
      (registeredDomain aDomain).map CStr.tolower = (registeredDomain bDomain).map CStr.tolower := by
  rw [matchDomains, ha, hb]
  dsimp only
  rw [Option.some_inj, sameDomain_iff]

/-- **When domains can be compared**: among URIs none of which begins with two slashes. -/
theorem domainsSound_iff (U : Set Uri) :
    DomainsSound U ↔ ∀ u ∈ U, ¬ [0x2f, 0x2f] <+: u.bytes := by
  constructor
  · exact fun H u hu => (inside_iff u).mp (H.inside u hu)
  · intro H
    have hdomain := fun u hu => (extractDomain_of_inside u (H u hu)).2
    refine ⟨fun u hu => (inside_iff u).mpr (H u hu), fun a ha => ?_, fun a ha b hb hab => ?_,
      fun a ha b hb c hc hab hbc => ?_⟩
    · obtain ⟨aDomain, ha⟩ := hdomain a ha
      exact (matchDomains_iff ha ha).mpr rfl
    · obtain ⟨aDomain, ha⟩ := hdomain a ha
      obtain ⟨bDomain, hb⟩ := hdomain b hb
      exact (matchDomains_iff hb ha).mpr ((matchDomains_iff ha hb).mp hab).symm
    · obtain ⟨aDomain, ha⟩ := hdomain a ha
      obtain ⟨bDomain, hb⟩ := hdomain b hb
      obtain ⟨cDomain, hc⟩ := hdomain c hc
      exact (matchDomains_iff ha hc).mpr
        (((matchDomains_iff ha hb).mp hab).trans ((matchDomains_iff hb hc).mp hbc))

/-- The URI `//`. -/
def slashesUri : Uri := ⟨[0x2f, 0x2f], by decide, by decide, by decide⟩

theorem not_domainsSound_slashes : ¬ DomainsSound {slashesUri} := by
  intro H
  exact (inside_iff slashesUri).mp (H.inside slashesUri rfl) (List.prefix_refl _)

end MassGridMiner

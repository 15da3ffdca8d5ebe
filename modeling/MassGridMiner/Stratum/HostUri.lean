import MassGridMiner.Stratum.Domain

/-!
# The host in a URI

A URI may have a scheme before its host, and a dot, a port and more behind it.  `extract_domain`
takes the host to end at the path, or else at a `?`, or else at a `#`; where one of these stands
in another place than right behind the host and its port, the end is not found.

## Main definitions

* `HostUri` — a URI by its parts.
* `HostUri.ExtractsHost` — `extract_domain` returns the place and the length of the host.
* `HostUri.RestFound`, `HostUri.HostRead` — what stands behind the host is found, and the host is
  not taken apart.
-/

namespace MassGridMiner

/-! ## The parts of a URI -/

/-- A character of a DNS name. -/
def isNameChar (c : UInt8) : Bool :=
  isCalpha c || isDigit c || c == 0x2d || c == 0x2e || c == 0x5f

/-- A character of an IPv6 address. -/
def isIpv6Char (c : UInt8) : Bool :=
  isDigit c || (0x41 ≤ c && c ≤ 0x46) || (0x61 ≤ c && c ≤ 0x66) || c == 0x3a || c == 0x2e

/-- A DNS name. -/
structure DnsName (name : List UInt8) : Prop where
  ne_nil : name ≠ []
  chars : ∀ c ∈ name, isNameChar c = true

/-- An IPv6 address. -/
structure Ipv6Address (address : List UInt8) : Prop where
  colon : 0x3a ∈ address
  chars : ∀ c ∈ address, isIpv6Char c = true
  no_dot : address.getLast? ≠ some 0x2e

theorem isDigit_of_isCalpha {c : UInt8} (H : isCalpha c = true) : isDigit c = false := by
  simp only [isCalpha, Bool.or_eq_true, Bool.and_eq_true, decide_eq_true_eq,
    UInt8.le_iff_toNat_le] at H
  simp only [isDigit, Bool.and_eq_false_iff, decide_eq_false_iff_not, UInt8.le_iff_toNat_le]
  have hdigits : (0x30 : UInt8).toNat = 48 ∧ (0x39 : UInt8).toNat = 57 ∧
      (0x41 : UInt8).toNat = 65 ∧ (0x61 : UInt8).toNat = 97 := by decide
  omega

/-- A text that begins with a letter. -/
def BeginsAlpha (s : List UInt8) : Prop := isCalpha (firstChar s) = true

/-- What comes before the host: nothing, or a scheme, with or without slashes. -/
inductive UriFront
  | bare
  | scheme (name : List UInt8) (slashed : Bool)

namespace UriFront

def name : UriFront → List UInt8
  | bare => []
  | scheme name _ => name

def slashed : UriFront → Bool
  | bare => false
  | scheme _ slashed => slashed

def text : UriFront → List UInt8
  | bare => []
  | scheme name slashed => name ++ 0x3a :: if slashed then [0x2f, 0x2f] else []

end UriFront

/-- The parts of a URI; a host in brackets stands here without them. -/
structure UriParts where
  front : UriFront
  host : List UInt8
  bracketed : Bool
  dot : Bool
  port : Option (List UInt8)
  rest : List UInt8

namespace UriParts

/-- The host as it stands in the URI. -/
def hostText (u : UriParts) : List UInt8 :=
  if u.bracketed then 0x5b :: (u.host ++ [0x5d]) else u.host

def dotText (u : UriParts) : List UInt8 := if u.dot then [0x2e] else []

def portText (u : UriParts) : List UInt8 := (u.port.map fun digits => 0x3a :: digits).getD []

/-- What stands behind the host and before the rest. -/
def behindHost (u : UriParts) : List UInt8 := u.dotText ++ u.portText

/-- The URI without its rest. -/
def authority (u : UriParts) : List UInt8 := u.front.text ++ u.hostText ++ u.behindHost

def text (u : UriParts) : List UInt8 := u.authority ++ u.rest

/-- Where the host begins. -/
def hostPlace (u : UriParts) : ℕ := u.front.text.length + if u.bracketed then 1 else 0

end UriParts

/-- A URI by its parts. -/
structure HostUri extends UriParts where
  scheme_plain : ∀ name slashed, front = .scheme name slashed →
    BeginsAlpha name ∧ 0x3a ∉ name ∧ 0x2f ∉ name
  host_name : bracketed = false →
    DnsName host ∧ BeginsAlpha host ∧ host.getLast? ≠ some 0x2e
  host_address : bracketed = true → Ipv6Address host
  port_digits : ∀ digits, port = some digits → digits ≠ [] ∧ digits.all isDigit = true
  rest_begins : ∀ c ∈ rest.head?, c = 0x2f ∨ c = 0x3f ∨ c = 0x23
  length_lt : toUriParts.text.length < 2 ^ 64

/-- There is nothing in the rest that is taken for the path: no slash, or, where the scheme has no
slashes, only such as stand together behind a colon. -/
def PathFree (slashed : Bool) (rest : List UInt8) : Prop :=
  0x2f ∉ rest ∨ slashed = false ∧ ∃ before n behind,
    rest = before ++ 0x3a :: (List.replicate (n + 1) 0x2f ++ behind) ∧ 0x2f ∉ before ∧
      0x2f ∉ behind

namespace HostUri

/-- `extract_domain` returns the host, without its brackets. -/
def ExtractsHost (u : HostUri) : Prop :=
  extractDomainAt u.text = some (u.hostPlace, u.host.length)

/-- The end of the host and its port is found: the rest is a path; or there is nothing in it that is
taken for the path, and the first `?`, or without any the first `#`, is where it begins. -/
def RestFound (u : HostUri) : Prop :=
  u.rest.head? = some 0x2f ∨ PathFree u.front.slashed u.rest ∧ 0x3f ∉ u.front.name ∧
    (u.rest.head? = some 0x3f ∨ 0x3f ∉ u.rest ∧ 0x23 ∉ u.front.name)

/-- The host is not taken apart: it is a name, or an address with a scheme before it and without a
dot behind it. -/
def HostRead (u : HostUri) : Prop :=
  u.bracketed = false ∨ u.front ≠ .bare ∧ u.dot = false

end HostUri

/-! ## What the rest is taken for -/

/-- Where the path is found in the rest. -/
def restPath (slashed : Bool) (rest : List UInt8) : Option ℕ :=
  match memchr 0x2f rest 0 with
  | none => none
  | some i =>
    if slashed = false ∧ i ≠ 0 ∧ rest[i - 1]? = some 0x3a then
      memchr 0x2f rest (i + slashes (rest.drop i))
    else some i

section
variable {slashed : Bool} {rest : List UInt8}

theorem eq_replicate_slashes (l : List UInt8) :
    l = List.replicate (slashes l) 0x2f ++ l.drop (slashes l) := by
  induction l with
  | nil => rfl
  | cons c l ih =>
      rw [slashes, List.takeWhile_cons]
      by_cases hc : c = 0x2f
      · rw [if_pos (by simp [hc]), List.length_cons, List.replicate_succ, List.cons_append,
          List.drop_succ_cons, hc]
        exact congrArg _ ih
      · rw [if_neg (by simp [hc])]
        rfl

theorem slashes_replicate {l : List UInt8} (n : ℕ) (H : 0x2f ∉ l) :
    slashes (List.replicate n 0x2f ++ l) = n := by
  induction n with
  | zero =>
      cases l with
      | nil => rfl
      | cons c l =>
          rw [List.mem_cons, not_or] at H
          rw [List.replicate_zero, List.nil_append, slashes,
            List.takeWhile_cons_of_neg (by simpa using Ne.symm H.1)]
          rfl
  | succ n ih =>
      rw [List.replicate_succ, List.cons_append, slashes, List.takeWhile_cons_of_pos rfl,
        List.length_cons]
      exact congrArg Nat.succ ih

theorem restPath_eq_zero : restPath slashed rest = some 0 ↔ rest.head? = some 0x2f := by
  rw [restPath, ← memchr_eq_zero]
  cases hfirst : memchr 0x2f rest 0 with
  | none => rfl
  | some i =>
      dsimp only
      split
      next hcolon =>
        refine iff_of_false (fun H => ?_) fun H => hcolon.2.1 (Option.some.inj H)
        have := le_of_memchr H
        omega
      next => rfl

theorem restPath_of_pathFree (H : PathFree slashed rest) : restPath slashed rest = none := by
  rcases H with hnone | ⟨hslashed, before, n, behind, rfl, hbefore, hbehind⟩
  · rw [restPath, memchr_eq_none hnone]
  · have hcolon : 0x2f ∉ before ++ [0x3a] := by simp [hbefore]
    have hfirst : memchr 0x2f (before ++ [0x3a] ++ (List.replicate (n + 1) 0x2f ++ behind)) 0 =
        some (before ++ [0x3a]).length :=
      memchr_append_cons (Nat.zero_le _) hcolon _
    rw [List.append_cons, restPath, hfirst]
    dsimp only
    rw [if_pos ⟨hslashed, by simp, by simp⟩, List.drop_left, slashes_replicate _ hbehind,
      memchr_append_add, memchr_eq_none, Option.map_none]
    rwa [List.drop_left' (by simp)]

theorem pathFree_of_restPath (H : restPath slashed rest = none) : PathFree slashed rest := by
  rw [restPath] at H
  split at H
  next hfirst => exact .inl (memchr_eq_none_iff.mp hfirst)
  next i hfirst =>
    split at H
    next hcolon =>
      obtain ⟨before, behind, rfl, hlen, hbefore⟩ := exists_of_memchr hfirst
      obtain ⟨hslashed, hi, hlast⟩ := hcolon
      rw [← hlen] at hi hlast H
      have hne : before ≠ [] := fun h => hi (List.length_eq_zero_iff.mpr h)
      have hlt := List.length_pos_iff.mpr hne
      rw [List.getElem?_append_left (by omega), ← List.getLast?_eq_getElem?,
        List.getLast?_eq_some_iff] at hlast
      obtain ⟨before, rfl⟩ := hlast
      rw [List.drop_left, memchr_eq_none_iff, ← List.drop_drop, List.drop_left] at H
      have hslashes : slashes (0x2f :: behind) = slashes behind + 1 := by
        rw [slashes, slashes, List.takeWhile_cons_of_pos rfl, List.length_cons]
      refine .inr ⟨hslashed, before, slashes behind, _, ?_, ?_, H⟩
      · rw [List.append_assoc]
        refine congrArg (fun l => before ++ 0x3a :: l) ?_
        rw [← hslashes]
        exact eq_replicate_slashes _
      · exact fun h => hbefore (List.mem_append_left _ h)
    next => cases H

/-- Without the slashes of a scheme, the path is looked for behind the first slash if that stands
behind a colon. -/
theorem pathBegin_plain {front : List UInt8} (hne : front ≠ []) (hslash : 0x2f ∉ front)
    (hlast : front.getLast? ≠ some 0x3a) :
    pathBegin (front ++ rest) = (restPath false rest).map fun i => front.length + i := by
  have hpos := List.length_pos_iff.mpr hne
  rw [pathBegin, memchr_append_of_notMem hpos hslash, restPath]
  cases hfirst : memchr 0x2f rest 0 with
  | none => rfl
  | some i =>
      have hcolon : (front ++ rest)[front.length + i - 1]? = some 0x3a ↔
          false = false ∧ i ≠ 0 ∧ rest[i - 1]? = some 0x3a := by
        cases i with
        | zero =>
            rw [Nat.add_zero, List.getElem?_append_left (by omega), ← List.getLast?_eq_getElem?]
            simp [hlast]
        | succ i =>
            rw [← Nat.add_assoc, Nat.add_sub_cancel, List.getElem?_append_right (by omega),
              Nat.add_sub_cancel_left]
            simp
      rw [Option.map_some]
      dsimp only
      simp only [hcolon]
      split
      next => rw [← List.drop_drop, List.drop_left, Nat.add_assoc, memchr_append_add]
      next => rfl

/-- With them, it is looked for behind them. -/
theorem pathBegin_slashed {name behind : List UInt8} (hname : 0x2f ∉ name) (hne : behind ≠ [])
    (hslash : 0x2f ∉ behind) :
    pathBegin (name ++ [0x3a, 0x2f, 0x2f] ++ behind ++ rest) =
      (restPath true rest).map fun i => (name ++ [0x3a, 0x2f, 0x2f] ++ behind).length + i := by
  obtain ⟨c, tail, rfl⟩ := List.exists_cons_of_ne_nil hne
  have hcons : name ++ [0x3a, 0x2f, 0x2f] ++ c :: tail ++ rest =
      name ++ [0x3a] ++ 0x2f :: 0x2f :: (c :: tail ++ rest) := by simp
  have hfront : 0x2f ∉ name ++ [0x3a] := by simp [hname]
  have hlen : (name ++ [0x3a]).length + 2 = (name ++ [0x3a, 0x2f, 0x2f]).length := by simp
  have hslashes : slashes (0x2f :: 0x2f :: (c :: tail ++ rest)) = 2 := by
    have hc : c ≠ 0x2f := fun h => hslash (h ▸ List.mem_cons_self)
    rw [slashes, List.takeWhile_cons_of_pos rfl, List.takeWhile_cons_of_pos rfl, List.cons_append,
      List.takeWhile_cons_of_neg (by simpa using hc)]
    rfl
  have hcolon : (name ++ [0x3a] ++ 0x2f :: 0x2f :: (c :: tail ++ rest))[(name ++
      [0x3a]).length - 1]? = some 0x3a := by
    rw [List.getElem?_append_left (by simp), ← List.getLast?_eq_getElem?, List.getLast?_concat]
  have hpath : restPath true rest = memchr 0x2f rest 0 := by
    rw [restPath]
    cases memchr 0x2f rest 0 <;> simp
  rw [hcons, pathBegin, memchr_append_cons (by simp) fun h => hfront (List.mem_of_mem_drop h)]
  dsimp only
  have hbehind := memchr_append_add 0x2f (name ++ [0x3a, 0x2f, 0x2f]) (c :: tail ++ rest) 0
  rw [Nat.add_zero, memchr_append_of_notMem (Nat.zero_le _) hslash, Option.map_map] at hbehind
  rw [if_pos hcolon, List.drop_left, hslashes, ← hcons, hlen, hpath, List.append_assoc, hbehind]
  congr 1
  funext i
  rw [Function.comp_apply, ← Nat.add_assoc, ← List.length_append]

end

/-! ## Where the host and its port end -/

namespace HostUri
variable (u : HostUri)

/-- At the place of the host stands the host. -/
theorem take_drop_hostPlace : (u.text.drop u.hostPlace).take u.host.length = u.host := by
  rw [UriParts.text, UriParts.authority, UriParts.hostPlace, UriParts.hostText, ← List.drop_drop,
    List.append_assoc, List.append_assoc, List.drop_left]
  split <;> simp

/-- What is between the front and the rest. -/
theorem notMem_behindFront {c : UInt8} (H : c = 0x2f ∨ c = 0x3f ∨ c = 0x23) :
    c ∉ u.hostText ++ u.behindHost := by
  have hplain : c ≠ 0x5b ∧ c ≠ 0x5d ∧ c ≠ 0x2e ∧ c ≠ 0x3a ∧ isNameChar c = false ∧
      isIpv6Char c = false ∧ isDigit c = false := by
    rcases H with rfl | rfl | rfl <;> decide
  obtain ⟨hopen, hclose, hdot, hcolon, hname, haddress, hdigit⟩ := hplain
  have hhost : c ∉ u.hostText := by
    rw [UriParts.hostText]
    split
    next hbracketed =>
      have hchars := (u.host_address hbracketed).chars c
      simp only [List.mem_cons, List.mem_append, List.not_mem_nil, or_false, not_or]
      refine ⟨hopen, fun hmem => ?_, hclose⟩
      rw [hchars hmem] at haddress
      cases haddress
    next hbracketed =>
      intro hmem
      rw [(u.host_name (by simpa using hbracketed)).1.chars c hmem] at hname
      cases hname
  have hport : c ∉ u.portText := by
    rw [UriParts.portText]
    cases hp : u.port with
    | none => exact List.not_mem_nil
    | some digits =>
        rw [Option.map_some, Option.getD_some, List.mem_cons, not_or]
        refine ⟨hcolon, fun hmem => ?_⟩
        rw [List.all_eq_true.mp (u.port_digits digits hp).2 c hmem] at hdigit
        cases hdigit
  rw [UriParts.behindHost]
  simp only [List.mem_append, not_or]
  refine ⟨hhost, ?_, hport⟩
  rw [UriParts.dotText]
  split <;> simp [hdot]

theorem hostText_cons : ∃ c tail, u.hostText = c :: tail ∧ c ≠ 0x2f ∧ c ≠ 0x3a ∧
    isDigit c = false ∧ (u.bracketed = false → c ≠ 0x5b) := by
  rw [UriParts.hostText]
  split
  next hbracketed =>
    exact ⟨_, _, rfl, by decide, by decide, by decide, fun h => by simp [hbracketed] at h⟩
  next hbracketed =>
    obtain ⟨hname, halpha, -⟩ := u.host_name (by simpa using hbracketed)
    obtain ⟨c, tail, hcons⟩ := List.exists_cons_of_ne_nil hname.ne_nil
    rw [BeginsAlpha, hcons] at halpha
    refine ⟨c, tail, hcons, ?_⟩
    have halpha : isCalpha c = true := halpha
    refine ⟨?_, ?_, ?_, fun _ => ?_⟩
    · rintro rfl; cases halpha
    · rintro rfl; cases halpha
    · exact isDigit_of_isCalpha halpha
    · rintro rfl; cases halpha

/-- The port ends with a digit, and the host with something else than a colon. -/
theorem getLast?_behindFront : (u.hostText ++ u.behindHost).getLast? ≠ some 0x3a := by
  rw [UriParts.behindHost, UriParts.dotText, UriParts.portText]
  cases hport : u.port with
  | some digits =>
      obtain ⟨hne, hdigits⟩ := u.port_digits digits hport
      rw [Option.map_some, Option.getD_some, ← List.append_assoc, List.append_cons,
        List.getLast?_append_of_ne_nil _ hne]
      intro hlast
      have := List.all_eq_true.mp hdigits _ (List.mem_of_getLast? hlast)
      cases this
  | none =>
      cases u.dot with
      | true => simp
      | false =>
          cases hbracketed : u.bracketed with
          | true =>
              have hhost : u.hostText = (0x5b :: u.host) ++ [0x5d] := by
                simp [UriParts.hostText, hbracketed]
              simp only [Bool.false_eq_true, if_false, Option.map_none, Option.getD_none,
                List.append_nil, hhost, List.getLast?_concat]
              decide
          | false =>
              obtain ⟨hname, -⟩ := u.host_name hbracketed
              have hhost : u.hostText = u.host := by simp [UriParts.hostText, hbracketed]
              intro hlast
              simp only [Bool.false_eq_true, if_false, Option.map_none, Option.getD_none,
                List.append_nil, hhost] at hlast
              have := hname.chars _ (List.mem_of_getLast? hlast)
              cases this

theorem pathBegin_text : pathBegin u.text =
    (restPath u.front.slashed u.rest).map fun i => u.authority.length + i := by
  obtain ⟨c, tail, hcons, -⟩ := u.hostText_cons
  have hne : u.hostText ++ u.behindHost ≠ [] := by rw [hcons]; exact List.cons_ne_nil _ _
  have hslash := u.notMem_behindFront (c := 0x2f) (.inl rfl)
  have hlast := u.getLast?_behindFront
  have hassoc : u.authority = u.front.text ++ (u.hostText ++ u.behindHost) :=
    List.append_assoc _ _ _
  have hplain := u.scheme_plain
  rw [UriParts.text, hassoc]
  generalize u.hostText ++ u.behindHost = behind at hne hslash hlast
  cases hfront : u.front with
  | bare => exact pathBegin_plain hne hslash hlast
  | scheme name slashed =>
      obtain ⟨-, -, hname⟩ := hplain name slashed hfront
      cases slashed with
      | true => exact pathBegin_slashed hname hne hslash
      | false =>
          refine pathBegin_plain (by simp [UriFront.text]) ?_ ?_
          · simp [UriFront.text, hname, hslash]
          · rwa [List.getLast?_append_of_ne_nil _ hne]

theorem mem_front_iff (front : UriFront) {c : UInt8} (H : c = 0x3f ∨ c = 0x23) :
    c ∈ front.text ↔ c ∈ front.name := by
  have hne : c ≠ 0x3a ∧ c ≠ 0x2f := by rcases H with rfl | rfl <;> decide
  cases front with
  | bare => rfl
  | scheme name slashed => cases slashed <;> simp [UriFront.text, UriFront.name, hne.1, hne.2]

/-- A `?` or `#` in the scheme is found there. -/
theorem memchr_of_mem_name {c : UInt8} (H : c = 0x3f ∨ c = 0x23) (hmem : c ∈ u.front.name) :
    ∃ i < u.front.text.length, memchr c u.text 0 = some i := by
  rw [UriParts.text, UriParts.authority, List.append_assoc, List.append_assoc]
  exact exists_memchr_of_mem ((mem_front_iff u.front H).mpr hmem) _

/-- Otherwise it is looked for in the rest. -/
theorem memchr_of_notMem_name {c : UInt8} (H : c = 0x3f ∨ c = 0x23) (hmem : c ∉ u.front.name) :
    memchr c u.text 0 = (memchr c u.rest 0).map fun i => u.authority.length + i := by
  refine memchr_append_of_notMem (Nat.zero_le _) ?_ u.rest
  have hbehind := u.notMem_behindFront (c := c) (.inr H)
  rw [UriParts.authority, List.append_assoc, List.mem_append, not_or, mem_front_iff _ H]
  exact ⟨hmem, hbehind⟩

/-- **Where the host and its port are taken to end**: at their end, or else before the host, or
else behind them. -/
theorem hostEnd_text :
    u.RestFound ∧ hostEnd u.text = u.authority.length ∨
      ¬ u.RestFound ∧
        (hostEnd u.text < u.front.text.length ∨ u.authority.length < hostEnd u.text) := by
  rw [hostEnd, pathBegin_text, RestFound]
  cases hpath : restPath u.front.slashed u.rest with
  | some j =>
      have hfree : ¬ PathFree u.front.slashed u.rest := by
        intro hfree
        rw [restPath_of_pathFree hfree] at hpath
        cases hpath
      rw [Option.map_some, Option.getD_some]
      rcases Nat.eq_zero_or_pos j with rfl | hpos
      · exact .inl ⟨.inl (restPath_eq_zero.mp hpath), rfl⟩
      · refine .inr ⟨?_, .inr (by omega)⟩
        rintro (hhead | ⟨hfree', -⟩)
        · have := hpath.symm.trans (restPath_eq_zero.mpr hhead)
          injection this
          omega
        · exact hfree hfree'
  | none =>
      have hfree := pathFree_of_restPath hpath
      have hhead : u.rest.head? ≠ some 0x2f := by
        intro hhead
        rw [restPath_eq_zero.mpr hhead] at hpath
        cases hpath
      rw [Option.map_none, Option.getD_none]
      by_cases hquery : 0x3f ∈ u.front.name
      · obtain ⟨i, hi, hfound⟩ := u.memchr_of_mem_name (.inl rfl) hquery
        rw [hfound, Option.getD_some]
        exact .inr ⟨by simp [hhead, hquery], .inl hi⟩
      rw [u.memchr_of_notMem_name (.inl rfl) hquery]
      cases hfound : memchr 0x3f u.rest 0 with
      | some j =>
          have hmem : 0x3f ∈ u.rest := List.mem_of_getElem? (getElem?_of_memchr hfound)
          rw [Option.map_some, Option.getD_some]
          rcases Nat.eq_zero_or_pos j with rfl | hpos
          · exact .inl ⟨.inr ⟨hfree, hquery, .inl (memchr_eq_zero.mp hfound)⟩, rfl⟩
          · have hhead' : u.rest.head? ≠ some 0x3f := by
              intro hhead'
              have := hfound.symm.trans (memchr_eq_zero.mpr hhead')
              injection this
              omega
            exact .inr ⟨by simp [hhead, hhead', hmem], .inr (by omega)⟩
      | none =>
          have hmem : 0x3f ∉ u.rest := by simpa using memchr_eq_none_iff.mp hfound
          have hhead' : u.rest.head? ≠ some 0x3f := fun h => hmem (List.mem_of_mem_head? h)
          rw [Option.map_none, Option.getD_none]
          by_cases hfragment : 0x23 ∈ u.front.name
          · obtain ⟨i, hi, hfound⟩ := u.memchr_of_mem_name (.inr rfl) hfragment
            rw [hfound, Option.getD_some]
            exact .inr ⟨by simp [hhead, hhead', hfragment], .inl hi⟩
          refine .inl ⟨.inr ⟨hfree, hquery, .inr ⟨hmem, hfragment⟩⟩, ?_⟩
          rw [u.memchr_of_notMem_name (.inr rfl) hfragment]
          -- what the rest begins with is a `#`
          have hbegins := u.rest_begins
          rw [UriParts.text]
          cases hrest : u.rest with
          | nil => rw [memchr_eq_none (by simp), List.append_nil]; rfl
          | cons c rest =>
              rw [hrest] at hbegins hhead hhead'
              have hc : c = 0x23 := by
                have := hbegins c rfl
                simp only [List.head?_cons, ne_eq, Option.some_inj] at hhead hhead'
                tauto
              rw [memchr_eq_zero.mpr (by rw [hc]; rfl)]
              rfl

theorem text_ne_nil : u.text ≠ [] := by
  obtain ⟨c, tail, hcons, -⟩ := u.hostText_cons
  simp [UriParts.text, UriParts.authority, hcons]

theorem not_slashes_prefix : ¬ [0x2f, 0x2f] <+: u.text := by
  rintro ⟨rest, hrest⟩
  have hhead : u.text.head? = some 0x2f := by rw [← hrest]; rfl
  obtain ⟨c, tail, hcons, hc, -⟩ := u.hostText_cons
  have hplain := u.scheme_plain
  rw [UriParts.text, UriParts.authority, hcons] at hhead
  cases hfront : u.front with
  | bare =>
      rw [hfront] at hhead
      exact hc (Option.some.inj hhead)
  | scheme name slashed =>
      obtain ⟨halpha, -⟩ := hplain name slashed hfront
      rw [hfront] at hhead
      cases name with
      | nil => cases halpha
      | cons d name =>
          obtain rfl : d = 0x2f := Option.some.inj hhead
          cases halpha

end HostUri

/-! ## A host that ends behind its end -/

section
variable {uri : List UInt8} {t s p b q : ℕ} {c : UInt8}

theorem lt_portBegin (hts : t < s) (hget : uri[t]? = some c) (hdigit : isDigit c = false)
    (hcolon : c ≠ 0x3a) : t < portBegin uri s := by
  rw [portBegin]
  split
  next => exact hts
  next k hlast =>
    dsimp only
    split
    next hport =>
      by_contra hle
      have hk := getElem?_of_memrchr hlast
      have hkt : k ≠ t := by
        rintro rfl
        rw [List.getElem?_take_of_lt hts, hget] at hk
        exact hcolon (Option.some.inj hk)
      have hmem : c ∈ (uri.take s).drop (k + 1) := by
        refine List.mem_of_getElem? (i := t - (k + 1)) ?_
        rw [List.getElem?_drop, Nat.add_sub_cancel' (by omega), List.getElem?_take_of_lt hts, hget]
      rw [Bool.and_eq_true] at hport
      rw [List.all_eq_true.mp hport.1 c hmem] at hdigit
      cases hdigit
    next => exact hts

theorem lt_sub_one {d : UInt8} (htp : t < p) (hget : uri[t]? = some c)
    (hlast : uri[p - 1]? = some d) (hne : c ≠ d) : t < p - 1 := by
  have hother : t ≠ p - 1 := by
    rintro rfl
    exact hne (Option.some.inj (hget.symm.trans hlast))
  omega

/-- An end behind a character that is neither a bracket nor a dot stays behind it. -/
theorem lt_dotless (hts : t < s) (htp : t < p) (hget : uri[t]? = some c) (hclose : c ≠ 0x5d)
    (hdot : c ≠ 0x2e) {place : ℕ} (hspan : hostSpan uri s p b = (place, q)) :
    t < dotless uri q place := by
  have htq : t < q := by
    rw [hostSpan] at hspan
    split at hspan
    next hbracket =>
      simp only [Bool.and_eq_true, beq_iff_eq] at hbracket
      rw [← (Prod.mk.inj hspan).2]
      exact lt_sub_one htp hget hbracket.2 hclose
    next =>
      split at hspan
      next => rwa [← (Prod.mk.inj hspan).2]
      next => rwa [← (Prod.mk.inj hspan).2]
  rw [dotless]
  split
  next hlast =>
    simp only [Bool.and_eq_true, beq_iff_eq] at hlast
    exact lt_sub_one htq hget hlast.2 hdot
  next => exact htq

/-! ## A host that ends at its end -/

/-- Behind the last colon, if there is any, stands something that is no digit. -/
theorem portBegin_plain {front behind : List UInt8} (hdigit : isDigit c = false)
    (hcolon : 0x3a ∉ c :: behind) (rest : List UInt8) :
    portBegin (front ++ c :: behind ++ rest) (front ++ c :: behind).length =
      (front ++ c :: behind).length := by
  rw [portBegin, List.take_left]
  split
  next => rfl
  next q hlast =>
    have hq : q < front.length := by
      by_contra hge
      have hget := getElem?_of_memrchr hlast
      rw [List.getElem?_append_right (Nat.not_lt.mp hge)] at hget
      exact hcolon (List.mem_of_getElem? hget)
    have hmem : c ∈ (front ++ c :: behind).drop (q + 1) := by
      rw [List.drop_append_of_le_length hq]
      exact List.mem_append_right _ List.mem_cons_self
    dsimp only
    rw [if_neg]
    rw [Bool.and_eq_true, not_and]
    intro hall
    rw [List.all_eq_true.mp hall c hmem] at hdigit
    cases hdigit

theorem portBegin_number {front digits : List UInt8} (hne : digits ≠ [])
    (hall : digits.all isDigit = true) (rest : List UInt8) :
    portBegin (front ++ 0x3a :: digits ++ rest) (front ++ 0x3a :: digits).length =
      front.length := by
  have hcolon : 0x3a ∉ digits := fun hmem => by
    have := List.all_eq_true.mp hall _ hmem
    cases this
  have hdrop : (front ++ 0x3a :: digits).drop (front.length + 1) = digits := by
    rw [← List.drop_drop, List.drop_left]
    rfl
  rw [portBegin, List.take_left, memrchr_append_cons _ hcolon]
  dsimp only
  rw [hdrop, if_pos (by simp [hall, hne])]

theorem slashes_of_ne {l : List UInt8} (hc : c ≠ 0x2f) (n : ℕ) :
    slashes (List.replicate n 0x2f ++ c :: l) = n := by
  induction n with
  | zero => exact congrArg List.length (List.takeWhile_cons_of_neg (by simpa using hc))
  | succ n ih =>
      rw [List.replicate_succ, List.cons_append, slashes, List.takeWhile_cons_of_pos rfl,
        List.length_cons]
      exact congrArg Nat.succ ih

/-- Behind a scheme and its slashes the host begins. -/
theorem hostBegin_scheme {name behind : List UInt8} (hcolon : 0x3a ∉ name)
    (hnamed : name.all isDigit = false) (hc : c ≠ 0x2f) (n : ℕ) (rest : List UInt8) :
    hostBegin (name ++ 0x3a :: (List.replicate n 0x2f ++ c :: behind) ++ rest)
      (name ++ 0x3a :: (List.replicate n 0x2f ++ c :: behind)).length =
        (name ++ 0x3a :: List.replicate n 0x2f).length := by
  generalize hwhole : name ++ 0x3a :: (List.replicate n 0x2f ++ c :: behind) = whole
  have hscheme : schemeEnd (whole ++ rest) whole.length = name.length + 1 := by
    have hfirst : memchr 0x3a whole 0 = some name.length := by
      rw [← hwhole]
      exact memchr_append_cons (Nat.zero_le _) hcolon _
    have htake : (whole ++ rest).take name.length = name := by
      rw [← hwhole, List.append_assoc, List.take_left]
    rw [schemeEnd, List.take_left, hfirst]
    dsimp only
    rw [htake, hnamed, if_pos (by simp)]
  have hslice : slice (whole ++ rest) (name.length + 1) (whole.length + 1) =
      List.replicate n 0x2f ++ c :: (behind ++ rest.take 1) := by
    rw [slice, List.take_length_add_append, ← hwhole, ← List.drop_drop, List.append_assoc,
      List.drop_left]
    simp
  rw [hostBegin, hscheme, hslice, slashes_of_ne hc, List.length_append, List.length_cons,
    List.length_replicate]
  omega

/-- Without a scheme and a colon it begins with the URI. -/
theorem hostBegin_bare {behind : List UInt8} (hcolon : 0x3a ∉ c :: behind) (hc : c ≠ 0x2f)
    (rest : List UInt8) : hostBegin (c :: behind ++ rest) (c :: behind).length = 0 := by
  have hscheme : schemeEnd (c :: behind ++ rest) (c :: behind).length = 0 := by
    rw [schemeEnd, List.take_left, memchr_eq_none (by simpa using hcolon)]
  have hslice : slice (c :: behind ++ rest) 0 ((c :: behind).length + 1) =
      c :: (behind ++ rest.take 1) := by
    rw [slice, List.take_length_add_append, List.drop_zero, List.cons_append]
  rw [hostBegin, hscheme, hslice, Nat.zero_add]
  exact slashes_of_ne hc 0

/-- A colon in the host is taken for that of a scheme. -/
theorem le_hostBegin {behind : List UInt8} (hcolon : 0x3a ∈ behind) (hc : c ≠ 0x3a)
    (hdigit : isDigit c = false) (rest : List UInt8) :
    2 ≤ hostBegin (c :: behind ++ rest) (c :: behind).length := by
  have hscheme : 2 ≤ schemeEnd (c :: behind ++ rest) (c :: behind).length := by
    rw [schemeEnd, List.take_left]
    obtain ⟨before, after, rfl, hbefore⟩ := List.eq_append_cons_of_mem hcolon
    have hfirst : memchr 0x3a (c :: (before ++ 0x3a :: after)) 0 = some (before.length + 1) := by
      refine @memchr_append_cons _ _ (c :: before) 0x3a 0 (Nat.zero_le _) ?_ after
      rw [List.drop_zero, List.mem_cons, not_or]
      exact ⟨Ne.symm hc, hbefore⟩
    rw [hfirst]
    dsimp only
    rw [List.cons_append, List.take_succ_cons, List.all_cons, hdigit, if_pos (by simp)]
    omega
  exact hscheme.trans (Nat.le_add_right _ _)

end

namespace HostUri
variable (u : HostUri)

/-- The front with the host and its dot. -/
theorem text_eq : u.text = u.front.text ++ (u.hostText ++ u.dotText) ++ (u.portText ++ u.rest) := by
  simp [UriParts.text, UriParts.authority, UriParts.behindHost]

theorem hostText_bracketed (H : u.bracketed = true) :
    u.hostText = 0x5b :: (u.host ++ [0x5d]) := by
  rw [UriParts.hostText, if_pos H]

theorem hostText_name (H : u.bracketed = false) : u.hostText = u.host := by
  rw [UriParts.hostText, H, if_neg Bool.false_ne_true]

theorem colon_notMem_dotText : 0x3a ∉ u.dotText := by
  rw [UriParts.dotText]
  split <;> decide

theorem colon_notMem_host (H : u.bracketed = false) : 0x3a ∉ u.hostText ++ u.dotText := by
  rw [u.hostText_name H, List.mem_append, not_or]
  refine ⟨fun hmem => ?_, u.colon_notMem_dotText⟩
  have := (u.host_name H).1.chars _ hmem
  cases this

theorem portBegin_text : portBegin u.text u.authority.length =
    (u.front.text ++ (u.hostText ++ u.dotText)).length := by
  cases hport : u.port with
  | some digits =>
      obtain ⟨hne, hall⟩ := u.port_digits digits hport
      have hauthority : u.authority =
          u.front.text ++ (u.hostText ++ u.dotText) ++ 0x3a :: digits := by
        simp [UriParts.authority, UriParts.behindHost, UriParts.portText, hport]
      rw [UriParts.text, hauthority, portBegin_number hne hall]
  | none =>
      have hauthority : u.authority = u.front.text ++ (u.hostText ++ u.dotText) := by
        simp [UriParts.authority, UriParts.behindHost, UriParts.portText, hport]
      rw [UriParts.text, ← hauthority]
      cases hbracketed : u.bracketed with
      | true =>
          have hclose : u.authority = u.front.text ++ 0x5b :: u.host ++ 0x5d :: u.dotText := by
            rw [hauthority, u.hostText_bracketed hbracketed]
            simp
          rw [hclose]
          refine portBegin_plain (by decide) ?_ u.rest
          rw [List.mem_cons, not_or]
          exact ⟨by decide, u.colon_notMem_dotText⟩
      | false =>
          obtain ⟨c, tail, hcons, -, -, hdigit, -⟩ := u.hostText_cons
          have hcolon := u.colon_notMem_host hbracketed
          rw [hauthority]
          rw [hcons] at hcolon ⊢
          exact portBegin_plain hdigit hcolon u.rest

theorem hostBegin_text (H : u.bracketed = false ∨ u.front ≠ .bare) :
    hostBegin u.text (u.front.text ++ (u.hostText ++ u.dotText)).length = u.front.text.length := by
  obtain ⟨c, tail, hcons, hslash, -⟩ := u.hostText_cons
  have hcolon := u.colon_notMem_host
  have hplain := u.scheme_plain
  rw [u.text_eq]
  rw [hcons] at hcolon ⊢
  cases hfront : u.front with
  | bare =>
      rw [hfront] at H
      exact hostBegin_bare (hcolon (H.resolve_right (not_not_intro rfl))) hslash _
  | scheme name slashed =>
      obtain ⟨halpha, hname, -⟩ := hplain name slashed hfront
      have hnamed : name.all isDigit = false := by
        cases name with
        | nil => cases halpha
        | cons d name =>
            have hd : isDigit d = false := isDigit_of_isCalpha halpha
            rw [List.all_cons, hd, Bool.false_and]
      have htext : (UriFront.scheme name slashed).text =
          name ++ 0x3a :: List.replicate (if slashed then 2 else 0) 0x2f := by
        cases slashed <;> rfl
      have hbegin := @hostBegin_scheme _ _ (tail ++ u.dotText) hname hnamed hslash
        (if slashed then 2 else 0) (u.portText ++ u.rest)
      rw [htext]
      simpa using hbegin

theorem le_hostBegin_text (hbracketed : u.bracketed = true) (hfront : u.front = .bare) :
    2 ≤ hostBegin u.text (u.front.text ++ (u.hostText ++ u.dotText)).length := by
  rw [u.text_eq, hfront, u.hostText_bracketed hbracketed]
  have hcolon : 0x3a ∈ u.host ++ [0x5d] ++ u.dotText := by
    simp [(u.host_address hbracketed).colon]
  have hbegin := le_hostBegin hcolon (c := 0x5b) (by decide) (by decide) (u.portText ++ u.rest)
  simpa [UriFront.text] using hbegin

theorem getElem?_front : u.text[u.front.text.length]? = (u.hostText ++ u.dotText)[0]? := by
  obtain ⟨c, tail, hcons, -⟩ := u.hostText_cons
  rw [u.text_eq, hcons]
  simp

theorem getElem?_last : u.text[(u.front.text ++ (u.hostText ++ u.dotText)).length - 1]? =
    (u.hostText ++ u.dotText).getLast? := by
  obtain ⟨c, tail, hcons, -⟩ := u.hostText_cons
  rw [u.text_eq, hcons, List.getElem?_append_left (by simp), ← List.getLast?_eq_getElem?,
    List.getLast?_append_of_ne_nil _ (by simp)]

theorem le_hostSpan (uri : List UInt8) (s p b : ℕ) : b ≤ (hostSpan uri s p b).1 := by
  rw [hostSpan]
  split
  next => exact Nat.le_succ b
  next => split <;> exact le_rfl

/-- What `extract_domain` returns where the host and its port are found to end at their end. -/
theorem extractDomainAt_text (H : hostEnd u.text = u.authority.length) {b q : ℕ}
    (hspan : hostSpan u.text u.authority.length (u.front.text ++ (u.hostText ++ u.dotText)).length
      (hostBegin u.text (u.front.text ++ (u.hostText ++ u.dotText)).length) = (b, q)) :
    extractDomainAt u.text = some (b, dotless u.text q b - b) := by
  have hp : portBegin u.text (hostEnd u.text) =
      (u.front.text ++ (u.hostText ++ u.dotText)).length := H ▸ u.portBegin_text
  have hb := hostBegin_le u.not_slashes_prefix hp
  exact (extractDomainAt_of_le u.text_ne_nil u.length_lt H (H ▸ hp) hb hspan).1

/-- The name of a host is found. -/
theorem extractsHost_of_name (H : hostEnd u.text = u.authority.length)
    (hname : u.bracketed = false) : u.ExtractsHost := by
  obtain ⟨c, tail, hcons, -, -, -, hopen⟩ := u.hostText_cons
  have hbegin := u.hostBegin_text (.inl hname)
  have hlen : (u.front.text ++ (u.hostText ++ u.dotText)).length =
      u.front.text.length + u.host.length + u.dotText.length := by
    rw [u.hostText_name hname, List.length_append, List.length_append, Nat.add_assoc]
  have hslice : slice u.text u.front.text.length
      (u.front.text ++ (u.hostText ++ u.dotText)).length = u.hostText ++ u.dotText := by
    rw [slice, u.text_eq, List.take_left, List.drop_left]
  have hcolon : (u.hostText ++ u.dotText).contains 0x3a = false := by
    simpa using u.colon_notMem_host hname
  have hfirst : (u.text[u.front.text.length]? == some 0x5b) = false := by
    rw [u.getElem?_front, hcons]
    simpa using hopen hname
  have hspan := u.extractDomainAt_text H (b := u.front.text.length)
    (q := (u.front.text ++ (u.hostText ++ u.dotText)).length) (by
      rw [hbegin, hostSpan, hfirst, Bool.and_false, Bool.false_and, if_neg Bool.false_ne_true,
        hslice, hcolon, if_neg Bool.false_ne_true])
  have hplace : u.hostPlace = u.front.text.length := by simp [UriParts.hostPlace, hname]
  have hpos : 0 < u.host.length := List.length_pos_iff.mpr (u.host_name hname).1.ne_nil
  have hdotless : dotless u.text (u.front.text ++ (u.hostText ++ u.dotText)).length
      u.front.text.length = u.front.text.length + u.host.length := by
    rw [dotless, u.getElem?_last, hlen]
    cases hdot : u.dot with
    | true =>
        have hdotText : u.dotText = [0x2e] := by simp [UriParts.dotText, hdot]
        have hroom : u.front.text.length < u.front.text.length + u.host.length + 1 := by omega
        rw [hdotText, if_pos (by simpa using hroom)]
        rfl
    | false =>
        have hdotText : u.dotText = [] := by simp [UriParts.dotText, hdot]
        have hlast : (u.host.getLast? == some 0x2e) = false := by
          simpa using (u.host_name hname).2.2
        rw [hdotText, List.append_nil, u.hostText_name hname, hlast, Bool.and_false,
          if_neg Bool.false_ne_true]
        rfl
  rw [ExtractsHost, hspan, hdotless, hplace, Nat.add_sub_cancel_left]

/-- An address is found if it has a scheme before it and no dot behind it. -/
theorem extractsHost_iff_of_address (H : hostEnd u.text = u.authority.length)
    (haddress : u.bracketed = true) :
    u.ExtractsHost ↔ u.front ≠ .bare ∧ u.dot = false := by
  have htext := u.hostText_bracketed haddress
  have hplace : u.hostPlace = u.front.text.length + 1 := by simp [UriParts.hostPlace, haddress]
  have hresult := fun b q => u.extractDomainAt_text H (b := b) (q := q)
  generalize hspan : hostSpan u.text u.authority.length
    (u.front.text ++ (u.hostText ++ u.dotText)).length
    (hostBegin u.text (u.front.text ++ (u.hostText ++ u.dotText)).length) = span at hresult
  obtain ⟨b, q⟩ := span
  have hat := hresult b q rfl
  rw [ExtractsHost, hat, Option.some_inj, Prod.mk.injEq, hplace]
  by_cases hfront : u.front = .bare
  · have hle := u.le_hostBegin_text haddress hfront
    have hb := le_hostSpan u.text u.authority.length
      (u.front.text ++ (u.hostText ++ u.dotText)).length
      (hostBegin u.text (u.front.text ++ (u.hostText ++ u.dotText)).length)
    rw [hspan] at hb
    rw [hfront] at hb hle ⊢
    refine iff_of_false (fun h => ?_) fun h => h.1 rfl
    have hone : b = 1 := h.1
    dsimp only at hb
    omega
  · rw [u.hostBegin_text (.inr hfront), hostSpan, u.getElem?_front, u.getElem?_last] at hspan
    cases hdot : u.dot with
    | true =>
        have hdotText : u.dotText = [0x2e] := by simp [UriParts.dotText, hdot]
        rw [hdotText, List.getLast?_concat, show (some (0x2e : UInt8) == some 0x5d) = false by rfl,
          Bool.and_false, if_neg Bool.false_ne_true] at hspan
        refine iff_of_false (fun h => ?_) fun h => by simp at h
        have hb : b = u.front.text.length := by
          split at hspan <;> exact (Prod.mk.inj hspan).1.symm
        omega
    | false =>
        have hdotText : u.dotText = [] := by simp [UriParts.dotText, hdot]
        have hlen : (u.front.text ++ (u.hostText ++ u.dotText)).length =
            u.front.text.length + u.host.length + 2 := by
          rw [htext, hdotText]
          simp [Nat.add_assoc]
        rw [hlen] at hspan
        have hopen : ((u.hostText ++ u.dotText)[0]? == some 0x5b) = true := by rw [htext]; rfl
        have hclose : ((u.hostText ++ u.dotText).getLast? == some 0x5d) = true := by
          rw [htext, hdotText, List.append_nil, ← List.cons_append, List.getLast?_concat]
          rfl
        rw [hopen, hclose, if_pos (by simp; omega)] at hspan
        obtain ⟨rfl, rfl⟩ := Prod.mk.inj hspan
        have haddr := u.host_address haddress
        have hne : u.host ≠ [] := List.ne_nil_of_mem haddr.colon
        have hlast : u.text[(u.front.text ++ 0x5b :: u.host).length - 1]? = u.host.getLast? := by
          have hsplit : u.text =
              u.front.text ++ 0x5b :: u.host ++ 0x5d :: (u.portText ++ u.rest) := by
            rw [u.text_eq, htext, hdotText]
            simp
          rw [hsplit, List.getElem?_append_left (by simp), ← List.getLast?_eq_getElem?,
            List.getLast?_append_of_ne_nil _ (List.cons_ne_nil _ _), List.getLast?_cons,
            List.getLast?_eq_some_getLast hne]
          rfl
        have hindex : u.front.text.length + u.host.length + 2 - 1 - 1 =
            (u.front.text ++ 0x5b :: u.host).length - 1 := by simp
        have hdotless : dotless u.text (u.front.text.length + u.host.length + 2 - 1)
            (u.front.text.length + 1) = u.front.text.length + u.host.length + 1 := by
          have hdot' : (u.host.getLast? == some 0x2e) = false := by simpa using haddr.no_dot
          rw [dotless, hindex, hlast, hdot', Bool.and_false, if_neg Bool.false_ne_true]
          rfl
        rw [hdotless]
        refine iff_of_true ⟨rfl, ?_⟩ ⟨hfront, rfl⟩
        omega

/-- A host that is found to end elsewhere is not found. -/
theorem not_extractsHost (H : hostEnd u.text < u.front.text.length ∨
    u.authority.length < hostEnd u.text) : ¬ u.ExtractsHost := by
  intro hfound
  have hp := hostBegin_le u.not_slashes_prefix rfl
  obtain ⟨⟨b, q⟩, hspan⟩ : ∃ span, hostSpan u.text (hostEnd u.text)
      (portBegin u.text (hostEnd u.text))
      (hostBegin u.text (portBegin u.text (hostEnd u.text))) = span := ⟨_, rfl⟩
  obtain ⟨hat, hdot, hq, hs⟩ := extractDomainAt_of_le u.text_ne_nil u.length_lt rfl rfl hp hspan
  rw [ExtractsHost, hat, Option.some_inj, Prod.mk.injEq] at hfound
  obtain ⟨hplace, hlen⟩ := hfound
  have hfront : u.front.text.length ≤ u.hostPlace := Nat.le_add_right _ _
  have hend : u.hostPlace + u.host.length ≤ u.authority.length := by
    rw [UriParts.hostPlace, UriParts.authority, UriParts.hostText]
    split <;> simp only [List.length_append, List.length_cons] <;> omega
  rcases H with hbefore | hbehind
  · omega
  · -- what the rest begins with is neither in a port nor a bracket or a dot
    have hbegins := u.rest_begins
    have hget : u.text[u.authority.length]? = u.rest.head? := by
      rw [UriParts.text, List.getElem?_append_right le_rfl, Nat.sub_self, List.head?_eq_getElem?]
    have hlt : u.authority.length < u.text.length := hbehind.trans_le hostEnd_le
    rw [List.getElem?_eq_getElem hlt] at hget
    have hc := hbegins _ hget.symm
    have hplain : isDigit u.text[u.authority.length] = false ∧
        u.text[u.authority.length] ≠ 0x3a ∧ u.text[u.authority.length] ≠ 0x5d ∧
          u.text[u.authority.length] ≠ 0x2e := by
      rcases hc with hc | hc | hc <;> rw [hc] <;> decide
    obtain ⟨hdigit, hcolon, hclose, hdot'⟩ := hplain
    have hget' := List.getElem?_eq_getElem hlt
    have hport := lt_portBegin hbehind hget' hdigit hcolon
    have := lt_dotless hbehind hport hget' hclose hdot' hspan
    omega

/-- **When `extract_domain` finds the host**: when what stands behind the host is found, and the
host is not taken apart. -/
theorem extractsHost_iff : u.ExtractsHost ↔ u.RestFound ∧ u.HostRead := by
  rcases u.hostEnd_text with ⟨hrest, hend⟩ | ⟨hrest, hend⟩
  · rw [and_iff_right hrest, HostRead]
    cases hbracketed : u.bracketed with
    | false => simpa using u.extractsHost_of_name hend hbracketed
    | true => simpa using u.extractsHost_iff_of_address hend hbracketed
  · exact iff_of_false (u.not_extractsHost hend) fun h => hrest h.1

/-- The URI `http://h?/`. -/
def queryUri : HostUri where
  front := .scheme [0x68, 0x74, 0x74, 0x70] true
  host := [0x68]
  bracketed := false
  dot := false
  port := none
  rest := [0x3f, 0x2f]
  scheme_plain := by
    rintro name slashed ⟨⟩
    exact ⟨rfl, by decide, by decide⟩
  host_name _ := ⟨⟨by decide, fun c hc => by rw [List.mem_singleton.mp hc]; decide⟩, rfl, by decide⟩
  host_address h := by cases h
  port_digits := by simp
  rest_begins := by simp
  length_lt := by decide

/-- The slash in its query is taken for the path, and the query for a part of the host. -/
theorem not_extractsHost_query : ¬ queryUri.ExtractsHost := by
  intro H
  have hresult : extractDomainAt queryUri.text = some (7, 2) := by decide +kernel
  exact absurd (hresult.symm.trans H) (by decide)

end HostUri

end MassGridMiner

import MassGridMiner.Stratum.Uri

/-!
# The host that an address leads to

`extract_sockaddr` reads an address from the front, with its own idea of where the host begins
and ends.  What it makes of an address is described here by the parts of the address alone.

## Main definitions

* `LeadsTo` — the parts of an address, and the host in them.

## Main results

* `leadsTo_iff` — it is the host of what `extract_sockaddr` returns.
-/

namespace MassGridMiner

/-- What comes before the name in an address: everything up to the first two slashes, or
nothing if there are none. -/
inductive AddressFront : List UInt8 → List UInt8 → Prop
  | empty (text : List UInt8) (no_slashes : ¬ [0x2f, 0x2f] <:+: text) : AddressFront [] text
  | slashes (front text : List UInt8) (first : ¬ [0x2f, 0x2f] <:+: front ++ [0x2f]) :
      AddressFront (front ++ [0x2f, 0x2f]) text

/-- There is an opening bracket before the first closing one. -/
def Bracketed (text : List UInt8) : Prop :=
  ∃ inner rest, text = inner ++ 0x5d :: rest ∧ 0x5d ∉ inner ∧ 0x5b ∈ inner

/-- The name in an address, and what is behind it: it has no colon, or none behind its
brackets. -/
inductive AddressName : List UInt8 → List UInt8 → Prop
  | plain (name rest : List UInt8) (no_brackets : ¬ Bracketed (name ++ rest))
      (no_colon : 0x3a ∉ name) : AddressName name rest
  | bracketed (inner more rest : List UInt8) (opened : 0x5b ∈ inner) (first : 0x5d ∉ inner)
      (no_colon : 0x3a ∉ more) : AddressName (inner ++ 0x5d :: more) rest

/-- An address leads to a host if that is the host in its name; behind the name there is nothing,
or a colon with a port. -/
def LeadsTo (address host : List UInt8) : Prop :=
  ∃ front name rest, address = front ++ (name ++ rest) ∧ AddressFront front (name ++ rest) ∧
    AddressName name rest ∧ (rest = [] ∨ ∃ c port, rest = 0x3a :: c :: port) ∧ name ≠ [] ∧
      host = urlHost name

section
variable {front name rest text : List UInt8}

theorem AddressFront.afterSlashes_eq (H : AddressFront front text) :
    afterSlashes (front ++ text) = text := by
  cases H with
  | empty _ hnone => rw [List.nil_append, afterSlashes, strstr_eq_none hnone]
  | slashes front _ hfirst =>
      rw [afterSlashes, strstr_append hfirst]
      dsimp only
      rw [← List.drop_drop, List.append_assoc, List.drop_left]
      rfl

theorem exists_addressFront (address : List UInt8) :
    ∃ front text, address = front ++ text ∧ AddressFront front text := by
  by_cases hslashes : [0x2f, 0x2f] <:+: address
  · obtain ⟨xs, ys, rfl, hfirst⟩ := exists_first_infix (List.cons_ne_nil _ _) hslashes
    exact ⟨_, ys, rfl, .slashes xs ys hfirst⟩
  · exact ⟨[], address, rfl, .empty _ hslashes⟩

theorem portColon_of_not_bracketed (H : ¬ Bracketed text) :
    portColon text = memchr 0x3a text 0 := by
  rw [portColon]
  split
  next i j hi hj =>
    rw [if_neg]
    intro hlt
    obtain ⟨inner, rest, rfl, rfl, hfirst⟩ := exists_of_memchr hj
    have hget := getElem?_of_memchr hi
    rw [List.getElem?_append_left hlt] at hget
    exact H ⟨inner, rest, rfl, hfirst, List.mem_of_getElem? hget⟩
  next => rfl

theorem portColon_of_bracketed {inner : List UInt8} (opened : 0x5b ∈ inner) (first : 0x5d ∉ inner)
    (rest : List UInt8) : portColon (inner ++ 0x5d :: rest) =
      memchr 0x3a (inner ++ 0x5d :: rest) inner.length := by
  obtain ⟨xs, ys, rfl, hxs⟩ := List.eq_append_cons_of_mem opened
  have hopen : memchr 0x5b (xs ++ 0x5b :: ys ++ 0x5d :: rest) 0 = some xs.length := by
    rw [List.append_assoc]
    exact memchr_append_cons (Nat.zero_le _) hxs (ys ++ 0x5d :: rest)
  have hclose := memchr_append_cons (Nat.zero_le _) first rest
  have hlt : xs.length < (xs ++ 0x5b :: ys).length := by simp
  rw [portColon, hopen, hclose]
  dsimp only
  rw [if_pos hlt]

/-- The colon is where the name ends. -/
theorem AddressName.portColon_eq (H : AddressName name rest)
    (hrest : rest = [] ∨ ∃ port, rest = 0x3a :: port) :
    portColon (name ++ rest) = if rest = [] then none else some name.length := by
  cases H with
  | plain _ _ hnone hcolon =>
      rw [portColon_of_not_bracketed hnone]
      obtain rfl | ⟨port, rfl⟩ := hrest
      · rw [List.append_nil, if_pos rfl]
        exact memchr_eq_none hcolon
      · rw [if_neg (List.cons_ne_nil _ _)]
        exact memchr_append_cons (Nat.zero_le _) hcolon port
  | bracketed inner more _ hopened hfirst hcolon =>
      have hbehind : 0x3a ∉ (inner ++ 0x5d :: more).drop inner.length := by
        rw [List.drop_left, List.mem_cons, not_or]
        exact ⟨by decide, hcolon⟩
      have hmove : inner ++ 0x5d :: more ++ rest = inner ++ 0x5d :: (more ++ rest) := by simp
      rw [hmove, portColon_of_bracketed hopened hfirst, ← hmove]
      obtain rfl | ⟨port, rfl⟩ := hrest
      · rw [List.append_nil, if_pos rfl]
        exact memchr_eq_none hbehind
      · rw [if_neg (List.cons_ne_nil _ _)]
        refine memchr_append_cons ?_ hbehind port
        simp

/-- A text ends at its first colon, if there is one. -/
theorem exists_colon (text : List UInt8) : ∃ name rest, text = name ++ rest ∧ 0x3a ∉ name ∧
    (rest = [] ∨ ∃ port, rest = 0x3a :: port) := by
  by_cases hcolon : 0x3a ∈ text
  · obtain ⟨name, port, rfl, hname⟩ := List.eq_append_cons_of_mem hcolon
    exact ⟨name, 0x3a :: port, rfl, hname, .inr ⟨port, rfl⟩⟩
  · exact ⟨text, [], (List.append_nil text).symm, hcolon, .inl rfl⟩

theorem exists_addressName (text : List UInt8) : ∃ name rest, text = name ++ rest ∧
    AddressName name rest ∧ (rest = [] ∨ ∃ port, rest = 0x3a :: port) := by
  by_cases hbrackets : Bracketed text
  · obtain ⟨inner, behind, rfl, hfirst, hopened⟩ := hbrackets
    obtain ⟨more, rest, rfl, hcolon, hrest⟩ := exists_colon behind
    have hname := AddressName.bracketed inner more rest hopened hfirst hcolon
    refine ⟨inner ++ 0x5d :: more, rest, ?_, hname, hrest⟩
    simp
  · obtain ⟨name, rest, rfl, hcolon, hrest⟩ := exists_colon text
    exact ⟨name, rest, rfl, .plain name rest hbrackets hcolon, hrest⟩

/-- What is read of the port behind a name. -/
def readPort : List UInt8 → List UInt8
  | [] => literal "80"
  | _ :: text => (text.take 5).takeWhile (· != 0x2f)

/-- What `extract_sockaddr` returns is the name, cut to what the buffer holds, and the port behind
it. -/
theorem extractSockaddr_parts (hfront : AddressFront front (name ++ rest))
    (hname : AddressName name rest) (hrest : rest = [] ∨ ∃ port, rest = 0x3a :: port) :
    extractSockaddr (front ++ (name ++ rest)) =
      if rest = [0x3a] ∨ name = [] then none else some (name.take 255, readPort rest) := by
  rw [extractSockaddr, hfront.afterSlashes_eq, hname.portColon_eq hrest]
  obtain rfl | ⟨port, rfl⟩ := hrest
  · have htake : name.take (min name.length 255) = name.take 255 := by
      rw [List.take_eq_take_iff]
      omega
    rw [List.append_nil, if_pos rfl]
    by_cases hempty : name = []
    · simp [hempty]
    · simp [hempty, htake, readPort]
  · have hport : (name ++ 0x3a :: port).drop (name.length + 1) = port := by
      rw [← List.drop_drop, List.drop_left]
      rfl
    rw [if_neg (List.cons_ne_nil _ _), Option.map_some, hport]
    by_cases hempty : name = []
    · simp [hempty]
    · by_cases hnone : port = []
      · simp [hnone]
      · have htake : (name ++ 0x3a :: port).take (min name.length 255) = name.take 255 := by
          rw [List.take_append_of_le_length (Nat.min_le_left _ _), Nat.min_comm,
            List.take_eq_take_iff]
          omega
        simp [hempty, hnone, htake, readPort]

/-- The address that `extract_sockaddr` returns is the name. -/
theorem extractSockaddr_eq (hfront : AddressFront front (name ++ rest))
    (hname : AddressName name rest) (hrest : rest = [] ∨ ∃ port, rest = 0x3a :: port)
    (hlen : name.length ≤ 255) :
    (extractSockaddr (front ++ (name ++ rest))).map Prod.fst =
      if rest = [0x3a] ∨ name = [] then none else some name := by
  rw [extractSockaddr_parts hfront hname hrest]
  split
  next => rfl
  next => rw [Option.map_some, List.take_of_length_le hlen]

/-- **An address leads to the host of what `extract_sockaddr` returns.** -/
theorem leadsTo_iff {address host : List UInt8} (hlen : address.length ≤ 255) :
    LeadsTo address host ↔
      ∃ sockaddr portText, extractSockaddr address = some (sockaddr, portText) ∧
        host = urlHost sockaddr := by
  constructor
  · rintro ⟨front, name, rest, rfl, hfront, hname, hrest, hne, rfl⟩
    have hcolon : rest = [] ∨ ∃ port, rest = 0x3a :: port := by
      obtain rfl | ⟨c, port, rfl⟩ := hrest
      · exact .inl rfl
      · exact .inr ⟨c :: port, rfl⟩
    have heq := extractSockaddr_eq hfront hname hcolon (by simp at hlen; omega)
    rw [if_neg] at heq
    · obtain ⟨⟨sockaddr, portText⟩, hsome, rfl⟩ := Option.map_eq_some_iff.mp heq
      exact ⟨sockaddr, portText, hsome, rfl⟩
    · obtain rfl | ⟨c, port, rfl⟩ := hrest
      · simp [hne]
      · simp [hne]
  · rintro ⟨sockaddr, portText, hsome, rfl⟩
    obtain ⟨front, text, rfl, hfront⟩ := exists_addressFront address
    obtain ⟨name, rest, rfl, hname, hrest⟩ := exists_addressName text
    have heq := extractSockaddr_eq hfront hname hrest (by simp at hlen; omega)
    rw [hsome, Option.map_some] at heq
    split at heq
    next => cases heq
    next hparts =>
      rw [not_or] at hparts
      obtain rfl := Option.some.inj heq
      refine ⟨front, sockaddr, rest, rfl, hfront, hname, ?_, hparts.2, rfl⟩
      obtain hnil | ⟨port, rfl⟩ := hrest
      · exact .inl hnil
      · cases port with
        | nil => exact absurd rfl hparts.1
        | cons c port => exact .inr ⟨c, port, rfl⟩

end

end MassGridMiner

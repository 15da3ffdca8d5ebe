import MassGridMiner.Stratum.Address
import MassGridMiner.Stratum.HostUri

/-!
# The address in a pool's URL

`extract_sockaddr` does not look for the end of an address: it ends at a colon, or where the URL
does.  A path or a fragment behind the host is a part of the address, and what stands in it may
be taken for the slashes of a scheme, for brackets or for a port.

## Main definitions

* `PoolUrl` — a URL by its parts.
* `PoolUrl.FindsAddress` — `extract_sockaddr` returns the host and the port.
* `PoolUrl.Readable` — when it does.
-/

namespace MassGridMiner

/-- `extract_sockaddr`, with the address and the port that it replaces. -/
def replaceSockaddr (url : List UInt8) (old : List UInt8 × List UInt8) :
    Bool × (List UInt8 × List UInt8) :=
  match extractSockaddr url with
  | none => (false, old)
  | some new => (true, new)

/-- An IPv6 address in its brackets. -/
def IsIpv6Literal (host : List UInt8) : Prop :=
  ∃ address, Ipv6Address address ∧ host = 0x5b :: address ++ [0x5d]

/-- A URL of a pool; the tail is the path and the fragment. -/
structure PoolUrl where
  scheme : Option (List UInt8)
  host : List UInt8
  port : Option (List UInt8)
  tail : List UInt8
  scheme_plain : ∀ name, scheme = some name → 0x2f ∉ name ∧ name.getLast? = some 0x3a
  host_plain : DnsName host ∨ IsIpv6Literal host
  host_length : host.length ≤ 255
  port_digits : ∀ digits, port = some digits →
    digits ≠ [] ∧ digits.length ≤ 5 ∧ digits.all isDigit = true
  tail_begins : ∀ c ∈ tail.head?, c = 0x2f ∨ c = 0x23

/-- What stands behind the digits of a port is not read as a part of it. -/
def PortStands (port behind : List UInt8) : Prop :=
  port.length = 5 ∨ behind = [] ∨ behind.head? = some 0x2f

/-- A text is read as a host and a port: it is the host, or begins with it if it is cut behind it,
and behind that name there is nothing, which is the port 80, or the port. -/
def ReadAs (text host port : List UInt8) : Prop :=
  ∃ more rest, text = host ++ more ++ rest ∧ (more = [] ∨ host.length = 255) ∧
    AddressName (host ++ more) rest ∧
      (rest = [] ∧ port = literal "80" ∨
        ∃ behind, rest = 0x3a :: (port ++ behind) ∧ PortStands port behind)

namespace PoolUrl

def schemeText (u : PoolUrl) : List UInt8 := (u.scheme.map fun name => name ++ [0x2f, 0x2f]).getD []

def portText (u : PoolUrl) : List UInt8 := (u.port.map fun digits => 0x3a :: digits).getD []

/-- The URL behind its scheme. -/
def address (u : PoolUrl) : List UInt8 := u.host ++ u.portText ++ u.tail

def text (u : PoolUrl) : List UInt8 := u.schemeText ++ u.address

/-- The port that is given, or 80. -/
def givenPort (u : PoolUrl) : List UInt8 := u.port.getD (literal "80")

/-- `extract_sockaddr` finds the host and the port, and where it returns false, nothing has
changed. -/
structure FindsAddress (u : PoolUrl) : Prop where
  found : ∀ old, replaceSockaddr u.text old = (true, u.host, u.givenPort)
  kept : ∀ old, (replaceSockaddr u.text old).1 = false → (replaceSockaddr u.text old).2 = old

/-- The first slashes are not those of the tail. -/
def Direct (u : PoolUrl) : Prop := u.scheme ≠ none ∨ ¬ [0x2f, 0x2f] <:+: u.tail

/-- There is no tail behind the host; or the colon behind it is the one that is found, and the tail
is not read as a part of the port. -/
def PortFound (u : PoolUrl) : Prop :=
  match u.port with
  | none => u.tail = []
  | some port => (IsIpv6Literal u.host ∨ ¬ Bracketed u.tail) ∧ PortStands port u.tail

/-- When the address is found: the parts stand where they are looked for; or the host is so long
that what is added to it is cut, and the port is right; or slashes in the tail are taken for those
of a scheme, and the same host and port stand behind them. -/
inductive Readable (u : PoolUrl) : Prop
  | plain (direct : u.Direct) (port : u.PortFound)
  | cut (direct : u.Direct) (long : u.host.length = 255)
    (same : ReadAs u.address u.host u.givenPort)
  | again (before behind : List UInt8) (bare : u.scheme = none)
      (tail : u.tail = before ++ [0x2f, 0x2f] ++ behind)
      (first : ¬ [0x2f, 0x2f] <:+: before ++ [0x2f]) (same : ReadAs behind u.host u.givenPort)

end PoolUrl

/-! ## What is read -/

section
variable {front text host port behind : List UInt8}

/-- The port is read as far as a slash, or five characters. -/
theorem takeWhile_port_iff (hslash : 0x2f ∉ port) (hlen : port.length ≤ 5) :
    (text.take 5).takeWhile (· != 0x2f) = port ↔
      ∃ behind, text = port ++ behind ∧ PortStands port behind := by
  constructor
  · intro hport
    have hsplit : port ++ (text.take 5).dropWhile (· != 0x2f) = text.take 5 := by
      rw [← hport]
      exact List.takeWhile_append_dropWhile
    refine ⟨(text.take 5).dropWhile (· != 0x2f) ++ text.drop 5, ?_, ?_⟩
    · rw [← List.append_assoc, hsplit, List.take_append_drop]
    · have hfirst := List.head?_dropWhile_not (· != (0x2f : UInt8)) (text.take 5)
      cases hbehind : (text.take 5).dropWhile (· != 0x2f) with
      | nil =>
          rw [hbehind, List.append_nil] at hsplit
          rcases Nat.lt_or_ge text.length 5 with hlt | hge
          · refine .inr (.inl ?_)
            rw [List.nil_append, List.drop_eq_nil_of_le hlt.le]
          · refine .inl ?_
            rw [hsplit, List.length_take, Nat.min_eq_left hge]
      | cons c behind =>
          rw [hbehind] at hfirst
          exact .inr (.inr (by simpa using hfirst))
  · rintro ⟨behind, rfl, hstands⟩
    have hall : ∀ c ∈ port, (c != 0x2f) = true := by
      intro c hc
      rw [bne_iff_ne]
      rintro rfl
      exact hslash hc
    rw [List.take_append, List.take_of_length_le hlen, List.takeWhile_append_of_pos hall]
    refine List.append_right_eq_self.mpr ?_
    rcases hstands with hfive | rfl | hfirst
    · rw [hfive]
      rfl
    · rw [List.take_nil]
      rfl
    · cases behind with
      | nil => cases hfirst
      | cons c behind =>
          obtain rfl := Option.some.inj hfirst
          cases 5 - port.length <;> rfl

/-- What is returned is what the text is read as. -/
theorem extractSockaddr_iff (hfront : AddressFront front text) (hhost : host ≠ [])
    (hlong : host.length ≤ 255) (hne : port ≠ []) (hslash : 0x2f ∉ port) (hlen : port.length ≤ 5) :
    extractSockaddr (front ++ text) = some (host, port) ↔ ReadAs text host port := by
  constructor
  · intro H
    obtain ⟨name, rest, rfl, hname, hrest⟩ := exists_addressName text
    rw [extractSockaddr_parts hfront hname hrest] at H
    split at H
    next => cases H
    next hparts =>
      rw [not_or] at hparts
      obtain ⟨hhost', hport⟩ := Prod.mk.inj (Option.some.inj H)
      have hsplit : host ++ name.drop 255 = name := by rw [← hhost', List.take_append_drop]
      refine ⟨name.drop 255, rest, by rw [hsplit], ?_, by rwa [hsplit], ?_⟩
      · rcases Nat.lt_or_ge name.length 255 with hlt | hge
        · exact .inl (List.drop_eq_nil_of_le hlt.le)
        · refine .inr ?_
          rw [← hhost', List.length_take, Nat.min_eq_left hge]
      · obtain rfl | ⟨text, rfl⟩ := hrest
        · exact .inl ⟨rfl, hport.symm⟩
        · obtain ⟨behind, rfl, hstands⟩ := (takeWhile_port_iff hslash hlen).mp hport
          exact .inr ⟨behind, rfl, hstands⟩
  · rintro ⟨more, rest, rfl, hmore, hname, hrest⟩
    have hcolon : rest = [] ∨ ∃ text, rest = 0x3a :: text := by
      rcases hrest with ⟨rfl, -⟩ | ⟨behind, rfl, -⟩
      · exact .inl rfl
      · exact .inr ⟨_, rfl⟩
    have hcut : (host ++ more).take 255 = host := by
      rcases hmore with rfl | hlong
      · rw [List.append_nil, List.take_of_length_le hlong]
      · rw [← hlong, List.take_left]
    rw [extractSockaddr_parts hfront hname hcolon, hcut, if_neg]
    · congr 2
      rcases hrest with ⟨rfl, rfl⟩ | ⟨behind, rfl, hstands⟩
      · rfl
      · exact (takeWhile_port_iff hslash hlen).mpr ⟨behind, rfl, hstands⟩
    · rw [not_or]
      refine ⟨?_, by simp [hhost]⟩
      rcases hrest with ⟨rfl, -⟩ | ⟨behind, rfl, -⟩ <;> simp [hne]

/-- Brackets are looked for behind a text without any. -/
theorem bracketed_append_iff (hopen : 0x5b ∉ front) (hclose : 0x5d ∉ front) :
    Bracketed (front ++ text) ↔ Bracketed text := by
  constructor
  · rintro ⟨inner, rest, hsplit, hfirst, hopened⟩
    rcases List.append_eq_append_iff.mp hsplit with ⟨inside, rfl, rfl⟩ | ⟨inside, rfl, hrest⟩
    · rw [List.mem_append, not_or] at hfirst
      exact ⟨inside, rest, rfl, hfirst.2, (List.mem_append.mp hopened).resolve_left hopen⟩
    · exact absurd (List.mem_append_left _ hopened) hopen
  · rintro ⟨inner, rest, rfl, hfirst, hopened⟩
    refine ⟨front ++ inner, rest, by simp, ?_, List.mem_append_right _ hopened⟩
    rw [List.mem_append, not_or]
    exact ⟨hclose, hfirst⟩

theorem DnsName.notMem (H : DnsName host) {c : UInt8} (hc : isNameChar c = false) : c ∉ host := by
  intro hmem
  rw [H.chars c hmem] at hc
  cases hc

theorem notMem_digits (H : port.all isDigit = true) {c : UInt8} (hc : isDigit c = false) :
    c ∉ port := by
  intro hmem
  rw [List.all_eq_true.mp H c hmem] at hc
  cases hc

end

namespace PoolUrl
variable (u : PoolUrl)

theorem host_ne_nil : u.host ≠ [] := by
  rcases u.host_plain with hname | ⟨address, -, hhost⟩
  · exact hname.ne_nil
  · simp [hhost]

theorem givenPort_digits : u.givenPort ≠ [] ∧ u.givenPort.length ≤ 5 ∧ 0x2f ∉ u.givenPort := by
  rw [givenPort]
  cases hport : u.port with
  | none => decide +kernel
  | some digits =>
      obtain ⟨hne, hlen, hall⟩ := u.port_digits digits hport
      exact ⟨hne, hlen, notMem_digits hall (by decide)⟩

theorem slash_notMem : 0x2f ∉ u.host ++ u.portText := by
  rw [List.mem_append, not_or]
  constructor
  · rcases u.host_plain with hname | ⟨address, haddress, hhost⟩
    · exact hname.notMem (by decide)
    · have hslash : 0x2f ∉ address := fun hmem => by
        have := haddress.chars _ hmem
        cases this
      simp [hhost, hslash]
  · rw [portText]
    cases hport : u.port with
    | none => exact List.not_mem_nil
    | some digits =>
        have hslash := notMem_digits (u.port_digits digits hport).2.2 (c := 0x2f) (by decide)
        simp [hslash]

/-- The URL is read behind its scheme, unless slashes in the tail are taken for those of one. -/
theorem addressFront (H : u.Direct) : AddressFront u.schemeText u.address := by
  rw [schemeText]
  cases hscheme : u.scheme with
  | none =>
      refine AddressFront.empty _ fun hslashes => ?_
      exact H.resolve_left (not_not_intro hscheme) (infix_pair_append u.slash_notMem hslashes)
  | some name =>
      refine AddressFront.slashes name _ fun hslashes => ?_
      have hone := infix_pair_append (u.scheme_plain name hscheme).1 hslashes
      exact absurd hone.length_le (by decide)

/-- A host with its port is a name if no brackets behind it are taken for its own. -/
theorem addressName_iff {digits : List UInt8} (hport : u.port = some digits) :
    AddressName u.host (0x3a :: (digits ++ u.tail)) ↔
      IsIpv6Literal u.host ∨ ¬ Bracketed u.tail := by
  have hall := (u.port_digits digits hport).2.2
  have hdigits : ∀ c : UInt8, isDigit c = false → c ≠ 0x3a → c ∉ 0x3a :: digits := by
    intro c hc hcolon
    rw [List.mem_cons, not_or]
    exact ⟨hcolon, notMem_digits hall hc⟩
  rcases u.host_plain with hname | hliteral
  · have hbrackets : Bracketed (u.host ++ 0x3a :: (digits ++ u.tail)) ↔ Bracketed u.tail := by
      rw [← List.cons_append, ← List.append_assoc]
      refine bracketed_append_iff ?_ ?_ <;> rw [List.mem_append, not_or]
      · exact ⟨hname.notMem (by decide), hdigits _ (by decide) (by decide)⟩
      · exact ⟨hname.notMem (by decide), hdigits _ (by decide) (by decide)⟩
    constructor
    · intro H
      generalize hhost : u.host = host at H
      cases H with
      | plain _ _ hnone _ =>
          rw [← hhost, hbrackets] at hnone
          exact .inr hnone
      | bracketed inner more _ _ _ _ =>
          refine absurd ?_ (hname.notMem (c := 0x5d) (by decide))
          simp [hhost]
    · rintro (⟨address, -, hhost⟩ | hnone)
      · refine absurd ?_ (hname.notMem (c := 0x5d) (by decide))
        simp [hhost]
      · exact .plain _ _ (mt hbrackets.mp hnone) (hname.notMem (by decide))
  · refine iff_of_true ?_ (.inl hliteral)
    obtain ⟨address, haddress, hhost⟩ := hliteral
    rw [hhost]
    refine .bracketed (0x5b :: address) [] _ List.mem_cons_self ?_ List.not_mem_nil
    rw [List.mem_cons, not_or]
    refine ⟨by decide, fun hmem => ?_⟩
    have := haddress.chars _ hmem
    cases this

theorem addressName_nil : AddressName u.host [] := by
  rcases u.host_plain with hname | ⟨address, haddress, hhost⟩
  · refine .plain _ _ ?_ (hname.notMem (by decide))
    rintro ⟨inner, rest, hsplit, -, -⟩
    refine absurd ?_ (hname.notMem (c := 0x5d) (by decide))
    rw [List.append_nil] at hsplit
    simp [hsplit]
  · rw [hhost]
    refine .bracketed (0x5b :: address) [] _ List.mem_cons_self ?_ List.not_mem_nil
    rw [List.mem_cons, not_or]
    refine ⟨by decide, fun hmem => ?_⟩
    have := haddress.chars _ hmem
    cases this

/-- What is behind the host is read as its port. -/
theorem portFound_iff : u.PortFound ↔ AddressName u.host (u.portText ++ u.tail) ∧
    (u.portText ++ u.tail = [] ∧ u.givenPort = literal "80" ∨
      ∃ behind, u.portText ++ u.tail = 0x3a :: (u.givenPort ++ behind) ∧
        PortStands u.givenPort behind) := by
  rw [PortFound, portText, givenPort]
  cases hport : u.port with
  | none =>
      dsimp only [Option.map_none, Option.getD_none]
      rw [List.nil_append]
      constructor
      · intro htail
        rw [htail]
        exact ⟨u.addressName_nil, .inl ⟨rfl, rfl⟩⟩
      · rintro ⟨-, ⟨htail, -⟩ | ⟨behind, htail, -⟩⟩
        · exact htail
        · have hbegins := u.tail_begins 0x3a (by rw [htail]; rfl)
          exact absurd hbegins (by decide)
  | some digits =>
      dsimp only [Option.map_some, Option.getD_some]
      rw [List.cons_append, u.addressName_iff hport]
      refine and_congr_right fun _ => ?_
      constructor
      · exact fun hstands => .inr ⟨u.tail, rfl, hstands⟩
      · rintro (⟨hnil, -⟩ | ⟨behind, htail, hstands⟩)
        · cases hnil
        · rw [List.cons_inj_right, List.append_cancel_left_eq] at htail
          exact htail ▸ hstands

/-- The URL as it stands is read as its host and port, unless the host is cut. -/
theorem readAs_address_iff : ReadAs u.address u.host u.givenPort ↔
    u.PortFound ∨ u.host.length = 255 ∧ ReadAs u.address u.host u.givenPort := by
  constructor
  · rintro ⟨more, rest, hsplit, rfl | hlong, hname, hrest⟩
    · rw [List.append_nil, address, List.append_assoc, List.append_cancel_left_eq] at hsplit
      rw [List.append_nil, ← hsplit] at hname
      rw [← hsplit] at hrest
      exact .inl (u.portFound_iff.mpr ⟨hname, hrest⟩)
    · exact .inr ⟨hlong, more, rest, hsplit, .inr hlong, hname, hrest⟩
  · rintro (hport | ⟨-, hread⟩)
    · obtain ⟨hname, hrest⟩ := u.portFound_iff.mp hport
      refine ⟨[], u.portText ++ u.tail, ?_, .inl rfl, ?_, hrest⟩
      · rw [address, List.append_nil, List.append_assoc]
      · rwa [List.append_nil]
    · exact hread

theorem findsAddress_iff_extractSockaddr :
    u.FindsAddress ↔ extractSockaddr u.text = some (u.host, u.givenPort) := by
  constructor
  · intro H
    have hfound := H.found (u.host, u.givenPort)
    rw [replaceSockaddr] at hfound
    cases hnew : extractSockaddr u.text with
    | none =>
        rw [hnew] at hfound
        cases hfound
    | some new =>
        rw [hnew] at hfound
        exact congrArg some (Prod.mk.inj hfound).2
  · intro H
    refine ⟨fun old => ?_, fun old hfalse => ?_⟩
    · rw [replaceSockaddr, H]
    · rw [replaceSockaddr, H] at hfalse
      cases hfalse

/-- What is behind slashes in the tail is read, if they are the first. -/
theorem extractSockaddr_again {before behind : List UInt8} (hbare : u.scheme = none)
    (htail : u.tail = before ++ [0x2f, 0x2f] ++ behind)
    (hfirst : ¬ [0x2f, 0x2f] <:+: before ++ [0x2f]) :
    extractSockaddr u.text = some (u.host, u.givenPort) ↔
      ReadAs behind u.host u.givenPort := by
  obtain ⟨hne, hlen, hslash⟩ := u.givenPort_digits
  have htext : u.text = u.host ++ u.portText ++ before ++ [0x2f, 0x2f] ++ behind := by
    simp [text, schemeText, hbare, address, htail]
  have hfront : AddressFront (u.host ++ u.portText ++ before ++ [0x2f, 0x2f]) behind := by
    refine .slashes _ _ fun hslashes => hfirst ?_
    rw [List.append_assoc] at hslashes
    exact infix_pair_append u.slash_notMem hslashes
  rw [htext]
  exact extractSockaddr_iff hfront u.host_ne_nil u.host_length hne hslash hlen

/-- **When `extract_sockaddr` finds the host and the port.** -/
theorem findsAddress_iff : u.FindsAddress ↔ u.Readable := by
  obtain ⟨hne, hlen, hslash⟩ := u.givenPort_digits
  have hdirect (H : u.Direct) : extractSockaddr u.text = some (u.host, u.givenPort) ↔
      u.PortFound ∨ u.host.length = 255 ∧ ReadAs u.address u.host u.givenPort := by
    rw [← u.readAs_address_iff]
    exact extractSockaddr_iff (u.addressFront H) u.host_ne_nil u.host_length hne hslash hlen
  rw [u.findsAddress_iff_extractSockaddr]
  constructor
  · intro H
    by_cases hfront : u.Direct
    · rcases (hdirect hfront).mp H with hport | ⟨hlong, hread⟩
      · exact .plain hfront hport
      · exact .cut hfront hlong hread
    · rw [Direct, not_or, not_not, not_not] at hfront
      obtain ⟨hbare, hslashes⟩ := hfront
      obtain ⟨before, behind, htail, hfirst⟩ :=
        exists_first_infix (List.cons_ne_nil _ _) hslashes
      exact .again before behind hbare htail hfirst
        ((u.extractSockaddr_again hbare htail hfirst).mp H)
  · intro H
    cases H with
    | plain direct port => exact (hdirect direct).mpr (.inl port)
    | cut direct long same => exact (hdirect direct).mpr (.inr ⟨long, same⟩)
    | again before behind bare tail first same =>
        exact (u.extractSockaddr_again bare tail first).mpr same

/-- The URL `http://h/p`. -/
def pathUrl : PoolUrl where
  scheme := some [0x68, 0x74, 0x74, 0x70, 0x3a]
  host := [0x68]
  port := none
  tail := [0x2f, 0x70]
  scheme_plain := by
    rintro name ⟨⟩
    exact ⟨by decide, rfl⟩
  host_plain := .inl ⟨by decide, fun c hc => by rw [List.mem_singleton.mp hc]; decide⟩
  host_length := by decide
  port_digits := by simp
  tail_begins := by simp

/-- Its path is taken for a part of the host. -/
theorem not_findsAddress_path : ¬ pathUrl.FindsAddress := by
  intro H
  have hfound := H.found ([], [])
  revert hfound
  decide +kernel

end PoolUrl

end MassGridMiner

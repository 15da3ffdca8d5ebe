import MassGridMiner.Lib.Atof
import MassGridMiner.Lib.Format
import MassGridMiner.Lib.Search

/-!
# URIs of pools

The URI of a pool says where the pool is, and behind a `#` how it is to be treated.  There are
two readers of where: `extract_domain`, which is asked whether a pool may send the miner
elsewhere, and `extract_sockaddr`, which says where to connect.

## Main definitions

* `uriGetParamBool` — a parameter behind the `#`.
* `extractDomain`, `registeredDomain`, `matchDomains` — the domain of a URI.
* `extractSockaddr` — the address and the port of a URI.
* `urlHost` — the host that an URL made of that address is for.
-/

namespace MassGridMiner

/-- `isCalpha`. -/
def isCalpha (c : UInt8) : Bool := (0x41 ≤ c && c ≤ 0x5a) || (0x61 ≤ c && c ≤ 0x7a)

/-- `isdigit`. -/
def isDigit (c : UInt8) : Bool := 0x30 ≤ c && c ≤ 0x39

/-- The first character of a text; the terminator of an empty one. -/
def firstChar (s : List UInt8) : UInt8 := s.headD 0

/-! ## Parameters -/

/-- The loop of `uri_find_param`: whether the parameter is inverted, and its value, where
there is one.  `before` is the text from the `#` to where the parameter is looked for next,
backwards. -/
def findParam (param : List UInt8) : List UInt8 → List UInt8 → Option (Bool × Option (List UInt8))
  | _, [] => none
  | before, c :: rest =>
    let q := (c :: rest).drop param.length
    let value := if firstChar q = 0x3d then some (q.drop 1) else none
    if !param.isPrefixOf (c :: rest) || isCalpha (firstChar q) then
      findParam param (c :: before) rest
    else if decide (3 ≤ before.length) && CStr.beginsNoCase (literal "on") before &&
        !isCalpha (firstChar (before.drop 2)) then
      some (true, value)
    else if isCalpha (firstChar before) then findParam param (c :: before) rest
    else some (false, value)

/-- `uri_find_param`. -/
def uriFindParam (uri param : List UInt8) : Option (Bool × Option (List UInt8)) :=
  (memchr 0x23 uri 0).bind fun start => findParam param [0x23] (uri.drop (start + 1))

/-- What `strtol`, with base 0, leaves of a text that starts with a number. -/
def strtolRest (s : List UInt8) : Option (List UInt8) :=
  let t := (CStr.sign (s.dropWhile CStr.isSpace)).2
  let hex := (t.drop 2).dropWhile fun c => CStr.digitValue c < 16
  if CStr.beginsNoCase (literal "0x") t && hex.length < (t.drop 2).length then some hex
  else
    let base := if firstChar t = 0x30 then 8 else 10
    let rest := t.dropWhile fun c => CStr.digitValue c < base
    if rest.length < t.length then some rest else none

/-- The keywords of `bfg_strtobool`. -/
def strtoboolKeywords : List (Bool × String) :=
  [(false, "disable"), (false, "false"), (false, "never"), (false, "none"), (false, "off"),
    (false, "no"), (false, "0"), (true, "enable"), (true, "always"), (true, "force"),
    (true, "true"), (true, "yes"), (true, "on")]

/-- `bfg_strtobool`: the value, and the text behind it, where there is one. -/
def bfgStrtobool (s : List UInt8) : Option (Bool × List UInt8) :=
  match strtoboolKeywords.find? fun k => CStr.beginsNoCase (literal k.2) s with
  | some (val, keyword) => some (val, s.drop (literal keyword).length)
  | none => (strtolRest s).map fun rest => (true, rest)

/-- `uri_get_param_bool2`; `BTS_UNKNOWN` is `none`. -/
def uriGetParamBool2 (uri param : List UInt8) : Option Bool :=
  (uriFindParam uri param).map fun (invert, value) =>
    let foundval :=
      match value.bind bfgStrtobool with
      | some (v, rest) => if isCalpha (firstChar rest) then true else v
      | none => true
    if invert then !foundval else foundval

/-- `uri_get_param_bool`. -/
def uriGetParamBool (uri : CStr) (param : String) (defval : Bool) : Bool :=
  (uriGetParamBool2 uri.bytes (literal param)).getD defval

/-! ## Domains -/

/-- How many slashes a text starts with. -/
def slashes (s : List UInt8) : ℕ := (s.takeWhile (· == 0x2f)).length

/-- Where `extract_domain` takes the path to begin, leaving out the slashes of a scheme. -/
def pathBegin (uri : List UInt8) : Option ℕ :=
  match memchr 0x2f uri 1 with
  | none => none
  | some p =>
    if uri[p - 1]? = some 0x3a then memchr 0x2f uri (p + slashes (uri.drop p)) else some p

/-- Where it first takes the host and its port to end: at the path, or else at what may stand
behind them. -/
def hostEnd (uri : List UInt8) : ℕ :=
  (pathBegin uri).getD ((memchr 0x3f uri 0).getD ((memchr 0x23 uri 0).getD uri.length))

/-- Where the host ends if digits behind a colon are a port. -/
def portBegin (uri : List UInt8) (p : ℕ) : ℕ :=
  match memrchr 0x3a (uri.take p) with
  | none => p
  | some q =>
    let port := (uri.take p).drop (q + 1)
    if port.all isDigit && port != [] then q else p

/-- Where the scheme ends if there is a colon behind something other than digits. -/
def schemeEnd (uri : List UInt8) (p : ℕ) : ℕ :=
  match memchr 0x3a (uri.take p) 0 with
  | none => 0
  | some c => if c = 0 || !(uri.take c).all isDigit then c + 1 else 0

/-- The text from one place to another. -/
def slice (s : List UInt8) (b p : ℕ) : List UInt8 := (s.take p).drop b

/-- `extract_domain`.  It reads behind the terminator of an empty URI, and where slashes reach
beyond the place that it takes for the end of the host. -/
def extractDomain (uri : List UInt8) : Option (List UInt8) :=
  if uri = [] then none
  else
    let s := hostEnd uri
    let p := portBegin uri s
    let b := schemeEnd uri p
    let b := b + slashes (slice uri b (p + 1))
    if p < b then none
    else
      let (b, p) :=
        if 1 < p - b && uri[b]? == some 0x5b && uri[p - 1]? == some 0x5d then (b + 1, p - 1)
        else if (slice uri b p).contains 0x3a then (b, s)
        else (b, p)
      let p := if b < p && uri[p - 1]? == some 0x2e then p - 1 else p
      some (slice uri b p)

/-- The loop of `get_registered_domain`, from the end of the name. -/
def registeredLoop (fqdn : List UInt8) : List UInt8 → List UInt8 → ℕ → List UInt8
  | [], _, _ => fqdn
  | c :: rest, suffix, dots =>
    if c = 0x2e then
      if 2 ≤ dots + 1 && 5 < suffix.length then suffix
      else registeredLoop fqdn rest (c :: suffix) (dots + 1)
    else if !(dots != 0 || isCalpha c) then fqdn
    else registeredLoop fqdn rest (c :: suffix) dots

/-- `get_registered_domain`. -/
def registeredDomain (fqdn : List UInt8) : List UInt8 := registeredLoop fqdn fqdn.reverse [] 0

/-- The same registered domain, without regard to case. -/
def sameDomain (a b : List UInt8) : Bool :=
  (registeredDomain a).length == (registeredDomain b).length &&
    (registeredDomain a).map CStr.tolower == (registeredDomain b).map CStr.tolower

theorem sameDomain_iff {a b : List UInt8} : sameDomain a b = true ↔
    (registeredDomain a).map CStr.tolower = (registeredDomain b).map CStr.tolower := by
  rw [sameDomain, Bool.and_eq_true, beq_iff_eq, beq_iff_eq]
  refine and_iff_right_of_imp fun h => ?_
  simpa using congrArg List.length h

/-- `match_domains`. -/
def matchDomains (a b : List UInt8) : Option Bool :=
  match extractDomain a, extractDomain b with
  | some aDomain, some bDomain => some (sameDomain aDomain bDomain)
  | _, _ => none

/-! ## Addresses -/

/-- The text behind the first two slashes. -/
def afterSlashes (url : List UInt8) : List UInt8 :=
  match strstr [0x2f, 0x2f] url with
  | none => url
  | some i => url.drop (i + 2)

/-- The colon before the port; it is looked for behind the brackets of an IPv6 address. -/
def portColon (urlBegin : List UInt8) : Option ℕ :=
  let ipv6End :=
    match memchr 0x5b urlBegin 0, memchr 0x5d urlBegin 0 with
    | some i, some j => if i < j then j else 0
    | _, _ => 0
  memchr 0x3a urlBegin ipv6End

/-- `extract_sockaddr`: the address and the port. -/
def extractSockaddr (url : List UInt8) : Option (List UInt8 × List UInt8) :=
  let urlBegin := afterSlashes url
  let urlEnd := portColon urlBegin
  let urlLen := urlEnd.getD urlBegin.length
  let port := urlEnd.map fun e => urlBegin.drop (e + 1)
  if port = some [] || urlLen = 0 then none
  else
    some (urlBegin.take (min urlLen 255),
      (port.map fun text => (text.take 5).takeWhile (· != 0x2f)).getD (literal "80"))

/-- The host of `http://<sockaddr>`, as cURL reads it: what stands behind the last `@`, before
the first `/`, `?` or `#`, without brackets or a port. -/
def urlHost (sockaddr : List UInt8) : List UInt8 :=
  let authority := sockaddr.takeWhile fun c => c != 0x2f && c != 0x3f && c != 0x23
  let host :=
    match memrchr 0x40 authority with
    | none => authority
    | some i => authority.drop (i + 1)
  if firstChar host = 0x5b then (host.drop 1).takeWhile (· != 0x5d)
  else host.takeWhile (· != 0x3a)

end MassGridMiner

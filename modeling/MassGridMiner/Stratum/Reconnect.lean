import MassGridMiner.Stratum.Address
import MassGridMiner.Stratum.Json

/-!
# Where a pool may send the miner

With `client.reconnect` a pool names an address and a port.  The address is followed if it has
the registered domain of the pool's URI; it is then put together with the port and read again,
by another reader.  The two may find different hosts in it.

## Main definitions

* `parseReconnect` — the request.
* `KeepsDomain` — the host that is contacted has the registered domain of the pool.
* `ReadersAgree` — the address leads to a host with the registered domain that is found in it.
* `PlainAddress` — an address that does.
-/

namespace MassGridMiner

/-- The part of `struct pool` that says where the pool is. -/
structure ReconnectPool where
  rpcUrl : CStr
  sockaddrUrl : List UInt8
  stratumUrl : List UInt8
  stratumPort : List UInt8

/-- `pool_may_redirect_to`. -/
def poolMayRedirectTo (pool : ReconnectPool) (uri : CStr) : Option Bool :=
  if uriGetParamBool pool.rpcUrl "redirect" false then some true
  else matchDomains pool.rpcUrl.bytes uri.bytes

/-- The port of a request, as it is printed; `json_number_value` is narrowed to an
`unsigned`. -/
def reconnectPort (pool : ReconnectPool) (val : Option Json) : List UInt8 :=
  match Json.arrayGet val 1 with
  | some (.integer n) => literal (toString (jsonNumberValue (some (.integer n))).toUInt32)
  | some (.real x) => literal (toString (jsonNumberValue (some (.real x))).toUInt32)
  | some (.string port) => port.bytes
  | _ => pool.stratumPort

/-- The address and the port in one text, cut to what the buffer holds. -/
def reconnectAddress (url port : List UInt8) : List UInt8 := (url ++ 0x3a :: port).take 255

theorem length_reconnectAddress (url port : List UInt8) :
    (reconnectAddress url port).length ≤ 255 := List.length_take_le _ _

/-- `parse_reconnect`, up to the restart: the pool with the address that it will be contacted
at, if the request is followed. -/
def parseReconnect (optDisableClientReconnect : Bool) (pool : ReconnectPool) (val : Option Json) :
    Option ReconnectPool :=
  if optDisableClientReconnect then none
  else
    let url :=
      match jsonArrayString val 0 with
      | none => some pool.sockaddrUrl
      | some url => if poolMayRedirectTo pool url = some true then some url.bytes else none
    url.bind fun url =>
      (extractSockaddr (reconnectAddress url (reconnectPort pool val))).map fun r =>
        { pool with sockaddrUrl := r.1, stratumUrl := r.1, stratumPort := r.2 }

/-- An address that a pool may redirect to is contacted at a host with the registered domain
of the pool. -/
def KeepsDomain (optDisableClientReconnect : Bool) (pool : ReconnectPool) (val : Option Json) :
    Prop :=
  ∀ url, jsonArrayString val 0 = some url → uriGetParamBool pool.rpcUrl "redirect" false = false →
    poolMayRedirectTo pool url = some true →
      ∀ pool', parseReconnect optDisableClientReconnect pool val = some pool' →
        ∀ domain, extractDomain pool.rpcUrl.bytes = some domain →
          sameDomain (urlHost pool'.sockaddrUrl) domain = true

/-- An address leads, with the port behind it, to a host with the registered domain that
`extract_domain` finds in it. -/
def ReadersAgree (url port : List UInt8) : Prop :=
  ∀ domain host, extractDomain url = some domain → LeadsTo (reconnectAddress url port) host →
    sameDomain host domain = true

/-! ## When the domain is kept -/

theorem matchDomains_eq_true {a b : List UInt8} (H : matchDomains a b = some true) :
    ∃ aDomain bDomain, extractDomain a = some aDomain ∧ extractDomain b = some bDomain ∧
      sameDomain aDomain bDomain = true := by
  rw [matchDomains] at H
  split at H
  next aDomain bDomain ha hb => exact ⟨aDomain, bDomain, ha, hb, Option.some.inj H⟩
  next => cases H

theorem parseReconnect_of_url {pool : ReconnectPool} {val : Option Json} {url : CStr}
    (hurl : jsonArrayString val 0 = some url) (hmay : poolMayRedirectTo pool url = some true) :
    parseReconnect false pool val =
      (extractSockaddr (reconnectAddress url.bytes (reconnectPort pool val))).map fun r =>
        { pool with sockaddrUrl := r.1, stratumUrl := r.1, stratumPort := r.2 } := by
  simp [parseReconnect, hurl, hmay]

/-- What `pool_may_redirect_to` has made sure of. -/
theorem sameDomain_of_mayRedirect {pool : ReconnectPool} {url : CStr}
    (hplain : uriGetParamBool pool.rpcUrl "redirect" false = false)
    (hmay : poolMayRedirectTo pool url = some true) :
    ∃ poolDomain urlDomain, extractDomain pool.rpcUrl.bytes = some poolDomain ∧
      extractDomain url.bytes = some urlDomain ∧ sameDomain poolDomain urlDomain = true := by
  rw [poolMayRedirectTo, hplain] at hmay
  exact matchDomains_eq_true hmay

/-! ## Plain addresses -/

/-- A host name without anything that separates the parts of a URL, or a dot at its end. -/
structure PlainHost (host : List UInt8) : Prop where
  ne_nil : host ≠ []
  plain : ∀ c ∈ ([0x2f, 0x3a, 0x3f, 0x23, 0x40, 0x5b, 0x5d] : List UInt8), c ∉ host
  no_dot : host.getLast? ≠ some 0x2e

/-- Nothing, or a scheme that is not a number, with its slashes. -/
inductive PlainScheme : List UInt8 → Prop
  | empty : PlainScheme []
  | named (scheme : List UInt8) (plain : ∀ c ∈ ([0x2f, 0x3a, 0x3f, 0x23] : List UInt8), c ∉ scheme)
      (not_digits : scheme.all isDigit = false) : PlainScheme (scheme ++ [0x3a, 0x2f, 0x2f])

/-- Nothing, or a number behind a colon. -/
inductive PlainPort : List UInt8 → Prop
  | empty : PlainPort []
  | number (digits : List UInt8) (ne_nil : digits ≠ []) (all_digit : digits.all isDigit = true) :
      PlainPort (0x3a :: digits)

/-- Nothing, or anything behind a slash. -/
inductive PlainPath : List UInt8 → Prop
  | empty : PlainPath []
  | slash (path : List UInt8) : PlainPath (0x2f :: path)

/-- An address is plain if it is a host with or without a scheme before it and a port and a
path behind it; it fits into the buffer as far as the host, there are no two slashes but those
of the scheme, and neither a slash nor an `@` in the text of the port that goes with it. -/
structure PlainAddress (url port : List UInt8) : Prop where
  parts : ∃ scheme host hostPort path, url = scheme ++ host ++ hostPort ++ path ∧
    PlainScheme scheme ∧ PlainHost host ∧ PlainPort hostPort ∧ PlainPath path ∧
      (scheme ++ host).length ≤ 255 ∧ (scheme = [] → ¬ [0x2f, 0x2f] <:+: path)
  no_slash : 0x2f ∉ port
  no_at : 0x40 ∉ port

section
variable {scheme host hostPort path port : List UInt8}

theorem isDigit_ne {c d : UInt8} (H : isDigit c = true) (hd : isDigit d = false) : c ≠ d := by
  rintro rfl
  rw [H] at hd
  cases hd

theorem PlainPort.notMem (H : PlainPort hostPort) {c : UInt8} (hdigit : isDigit c = false)
    (hcolon : c ≠ 0x3a) : c ∉ hostPort := by
  cases H with
  | empty => exact List.not_mem_nil
  | number digits _ hall =>
      rw [List.mem_cons, not_or]
      refine ⟨hcolon, fun hmem => ?_⟩
      exact isDigit_ne (List.all_eq_true.mp hall c hmem) hdigit rfl

theorem PlainHost.cons (H : PlainHost host) : ∃ c rest, host = c :: rest ∧ c ≠ 0x2f ∧ c ≠ 0x5b := by
  cases host with
  | nil => exact absurd rfl H.ne_nil
  | cons c rest =>
      refine ⟨c, rest, rfl, ?_, ?_⟩
      · rintro rfl
        exact H.plain 0x2f (by decide) List.mem_cons_self
      · rintro rfl
        exact H.plain 0x5b (by decide) List.mem_cons_self

theorem slashes_cons (s : List UInt8) : slashes (0x2f :: s) = slashes s + 1 := by
  rw [slashes, slashes, List.takeWhile_cons_of_pos (by rfl), List.length_cons]

theorem PlainHost.slashes_eq (H : PlainHost host) (rest : List UInt8) :
    slashes (host ++ rest) = 0 := by
  obtain ⟨c, tail, rfl, hc, -⟩ := H.cons
  rw [slashes, List.cons_append, List.takeWhile_cons_of_neg (by simpa using hc)]
  rfl

theorem PlainPort.getLast_ne (H : PlainPort hostPort) (hhost : PlainHost host) :
    (host ++ hostPort)[(host ++ hostPort).length - 1]? ≠ some 0x3a := by
  rw [← List.getLast?_eq_getElem?]
  intro hlast
  cases H with
  | empty =>
      rw [List.append_nil] at hlast
      exact hhost.plain 0x3a (by decide) (List.mem_of_getLast? hlast)
  | number digits hne hall =>
      rw [List.append_cons, List.getLast?_append_of_ne_nil _ hne] at hlast
      exact isDigit_ne (List.all_eq_true.mp hall _ (List.mem_of_getLast? hlast)) (by decide) rfl

theorem notMem_authority (hhost : PlainHost host) (hport : PlainPort hostPort) {c : UInt8}
    (hc : c ∈ ([0x2f, 0x3f, 0x23, 0x40] : List UInt8)) : c ∉ host ++ hostPort := by
  have hseparates : ∀ c ∈ ([0x2f, 0x3f, 0x23, 0x40] : List UInt8),
      c ∈ ([0x2f, 0x3a, 0x3f, 0x23, 0x40, 0x5b, 0x5d] : List UInt8) ∧ isDigit c = false ∧
        c ≠ 0x3a := by
    decide +kernel
  obtain ⟨hplain, hdigit, hcolon⟩ := hseparates c hc
  rw [List.mem_append, not_or]
  exact ⟨hhost.plain c hplain, hport.notMem hdigit hcolon⟩

theorem slash_notMem_scheme (hplain : ∀ c ∈ ([0x2f, 0x3a, 0x3f, 0x23] : List UInt8), c ∉ scheme) :
    0x2f ∉ scheme ++ [0x3a] := by
  rw [List.mem_append, List.mem_singleton, not_or]
  exact ⟨hplain 0x2f (by decide), by decide⟩

/-- Without a scheme the path begins at the first slash. -/
theorem pathBegin_host (hhost : PlainHost host) (hport : PlainPort hostPort)
    (hpath : PlainPath path) :
    pathBegin (host ++ hostPort ++ path) =
      if path = [] then none else some (host ++ hostPort).length := by
  have hslash := notMem_authority hhost hport (c := 0x2f) (by decide)
  cases hpath with
  | empty =>
      have hnone : memchr 0x2f (host ++ hostPort) 1 = none :=
        memchr_eq_none fun h => hslash (List.mem_of_mem_drop h)
      rw [List.append_nil, pathBegin, hnone, if_pos rfl]
  | slash path =>
      have hlen : 1 ≤ (host ++ hostPort).length := by
        have := List.length_pos_iff.mpr hhost.ne_nil
        rw [List.length_append]
        omega
      have hlast : (host ++ hostPort ++ 0x2f :: path)[(host ++ hostPort).length - 1]? ≠
          some 0x3a := by
        rw [List.getElem?_append_left (by omega)]
        exact hport.getLast_ne hhost
      rw [pathBegin, memchr_append_cons hlen fun h => hslash (List.mem_of_mem_drop h)]
      dsimp only
      rw [if_neg hlast, if_neg (List.cons_ne_nil _ _)]

/-- The slashes of a scheme are left out, and the next one looked for. -/
theorem pathBegin_scheme (hplain : ∀ c ∈ ([0x2f, 0x3a, 0x3f, 0x23] : List UInt8), c ∉ scheme)
    (hhost : PlainHost host) (rest : List UInt8) :
    pathBegin (scheme ++ [0x3a, 0x2f, 0x2f] ++ (host ++ rest)) =
      memchr 0x2f (scheme ++ [0x3a, 0x2f, 0x2f] ++ (host ++ rest))
        (scheme ++ [0x3a, 0x2f, 0x2f]).length := by
  have hfirst := slash_notMem_scheme hplain
  have hlen : 1 ≤ (scheme ++ [0x3a]).length := by simp
  have hcolon : (scheme ++ [0x3a] ++ 0x2f :: 0x2f :: (host ++ rest))[(scheme ++
      [0x3a]).length - 1]? = some 0x3a := by
    rw [List.getElem?_append_left (by omega), ← List.getLast?_eq_getElem?, List.getLast?_concat]
  have htwo : slashes ((scheme ++ [0x3a] ++ 0x2f :: 0x2f :: (host ++ rest)).drop
      (scheme ++ [0x3a]).length) = 2 := by
    rw [List.drop_left, slashes_cons, slashes_cons, hhost.slashes_eq]
  have hsplit : scheme ++ [0x3a, 0x2f, 0x2f] ++ (host ++ rest) =
      scheme ++ [0x3a] ++ 0x2f :: 0x2f :: (host ++ rest) := by simp
  rw [hsplit, pathBegin, memchr_append_cons hlen fun h => hfirst (List.mem_of_mem_drop h)]
  dsimp only
  rw [if_pos hcolon, htwo]
  congr 1
  simp

/-- The path begins behind the host and its port. -/
theorem pathBegin_eq (hscheme : PlainScheme scheme) (hhost : PlainHost host)
    (hport : PlainPort hostPort) (hpath : PlainPath path) :
    pathBegin (scheme ++ host ++ hostPort ++ path) =
      if path = [] then none else some (scheme ++ host ++ hostPort).length := by
  cases hscheme with
  | empty => exact pathBegin_host hhost hport hpath
  | named scheme hplain hnamed =>
      have hslash := notMem_authority hhost hport (c := 0x2f) (by decide)
      have hbegin := pathBegin_scheme hplain hhost (hostPort ++ path)
      simp only [← List.append_assoc] at hbegin
      rw [hbegin]
      cases hpath with
      | empty =>
          rw [List.append_nil, if_pos rfl, List.append_assoc]
          refine memchr_eq_none ?_
          rwa [List.drop_left]
      | slash path =>
          rw [if_neg (List.cons_ne_nil _ _), List.append_assoc (scheme ++ [0x3a, 0x2f, 0x2f])]
          refine memchr_append_cons ?_ ?_ path
          · simp
          · rwa [List.drop_left]

/-- The host and its port end at the path. -/
theorem hostEnd_eq (hscheme : PlainScheme scheme) (hhost : PlainHost host)
    (hport : PlainPort hostPort) (hpath : PlainPath path) :
    hostEnd (scheme ++ host ++ hostPort ++ path) = (scheme ++ host ++ hostPort).length := by
  rw [hostEnd, pathBegin_eq hscheme hhost hport hpath]
  cases hpath with
  | slash path => rw [if_neg (List.cons_ne_nil _ _), Option.getD_some]
  | empty =>
      have hnone : ∀ c ∈ ([0x3f, 0x23] : List UInt8),
          memchr c (scheme ++ host ++ hostPort) 0 = none := by
        intro c hc
        have hseparates : c ∈ ([0x2f, 0x3f, 0x23, 0x40] : List UInt8) ∧
            c ∈ ([0x2f, 0x3a, 0x3f, 0x23] : List UInt8) ∧
              c ∉ ([0x3a, 0x2f, 0x2f] : List UInt8) := by
          revert c
          decide +kernel
        refine memchr_eq_none ?_
        rw [List.drop_zero, List.append_assoc, List.mem_append, not_or]
        refine ⟨?_, notMem_authority hhost hport hseparates.1⟩
        cases hscheme with
        | empty => exact List.not_mem_nil
        | named scheme hplain _ =>
            rw [List.mem_append, not_or]
            exact ⟨hplain c hseparates.2.1, hseparates.2.2⟩
      rw [if_pos rfl, List.append_nil, hnone 0x3f (by decide), hnone 0x23 (by decide)]
      rfl

/-- The number behind the host is its port. -/
theorem portBegin_eq (hscheme : PlainScheme scheme) (hhost : PlainHost host)
    (hport : PlainPort hostPort) (rest : List UInt8) :
    portBegin (scheme ++ host ++ hostPort ++ rest) (scheme ++ host ++ hostPort).length =
      (scheme ++ host).length := by
  rw [portBegin, List.take_left]
  cases hport with
  | number digits hne hall =>
      have hcolon : 0x3a ∉ digits := fun hmem =>
        isDigit_ne (List.all_eq_true.mp hall _ hmem) (by decide) rfl
      rw [memrchr_append_cons _ hcolon]
      dsimp only
      have hdrop :
          (scheme ++ host ++ 0x3a :: digits).drop ((scheme ++ host).length + 1) = digits := by
        rw [← List.drop_drop, List.drop_left]
        rfl
      rw [hdrop, if_pos]
      simp [hall, hne]
  | empty =>
      rw [List.append_nil]
      cases hscheme with
      | empty =>
          have hcolon : 0x3a ∉ host := hhost.plain 0x3a (by decide)
          rw [List.nil_append, memrchr_eq_none hcolon]
      | named scheme hplain _ =>
          have hcolon : 0x3a ∉ 0x2f :: 0x2f :: host := by
            simp only [List.mem_cons, not_or]
            exact ⟨by decide, by decide, hhost.plain 0x3a (by decide)⟩
          have hrest : scheme ++ [0x3a, 0x2f, 0x2f] ++ host =
              scheme ++ 0x3a :: 0x2f :: 0x2f :: host := by simp
          rw [hrest, memrchr_append_cons _ hcolon]
          dsimp only
          have hdrop : (scheme ++ 0x3a :: 0x2f :: 0x2f :: host).drop (scheme.length + 1) =
              0x2f :: 0x2f :: host := by
            rw [← List.drop_drop, List.drop_left]
            rfl
          rw [hdrop, if_neg]
          simp [isDigit]

theorem schemeEnd_named {scheme : List UInt8}
    (hplain : ∀ c ∈ ([0x2f, 0x3a, 0x3f, 0x23] : List UInt8), c ∉ scheme)
    (hnamed : scheme.all isDigit = false) (host rest : List UInt8) :
    schemeEnd (scheme ++ [0x3a, 0x2f, 0x2f] ++ host ++ rest)
      (scheme ++ [0x3a, 0x2f, 0x2f] ++ host).length = scheme.length + 1 := by
  have hcolon : 0x3a ∉ scheme := hplain 0x3a (by decide)
  have hfront : scheme ++ [0x3a, 0x2f, 0x2f] ++ host ++ rest =
      scheme ++ ([0x3a, 0x2f, 0x2f] ++ host ++ rest) := by simp
  have hhead : scheme ++ [0x3a, 0x2f, 0x2f] ++ host =
      scheme ++ 0x3a :: 0x2f :: 0x2f :: host := by simp
  have hfound : memchr 0x3a (scheme ++ [0x3a, 0x2f, 0x2f] ++ host) 0 = some scheme.length := by
    rw [hhead, memchr_append_cons (Nat.zero_le _) fun h => hcolon (List.mem_of_mem_drop h)]
  rw [schemeEnd, List.take_left, hfound, hfront]
  dsimp only
  rw [List.take_left, hnamed, if_pos (by simp)]

/-- Behind the scheme and its slashes the host begins. -/
theorem schemeEnd_eq (hscheme : PlainScheme scheme) (hhost : PlainHost host) (rest : List UInt8) :
    schemeEnd (scheme ++ host ++ rest) (scheme ++ host).length +
      slashes (slice (scheme ++ host ++ rest)
        (schemeEnd (scheme ++ host ++ rest) (scheme ++ host).length)
        ((scheme ++ host).length + 1)) = scheme.length := by
  have htake : (scheme ++ host ++ rest).take ((scheme ++ host).length + 1) =
      scheme ++ host ++ rest.take 1 := List.take_length_add_append 1
  rw [slice, htake]
  cases hscheme with
  | empty =>
      have hcolon : 0x3a ∉ host := hhost.plain 0x3a (by decide)
      have hnone : schemeEnd (host ++ rest) host.length = 0 := by
        rw [schemeEnd, List.take_left, memchr_eq_none fun h => hcolon (List.mem_of_mem_drop h)]
      rw [List.nil_append, hnone, List.drop_zero, hhost.slashes_eq]
      rfl
  | named scheme hplain hnamed =>
      have hdrop : (scheme ++ [0x3a, 0x2f, 0x2f] ++ host ++ rest.take 1).drop (scheme.length + 1) =
          0x2f :: 0x2f :: (host ++ rest.take 1) := by
        rw [← List.drop_drop, List.append_assoc, List.append_assoc, List.drop_left]
        rfl
      rw [schemeEnd_named hplain hnamed, hdrop, slashes_cons, slashes_cons, hhost.slashes_eq,
        List.length_append]
      rfl

/-- **`extract_domain` finds the host of a plain address.** -/
theorem extractDomain_eq (hscheme : PlainScheme scheme) (hhost : PlainHost host)
    (hport : PlainPort hostPort) (hpath : PlainPath path) :
    extractDomain (scheme ++ host ++ hostPort ++ path) = some host := by
  have hne : scheme ++ host ++ hostPort ++ path ≠ [] := by simp [hhost.ne_nil]
  have hbegin := schemeEnd_eq hscheme hhost (hostPort ++ path)
  rw [← List.append_assoc] at hbegin
  obtain ⟨c, tail, hcons, -, hbracket⟩ := hhost.cons
  have hpos := List.length_pos_iff.mpr hhost.ne_nil
  have hlen : (scheme ++ host).length = scheme.length + host.length := List.length_append
  have hslice : slice (scheme ++ host ++ hostPort ++ path) scheme.length (scheme ++ host).length =
      host := by
    rw [slice, List.append_assoc _ hostPort, List.take_left, List.drop_left]
  have hfirst : (scheme ++ host ++ hostPort ++ path)[scheme.length]? = some c := by
    rw [List.append_assoc _ hostPort, List.append_assoc, List.getElem?_append_right le_rfl,
      Nat.sub_self, hcons]
    rfl
  have hlast : (scheme ++ host ++ hostPort ++ path)[(scheme ++ host).length - 1]? =
      host.getLast? := by
    rw [List.append_assoc _ hostPort, List.getElem?_append_left (by omega),
      ← List.getLast?_eq_getElem?, List.getLast?_append_of_ne_nil _ hhost.ne_nil]
  have hcolon : host.contains 0x3a = false := by
    simpa using hhost.plain 0x3a (by decide)
  rw [extractDomain, if_neg hne]
  dsimp only
  rw [hostEnd_eq hscheme hhost hport hpath, portBegin_eq hscheme hhost hport, hbegin,
    if_neg (by omega)]
  have hopen : (decide (1 < (scheme ++ host).length - scheme.length) &&
      (scheme ++ host ++ hostPort ++ path)[scheme.length]? == some 0x5b &&
      (scheme ++ host ++ hostPort ++ path)[(scheme ++ host).length - 1]? == some 0x5d) = false := by
    rw [hfirst]
    simp [hbracket]
  have hdot : (decide (scheme.length < (scheme ++ host).length) &&
      (scheme ++ host ++ hostPort ++ path)[(scheme ++ host).length - 1]? == some 0x2e) = false := by
    rw [hlast]
    simp [hhost.no_dot]
  rw [hopen, hslice, hcolon]
  simp only [Bool.false_eq_true, if_false, hdot, hslice]

/-- What stands behind the host of an address: nothing, a colon or a path. -/
def Behind (rest : List UInt8) : Prop :=
  (rest = [] ∨ ∃ tail, rest = 0x3a :: tail ∨ rest = 0x2f :: tail) ∧
    0x40 ∉ rest.takeWhile fun c => c != 0x2f && c != 0x3f && c != 0x23

theorem Behind.take {rest : List UInt8} (H : Behind rest) (n : ℕ) : Behind (rest.take n) := by
  refine ⟨?_, fun hmem => H.2 ?_⟩
  · cases n with
    | zero => exact .inl rfl
    | succ n =>
        obtain rfl | ⟨tail, rfl | rfl⟩ := H.1
        · exact .inl rfl
        · exact .inr ⟨tail.take n, .inl rfl⟩
        · exact .inr ⟨tail.take n, .inr rfl⟩
  · rw [← List.take_takeWhile] at hmem
    exact List.mem_of_mem_take hmem

/-- cURL takes the host of a plain address for the host. -/
theorem urlHost_eq (hhost : PlainHost host) {rest : List UInt8} (hrest : Behind rest) :
    urlHost (host ++ rest) = host := by
  have hplain : ∀ c ∈ host, (c != 0x2f && c != 0x3f && c != 0x23) = true := by
    intro c hc
    have hne : ∀ d ∈ ([0x2f, 0x3a, 0x3f, 0x23, 0x40, 0x5b, 0x5d] : List UInt8), c ≠ d := by
      rintro d hd rfl
      exact hhost.plain c hd hc
    simp [hne 0x2f (by decide), hne 0x3f (by decide), hne 0x23 (by decide)]
  have hauthority : ((host ++ rest).takeWhile fun c => c != 0x2f && c != 0x3f && c != 0x23) =
      host ++ rest.takeWhile fun c => c != 0x2f && c != 0x3f && c != 0x23 :=
    List.takeWhile_append_of_pos hplain
  have hat : 0x40 ∉ host ++ rest.takeWhile fun c => c != 0x2f && c != 0x3f && c != 0x23 := by
    rw [List.mem_append, not_or]
    exact ⟨hhost.plain 0x40 (by decide), hrest.2⟩
  obtain ⟨c, tail, hcons, -, hbracket⟩ := hhost.cons
  have hfirst : ∀ v, firstChar (host ++ v) ≠ 0x5b := by
    intro v
    rw [hcons]
    exact hbracket
  have hcolon : ∀ c ∈ host, (c != 0x3a) = true := by
    intro c hc
    have hne : c ≠ 0x3a := by
      rintro rfl
      exact hhost.plain 0x3a (by decide) hc
    simpa using hne
  rw [urlHost, hauthority, memrchr_eq_none hat, if_neg (hfirst _),
    List.takeWhile_append_of_pos hcolon]
  obtain rfl | ⟨v, rfl | rfl⟩ := hrest.1
  · simp
  · simp
  · simp

/-- Behind the two slashes of the scheme, or from the start, the address is host and rest;
`extract_sockaddr` cuts no part of the host. -/
theorem extractSockaddr_host {sockaddr portText rest : List UInt8} (hscheme : PlainScheme scheme)
    (hhost : PlainHost host) (hlen : host.length ≤ 255)
    (hslashes : scheme = [] → ¬ [0x2f, 0x2f] <:+: host ++ rest)
    (H : extractSockaddr (scheme ++ (host ++ rest)) = some (sockaddr, portText)) :
    ∃ n, sockaddr = host ++ rest.take n := by
  have hfront : AddressFront scheme (host ++ rest) := by
    cases hscheme with
    | empty => exact .empty _ (hslashes rfl)
    | named scheme hplain _ =>
        have hsplit : scheme ++ [0x3a, 0x2f, 0x2f] = scheme ++ [0x3a] ++ [0x2f, 0x2f] := by simp
        rw [hsplit]
        refine .slashes _ _ fun hpair => ?_
        exact absurd (infix_pair_append (slash_notMem_scheme hplain) hpair) (by decide)
  have hcolon : host.length ≤ (portColon (host ++ rest)).getD (host ++ rest).length := by
    cases hend : portColon (host ++ rest) with
    | none =>
        rw [Option.getD_none, List.length_append]
        omega
    | some i =>
        have hget := getElem?_of_memchr hend
        by_contra hlt
        rw [Option.getD_some, not_le] at hlt
        rw [List.getElem?_append_left hlt] at hget
        exact hhost.plain 0x3a (by decide) (List.mem_of_getElem? hget)
  rw [extractSockaddr, hfront.afterSlashes_eq] at H
  split at H
  next => cases H
  next =>
    obtain ⟨rfl, -⟩ := Prod.mk.inj (Option.some.inj H)
    refine ⟨min ((portColon (host ++ rest)).getD (host ++ rest).length) 255 - host.length, ?_⟩
    rw [List.take_append, List.take_of_length_le (by omega)]

theorem behind_rest (hport : PlainPort hostPort) (hpath : PlainPath path) (hat : 0x40 ∉ port) :
    Behind (hostPort ++ path ++ 0x3a :: port) := by
  have hatPort : 0x40 ∉ hostPort := hport.notMem (by decide) (by decide)
  refine ⟨.inr ?_, ?_⟩
  · cases hport with
    | number digits _ _ => exact ⟨_, .inl rfl⟩
    | empty =>
        cases hpath with
        | empty => exact ⟨_, .inl rfl⟩
        | slash path => exact ⟨_, .inr rfl⟩
  · cases hpath with
    | empty =>
        refine fun hmem => ?_
        have hrest := (List.takeWhile_prefix _).subset hmem
        simp only [List.append_nil, List.mem_append, List.mem_cons] at hrest
        obtain h | h | h := hrest
        · exact hatPort h
        · exact absurd h (by decide)
        · exact hat h
    | slash path =>
        have hall : ∀ c ∈ hostPort, (c != 0x2f && c != 0x3f && c != 0x23) = true := by
          intro c hc
          have hne : ∀ d, isDigit d = false → d ≠ 0x3a → c ≠ d := by
            rintro d hdigit hcolon rfl
            exact hport.notMem hdigit hcolon hc
          simp [hne 0x2f (by decide) (by decide), hne 0x3f (by decide) (by decide),
            hne 0x23 (by decide) (by decide)]
        rw [List.append_assoc, List.takeWhile_append_of_pos hall]
        simpa using hatPort

/-- **In a plain address the two readers find the same host.** -/
theorem readersAgree_of_plainAddress {url port : List UInt8} (H : PlainAddress url port) :
    ReadersAgree url port := by
  obtain ⟨scheme, host, hostPort, path, rfl, hscheme, hhost, hport, hpath, hroom, hslashes⟩ :=
    H.parts
  intro domain contacted hdomain hleads
  rw [extractDomain_eq hscheme hhost hport hpath] at hdomain
  obtain rfl := Option.some.inj hdomain
  obtain ⟨sockaddr, portText, haddress, rfl⟩ :=
    (leadsTo_iff (length_reconnectAddress _ _)).mp hleads
  set rest := hostPort ++ path ++ 0x3a :: port with hrest
  have hcut : reconnectAddress (scheme ++ host ++ hostPort ++ path) port =
      scheme ++ (host ++ rest.take (255 - (scheme ++ host).length)) := by
    have hwhole : scheme ++ host ++ hostPort ++ path ++ 0x3a :: port = scheme ++ host ++ rest := by
      simp [hrest]
    rw [reconnectAddress, hwhole, List.take_append, List.take_of_length_le hroom,
      List.append_assoc]
  have hbehind := (behind_rest hport hpath H.no_at).take (255 - (scheme ++ host).length)
  have hnone : scheme = [] →
      ¬ [0x2f, 0x2f] <:+: host ++ rest.take (255 - (scheme ++ host).length) := by
    intro hempty hinfix
    have hfront : host ++ rest.take (255 - (scheme ++ host).length) <+: host ++ rest :=
      (List.prefix_append_right_inj host).mpr (List.take_prefix _ rest)
    have hwhole : host ++ rest = host ++ hostPort ++ (path ++ 0x3a :: port) := by simp [hrest]
    have hpair := hinfix.trans hfront.isInfix
    rw [hwhole] at hpair
    have hslash := notMem_authority hhost hport (c := 0x2f) (by decide)
    have hport' : 0x2f ∉ 0x3a :: port := by
      rw [List.mem_cons, not_or]
      exact ⟨by decide, H.no_slash⟩
    exact hslashes hempty (infix_pair_of_append hport' (infix_pair_append hslash hpair))
  rw [hcut] at haddress
  have hlen : host.length ≤ 255 := by
    rw [List.length_append] at hroom
    omega
  obtain ⟨n, rfl⟩ := extractSockaddr_host hscheme hhost hlen hnone haddress
  rw [urlHost_eq hhost (hbehind.take n), sameDomain_iff]

end

/-- **When the domain is kept**: for a request with an address exactly as long as the address
that passes leads to a host with the registered domain that is found in it; and a plain address
always does. -/
theorem keepsDomain_iff (optDisableClientReconnect : Bool) (pool : ReconnectPool)
    (val : Option Json) :
    (KeepsDomain optDisableClientReconnect pool val ↔
      ∀ url, optDisableClientReconnect = false → jsonArrayString val 0 = some url →
        uriGetParamBool pool.rpcUrl "redirect" false = false →
          poolMayRedirectTo pool url = some true →
            ReadersAgree url.bytes (reconnectPort pool val)) ∧
      ∀ url port, PlainAddress url port → ReadersAgree url port := by
  refine ⟨⟨fun H url henabled hurl hplain hmay => ?_, fun H url hurl hplain hmay => ?_⟩,
    fun _ _ => readersAgree_of_plainAddress⟩
  · intro domain host hdomain hleads
    obtain ⟨poolDomain, urlDomain, hpool, hurlDomain, hsame⟩ :=
      sameDomain_of_mayRedirect hplain hmay
    obtain rfl := Option.some.inj (hdomain.symm.trans hurlDomain)
    obtain ⟨sockaddr, portText, haddress, rfl⟩ :=
      (leadsTo_iff (length_reconnectAddress _ _)).mp hleads
    have hparse := parseReconnect_of_url hurl hmay
    rw [haddress, Option.map_some, ← henabled] at hparse
    have hkept := H url hurl hplain hmay _ hparse poolDomain hpool
    rw [sameDomain_iff] at hkept hsame ⊢
    exact hkept.trans hsame
  · intro pool' hparse poolDomain hpool
    obtain ⟨poolDomain', urlDomain, hpool', hurlDomain, hsame⟩ :=
      sameDomain_of_mayRedirect hplain hmay
    obtain rfl := Option.some.inj (hpool.symm.trans hpool')
    cases optDisableClientReconnect with
    | true => cases hparse
    | false =>
        rw [parseReconnect_of_url hurl hmay] at hparse
        obtain ⟨⟨sockaddr, portText⟩, haddress, rfl⟩ := Option.map_eq_some_iff.mp hparse
        have hleads := (leadsTo_iff (length_reconnectAddress _ _)).mpr
          ⟨sockaddr, portText, haddress, rfl⟩
        have hagree := H url rfl hurl hplain hmay urlDomain _ hurlDomain hleads
        rw [sameDomain_iff] at hagree hsame ⊢
        exact hagree.trans hsame.symm

/-- A pool at pool.com. -/
def samplePool : ReconnectPool where
  rpcUrl := CStr.ofMem (literal "stratum+tcp://pool.com:3333")
  sockaddrUrl := literal "pool.com"
  stratumUrl := literal "pool.com"
  stratumPort := literal "3333"

/-- A request with an address only. -/
def reconnectTo (url : String) : Option Json := some (.array [.string (CStr.ofMem (literal url))])

/-- A request for another server of the pool, which the pool may make, leads there. -/
theorem keepsDomain_otherServer :
    poolMayRedirectTo samplePool (CStr.ofMem (literal "stratum+tcp://eu.pool.com:4444/work")) =
        some true ∧
      KeepsDomain false samplePool (reconnectTo "stratum+tcp://eu.pool.com:4444/work") := by
  refine ⟨by decide +kernel, (keepsDomain_iff false samplePool _).1.mpr ?_⟩
  rintro url - hurl - -
  obtain rfl := Option.some.inj hurl
  refine (keepsDomain_iff false samplePool none).2 _ _ ⟨?_, by decide +kernel, by decide +kernel⟩
  have hhost : PlainHost (literal "eu.pool.com") :=
    ⟨by decide +kernel, by decide +kernel, by decide +kernel⟩
  exact ⟨_, _, _, _, by decide +kernel,
    .named (literal "stratum+tcp") (by decide +kernel) (by decide +kernel), hhost,
    .number (literal "4444") (by decide +kernel) (by decide +kernel), .slash (literal "work"),
    by decide +kernel, by decide +kernel⟩

/-- The address pool.com/x//evil.com passes for one of pool.com, and evil.com is contacted. -/
theorem not_keepsDomain_slashes :
    ¬ KeepsDomain false samplePool (reconnectTo "pool.com/x//evil.com") := by
  intro H
  have hplain : uriGetParamBool samplePool.rpcUrl "redirect" false = false := by decide +kernel
  have hmay : poolMayRedirectTo samplePool (CStr.ofMem (literal "pool.com/x//evil.com")) =
      some true := by decide +kernel
  have haddress : extractSockaddr (reconnectAddress
      (CStr.ofMem (literal "pool.com/x//evil.com")).bytes samplePool.stratumPort) =
        some (literal "evil.com", literal "3333") := by decide +kernel
  have hdomain : extractDomain samplePool.rpcUrl.bytes = some (literal "pool.com") := by
    decide +kernel
  have hparse : parseReconnect false samplePool (reconnectTo "pool.com/x//evil.com") =
      (extractSockaddr (reconnectAddress (CStr.ofMem (literal "pool.com/x//evil.com")).bytes
        samplePool.stratumPort)).map fun r =>
          { samplePool with sockaddrUrl := r.1, stratumUrl := r.1, stratumPort := r.2 } :=
    parseReconnect_of_url rfl hmay
  rw [haddress, Option.map_some] at hparse
  have hkept := H _ rfl hplain hmay _ hparse _ hdomain
  exact absurd hkept (by decide +kernel)

end MassGridMiner

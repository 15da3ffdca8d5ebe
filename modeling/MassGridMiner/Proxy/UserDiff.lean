import MassGridMiner.Lib.CString
import MassGridMiner.Lib.Run
import MassGridMiner.Lib.Strtod
import MassGridMiner.Lib.WithNan
import MassGridMiner.Proxy.SetDifficulty

/-!
# The difficulties that users desire

A connection may be authorised for several users, and a user on several connections.  What a
connection desires is kept up to date when a user is added, and computed again when a user desires
something else.  Each entry of the relation is in a list of its connection and in one of its user.

## Main definitions

* `acceptDiff` — the difficulty that is set, from what `atof` makes of its text.
* `UserDiffs`, `UserDiffs.step` — users and connections, and what happens to them.
* `UserDiffs.Right` — what is expected of the lists, and of the difficulties.
* `UserDiffs.Sane` — the condition for that (`Proxy.UserDiffRuns`).
-/

namespace MassGridMiner

/-- A difficulty as a `float`, which may be no number. -/
abbrev PdiffValue := WithNan SharePdiff

/-- `minimum_pdiff`. -/
def minimumPdiff : ℚ := 1 / 2 ^ 32

instance : DecidablePred FloatRange := fun x =>
  inferInstanceAs (Decidable (x = 0 ∨ 1 / 2 ^ 149 ≤ x ∧ x ≤ fltMax))

/-- The `float` nearest to a number that is no smaller than `minimumPdiff`. -/
def roundFloat (x : ℚ) : SharePdiff :=
  let lastBit := Int.log 2 x - 23
  let y : ℚ := roundEven (x / 2 ^ lastBit) * 2 ^ lastBit
  if h : FloatRange y then ((⟨y, h⟩ : { x // FloatRange x }) : SharePdiff) else ⊤

/-- A `double` that is not negative is assigned to a `float`. -/
def toFloat : DoubleValue → PdiffValue
  | .nan => .nan
  | .num none => .num SharePdiff.zero
  | .num (some none) => .num ⊤
  | .num (some (some x)) => .num (roundFloat x)

/-- The difficulty that `proxy_set_diff` and `stratumsrv_init_diff` set from what `atof` returns, or
none where it is invalid. -/
def acceptDiff (nv : DoubleValue) : Option PdiffValue :=
  if nv.lt (DoubleValue.ofRat 0) then none
  else some (toFloat (if nv.le (DoubleValue.ofRat minimumPdiff) then DoubleValue.ofRat minimumPdiff
    else nv))

/-- Whether a `float` is false. -/
def isZero (pdiff : PdiffValue) : Bool := pdiff = .num SharePdiff.zero

/-- `struct stratumsrv_conn_userlist`; users and connections are named by what they are found
by. -/
structure UserEntry where
  addr : ℕ
  client : CStr
  conn : ℕ
  deriving DecidableEq

/-- The part of `struct proxy_client` that difficulties use. -/
structure DiffClient where
  username : CStr
  desiredSharePdiff : PdiffValue
  stratumsrvConnlist : List UserEntry

/-- The part of `struct stratumsrv_conn` that difficulties use. -/
structure DiffConn where
  ident : ℕ
  desiredSharePdiff : PdiffValue
  desiredDefaultSharePdiff : Bool
  authorisedUsers : List UserEntry

/-- The users, the open connections, and a number that has not been used. -/
structure UserDiffs where
  clients : List DiffClient
  connections : List DiffConn
  fresh : ℕ

namespace UserDiffs

/-- The difficulty of a user. -/
def desiredOf (s : UserDiffs) (username : CStr) : PdiffValue :=
  ((s.clients.find? fun client => client.username == username).map
    DiffClient.desiredSharePdiff).getD (.num SharePdiff.zero)

def find (s : UserDiffs) (conn : ℕ) : Option DiffConn :=
  s.connections.find? fun c => c.ident == conn

/-- A connection is written to. -/
def setConn (s : UserDiffs) (conn : ℕ) (f : DiffConn → DiffConn) : UserDiffs :=
  { s with connections := s.connections.map fun c => if c.ident = conn then f c else c }

/-- A user is written to. -/
def setClient (s : UserDiffs) (username : CStr) (f : DiffClient → DiffClient) : UserDiffs :=
  { s with clients := s.clients.map fun client =>
      if client.username = username then f client else client }

/-- `proxy_find_or_create_client`; `cgpu_set_defaults` may set the difficulty of a new user. -/
def findOrCreateClient (s : UserDiffs) (username : CStr) (dflt : Option DoubleValue) : UserDiffs :=
  if s.clients.any fun client => client.username == username then s
  else
    let desired := (dflt.bind acceptDiff).getD (.num SharePdiff.zero)
    { s with clients := s.clients ++ [⟨username, desired, []⟩] }

/-- What a connection desires with one more user. -/
def addWish (pdiff : PdiffValue) (c : DiffConn) : DiffConn :=
  if !isZero pdiff then
    { c with
      desiredDefaultSharePdiff :=
        if c.authorisedUsers = [] then false else c.desiredDefaultSharePdiff
      desiredSharePdiff :=
        if c.authorisedUsers = [] ∨ pdiff.lt c.desiredSharePdiff then pdiff
        else c.desiredSharePdiff }
  else
    { c with
      desiredDefaultSharePdiff := true
      desiredSharePdiff :=
        if c.authorisedUsers = [] then .num SharePdiff.max else c.desiredSharePdiff }

/-- `stratumsrv_mining_authorize`. -/
def miningAuthorize (s : UserDiffs) (conn : ℕ) (username : CStr) (dflt : Option DoubleValue) :
    UserDiffs :=
  let s := s.findOrCreateClient username dflt
  let entry : UserEntry := { addr := s.fresh, client := username, conn }
  let s := s.setConn conn fun c =>
    let c := addWish (s.desiredOf username) c
    { c with authorisedUsers := entry :: c.authorisedUsers }
  let s := s.setClient username fun client =>
    { client with stratumsrvConnlist := entry :: client.stratumsrvConnlist }
  { s with fresh := s.fresh + 1 }

/-- The inner loop of `stratumsrv_client_changed_diff`. -/
def gather (s : UserDiffs) (acc : PdiffValue × Bool) (entry : UserEntry) : PdiffValue × Bool :=
  let other := s.desiredOf entry.client
  if isZero other then (acc.1, true)
  else if other.lt acc.1 then (other, acc.2)
  else acc

/-- The turn of the outer loop for a connection. -/
def recompute (s : UserDiffs) (username : CStr) (c : DiffConn) : DiffConn :=
  let own := s.desiredOf username
  let (desired, anyDefault) := c.authorisedUsers.foldl s.gather (own, isZero own)
  { c with
    desiredSharePdiff := if isZero desired then .num SharePdiff.max else desired
    desiredDefaultSharePdiff := anyDefault }

/-- `stratumsrv_client_changed_diff`. -/
def clientChangedDiff (s : UserDiffs) (username : CStr) : UserDiffs :=
  let connlist := ((s.clients.find? fun client => client.username == username).map
    DiffClient.stratumsrvConnlist).getD []
  connlist.foldl (fun s entry => s.setConn entry.conn (s.recompute username)) s

/-- `proxy_set_diff`. -/
def proxySetDiff (s : UserDiffs) (username : CStr) (nv : DoubleValue) : UserDiffs :=
  match acceptDiff nv with
  | none => s
  | some pdiff =>
    clientChangedDiff
      (s.setClient username fun client => { client with desiredSharePdiff := pdiff }) username

/-- `stratumlistener`; `drv_set_defaults` may set a difficulty. -/
def listen (s : UserDiffs) (dflt : Option DoubleValue) : UserDiffs :=
  { s with
    connections :=
      { ident := s.fresh
        desiredSharePdiff := (dflt.bind acceptDiff).getD (.num SharePdiff.max)
        desiredDefaultSharePdiff := true
        authorisedUsers := [] } :: s.connections
    fresh := s.fresh + 1 }

/-- `stratumsrv_client_close`. -/
def clientClose (s : UserDiffs) (c : DiffConn) : UserDiffs :=
  let s := { s with connections := s.connections.filter fun c' => c'.ident != c.ident }
  c.authorisedUsers.foldl (fun s entry => s.setClient entry.client fun client =>
    { client with stratumsrvConnlist := client.stratumsrvConnlist.erase entry }) s

/-- What happens: a connection is opened, authorised for a user, or closed; and another difficulty
is set for a user. -/
inductive Event
  | listen (dflt : Option DoubleValue)
  | authorize (conn : ℕ) (username : CStr) (dflt : Option DoubleValue)
  | setDiff (username : CStr) (nv : DoubleValue)
  | close (conn : ℕ)

def step (s : UserDiffs) : Event → Option UserDiffs
  | .listen dflt => some (s.listen dflt)
  | .authorize conn username dflt => (s.find conn).map fun _ => s.miningAuthorize conn username dflt
  | .setDiff username nv =>
    if s.clients.any fun client => client.username == username then
      some (s.proxySetDiff username nv)
    else none
  | .close conn => (s.find conn).map s.clientClose

/-- Before anything happens. -/
def init : UserDiffs := ⟨[], [], 0⟩

/-! ## What is expected -/

/-- The difficulties that the users of a connection have, but for those that have none. -/
def wishes (s : UserDiffs) (entries : List UserEntry) : List PdiffValue :=
  (entries.map fun entry => s.desiredOf entry.client).filter fun pdiff => !isZero pdiff

/-- Some user has none. -/
def AnyDefault (s : UserDiffs) (entries : List UserEntry) : Prop :=
  ∃ entry ∈ entries, isZero (s.desiredOf entry.client) = true

/-- The least of the difficulties, or `FLT_MAX` if there is none. -/
def IsMinimum (pdiff : PdiffValue) (wishes : List PdiffValue) : Prop :=
  if wishes = [] then pdiff = .num SharePdiff.max else pdiff.Least wishes

/-- A connection that is authorised for users desires what they do. -/
def Agrees (s : UserDiffs) (c : DiffConn) : Prop :=
  c.authorisedUsers ≠ [] → IsMinimum c.desiredSharePdiff (s.wishes c.authorisedUsers) ∧
    (c.desiredDefaultSharePdiff = true ↔ s.AnyDefault c.authorisedUsers)

/-- Every user's list has the entries of open connections for the user, each of them once. -/
def Linked (s : UserDiffs) : Prop :=
  ∀ client ∈ s.clients, client.stratumsrvConnlist.Nodup ∧
    ∀ entry, entry ∈ client.stratumsrvConnlist ↔
      ∃ c ∈ s.connections, entry ∈ c.authorisedUsers ∧ entry.client = client.username

/-- A step leads to lists and difficulties as they should be. -/
def Right (_ : UserDiffs) (_ : Event) (s' : UserDiffs) : Prop :=
  s'.Linked ∧ ∀ c ∈ s'.connections, s'.Agrees c

/-- No user gets a difficulty that is no number while a connection is authorised for it, and no
connection is authorised for a user that has such a difficulty; nor for one whose difficulty is
infinite, where it is authorised for users already and they all have none. -/
def Sane (s : UserDiffs) (e : Event) (_ : UserDiffs) : Prop :=
  match e with
  | .authorize conn username dflt =>
    let pdiff := (s.findOrCreateClient username dflt).desiredOf username
    pdiff ≠ .nan ∧ (pdiff = .num ⊤ → ∀ c, s.find conn = some c → c.authorisedUsers ≠ [] →
      s.wishes c.authorisedUsers ≠ [])
  | .setDiff username nv => acceptDiff nv = some .nan →
    ∀ c ∈ s.connections, ∀ entry ∈ c.authorisedUsers, entry.client ≠ username
  | .listen _ | .close _ => True

variable {s : UserDiffs}

/-! ## Difficulties -/

theorem acceptDiff_ne_zero {nv : DoubleValue} {pdiff : PdiffValue}
    (haccept : acceptDiff nv = some pdiff) : isZero pdiff = false := by
  have hround : ∀ x : ℚ, minimumPdiff ≤ x → roundFloat x ≠ SharePdiff.zero := by
    intro x hx hzero
    have hpos : 0 < x := lt_of_lt_of_le (by norm_num [minimumPdiff]) hx
    have hbit : (0 : ℚ) < 2 ^ (Int.log 2 x - 23) := zpow_pos (by norm_num) _
    have hlow : ((2 ^ 23 : ℤ) : ℚ) ≤ x / 2 ^ (Int.log 2 x - 23) := by
      rw [le_div_iff₀ hbit]
      have hlog := Int.zpow_log_le_self (b := 2) (by norm_num) hpos
      have hsplit : (2 : ℚ) ^ Int.log 2 x = 2 ^ 23 * 2 ^ (Int.log 2 x - 23) := by
        rw [← zpow_natCast, ← zpow_add₀ (by norm_num)]
        congr 1
        omega
      have hcast : ((2 ^ 23 : ℤ) : ℚ) = 2 ^ 23 := by norm_num
      rw [hcast, ← hsplit]
      exact_mod_cast hlog
    have heven : (2 ^ 23 : ℤ) ≤ roundEven (x / 2 ^ (Int.log 2 x - 23)) := le_roundEven hlow
    have hevenPos : (0 : ℚ) < roundEven (x / 2 ^ (Int.log 2 x - 23)) := by
      exact_mod_cast lt_of_lt_of_le (by norm_num) heven
    have hne := (mul_pos hevenPos hbit).ne'
    rw [roundFloat] at hzero
    split at hzero
    · exact hne (congrArg Subtype.val (Option.some.inj hzero))
    · cases hzero
  have hfinite : ∀ v : PdiffValue, v ≠ .num SharePdiff.zero → isZero v = false :=
    fun v hv => decide_eq_false hv
  rw [acceptDiff] at haccept
  split at haccept
  · cases haccept
  next hneg =>
  obtain rfl := Option.some.inj haccept
  split
  · exact hfinite _ fun h => hround minimumPdiff le_rfl (WithNan.num.inj h)
  next hlarge =>
  refine hfinite _ fun h => ?_
  match nv, hneg, hlarge, h with
  | .num none, hneg, _, _ => exact hneg (WithNan.lt_num_iff.mpr (WithBot.bot_lt_coe _))
  | .num (some none), _, _, h => cases h
  | .num (some (some x)), _, hlarge, h =>
    refine hround x ?_ (WithNan.num.inj h)
    by_contra hsmall
    have hle : (x : WithTop ℚ) ≤ (minimumPdiff : WithTop ℚ) :=
      WithTop.coe_le_coe.mpr (le_of_not_ge hsmall)
    exact hlarge (WithNan.le_num_iff.mpr (WithBot.coe_le_coe.mpr hle))

theorem isZero_iff {pdiff : PdiffValue} : isZero pdiff = true ↔ pdiff = .num SharePdiff.zero :=
  decide_eq_true_iff

theorem mem_wishes {entries : List UserEntry} {pdiff : PdiffValue} :
    pdiff ∈ s.wishes entries ↔
      (∃ entry ∈ entries, s.desiredOf entry.client = pdiff) ∧ isZero pdiff = false := by
  simp [wishes]

theorem wishes_cons (entry : UserEntry) (entries : List UserEntry) :
    s.wishes (entry :: entries) = if isZero (s.desiredOf entry.client) then s.wishes entries
      else s.desiredOf entry.client :: s.wishes entries := by
  rw [wishes, List.map_cons]
  cases h : isZero (s.desiredOf entry.client) with
  | true => rw [List.filter_cons_of_neg (by simp [h]), if_pos rfl, wishes]
  | false => rw [List.filter_cons_of_pos (by simp [h]), if_neg (by decide), wishes]

/-- The wishes of users whose difficulties are the same. -/
theorem wishes_congr {s' : UserDiffs} {entries : List UserEntry}
    (hsame : ∀ entry ∈ entries, s'.desiredOf entry.client = s.desiredOf entry.client) :
    s'.wishes entries = s.wishes entries := by
  rw [wishes, wishes, List.map_congr_left hsame]

theorem anyDefault_congr {s' : UserDiffs} {entries : List UserEntry}
    (hsame : ∀ entry ∈ entries, s'.desiredOf entry.client = s.desiredOf entry.client) :
    s'.AnyDefault entries ↔ s.AnyDefault entries :=
  exists_congr fun _ => and_congr_right fun hentry => by rw [hsame _ hentry]

theorem Agrees.congr {s' : UserDiffs} {c : DiffConn} (H : s.Agrees c)
    (hsame : ∀ entry ∈ c.authorisedUsers, s'.desiredOf entry.client = s.desiredOf entry.client) :
    s'.Agrees c := by
  intro hne
  rw [wishes_congr hsame, anyDefault_congr hsame]
  exact H hne

/-! ## One user more -/

/-- Where the wishes have a minimum, they are numbers. -/
theorem IsMinimum.nan_notMem {pdiff : PdiffValue} {wishes : List PdiffValue}
    (H : IsMinimum pdiff wishes) : (.nan : PdiffValue) ∉ wishes := by
  rw [IsMinimum] at H
  split at H
  · next hnil =>
    rw [hnil]
    exact List.not_mem_nil
  · exact H.nan_notMem

/-- **A connection is authorised for one more user.**  It desires the minimum then as well, unless
the difficulty of the user is no number, or it is infinite and the others have none. -/
theorem isMinimum_addWish_iff {c : DiffConn} {pdiff : PdiffValue} {wishes : List PdiffValue}
    (hpdiff : isZero pdiff = false) (hold : c.authorisedUsers ≠ [] →
      IsMinimum c.desiredSharePdiff wishes) (hnil : c.authorisedUsers = [] → wishes = []) :
    IsMinimum (addWish pdiff c).desiredSharePdiff (pdiff :: wishes) ↔
      pdiff ≠ .nan ∧ (pdiff = .num ⊤ → c.authorisedUsers ≠ [] → wishes ≠ []) := by
  rw [addWish, hpdiff, IsMinimum, if_neg (List.cons_ne_nil _ _), if_pos (by decide)]
  dsimp only
  by_cases hfirst : c.authorisedUsers = []
  · rw [if_pos (.inl hfirst), hnil hfirst]
    constructor
    · rintro H
      refine ⟨fun h => H.nan_notMem (h ▸ List.mem_cons_self), fun _ hne => absurd hfirst hne⟩
    · rintro ⟨hnum, -⟩
      exact WithNan.least_singleton hnum
  · have hmin := hold hfirst
    have hlower : (if c.authorisedUsers = [] ∨ pdiff.lt c.desiredSharePdiff = true then pdiff
        else c.desiredSharePdiff) = c.desiredSharePdiff.lower pdiff := by
      simp only [hfirst, false_or, WithNan.lower]
    rw [hlower]
    rw [IsMinimum] at hmin
    split at hmin
    · next hwishes =>
      -- the others have none, and `FLT_MAX` stands for that
      rw [hwishes, hmin]
      simp only [hfirst, ne_eq, not_true_eq_false, not_false_eq_true, imp_false]
      constructor
      · intro H
        refine ⟨fun h => H.nan_notMem (h ▸ List.mem_cons_self), ?_⟩
        rintro rfl
        have hmem := List.mem_singleton.mp H.1
        revert hmem
        decide +kernel
      · rintro ⟨hnum, hfinite⟩
        have hsame : (WithNan.num SharePdiff.max).lower pdiff = pdiff := by
          cases pdiff with
          | nan => exact absurd rfl hnum
          | num p =>
            obtain ⟨x, rfl⟩ := WithTop.ne_top_iff_exists.mp fun h => hfinite (congrArg _ h)
            have hle : (x : SharePdiff) ≤ SharePdiff.max := by
              refine WithTop.coe_le_coe.mpr ?_
              show (x : ℚ) ≤ fltMax
              rcases x.property with hzero | ⟨-, hmax⟩
              · rw [hzero]
                norm_num [fltMax]
              · exact hmax
            rw [WithNan.lower]
            split
            · rfl
            · next hge =>
              rw [WithNan.lt_num_iff, not_lt] at hge
              rw [le_antisymm hge hle]
        rw [hsame]
        exact WithNan.least_singleton hnum
    · next hwishes =>
      constructor
      · intro H
        exact ⟨fun h => H.nan_notMem (h ▸ List.mem_cons_self), fun _ _ => hwishes⟩
      · rintro ⟨hnum, -⟩
        exact hmin.lower hnum

/-! ## Another difficulty -/

/-- The inner loop keeps the least difficulty, and notes a user that has none. -/
theorem foldl_gather (entries : List UserEntry) (desired : PdiffValue) (anyDefault : Bool) :
    entries.foldl s.gather (desired, anyDefault) =
      ((s.wishes entries).foldl WithNan.lower desired,
        anyDefault || entries.any fun entry => isZero (s.desiredOf entry.client)) := by
  induction entries generalizing desired anyDefault with
  | nil => simp [wishes]
  | cons entry rest ih =>
    rw [List.foldl_cons, wishes_cons, List.any_cons]
    cases hzero : isZero (s.desiredOf entry.client) with
    | true =>
      rw [show s.gather (desired, anyDefault) entry = (desired, true) by simp [gather, hzero], ih]
      simp
    | false =>
      have hgather : s.gather (desired, anyDefault) entry =
          (desired.lower (s.desiredOf entry.client), anyDefault) := by
        rw [gather, hzero, WithNan.lower, if_neg (by decide)]
        exact (apply_ite (fun x => (x, anyDefault)) _ _ _).symm
      rw [hgather, ih]
      simp

/-- **What a connection of a user with a difficulty desires** is computed again: it is the minimum,
unless one of the difficulties is no number. -/
theorem agrees_recompute_iff {username : CStr} {c : DiffConn}
    (hown : isZero (s.desiredOf username) = false)
    (hlists : ∃ entry ∈ c.authorisedUsers, entry.client = username) :
    s.Agrees (s.recompute username c) ↔ (.nan : PdiffValue) ∉ s.wishes c.authorisedUsers := by
  obtain ⟨entry, hentry, hclient⟩ := hlists
  have hne : c.authorisedUsers ≠ [] := List.ne_nil_of_mem hentry
  have hmem : s.desiredOf username ∈ s.wishes c.authorisedUsers :=
    mem_wishes.mpr ⟨⟨entry, hentry, by rw [hclient]⟩, hown⟩
  have hwishes : s.wishes c.authorisedUsers ≠ [] := List.ne_nil_of_mem hmem
  obtain ⟨least, hleast⟩ : ∃ least, least =
      (s.wishes c.authorisedUsers).foldl WithNan.lower (s.desiredOf username) := ⟨_, rfl⟩
  -- the difficulty of the user is one of the wishes already
  have hiff : least.Least (s.wishes c.authorisedUsers) ↔
      (.nan : PdiffValue) ∉ s.wishes c.authorisedUsers := by
    have hcons : ∀ y, y ∈ s.desiredOf username :: s.wishes c.authorisedUsers ↔
        y ∈ s.wishes c.authorisedUsers := fun y =>
      List.mem_cons.trans (or_iff_right_of_imp fun h => h ▸ hmem)
    have hrun := WithNan.least_foldl_iff (s.wishes c.authorisedUsers) (s.desiredOf username)
    rw [← hleast, hcons] at hrun
    exact ⟨fun h => hrun.mp (h.congr fun y => (hcons y).symm), fun h => (hrun.mpr h).congr hcons⟩
  have hrecompute : s.recompute username c =
      { c with
        desiredSharePdiff := if isZero least then .num SharePdiff.max else least
        desiredDefaultSharePdiff :=
          c.authorisedUsers.any fun entry => isZero (s.desiredOf entry.client) } := by
    rw [recompute, foldl_gather, hown, ← hleast]
    simp
  have hkeep : isZero least = false := by
    cases hzero : isZero least with
    | false => rfl
    | true =>
      -- every value of the loop is one of the wishes, of which none is zero
      have hin : ∀ (ys : List PdiffValue) (x : PdiffValue), isZero x = false →
          (∀ y ∈ ys, isZero y = false) → isZero (ys.foldl WithNan.lower x) = false := by
        intro ys
        induction ys with
        | nil => exact fun x hx _ => hx
        | cons y ys ih =>
          intro x hx hys
          rw [List.forall_mem_cons] at hys
          refine ih _ ?_ hys.2
          rw [WithNan.lower]
          split
          · exact hys.1
          · exact hx
      rw [hleast, hin _ _ hown fun y hy => (mem_wishes.mp hy).2] at hzero
      cases hzero
  rw [hrecompute, hkeep]
  simp only [Agrees, IsMinimum, ne_eq, hne, not_false_eq_true, true_imp_iff, if_neg hwishes,
    Bool.false_eq_true, if_false, hiff]
  refine and_iff_left ?_
  simp [AnyDefault]

/-- The outer loop computes again what the connections of the user's list desire. -/
theorem connections_foldl_recompute (username : CStr) (entries : List UserEntry) (s : UserDiffs) :
    entries.foldl (fun s entry => s.setConn entry.conn (s.recompute username)) s =
      { s with
        connections := s.connections.map fun c =>
          if entries.any fun entry => entry.conn == c.ident then s.recompute username c
          else c } := by
  induction entries generalizing s with
  | nil => simp
  | cons entry rest ih =>
    rw [List.foldl_cons, ih]
    have hsame : (s.setConn entry.conn (s.recompute username)).recompute username =
        s.recompute username := rfl
    rw [hsame]
    simp only [setConn, List.map_map]
    congr 1
    refine List.map_congr_left fun c _ => ?_
    rw [Function.comp_apply, List.any_cons]
    by_cases hconn : c.ident = entry.conn
    · have hbeq : (entry.conn == c.ident) = true := beq_iff_eq.mpr hconn.symm
      rw [if_pos hconn, hbeq, Bool.true_or, if_pos rfl]
      split <;> rfl
    · have hbeq : (entry.conn == c.ident) = false := beq_eq_false_iff_ne.mpr (Ne.symm hconn)
      rw [if_neg hconn, hbeq, Bool.false_or]

end UserDiffs

end MassGridMiner

import MassGridMiner.Proxy.UserDiff

/-!
# Runs of users and connections

The lists are always as they should be.  What connections desire is, in every run, exactly if no
difficulty that is no number is set for a user of a connection, and none that is infinite comes to
a connection whose users had none.

## Main definitions

* `UserDiffs.Inv` — what holds of users and connections.
* `UserDiffs.enter`, `UserDiffs.rewish` — one more user, and another difficulty.
-/

namespace MassGridMiner

namespace UserDiffs
variable {s : UserDiffs}

/-! ## The invariant -/

/-- Users and connections are told apart by their names and numbers, entries are of their
connections and of users that there are, and the lists are as they should be. -/
structure Base (s : UserDiffs) : Prop where
  usernames : (s.clients.map DiffClient.username).Nodup
  idents : (s.connections.map DiffConn.ident).Nodup
  ident_lt : ∀ c ∈ s.connections, c.ident < s.fresh
  entries : ∀ c ∈ s.connections, ∀ entry ∈ c.authorisedUsers,
    entry.conn = c.ident ∧ entry.addr < s.fresh ∧ entry.client ∈ s.clients.map DiffClient.username
  linked : s.Linked

/-- The difficulties are as well. -/
structure Inv (s : UserDiffs) : Prop extends Base s where
  agrees : ∀ c ∈ s.connections, s.Agrees c

theorem inv_init : init.Inv where
  usernames := List.nodup_nil
  idents := List.nodup_nil
  ident_lt _ hc := by cases hc
  entries _ hc := by cases hc
  linked _ hclient := by cases hclient
  agrees _ hc := by cases hc

theorem Base.eq_of_ident (H : s.Base) {c c' : DiffConn} (hc : c ∈ s.connections)
    (hc' : c' ∈ s.connections) (hident : c.ident = c'.ident) : c = c' :=
  List.inj_on_of_nodup_map H.idents hc hc' hident

theorem mem_of_find {conn : ℕ} {c : DiffConn} (hfind : s.find conn = some c) :
    c ∈ s.connections ∧ c.ident = conn :=
  ⟨List.mem_of_find?_eq_some hfind, by simpa using List.find?_some hfind⟩

/-! ## Events -/

theorem desiredOf_setClient (s : UserDiffs) (username name : CStr) {f : DiffClient → DiffClient}
    (hname : ∀ client, (f client).username = client.username) :
    (s.setClient username f).desiredOf name =
      ((s.clients.find? fun client => client.username == name).map fun client =>
        if name = username then (f client).desiredSharePdiff
        else client.desiredSharePdiff).getD (.num SharePdiff.zero) := by
  have hfind : ((s.setClient username f).clients.find? fun client => client.username == name) =
      (s.clients.find? fun client => client.username == name).map fun client =>
        if client.username = username then f client else client := by
    rw [setClient, List.find?_map]
    congr 2
    funext client
    rw [Function.comp_apply]
    split
    · rw [hname]
    · rfl
  rw [desiredOf, hfind, Option.map_map]
  cases hclient : s.clients.find? fun client => client.username == name with
  | none => rfl
  | some client =>
    have hsame : client.username = name := by simpa using List.find?_some hclient
    simp only [Option.map_some, Function.comp_apply, hsame]
    split <;> rfl

/-- What changes about a user is not its difficulty. -/
theorem desiredOf_setClient_of_keeps (s : UserDiffs) (username name : CStr)
    {f : DiffClient → DiffClient} (hname : ∀ client, (f client).username = client.username)
    (hkeep : ∀ client, (f client).desiredSharePdiff = client.desiredSharePdiff) :
    (s.setClient username f).desiredOf name = s.desiredOf name := by
  rw [desiredOf_setClient s username name hname, desiredOf]
  congr 2
  funext client
  rw [hkeep, ite_self]

theorem map_username_setClient (s : UserDiffs) (username : CStr) {f : DiffClient → DiffClient}
    (hname : ∀ client, (f client).username = client.username) :
    (s.setClient username f).clients.map DiffClient.username =
      s.clients.map DiffClient.username := by
  rw [setClient, List.map_map]
  refine List.map_congr_left fun client _ => ?_
  rw [Function.comp_apply]
  split
  · rw [hname]
  · rfl

theorem Inv.listen (H : s.Inv) (dflt : Option DoubleValue) : (s.listen dflt).Inv where
  usernames := H.usernames
  idents := by
    refine List.nodup_cons.mpr ⟨fun hmem => ?_, H.idents⟩
    obtain ⟨c, hc, hident⟩ := List.mem_map.mp hmem
    exact (H.ident_lt c hc).ne hident
  ident_lt := List.forall_mem_cons.mpr
    ⟨Nat.lt_succ_self _, fun c hc => (H.ident_lt c hc).trans (Nat.lt_succ_self _)⟩
  entries := by
    intro c hc entry hentry
    rcases List.mem_cons.mp hc with rfl | hc
    · cases hentry
    · obtain ⟨hconn, haddr, hclient⟩ := H.entries c hc entry hentry
      exact ⟨hconn, haddr.trans (Nat.lt_succ_self _), hclient⟩
  linked client hclient := by
    refine ⟨(H.linked client hclient).1, fun entry => ((H.linked client hclient).2 entry).trans ?_⟩
    refine (exists_congr fun c => ?_)
    rw [UserDiffs.listen, List.mem_cons]
    constructor
    · rintro ⟨hc, hentry⟩
      exact ⟨.inr hc, hentry⟩
    · rintro ⟨rfl | hc, hentry⟩
      · cases hentry.1
      · exact ⟨hc, hentry⟩
  agrees := List.forall_mem_cons.mpr ⟨fun hne => absurd rfl hne, H.agrees⟩

/-- The client that is found or created, and the others. -/
theorem Inv.findOrCreateClient (H : s.Inv) (username : CStr) (dflt : Option DoubleValue) :
    (s.findOrCreateClient username dflt).Inv ∧
      username ∈ (s.findOrCreateClient username dflt).clients.map DiffClient.username ∧
      (s.findOrCreateClient username dflt).connections = s.connections ∧
      (s.findOrCreateClient username dflt).fresh = s.fresh ∧
      ∀ name ∈ s.clients.map DiffClient.username,
        (s.findOrCreateClient username dflt).desiredOf name = s.desiredOf name := by
  rw [UserDiffs.findOrCreateClient]
  split
  · next hfound =>
    obtain ⟨client, hclient, hname⟩ := List.any_eq_true.mp hfound
    exact ⟨H, List.mem_map.mpr ⟨client, hclient, beq_iff_eq.mp hname⟩, rfl, rfl, fun _ _ => rfl⟩
  next hnew =>
  have hnotMem : username ∉ s.clients.map DiffClient.username := by
    intro hmem
    obtain ⟨client, hclient, hname⟩ := List.mem_map.mp hmem
    exact hnew (List.any_eq_true.mpr ⟨client, hclient, beq_iff_eq.mpr hname⟩)
  obtain ⟨new, hnewName, hnewList, hnewClient⟩ : ∃ new : DiffClient, new.username = username ∧
      new.stratumsrvConnlist = [] ∧ new =
        ⟨username, (dflt.bind acceptDiff).getD (.num SharePdiff.zero), []⟩ := ⟨_, rfl, rfl, rfl⟩
  dsimp only
  rw [← hnewClient]
  have hsame : ∀ name ∈ s.clients.map DiffClient.username,
      desiredOf { s with clients := s.clients ++ [new] } name = s.desiredOf name := by
    intro name hname
    obtain ⟨client, hclient, rfl⟩ := List.mem_map.mp hname
    have hsome : (s.clients.find? fun c => c.username == client.username).isSome :=
      List.find?_isSome.mpr ⟨client, hclient, beq_self_eq_true _⟩
    obtain ⟨first, hfirst⟩ := Option.isSome_iff_exists.mp hsome
    rw [desiredOf, desiredOf, List.find?_append, hfirst]
    rfl
  refine ⟨⟨⟨?_, H.idents, H.ident_lt, ?_, ?_⟩, ?_⟩, ?_, rfl, rfl, hsame⟩
  · rw [List.map_append, List.nodup_append]
    refine ⟨H.usernames, List.nodup_singleton _, ?_⟩
    rintro a ha b hb rfl
    obtain rfl := List.mem_singleton.mp hb
    exact hnotMem (hnewName ▸ ha)
  · intro c hc entry hentry
    obtain ⟨hconn, haddr, hclient⟩ := H.entries c hc entry hentry
    exact ⟨hconn, haddr, by rw [List.map_append]; exact List.mem_append_left _ hclient⟩
  · intro client hclient
    rcases List.mem_append.mp hclient with hold | hlast
    · exact H.linked client hold
    · obtain rfl := List.mem_singleton.mp hlast
      refine ⟨by rw [hnewList]; exact List.nodup_nil, fun entry => ?_⟩
      rw [hnewList, hnewName]
      refine iff_of_false List.not_mem_nil ?_
      rintro ⟨c, hc, hentry, rfl⟩
      exact hnotMem (H.entries c hc entry hentry).2.2
  · intro c hc
    exact (H.agrees c hc).congr fun entry hentry => hsame _ (H.entries c hc entry hentry).2.2
  · rw [List.map_append, hnewClient]
    exact List.mem_append_right _ (List.mem_singleton_self _)

/-- A connection, authorised for one more user. -/
def welcome (s : UserDiffs) (conn : ℕ) (username : CStr) (c : DiffConn) : DiffConn :=
  { addWish (s.desiredOf username) c with
    authorisedUsers := ⟨s.fresh, username, conn⟩ :: c.authorisedUsers }

theorem ident_addWish (pdiff : PdiffValue) (c : DiffConn) : (addWish pdiff c).ident = c.ident := by
  rw [addWish]
  split <;> rfl

/-- The entry is added to both lists. -/
def enter (s : UserDiffs) (conn : ℕ) (username : CStr) : UserDiffs :=
  { (s.setConn conn (s.welcome conn username)).setClient username (fun client =>
      { client with
        stratumsrvConnlist := ⟨s.fresh, username, conn⟩ :: client.stratumsrvConnlist }) with
    fresh := s.fresh + 1 }

theorem miningAuthorize_eq (s : UserDiffs) (conn : ℕ) (username : CStr)
    (dflt : Option DoubleValue) :
    s.miningAuthorize conn username dflt =
      (s.findOrCreateClient username dflt).enter conn username := by
  have hlists : ∀ pdiff (c : DiffConn), (addWish pdiff c).authorisedUsers = c.authorisedUsers := by
    intro pdiff c
    rw [addWish]
    split <;> rfl
  simp only [miningAuthorize, enter, hlists]
  rfl

theorem desiredOf_enter (s : UserDiffs) (conn : ℕ) (username name : CStr) :
    (s.enter conn username).desiredOf name = s.desiredOf name :=
  desiredOf_setClient_of_keeps _ username name (fun _ => rfl) (fun _ => rfl)

theorem mem_connections_enter {conn : ℕ} {username : CStr} {c : DiffConn}
    (hc : c ∈ (s.enter conn username).connections) :
    ∃ c' ∈ s.connections, c = if c'.ident = conn then s.welcome conn username c' else c' := by
  obtain ⟨c', hc', rfl⟩ := List.mem_map.mp hc
  exact ⟨c', hc', rfl⟩

theorem Base.enter (H : s.Base) {conn : ℕ} {username : CStr} {c₀ : DiffConn}
    (hfind : s.find conn = some c₀) (hname : username ∈ s.clients.map DiffClient.username) :
    (s.enter conn username).Base := by
  obtain ⟨hc₀, hconn₀⟩ := mem_of_find hfind
  have hidentWelcome : ∀ c, (s.welcome conn username c).ident = c.ident :=
    fun c => ident_addWish _ c
  have hnames : (s.enter conn username).clients.map DiffClient.username =
      s.clients.map DiffClient.username :=
    map_username_setClient (s.setConn conn (s.welcome conn username)) username fun _ => rfl
  have hidents : (s.enter conn username).connections.map DiffConn.ident =
      s.connections.map DiffConn.ident := by
    show (s.connections.map fun c => if c.ident = conn then s.welcome conn username c else c).map
      DiffConn.ident = _
    rw [List.map_map]
    refine List.map_congr_left fun c _ => ?_
    rw [Function.comp_apply]
    split
    · exact hidentWelcome c
    · rfl
  have hfresh : ∀ c ∈ s.connections, ∀ entry ∈ c.authorisedUsers, entry.addr ≠ s.fresh :=
    fun c hc entry hentry => (H.entries c hc entry hentry).2.1.ne
  constructor
  case usernames => exact hnames ▸ H.usernames
  case idents => exact hidents ▸ H.idents
  case ident_lt =>
    intro c hc
    obtain ⟨c', hc', rfl⟩ := mem_connections_enter hc
    have hlt : c'.ident < s.fresh + 1 := (H.ident_lt c' hc').trans (Nat.lt_succ_self _)
    split
    · exact hidentWelcome c' ▸ hlt
    · exact hlt
  case entries =>
    intro c hc entry hentry
    obtain ⟨c', hc', rfl⟩ := mem_connections_enter hc
    rw [hnames]
    have hold : entry ∈ c'.authorisedUsers → entry.conn = c'.ident ∧ entry.addr < s.fresh + 1 ∧
        entry.client ∈ s.clients.map DiffClient.username := fun hmem =>
      ⟨(H.entries c' hc' entry hmem).1, (H.entries c' hc' entry hmem).2.1.trans
        (Nat.lt_succ_self _), (H.entries c' hc' entry hmem).2.2⟩
    split at hentry
    · next hident =>
      rw [if_pos hident, hidentWelcome]
      rcases List.mem_cons.mp hentry with rfl | hmem
      · exact ⟨hident.symm, Nat.lt_succ_self _, hname⟩
      · exact hold hmem
    · next hident =>
      rw [if_neg hident]
      exact hold hentry
  case linked =>
    intro client hclient
    obtain ⟨client', hclient', rfl⟩ := List.mem_map.mp hclient
    obtain ⟨hnodup, hlist⟩ := H.linked client' hclient'
    -- which entries the connections have
    have hentries : ∀ entry : UserEntry, (∃ c ∈ (s.enter conn username).connections,
        entry ∈ c.authorisedUsers ∧ entry.client = client'.username) ↔
        (entry = ⟨s.fresh, username, conn⟩ ∧ client'.username = username) ∨
          entry ∈ client'.stratumsrvConnlist := by
      intro entry
      rw [hlist]
      constructor
      · rintro ⟨c, hc, hentry, hclientEq⟩
        obtain ⟨c', hc', rfl⟩ := mem_connections_enter hc
        split at hentry
        · rcases List.mem_cons.mp hentry with rfl | hmem
          · exact .inl ⟨rfl, hclientEq.symm⟩
          · exact .inr ⟨c', hc', hmem, hclientEq⟩
        · exact .inr ⟨c', hc', hentry, hclientEq⟩
      · rintro (⟨rfl, hclientEq⟩ | ⟨c', hc', hentry, hclientEq⟩)
        · refine ⟨s.welcome conn username c₀, ?_, List.mem_cons_self, hclientEq.symm⟩
          exact List.mem_map.mpr ⟨c₀, hc₀, if_pos hconn₀⟩
        · refine ⟨_, List.mem_map.mpr ⟨c', hc', rfl⟩, ?_, hclientEq⟩
          split
          · exact List.mem_cons_of_mem _ hentry
          · exact hentry
    have hnew : (⟨s.fresh, username, conn⟩ : UserEntry) ∉ client'.stratumsrvConnlist := by
      intro hmem
      obtain ⟨c, hc, hentry, -⟩ := (hlist _).mp hmem
      exact hfresh c hc _ hentry rfl
    by_cases hclientEq : client'.username = username
    · rw [if_pos hclientEq]
      refine ⟨List.nodup_cons.mpr ⟨hnew, hnodup⟩, fun entry => ?_⟩
      rw [hentries, List.mem_cons, and_iff_left hclientEq]
    · rw [if_neg hclientEq]
      refine ⟨hnodup, fun entry => ?_⟩
      rw [hentries, or_iff_right fun h => hclientEq h.2]

/-- **A connection is authorised for one more user**, and desires what its users do exactly if the
difficulty of that user allows it. -/
theorem Inv.agrees_enter_iff (H : s.Inv) {conn : ℕ} {username : CStr} {c₀ : DiffConn}
    (hfind : s.find conn = some c₀) :
    (∀ c ∈ (s.enter conn username).connections, (s.enter conn username).Agrees c) ↔
      s.desiredOf username ≠ .nan ∧ (s.desiredOf username = .num ⊤ → c₀.authorisedUsers ≠ [] →
        s.wishes c₀.authorisedUsers ≠ []) := by
  obtain ⟨hc₀, hconn₀⟩ := mem_of_find hfind
  have hsame : ∀ entries : List UserEntry, ∀ entry ∈ entries,
      (s.enter conn username).desiredOf entry.client = s.desiredOf entry.client :=
    fun _ entry _ => desiredOf_enter s conn username entry.client
  have hothers : (∀ c ∈ (s.enter conn username).connections, (s.enter conn username).Agrees c) ↔
      (s.enter conn username).Agrees (s.welcome conn username c₀) := by
    constructor
    · intro h
      exact h _ (List.mem_map.mpr ⟨c₀, hc₀, if_pos hconn₀⟩)
    · intro h c hc
      obtain ⟨c', hc', rfl⟩ := mem_connections_enter hc
      split
      · next hident =>
        rwa [H.toBase.eq_of_ident hc' hc₀ (hident.trans hconn₀.symm)]
      · exact (H.agrees c' hc').congr (hsame _)
  rw [hothers]
  have hne : (s.welcome conn username c₀).authorisedUsers ≠ [] := List.cons_ne_nil _ _
  have hagrees : (s.enter conn username).Agrees (s.welcome conn username c₀) ↔
      IsMinimum (s.welcome conn username c₀).desiredSharePdiff
          (s.wishes (s.welcome conn username c₀).authorisedUsers) ∧
        ((s.welcome conn username c₀).desiredDefaultSharePdiff = true ↔
          s.AnyDefault (s.welcome conn username c₀).authorisedUsers) := by
    rw [Agrees, wishes_congr (hsame _), anyDefault_congr (hsame _)]
    exact ⟨fun h => h hne, fun h _ => h⟩
  rw [hagrees]
  have hold := H.agrees c₀ hc₀
  have hany : s.AnyDefault (s.welcome conn username c₀).authorisedUsers ↔
      isZero (s.desiredOf username) = true ∨ s.AnyDefault c₀.authorisedUsers :=
    List.exists_mem_cons_iff ..
  rw [hany]
  cases hzero : isZero (s.desiredOf username) with
  | true =>
    have hvalue := isZero_iff.mp hzero
    have hwishes : s.wishes (s.welcome conn username c₀).authorisedUsers =
        s.wishes c₀.authorisedUsers := by
      rw [show (s.welcome conn username c₀).authorisedUsers = ⟨s.fresh, username, conn⟩ ::
        c₀.authorisedUsers from rfl, wishes_cons, if_pos hzero]
    rw [hwishes, hvalue]
    refine iff_of_true ⟨?_, ?_⟩ ⟨by simp, fun h => absurd (WithNan.num.inj h) (by decide +kernel)⟩
    · rw [welcome, addWish, hzero]
      simp only [Bool.not_true, Bool.false_eq_true, if_false]
      split
      · next hnil =>
        rw [hnil]
        rfl
      · next hnil => exact (hold hnil).1
    · rw [welcome, addWish, hzero]
      simp
  | false =>
    have hwishes : s.wishes (s.welcome conn username c₀).authorisedUsers =
        s.desiredOf username :: s.wishes c₀.authorisedUsers := by
      rw [show (s.welcome conn username c₀).authorisedUsers = ⟨s.fresh, username, conn⟩ ::
        c₀.authorisedUsers from rfl, wishes_cons, if_neg (by simp [hzero])]
    have hmin := isMinimum_addWish_iff hzero (fun hnil => (hold hnil).1)
      (fun hnil => by rw [hnil]; rfl)
    rw [hwishes, ← hmin]
    refine and_iff_left ?_
    simp only [Bool.false_eq_true, false_or]
    rw [welcome, addWish, hzero]
    simp only [Bool.not_false, if_true]
    split
    · next hnil =>
      rw [hnil]
      simp [AnyDefault]
    · next hnil => exact (hold hnil).2

/-- A user has another difficulty, and its connections compute theirs again. -/
def rewish (s : UserDiffs) (username : CStr) (pdiff : PdiffValue) : UserDiffs :=
  (s.setClient username fun client =>
    { client with desiredSharePdiff := pdiff }).clientChangedDiff username

theorem desiredOf_set {username : CStr}
    (hname : username ∈ s.clients.map DiffClient.username) (pdiff : PdiffValue) (name : CStr) :
    (s.setClient username fun client => { client with desiredSharePdiff := pdiff }).desiredOf name =
      if name = username then pdiff else s.desiredOf name := by
  rw [desiredOf_setClient s username name (f := fun client =>
    { client with desiredSharePdiff := pdiff }) fun _ => rfl]
  split
  · next heq =>
    obtain ⟨client, hclient, rfl⟩ := List.mem_map.mp hname
    have hsome : (s.clients.find? fun c => c.username == name).isSome :=
      List.find?_isSome.mpr ⟨client, hclient, beq_iff_eq.mpr heq.symm⟩
    obtain ⟨first, hfirst⟩ := Option.isSome_iff_exists.mp hsome
    rw [hfirst]
    rfl
  · rfl

/-- The connections that compute again are those that list the user. -/
theorem rewish_eq (H : s.Base) {username : CStr}
    (hname : username ∈ s.clients.map DiffClient.username) (pdiff : PdiffValue) :
    ∃ lists : DiffConn → Bool,
      (∀ c ∈ s.connections,
        lists c = true ↔ ∃ entry ∈ c.authorisedUsers, entry.client = username) ∧
      s.rewish username pdiff =
        { s.setClient username fun client => { client with desiredSharePdiff := pdiff } with
          connections := s.connections.map fun c =>
            if lists c then (s.setClient username fun client =>
              { client with desiredSharePdiff := pdiff }).recompute username c else c } := by
  obtain ⟨client, hclient, hfind⟩ : ∃ client ∈ s.clients,
      (s.clients.find? fun c => c.username == username) = some client := by
    obtain ⟨client, hclient, rfl⟩ := List.mem_map.mp hname
    have hsome : (s.clients.find? fun c => c.username == client.username).isSome :=
      List.find?_isSome.mpr ⟨client, hclient, beq_self_eq_true _⟩
    obtain ⟨first, hfirst⟩ := Option.isSome_iff_exists.mp hsome
    exact ⟨first, List.mem_of_find?_eq_some hfirst, hfirst⟩
  have husername : client.username = username := by simpa using List.find?_some hfind
  refine ⟨fun c => client.stratumsrvConnlist.any fun entry => entry.conn == c.ident, ?_, ?_⟩
  · intro c hc
    rw [List.any_eq_true]
    constructor
    · rintro ⟨entry, hentry, hconn⟩
      obtain ⟨c', hc', hmem, hclientEq⟩ := ((H.linked client hclient).2 entry).mp hentry
      have hident : c'.ident = c.ident :=
        (H.entries c' hc' entry hmem).1.symm.trans (beq_iff_eq.mp hconn)
      rw [← H.eq_of_ident hc' hc hident]
      exact ⟨entry, hmem, hclientEq.trans husername⟩
    · rintro ⟨entry, hentry, hclientEq⟩
      refine ⟨entry, ?_, beq_iff_eq.mpr (H.entries c hc entry hentry).1⟩
      exact ((H.linked client hclient).2 entry).mpr
        ⟨c, hc, hentry, hclientEq.trans husername.symm⟩
  · have hlist : (((s.setClient username fun client =>
        { client with desiredSharePdiff := pdiff }).clients.find? fun client =>
          client.username == username).map DiffClient.stratumsrvConnlist).getD [] =
        client.stratumsrvConnlist := by
      have hkeep : ∀ client : DiffClient, ((fun client : DiffClient =>
          client.username == username) ∘ fun client =>
            if client.username = username then { client with desiredSharePdiff := pdiff }
            else client) client = (client.username == username) := by
        intro client
        rw [Function.comp_apply]
        split <;> rfl
      rw [setClient, List.find?_map, funext hkeep, hfind]
      simp [husername]
    rw [rewish, clientChangedDiff, hlist, connections_foldl_recompute]
    rfl

theorem Base.rewish (H : s.Base) {username : CStr}
    (hname : username ∈ s.clients.map DiffClient.username) (pdiff : PdiffValue) :
    (s.rewish username pdiff).Base := by
  obtain ⟨lists, -, heq⟩ := rewish_eq H hname pdiff
  have hnames : (s.rewish username pdiff).clients.map DiffClient.username =
      s.clients.map DiffClient.username := by
    rw [heq]
    exact map_username_setClient s username fun _ => rfl
  -- a connection that computes again has the number and the list that it had
  have hback : ∀ c ∈ (s.rewish username pdiff).connections,
      ∃ c' ∈ s.connections, c.ident = c'.ident ∧ c.authorisedUsers = c'.authorisedUsers := by
    intro c hc
    rw [heq] at hc
    obtain ⟨c', hc', rfl⟩ := List.mem_map.mp hc
    refine ⟨c', hc', ?_⟩
    split <;> exact ⟨rfl, rfl⟩
  have hforth : ∀ c' ∈ s.connections, ∃ c ∈ (s.rewish username pdiff).connections,
      c.authorisedUsers = c'.authorisedUsers := by
    intro c' hc'
    rw [heq]
    refine ⟨_, List.mem_map.mpr ⟨c', hc', rfl⟩, ?_⟩
    split <;> rfl
  have hidents : (s.rewish username pdiff).connections.map DiffConn.ident =
      s.connections.map DiffConn.ident := by
    rw [heq, List.map_map]
    refine List.map_congr_left fun c _ => ?_
    rw [Function.comp_apply]
    split <;> rfl
  have hfresh : (s.rewish username pdiff).fresh = s.fresh := by
    rw [heq]
    rfl
  constructor
  case usernames => exact hnames ▸ H.usernames
  case idents => exact hidents ▸ H.idents
  case ident_lt =>
    intro c hc
    obtain ⟨c', hc', hident, -⟩ := hback c hc
    rw [hident, hfresh]
    exact H.ident_lt c' hc'
  case entries =>
    intro c hc entry hentry
    obtain ⟨c', hc', hident, hlist⟩ := hback c hc
    rw [hident, hfresh, hnames]
    exact H.entries c' hc' entry (hlist ▸ hentry)
  case linked =>
    intro client hclient
    have hmem : client ∈ (s.setClient username fun client =>
        { client with desiredSharePdiff := pdiff }).clients := by
      rw [heq] at hclient
      exact hclient
    obtain ⟨client', hclient', rfl⟩ := List.mem_map.mp hmem
    obtain ⟨hnodup, hlist⟩ := H.linked client' hclient'
    have hsame : ∀ entry : UserEntry, (∃ c ∈ (s.rewish username pdiff).connections,
        entry ∈ c.authorisedUsers ∧ entry.client = client'.username) ↔
        ∃ c ∈ s.connections, entry ∈ c.authorisedUsers ∧ entry.client = client'.username := by
      intro entry
      constructor
      · rintro ⟨c, hc, hentry, hclientEq⟩
        obtain ⟨c', hc', -, hlist'⟩ := hback c hc
        exact ⟨c', hc', hlist' ▸ hentry, hclientEq⟩
      · rintro ⟨c', hc', hentry, hclientEq⟩
        obtain ⟨c, hc, hlist'⟩ := hforth c' hc'
        exact ⟨c, hc, hlist' ▸ hentry, hclientEq⟩
    split
    · exact ⟨hnodup, fun entry => (hlist entry).trans (hsame entry).symm⟩
    · exact ⟨hnodup, fun entry => (hlist entry).trans (hsame entry).symm⟩

/-- **A user has another difficulty**, and every connection desires what its users do, unless that
difficulty is no number. -/
theorem Inv.agrees_rewish_iff (H : s.Inv) {username : CStr}
    (hname : username ∈ s.clients.map DiffClient.username) {pdiff : PdiffValue}
    (hpdiff : isZero pdiff = false) :
    (∀ c ∈ (s.rewish username pdiff).connections, (s.rewish username pdiff).Agrees c) ↔
      (pdiff = .nan → ∀ c ∈ s.connections, ∀ entry ∈ c.authorisedUsers,
        entry.client ≠ username) := by
  obtain ⟨lists, hlists, heq⟩ := rewish_eq H.toBase hname pdiff
  obtain ⟨t, ht⟩ : ∃ t, t = s.setClient username fun client =>
    { client with desiredSharePdiff := pdiff } := ⟨_, rfl⟩
  have hdesired : ∀ name, t.desiredOf name = if name = username then pdiff else s.desiredOf name :=
    fun name => ht ▸ desiredOf_set hname pdiff name
  rw [← ht] at heq
  -- where the user is listed, only its own difficulty can be no number
  have hlisted : ∀ c ∈ s.connections, lists c = true →
      (t.Agrees (t.recompute username c) ↔ pdiff ≠ .nan) := by
    intro c hc hlist
    obtain ⟨entry, hentry, hclientEq⟩ := (hlists c hc).mp hlist
    have hown : isZero (t.desiredOf username) = false := by rw [hdesired, if_pos rfl, hpdiff]
    rw [agrees_recompute_iff hown ⟨entry, hentry, hclientEq⟩, mem_wishes]
    have hagrees := H.agrees c hc (List.ne_nil_of_mem hentry)
    constructor
    · rintro hnums rfl
      exact hnums ⟨⟨entry, hentry, by rw [hdesired, if_pos hclientEq]⟩, rfl⟩
    · rintro hnum ⟨⟨other, hother, hvalue⟩, hnonzero⟩
      rw [hdesired] at hvalue
      split at hvalue
      · exact hnum hvalue
      · exact hagrees.1.nan_notMem (mem_wishes.mpr ⟨⟨other, hother, hvalue⟩, hnonzero⟩)
  have hagrees : ∀ c, (s.rewish username pdiff).Agrees c ↔ t.Agrees c := by
    intro c
    rw [heq]
    exact Iff.rfl
  constructor
  · rintro hall hnan c hc entry hentry hclientEq
    have hlist := (hlists c hc).mpr ⟨entry, hentry, hclientEq⟩
    have hmem : t.recompute username c ∈ (s.rewish username pdiff).connections := by
      rw [heq]
      exact List.mem_map.mpr ⟨c, hc, if_pos hlist⟩
    exact (hlisted c hc hlist).mp ((hagrees _).mp (hall _ hmem)) hnan
  · intro hsane c hc
    rw [hagrees]
    rw [heq] at hc
    obtain ⟨c', hc', rfl⟩ := List.mem_map.mp hc
    cases hlist : lists c' with
    | true =>
      rw [if_pos rfl]
      obtain ⟨entry, hentry, hclientEq⟩ := (hlists c' hc').mp hlist
      exact (hlisted c' hc' hlist).mpr fun hnan => hsane hnan c' hc' entry hentry hclientEq
    | false =>
      rw [if_neg (by decide)]
      refine (H.agrees c' hc').congr fun entry hentry => ?_
      rw [hdesired, if_neg fun hclientEq => ?_]
      rw [(hlists c' hc').mpr ⟨entry, hentry, hclientEq⟩] at hlist
      cases hlist

/-! ## Closing -/

/-- The entries for a user. -/
def entriesOf (entries : List UserEntry) (client : DiffClient) : List UserEntry :=
  entries.filter fun entry => entry.client = client.username

/-- The entries of a connection are taken out of the lists of its users. -/
theorem clients_foldl_erase (entries : List UserEntry) (s : UserDiffs) :
    entries.foldl (fun s entry => s.setClient entry.client fun client =>
        { client with stratumsrvConnlist := client.stratumsrvConnlist.erase entry }) s =
      { s with clients := s.clients.map fun client =>
          { client with
            stratumsrvConnlist :=
              client.stratumsrvConnlist.diff (entriesOf entries client) } } := by
  induction entries generalizing s with
  | nil => simp [entriesOf]
  | cons entry rest ih =>
    rw [List.foldl_cons, ih]
    simp only [setClient, List.map_map]
    congr 1
    refine List.map_congr_left fun client _ => ?_
    rw [Function.comp_apply]
    by_cases hclient : client.username = entry.client
    · rw [if_pos hclient, entriesOf, entriesOf, List.filter_cons_of_pos (by simp [hclient]),
        List.diff_cons]
    · rw [if_neg hclient, entriesOf, entriesOf, List.filter_cons_of_neg (by simp [Ne.symm hclient])]

theorem Inv.clientClose (H : s.Inv) {c₀ : DiffConn} (hc₀ : c₀ ∈ s.connections) :
    (s.clientClose c₀).Inv := by
  have heq := clients_foldl_erase c₀.authorisedUsers
    { s with connections := s.connections.filter fun c => c.ident != c₀.ident }
  obtain ⟨t, ht⟩ : ∃ t, t = s.clientClose c₀ := ⟨_, rfl⟩
  have hclose : t = _ := ht.trans heq
  rw [← ht]
  have hsub : ∀ c ∈ t.connections, c ∈ s.connections ∧ c.ident ≠ c₀.ident := by
    intro c hc
    rw [hclose] at hc
    obtain ⟨hmem, hident⟩ := List.mem_filter.mp hc
    exact ⟨hmem, bne_iff_ne.mp hident⟩
  have hnames : t.clients.map DiffClient.username = s.clients.map DiffClient.username := by
    rw [hclose, List.map_map]
    rfl
  have hfresh : t.fresh = s.fresh := by rw [hclose]
  have hdesired : ∀ name, t.desiredOf name = s.desiredOf name := by
    intro name
    rw [hclose, desiredOf, desiredOf, List.find?_map, Option.map_map]
    rfl
  constructor
  case agrees => exact fun c hc => (H.agrees c (hsub c hc).1).congr fun _ _ => hdesired _
  constructor
  case usernames => exact hnames ▸ H.usernames
  case idents =>
    rw [hclose]
    exact H.idents.sublist (List.filter_sublist.map _)
  case ident_lt => exact fun c hc => hfresh ▸ H.ident_lt c (hsub c hc).1
  case entries =>
    intro c hc entry hentry
    rw [hfresh, hnames]
    exact H.entries c (hsub c hc).1 entry hentry
  case linked =>
    intro client hclient
    rw [hclose] at hclient
    obtain ⟨client', hclient', rfl⟩ := List.mem_map.mp hclient
    obtain ⟨hnodup, hlist⟩ := H.linked client' hclient'
    refine ⟨hnodup.diff, fun entry => ?_⟩
    rw [hnodup.mem_sdiff_iff, hlist, entriesOf, List.mem_filter, decide_eq_true_eq]
    constructor
    · rintro ⟨⟨c, hc, hentry, hclientEq⟩, hother⟩
      refine ⟨c, ?_, hentry, hclientEq⟩
      rw [hclose]
      refine List.mem_filter.mpr ⟨hc, bne_iff_ne.mpr fun hident => hother ⟨?_, hclientEq⟩⟩
      rwa [H.eq_of_ident hc hc₀ hident] at hentry
    · rintro ⟨c, hc, hentry, hclientEq⟩
      obtain ⟨hmem, hident⟩ := hsub c hc
      refine ⟨⟨c, hmem, hentry, hclientEq⟩, fun hboth => hident ?_⟩
      -- the entry would be of both connections
      exact (H.entries c hmem entry hentry).1.symm.trans (H.entries c₀ hc₀ entry hboth.1).1

/-! ## Steps and runs -/

/-- The structure of the lists is kept by every event. -/
theorem Inv.base_step (H : s.Inv) {e : Event} {s' : UserDiffs} (hstep : s.step e = some s') :
    s'.Base := by
  cases e with
  | listen dflt =>
    obtain rfl := Option.some.inj hstep
    exact (H.listen dflt).toBase
  | authorize conn username dflt =>
    obtain ⟨c, hc, rfl⟩ := Option.map_eq_some_iff.mp hstep
    obtain ⟨hclient, hname, hconns, -⟩ := H.findOrCreateClient username dflt
    rw [miningAuthorize_eq]
    have hfind : (s.findOrCreateClient username dflt).find conn = some c := by
      rwa [UserDiffs.find, hconns]
    exact hclient.toBase.enter hfind hname
  | setDiff username nv =>
    rw [step] at hstep
    split at hstep
    · next hfound =>
      obtain ⟨client, hclient, husername⟩ := List.any_eq_true.mp hfound
      have hname : username ∈ s.clients.map DiffClient.username :=
        List.mem_map.mpr ⟨client, hclient, beq_iff_eq.mp husername⟩
      obtain rfl := Option.some.inj hstep
      rw [proxySetDiff]
      split
      · exact H.toBase
      · exact H.toBase.rewish hname _
    · cases hstep
  | close conn =>
    obtain ⟨c, hc, rfl⟩ := Option.map_eq_some_iff.mp hstep
    exact (H.clientClose (mem_of_find hc).1).toBase

/-- **One event** leads to difficulties as they should be exactly if it is sane. -/
theorem Inv.right_iff_sane (H : s.Inv) {e : Event} {s' : UserDiffs} (hstep : s.step e = some s') :
    s.Right e s' ↔ s.Sane e s' := by
  have hlinked := (H.base_step hstep).linked
  refine (and_iff_right hlinked).trans ?_
  cases e with
  | listen dflt =>
    obtain rfl := Option.some.inj hstep
    exact iff_of_true (H.listen dflt).agrees trivial
  | authorize conn username dflt =>
    obtain ⟨c, hc, rfl⟩ := Option.map_eq_some_iff.mp hstep
    obtain ⟨hclient, -, hconns, -, hsame⟩ := H.findOrCreateClient username dflt
    have hfind : (s.findOrCreateClient username dflt).find conn = some c := by
      rwa [UserDiffs.find, hconns]
    have hwishes : (s.findOrCreateClient username dflt).wishes c.authorisedUsers =
        s.wishes c.authorisedUsers :=
      wishes_congr fun entry hentry => hsame _ (H.entries c (mem_of_find hc).1 entry hentry).2.2
    rw [miningAuthorize_eq, hclient.agrees_enter_iff hfind, hwishes]
    refine and_congr_right fun _ => forall_congr' fun _ => ?_
    constructor
    · intro h c' hc'
      obtain rfl := Option.some.inj (hc.symm.trans hc')
      exact h
    · exact fun h => h c hc
  | setDiff username nv =>
    rw [step] at hstep
    split at hstep
    · next hfound =>
      obtain ⟨client, hclient, husername⟩ := List.any_eq_true.mp hfound
      have hname : username ∈ s.clients.map DiffClient.username :=
        List.mem_map.mpr ⟨client, hclient, beq_iff_eq.mp husername⟩
      obtain rfl := Option.some.inj hstep
      rw [proxySetDiff, Sane]
      cases haccept : acceptDiff nv with
      | none => exact iff_of_true H.agrees fun h => by cases h
      | some pdiff =>
        rw [Option.some.injEq]
        exact H.agrees_rewish_iff hname (acceptDiff_ne_zero haccept)
    · cases hstep
  | close conn =>
    obtain ⟨c, hc, rfl⟩ := Option.map_eq_some_iff.mp hstep
    exact iff_of_true (H.clientClose (mem_of_find hc).1).agrees trivial

/-- **In every run** the lists and the difficulties are as they should be exactly if every event is
sane. -/
theorem allSteps_reloaded_iff (es : List Event) :
    Run.AllSteps step Right init es ↔ Run.AllSteps step Sane init es := by
  have hiff : ∀ s e s', Inv s → step s e = some s' → (Right s e s' ↔ Sane s e s') :=
    fun s e s' H hstep => H.right_iff_sane hstep
  have hkeep : ∀ s e s', Inv s → step s e = some s' → Right s e s' → Inv s' :=
    fun s e s' H hstep hright => ⟨H.base_step hstep, hright.2⟩
  exact Run.allSteps_congr hiff hkeep es inv_init

/-- Two users, where the second gets an infinite difficulty with its first connection. -/
def infiniteRun : List Event :=
  [.listen none, .authorize 0 (.ofMem [0x61]) none,
    .authorize 0 (.ofMem [0x62]) (some (.num (some ⊤)))]

/-- The connection keeps the difficulty that stands for none. -/
theorem not_right_infinite : ¬ Run.AllSteps step Right init infiniteRun := by
  intro hall
  obtain ⟨-, hall⟩ := hall _ rfl
  obtain ⟨-, hall⟩ := hall _ rfl
  obtain ⟨⟨-, hagrees⟩, -⟩ := hall _ rfl
  have hmin := (hagrees _ (List.mem_cons_self) (List.cons_ne_nil _ _)).1
  rw [IsMinimum, if_neg (by decide +kernel)] at hmin
  have hmem := hmin.1
  revert hmem
  decide +kernel

end UserDiffs

end MassGridMiner

import MassGridMiner.Lib.Hex
import MassGridMiner.Lib.Run
import MassGridMiner.Lib.Word
import Mathlib.Data.List.Nodup

/-!
# Subscriptions of the miners behind the proxy

Every subscribed connection holds a value of its own, the first extranonce of the coinbases
it works on.  `reserve_work2d_` hands out the greatest value that is not reserved; zero is
reserved from the start, and is also the mark of a connection without a value.  When a
connection is closed `release_work2d_` is told whatever the connection holds, the mark
included.

## Main definitions

* `reserveWork2d`, `releaseWork2d` — the reservation of values.
* `Stratumsrv`, `Stratumsrv.step` — the connections, and what happens to them.
* `Stratumsrv.Sound` — the subscribed connections hold different values in range.
* `Stratumsrv.Lawful` — a step that leads to such a state, and refuses a subscription just
  where all values are held.
* `Stratumsrv.ZeroKept` — the condition for that.
-/

namespace MassGridMiner

/-- `WORK2D_MAX_DIVISIONS`. -/
def work2dMaxDivisions : ℕ := 255

/-- `work2d_reserved`, by value. -/
abbrev Work2dReserved := Vector Bool (work2dMaxDivisions + 1)

/-- `work2d_reserved` at the start. -/
def Work2dReserved.init : Work2dReserved := (Vector.replicate _ false).set 0 true

/-- A value is reserved. -/
def isReserved (reserved : Work2dReserved) (v : ℕ) : Bool := reserved[v]?.getD false

/-- The loop of `reserve_work2d_` from a value downwards. -/
def reserveLoop (reserved : Work2dReserved) : ℕ → Option ℕ
  | 0 => if isReserved reserved 0 then none else some 0
  | v + 1 => if isReserved reserved (v + 1) then reserveLoop reserved v else some (v + 1)

/-- `reserve_work2d_`: the table and the value, or none where it returns false. -/
def reserveWork2d (reserved : Work2dReserved) : Option (Work2dReserved × UInt32) :=
  (reserveLoop reserved work2dMaxDivisions).map fun xnonce1 =>
    (reserved.setIfInBounds xnonce1 true, UInt32.ofNat xnonce1)

/-- `release_work2d_`. -/
def releaseWork2d (reserved : Work2dReserved) (xnonce1 : UInt32) : Work2dReserved :=
  reserved.setIfInBounds xnonce1.toNat false

/-- The part of `struct stratumsrv_conn` that subscriptions use.  The number stands for the
address; `subscribed`, which is not in the source, says that a subscription was granted. -/
structure StratumsrvConn where
  ident : ℕ
  xnonce1Le : UInt32
  subscribed : Bool

/-- The proxy: the table of values and the open connections. -/
structure Stratumsrv where
  reserved : Work2dReserved
  connections : List StratumsrvConn
  fresh : ℕ

/-- What a subscription is answered. -/
inductive SubscribeAnswer
  | noNotify
  | maximumClients
  | granted (xnonce1x : List UInt8)
  deriving DecidableEq

namespace Stratumsrv

def init : Stratumsrv := ⟨Work2dReserved.init, [], 0⟩

/-- What happens: a connection is opened, asks to subscribe, or is closed.  `notify` says
that there is a job to announce, after asking for one if need be. -/
inductive Event
  | listen
  | subscribe (conn : ℕ) (notify : Bool)
  | close (conn : ℕ)

/-- The open connection with a number. -/
def find (s : Stratumsrv) (conn : ℕ) : Option StratumsrvConn :=
  s.connections.find? fun c => c.ident == conn

/-- `stratumlistener`. -/
def listen (s : Stratumsrv) : Stratumsrv :=
  { s with
    connections := { ident := s.fresh, xnonce1Le := 0, subscribed := false } :: s.connections
    fresh := s.fresh + 1 }

/-- A connection is given a value. -/
def grant (s : Stratumsrv) (conn : ℕ) (xnonce1 : UInt32) : List StratumsrvConn :=
  s.connections.map fun c =>
    if c.ident = conn then { c with xnonce1Le := xnonce1, subscribed := true } else c

/-- `stratumsrv_mining_subscribe`.  The answer spells the first byte of the value. -/
def miningSubscribe (s : Stratumsrv) (notify : Bool) (conn : StratumsrvConn) :
    Stratumsrv × SubscribeAnswer :=
  if !notify then (s, .noNotify)
  else if conn.xnonce1Le = 0 then
    match reserveWork2d s.reserved with
    | none => (s, .maximumClients)
    | some (reserved, xnonce1) =>
      ({ s with reserved := reserved, connections := s.grant conn.ident xnonce1 },
        .granted (bin2hex ((le32 xnonce1).take 1)))
  else (s, .granted (bin2hex ((le32 conn.xnonce1Le).take 1)))

/-- `stratumsrv_client_close`. -/
def clientClose (s : Stratumsrv) (conn : StratumsrvConn) : Stratumsrv :=
  { s with
    reserved := releaseWork2d s.reserved conn.xnonce1Le
    connections := s.connections.filter fun c => c.ident != conn.ident }

def step (s : Stratumsrv) : Event → Option Stratumsrv
  | .listen => some s.listen
  | .subscribe conn notify => (s.find conn).map fun c => (s.miningSubscribe notify c).1
  | .close conn => (s.find conn).map s.clientClose

/-- A subscribed connection holds the value. -/
def Held (s : Stratumsrv) (v : ℕ) : Prop :=
  ∃ c ∈ s.connections, c.subscribed = true ∧ c.xnonce1Le.toNat = v

/-- All the values are held. -/
def AllHeld (s : Stratumsrv) : Prop := ∀ v, 1 ≤ v → v ≤ work2dMaxDivisions → s.Held v

/-- Every subscribed connection holds a value in range, and no two the same. -/
structure Sound (s : Stratumsrv) : Prop where
  inRange : ∀ c ∈ s.connections, c.subscribed = true →
    1 ≤ c.xnonce1Le.toNat ∧ c.xnonce1Le.toNat ≤ work2dMaxDivisions
  distinct : s.connections.Pairwise fun a b =>
    a.subscribed = true → b.subscribed = true → a.xnonce1Le ≠ b.xnonce1Le

/-- The step leads to a sound state, and a subscription of a connection that is not
subscribed, there being a job, is refused just where all values are held. -/
structure Lawful (s : Stratumsrv) (e : Event) (s' : Stratumsrv) : Prop where
  sound : s'.Sound
  refused_iff : ∀ conn c, e = .subscribe conn true → s.find conn = some c →
    c.subscribed = false → ((s.miningSubscribe true c).2 = .maximumClients ↔ s.AllHeld)

/-- Zero is still reserved when a connection without a value subscribes and all values are
held: no connection had been closed without ever having subscribed. -/
def ZeroKept (s : Stratumsrv) (e : Event) (_ : Stratumsrv) : Prop :=
  ∀ conn c, e = .subscribe conn true → s.find conn = some c → c.xnonce1Le = 0 →
    s.AllHeld → isReserved s.reserved 0 = true

end Stratumsrv

/-! ## The reservation -/

theorem isReserved_set {reserved : Work2dReserved} {v : ℕ} (H : v ≤ work2dMaxDivisions)
    (b : Bool) (w : ℕ) :
    isReserved (reserved.setIfInBounds v b) w = if w = v then b else isReserved reserved w := by
  have hv : v < work2dMaxDivisions + 1 := by omega
  rw [isReserved, isReserved, Vector.getElem?_setIfInBounds]
  by_cases hw : w = v
  · subst hw
    simp [hv]
  · simp [hw, Ne.symm hw]

/-- Nothing is handed out where every value down to zero is reserved. -/
theorem reserveLoop_eq_none_iff {reserved : Work2dReserved} {n : ℕ} :
    reserveLoop reserved n = none ↔ ∀ w ≤ n, isReserved reserved w = true := by
  induction n with
  | zero => simp [reserveLoop]
  | succ n ih =>
      simp only [reserveLoop, Nat.le_succ_iff]
      split
      next htop =>
        rw [ih]
        constructor
        · rintro h w (hw | rfl)
          · exact h w hw
          · exact htop
        · exact fun h w hw => h w (.inl hw)
      next hfree =>
        simp only [reduceCtorEq, false_iff]
        exact fun h => hfree (h (n + 1) (.inr rfl))

/-- What is handed out is the greatest value that is free. -/
theorem reserveLoop_eq_some {reserved : Work2dReserved} {n v : ℕ}
    (H : reserveLoop reserved n = some v) :
    v ≤ n ∧ isReserved reserved v = false ∧
      ∀ w, v < w → w ≤ n → isReserved reserved w = true := by
  induction n with
  | zero =>
      rw [reserveLoop] at H
      split at H
      · cases H
      next hfree =>
        obtain rfl := Option.some.inj H
        exact ⟨le_rfl, by simpa using hfree, fun w hlt hle => absurd hlt (by omega)⟩
  | succ n ih =>
      rw [reserveLoop] at H
      split at H
      next htop =>
        obtain ⟨hle, hfree, habove⟩ := ih H
        refine ⟨by omega, hfree, fun w hlt hw => ?_⟩
        rcases Nat.lt_or_ge n w with hn | hn
        · obtain rfl : w = n + 1 := by omega
          exact htop
        · exact habove w hlt hn
      next hfree =>
        obtain rfl := Option.some.inj H
        exact ⟨le_rfl, by simpa using hfree, fun w hlt hle => absurd hlt (by omega)⟩

namespace Stratumsrv

/-! ## The invariant -/

/-- The table of values is that of the connections, but for zero; a connection is
subscribed just when it has a value; and the numbers stand for different addresses. -/
structure Inv (s : Stratumsrv) : Prop where
  subscribed_iff : ∀ c ∈ s.connections, (c.subscribed = true ↔ c.xnonce1Le ≠ 0)
  le_max : ∀ c ∈ s.connections, c.xnonce1Le.toNat ≤ work2dMaxDivisions
  reserved_iff : ∀ v, 1 ≤ v → v ≤ work2dMaxDivisions →
    (isReserved s.reserved v = true ↔ ∃ c ∈ s.connections, c.xnonce1Le.toNat = v)
  distinct : ∀ a ∈ s.connections, ∀ b ∈ s.connections,
    a.xnonce1Le ≠ 0 → a.xnonce1Le = b.xnonce1Le → a.ident = b.ident
  idents : (s.connections.map StratumsrvConn.ident).Nodup
  ident_lt : ∀ c ∈ s.connections, c.ident < s.fresh

variable {s : Stratumsrv}

theorem mem_of_find {conn : ℕ} {c : StratumsrvConn} (H : s.find conn = some c) :
    c ∈ s.connections ∧ c.ident = conn :=
  ⟨List.mem_of_find?_eq_some H, by simpa using List.find?_some H⟩

theorem toNat_pos {x : UInt32} (H : x ≠ 0) : 1 ≤ x.toNat := by
  have hne : x.toNat ≠ 0 := fun h => H (UInt32.toNat_inj.mp h)
  omega

/-- At the start no value is reserved but zero. -/
theorem isReserved_init {v : ℕ} (hv : 1 ≤ v) : isReserved Work2dReserved.init v = false := by
  have hne : 0 ≠ v := by omega
  simp only [isReserved, Work2dReserved.init, Vector.getElem?_set, hne, if_false,
    Vector.getElem?_replicate]
  split <;> rfl

namespace Inv

theorem init : Stratumsrv.init.Inv where
  subscribed_iff := by simp [Stratumsrv.init]
  le_max := by simp [Stratumsrv.init]
  reserved_iff := by
    intro v hv hle
    simp [Stratumsrv.init, isReserved_init hv]
  distinct := by simp [Stratumsrv.init]
  idents := by simp [Stratumsrv.init]
  ident_lt := by simp [Stratumsrv.init]

theorem sound (H : s.Inv) : s.Sound where
  inRange c hc hsub := ⟨toNat_pos ((H.subscribed_iff c hc).mp hsub), H.le_max c hc⟩
  distinct := by
    refine (List.pairwise_map.mp H.idents).imp_of_mem ?_
    intro a b ha hb hident hsub _ heq
    exact hident (H.distinct a ha b hb ((H.subscribed_iff a ha).mp hsub) heq)

/-- A value is reserved exactly if a subscribed connection holds it. -/
theorem held_iff (H : s.Inv) {v : ℕ} (hv : 1 ≤ v) (hle : v ≤ work2dMaxDivisions) :
    s.Held v ↔ isReserved s.reserved v = true := by
  rw [H.reserved_iff v hv hle]
  constructor
  · rintro ⟨c, hc, -, hval⟩
    exact ⟨c, hc, hval⟩
  · rintro ⟨c, hc, hval⟩
    refine ⟨c, hc, (H.subscribed_iff c hc).mpr fun hzero => ?_, hval⟩
    rw [hzero] at hval
    exact absurd hval (by simp; omega)

theorem allHeld_iff (H : s.Inv) :
    s.AllHeld ↔ ∀ v, 1 ≤ v → v ≤ work2dMaxDivisions → isReserved s.reserved v = true :=
  forall_congr' fun _ => forall_congr' fun hv => forall_congr' fun hle => H.held_iff hv hle

theorem listen (H : s.Inv) : s.listen.Inv where
  subscribed_iff := by
    simp only [Stratumsrv.listen, List.forall_mem_cons]
    exact ⟨by simp, H.subscribed_iff⟩
  le_max := by
    simp only [Stratumsrv.listen, List.forall_mem_cons]
    exact ⟨Nat.zero_le _, H.le_max⟩
  reserved_iff := by
    intro v hv hle
    rw [Stratumsrv.listen, H.reserved_iff v hv hle, List.exists_mem_cons_iff]
    have hzero : (0 : UInt32).toNat ≠ v := fun h => absurd h (by simp; omega)
    exact (or_iff_right hzero).symm
  distinct := by
    simp only [Stratumsrv.listen, List.forall_mem_cons]
    refine ⟨⟨fun h => absurd rfl h, fun _ _ h => absurd rfl h⟩, fun a ha => ⟨?_, H.distinct a ha⟩⟩
    exact fun hne hzero => absurd hzero hne
  idents := by
    refine List.nodup_cons.mpr ⟨fun hmem => ?_, H.idents⟩
    obtain ⟨c, hc, hident⟩ := List.mem_map.mp hmem
    exact (H.ident_lt c hc).ne hident
  ident_lt := by
    simp only [Stratumsrv.listen, List.forall_mem_cons]
    exact ⟨Nat.lt_succ_self _, fun c hc => (H.ident_lt c hc).trans (Nat.lt_succ_self _)⟩

theorem clientClose (H : s.Inv) {conn : StratumsrvConn} (hconn : conn ∈ s.connections) :
    (s.clientClose conn).Inv where
  subscribed_iff c hc := H.subscribed_iff c (List.mem_filter.mp hc).1
  le_max c hc := H.le_max c (List.mem_filter.mp hc).1
  reserved_iff := by
    intro v hv hle
    rw [Stratumsrv.clientClose, releaseWork2d, isReserved_set (H.le_max conn hconn)]
    simp only [List.mem_filter, bne_iff_ne]
    split
    next hval =>
      -- the value that is released was held by this connection alone
      simp only [Bool.false_eq_true, false_iff, not_exists, not_and]
      rintro c ⟨hc, hident⟩ hheld
      refine hident (H.distinct c hc conn hconn ?_ (UInt32.toNat_inj.mp (hheld.trans hval)))
      rintro hzero
      rw [hzero] at hheld
      exact absurd hheld (by simp; omega)
    next hval =>
      rw [H.reserved_iff v hv hle]
      refine exists_congr fun c => and_congr_left fun hheld => ?_
      refine (and_iff_left_of_imp fun hc => ?_).symm
      intro hident
      rw [List.inj_on_of_nodup_map H.idents hc hconn hident] at hheld
      exact hval hheld.symm
  distinct a ha b hb := H.distinct a (List.mem_filter.mp ha).1 b (List.mem_filter.mp hb).1
  idents := H.idents.sublist (List.filter_sublist.map _)
  ident_lt c hc := H.ident_lt c (List.mem_filter.mp hc).1

/-- Whether zero is reserved does not matter. -/
theorem reserveZero (H : s.Inv) : Inv { s with reserved := s.reserved.setIfInBounds 0 true } where
  subscribed_iff := H.subscribed_iff
  le_max := H.le_max
  reserved_iff v hv hle := by
    rw [isReserved_set (Nat.zero_le _), if_neg (by omega)]
    exact H.reserved_iff v hv hle
  distinct := H.distinct
  idents := H.idents
  ident_lt := H.ident_lt

theorem map_ident_grant (s : Stratumsrv) (conn : ℕ) (xnonce1 : UInt32) :
    (s.grant conn xnonce1).map StratumsrvConn.ident =
      s.connections.map StratumsrvConn.ident := by
  rw [grant, List.map_map]
  refine List.map_congr_left fun c _ => ?_
  simp only [Function.comp_apply]
  split <;> rfl

/-- The value that is given is held beside those that were. -/
theorem exists_mem_grant_iff (H : s.Inv) {conn : StratumsrvConn} (hconn : conn ∈ s.connections)
    (hnone : conn.xnonce1Le = 0) {xnonce1 : UInt32} {w : ℕ} (hw : 1 ≤ w) :
    (∃ c ∈ s.grant conn.ident xnonce1, c.xnonce1Le.toNat = w) ↔
      w = xnonce1.toNat ∨ ∃ c ∈ s.connections, c.xnonce1Le.toNat = w := by
  simp only [grant, List.mem_map, exists_exists_and_eq_and]
  constructor
  · rintro ⟨d, hd, hval⟩
    split at hval
    · exact .inl hval.symm
    · exact .inr ⟨d, hd, hval⟩
  · rintro (rfl | ⟨d, hd, hval⟩)
    · exact ⟨conn, hconn, by rw [if_pos rfl]⟩
    · refine ⟨d, hd, ?_⟩
      rw [if_neg fun hident => ?_]
      · exact hval
      · rw [List.inj_on_of_nodup_map H.idents hd hconn hident, hnone] at hval
        exact absurd hval (by simp; omega)

/-- A connection without a value is given one that is not reserved. -/
theorem granted (H : s.Inv) {conn : StratumsrvConn} (hconn : conn ∈ s.connections)
    (hnone : conn.xnonce1Le = 0) {v : ℕ} (hv : 1 ≤ v) (hle : v ≤ work2dMaxDivisions)
    (hfree : isReserved s.reserved v = false) :
    Inv { s with
      reserved := s.reserved.setIfInBounds v true
      connections := s.grant conn.ident (UInt32.ofNat v) } := by
  have hnat : (UInt32.ofNat v).toNat = v :=
    UInt32.toNat_ofNat_of_lt (lt_of_le_of_lt hle (by decide))
  have hne : UInt32.ofNat v ≠ 0 := fun h => by
    rw [h] at hnat
    exact absurd hnat (by simp; omega)
  have hnew : ∀ c ∈ s.connections, c.xnonce1Le ≠ UInt32.ofNat v := by
    intro c hc heq
    have hres := (H.reserved_iff v hv hle).mpr ⟨c, hc, by rw [heq, hnat]⟩
    rw [hfree] at hres
    cases hres
  constructor
  case subscribed_iff =>
    intro c hc
    obtain ⟨d, hd, rfl⟩ := List.mem_map.mp hc
    split
    · simpa using hne
    · exact H.subscribed_iff d hd
  case le_max =>
    intro c hc
    obtain ⟨d, hd, rfl⟩ := List.mem_map.mp hc
    split
    · exact hnat.trans_le hle
    · exact H.le_max d hd
  case reserved_iff =>
    intro w hw hwle
    rw [exists_mem_grant_iff H hconn hnone hw, hnat, isReserved_set hle]
    split
    next heq => simp [heq]
    next hother => rw [H.reserved_iff w hw hwle, or_iff_right hother]
  case distinct =>
    intro a ha b hb
    obtain ⟨c, hc, rfl⟩ := List.mem_map.mp ha
    obtain ⟨d, hd, rfl⟩ := List.mem_map.mp hb
    split_ifs with hcident hdident hdident
    · exact fun _ _ => hcident.trans hdident.symm
    · exact fun _ heq => absurd heq.symm (hnew d hd)
    · exact fun _ heq => absurd heq (hnew c hc)
    · exact H.distinct c hc d hd
  case idents => exact (map_ident_grant s conn.ident (UInt32.ofNat v)).symm ▸ H.idents
  case ident_lt =>
    intro c hc
    obtain ⟨d, hd, rfl⟩ := List.mem_map.mp hc
    split
    · exact H.ident_lt d hd
    · exact H.ident_lt d hd

end Inv

/-! ## Steps and runs -/

/-- A subscription of a connection without a value, there being a job. -/
theorem miningSubscribe_of_eq_zero {conn : StratumsrvConn} (H : conn.xnonce1Le = 0) :
    s.miningSubscribe true conn =
      match reserveWork2d s.reserved with
      | none => (s, .maximumClients)
      | some (reserved, xnonce1) =>
        ({ s with reserved := reserved, connections := s.grant conn.ident xnonce1 },
          .granted (bin2hex ((le32 xnonce1).take 1))) := by
  rw [miningSubscribe, if_neg (by decide), if_pos H]

/-- A subscription of a connection with a value leaves everything as it is. -/
theorem miningSubscribe_fst_of_ne_zero {conn : StratumsrvConn} (H : conn.xnonce1Le ≠ 0)
    (notify : Bool) : (s.miningSubscribe notify conn).1 = s := by
  cases notify with
  | false => rfl
  | true => rw [miningSubscribe, if_neg (by decide), if_neg H]

/-- **One subscription of a connection without a value**: it keeps the invariant and is
refused just where all values are held, unless it is given the value zero. -/
theorem subscribe_cases (H : s.Inv) {conn : StratumsrvConn} (hconn : conn ∈ s.connections)
    (hnone : conn.xnonce1Le = 0) :
    (s.miningSubscribe true conn).1.Inv ∧
        ((s.miningSubscribe true conn).2 = .maximumClients ↔ s.AllHeld) ∧
        (s.AllHeld → isReserved s.reserved 0 = true) ∨
      (s.AllHeld ∧ isReserved s.reserved 0 = false ∧
        ∃ c ∈ (s.miningSubscribe true conn).1.connections,
          c.subscribed = true ∧ c.xnonce1Le = 0) := by
  rw [miningSubscribe_of_eq_zero hnone, reserveWork2d, H.allHeld_iff]
  cases hloop : reserveLoop s.reserved work2dMaxDivisions with
  | none =>
      have hall := reserveLoop_eq_none_iff.mp hloop
      have hheld : ∀ v, 1 ≤ v → v ≤ work2dMaxDivisions → isReserved s.reserved v = true :=
        fun v _ hle => hall v hle
      exact .inl ⟨H, iff_of_true rfl hheld, fun _ => hall 0 (Nat.zero_le _)⟩
  | some v =>
      obtain ⟨hle, hfree, habove⟩ := reserveLoop_eq_some hloop
      cases v with
      | zero =>
          refine .inr ⟨fun w hw hwle => habove w hw hwle, hfree, ?_⟩
          refine ⟨{ conn with xnonce1Le := 0, subscribed := true }, ?_, rfl, rfl⟩
          exact List.mem_map.mpr ⟨conn, hconn, by rw [if_pos rfl]; rfl⟩
      | succ v =>
          have hnot : ¬ ∀ w, 1 ≤ w → w ≤ work2dMaxDivisions → isReserved s.reserved w = true := by
            intro hall
            rw [hall (v + 1) (by omega) hle] at hfree
            cases hfree
          refine .inl ⟨H.granted hconn hnone (by omega) hle hfree, ?_, fun h => absurd h hnot⟩
          simp only [Option.map_some, reduceCtorEq, false_iff]
          exact hnot

/-- A step that is no subscription of a connection without a value keeps the invariant. -/
theorem Inv.step_of_not_subscribe (H : s.Inv) {e : Event} {s' : Stratumsrv}
    (hstep : s.step e = some s')
    (hother : ∀ conn c, e = .subscribe conn true → s.find conn = some c → c.xnonce1Le ≠ 0) :
    s'.Inv := by
  cases e with
  | listen =>
      obtain rfl := Option.some.inj hstep
      exact H.listen
  | subscribe conn notify =>
      obtain ⟨c, hc, rfl⟩ := Option.map_eq_some_iff.mp hstep
      cases notify with
      | false => exact H
      | true => rwa [miningSubscribe_fst_of_ne_zero (hother conn c rfl hc)]
  | close conn =>
      obtain ⟨c, hc, rfl⟩ := Option.map_eq_some_iff.mp hstep
      exact H.clientClose (mem_of_find hc).1

/-- **One step** is lawful exactly if zero is kept, and a lawful step keeps the invariant. -/
theorem Inv.step (H : s.Inv) {e : Event} {s' : Stratumsrv} (hstep : s.step e = some s') :
    (Lawful s e s' ↔ ZeroKept s e s') ∧ (Lawful s e s' → s'.Inv) := by
  by_cases hsub : ∃ conn c, e = .subscribe conn true ∧ s.find conn = some c ∧ c.xnonce1Le = 0
  · obtain ⟨conn, c, rfl, hc, hnone⟩ := hsub
    have hs' : s' = (s.miningSubscribe true c).1 := by
      simpa [Stratumsrv.step, hc] using hstep.symm
    subst hs'
    rcases subscribe_cases H (mem_of_find hc).1 hnone with ⟨hinv, hrefused, hkept⟩ | hzero
    · have hsame : ∀ conn' d, Event.subscribe conn true = .subscribe conn' true →
          s.find conn' = some d → d = c := by
        rintro conn' d ⟨⟩ hd
        exact Option.some.inj (hd.symm.trans hc)
      refine ⟨⟨fun _ conn' d he hd _ => hkept, fun _ => ⟨hinv.sound, ?_⟩⟩, fun _ => hinv⟩
      intro conn' d he hd _
      rw [hsame conn' d he hd]
      exact hrefused
    · obtain ⟨hall, hfree, d, hd, hdsub, hdzero⟩ := hzero
      have hnot : ¬ Lawful s (.subscribe conn true) (s.miningSubscribe true c).1 := by
        intro h
        have hrange := (h.sound.inRange d hd hdsub).1
        rw [hdzero] at hrange
        exact absurd hrange (by decide)
      refine ⟨⟨fun h => absurd h hnot, fun h => ?_⟩, fun h => absurd h hnot⟩
      have hkept := h conn c rfl hc hnone hall
      rw [hfree] at hkept
      cases hkept
  · push Not at hsub
    have hinv := H.step_of_not_subscribe hstep hsub
    refine ⟨⟨fun _ conn c he hc hnone => absurd hnone (hsub conn c he hc), fun _ =>
      ⟨hinv.sound, ?_⟩⟩, fun _ => hinv⟩
    intro conn c he hc hsubscribed
    have hne := hsub conn c he hc
    rw [← H.subscribed_iff c (mem_of_find hc).1] at hne
    rw [hsubscribed] at hne
    cases hne

/-- A step that closes no connection that never subscribed keeps zero reserved. -/
theorem Inv.zero_reserved (H : s.Inv) (hzero : isReserved s.reserved 0 = true) {e : Event}
    {s' : Stratumsrv} (hstep : s.step e = some s')
    (hclose : ∀ conn c, e = .close conn → s.find conn = some c → c.subscribed = true) :
    isReserved s'.reserved 0 = true := by
  cases e with
  | listen =>
      obtain rfl := Option.some.inj hstep
      exact hzero
  | subscribe conn notify =>
      obtain ⟨c, hc, rfl⟩ := Option.map_eq_some_iff.mp hstep
      rw [miningSubscribe]
      split_ifs with hnotify hnone
      · exact hzero
      · rw [reserveWork2d]
        cases hloop : reserveLoop s.reserved work2dMaxDivisions with
        | none => exact hzero
        | some v =>
            simp only [Option.map_some]
            rw [isReserved_set (reserveLoop_eq_some hloop).1, hzero, ite_self]
      · exact hzero
  | close conn =>
      obtain ⟨c, hc, rfl⟩ := Option.map_eq_some_iff.mp hstep
      have hmem := (mem_of_find hc).1
      have hne := (H.subscribed_iff c hmem).mp (hclose conn c rfl hc)
      have hpos := toNat_pos hne
      rw [Stratumsrv.clientClose, releaseWork2d, isReserved_set (H.le_max c hmem),
        if_neg (by omega)]
      exact hzero

/-- A run that closes no connection that never subscribed keeps the law. -/
theorem allSteps_lawful_of_closes {es : List Event}
    (H : Run.AllSteps step (fun s e _ => ∀ conn c, e = .close conn → s.find conn = some c →
      c.subscribed = true) init es) : Run.AllSteps step Lawful init es := by
  refine Run.allSteps_imp_of_invariant (I := fun s => s.Inv ∧ isReserved s.reserved 0 = true)
    ?_ ⟨Inv.init, rfl⟩ H
  rintro s e s' ⟨hinv, hzero⟩ hstep hclose
  have hlawful : Lawful s e s' := (hinv.step hstep).1.mpr fun _ _ _ _ _ _ => hzero
  exact ⟨⟨(hinv.step hstep).2 hlawful, hinv.zero_reserved hzero hstep hclose⟩, hlawful⟩

/-- **In every run** the subscribed connections hold different values in range, and a
subscription is refused just where all are held, exactly if zero is kept at every step. -/
theorem allSteps_lawful_iff (es : List Event) :
    Run.AllSteps step Lawful init es ↔ Run.AllSteps step ZeroKept init es :=
  Run.allSteps_congr (fun _ _ _ H hstep => (H.step hstep).1)
    (fun _ _ _ H hstep => (H.step hstep).2) es Inv.init

/-- The greatest `k` values are reserved, and zero is not. -/
structure Filled (s : Stratumsrv) (k : ℕ) : Prop where
  fresh_eq : s.fresh = k + 1
  reserved_eq : ∀ v ≤ work2dMaxDivisions,
    isReserved s.reserved v = decide (work2dMaxDivisions - k < v)

/-- The next connection to be opened and to subscribe is given the value below these. -/
theorem Filled.fill {k : ℕ} (H : s.Filled k) (hk : k ≤ work2dMaxDivisions) :
    ∃ t, Run.exec step s [.listen, .subscribe (k + 1) true] = some t ∧
      (k < work2dMaxDivisions → t.Filled (k + 1)) ∧
      ∃ c ∈ t.connections,
        c.subscribed = true ∧ c.xnonce1Le = UInt32.ofNat (work2dMaxDivisions - k) := by
  have hfind : s.listen.find (k + 1) = some ⟨k + 1, 0, false⟩ := by
    rw [find, Stratumsrv.listen, H.fresh_eq]
    exact List.find?_cons_of_pos (by simp)
  have hloop : reserveLoop s.reserved work2dMaxDivisions = some (work2dMaxDivisions - k) := by
    cases hloop : reserveLoop s.reserved work2dMaxDivisions with
    | none =>
        have hfree := reserveLoop_eq_none_iff.mp hloop (work2dMaxDivisions - k) (by omega)
        rw [H.reserved_eq _ (by omega)] at hfree
        simp at hfree
    | some v =>
        obtain ⟨hle, hfree, habove⟩ := reserveLoop_eq_some hloop
        rw [H.reserved_eq v hle, decide_eq_false_iff_not] at hfree
        by_contra hne
        have hlt : v < work2dMaxDivisions - k := by
          have : v ≠ work2dMaxDivisions - k := fun h => hne (by rw [h])
          omega
        have hres := habove (work2dMaxDivisions - k) hlt (by omega)
        rw [H.reserved_eq _ (by omega)] at hres
        simp at hres
  have hexec : Run.exec step s [.listen, .subscribe (k + 1) true] =
      some (s.listen.miningSubscribe true ⟨k + 1, 0, false⟩).1 := by
    simp only [Run.exec_cons, step, Option.bind_some, hfind, Option.map_some, Run.exec_nil]
  refine ⟨_, hexec, ?_⟩
  rw [miningSubscribe_of_eq_zero rfl, reserveWork2d]
  simp only [Stratumsrv.listen, hloop, Option.map_some]
  refine ⟨fun hlt => ⟨by rw [H.fresh_eq], fun v hv => ?_⟩, ?_⟩
  · rw [isReserved_set (by omega), H.reserved_eq v hv]
    split
    next heq => simp [heq]; omega
    next hne => exact decide_eq_decide.mpr (by omega)
  · refine ⟨⟨k + 1, UInt32.ofNat (work2dMaxDivisions - k), true⟩, ?_, rfl, rfl⟩
    exact List.mem_map.mpr ⟨⟨k + 1, 0, false⟩, by simp [H.fresh_eq], by simp⟩

/-- Connections that are opened and subscribe, one after the other. -/
def fills (n : ℕ) : List Event :=
  (List.range n).flatMap fun k => [.listen, .subscribe (k + 1) true]

theorem fills_succ (n : ℕ) :
    fills (n + 1) = fills n ++ [.listen, .subscribe (n + 1) true] := by
  rw [fills, List.range_succ, List.flatMap_append]
  rfl

theorem Filled.fills (H : s.Filled 0) {n : ℕ} (hn : n ≤ work2dMaxDivisions) :
    ∃ t, Run.exec step s (fills n) = some t ∧ t.Filled n := by
  induction n with
  | zero => exact ⟨s, rfl, H⟩
  | succ n ih =>
      obtain ⟨t, ht, hfilled⟩ := ih (by omega)
      obtain ⟨u, hu, hnext, -⟩ := hfilled.fill (by omega)
      refine ⟨u, ?_, hnext (by omega)⟩
      rw [fills_succ, Run.exec_append, ht, Option.bind_some, hu]

/-- One connection is closed without having subscribed, and 256 others subscribe: the last
of them is given the value zero. -/
theorem not_lawful_closeThenFill :
    ¬ Run.AllSteps step Lawful init (.listen :: .close 0 :: fills 256) := by
  intro H
  obtain ⟨s, hs, hfilled⟩ : ∃ s, Run.exec step init [.listen, .close 0] = some s ∧ s.Filled 0 := by
    refine ⟨_, rfl, rfl, fun v hv => ?_⟩
    have hfree : isReserved (Work2dReserved.init.setIfInBounds 0 false) v = false := by
      rw [isReserved_set (Nat.zero_le _)]
      split
      next => rfl
      next hne => exact isReserved_init (by omega)
    exact hfree.trans (decide_eq_false (by omega)).symm
  obtain ⟨t, ht, hfull⟩ := hfilled.fills le_rfl
  obtain ⟨u, hu, -, c, hc, hsub, hzero⟩ := hfull.fill le_rfl
  have hexec : Run.exec step init (.listen :: .close 0 :: fills 256) = some u := by
    have hsplit : .listen :: .close 0 :: fills 256 =
        [.listen, .close 0] ++ (fills 255 ++ [.listen, .subscribe 256 true]) := by
      rw [fills_succ]
      rfl
    rw [hsplit, Run.exec_append, hs, Option.bind_some, Run.exec_append]
    rw [work2dMaxDivisions] at ht hu
    rw [ht, Option.bind_some, hu]
  have hsound : u.Sound :=
    Run.exec_invariant (fun _ _ _ _ _ hlawful => hlawful.sound) Inv.init.sound hexec H
  have hrange := (hsound.inRange c hc hsub).1
  rw [hzero] at hrange
  exact absurd hrange (by decide)

end Stratumsrv

end MassGridMiner

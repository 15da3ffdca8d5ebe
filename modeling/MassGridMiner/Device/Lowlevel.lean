import MassGridMiner.Lib.CString
import MassGridMiner.Lib.Keyed
import MassGridMiner.Lib.Linked
import MassGridMiner.Lib.Run
import Mathlib.Data.List.Perm.Subperm

/-!
# Scanned devices

A scan puts the records of all drivers in one list, and then takes those out of it that have the
`devid` of a record behind them: these are in a second list from that record on, the last one first.
A record is freed by as many calls as there were references to it and one more, which is made when
the list is given up.

A record is the number of the scanned one, so that the place of one that was freed is not that of
another one.

## Main definitions

* `lowlevelScan`, `lowlevelScanFree`, `lowlevelRef`, `lowlevelDevinfoFree` — the functions, none
  where they use a record that was freed.
* `LowlevelUsers` — what the callers have to know: which records are listed, and which they hold.
* `Lowlevel.Right` — the lists are as they should be, and the right records are freed once.
-/

namespace MassGridMiner

/-- `struct lowlevel_device_info`, but for what is not used here. -/
structure LowlevelDeviceInfo where
  devid : CStr
  next : Option ℕ
  sameDevidNext : Option ℕ
  ref : ℤ

/-- The records that there are, how many there have been, the start of the list, and the records
that were freed. -/
structure Lowlevel where
  infos : ℕ → Option LowlevelDeviceInfo
  made : ℕ
  devinfoList : Option ℕ
  freed : List ℕ

namespace Lowlevel

/-- The list of the scanned records. -/
def next : Link LowlevelDeviceInfo where
  get info := info.next
  set a info := { info with next := a }
  get_set _ _ := rfl

/-- The lists of the records with one `devid`. -/
def same : Link LowlevelDeviceInfo where
  get info := info.sameDevidNext
  set a info := { info with sameDevidNext := a }
  get_set _ _ := rfl

/-- `lowlevel_devinfo_free`. -/
def lowlevelDevinfoFree (s : Lowlevel) (p : ℕ) : Option Lowlevel := do
  let info ← s.infos p
  if info.ref ≠ 0 then
    some { s with infos := Function.update s.infos p (some { info with ref := info.ref - 1 }) }
  else some { s with infos := Function.update s.infos p none, freed := p :: s.freed }

/-- `lowlevel_ref`. -/
def lowlevelRef (s : Lowlevel) (p : ℕ) : Option Lowlevel := do
  let info ← s.infos p
  some { s with infos := Function.update s.infos p (some { info with ref := info.ref + 1 }) }

/-- The inner loop of `lowlevel_scan_free`. -/
def freeSame : ℕ → Lowlevel → Option ℕ → Option ℕ → Option Lowlevel
  | _, s, _, none => some s
  | 0, _, _, some _ => none
  | n + 1, s, info, some info2 => do
    let tmp2 ← (s.infos info2).map same.get
    let (infos, info) ← same.delete s.infos s.made info info2
    let s ← lowlevelDevinfoFree { s with infos } info2
    freeSame n s info tmp2

/-- The outer loop of `lowlevel_scan_free`. -/
def freeList : ℕ → Lowlevel → Option ℕ → Option Lowlevel
  | _, s, none => some s
  | 0, _, some _ => none
  | n + 1, s, some info => do
    let tmp ← (s.infos info).map next.get
    let (infos, devinfoList) ← next.delete s.infos s.made s.devinfoList info
    let s ← freeSame s.made { s with infos, devinfoList } (some info) (some info)
    freeList n s tmp

/-- `lowlevel_scan_free`. -/
def lowlevelScanFree (s : Lowlevel) : Option Lowlevel :=
  if s.devinfoList = none then some s else freeList s.made s s.devinfoList

/-- What the `devinfo_scan` of a driver finds: new records in a list. -/
def devinfoScan (s : Lowlevel) (devids : List CStr) : Lowlevel × Option ℕ :=
  ({ s with
      infos := fun p =>
        if s.made ≤ p then
          (devids[p - s.made]?).map fun devid =>
            { devid, next := if p + 1 < s.made + devids.length then some (p + 1) else none,
              sameDevidNext := none, ref := 0 }
        else s.infos p
      made := s.made + devids.length },
    if devids = [] then none else some s.made)

/-- The list of a driver is put behind those of the others. -/
def concatScan (s : Lowlevel) (devids : List CStr) : Option Lowlevel := do
  let (s, devinfoMidList) := devinfoScan s devids
  let (infos, devinfoList) ← next.concat s.infos s.made s.devinfoList devinfoMidList
  some { s with infos, devinfoList }

/-- The body of the loop of `lowlevel_scan`, for the record `mid`; the hash table has a record for
each `devid` so far. -/
def groupOne (s : Lowlevel) (ht : CStr → Option ℕ) (mid : ℕ) :
    Option (Lowlevel × (CStr → Option ℕ)) := do
  let info ← s.infos mid
  let devinfoSameList := ht info.devid
  let (s, ht) ← match devinfoSameList with
    | none => some (s, ht)
    | some p => do
      let found ← s.infos p
      let (infos, devinfoList) ← next.delete s.infos s.made s.devinfoList p
      some ({ s with infos, devinfoList }, Function.update ht found.devid none)
  let info ← s.infos mid
  let infos := Function.update s.infos mid (some (same.set devinfoSameList info))
  some ({ s with infos }, Function.update ht info.devid (some mid))

/-- The loop of `lowlevel_scan`. -/
def groupFrom : ℕ → Lowlevel → (CStr → Option ℕ) → Option ℕ → Option Lowlevel
  | _, s, _, none => some s
  | 0, _, _, some _ => none
  | n + 1, s, ht, some mid => do
    let (s, ht) ← groupOne s ht mid
    let info ← s.infos mid
    groupFrom n s ht info.next

/-- `lowlevel_scan`, with the `devid` of what each driver finds. -/
def lowlevelScan (s : Lowlevel) (found : List (List CStr)) : Option Lowlevel := do
  let s ← lowlevelScanFree s
  let s ← found.foldlM concatScan s
  groupFrom s.made s (fun _ => none) s.devinfoList

/-- Before the first scan. -/
def init : Lowlevel := ⟨fun _ => none, 0, none, []⟩

end Lowlevel

/-- A call of one of the functions. -/
inductive LowlevelCall
  | scan (found : List (List CStr))
  | scanFree
  | ref (p : ℕ)
  | free (p : ℕ)

/-- A call is executed. -/
def Lowlevel.step (s : Lowlevel) : LowlevelCall → Option Lowlevel
  | .scan found => s.lowlevelScan found
  | .scanFree => s.lowlevelScanFree
  | .ref p => s.lowlevelRef p
  | .free p => s.lowlevelDevinfoFree p

/-! ## The callers -/

/-- What the callers know: the `devid` of every record that was scanned, the records of the last
scan that were not given up, and how often they hold a record. -/
structure LowlevelUsers where
  devids : List CStr
  listed : List ℕ
  held : ℕ → ℕ

namespace LowlevelUsers

def init : LowlevelUsers := ⟨[], [], fun _ => 0⟩

/-- The `devid` of a record. -/
def devid (u : LowlevelUsers) (p : ℕ) : CStr := u.devids.getD p default

/-- The callers refer to a record that is listed or that they hold, and free one that they hold. -/
def step (u : LowlevelUsers) : LowlevelCall → Option LowlevelUsers
  | .scan found =>
    some { u with
      devids := u.devids ++ found.flatten
      listed := List.range' u.devids.length found.flatten.length }
  | .scanFree => some { u with listed := [] }
  | .ref p =>
    if p ∈ u.listed ∨ 0 < u.held p then
      some { u with held := Function.update u.held p (u.held p + 1) }
    else none
  | .free p =>
    if 0 < u.held p then some { u with held := Function.update u.held p (u.held p - 1) } else none

/-- The records with the `devid` of one, the last one first. -/
def sameDevid (u : LowlevelUsers) (p : ℕ) : List ℕ :=
  (u.listed.filter fun q => u.devid q = u.devid p).reverse

end LowlevelUsers

/-- **The lists and what was freed** are as they should be: the list has one record of each `devid`
that was scanned, from which on the records with that `devid` are in another list, the last one
first, and freed once are the records that are neither listed nor held. -/
structure Lowlevel.Right (s : Lowlevel) (u : LowlevelUsers) : Prop where
  grouped : ∃ main : List ℕ, next.IsList s.infos s.devinfoList main ∧ main ⊆ u.listed ∧
    (main.map u.devid).Nodup ∧ (∀ p ∈ u.listed, u.devid p ∈ main.map u.devid) ∧
    ∀ p ∈ main, same.IsList s.infos (some p) (u.sameDevid p)
  nodup_freed : s.freed.Nodup
  mem_freed : ∀ p, p ∈ s.freed ↔ p < u.devids.length ∧ p ∉ u.listed ∧ u.held p = 0

namespace Lowlevel

/-! ## References -/

/-- What a record is apart from the lists. -/
def own (info : LowlevelDeviceInfo) : CStr × ℤ := (info.devid, info.ref)

/-- Every record has so many references, and was freed once if it has none left. -/
structure Counted (s : Lowlevel) (devids : List CStr) (n : ℕ → ℕ) : Prop where
  made : s.made = devids.length
  info : ∀ p, (s.infos p).map own =
    if n p = 0 then none else some (devids.getD p default, (n p : ℤ) - 1)
  lt : ∀ p, n p ≠ 0 → p < devids.length
  nodup_freed : s.freed.Nodup
  mem_freed : ∀ p, p ∈ s.freed ↔ p < devids.length ∧ n p = 0

variable {s : Lowlevel} {devids : List CStr} {n : ℕ → ℕ} {p : ℕ} {l : List ℕ}

theorem Counted.congr {m : ℕ → ℕ} (H : Counted s devids n) (hm : ∀ p, m p = n p) :
    Counted s devids m := by
  rwa [funext hm]

/-- A record with a reference is there. -/
theorem Counted.exists_info (H : Counted s devids n) (hp : n p ≠ 0) :
    ∃ info, s.infos p = some info ∧ info.devid = devids.getD p default ∧
      info.ref = (n p : ℤ) - 1 := by
  have hinfo := H.info p
  rw [if_neg hp] at hinfo
  obtain ⟨info, hsome, hown⟩ := Option.map_eq_some_iff.mp hinfo
  exact ⟨info, hsome, (Prod.mk.inj hown).1, (Prod.mk.inj hown).2⟩

/-- What changes the lists changes no reference. -/
theorem Counted.relink (H : Counted s devids n) {infos : ℕ → Option LowlevelDeviceInfo}
    (hown : ∀ p, (infos p).map own = (s.infos p).map own) (devinfoList : Option ℕ) :
    Counted { s with infos, devinfoList } devids n :=
  ⟨H.made, fun p => (hown p).trans (H.info p), H.lt, H.nodup_freed, H.mem_freed⟩

theorem own_next (a : Option ℕ) (info : LowlevelDeviceInfo) : own (next.set a info) = own info :=
  rfl

/-- A record keeps some references. -/
theorem Counted.update (H : Counted s devids n) (hp : n p ≠ 0) {info : LowlevelDeviceInfo} {k : ℕ}
    (hk : k ≠ 0) (hown : own info = (devids.getD p default, (k : ℤ) - 1)) :
    Counted { s with infos := Function.update s.infos p (some info) } devids
      (Function.update n p k) := by
  refine ⟨H.made, fun q => ?_, fun q hq => ?_, H.nodup_freed, fun q => ?_⟩
  · simp only [Function.update_apply]
    split
    next heq => rw [heq, Option.map_some, hown]
    next => exact H.info q
  · rcases eq_or_ne q p with rfl | hne
    · exact H.lt q hp
    · rw [Function.update_of_ne hne] at hq
      exact H.lt q hq
  · rw [H.mem_freed q, Function.update_apply]
    split
    next heq => simp [heq, hp, hk]
    next => exact Iff.rfl

/-- A record keeps none. -/
theorem Counted.erase (H : Counted s devids n) (hp : n p ≠ 0) :
    Counted { s with infos := Function.update s.infos p none, freed := p :: s.freed } devids
      (Function.update n p 0) := by
  refine ⟨H.made, fun q => ?_, fun q hq => ?_, ?_, fun q => ?_⟩
  · simp only [Function.update_apply]
    split
    next => rfl
    next => exact H.info q
  · rcases eq_or_ne q p with rfl | hne
    · exact H.lt q hp
    · rw [Function.update_of_ne hne] at hq
      exact H.lt q hq
  · exact List.nodup_cons.mpr ⟨fun h => hp ((H.mem_freed p).mp h).2, H.nodup_freed⟩
  · rw [List.mem_cons, H.mem_freed q, Function.update_apply]
    split
    next heq => simp [heq, H.lt p hp]
    next hne => rw [or_iff_right hne]

/-- **One reference less.** -/
theorem Counted.free (H : Counted s devids n) (hp : n p ≠ 0) :
    ∃ s', lowlevelDevinfoFree s p = some s' ∧
      Counted s' devids (Function.update n p (n p - 1)) ∧ s'.devinfoList = s.devinfoList ∧
      (∀ q, q ≠ p → s'.infos q = s.infos q) ∧
      (n p ≠ 1 → ∀ ℓ ∈ [next, same], (s'.infos p).map ℓ.get = (s.infos p).map ℓ.get) := by
  obtain ⟨info, hinfo, hdevid, href⟩ := H.exists_info hp
  rw [lowlevelDevinfoFree, hinfo, Option.bind_eq_bind, Option.bind_some]
  by_cases hlast : n p = 1
  · have hzero : info.ref = 0 := by rw [href, hlast]; rfl
    rw [if_neg (not_not.mpr hzero), hlast]
    exact ⟨_, rfl, H.erase hp, rfl, fun q hq => Function.update_of_ne hq .., fun h => absurd rfl h⟩
  · have hpos : info.ref ≠ 0 := by rw [href]; omega
    rw [if_pos hpos]
    refine ⟨_, rfl, H.update hp (by omega) (Prod.ext hdevid ?_), rfl,
      fun q hq => Function.update_of_ne hq .., fun _ ℓ hℓ => ?_⟩
    · simp only [own, href]
      omega
    · simp only [Function.update_self, Option.map_some]
      simp only [List.mem_cons, List.not_mem_nil, or_false] at hℓ
      rcases hℓ with rfl | rfl <;> rfl

/-- **One reference more.** -/
theorem Counted.ref (H : Counted s devids n) (hp : n p ≠ 0) :
    ∃ s', lowlevelRef s p = some s' ∧ Counted s' devids (Function.update n p (n p + 1)) ∧
      s'.devinfoList = s.devinfoList ∧
      ∀ ℓ ∈ [next, same], ∀ q, (s'.infos q).map ℓ.get = (s.infos q).map ℓ.get := by
  obtain ⟨info, hinfo, hdevid, href⟩ := H.exists_info hp
  rw [lowlevelRef, hinfo, Option.bind_eq_bind, Option.bind_some]
  refine ⟨_, rfl, H.update hp (Nat.succ_ne_zero _) (Prod.ext hdevid ?_), rfl, fun ℓ hℓ q => ?_⟩
  · simp only [own, href]
    omega
  · rcases eq_or_ne q p with rfl | hne
    · simp only [Function.update_self, hinfo, Option.map_some]
      simp only [List.mem_cons, List.not_mem_nil, or_false] at hℓ
      rcases hℓ with rfl | rfl <;> rfl
    · simp only [Function.update_of_ne hne]

/-! ## Giving up the list -/

/-- So many different records that have been there are not more than there have been. -/
theorem Counted.length_le (H : Counted s devids n) (hnodup : l.Nodup) (hpos : ∀ q ∈ l, n q ≠ 0) :
    l.length ≤ s.made := by
  have hsub : l ⊆ List.range s.made := fun q hq =>
    List.mem_range.mpr (H.made ▸ H.lt q (hpos q hq))
  simpa using (hnodup.subperm hsub).length_le

/-- The first record of a list is deleted. -/
theorem delete_head {ℓ : Link LowlevelDeviceInfo} {infos : ℕ → Option LowlevelDeviceInfo}
    {info : LowlevelDeviceInfo} (fuel : ℕ) (hp : infos p = some info) :
    ℓ.delete infos fuel (some p) p = some (infos, ℓ.get info) := by
  rw [Link.delete, if_pos rfl, hp, Option.map_some]

/-- The records with one `devid` lose a reference each. -/
theorem freeSame_spec {info : Option ℕ} {k : ℕ} (H : Counted s devids n)
    (hlist : same.IsList s.infos info l) (hnodup : l.Nodup) (hpos : ∀ q ∈ l, n q ≠ 0)
    (hk : l.length ≤ k) :
    ∃ s', freeSame k s info info = some s' ∧ Counted s' devids (fun q => n q - l.count q) ∧
      s'.devinfoList = s.devinfoList ∧ ∀ q, q ∉ l → s'.infos q = s.infos q := by
  induction l generalizing s n info k with
  | nil =>
    rw [Link.isList_nil.mp hlist]
    exact ⟨s, by cases k <;> rfl, H, rfl, fun q _ => rfl⟩
  | cons p l ih =>
    obtain ⟨rfl, x, hx, hrest⟩ := hlist
    obtain ⟨hp, hnodup'⟩ := List.nodup_cons.mp hnodup
    cases k with
    | zero => simp at hk
    | succ k =>
      obtain ⟨s1, hfree, hcounted, hhead, hothers, -⟩ := H.free (hpos p List.mem_cons_self)
      have hother : ∀ q ∈ l, q ≠ p := fun q hq heq => hp (heq ▸ hq)
      obtain ⟨s2, hrun, hcounted2, hhead2, hothers2⟩ := ih (s := s1) hcounted
        (hrest.congr_of_notMem hp hothers) hnodup'
        (fun q hq => by
          rw [Function.update_of_ne (hother q hq)]
          exact hpos q (List.mem_cons_of_mem p hq))
        (by simpa using hk)
      refine ⟨s2, ?_, hcounted2.congr fun q => ?_, hhead2.trans hhead, fun q hq => ?_⟩
      · rw [freeSame, hx, Option.map_some, delete_head s.made hx]
        simp only [Option.bind_eq_bind, Option.bind_some]
        rw [hfree, Option.bind_some, hrun]
      · rcases eq_or_ne q p with rfl | hne
        · rw [List.count_cons_self, Function.update_self, Nat.sub_sub, Nat.add_comm]
        · rw [List.count_cons_of_ne (Ne.symm hne), Function.update_of_ne hne]
      · rw [List.mem_cons, not_or] at hq
        rw [hothers2 q hq.2, hothers q hq.1]

/-- All records that are listed lose a reference. -/
theorem freeList_spec {main : List ℕ} {group : ℕ → List ℕ} {k : ℕ} (H : Counted s devids n)
    (hmain : next.IsList s.infos s.devinfoList main)
    (hgroup : ∀ p ∈ main, same.IsList s.infos (some p) (group p))
    (hnodup : (main.flatMap group).Nodup) (hpos : ∀ q ∈ main.flatMap group, n q ≠ 0)
    (hk : main.length ≤ k) :
    ∃ s', freeList k s s.devinfoList = some s' ∧
      Counted s' devids (fun q => n q - (main.flatMap group).count q) ∧ s'.devinfoList = none := by
  induction main generalizing s n k with
  | nil =>
    rw [Link.isList_nil.mp hmain]
    exact ⟨s, by cases k <;> rfl, H, Link.isList_nil.mp hmain⟩
  | cons p main ih =>
    obtain ⟨hhead, x, hx, hrest⟩ := hmain
    rw [List.flatMap_cons] at hnodup hpos
    obtain ⟨hnodupp, hnodup', hdisj⟩ := List.nodup_append'.mp hnodup
    have hself : ∀ q ∈ main, q ∈ main.flatMap group := fun q hq => by
      have hq' := (hgroup q (List.mem_cons_of_mem p hq)).head_eq
      exact List.mem_flatMap.mpr ⟨q, hq, List.mem_of_mem_head? hq'.symm⟩
    cases k with
    | zero => simp at hk
    | succ k =>
      have hposp : ∀ q ∈ group p, n q ≠ 0 := fun q hq => hpos q (List.mem_append_left _ hq)
      -- the list starts with the next record while those with the `devid` of this one are freed
      have hcounted := H.relink (fun _ => rfl) (next.get x)
      obtain ⟨s1, hfree, hcounted1, hhead1, hothers1⟩ := freeSame_spec hcounted
        (hgroup p List.mem_cons_self) hnodupp hposp (H.length_le hnodupp hposp)
      have hsame : ∀ q ∈ main.flatMap group, s1.infos q = s.infos q := fun q hq =>
        hothers1 q fun h => hdisj h hq
      have hmain1 : next.IsList s1.infos s1.devinfoList main := by
        rw [hhead1]
        exact hrest.congr fun q hq => by rw [hsame q (hself q hq)]
      obtain ⟨s2, hrun, hcounted2, hnone⟩ := ih (s := s1) hcounted1 hmain1
        (fun q hq => (hgroup q (List.mem_cons_of_mem p hq)).congr fun r hr => by
          rw [hsame r (List.mem_flatMap.mpr ⟨q, hq, hr⟩)])
        hnodup'
        (fun q hq => by
          have hcount : (group p).count q = 0 := List.count_eq_zero.mpr fun h => hdisj h hq
          rw [hcount]
          exact hpos q (List.mem_append_right _ hq))
        (by simpa using hk)
      refine ⟨s2, ?_, hcounted2.congr fun q => ?_, hnone⟩
      · have htmp : next.get x = s1.devinfoList := hhead1.symm
        rw [hhead, freeList, hx, Option.map_some, hhead, delete_head s.made hx]
        simp only [Option.bind_eq_bind, Option.bind_some]
        rw [hfree, Option.bind_some, htmp, hrun]
      · rw [List.flatMap_cons, List.count_append, Nat.sub_sub]

/-! ## What the drivers find -/

theorem count_range' (a len q : ℕ) :
    (List.range' a len).count q = if a ≤ q ∧ q < a + len then 1 else 0 := by
  rw [List.Nodup.count List.nodup_range']
  simp only [List.mem_range'_1]

/-- The new records are in a list. -/
theorem devinfoScan_isList (s : Lowlevel) (ds : List CStr) {j : ℕ} (hj : j ≤ ds.length) :
    next.IsList (devinfoScan s ds).1.infos (if j < ds.length then some (s.made + j) else none)
      (List.range' (s.made + j) (ds.length - j)) := by
  induction hn : ds.length - j generalizing j with
  | zero => exact if_neg (by omega)
  | succ m ih =>
    have hlt : j < ds.length := by omega
    have hnext := @ih (j + 1) (by omega) (by omega)
    have hsub : s.made + j - s.made = j := Nat.add_sub_cancel_left _ _
    have hlast : s.made + j + 1 < s.made + ds.length ↔ j + 1 < ds.length := by omega
    refine ⟨if_pos hlt,
      ⟨ds[j], if j + 1 < ds.length then some (s.made + (j + 1)) else none, none, 0⟩, ?_, hnext⟩
    simp only [devinfoScan, if_pos (Nat.le_add_right s.made j), hsub,
      List.getElem?_eq_getElem hlt, Option.map_some, hlast]
    rfl

/-- The references of the records that were there and of the new ones, one to each of these. -/
def withNew (n : ℕ → ℕ) (a len : ℕ) : ℕ → ℕ := fun q => n q + (List.range' a len).count q

theorem Counted.devinfoScan (H : Counted s devids n) (ds : List CStr) :
    Counted (devinfoScan s ds).1 (devids ++ ds) (withNew n devids.length ds.length) := by
  have hnew : ∀ q, devids.length ≤ q → n q = 0 := fun q hq => by
    by_contra h
    exact absurd (H.lt q h) (by omega)
  refine ⟨by simp [Lowlevel.devinfoScan, H.made], fun q => ?_, fun q hq => ?_, H.nodup_freed,
    fun q => ?_⟩
  · simp only [Lowlevel.devinfoScan, H.made]
    by_cases hq : devids.length ≤ q
    · rw [if_pos hq, List.getD_eq_getElem?_getD, List.getElem?_append_right hq]
      by_cases hlt : q < devids.length + ds.length
      · have hone : withNew n devids.length ds.length q = 1 := by
          rw [withNew, hnew q hq, count_range', if_pos (show _ ∧ _ from ⟨hq, hlt⟩)]
        rw [hone, List.getElem?_eq_getElem (by omega)]
        rfl
      · have hzero : withNew n devids.length ds.length q = 0 := by
          rw [withNew, hnew q hq, count_range', if_neg fun h => hlt h.2]
        rw [hzero, List.getElem?_eq_none (by omega)]
        rfl
    · have hold : withNew n devids.length ds.length q = n q := by
        rw [withNew, count_range', if_neg fun h => hq h.1, Nat.add_zero]
      rw [if_neg hq, hold, List.getD_eq_getElem?_getD, List.getElem?_append_left (by omega),
        ← List.getD_eq_getElem?_getD]
      exact H.info q
  · simp only [withNew, count_range'] at hq
    rw [List.length_append]
    split at hq
    next h => exact h.2
    next => exact (H.lt q hq).trans_le (Nat.le_add_right _ _)
  · simp only [Lowlevel.devinfoScan, H.mem_freed, withNew, count_range', List.length_append]
    have hq := hnew q
    split <;> omega

/-- **The list of a driver** comes behind what is listed. -/
theorem concatScan_spec (H : Counted s devids n) (hlist : next.IsList s.infos s.devinfoList l)
    (hnodup : l.Nodup) (hpos : ∀ q ∈ l, n q ≠ 0) (ds : List CStr) :
    ∃ s', concatScan s ds = some s' ∧
      Counted s' (devids ++ ds) (withNew n devids.length ds.length) ∧
      next.IsList s'.infos s'.devinfoList (l ++ List.range' devids.length ds.length) := by
  have hnew := devinfoScan_isList s ds (Nat.zero_le _)
  have hhead : (if 0 < ds.length then some (s.made + 0) else none) = (devinfoScan s ds).2 := by
    cases ds <;> rfl
  rw [hhead, Nat.add_zero, Nat.sub_zero, H.made] at hnew
  have hlt : ∀ q ∈ l, q < devids.length := fun q hq => H.lt q (hpos q hq)
  have hold : next.IsList (devinfoScan s ds).1.infos s.devinfoList l :=
    hlist.congr fun q hq => by
      have hq' : ¬s.made ≤ q := by
        have := hlt q hq
        rw [H.made]
        omega
      simp only [devinfoScan, if_neg hq']
  have hall : (l ++ List.range' devids.length ds.length).Nodup :=
    hnodup.append List.nodup_range' fun q hq hq' =>
      absurd (hlt q hq) (by have := (List.mem_range'_1.mp hq').1; omega)
  have hfuel : l.length ≤ (devinfoScan s ds).1.made :=
    (H.length_le hnodup hpos).trans (Nat.le_add_right _ _)
  obtain ⟨infos, head, hrun, hconcat, hrel⟩ := Link.concat_spec hold hnew hall hfuel
  refine ⟨_, ?_, (H.devinfoScan ds).relink (hrel.map_eq own_next) head, hconcat⟩
  rw [concatScan]
  simp only [Option.bind_eq_bind]
  have hkeep : (devinfoScan s ds).1.devinfoList = s.devinfoList := rfl
  rw [hkeep, hrun]
  rfl

theorem foldlM_concatScan_spec (found : List (List CStr)) (H : Counted s devids n)
    (hlist : next.IsList s.infos s.devinfoList l) (hnodup : l.Nodup) (hpos : ∀ q ∈ l, n q ≠ 0) :
    ∃ s', found.foldlM concatScan s = some s' ∧
      Counted s' (devids ++ found.flatten) (withNew n devids.length found.flatten.length) ∧
      next.IsList s'.infos s'.devinfoList
        (l ++ List.range' devids.length found.flatten.length) := by
  induction found generalizing s devids n l with
  | nil =>
    refine ⟨s, rfl, ?_, ?_⟩
    · rw [List.flatten_nil, List.append_nil]
      exact H.congr fun q => rfl
    · rwa [List.flatten_nil, List.length_nil, List.range'_zero, List.append_nil]
  | cons ds found ih =>
    obtain ⟨s1, hrun, hcounted, hlist1⟩ := concatScan_spec H hlist hnodup hpos ds
    have hlt : ∀ q ∈ l, q < devids.length := fun q hq => H.lt q (hpos q hq)
    have hnodup1 : (l ++ List.range' devids.length ds.length).Nodup :=
      hnodup.append List.nodup_range' fun q hq hq' =>
        absurd (hlt q hq) (by have := (List.mem_range'_1.mp hq').1; omega)
    have hpos1 : ∀ q ∈ l ++ List.range' devids.length ds.length,
        withNew n devids.length ds.length q ≠ 0 := fun q hq => by
      rcases List.mem_append.mp hq with hq | hq
      · exact Nat.ne_of_gt (Nat.add_pos_left (Nat.pos_of_ne_zero (hpos q hq)) _)
      · exact Nat.ne_of_gt (Nat.add_pos_right _ (List.count_pos_iff.mpr hq))
    obtain ⟨s2, hrun2, hcounted2, hlist2⟩ := ih hcounted hlist1 hnodup1 hpos1
    have hsplit : List.range' devids.length (ds :: found).flatten.length =
        List.range' devids.length ds.length ++
          List.range' (devids ++ ds).length found.flatten.length := by
      rw [List.flatten_cons, List.length_append, List.length_append, List.range'_append_1]
    refine ⟨s2, ?_, ?_, ?_⟩
    · rw [List.foldlM_cons, hrun]
      exact hrun2
    · rw [List.flatten_cons, ← List.append_assoc]
      refine hcounted2.congr fun q => ?_
      rw [withNew, ← List.flatten_cons, hsplit, List.count_append, withNew, withNew, Nat.add_assoc]
    · rw [hsplit, ← List.append_assoc]
      exact hlist2

end Lowlevel
end MassGridMiner

import MassGridMiner.Device.Lowlevel

/-!
# Scanned devices, grouped and given up

The loop of a scan has, after some of the records, one record for each of their `devid`s in the list
and in the hash table, from which on the others are in a list of their own.  So every sequence of
calls in which the callers free what they hold keeps the lists and the references right.

## Main definitions

* `Grouping` — the lists and the hash table after some of the records.
* `Grouping.one`, `groupFrom_spec` — one record more, and all of them.
* `Inv`, `Inv.step` — what holds after every call.
* `right_of_exec` — the lists, and what is freed, in every run.
-/

namespace MassGridMiner
namespace Lowlevel

variable {s : Lowlevel} {devids : List CStr} {n : ℕ → ℕ} {p : ℕ}

/-- The `devid` of a record. -/
def devidOf (devids : List CStr) (p : ℕ) : CStr := devids.getD p default

/-- The lists and the hash table when the loop has seen the records in `done`, and not those in
`todo`. -/
structure Grouping (s : Lowlevel) (devids : List CStr) (ht : CStr → Option ℕ)
    (done todo main : List ℕ) : Prop where
  isList : next.IsList s.infos s.devinfoList (main ++ todo)
  sub : main ⊆ done
  nodup : (main.map (devidOf devids)).Nodup
  covers : ∀ q ∈ done, devidOf devids q ∈ main.map (devidOf devids)
  table : ∀ d q, ht d = some q ↔ q ∈ main ∧ devidOf devids q = d
  group : ∀ d, same.IsList s.infos (ht d) (done.filter fun q => devidOf devids q = d).reverse

section
variable {ht : CStr → Option ℕ} {done todo main : List ℕ} {mid : ℕ}

/-- The table has no record for the `devid`s that none of the list has. -/
theorem Grouping.filter_eq (H : Grouping s devids ht done todo main) {d : CStr}
    (hnone : ht d = none) : main.filter (fun q => devidOf devids q ≠ d) = main := by
  rw [List.filter_eq_self]
  intro q hq
  refine decide_eq_true fun hd => ?_
  rw [(H.table d q).mpr ⟨hq, hd⟩] at hnone
  cases hnone

/-- The record that was found is taken out of the list, and the new one comes in its place in the
table. -/
theorem Grouping.advance {info : LowlevelDeviceInfo}
    (H : Grouping s devids ht done (mid :: todo) main) (s1 : Lowlevel)
    (hnodup : (done ++ mid :: todo).Nodup)
    (hrel : ∀ q, (s1.infos q).map same.get = (s.infos q).map same.get)
    (hlist : next.IsList s1.infos s1.devinfoList
      (main.filter (fun q => devidOf devids q ≠ devidOf devids mid) ++ mid :: todo))
    (hmid : s1.infos mid = some info) :
    Grouping
      { s1 with
        infos := Function.update s1.infos mid (some (same.set (ht (devidOf devids mid)) info)) }
      devids (Function.update ht (devidOf devids mid) (some mid)) (done ++ [mid]) todo
      (main.filter (fun q => devidOf devids q ≠ devidOf devids mid) ++ [mid]) := by
  have hdone : mid ∉ done := fun h =>
    List.disjoint_of_nodup_append hnodup h List.mem_cons_self
  have hfilter : ∀ d, (done ++ [mid]).filter (fun q => devidOf devids q = d) =
      done.filter (fun q => devidOf devids q = d) ++ if devidOf devids mid = d then [mid] else [] :=
    fun d => by
      rw [List.filter_append, List.filter_singleton]
      congr 1
      split <;> simp_all
  refine ⟨?_, ?_, ?_, ?_, ?_, ?_⟩
  · rw [List.append_assoc, List.singleton_append]
    refine hlist.congr fun q _ => ?_
    rcases eq_or_ne q mid with rfl | hne
    · simp only [Function.update_self, hmid, Option.map_some]
      rfl
    · simp only [Function.update_of_ne hne]
  · intro q hq
    rcases List.mem_append.mp hq with hq | hq
    · exact List.mem_append_left _ (H.sub (List.mem_filter.mp hq).1)
    · exact List.mem_append_right _ hq
  · rw [List.map_append, List.nodup_append']
    refine ⟨H.nodup.sublist (List.filter_sublist.map _), List.nodup_singleton _, ?_⟩
    intro d hd hd'
    obtain ⟨q, hq, rfl⟩ := List.mem_map.mp hd
    rw [List.map_singleton, List.mem_singleton] at hd'
    exact of_decide_eq_true (List.mem_filter.mp hq).2 hd'
  · intro q hq
    rw [List.map_append, List.mem_append, List.map_singleton, List.mem_singleton]
    by_cases hd : devidOf devids q = devidOf devids mid
    · exact Or.inr hd
    · have hq' : q ∈ done := (List.mem_append.mp hq).resolve_right fun h =>
        hd (congrArg _ (List.mem_singleton.mp h))
      obtain ⟨r, hr, hrq⟩ := List.mem_map.mp (H.covers q hq')
      refine Or.inl (List.mem_map.mpr ⟨r, List.mem_filter.mpr ⟨hr, decide_eq_true ?_⟩, hrq⟩)
      rwa [hrq]
  · intro d q
    rw [Function.update_apply, List.mem_append, List.mem_filter, List.mem_singleton]
    split
    next hd =>
      subst hd
      constructor
      · intro h
        obtain rfl := Option.some.inj h
        exact ⟨Or.inr rfl, rfl⟩
      · rintro ⟨⟨-, hne⟩ | rfl, hq⟩
        · exact absurd hq (of_decide_eq_true hne)
        · rfl
    next hd =>
      rw [H.table d q]
      constructor
      · rintro ⟨hq, rfl⟩
        exact ⟨Or.inl ⟨hq, decide_eq_true hd⟩, rfl⟩
      · rintro ⟨⟨hq, -⟩ | rfl, rfl⟩
        · exact ⟨hq, rfl⟩
        · exact absurd rfl hd
  · intro d
    have hold : ∀ d, same.IsList s1.infos (ht d)
        (done.filter fun q => devidOf devids q = d).reverse := fun d =>
      (H.group d).congr fun q _ => hrel q
    have hothers : ∀ d, mid ∉ (done.filter fun q => devidOf devids q = d).reverse := fun d h =>
      hdone (List.mem_filter.mp (List.mem_reverse.mp h)).1
    have hkeep : same.IsList
        (Function.update s1.infos mid (some (same.set (ht (devidOf devids mid)) info))) (ht d)
        (done.filter fun q => devidOf devids q = d).reverse :=
      (hold d).congr_of_notMem (hothers d) fun q hq => Function.update_of_ne hq ..
    rw [hfilter, List.reverse_append, Function.update_apply]
    split
    next hd =>
      subst hd
      rw [if_pos rfl]
      exact ⟨rfl, _, Function.update_self .., hkeep⟩
    next hd =>
      rw [if_neg (Ne.symm hd)]
      exact hkeep

/-- The body of the loop keeps the groups. -/
theorem Grouping.one (H : Grouping s devids ht done (mid :: todo) main)
    (hcounted : Counted s devids n) (hnodup : (done ++ mid :: todo).Nodup)
    (hpos : ∀ q ∈ done ++ mid :: todo, n q ≠ 0) :
    ∃ s' ht', groupOne s ht mid = some (s', ht') ∧ Counted s' devids n ∧
      Grouping s' devids ht' (done ++ [mid]) todo
        (main.filter (fun q => devidOf devids q ≠ devidOf devids mid) ++ [mid]) := by
  obtain ⟨info, hinfo, hdevid, -⟩ := hcounted.exists_info (hpos mid (by simp))
  change info.devid = devidOf devids mid at hdevid
  have hmidown : ∀ (infos : ℕ → Option LowlevelDeviceInfo) (info : LowlevelDeviceInfo) a,
      infos mid = some info → ∀ q,
        (Function.update infos mid (some (same.set a info)) q).map own = (infos q).map own :=
    fun infos info a hmid q => by
      rcases eq_or_ne q mid with rfl | hne
      · rw [Function.update_self, hmid]
        rfl
      · rw [Function.update_of_ne hne]
  cases hfound : ht (devidOf devids mid) with
  | none =>
    have hgroup := H.advance s hnodup (fun _ => rfl)
      (by rw [H.filter_eq hfound]; exact H.isList) hinfo
    rw [hfound] at hgroup
    refine ⟨_, _, ?_, hcounted.relink (hmidown s.infos info none hinfo) s.devinfoList, hgroup⟩
    simp only [groupOne, hinfo, hdevid, hfound, Option.bind_eq_bind, Option.bind_some]
  | some p =>
    obtain ⟨hp, hpdevid⟩ := (H.table _ p).mp hfound
    have hpdone := H.sub hp
    have hmain : main ++ mid :: todo ⊆ done ++ mid :: todo :=
      List.append_subset.mpr ⟨fun q hq => List.mem_append_left _ (H.sub hq),
        fun q hq => List.mem_append_right _ hq⟩
    have hnodupmain : (main ++ mid :: todo).Nodup :=
      H.nodup.of_map.append (List.nodup_append'.mp hnodup).2.1 fun q hq hq' =>
        List.disjoint_of_nodup_append hnodup (H.sub hq) hq'
    have hlen := hcounted.length_le hnodupmain fun q hq => hpos q (hmain hq)
    obtain ⟨infos, head, hrun, hlist, hrel⟩ := Link.delete_spec H.isList hnodupmain
      (List.mem_append_left _ hp) hlen
    rw [List.erase_append_left _ hp, Keyed.erase_eq_filter H.nodup hp, hpdevid] at hlist
    obtain ⟨found, hfoundinfo, hfounddevid, -⟩ :=
      hcounted.exists_info (hpos p (List.mem_append_left _ hpdone))
    change found.devid = devidOf devids p at hfounddevid
    have hcounted1 := hcounted.relink (hrel.map_eq own_next) head
    obtain ⟨info1, hinfo1, hdevid1, -⟩ := hcounted1.exists_info (hpos mid (by simp))
    change infos mid = some info1 at hinfo1
    change info1.devid = devidOf devids mid at hdevid1
    have hgroup := H.advance { s with infos, devinfoList := head } hnodup
      (hrel.map_eq fun _ _ => rfl) hlist hinfo1
    rw [hfound] at hgroup
    refine ⟨_, _, ?_, hcounted1.relink (hmidown infos info1 (some p) hinfo1) head, hgroup⟩
    simp only [groupOne, hinfo, hdevid, hfound, hfoundinfo, hfounddevid, hpdevid, hrun, hinfo1,
      hdevid1, Option.bind_eq_bind, Option.bind_some, Function.update_idem]

/-- **The loop groups the records.** -/
theorem groupFrom_spec {k : ℕ} (H : Grouping s devids ht done todo main)
    (hcounted : Counted s devids n) (hnodup : (done ++ todo).Nodup)
    (hpos : ∀ q ∈ done ++ todo, n q ≠ 0) (hk : todo.length ≤ k) :
    ∃ s' ht' main', groupFrom k s ht todo.head? = some s' ∧ Counted s' devids n ∧
      Grouping s' devids ht' (done ++ todo) [] main' := by
  induction todo generalizing s ht done main k with
  | nil =>
    rw [List.append_nil]
    exact ⟨s, ht, main, by cases k <;> rfl, hcounted, H⟩
  | cons mid todo ih =>
    cases k with
    | zero => simp at hk
    | succ k =>
      obtain ⟨s1, ht1, hone, hcounted1, hgroup1⟩ := H.one hcounted hnodup hpos
      have hlist := hgroup1.isList
      rw [← List.append_cons] at hlist
      obtain ⟨info, hinfo, hrest⟩ := hlist.of_append
      rw [List.append_cons] at hnodup hpos
      obtain ⟨s2, ht2, main2, hrun, hcounted2, hgroup2⟩ :=
        ih hgroup1 hcounted1 hnodup hpos (by simpa using hk)
      rw [← List.append_cons] at hgroup2
      refine ⟨s2, ht2, main2, ?_, hcounted2, hgroup2⟩
      rw [List.head?_cons, groupFrom, hone]
      simp only [Option.bind_eq_bind, Option.bind_some, hinfo]
      have hnext : info.next = todo.head? := hrest.head_eq
      rw [hnext, hrun]

end

/-! ## Runs -/

/-- **What holds after every call**: the records have the references that the callers hold and one
if they are listed, and the list is grouped. -/
structure Inv (s : Lowlevel) (u : LowlevelUsers) : Prop where
  counted : Counted s u.devids fun q => u.held q + u.listed.count q
  nodup : u.listed.Nodup
  grouped : ∃ main : List ℕ, next.IsList s.infos s.devinfoList main ∧ main ⊆ u.listed ∧
    (main.map u.devid).Nodup ∧ (∀ q ∈ u.listed, u.devid q ∈ main.map u.devid) ∧
    ∀ q ∈ main, same.IsList s.infos (some q) (u.sameDevid q)

theorem inv_init : Inv init .init where
  counted := ⟨rfl, fun _ => rfl, fun _ h => absurd rfl h, List.nodup_nil, fun p => by
    simp [init, LowlevelUsers.init]⟩
  nodup := List.nodup_nil
  grouped := ⟨[], rfl, List.Subset.refl _, List.nodup_nil, fun _ h => absurd h List.not_mem_nil,
    fun _ h => absurd h List.not_mem_nil⟩

theorem Inv.right {u : LowlevelUsers} (H : Inv s u) : Right s u where
  grouped := H.grouped
  nodup_freed := H.counted.nodup_freed
  mem_freed q := by
    rw [H.counted.mem_freed q, Nat.add_eq_zero_iff, List.count_eq_zero]
    exact and_congr_right fun _ => and_comm

/-- The records with each `devid` are together those that are listed. -/
theorem flatMap_perm {u : LowlevelUsers} {main : List ℕ} (hnodup : u.listed.Nodup)
    (hmain : (main.map u.devid).Nodup)
    (hcovers : ∀ q ∈ u.listed, u.devid q ∈ main.map u.devid) :
    (main.flatMap u.sameDevid).Perm u.listed := by
  have hmem : ∀ q p, q ∈ u.sameDevid p ↔ q ∈ u.listed ∧ u.devid q = u.devid p := fun q p => by
    simp [LowlevelUsers.sameDevid]
  have hflat : (main.flatMap u.sameDevid).Nodup := by
    rw [List.nodup_flatMap]
    refine ⟨fun p _ => List.nodup_reverse.mpr (hnodup.filter _), ?_⟩
    refine (List.pairwise_map.mp hmain).imp fun hne q hq hq' => ?_
    exact hne (((hmem _ _).mp hq).2.symm.trans ((hmem _ _).mp hq').2)
  refine (List.perm_ext_iff_of_nodup hflat hnodup).mpr fun q => ?_
  rw [List.mem_flatMap]
  constructor
  · rintro ⟨p, -, hq⟩
    exact ((hmem q p).mp hq).1
  · intro hq
    obtain ⟨p, hp, hd⟩ := List.mem_map.mp (hcovers q hq)
    exact ⟨p, hp, (hmem q p).mpr ⟨hq, hd.symm⟩⟩

/-- The list is given up. -/
theorem Inv.scanFree {u : LowlevelUsers} (H : Inv s u) :
    ∃ s', lowlevelScanFree s = some s' ∧ Inv s' { u with listed := [] } ∧
      s'.devinfoList = none := by
  obtain ⟨main, hlist, hsub, hmain, hcovers, hgroup⟩ := H.grouped
  have hperm := flatMap_perm H.nodup hmain hcovers
  have hpos : ∀ q ∈ u.listed, u.held q + u.listed.count q ≠ 0 := fun q hq =>
    Nat.ne_of_gt (Nat.add_pos_right _ (List.count_pos_iff.mpr hq))
  obtain ⟨s', hrun, hcounted, hnone⟩ := freeList_spec H.counted hlist hgroup
    (hperm.nodup_iff.mpr H.nodup) (fun q hq => hpos q (hperm.subset hq))
    (H.counted.length_le hmain.of_map fun q hq => hpos q (hsub hq))
  refine ⟨s', ?_, ⟨hcounted.congr fun q => ?_, List.nodup_nil, ?_⟩, hnone⟩
  · rw [lowlevelScanFree, ← hrun]
    split
    next hempty =>
      rw [hempty]
      cases s.made <;> rfl
    next => rfl
  · rw [hperm.count_eq, Nat.add_sub_cancel, List.count_nil, Nat.add_zero]
  · rw [hnone]
    exact ⟨[], rfl, List.Subset.refl _, List.nodup_nil, fun _ h => absurd h List.not_mem_nil,
      fun _ h => absurd h List.not_mem_nil⟩

/-- The list is made anew. -/
theorem Inv.scan {u : LowlevelUsers} (H : Inv s u) (found : List (List CStr)) :
    ∃ s', lowlevelScan s found = some s' ∧
      Inv s' { u with
        devids := u.devids ++ found.flatten
        listed := List.range' u.devids.length found.flatten.length } := by
  obtain ⟨s1, hfree, hinv, hnone⟩ := H.scanFree
  have hheld : Counted s1 u.devids u.held := hinv.counted.congr fun q => rfl
  obtain ⟨s2, hconcat, hcounted2, hlist2⟩ := foldlM_concatScan_spec found hheld
    (Link.isList_nil.mpr hnone) List.nodup_nil fun q h => absurd h List.not_mem_nil
  rw [List.nil_append] at hlist2
  have hpos : ∀ q ∈ List.range' u.devids.length found.flatten.length,
      withNew u.held u.devids.length found.flatten.length q ≠ 0 := fun q hq =>
    Nat.ne_of_gt (Nat.add_pos_right _ (List.count_pos_iff.mpr hq))
  have hstart : Grouping s2 (u.devids ++ found.flatten) (fun _ => none) []
      (List.range' u.devids.length found.flatten.length) [] :=
    ⟨hlist2, List.Subset.refl _, List.nodup_nil, fun _ h => absurd h List.not_mem_nil,
      fun d q => by simp, fun d => rfl⟩
  obtain ⟨s3, ht, main, hrun, hcounted3, hgroup⟩ := groupFrom_spec hstart hcounted2
    List.nodup_range' hpos (hcounted2.length_le List.nodup_range' hpos)
  rw [List.nil_append] at hgroup
  refine ⟨s3, ?_, hcounted3, List.nodup_range', main, ?_, hgroup.sub, hgroup.nodup, hgroup.covers,
    fun q hq => ?_⟩
  · rw [lowlevelScan, hfree]
    simp only [Option.bind_eq_bind, Option.bind_some, hconcat]
    rw [hlist2.head_eq, hrun]
  · have hmain := hgroup.isList
    rwa [List.append_nil] at hmain
  · have hself := (hgroup.table _ q).mpr ⟨hq, rfl⟩
    have hsame := hgroup.group (devidOf (u.devids ++ found.flatten) q)
    rw [hself] at hsame
    exact hsame

/-- What leaves the links of the listed records leaves the groups. -/
theorem Inv.congr {u u' : LowlevelUsers} {s' : Lowlevel} (H : Inv s u)
    (hcounted : Counted s' u'.devids fun q => u'.held q + u'.listed.count q)
    (hdevids : u'.devids = u.devids) (hlisted : u'.listed = u.listed)
    (hhead : s'.devinfoList = s.devinfoList)
    (hlinks : ∀ ℓ ∈ [next, same], ∀ q ∈ u.listed,
      (s'.infos q).map ℓ.get = (s.infos q).map ℓ.get) : Inv s' u' := by
  obtain ⟨main, hlist, hsub, hmain, hcovers, hgroup⟩ := H.grouped
  have hdevid : u'.devid = u.devid := by
    funext q
    rw [LowlevelUsers.devid, hdevids, LowlevelUsers.devid]
  refine ⟨hcounted, hlisted ▸ H.nodup, main, ?_, hlisted ▸ hsub, hdevid ▸ hmain,
    by rwa [hdevid, hlisted], fun q hq => ?_⟩
  · rw [hhead]
    exact hlist.congr fun q hq => hlinks next (by simp) q (hsub hq)
  · rw [LowlevelUsers.sameDevid, hdevid, hlisted]
    exact (hgroup q hq).congr fun r hr =>
      hlinks same (by simp) r (List.mem_filter.mp (List.mem_reverse.mp hr)).1

/-- A record that is listed or held is referred to once more. -/
theorem Inv.ref {u : LowlevelUsers} (H : Inv s u) (hp : p ∈ u.listed ∨ 0 < u.held p) :
    ∃ s', lowlevelRef s p = some s' ∧
      Inv s' { u with held := Function.update u.held p (u.held p + 1) } := by
  have hpos : u.held p + u.listed.count p ≠ 0 := by
    rcases hp with hp | hp
    · exact Nat.ne_of_gt (Nat.add_pos_right _ (List.count_pos_iff.mpr hp))
    · exact Nat.ne_of_gt (Nat.add_pos_left hp _)
  obtain ⟨s', hrun, hcounted, hhead, hlinks⟩ := H.counted.ref hpos
  refine ⟨s', hrun, H.congr (hcounted.congr fun q => ?_) rfl rfl hhead
    fun ℓ hℓ q _ => hlinks ℓ hℓ q⟩
  rcases eq_or_ne q p with rfl | hne
  · simp only [Function.update_self]
    omega
  · simp only [Function.update_of_ne hne]

/-- A record that is held is freed. -/
theorem Inv.free {u : LowlevelUsers} (H : Inv s u) (hp : 0 < u.held p) :
    ∃ s', lowlevelDevinfoFree s p = some s' ∧
      Inv s' { u with held := Function.update u.held p (u.held p - 1) } := by
  obtain ⟨s', hrun, hcounted, hhead, hothers, hself⟩ :=
    H.counted.free (Nat.ne_of_gt (Nat.add_pos_left hp _))
  refine ⟨s', hrun, H.congr (hcounted.congr fun q => ?_) rfl rfl hhead fun ℓ hℓ q hq => ?_⟩
  · rcases eq_or_ne q p with rfl | hne
    · simp only [Function.update_self]
      omega
    · simp only [Function.update_of_ne hne]
  · rcases eq_or_ne q p with rfl | hne
    · have hcount : 0 < u.listed.count q := List.count_pos_iff.mpr hq
      exact hself (by omega) ℓ hℓ
    · rw [hothers q hne]

/-- **Every call** that the callers may make is executed and keeps the invariant. -/
theorem Inv.step {u u' : LowlevelUsers} {c : LowlevelCall} (H : Inv s u)
    (hstep : u.step c = some u') : ∃ s', s.step c = some s' ∧ Inv s' u' := by
  cases c with
  | scan found =>
    obtain rfl := Option.some.inj hstep
    exact H.scan found
  | scanFree =>
    obtain rfl := Option.some.inj hstep
    obtain ⟨s', hrun, hinv, -⟩ := H.scanFree
    exact ⟨s', hrun, hinv⟩
  | ref p =>
    rw [LowlevelUsers.step] at hstep
    split at hstep
    next hp =>
      obtain rfl := Option.some.inj hstep
      exact H.ref hp
    next => cases hstep
  | free p =>
    rw [LowlevelUsers.step] at hstep
    split at hstep
    next hp =>
      obtain rfl := Option.some.inj hstep
      exact H.free hp
    next => cases hstep

theorem Inv.exec {u u' : LowlevelUsers} {calls : List LowlevelCall} (H : Inv s u)
    (hrun : Run.exec LowlevelUsers.step u calls = some u') :
    ∃ s', Run.exec Lowlevel.step s calls = some s' ∧ Inv s' u' := by
  induction calls generalizing s u with
  | nil =>
    obtain rfl := Option.some.inj hrun
    exact ⟨s, rfl, H⟩
  | cons c calls ih =>
    obtain ⟨u1, hstep, hrest⟩ := Option.bind_eq_some_iff.mp hrun
    obtain ⟨s1, hs1, hinv⟩ := H.step hstep
    obtain ⟨s', hs', hinv'⟩ := ih hinv hrest
    exact ⟨s', by rw [Run.exec_cons, hs1, Option.bind_some, hs'], hinv'⟩

/-- **The lists are right after every sequence of calls**, no call uses a record that was freed, and
where nothing is listed or held any more, every record was freed once. -/
theorem right_of_exec (calls : List LowlevelCall) (u : LowlevelUsers)
    (H : Run.exec LowlevelUsers.step .init calls = some u) :
    ∃ s, Run.exec Lowlevel.step init calls = some s ∧ Right s u ∧
      (u.listed = [] → (∀ p, u.held p = 0) → s.freed.Perm (List.range u.devids.length)) := by
  obtain ⟨s, hrun, hinv⟩ := inv_init.exec H
  have hright := hinv.right
  refine ⟨s, hrun, hright, fun hlisted hheld => ?_⟩
  refine (List.perm_ext_iff_of_nodup hright.nodup_freed List.nodup_range).mpr fun q => ?_
  rw [hright.mem_freed q, hlisted, hheld q, List.mem_range]
  simp

/-- Two drivers find three records, two with the same `devid`, one of which is held while the list
is given up. -/
theorem right_of_held : ∃ u s, Run.exec LowlevelUsers.step .init
      [.scan [[.empty, .empty], [⟨[0x61], by decide⟩]], .ref 1, .scanFree, .free 1] = some u ∧
    Run.exec Lowlevel.step init
      [.scan [[.empty, .empty], [⟨[0x61], by decide⟩]], .ref 1, .scanFree, .free 1] = some s ∧
    Right s u := by
  obtain ⟨s, hrun, hright, -⟩ := right_of_exec
    [.scan [[.empty, .empty], [⟨[0x61], by decide⟩]], .ref 1, .scanFree, .free 1] _ rfl
  exact ⟨_, s, rfl, hrun, hright⟩

end Lowlevel
end MassGridMiner

import MassGridMiner.Api.DataList

/-!
# The nodes of a reply, with what they own

A list in memory is a ring of nodes, each with a name and with data that it owns, borrows, or only
points to.  The lemmas say what a call makes of a list, what it allocates and frees, and that it
leaves everything else as it is.

## Main definitions

* `Kept`, `Cell` — how a node keeps its data, and a node with what it owns.
* `Rep` — the memory holds a list.
* `Memory.addExtra_spec`, `Memory.addDataFull_spec`, `Memory.printLoop_spec` — the calls.
-/

namespace MassGridMiner
namespace ApiList

open Circular

/-! ## Links -/

namespace Memory
variable {s s' : Memory} {p q : ℕ} {i : ApiItem} {n : ApiNode}

/-- Nothing but the nodes is different. -/
structure Same (s s' : Memory) : Prop where
  blocks : s'.blocks = s.blocks
  refs : s'.refs = s.refs
  made : s'.made = s.made
  freed : s'.freed = s.freed

theorem Same.refl (s : Memory) : Same s s := ⟨rfl, rfl, rfl, rfl⟩

theorem Same.trans {s1 s2 s3 : Memory} (H : Same s1 s2) (H' : Same s2 s3) : Same s1 s3 :=
  ⟨H'.blocks.trans H.blocks, H'.refs.trans H.refs, H'.made.trans H.made, H'.freed.trans H.freed⟩

theorem same_putNode (s : Memory) (p : ℕ) (n : ApiNode) : Same s (s.putNode p n) :=
  ⟨rfl, rfl, rfl, rfl⟩

theorem next_putNode (s : Memory) (p : ℕ) (n : ApiNode) :
    (s.putNode p n).next = Function.update s.next p (some n.next) :=
  Function.comp_update (Option.map ApiNode.next) s.nodes p (some n)

theorem prev_putNode (s : Memory) (p : ℕ) (n : ApiNode) :
    (s.putNode p n).prev = Function.update s.prev p (some n.prev) :=
  Function.comp_update (Option.map ApiNode.prev) s.nodes p (some n)

theorem item_putNode (s : Memory) (p : ℕ) (n : ApiNode) :
    (s.putNode p n).item = Function.update s.item p (some n.toApiItem) :=
  Function.comp_update (Option.map ApiNode.toApiItem) s.nodes p (some n)

/-- A node is its item with its links. -/
theorem nodes_congr (hitem : s'.item q = s.item q) (hnext : s'.next q = s.next q)
    (hprev : s'.prev q = s.prev q) : s'.nodes q = s.nodes q := by
  simp only [item, next, prev] at hitem hnext hprev
  cases hn : s.nodes q with
  | none =>
      rw [hn] at hitem
      exact Option.map_eq_none_iff.mp hitem
  | some n =>
      rw [hn] at hitem hnext hprev
      obtain ⟨m, hm, hmi⟩ := Option.map_eq_some_iff.mp hitem
      rw [hm] at hnext hprev ⊢
      cases m
      cases n
      cases hmi
      cases hnext
      cases hprev
      rfl

/-- Links are different, and nothing else. -/
structure Relinked (s s' : Memory) (next prev : ℕ → Option ℕ) : Prop extends Same s s' where
  next_eq : s'.next = next
  prev_eq : s'.prev = prev
  item_eq : s'.item = s.item

theorem exists_node (hi : s.item p = some i) : ∃ n, s.nodes p = some n ∧ n.toApiItem = i :=
  Option.map_eq_some_iff.mp hi

theorem setPrev_spec (hi : s.item p = some i) (q : ℕ) :
    ∃ s', s.setPrev p q = some s' ∧
      Relinked s s' s.next (Function.update s.prev p (some q)) := by
  obtain ⟨n, hn, rfl⟩ := exists_node hi
  have hnext : s.next p = some n.next := congrArg (Option.map ApiNode.next) hn
  refine ⟨_, congrArg (Option.map _) hn, same_putNode .., ?_, prev_putNode .., ?_⟩
  · exact (next_putNode ..).trans (Function.update_eq_self_iff.mpr hnext.symm)
  · exact (item_putNode ..).trans (Function.update_eq_self_iff.mpr hi.symm)

theorem setNext_spec (hi : s.item p = some i) (q : ℕ) :
    ∃ s', s.setNext p q = some s' ∧
      Relinked s s' (Function.update s.next p (some q)) s.prev := by
  obtain ⟨n, hn, rfl⟩ := exists_node hi
  have hprev : s.prev p = some n.prev := congrArg (Option.map ApiNode.prev) hn
  refine ⟨_, congrArg (Option.map _) hn, same_putNode .., next_putNode .., ?_, ?_⟩
  · exact (prev_putNode ..).trans (Function.update_eq_self_iff.mpr hprev.symm)
  · exact (item_putNode ..).trans (Function.update_eq_self_iff.mpr hi.symm)

/-- An item is written where a node is. -/
theorem setItem_spec (hi : s.item p = some i) (f : ApiItem → ApiItem) :
    ∃ s', s.setItem p f = some s' ∧ Same s s' ∧ s'.next = s.next ∧ s'.prev = s.prev ∧
      s'.item = Function.update s.item p (some (f i)) := by
  obtain ⟨n, hn, rfl⟩ := exists_node hi
  have hprev : s.prev p = some n.prev := congrArg (Option.map ApiNode.prev) hn
  have hnext : s.next p = some n.next := congrArg (Option.map ApiNode.next) hn
  refine ⟨_, congrArg (Option.map _) hn, same_putNode .., ?_, ?_, item_putNode ..⟩
  · exact (next_putNode ..).trans (Function.update_eq_self_iff.mpr hnext.symm)
  · exact (prev_putNode ..).trans (Function.update_eq_self_iff.mpr hprev.symm)

end Memory

/-! ## Nodes with what they own -/

/-- How a node keeps its data: in a block of its own, by a reference, or not at all. -/
inductive Kept
  | value (d : ApiData)
  | copied (d : ApiData) (p : ℕ)
  | json (j : ℕ)
  | jsonCopy (j p : ℕ)
  | unknown

namespace Kept

def data : Kept → Value
  | .value d | .copied d _ => .data d
  | .json j | .jsonCopy j _ => .json j
  | .unknown => .unknown

def item (name : ℕ) : Kept → ApiItem
  | .value d => ⟨name, .plain, .value d, false⟩
  | .copied _ p => ⟨name, .plain, .block p, true⟩
  | .json j => ⟨name, .json, .json j, false⟩
  | .jsonCopy _ p => ⟨name, .json, .block p, false⟩
  | .unknown => ⟨name, .unknown, .other, false⟩

/-- The block with the data. -/
def owned : Kept → Multiset ℕ
  | .copied _ p | .jsonCopy _ p => {p}
  | _ => 0

/-- The JSON values that there is a reference to. -/
def borrowed : Kept → Multiset ℕ
  | .json j => {j}
  | _ => 0

/-- The block is there. -/
def In (blocks : ℕ → Option Block) : Kept → Prop
  | .copied d p => blocks p = some (.data d)
  | .jsonCopy j p => blocks p = some (.json j 1)
  | _ => True

theorem In.congr {k : Kept} {blocks blocks' : ℕ → Option Block} (H : k.In blocks)
    (hblocks : ∀ q ∈ k.owned, blocks' q = blocks q) : k.In blocks' := by
  cases k with
  | copied d p | jsonCopy j p => exact (hblocks p (Multiset.mem_singleton_self p)).trans H
  | _ => trivial

end Kept

/-- A node with its name and its data. -/
structure Cell where
  node : ℕ
  name : ℕ
  label : CStr
  kept : Kept

namespace Cell

def item (c : Cell) : ApiItem := c.kept.item c.name

def member (c : Cell) : Member := ⟨c.label, c.kept.data⟩

/-- What is freed with a node, and the node. -/
def objects (c : Cell) : Multiset ℕ := c.node ::ₘ c.name ::ₘ c.kept.owned

/-- The memory has the node, its name and its data. -/
structure In (s : Memory) (c : Cell) : Prop where
  item_eq : s.item c.node = some c.item
  name_eq : s.blocks c.name = some (.name c.label)
  kept : c.kept.In s.blocks

end Cell

/-- What the nodes of a list own. -/
def objects (l : List Cell) : Multiset ℕ := (l.map Cell.objects).sum

/-- The JSON values that the nodes of a list have references to. -/
def borrowed (l : List Cell) : Multiset ℕ := (l.map fun c => c.kept.borrowed).sum

section
variable {l l' : List Cell} {c : Cell} {p : ℕ}

@[simp] theorem objects_nil : objects [] = 0 := rfl

@[simp] theorem objects_cons (c : Cell) (l : List Cell) :
    objects (c :: l) = c.objects + objects l := by
  rw [objects, List.map_cons, List.sum_cons, objects]

@[simp] theorem objects_append (l l' : List Cell) :
    objects (l ++ l') = objects l + objects l' := by
  rw [objects, List.map_append, List.sum_append, objects, objects]

@[simp] theorem borrowed_nil : borrowed [] = 0 := rfl

@[simp] theorem borrowed_cons (c : Cell) (l : List Cell) :
    borrowed (c :: l) = c.kept.borrowed + borrowed l := by
  rw [borrowed, List.map_cons, List.sum_cons, borrowed]

@[simp] theorem borrowed_append (l l' : List Cell) :
    borrowed (l ++ l') = borrowed l + borrowed l' := by
  rw [borrowed, List.map_append, List.sum_append, borrowed, borrowed]

theorem node_mem_objects (c : Cell) : c.node ∈ c.objects := Multiset.mem_cons_self _ _

theorem name_mem_objects (c : Cell) : c.name ∈ c.objects :=
  Multiset.mem_cons_of_mem (Multiset.mem_cons_self _ _)

theorem owned_subset_objects (c : Cell) : c.kept.owned ⊆ c.objects := fun _ h =>
  Multiset.mem_cons_of_mem (Multiset.mem_cons_of_mem h)

theorem objects_subset (hc : c ∈ l) : c.objects ⊆ objects l :=
  Multiset.subset_of_le (List.single_le_sum (fun _ _ => Multiset.zero_le _) _
    (List.mem_map_of_mem hc))

theorem borrowed_subset (hc : c ∈ l) : c.kept.borrowed ⊆ borrowed l :=
  Multiset.subset_of_le (List.single_le_sum (fun _ _ => Multiset.zero_le _) _
    (List.mem_map_of_mem (f := fun c => c.kept.borrowed) hc))

theorem mem_objects_of_mem (hp : p ∈ l.map Cell.node) : p ∈ objects l := by
  obtain ⟨c, hc, rfl⟩ := List.mem_map.mp hp
  exact objects_subset hc (node_mem_objects c)

/-- The nodes of a list are some of its objects. -/
theorem coe_map_node_le (l : List Cell) : (l.map Cell.node : Multiset ℕ) ≤ objects l := by
  induction l with
  | nil => exact le_refl _
  | cons c l ih =>
      rw [List.map_cons, objects_cons, ← Multiset.cons_coe, ← Multiset.singleton_add]
      refine add_le_add ?_ ih
      exact Multiset.singleton_le.mpr (node_mem_objects c)

theorem nodup_map_node (hnodup : (objects l).Nodup) : (l.map Cell.node).Nodup :=
  Multiset.coe_nodup.mp (Multiset.nodup_of_le (coe_map_node_le l) hnodup)

end

/-- The memory holds a list from its root on. -/
structure Rep (s : Memory) (root : Option ℕ) (l : List Cell) : Prop where
  ring : IsRing s.next s.prev root (l.map Cell.node)
  cells : ∀ c ∈ l, c.In s

section
variable {s s' : Memory} {root : Option ℕ} {l l' : List Cell} {c : Cell}

theorem rep_nil (s : Memory) : Rep s none [] := ⟨isRing_nil, fun _ hc => by cases hc⟩

/-- A node stays as it is where its item and its blocks do. -/
theorem Cell.In.congr (H : c.In s) (hitem : s'.item c.node = s.item c.node)
    (hblocks : ∀ p ∈ c.objects, s'.blocks p = s.blocks p) : c.In s' where
  item_eq := hitem.trans H.item_eq
  name_eq := (hblocks _ (name_mem_objects c)).trans H.name_eq
  kept := H.kept.congr fun _ hp => hblocks _ (owned_subset_objects c hp)

/-- What is done elsewhere leaves a list as it is. -/
theorem Rep.congr (H : Rep s root l)
    (hsame : ∀ p ∈ objects l, s'.nodes p = s.nodes p ∧ s'.blocks p = s.blocks p) :
    Rep s' root l := by
  refine ⟨H.ring.congr (fun p hp => ?_) fun p hp => ?_, fun c hc => ?_⟩
  · exact congrArg (Option.map ApiNode.next) (hsame p (mem_objects_of_mem hp)).1
  · exact congrArg (Option.map ApiNode.prev) (hsame p (mem_objects_of_mem hp)).1
  · refine (H.cells c hc).congr ?_ fun p hp => (hsame p (objects_subset hc hp)).2
    exact congrArg (Option.map ApiNode.toApiItem)
      (hsame c.node (objects_subset hc (node_mem_objects c))).1

theorem Rep.root_eq (H : Rep s root l) : root = (l.map Cell.node).head? := H.ring.root_eq

theorem Rep.item_of_mem (H : Rep s root l) {p : ℕ} (hp : p ∈ l.map Cell.node) :
    ∃ i, s.item p = some i := by
  obtain ⟨c, hc, rfl⟩ := List.mem_map.mp hp
  exact ⟨_, (H.cells c hc).item_eq⟩

end

/-! ## Two lists become one -/

namespace Memory
variable {s : Memory} {root extra : Option ℕ} {l l' : List Cell}

/-- Of a list that is put behind another one, four links are written. -/
theorem addExtra_spec (H : Rep s root l) (H' : Rep s extra l')
    (hnodup : (objects (l ++ l')).Nodup) :
    ∃ s' root', s.addExtra root extra = some (s', root') ∧ Rep s' root' (l ++ l') ∧ Same s s' ∧
      ∀ p ∉ objects (l ++ l'), s'.nodes p = s.nodes p := by
  have hr := H.root_eq
  have he := H'.root_eq
  cases root with
  | none =>
      obtain rfl : l = [] := List.map_eq_nil_iff.mp (List.head?_eq_none_iff.mp hr.symm)
      exact ⟨s, extra, rfl, H', Same.refl s, fun _ _ => rfl⟩
  | some r =>
    cases extra with
    | none =>
        obtain rfl : l' = [] := List.map_eq_nil_iff.mp (List.head?_eq_none_iff.mp he.symm)
        rw [List.append_nil]
        exact ⟨s, some r, rfl, H, Same.refl s, fun _ _ => rfl⟩
    | some e =>
        have hnodes := nodup_map_node hnodup
        rw [List.map_append] at hnodes
        -- the last nodes are the ones before the first
        obtain ⟨a, ha, har⟩ := H.ring.exists_last
        obtain ⟨b, hb, hbe⟩ := H'.ring.exists_last
        have hrl := List.mem_of_mem_head? (Option.mem_def.mpr hr.symm)
        have hel := List.mem_of_mem_head? (Option.mem_def.mpr he.symm)
        have hal := List.mem_of_mem_getLast? ha
        have hbl := List.mem_of_mem_getLast? hb
        have hre : r ≠ e := fun h => (List.nodup_append'.mp hnodes).2.2 hrl (h ▸ hel)
        obtain ⟨ie, hie⟩ := H'.item_of_mem hel
        obtain ⟨ia, hia⟩ := H.item_of_mem hal
        obtain ⟨ib, hib⟩ := H'.item_of_mem hbl
        obtain ⟨ir, hir⟩ := H.item_of_mem hrl
        obtain ⟨s1, h1, H1⟩ := setPrev_spec hie a
        obtain ⟨s2, h2, H2⟩ := setNext_spec ((congrFun H1.item_eq a).trans hia) e
        have hitem2 := H2.item_eq.trans H1.item_eq
        obtain ⟨s3, h3, H3⟩ := setNext_spec ((congrFun hitem2 b).trans hib) r
        have hitem3 := H3.item_eq.trans hitem2
        obtain ⟨s4, h4, H4⟩ := setPrev_spec ((congrFun hitem3 r).trans hir) b
        have hitem4 := H4.item_eq.trans hitem3
        have hsame := H1.toSame.trans (H2.toSame.trans (H3.toSame.trans H4.toSame))
        have hprev1 : s1.prev r = some a := by
          rw [H1.prev_eq, Function.update_of_ne hre, har]
        have hnext : s4.next =
            Function.update (Function.update s.next a (some e)) b (some r) := by
          rw [H4.next_eq, H3.next_eq, H2.next_eq, H1.next_eq]
        have hprev : s4.prev =
            Function.update (Function.update s.prev e (some a)) r (some b) := by
          rw [H4.prev_eq, H3.prev_eq, H2.prev_eq, H1.prev_eq]
        refine ⟨s4, some r, ?_, ⟨?_, fun c hc => ?_⟩, hsame, fun p hp => ?_⟩
        · simp only [addExtra, hbe, har, h1, hprev1, h2, h3, h4, Option.bind_eq_bind,
            Option.bind_some, Option.pure_def]
        · rw [hnext, hprev, List.map_append]
          exact H.ring.append H'.ring.chain hnodes hr.symm ha he.symm hb
        · refine Cell.In.congr (s := s) ?_ (congrFun hitem4 _) fun p _ => congrFun hsame.blocks p
          exact (List.mem_append.mp hc).elim (H.cells c) (H'.cells c)
        · have hne : ∀ q ∈ (l ++ l').map Cell.node, p ≠ q := fun q hq h =>
            hp (mem_objects_of_mem (h ▸ hq))
          rw [List.map_append] at hne
          refine nodes_congr (congrFun hitem4 p) ?_ ?_
          · rw [hnext, Function.update_of_ne (hne b (List.mem_append_right _ hbl)),
              Function.update_of_ne (hne a (List.mem_append_left _ hal))]
          · rw [hprev, Function.update_of_ne (hne r (List.mem_append_left _ hrl)),
              Function.update_of_ne (hne e (List.mem_append_right _ hel))]

/-! ## A new node -/

/-- The last node and the root are linked to a new one, which is linked to them as it is put. -/
theorem link_spec (H : Rep s root l) (hnodup : (objects l).Nodup) {p : ℕ}
    (hp : p ∉ objects l) (i : ApiItem) :
    ∃ s', s.link root p i = some s' ∧ Same s s' ∧
      IsRing s'.next s'.prev (some (root.getD p)) (l.map Cell.node ++ [p]) ∧
      s'.item = Function.update s.item p (some i) ∧
      ∀ q ∉ objects l, q ≠ p → s'.nodes q = s.nodes q := by
  have hr := H.root_eq
  cases root with
  | none =>
      obtain rfl : l = [] := List.map_eq_nil_iff.mp (List.head?_eq_none_iff.mp hr.symm)
      refine ⟨_, rfl, same_putNode .., ⟨rfl, List.isChain_singleton p, ?_⟩, item_putNode ..,
        fun q _ hq => Function.update_of_ne hq ..⟩
      rintro z ⟨⟩ r ⟨⟩
      rw [next_putNode, prev_putNode]
      exact ⟨Function.update_self .., Function.update_self ..⟩
  | some r =>
      obtain ⟨a, ha, har⟩ := H.ring.exists_last
      have hrl := List.mem_of_mem_head? (Option.mem_def.mpr hr.symm)
      have hal := List.mem_of_mem_getLast? ha
      have hrp : r ≠ p := fun h => hp (mem_objects_of_mem (h ▸ hrl))
      have hap : a ≠ p := fun h => hp (mem_objects_of_mem (h ▸ hal))
      obtain ⟨ir, hir⟩ := H.item_of_mem hrl
      obtain ⟨ia, hia⟩ := H.item_of_mem hal
      have hitem1 : (s.putNode p { i with prev := a, next := r }).item =
          Function.update s.item p (some i) := item_putNode ..
      have hir1 : (s.putNode p { i with prev := a, next := r }).item r = some ir := by
        rw [hitem1, Function.update_of_ne hrp, hir]
      obtain ⟨s2, h2, H2⟩ := setPrev_spec hir1 p
      have hitem2 := H2.item_eq.trans hitem1
      have hia2 : s2.item a = some ia := by
        rw [hitem2, Function.update_of_ne hap, hia]
      obtain ⟨s3, h3, H3⟩ := setNext_spec hia2 p
      have hnext : s3.next =
          Function.update (Function.update s.next a (some p)) p (some r) := by
        rw [H3.next_eq, H2.next_eq, next_putNode, Function.update_comm hap.symm]
      have hprev : s3.prev =
          Function.update (Function.update s.prev p (some a)) r (some p) := by
        rw [H3.prev_eq, H2.prev_eq, prev_putNode]
      have hitem3 := H3.item_eq.trans hitem2
      have hnodes : (l.map Cell.node ++ [p]).Nodup :=
        List.nodup_append'.mpr ⟨nodup_map_node hnodup, List.nodup_singleton p,
          List.disjoint_singleton.mpr fun h => hp (mem_objects_of_mem h)⟩
      refine ⟨s3, ?_, (same_putNode ..).trans (H2.toSame.trans H3.toSame), ?_, hitem3,
        fun q hq hqp => ?_⟩
      · simp only [link, har, h2, h3, Option.bind_eq_bind, Option.bind_some]
      · rw [hnext, hprev]
        exact H.ring.append (List.isChain_singleton p) hnodes hr.symm ha rfl rfl
      · have hqr : q ≠ r := fun h => hq (mem_objects_of_mem (h ▸ hrl))
        have hqa : q ≠ a := fun h => hq (mem_objects_of_mem (h ▸ hal))
        refine nodes_congr ?_ ?_ ?_
        · rw [hitem3, Function.update_of_ne hqp]
        · rw [hnext, Function.update_of_ne hqp, Function.update_of_ne hqa]
        · rw [hprev, Function.update_of_ne hqr, Function.update_of_ne hqp]

/-- What was allocated for the data of a node, and what else is different then. -/
structure Stored (s s' : Memory) (k : Kept) : Prop where
  kept : k.In s'.blocks
  blocks : ∀ q < s.made, s'.blocks q = s.blocks q
  range : Multiset.range s'.made = k.owned + Multiset.range s.made
  freed : s'.freed = s.freed
  refs : ∀ j, s'.refs j = s.refs j + k.borrowed.count j

theorem stored_of_same {s' : Memory} {k : Kept} (H : Same s s') (hkept : k.In s'.blocks)
    (howned : k.owned = 0) (hborrowed : k.borrowed = 0) : Stored s s' k where
  kept := hkept
  blocks := fun q _ => congrFun H.blocks q
  range := by rw [H.made, howned, zero_add]
  freed := H.freed
  refs := fun j => by rw [H.refs, hborrowed, Multiset.count_zero, Nat.add_zero]

/-- Data in a new block. -/
theorem stored_of_malloc {s' : Memory} {k : Kept} {b : Block} (H : Same (s.malloc b) s')
    (hkept : k.In s'.blocks) (howned : k.owned = {s.made}) (hborrowed : k.borrowed = 0) :
    Stored s s' k where
  kept := hkept
  blocks := fun q hq => by
    rw [H.blocks]
    exact Function.update_of_ne (Nat.ne_of_lt hq) ..
  range := by
    rw [H.made, howned, Multiset.singleton_add]
    exact Multiset.range_succ s.made
  freed := H.freed
  refs := fun j => by
    rw [H.refs, hborrowed, Multiset.count_zero, Nat.add_zero]
    rfl

/-- **The data of a node**, by its type and by whether it is copied. -/
theorem storeData_spec {p name : ℕ} (data : Option Value) (copyData : Bool)
    (hi : s.item p = some ⟨name, data.elim .plain Value.type, .other, copyData⟩)
    (hrefs : ∀ j, data = some (.json j) → 0 < s.refs j) :
    ∃ s' k, s.storeData p data copyData = some s' ∧ Stored s s' k ∧
      s'.next = s.next ∧ s'.prev = s.prev ∧
      s'.item = Function.update s.item p (some (k.item name)) ∧ k.data = added data copyData := by
  match data, copyData with
  | none, _ =>
    obtain ⟨s1, h1, H1, hnext, hprev, hitem⟩ := setItem_spec hi fun i =>
      { i with type := .plain, data := .value (.const nullstr), dataWasMalloc := false }
    exact ⟨s1, .value (.const nullstr), h1, stored_of_same H1 trivial rfl rfl, hnext, hprev,
      hitem, rfl⟩
  | some (.data d), false =>
    obtain ⟨s1, h1, H1, hnext, hprev, hitem⟩ := setItem_spec hi fun i =>
      { i with data := (Value.data d).pointer }
    refine ⟨s1, .value d, ?_, stored_of_same H1 trivial rfl rfl, hnext, hprev, hitem, rfl⟩
    simp only [storeData, h1, Option.bind_eq_bind, Option.bind_some]
  | some .unknown, false =>
    obtain ⟨s1, h1, H1, hnext, hprev, hitem⟩ := setItem_spec hi fun i =>
      { i with data := Value.unknown.pointer }
    refine ⟨s1, .unknown, ?_, stored_of_same H1 trivial rfl rfl, hnext, hprev, hitem, rfl⟩
    simp only [storeData, h1, Option.bind_eq_bind, Option.bind_some]
  | some (.json j), false =>
    obtain ⟨s1, h1, H1, hnext, hprev, hitem⟩ := setItem_spec hi fun i =>
      { i with data := (Value.json j).pointer }
    have hj : s1.refs j ≠ 0 := by
      rw [H1.refs]
      exact Nat.ne_of_gt (hrefs j rfl)
    refine ⟨{ s1 with refs := Function.update s1.refs j (s1.refs j + 1) }, .json j, ?_,
      ⟨trivial, fun q _ => congrFun H1.blocks q, ?_, H1.freed, fun j' => ?_⟩, hnext, hprev,
      hitem, rfl⟩
    · simp only [storeData, h1, jsonIncref, if_neg hj, Option.bind_eq_bind, Option.bind_some]
    · exact (congrArg _ H1.made).trans (zero_add _).symm
    · simp only [H1.refs, Function.update_apply, Kept.borrowed, Multiset.count_singleton]
      split
      next heq => rw [heq]
      next => rfl
  | some (.data d), true =>
    obtain ⟨s1, h1, H1, hnext, hprev, hitem⟩ := setItem_spec (s := s.malloc (.data d)) hi fun i =>
      { i with data := .block s.made }
    refine ⟨s1, .copied d s.made, h1, stored_of_malloc H1 ?_ rfl rfl, hnext, hprev, hitem, rfl⟩
    exact (congrFun H1.blocks _).trans (Function.update_self ..)
  | some (.json j), true =>
    obtain ⟨s1, h1, H1, hnext1, hprev1, hitem1⟩ := setItem_spec hi fun i =>
      { i with dataWasMalloc := false }
    have hj : s1.refs j ≠ 0 := by
      rw [H1.refs]
      exact Nat.ne_of_gt (hrefs j rfl)
    have hi1 : (s1.malloc (.json j 1)).item p = some ⟨name, .json, .other, false⟩ := by
      exact (congrFun hitem1 p).trans (Function.update_self ..)
    obtain ⟨s2, h2, H2, hnext2, hprev2, hitem2⟩ := setItem_spec hi1 fun i =>
      { i with data := .block s1.made }
    have hS : Stored s1 s2 (.jsonCopy j s1.made) := by
      refine stored_of_malloc H2 ?_ rfl rfl
      exact (congrFun H2.blocks _).trans (Function.update_self ..)
    refine ⟨s2, .jsonCopy j s1.made, ?_, ⟨hS.kept, ?_, ?_, ?_, ?_⟩, hnext2.trans hnext1,
      hprev2.trans hprev1, ?_, rfl⟩
    · simp only [storeData, h1, jsonDeepCopy, if_neg hj, h2, Option.bind_eq_bind,
        Option.bind_some]
    · intro q hq
      rw [hS.blocks q (H1.made ▸ hq), H1.blocks]
    · rw [hS.range, H1.made]
    · exact hS.freed.trans H1.freed
    · intro j'
      rw [hS.refs, H1.refs]
    · rw [hitem2]
      change Function.update s1.item p _ = _
      rw [hitem1, Function.update_idem]
      rfl
  | some .unknown, true =>
    obtain ⟨s1, h1, H1, hnext, hprev, hitem⟩ := setItem_spec hi fun i =>
      { i with type := .plain, data := .value (.string unknownText), dataWasMalloc := false }
    exact ⟨s1, .value (.string unknownText), h1, stored_of_same H1 trivial rfl rfl, hnext, hprev,
      hitem, rfl⟩

/-- What is different when a node was added to a list. -/
structure Grown (s s' : Memory) (l : List Cell) (c : Cell) : Prop where
  nodes : ∀ q ∉ objects l, q < s.made → s'.nodes q = s.nodes q
  blocks : ∀ q < s.made, s'.blocks q = s.blocks q
  range : Multiset.range s'.made = c.objects + Multiset.range s.made
  freed : s'.freed = s.freed
  refs : ∀ j, s'.refs j = s.refs j + c.kept.borrowed.count j

/-- **One more member**, at the end. -/
theorem addDataFull_spec (H : Rep s root l) (hnodup : (objects l).Nodup)
    (hlt : ∀ p ∈ objects l, p < s.made) (name : CStr) (data : Option Value) (copyData : Bool)
    (hrefs : ∀ j, data = some (.json j) → 0 < s.refs j) :
    ∃ s' root' c, s.addDataFull root name data copyData = some (s', root') ∧
      Rep s' root' (l ++ [c]) ∧ c.member = ⟨name, added data copyData⟩ ∧ Grown s s' l c := by
  -- the memory with the name, before the node is linked
  let s1 : Memory := { s with made := s.made + 1 }
  let s2 : Memory := s1.malloc (.name name)
  have hblocks2 : ∀ q, q ≠ s.made + 1 → s2.blocks q = s.blocks q := fun q hq =>
    Function.update_of_ne hq ..
  have hfresh : s.made ∉ objects l := fun h => Nat.lt_irrefl _ (hlt _ h)
  have H2 : Rep s2 root l := H.congr fun p hp =>
    ⟨rfl, hblocks2 p (Nat.ne_of_lt (Nat.lt_succ_of_lt (hlt p hp)))⟩
  obtain ⟨s3, h3, H3, hring3, hitem3, hnodes3⟩ := link_spec H2 hnodup hfresh
    ⟨s.made + 1, data.elim .plain Value.type, .other, copyData⟩
  have hi3 : s3.item s.made =
      some ⟨s.made + 1, data.elim .plain Value.type, .other, copyData⟩ := by
    rw [hitem3, Function.update_self]
  obtain ⟨s4, k, h4, H4, hnext4, hprev4, hitem4, hdata⟩ :=
    storeData_spec data copyData hi3 fun j hj => by
      rw [H3.refs]
      exact hrefs j hj
  have hmade3 : s3.made = s.made + 2 := H3.made
  have hblocks : ∀ q, q < s.made + 2 → q ≠ s.made + 1 → s4.blocks q = s.blocks q :=
    fun q hlt hne => by
      rw [H4.blocks q (hmade3 ▸ hlt), H3.blocks, hblocks2 q hne]
  have hitem : s4.item = Function.update s.item s.made (some (k.item (s.made + 1))) := by
    rw [hitem4, hitem3, Function.update_idem]
    rfl
  refine ⟨s4, some (root.getD s.made), ⟨s.made, s.made + 1, name, k⟩, ?_, ⟨?_, ?_⟩, ?_, ?_, ?_, ?_,
    ?_, ?_⟩
  · have h3' : ({ s with made := s.made + 1 }.malloc (.name name)).link root s.made
        ⟨s.made + 1, data.elim .plain Value.type, .other, copyData⟩ = some s3 := h3
    simp only [addDataFull, h3', h4, Option.bind_eq_bind, Option.bind_some, Option.pure_def]
  · rw [hnext4, hprev4, List.map_append]
    exact hring3
  · intro c hc
    rcases List.mem_append.mp hc with hc | hc
    · have hcl := objects_subset hc
      refine (H.cells c hc).congr ?_ fun p hp => ?_
      · rw [hitem, Function.update_of_ne (Nat.ne_of_lt (hlt _ (hcl (node_mem_objects c))))]
      · have hp' := hlt p (hcl hp)
        exact hblocks p (by omega) (by omega)
    · obtain rfl := List.mem_singleton.mp hc
      refine ⟨?_, ?_, H4.kept⟩
      · rw [hitem, Function.update_self]
        rfl
      · refine (H4.blocks (s.made + 1) (by omega)).trans ?_
        rw [H3.blocks]
        exact Function.update_self ..
  · exact congrArg (Member.mk name) hdata
  · intro q hq hlt
    have hne := Nat.ne_of_lt hlt
    refine (nodes_congr (s := s3) ?_ (congrFun hnext4 q) (congrFun hprev4 q)).trans
      (hnodes3 q hq hne)
    rw [hitem4, Function.update_of_ne hne]
  · exact fun q hq => hblocks q (by omega) (by omega)
  · rw [H4.range, hmade3, Multiset.range_succ, Multiset.range_succ, Cell.objects,
      Multiset.cons_add, Multiset.cons_add, Multiset.add_cons, Multiset.add_cons,
      Multiset.cons_swap]
  · exact H4.freed.trans H3.freed
  · intro j
    rw [H4.refs, H3.refs]
    rfl

/-! ## Printing -/

/-- A node is read as the member that was added. -/
theorem memberOf_eq {c : Cell} (H : c.In s) (hrefs : ∀ j ∈ c.kept.borrowed, 0 < s.refs j) :
    s.memberOf c.item = some c.member := by
  obtain ⟨node, name, label, k⟩ := c
  have hname : s.nameOf name = some label := by
    rw [nameOf, H.name_eq]
  have hvalue : s.valueOf (k.item name) = some k.data := by
    cases k with
    | value d => rfl
    | copied d p =>
        have hp : s.blocks p = some (.data d) := H.kept
        simp only [valueOf, Kept.item, hp, Kept.data]
    | json j => exact if_neg (Nat.ne_of_gt (hrefs j (Multiset.mem_singleton_self j)))
    | jsonCopy j p =>
        have hp : s.blocks p = some (.json j 1) := H.kept
        simp only [valueOf, Kept.item, hp, Kept.data]
    | unknown => rfl
  have hitem : (k.item name).name = name := by
    cases k <;> rfl
  simp only [memberOf, Cell.item, hitem, hname, hvalue, Option.bind_eq_bind, Option.bind_some,
    Option.pure_def]
  rfl

/-- What is different when objects were freed, and references given back. -/
structure Freed (s s' : Memory) (gone back : Multiset ℕ) : Prop where
  blocks : ∀ q ∉ gone, s'.blocks q = s.blocks q
  made : s'.made = s.made
  freed : (s'.freed : Multiset ℕ) = gone + s.freed
  refs : ∀ j, s'.refs j + back.count j = s.refs j

theorem Freed.trans {s1 s2 s3 : Memory} {gone gone' back back' : Multiset ℕ}
    (H : Freed s1 s2 gone back) (H' : Freed s2 s3 gone' back') :
    Freed s1 s3 (gone + gone') (back + back') where
  blocks := fun q hq => by
    rw [Multiset.mem_add, not_or] at hq
    rw [H'.blocks q hq.2, H.blocks q hq.1]
  made := H'.made.trans H.made
  freed := by rw [H'.freed, H.freed, add_left_comm, add_assoc]
  refs := fun j => by
    rw [← H.refs, ← H'.refs, Multiset.count_add]
    omega

/-- A block is freed. -/
theorem freeBlock_spec {p : ℕ} {b : Block} (hb : s.blocks p = some b) :
    ∃ s', s.freeBlock p = some s' ∧ s'.nodes = s.nodes ∧ Freed s s' {p} 0 := by
  refine ⟨_, congrArg (Option.map _) hb, rfl, fun q hq => ?_, rfl, ?_, fun j => ?_⟩
  · exact Function.update_of_ne (fun h => hq (Multiset.mem_singleton.mpr h)) ..
  · rw [Multiset.singleton_add, Multiset.cons_coe]
  · rw [Multiset.count_zero, Nat.add_zero]

/-- **What a node owns** is freed, and a reference that it has is given back. -/
theorem release_spec {c : Cell} (H : c.In s) (hnodup : c.objects.Nodup)
    (hrefs : ∀ j ∈ c.kept.borrowed, 0 < s.refs j) :
    ∃ s', s.release c.item = some s' ∧ s'.nodes = s.nodes ∧
      Freed s s' (c.name ::ₘ c.kept.owned) c.kept.borrowed := by
  obtain ⟨node, name, label, k⟩ := c
  obtain ⟨s1, h1, hnodes1, H1⟩ := freeBlock_spec H.name_eq
  have hname : name ∉ k.owned := (Multiset.nodup_cons.mp (Multiset.nodup_cons.mp hnodup).2).1
  have hown : ∀ p ∈ k.owned, s1.blocks p = s.blocks p := fun p hp =>
    H1.blocks p fun h => hname ((Multiset.mem_singleton.mp h : p = name) ▸ hp)
  -- a block with the data, or with the last reference to it
  have hblock : ∀ p b, k.owned = {p} → k.borrowed = 0 → s.blocks p = some b →
      ∃ s2, s1.freeBlock p = some s2 ∧ s2.nodes = s.nodes ∧
        Freed s s2 (name ::ₘ k.owned) k.borrowed := by
    intro p b hp hk hb
    rw [← hown p (hp ▸ Multiset.mem_singleton_self p)] at hb
    obtain ⟨s2, h2, hnodes2, H2⟩ := freeBlock_spec hb
    refine ⟨s2, h2, hnodes2.trans hnodes1, ?_⟩
    have H12 := H1.trans H2
    rwa [Multiset.singleton_add, ← hp, add_zero, ← hk] at H12
  have hnone : k.owned = 0 → k.borrowed = 0 →
      Freed s s1 (name ::ₘ k.owned) k.borrowed := fun howned hborrowed => by
    rw [howned, hborrowed]
    exact H1
  cases k with
  | value d =>
      refine ⟨s1, ?_, hnodes1, hnone rfl rfl⟩
      simp only [release, Cell.item, Kept.item, h1, Option.bind_eq_bind, Option.bind_some,
        reduceCtorEq, if_false, Bool.false_eq_true]
  | unknown =>
      refine ⟨s1, ?_, hnodes1, hnone rfl rfl⟩
      simp only [release, Cell.item, Kept.item, h1, Option.bind_eq_bind, Option.bind_some,
        reduceCtorEq, if_false, Bool.false_eq_true]
  | copied d p =>
      obtain ⟨s2, h2, hnodes2, H2⟩ := hblock p (.data d) rfl rfl H.kept
      refine ⟨s2, ?_, hnodes2, H2⟩
      simp only [release, Cell.item, Kept.item, h1, Option.bind_eq_bind, Option.bind_some,
        reduceCtorEq, if_false, if_true, free, h2]
  | jsonCopy j p =>
      obtain ⟨s2, h2, hnodes2, H2⟩ := hblock p (.json j 1) rfl rfl H.kept
      have hp : s1.blocks p = some (.json j 1) :=
        (hown p (Multiset.mem_singleton_self p)).trans H.kept
      refine ⟨s2, ?_, hnodes2, H2⟩
      simp only [release, Cell.item, Kept.item, h1, Option.bind_eq_bind, Option.bind_some,
        if_true, Bool.false_eq_true, if_false, jsonDecref, hp, h2]
  | json j =>
      have hj : s.refs j ≠ 0 := Nat.ne_of_gt (hrefs j (Multiset.mem_singleton_self j))
      have hrefs1 : s1.refs j = s.refs j := H1.refs j
      refine ⟨{ s1 with refs := Function.update s1.refs j (s1.refs j - 1) }, ?_, hnodes1,
        H1.blocks, H1.made, H1.freed, fun j' => ?_⟩
      · simp only [release, Cell.item, Kept.item, h1, Option.bind_eq_bind, Option.bind_some,
          if_true, Bool.false_eq_true, if_false, jsonDecref, if_neg (hrefs1 ▸ hj)]
      · have hrefs' : s1.refs j' = s.refs j' := H1.refs j'
        simp only [Function.update_apply, Kept.borrowed, Multiset.count_singleton]
        split
        next heq =>
          subst heq
          rw [hrefs']
          omega
        next => exact hrefs'

/-- A node is freed. -/
theorem freeNode_spec {p : ℕ} {i : ApiItem} (hi : s.item p = some i) :
    ∃ s', s.freeNode p = some s' ∧ (∀ q ≠ p, s'.nodes q = s.nodes q) ∧ Freed s s' {p} 0 := by
  obtain ⟨n, hn, -⟩ := exists_node hi
  refine ⟨_, congrArg (Option.map _) hn, fun q hq => Function.update_of_ne hq .., fun _ _ => rfl,
    rfl, ?_, fun j => ?_⟩
  · rw [Multiset.singleton_add, Multiset.cons_coe]
  · rw [Multiset.count_zero, Nat.add_zero]

/-- **The root is taken out**: the node behind it is linked to the last one before it is freed. -/
theorem unlink_spec {p : ℕ} {n : ApiNode} {l : List ℕ}
    (H : IsRing s.next s.prev (some p) (p :: l)) (hnodup : (p :: l).Nodup)
    (hn : s.nodes p = some n) (hitems : ∀ q ∈ l, ∃ i, s.item q = some i) :
    ∃ s' root', s.unlink p n = some (s', root') ∧ IsRing s'.next s'.prev root' l ∧
      (∀ q ≠ p, s'.item q = s.item q) ∧ (∀ q ∉ p :: l, s'.nodes q = s.nodes q) ∧
      Freed s s' {p} 0 := by
  have hip : s.item p = some n.toApiItem := congrArg (Option.map ApiNode.toApiItem) hn
  have hnext : some n.next = some (l.head?.getD p) :=
    (congrArg (Option.map ApiNode.next) hn).symm.trans H.next_root
  obtain ⟨z, hz, hzp⟩ := H.exists_last
  have hprev : some n.prev = some z := (congrArg (Option.map ApiNode.prev) hn).symm.trans hzp
  cases l with
  | nil =>
      obtain ⟨s1, h1, hnodes1, H1⟩ := freeNode_spec hip
      refine ⟨s1, none, ?_, isRing_nil, fun q hq => ?_, fun q hq => ?_, H1⟩
      · have hself : n.next = p := Option.some.inj hnext
        simp only [unlink, if_pos hself, h1, Option.bind_eq_bind, Option.bind_some,
          Option.pure_def]
      · exact congrArg (Option.map ApiNode.toApiItem) (hnodes1 q hq)
      · exact hnodes1 q fun h => hq (h ▸ List.mem_cons_self)
  | cons r l =>
      obtain ⟨hpl, hnodup'⟩ := List.nodup_cons.mp hnodup
      have hself : n.next = r := Option.some.inj hnext
      have hlast : n.prev = z := Option.some.inj hprev
      have hz' : z ∈ (r :: l).getLast? := List.getLast?_cons_cons ▸ hz
      have hzl := List.mem_of_mem_getLast? hz'
      obtain ⟨ir, hir⟩ := hitems r List.mem_cons_self
      obtain ⟨iz, hiz⟩ := hitems z hzl
      obtain ⟨s1, h1, H1⟩ := setPrev_spec hir z
      have hprev1 : s1.prev r = some z := by
        rw [H1.prev_eq, Function.update_self]
      obtain ⟨s2, h2, H2⟩ := setNext_spec ((congrFun H1.item_eq z).trans hiz) r
      have hitem2 := H2.item_eq.trans H1.item_eq
      have hsame2 := H1.toSame.trans H2.toSame
      obtain ⟨s3, h3, hnodes3, H3⟩ := freeNode_spec ((congrFun hitem2 p).trans hip)
      have hne : n.next ≠ p := fun h => hpl (h ▸ hself ▸ List.mem_cons_self)
      have hring : IsRing s2.next s2.prev (some r) (r :: l) := by
        rw [H2.next_eq, H2.prev_eq, H1.next_eq, H1.prev_eq]
        exact H.tail hnodup' rfl hz'
      have hoff : ∀ q ∈ r :: l, s3.nodes q = s2.nodes q := fun q hq =>
        hnodes3 q fun h => hpl (h ▸ hq)
      refine ⟨s3, some r, ?_, hring.congr (fun q hq => ?_) fun q hq => ?_, fun q hq => ?_,
        fun q hq => ?_, ?_, ?_, ?_, ?_⟩
      · rw [unlink, if_neg hne, hself, hlast]
        simp only [h1, hprev1, h2, h3, Option.bind_eq_bind, Option.bind_some, Option.pure_def]
      · exact congrArg (Option.map ApiNode.next) (hoff q hq)
      · exact congrArg (Option.map ApiNode.prev) (hoff q hq)
      · exact (congrArg (Option.map ApiNode.toApiItem) (hnodes3 q hq)).trans (congrFun hitem2 q)
      · have hqp : q ≠ p := fun h => hq (h ▸ List.mem_cons_self)
        have hql : ∀ q' ∈ r :: l, q ≠ q' := fun q' hq' h =>
          hq (List.mem_cons_of_mem p (h ▸ hq'))
        refine (hnodes3 q hqp).trans (nodes_congr (congrFun hitem2 q) ?_ ?_)
        · rw [H2.next_eq, Function.update_of_ne (hql z hzl), H1.next_eq]
        · rw [H2.prev_eq, H1.prev_eq, Function.update_of_ne (hql r List.mem_cons_self)]
      · exact fun q hq => (H3.blocks q hq).trans (congrFun hsame2.blocks q)
      · exact H3.made.trans hsame2.made
      · rw [H3.freed, hsame2.freed]
      · exact fun j => (H3.refs j).trans (congrFun hsame2.refs j)

variable (printDouble : ℕ → Float → List UInt8) (dumps : ℕ → List UInt8) (isjson : Bool)

/-- **The loop of the printer** prints the members in their order, and frees what the nodes own. -/
theorem printLoop_spec (H : Rep s root l) (hnodup : (objects l).Nodup)
    (hrefs : ∀ j, (borrowed l).count j ≤ s.refs j) {fuel : ℕ} (hfuel : l.length ≤ fuel)
    (first : Bool) :
    ∃ s', printLoop printDouble dumps isjson fuel s first root =
        some (printMembers printDouble dumps isjson first (l.map Cell.member), s') ∧
      Freed s s' (objects l) (borrowed l) ∧ ∀ q ∉ objects l, s'.nodes q = s.nodes q := by
  induction l generalizing s root first fuel with
  | nil =>
      obtain rfl : root = none := H.root_eq
      refine ⟨s, ?_, ⟨fun _ _ => rfl, rfl, (zero_add _).symm, fun _ => rfl⟩, fun _ _ => rfl⟩
      cases fuel <;> rfl
  | cons c l ih =>
      obtain rfl : root = some c.node := H.root_eq
      obtain ⟨fuel, rfl⟩ : ∃ f, fuel = f + 1 := Nat.exists_eq_add_one_of_ne_zero (by
        rw [List.length_cons] at hfuel
        omega)
      rw [objects_cons] at hnodup
      obtain ⟨hnodupc, hnodupl, hdisj⟩ := Multiset.nodup_add.mp hnodup
      have hcount : ∀ j, c.kept.borrowed.count j + (borrowed l).count j ≤ s.refs j := fun j => by
        rw [← Multiset.count_add, ← borrowed_cons]
        exact hrefs j
      have hpos : ∀ j ∈ c.kept.borrowed, 0 < s.refs j := fun j hj =>
        Nat.lt_of_lt_of_le (Multiset.count_pos.mpr hj)
          ((Nat.le_add_right _ _).trans (hcount j))
      have hc := H.cells c List.mem_cons_self
      obtain ⟨n, hn, hni⟩ := exists_node hc.item_eq
      obtain ⟨s1, h1, hnodes1, H1⟩ := release_spec hc hnodupc hpos
      have hnext1 : s1.next = s.next := congrArg (fun f q => Option.map ApiNode.next (f q)) hnodes1
      have hprev1 : s1.prev = s.prev := congrArg (fun f q => Option.map ApiNode.prev (f q)) hnodes1
      have hitem1 : s1.item = s.item :=
        congrArg (fun f q => Option.map ApiNode.toApiItem (f q)) hnodes1
      have hring1 : IsRing s1.next s1.prev (some c.node) (c.node :: l.map Cell.node) := by
        rw [hnext1, hprev1]
        exact H.ring
      have hnodes : (c.node :: l.map Cell.node).Nodup :=
        List.nodup_cons.mpr ⟨fun h => Multiset.disjoint_left.mp hdisj (node_mem_objects c)
          (mem_objects_of_mem h), nodup_map_node hnodupl⟩
      obtain ⟨s2, root2, h2, hring2, hitem2, hnodes2, H2⟩ := unlink_spec hring1 hnodes
        ((congrFun hnodes1 _).trans hn) fun q hq => by
          rw [hitem1]
          exact H.item_of_mem (List.mem_cons_of_mem _ hq)
      have H12 : Freed s s2 c.objects c.kept.borrowed := by
        have H12 := H1.trans H2
        rwa [add_comm, Multiset.singleton_add, add_zero] at H12
      have Hl : Rep s2 root2 l := by
        refine ⟨hring2, fun b hb => (H.cells b (List.mem_cons_of_mem c hb)).congr ?_ fun q hq => ?_⟩
        · have hne : b.node ≠ c.node := fun h => (List.nodup_cons.mp hnodes).1
            (h ▸ List.mem_map_of_mem hb)
          rw [hitem2 _ hne, hitem1]
        · exact H12.blocks q fun h =>
            Multiset.disjoint_left.mp hdisj h (objects_subset hb hq)
      obtain ⟨s3, h3, H3, hnodes3⟩ := ih Hl hnodupl (fun j => by
        have hj := hcount j
        have hj2 := H12.refs j
        omega) (Nat.le_of_succ_le_succ hfuel) false
      refine ⟨s3, ?_, ?_, fun q hq => ?_⟩
      · simp only [printLoop, hn, hni, memberOf_eq hc hpos, h1, h2, h3, Option.bind_eq_bind,
          Option.bind_some, Option.pure_def, List.map_cons, printMembers]
      · rw [objects_cons, borrowed_cons]
        exact H12.trans H3
      · rw [objects_cons, Multiset.mem_add, not_or] at hq
        have hqout : q ∉ c.node :: l.map Cell.node := fun h => by
          rcases List.mem_cons.mp h with rfl | h
          · exact hq.1 (node_mem_objects c)
          · exact hq.2 (mem_objects_of_mem h)
        rw [hnodes3 q hq.2, hnodes2 q hqout, hnodes1]

end Memory

end ApiList
end MassGridMiner

import MassGridMiner.Api.DataCells
import MassGridMiner.Lib.Run

/-!
# Replies from their first node to what is printed

The lists of a program own different objects, and with what was freed these are all that were ever
made.  Every call keeps this, so that when nothing is left of the lists each object was freed once,
and every reference that was taken was given back.

## Main definitions

* `Inv` — the lists in memory, with what they own.
* `Inv.step` — every call keeps it.
* `right_of_calls` — the lists, what is printed, and what is freed, after any calls.
-/

namespace MassGridMiner
namespace ApiList

open Circular

/-- What the lists of a program are for: each is a ring of its members, the text is theirs, and
what was made for lists that are not there any more was freed once. -/
structure Right {V : Type} (refs : ℕ → ℕ) (t : Program V) (r : Replies V) : Prop where
  lists : ∀ v, ∃ nodes : List ℕ, nodes.Nodup ∧ IsRing t.mem.next t.mem.prev (t.root v) nodes ∧
    nodes.map (fun p => (t.mem.item p).bind t.mem.memberOf) = (r.members v).map some
  printed : t.printed = r.printed
  freed : (∀ v, r.members v = []) →
    t.mem.freed.Perm (List.range t.mem.made) ∧ t.mem.refs = refs

section
variable {V : Type} [Fintype V]

/-- The lists of a program with what they own, and the references that they took. -/
structure Inv (refs : ℕ → ℕ) (t : Program V) (r : Replies V) (cells : V → List Cell) : Prop where
  rep : ∀ v, Rep t.mem (t.root v) (cells v)
  members : ∀ v, (cells v).map Cell.member = r.members v
  printed : t.printed = r.printed
  custody : ∑ v, objects (cells v) + t.mem.freed = Multiset.range t.mem.made
  refs_eq : ∀ j, t.mem.refs j = refs j + (∑ v, borrowed (cells v)).count j

variable {refs : ℕ → ℕ} {t : Program V} {r : Replies V} {cells : V → List Cell} {v w : V}

theorem Inv.start (refs : ℕ → ℕ) : Inv refs (start refs : Program V) Replies.start fun _ => [] where
  rep := fun _ => rep_nil _
  members := fun _ => rfl
  printed := rfl
  custody := by
    simp only [objects_nil, Finset.sum_const_zero]
    rfl
  refs_eq := fun j => by
    simp only [borrowed_nil, Finset.sum_const_zero, Multiset.count_zero, Nat.add_zero]
    rfl

theorem Inv.le_range (H : Inv refs t r cells) (v : V) :
    objects (cells v) ≤ Multiset.range t.mem.made := by
  have hle : objects (cells v) ≤ ∑ v, objects (cells v) :=
    Finset.single_le_sum_of_canonicallyOrdered (f := fun v => objects (cells v)) (Finset.mem_univ v)
  exact H.custody ▸ hle.trans (Multiset.le_add_right _ _)

theorem Inv.nodup (H : Inv refs t r cells) (v : V) : (objects (cells v)).Nodup :=
  Multiset.nodup_of_le (H.le_range v) (Multiset.nodup_range _)

theorem Inv.lt (H : Inv refs t r cells) {p : ℕ} (hp : p ∈ objects (cells v)) : p < t.mem.made :=
  Multiset.mem_range.mp (Multiset.subset_of_le (H.le_range v) hp)

/-- The references of a list are some of those that there are. -/
theorem Inv.count_le (H : Inv refs t r cells) (v : V) (j : ℕ) :
    (borrowed (cells v)).count j ≤ t.mem.refs j := by
  have hle : borrowed (cells v) ≤ ∑ v, borrowed (cells v) :=
    Finset.single_le_sum_of_canonicallyOrdered (f := fun v => borrowed (cells v))
      (Finset.mem_univ v)
  rw [H.refs_eq]
  exact (Multiset.count_le_of_le j hle).trans (Nat.le_add_left _ _)

/-- There are no more nodes in a list than were made. -/
theorem Inv.length_le (H : Inv refs t r cells) (v : V) : (cells v).length ≤ t.mem.made := by
  have hle := Multiset.card_le_card ((coe_map_node_le (cells v)).trans (H.le_range v))
  rwa [Multiset.coe_card, List.length_map, Multiset.card_range] at hle

/-- The lists are right. -/
theorem Inv.right (H : Inv refs t r cells) : Right refs t r where
  lists := fun v => by
    refine ⟨(cells v).map Cell.node, nodup_map_node (H.nodup v), (H.rep v).ring, ?_⟩
    rw [← H.members, List.map_map, List.map_map]
    refine List.map_congr_left fun c hc => ?_
    have hpos : ∀ j ∈ c.kept.borrowed, 0 < t.mem.refs j := fun j hj =>
      Nat.lt_of_lt_of_le (Multiset.count_pos.mpr (borrowed_subset hc hj)) (H.count_le v j)
    have hin := (H.rep v).cells c hc
    simp only [Function.comp_apply, hin.item_eq, Option.bind_some,
      Memory.memberOf_eq hin hpos]
  printed := H.printed
  freed := fun hnone => by
    have hcells : ∀ v, cells v = [] := fun v =>
      List.map_eq_nil_iff.mp ((H.members v).trans (hnone v))
    have hcustody := H.custody
    simp only [hcells, objects_nil, Finset.sum_const_zero, zero_add] at hcustody
    refine ⟨Multiset.coe_eq_coe.mp hcustody, funext fun j => ?_⟩
    rw [H.refs_eq]
    simp only [hcells, borrowed_nil, Finset.sum_const_zero, Multiset.count_zero, Nat.add_zero]

variable [DecidableEq V]

/-- A sum over the lists, when one of them is another. -/
theorem sum_update {M : Type*} [AddCommMonoid M] (g : List Cell → M) (f : V → List Cell) (v : V)
    (l : List Cell) :
    ∑ w, g (Function.update f v l w) + g (f v) = ∑ w, g (f w) + g l := by
  have hothers : ∑ w ∈ Finset.univ.erase v, g (Function.update f v l w) =
      ∑ w ∈ Finset.univ.erase v, g (f w) :=
    Finset.sum_congr rfl fun w hw => by
      rw [Function.update_of_ne (Finset.ne_of_mem_erase hw)]
  rw [← Finset.add_sum_erase Finset.univ _ (Finset.mem_univ v),
    ← Finset.add_sum_erase Finset.univ (fun w => g (f w)) (Finset.mem_univ v), hothers,
    Function.update_self, add_right_comm, add_assoc, add_comm (g l),
    add_right_comm (g (f v)), add_right_comm (g (f v))]

/-- Two lists have nothing in common. -/
theorem Inv.nodup_add (H : Inv refs t r cells) (hne : v ≠ w) :
    (objects (cells v) + objects (cells w)).Nodup := by
  have hpair : ∑ u ∈ {v, w}, objects (cells u) ≤ ∑ u, objects (cells u) :=
    Finset.sum_le_sum_of_subset (Finset.subset_univ _)
  rw [Finset.sum_pair hne] at hpair
  have hle := hpair.trans (Multiset.le_add_right _ (t.mem.freed : Multiset ℕ))
  rw [H.custody] at hle
  exact Multiset.nodup_of_le hle (Multiset.nodup_range _)

theorem Inv.notMem (H : Inv refs t r cells) (hne : v ≠ w) {p : ℕ} (hp : p ∈ objects (cells v)) :
    p ∉ objects (cells w) := fun h =>
  Multiset.disjoint_left.mp (Multiset.nodup_add.mp (H.nodup_add hne)).2.2 hp h

/-! ## The calls -/

variable (printDouble : ℕ → Float → List UInt8) (dumps : ℕ → List UInt8)

/-- A member is added to a list. -/
theorem Inv.add (H : Inv refs t r cells) (v : V) (name : CStr) (data : Option Value)
    (copyData : Bool) (hproper : (Op.add v name data copyData).Proper refs) :
    ∃ t' cells', step printDouble dumps t (.add v name data copyData) = some t' ∧
      Inv refs t' (r.step printDouble dumps (.add v name data copyData)) cells' := by
  have hrefs : ∀ j, data = some (.json j) → 0 < t.mem.refs j := by
    rintro j rfl
    rw [H.refs_eq]
    exact Nat.add_pos_left hproper _
  obtain ⟨s', root', c, hs, hrep, hmember, hgrown⟩ :=
    Memory.addDataFull_spec (H.rep v) (H.nodup v) (fun p hp => H.lt hp) name data copyData hrefs
  refine ⟨{ t with mem := s', root := Function.update t.root v root' },
    Function.update cells v (cells v ++ [c]), ?_, fun w => ?_, fun w => ?_, H.printed, ?_,
    fun j => ?_⟩
  · simp only [step, hs, Option.bind_eq_bind, Option.bind_some, Option.pure_def]
  · rcases eq_or_ne w v with rfl | hne
    · simp only [Function.update_self]
      exact hrep
    · simp only [Function.update_of_ne hne]
      exact (H.rep w).congr fun p hp =>
        ⟨hgrown.nodes p (H.notMem hne hp) (H.lt hp), hgrown.blocks p (H.lt hp)⟩
  · simp only [Replies.step, Function.update_apply]
    split
    next heq =>
      rw [List.map_append, H.members, List.map_singleton, hmember]
    next => exact H.members w
  · have hsum := sum_update objects cells v (cells v ++ [c])
    rw [objects_append, objects_cons, objects_nil, add_zero, ← add_assoc, add_right_comm] at hsum
    rw [add_right_cancel hsum, hgrown.range, hgrown.freed, ← H.custody, add_comm c.objects,
      add_right_comm]
  · have hsum := sum_update borrowed cells v (cells v ++ [c])
    rw [borrowed_append, borrowed_cons, borrowed_nil, add_zero, ← add_assoc, add_right_comm] at hsum
    rw [add_right_cancel hsum, hgrown.refs, H.refs_eq, Multiset.count_add, Nat.add_assoc]

/-- A list is put behind another one. -/
theorem Inv.extra (H : Inv refs t r cells) (v w : V)
    (hproper : (Op.extra v w).Proper refs) :
    ∃ t' cells', step printDouble dumps t (.extra v w) = some t' ∧
      Inv refs t' (r.step printDouble dumps (.extra v w)) cells' := by
  have hvw : v ≠ w := hproper
  have hnodup : (objects (cells v ++ cells w)).Nodup := by
    rw [objects_append]
    exact H.nodup_add hvw
  obtain ⟨s', root', hs, hrep, hsame, hnodes⟩ :=
    Memory.addExtra_spec (H.rep v) (H.rep w) hnodup
  let cells' := Function.update (Function.update cells w []) v (cells v ++ cells w)
  have hsum : ∀ (g : List Cell → Multiset ℕ), g [] = 0 →
      (∀ l l', g (l ++ l') = g l + g l') → ∑ u, g (cells' u) = ∑ u, g (cells u) := by
    intro g hnil happend
    have hw := sum_update g cells w []
    have hv := sum_update g (Function.update cells w []) v (cells v ++ cells w)
    rw [Function.update_of_ne hvw, happend, add_comm (g (cells v)), ← add_assoc] at hv
    rw [add_right_cancel hv, hw, hnil, add_zero]
  refine ⟨{ t with
      mem := s', root := Function.update (Function.update t.root w none) v root' },
    cells', ?_, fun u => ?_, fun u => ?_, H.printed, ?_, fun j => ?_⟩
  · simp only [step, hs, Option.bind_eq_bind, Option.bind_some, Option.pure_def]
  · rcases eq_or_ne u v with rfl | huv
    · simp only [cells', Function.update_self]
      exact hrep
    · rcases eq_or_ne u w with rfl | huw
      · simp only [cells', Function.update_of_ne huv, Function.update_self]
        exact rep_nil _
      · simp only [cells', Function.update_of_ne huv, Function.update_of_ne huw]
        refine (H.rep u).congr fun p hp => ⟨hnodes p fun h => ?_, congrFun hsame.blocks p⟩
        rw [objects_append, Multiset.mem_add] at h
        exact h.elim (H.notMem huv hp) (H.notMem huw hp)
  · simp only [Replies.step, cells', Function.update_apply]
    split
    next => rw [List.map_append, H.members, H.members]
    next =>
      split
      next => rfl
      next => exact H.members u
  · rw [hsum objects objects_nil objects_append, hsame.freed, hsame.made]
    exact H.custody
  · rw [hsum borrowed borrowed_nil borrowed_append, hsame.refs]
    exact H.refs_eq j

/-- A list is printed. -/
theorem Inv.print (H : Inv refs t r cells) (v : V) (isjson precom : Bool) :
    ∃ t' cells', step printDouble dumps t (.print v isjson precom) = some t' ∧
      Inv refs t' (r.step printDouble dumps (.print v isjson precom)) cells' := by
  obtain ⟨s', hs, hfreed, hnodes⟩ := Memory.printLoop_spec printDouble dumps isjson (H.rep v)
    (H.nodup v) (H.count_le v) (H.length_le v) true
  rw [H.members] at hs
  refine ⟨⟨s', Function.update t.root v none,
      t.printed ++ [printMembersText printDouble dumps (r.members v) isjson precom]⟩,
    Function.update cells v [], ?_, fun w => ?_, fun w => ?_, ?_, ?_, fun j => ?_⟩
  · simp only [step, Memory.printData, hs, Option.bind_eq_bind, Option.bind_some, Option.pure_def]
    rfl
  · rcases eq_or_ne w v with rfl | hne
    · simp only [Function.update_self]
      exact rep_nil _
    · simp only [Function.update_of_ne hne]
      exact (H.rep w).congr fun p hp =>
        ⟨hnodes p (H.notMem hne hp), hfreed.blocks p (H.notMem hne hp)⟩
  · simp only [Replies.step, Function.update_apply]
    split
    next => rfl
    next => exact H.members w
  · exact congrArg (· ++ _) H.printed
  · have hsum := sum_update objects cells v []
    rw [objects_nil, add_zero] at hsum
    rw [hfreed.freed, hfreed.made, ← H.custody, ← hsum, add_assoc]
  · have hsum := congrArg (Multiset.count j) (sum_update borrowed cells v [])
    rw [borrowed_nil, add_zero, Multiset.count_add] at hsum
    have hj := hfreed.refs j
    rw [H.refs_eq] at hj
    change s'.refs j = _
    omega

/-- **Every call** keeps the lists. -/
theorem Inv.step (H : Inv refs t r cells) (op : Op V) (hproper : op.Proper refs) :
    ∃ t' cells', step printDouble dumps t op = some t' ∧
      Inv refs t' (r.step printDouble dumps op) cells' := by
  cases op with
  | add v name data copyData => exact H.add printDouble dumps v name data copyData hproper
  | extra v w => exact H.extra printDouble dumps v w hproper
  | print v isjson precom => exact H.print printDouble dumps v isjson precom

theorem Inv.exec (H : Inv refs t r cells) (ops : List (Op V))
    (hproper : ∀ op ∈ ops, op.Proper refs) :
    ∃ t' cells', Run.exec (ApiList.step printDouble dumps) t ops = some t' ∧
      Inv refs t' (ops.foldl (Replies.step printDouble dumps) r) cells' := by
  induction ops generalizing t r cells with
  | nil => exact ⟨t, cells, rfl, H⟩
  | cons op ops ih =>
      obtain ⟨t1, cells1, h1, H1⟩ :=
        H.step printDouble dumps op (hproper op List.mem_cons_self)
      obtain ⟨t2, cells2, h2, H2⟩ := ih H1 fun op' hop' =>
        hproper op' (List.mem_cons_of_mem op hop')
      refine ⟨t2, cells2, ?_, H2⟩
      rw [Run.exec_cons, h1]
      exact h2

end

end ApiList
end MassGridMiner

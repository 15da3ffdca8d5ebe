import MassGridMiner.Lib.Buffer
import Mathlib.Logic.Function.Basic

/-!
# Allocated memory

Memory is allocated in blocks, each of its own size, and a pointer is to the start of one or to
nothing.  A block that is reallocated is another one, so that the pointer to it before is to no
block any more.  What is new in a block has any contents.

## Main definitions

* `ByteHeap` — the blocks, with the proof that those not yet allocated are not there.
* `ByteHeap.alloc`, `ByteHeap.free`, `ByteHeap.realloc`, `ByteHeap.read`, `ByteHeap.write` — the
  operations; none where they go outside of a block.
* `ByteHeap.Moves` — one block has changed or moved, and nothing else has.
-/

/-- Blocks of memory by their places, and the place of the next one. -/
structure ByteHeap where
  block : ℕ → Option (List UInt8)
  next : ℕ
  block_eq_none : ∀ p, next ≤ p → block p = none

namespace ByteHeap

/-- No memory is allocated. -/
def empty : ByteHeap := ⟨fun _ => none, 0, fun _ _ => rfl⟩

/-- What a pointer is to; nothing for a null pointer. -/
def view (h : ByteHeap) : Option ℕ → Option (List UInt8)
  | none => some []
  | some p => h.block p

/-- A block with the bytes. -/
def alloc (h : ByteHeap) (bytes : List UInt8) : ℕ × ByteHeap :=
  (h.next,
    { block := Function.update h.block h.next (some bytes)
      next := h.next + 1
      block_eq_none := fun p hp => by
        rw [Function.update_of_ne (by omega)]
        exact h.block_eq_none p (by omega) })

/-- `free`. -/
def free (h : ByteHeap) : Option ℕ → Option ByteHeap
  | none => some h
  | some p => (h.block p).map fun _ =>
    { block := Function.update h.block p none
      next := h.next
      block_eq_none := fun q hq => by
        rcases eq_or_ne q p with rfl | hne
        · exact Function.update_self ..
        · rw [Function.update_of_ne hne]
          exact h.block_eq_none q hq }

/-- `realloc`, which is `malloc` for a null pointer; the bytes that are new are those of `junk` for
the new block. -/
def realloc (junk : ℕ → ℕ → UInt8) (h : ByteHeap) (buf : Option ℕ) (size : ℕ) :
    Option (ℕ × ByteHeap) := do
  let bytes ← h.view buf
  let h' ← h.free buf
  some (h'.alloc ((List.range size).map fun i => bytes[i]?.getD (junk h.next i)))

/-- The `n` bytes from an offset on. -/
def read (h : ByteHeap) (buf : Option ℕ) (off n : ℕ) : Option (List UInt8) :=
  (h.view buf).bind fun bytes => readAt bytes off n

/-- A write of bytes at an offset. -/
def write (h : ByteHeap) (buf : Option ℕ) (off : ℕ) (bs : List UInt8) : Option ByteHeap :=
  match buf with
  | none => (memcpy [] off bs).map fun _ => h
  | some p =>
    match H : h.block p with
    | none => none
    | some bytes => (memcpy bytes off bs).map fun bytes' =>
      { block := Function.update h.block p (some bytes')
        next := h.next
        block_eq_none := fun q hq => by
          rcases eq_or_ne q p with rfl | hne
          · rw [h.block_eq_none q hq] at H
            cases H
          · rw [Function.update_of_ne hne]
            exact h.block_eq_none q hq }

/-- Nothing has changed but the block that was at one pointer and is at another one, which is new
if it is not the same. -/
structure Moves (h h' : ByteHeap) (old new : Option ℕ) : Prop where
  frame : ∀ p bytes, h.block p = some bytes → some p ≠ old → h'.block p = some bytes
  fresh : ∀ p, new = some p → new ≠ old → h.block p = none

theorem Moves.refl (h : ByteHeap) (buf : Option ℕ) : Moves h h buf buf :=
  ⟨fun _ _ hp _ => hp, fun _ _ hne => absurd rfl hne⟩

theorem Moves.trans {h h₁ h₂ : ByteHeap} {old mid new : Option ℕ} (H : Moves h h₁ old mid)
    (H' : Moves h₁ h₂ mid new) : Moves h h₂ old new where
  frame p bytes hp hne := by
    refine H'.frame p bytes (H.frame p bytes hp hne) fun hmid => ?_
    rw [H.fresh p hmid.symm (hmid ▸ hne)] at hp
    cases hp
  fresh p hnew hne := by
    by_cases hmid : new = mid
    · exact H.fresh p (hmid ▸ hnew) (hmid ▸ hne)
    · have hnone := H'.fresh p hnew hmid
      by_contra hsome
      obtain ⟨bytes, hp⟩ := Option.ne_none_iff_exists'.mp hsome
      rw [H.frame p bytes hp (hnew ▸ hne)] at hnone
      cases hnone

/-- What another pointer is to stays. -/
theorem Moves.view {h h' : ByteHeap} {old new buf : Option ℕ} {bytes : List UInt8}
    (H : Moves h h' old new) (hview : h.view buf = some bytes) (hne : buf = none ∨ buf ≠ old) :
    h'.view buf = some bytes := by
  cases buf with
  | none => exact hview
  | some p => exact H.frame p bytes hview (hne.resolve_left (Option.some_ne_none p))

theorem exists_write {h : ByteHeap} {buf : Option ℕ} {bytes bs : List UInt8} {off : ℕ}
    (hview : h.view buf = some bytes) (hroom : off + bs.length ≤ bytes.length) :
    ∃ h', h.write buf off bs = some h' ∧ h'.view buf = some (writeAt bytes off bs) ∧
      Moves h h' buf buf := by
  cases buf with
  | none =>
    obtain rfl := Option.some.inj hview
    obtain rfl : bs = [] := List.length_eq_zero_iff.mp (Nat.le_zero.mp
      ((Nat.le_add_left _ _).trans hroom))
    refine ⟨h, by rw [write, memcpy, if_pos hroom]; rfl, ?_, Moves.refl h none⟩
    simp [view, writeAt]
  | some p =>
    have hp : h.block p = some bytes := hview
    rw [write]
    split
    · next hnone => rw [hp] at hnone; cases hnone
    · next bytes' hsome =>
      obtain rfl := Option.some.inj (hp.symm.trans hsome)
      rw [memcpy, if_pos hroom]
      refine ⟨_, rfl, Function.update_self .., fun q bytes' hq hne => ?_, fun _ _ hne =>
        absurd rfl hne⟩
      exact (Function.update_of_ne (fun h => hne (congrArg some h)) _ _).trans hq

theorem exists_free {h : ByteHeap} {buf : Option ℕ} {bytes : List UInt8}
    (hview : h.view buf = some bytes) :
    ∃ h', h.free buf = some h' ∧ Moves h h' buf none ∧ h'.next = h.next ∧
      ∀ p, buf = some p → h'.block p = none := by
  cases buf with
  | none =>
    exact ⟨h, rfl, ⟨fun _ _ hp _ => hp, fun _ hp => nomatch hp⟩, rfl, fun _ hp => nomatch hp⟩
  | some p =>
    have hp : h.block p = some bytes := hview
    obtain ⟨h', hfree, hblock, hnext⟩ : ∃ h', h.free (some p) = some h' ∧
        h'.block = Function.update h.block p none ∧ h'.next = h.next :=
      ⟨_, congrArg (Option.map _) hp, rfl, rfl⟩
    refine ⟨h', hfree, ⟨fun q bytes' hq hne => ?_, fun _ hq => nomatch hq⟩, hnext, ?_⟩
    · rw [hblock, Function.update_of_ne fun h => hne (congrArg some h)]
      exact hq
    · rintro q hq
      obtain rfl := Option.some.inj hq
      rw [hblock, Function.update_self]

theorem alloc_moves (h : ByteHeap) (bytes : List UInt8) :
    Moves h (h.alloc bytes).2 none (some (h.alloc bytes).1) ∧
      (h.alloc bytes).2.block (h.alloc bytes).1 = some bytes := by
  refine ⟨⟨fun p bytes' hp _ => ?_, fun p hp _ => ?_⟩, Function.update_self ..⟩
  · have hne : p ≠ h.next := by
      rintro rfl
      rw [h.block_eq_none _ le_rfl] at hp
      cases hp
    exact (Function.update_of_ne hne _ _).trans hp
  · obtain rfl := Option.some.inj hp
    exact h.block_eq_none _ le_rfl

/-- A block is reallocated: the bytes there is room for are kept, and the block is not where it
was. -/
theorem exists_realloc {h : ByteHeap} {buf : Option ℕ} {bytes : List UInt8}
    (hview : h.view buf = some bytes) (junk : ℕ → ℕ → UInt8) (size : ℕ) :
    ∃ p h' bytes', h.realloc junk buf size = some (p, h') ∧ h'.block p = some bytes' ∧
      bytes'.length = size ∧ (∀ i, i < size → i < bytes.length → bytes'[i]? = bytes[i]?) ∧
      Moves h h' buf (some p) ∧ ∀ q, buf = some q → h'.block q = none := by
  obtain ⟨h₁, hfree, hmoves, hnext, hgone⟩ := exists_free hview
  obtain ⟨halloc, hblock⟩ := h₁.alloc_moves
    ((List.range size).map fun i => bytes[i]?.getD (junk h.next i))
  refine ⟨_, _, _, ?_, hblock, ?_, ?_, hmoves.trans halloc, ?_⟩
  · rw [realloc, hview]
    exact congrArg (Option.bind · _) hfree
  · rw [List.length_map, List.length_range]
  · intro i hi hlt
    rw [List.getElem?_map, List.getElem?_range hi, Option.map_some, List.getElem?_eq_getElem hlt,
      Option.getD_some]
  · rintro q rfl
    have hne : q ≠ h₁.next := by
      rintro rfl
      rw [view, hnext, h.block_eq_none _ le_rfl] at hview
      cases hview
    exact (Function.update_of_ne hne _ _).trans (hgone q rfl)

end ByteHeap

import Mathlib.Algebra.Order.Ring.Int
import Mathlib.Data.List.Nodup
import Mathlib.Data.List.Range

/-!
# Bulk transfers of a Klondike

`_usb_rw` asks for bulk transfers until as many bytes have been processed as the buffer has.  Each
transfer is asked to be of the whole buffer, from its start, whatever was transferred before.

## Main definitions

* `usbRw` — the loop, given what the transfers are.
* `UsbRw.Whole` — the transfers were of the buffer, from its start to its end.
* `whole_iff` — they are if none is partial.
-/

namespace MassGridMiner

/-- What `_usb_rw` has done: `*processed`, and the bytes of the buffer, by their places, that each
transfer was of. -/
structure UsbRw where
  processed : ℤ
  chunks : List (List ℕ)

/-- A number as an `int`. -/
def toInt32 (n : ℤ) : ℤ := n.bmod (2 ^ 32)

/-- An `int` as a `size_t`. -/
def toSizeT (n : ℤ) : ℕ := (n % 2 ^ 64).toNat

/-- The length that a transfer is asked for: the size as an `int`. -/
def transferLength (bufsiz : ℕ) : ℤ := toInt32 bufsiz

/-- The loop of `_usb_rw`, which ends well after exactly these transfers, or not. -/
def usbLoop (bufsiz : ℕ) : List ℕ → UsbRw → Option UsbRw
  | [], rw => if toSizeT rw.processed < bufsiz then none else some rw
  | sent :: more, rw =>
    if toSizeT rw.processed < bufsiz then
      usbLoop bufsiz more
        { processed := toInt32 (rw.processed + sent), chunks := rw.chunks ++ [List.range sent] }
    else none

/-- `_usb_rw`. -/
def usbRw (bufsiz : ℕ) (transfers : List ℕ) : Option UsbRw :=
  usbLoop bufsiz transfers ⟨0, []⟩

/-- Nothing outside of the buffer was touched, all of it was processed, and the chunks laid end to
end are the buffer. -/
structure UsbRw.Whole (bufsiz : ℕ) (rw : UsbRw) : Prop where
  inside : ∀ chunk ∈ rw.chunks, ∀ place ∈ chunk, place < bufsiz
  processed : rw.processed = bufsiz
  chunks : rw.chunks.flatten = List.range bufsiz

/-- The chunks are the starts of the buffer that the transfers were of. -/
theorem chunks_usbLoop {bufsiz : ℕ} {transfers : List ℕ} {rw rw' : UsbRw}
    (H : usbLoop bufsiz transfers rw = some rw') :
    rw'.chunks = rw.chunks ++ transfers.map List.range := by
  induction transfers generalizing rw with
  | nil =>
    rw [usbLoop] at H
    split at H
    · cases H
    · obtain rfl := Option.some.inj H
      rw [List.map_nil, List.append_nil]
  | cons sent more ih =>
    rw [usbLoop] at H
    split at H
    · rw [ih H, List.append_assoc]
      rfl
    · cases H

/-- Starts of a range that are a range together are each nothing or all of it. -/
theorem eq_zero_or_eq_of_flatten {sizes : List ℕ} {n : ℕ}
    (H : (sizes.map List.range).flatten = List.range n) : ∀ size ∈ sizes, size = 0 ∨ size = n := by
  induction sizes with
  | nil => simp
  | cons size more ih =>
    rw [List.map_cons, List.flatten_cons] at H
    rcases Nat.eq_zero_or_pos size with rfl | hpos
    · rw [List.range_zero, List.nil_append] at H
      exact List.forall_mem_cons.mpr ⟨.inl rfl, ih H⟩
    · -- place zero is in this chunk, and so in no other
      have hnodup : (List.range size ++ (more.map List.range).flatten).Nodup :=
        H ▸ List.nodup_range
      have hzeros : ∀ other ∈ more, other = 0 := by
        intro other hother
        by_contra hne
        have hmem : 0 ∈ (more.map List.range).flatten :=
          List.mem_flatten.mpr ⟨_, List.mem_map_of_mem hother,
            List.mem_range.mpr (Nat.pos_of_ne_zero hne)⟩
        exact List.disjoint_of_nodup_append hnodup (List.mem_range.mpr hpos) hmem
      have hempty : (more.map List.range).flatten = [] := by
        rw [List.flatten_eq_nil_iff]
        intro chunk hchunk
        obtain ⟨other, hother, rfl⟩ := List.mem_map.mp hchunk
        rw [hzeros other hother, List.range_zero]
      rw [hempty, List.append_nil] at H
      have hsize : size = n := by simpa using congrArg List.length H
      exact List.forall_mem_cons.mpr ⟨.inr hsize, fun other hother => .inl (hzeros other hother)⟩

theorem toInt32_eq {n : ℕ} (H : (n : ℤ) ≤ toInt32 n) : toInt32 n = n ∧ n < 2 ^ 31 := by
  have hsize : ((2 ^ 32 : ℕ) : ℤ) = 4294967296 := rfl
  have hlt : toInt32 n < 2147483648 := Int.bmod_lt (by decide)
  refine ⟨Int.bmod_eq_of_le_mul_two ?_ ?_, by omega⟩
  · rw [hsize]
    omega
  · rw [hsize]
    omega

theorem toSizeT_natCast {n : ℕ} (H : n < 2 ^ 31) : toSizeT n = n := by
  rw [toSizeT, Int.emod_eq_of_lt (by omega) (by omega), Int.toNat_natCast]

/-- Transfers of nothing or of all, when nothing has been processed. -/
theorem usbLoop_of_forall {bufsiz : ℕ} {transfers : List ℕ} {rw rw' : UsbRw}
    (hvalid : ∀ sent ∈ transfers, (sent : ℤ) ≤ transferLength bufsiz)
    (hall : ∀ sent ∈ transfers, sent = 0 ∨ sent = bufsiz) (hnone : rw.processed = 0)
    (H : usbLoop bufsiz transfers rw = some rw') :
    rw'.processed = bufsiz ∧ (transfers.map List.range).flatten = List.range bufsiz := by
  induction transfers generalizing rw with
  | nil =>
    rw [usbLoop, hnone] at H
    split at H
    · cases H
    · next hdone =>
      obtain rfl := Option.some.inj H
      have hzero : bufsiz = 0 := Nat.eq_zero_of_not_pos hdone
      rw [hnone, hzero]
      exact ⟨rfl, rfl⟩
  | cons sent more ih =>
    rw [List.forall_mem_cons] at hvalid hall
    rw [usbLoop, hnone] at H
    split at H
    · next hmore =>
      rcases hall.1 with rfl | rfl
      · exact ih hvalid.2 hall.2 rfl H
      · -- all is transferred, and the loop ends
        obtain ⟨hint, hlt⟩ := toInt32_eq hvalid.1
        rw [zero_add, hint] at H
        cases more with
        | nil =>
          rw [usbLoop, toSizeT_natCast hlt, if_neg (lt_irrefl _)] at H
          obtain rfl := Option.some.inj H
          exact ⟨rfl, by simp⟩
        | cons other more =>
          rw [usbLoop, toSizeT_natCast hlt, if_neg (lt_irrefl _)] at H
          cases H
    · cases H

/-- In any case nothing outside of the buffer is touched. -/
theorem inside_of_valid {bufsiz : ℕ} {transfers : List ℕ} {rw : UsbRw}
    (hvalid : ∀ sent ∈ transfers, (sent : ℤ) ≤ transferLength bufsiz)
    (H : usbRw bufsiz transfers = some rw) :
    ∀ chunk ∈ rw.chunks, ∀ place ∈ chunk, place < bufsiz := by
  have hchunks : rw.chunks = transfers.map List.range := chunks_usbLoop H
  have hle : transferLength bufsiz ≤ bufsiz := by
    have hsize : ((2 ^ 32 : ℕ) : ℤ) = 4294967296 := rfl
    rw [transferLength, toInt32, Int.bmod_def, hsize]
    split <;> omega
  rw [hchunks]
  intro chunk hchunk place hplace
  obtain ⟨sent, hsent, rfl⟩ := List.mem_map.mp hchunk
  rw [List.mem_range] at hplace
  have := hvalid sent hsent
  omega

/-- **The transfers are of the whole buffer** exactly if none of them is partial. -/
theorem whole_iff {bufsiz : ℕ} {transfers : List ℕ} {rw : UsbRw}
    (hvalid : ∀ sent ∈ transfers, (sent : ℤ) ≤ transferLength bufsiz)
    (H : usbRw bufsiz transfers = some rw) :
    rw.Whole bufsiz ↔ ∀ sent ∈ transfers, sent = 0 ∨ sent = bufsiz := by
  have hchunks : rw.chunks = transfers.map List.range := chunks_usbLoop H
  constructor
  · intro hwhole
    exact eq_zero_or_eq_of_flatten (hchunks ▸ hwhole.chunks)
  · intro hall
    obtain ⟨hprocessed, hflatten⟩ := usbLoop_of_forall hvalid hall rfl H
    exact ⟨inside_of_valid hvalid H, hprocessed, hchunks ▸ hflatten⟩

/-- Four bytes in one transfer. -/
theorem whole_iff_four :
    UsbRw.Whole 4 ⟨4, [[], [0, 1, 2, 3]]⟩ ↔ ∀ sent ∈ [0, 4], sent = 0 ∨ sent = 4 :=
  whole_iff (by decide) (rfl : usbRw 4 [0, 4] = some ⟨4, [[], [0, 1, 2, 3]]⟩)

/-- Of four bytes the first two are transferred twice. -/
theorem not_whole_halves : (∀ sent ∈ [2, 2], ((sent : ℕ) : ℤ) ≤ transferLength 4) ∧
    ∃ rw, usbRw 4 [2, 2] = some rw ∧ ¬ rw.Whole 4 := by
  refine ⟨by decide, ⟨4, [[0, 1], [0, 1]]⟩, rfl, fun hwhole => ?_⟩
  have hchunks := hwhole.chunks
  exact absurd hchunks (by decide)

end MassGridMiner

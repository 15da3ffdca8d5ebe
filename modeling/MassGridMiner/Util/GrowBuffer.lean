import MassGridMiner.Lib.Buffer

/-!
# A buffer that grows

`bfg_strerror` keeps its messages in a buffer that is grown when one does not fit.  The loop that
looks for a size sets it to two each time around, so it ends at once or never does.

## Main definitions

* `bfgGrowBuffer` — the function, with a bound on how often its loop goes around.
* `Grows` — it ends, with a size that is enough and not below the one before.
* `grows_iff` — which sizes and requests do.
* `copied_iff` — which messages are copied.
-/

namespace MassGridMiner

/-- The memory of a buffer and its recorded size. -/
structure GrowingBuffer where
  buf : List UInt8
  bufsz : ℕ

section
variable (junk : ℕ → UInt8)

/-- `realloc`; what is new has any contents. -/
def realloc (buf : List UInt8) (size : ℕ) : List UInt8 :=
  (List.range size).map fun i => buf[i]?.getD (junk i)

/-- The loop of `bfg_grow_buffer`, or none if it goes around more often than `fuel` says. -/
def growLoop (minimum : ℕ) : ℕ → ℕ → Option ℕ
  | 0, bufsz => if bufsz < minimum then none else some bufsz
  | fuel + 1, bufsz => if bufsz < minimum then growLoop minimum fuel 2 else some bufsz

/-- `bfg_grow_buffer`. -/
def bfgGrowBuffer (fuel : ℕ) (b : GrowingBuffer) (minimum : ℕ) : Option (Bool × GrowingBuffer) :=
  if minimum ≤ b.bufsz then some (false, b)
  else (growLoop minimum fuel b.bufsz).map fun bufsz =>
    (true, { buf := realloc junk b.buf bufsz, bufsz })

/-- `bfg_strcpy_growing_buffer` for a string, given without its NUL. -/
def bfgStrcpyGrowingBuffer (fuel : ℕ) (b : GrowingBuffer) (src : List UInt8) :
    Option GrowingBuffer := do
  let (_, b) ← bfgGrowBuffer junk fuel b (src.length + 1)
  let buf ← memcpy b.buf 0 (src ++ [0])
  some { b with buf }

/-- The buffer is grown: the loop ends, and the size is at least the minimum and not smaller than
before. -/
def Grows (b : GrowingBuffer) (minimum : ℕ) : Prop :=
  ∃ fuel grew b', bfgGrowBuffer junk fuel b minimum = some (grew, b') ∧ minimum ≤ b'.bufsz ∧
    b.bufsz ≤ b'.bufsz

end

/-- The loop sets the size to two for ever. -/
theorem growLoop_eq_none {minimum bufsz : ℕ} (hlt : bufsz < minimum) (htwo : 2 < minimum)
    (fuel : ℕ) : growLoop minimum fuel bufsz = none := by
  induction fuel generalizing bufsz with
  | zero => rw [growLoop, if_pos hlt]
  | succ fuel ih => rw [growLoop, if_pos hlt, ih htwo]

/-- **A buffer is grown** exactly if the request fits it as it is, or two bytes. -/
theorem grows_iff (junk : ℕ → UInt8) (b : GrowingBuffer) (minimum : ℕ) :
    Grows junk b minimum ↔ minimum ≤ b.bufsz ∨ minimum ≤ 2 := by
  constructor
  · rintro ⟨fuel, grew, b', hgrow, -⟩
    by_contra hboth
    rw [not_or, not_le, not_le] at hboth
    rw [bfgGrowBuffer, if_neg (by omega), growLoop_eq_none hboth.1 hboth.2] at hgrow
    cases hgrow
  · intro hcases
    by_cases hfits : minimum ≤ b.bufsz
    · exact ⟨0, false, b, if_pos hfits, hfits, le_rfl⟩
    · have htwo : minimum ≤ 2 := hcases.resolve_left hfits
      have hloop : growLoop minimum 1 b.bufsz = some 2 := by
        rw [growLoop, if_pos (by omega), growLoop, if_neg (by omega)]
      refine ⟨1, true, ⟨realloc junk b.buf 2, 2⟩, ?_, htwo, ?_⟩
      · rw [bfgGrowBuffer, if_neg hfits, hloop]
        rfl
      · dsimp only
        omega

/-- A message of three characters does not fit a buffer of two bytes, and no size is found. -/
theorem not_grows_four : ¬ Grows (fun _ => 0) ⟨[0, 0], 2⟩ 4 := by
  rintro ⟨fuel, grew, b', hgrow, -⟩
  rw [bfgGrowBuffer, if_neg (by decide), growLoop_eq_none (by decide) (by decide)] at hgrow
  cases hgrow

theorem length_realloc (junk : ℕ → UInt8) (buf : List UInt8) (size : ℕ) :
    (realloc junk buf size).length = size := by
  rw [realloc, List.length_map, List.length_range]

/-- **A message is copied** exactly if the buffer is grown for it. -/
theorem copied_iff (junk : ℕ → UInt8) {b : GrowingBuffer} (hsize : b.buf.length = b.bufsz)
    (src : List UInt8) : (∃ fuel b', bfgStrcpyGrowingBuffer junk fuel b src = some b' ∧
      b'.buf.length = b'.bufsz ∧ src ++ [0] <+: b'.buf) ↔ Grows junk b (src.length + 1) := by
  constructor
  · rintro ⟨fuel, b', hcopy, -⟩
    rw [bfgStrcpyGrowingBuffer] at hcopy
    obtain ⟨⟨grew, next⟩, hgrow, -⟩ := Option.bind_eq_some_iff.mp hcopy
    rw [bfgGrowBuffer] at hgrow
    split at hgrow
    · next hfits => exact (grows_iff junk b _).mpr (.inl hfits)
    · next hnot =>
      refine (grows_iff junk b _).mpr (.inr ?_)
      by_contra hmany
      rw [growLoop_eq_none (by omega) (by omega)] at hgrow
      cases hgrow
  · rintro ⟨fuel, grew, next, hgrow, hfits, -⟩
    have hnext : next.buf.length = next.bufsz := by
      rw [bfgGrowBuffer] at hgrow
      split at hgrow
      · obtain rfl := congrArg Prod.snd (Option.some.inj hgrow)
        exact hsize
      · obtain ⟨size, -, hsome⟩ := Option.map_eq_some_iff.mp hgrow
        obtain rfl := congrArg Prod.snd hsome
        exact length_realloc junk b.buf size
    have hroom : (src ++ [0]).length ≤ next.bufsz := by
      rw [List.length_append, List.length_singleton]
      exact hfits
    obtain ⟨buf, hcopy, hstarts⟩ := memcpy_zero hnext hroom
    refine ⟨fuel, { next with buf }, ?_, hstarts.length_eq, hstarts.isPrefix⟩
    rw [bfgStrcpyGrowingBuffer, hgrow, Option.bind_eq_bind, Option.bind_some]
    dsimp only
    rw [hcopy]
    rfl

end MassGridMiner

import MassGridMiner.Lib.Heap
import MassGridMiner.Lib.Run
import Mathlib.Logic.Equiv.Basic

/-!
# Byte strings of any size

A `bytes_t` is a pointer to allocated memory with the size of that and of what is in use.  The
memory is grown by doubling, and a copy gets half as much as often as that is more than is in use.

A value that is appended to itself is read through the pointer that it had before it was grown.

## Main definitions

* `BytesT.step` — the operations on any number of values.
* `BytesT.Abstract` — what they do to byte strings.
* `BytesT.Lawful` — the memory is allocated as recorded, and holds the byte strings.
* `BytesT.allSteps_appended_iff` — the runs that are lawful throughout.
-/

namespace MassGridMiner
namespace BytesT

/-- A `bytes_t`. -/
structure Value where
  buf : Option ℕ
  sz : ℕ
  allocsz : ℕ
  deriving DecidableEq

/-- `BYTES_INIT`. -/
def bytesInit : Value := ⟨none, 0, 0⟩

/-- What is appended: bytes that the caller has, or so many at a pointer. -/
inductive Source
  | bytes (bs : List UInt8)
  | memory (buf : Option ℕ) (n : ℕ)

def Source.length : Source → ℕ
  | .bytes bs => bs.length
  | .memory _ n => n

/-- The bytes when they are read. -/
def Source.read (h : ByteHeap) : Source → Option (List UInt8)
  | .bytes bs => some bs
  | .memory buf n => h.read buf 0 n

/-- The loop of `bytes_extend_buf`, which goes around less often than a size has bits; none if it
would not end. -/
def growLoop (newsz : ℕ) : ℕ → ℕ → Option ℕ
  | 0, _ => none
  | fuel + 1, allocsz =>
    let allocsz := allocsz * 2 % 2 ^ 64
    if allocsz < newsz then growLoop newsz fuel allocsz else some allocsz

/-- The loop of `bytes_cpy`. -/
def halveLoop (sz : ℕ) : ℕ → ℕ → Option ℕ
  | 0, _ => none
  | fuel + 1, allocsz =>
    let half := allocsz / 2
    if sz ≤ half then halveLoop sz fuel half else some allocsz

section
variable (junk : ℕ → ℕ → UInt8)

/-- `bytes_extend_buf`. -/
def bytesExtendBuf (h : ByteHeap) (b : Value) (newsz : ℕ) : Option (ByteHeap × Value) :=
  if newsz ≤ b.allocsz then some (h, b)
  else do
    let allocsz ← growLoop newsz 64 (if b.allocsz = 0 then 0x10 else b.allocsz)
    let (buf, h) ← h.realloc junk b.buf allocsz
    some (h, { b with buf := some buf, allocsz })

/-- `bytes_resize`. -/
def bytesResize (h : ByteHeap) (b : Value) (newsz : ℕ) : Option (ByteHeap × Value) := do
  let (h, b) ← bytesExtendBuf junk h b newsz
  some (h, { b with sz := newsz })

/-- `bytes_append`, with `bytes_preappend` and `bytes_postappend`. -/
def bytesAppend (h : ByteHeap) (b : Value) (add : Source) : Option (ByteHeap × Value) := do
  let origsz := b.sz
  let (h, b) ← bytesExtendBuf junk h b (origsz + add.length)
  let bs ← add.read h
  let h ← h.write b.buf origsz bs
  bytesResize junk h b (origsz + add.length)

/-- `bytes_cat`. -/
def bytesCat (h : ByteHeap) (b cat : Value) : Option (ByteHeap × Value) :=
  bytesAppend junk h b (.memory cat.buf cat.sz)

/-- `bytes_cpy` from a value. -/
def bytesCpy (h : ByteHeap) (src : Value) : Option (ByteHeap × Value) :=
  if src.sz = 0 then some (h, { buf := none, sz := src.sz, allocsz := 0 })
  else do
    let allocsz ← halveLoop src.sz 64 src.allocsz
    let (buf, h) ← h.realloc junk none allocsz
    let bs ← h.read src.buf 0 src.sz
    let h ← h.write (some buf) 0 bs
    some (h, { buf := some buf, sz := src.sz, allocsz })

/-- `bytes_assimilate_raw` of a block that has been allocated with the bytes. -/
def bytesAssimilateRaw (h : ByteHeap) (b : Value) (block : List UInt8) (buflen : ℕ) :
    Option (ByteHeap × Value) := do
  let (buf, h) := h.alloc block
  let h ← h.free b.buf
  some (h, { buf := some buf, allocsz := block.length, sz := buflen })

/-- `bytes_shift`. -/
def bytesShift (h : ByteHeap) (b : Value) (shift : ℕ) : Option (ByteHeap × Value) :=
  if b.sz ≤ shift then some (h, { b with sz := 0 })
  else do
    let sz := b.sz - shift
    let bs ← h.read b.buf shift sz
    let h ← h.write b.buf 0 bs
    some (h, { b with sz })

/-- `bytes_reset`. -/
def bytesReset (b : Value) : Value := { b with sz := 0 }

/-- `bytes_nullterminate`. -/
def bytesNullterminate (h : ByteHeap) (b : Value) : Option (ByteHeap × Value) := do
  let (h, b) ← bytesAppend junk h b (.bytes [0])
  some (h, { b with sz := b.sz - 1 })

/-- `bytes_free`. -/
def bytesFree (h : ByteHeap) (b : Value) : Option (ByteHeap × Value) := do
  let h ← h.free b.buf
  some (h, bytesInit)

/-- The memory and the values, by their names. -/
structure State where
  heap : ByteHeap
  val : ℕ → Value

/-- All values are initialised. -/
def init : State := ⟨ByteHeap.empty, fun _ => bytesInit⟩

/-- The operations, on the named values. -/
inductive Op
  | resize (i newsz : ℕ)
  | append (i : ℕ) (add : List UInt8)
  | cat (i j : ℕ)
  | cpy (i j : ℕ)
  | assimilate (i j : ℕ)
  | assimilateRaw (i : ℕ) (block : List UInt8) (buflen : ℕ)
  | shift (i n : ℕ)
  | reset (i : ℕ)
  | nullterminate (i : ℕ)
  | free (i : ℕ)

/-- The sizes are below `2 ^ 62`, a copy is made into a fresh value, and a block is as large as
what is in it. -/
def enabled (s : State) : Op → Bool
  | .resize _ newsz => newsz < 2 ^ 62
  | .append i add => (s.val i).sz + add.length < 2 ^ 62
  | .cat i j => (s.val i).sz + (s.val j).sz < 2 ^ 62
  | .cpy i _ => s.val i = bytesInit
  | .assimilateRaw _ block buflen => buflen ≤ block.length ∧ block.length < 2 ^ 64
  | .nullterminate i => (s.val i).sz + 1 < 2 ^ 62
  | _ => true

/-- One value is replaced. -/
def State.set (s : State) (i : ℕ) (hb : ByteHeap × Value) : State :=
  ⟨hb.1, Function.update s.val i hb.2⟩

/-- `bytes_assimilate`. -/
def bytesAssimilate (s : State) (dst src : ℕ) : State :=
  let buf := (s.val dst).buf
  let allocsz := (s.val dst).allocsz
  let val := Function.update s.val dst (s.val src)
  { s with val := Function.update val src { buf, sz := 0, allocsz } }

/-- An operation; none if it reads or writes outside of what is allocated, or does not end. -/
def run (s : State) : Op → Option State
  | .resize i newsz => (bytesResize junk s.heap (s.val i) newsz).map (s.set i)
  | .append i add => (bytesAppend junk s.heap (s.val i) (.bytes add)).map (s.set i)
  | .cat i j => (bytesCat junk s.heap (s.val i) (s.val j)).map (s.set i)
  | .cpy i j => (bytesCpy junk s.heap (s.val j)).map (s.set i)
  | .assimilate i j => some (bytesAssimilate s i j)
  | .assimilateRaw i block buflen =>
    (bytesAssimilateRaw s.heap (s.val i) block buflen).map (s.set i)
  | .shift i n => (bytesShift s.heap (s.val i) n).map (s.set i)
  | .reset i => some (s.set i (s.heap, bytesReset (s.val i)))
  | .nullterminate i => (bytesNullterminate junk s.heap (s.val i)).map (s.set i)
  | .free i => (bytesFree s.heap (s.val i)).map (s.set i)

/-- The step function; after a fault there is no step. -/
def step (s : Option State) (op : Op) : Option (Option State) :=
  s.bind fun s => if enabled s op then some (run junk s op) else none

end

/-! ## The loops -/

theorem exists_growLoop {newsz : ℕ} (fuel allocsz : ℕ) (hpos : 0 < allocsz)
    (hlt : allocsz < 2 ^ 62) (hnew : newsz < 2 ^ 62) (hfuel : newsz ≤ allocsz * 2 ^ (fuel + 1)) :
    ∃ a, growLoop newsz (fuel + 1) allocsz = some a ∧ newsz ≤ a ∧ a < 2 ^ 64 := by
  induction fuel generalizing allocsz with
  | zero =>
    rw [growLoop, Nat.mod_eq_of_lt (by omega)]
    exact ⟨allocsz * 2, if_neg (by omega), by omega, by omega⟩
  | succ fuel ih =>
    rw [growLoop, Nat.mod_eq_of_lt (by omega)]
    by_cases hmore : allocsz * 2 < newsz
    · obtain ⟨a, ha⟩ := ih (allocsz * 2) (by omega) (by omega) (by
        rw [Nat.mul_assoc, ← Nat.pow_succ']
        exact hfuel)
      exact ⟨a, (if_pos hmore).trans ha.1, ha.2⟩
    · exact ⟨allocsz * 2, if_neg hmore, by omega, by omega⟩

theorem exists_halveLoop {sz allocsz : ℕ} (fuel : ℕ) (hpos : 0 < sz) (hle : sz ≤ allocsz)
    (hfuel : allocsz < 2 ^ fuel) :
    ∃ a, halveLoop sz fuel allocsz = some a ∧ sz ≤ a ∧ a ≤ allocsz := by
  induction fuel generalizing allocsz with
  | zero => omega
  | succ fuel ih =>
    rw [halveLoop]
    by_cases hmore : sz ≤ allocsz / 2
    · obtain ⟨a, ha, hsz, hhalf⟩ := ih hmore (by rw [Nat.pow_succ] at hfuel; omega)
      exact ⟨a, (if_pos hmore).trans ha, hsz, hhalf.trans (Nat.div_le_self _ _)⟩
    · exact ⟨allocsz, if_neg hmore, hle, le_rfl⟩

/-! ## One value -/

/-- The memory of a value is allocated as recorded, and these are its bytes. -/
structure Holds (h : ByteHeap) (b : Value) (bytes : List UInt8) : Prop where
  view : h.view b.buf = some bytes
  length_eq : bytes.length = b.allocsz
  le : b.sz ≤ b.allocsz
  lt : b.allocsz < 2 ^ 64

/-- The bytes in use. -/
def content (h : ByteHeap) (b : Value) : List UInt8 := ((h.view b.buf).getD []).take b.sz

theorem Holds.content_eq {h : ByteHeap} {b : Value} {bytes : List UInt8} (H : Holds h b bytes) :
    content h b = bytes.take b.sz := by
  rw [content, H.view, Option.getD_some]

theorem Holds.length_content {h : ByteHeap} {b : Value} {bytes : List UInt8} (H : Holds h b bytes) :
    (content h b).length = b.sz := by
  rw [H.content_eq, List.length_take, H.length_eq, min_eq_left H.le]

/-- The bytes in use are read, also when other memory has changed. -/
theorem Holds.read {h h' : ByteHeap} {b : Value} {bytes : List UInt8} (H : Holds h b bytes)
    (hview : h'.view b.buf = some bytes) : h'.read b.buf 0 b.sz = some (content h b) := by
  have hfits : 0 + b.sz ≤ bytes.length := by
    rw [H.length_eq, Nat.zero_add]
    exact H.le
  rw [ByteHeap.read, hview, Option.bind_some, readAt, if_pos hfits, List.drop_zero, H.content_eq]

theorem holds_init (h : ByteHeap) : Holds h bytesInit [] := ⟨rfl, rfl, le_rfl, by decide⟩

/-- A value is as it was, with room for so many bytes. -/
structure Extended (h : ByteHeap) (b : Value) (bytes : List UInt8) (newsz : ℕ) (h' : ByteHeap)
    (b' : Value) (bytes' : List UInt8) : Prop where
  holds : Holds h' b' bytes'
  room : newsz ≤ b'.allocsz
  sz : b'.sz = b.sz
  take : bytes'.take b.sz = bytes.take b.sz
  moves : h.Moves h' b.buf b'.buf
  gone : b.allocsz < newsz → ∀ p, b.buf = some p → h'.block p = none

section
variable {junk : ℕ → ℕ → UInt8} {h : ByteHeap} {b : Value} {bytes : List UInt8}

theorem exists_bytesExtendBuf (junk : ℕ → ℕ → UInt8) (H : Holds h b bytes) {newsz : ℕ}
    (hnew : newsz < 2 ^ 62) :
    ∃ h' b' bytes', bytesExtendBuf junk h b newsz = some (h', b') ∧
      Extended h b bytes newsz h' b' bytes' := by
  by_cases hroom : newsz ≤ b.allocsz
  · exact ⟨h, b, bytes, if_pos hroom, H, hroom, rfl, rfl, ByteHeap.Moves.refl h b.buf,
      fun hlt => absurd hroom (by omega)⟩
  · have hstart : ∃ a, growLoop newsz 64 (if b.allocsz = 0 then 0x10 else b.allocsz) = some a ∧
        newsz ≤ a ∧ a < 2 ^ 64 := by
      split
      · exact exists_growLoop 63 _ (by decide) (by decide) hnew (by omega)
      · exact exists_growLoop 63 _ (by omega) (by omega) hnew (by omega)
    obtain ⟨a, hgrow, hle, hlt⟩ := hstart
    obtain ⟨p, h', bytes', hrealloc, hblock, hlen, hkept, hmoves, hgone⟩ :=
      ByteHeap.exists_realloc H.view junk a
    have hsz : b.sz ≤ a := H.le.trans (by omega)
    refine ⟨h', { b with buf := some p, allocsz := a }, bytes', ?_, ⟨hblock, hlen, hsz, hlt⟩, hle,
      rfl, ?_, hmoves, fun _ => hgone⟩
    · rw [bytesExtendBuf, if_neg hroom, hgrow]
      simp [hrealloc]
    · refine List.ext_getElem? fun i => ?_
      rw [List.getElem?_take, List.getElem?_take]
      split
      · next hi => exact hkept i (by omega) (by rw [H.length_eq]; exact hi.trans_le H.le)
      · rfl

/-- What becomes of a value: it holds the byte string, and no other memory has changed. -/
structure Becomes (h : ByteHeap) (b : Value) (h' : ByteHeap) (b' : Value) (l : List UInt8) :
    Prop where
  holds : ∃ bytes', Holds h' b' bytes'
  moves : h.Moves h' b.buf b'.buf
  content_eq : content h' b' = l

theorem exists_bytesResize (junk : ℕ → ℕ → UInt8) (H : Holds h b bytes) {newsz : ℕ}
    (hnew : newsz < 2 ^ 62) :
    ∃ h' b' l, bytesResize junk h b newsz = some (h', b') ∧ Becomes h b h' b' l ∧
      l.length = newsz ∧ (l <+: content h b ∨ content h b <+: l) := by
  obtain ⟨h', b', bytes', hextend, he⟩ := exists_bytesExtendBuf junk H hnew
  have hholds : Holds h' { b' with sz := newsz } bytes' :=
    ⟨he.holds.view, he.holds.length_eq, he.room, he.holds.lt⟩
  refine ⟨h', { b' with sz := newsz }, bytes'.take newsz, ?_,
    ⟨⟨bytes', hholds⟩, he.moves, hholds.content_eq⟩, ?_, ?_⟩
  · rw [bytesResize, hextend]
    rfl
  · rw [List.length_take, he.holds.length_eq, min_eq_left he.room]
  · rw [H.content_eq, ← he.take]
    exact (le_total newsz b.sz).imp List.take_prefix_take_left List.take_prefix_take_left

/-- A write right behind the bytes in use. -/
theorem take_writeAt (buf bs : List UInt8) {off : ℕ} (H : off ≤ buf.length) :
    (writeAt buf off bs).take (off + bs.length) = buf.take off ++ bs := by
  have hlen : (buf.take off ++ bs).length = off + bs.length := by
    rw [List.length_append, List.length_take, min_eq_left H]
  rw [writeAt, List.take_left' hlen]

theorem exists_bytesAppend (junk : ℕ → ℕ → UInt8) (H : Holds h b bytes) (add : Source)
    {bs : List UInt8} (hsize : b.sz + add.length < 2 ^ 62) (hlen : bs.length = add.length)
    (hread : ∀ h' b', bytesExtendBuf junk h b (b.sz + add.length) = some (h', b') →
      h.Moves h' b.buf b'.buf → add.read h' = some bs) :
    ∃ h' b', bytesAppend junk h b add = some (h', b') ∧ Becomes h b h' b' (content h b ++ bs) ∧
      b'.sz = b.sz + add.length := by
  obtain ⟨h₁, b₁, bytes₁, hextend, he⟩ := exists_bytesExtendBuf junk H hsize
  have hfits : b.sz + bs.length ≤ bytes₁.length := by
    rw [he.holds.length_eq, hlen]
    exact he.room
  obtain ⟨h₂, hwrite, hview, hmoves⟩ := ByteHeap.exists_write he.holds.view hfits
  have hholds : Holds h₂ { b₁ with sz := b.sz + add.length } (writeAt bytes₁ b.sz bs) :=
    ⟨hview, (length_writeAt hfits).trans he.holds.length_eq, he.room, he.holds.lt⟩
  refine ⟨h₂, { b₁ with sz := b.sz + add.length }, ?_,
    ⟨⟨_, hholds⟩, he.moves.trans hmoves, ?_⟩, rfl⟩
  · have hroom : bytesExtendBuf junk h₂ b₁ (b.sz + add.length) = some (h₂, b₁) := if_pos he.room
    rw [bytesAppend]
    simp only [Option.bind_eq_bind, hextend, Option.bind_some, hread h₁ b₁ hextend he.moves, hwrite,
      bytesResize, hroom]
  · rw [hholds.content_eq, H.content_eq, ← he.take, ← hlen]
    exact take_writeAt _ _ (by omega)

theorem exists_bytesCpy (junk : ℕ → ℕ → UInt8) {src : Value} (H : Holds h src bytes) :
    ∃ h' b', bytesCpy junk h src = some (h', b') ∧ Becomes h bytesInit h' b' (content h src) := by
  have hlen := H.length_content
  by_cases hzero : src.sz = 0
  · refine ⟨h, { buf := none, sz := src.sz, allocsz := 0 }, if_pos hzero, ⟨⟨[], rfl, rfl,
      hzero.le, Nat.two_pow_pos 64⟩, ByteHeap.Moves.refl h none, ?_⟩⟩
    rw [List.eq_nil_of_length_eq_zero (hlen.trans hzero), content, hzero, List.take_zero]
  · obtain ⟨a, hhalve, hle, hlt⟩ :=
      exists_halveLoop 64 (Nat.pos_of_ne_zero hzero) H.le H.lt
    obtain ⟨p, h₁, bytes₁, hrealloc, hblock, hlen₁, -, hmoves₁, -⟩ :=
      ByteHeap.exists_realloc (show h.view none = some [] from rfl) junk a
    have hread := H.read (hmoves₁.view H.view (or_iff_not_imp_left.mpr id))
    have hroom : 0 + (content h src).length ≤ bytes₁.length := by omega
    have hview₁ : h₁.view (some p) = some bytes₁ := hblock
    obtain ⟨h₂, hwrite, hview, hmoves₂⟩ := ByteHeap.exists_write hview₁ hroom
    have hholds : Holds h₂ { buf := some p, sz := src.sz, allocsz := a }
        (writeAt bytes₁ 0 (content h src)) :=
      ⟨hview, (length_writeAt hroom).trans hlen₁, hle, hlt.trans_lt H.lt⟩
    refine ⟨h₂, _, ?_, ⟨⟨_, hholds⟩, hmoves₁.trans hmoves₂, ?_⟩⟩
    · rw [bytesCpy, if_neg hzero]
      simp only [Option.bind_eq_bind, hhalve, Option.bind_some, hrealloc, hread, hwrite]
    · have htake := take_writeAt bytes₁ (content h src) (Nat.zero_le _)
      rw [hlen, Nat.zero_add] at htake
      rw [hholds.content_eq, htake, List.take_zero, List.nil_append]

theorem exists_bytesAssimilateRaw (H : Holds h b bytes) {block : List UInt8} {buflen : ℕ}
    (hle : buflen ≤ block.length) (hlt : block.length < 2 ^ 64) :
    ∃ h' b', bytesAssimilateRaw h b block buflen = some (h', b') ∧
      Becomes h b h' b' (block.take buflen) := by
  obtain ⟨hmoves₁, hblock⟩ := h.alloc_moves block
  have hview : (h.alloc block).2.view b.buf = some bytes :=
    hmoves₁.view H.view (or_iff_not_imp_left.mpr id)
  obtain ⟨h₂, hfree, hmoves₂, -, -⟩ := ByteHeap.exists_free hview
  have hfresh := hmoves₁.fresh (h.alloc block).1 rfl (Option.some_ne_none _)
  have hne : some (h.alloc block).1 ≠ b.buf := by
    intro hsame
    have hnone : h.view b.buf = none := hsame ▸ hfresh
    rw [H.view] at hnone
    cases hnone
  have hholds : Holds h₂ { buf := some (h.alloc block).1, allocsz := block.length, sz := buflen }
      block := ⟨hmoves₂.frame _ _ hblock hne, rfl, hle, hlt⟩
  refine ⟨h₂, _, ?_, ⟨⟨block, hholds⟩, ⟨fun q bytes' hq hne => ?_, fun q hq _ => ?_⟩,
    hholds.content_eq⟩⟩
  · rw [bytesAssimilateRaw]
    simp only [Option.bind_eq_bind, hfree, Option.bind_some]
  · exact hmoves₂.frame q bytes' (hmoves₁.frame q bytes' hq (Option.some_ne_none q)) hne
  · exact Option.some.inj hq ▸ hfresh

theorem exists_bytesShift (H : Holds h b bytes) (shift : ℕ) :
    ∃ h' b', bytesShift h b shift = some (h', b') ∧
      Becomes h b h' b' ((content h b).drop shift) := by
  by_cases hall : b.sz ≤ shift
  · refine ⟨h, { b with sz := 0 }, if_pos hall, ⟨⟨bytes, H.view, H.length_eq, Nat.zero_le _, H.lt⟩,
      ByteHeap.Moves.refl h _, ?_⟩⟩
    rw [content, List.take_zero, List.drop_eq_nil_of_le (H.length_content.le.trans hall)]
  · have hfits : shift + (b.sz - shift) ≤ bytes.length := by
      rw [H.length_eq]
      have := H.le
      omega
    have hbs : ((bytes.drop shift).take (b.sz - shift)).length = b.sz - shift := by
      rw [List.length_take, List.length_drop, min_eq_left (by omega)]
    have hroom : 0 + ((bytes.drop shift).take (b.sz - shift)).length ≤ bytes.length := by omega
    obtain ⟨h₁, hwrite, hview, hmoves⟩ := ByteHeap.exists_write H.view hroom
    have hle := H.le
    have hholds : Holds h₁ { b with sz := b.sz - shift }
        (writeAt bytes 0 ((bytes.drop shift).take (b.sz - shift))) :=
      ⟨hview, (length_writeAt hroom).trans H.length_eq, (Nat.sub_le _ _).trans hle, H.lt⟩
    refine ⟨h₁, { b with sz := b.sz - shift }, ?_, ⟨⟨_, hholds⟩, hmoves, ?_⟩⟩
    · have hread : h.read b.buf shift (b.sz - shift) =
          some ((bytes.drop shift).take (b.sz - shift)) := by
        rw [ByteHeap.read, H.view, Option.bind_some, readAt, if_pos hfits]
      rw [bytesShift, if_neg hall]
      simp only [Option.bind_eq_bind, hread, Option.bind_some, hwrite]
    · have htake := take_writeAt bytes ((bytes.drop shift).take (b.sz - shift))
        (Nat.zero_le _)
      rw [hbs, Nat.zero_add] at htake
      rw [hholds.content_eq, H.content_eq, htake, List.take_zero, List.nil_append, List.drop_take]

theorem exists_bytesNullterminate (junk : ℕ → ℕ → UInt8) (H : Holds h b bytes)
    (hsize : b.sz + 1 < 2 ^ 62) :
    ∃ h' b', bytesNullterminate junk h b = some (h', b') ∧ Becomes h b h' b' (content h b) ∧
      h'.read b'.buf b'.sz 1 = some [0] := by
  obtain ⟨h', b', happend, hbecomes, hsz⟩ := exists_bytesAppend junk H (.bytes [0])
    hsize rfl (fun _ _ _ _ => rfl)
  have hsz' : b'.sz = b.sz + 1 := hsz
  obtain ⟨bytes', hholds⟩ := hbecomes.holds
  have hall := hbecomes.content_eq
  rw [hholds.content_eq, hsz'] at hall
  have hle := hholds.le
  have hlen := H.length_content
  have hless : Holds h' { b' with sz := b'.sz - 1 } bytes' :=
    ⟨hholds.view, hholds.length_eq, (Nat.sub_le _ _).trans hle, hholds.lt⟩
  have hfits : b.sz + 1 ≤ bytes'.length := by
    rw [hholds.length_eq]
    omega
  refine ⟨h', { b' with sz := b'.sz - 1 }, ?_, ⟨⟨bytes', hless⟩, hbecomes.moves, ?_⟩, ?_⟩
  · rw [bytesNullterminate, happend]
    rfl
  · have htake := congrArg (List.take b.sz) hall
    rw [List.take_take, min_eq_left (Nat.le_succ _), List.take_left' hlen] at htake
    rw [hless.content_eq, hsz', Nat.add_sub_cancel]
    exact htake
  · have hdrop := congrArg (List.drop b.sz) hall
    rw [List.drop_take, Nat.add_sub_cancel_left, List.drop_left' hlen] at hdrop
    rw [hsz', Nat.add_sub_cancel, ByteHeap.read, hholds.view, Option.bind_some, readAt,
      if_pos hfits, hdrop]

theorem exists_bytesFree (H : Holds h b bytes) :
    ∃ h', bytesFree h b = some (h', bytesInit) ∧ Becomes h b h' bytesInit [] := by
  obtain ⟨h', hfree, hmoves, -, -⟩ := ByteHeap.exists_free H.view
  refine ⟨h', ?_, ⟨⟨[], holds_init h'⟩, hmoves, rfl⟩⟩
  rw [bytesFree, hfree]
  rfl

end

/-! ## All values -/

/-- The bytes in use of each value. -/
def State.content (s : State) (i : ℕ) : List UInt8 := BytesT.content s.heap (s.val i)

@[simp] theorem State.set_heap (s : State) (i : ℕ) (hb : ByteHeap × Value) :
    (s.set i hb).heap = hb.1 := rfl

@[simp] theorem State.set_val_self (s : State) (i : ℕ) (hb : ByteHeap × Value) :
    (s.set i hb).val i = hb.2 := Function.update_self ..

theorem State.set_val_of_ne (s : State) {i j : ℕ} (hne : j ≠ i) (hb : ByteHeap × Value) :
    (s.set i hb).val j = s.val j := Function.update_of_ne hne ..

/-- Each value has memory of its own. -/
structure Good (s : State) : Prop where
  holds : ∀ i, ∃ bytes, Holds s.heap (s.val i) bytes
  apart : ∀ i j p, (s.val i).buf = some p → (s.val j).buf = some p → i = j

theorem good_init : Good init := ⟨fun _ => ⟨[], holds_init _⟩, fun _ _ _ hp => nomatch hp⟩

/-- What the operations do to byte strings. -/
def Abstract (f : ℕ → List UInt8) (op : Op) (f' : ℕ → List UInt8) : Prop :=
  match op with
  | .resize i newsz => ∃ l, l.length = newsz ∧ (l <+: f i ∨ f i <+: l) ∧ f' = Function.update f i l
  | .append i add => f' = Function.update f i (f i ++ add)
  | .cat i j => f' = Function.update f i (f i ++ f j)
  | .cpy i j => f' = Function.update f i (f j)
  | .assimilate i j => f' = Function.update (Function.update f i (f j)) j []
  | .assimilateRaw i block buflen => f' = Function.update f i (block.take buflen)
  | .shift i n => f' = Function.update f i ((f i).drop n)
  | .reset i => f' = Function.update f i []
  | .nullterminate _ => f' = f
  | .free i => f' = Function.update f i []

/-- After the operation what is in use is not more than what is allocated, which is as much as is
recorded, and the byte strings are those after the operation on them. -/
structure After (t : State) (op : Op) (t' : State) : Prop where
  le : ∀ i, (t'.val i).sz ≤ (t'.val i).allocsz
  allocated : ∀ i, (t'.heap.view (t'.val i).buf).map List.length = some (t'.val i).allocsz
  abstract : Abstract t.content op t'.content

/-- The operation ends without a fault, as it is to. -/
def Lawful (s : Option State) (op : Op) (s' : Option State) : Prop :=
  ∃ t t', s = some t ∧ s' = some t' ∧ After t op t'

/-- A value is not appended to itself unless there is room. -/
def Roomy (s : Option State) (op : Op) (_ : Option State) : Prop :=
  ∀ t i, s = some t → op = .cat i i → 2 * (t.val i).sz ≤ (t.val i).allocsz

section
variable {s : State}

/-- One value changes, and its memory. -/
theorem Good.set (H : Good s) {i : ℕ} {h' : ByteHeap} {b' : Value} {l : List UInt8}
    (hb : Becomes s.heap (s.val i) h' b' l) :
    Good (s.set i (h', b')) ∧ (s.set i (h', b')).content = Function.update s.content i l := by
  have hother : ∀ j, j ≠ i → ∃ bytes, Holds s.heap (s.val j) bytes ∧ Holds h' (s.val j) bytes := by
    intro j hne
    obtain ⟨bytes, hj⟩ := H.holds j
    refine ⟨bytes, hj, hb.moves.view hj.view ?_, hj.length_eq, hj.le, hj.lt⟩
    rw [or_iff_not_imp_left]
    intro hsome hsame
    obtain ⟨p, hp⟩ := Option.ne_none_iff_exists'.mp hsome
    exact hne (H.apart j i p hp (hsame ▸ hp))
  have hfresh : ∀ j p, j ≠ i → (s.val j).buf = some p → b'.buf ≠ some p := by
    intro j p hne hp hnew
    by_cases hsame : b'.buf = (s.val i).buf
    · exact hne (H.apart j i p hp (hsame ▸ hnew))
    · obtain ⟨bytes, hj, -⟩ := hother j hne
      have hview := hj.view
      rw [hp, ByteHeap.view, hb.moves.fresh p hnew hsame] at hview
      cases hview
  refine ⟨⟨fun j => ?_, fun j k p hj hk => ?_⟩, ?_⟩
  · rcases eq_or_ne j i with rfl | hne
    · rw [State.set_val_self]
      exact hb.holds
    · obtain ⟨bytes, -, hj⟩ := hother j hne
      rw [State.set_val_of_ne s hne]
      exact ⟨bytes, hj⟩
  · rcases eq_or_ne j i with rfl | hji
    · rcases eq_or_ne k j with rfl | hkj
      · rfl
      · rw [State.set_val_self] at hj
        rw [State.set_val_of_ne s hkj] at hk
        exact absurd hj (hfresh k p hkj hk)
    · rw [State.set_val_of_ne s hji] at hj
      rcases eq_or_ne k i with rfl | hki
      · rw [State.set_val_self] at hk
        exact absurd hk (hfresh j p hji hj)
      · rw [State.set_val_of_ne s hki] at hk
        exact H.apart j k p hj hk
  · funext j
    rcases eq_or_ne j i with rfl | hne
    · rw [State.content, State.set_val_self, Function.update_self]
      exact hb.content_eq
    · obtain ⟨bytes, hj, hj'⟩ := hother j hne
      rw [Function.update_of_ne hne, State.content, State.set_val_of_ne s hne, State.set_heap,
        hj'.content_eq, State.content, hj.content_eq]

/-- Two values change places, and one of them is emptied. -/
theorem Good.assimilate (H : Good s) (i j : ℕ) : Good (bytesAssimilate s i j) ∧
    (bytesAssimilate s i j).content = Function.update (Function.update s.content i (s.content j)) j
      [] := by
  have hj : (bytesAssimilate s i j).val j = { s.val i with sz := 0 } := Function.update_self ..
  have hi : i ≠ j → (bytesAssimilate s i j).val i = s.val j := fun hne =>
    (Function.update_of_ne hne ..).trans (Function.update_self ..)
  have hother : ∀ k, k ≠ i → k ≠ j → (bytesAssimilate s i j).val k = s.val k := fun k hki hkj =>
    (Function.update_of_ne hkj ..).trans (Function.update_of_ne hki ..)
  have hbuf : ∀ k, ((bytesAssimilate s i j).val k).buf = (s.val (Equiv.swap i j k)).buf := by
    intro k
    rcases eq_or_ne k j with rfl | hkj
    · rw [hj, Equiv.swap_apply_right]
    · rcases eq_or_ne k i with rfl | hki
      · rw [hi hkj, Equiv.swap_apply_left]
      · rw [hother k hki hkj, Equiv.swap_apply_of_ne_of_ne hki hkj]
  refine ⟨⟨fun k => ?_, fun k l p hk hl => ?_⟩, ?_⟩
  · rcases eq_or_ne k j with rfl | hkj
    · obtain ⟨bytes, hholds⟩ := H.holds i
      rw [hj]
      exact ⟨bytes, hholds.view, hholds.length_eq, Nat.zero_le _, hholds.lt⟩
    · rcases eq_or_ne k i with rfl | hki
      · rw [hi hkj]
        exact H.holds j
      · rw [hother k hki hkj]
        exact H.holds k
  · rw [hbuf] at hk hl
    exact (Equiv.swap i j).injective (H.apart _ _ p hk hl)
  · funext k
    rcases eq_or_ne k j with rfl | hkj
    · rw [Function.update_self, State.content, hj, content, List.take_zero]
    · rw [Function.update_of_ne hkj]
      rcases eq_or_ne k i with rfl | hki
      · rw [Function.update_self, State.content, hi hkj]
        rfl
      · rw [Function.update_of_ne hki, State.content, hother k hki hkj]
        rfl

theorem Good.after {op : Op} {t' : State} (H : Good t') (habs : Abstract s.content op t'.content) :
    After s op t' where
  le i := by
    obtain ⟨bytes, hi⟩ := H.holds i
    exact hi.le
  allocated i := by
    obtain ⟨bytes, hi⟩ := H.holds i
    rw [hi.view, Option.map_some, hi.length_eq]
  abstract := habs

/-- An operation that is enabled and has room does what it is to. -/
theorem Good.exists_run (junk : ℕ → ℕ → UInt8) (H : Good s) {op : Op} (hen : enabled s op = true)
    (hroom : ∀ i, op = .cat i i → 2 * (s.val i).sz ≤ (s.val i).allocsz) :
    ∃ t', run junk s op = some t' ∧ Good t' ∧ Abstract s.content op t'.content := by
  cases op with
  | resize i newsz =>
    obtain ⟨bytes, hi⟩ := H.holds i
    obtain ⟨h', b', l, hrun, hb, hlen, hprefix⟩ :=
      exists_bytesResize junk hi (of_decide_eq_true hen)
    obtain ⟨hgood, hcontent⟩ := H.set hb
    exact ⟨_, congrArg (Option.map (s.set i)) hrun, hgood, l, hlen, hprefix, hcontent⟩
  | append i add =>
    obtain ⟨bytes, hi⟩ := H.holds i
    obtain ⟨h', b', hrun, hb, -⟩ := exists_bytesAppend junk hi (.bytes add)
      (of_decide_eq_true hen) rfl (fun _ _ _ _ => rfl)
    obtain ⟨hgood, hcontent⟩ := H.set hb
    exact ⟨_, congrArg (Option.map (s.set i)) hrun, hgood, hcontent⟩
  | cat i j =>
    obtain ⟨bytes, hi⟩ := H.holds i
    obtain ⟨bytes', hj⟩ := H.holds j
    have hread : ∀ h' b', bytesExtendBuf junk s.heap (s.val i) ((s.val i).sz + (s.val j).sz) =
        some (h', b') → s.heap.Moves h' (s.val i).buf b'.buf →
        (Source.memory (s.val j).buf (s.val j).sz).read h' = some (s.content j) := by
      intro h' b' hextend hmoves
      rcases eq_or_ne i j with rfl | hne
      · -- there is room, so that nothing moves
        have hroom' := hroom i rfl
        rw [bytesExtendBuf, if_pos (by omega)] at hextend
        obtain ⟨rfl, -⟩ := Prod.ext_iff.mp (Option.some.inj hextend)
        exact hj.read hj.view
      · refine hj.read (hmoves.view hj.view (or_iff_not_imp_left.mpr fun hsome hsame => ?_))
        obtain ⟨p, hp⟩ := Option.ne_none_iff_exists'.mp hsome
        exact hne (H.apart i j p (hsame ▸ hp) hp)
    obtain ⟨h', b', hrun, hb, -⟩ := exists_bytesAppend junk hi
      (.memory (s.val j).buf (s.val j).sz) (of_decide_eq_true hen) hj.length_content hread
    obtain ⟨hgood, hcontent⟩ := H.set hb
    exact ⟨_, congrArg (Option.map (s.set i)) hrun, hgood, hcontent⟩
  | cpy i j =>
    obtain ⟨bytes, hj⟩ := H.holds j
    obtain ⟨h', b', hrun, hb⟩ := exists_bytesCpy junk hj
    have hfresh : s.val i = bytesInit := of_decide_eq_true hen
    rw [← hfresh] at hb
    obtain ⟨hgood, hcontent⟩ := H.set hb
    exact ⟨_, congrArg (Option.map (s.set i)) hrun, hgood, hcontent⟩
  | assimilate i j =>
    obtain ⟨hgood, hcontent⟩ := H.assimilate i j
    exact ⟨_, rfl, hgood, hcontent⟩
  | assimilateRaw i block buflen =>
    obtain ⟨bytes, hi⟩ := H.holds i
    obtain ⟨hle, hlt⟩ := of_decide_eq_true hen
    obtain ⟨h', b', hrun, hb⟩ := exists_bytesAssimilateRaw hi hle hlt
    obtain ⟨hgood, hcontent⟩ := H.set hb
    exact ⟨_, congrArg (Option.map (s.set i)) hrun, hgood, hcontent⟩
  | shift i n =>
    obtain ⟨bytes, hi⟩ := H.holds i
    obtain ⟨h', b', hrun, hb⟩ := exists_bytesShift hi n
    obtain ⟨hgood, hcontent⟩ := H.set hb
    exact ⟨_, congrArg (Option.map (s.set i)) hrun, hgood, hcontent⟩
  | reset i =>
    obtain ⟨bytes, hi⟩ := H.holds i
    have hb : Becomes s.heap (s.val i) s.heap (bytesReset (s.val i)) [] :=
      ⟨⟨bytes, hi.view, hi.length_eq, Nat.zero_le _, hi.lt⟩, ByteHeap.Moves.refl _ _,
        List.take_zero⟩
    obtain ⟨hgood, hcontent⟩ := H.set hb
    exact ⟨_, rfl, hgood, hcontent⟩
  | nullterminate i =>
    obtain ⟨bytes, hi⟩ := H.holds i
    obtain ⟨h', b', hrun, hb, -⟩ := exists_bytesNullterminate junk hi (of_decide_eq_true hen)
    obtain ⟨hgood, hcontent⟩ := H.set hb
    exact ⟨_, congrArg (Option.map (s.set i)) hrun, hgood,
      hcontent.trans (Function.update_eq_self i s.content)⟩
  | free i =>
    obtain ⟨bytes, hi⟩ := H.holds i
    obtain ⟨h', hrun, hb⟩ := exists_bytesFree hi
    obtain ⟨hgood, hcontent⟩ := H.set hb
    exact ⟨_, congrArg (Option.map (s.set i)) hrun, hgood, hcontent⟩

/-- A value that has to be grown for what it has itself is read where it no longer is. -/
theorem Good.run_cat_self (junk : ℕ → ℕ → UInt8) (H : Good s) {i : ℕ}
    (hen : enabled s (.cat i i) = true) (hgrow : (s.val i).allocsz < 2 * (s.val i).sz) :
    run junk s (.cat i i) = none := by
  obtain ⟨bytes, hi⟩ := H.holds i
  have hsize : (s.val i).sz + (s.val i).sz < 2 ^ 62 := of_decide_eq_true hen
  obtain ⟨h', b', bytes', hextend, he⟩ := exists_bytesExtendBuf junk hi hsize
  have hgone : h'.read (s.val i).buf 0 (s.val i).sz = none := by
    cases hbuf : (s.val i).buf with
    | none =>
      have hview := hi.view
      rw [hbuf] at hview
      obtain rfl := Option.some.inj hview
      have hlen : 0 = (s.val i).allocsz := hi.length_eq
      have hle := hi.le
      omega
    | some p =>
      rw [ByteHeap.read, ByteHeap.view, he.gone (by omega) p hbuf]
      rfl
  have hcat : bytesCat junk s.heap (s.val i) (s.val i) = none := by
    rw [bytesCat, bytesAppend]
    simp only [Option.bind_eq_bind, Source.length, hextend, Option.bind_some, Source.read, hgone,
      Option.bind_none]
  exact congrArg (Option.map (s.set i)) hcat

/-- **The operations do what they are to** in the runs in which no value is appended to itself
without room for it, and in no others. -/
theorem allSteps_appended_iff (junk : ℕ → ℕ → UInt8) (ops : List Op) :
    Run.AllSteps (step junk) Lawful (some init) ops ↔
      Run.AllSteps (step junk) Roomy (some init) ops := by
  have hrun : ∀ t op s', Good t → step junk (some t) op = some s' →
      enabled t op = true ∧ s' = run junk t op := by
    intro t op s' _ hstep
    rw [step, Option.bind_some] at hstep
    split at hstep
    · next hen => exact ⟨hen, (Option.some.inj hstep).symm⟩
    · cases hstep
  have hspec : ∀ t op s', Good t → step junk (some t) op = some s' → Roomy (some t) op s' →
      ∃ t', s' = some t' ∧ Good t' ∧ Abstract t.content op t'.content := by
    intro t op s' hgood hstep hroomy
    obtain ⟨hen, rfl⟩ := hrun t op s' hgood hstep
    exact hgood.exists_run junk hen fun i hop => hroomy t i rfl hop
  have hiff : ∀ s op s', (∀ t, s = some t → Good t) → step junk s op = some s' →
      (Lawful s op s' ↔ Roomy s op s') := by
    intro s op s' hgood hstep
    constructor
    · rintro ⟨t, t', rfl, rfl, -⟩ u i hu rfl
      obtain rfl := Option.some.inj hu
      obtain ⟨hen, hsome⟩ := hrun t _ _ (hgood t rfl) hstep
      by_contra hgrow
      rw [(hgood t rfl).run_cat_self junk hen (not_le.mp hgrow)] at hsome
      cases hsome
    · intro hroomy
      cases s with
      | none => cases hstep
      | some t =>
        obtain ⟨t', rfl, hgood', habs⟩ := hspec t op s' (hgood t rfl) hstep hroomy
        exact ⟨t, t', rfl, rfl, hgood'.after habs⟩
  have hkeep : ∀ s op s', (∀ t, s = some t → Good t) → step junk s op = some s' →
      Lawful s op s' → ∀ t, s' = some t → Good t := by
    intro s op s' hgood hstep hlawful u hu
    cases s with
    | none => cases hstep
    | some t =>
      obtain ⟨t', rfl, hgood', -⟩ := hspec t op s' (hgood t rfl) hstep
        ((hiff _ op s' hgood hstep).mp hlawful)
      exact Option.some.inj hu ▸ hgood'
  exact Run.allSteps_congr hiff hkeep ops fun t ht => Option.some.inj ht ▸ good_init

/-- A value of 32 bytes, in memory of as many, is appended to itself. -/
theorem not_lawful_cat_self : ¬ Run.AllSteps (step fun _ _ => 0) Lawful (some init)
    [.resize 0 32, .cat 0 0] := by
  intro h
  have hfirst : ∃ t, run (fun _ _ => 0) init (.resize 0 32) = some t ∧
      run (fun _ _ => 0) t (.cat 0 0) = none ∧ enabled t (.cat 0 0) = true :=
    ⟨_, rfl, by rfl, by rfl⟩
  obtain ⟨t, hresize, hcat, hen⟩ := hfirst
  have hstep : step (fun _ _ => 0) (some init) (.resize 0 32) = some (some t) :=
    congrArg some hresize
  have hstep' : step (fun _ _ => 0) (some t) (.cat 0 0) = some none := by
    rw [step, Option.bind_some, if_pos hen, hcat]
  obtain ⟨_, t', -, hnone, -⟩ := ((h _ hstep).2 _ hstep').1
  cases hnone

end

end BytesT
end MassGridMiner

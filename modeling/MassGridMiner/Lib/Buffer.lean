import MassGridMiner.Lib.Word

/-!
# Writing into buffers

A buffer is filled piece by piece.  After the first pieces it is these, followed by what
is left of the old contents, and `writeAt_append` says what the next write makes of that.

## Main definitions

* `writeAt buf off bs` — the bytes `bs` copied into a list from an offset on.
* `memcpy`, `memcpyAll` — the same as far as the list has room for it, once and several times.
* `readAt buf off n` — the `n` bytes from an offset on.
* `Bytes.toList_overwrite` — the same for a vector.
* `ofBe32` — the number four bytes spell, most significant first.
-/

/-- The list with `bs` copied into it from index `off` on. -/
def writeAt (buf : List UInt8) (off : ℕ) (bs : List UInt8) : List UInt8 :=
  buf.take off ++ bs ++ buf.drop (off + bs.length)

/-- A write some way into what is left behind the pieces written before. -/
theorem writeAt_append_add (done left : List UInt8) (gap : ℕ) (bs : List UInt8) :
    writeAt (done ++ left) (done.length + gap) bs =
      done ++ left.take gap ++ bs ++ left.drop (gap + bs.length) := by
  simp [writeAt, List.take_append, List.drop_append, Nat.add_assoc, List.take_of_length_le]

/-- A write right behind the pieces written before. -/
theorem writeAt_append (done left bs : List UInt8) :
    writeAt (done ++ left) done.length bs = done ++ bs ++ left.drop bs.length := by
  simpa using writeAt_append_add done left 0 bs

theorem length_writeAt {buf bs : List UInt8} {off : ℕ} (H : off + bs.length ≤ buf.length) :
    (writeAt buf off bs).length = buf.length := by
  simp only [writeAt, List.length_append, List.length_take, List.length_drop]
  omega

theorem writeAt_zero (buf bs : List UInt8) : writeAt buf 0 bs = bs ++ buf.drop bs.length := by
  simp [writeAt]

/-- A write of bytes into a piece of memory, or none where it would leave it. -/
def memcpy (buf : List UInt8) (off : ℕ) (bs : List UInt8) : Option (List UInt8) :=
  if off + bs.length ≤ buf.length then some (writeAt buf off bs) else none

theorem memcpy_eq_some {buf bs out : List UInt8} {off : ℕ} :
    memcpy buf off bs = some out ↔ off + bs.length ≤ buf.length ∧ out = writeAt buf off bs := by
  rw [memcpy]
  split
  · next hroom => simp [hroom, eq_comm]
  · next hroom => simp [hroom]

theorem exists_memcpy {buf bs : List UInt8} {off : ℕ} (H : off + bs.length ≤ buf.length) :
    ∃ out, memcpy buf off bs = some out := ⟨_, if_pos H⟩

theorem length_memcpy {buf bs out : List UInt8} {off : ℕ} (H : memcpy buf off bs = some out) :
    out.length = buf.length := by
  obtain ⟨hroom, rfl⟩ := memcpy_eq_some.mp H
  exact length_writeAt hroom

/-- A write at the place of another of its size. -/
theorem memcpy_memcpy {buf bs bs' out : List UInt8} {off : ℕ} (H : memcpy buf off bs = some out)
    (hlen : bs'.length = bs.length) : memcpy out off bs' = memcpy buf off bs' := by
  obtain ⟨hroom, rfl⟩ := memcpy_eq_some.mp H
  have hfront : (buf.take off).length = off := List.length_take_of_le (by omega)
  have hagain : writeAt (writeAt buf off bs) off bs' = writeAt buf off bs' := by
    have hparts := writeAt_append (buf.take off) (bs ++ buf.drop (off + bs.length)) bs'
    rw [hfront, List.drop_append_of_le_length hlen.le, List.drop_of_length_le hlen.ge,
      List.nil_append, ← List.append_assoc] at hparts
    rw [show writeAt buf off bs = buf.take off ++ bs ++ buf.drop (off + bs.length) from rfl, hparts,
      writeAt, hlen]
  rw [memcpy, memcpy, length_writeAt hroom, hlen, if_pos hroom, if_pos hroom, hagain]

/-- The `n` bytes from an offset on, or none where they would leave the memory. -/
def readAt (buf : List UInt8) (off n : ℕ) : Option (List UInt8) :=
  if off + n ≤ buf.length then some ((buf.drop off).take n) else none

theorem readAt_eq_none {buf : List UInt8} {off n : ℕ} (H : buf.length < off + n) :
    readAt buf off n = none := if_neg (by omega)

theorem exists_readAt {buf : List UInt8} {off n : ℕ} (H : off + n ≤ buf.length) :
    ∃ bs, readAt buf off n = some bs := ⟨_, if_pos H⟩

/-- What was written is read back. -/
theorem readAt_memcpy {buf bs out : List UInt8} {off : ℕ} (H : memcpy buf off bs = some out) :
    readAt out off bs.length = some bs := by
  have hlen := length_memcpy H
  obtain ⟨hroom, rfl⟩ := memcpy_eq_some.mp H
  have hfront : (buf.take off).length = off := List.length_take_of_le (by omega)
  rw [readAt, if_pos (hlen ▸ hroom), writeAt, List.append_assoc, List.drop_append_of_le_length
    hfront.ge, List.drop_of_length_le hfront.le, List.nil_append, List.take_left]

/-- A write changes nothing in front of it or behind it. -/
theorem readAt_memcpy_of_disjoint {buf bs out : List UInt8} {off : ℕ}
    (H : memcpy buf off bs = some out) {i n : ℕ} (hapart : i + n ≤ off ∨ off + bs.length ≤ i) :
    readAt out i n = readAt buf i n := by
  have hlen := length_memcpy H
  obtain ⟨hroom, rfl⟩ := memcpy_eq_some.mp H
  have hfront : (buf.take off).length = off := List.length_take_of_le (by omega)
  rw [readAt, readAt, hlen]
  split
  · congr 1
    rcases hapart with hbefore | hbehind
    · rw [writeAt, List.append_assoc, List.drop_append_of_le_length (by omega),
        List.take_append_of_le_length (by rw [List.length_drop]; omega), List.drop_take,
        List.take_take, Nat.min_eq_left (by omega)]
    · have hpieces : (buf.take off ++ bs).length ≤ i := by
        rw [List.length_append]
        omega
      rw [writeAt, List.drop_append, List.drop_of_length_le hpieces, List.nil_append,
        List.drop_drop, List.length_append, hfront]
      congr 2
      omega
  · rfl

/-- Several writes, at offsets from some place. -/
def memcpyAll (off : ℕ) (buf : List UInt8) (parts : List (ℕ × List UInt8)) :
    Option (List UInt8) :=
  parts.foldlM (fun buf part => memcpy buf (off + part.1) part.2) buf

theorem memcpyAll_cons (off : ℕ) (buf : List UInt8) (part : ℕ × List UInt8)
    (parts : List (ℕ × List UInt8)) : memcpyAll off buf (part :: parts) =
      (memcpy buf (off + part.1) part.2).bind fun buf => memcpyAll off buf parts :=
  List.foldlM_cons

/-- All the writes stay in the memory exactly if each does. -/
theorem isSome_memcpyAll_iff {off : ℕ} {parts : List (ℕ × List UInt8)} {buf : List UInt8} :
    (memcpyAll off buf parts).isSome = true ↔
      ∀ part ∈ parts, off + part.1 + part.2.length ≤ buf.length := by
  induction parts generalizing buf with
  | nil => simp [memcpyAll]
  | cons part parts ih =>
    rw [memcpyAll_cons, List.forall_mem_cons]
    cases hcopy : memcpy buf (off + part.1) part.2 with
    | none =>
      rw [memcpy] at hcopy
      split at hcopy
      · cases hcopy
      · next hroom => simp [hroom]
    | some out =>
      rw [Option.bind_some, ih, length_memcpy hcopy, and_iff_right (memcpy_eq_some.mp hcopy).1]

theorem length_memcpyAll {off : ℕ} {parts : List (ℕ × List UInt8)} {buf out : List UInt8}
    (H : memcpyAll off buf parts = some out) : out.length = buf.length := by
  induction parts generalizing buf with
  | nil => exact (congrArg _ (Option.some.inj H)).symm
  | cons part parts ih =>
    rw [memcpyAll_cons] at H
    obtain ⟨next, hnext, hrest⟩ := Option.bind_eq_some_iff.mp H
    rw [ih hrest, length_memcpy hnext]

/-- The writes change nothing that is apart from each of them. -/
theorem readAt_memcpyAll_of_disjoint {off : ℕ} {parts : List (ℕ × List UInt8)}
    {buf out : List UInt8} (H : memcpyAll off buf parts = some out) {i n : ℕ}
    (hapart : ∀ part ∈ parts, i + n ≤ off + part.1 ∨ off + part.1 + part.2.length ≤ i) :
    readAt out i n = readAt buf i n := by
  induction parts generalizing buf with
  | nil => rw [Option.some.inj H]
  | cons part parts ih =>
    rw [memcpyAll_cons] at H
    rw [List.forall_mem_cons] at hapart
    obtain ⟨next, hnext, hrest⟩ := Option.bind_eq_some_iff.mp H
    rw [ih hrest hapart.2, readAt_memcpy_of_disjoint hnext hapart.1]

/-- A piece of memory of some size that starts with the pieces written so far. -/
structure Starts (buf done : List UInt8) (n : ℕ) : Prop where
  isPrefix : done <+: buf
  length_eq : buf.length = n

theorem starts_nil {buf : List UInt8} {n : ℕ} (H : buf.length = n) : Starts buf [] n :=
  ⟨List.nil_prefix, H⟩

/-- A write right behind the pieces written before, where there is room for it. -/
theorem Starts.copy {buf done bs : List UInt8} {n off : ℕ} (H : Starts buf done n)
    (hoff : off = done.length) (hroom : off + bs.length ≤ n) :
    ∃ buf', memcpy buf off bs = some buf' ∧ Starts buf' (done ++ bs) n := by
  obtain ⟨⟨left, rfl⟩, hlen⟩ := H
  subst hoff
  rw [List.length_append] at hlen
  refine ⟨done ++ bs ++ left.drop bs.length, ?_, List.prefix_append _ _, ?_⟩
  · rw [memcpy, if_pos (by rw [List.length_append]; omega), writeAt_append]
  · simp only [List.length_append, List.length_drop]
    omega

/-- A first write. -/
theorem memcpy_zero {buf bs : List UInt8} {n : ℕ} (hn : buf.length = n) (hroom : bs.length ≤ n) :
    ∃ buf', memcpy buf 0 bs = some buf' ∧ Starts buf' bs n :=
  (starts_nil hn).copy rfl ((Nat.zero_add _).trans_le hroom)

/-- What is written is all there is once it has the size of the memory. -/
theorem Starts.eq {buf done : List UInt8} {n : ℕ} (H : Starts buf done n) (hn : done.length = n) :
    buf = done :=
  (H.isPrefix.eq_of_length (hn.trans H.length_eq.symm)).symm

/-- A piece is inserted: what comes behind it is moved first. -/
theorem memcpy_insert (front tail : List UInt8) {ext ins : List UInt8}
    (hext : ext.length = ins.length) :
    ∃ moved, memcpy (front ++ tail ++ ext) (front.length + ins.length) tail = some moved ∧
      memcpy moved front.length ins = some (front ++ ins ++ tail) := by
  have hlen : ((tail ++ ext).take ins.length).length = ins.length := by
    rw [List.length_take, List.length_append]
    omega
  have hgone : (tail ++ ext).drop (ins.length + tail.length) = [] :=
    List.drop_eq_nil_of_le (by rw [List.length_append]; omega)
  refine ⟨front ++ ((tail ++ ext).take ins.length ++ tail), ?_, ?_⟩
  · rw [memcpy, if_pos (by simp only [List.length_append]; omega), List.append_assoc,
      writeAt_append_add, hgone, List.append_nil, List.append_assoc]
  · rw [memcpy, if_pos (by simp only [List.length_append]; omega), writeAt_append,
      List.drop_append_of_le_length hlen.ge, List.drop_of_length_le hlen.le, List.nil_append]

theorem memcpy_eq_none {buf bs : List UInt8} {off : ℕ} (H : buf.length < off + bs.length) :
    memcpy buf off bs = none := if_neg (by omega)

theorem Bytes.toList_overwrite {n : ℕ} (v : Bytes n) {off : ℕ} {bs : List UInt8}
    (H : off + bs.length ≤ n) : (v.overwrite off bs).toList = writeAt v.toList off bs := by
  apply List.ext_getElem
  · simp only [writeAt, Vector.length_toList, List.length_append, List.length_take,
      List.length_drop]
    omega
  · intro i hi hi'
    simp only [Vector.length_toList] at hi
    have hlen : (v.toList.take off).length = off := by
      rw [List.length_take, Vector.length_toList]
      omega
    simp only [Bytes.overwrite, Vector.getElem_toList, Vector.getElem_ofFn, writeAt]
    rcases Nat.lt_or_ge i off with hlow | hlow
    · rw [if_neg (by omega), List.getElem_append_left (by simp; omega),
        List.getElem_append_left (by omega)]
      simp
    · rw [if_pos hlow]
      rcases Nat.lt_or_ge i (off + bs.length) with hmid | hmid
      · rw [List.getElem_append_left (by simp; omega), List.getElem_append_right (by omega)]
        simp [hlen, List.getElem?_eq_getElem (show i - off < bs.length by omega)]
      · rw [List.getElem_append_right (by simp; omega)]
        simp [List.getElem?_eq_none (show bs.length ≤ i - off by omega)]
        congr
        omega

/-- A byte of a buffer that was written to. -/
theorem Bytes.byte_overwrite {n : ℕ} (v : Bytes n) {off : ℕ} {bs : List UInt8}
    (H : off + bs.length ≤ n) (i : ℕ) :
    (v.overwrite off bs).byte i =
      if off ≤ i ∧ i < off + bs.length then (bs[i - off]?.getD 0).toNat else v.byte i := by
  rcases Nat.lt_or_ge i n with hi | hi
  · simp only [Bytes.byte, Vector.getElem?_eq_getElem hi, Option.getD_some, Bytes.overwrite,
      Vector.getElem_ofFn]
    rcases Nat.lt_or_ge i off with hlow | hlow
    · rw [if_neg (by omega), if_neg (by omega)]
      rfl
    · rw [if_pos hlow]
      rcases Nat.lt_or_ge (i - off) bs.length with hmid | hmid
      · rw [if_pos (by omega), List.getElem?_eq_getElem hmid]
        rfl
      · rw [if_neg (by omega), List.getElem?_eq_none hmid]
        rfl
  · have hout : ∀ w : Bytes n, w.byte i = 0 := fun w => by
      simp [Bytes.byte, Vector.getElem?_eq_none hi]
    rw [hout, if_neg (by omega), hout]

/-- The number that four bytes spell, most significant first. -/
def ofBe32 (bs : List UInt8) : UInt32 :=
  UInt32.ofNat (bs.foldl (fun acc b => 2 ^ 8 * acc + b.toNat) 0)

theorem be32_ofBe32 {bs : List UInt8} (H : bs.length = 4) : be32 (ofBe32 bs) = bs := by
  obtain ⟨a, b, c, d, rfl⟩ : ∃ a b c d, bs = [a, b, c, d] := by
    match bs, H with
    | [a, b, c, d], _ => exact ⟨a, b, c, d, rfl⟩
  have ha := a.toNat_lt
  have hb := b.toNat_lt
  have hc := c.toNat_lt
  have hd := d.toNat_lt
  simp only [be32, ofBe32, List.foldl_cons, List.foldl_nil, List.cons.injEq, and_true,
    ← UInt8.toNat_inj]
  refine ⟨?_, ?_, ?_, ?_⟩ <;>
    simp [UInt32.toNat_shiftRight, Nat.shiftRight_eq_div_pow] <;> omega

theorem ofBe32_be32 (x : UInt32) : ofBe32 (be32 x) = x := by
  have hx := x.toNat_lt
  rw [← UInt32.toNat_inj]
  simp [ofBe32, be32, UInt32.toNat_shiftRight, Nat.shiftRight_eq_div_pow]
  omega

import MassGridMiner.Api.Commands
import MassGridMiner.Lib.JsonText

/-!
# Lists as JSON

What is printed in JSON is read back exactly if no string needs an escape that it does not get.
Strings of the types `API_STRING` and `API_CONST` get none, and those that are escaped only get
a backslash in front of quotes and backslashes; a number that is not finite is no number.

## Main definitions

* `ApiData.tree`, `fieldsTree`, `listsTree` — the values that are meant.
* `ApiData.Readable`, `ApiField.Readable` — the conditions on them.
* `PrintsDoubles` — how numbers are printed.
* `exact_lists`, `exact_message` — how lists and messages are read.
-/

namespace MassGridMiner

open JsonText

/-! ## Numbers -/

theorem digits_paddedDigits (len n : ℕ) : Digits (paddedDigits (len + 1) n) := by
  constructor
  · intro h
    obtain ⟨hpad, hmap⟩ := List.append_eq_nil_iff.mp h
    rw [hmap] at hpad
    exact absurd hpad (by simp)
  · exact fun c hc => digit_of_mem_paddedDigits hc

theorem intPart_printUint (n : ℕ) : IntPart (printUint n) := by
  refine ⟨digits_paddedDigits 0 n, ?_⟩
  rcases Nat.eq_zero_or_pos n with rfl | hpos
  · exact fun _ => rfl
  · intro hhead
    have hne : Nat.digits 10 n ≠ [] := Nat.digits_ne_nil_iff_ne_zero.mpr hpos.ne'
    have hdigits : printUint n = (Nat.digits 10 n).reverse.map fun d => 0x30 + UInt8.ofNat d := by
      have hlen : 1 - (Nat.digits 10 n).length = 0 :=
        Nat.sub_eq_zero_of_le (List.length_pos_of_ne_nil hne)
      simp [printUint, paddedDigits, hlen]
    rw [hdigits, List.head?_map, List.head?_reverse, List.getLast?_eq_some_getLast hne,
      Option.map_some, Option.some.injEq] at hhead
    -- the first digit is not zero
    have hlt := Nat.digits_lt_base (b := 10) (by norm_num) (List.getLast_mem hne)
    have hzero := Nat.getLast_digit_ne_zero 10 hpos.ne'
    generalize (Nat.digits 10 n).getLast hne = d at *
    interval_cases d <;> simp_all

theorem isNumber_printInt (n : ℤ) : IsNumber (printInt n) := by
  rw [printInt]
  split
  · exact ⟨[0x2d], _, [], [], .inr rfl, intPart_printUint n.natAbs, .inl rfl, .inl rfl, by
      simp [printUint]⟩
  · exact ⟨[], _, [], [], .inl rfl, intPart_printUint n.natAbs, .inl rfl, .inl rfl, by
      simp [printUint]⟩

theorem isNumber_printUint (n : ℕ) : IsNumber (printUint n) :=
  ⟨[], _, [], [], .inl rfl, intPart_printUint n, .inl rfl, .inl rfl, by simp⟩

theorem isNumber_timeval (sec usec : ℕ) :
    IsNumber (printUint sec ++ 0x2e :: paddedDigits 6 usec) :=
  ⟨[], _, _, [], .inl rfl, intPart_printUint sec, .inr ⟨_, rfl, digits_paddedDigits 5 usec⟩,
    .inl rfl, by simp⟩

/-- What is known of `%.*f`: a number is printed as one, and what is none has a name. -/
structure PrintsDoubles (printDouble : ℕ → Float → List UInt8) : Prop where
  finite : ∀ prec x, x.isFinite → IsNumber (printDouble prec x)
  other : ∀ prec x, ¬ x.isFinite → printDouble prec x ∈
    [literal "nan", literal "-nan", literal "inf", literal "-inf"]

/-- The names of what is no number are no numbers. -/
theorem not_isNumber_name {text : List UInt8}
    (H : text ∈ [literal "nan", literal "-nan", literal "inf", literal "-inf"]) :
    ¬ IsNumber text ∧ 0x5c ∉ text := by
  have hhead : ∀ name ∈ [literal "nan", literal "-nan", literal "inf", literal "-inf"],
      (∀ c, name.head? = some c → ¬ (0x30 ≤ c ∧ c ≤ 0x39)) ∧
        (∀ c, name.tail.head? = some c → ¬ (0x30 ≤ c ∧ c ≤ 0x39)) ∧ 0x5c ∉ name := by
    have hlit : [literal "nan", literal "-nan", literal "inf", literal "-inf"] =
        [[0x6e, 0x61, 0x6e], [0x2d, 0x6e, 0x61, 0x6e], [0x69, 0x6e, 0x66],
          [0x2d, 0x69, 0x6e, 0x66]] := by
      decide +kernel
    rw [hlit]
    simp
  obtain ⟨hfirst, hsecond, hback⟩ := hhead text H
  refine ⟨fun hn => ?_, hback⟩
  obtain ⟨sgn, c, t, rfl | rfl, hc, rfl⟩ := hn.exists_digit
  · exact hfirst c rfl hc
  · exact hsecond c rfl hc

theorem exact_double {printDouble : ℕ → Float → List UInt8} (H : PrintsDoubles printDouble)
    (prec : ℕ) (x : Float) :
    Exact Value (printDouble prec x) (.number (printDouble prec x)) (x.isFinite = true) := by
  by_cases hx : x.isFinite
  · have hn := H.finite prec x hx
    exact (exact_number hn.backslash_notMem).congr ⟨fun _ => hx, fun _ => hn⟩
  · obtain ⟨hn, hback⟩ := not_isNumber_name (H.other prec x hx)
    exact (exact_number hback).congr ⟨fun h => absurd h hn, fun h => absurd h hx⟩

/-! ## Values -/

section
variable (printDouble : ℕ → Float → List UInt8)

/-- The value that is meant. -/
def ApiData.tree : ApiData → Tree
  | .string s | .const s | .escape s => .string s.bytes
  | .bool b => .bool b
  | data => .number (data.number printDouble)

/-- The member that is meant. -/
def ApiField.tree (f : ApiField) : List UInt8 × Tree := (f.name, f.data.tree printDouble)

/-- The object that is meant. -/
def fieldsTree (root : List ApiField) : Tree := .object (root.map (ApiField.tree printDouble))

/-- The array that is meant. -/
def listsTree (lists : List (List ApiField × Bool)) : Tree :=
  .array (lists.map fun list => fieldsTree printDouble list.1)

end

/-- A text without control characters. -/
def Printable (text : List UInt8) : Prop := ∀ c ∈ text, 0x20 ≤ c

instance (text : List UInt8) : Decidable (Printable text) :=
  inferInstanceAs (Decidable (∀ c ∈ text, _))

/-- A value that is read as it is meant. -/
def ApiData.Readable : ApiData → Prop
  | .string s | .const s => ∀ c ∈ s.bytes, Plain c
  | .escape s => Printable s.bytes
  | .double x | .elapsed x | .utility x | .freq x | .mhs x | .mhtotal x | .hs x | .diff x =>
    x.isFinite = true
  | .volts x | .temp x => x.toFloat.isFinite = true
  | .percent x => (x * 100).isFinite = true
  | _ => True

/-- A value that is read as it is meant, with its name. -/
def ApiField.Readable (f : ApiField) : Prop := (∀ c ∈ f.name, Plain c) ∧ f.data.Readable

/-- Each list but the first has a comma in front. -/
def CommasBetween : List (List ApiField × Bool) → Prop
  | [] => True
  | list :: lists => list.2 = false ∧ ∀ list ∈ lists, list.2 = true

/-- Lists that are read as they are meant. -/
def ListsReadable (lists : List (List ApiField × Bool)) : Prop :=
  CommasBetween lists ∧ ∀ list ∈ lists, ∀ f ∈ list.1, f.Readable

theorem bytes_escapeString (s : CStr) : (escapeString true s).bytes = escaped s.bytes := by
  have hchar : ∀ c : UInt8, escapes true c = decide (c = 0x22 ∨ c = 0x5c) := fun c => by
    rw [escapes, if_pos rfl, Bool.or_comm, Bool.decide_or]
    rfl
  simp only [escapeString, escaped, hchar, decide_eq_true_eq]

theorem bytes_trueFalse (b : Bool) : (trueFalse b).bytes =
    if b then [0x74, 0x72, 0x75, 0x65] else [0x66, 0x61, 0x6c, 0x73, 0x65] := by
  revert b
  decide +kernel

section
variable {printDouble : ℕ → Float → List UInt8}

/-- A string that is escaped is read as itself, and as nothing else. -/
theorem exact_escape (printDouble : ℕ → Float → List UInt8) (s v : CStr) :
    Exact Value ((ApiData.escape s).print printDouble true) (.string v.bytes)
      (Printable s.bytes ∧ v.bytes = s.bytes) := by
  have hs : Exact Value (0x22 :: ((escapeString true s).bytes ++ [0x22])) (.string v.bytes)
      (Printable s.bytes ∧ v.bytes = s.bytes) := by
    rw [bytes_escapeString]
    exact exact_string (exactStr_escaped s.bytes v.bytes)
  exact hs

theorem exact_data (H : PrintsDoubles printDouble) (data : ApiData) :
    Exact Value (data.print printDouble true) (data.tree printDouble) data.Readable := by
  have hnumber : ∀ {n : List UInt8}, IsNumber n → Exact Value n (.number n) True := fun hn =>
    (exact_number hn.backslash_notMem).congr (iff_true_intro hn)
  cases data with
  | string s | const s => exact exact_string (exactStr_raw s.bytes)
  | escape s => exact (exact_escape printDouble s s).congr (and_iff_left rfl)
  | uint8 | uint16 | uint | uint32 | uint64 | time => exact hnumber (isNumber_printUint _)
  | int16 | int => exact hnumber (isNumber_printInt _)
  | timeval => exact hnumber (isNumber_timeval _ _)
  | bool b =>
      have hb : Exact Value (trueFalse b).bytes (.bool b) True := by
        rw [bytes_trueFalse]
        exact exact_bool b
      exact hb
  | _ => exact exact_double H _ _

/-- A member of a list, with a value that is read as some other. -/
theorem exact_field_of {f : ApiField} {v : Tree} {P : Prop}
    (H : Exact Value (f.data.print printDouble true) v P) :
    Exact JsonText.Member (f.print printDouble true) (f.name, v)
      ((∀ c ∈ f.name, Plain c) ∧ P) := by
  have hf := exact_member (exactStr_raw f.name) H
  have htext : f.print printDouble true =
      0x22 :: (f.name ++ 0x22 :: 0x3a :: f.data.print printDouble true) := by
    simp [ApiField.print, quoted]
  rw [htext]
  exact hf

/-- A member of a list. -/
theorem exact_field (H : PrintsDoubles printDouble) (f : ApiField) :
    Exact JsonText.Member (f.print printDouble true) (f.tree printDouble) f.Readable :=
  exact_field_of (exact_data H f.data)

/-! ## Lists -/

/-- The rest of a list, behind a value. -/
theorem exact_behind_fields (H : PrintsDoubles printDouble) (root : List ApiField) :
    Exact (Behind JsonText.Member 0x7d) (printFields printDouble true false root ++ [0x7d])
      (root.map (ApiField.tree printDouble)) (∀ f ∈ root, f.Readable) := by
  induction root with
  | nil => exact (exact_close rfl (by decide) (by decide)).congr (by simp)
  | cons f root ih =>
      have htext : printFields printDouble true false (f :: root) ++ [0x7d] =
          0x2c :: (f.print printDouble true ++
            (printFields printDouble true false root ++ [0x7d])) := by
        simp [printFields, comma]
      rw [htext]
      exact (exact_comma (by decide) (exact_listed (exact_field H f) ih)).congr
        List.forall_mem_cons.symm

/-- The text of a list, as an object. -/
def objectText (printDouble : ℕ → Float → List UInt8) (root : List ApiField) : List UInt8 :=
  0x7b :: (printFields printDouble true true root ++ [0x7d])

theorem printDataText_json (root : List ApiField) (precom : Bool) :
    printDataText printDouble root true precom =
      (if precom then [0x2c] else []) ++ objectText printDouble root := by
  simp [printDataText, objectText, comma]

theorem exact_object_fields (H : PrintsDoubles printDouble) (root : List ApiField) :
    Exact Value (objectText printDouble root) (fieldsTree printDouble root)
      (∀ f ∈ root, f.Readable) := by
  cases root with
  | nil => exact exact_emptyObject.congr (by simp)
  | cons f root =>
      have htext : objectText printDouble (f :: root) =
          0x7b :: (f.print printDouble true ++
            (printFields printDouble true false root ++ [0x7d])) := by
        simp [objectText, printFields]
      rw [htext]
      exact (exact_object (exact_listed (exact_field H f) (exact_behind_fields H root))).congr
        List.forall_mem_cons.symm

/-- Lists one behind the other, up to the bracket. -/
def listsText (printDouble : ℕ → Float → List UInt8) (lists : List (List ApiField × Bool)) :
    List UInt8 :=
  lists.flatMap (fun list => printDataText printDouble list.1 true list.2) ++ [0x5d]

theorem startsValue_object (root : List ApiField) : StartsValue (objectText printDouble root) :=
  ⟨0x7b, _, skipWs_cons rfl _, by decide, by decide⟩

/-- **Lists in an array.** -/
theorem exact_lists (H : PrintsDoubles printDouble) (lists : List (List ApiField × Bool)) :
    Exact Value (0x5b :: listsText printDouble lists) (listsTree printDouble lists)
      (ListsReadable lists) := by
  have htext : listsText printDouble lists = piecesText (objectText printDouble) [] lists := by
    simp [listsText, piecesText, printDataText_json]
  have hcommas : Separated lists ↔ CommasBetween lists := by
    cases lists <;> rfl
  rw [htext, listsTree, ListsReadable, ← hcommas]
  exact exact_pieces (exact_object_fields H) startsValue_object (by decide) lists

end

/-! ## Messages -/

/-- What a caller of `message` means to be shown. -/
def Param2.meant : Param2 → Option CStr
  | .null => none
  | .string s | .escaped s => some s

/-- A string that is escaped by the caller, and will be once more. -/
def Param2.EscapedTwice : Param2 → Prop
  | .escaped s => ∃ c ∈ s.bytes, escapes true c = true
  | _ => False

/-- A description with the last argument of `message` in it. -/
def CodeParameters.showsParam2 : CodeParameters → Bool
  | .str | .both | .set => true
  | _ => false

/-- The strings in the text of a message. -/
def CodeParameters.strings (st : ApiState) (paramid : ℤ) (param2 : Option CStr) :
    CodeParameters → List (List UInt8)
  | .pool => [CStr.printed (st.pools[paramid.toNat]?.map ApiPool.rpcUrl)]
  | .str | .both | .set => [CStr.printed param2]
  | _ => []

/-- The parameters of a message that is in the table. -/
def MessageCall.params (b : Build) (call : MessageCall) : CodeParameters :=
  (((codes b).find? fun c => c.code == call.messageid2).map Code.params).getD .none

/-- A message that is read as it is meant. -/
def MessageCall.Readable (b : Build) (st : ApiState) (call : MessageCall) : Prop :=
  (∀ text ∈ (call.params b).strings st call.paramid (call.param2.passed true), Printable text) ∧
    ((call.params b).showsParam2 = true → ¬ call.param2.EscapedTwice) ∧
    (ApiData.nullable .escape st.optApiDescription).Readable

section
variable (b : Build) (st : ApiState) (perProc : Bool)

theorem printable_printInt (n : ℤ) : Printable (printInt n) := by
  have hdigits : Printable (printUint n.natAbs) := fun c hc =>
    UInt8.le_trans (by decide) ((intPart_printUint n.natAbs).1.2 c hc).1
  rw [printInt]
  split
  · exact List.forall_mem_cons.mpr ⟨by decide, hdigits⟩
  · exact hdigits

theorem forall_printable_args_iff (params : CodeParameters) (paramid : ℤ) (param2 : Option CStr) :
    (∀ arg ∈ params.args st perProc paramid param2, Printable arg) ↔
      ∀ text ∈ params.strings st paramid param2, Printable text := by
  have hcommand : Printable (literal "command") := by decide +kernel
  have hbool : ∀ b, Printable (trueFalse b).bytes := by decide +kernel
  cases params <;>
    simp only [CodeParameters.args, CodeParameters.strings, List.forall_mem_cons,
      List.not_mem_nil, false_implies, implies_true, and_true, true_and, printable_printInt,
      hcommand, hbool]

theorem printable_perm {xs ys : List UInt8} (H : xs.Perm ys) : Printable xs ↔ Printable ys :=
  forall_congr' fun _ => imp_congr_left H.mem_iff

theorem printable_describe_iff (call : MessageCall) (param2 : Option CStr) :
    Printable (describe b st perProc call param2).2.text ↔
      ∀ text ∈ (call.params b).strings st call.paramid param2, Printable text := by
  rw [printable_perm (perm_pieces b st perProc call param2).1, MessageCall.params, pieces]
  cases hfind : (codes b).find? fun c => c.code == call.messageid2 with
  | some c =>
      have hplain := printable_plain b (List.mem_of_find?_eq_some hfind)
      rw [Option.map_some, Option.getD_some, ← forall_printable_args_iff st perProc]
      simp only [Printable, List.mem_flatten, List.mem_cons] at hplain ⊢
      constructor
      · exact fun h arg harg ch hch => h ch ⟨arg, .inr harg, hch⟩
      · rintro h ch ⟨piece, rfl | harg, hch⟩
        · exact hplain ch hch
        · exact h piece harg ch hch
  | none =>
      simpa [CodeParameters.strings] using printable_printInt (call.messageid2 &&& 0xffffbfff : ℕ)

theorem describe_letter (call : MessageCall) (param2 param2' : Option CStr) :
    (describe b st perProc call param2).1 = (describe b st perProc call param2').1 := by
  rw [describe, describe]
  split <;> rfl

/-- Escaping changes a string exactly if something in it is escaped, and makes it longer. -/
theorem length_printed_lt {param2 : Param2} (H : param2.EscapedTwice) :
    (CStr.printed param2.meant).length < (CStr.printed (param2.passed true)).length := by
  cases param2 with
  | escaped s =>
      have hpos : 0 < s.bytes.countP (escapes true) := List.countP_pos_iff.mpr H
      have hlen := length_escapeString true s
      rw [escapedRoom] at hlen
      simp only [Param2.meant, Param2.passed, CStr.printed]
      omega
  | _ => exact absurd H id

theorem passed_eq_meant {param2 : Param2} (H : ¬ param2.EscapedTwice) :
    param2.passed true = param2.meant := by
  cases param2 with
  | escaped s =>
      have hclean : ∀ c ∈ s.bytes, escapes true c = false := fun c hc =>
        Bool.eq_false_iff.mpr fun h => H ⟨c, hc, h⟩
      have hbytes : (escapeString true s).bytes = s.bytes := by
        simp only [escapeString]
        rw [List.flatMap_congr fun c hc => if_neg (by rw [hclean c hc]; exact Bool.false_ne_true),
          List.flatMap_singleton']
      exact congrArg some (CStr.ext hbytes)
  | _ => rfl

/-- A longer string makes the arguments longer where it is one of them. -/
theorem sum_length_args_lt {params : CodeParameters} (hshows : params.showsParam2 = true)
    (paramid : ℤ) {s s' : Option CStr} (H : (CStr.printed s).length < (CStr.printed s').length) :
    ((params.args st perProc paramid s).map List.length).sum <
      ((params.args st perProc paramid s').map List.length).sum := by
  cases params <;> first
    | exact absurd hshows Bool.false_ne_true
    | simp only [CodeParameters.args, List.map_cons, List.map_nil, List.sum_cons, List.sum_nil]
      omega

/-- Elsewhere the arguments do not depend on it. -/
theorem args_eq_of_not_shows {params : CodeParameters} (hshows : params.showsParam2 = false)
    (paramid : ℤ) (s s' : Option CStr) :
    params.args st perProc paramid s = params.args st perProc paramid s' := by
  cases params <;> first
    | rfl
    | cases hshows

/-- The text of a message is the one that is meant exactly if nothing in it is escaped twice. -/
theorem describe_eq_iff (call : MessageCall) :
    (describe b st perProc call (call.param2.passed true)).2.text =
        (describe b st perProc call call.param2.meant).2.text ↔
      ((call.params b).showsParam2 = true → ¬ call.param2.EscapedTwice) := by
  rw [MessageCall.params]
  cases hfind : (codes b).find? fun c => c.code == call.messageid2 with
  | some c =>
      rw [Option.map_some, Option.getD_some]
      constructor
      · intro h hshows htwice
        have hlt := sum_length_args_lt st perProc hshows call.paramid (length_printed_lt htwice)
        have hlen := congrArg List.length h
        rw [(perm_pieces b st perProc call _).1.length_eq,
          (perm_pieces b st perProc call _).1.length_eq, pieces, pieces, hfind] at hlen
        simp only [List.flatten_cons, List.length_append, List.length_flatten] at hlen
        omega
      · intro h
        by_cases htwice : call.param2.EscapedTwice
        · have hshows := Bool.eq_false_iff.mpr fun hshows => h hshows htwice
          rw [describe, describe, hfind]
          dsimp only
          rw [args_eq_of_not_shows st perProc hshows]
        · rw [passed_eq_meant htwice]
  | none =>
      rw [describe, describe, hfind]
      exact iff_of_true rfl fun h => absurd h Bool.false_ne_true

/-- The object that a message is meant to be. -/
def messageTree (printDouble : ℕ → Float → List UInt8) (call : MessageCall) : Tree :=
  fieldsTree printDouble (messageRoot b st perProc call call.param2.meant)

theorem messageRoot_eq (call : MessageCall) (param2 : Option CStr) :
    messageRoot b st perProc call param2 =
      [field "STATUS" (.string (describe b st perProc call param2).1),
        field "When" (.time st.requestTime), field "Code" (.int (shownCode b call)),
        field "Msg" (.escape (.ofMem (describe b st perProc call param2).2.text)),
        field "Description" (.nullable .escape st.optApiDescription)] := rfl

/-- The letter of a message needs no escape. -/
theorem readable_letter (call : MessageCall) (param2 : Option CStr) :
    (ApiData.string (describe b st perProc call param2).1).Readable := by
  have hall : ∀ letter ∈ [cstr "W", cstr "I", cstr "S", cstr "E", cstr "F"],
      letter.bytes.all (fun c => Plain c) = true := by
    decide +kernel
  have hletter : ∀ letter ∈ [cstr "W", cstr "I", cstr "S", cstr "E", cstr "F"],
      ∀ c ∈ letter.bytes, Plain c := fun letter hmem => plain_of_all (hall letter hmem)
  refine hletter _ ?_
  rw [describe]
  split
  · rename_i c _
    cases c.severity <;> simp [CodeSeverity.letter]
  · simp

/-- The names in the list of a message need no escapes. -/
theorem plain_messageNames : ∀ name ∈ ["STATUS", "When", "Code", "Msg", "Description"],
    ∀ c ∈ literal name, Plain c := by
  have hall : ∀ name ∈ ["STATUS", "When", "Code", "Msg", "Description"],
      (literal name).all (fun c => Plain c) = true := by
    decide +kernel
  exact fun name hmem => plain_of_all (hall name hmem)

/-- **A message.**  Its text is printed with what is passed, and is to be what is meant. -/
theorem exact_message {printDouble : ℕ → Float → List UInt8} (H : PrintsDoubles printDouble)
    (call : MessageCall) :
    Exact Value
      (objectText printDouble (messageRoot b st perProc call (call.param2.passed true)))
      (messageTree b st perProc printDouble call) (call.Readable b st) := by
  have hbytes := fun param2 => CStr.bytes_ofMem (perm_pieces b st perProc call param2).2
  have hmsg := exact_field_of (f := field "Msg"
      (.escape (.ofMem (describe b st perProc call (call.param2.passed true)).2.text)))
    (exact_escape printDouble _
      (.ofMem (describe b st perProc call call.param2.meant).2.text))
  rw [hbytes, hbytes, printable_describe_iff, eq_comm, describe_eq_iff] at hmsg
  have hbehind := exact_comma (by decide) (exact_listed hmsg
    (exact_behind_fields H [field "Description" (.nullable .escape st.optApiDescription)]))
  rw [messageTree, messageRoot_eq, messageRoot_eq,
    describe_letter b st perProc call call.param2.meant (call.param2.passed true)]
  generalize hletter : (describe b st perProc call (call.param2.passed true)).1 = letter
  have hreadable := hletter ▸ readable_letter b st perProc call (call.param2.passed true)
  have hlist := exact_object (exact_listed (exact_field H (field "STATUS" (.string letter)))
    (exact_comma (by decide) (exact_listed (exact_field H (field "When" (.time st.requestTime)))
      (exact_comma (by decide) (exact_listed
        (exact_field H (field "Code" (.int (shownCode b call)))) hbehind)))))
  have htext : ∀ f₁ f₂ f₃ f₄ f₅ : ApiField, objectText printDouble [f₁, f₂, f₃, f₄, f₅] =
      0x7b :: (f₁.print printDouble true ++ 0x2c :: (f₂.print printDouble true ++
        0x2c :: (f₃.print printDouble true ++ 0x2c :: (f₄.print printDouble true ++
          (printFields printDouble true false [f₅] ++ [0x7d]))))) := by
    simp [objectText, printFields, comma]
  rw [htext, fieldsTree]
  simp only [List.map_cons, List.map_nil, ApiField.tree, ApiData.tree, field, hbytes] at hlist ⊢
  refine hlist.congr ?_
  have hnames := plain_messageNames
  simp only [List.forall_mem_cons] at hnames
  obtain ⟨hstatus, hwhen, hcode, hmsgname, hdescription, -⟩ := hnames
  simp only [ApiField.Readable, List.forall_mem_singleton, MessageCall.Readable]
  constructor
  · rintro ⟨-, -, -, ⟨-, hstrings, htwice⟩, -, hdesc⟩
    exact ⟨hstrings, htwice, hdesc⟩
  · rintro ⟨hstrings, htwice, hdesc⟩
    exact ⟨⟨hstatus, hreadable⟩, ⟨hwhen, trivial⟩, ⟨hcode, trivial⟩,
      ⟨hmsgname, hstrings, htwice⟩, hdescription, hdesc⟩

end

end MassGridMiner

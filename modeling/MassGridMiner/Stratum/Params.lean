import MassGridMiner.Lib.Words
import MassGridMiner.Stratum.HostUri

/-!
# The parameters of a URI

The fragment of a URI is a list of parameters, but `uri_find_param` does not take it for one: it
looks for a word.  A value that is the name of a parameter is mistaken for it, and a name that
begins with `no` for another that is inverted.

## Main definitions

* `ParamItem`, `ParamUri` — a parameter, and a URI with a list of them.
* `ParamUri.DecidesFirst` — the first parameter of a name decides.
* `ParamUri.Unmistaken` — when it does.
-/

namespace MassGridMiner

/-! ## Lists of parameters -/

/-- A text of letters. -/
def IsAlphaWord (w : List UInt8) : Prop := w ≠ [] ∧ ∀ c ∈ w, isCalpha c = true

instance (w : List UInt8) : Decidable (IsAlphaWord w) := inferInstanceAs (Decidable (_ ∧ _))

/-- A value: a word, a decimal number or a hexadecimal one. -/
inductive ParamValue : List UInt8 → Prop
  | word (w : List UInt8) (alpha : IsAlphaWord w) : ParamValue w
  | decimal (digits : List UInt8) (ne_nil : digits ≠ []) (all : digits.all isDigit = true) :
      ParamValue digits
  | hex (mark : UInt8) (digits : List UInt8) (marked : CStr.tolower mark = 0x78)
      (ne_nil : digits ≠ []) (all : ∀ c ∈ digits, CStr.digitValue c < 16) :
      ParamValue (0x30 :: mark :: digits)

/-- A parameter, which may be inverted and have a value. -/
structure ParamItem where
  inverted : Bool
  name : List UInt8
  value : Option (List UInt8)
  alpha : IsAlphaWord name
  not_no : ¬ literal "no" <+: name
  value_form : ∀ v, value = some v → ParamValue v

namespace ParamItem

/-- The name as it stands in the list. -/
def key (i : ParamItem) : List UInt8 := (if i.inverted then literal "no" else []) ++ i.name

def text (i : ParamItem) : List UInt8 := i.key ++ (i.value.map fun v => 0x3d :: v).getD []

end ParamItem

/-- The text of a list, from its second item on. -/
def behindComma : List ParamItem → List UInt8
  | [] => []
  | i :: items => 0x2c :: (i.text ++ behindComma items)

/-- The text of a list. -/
def paramText : List ParamItem → List UInt8
  | [] => []
  | i :: items => i.text ++ behindComma items

/-- A URI with a list of parameters. -/
structure ParamUri where
  before : List UInt8
  items : List ParamItem
  no_hash : 0x23 ∉ before
  nul_free : 0 ∉ before ++ 0x23 :: paramText items

/-- The URI as a string. -/
def ParamUri.uri (u : ParamUri) : CStr := ⟨_, u.nul_free⟩

/-- A value is true unless it is a false keyword, of which the number written `0` is one. -/
def ValueTrue (v : List UInt8) : Prop :=
  ∀ k ∈ strtoboolKeywords, k.1 = false → CStr.equalNoCase v (literal k.2) = false

instance (v : List UInt8) : Decidable (ValueTrue v) :=
  inferInstanceAs (Decidable (∀ k ∈ strtoboolKeywords, k.1 = false → _))

/-- What an item says of its parameter. -/
def ParamItem.answer (i : ParamItem) : Bool :=
  i.inverted != (i.value.map fun v => decide (ValueTrue v)).getD true

/-- The first item of a name decides, or the default if there is none. -/
def ParamUri.DecidesFirst (u : ParamUri) (param : String) : Prop :=
  ∀ defval, uriGetParamBool u.uri param defval =
    ((u.items.find? fun i => i.name == literal param).map ParamItem.answer).getD defval

/-! ## Literals -/

theorem literal_no : literal "no" = [0x6e, 0x6f] := by decide +kernel

theorem literal_on : literal "on" = [0x6f, 0x6e] := by decide +kernel

theorem literal_zero : literal "0" = [0x30] := by decide +kernel

/-- What is asked of the keywords: none is a beginning of one behind it, no two are the same, and
every one but `0` is a word of small letters. -/
structure KeywordFacts : Prop where
  pairwise : strtoboolKeywords.Pairwise fun k l => ¬ literal k.2 <+: literal l.2
  ext : ∀ k ∈ strtoboolKeywords, ∀ l ∈ strtoboolKeywords, literal k.2 = literal l.2 → k = l
  letters : ∀ k ∈ strtoboolKeywords, k = (false, "0") ∨
    literal k.2 ≠ [] ∧ ∀ c ∈ literal k.2, (0x61 ≤ c && c ≤ 0x7a) = true
  lower : ∀ k ∈ strtoboolKeywords, (literal k.2).map CStr.tolower = literal k.2

theorem keywordFacts : KeywordFacts where
  pairwise := by decide +kernel
  ext := by decide +kernel
  letters := by decide +kernel
  lower := by decide +kernel

/-! ## The words of a list -/

/-- A word is taken for a parameter if it is its name, or its name behind `no`. -/
def isParam (param w : List UInt8) : Bool :=
  w == param ||
    (w.length == param.length + 2 && CStr.beginsNoCase (literal "no") w && param.isSuffixOf w)

/-- A decimal number other than `0` that begins with a zero. -/
def ZeroPadded (v : List UInt8) : Prop := v.all isDigit = true ∧ v.head? = some 0x30 ∧ v ≠ [0x30]

instance (v : List UInt8) : Decidable (ZeroPadded v) := inferInstanceAs (Decidable (_ ∧ _ ∧ _))

/-- What `bfg_strtobool` makes of a value: a number that begins with a zero is false, but for a
hexadecimal one. -/
def readValue (v : List UInt8) : Bool := decide (ValueTrue v ∧ ¬ ZeroPadded v)

/-- The words of an item, each with what is read behind it: its name has the value, a word of the
value has none. -/
def ParamItem.readings (i : ParamItem) : List (List UInt8 × Bool) :=
  (i.key, (i.value.map readValue).getD true) ::
    (i.value.elim [] fun v => (words isCalpha v).map fun r => (r.1, true))

/-- The value behind a word. -/
def valueBehind (rest : List UInt8) : Option (List UInt8) :=
  if firstChar rest = 0x3d then some (rest.drop 1) else none

section
variable {param before w rest : List UInt8}

theorem firstChar_eq (l : List UInt8) : isCalpha (firstChar l) = l.head?.any isCalpha := by
  cases l <;> rfl

theorem isCalpha_of_tolower {c : UInt8}
    (H : (0x61 ≤ CStr.tolower c && CStr.tolower c ≤ 0x7a) = true) : isCalpha c = true := by
  rw [CStr.tolower] at H
  rw [isCalpha, Bool.or_eq_true]
  split at H
  next hupper => exact .inl hupper
  next => exact .inr H

/-- A parameter that is found with no letter behind it is the whole rest of a word. -/
theorem found_iff (hparam : IsAlphaWord param) (hall : ∀ c ∈ w, isCalpha c = true)
    (hrest : rest.head?.any isCalpha = false) :
    (!param.isPrefixOf (w ++ rest) || isCalpha (firstChar ((w ++ rest).drop param.length))) =
      false ↔ w = param := by
  rw [Bool.or_eq_false_iff, Bool.not_eq_false', List.isPrefixOf_iff_prefix, firstChar_eq]
  constructor
  · rintro ⟨hpre, hend⟩
    rcases List.prefix_or_prefix_of_prefix hpre (List.prefix_append w rest) with
      ⟨more, rfl⟩ | ⟨more, rfl⟩
    · cases more with
      | nil => exact List.append_nil param
      | cons c more =>
          rw [List.append_assoc, List.drop_left, List.cons_append, List.head?_cons,
            Option.any_some, hall c (by simp)] at hend
          cases hend
    · cases more with
      | nil => exact (List.append_nil w).symm
      | cons c more =>
          obtain ⟨tail, rfl⟩ := (List.prefix_append_right_inj w).mp hpre
          rw [List.cons_append, List.head?_cons, Option.any_some, hparam.2 c (by simp)] at hrest
          cases hrest
  · rintro rfl
    rw [List.drop_left]
    exact ⟨List.prefix_append w rest, hrest⟩

theorem suffix_of_isParam (H : isParam param w = true) : param <:+ w := by
  rw [isParam, Bool.or_eq_true, beq_iff_eq, Bool.and_eq_true, List.isSuffixOf_iff_suffix] at H
  rcases H with rfl | ⟨-, hsuffix⟩
  · exact List.suffix_rfl
  · exact hsuffix

/-- What stands before the parameter in a word is nothing, or `no`. -/
theorem isParam_append (front : List UInt8) : isParam param (front ++ param) =
    (front == [] || (front.length == 2 && CStr.beginsNoCase (literal "no") front)) := by
  have hsuffix : param.isSuffixOf (front ++ param) = true :=
    List.isSuffixOf_iff_suffix.mpr (List.suffix_append front param)
  have hempty : (front ++ param == param) = (front == []) := by
    rw [Bool.eq_iff_iff, beq_iff_eq, beq_iff_eq, List.append_left_eq_self]
  have hlen : ((front ++ param).length == param.length + 2) = (front.length == 2) := by
    rw [Bool.eq_iff_iff, beq_iff_eq, beq_iff_eq, List.length_append]
    omega
  rw [isParam, hsuffix, hempty, hlen, Bool.and_true]
  congr 1
  cases htwo : front.length == 2 with
  | false => rw [Bool.false_and, Bool.false_and]
  | true =>
      have hno : (literal "no").length = front.length := by
        rw [beq_iff_eq.mp htwo, literal_no]
        rfl
      rw [Bool.true_and, Bool.true_and, Bool.eq_iff_iff, CStr.beginsNoCase, CStr.beginsNoCase,
        List.isPrefixOf_iff_prefix, List.isPrefixOf_iff_prefix, List.map_append]
      refine ⟨fun h => ?_, fun h => h.trans (List.prefix_append _ _)⟩
      exact List.prefix_of_prefix_length_le h (List.prefix_append _ _) (by simp [hno])

/-- The search stops at the end of a word if it is taken for the parameter. -/
theorem findParam_found (hparam : IsAlphaWord param) (hne : before ≠ [])
    (hbefore : isCalpha (firstChar before) = false) (hrest : rest.head?.any isCalpha = false)
    (front : List UInt8) (hall : ∀ c ∈ front, isCalpha c = true) {c : UInt8} {tail : List UInt8}
    (hcons : param = c :: tail) :
    findParam param (front.reverse ++ before) (param ++ rest) =
      if isParam param (front ++ param) then some (front ++ param != param, valueBehind rest)
      else findParam param (c :: (front.reverse ++ before)) (tail ++ rest) := by
  have hfound := (found_iff hparam hparam.2 hrest).mpr rfl
  have hstep (before' : List UInt8) : findParam param before' (param ++ rest) =
      if decide (3 ≤ before'.length) && CStr.beginsNoCase (literal "on") before' &&
        !isCalpha (firstChar (before'.drop 2)) then some (true, valueBehind rest)
      else if isCalpha (firstChar before') then findParam param (c :: before') (tail ++ rest)
      else some (false, valueBehind rest) := by
    have hdrop : ((c :: tail) ++ rest).drop param.length = rest := by
      rw [← hcons, List.drop_left]
    rw [hcons, List.cons_append, ← hcons] at hfound
    rw [hcons, List.cons_append, ← hcons, findParam, hfound, if_neg Bool.false_ne_true]
    rw [← List.cons_append, hdrop, valueBehind]
  obtain ⟨d, l, rfl⟩ := List.exists_cons_of_ne_nil hne
  have hletters : (literal "on").map CStr.tolower = [0x6f, 0x6e] ∧
      (literal "no").map CStr.tolower = [0x6e, 0x6f] := by
    rw [literal_no, literal_on]
    decide
  have hplain : isCalpha d = false := hbefore
  have hlower : 0x6f ≠ CStr.tolower d ∧ 0x6e ≠ CStr.tolower d := by
    constructor <;> intro h
    · have halpha := isCalpha_of_tolower (c := d) (by rw [← h]; decide)
      rw [hplain] at halpha
      cases halpha
    · have halpha := isCalpha_of_tolower (c := d) (by rw [← h]; decide)
      rw [hplain] at halpha
      cases halpha
  obtain ⟨back, rfl⟩ : ∃ back : List UInt8, front = back.reverse :=
    ⟨_, (List.reverse_reverse front).symm⟩
  rw [hstep, isParam_append, List.reverse_reverse, CStr.beginsNoCase, CStr.beginsNoCase,
    hletters.1, hletters.2]
  simp only [List.mem_reverse] at hall
  -- by how much of the word stands before the parameter
  match back with
  | [] => simp [firstChar, hlower.1, hplain]
  | [x] =>
      have hx : isCalpha x = true := hall x (by simp)
      simp [firstChar, hlower.2, hx]
  | [x, y] =>
      have hx : isCalpha x = true := hall x (by simp)
      have hlong : (y :: x :: param != param) = true := by
        rw [bne_iff_ne]
        intro h
        have := congrArg List.length h
        rw [List.length_cons, List.length_cons] at this
        omega
      simp [firstChar, hx, hplain, hlong, and_comm]
  | x :: y :: z :: back =>
      have hx : isCalpha x = true := hall x (by simp)
      have hz : isCalpha z = true := hall z (by simp)
      simp [firstChar, hx, hz]

/-- The search passes a word, or stops in it. -/
theorem findParam_word (hparam : IsAlphaWord param) (hne : before ≠ [])
    (hbefore : isCalpha (firstChar before) = false) (hrest : rest.head?.any isCalpha = false)
    (front : List UInt8) (hall : ∀ c ∈ front ++ w, isCalpha c = true) :
    findParam param (front.reverse ++ before) (w ++ rest) =
      if isParam param (front ++ w) && decide (param.length ≤ w.length) then
        some (front ++ w != param, valueBehind rest)
      else findParam param ((front ++ w).reverse ++ before) rest := by
  have hpos := List.length_pos_iff.mpr hparam.1
  induction w generalizing front with
  | nil =>
      have hshort : decide (param.length ≤ ([] : List UInt8).length) = false := by
        simpa using hparam.1
      rw [hshort, Bool.and_false, if_neg Bool.false_ne_true, List.append_nil, List.nil_append]
  | cons c w ih =>
      have hmove : front ++ c :: w = front ++ [c] ++ w := by simp
      have hnext := ih (front ++ [c]) (hmove ▸ hall)
      rw [← hmove, List.reverse_concat, List.cons_append] at hnext
      have hw : ∀ d ∈ c :: w, isCalpha d = true := fun d hd => hall d (List.mem_append_right _ hd)
      by_cases heq : c :: w = param
      · have hfront : ∀ d ∈ front, isCalpha d = true := fun d hd =>
          hall d (List.mem_append_left _ hd)
        have hshort : decide (param.length ≤ w.length) = false := by
          rw [← heq]
          simp
        have hfound := findParam_found hparam hne hbefore hrest front hfront heq.symm
        rw [hnext, hshort, Bool.and_false, if_neg Bool.false_ne_true, ← heq] at hfound
        rw [← heq, hfound]
        simp
      · have hpass := (not_congr (found_iff hparam hw hrest)).mpr heq
        rw [Bool.not_eq_false] at hpass
        have hlen : isParam param (front ++ c :: w) = true →
            (param.length ≤ w.length ↔ param.length ≤ (c :: w).length) := by
          intro hparam'
          refine ⟨Nat.le_succ_of_le, fun hle => ?_⟩
          by_contra hgt
          have hsame : param.length = (c :: w).length := by
            rw [List.length_cons] at hle ⊢
            omega
          have hsuffix := List.suffix_of_suffix_length_le (suffix_of_isParam hparam')
            (List.suffix_append front (c :: w)) hsame.le
          exact heq (hsuffix.eq_of_length hsame).symm
        rw [List.cons_append, findParam, ← List.cons_append, if_pos hpass, hnext]
        cases hparam' : isParam param (front ++ c :: w) with
        | false => rw [Bool.false_and, Bool.false_and]
        | true => rw [Bool.true_and, Bool.true_and, decide_eq_decide.mpr (hlen hparam')]

/-- The search finds the first word that is taken for the parameter. -/
theorem findParam_eq (hparam : IsAlphaWord param) (s : List UInt8) (hne : before ≠ [])
    (hbefore : s.head?.any isCalpha = true → isCalpha (firstChar before) = false) :
    findParam param before s = ((words isCalpha s).find? fun r => isParam param r.1).map
      fun r => (r.1 != param, valueBehind r.2) := by
  induction s using words_induction (P := isCalpha) generalizing before with
  | nil => rfl
  | skip c l hc ih =>
      have hpre : param.isPrefixOf (c :: l) = false := by
        obtain ⟨d, tail, rfl⟩ := List.exists_cons_of_ne_nil hparam.1
        have hd := hparam.2 d List.mem_cons_self
        rw [List.isPrefixOf_cons_cons, Bool.and_eq_false_iff]
        refine .inl ?_
        rw [beq_eq_false_iff_ne]
        rintro rfl
        rw [hc] at hd
        cases hd
      rw [findParam, hpre, Bool.not_false, Bool.true_or, if_pos rfl, words_cons_of_neg hc]
      exact ih (List.cons_ne_nil _ _) fun _ => hc
  | word w rest hw hall hrest ih =>
      obtain ⟨c, tail, rfl⟩ := List.exists_cons_of_ne_nil hw
      have hword := findParam_word hparam hne (hbefore (hall c List.mem_cons_self)) hrest [] hall
      rw [List.reverse_nil, List.nil_append, List.nil_append] at hword
      rw [hword, words_append_of_all hw hall hrest, List.find?_cons]
      cases hfound : isParam param (c :: tail) with
      | true =>
          have hle := (suffix_of_isParam hfound).length_le
          rw [decide_eq_true hle, Bool.and_true, if_pos rfl]
          rfl
      | false =>
          rw [Bool.false_and, if_neg Bool.false_ne_true]
          refine ih (by simp) fun h => ?_
          rw [hrest] at h
          cases h

end

/-! ## What is read behind a word -/

/-- Whether what stands behind a name says that it is so. -/
def foundValue (value : Option (List UInt8)) : Bool :=
  match value.bind bfgStrtobool with
  | some (v, rest) => if isCalpha (firstChar rest) then true else v
  | none => true

theorem uriGetParamBool2_eq (uri param : List UInt8) : uriGetParamBool2 uri param =
    (uriFindParam uri param).map fun r => r.1 != foundValue r.2 := by
  rw [uriGetParamBool2]
  congr 1
  funext r
  obtain ⟨invert, value⟩ := r
  dsimp only
  rw [foundValue]
  rcases value.bind bfgStrtobool with _ | ⟨v, rest⟩
  · cases invert <;> rfl
  · cases invert <;> simp

section
variable {v tail : List UInt8}

theorem beginsNoCase_iff {k : Bool × String} (hk : k ∈ strtoboolKeywords) (s : List UInt8) :
    CStr.beginsNoCase (literal k.2) s = true ↔ literal k.2 <+: s.map CStr.tolower := by
  rw [CStr.beginsNoCase, keywordFacts.lower k hk, List.isPrefixOf_iff_prefix]

theorem equalNoCase_iff {k : Bool × String} (hk : k ∈ strtoboolKeywords) (s : List UInt8) :
    CStr.equalNoCase s (literal k.2) = true ↔ s.map CStr.tolower = literal k.2 := by
  rw [CStr.equalNoCase, keywordFacts.lower k hk, beq_iff_eq]

/-- What does not begin with a letter begins with no keyword but `0`. -/
theorem not_beginsNoCase {k : Bool × String} (hk : k ∈ strtoboolKeywords) (hne : k ≠ (false, "0"))
    {s : List UInt8} (hs : isCalpha (firstChar s) = false) :
    CStr.beginsNoCase (literal k.2) s = false := by
  obtain ⟨hnil, hletters⟩ := (keywordFacts.letters k hk).resolve_left hne
  obtain ⟨e, w, hcons⟩ := List.exists_cons_of_ne_nil hnil
  rw [← Bool.not_eq_true, beginsNoCase_iff hk, hcons]
  intro hpre
  cases s with
  | nil => exact absurd (List.prefix_nil.mp hpre) (List.cons_ne_nil _ _)
  | cons c s =>
      rw [List.map_cons, List.cons_prefix_cons] at hpre
      have halpha := isCalpha_of_tolower (c := c) (hpre.1 ▸ hletters e (by simp [hcons]))
      rw [show isCalpha c = false from hs] at halpha
      cases halpha

theorem foundValue_of_none {s : List UInt8}
    (H : (strtoboolKeywords.find? fun k => CStr.beginsNoCase (literal k.2) s) = none) :
    foundValue (some s) = true := by
  rw [foundValue, Option.bind_some, bfgStrtobool, H]
  cases strtolRest s <;> simp

theorem foundValue_of_some {s : List UInt8} {k : Bool × String}
    (H : (strtoboolKeywords.find? fun k => CStr.beginsNoCase (literal k.2) s) = some k) :
    foundValue (some s) = (isCalpha (firstChar (s.drop (literal k.2).length)) || k.1) := by
  rw [foundValue, Option.bind_some, bfgStrtobool, H]
  simp

/-- What begins with a zero is read as the keyword. -/
theorem foundValue_zero (s : List UInt8) :
    foundValue (some (0x30 :: s)) = isCalpha (firstChar s) := by
  have hsplit : strtoboolKeywords = strtoboolKeywords.take 6 ++
      (false, "0") :: strtoboolKeywords.drop 7 := rfl
  have hothers : ∀ k ∈ strtoboolKeywords.take 6, k ≠ (false, "0") := by decide
  have hzero : CStr.beginsNoCase (literal "0") (0x30 :: s) = true := by
    rw [beginsNoCase_iff (k := (false, "0")) (by decide)]
    rw [literal_zero]
    exact List.prefix_append [0x30] _
  have hfind : (strtoboolKeywords.find? fun k => CStr.beginsNoCase (literal k.2) (0x30 :: s)) =
      some (false, "0") := by
    rw [List.find?_eq_some_iff_append]
    refine ⟨hzero, _, _, hsplit, fun k hk => ?_⟩
    have hdigit : isCalpha (firstChar (0x30 :: s)) = false :=
      show isCalpha 0x30 = false by decide
    rw [not_beginsNoCase (List.mem_of_mem_take hk) (hothers k hk) hdigit]
    rfl
  rw [foundValue_of_some hfind, literal_zero]
  simp

theorem not_valueTrue_iff : ¬ ValueTrue v ↔
    ∃ k ∈ strtoboolKeywords, k.1 = false ∧ v.map CStr.tolower = literal k.2 := by
  rw [ValueTrue]
  push Not
  refine exists_congr fun k => and_congr_right fun hk => and_congr_right fun _ => ?_
  rw [Bool.ne_false_iff, equalNoCase_iff hk]

/-- A value that begins with a letter is no number. -/
theorem readValue_word (hv : IsAlphaWord v) : readValue v = decide (ValueTrue v) := by
  refine decide_eq_decide.mpr (and_iff_left ?_)
  rintro ⟨-, hzero, -⟩
  have := hv.2 0x30 (List.mem_of_mem_head? hzero)
  cases this

/-- A keyword at the beginning of a word is in the word. -/
theorem keyword_prefix (hv : IsAlphaWord v) (htail : isCalpha (firstChar tail) = false)
    {k : Bool × String} (hk : k ∈ strtoboolKeywords)
    (hbegins : CStr.beginsNoCase (literal k.2) (v ++ tail) = true) :
    literal k.2 <+: v.map CStr.tolower := by
  have hall := (beginsNoCase_iff hk _).mp hbegins
  rw [List.map_append] at hall
  rcases List.prefix_or_prefix_of_prefix hall (List.prefix_append _ _) with hin | ⟨more, hmore⟩
  · exact hin
  · cases more with
    | nil => exact ⟨[], by rw [← hmore, List.append_nil, List.append_nil]⟩
    | cons e more =>
        exfalso
        obtain ⟨c, w, rfl⟩ := List.exists_cons_of_ne_nil hv.1
        rw [← hmore, List.prefix_append_right_inj] at hall
        rcases keywordFacts.letters k hk with rfl | ⟨-, hletters⟩
        · rw [literal_zero] at hmore
          have := congrArg List.length hmore
          simp at this
        · cases tail with
          | nil => exact absurd (List.prefix_nil.mp hall) (List.cons_ne_nil _ _)
          | cons t tail =>
              rw [List.map_cons, List.cons_prefix_cons] at hall
              have halpha := isCalpha_of_tolower (c := t)
                (hall.1 ▸ hletters e (by simp [← hmore]))
              rw [show isCalpha t = false from htail] at halpha
              cases halpha

/-- The beginning of a word that is a keyword is not a keyword of its own. -/
theorem foundValue_word (hv : IsAlphaWord v) (htail : isCalpha (firstChar tail) = false) :
    foundValue (some (v ++ tail)) = readValue v := by
  have hmatches {k : Bool × String} (hk : k ∈ strtoboolKeywords)
      (hsame : v.map CStr.tolower = literal k.2) :
      CStr.beginsNoCase (literal k.2) (v ++ tail) = true := by
    rw [beginsNoCase_iff hk, List.map_append, hsame]
    exact List.prefix_append _ _
  rw [readValue_word hv]
  cases hfind : strtoboolKeywords.find? fun k => CStr.beginsNoCase (literal k.2) (v ++ tail) with
  | none =>
      rw [foundValue_of_none hfind, eq_comm, decide_eq_true_eq]
      by_contra hfalse
      obtain ⟨k, hk, -, hsame⟩ := not_valueTrue_iff.mp hfalse
      exact List.find?_eq_none.mp hfind k hk (hmatches hk hsame)
  | some k =>
      have hk := List.mem_of_find?_eq_some hfind
      obtain ⟨hbegins, earlier, later, hsplit, hearlier⟩ := List.find?_eq_some_iff_append.mp hfind
      have hpre := keyword_prefix hv htail hk hbegins
      rw [foundValue_of_some hfind]
      rcases hpre.length_le.lt_or_eq with hlt | heq
      · -- a keyword that the word goes on behind
        rw [List.length_map] at hlt
        have halpha : isCalpha (firstChar ((v ++ tail).drop (literal k.2).length)) = true := by
          rw [List.drop_append_of_le_length hlt.le, ← List.getElem_cons_drop hlt]
          exact hv.2 _ (List.getElem_mem hlt)
        rw [halpha, Bool.true_or, eq_comm, decide_eq_true_eq]
        by_contra hfalse
        obtain ⟨l, hl, -, hsame⟩ := not_valueTrue_iff.mp hfalse
        rw [hsame] at hpre
        have hpairs := keywordFacts.pairwise
        rw [hsplit] at hl hpairs
        rcases List.mem_append.mp hl with hearly | hlate
        · have := hearlier l hearly
          rw [hmatches (hsplit ▸ List.mem_append_left _ hearly) hsame] at this
          cases this
        · rcases List.mem_cons.mp hlate with rfl | hlate
          · have := congrArg List.length hsame
            rw [List.length_map] at this
            omega
          · exact (List.pairwise_cons.mp (List.pairwise_append.mp hpairs).2.1).1 l hlate hpre
      · have hsame := hpre.eq_of_length heq
        rw [List.length_map] at heq
        rw [heq, List.drop_left, htail, Bool.false_or]
        cases hval : k.1 with
        | true =>
            rw [eq_comm, decide_eq_true_eq]
            by_contra hfalse
            obtain ⟨l, hl, hlval, hl'⟩ := not_valueTrue_iff.mp hfalse
            rw [keywordFacts.ext k hk l hl (hsame.trans hl'), hlval] at hval
            cases hval
        | false =>
            rw [eq_comm, decide_eq_false_iff_not]
            exact not_valueTrue_iff.mpr ⟨k, hk, hval, hsame.symm⟩

theorem tolower_of_not_isCalpha {c : UInt8} (hc : isCalpha c = false) : CStr.tolower c = c := by
  rw [CStr.tolower, if_neg]
  intro hupper
  rw [isCalpha, hupper] at hc
  cases hc

theorem isCalpha_of_isDigit {c : UInt8} (hc : isDigit c = true) : isCalpha c = false := by
  rw [← Bool.not_eq_true]
  intro halpha
  rw [isDigit_of_isCalpha halpha] at hc
  cases hc

/-- A value that begins with a digit is no keyword but `0`. -/
theorem valueTrue_of_digit {c : UInt8} (hc : isDigit c = true) (hne : c :: v ≠ [0x30]) :
    ValueTrue (c :: v) := by
  by_contra hfalse
  obtain ⟨k, hk, -, hsame⟩ := not_valueTrue_iff.mp hfalse
  have halpha := isCalpha_of_isDigit hc
  rw [List.map_cons, tolower_of_not_isCalpha halpha] at hsame
  rcases keywordFacts.letters k hk with rfl | ⟨-, hletters⟩
  · rw [literal_zero, List.cons.injEq, List.map_eq_nil_iff] at hsame
    exact hne (by rw [hsame.1, hsame.2])
  · have hletter := hletters c (by simp [← hsame])
    rw [isCalpha, hletter, Bool.or_true] at halpha
    cases halpha

theorem foundValue_decimal {digits : List UInt8} (hne : digits ≠ [])
    (hall : digits.all isDigit = true) (htail : isCalpha (firstChar tail) = false) :
    foundValue (some (digits ++ tail)) = readValue digits := by
  obtain ⟨c, more, rfl⟩ := List.exists_cons_of_ne_nil hne
  have hc := List.all_eq_true.mp hall c List.mem_cons_self
  have halpha := isCalpha_of_isDigit hc
  by_cases hzero : c = 0x30
  · subst hzero
    have hend : isCalpha (firstChar (more ++ tail)) = false := by
      cases more with
      | nil => exact htail
      | cons d more => exact isCalpha_of_isDigit (List.all_eq_true.mp hall d (by simp))
    rw [List.cons_append, foundValue_zero, hend, eq_comm, readValue, decide_eq_false_iff_not]
    rintro ⟨htrue, hpadded⟩
    refine hpadded ⟨hall, rfl, ?_⟩
    rintro hsingle
    rw [hsingle] at htrue
    exact not_valueTrue_iff.mpr ⟨(false, "0"), by decide, rfl, by rw [literal_zero]; decide⟩ htrue
  · have hfind : (strtoboolKeywords.find? fun k =>
        CStr.beginsNoCase (literal k.2) (c :: more ++ tail)) = none := by
      rw [List.find?_eq_none]
      intro k hk
      by_cases hne' : k = (false, "0")
      · rw [beginsNoCase_iff hk, hne', literal_zero, List.cons_append, List.map_cons,
          tolower_of_not_isCalpha halpha]
        exact fun h => hzero (List.cons_prefix_cons.mp h).1.symm
      · have hbegin : isCalpha (firstChar (c :: more ++ tail)) = false := halpha
        rw [not_beginsNoCase hk hne' hbegin]
        exact Bool.false_ne_true
    rw [foundValue_of_none hfind, eq_comm, readValue, decide_eq_true_eq]
    refine ⟨valueTrue_of_digit hc fun h => hzero (List.cons.inj h).1, fun h => hzero ?_⟩
    exact Option.some.inj h.2.1

theorem foundValue_hex {mark : UInt8} (digits : List UInt8) (hmark : CStr.tolower mark = 0x78) :
    foundValue (some (0x30 :: mark :: digits ++ tail)) = readValue (0x30 :: mark :: digits) := by
  have halpha : isCalpha mark = true := isCalpha_of_tolower (by rw [hmark]; decide)
  have hdigit : isDigit mark = false := isDigit_of_isCalpha halpha
  rw [List.cons_append, foundValue_zero, eq_comm, readValue, show isCalpha (firstChar
    (mark :: digits ++ tail)) = true from halpha, decide_eq_true_eq]
  refine ⟨valueTrue_of_digit (by decide) (by simp), ?_⟩
  rintro ⟨hall, -⟩
  simp [hdigit] at hall

/-- **What is read of a value**, whatever stands behind it. -/
theorem foundValue_eq (hv : ParamValue v) (htail : isCalpha (firstChar tail) = false) :
    foundValue (some (v ++ tail)) = readValue v := by
  cases hv with
  | word _ alpha => exact foundValue_word alpha htail
  | decimal _ ne_nil all => exact foundValue_decimal ne_nil all htail
  | hex mark digits marked _ _ => exact foundValue_hex digits marked

end

/-! ## The words of a list and what is read behind them -/

/-- The words of a text, each with what is read behind it. -/
def readings (l : List UInt8) : List (List UInt8 × Bool) :=
  (words isCalpha l).map fun r => (r.1, foundValue (valueBehind r.2))

section
variable {v b param : List UInt8} {items : List ParamItem}

/-- What stands behind an item is the end, or a comma. -/
theorem firstChar_behindComma (items : List ParamItem) :
    firstChar (behindComma items) = 0 ∨ firstChar (behindComma items) = 0x2c := by
  cases items with
  | nil => exact .inl rfl
  | cons i items => exact .inr rfl

theorem isCalpha_behindComma (items : List ParamItem) :
    isCalpha (firstChar (behindComma items)) = false := by
  rcases firstChar_behindComma items with h | h <;> rw [h] <;> decide

theorem valueBehind_behindComma (items : List ParamItem) :
    valueBehind (behindComma items) = none := by
  rw [valueBehind, if_neg]
  rcases firstChar_behindComma items with h | h <;> rw [h] <;> decide

/-- A value has no `=` in it. -/
theorem notMem_value (hv : ParamValue v) : 0x3d ∉ v := by
  intro hmem
  cases hv with
  | word _ alpha => exact absurd (alpha.2 _ hmem) (by decide)
  | decimal _ ne_nil all => exact absurd (List.all_eq_true.mp all _ hmem) (by decide)
  | hex mark digits marked ne_nil all =>
      rcases List.mem_cons.mp hmem with hzero | hmem
      · exact absurd hzero (by decide)
      · rcases List.mem_cons.mp hmem with rfl | hmem
        · exact absurd marked (by decide)
        · exact absurd (all _ hmem) (by decide)

/-- The words of a value have nothing to read behind them. -/
theorem readings_value (hv : ParamValue v) (items : List ParamItem) :
    readings (v ++ behindComma items) =
      (words isCalpha v).map (fun r => (r.1, true)) ++ readings (behindComma items) := by
  rw [readings, words_append (firstChar_eq _ ▸ isCalpha_behindComma items), List.map_append,
    List.map_map, readings]
  congr 1
  refine List.map_congr_left fun r hr => ?_
  have hnone : valueBehind (r.2 ++ behindComma items) = none := by
    cases hrest : r.2 with
    | nil => exact valueBehind_behindComma items
    | cons c rest =>
        rw [valueBehind, if_neg]
        rintro (rfl : c = 0x3d)
        have hsuffix := suffix_of_mem_words hr
        rw [hrest] at hsuffix
        exact notMem_value hv (hsuffix.subset List.mem_cons_self)
  rw [Function.comp_apply, hnone, foundValue, Option.bind_none]

theorem ParamItem.isCalpha_of_mem_key (i : ParamItem) : ∀ c ∈ i.key, isCalpha c = true := by
  have hno : ∀ c ∈ literal "no", isCalpha c = true := by
    rw [literal_no, List.forall_mem_cons, List.forall_mem_singleton]
    decide
  intro c hc
  rw [key, List.mem_append] at hc
  rcases hc with hc | hc
  · split at hc
    next => exact hno c hc
    next => cases hc
  · exact i.alpha.2 c hc

theorem ParamItem.key_ne_nil (i : ParamItem) : i.key ≠ [] :=
  fun h => i.alpha.1 (List.append_eq_nil_iff.mp h).2

/-- The words of an item come before those behind it. -/
theorem readings_text (i : ParamItem) (items : List ParamItem) :
    readings (i.text ++ behindComma items) = i.readings ++ readings (behindComma items) := by
  have hkey := i.isCalpha_of_mem_key
  rw [ParamItem.text, List.append_assoc]
  cases hvalue : i.value with
  | none =>
      have hend : (behindComma items).head?.any isCalpha = false :=
        firstChar_eq _ ▸ isCalpha_behindComma items
      rw [Option.map_none, Option.getD_none, List.nil_append, readings,
        words_append_of_all i.key_ne_nil hkey hend, List.map_cons, valueBehind_behindComma]
      simp [ParamItem.readings, hvalue, readings, foundValue]
  | some v =>
      have hv := i.value_form v hvalue
      have hbehind : valueBehind (0x3d :: v ++ behindComma items) = some (v ++ behindComma items) :=
        rfl
      have hend : (0x3d :: v ++ behindComma items).head?.any isCalpha = false := rfl
      rw [Option.map_some, Option.getD_some, readings,
        words_append_of_all i.key_ne_nil hkey hend, List.map_cons, hbehind,
        foundValue_eq hv (isCalpha_behindComma items), List.cons_append,
        words_cons_of_neg (by decide), ← readings, readings_value hv, ParamItem.readings, hvalue]
      rfl

theorem readings_behindComma (items : List ParamItem) :
    readings (behindComma items) = items.flatMap ParamItem.readings := by
  induction items with
  | nil => rfl
  | cons i items ih =>
      rw [behindComma, readings, words_cons_of_neg (by decide), ← readings, readings_text, ih,
        List.flatMap_cons]

/-- **The words of a list** are those of its items. -/
theorem readings_paramText (items : List ParamItem) :
    readings (paramText items) = items.flatMap ParamItem.readings := by
  cases items with
  | nil => rfl
  | cons i items =>
      rw [paramText, readings_text, readings_behindComma, List.flatMap_cons]

/-- The parameter is read of the first word that is taken for it. -/
theorem uriGetParamBool2_uri (u : ParamUri) (hparam : IsAlphaWord param) :
    uriGetParamBool2 u.uri.bytes param =
      ((u.items.flatMap ParamItem.readings).find? fun r => isParam param r.1).map
        fun r => (r.1 != param) != r.2 := by
  have hstart : memchr 0x23 u.uri.bytes 0 = some u.before.length :=
    memchr_append_cons (Nat.zero_le _) u.no_hash _
  have hfragment : u.uri.bytes.drop (u.before.length + 1) = paramText u.items := by
    rw [← List.drop_drop]
    exact congrArg (List.drop 1) List.drop_left
  rw [uriGetParamBool2_eq, uriFindParam, hstart, Option.bind_some, hfragment,
    findParam_eq hparam _ (List.cons_ne_nil _ _) fun _ => by decide, Option.map_map,
    ← readings_paramText, readings, List.find?_map, Option.map_map]
  rfl

/-! ## When the first item decides -/

/-- The item has a word that is taken for the parameter. -/
def ParamItem.HasWord (i : ParamItem) (param : List UInt8) : Prop :=
  ∃ r ∈ i.readings, isParam param r.1 = true

/-- No word is mistaken for the parameter before its first item, or one is and the answer is the
same. -/
inductive ParamUri.Unmistaken (u : ParamUri) (param : List UInt8) : Prop
  | absent (none_named : ∀ i ∈ u.items, i.name ≠ param ∧ ¬ i.HasWord param)
  | first (before behind : List ParamItem) (i : ParamItem) (split : u.items = before ++ i :: behind)
      (named : i.name = param) (none_before : ∀ j ∈ before, j.name ≠ param ∧ ¬ j.HasWord param)
      (unpadded : ∀ v, i.value = some v → ¬ ZeroPadded v)
  | same (before behind : List ParamItem) (i : ParamItem) (split : u.items = before ++ i :: behind)
      (named : i.name = param) (none_before : ∀ j ∈ before, j.name ≠ param)
      (word : List UInt8) (value : Bool)
      (mistaken : ((before.flatMap ParamItem.readings).find? fun r => isParam param r.1) =
        some (word, value))
      (agrees : ((word != param) != value) = i.answer)

theorem decidesFirst_iff_eq (u : ParamUri) (param : String) : u.DecidesFirst param ↔
    uriGetParamBool2 u.uri.bytes (literal param) =
      (u.items.find? fun i => i.name == literal param).map ParamItem.answer := by
  rw [ParamUri.DecidesFirst]
  constructor
  · intro H
    have hfalse := H false
    have htrue := H true
    rw [uriGetParamBool] at hfalse htrue
    revert hfalse htrue
    generalize uriGetParamBool2 u.uri.bytes (literal param) = found
    generalize (u.items.find? fun i => i.name == literal param).map ParamItem.answer = named
    rcases found with _ | _ | _ <;> rcases named with _ | _ | _ <;> decide
  · intro H defval
    rw [uriGetParamBool, H]

/-- A key with the name is taken for the parameter. -/
theorem isParam_key {i : ParamItem} (hname : i.name = param) : isParam param i.key = true ∧
    (i.key != param) = i.inverted := by
  rw [ParamItem.key, hname]
  cases i.inverted with
  | false => simp [isParam]
  | true =>
      have hno : literal "no" ≠ [] ∧ (literal "no").length = 2 ∧
          CStr.beginsNoCase (literal "no") (literal "no") = true := by
        rw [literal_no]
        decide
      rw [if_pos rfl, isParam_append, hno.2.1, hno.2.2, bne_iff_ne]
      exact ⟨by simp, fun h => hno.1 (List.append_left_eq_self.mp h)⟩

/-- The first item is read, if no word is taken for the parameter before it. -/
theorem find_readings {i : ParamItem} {before behind : List ParamItem} (hname : i.name = param)
    (hbefore : ((before.flatMap ParamItem.readings).find? fun r => isParam param r.1) = none) :
    (((before ++ i :: behind).flatMap ParamItem.readings).find? fun r => isParam param r.1) =
      some (i.key, (i.value.map readValue).getD true) := by
  rw [List.flatMap_append, List.find?_append, hbefore, Option.none_or, List.flatMap_cons,
    ParamItem.readings, List.cons_append, List.find?_cons, (isParam_key hname).1]

/-- Only a number with a zero before it is read wrongly. -/
theorem readValue_eq_iff (v : List UInt8) :
    readValue v = decide (ValueTrue v) ↔ ¬ ZeroPadded v := by
  rw [readValue, decide_eq_decide, and_iff_left_iff_imp]
  constructor
  · intro H hpadded
    obtain ⟨hall, hfirst, hne⟩ := hpadded
    obtain ⟨digits, rfl⟩ := List.head?_eq_some_iff.mp hfirst
    exact H (valueTrue_of_digit (by decide) hne) ⟨hall, hfirst, hne⟩
  · exact fun H _ => H

theorem read_eq_answer_iff (i : ParamItem) :
    (i.inverted != (i.value.map readValue).getD true) = i.answer ↔
      ∀ v, i.value = some v → ¬ ZeroPadded v := by
  rw [ParamItem.answer]
  cases hvalue : i.value with
  | none => simp
  | some v =>
      have hcancel (b c d : Bool) : (b != c) = (b != d) ↔ c = d := by
        revert b c d
        decide
      rw [Option.map_some, Option.getD_some, Option.map_some, Option.getD_some, hcancel,
        readValue_eq_iff]
      exact ⟨fun h w hw => Option.some.inj hw ▸ h, fun h => h v rfl⟩

theorem find_readings_eq_none {before : List ParamItem} :
    ((before.flatMap ParamItem.readings).find? fun r => isParam param r.1) = none ↔
      ∀ j ∈ before, ¬ j.HasWord param := by
  simp only [List.find?_eq_none, List.mem_flatMap, ParamItem.HasWord]
  constructor
  · rintro H j hj ⟨r, hr, hparam⟩
    exact H r ⟨j, hj, hr⟩ hparam
  · rintro H r ⟨j, hj, hr⟩ hparam
    exact H j hj ⟨r, hr, hparam⟩

theorem find_named {i : ParamItem} {before behind : List ParamItem} (hname : i.name = param)
    (hbefore : ∀ j ∈ before, j.name ≠ param) :
    ((before ++ i :: behind).find? fun j => j.name == param) = some i := by
  refine List.find?_eq_some_iff_append.mpr ⟨beq_iff_eq.mpr hname, before, behind, rfl, ?_⟩
  exact fun j hj => by simpa using hbefore j hj

end

/-- **When the first parameter of a name decides**: no word, neither the name nor the value of an
item, is mistaken for it before, and its value is not a number with a zero before it; or the
mistake has the same answer. -/
theorem decidesFirst_iff (u : ParamUri) (param : String) (hparam : IsAlphaWord (literal param)) :
    u.DecidesFirst param ↔ u.Unmistaken (literal param) := by
  rw [decidesFirst_iff_eq, uriGetParamBool2_uri u hparam]
  constructor
  · intro H
    cases hnamed : u.items.find? fun i => i.name == literal param with
    | none =>
        rw [hnamed, Option.map_none, Option.map_eq_none_iff, find_readings_eq_none] at H
        refine .absent fun i hi => ⟨?_, H i hi⟩
        simpa using List.find?_eq_none.mp hnamed i hi
    | some i =>
        rw [hnamed] at H
        obtain ⟨hname, before, behind, hsplit, hbefore⟩ := List.find?_eq_some_iff_append.mp hnamed
        have hname := beq_iff_eq.mp hname
        have hnone : ∀ j ∈ before, j.name ≠ literal param := by simpa using hbefore
        cases hfirst : (before.flatMap ParamItem.readings).find? fun r =>
            isParam (literal param) r.1 with
        | none =>
            rw [hsplit, find_readings hname hfirst, Option.map_some, Option.map_some,
              Option.some.injEq, (isParam_key hname).2, read_eq_answer_iff] at H
            exact .first before behind i hsplit hname
              (fun j hj => ⟨hnone j hj, find_readings_eq_none.mp hfirst j hj⟩) H
        | some r =>
            rw [hsplit, List.flatMap_append, List.find?_append, hfirst] at H
            exact .same before behind i hsplit hname hnone r.1 r.2 hfirst (Option.some.inj H)
  · intro H
    cases H with
    | absent none_named =>
        rw [find_readings_eq_none.mpr fun i hi => (none_named i hi).2,
          List.find?_eq_none.mpr fun i hi => by simpa using (none_named i hi).1]
        rfl
    | first before behind i split named none_before unpadded =>
        have hnone := find_readings_eq_none.mpr fun j hj => (none_before j hj).2
        rw [split, find_readings named hnone, find_named named fun j hj => (none_before j hj).1,
          Option.map_some, Option.map_some, (isParam_key named).2,
          (read_eq_answer_iff i).mpr unpadded]
    | same before behind i split named none_before word value mistaken agrees =>
        rw [split, find_named named none_before, List.flatMap_append, List.find?_append, mistaken]
        exact congrArg some agrees

/-- `#redirect` with no value. -/
def redirectItem : ParamItem where
  inverted := false
  name := literal "redirect"
  value := none
  alpha := by decide +kernel
  not_no := by decide +kernel
  value_form := fun _ h => by cases h

theorem decidesFirst_redirect :
    ParamUri.DecidesFirst ⟨literal "stratum:", [redirectItem], by decide +kernel,
      by decide +kernel⟩ "redirect" :=
  (decidesFirst_iff _ "redirect" (by decide +kernel)).mpr
    (.first [] [] redirectItem rfl rfl (fun j hj => by cases hj) fun v hv => by cases hv)

/-- `#goal=redirect`, which has no item that is named `redirect`. -/
def goalItem : ParamItem where
  inverted := false
  name := literal "goal"
  value := some (literal "redirect")
  alpha := by decide +kernel
  not_no := by decide +kernel
  value_form := fun _ h => Option.some.inj h ▸ .word _ (by decide +kernel)

theorem not_decidesFirst_goal : ¬ ParamUri.DecidesFirst
    ⟨literal "stratum:", [goalItem], by decide +kernel, by decide +kernel⟩ "redirect" := by
  intro H
  have hfalse := H false
  revert hfalse
  decide +kernel

end MassGridMiner

import MassGridMiner.Api.Commands
import MassGridMiner.Lib.StringBuffer

/-!
# The parts of a pool

A pool is added by a text of three or four parts with commas between them.  The parts are copied
into one buffer, which is as long as the text with its terminator, each with a terminator of its
own.  There are four of these, though only two commas need to be there.

## Main definitions

* `copyadvanceafterIn`, `pooldetailsIn` — the source's functions, with the buffer.
* `PlainTriple` — the texts that do not fit.
* `joinDetails` — the parts with their commas.
* `detailsRight_iff` — when the parts are read, and no byte is written outside.
-/

namespace MassGridMiner

/-- `copyadvanceafter`: what is left, the buffer and the place behind what was written; or none
where it writes outside the buffer. -/
def copyadvanceafterIn {n : ℕ} (ch : UInt8) :
    List UInt8 → Bytes n → ℕ → Option (List UInt8 × Bytes n × ℕ)
  | 0x5c :: c :: src, buf, dst =>
    (buf.write dst [c]).bind fun buf => copyadvanceafterIn ch src buf (dst + 1)
  | c :: src, buf, dst =>
    if c = ch then (buf.write dst [0]).map fun buf => (src, buf, dst + 1)
    else (buf.write dst [c]).bind fun buf => copyadvanceafterIn ch src buf (dst + 1)
  | [], buf, dst => (buf.write dst [0]).map fun buf => ([], buf, dst + 1)

/-- The buffer of `pooldetails` and where the parts start in it; `goalname` may be left as it
was. -/
structure DetailsIn (n : ℕ) where
  buf : Bytes n
  url : ℕ
  user : ℕ
  pass : ℕ
  goalname : Option ℕ

/-- `pooldetails`, in a buffer of `strlen(param) + 1` bytes with whatever is in it: the parts if
there are enough of them; or none where it writes outside the buffer. -/
def pooldetailsIn (param : CStr) (buf : Bytes (param.length + 1)) :
    Option (Option (DetailsIn (param.length + 1))) :=
  match copyadvanceafterIn comma param.bytes buf 0 with
  | none => none
  | some ([], _, _) => some none
  | some (param, buf, user) =>
    match copyadvanceafterIn comma param buf user with
    | none => none
    | some ([], _, _) => some none
    | some (param, buf, pass) =>
      match copyadvanceafterIn comma param buf pass with
      | none => none
      | some (param, buf, goalname) =>
        (copyadvanceafterIn comma param buf goalname).map fun (_, buf, _) =>
          some ⟨buf, 0, user, pass, if param = [] then none else some goalname⟩

/-! ## The buffer -/

section
variable {n : ℕ} {ch : UInt8} {src : List UInt8} {s : List UInt8}

/-- If there is room, `out` and a terminator come behind `s`, and the next place is behind them. -/
def Copied (s out rest : List UInt8) (res : Option (List UInt8 × Bytes n × ℕ)) : Prop :=
  if (s ++ out ++ [0]).length ≤ n then
    ∃ buf, res = some (rest, buf, (s ++ out ++ [0]).length) ∧ s ++ out ++ [0] <+: buf.toList
  else res = none

theorem copied_terminator {buf : Bytes n} (H : s <+: buf.toList) (rest : List UInt8) :
    Copied s [] rest ((buf.write s.length [0]).map fun buf => (rest, buf, s.length + 1)) := by
  have hlen : (s ++ [0]).length = s.length + 1 := by
    rw [List.length_append, List.length_singleton]
  rw [Copied, List.append_nil, hlen]
  split
  next hroom =>
    obtain ⟨buf', hbuf, hpre⟩ := Bytes.write_of_prefix H (t := [0]) hroom
    exact ⟨buf', by rw [hbuf, Option.map_some], hpre⟩
  next hroom =>
    have hnone : buf.write s.length [0] = none := by
      refine Bytes.write_eq_none ?_
      rw [List.length_singleton]
      omega
    rw [hnone, Option.map_none]

/-- A character comes before what is copied then. -/
theorem copied_cons {buf : Bytes n} (H : s <+: buf.toList) (c : UInt8) {out rest : List UInt8}
    (ih : ∀ buf : Bytes n, s ++ [c] <+: buf.toList →
      Copied (s ++ [c]) out rest (copyadvanceafterIn ch src buf (s ++ [c]).length)) :
    Copied s (c :: out) rest ((buf.write s.length [c]).bind fun buf =>
      copyadvanceafterIn ch src buf (s.length + 1)) := by
  have hlen : (s ++ [c]).length = s.length + 1 := by
    rw [List.length_append, List.length_singleton]
  have hsplit : s ++ [c] ++ out ++ [0] = s ++ c :: out ++ [0] := by simp
  by_cases hroom : s.length + 1 ≤ n
  · obtain ⟨buf', hbuf, hpre⟩ := Bytes.write_of_prefix H (t := [c]) hroom
    have hcopied := ih buf' hpre
    rw [Copied, hsplit, hlen] at hcopied
    rw [hbuf, Option.bind_some]
    exact hcopied
  · have hnone : buf.write s.length [c] = none := by
      refine Bytes.write_eq_none ?_
      rw [List.length_singleton]
      omega
    rw [Copied, hnone, Option.bind_none, if_neg]
    rw [← hsplit, List.length_append, List.length_append, hlen]
    omega

/-- What is copied comes behind what was there before, if there is room for it. -/
theorem copyadvanceafterIn_spec (ch : UInt8) (src : List UInt8) {buf : Bytes n}
    (H : s <+: buf.toList) :
    Copied s (copyadvanceafter ch src).1 (copyadvanceafter ch src).2
      (copyadvanceafterIn ch src buf s.length) := by
  induction src using copyadvanceafter.induct ch generalizing s buf with
  | case1 c src ih => exact copied_cons H c fun buf hpre => ih hpre
  | case2 src hne =>
      rw [copyadvanceafterIn.eq_2 _ _ _ _ _ hne, if_pos rfl, copyadvanceafter.eq_2 _ _ _ hne,
        if_pos rfl]
      exact copied_terminator H src
  | case3 c src hne hc ih =>
      rw [copyadvanceafterIn.eq_2 _ _ _ _ _ hne, if_neg hc, copyadvanceafter.eq_2 _ _ _ hne,
        if_neg hc]
      exact copied_cons H c fun buf hpre => ih hpre
  | case4 => exact copied_terminator H []

end

/-! ## What is copied -/

section
variable {ch : UInt8} {src s t : List UInt8}

/-- Neither the separator nor a backslash. -/
def PlainDetail (ch : UInt8) (s : List UInt8) : Prop := ch ∉ s ∧ 0x5c ∉ s

/-- What is copied and what is left are found in the text. -/
theorem sublist_copyadvanceafter (ch : UInt8) (src : List UInt8) :
    List.Sublist ((copyadvanceafter ch src).1 ++ (copyadvanceafter ch src).2) src := by
  induction src using copyadvanceafter.induct ch with
  | case1 c src ih => exact (ih.cons_cons c).cons 0x5c
  | case2 src hne =>
      rw [copyadvanceafter.eq_2 _ _ _ hne, if_pos rfl]
      exact List.sublist_cons_self ch src
  | case3 c src hne hc ih =>
      rw [copyadvanceafter.eq_2 _ _ _ hne, if_neg hc]
      exact ih.cons_cons c
  | case4 => exact List.Sublist.refl []

/-- What is copied of a text: all of it; what comes before the separator; or less than that, for
there is a backslash that is not copied. -/
theorem copyadvanceafter_cases (ch : UInt8) (src : List UInt8) :
    ch ∉ src ∧ 0x5c ∉ src.dropLast ∧ copyadvanceafter ch src = (src, []) ∨
    (∃ s t, src = s ++ ch :: t ∧ PlainDetail ch s ∧ copyadvanceafter ch src = (s, t)) ∨
    (copyadvanceafter ch src).1.length + (copyadvanceafter ch src).2.length +
      (if (copyadvanceafter ch src).2 = [] then 1 else 2) ≤ src.length := by
  induction src using copyadvanceafter.induct ch with
  | case1 c src ih =>
      refine .inr (.inr ?_)
      have hroom : (copyadvanceafter ch src).1.length + (copyadvanceafter ch src).2.length +
          (if (copyadvanceafter ch src).2 = [] then 0 else 1) ≤ src.length := by
        obtain ⟨-, -, heq⟩ | ⟨s, t, hsrc, -, heq⟩ | hlen := ih
        · rw [heq, if_pos rfl]
          exact le_refl src.length
        · rw [heq, hsrc, List.length_append, List.length_cons]
          dsimp only
          split <;> omega
        · by_cases hrest : (copyadvanceafter ch src).2 = []
          · rw [if_pos hrest] at hlen ⊢
            omega
          · rw [if_neg hrest] at hlen ⊢
            omega
      rw [copyadvanceafter]
      simp only [Prod.map_fst, Prod.map_snd, id_eq, List.length_cons]
      by_cases hrest : (copyadvanceafter ch src).2 = []
      · rw [if_pos hrest] at hroom ⊢
        omega
      · rw [if_neg hrest] at hroom ⊢
        omega
  | case2 src hne =>
      refine .inr (.inl ⟨[], src, rfl, ⟨List.not_mem_nil, List.not_mem_nil⟩, ?_⟩)
      rw [copyadvanceafter.eq_2 _ _ _ hne, if_pos rfl]
  | case3 c src hne hc ih =>
      have hstep : copyadvanceafter ch (c :: src) = (copyadvanceafter ch src).map (c :: ·) id := by
        rw [copyadvanceafter.eq_2 _ _ _ hne, if_neg hc]
      -- a backslash is not copied if anything comes behind it
      have hback : src ≠ [] → c ≠ 0x5c := by
        intro hsrc hc5c
        obtain ⟨d, rest, rfl⟩ := List.exists_cons_of_ne_nil hsrc
        exact hne d rest hc5c rfl
      rw [hstep]
      obtain ⟨hnot, hlast, heq⟩ | ⟨s, t, hsrc, hplain, heq⟩ | hlen := ih
      · refine .inl ⟨?_, ?_, by rw [heq]; rfl⟩
        · rw [List.mem_cons, not_or]
          exact ⟨Ne.symm hc, hnot⟩
        · cases src with
          | nil => exact List.not_mem_nil
          | cons d rest =>
              rw [List.dropLast_cons_cons, List.mem_cons, not_or]
              exact ⟨(hback (List.cons_ne_nil d rest)).symm, hlast⟩
      · have hsome : src ≠ [] := by
          rw [hsrc]
          exact List.append_ne_nil_of_right_ne_nil s (List.cons_ne_nil ch t)
        refine .inr (.inl ⟨c :: s, t, by rw [hsrc]; rfl, ⟨?_, ?_⟩, by rw [heq]; rfl⟩)
        · rw [List.mem_cons, not_or]
          exact ⟨Ne.symm hc, hplain.1⟩
        · rw [List.mem_cons, not_or]
          exact ⟨(hback hsome).symm, hplain.2⟩
      · refine .inr (.inr ?_)
        simp only [Prod.map_fst, Prod.map_snd, id_eq, List.length_cons]
        omega
  | case4 => exact .inl ⟨List.not_mem_nil, List.not_mem_nil, rfl⟩

theorem copyadvanceafter_cons {c : UInt8} (hc : c ≠ ch)
    (hback : c = 0x5c → src = []) :
    copyadvanceafter ch (c :: src) = (copyadvanceafter ch src).map (c :: ·) id := by
  have hne : ∀ d rest, c = 0x5c → src = d :: rest → False := by
    rintro d rest hc5c rfl
    cases hback hc5c
  rw [copyadvanceafter.eq_2 _ _ _ hne, if_neg hc]

theorem copyadvanceafter_plain (hch : ch ≠ 0x5c) (hs : PlainDetail ch s) (t : List UInt8) :
    copyadvanceafter ch (s ++ ch :: t) = (s, t) := by
  obtain ⟨hnot, hback⟩ := hs
  induction s with
  | nil =>
      rw [List.nil_append, copyadvanceafter.eq_2 _ _ _ fun _ _ h _ => hch h, if_pos rfl]
  | cons c s ih =>
      rw [List.mem_cons, not_or] at hnot hback
      rw [List.cons_append, copyadvanceafter_cons (Ne.symm hnot.1) fun h => absurd h.symm hback.1,
        ih hnot.2 hback.2]
      rfl

theorem copyadvanceafter_last (hnot : ch ∉ s) (hlast : 0x5c ∉ s.dropLast) :
    copyadvanceafter ch s = (s, []) := by
  induction s with
  | nil => rfl
  | cons c s ih =>
      rw [List.mem_cons, not_or] at hnot
      cases s with
      | nil =>
          rw [copyadvanceafter_cons (Ne.symm hnot.1) fun _ => rfl]
          rfl
      | cons d rest =>
          rw [List.dropLast_cons_cons, List.mem_cons, not_or] at hlast
          rw [copyadvanceafter_cons (Ne.symm hnot.1) fun h => absurd h.symm hlast.1,
            ih hnot.2 hlast.2]
          rfl

end

/-! ## The buffer of the parts -/

/-- The parts that were found start at the places that are returned. -/
structure Locates {n : ℕ} (d : DetailsIn n) (url user pass : List UInt8)
    (goal : Option (List UInt8)) : Prop where
  url : (d.buf.cstrAt d.url).bytes = url
  user : (d.buf.cstrAt d.user).bytes = user
  pass : (d.buf.cstrAt d.pass).bytes = pass
  goalname : (d.goalname.map fun i => (d.buf.cstrAt i).bytes) = goal

/-- The bytes that four parts take with their terminators, where the last may be empty. -/
def partsRoom (url user pass : List UInt8) (goal : Option (List UInt8)) : ℕ :=
  url.length + user.length + pass.length + (goal.getD []).length + 4

theorem length_copyadvanceafter (ch : UInt8) (src : List UInt8) :
    (copyadvanceafter ch src).1.length + (copyadvanceafter ch src).2.length +
      (if (copyadvanceafter ch src).2 = [] then 0 else 1) ≤ src.length := by
  obtain ⟨-, -, heq⟩ | ⟨s, t, hsrc, -, heq⟩ | hlen := copyadvanceafter_cases ch src
  · rw [heq, if_pos rfl]
    exact le_refl src.length
  · rw [heq, hsrc, List.length_append, List.length_cons]
    dsimp only
    split <;> omega
  · split <;> split at hlen <;> omega

/-- What is copied of a string has no terminator in it, and neither has what is left. -/
theorem nul_free_copyadvanceafter {src : List UInt8} (H : 0 ∉ src) :
    0 ∉ (copyadvanceafter comma src).1 ∧ 0 ∉ (copyadvanceafter comma src).2 := by
  have hsub := sublist_copyadvanceafter comma src
  exact ⟨fun h => H (hsub.subset (List.mem_append_left _ h)),
    fun h => H (hsub.subset (List.mem_append_right _ h))⟩

/-- The four parts one behind the other, and where each of them starts. -/
theorem locates_of_prefix {n : ℕ} {buf : Bytes n} {url user pass goal : List UInt8}
    (hurl : 0 ∉ url) (huser : 0 ∉ user) (hpass : 0 ∉ pass) (hgoal : 0 ∉ goal)
    (H : url ++ [0] ++ user ++ [0] ++ pass ++ [0] ++ goal ++ [0] <+: buf.toList) (given : Bool) :
    Locates ⟨buf, 0, (url ++ [0]).length, (url ++ [0] ++ user ++ [0]).length,
        if given then some (url ++ [0] ++ user ++ [0] ++ pass ++ [0]).length else none⟩
      url user pass (if given then some goal else none) where
  url := by
    have hholds : buf.Holds url := List.IsPrefix.trans ⟨_, by simp; rfl⟩ H
    exact hholds.cstrAt_zero hurl
  user := by
    have hholds : buf.Holds (url ++ [0] ++ user) := List.IsPrefix.trans ⟨_, by simp; rfl⟩ H
    exact hholds.cstrAt huser
  pass := by
    have hholds : buf.Holds (url ++ [0] ++ user ++ [0] ++ pass) :=
      List.IsPrefix.trans ⟨_, by simp; rfl⟩ H
    exact hholds.cstrAt hpass
  goalname := by
    have hholds : buf.Holds (url ++ [0] ++ user ++ [0] ++ pass ++ [0] ++ goal) := H
    cases given with
    | true => exact congrArg some (hholds.cstrAt hgoal)
    | false => rfl

/-- Without enough parts the buffer is long enough, and with them if there is room for four. -/
theorem pooldetailsIn_spec (param : CStr) (buf : Bytes (param.length + 1)) :
    match pooldetails param.bytes with
    | none => pooldetailsIn param buf = some none
    | some (url, user, pass, goal) =>
      if partsRoom url user pass goal ≤ param.length + 1 then
        ∃ d, pooldetailsIn param buf = some (some d) ∧ Locates d url user pass goal
      else pooldetailsIn param buf = none := by
  have hnil : ([] : List UInt8) <+: buf.toList := List.nil_prefix
  have hcopy := copyadvanceafterIn_spec comma param.bytes hnil
  have hlen := length_copyadvanceafter comma param.bytes
  have hnul := nul_free_copyadvanceafter param.nul_free
  have hlength : param.bytes.length = param.length := rfl
  rw [pooldetails, pooldetailsIn]
  generalize copyadvanceafter comma param.bytes = p at *
  obtain ⟨url, rest⟩ := p
  dsimp only at *
  rw [Copied, List.nil_append, List.length_nil, if_pos (by simp; omega)] at hcopy
  obtain ⟨buf1, hurl, hpre⟩ := hcopy
  rw [hurl]
  cases rest with
  | nil => rw [if_pos rfl]
  | cons c rest =>
      rw [if_neg (List.cons_ne_nil c rest)] at hlen ⊢
      have hcopy := copyadvanceafterIn_spec comma (c :: rest) hpre
      have hlen' := length_copyadvanceafter comma (c :: rest)
      have hnul' := nul_free_copyadvanceafter hnul.2
      dsimp only
      generalize copyadvanceafter comma (c :: rest) = p at *
      obtain ⟨user, rest'⟩ := p
      dsimp only at *
      rw [Copied, if_pos (by simp at hlen hlen' ⊢; omega)] at hcopy
      obtain ⟨buf2, huser, hpre⟩ := hcopy
      rw [huser]
      cases rest' with
      | nil => rw [if_pos rfl]
      | cons c' rest' =>
          rw [if_neg (List.cons_ne_nil c' rest')] at hlen' ⊢
          have hcopy := copyadvanceafterIn_spec comma (c' :: rest') hpre
          have hlen3 := length_copyadvanceafter comma (c' :: rest')
          have hnul3 := nul_free_copyadvanceafter hnul'.2
          dsimp only
          generalize copyadvanceafter comma (c' :: rest') = p at *
          obtain ⟨pass, rest3⟩ := p
          dsimp only at *
          rw [Copied, if_pos (by simp at hlen hlen' hlen3 ⊢; omega)] at hcopy
          obtain ⟨buf3, hpass, hpre⟩ := hcopy
          rw [hpass]
          have hcopy := copyadvanceafterIn_spec comma rest3 hpre
          have hnul4 := (nul_free_copyadvanceafter hnul3.2).1
          have hgiven : ∀ {β : Type} (x : β), (if rest3 = [] then none else some x) =
              if decide (rest3 ≠ []) = true then some x else none := by
            intro β x
            by_cases hrest : rest3 = []
            · simp [hrest]
            · simp [hrest]
          have hroom : partsRoom url user pass
              (if rest3 = [] then none else some (copyadvanceafter comma rest3).1) =
              (url ++ [0] ++ user ++ [0] ++ pass ++ [0] ++ (copyadvanceafter comma rest3).1 ++
                [0]).length := by
            by_cases hrest : rest3 = []
            · subst hrest
              simp [partsRoom, copyadvanceafter]
              omega
            · simp [partsRoom, hrest]
              omega
          rw [Copied] at hcopy
          rw [hroom]
          simp only [hgiven]
          split
          next hfits =>
            rw [if_pos hfits] at hcopy
            obtain ⟨buf4, hgoalname, hpre⟩ := hcopy
            rw [hgoalname]
            exact ⟨_, rfl, locates_of_prefix hnul.1 hnul'.1 hnul3.1 hnul4 hpre _⟩
          next hfits =>
            rw [if_neg hfits] at hcopy
            rw [hcopy]
            rfl

/-! ## The texts that do not fit -/

/-- Three parts with two commas between them, none of them escaped: there is no backslash but
possibly at the very end, and there the last part is not empty. -/
def PlainTriple (param : List UInt8) : Prop :=
  ∃ url user pass, param = url ++ comma :: (user ++ comma :: pass) ∧ PlainDetail comma url ∧
    PlainDetail comma user ∧ comma ∉ pass ∧ 0x5c ∉ pass.dropLast ∧ pass ≠ []

/-- Such a text is taken apart, and there is no room for the fourth terminator. -/
theorem PlainTriple.partsRoom {param : List UInt8} (H : PlainTriple param) :
    ∃ url user pass, pooldetails param = some (url, user, pass, none) ∧
      partsRoom url user pass none = param.length + 2 := by
  obtain ⟨url, user, pass, rfl, hurl, huser, hpass, hlast, hne⟩ := H
  refine ⟨url, user, pass, ?_, ?_⟩
  · rw [pooldetails, copyadvanceafter_plain (by decide) hurl]
    dsimp only
    rw [if_neg (List.append_ne_nil_of_right_ne_nil user (List.cons_ne_nil comma pass)),
      copyadvanceafter_plain (by decide) huser]
    dsimp only
    rw [if_neg hne, copyadvanceafter_last hpass hlast]
    rfl
  · simp [MassGridMiner.partsRoom]
    omega

/-- Where something is left, the separator was found, and no backslash passed over or one. -/
theorem copyadvanceafter_cases_of_ne_nil {ch : UInt8} {src out rest : List UInt8}
    (H : copyadvanceafter ch src = (out, rest)) (hrest : rest ≠ []) :
    src = out ++ ch :: rest ∧ PlainDetail ch out ∨ out.length + rest.length + 2 ≤ src.length := by
  have hcases := copyadvanceafter_cases ch src
  rw [H] at hcases
  obtain ⟨-, -, heq⟩ | ⟨s, t, hsrc, hplain, heq⟩ | hlen := hcases
  · exact absurd (congrArg Prod.snd heq) hrest
  · obtain ⟨rfl, rfl⟩ := Prod.mk.inj heq
    exact .inl ⟨hsrc, hplain⟩
  · rw [if_neg hrest] at hlen
    exact .inr hlen

/-- Any other text that is taken apart has a third comma or a backslash that is not copied. -/
theorem partsRoom_le {param url user pass : List UInt8} {goal : Option (List UInt8)}
    (H : pooldetails param = some (url, user, pass, goal)) (hplain : ¬ PlainTriple param) :
    partsRoom url user pass goal ≤ param.length + 1 := by
  obtain ⟨⟨url', rest⟩, hurl⟩ : ∃ p, copyadvanceafter comma param = p := ⟨_, rfl⟩
  obtain ⟨⟨user', rest'⟩, huser⟩ : ∃ p, copyadvanceafter comma rest = p := ⟨_, rfl⟩
  obtain ⟨⟨pass', rest3⟩, hpass⟩ : ∃ p, copyadvanceafter comma rest' = p := ⟨_, rfl⟩
  rw [pooldetails, hurl] at H
  dsimp only at H
  split at H
  next => cases H
  next hne =>
    rw [huser] at H
    dsimp only at H
    split at H
    next => cases H
    next hne' =>
      rw [hpass] at H
      dsimp only at H
      obtain ⟨rfl, rfl, rfl, rfl⟩ : url' = url ∧ user' = user ∧ pass' = pass ∧
          (if rest3 = [] then none else some (copyadvanceafter comma rest3).1) = goal := by
        simpa using H
      have hgoal : ((if rest3 = [] then none
          else some (copyadvanceafter comma rest3).1).getD []).length ≤ rest3.length := by
        have hsub := (sublist_copyadvanceafter comma rest3).length_le
        rw [List.length_append] at hsub
        split
        · exact Nat.zero_le _
        · rw [Option.getD_some]
          omega
      have hlast := copyadvanceafter_cases comma rest'
      rw [hpass] at hlast
      dsimp only at hlast
      rw [partsRoom]
      obtain ⟨rfl, hplainUrl⟩ | hurlLen := copyadvanceafter_cases_of_ne_nil hurl hne
      · obtain ⟨rfl, hplainUser⟩ | huserLen := copyadvanceafter_cases_of_ne_nil huser hne'
        · obtain ⟨hnot, hback, heq⟩ | ⟨s, t, hsrc, -, heq⟩ | hlen := hlast
          · exact absurd ⟨_, _, _, rfl, hplainUrl, hplainUser, hnot, hback, hne'⟩ hplain
          · obtain ⟨rfl, rfl⟩ := Prod.mk.inj heq
            simp only [hsrc, List.length_append, List.length_cons]
            omega
          · simp only [List.length_append, List.length_cons]
            split at hlen <;> omega
        · have hlen := length_copyadvanceafter comma rest'
          rw [hpass] at hlen
          simp only [List.length_append, List.length_cons]
          dsimp only at hlen
          omega
      · have hlen := length_copyadvanceafter comma rest'
        have hlen' := length_copyadvanceafter comma rest
        rw [hpass] at hlen
        rw [huser, if_neg hne'] at hlen'
        dsimp only at hlen hlen'
        omega

/-! ## When the parts are read -/

/-- A part, with a backslash before every comma and every backslash. -/
def escapeDetail (s : CStr) : List UInt8 :=
  s.bytes.flatMap fun c => if c = comma ∨ c = 0x5c then [0x5c, c] else [c]

/-- The parts, with commas between them. -/
def joinDetails (url user pass : CStr) (goal : Option CStr) : List UInt8 :=
  [comma].intercalate (([url, user, pass] ++ goal.toList).map escapeDetail)

/-- Whatever is in the buffer, no byte is written outside it, and the parts are read back from
their join. -/
structure DetailsRight (param : CStr) : Prop where
  inside : ∀ buf, pooldetailsIn param buf ≠ none
  exact : ∀ (url user pass : CStr) (goal : Option CStr), url.bytes ≠ [] → user.bytes ≠ [] →
    pass.bytes ≠ [] → (∀ g ∈ goal, g.bytes ≠ []) →
      param.bytes = joinDetails url user pass goal → ∀ buf, ∃ d,
        pooldetailsIn param buf = some (some d) ∧ d.buf.cstrAt d.url = url ∧
          d.buf.cstrAt d.user = user ∧ d.buf.cstrAt d.pass = pass ∧
            d.goalname.map d.buf.cstrAt = goal

theorem copyadvanceafter_escaped (c : UInt8) (src : List UInt8) :
    copyadvanceafter comma ((if c = comma ∨ c = 0x5c then [0x5c, c] else [c]) ++ src) =
      (copyadvanceafter comma src).map (c :: ·) id := by
  split
  next => rfl
  next hplain =>
    rw [not_or] at hplain
    exact copyadvanceafter_cons hplain.1 fun h => absurd h hplain.2

/-- A part is copied as it was before it was escaped. -/
theorem copyadvanceafter_escapeDetail (s : CStr) (t : List UInt8) :
    copyadvanceafter comma (escapeDetail s ++ comma :: t) = (s.bytes, t) := by
  rw [escapeDetail]
  induction s.bytes with
  | nil => exact copyadvanceafter_plain (by decide) ⟨List.not_mem_nil, List.not_mem_nil⟩ t
  | cons c rest ih =>
      rw [List.flatMap_cons, List.append_assoc, copyadvanceafter_escaped, ih]
      rfl

theorem copyadvanceafter_lastDetail (s : CStr) :
    copyadvanceafter comma (escapeDetail s) = (s.bytes, []) := by
  rw [escapeDetail]
  induction s.bytes with
  | nil => rfl
  | cons c rest ih =>
      rw [List.flatMap_cons, copyadvanceafter_escaped, ih]
      rfl

theorem escapeDetail_ne_nil {s : CStr} (H : s.bytes ≠ []) : escapeDetail s ≠ [] := by
  intro hnil
  have hcopy := copyadvanceafter_lastDetail s
  rw [hnil] at hcopy
  exact H (congrArg Prod.fst hcopy).symm

theorem pooldetails_joinDetails (url : CStr) {user pass : CStr} {goal : Option CStr}
    (huser : user.bytes ≠ []) (hpass : pass.bytes ≠ []) (hgoal : ∀ g ∈ goal, g.bytes ≠ []) :
    pooldetails (joinDetails url user pass goal) =
      some (url.bytes, user.bytes, pass.bytes, goal.map CStr.bytes) := by
  have hne := escapeDetail_ne_nil hpass
  cases goal with
  | none =>
      have hjoin : joinDetails url user pass none =
          escapeDetail url ++ comma :: (escapeDetail user ++ comma :: escapeDetail pass) := by
        simp [joinDetails, List.intercalate]
      rw [hjoin, pooldetails, copyadvanceafter_escapeDetail]
      dsimp only
      rw [if_neg (List.append_ne_nil_of_left_ne_nil (escapeDetail_ne_nil huser) _),
        copyadvanceafter_escapeDetail]
      dsimp only
      rw [if_neg hne, copyadvanceafter_lastDetail]
      rfl
  | some goal =>
      have hne' := escapeDetail_ne_nil (hgoal goal rfl)
      have hjoin : joinDetails url user pass (some goal) = escapeDetail url ++ comma ::
          (escapeDetail user ++ comma :: (escapeDetail pass ++ comma :: escapeDetail goal)) := by
        simp [joinDetails, List.intercalate]
      rw [hjoin, pooldetails, copyadvanceafter_escapeDetail]
      dsimp only
      rw [if_neg (List.append_ne_nil_of_left_ne_nil (escapeDetail_ne_nil huser) _),
        copyadvanceafter_escapeDetail]
      dsimp only
      rw [if_neg (List.append_ne_nil_of_left_ne_nil hne _), copyadvanceafter_escapeDetail]
      dsimp only
      rw [if_neg hne', copyadvanceafter_lastDetail]
      rfl

/-- **The parts are read and no byte is written outside the buffer** exactly if the text is not
three parts with two plain commas. -/
theorem detailsRight_iff (param : CStr) : DetailsRight param ↔ ¬ PlainTriple param.bytes := by
  constructor
  · intro H hplain
    obtain ⟨url, user, pass, hdetails, hroom⟩ := hplain.partsRoom
    have hspec := pooldetailsIn_spec param (Vector.replicate _ 0)
    rw [hdetails] at hspec
    dsimp only at hspec
    rw [if_neg (by rw [hroom, CStr.length]; omega)] at hspec
    exact H.inside _ hspec
  · intro hplain
    refine ⟨fun buf => ?_, fun url user pass goal _ huser hpass hgoal hjoin buf => ?_⟩
    · have hspec := pooldetailsIn_spec param buf
      split at hspec
      next => simp [hspec]
      next hdetails =>
        rw [if_pos (show _ ≤ param.length + 1 from partsRoom_le hdetails hplain)] at hspec
        obtain ⟨d, hd, -⟩ := hspec
        simp [hd]
    · have hdetails := pooldetails_joinDetails url huser hpass hgoal
      rw [← hjoin] at hdetails
      have hspec := pooldetailsIn_spec param buf
      rw [hdetails] at hspec
      dsimp only at hspec
      rw [if_pos (show _ ≤ param.length + 1 from partsRoom_le hdetails hplain)] at hspec
      obtain ⟨d, hd, hurl, huser, hpass, hgoal⟩ := hspec
      refine ⟨d, hd, CStr.ext hurl, CStr.ext huser, CStr.ext hpass, ?_⟩
      have hinj : Function.Injective CStr.bytes := fun _ _ => CStr.ext
      refine Option.map_injective hinj ?_
      rw [Option.map_map]
      exact hgoal

/-- The shortest three parts. -/
theorem not_detailsRight_abc : ¬ ∀ param : CStr, DetailsRight param := by
  intro H
  let param : CStr := ⟨[0x61, comma, 0x62, comma, 0x63], by decide⟩
  exact (H param).inside (Vector.replicate _ 0) (by decide)

end MassGridMiner

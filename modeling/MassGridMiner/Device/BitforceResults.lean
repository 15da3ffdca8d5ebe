import MassGridMiner.Device.Bitforce
import Mathlib.Data.Fintype.Card
import Mathlib.Data.Fintype.Prod

/-!
# The results of a BitForce

The results are scanned twice, once for the job that they are to be of, and then for all the jobs
that they may be of.  Each line is read at fixed places, and compared with the jobs by what it
spells.

## Main definitions

* `Bitforce.getResults`, `Bitforce.processResults` — the scans.
* `Bitforce.Sound` — only the arrays are written, only text is read, and only what is decoded from
  one line is a match.
* `Bitforce.Proper` — what a reply is to be.
* `Bitforce.sound_iff` — the replies for which that is so.
-/

namespace MassGridMiner
namespace Bitforce

open CStr

/-! ## Scanning the results -/

/-- What a result line is compared by. -/
@[ext]
structure Key where
  midstate : List UInt8
  datatail : List UInt8
  midstate_length : midstate.length = 32
  datatail_length : datatail.length = 12
  deriving DecidableEq

instance : Inhabited Key := ⟨⟨List.replicate 32 0, List.replicate 12 0, rfl, rfl⟩⟩

/-- What an array holds after its beginning has been written. -/
def overwrite (old new : List UInt8) : List UInt8 := new ++ old.drop new.length

theorem length_overwrite {old new : List UInt8} (hle : new.length ≤ old.length) :
    (overwrite old new).length = old.length := by
  rw [overwrite, List.length_append, List.length_drop]
  omega

/-- `next_line`, as how far it goes. -/
def nextLine : List UInt8 → ℕ
  | [] => 0
  | c :: s => if c = 0x0a then 1 else nextLine s + 1

/-- The places that it looks at. -/
def looksNextLine : List UInt8 → ℕ
  | [] => 1
  | c :: s => if c = 0x0a then 1 else looksNextLine s + 1

/-- The two arrays into which a line is decoded.  A line that is not well formed leaves some of
what they held before. -/
def decodeLine (mem : List UInt8) (p : ℕ) (old : Key) : Key where
  midstate := overwrite old.midstate (hex2bin (strAt mem p) 32).1
  datatail := overwrite old.datatail (hex2bin (strAt mem (p + 65)) 12).1
  midstate_length := by
    rw [length_overwrite, old.midstate_length]
    exact (length_hex2bin_le _ 32).trans old.midstate_length.ge
  datatail_length := by
    rw [length_overwrite, old.datatail_length]
    exact (length_hex2bin_le _ 12).trans old.datatail_length.ge

/-- Where the places end that this looks at. -/
def decodeReads (mem : List UInt8) (p : ℕ) : List ℕ :=
  [p + looksHex (strAt mem p) 32, p + 65 + looksHex (strAt mem (p + 65)) 12]

/-- The loop of `bitforce_job_get_results` with its count: the line of the job, if it is found, and
what is read. -/
def getResults (mem : List UInt8) (work : Key) : ℕ → ℕ → Key → Option ℕ × List ℕ
  | 0, _, _ => (none, [])
  | count + 1, p, old =>
    let line := p + nextLine (strAt mem p)
    let key := decodeLine mem line old
    let reads := (p + looksNextLine (strAt mem p)) :: decodeReads mem line
    if key = work then (some line, reads)
    else
      let r := getResults mem work count line key
      (r.1, reads ++ r.2)

/-- The variables of a call, with what they hold before they are written. -/
structure Locals where
  key : Key
  nonce : List UInt8
  deriving Inhabited

/-- What a scan comes to: the lines that match and the jobs that they match, the nonces that are
submitted, how many results there are, and where what is read ends. -/
structure Scan where
  found : List (ℕ × Key)
  nonces : List (List UInt8)
  count : ℕ
  reads : List ℕ

theorem sub_lt_of_getElem {mem : List UInt8} {p : ℕ} {c : UInt8} (h : mem[p + 8]? = some c) :
    mem.length - (p + 9) < mem.length - p := by
  have hlt : p + 8 < mem.length := (List.getElem?_eq_some_iff.mp h).1
  omega

/-- `bitforce_process_result_nonces`. -/
def processResultNonces (mem : List UInt8) (p : ℕ) (nonce : List UInt8) :
    List (List UInt8) × List ℕ :=
  let nonce := overwrite nonce (hex2bin (strAt mem p) 4).1
  let reads := [p + looksHex (strAt mem p) 4, p + 8 + 1]
  if mem[p + 8]? = some 0x2c then
    let r := processResultNonces mem (p + 9) nonce
    (nonce :: r.1, reads ++ r.2)
  else ([nonce], reads)
termination_by mem.length - p
decreasing_by exact sub_lt_of_getElem ‹_›

/-- `bitforce_process_qresult_line`, with the jobs that there are: its own, the current one, the one
before and the next. -/
def processQresultLine (mem : List UInt8) (p : ℕ) (vars : Locals) (jobs : List Key) : Scan :=
  let key := decodeLine mem p vars.key
  match jobs.find? (· = key) with
  | none => ⟨[], [], 1, decodeReads mem p⟩
  | some job =>
    let number := strAt mem (p + 90)
    let r := if atol number ≠ 0 then
        processResultNonces mem (p + 90 + longLength number + 1) vars.nonce
      else ([], [])
    ⟨[(p, job)], r.1, 1, decodeReads mem p ++ (p + 90 + looksLong number) :: r.2⟩

theorem nextLine_pos {s : List UInt8} (hs : s ≠ []) : 0 < nextLine s := by
  match s with
  | [] => exact absurd rfl hs
  | c :: s =>
    rw [nextLine]
    split
    · exact Nat.one_pos
    · exact Nat.succ_pos _

theorem length_drop_nextLine_lt {s : List UInt8} (hs : s ≠ []) :
    (s.drop (nextLine s)).length < s.length := by
  have hpos := nextLine_pos hs
  have hlen := List.length_pos_iff.mpr hs
  rw [List.length_drop]
  omega

theorem sub_lt_of_strAt {mem : List UInt8} {p : ℕ} (hs : strAt mem p ≠ []) :
    mem.length - (p + nextLine (strAt mem p)) < mem.length - p := by
  have hpos := nextLine_pos hs
  have hlt : p < mem.length := by
    by_contra hle
    rw [strAt, List.drop_eq_nil_of_le (not_lt.mp hle)] at hs
    exact hs rfl
  omega

/-- The lines of `bitforce_job_process_results`. -/
def processLines (mem : List UInt8) (vars : ℕ → Locals) (jobs : List Key) (p : ℕ) : Scan :=
  if strAt mem p ≠ [] then
    let line := processQresultLine mem p (vars p) jobs
    let rest := processLines mem vars jobs (p + nextLine (strAt mem p))
    ⟨line.found ++ rest.found, line.nonces ++ rest.nonces, line.count + rest.count,
      (p + 1) :: line.reads ++ (p + looksNextLine (strAt mem p)) :: rest.reads⟩
  else ⟨[], [], 0, [p + 1]⟩
termination_by mem.length - p
decreasing_by exact sub_lt_of_strAt ‹_›

/-- `bitforce_job_process_results`; its hashes are those of a job for each result. -/
def processResults (mem : List UInt8) (vars : ℕ → Locals) (work : Key) (others : List Key) : Scan :=
  let text := strAt mem 0
  if beginsNoCase (literal "NO-") text then ⟨[], [], 1, []⟩
  else if beginsNoCase (literal "NONCE-FOUND") text then
    let r := processResultNonces mem 12 (vars 0).nonce
    ⟨[], r.1, 1, r.2⟩
  else if beginsNoCase (literal "COUNT:") text then
    let r := processLines mem vars (work :: others) (nextLine text)
    { r with reads := looksNextLine text :: r.reads }
  else ⟨[], [], 0, []⟩

/-! ## What a reply is to be -/

/-- What a text starts with is one whole line that spells a midstate and a data tail. -/
structure Complete (s : List UInt8) : Prop where
  midstate : ∃ bs, decodeHex (s.take 64) = some bs ∧ bs.length = 32
  sameLine : s[64]? ≠ some 0x0a
  datatail : ∃ bs, decodeHex ((s.drop 65).take 24) = some bs ∧ bs.length = 12
  ended : 0x0a ∈ s.drop 89

/-- A job is that which the line spells. -/
structure Decoded (s : List UInt8) (job : Key) : Prop where
  complete : Complete s
  midstate : decodeHex (s.take 64) = some job.midstate
  datatail : decodeHex ((s.drop 65).take 24) = some job.datatail

/-- No place after the terminator is read. -/
def Inside (text : List UInt8) (reads : List ℕ) : Prop := ∀ stop ∈ reads, stop ≤ text.length + 1

/-- **A reply is read into the buffers**, and in them only text is read, and only jobs are found
that are decoded from one line of it.  What follows the text in memory is arbitrary, as are the
jobs, and what the arrays held before. -/
structure Sound (stream : Stream) : Prop where
  lengths : ∀ c ∈ (zox stream).calls, c.written ≤ c.bufLen
  rooms : ∀ c ∈ (zox stream).calls, c.written ≤ c.room
  searched : ∀ behind work old,
    let r := getResults ((zox stream).text ++ 0 :: behind) work (zox stream).count.toNat 0 old
    Inside (zox stream).text r.2 ∧ ∀ p ∈ r.1, Decoded ((zox stream).text.drop p) work
  processed : ∀ behind vars work others,
    let r := processResults ((zox stream).text ++ 0 :: behind) vars work others
    Inside (zox stream).text r.reads ∧ ∀ m ∈ r.found, Decoded ((zox stream).text.drop m.1) m.2

/-- The results of a text, each with what follows it. -/
def resultLines (s : List UInt8) : List (List UInt8) :=
  if s = [] then [] else s :: resultLines (s.drop (nextLine s))
termination_by s.length
decreasing_by exact length_drop_nextLine_lt ‹_›

theorem length_drop_nine_lt {s : List UInt8} {c : UInt8} (h : s[8]? = some c) :
    (s.drop 9).length < s.length := by
  have hlt : 8 < s.length := (List.getElem?_eq_some_iff.mp h).1
  rw [List.length_drop]
  omega

/-- Eight characters are there for each nonce. -/
def NoncesInside (s : List UInt8) : Prop :=
  8 ≤ s.length ∧ if s[8]? = some 0x2c then NoncesInside (s.drop 9) else True
termination_by s.length
decreasing_by exact length_drop_nine_lt ‹_›

/-- **A result** is one whole line, and if it counts nonces then they are there. -/
structure WellFormed (s : List UInt8) : Prop where
  complete : Complete s
  nonces : atol (s.drop 90) ≠ 0 → NoncesInside (s.drop (90 + longLength (s.drop 90) + 1))

/-- **A reply as it is to be**: its lines fit, its results are well formed and no fewer than it
says, and where it has nonces instead they are there. -/
structure Proper (lines : List (List UInt8)) : Prop where
  fits : Fits lines
  results : beginsNoCase (literal "COUNT:") (replyText lines) = true →
    ∀ s ∈ (resultLines (replyText lines)).tail, WellFormed s
  count : beginsNoCase (literal "COUNT:") (replyText lines) = true →
    (atoi ((header lines).1.drop 6)).toNat ≤ (resultLines (replyText lines)).tail.length
  nonces : beginsNoCase (literal "NONCE-FOUND") (replyText lines) = true →
    NoncesInside ((replyText lines).drop 12)

/-! ## One line -/

variable {text behind s : List UInt8} {p : ℕ} {job : Key}

theorem Complete.length_lt (H : Complete s) : 89 < s.length := by
  have hpos := List.length_pos_of_mem H.ended
  rw [List.length_drop] at hpos
  omega

/-- What is decoded from a whole line is what it spells, whatever the arrays held before. -/
theorem Complete.decoded (htext : 0 ∉ text) (H : Complete (text.drop p)) (behind : List UInt8)
    (old : Key) :
    Decoded (text.drop p) (decodeLine (text ++ 0 :: behind) p old) := by
  have hlen := H.length_lt
  rw [List.length_drop] at hlen
  obtain ⟨midstate, hmidstate, hlen₁⟩ := H.midstate
  obtain ⟨datatail, hdatatail, hlen₂⟩ := H.datatail
  have hfirst : (hex2bin (strAt (text ++ 0 :: behind) p) 32).1 = midstate := by
    rw [strAt_of_le htext (by omega)]
    exact fst_hex2bin_of_take hmidstate hlen₁
  have hsecond : (hex2bin (strAt (text ++ 0 :: behind) (p + 65)) 12).1 = datatail := by
    rw [strAt_of_le htext (by omega), ← List.drop_drop]
    exact fst_hex2bin_of_take hdatatail hlen₂
  refine ⟨H, ?_, ?_⟩
  · rw [hmidstate, decodeLine]
    simp only [hfirst, overwrite]
    rw [hlen₁, List.drop_eq_nil_of_le old.midstate_length.le, List.append_nil]
  · rw [hdatatail, decodeLine]
    simp only [hsecond, overwrite]
    rw [hlen₂, List.drop_eq_nil_of_le old.datatail_length.le, List.append_nil]

/-- A line spells one job. -/
theorem Decoded.unique {job' : Key} (H : Decoded s job) (H' : Decoded s job') : job = job' :=
  Key.ext (Option.some.inj (H.midstate.symm.trans H'.midstate))
    (Option.some.inj (H.datatail.symm.trans H'.datatail))

theorem inside_nil : Inside text [] := fun _ h => (nomatch h)

theorem inside_cons {stop : ℕ} {reads : List ℕ} :
    Inside text (stop :: reads) ↔ stop ≤ text.length + 1 ∧ Inside text reads :=
  List.forall_mem_cons

theorem inside_append {reads reads' : List ℕ} :
    Inside text (reads ++ reads') ↔ Inside text reads ∧ Inside text reads' :=
  List.forall_mem_append

/-- **A line is decoded** from text exactly if the data tail starts in it. -/
theorem inside_decodeReads (htext : 0 ∉ text) :
    Inside text (decodeReads (text ++ 0 :: behind) p) ↔ p + 65 ≤ text.length := by
  rw [decodeReads, inside_cons, inside_cons, (stops_looksHex 32).inside_iff htext,
    (stops_looksHex 12).inside_iff htext]
  have hnil : Inside text [] := inside_nil
  constructor
  · exact fun h => h.2.1
  · exact fun h => ⟨by omega, h, hnil⟩

/-- A comma in the text. -/
theorem getElem?_comma_iff (hle : p ≤ text.length) (behind : List UInt8) :
    (text ++ 0 :: behind)[p]? = some 0x2c ↔ text[p]? = some 0x2c := by
  rcases Nat.lt_or_eq_of_le hle with hlt | rfl
  · rw [List.getElem?_append_left hlt]
  · rw [List.getElem?_append_right (Nat.le_refl _), Nat.sub_self,
      List.getElem?_eq_none (Nat.le_refl _)]
    exact iff_of_false (by simp) nofun

/-- **Nonces are read** from text exactly if they are there. -/
theorem inside_processResultNonces (htext : 0 ∉ text) (p : ℕ) (nonce : List UInt8) :
    Inside text (processResultNonces (text ++ 0 :: behind) p nonce).2 ↔
      NoncesInside (text.drop p) := by
  generalize hn : text.length - p = n
  induction n using Nat.strong_induction_on generalizing p nonce with
  | _ n ih =>
    have hfirst : Inside text [p + looksHex (strAt (text ++ 0 :: behind) p) 4, p + 8 + 1] ↔
        8 ≤ (text.drop p).length := by
      rw [inside_cons, inside_cons, (stops_looksHex 4).inside_iff htext, List.length_drop]
      have hnil : Inside text [] := inside_nil
      exact ⟨fun h => by omega, fun h => ⟨by omega, by omega, hnil⟩⟩
    rw [processResultNonces, NoncesInside]
    by_cases hroom : 8 ≤ (text.drop p).length
    · have hlen : p + 8 ≤ text.length := by
        rw [List.length_drop] at hroom
        omega
      have hcomma := getElem?_comma_iff hlen behind
      rw [List.getElem?_drop]
      by_cases hmore : text[p + 8]? = some 0x2c
      · have hlt : p + 8 < text.length := (List.getElem?_eq_some_iff.mp hmore).1
        rw [if_pos (hcomma.mpr hmore), if_pos hmore, inside_append, hfirst,
          ih _ (by omega) (p + 9) _ rfl, List.drop_drop]
      · rw [if_neg fun h => hmore (hcomma.mp h), if_neg hmore, hfirst, and_true]
    · refine iff_of_false (fun h => hroom (hfirst.mp ?_)) fun h => hroom h.1
      split at h
      · exact (inside_append.mp h).1
      · exact h

/-- What a scan is to be. -/
def Scan.Good (text : List UInt8) (scan : Scan) : Prop :=
  Inside text scan.reads ∧ ∀ m ∈ scan.found, Decoded (text.drop m.1) m.2

/-- The count of nonces and the nonces are read from text exactly if they are there. -/
theorem inside_number (htext : 0 ∉ text) (hle : p + 90 ≤ text.length) (nonce : List UInt8) :
    let number := strAt (text ++ 0 :: behind) (p + 90)
    Inside text ((p + 90 + looksLong number) :: (if atol number ≠ 0 then
        processResultNonces (text ++ 0 :: behind) (p + 90 + longLength number + 1) nonce
      else ([], [])).2) ↔
      (atol ((text.drop p).drop 90) ≠ 0 →
        NoncesInside ((text.drop p).drop (90 + longLength ((text.drop p).drop 90) + 1))) := by
  have hnumber : strAt (text ++ 0 :: behind) (p + 90) = (text.drop p).drop 90 := by
    rw [strAt_of_le htext hle, List.drop_drop]
  dsimp only
  rw [inside_cons, stops_looksLong.inside_iff htext, hnumber]
  by_cases hnone : atol ((text.drop p).drop 90) = 0
  · rw [if_neg (not_not.mpr hnone)]
    exact iff_of_true ⟨hle, inside_nil⟩ fun h => absurd hnone h
  · have hrest : (text.drop p).drop (90 + longLength ((text.drop p).drop 90) + 1) =
        text.drop (p + 90 + longLength ((text.drop p).drop 90) + 1) := by
      rw [List.drop_drop]
      congr 1
      omega
    rw [if_pos hnone, inside_processResultNonces htext, hrest]
    exact ⟨fun h _ => h.2, fun h => ⟨hle, h hnone⟩⟩

/-- **A line is processed** as it is to be, whatever jobs there are, exactly if it is well
formed. -/
theorem forall_good_processQresultLine (htext : 0 ∉ text) (p : ℕ) :
    (∀ vars work others, (processQresultLine (text ++ 0 :: behind) p vars
      (work :: others)).Good text) ↔ WellFormed (text.drop p) := by
  constructor
  · intro H
    -- a job is compared that is what the arrays hold after the line
    let vars : Locals := default
    have hgood := H vars (decodeLine (text ++ 0 :: behind) p vars.key) []
    have hfind : [decodeLine (text ++ 0 :: behind) p vars.key].find?
        (· = decodeLine (text ++ 0 :: behind) p vars.key) =
          some (decodeLine (text ++ 0 :: behind) p vars.key) :=
      List.find?_cons_of_pos (by simp)
    rw [processQresultLine] at hgood
    simp only [hfind] at hgood
    obtain ⟨hreads, hfound⟩ := hgood
    have hcomplete : Complete (text.drop p) := (hfound _ (List.mem_singleton_self _)).complete
    have hlen := hcomplete.length_lt
    rw [List.length_drop] at hlen
    exact ⟨hcomplete, (inside_number htext (by omega) _).mp (inside_append.mp hreads).2⟩
  · intro H vars work others
    have hlen := H.complete.length_lt
    rw [List.length_drop] at hlen
    have hreads : Inside text (decodeReads (text ++ 0 :: behind) p) :=
      (inside_decodeReads htext).mpr (by omega)
    rw [processQresultLine]
    dsimp only
    split
    · exact ⟨hreads, fun _ h => (nomatch h)⟩
    next job hjob =>
      have hdecoded := H.complete.decoded htext behind vars.key
      have hkey : job = decodeLine (text ++ 0 :: behind) p vars.key := by
        simpa using List.find?_some hjob
      refine ⟨inside_append.mpr ⟨hreads, (inside_number htext (by omega) _).mpr H.nonces⟩, ?_⟩
      intro m hm
      rw [List.mem_singleton] at hm
      rw [hm, hkey]
      exact hdecoded

/-! ## All lines -/

theorem nextLine_le (s : List UInt8) : nextLine s ≤ s.length := by
  induction s with
  | nil => exact Nat.le_refl _
  | cons c s ih =>
    rw [nextLine, List.length_cons]
    split
    · omega
    · omega

theorem stops_looksNextLine : Stops looksNextLine := by
  have hbounds : ∀ s, 0 < looksNextLine s ∧ looksNextLine s ≤ s.length + 1 := by
    intro s
    induction s with
    | nil => exact ⟨Nat.one_pos, Nat.le_refl _⟩
    | cons c s ih =>
      rw [looksNextLine, List.length_cons]
      split
      · omega
      · omega
  exact ⟨fun s => (hbounds s).1, fun s => (hbounds s).2⟩

theorem resultLines_of_ne_nil (hs : s ≠ []) :
    resultLines s = s :: resultLines (s.drop (nextLine s)) := by
  rw [resultLines, if_neg hs]

/-- **The lines are processed** as they are to be exactly if they are all well formed. -/
theorem forall_good_processLines (htext : 0 ∉ text) (p : ℕ) (hp : p ≤ text.length) :
    (∀ vars work others, (processLines (text ++ 0 :: behind) vars (work :: others) p).Good text) ↔
      ∀ s ∈ resultLines (text.drop p), WellFormed s := by
  generalize hn : text.length - p = n
  induction n using Nat.strong_induction_on generalizing p with
  | _ n ih =>
    have hstr : strAt (text ++ 0 :: behind) p = text.drop p := strAt_of_le htext hp
    by_cases hend : text.drop p = []
    · refine iff_of_true (fun vars work others => ?_) ?_
      · rw [processLines, hstr, if_neg (not_not.mpr hend)]
        exact ⟨inside_cons.mpr ⟨by omega, inside_nil⟩, fun _ h => (nomatch h)⟩
      · rw [resultLines, if_pos hend]
        exact fun _ h => (nomatch h)
    · have hpos := nextLine_pos hend
      have hnext := nextLine_le (text.drop p)
      have hlen := List.length_pos_iff.mpr hend
      rw [List.length_drop] at hnext hlen
      have hmore := ih _ (by omega) (p + nextLine (text.drop p)) (by omega) rfl
      rw [resultLines_of_ne_nil hend, List.forall_mem_cons, ← forall_good_processQresultLine htext,
        List.drop_drop, ← hmore]
      have hgood : ∀ vars work others,
          (processLines (text ++ 0 :: behind) vars (work :: others) p).Good text ↔
            (processQresultLine (text ++ 0 :: behind) p (vars p) (work :: others)).Good text ∧
              (processLines (text ++ 0 :: behind) vars (work :: others)
                (p + nextLine (text.drop p))).Good text := by
        intro vars work others
        have hlooks := (stops_looksNextLine.inside_iff htext behind).mpr hp
        rw [hstr] at hlooks
        rw [processLines, hstr, if_pos hend, Scan.Good, Scan.Good, Scan.Good]
        simp only [List.cons_append, inside_cons, inside_append, List.forall_mem_append]
        constructor
        · rintro ⟨⟨-, hreads, -, hmore⟩, hfound, hlater⟩
          exact ⟨⟨hreads, hfound⟩, hmore, hlater⟩
        · rintro ⟨⟨hreads, hfound⟩, hmore, hlater⟩
          exact ⟨⟨by omega, hreads, hlooks, hmore⟩, hfound, hlater⟩
      constructor
      · intro H
        exact ⟨fun vars work others => ((hgood (fun _ => vars) work others).mp (H _ _ _)).1,
          fun vars work others => ((hgood vars work others).mp (H _ _ _)).2⟩
      · rintro ⟨hline, hrest⟩ vars work others
        exact (hgood vars work others).mpr ⟨hline _ _ _, hrest _ _ _⟩

/-! ## The job that is waited for -/

/-- **The job is searched for** in whole lines, as long as there are as many as counted. -/
theorem getResults_good (htext : 0 ∉ text) (work : Key) (count : ℕ) (p : ℕ) (old : Key)
    (hp : p ≤ text.length)
    (hlines : ∀ s ∈ resultLines (text.drop (p + nextLine (text.drop p))), Complete s)
    (hcount : count ≤ (resultLines (text.drop (p + nextLine (text.drop p)))).length) :
    Inside text (getResults (text ++ 0 :: behind) work count p old).2 ∧
      ∀ q ∈ (getResults (text ++ 0 :: behind) work count p old).1,
        Decoded (text.drop q) work := by
  induction count generalizing p old with
  | zero => exact ⟨inside_nil, fun _ h => (nomatch h)⟩
  | succ count ih =>
    have hstr : strAt (text ++ 0 :: behind) p = text.drop p := strAt_of_le htext hp
    have hlooks := (stops_looksNextLine.inside_iff htext behind).mpr hp
    rw [getResults]
    rw [hstr] at hlooks ⊢
    have hline : text.drop (p + nextLine (text.drop p)) ≠ [] := by
      intro h
      rw [h, resultLines, if_pos rfl] at hcount
      exact absurd hcount (Nat.not_succ_le_zero _)
    rw [resultLines_of_ne_nil hline, List.drop_drop] at hlines hcount
    obtain ⟨hcomplete, hmore⟩ := List.forall_mem_cons.mp hlines
    have hlen := hcomplete.length_lt
    rw [List.length_drop] at hlen
    have hreads : Inside text
        (decodeReads (text ++ 0 :: behind) (p + nextLine (text.drop p))) :=
      (inside_decodeReads htext).mpr (by omega)
    have hdecoded := hcomplete.decoded htext behind old
    dsimp only
    by_cases hmatch :
        decodeLine (text ++ 0 :: behind) (p + nextLine (text.drop p)) old = work
    · rw [if_pos hmatch]
      refine ⟨inside_cons.mpr ⟨hlooks, hreads⟩, fun q hq => ?_⟩
      rw [Option.mem_some_iff] at hq
      rw [← hq, ← hmatch]
      exact hdecoded
    · rw [if_neg hmatch]
      obtain ⟨hinside, hfound⟩ := ih (p + nextLine (text.drop p))
        (decodeLine (text ++ 0 :: behind) (p + nextLine (text.drop p)) old) (by omega) hmore
        (Nat.le_of_succ_le_succ hcount)
      exact ⟨inside_cons.mpr ⟨hlooks, inside_append.mpr ⟨hreads, hinside⟩⟩, hfound⟩

/-- A job that is in none of the lines is searched for after the last. -/
theorem getResults_not_inside (htext : 0 ∉ text) {work : Key} (count : ℕ) (p : ℕ) (old : Key)
    (hlines : ∀ s ∈ resultLines (text.drop (p + nextLine (text.drop p))),
      Complete s ∧ ¬Decoded s work) (hp : p ≤ text.length)
    (hcount : (resultLines (text.drop (p + nextLine (text.drop p)))).length < count) :
    ¬Inside text (getResults (text ++ 0 :: behind) work count p old).2 := by
  induction count generalizing p old with
  | zero => exact absurd hcount (Nat.not_lt_zero _)
  | succ count ih =>
    have hstr : strAt (text ++ 0 :: behind) p = text.drop p := strAt_of_le htext hp
    rw [getResults, hstr]
    dsimp only
    by_cases hend : text.drop (p + nextLine (text.drop p)) = []
    · have hbeyond : ¬Inside text
          (decodeReads (text ++ 0 :: behind) (p + nextLine (text.drop p))) := by
        rw [inside_decodeReads htext]
        have hge := List.drop_eq_nil_iff.mp hend
        omega
      split
      · exact fun h => hbeyond (inside_cons.mp h).2
      · exact fun h => hbeyond (inside_append.mp (inside_cons.mp h).2).1
    · rw [resultLines_of_ne_nil hend, List.drop_drop] at hlines hcount
      obtain ⟨⟨hcomplete, hother⟩, hmore⟩ := List.forall_mem_cons.mp hlines
      have hlen := hcomplete.length_lt
      rw [List.length_drop] at hlen
      have hdecoded := hcomplete.decoded htext behind old
      have hne : decodeLine (text ++ 0 :: behind) (p + nextLine (text.drop p)) old ≠ work :=
        fun h => hother (h ▸ hdecoded)
      rw [if_neg hne]
      intro h
      exact ih _ _ hmore (by omega) (Nat.lt_of_succ_lt_succ hcount)
        (inside_append.mp (inside_cons.mp h).2).2

theorem length_resultLines_le (s : List UInt8) : (resultLines s).length ≤ s.length := by
  induction s using resultLines.induct with
  | case1 =>
    rw [resultLines, if_pos rfl]
    exact Nat.le_refl _
  | case2 s hs ih =>
    have hlt := length_drop_nextLine_lt hs
    rw [resultLines_of_ne_nil hs, List.length_cons]
    omega

/-- Some job is in none of the lines of a text that is not too long. -/
theorem exists_not_decoded {lines : List (List UInt8)} (hlines : lines.length < 65536) :
    ∃ work, ∀ s ∈ lines, ¬Decoded s work := by
  by_contra hall
  push Not at hall
  let key (m : Fin 256 × Fin 256) : Key :=
    ⟨.ofFin m.1 :: .ofFin m.2 :: List.replicate 30 0, List.replicate 12 0, rfl, rfl⟩
  have hindex : ∀ m, ∃ i : Fin lines.length, Decoded (lines.get i) (key m) := by
    intro m
    obtain ⟨s, hs, hdecoded⟩ := hall (key m)
    obtain ⟨i, rfl⟩ := List.mem_iff_get.mp hs
    exact ⟨i, hdecoded⟩
  choose index hindex using hindex
  have hinjective : Function.Injective index := by
    intro m m' h
    have hsame : key m = key m' := (hindex m).unique (h ▸ hindex m')
    have hmidstate := List.cons.inj (congrArg Key.midstate hsame)
    exact Prod.ext (congrArg UInt8.toFin hmidstate.1)
      (congrArg UInt8.toFin (List.cons.inj hmidstate.2).1)
  have hcard := Fintype.card_le_of_injective index hinjective
  simp only [Fintype.card_prod, Fintype.card_fin] at hcard
  omega

/-! ## The whole reply -/

theorem beginsNoCase_append {name : List UInt8} (H : beginsNoCase name text = true)
    (more : List UInt8) : beginsNoCase name (text ++ more) = true := by
  rw [beginsNoCase, List.isPrefixOf_iff_prefix] at H ⊢
  rw [List.map_append]
  exact H.trans (List.prefix_append _ _)

/-- A text does not begin in two ways, unless one of them is the beginning of the other. -/
theorem not_beginsNoCase {name name' : List UInt8} (hname : beginsNoCase name name' = false)
    (hname' : beginsNoCase name' name = false) (H : beginsNoCase name text = true) :
    ¬beginsNoCase name' text = true := by
  intro H'
  simp only [beginsNoCase, List.isPrefixOf_iff_prefix] at H H'
  rcases List.prefix_or_prefix_of_prefix H H' with h | h
  · rw [beginsNoCase, List.isPrefixOf_iff_prefix.mpr h] at hname
    cases hname
  · rw [beginsNoCase, List.isPrefixOf_iff_prefix.mpr h] at hname'
    cases hname'

/-- The ways in which a reply begins are different. -/
theorem begins_different :
    (beginsNoCase (literal "NO-") (literal "NONCE-FOUND") = false ∧
      beginsNoCase (literal "NONCE-FOUND") (literal "NO-") = false) ∧
    (beginsNoCase (literal "NO-") (literal "COUNT:") = false ∧
      beginsNoCase (literal "COUNT:") (literal "NO-") = false) ∧
    (beginsNoCase (literal "NONCE-FOUND") (literal "COUNT:") = false ∧
      beginsNoCase (literal "COUNT:") (literal "NONCE-FOUND") = false) := by
  simp only [literal_eq]
  decide

/-- **The results are processed** as they are to be, whatever jobs there are, exactly if they are
well formed, and if the nonces are there. -/
theorem forall_good_processResults (htext : 0 ∉ text) :
    (∀ behind vars work others,
        (processResults (text ++ 0 :: behind) vars work others).Good text) ↔
      (beginsNoCase (literal "COUNT:") text = true →
          ∀ s ∈ (resultLines text).tail, WellFormed s) ∧
        (beginsNoCase (literal "NONCE-FOUND") text = true → NoncesInside (text.drop 12)) := by
  have hstr : ∀ behind, strAt (text ++ 0 :: behind) 0 = text :=
    fun behind => (strAt_of_le htext (Nat.zero_le _)).trans text.drop_zero
  obtain ⟨⟨h₁, h₁'⟩, ⟨h₂, h₂'⟩, ⟨h₃, h₃'⟩⟩ := begins_different
  simp only [processResults, hstr]
  by_cases hno : beginsNoCase (literal "NO-") text = true
  · simp only [hno, if_true]
    exact iff_of_true (fun _ _ _ _ => ⟨inside_nil, fun _ h => (nomatch h)⟩)
      ⟨fun h => absurd h (not_beginsNoCase h₂ h₂' hno),
        fun h => absurd h (not_beginsNoCase h₁ h₁' hno)⟩
  by_cases hfound : beginsNoCase (literal "NONCE-FOUND") text = true
  · have hcount := not_beginsNoCase h₃ h₃' hfound
    simp only [hno, hfound, hcount, Bool.false_eq_true, if_true, if_false, true_implies,
      false_implies, true_and, Scan.Good, inside_processResultNonces htext]
    exact ⟨fun h => (h [] default default []).1, fun h _ _ _ _ => ⟨h, fun _ h => (nomatch h)⟩⟩
  by_cases hcount : beginsNoCase (literal "COUNT:") text = true
  · have hne : text ≠ [] := by
      rintro rfl
      revert hcount
      simp only [literal_eq]
      decide
    have hlooks : looksNextLine text ≤ text.length + 1 := stops_looksNextLine.le text
    have hlines : ∀ behind, (∀ vars work others, (processLines (text ++ 0 :: behind) vars
        (work :: others) (nextLine text)).Good text) ↔
          ∀ s ∈ resultLines (text.drop (nextLine text)), WellFormed s :=
      fun behind => forall_good_processLines htext _ (nextLine_le text)
    simp only [hno, hfound, hcount, Bool.false_eq_true, if_true, if_false, true_implies,
      false_implies, and_true]
    rw [resultLines_of_ne_nil hne, List.tail_cons]
    constructor
    · intro H
      refine (hlines []).mp fun vars work others => ?_
      exact ⟨(inside_cons.mp (H [] vars work others).1).2, (H [] vars work others).2⟩
    · intro H behind vars work others
      obtain ⟨hreads, hmatches⟩ := (hlines behind).mpr H vars work others
      exact ⟨inside_cons.mpr ⟨hlooks, hreads⟩, hmatches⟩
  · simp only [hno, hfound, hcount, Bool.false_eq_true, if_false, false_implies, and_self]
    exact iff_of_true (fun _ _ _ _ => ⟨inside_nil, fun _ h => (nomatch h)⟩) trivial

/-- **The job is searched for** as it is to be, whatever it is, exactly if there are as many lines
as counted, where they are whole. -/
theorem forall_good_getResults (htext : 0 ∉ text) (hlen : text.length < 65536) (hne : text ≠ [])
    (hlines : ∀ s ∈ (resultLines text).tail, Complete s) (count : ℕ) :
    (∀ behind work old,
        Inside text (getResults (text ++ 0 :: behind) work count 0 old).2 ∧
          ∀ q ∈ (getResults (text ++ 0 :: behind) work count 0 old).1,
            Decoded (text.drop q) work) ↔
      count ≤ (resultLines text).tail.length := by
  have hstart : text.drop (0 + nextLine (text.drop 0)) = text.drop (nextLine text) := by
    rw [List.drop_zero, Nat.zero_add]
  rw [resultLines_of_ne_nil hne, List.tail_cons] at hlines ⊢
  rw [← hstart] at hlines ⊢
  constructor
  · intro H
    by_contra hmore
    have hfew : (resultLines (text.drop (0 + nextLine (text.drop 0)))).length < 65536 := by
      have hle := length_resultLines_le (text.drop (0 + nextLine (text.drop 0)))
      rw [List.length_drop] at hle
      omega
    obtain ⟨work, hwork⟩ := exists_not_decoded hfew
    exact getResults_not_inside htext count 0 default
      (fun s hs => ⟨hlines s hs, hwork s hs⟩) (Nat.zero_le _) (Nat.not_le.mp hmore)
      (H [] work default).1
  · intro hcount behind work old
    exact getResults_good htext work count 0 old (Nat.zero_le _) hlines hcount

/-- A reply begins as its first line does. -/
theorem replyText_counts (lines : List (List UInt8)) :
    beginsNoCase (literal "COUNT:") (replyText lines) = true ↔
      beginsNoCase (literal "COUNT:") (header lines).1 = true := by
  rw [replyText]
  split
  case isTrue h => exact iff_of_true (beginsNoCase_append h _) h
  case isFalse h => exact Iff.rfl

/-- **A reply is read and scanned** as it is to be exactly if its lines fit, its results are well
formed, and there are as many as it says. -/
theorem sound_iff (stream : Stream) : Sound stream ↔ Proper (pieces stream) := by
  obtain ⟨hzox, hlong⟩ := zox_spec stream
  have hfits : (∀ c ∈ (zox stream).calls, c.written ≤ c.bufLen) → Fits (pieces stream) := by
    intro H
    by_contra hnot
    obtain ⟨c, hc, hover⟩ := hlong hnot
    exact hover (H c hc)
  have hscans : Fits (pieces stream) →
      ((∀ behind vars work others, (processResults ((zox stream).text ++ 0 :: behind) vars work
        others).Good (zox stream).text) ↔
        (beginsNoCase (literal "COUNT:") (replyText (pieces stream)) = true →
          ∀ s ∈ (resultLines (replyText (pieces stream))).tail, WellFormed s) ∧
        (beginsNoCase (literal "NONCE-FOUND") (replyText (pieces stream)) = true →
          NoncesInside ((replyText (pieces stream)).drop 12))) := by
    intro H
    rw [(hzox H).2.1]
    exact forall_good_processResults (replyText_spec H).1
  have hsearch : Fits (pieces stream) →
      (beginsNoCase (literal "COUNT:") (replyText (pieces stream)) = true →
        ∀ s ∈ (resultLines (replyText (pieces stream))).tail, WellFormed s) →
      ((∀ behind work old,
        Inside (zox stream).text
            (getResults ((zox stream).text ++ 0 :: behind) work (zox stream).count.toNat 0 old).2 ∧
          ∀ q ∈ (getResults ((zox stream).text ++ 0 :: behind) work (zox stream).count.toNat 0
            old).1, Decoded ((zox stream).text.drop q) work) ↔
        (beginsNoCase (literal "COUNT:") (replyText (pieces stream)) = true →
          (atoi ((header (pieces stream)).1.drop 6)).toNat ≤
            (resultLines (replyText (pieces stream))).tail.length)) := by
    intro H hlines
    obtain ⟨hnul, hlen⟩ := replyText_spec H
    have hsize : noncebufSize = 2819 := rfl
    rw [(hzox H).2.1, (hzox H).2.2]
    by_cases hcount : beginsNoCase (literal "COUNT:") (replyText (pieces stream)) = true
    · have hne : replyText (pieces stream) ≠ [] := by
        intro h
        rw [h] at hcount
        revert hcount
        simp only [literal_eq]
        decide
      rw [if_pos ((replyText_counts _).mp hcount),
        forall_good_getResults hnul (by omega) hne (fun s hs => (hlines hcount s hs).complete)]
      exact ⟨fun h _ => h, fun h => h hcount⟩
    · rw [if_neg fun h => hcount ((replyText_counts _).mpr h)]
      exact iff_of_true (fun _ _ _ => ⟨inside_nil, fun _ h => (nomatch h)⟩)
        fun h => absurd h hcount
  constructor
  · intro H
    have hall := hfits H.lengths
    obtain ⟨hresults, hnonces⟩ := (hscans hall).mp H.processed
    exact ⟨hall, hresults, (hsearch hall hresults).mp H.searched, hnonces⟩
  · intro H
    exact ⟨fun c hc => ((hzox H.fits).1 c hc).1, fun c hc => ((hzox H.fits).1 c hc).2 ▸
      ((hzox H.fits).1 c hc).1, (hsearch H.fits H.results).mpr H.count,
      (hscans H.fits).mpr ⟨H.results, H.nonces⟩⟩

/-- A line that is as long as the buffer. -/
theorem not_sound_long : ¬Sound ((List.replicate noncebufSize 0x41).map some) := by
  intro H
  have hline : (0x0a : UInt8) ∉ List.replicate noncebufSize 0x41 := fun h =>
    absurd (List.eq_of_mem_replicate h) (by decide)
  have hlong : ¬Fits (pieces ((List.replicate noncebufSize 0x41).map some)) := by
    intro h
    have hlt := h.first.1
    rw [headD_pieces hline, List.length_replicate] at hlt
    exact Nat.lt_irrefl _ hlt
  obtain ⟨c, hc, hover⟩ := (zox_spec _).2 hlong
  exact hover (H.lengths c hc)

end Bitforce
end MassGridMiner

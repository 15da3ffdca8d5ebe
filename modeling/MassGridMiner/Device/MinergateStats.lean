import MassGridMiner.Api.Data
import MassGridMiner.Lib.FixedWidth
import MassGridMiner.Lib.Strtol

/-!
# The temperatures of a minergate

The first line of a file has numbers in it, of which all but the first are temperatures.  The driver
keeps those and how many there are, for the API to report, and makes up that count by subtracting
one from the count of the numbers.

## Main definitions

* `getStats`, `readLine` — the file is read, and a line of it.
* `apiExtraDeviceStatus` — the report, or none if it reads a temperature that is not there.
* `Law` — what is expected of a line.
* `stats_law_iff` — the lines that it is so for.
-/

namespace MassGridMiner
namespace MinergateStats

open CStr

/-- `skip_stats`. -/
def skipStats : ℕ := 1

/-- What is kept of a file: `stats` and `stats_count` of a `struct minergate_state`, and the `temp`
of the device. -/
structure Stats where
  stats : Option (List ℤ)
  statsCount : UInt32
  temp : Float32

/-- What `fgets` leaves in a buffer of 0x100 bytes, before the terminator. -/
structure Line where
  bytes : List UInt8
  length_le : bytes.length ≤ 0xff

/-- `fgets`, none at the end of the file. -/
def fgets (file : List UInt8) : Option Line :=
  if file = [] then none
  else
    let room := file.take 0xff
    let n := (room.takeWhile (· != 0xa)).length + 1
    some ⟨room.take n, (List.take_prefix n room).length_le.trans (List.length_take_le 0xff file)⟩

/-- What follows the rest of a word and the white space behind it. -/
def nextWord (endptr : List UInt8) : List UInt8 :=
  (endptr.dropWhile fun c => !isSpace c).dropWhile isSpace

theorem strtol_length_le (s : List UInt8) : (strtol s).2.length ≤ s.length := by
  unfold strtol
  cases h : readNumber s with
  | none => exact le_rfl
  | some found => exact (length_lt_of_readNumber h).le

theorem nextWord_length_lt {p : List UInt8} (H : (strtol p).2.length ≠ p.length) :
    (nextWord (strtol p).2).length < p.length :=
  ((List.dropWhile_suffix _).length_le.trans (List.dropWhile_suffix _).length_le).trans_lt
    (lt_of_le_of_ne (strtol_length_le p) H)

/-- The loop over the numbers of a line, which are put into `nums`, an array of 0x80; none if one
is put behind its end.  What is put there at last, where there is no number, is not kept. -/
def numbers (p : List UInt8) (nums : List ℤ) (maxTemp : Float32) : Option (List ℤ × Float32) :=
  if p = [] then some (nums, maxTemp)
  else if 0x80 ≤ nums.length then none
  else if (strtol p).2.length = p.length then some (nums, maxTemp)
  else
    let n := (strtol p).1
    let hotter := skipStats ≤ nums.length ∧ Float32.ofInt n > maxTemp
    numbers (nextWord (strtol p).2) (nums ++ [n]) (if hotter then Float32.ofInt n else maxTemp)
termination_by p.length
decreasing_by exact nextWord_length_lt ‹_›

/-- What `minergate_get_stats` keeps of the numbers of a line. -/
def ofNumbers (nums : List ℤ) (maxTemp : Float32) : Stats :=
  let i : ℤ := nums.length - skipStats
  let newStats := if 0 < i then some (nums.drop skipStats) else none
  { stats := newStats, statsCount := .ofInt i, temp := maxTemp }

/-- `minergate_get_stats`, from where a line was read; none if it writes behind the end of an
array. -/
def readLine (line : Line) : Option Stats := do
  let (nums, maxTemp) ← numbers (CStr.ofMem line.bytes).bytes [] 0
  some (ofNumbers nums maxTemp)

/-- `minergate_get_stats`; there is no file if none is configured or it cannot be opened. -/
def getStats (file : Option (List UInt8)) (dev : Stats) : Option Stats :=
  match file.bind fgets with
  | none => some dev
  | some line => readLine line

/-- The loop over the temperatures, from the one at `i` on; none if one is read that is not
there. -/
def temperatures (stats : Option (List ℤ)) : ℕ → ℕ → List ApiField → Option (List ApiField)
  | 0, _, root => some root
  | n + 1, i, root =>
    (stats.bind (·[i]?)).bind fun x =>
      let temp := Float32.ofInt x
      if temp == 0 then temperatures stats n (i + 1) root
      else
        let buf := literal "Temperature" ++ printUint i
        temperatures stats n (i + 1) (root ++ [⟨buf, .temp temp⟩])

/-- `minergate_api_extra_device_status`. -/
def apiExtraDeviceStatus (dev : Stats) : Option (List ApiField) :=
  if 1 < dev.statsCount then temperatures dev.stats dev.statsCount.toNat 0 [] else some []

/-- As many numbers are kept as the count says, and these fit. -/
structure Sound (dev : Stats) : Prop where
  room : (dev.stats.getD []).length ≤ 0x80
  count : dev.statsCount.toNat = (dev.stats.getD []).length

/-- What is expected of a line: the numbers fit, as many are kept as the count says, and only these
are reported. -/
def Law (line : Line) : Prop :=
  ∃ dev, readLine line = some dev ∧ Sound dev ∧ (apiExtraDeviceStatus dev).isSome = true

/-- A line begins with a number, which white space may precede. -/
def StartsWithNumber (line : Line) : Prop :=
  (readNumber (CStr.ofMem line.bytes).bytes).isSome = true

/-- Another word has a space before it. -/
theorem nextWord_eq_nil_or (endptr : List UInt8) :
    nextWord endptr = [] ∨ (nextWord endptr).length < endptr.length := by
  rw [nextWord]
  cases hrest : endptr.dropWhile fun c => !isSpace c with
  | nil => exact Or.inl rfl
  | cons c t =>
    have hspace : isSpace c = true := by
      have hhead := List.head?_dropWhile_not (fun c => !isSpace c) endptr
      simpa [hrest] using hhead
    have hle : (c :: t).length ≤ endptr.length := hrest ▸ (List.dropWhile_suffix _).length_le
    have hshort : (t.dropWhile isSpace).length ≤ t.length := (List.dropWhile_suffix _).length_le
    rw [List.dropWhile_cons_of_pos hspace]
    rw [List.length_cons] at hle
    exact Or.inr (by omega)

/-- There is room for the numbers of a line that may still be found: each but the last takes up two
characters. -/
def Room (p : List UInt8) (nums : List ℤ) : Prop :=
  nums.length ≤ 0x80 ∧ (p = [] ∨ 2 * nums.length + p.length ≤ 0xff)

theorem Room.next {p : List UInt8} {nums : List ℤ} (H : Room p nums) (hp : p ≠ [])
    (hmore : (strtol p).2.length ≠ p.length) (n : ℤ) :
    Room (nextWord (strtol p).2) (nums ++ [n]) := by
  have hroom := H.2.resolve_left hp
  have hpos := List.length_pos_iff.mpr hp
  have hlt := lt_of_le_of_ne (strtol_length_le p) hmore
  rw [Room, List.length_append, List.length_singleton]
  refine ⟨by omega, ?_⟩
  rcases nextWord_eq_nil_or (strtol p).2 with hnil | hshort
  · exact Or.inl hnil
  · exact Or.inr (by omega)

/-- The numbers of a line fit, and there is one exactly if the line begins with it. -/
theorem numbers_spec {p : List UInt8} {nums : List ℤ} (H : Room p nums) (maxTemp : Float32) :
    ∃ more temp, numbers p nums maxTemp = some (nums ++ more, temp) ∧
      nums.length + more.length ≤ 0x80 ∧ (more = [] ↔ readNumber p = none) := by
  induction hn : p.length using Nat.strong_induction_on generalizing p nums maxTemp with
  | h n ih =>
    rw [numbers]
    by_cases hp : p = []
    · have hnone : readNumber [] = none := by decide
      exact ⟨[], maxTemp, by rw [if_pos hp, List.append_nil], H.1, by simp [hp, hnone]⟩
    have hroom := H.2.resolve_left hp
    have hpos := List.length_pos_iff.mpr hp
    rw [if_neg hp, if_neg (by omega)]
    by_cases hmore : (strtol p).2.length = p.length
    · have hnone : readNumber p = none := by
        cases hread : readNumber p with
        | none => rfl
        | some found =>
          have hlt := length_lt_of_readNumber hread
          simp only [strtol, hread] at hmore
          omega
      exact ⟨[], maxTemp, by rw [if_pos hmore, List.append_nil], H.1, by simp [hnone]⟩
    · have hsome : readNumber p ≠ none := fun h => hmore (congrArg _ (strtol_eq_self_iff.mpr h))
      obtain ⟨more, temp, hrun, hle, -⟩ :=
        ih _ (hn ▸ nextWord_length_lt hmore) (H.next hp hmore (strtol p).1)
          (if skipStats ≤ nums.length ∧ Float32.ofInt (strtol p).1 > maxTemp then
            Float32.ofInt (strtol p).1 else maxTemp) rfl
      refine ⟨(strtol p).1 :: more, temp, ?_, ?_, by simp [hsome]⟩
      · rw [if_neg hmore, hrun, List.append_assoc, List.singleton_append]
      · rw [List.length_append, List.length_singleton] at hle
        rw [List.length_cons]
        omega

/-- A report is made exactly if the temperatures are there that it reads. -/
theorem temperatures_isSome_iff (stats : Option (List ℤ)) (n i : ℕ) (root : List ApiField) :
    (temperatures stats n i root).isSome = true ↔ n = 0 ∨ i + n ≤ (stats.getD []).length := by
  induction n generalizing i root with
  | zero => simp [temperatures]
  | succ n ih =>
    rw [temperatures]
    cases hread : stats.bind (·[i]?) with
    | none =>
      have hge : (stats.getD []).length ≤ i := by
        cases stats with
        | none => exact Nat.zero_le i
        | some xs => simpa using hread
      simp
      omega
    | some x =>
      have hlt : i < (stats.getD []).length := by
        cases stats with
        | none => cases hread
        | some xs => exact (List.getElem?_eq_some_iff.mp hread).1
      rw [Option.bind_some]
      dsimp only
      split <;> rw [ih] <;> omega

/-- Where as many numbers are kept as the count says, a report is made. -/
theorem Sound.report {dev : Stats} (H : Sound dev) :
    (apiExtraDeviceStatus dev).isSome = true := by
  rw [apiExtraDeviceStatus]
  split
  · rw [temperatures_isSome_iff, H.count, Nat.zero_add]
    exact Or.inr le_rfl
  · rfl

theorem exists_readLine_eq (line : Line) :
    ∃ nums temp, readLine line = some (ofNumbers nums temp) ∧ nums.length ≤ 0x80 ∧
      (StartsWithNumber line ↔ nums ≠ []) := by
  have hlen : (CStr.ofMem line.bytes).bytes.length ≤ 0xff :=
    (CStr.ofMem_length_le line.bytes).trans line.length_le
  have hroom : Room (CStr.ofMem line.bytes).bytes [] :=
    ⟨by decide, Or.inr (by simpa using hlen)⟩
  obtain ⟨nums, temp, hrun, hle, hnil⟩ := numbers_spec hroom 0
  refine ⟨nums, temp, ?_, by simpa using hle, ?_⟩
  · rw [readLine, hrun]
    rfl
  · rw [StartsWithNumber, Option.isSome_iff_ne_none, Ne, ← hnil]

/-- Of any numbers, as many temperatures are kept as are counted. -/
theorem sound_ofNumbers {nums : List ℤ} (hnums : nums ≠ []) (hle : nums.length ≤ 0x80)
    (maxTemp : Float32) : Sound (ofNumbers nums maxTemp) := by
  obtain ⟨n, rest, rfl⟩ := List.exists_cons_of_ne_nil hnums
  have hi : ((n :: rest).length : ℤ) - skipStats = rest.length := by simp [skipStats]
  have hkept : ((ofNumbers (n :: rest) maxTemp).stats).getD [] = rest := by
    rw [ofNumbers, hi]
    cases rest <;> simp [skipStats]
  rw [List.length_cons] at hle
  constructor
  · rw [hkept]
    omega
  · have hcount := UInt32.natCast_toNat_ofInt rest.length
    rw [hkept, ofNumbers, hi]
    dsimp only
    omega

/-- The count of none is that of no number less one. -/
theorem not_sound_ofNumbers_nil (maxTemp : Float32) : ¬Sound (ofNumbers [] maxTemp) := by
  intro H
  have hcount : (0xffffffff : UInt32).toNat = 0 := H.count
  exact absurd hcount (by decide)

/-- **The driver keeps as many temperatures as it counts** exactly of the lines that begin with a
number. -/
theorem stats_law_iff (line : Line) : Law line ↔ StartsWithNumber line := by
  obtain ⟨nums, temp, hread, hle, hstarts⟩ := exists_readLine_eq line
  rw [hstarts]
  constructor
  · rintro ⟨dev, hdev, hsound, -⟩ rfl
    obtain rfl := Option.some.inj (hread.symm.trans hdev)
    exact not_sound_ofNumbers_nil temp hsound
  · intro hnums
    have hsound := sound_ofNumbers hnums hle temp
    exact ⟨_, hread, hsound, hsound.report⟩

/-- A line with nothing in it. -/
def blankLine : Line := ⟨[0xa], by decide⟩

/-- None is kept of its temperatures, and `2 ^ 32 - 1` are counted. -/
theorem not_law_blank : ¬∀ line, Law line := by
  intro H
  have hread : readLine blankLine = some ⟨none, 0xffffffff, 0⟩ := by
    have htext : (CStr.ofMem blankLine.bytes).bytes = [0xa] := by decide
    rw [readLine, htext, numbers]
    rfl
  obtain ⟨dev, hdev, hsound, -⟩ := H blankLine
  obtain rfl := Option.some.inj (hread.symm.trans hdev)
  exact absurd hsound.count (by decide)

/-- Whatever the file is, what is kept of it is as good as before, if its first line begins with a
number where there is one. -/
theorem getStats_sound {dev dev' : Stats} {file : Option (List UInt8)} (hdev : Sound dev)
    (hline : ∀ line ∈ file.bind fgets, StartsWithNumber line)
    (hrun : getStats file dev = some dev') : Sound dev' := by
  rw [getStats] at hrun
  cases hfile : file.bind fgets with
  | none =>
    rw [hfile] at hrun
    exact Option.some.inj hrun ▸ hdev
  | some line =>
    rw [hfile] at hrun
    obtain ⟨nums, temp, hread, hle, hstarts⟩ := exists_readLine_eq line
    obtain rfl := Option.some.inj (hread.symm.trans hrun)
    exact sound_ofNumbers (hstarts.mp (hline line hfile)) hle temp

end MinergateStats
end MassGridMiner

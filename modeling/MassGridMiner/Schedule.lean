import MassGridMiner.Lib.Atof
import MassGridMiner.Lib.Format
import MassGridMiner.Lib.Run

/-!
# The hours of mining

Mining may be given a time of day to start at and one to stop at.  A time that is not given as
hours and minutes is to be the time at which the program was started; which times those are is
kept in the seconds of the two.  The watchdog asks again and again whether to run.

## Main definitions

* `setSchedtime`, `shouldRun` — the source's functions.
* `startSchedule` — the options, and what `main` makes of them.
* `Watch.step` — the watchdog from minute to minute.
* `Meets` — what is asked of an answer.
* `allSteps_meets_iff` — for which times every answer is right.
-/

namespace MassGridMiner

open CStr

/-! ## The source -/

/-- The fields of `struct tm` that are used. -/
structure Tm where
  hour : ℤ
  min : ℤ
  sec : ℤ
  deriving DecidableEq

/-- `struct schedtime`. -/
structure Schedtime where
  enable : Bool
  tm : Tm
  deriving DecidableEq

/-- `schedstart` and `schedstop`. -/
structure Schedule where
  schedstart : Schedtime
  schedstop : Schedtime
  deriving DecidableEq

/-- `sscanf(arg, "%d:%d", &tm.tm_hour, &tm.tm_min)`: how many numbers there are, and the time with
those that are. -/
def scanTime (arg : List UInt8) (tm : Tm) : ℕ × Tm :=
  match scanInt arg with
  | none => (0, tm)
  | some (hour, 0x3a :: rest) =>
    match scanInt rest with
    | none => (1, { tm with hour })
    | some (min, _) => (2, { tm with hour, min })
  | some (hour, _) => (1, { tm with hour })

/-- The argument of `set_schedtime` that tells the options apart. -/
inductive SchedOption
  | schedStart
  | schedStop
  deriving DecidableEq

namespace Schedule

def get (s : Schedule) : SchedOption → Schedtime
  | .schedStart => s.schedstart
  | .schedStop => s.schedstop

def set (s : Schedule) (st : Schedtime) : SchedOption → Schedule
  | .schedStart => { s with schedstart := st }
  | .schedStop => { s with schedstop := st }

end Schedule

/-- `set_schedtime`: an error, and what becomes of the times. -/
def setSchedtime (arg : CStr) (opt : SchedOption) (s : Schedule) : Option String × Schedule :=
  let (count, tm) := scanTime arg.bytes (s.get opt).tm
  let s := s.set { s.get opt with tm } opt
  if count ≠ 2 ∧ !equalNoCase arg.bytes (literal "now") then
    (some "Invalid time set, should be HH:MM", s)
  else
    let s := if count ≠ 2 then s
      else { s with schedstop := { s.schedstop with tm := { s.schedstop.tm with sec := 0 } } }
    if 23 < tm.hour ∨ 59 < tm.min ∨ tm.hour < 0 ∨ tm.min < 0 then (some "Invalid time set.", s)
    else (none, s.set { s.get opt with enable := true } opt)

/-- `time_before`. -/
def timeBefore (tm1 tm2 : Tm) : Bool :=
  if tm1.hour < tm2.hour then true
  else if tm1.hour = tm2.hour ∧ tm1.min < tm2.min then true
  else false

/-- `should_run`, at a local time. -/
def shouldRun (s : Schedule) (tm : Tm) : Bool × Schedule :=
  if !s.schedstart.enable && !s.schedstop.enable then (true, s)
  else
    let withinRange :=
      if timeBefore s.schedstop.tm s.schedstart.tm then
        timeBefore tm s.schedstop.tm || !timeBefore tm s.schedstart.tm
      else timeBefore tm s.schedstop.tm && !timeBefore tm s.schedstart.tm
    if withinRange && !s.schedstop.enable then
      (withinRange, { s with schedstart := { s.schedstart with enable := false } })
    else (withinRange, s)

/-! ## The options -/

/-- Before the options are read. -/
def schedMarkers : Schedule := ⟨⟨false, ⟨0, 0, 1⟩⟩, ⟨false, ⟨0, 0, 1⟩⟩⟩

/-- An option, if it is given; with an error the program ends. -/
def readOption (opt : SchedOption) (arg : Option CStr) (s : Schedule) : Option Schedule :=
  match arg with
  | none => some s
  | some arg =>
    match setSchedtime arg opt s with
    | (none, s) => some s
    | (some _, _) => none

/-- The times that are not given are that of the start of the program. -/
def schedDefaults (started : Tm) (s : Schedule) : Schedule :=
  let s := if s.schedstart.tm.sec ≠ 0 then
    { s with schedstart := { s.schedstart with tm := started } } else s
  if s.schedstop.tm.sec ≠ 0 then
    { s with schedstop := { s.schedstop with tm := started } } else s

/-- The two options, in either order, and what `main` makes of them. -/
def startSchedule (start stop : Option CStr) (stopFirst : Bool) (started : Tm) : Option Schedule :=
  (if stopFirst then
    (readOption .schedStop stop schedMarkers).bind (readOption .schedStart start)
  else (readOption .schedStart start schedMarkers).bind (readOption .schedStop stop)).map
    (schedDefaults started)

/-! ## The watchdog -/

/-- A minute, counted from some midnight, and a second, as local time. -/
def localtime (minute sec : ℕ) : Tm := ⟨(minute / 60 % 24 : ℕ), (minute % 60 : ℕ), sec⟩

/-- The watchdog, in a minute in which it has or has not asked yet. -/
structure Watch where
  sched : Schedule
  minute : ℕ
  asked : Bool
  schedPaused : Bool
  ended : Bool
  deriving DecidableEq

/-- The watchdog asks at some second of the minute, or the minute is over. -/
inductive WatchEvent
  | ask (sec : ℕ)
  | nextMinute

/-- A step of the watchdog, which asks at least once in every minute until the program ends. -/
def Watch.step (w : Watch) : WatchEvent → Option Watch
  | .ask sec =>
    if w.ended then none
    else
      let (run, sched) := shouldRun w.sched (localtime w.minute sec)
      let w := { w with sched, asked := true }
      if !w.schedPaused && !run then
        some { w with schedPaused := true, ended := !w.sched.schedstart.enable }
      else if w.schedPaused && run then some { w with schedPaused := false }
      else some w
  | .nextMinute =>
    if w.asked && !w.ended then some { w with minute := w.minute + 1, asked := false } else none

/-- The watchdog at the start of the program. -/
def Watch.init (sched : Schedule) (minute : ℕ) : Watch := ⟨sched, minute, false, false, false⟩

/-! ## What is asked of the answers -/

/-- A time that is set. -/
inductive SchedTime
  | now
  | clock (hour : Fin 24) (min : Fin 60)
  deriving DecidableEq

/-- The minute of the day that is set, for a program that starts in a minute. -/
def SchedTime.minute (started : ℕ) : SchedTime → ℕ
  | .now => started % 1440
  | .clock hour min => 60 * hour + min

/-- A text for a time: hours and minutes in decimal, with leading zeros or none. -/
def SchedTime.Spells : SchedTime → List UInt8 → Prop
  | .now, arg => equalNoCase arg (literal "now") = true
  | .clock hour min, arg => ∃ hs ms, arg = hs ++ 0x3a :: ms ∧
      hs ≠ [] ∧ (∀ c ∈ hs, 0x30 ≤ c ∧ c ≤ 0x39) ∧ ofDigits 10 hs = hour ∧
      ms ≠ [] ∧ (∀ c ∈ ms, 0x30 ≤ c ∧ c ≤ 0x39) ∧ ofDigits 10 ms = min

/-- The argument of an option, and the time that it stands for. -/
structure SchedArg where
  time : SchedTime
  arg : CStr
  spells : time.Spells arg.bytes

/-- A minute of the day is in the interval from one to another around the clock. -/
def InCycle (a b m : ℕ) : Prop := (m + 1440 - a) % 1440 < (b + 1440 - a) % 1440

instance (a b m : ℕ) : Decidable (InCycle a b m) := inferInstanceAs (Decidable (_ < _))

/-- The answer in a minute is right.  Without any time set nothing is asked of it. -/
def Meets (started : ℕ) (minute : ℕ) (run : Bool) : Option SchedTime → Option SchedTime → Prop
  | none, none => True
  | some start, some stop =>
    run = true ↔ InCycle (start.minute started) (stop.minute started) (minute % 1440)
  | some start, none =>
    run = true ↔ ∃ m, started ≤ m ∧ m ≤ minute ∧ m % 1440 = start.minute started
  | none, some stop =>
    run = true ↔ ¬ ∃ m, started ≤ m ∧ m ≤ minute ∧ m % 1440 = stop.minute started

/-! ## Reading the options -/

/-- Digits are read up to a character that is none. -/
theorem scanInt_digits {ds rest : List UInt8} (hne : ds ≠ [])
    (hds : ∀ c ∈ ds, 0x30 ≤ c ∧ c ≤ 0x39) (hrest : ∀ c ∈ rest.head?, 10 ≤ digitValue c)
    (hlt : ofDigits 10 ds < 2 ^ 31) : scanInt (ds ++ rest) = some ((ofDigits 10 ds : ℤ), rest) := by
  obtain ⟨c, ds', rfl⟩ := List.exists_cons_of_ne_nil hne
  obtain ⟨hspace, hminus, hplus, -⟩ := isDigit_facts (hds c List.mem_cons_self)
  have hdigits := digits_append_of_forall (fun c hc => (isDigit_facts (hds c hc)).2.2.2) hrest
  have hblank : ((c :: ds') ++ rest).dropWhile isSpace = (c :: ds') ++ rest := by
    rw [List.cons_append, List.dropWhile_cons_of_neg (by simp [hspace])]
  have hsign : sign ((c :: ds') ++ rest) = (false, (c :: ds') ++ rest) := by
    rw [List.cons_append, sign.eq_3]
    · exact fun _ h => hminus (List.cons.inj h).1
    · exact fun _ h => hplus (List.cons.inj h).1
  rw [scanInt, hblank, hsign]
  dsimp only
  rw [hdigits, if_neg hne, List.drop_left]
  generalize ofDigits 10 (c :: ds') = n at *
  have hlong : max (-2 ^ 63) (min (2 ^ 63 - 1) (n : ℤ)) = n := by omega
  have hint : (n : ℤ).bmod (2 ^ 32) = n := by
    have hsize : ((2 ^ 32 : ℕ) : ℤ) = 4294967296 := rfl
    apply Int.bmod_eq_of_le_mul_two
    · rw [hsize]
      omega
    · rw [hsize]
      omega
  rw [if_neg Bool.false_ne_true, hlong, hint]

theorem scanTime_clock {hour : Fin 24} {min : Fin 60} {arg : List UInt8}
    (H : (SchedTime.clock hour min).Spells arg) (tm : Tm) :
    scanTime arg tm = (2, { tm with hour := (hour : ℕ), min := (min : ℕ) }) := by
  obtain ⟨hs, ms, rfl, hhs, hhdig, hhour, hms, hmdig, hmin⟩ := H
  have hcolon : ∀ c ∈ ((0x3a : UInt8) :: ms).head?, 10 ≤ digitValue c := by
    intro c hc
    obtain rfl := Option.some.inj hc
    decide
  have hscan := scanInt_digits hhs hhdig hcolon (by rw [hhour]; omega)
  have hend : ∀ c ∈ ([] : List UInt8).head?, 10 ≤ digitValue c := by simp
  have hscan' := scanInt_digits hms hmdig hend (by rw [hmin]; omega)
  rw [List.append_nil] at hscan'
  simp only [scanTime, hscan, hscan', hhour, hmin]

/-- In no case is the word `now` a number. -/
theorem scanTime_now {arg : List UInt8} (H : SchedTime.now.Spells arg) (tm : Tm) :
    scanTime arg tm = (0, tm) := by
  have hmap : arg.map tolower = [0x6e, 0x6f, 0x77] := by
    have hnow : (literal "now").map tolower = [0x6e, 0x6f, 0x77] := by decide +kernel
    rw [← hnow]
    exact beq_iff_eq.mp H
  obtain ⟨c, rest, rfl⟩ : ∃ c rest, arg = c :: rest := by
    cases arg with
    | nil => cases hmap
    | cons c rest => exact ⟨c, rest, rfl⟩
  have hc : tolower c = 0x6e := (List.cons.inj hmap).1
  have hletter : c = 0x4e ∨ c = 0x6e := by
    rw [tolower] at hc
    split at hc
    · left
      have hsub := congrArg (· - 0x20) hc
      simpa using hsub
    · exact .inr hc
  rw [scanTime]
  rcases hletter with rfl | rfl
  · rfl
  · rfl

/-- A time as hours and minutes is taken over, and the mark in the seconds of `schedstop` goes,
whichever option it is for. -/
theorem setSchedtime_clock {hour : Fin 24} {min : Fin 60} {arg : CStr}
    (H : (SchedTime.clock hour min).Spells arg.bytes) (s : Schedule) :
    setSchedtime arg .schedStart s =
        (none, ⟨⟨true, ⟨(hour : ℕ), (min : ℕ), s.schedstart.tm.sec⟩⟩,
          { s.schedstop with tm := { s.schedstop.tm with sec := 0 } }⟩) ∧
      setSchedtime arg .schedStop s =
        (none, { s with schedstop := ⟨true, ⟨(hour : ℕ), (min : ℕ), 0⟩⟩ }) := by
  have hrange : ¬ ((23 : ℤ) < (hour : ℕ) ∨ (59 : ℤ) < (min : ℕ) ∨ ((hour : ℕ) : ℤ) < 0 ∨
      ((min : ℕ) : ℤ) < 0) := by omega
  constructor
  all_goals
    rw [setSchedtime, scanTime_clock H]
    simp only [ne_eq, not_true_eq_false, false_and, if_false, if_neg hrange]
    rfl

theorem setSchedtime_now {arg : CStr} (H : SchedTime.now.Spells arg.bytes) (opt : SchedOption)
    {s : Schedule} (hhour : (s.get opt).tm.hour = 0) (hmin : (s.get opt).tm.min = 0) :
    setSchedtime arg opt s = (none, s.set { s.get opt with enable := true } opt) := by
  have hnow : equalNoCase arg.bytes (literal "now") = true := H
  have hcount : (0 : ℕ) ≠ 2 := by decide
  have hrange : ¬ (23 < (s.get opt).tm.hour ∨ 59 < (s.get opt).tm.min ∨
      (s.get opt).tm.hour < 0 ∨ (s.get opt).tm.min < 0) := by
    rw [hhour, hmin]
    decide
  rw [setSchedtime, scanTime_now H]
  dsimp only
  rw [hnow, if_neg (by simp), if_neg hrange, if_pos hcount]
  cases opt with
  | schedStart => rfl
  | schedStop => rfl

/-- What becomes of the times when an option is read, if it is given. -/
def afterOption (s : Schedule) : SchedOption → Option SchedTime → Schedule
  | _, none => s
  | opt, some .now => s.set { s.get opt with enable := true } opt
  | .schedStart, some (.clock hour min) =>
    ⟨⟨true, ⟨(hour : ℕ), (min : ℕ), s.schedstart.tm.sec⟩⟩,
      { s.schedstop with tm := { s.schedstop.tm with sec := 0 } }⟩
  | .schedStop, some (.clock hour min) =>
    { s with schedstop := ⟨true, ⟨(hour : ℕ), (min : ℕ), 0⟩⟩ }

theorem readOption_eq (opt : SchedOption) (a : Option SchedArg) {s : Schedule}
    (hhour : (s.get opt).tm.hour = 0) (hmin : (s.get opt).tm.min = 0) :
    readOption opt (a.map SchedArg.arg) s = some (afterOption s opt (a.map SchedArg.time)) := by
  cases a with
  | none => rw [Option.map_none, Option.map_none, readOption, afterOption]
  | some a =>
      obtain ⟨time, arg, H⟩ := a
      rw [Option.map_some, Option.map_some, readOption]
      cases time with
      | now => rw [setSchedtime_now H opt hhour hmin, afterOption]
      | clock hour min =>
          cases opt with
          | schedStart => rw [(setSchedtime_clock H s).1, afterOption]
          | schedStop => rw [(setSchedtime_clock H s).2, afterOption]

/-- The option that comes second finds its own time as it was before. -/
theorem get_afterOption {opt opt' : SchedOption} (hne : opt' ≠ opt) (time : Option SchedTime) :
    ((afterOption schedMarkers opt time).get opt').tm.hour = 0 ∧
      ((afterOption schedMarkers opt time).get opt').tm.min = 0 := by
  cases opt with
  | schedStart =>
      obtain rfl : opt' = .schedStop := by cases opt' <;> first | exact absurd rfl hne | rfl
      obtain _ | _ | _ := time <;> exact ⟨rfl, rfl⟩
  | schedStop =>
      obtain rfl : opt' = .schedStart := by cases opt' <;> first | exact absurd rfl hne | rfl
      obtain _ | _ | _ := time <;> exact ⟨rfl, rfl⟩

/-- The time in `schedstop` behind the options: that of its own, and otherwise that of the start
of the program only if no option has hours and minutes. -/
def stopTm (start stop : Option SchedTime) (started : Tm) : Tm :=
  match stop, start with
  | some (.clock hour min), _ => ⟨(hour : ℕ), (min : ℕ), 0⟩
  | _, some (.clock _ _) => ⟨0, 0, 0⟩
  | _, _ => started

/-- The mark in the seconds of `schedstart` is never taken away. -/
theorem startSchedule_eq (start stop : Option SchedArg) (stopFirst : Bool) (started : Tm) :
    startSchedule (start.map SchedArg.arg) (stop.map SchedArg.arg) stopFirst started =
      some ⟨⟨start.isSome, started⟩,
        ⟨stop.isSome, stopTm (start.map SchedArg.time) (stop.map SchedArg.time) started⟩⟩ := by
  have hisSome : ∀ a : Option SchedArg, a.isSome = (a.map SchedArg.time).isSome := by
    intro a
    rw [Option.isSome_map]
  rw [startSchedule, hisSome start, hisSome stop]
  cases stopFirst with
  | true =>
      have hne : SchedOption.schedStart ≠ .schedStop := by decide
      obtain ⟨hhour, hmin⟩ := get_afterOption hne (stop.map SchedArg.time)
      rw [if_pos rfl, readOption_eq .schedStop stop rfl rfl, Option.bind_some,
        readOption_eq .schedStart start hhour hmin, Option.map_some]
      generalize start.map SchedArg.time = a
      generalize stop.map SchedArg.time = b
      obtain _ | _ | _ := a <;> obtain _ | _ | _ := b <;> rfl
  | false =>
      have hne : SchedOption.schedStop ≠ .schedStart := by decide
      obtain ⟨hhour, hmin⟩ := get_afterOption hne (start.map SchedArg.time)
      rw [if_neg Bool.false_ne_true, readOption_eq .schedStart start rfl rfl, Option.bind_some,
        readOption_eq .schedStop stop hhour hmin, Option.map_some]
      generalize start.map SchedArg.time = a
      generalize stop.map SchedArg.time = b
      obtain _ | _ | _ := a <;> obtain _ | _ | _ := b <;> rfl

/-! ## Minutes of the day -/

theorem timeBefore_iff {a b c d : ℕ} {x y : ℤ} (hb : b < 60) (hd : d < 60) :
    timeBefore ⟨(a : ℕ), (b : ℕ), x⟩ ⟨(c : ℕ), (d : ℕ), y⟩ = true ↔ 60 * a + b < 60 * c + d := by
  rw [timeBefore]
  dsimp only
  split
  next => simp; omega
  next =>
    split
    next => simp; omega
    next => simp; omega

theorem inCycle_iff {a b m : ℕ} (ha : a < 1440) (hb : b < 1440) (hm : m < 1440) :
    InCycle a b m ↔ if b < a then m < b ∨ ¬ m < a else m < b ∧ ¬ m < a := by
  rw [InCycle]
  split <;> omega

/-- The minute is reached once so many minutes are over. -/
theorem reached_iff {started minute a : ℕ} (hle : started ≤ minute) (ha : a < 1440) :
    (∃ m, started ≤ m ∧ m ≤ minute ∧ m % 1440 = a) ↔
      (a + 1440 - started % 1440) % 1440 ≤ minute - started := by
  constructor
  · rintro ⟨m, hm, hmin, rfl⟩
    omega
  · intro H
    exact ⟨started + (a + 1440 - started % 1440) % 1440, by omega, by omega, by omega⟩

/-- A time of day, as a minute of it. -/
def AtMinute (tm : Tm) (a : ℕ) : Prop :=
  a < 1440 ∧ ∃ (h m : ℕ) (sec : ℤ), tm = ⟨(h : ℕ), (m : ℕ), sec⟩ ∧ m < 60 ∧ a = 60 * h + m

theorem atMinute_localtime (minute sec : ℕ) : AtMinute (localtime minute sec) (minute % 1440) :=
  ⟨by omega, minute / 60 % 24, minute % 60, sec, rfl, by omega, by omega⟩

theorem AtMinute.timeBefore_iff {tm1 tm2 : Tm} {a b : ℕ} (H : AtMinute tm1 a)
    (H' : AtMinute tm2 b) : timeBefore tm1 tm2 = decide (a < b) := by
  obtain ⟨-, h, m, sec, rfl, hm, rfl⟩ := H
  obtain ⟨-, h', m', sec', rfl, hm', rfl⟩ := H'
  rw [Bool.eq_iff_iff, MassGridMiner.timeBefore_iff hm hm', decide_eq_true_eq]

/-- With a time set, the answer is whether the minute is in the interval; a start without a stop
is then no longer set. -/
theorem shouldRun_eq {s : Schedule} {tm : Tm} {a b m : ℕ} (ha : AtMinute s.schedstart.tm a)
    (hb : AtMinute s.schedstop.tm b) (hm : AtMinute tm m)
    (hset : (s.schedstart.enable || s.schedstop.enable) = true) :
    shouldRun s tm = (decide (InCycle a b m),
      if InCycle a b m ∧ s.schedstop.enable = false then
        { s with schedstart := { s.schedstart with enable := false } } else s) := by
  have hwithin : (if timeBefore s.schedstop.tm s.schedstart.tm then
      timeBefore tm s.schedstop.tm || !timeBefore tm s.schedstart.tm
      else timeBefore tm s.schedstop.tm && !timeBefore tm s.schedstart.tm) =
        decide (InCycle a b m) := by
    have hcycle := inCycle_iff ha.1 hb.1 hm.1
    rw [hb.timeBefore_iff ha, hm.timeBefore_iff hb, hm.timeBefore_iff ha]
    by_cases hba : b < a
    · rw [if_pos hba] at hcycle
      rw [if_pos (decide_eq_true hba)]
      simp only [hcycle, Bool.decide_or, decide_not]
    · rw [if_neg hba] at hcycle
      rw [if_neg (by simpa using hba)]
      simp only [hcycle, Bool.decide_and, decide_not]
  have hnone : (!s.schedstart.enable && !s.schedstop.enable) = false := by
    rw [← Bool.not_or, hset]
    rfl
  rw [shouldRun]
  dsimp only
  rw [hnone, hwithin, if_neg Bool.false_ne_true]
  by_cases hin : InCycle a b m
  · cases s.schedstop.enable <;> simp [hin]
  · simp [hin]

/-! ## Steps of the watchdog -/

/-- The answer of `should_run`. -/
def Watch.answer (w : Watch) (sec : ℕ) : Bool := (shouldRun w.sched (localtime w.minute sec)).1

/-- The times behind it. -/
def Watch.schedBehind (w : Watch) (sec : ℕ) : Schedule :=
  (shouldRun w.sched (localtime w.minute sec)).2

/-- Mining is paused unless the answer is to run, and the program ends if it is not to start
again. -/
theorem Watch.step_ask (w : Watch) (sec : ℕ) (H : w.ended = false) :
    w.step (.ask sec) = some ⟨w.schedBehind sec, w.minute, true, !w.answer sec,
      !w.schedPaused && !w.answer sec && !(w.schedBehind sec).schedstart.enable⟩ := by
  obtain ⟨sched, minute, asked, paused, ended⟩ := w
  dsimp only at H
  subst H
  rw [Watch.step, Watch.schedBehind, Watch.answer]
  dsimp only
  generalize shouldRun sched (localtime minute sec) = r
  obtain ⟨run, behind⟩ := r
  cases paused <;> cases run <;> rfl

theorem Watch.eq_of_step_ask {w w' : Watch} {sec : ℕ} (H : w.step (.ask sec) = some w') :
    w.ended = false ∧ w' = ⟨w.schedBehind sec, w.minute, true, !w.answer sec,
      !w.schedPaused && !w.answer sec && !(w.schedBehind sec).schedstart.enable⟩ := by
  cases hrunning : w.ended with
  | true =>
      rw [Watch.step, hrunning, if_pos rfl] at H
      cases H
  | false => exact ⟨rfl, (Option.some.inj ((w.step_ask sec hrunning).symm.trans H)).symm⟩

/-- The step at the end of a minute. -/
theorem Watch.step_nextMinute {w w' : Watch} (H : w.step .nextMinute = some w') :
    w.asked = true ∧ w.ended = false ∧ w' = { w with minute := w.minute + 1, asked := false } := by
  rw [Watch.step] at H
  obtain ⟨hcond, heq⟩ := Option.ite_none_right_eq_some.mp H
  rw [Bool.and_eq_true, Bool.not_eq_true'] at hcond
  exact ⟨hcond.1, hcond.2, (Option.some.inj heq).symm⟩

/-- Every answer of a step is right. -/
def Right (started : ℕ) (start stop : Option SchedTime) (w : Watch) (e : WatchEvent)
    (_ : Watch) : Prop :=
  ∀ sec, e = .ask sec → Meets started w.minute (w.answer sec) start stop

/-- While asking changes no time and the program does not end, every later minute comes. -/
theorem exists_reach {w : Watch} (hrunning : w.ended = false)
    (hkeep : ∀ minute sec, (shouldRun w.sched (localtime minute sec)).2 = w.sched)
    (henable : w.sched.schedstart.enable = true) (k : ℕ) :
    ∃ es w', Run.exec Watch.step w es = some w' ∧ w'.sched = w.sched ∧
      w'.minute = w.minute + k ∧ w'.ended = false := by
  induction k with
  | zero => exact ⟨[], w, rfl, rfl, rfl, hrunning⟩
  | succ k ih =>
      obtain ⟨es, w', hrun, hsched, hminute, hrunning'⟩ := ih
      have hbehind : w'.schedBehind 0 = w.sched := by
        rw [Watch.schedBehind, hsched, hkeep]
      have hask := w'.step_ask 0 hrunning'
      rw [hbehind, henable, Bool.not_true, Bool.and_false] at hask
      refine ⟨es ++ [.ask 0, .nextMinute],
        ⟨w.sched, w'.minute + 1, false, !w'.answer 0, false⟩, ?_, rfl, ?_, rfl⟩
      · rw [Run.exec_append, hrun, Option.bind_some, Run.exec_cons, hask]
        rfl
      · dsimp only
        rw [hminute, Nat.add_assoc]

/-- If every answer is right, then so is the first one in a minute that is reached. -/
theorem meets_of_reach {started : ℕ} {start stop : Option SchedTime} {w : Watch}
    (hrunning : w.ended = false)
    (hkeep : ∀ minute sec, (shouldRun w.sched (localtime minute sec)).2 = w.sched)
    (henable : w.sched.schedstart.enable = true)
    (H : ∀ es, Run.AllSteps Watch.step (Right started start stop) w es) {minute : ℕ}
    (hminute : w.minute ≤ minute) :
    Meets started minute (shouldRun w.sched (localtime minute 0)).1 start stop := by
  obtain ⟨es, w', hrun, hsched, hw', hrunning'⟩ :=
    exists_reach hrunning hkeep henable (minute - w.minute)
  have hall := (Run.allSteps_append.mp (H (es ++ [.ask 0]))).2 w' hrun
  have hright := (hall _ (w'.step_ask 0 hrunning')).1 0 rfl
  rw [Watch.answer, hsched, hw', Nat.add_sub_cancel' hminute] at hright
  exact hright

/-! ## Which times are right -/

/-- The minute of the day in `schedstop` behind the options. -/
def stopMinute (started : ℕ) (start stop : Option SchedTime) : ℕ :=
  match stop, start with
  | some (.clock hour min), _ => 60 * hour + min
  | _, some (.clock _ _) => 0
  | _, _ => started % 1440

theorem atMinute_stopTm (started sec : ℕ) (start stop : Option SchedTime) :
    AtMinute (stopTm start stop (localtime started sec)) (stopMinute started start stop) := by
  have hlocal := atMinute_localtime started sec
  have hclock : ∀ (hour : Fin 24) (min : Fin 60),
      AtMinute ⟨(hour : ℕ), (min : ℕ), 0⟩ (60 * hour + min) := fun hour min =>
    ⟨by omega, hour, min, 0, rfl, min.isLt, rfl⟩
  have hzero : AtMinute ⟨0, 0, 0⟩ 0 := ⟨by decide, 0, 0, 0, rfl, by decide, rfl⟩
  rw [stopTm.eq_def, stopMinute.eq_def]
  obtain _ | _ | _ := stop <;> obtain _ | _ | _ := start <;>
    first | exact hclock _ _ | exact hzero | exact hlocal

theorem SchedTime.minute_lt (started : ℕ) (t : SchedTime) : t.minute started < 1440 := by
  cases t with
  | now => exact Nat.mod_lt _ (by decide)
  | clock hour min =>
      rw [SchedTime.minute]
      omega

section
variable {started sec : ℕ} {start stop : Option SchedTime} {s : Schedule}

/-- The times that `main` comes to, with a minute `b` for `schedstop`. -/
structure Started (s : Schedule) (started b : ℕ) (start stop : Option SchedTime) : Prop where
  startTm : AtMinute s.schedstart.tm (started % 1440)
  stopTm : AtMinute s.schedstop.tm b
  startEnable : s.schedstart.enable = start.isSome
  stopEnable : s.schedstop.enable = stop.isSome

/-- With both times set, no answer changes them. -/
theorem Started.both {b : ℕ} {x y : SchedTime} (H : Started s started b (some x) (some y))
    (minute sec : ℕ) : shouldRun s (localtime minute sec) =
      (decide (InCycle (started % 1440) b (minute % 1440)), s) := by
  rw [shouldRun_eq H.startTm H.stopTm (atMinute_localtime minute sec) (by rw [H.startEnable]; rfl),
    H.stopEnable, if_neg (by simp)]

/-- With both times set, the answers are right if the interval is the one that is meant. -/
theorem Started.both_iff {b : ℕ} {x y : SchedTime} (H : Started s started b (some x) (some y)) :
    (∀ es, Run.AllSteps Watch.step (Right started (some x) (some y)) (.init s started) es) ↔
      ∀ m < 1440,
        InCycle (started % 1440) b m ↔ InCycle (x.minute started) (y.minute started) m := by
  constructor
  · intro hall m hm
    have hmeets := meets_of_reach (w := .init s started) rfl
      (fun minute sec => congrArg Prod.snd (H.both minute sec)) H.startEnable hall
      (Nat.le_add_right started ((m + 1440 - started % 1440) % 1440))
    have hminute : (started + (m + 1440 - started % 1440) % 1440) % 1440 = m := by omega
    dsimp only [Watch.init] at hmeets
    rw [H.both, hminute] at hmeets
    rw [Meets, hminute, decide_eq_true_eq] at hmeets
    exact hmeets
  · intro hsame es
    refine Run.allSteps_of_invariant (I := fun w => w.sched = s) (fun w e w' hw hs => ?_) es rfl
    cases e with
    | ask sec =>
        obtain ⟨-, rfl⟩ := Watch.eq_of_step_ask hs
        have hrun := H.both w.minute sec
        rw [← hw] at hrun ⊢
        refine ⟨congrArg Prod.snd hrun, ?_⟩
        rintro sec' ⟨⟩
        rw [Meets, Watch.answer, hrun, decide_eq_true_eq]
        exact hsame _ (Nat.mod_lt _ (by decide))
    | nextMinute =>
        obtain ⟨-, -, rfl⟩ := Watch.step_nextMinute hs
        exact ⟨hw, nofun⟩

/-- Two intervals have the same minutes if they are the same or both are empty. -/
theorem inCycle_congr_iff {a b c d : ℕ} (ha : a < 1440) (hb : b < 1440) (hc : c < 1440)
    (hd : d < 1440) :
    (∀ m < 1440, InCycle a b m ↔ InCycle c d m) ↔ a = c ∧ b = d ∨ a = b ∧ c = d := by
  have hself : ∀ a < 1440, ∀ b < 1440, a ≠ b → InCycle a b a ∧ ¬InCycle a b b := by
    intro a ha b hb hne
    simp only [InCycle]
    omega
  have hnone : ∀ a m, ¬InCycle a a m := by
    intro a m
    simp only [InCycle]
    omega
  -- how far it is around the clock
  have hfar : ∀ a < 1440, ∀ m < 1440, (m + 1440 - a) % 1440 = if a ≤ m then m - a
      else m + 1440 - a := by
    intro a ha m hm
    split <;> omega
  constructor
  · intro H
    by_cases hab : a = b
    · subst hab
      exact .inr ⟨rfl, by_contra fun hcd => hnone a c ((H c hc).mpr (hself c hc d hd hcd).1)⟩
    · by_cases hcd : c = d
      · subst hcd
        exact absurd ((H a ha).mp (hself a ha b hb hab).1) (hnone c a)
      · have hac := (H a ha).mp (hself a ha b hb hab).1
        have hca := (H c hc).mpr (hself c hc d hd hcd).1
        have hbd : ¬InCycle c d b := fun h => (hself a ha b hb hab).2 ((H b hb).mpr h)
        have hdb : ¬InCycle a b d := fun h => (hself c hc d hd hcd).2 ((H d hd).mp h)
        simp only [InCycle, hfar, ha, hb, hc, hd, not_lt] at hac hca hbd hdb
        clear H
        refine .inl ?_
        split_ifs at hac hca hbd hdb <;> omega
  · rintro (⟨rfl, rfl⟩ | ⟨rfl, rfl⟩)
    · exact fun m _ => Iff.rfl
    · exact fun m _ => iff_of_false (hnone a m) (hnone c m)

/-- With only a start set, and the time in `schedstop` the same, no answer is to run. -/
theorem Started.never {x : SchedTime} (H : Started s started (started % 1440) (some x) none)
    (minute sec : ℕ) : shouldRun s (localtime minute sec) = (false, s) := by
  have hnot : ¬ InCycle (started % 1440) (started % 1440) (minute % 1440) := by
    rw [InCycle]
    omega
  rw [shouldRun_eq H.startTm H.stopTm (atMinute_localtime minute sec) (by rw [H.startEnable]; rfl),
    decide_eq_false hnot, if_neg (fun h => hnot h.1)]

/-- The start is reached within a day, and then the answer is wrong. -/
theorem Started.not_never {x : SchedTime} (H : Started s started (started % 1440) (some x) none) :
    ¬ ∀ es, Run.AllSteps Watch.step (Right started (some x) none) (.init s started) es := by
  intro hall
  have hlt := x.minute_lt started
  have hmeets := meets_of_reach (w := .init s started) rfl
    (fun minute sec => congrArg Prod.snd (H.never minute sec)) H.startEnable hall
    (Nat.le_add_right started ((x.minute started + 1440 - started % 1440) % 1440))
  dsimp only [Watch.init] at hmeets
  rw [H.never, Meets, reached_iff (Nat.le_add_right _ _) hlt] at hmeets
  exact absurd (hmeets.mpr (by omega)) Bool.false_ne_true

theorem shouldRun_of_unset {s : Schedule} (hstart : s.schedstart.enable = false)
    (hstop : s.schedstop.enable = false) (tm : Tm) : shouldRun s tm = (true, s) := by
  rw [shouldRun, hstart, hstop]
  rfl

/-- With only a start set, and another time in `schedstop`, the first answer is to run, and so is
every other. -/
theorem Started.once_iff {b : ℕ} {x : SchedTime} (H : Started s started b (some x) none)
    (hb : b ≠ started % 1440) :
    (∀ es, Run.AllSteps Watch.step (Right started (some x) none) (.init s started) es) ↔
      x.minute started = started % 1440 := by
  have hstop := H.stopTm.1
  have hin : InCycle (started % 1440) b (started % 1440) := by
    rw [InCycle]
    omega
  have hfirst : ∀ sec, shouldRun s (localtime started sec) =
      (true, { s with schedstart := { s.schedstart with enable := false } }) := by
    intro sec
    rw [shouldRun_eq H.startTm H.stopTm (atMinute_localtime started sec)
      (by rw [H.startEnable]; rfl), decide_eq_true hin, if_pos ⟨hin, H.stopEnable⟩]
  constructor
  · intro hall
    have hright := (hall [.ask 0] _ (Watch.step_ask (.init s started) 0 rfl)).1 0 rfl
    have hanswer : (Watch.init s started).answer 0 = true := congrArg Prod.fst (hfirst 0)
    rw [hanswer] at hright
    obtain ⟨m, hm, hm', hminute⟩ := hright.mp rfl
    obtain rfl : m = started := le_antisymm hm' hm
    exact hminute.symm
  · intro hminute es
    have hreached : ∀ minute, started ≤ minute →
        Meets started minute true (some x) none := by
      intro minute hle
      refine ⟨fun _ => ⟨started, le_refl _, hle, hminute.symm⟩, fun _ => rfl⟩
    -- either nothing was asked yet, or no time is set any more
    refine Run.allSteps_of_invariant (I := fun w =>
      w.sched = s ∧ w.minute = started ∧ w.asked = false ∨ w.sched.schedstart.enable = false ∧
        w.sched.schedstop.enable = false ∧ started ≤ w.minute) (fun w e w' hw hs => ?_) es
      (.inl ⟨rfl, rfl, rfl⟩)
    cases e with
    | ask sec =>
        obtain ⟨-, rfl⟩ := Watch.eq_of_step_ask hs
        obtain ⟨hsched, hmin, -⟩ | ⟨hstart, hstop, hle⟩ := hw
        · have hrun := hfirst sec
          rw [← hsched, ← hmin] at hrun
          refine ⟨.inr ⟨?_, ?_, hmin.ge⟩, ?_⟩
          · exact congrArg (fun r => r.2.schedstart.enable) hrun
          · exact (congrArg (fun r => r.2.schedstop.enable) hrun).trans (hsched ▸ H.stopEnable)
          · rintro sec' ⟨⟩
            rw [Watch.answer, hrun]
            exact hreached w.minute hmin.ge
        · have hrun := shouldRun_of_unset hstart hstop (localtime w.minute sec)
          refine ⟨.inr ⟨?_, ?_, hle⟩, ?_⟩
          · exact (congrArg (fun r => r.2.schedstart.enable) hrun).trans hstart
          · exact (congrArg (fun r => r.2.schedstop.enable) hrun).trans hstop
          · rintro sec' ⟨⟩
            rw [Watch.answer, hrun]
            exact hreached w.minute hle
    | nextMinute =>
        obtain ⟨hasked, -, rfl⟩ := Watch.step_nextMinute hs
        obtain ⟨-, -, hnot⟩ | ⟨hstart, hstop, hle⟩ := hw
        · rw [hnot] at hasked
          cases hasked
        · exact ⟨.inr ⟨hstart, hstop, hle.trans (Nat.le_succ _)⟩, nofun⟩

/-- With only a stop set, the answers are to run until it is reached. -/
theorem Started.until {y : SchedTime} (H : Started s started (y.minute started) none (some y))
    (es : List WatchEvent) :
    Run.AllSteps Watch.step (Right started none (some y)) (.init s started) es := by
  have hlt := y.minute_lt started
  obtain ⟨d, hd⟩ : ∃ d, (y.minute started + 1440 - started % 1440) % 1440 = d := ⟨_, rfl⟩
  have hcycle : ∀ minute, started ≤ minute → minute - started ≤ d →
      (InCycle (started % 1440) (y.minute started) (minute % 1440) ↔ minute - started < d) := by
    intro minute hle hday
    rw [InCycle]
    omega
  refine Run.allSteps_of_invariant (I := fun w => w.sched = s ∧ started ≤ w.minute ∧
    (w.ended = false → w.schedPaused = false ∧ w.minute - started ≤ d ∧
      (w.asked = true → w.minute - started < d))) (fun w e w' hw hs => ?_) es
    ⟨rfl, le_refl _, fun _ => ⟨rfl, by rw [Watch.init, Nat.sub_self]; omega, nofun⟩⟩
  obtain ⟨hsched, hle, hday⟩ := hw
  cases e with
  | ask sec =>
      obtain ⟨hrunning, rfl⟩ := Watch.eq_of_step_ask hs
      obtain ⟨hpaused, hday, -⟩ := hday hrunning
      have hrun : shouldRun w.sched (localtime w.minute sec) =
          (decide (w.minute - started < d), s) := by
        rw [hsched, shouldRun_eq H.startTm H.stopTm (atMinute_localtime w.minute sec)
          (by rw [H.stopEnable]; exact Bool.or_true _), H.stopEnable, if_neg (by simp)]
        simp only [hcycle w.minute hle hday]
      have hanswer : w.answer sec = decide (w.minute - started < d) := congrArg Prod.fst hrun
      have hbehind : w.schedBehind sec = s := congrArg Prod.snd hrun
      refine ⟨⟨hbehind, hle, fun hnotEnded => ?_⟩, ?_⟩
      · rw [hpaused, hbehind, H.startEnable, hanswer] at hnotEnded
        have hbefore : w.minute - started < d := by simpa using hnotEnded
        refine ⟨?_, hday, fun _ => hbefore⟩
        rw [hanswer, decide_eq_true hbefore]
        rfl
      · rintro sec' ⟨⟩
        rw [hanswer, Meets, reached_iff hle hlt, hd, decide_eq_true_eq]
        omega
  | nextMinute =>
      obtain ⟨hasked, hrunning, rfl⟩ := Watch.step_nextMinute hs
      obtain ⟨hpaused, -, hbefore⟩ := hday hrunning
      refine ⟨⟨hsched, hle.trans (Nat.le_succ _), fun _ => ⟨hpaused, ?_, nofun⟩⟩, nofun⟩
      have hlt := hbefore hasked
      dsimp only
      omega

end

/-- The times for which the answers are right: those that the start of the program takes the place
of must be that of the start of the program. -/
def SchedOk (started : ℕ) : Option SchedTime → Option SchedTime → Prop
  | none, _ => True
  | some .now, stop => stop ≠ none
  | some (.clock hour min), some (.clock _ _) => 60 * (hour : ℕ) + min = started % 1440
  | some (.clock hour min), some .now =>
    60 * (hour : ℕ) + min = started % 1440 ∧ started % 1440 = 0
  | some (.clock hour min), none =>
    60 * (hour : ℕ) + min = started % 1440 ∧ started % 1440 ≠ 0

/-- What `main` comes to from the options. -/
theorem started_startSchedule (start stop : Option SchedTime) (started sec : ℕ) :
    Started ⟨⟨start.isSome, localtime started sec⟩,
      ⟨stop.isSome, stopTm start stop (localtime started sec)⟩⟩ started
      (stopMinute started start stop) start stop :=
  ⟨atMinute_localtime started sec, atMinute_stopTm started sec start stop, rfl, rfl⟩

/-- The runs from the times that `main` comes to. -/
theorem Started.allSteps_iff {start stop : Option SchedTime} {started : ℕ} {s : Schedule}
    (H : Started s started (stopMinute started start stop) start stop) :
    (∀ es, Run.AllSteps Watch.step (Right started start stop) (.init s started) es) ↔
      SchedOk started start stop := by
  have hstarted : started % 1440 < 1440 := Nat.mod_lt _ (by decide)
  cases start with
  | none =>
      refine ⟨fun _ => trivial, fun _ es => ?_⟩
      cases stop with
      | none =>
          exact Run.allSteps_of_invariant (I := fun _ => True)
            (fun _ _ _ _ _ => ⟨trivial, fun _ _ => trivial⟩) es trivial
      | some y =>
          cases y with
          | now => exact H.until es
          | clock hour min => exact H.until es
  | some x =>
      cases stop with
      | none =>
          cases x with
          | now => exact iff_of_false H.not_never fun hok => hok rfl
          | clock hour min =>
              by_cases hzero : started % 1440 = 0
              · have hnever : Started s started (started % 1440) (some (.clock hour min)) none := by
                  rw [hzero]
                  exact H
                exact iff_of_false hnever.not_never fun hok => hok.2 hzero
              · refine (H.once_iff (Ne.symm hzero)).trans ?_
                exact ⟨fun hmin => ⟨hmin, hzero⟩, fun hok => hok.1⟩
      | some y =>
          rw [H.both_iff, inCycle_congr_iff hstarted H.stopTm.1 (x.minute_lt started)
            (y.minute_lt started)]
          cases x <;> cases y <;> simp only [SchedTime.minute, stopMinute, SchedOk]
          case now.now => simp
          case now.clock => simp
          case clock.now => omega
          case clock.clock =>
            simp only [and_true]
            omega

/-- **Every answer is right** exactly for these times. -/
theorem allSteps_right_iff (start stop : Option SchedArg) (stopFirst : Bool) (started sec : ℕ) :
    (∃ s, startSchedule (start.map SchedArg.arg) (stop.map SchedArg.arg) stopFirst
        (localtime started sec) = some s ∧
      ∀ es, Run.AllSteps Watch.step
        (Right started (start.map SchedArg.time) (stop.map SchedArg.time)) (.init s started) es) ↔
      SchedOk started (start.map SchedArg.time) (stop.map SchedArg.time) := by
  have hisSome : ∀ a : Option SchedArg, a.isSome = (a.map SchedArg.time).isSome := by
    intro a
    rw [Option.isSome_map]
  rw [startSchedule_eq, hisSome start, hisSome stop]
  refine Iff.trans ?_ (started_startSchedule _ _ started sec).allSteps_iff
  exact ⟨fun ⟨s, heq, H⟩ => Option.some.inj heq ▸ H, fun H => ⟨_, rfl, H⟩⟩

/-- Eight in the morning, and five in the afternoon. -/
def eight : SchedArg where
  time := .clock 8 0
  arg := ⟨[0x30, 0x38, 0x3a, 0x30, 0x30], by decide⟩
  spells := ⟨[0x30, 0x38], [0x30, 0x30], rfl, by simp, by simp, by decide, by simp, by simp,
    by decide⟩

def seventeen : SchedArg where
  time := .clock 17 0
  arg := ⟨[0x31, 0x37, 0x3a, 0x30, 0x30], by decide⟩
  spells := ⟨[0x31, 0x37], [0x30, 0x30], rfl, by simp, by simp, by decide, by simp, by simp,
    by decide⟩

/-- A program that is started at noon does not run at ten the next morning. -/
theorem not_right_startedAtNoon :
    ¬ ∀ (start stop : Option SchedArg) (stopFirst : Bool) (started sec : ℕ),
      ∃ s, startSchedule (start.map SchedArg.arg) (stop.map SchedArg.arg) stopFirst
          (localtime started sec) = some s ∧
        ∀ es, Run.AllSteps Watch.step
          (Right started (start.map SchedArg.time) (stop.map SchedArg.time))
          (.init s started) es := by
  intro H
  obtain ⟨s, hs, hall⟩ := H (some eight) (some seventeen) false 720 0
  rw [startSchedule_eq] at hs
  obtain rfl := Option.some.inj hs
  have hstarted := started_startSchedule (some eight.time) (some seventeen.time) 720 0
  have hsame := hstarted.both_iff.mp hall
  exact absurd ((hsame 600 (by decide)).mpr (by decide)) (by decide)

end MassGridMiner

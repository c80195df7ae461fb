import PmxAgents.Updater.StoredWindows

/-!
# Maintenance windows on the time line

A window with its times as `HH:MM` and its zone as UTC or a fixed offset stands for
intervals of the time line: one for each day with a listed weekday, from the start on for
the time to the end, modulo a day. The updater compares times of day and looks at the
weekday before if it is past midnight. Both say the same of every instant, and the status
names the first window that is open.

## Implementation notes

The ends of the intervals are whole seconds, so the seconds of an instant decide; a leap
second belongs to the minute that it ends.
-/

namespace PmxAgents.Updater

open Lib SharedRust

/-! ## What a window says -/

structure TimeOfDay where
  hour : Fin 24
  minute : Fin 60
  deriving DecidableEq, Repr

def twoDigits (n : Nat) : List Char := [Nat.digitChar (n / 10), Nat.digitChar (n % 10)]

/-- The time of day as `HH:MM`. -/
def TimeOfDay.text (c : TimeOfDay) : List Char := twoDigits c.hour ++ ':' :: twoDigits c.minute

/-- The seconds since midnight. -/
def TimeOfDay.secs (c : TimeOfDay) : Nat := c.hour * 3600 + c.minute * 60

inductive Zone where
  | utc
  | fixed (west : Bool) (distance : TimeOfDay)
  deriving DecidableEq, Repr

/-- The seconds by which local time is ahead of UTC. -/
def Zone.offset : Zone → Int
  | .utc => 0
  | .fixed west distance => (if west then -1 else 1) * distance.secs

def Zone.Named (name : List Char) : Zone → Prop
  | .utc => eqIgnoreAsciiCase name "utc".toList
  | .fixed west distance => name = (if west then '-' else '+') :: distance.text

def Weekday.name : Weekday → String
  | .mon => "Mon"
  | .tue => "Tue"
  | .wed => "Wed"
  | .thu => "Thu"
  | .fri => "Fri"
  | .sat => "Sat"
  | .sun => "Sun"

structure Schedule where
  days : List Weekday
  start : TimeOfDay
  stop : TimeOfDay
  zone : Zone
  deriving DecidableEq, Repr

/-- The texts of a window are those of a schedule, up to white space around them. -/
structure WindowSpec.Says (w : WindowSpec) (s : Schedule) : Prop where
  days : w.days.map (fun day => Text.trim day.toList) = s.days.map fun day => day.name.toList
  start : Text.trim w.start.toList = s.start.text
  stop : Text.trim w.stop.toList = s.stop.text
  tz : s.zone.Named (Text.trim w.tz.toList)

/-- How long a window is open. -/
def Schedule.length (s : Schedule) : Int := ((s.stop.secs : Int) - s.start.secs) % 86400

/-- The instant lies in an interval that begins at the start on a day with a listed weekday. -/
def Schedule.Open (s : Schedule) (now : DateTime) : Prop :=
  ∃ d ∈ s.days, ∃ day : Int, weekdayOfDays day = d ∧
    day * 86400 + s.start.secs ≤ now.secs + s.zone.offset ∧
    now.secs + s.zone.offset < day * 86400 + s.start.secs + s.length

/-- The status names the first open window by its index. -/
def NamesFirstOpen (now : DateTime) (schedules : List Schedule) (status : MaintenanceStatus) :
    Prop :=
  status = ⟨false, none⟩ ∧ (∀ s ∈ schedules, ¬ s.Open now) ∨
    ∃ (i : Nat) (s : Schedule), schedules[i]? = some s ∧ s.Open now ∧
      (∀ j < i, ∀ s' : Schedule, schedules[j]? = some s' → ¬ s'.Open now) ∧
      status = ⟨true, some s!"window-{i}"⟩

/-- The parser of times of day reads `HH:MM`. -/
def ReadsTimeOfDay (parseHM : String → Option Nat) : Prop :=
  ∀ c : TimeOfDay, parseHM (String.ofList c.text) = some c.secs

/-! ## Days -/

theorem TimeOfDay.secs_lt (c : TimeOfDay) : c.secs < 86400 := by
  have hhour := c.hour.isLt
  have hminute := c.minute.isLt
  rw [TimeOfDay.secs]
  omega

theorem weekdayOfDays_pred (day : Int) :
    weekdayOfDays (day - 1) = weekdayBefore (weekdayOfDays day) := by
  have hcases : day % 7 = 0 ∨ day % 7 = 1 ∨ day % 7 = 2 ∨ day % 7 = 3 ∨ day % 7 = 4 ∨
      day % 7 = 5 ∨ day % 7 = 6 := by omega
  rcases hcases with h | h | h | h | h | h | h
  · have hpred : (day - 1) % 7 = 6 := by omega
    rw [weekdayOfDays, weekdayOfDays, h, hpred]
    rfl
  all_goals
    have hpred : (day - 1) % 7 = day % 7 - 1 := by omega
    rw [weekdayOfDays, weekdayOfDays, hpred, h]
    rfl

/-- The way to the end on the same day. -/
theorem length_of_le {s : Schedule} (h : s.start.secs ≤ s.stop.secs) :
    s.length = s.stop.secs - s.start.secs := by
  have hstop := s.stop.secs_lt
  rw [Schedule.length]
  omega

/-- The way to the end on the next day. -/
theorem length_of_lt {s : Schedule} (h : s.stop.secs < s.start.secs) :
    s.length = s.stop.secs - s.start.secs + 86400 := by
  have hstart := s.start.secs_lt
  rw [Schedule.length]
  omega

/-- Of all intervals only those of today and of yesterday can hold an instant. -/
theorem open_iff (s : Schedule) (now : DateTime) :
    s.Open now ↔
      weekdayOfDays ((now.secs + s.zone.offset) / 86400) ∈ s.days ∧
          s.start.secs ≤ (now.secs + s.zone.offset) % 86400 ∧
          (now.secs + s.zone.offset) % 86400 < s.start.secs + s.length ∨
        weekdayBefore (weekdayOfDays ((now.secs + s.zone.offset) / 86400)) ∈ s.days ∧
          (now.secs + s.zone.offset) % 86400 + 86400 < s.start.secs + s.length := by
  rw [Schedule.Open]
  have hstart := s.start.secs_lt
  have hlength : 0 ≤ s.length ∧ s.length < 86400 := by
    rw [Schedule.length]
    omega
  generalize now.secs + s.zone.offset = t
  constructor
  · rintro ⟨d, hd, day, rfl, hle, hlt⟩
    have hday : day = t / 86400 ∨ day = t / 86400 - 1 := by omega
    rcases hday with rfl | rfl
    · exact Or.inl ⟨hd, by omega, by omega⟩
    · rw [weekdayOfDays_pred] at hd
      exact Or.inr ⟨hd, by omega⟩
  · rintro (⟨hd, hle, hlt⟩ | ⟨hd, hlt⟩)
    · exact ⟨_, hd, t / 86400, rfl, by omega, by omega⟩
    · exact ⟨_, hd, t / 86400 - 1, weekdayOfDays_pred _, by omega, by omega⟩

/-! ## Reading the texts -/

theorem parseTwo_twoDigits : ∀ n : Fin 60,
    parseTwo (Nat.digitChar (n / 10)) (Nat.digitChar (n % 10)) = some (n : Int) := by
  decide

theorem parseFixedOffset_eq {sign a b c d : Char} {hours minutes : Int}
    (hsign : sign = '+' ∨ sign = '-') (hhours : parseTwo a b = some hours)
    (hminutes : parseTwo c d = some minutes)
    (hlt : (hours * 3600 + minutes * 60).natAbs < 86400) :
    parseFixedOffset [sign, a, b, ':', c, d] =
      some ((if sign = '-' then -1 else 1) * (hours * 3600 + minutes * 60)) := by
  have hvalid : ¬ (sign ≠ '+' ∧ sign ≠ '-') := fun h => hsign.elim h.1 h.2
  have hrange : -86400 < (if sign = '-' then -1 else 1) * (hours * 3600 + minutes * 60) ∧
      (if sign = '-' then -1 else 1) * (hours * 3600 + minutes * 60) < 86400 := by
    split_ifs <;> omega
  simp only [parseFixedOffset, hhours, hminutes, if_neg hvalid, Option.bind_eq_bind,
    Option.bind_some, if_pos hrange]

theorem parseFixedOffset_text (west : Bool) (c : TimeOfDay) :
    parseFixedOffset ((if west then '-' else '+') :: c.text) =
      some (Zone.fixed west c).offset := by
  have hhour : parseTwo (Nat.digitChar (c.hour / 10)) (Nat.digitChar (c.hour % 10)) =
      some (c.hour : Int) := parseTwo_twoDigits ⟨c.hour, by omega⟩
  have hlt : ((c.hour : Int) * 3600 + (c.minute : Int) * 60).natAbs < 86400 := by
    have hsecs := c.secs_lt
    rw [TimeOfDay.secs] at hsecs
    omega
  have hsecs : (c.secs : Int) = c.hour * 3600 + c.minute * 60 := by
    rw [TimeOfDay.secs]
    omega
  rw [Zone.offset, hsecs]
  cases west with
  | true => exact parseFixedOffset_eq (Or.inr rfl) hhour (parseTwo_twoDigits c.minute) hlt
  | false => exact parseFixedOffset_eq (Or.inl rfl) hhour (parseTwo_twoDigits c.minute) hlt

theorem not_eqIgnoreAsciiCase_text (west : Bool) (c : TimeOfDay) :
    ¬ eqIgnoreAsciiCase ((if west then '-' else '+') :: c.text) "utc".toList := by
  have hlength : ∀ name : List Char, eqIgnoreAsciiCase name "utc".toList → name.length = 3 := by
    intro name h
    have hmap := congrArg List.length (eq_of_beq h)
    rwa [List.length_map, List.length_map] at hmap
  intro h
  have hthree := hlength _ h
  simp [TimeOfDay.text, twoDigits] at hthree

theorem parseTz_of_named {zone : Zone} {name : String}
    (h : zone.Named (Text.trim name.toList)) : parseTz name = .ok zone.offset := by
  cases zone with
  | utc =>
      have hutc : eqIgnoreAsciiCase (Text.trim name.toList) "utc".toList := h
      rw [parseTz, if_pos hutc]
      rfl
  | fixed west distance =>
      have htext : Text.trim name.toList = (if west then '-' else '+') :: distance.text := h
      rw [parseTz, htext, if_neg (not_eqIgnoreAsciiCase_text west distance),
        parseFixedOffset_text]

theorem parseTime_of_text {parseHM : String → Option Nat} (hread : ReadsTimeOfDay parseHM)
    {c : TimeOfDay} {value : String} (h : Text.trim value.toList = c.text) :
    parseTime parseHM value = .ok (c.secs : Int) := by
  rw [parseTime, h, hread c]

theorem parseDay_of_name {day : Weekday} {value : String}
    (h : Text.trim value.toList = day.name.toList) : parseDay value = .ok day := by
  rw [parseDay, h, String.ofList_toList]
  cases day <;> rfl

theorem parseDays_of_names {values : List String} {days : List Weekday}
    (h : values.map (fun day => Text.trim day.toList) = days.map fun day => day.name.toList) :
    parseDays values = .ok days := by
  induction values generalizing days with
  | nil =>
      cases days with
      | nil => rfl
      | cons day rest => cases h
  | cons value values ih =>
      cases days with
      | nil => cases h
      | cons day days =>
          obtain ⟨hday, hrest⟩ := List.cons.inj h
          have hdays : values.mapM parseDay = .ok days := ih hrest
          rw [parseDays, List.mapM_cons, parseDay_of_name hday, hdays]
          rfl

/-! ## What the updater finds -/

section Updater
variable {parseHM : String → Option Nat} (hread : ReadsTimeOfDay parseHM) (now : DateTime)
include hread

theorem windowActive_iff_open {w : WindowSpec} {s : Schedule} (h : w.Says s) :
    ∃ b, windowActive parseHM w now = .ok b ∧ (b = true ↔ s.Open now) := by
  have hstart := s.start.secs_lt
  have hstop := s.stop.secs_lt
  rw [open_iff]
  simp only [windowActive, parseTz_of_named h.tz, parseTime_of_text hread h.start,
    parseTime_of_text hread h.stop, parseDays_of_names h.days, bind, Except.bind]
  generalize now.secs + s.zone.offset = t
  have hcurrent : 0 ≤ t % 86400 ∧ t % 86400 < 86400 := by omega
  generalize weekdayOfDays (t / 86400) = today
  generalize t % 86400 = current at hcurrent ⊢
  split_ifs with heq hlt hday hle
  -- An empty window.
  · rw [length_of_le (by omega)]
    refine ⟨false, rfl, iff_of_false Bool.false_ne_true ?_⟩
    omega
  -- Start and end on one day: yesterday's interval is over.
  · rw [length_of_le (by omega)]
    rw [List.contains_iff_mem] at hday
    refine ⟨_, rfl, ?_⟩
    rw [decide_eq_true_eq]
    constructor
    · exact fun hin => Or.inl ⟨hday, hin.1, by omega⟩
    · rintro (⟨-, hin⟩ | ⟨-, hpast⟩) <;> omega
  · rw [length_of_le (by omega)]
    rw [List.contains_iff_mem] at hday
    refine ⟨false, rfl, iff_of_false Bool.false_ne_true ?_⟩
    rintro (⟨hmem, -⟩ | ⟨-, hpast⟩)
    · exact hday hmem
    · omega
  -- Past the start, today's interval goes on until midnight and yesterday's is over.
  · rw [length_of_lt (by omega)]
    refine ⟨_, rfl, ?_⟩
    rw [List.contains_iff_mem]
    constructor
    · exact fun hmem => Or.inl ⟨hmem, hle, by omega⟩
    · rintro (⟨hmem, -⟩ | ⟨-, hpast⟩)
      · exact hmem
      · omega
  -- Before the start, only yesterday's interval can still be open.
  · rw [length_of_lt (by omega)]
    refine ⟨_, rfl, ?_⟩
    rw [Bool.and_eq_true, decide_eq_true_eq, List.contains_iff_mem]
    constructor
    · exact fun hin => Or.inr ⟨hin.2, by omega⟩
    · rintro (⟨-, hin⟩ | ⟨hmem, hpast⟩)
      · omega
      · exact ⟨by omega, hmem⟩

/-- The windows are asked in their order, from the one with number `index` on. -/
theorem isNowFrom_namesFirst {set : WindowSet} {schedules : List Schedule}
    (h : List.Forall₂ WindowSpec.Says set schedules) (index : Nat) :
    isNowFrom parseHM now index set = .ok ⟨false, none⟩ ∧ (∀ s ∈ schedules, ¬ s.Open now) ∨
      ∃ (i : Nat) (s : Schedule), schedules[i]? = some s ∧ s.Open now ∧
        (∀ j < i, ∀ s' : Schedule, schedules[j]? = some s' → ¬ s'.Open now) ∧
        isNowFrom parseHM now index set = .ok ⟨true, some s!"window-{index + i}"⟩ := by
  induction h generalizing index with
  | nil => exact Or.inl ⟨rfl, List.forall_mem_nil _⟩
  | @cons w s set schedules hw hset ih =>
      obtain ⟨b, hb, hopen⟩ := windowActive_iff_open hread now hw
      rw [isNowFrom, hb]
      cases b with
      | true =>
          refine Or.inr ⟨0, s, rfl, hopen.mp rfl, fun j hj => absurd hj (Nat.not_lt_zero j), rfl⟩
      | false =>
          have hclosed : ¬ s.Open now := fun ho => Bool.false_ne_true (hopen.mpr ho)
          rcases ih (index + 1) with ⟨hstatus, hall⟩ | ⟨i, s', hi, hs', hfirst, hstatus⟩
          · exact Or.inl ⟨hstatus, List.forall_mem_cons.mpr ⟨hclosed, hall⟩⟩
          · refine Or.inr ⟨i + 1, s', hi, hs', fun j hj s'' hj' => ?_, ?_⟩
            · cases j with
              | zero =>
                  obtain rfl := Option.some.inj hj'
                  exact hclosed
              | succ j => exact hfirst j (Nat.lt_of_succ_lt_succ hj) s'' hj'
            · rw [Nat.add_comm i 1, ← Nat.add_assoc]
              exact hstatus

end Updater

/-- The updater finds a window open exactly within its intervals on the time line, and names the
first one that is. -/
theorem windows_on_time_line {parseHM : String → Option Nat} (hread : ReadsTimeOfDay parseHM)
    (now : DateTime) :
    (∀ (w : WindowSpec) (s : Schedule), w.Says s →
        ∃ b, windowActive parseHM w now = .ok b ∧ (b = true ↔ s.Open now)) ∧
      ∀ (set : WindowSet) (schedules : List Schedule), List.Forall₂ WindowSpec.Says set schedules →
        ∃ status, isNow parseHM set now = .ok status ∧ NamesFirstOpen now schedules status := by
  refine ⟨fun w s h => windowActive_iff_open hread now h, fun set schedules h => ?_⟩
  rcases isNowFrom_namesFirst hread now h 0 with ⟨hstatus, hall⟩ | ⟨i, s, hi, hs, hfirst, hstatus⟩
  · exact ⟨_, hstatus, Or.inl ⟨rfl, hall⟩⟩
  · rw [Nat.zero_add] at hstatus
    exact ⟨_, hstatus, Or.inr ⟨i, s, hi, hs, hfirst, rfl⟩⟩

/-- A parser of two digits, a colon and two digits. -/
def readHM (text : String) : Option Nat :=
  match text.toList with
  | [h₁, h₂, ':', m₁, m₂] => do
      let hours ← parseTwo h₁ h₂
      let minutes ← parseTwo m₁ m₂
      return (hours * 3600 + minutes * 60).toNat
  | _ => none

theorem readsTimeOfDay_readHM : ReadsTimeOfDay readHM := by
  intro c
  have hhour : parseTwo (Nat.digitChar (c.hour / 10)) (Nat.digitChar (c.hour % 10)) =
      some (c.hour : Int) := parseTwo_twoDigits ⟨c.hour, by omega⟩
  rw [readHM, String.toList_ofList]
  simp only [TimeOfDay.text, twoDigits, List.cons_append, List.nil_append, hhour,
    parseTwo_twoDigits c.minute, Option.bind_eq_bind, Option.bind_some, Option.pure_def,
    Option.some.injEq, TimeOfDay.secs]
  omega

/-- Saturdays from 22:00 to 02:00. -/
def saturdayNight : WindowSpec := ⟨["Sat"], "22:00", "02:00", "UTC"⟩

def saturdayNightSchedule : Schedule := ⟨[.sat], ⟨22, 0⟩, ⟨2, 0⟩, .utc⟩

theorem saturdayNight_says : saturdayNight.Says saturdayNightSchedule := by
  have htz : eqIgnoreAsciiCase (Text.trim "UTC".toList) "utc".toList := by decide
  exact ⟨by decide, by decide, by decide, htz⟩

/-- Sunday, 2026-05-17, 01:30. -/
def sundayMorning : DateTime := (DateTime.fromTimestamp 1778981400 0).getD epoch

theorem windows_on_time_line_saturdayNight :
    ReadsTimeOfDay readHM ∧ saturdayNight.Says saturdayNightSchedule ∧
      saturdayNightSchedule.Open sundayMorning ∧
      windowActive readHM saturdayNight sundayMorning = .ok true := by
  have hopen : saturdayNightSchedule.Open sundayMorning :=
    ⟨.sat, List.mem_singleton.mpr rfl, 20589, rfl, by decide, by decide⟩
  obtain ⟨b, hb, hiff⟩ := (windows_on_time_line readsTimeOfDay_readHM sundayMorning).1 saturdayNight
    saturdayNightSchedule saturdayNight_says
  rw [hiff.mpr hopen] at hb
  exact ⟨readsTimeOfDay_readHM, saturdayNight_says, hopen, hb⟩

end PmxAgents.Updater

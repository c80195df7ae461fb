import PmxAgents.Lib.Calendar
import PmxAgents.Lib.Text
import PmxAgents.SharedRust.Envelope

/-!
# Maintenance windows of the updater

A window names its days, a start and an end of day, and a fixed offset from UTC.
A window that ends before it starts spans midnight and belongs to the day it
starts on.

## Implementation notes

`parseHM` stands for the parser of a time of day; it answers with the seconds
since midnight.
-/

namespace PmxAgents.Updater

open Lib SharedRust

inductive Weekday where
  | mon | tue | wed | thu | fri | sat | sun
  deriving DecidableEq, Repr

structure WindowSpec where
  days : List String
  start : String
  stop : String
  tz : String
  deriving DecidableEq, Repr

abbrev WindowSet := List WindowSpec

structure MaintenanceStatus where
  active : Bool
  /-- The identifier of the active window. -/
  window : Option String
  deriving DecidableEq, Repr

inductive WindowError where
  | unsupportedTimezone (name : String)
  | invalidTime (value : String)
  | invalidDay (value : String)
  deriving DecidableEq, Repr

/-- The weekday of a day number; the epoch was a Thursday. -/
def weekdayOfDays (days : Int) : Weekday :=
  match (days % 7).toNat with
  | 0 => .thu
  | 1 => .fri
  | 2 => .sat
  | 3 => .sun
  | 4 => .mon
  | 5 => .tue
  | _ => .wed

def weekdayBefore : Weekday → Weekday
  | .mon => .sun
  | .tue => .mon
  | .wed => .tue
  | .thu => .wed
  | .fri => .thu
  | .sat => .fri
  | .sun => .sat

def digitValue (c : Char) : Option Int :=
  if c.isDigit then some (c.toNat - 48 : Nat) else none

/-- A two-character integer: two digits, or a sign and a digit. -/
def parseTwo (a b : Char) : Option Int := do
  let lo ← digitValue b
  if a = '+' then return lo
  if a = '-' then return -lo
  let hi ← digitValue a
  return 10 * hi + lo

/-- An offset such as `+02:00`, less than a day to either side. -/
def parseFixedOffset (value : List Char) : Option Int :=
  match value with
  | [sign, h₁, h₂, ':', m₁, m₂] => do
      if sign ≠ '+' ∧ sign ≠ '-' then none
      let hours ← parseTwo h₁ h₂
      let minutes ← parseTwo m₁ m₂
      let total := (if sign = '-' then -1 else 1) * (hours * 3600 + minutes * 60)
      if -86400 < total ∧ total < 86400 then some total else none
  | _ => none

def eqIgnoreAsciiCase (a b : List Char) : Bool := a.map Char.toLower == b.map Char.toLower

def parseTz (name : String) : Except WindowError Int :=
  let normalized := Text.trim name.toList
  if eqIgnoreAsciiCase normalized "utc".toList then .ok 0
  else
    match parseFixedOffset normalized with
    | some offset => .ok offset
    | none => .error (.unsupportedTimezone name)

def parseTime (parseHM : String → Option Nat) (value : String) : Except WindowError Int :=
  match parseHM (String.ofList (Text.trim value.toList)) with
  | some secs => .ok secs
  | none => .error (.invalidTime value)

def parseDay (value : String) : Except WindowError Weekday :=
  match String.ofList (Text.trim value.toList) with
  | "Mon" => .ok .mon
  | "Tue" => .ok .tue
  | "Wed" => .ok .wed
  | "Thu" => .ok .thu
  | "Fri" => .ok .fri
  | "Sat" => .ok .sat
  | "Sun" => .ok .sun
  | other => .error (.invalidDay other)

def parseDays (values : List String) : Except WindowError (List Weekday) := values.mapM parseDay

/-- Whether a window contains the instant. -/
def windowActive (parseHM : String → Option Nat) (window : WindowSpec) (now : DateTime) :
    Except WindowError Bool := do
  let tz ← parseTz window.tz
  let localSecs := now.secs + tz
  let weekday := weekdayOfDays (localSecs / 86400)
  let current := localSecs % 86400
  let start ← parseTime parseHM window.start
  let stop ← parseTime parseHM window.stop
  let allowedDays ← parseDays window.days
  if start = stop then return false
  if start < stop then
    if ¬ allowedDays.contains weekday then return false
    return decide (start ≤ current ∧ current < stop)
  if start ≤ current then return allowedDays.contains weekday
  return decide (current < stop) && allowedDays.contains (weekdayBefore weekday)

/-- The status from the window with number `index` on. -/
def isNowFrom (parseHM : String → Option Nat) (now : DateTime) :
    Nat → WindowSet → Except WindowError MaintenanceStatus
  | _, [] => .ok ⟨false, none⟩
  | index, window :: rest => do
      if ← windowActive parseHM window now then return ⟨true, some s!"window-{index}"⟩
      isNowFrom parseHM now (index + 1) rest

/-- The first window that contains the instant. -/
def isNow (parseHM : String → Option Nat) (windows : WindowSet) (now : DateTime) :
    Except WindowError MaintenanceStatus :=
  isNowFrom parseHM now 0 windows

end PmxAgents.Updater

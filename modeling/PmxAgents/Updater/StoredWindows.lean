import PmxAgents.Updater.Gate

/-!
# Stored maintenance windows

`update.maintenance.set` takes any windows whose fields are texts. Their times, days and offset
are only looked at when it is asked whether a window is open now, one window after the other up
to the first that is. So a window that does not parse makes the question fail, and with it every
update, whenever no window before it is open; which those are is a matter of the order.

## Implementation notes

The cache file is read back as it was written.
-/

namespace PmxAgents.Updater

open Lib SharedRust

/-! ## Storing -/

def decodeText : Json → Option String
  | .string s => some s
  | _ => none

def decodeTexts : Json → Option (List String)
  | .array xs => xs.mapM decodeText
  | _ => none

/-- A window is an object with its four fields, or an array of them in order. -/
def decodeWindow : Json → Option WindowSpec
  | .object kvs => do
      let days ← (kvs.lookup "days").bind decodeTexts
      let start ← (kvs.lookup "start").bind decodeText
      let stop ← (kvs.lookup "end").bind decodeText
      let tz ← (kvs.lookup "tz").bind decodeText
      return ⟨days, start, stop, tz⟩
  | .array [days, start, stop, tz] => do
      return ⟨← decodeTexts days, ← decodeText start, ← decodeText stop, ← decodeText tz⟩
  | _ => none

/-- The windows that `update.maintenance.set` stores. -/
def maintenanceSet (params : List (String × Json)) : Option WindowSet :=
  match (params.lookup "windows").getD (.array []) with
  | .array xs => xs.mapM decodeWindow
  | _ => none

/-- The params with which a set is sent. -/
def encodeWindow (w : WindowSpec) : Json :=
  .object [("days", .array (w.days.map .string)), ("end", .string w.stop),
    ("start", .string w.start), ("tz", .string w.tz)]

theorem mapM_map_eq_some {α β : Type} {f : α → Option β} {g : β → α} (h : ∀ b, f (g b) = some b)
    (l : List β) : (l.map g).mapM f = some l := by
  induction l with
  | nil => rfl
  | cons b l ih => simp [h, ih]

theorem decodeWindow_encodeWindow (w : WindowSpec) : decodeWindow (encodeWindow w) = some w := by
  have hdays : decodeTexts (.array (w.days.map .string)) = some w.days :=
    mapM_map_eq_some (f := decodeText) (g := Json.string) (fun _ => rfl) w.days
  simp [encodeWindow, decodeWindow, List.lookup_cons, hdays, decodeText]

/-- There is no set that cannot be stored. -/
theorem exists_maintenanceSet (set : WindowSet) : ∃ params, maintenanceSet params = some set :=
  ⟨[("windows", .array (set.map encodeWindow))], mapM_map_eq_some decodeWindow_encodeWindow set⟩

/-! ## Asking -/

section Windows
variable (parseHM : String → Option Nat)

/-- All texts of a window can be read. -/
def WindowSpec.Parses (w : WindowSpec) : Prop :=
  ∃ tz start stop days, parseTz w.tz = .ok tz ∧ parseTime parseHM w.start = .ok start ∧
    parseTime parseHM w.stop = .ok stop ∧ parseDays w.days = .ok days

variable {parseHM} {w : WindowSpec}

theorem windowActive_of_parses (h : w.Parses parseHM) (now : DateTime) :
    ∃ b, windowActive parseHM w now = .ok b := by
  obtain ⟨tz, start, stop, days, htz, hstart, hstop, hdays⟩ := h
  simp only [windowActive, htz, hstart, hstop, hdays, bind, Except.bind]
  split_ifs
  all_goals exact ⟨_, rfl⟩

theorem windowActive_of_not_parses (h : ¬ w.Parses parseHM) (now : DateTime) :
    ∃ err, windowActive parseHM w now = .error err := by
  cases htz : parseTz w.tz with
  | error err => exact ⟨err, by simp only [windowActive, htz, bind, Except.bind]⟩
  | ok tz =>
      cases hstart : parseTime parseHM w.start with
      | error err => exact ⟨err, by simp only [windowActive, htz, hstart, bind, Except.bind]⟩
      | ok start =>
          cases hstop : parseTime parseHM w.stop with
          | error err =>
              exact ⟨err, by simp only [windowActive, htz, hstart, hstop, bind, Except.bind]⟩
          | ok stop =>
              cases hdays : parseDays w.days with
              | error err =>
                  exact ⟨err, by simp only [windowActive, htz, hstart, hstop, hdays, bind,
                      Except.bind]⟩
              | ok days => exact absurd ⟨tz, start, stop, days, htz, hstart, hstop, hdays⟩ h

variable (parseHM) in
/-- The window is open, as far as that can be said. -/
def openAt (now : DateTime) (w : WindowSpec) : Bool :=
  match windowActive parseHM w now with
  | .ok b => b
  | .error _ => false

/-- Where every window can be read, the answer is whether one of them is open. -/
theorem isNowFrom_of_parses {set : WindowSet} (h : ∀ w ∈ set, w.Parses parseHM) (now : DateTime)
    (index : Nat) :
    ∃ status, isNowFrom parseHM now index set = .ok status ∧
      status.active = set.any (openAt parseHM now) := by
  induction set generalizing index with
  | nil => exact ⟨_, rfl, rfl⟩
  | cons w rest ih =>
      obtain ⟨b, hb⟩ := windowActive_of_parses (h w List.mem_cons_self) now
      have hopen : openAt parseHM now w = b := by rw [openAt, hb]
      rw [isNowFrom, List.any_cons, hopen, hb]
      cases b with
      | true => exact ⟨_, rfl, rfl⟩
      | false => exact ih (fun w hw => h w (List.mem_cons_of_mem _ hw)) (index + 1)

/-- A window that cannot be read makes the question fail when it comes first. -/
theorem isNow_cons_of_not_parses (h : ¬ w.Parses parseHM) (rest : WindowSet) (now : DateTime) :
    ∃ err, isNow parseHM (w :: rest) now = .error err := by
  obtain ⟨err, herr⟩ := windowActive_of_not_parses h now
  exact ⟨err, by rw [isNow, isNowFrom, herr]; rfl⟩

end Windows

/-- At every instant the question is answered, alike for every order of the windows, and the
release key can override them. -/
def Dependable (X : Crates) (set : WindowSet) : Prop :=
  ∀ now, (∃ status, isNow X.parseHM set now = .ok status ∧
      ∀ set', set'.Perm set → ∃ status', isNow X.parseHM set' now = .ok status' ∧
        status'.active = status.active) ∧
    checkUpdateAllowed X set true releaseKeyIndex now = .ok ()

theorem checkUpdateAllowed_override {X : Crates} {set : WindowSet} {now : DateTime}
    {status : MaintenanceStatus} (h : isNow X.parseHM set now = .ok status) :
    checkUpdateAllowed X set true releaseKeyIndex now = .ok () := by
  rw [checkUpdateAllowed, h]
  cases hactive : status.active with
  | true => simp [hactive]
  | false => simp [hactive]

/-- Any set is stored, and it can be depended on exactly if all its windows can be read. -/
theorem dependable_iff (X : Crates) (set : WindowSet) :
    (∃ params, maintenanceSet params = some set) ∧
      (Dependable X set ↔ ∀ w ∈ set, w.Parses X.parseHM) := by
  refine ⟨exists_maintenanceSet set, ⟨fun h w hw => ?_, fun h now => ?_⟩⟩
  · by_contra hno
    obtain ⟨⟨status, -, horder⟩, -⟩ := h epoch
    obtain ⟨status', hfirst, -⟩ := horder (w :: set.erase w) (List.perm_cons_erase hw).symm
    obtain ⟨err, herr⟩ := isNow_cons_of_not_parses hno (set.erase w) epoch
    cases herr.symm.trans hfirst
  · obtain ⟨status, hstatus, hactive⟩ := isNowFrom_of_parses h now 0
    refine ⟨⟨status, hstatus, fun set' hperm => ?_⟩, checkUpdateAllowed_override hstatus⟩
    obtain ⟨status', hstatus', hactive'⟩ :=
      isNowFrom_of_parses (fun w hw => h w (hperm.mem_iff.mp hw)) now 0
    exact ⟨status', hstatus', hactive'.trans (hperm.any_eq.trans hactive.symm)⟩

/-! ## A zone that is not known -/

/-- A window in a named zone. -/
def namedZone : WindowSpec := ⟨["Sat"], "02:00", "06:00", "Europe/Vienna"⟩

def clockCrates : Crates :=
  { echoCrates epoch with
    parseHM := fun s => if s = "02:00" then some 7200
      else if s = "06:00" then some 21600 else none }

/-- The window is stored, and from then on not even the release key can override. -/
theorem namedZone_refuses_release :
    maintenanceSet [("windows", .array [encodeWindow namedZone])] = some [namedZone] ∧
      isNow clockCrates.parseHM [namedZone] epoch =
        .error (.unsupportedTimezone "Europe/Vienna") ∧
      checkUpdateAllowed clockCrates [namedZone] true releaseKeyIndex epoch =
        .error (.window (.unsupportedTimezone "Europe/Vienna")) ∧
      ¬ Dependable clockCrates [namedZone] := by
  have hstored : maintenanceSet [("windows", .array [encodeWindow namedZone])] = some [namedZone] :=
    mapM_map_eq_some decodeWindow_encodeWindow [namedZone]
  have htz : parseTz namedZone.tz = .error (.unsupportedTimezone "Europe/Vienna") := by
    decide
  have hnow : isNow clockCrates.parseHM [namedZone] epoch =
      .error (.unsupportedTimezone "Europe/Vienna") := by
    rw [isNow, isNowFrom]
    simp only [windowActive, htz, bind, Except.bind]
  have hgate : checkUpdateAllowed clockCrates [namedZone] true releaseKeyIndex epoch =
      .error (.window (.unsupportedTimezone "Europe/Vienna")) := by
    rw [checkUpdateAllowed, hnow]
  refine ⟨hstored, hnow, hgate, fun h => ?_⟩
  cases hgate.symm.trans (h epoch).2

end PmxAgents.Updater

import PmxAgents.Updater.Swap

/-!
# Updating an agent

After the download the new version is installed, and the agent's unit is polled until
systemd calls it active. If that does not happen in time, the installation is rolled back.

The unit that is polled has the agent's name with `pmx-` before it, and agents are already
called so. Nothing restarts the agent's unit before it is polled.

## Implementation notes

What is not decided here comes from outside: the outcome of the download, failures of the
disk, the states of the units at each call of `systemctl`, and the clock. Times are in
milliseconds from the start of a check. A poll that has not succeeded reads the clock and
sleeps for the poll interval or up to the deadline.
-/

namespace PmxAgents.Updater

open Lib

/-! ## Systemd -/

/-- `onNew` tells whether the unit was started from the newly installed binary. -/
structure UnitState where
  active : Bool
  onNew : Bool
  deriving DecidableEq, Repr

/-- A call of `systemctl`: the error if it cannot be run, and the units at that time. -/
structure Moment where
  spawnError : Option String
  units : String → UnitState

def pollInterval : ℕ := 2000

def healthTimeout : ℕ := 30000

/-- The time at which each poll of a check ends. -/
structure Clock (timeout : ℕ) where
  elapsed : ℕ → ℕ
  sleeps : ∀ i, min (elapsed i + pollInterval) timeout ≤ elapsed (i + 1)

inductive HealthError where
  | notActive (timeout : ℕ) (details : String)
  | io (err : String)
  deriving DecidableEq, Repr

/-- The polls from one on, and the moments at which they were made. -/
def poll (unit : String) {timeout : ℕ} (moments : ℕ → Moment) (clock : Clock timeout) :
    (fuel i : ℕ) → Except HealthError Unit × List Moment
  | 0, _ => (.error (.notActive timeout "out of fuel"), [])
  | fuel + 1, i =>
      match (moments i).spawnError with
      | some err => (.error (.io err), [moments i])
      | none =>
          if ((moments i).units unit).active then (.ok (), [moments i])
          else if timeout ≤ clock.elapsed i then
            (.error (.notActive timeout ("systemctl is-active " ++ unit ++ " returned non-zero")),
              [moments i])
          else
            let later := poll unit moments clock fuel (i + 1)
            (later.1, moments i :: later.2)

def polledUnit (agent : String) : String := "pmx-" ++ agent

/-- Poll the unit until it is active or the time is over. -/
def checkPersistent (agent : String) {timeout : ℕ} (moments : ℕ → Moment)
    (clock : Clock timeout) : Except HealthError Unit × List Moment :=
  poll (polledUnit agent) moments clock (timeout / pollInterval + 2) 0

section Poll
variable {unit : String} {timeout : ℕ} {moments : ℕ → Moment} {clock : Clock timeout}

/-- A check succeeds exactly if one of its polls finds the unit active. -/
theorem poll_ok_iff (fuel i : ℕ) :
    (poll unit moments clock fuel i).1 = .ok () ↔
      ∃ m ∈ (poll unit moments clock fuel i).2, m.spawnError = none ∧ (m.units unit).active := by
  induction fuel generalizing i with
  | zero => simp [poll]
  | succ fuel ih =>
      rw [poll]
      cases hspawn : (moments i).spawnError with
      | some err => simp [hspawn]
      | none =>
          by_cases hactive : ((moments i).units unit).active
          · simp [hspawn, hactive]
          · by_cases hover : timeout ≤ clock.elapsed i
            · simp [hactive, hover]
            · simpa [hactive, hover] using ih (i + 1)

theorem le_elapsed (i : ℕ) : min (pollInterval * i) timeout ≤ clock.elapsed i := by
  induction i with
  | zero => exact (Nat.min_le_left _ _).trans (Nat.zero_le _)
  | succ i ih =>
      have hsleeps := clock.sleeps i
      simp only [pollInterval] at ih hsleeps ⊢
      omega

/-- The deadline ends the polls before the fuel does. -/
theorem poll_of_le {fuel i : ℕ} (h : timeout ≤ pollInterval * (i + fuel)) (more : ℕ) :
    poll unit moments clock (fuel + 1 + more) i = poll unit moments clock (fuel + 1) i := by
  induction fuel generalizing i with
  | zero =>
      have hover : timeout ≤ clock.elapsed i :=
        (Nat.le_min.mpr ⟨h, Nat.le_refl _⟩).trans (le_elapsed i)
      rw [Nat.add_right_comm, poll, poll, if_pos hover, if_pos hover]
  | succ fuel ih =>
      rw [Nat.add_right_comm, poll, poll, ih (by rwa [Nat.add_right_comm, Nat.add_assoc])]

/-- More fuel changes nothing. -/
theorem checkPersistent_eq (agent : String) (more : ℕ) :
    checkPersistent agent moments clock =
      poll (polledUnit agent) moments clock (timeout / pollInterval + 2 + more) 0 := by
  have hdiv := Nat.lt_mul_div_succ timeout (show 0 < pollInterval by decide)
  rw [checkPersistent, poll_of_le (by rw [Nat.zero_add]; exact hdiv.le)]

theorem checkPersistent_ok_iff {agent : String} :
    (checkPersistent agent moments clock).1 = .ok () ↔
      ∃ m ∈ (checkPersistent agent moments clock).2,
        m.spawnError = none ∧ (m.units (polledUnit agent)).active :=
  poll_ok_iff _ _

end Poll

/-! ## The update -/

inductive RollbackError where
  | swapFailed (err : SwapError)
  | io (err : String)
  deriving DecidableEq, Repr

inductive ApplyError where
  | download (err : String)
  | install (err : String)
  | exec (err : String)
  | rolledBack (err : HealthError)
  | rollbackFailed (err : HealthError) (rollback : RollbackError)
  deriving DecidableEq, Repr

inductive Command where
  | isActive (unit : String) (m : Moment)
  | tryRestart (unit : String)

/-- What an update gets from outside. A failure of the disk comes with the layout it leaves. -/
structure Host where
  /-- The version and the binary, once manifest and binary are verified. -/
  download : Except String (String × Binary)
  installError : Option (String × Layout)
  rollbackError : Option (String × Layout)
  execError : Option String
  moments : ℕ → Moment
  clock : Clock healthTimeout
  momentsAfter : ℕ → Moment
  clockAfter : Clock healthTimeout

/-- The process is replaced by the new updater in `handoff`. -/
inductive ApplyReply where
  | applied (version message : String)
  | handoff (version oldVersion : String)
  | failed (err : ApplyError)
  deriving DecidableEq, Repr

structure Outcome where
  reply : ApplyReply
  layout : Layout
  commands : List Command

def queries (agent : String) (ms : List Moment) : List Command :=
  ms.map (.isActive (polledUnit agent))

/-- Move the link back, restart the unit, and check it; the last two are only logged. -/
def execute (a : Agent) (host : Host) (handle : SwapHandle) (l : Layout) :
    Except RollbackError Unit × Layout × List Command :=
  match rollback a handle l, host.rollbackError with
  | .error err, _ => (.error (.swapFailed err), l, [])
  | .ok _, some (err, left) => (.error (.io err), left, [])
  | .ok reverted, none =>
      (.ok (), reverted, .tryRestart (polledUnit a.name) ::
        queries a.name (checkPersistent a.name host.momentsAfter host.clockAfter).2)

/-- The updater's own update: the binary is placed, and the new updater takes over. -/
def applySelf (a : Agent) (host : Host) (version : String) (staged : Binary) (l : Layout) :
    Outcome :=
  let placed := l.place a version staged
  match host.execError with
  | none => ⟨.handoff version ((placed.currentVersion a).getD "0.0.0"), placed, []⟩
  | some err => ⟨.failed (.exec err), placed, []⟩

def applyAsync (a : Agent) (host : Host) (l : Layout) : Outcome :=
  match host.download, host.installError with
  | .error err, _ => ⟨.failed (.download err), l, []⟩
  | .ok _, some (err, left) => ⟨.failed (.install err), left, []⟩
  | .ok (version, staged), none =>
      if a.name = "pmx-updater" then applySelf a host version staged l
      else
        let (handle, installed) := installNewVersion a version staged l
        let (health, polled) := checkPersistent a.name host.moments host.clock
        match health with
        | .ok () =>
            ⟨.applied version ("updated " ++ a.name ++ " to " ++ version), installed,
              queries a.name polled⟩
        | .error err =>
            let (undone, left, commands) := execute a host handle installed
            ⟨.failed (match undone with
              | .ok () => .rolledBack err
              | .error rollback => .rollbackFailed err rollback), left,
              queries a.name polled ++ commands⟩

/-! ## What a report means -/

section Reports
variable (a : Agent) (host : Host) (l : Layout)

/-- The agent's unit runs from the new binary and is active. -/
def Healthy (m : Moment) : Prop := (m.units a.name).active ∧ (m.units a.name).onNew

instance (m : Moment) : Decidable (Healthy a m) := inferInstanceAs (Decidable (_ ∧ _))

/-- A success is reported only if the agent's unit was asked for and found active on the new
binary, and an update whose unit was so at every poll is not rolled back. -/
structure Sound : Prop where
  seen : ∀ version message, (applyAsync a host l).reply = .applied version message →
    ∃ m, .isActive a.name m ∈ (applyAsync a host l).commands ∧ Healthy a m
  kept : (∀ m ∈ (checkPersistent a.name host.moments host.clock).2, Healthy a m) →
    ∀ err, (applyAsync a host l).reply ≠ .failed (.rolledBack err)

/-- The installation takes place. -/
def Installs : Prop := host.installError = none ∧ ∃ update, host.download = .ok update

/-- The unit with the doubled name is never found active, and a rollback is not possible or is
made when the agent's own unit was not active on the new binary at some poll. -/
def Unmistaken : Prop :=
  (∀ m ∈ (checkPersistent a.name host.moments host.clock).2,
      m.spawnError = none → (m.units (polledUnit a.name)).active = false) ∧
    (l.currentVersion a = none ∨ host.rollbackError ≠ none ∨
      ∃ m ∈ (checkPersistent a.name host.moments host.clock).2, ¬ Healthy a m)

variable {a host l}

theorem polledUnit_ne (agent : String) : polledUnit agent ≠ agent := by
  intro h
  have hlength := congrArg String.length h
  rw [polledUnit, String.length_append] at hlength
  have hpmx : "pmx-".length = 4 := rfl
  omega

theorem mem_queries {agent unit : String} {m : Moment} {ms : List Moment}
    (h : .isActive unit m ∈ queries agent ms) : unit = polledUnit agent := by
  obtain ⟨m', -, heq⟩ := List.mem_map.mp h
  exact (Command.isActive.inj heq).1.symm

/-- An update that is installed reports what the polls say. -/
theorem applyAsync_of_installs {version : String} {staged : Binary}
    (hagent : a.name ≠ "pmx-updater") (hdownload : host.download = .ok (version, staged))
    (hinstall : host.installError = none) :
    (∀ err, (checkPersistent a.name host.moments host.clock).1 = .error err →
      (applyAsync a host l).reply = .failed
        (match (execute a host ⟨version, l.currentVersion a⟩
            (installNewVersion a version staged l).2).1 with
          | .ok () => .rolledBack err
          | .error rollback => .rollbackFailed err rollback)) ∧
      ((checkPersistent a.name host.moments host.clock).1 = .ok () →
        (applyAsync a host l).reply =
            .applied version ("updated " ++ a.name ++ " to " ++ version) ∧
          (applyAsync a host l).commands =
            queries a.name (checkPersistent a.name host.moments host.clock).2) := by
  refine ⟨fun err herr => ?_, fun hok => ?_⟩
  · simp only [applyAsync, hdownload, hinstall, if_neg hagent, herr]
    rfl
  · simp only [applyAsync, hdownload, hinstall, if_neg hagent, hok]
    exact ⟨trivial, trivial⟩

/-- A rollback is carried out exactly if there is a version to go back to and the disk lets it. -/
theorem execute_ok_iff {handle : SwapHandle} {installed : Layout} :
    (execute a host handle installed).1 = .ok () ↔
      handle.oldVersion ≠ none ∧ host.rollbackError = none := by
  rw [execute, rollback]
  cases handle.oldVersion with
  | none => simp
  | some old => cases host.rollbackError <;> simp

theorem sound_of_failed {err : ApplyError} (hreply : (applyAsync a host l).reply = .failed err)
    (herr : ∀ health, err ≠ .rolledBack health) : Sound a host l where
  seen version message happlied := by cases hreply.symm.trans happlied
  kept _ health hrolled := herr health (ApplyReply.failed.inj (hreply.symm.trans hrolled))

section Installed
variable {version : String} {staged : Binary} (hagent : a.name ≠ "pmx-updater")
  (hdownload : host.download = .ok (version, staged)) (hinstall : host.installError = none)
include hagent hdownload hinstall

/-- The poll that reports success asks for another unit. -/
theorem not_sound_of_ok (hhealth : (checkPersistent a.name host.moments host.clock).1 = .ok ()) :
    ¬ Sound a host l := by
  intro hsound
  obtain ⟨hreply, hcommands⟩ := (applyAsync_of_installs hagent hdownload hinstall).2 hhealth
  obtain ⟨m, hm, -⟩ := hsound.seen _ _ hreply
  rw [hcommands] at hm
  exact polledUnit_ne a.name (mem_queries hm).symm

/-- Without such a poll the update is rolled back if that is possible. -/
theorem sound_iff_of_error {err : HealthError}
    (hhealth : (checkPersistent a.name host.moments host.clock).1 = .error err) :
    Sound a host l ↔
      l.currentVersion a = none ∨ host.rollbackError ≠ none ∨
        ∃ m ∈ (checkPersistent a.name host.moments host.clock).2, ¬ Healthy a m := by
  have hreply := (applyAsync_of_installs (l := l) hagent hdownload hinstall).1 err hhealth
  constructor
  · intro hsound
    by_contra hnot
    obtain ⟨hold, hdisk, hhealthy⟩ : l.currentVersion a ≠ none ∧ host.rollbackError = none ∧
        ∀ m ∈ (checkPersistent a.name host.moments host.clock).2, Healthy a m := by
      simpa [not_or] using hnot
    refine hsound.kept hhealthy err ?_
    rw [hreply, execute_ok_iff.mpr ⟨hold, hdisk⟩]
  · intro hcase
    cases hexecute : (execute a host ⟨version, l.currentVersion a⟩
        (installNewVersion a version staged l).2).1 with
    | error rollback =>
        rw [hexecute] at hreply
        exact sound_of_failed hreply fun health => by simp
    | ok _ =>
        obtain ⟨hold, hdisk⟩ := execute_ok_iff.mp hexecute
        obtain ⟨m, hm, hsick⟩ := (hcase.resolve_left hold).resolve_left fun hfails => hfails hdisk
        refine ⟨fun version message happlied => ?_, fun hhealthy => absurd (hhealthy m hm) hsick⟩
        cases hreply.symm.trans happlied

end Installed

end Reports

/-- The reports of an update are sound exactly if nothing is installed or the unit with the
doubled name does not mislead it. -/
theorem sound_iff_unmistaken (a : Agent) (host : Host) (l : Layout)
    (hagent : a.name ≠ "pmx-updater") :
    Sound a host l ↔ (Installs host → Unmistaken a host l) := by
  cases hdownload : host.download with
  | error err =>
      have hreply : (applyAsync a host l).reply = .failed (.download err) := by
        rw [applyAsync, hdownload]
      refine iff_of_true (sound_of_failed hreply fun health => by simp) fun hinstalls => ?_
      obtain ⟨-, update, hupdate⟩ := hinstalls
      cases hdownload.symm.trans hupdate
  | ok update =>
      cases hinstall : host.installError with
      | some failure =>
          have hreply : (applyAsync a host l).reply = .failed (.install failure.1) := by
            rw [applyAsync, hdownload, hinstall]
          refine iff_of_true (sound_of_failed hreply fun health => by simp) fun hinstalls => ?_
          cases hinstall.symm.trans hinstalls.1
      | none =>
          have hinstalls : Installs host := ⟨hinstall, update, hdownload⟩
          cases hhealth : (checkPersistent a.name host.moments host.clock).1 with
          | ok _ =>
              refine iff_of_false (not_sound_of_ok hagent hdownload hinstall hhealth) fun h => ?_
              obtain ⟨m, hm, hspawn, hactive⟩ := checkPersistent_ok_iff.mp hhealth
              rw [(h hinstalls).1 m hm hspawn] at hactive
              cases hactive
          | error err =>
              have hnever : ∀ m ∈ (checkPersistent a.name host.moments host.clock).2,
                  m.spawnError = none → (m.units (polledUnit a.name)).active = false := by
                intro m hm hspawn
                refine Bool.eq_false_iff.mpr fun hactive => ?_
                cases hhealth.symm.trans (checkPersistent_ok_iff.mpr ⟨m, hm, hspawn, hactive⟩)
              rw [sound_iff_of_error hagent hdownload hinstall hhealth]
              exact ⟨fun h _ => ⟨hnever, h⟩, fun h => (h hinstalls).2⟩

/-- A clock on which every poll takes no time. -/
def plainClock (timeout : ℕ) : Clock timeout :=
  ⟨fun i => pollInterval * i, fun i => by rw [Nat.mul_succ]; exact Nat.min_le_left _ _⟩

/-- A host whose units are in the same states all the time. -/
def steadyHost (units : String → UnitState) : Host where
  download := .ok ("1.4.2", [2])
  installError := none
  rollbackError := none
  execError := none
  moments := fun _ => ⟨none, units⟩
  clock := plainClock healthTimeout
  momentsAfter := fun _ => ⟨none, units⟩
  clockAfter := plainClock healthTimeout

def networkAgent : Agent :=
  ⟨"pmx-network", ["opt", "pmx-cloud", "agents", "pmx-network"], by decide, by decide, by decide⟩

/-- The agent's directory with one version installed. -/
def networkInstalled : Layout := (installNewVersion networkAgent "1.4.1" [1] .empty).2

/-- No unit comes up, and the update is rolled back; a first installation that runs well stays. -/
theorem sound_notMistaken :
    let runsWell := steadyHost fun unit => ⟨unit = "pmx-network", true⟩
    Sound networkAgent (steadyHost fun _ => ⟨false, false⟩) networkInstalled ∧
      Sound networkAgent runsWell .empty ∧ ∀ i, Healthy networkAgent (runsWell.moments i) := by
  refine ⟨(sound_iff_unmistaken networkAgent _ networkInstalled (by decide)).mpr fun _ => ?_,
    (sound_iff_unmistaken networkAgent _ .empty (by decide)).mpr fun _ => ?_, fun i => ⟨rfl, rfl⟩⟩
  · exact ⟨by decide, by decide⟩
  · exact ⟨by decide, Or.inl rfl⟩

/-- A unit of the doubled name hides that the agent still runs its old binary, and without such a
unit an agent that runs well on the new one is rolled back. -/
theorem doubled_name_misleads :
    let stillOld := steadyHost fun unit => ⟨unit ∈ ["pmx-network", "pmx-pmx-network"], false⟩
    let runsWell := steadyHost fun unit => ⟨unit = "pmx-network", true⟩
    ((applyAsync networkAgent stillOld networkInstalled).reply =
        .applied "1.4.2" "updated pmx-network to 1.4.2" ∧
      ∀ i, ¬ Healthy networkAgent (stillOld.moments i)) ∧
    (applyAsync networkAgent runsWell networkInstalled).reply =
        .failed (.rolledBack (.notActive healthTimeout
          "systemctl is-active pmx-pmx-network returned non-zero")) ∧
      ∀ i, Healthy networkAgent (runsWell.moments i) := by
  refine ⟨⟨by decide, fun i h => ?_⟩, by decide, fun i => ⟨rfl, rfl⟩⟩
  exact Bool.false_ne_true h.2

end PmxAgents.Updater

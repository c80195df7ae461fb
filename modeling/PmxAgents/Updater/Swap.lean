import Mathlib.Logic.Function.Basic
import PmxAgents.Lib.FileSystem

/-!
# Version directories of an agent

The binaries of an agent lie in `versions/<version>/<agent>`. The links `current` and
`previous` lead to two of them, and the file `VERSION` names the current one. An
installation copies the binary, moves the links and writes `VERSION`; a rollback moves
`current` back to the version that was read from the link before.

## Implementation notes

A layout is what lies in the directory of one agent, so the agent and the base directory
of a handle are not repeated in it. `files` are the regular files of the system by their
paths. Directories are no links, and every directory that a path goes through exists. The
binary to install is given by its bytes; the temporary name of a link is never that of
anything else.
-/

namespace PmxAgents.Updater

open Lib Lib.FileSystem

abbrev Binary := List UInt8

/-- An agent with its directory. Its name is that of no other entry there. -/
structure Agent where
  name : String
  dir : Path
  isName : PathText.IsName name
  unreserved : name.toList.head? ≠ some '.' ∧
    name ∉ ["current", "previous", "versions", "VERSION"]
  plain : ∀ c ∈ dir, Plain c

/-- The links are kept as the texts they hold. -/
structure Layout where
  files : Path → Option Binary
  current : Option String
  previous : Option String
  version : Option String

structure SwapHandle where
  newVersion : String
  oldVersion : Option String
  deriving DecidableEq, Repr

inductive SwapError where
  | noPreviousVersion
  deriving DecidableEq, Repr

/-! ## Paths -/

/-- The text of a link to the binary of a version. -/
def Agent.target (a : Agent) (version : String) : String :=
  PathText.join (PathText.join "versions" version) a.name

/-- The place a link in the directory leads to. -/
def Agent.locate (a : Agent) (target : String) : Path := PathText.resolve a.dir target

/-- The place of the binary of a version. -/
def Agent.binary (a : Agent) (version : String) : Path := a.locate (a.target version)

/-- The directory of a version. -/
def Agent.versionDir (a : Agent) (version : String) : Path :=
  a.locate (PathText.join "versions" version)

def extractVersionFromTarget (target agent : String) : Option String :=
  match (PathText.parts target).reverse with
  | [] => none
  | last :: rest => if last ≠ agent then none else rest.head?

/-! ## Operations -/

/-- The version that `current` names. -/
def Layout.currentVersion (a : Agent) (l : Layout) : Option String :=
  l.current.bind fun target => extractVersionFromTarget target a.name

/-- The links and `VERSION` for a new version. -/
def Layout.swap (a : Agent) (l : Layout) (handle : SwapHandle) : Layout where
  files := l.files
  previous :=
    match handle.oldVersion with
    | none => l.previous
    | some old => some (a.target old)
  current := some (a.target handle.newVersion)
  version := some handle.newVersion

/-- Copy a binary to its place. -/
def Layout.place (a : Agent) (l : Layout) (version : String) (staged : Binary) : Layout :=
  { l with files := Function.update l.files (a.binary version) (some staged) }

def installNewVersion (a : Agent) (version : String) (staged : Binary) (l : Layout) :
    SwapHandle × Layout :=
  let copied := l.place a version staged
  let handle := ⟨version, copied.currentVersion a⟩
  (handle, copied.swap a handle)

def rollback (a : Agent) (handle : SwapHandle) (l : Layout) : Except SwapError Layout :=
  match handle.oldVersion with
  | none => .error .noPreviousVersion
  | some old => .ok { l with current := some (a.target old), version := some old }

def installSelf (a : Agent) (handle : SwapHandle) (l : Layout) : Layout := l.swap a handle

/-- Remove a directory with everything in it. -/
def Layout.removeDirAll (a : Agent) (l : Layout) (dir : Path) : Layout where
  files p := if dir <+: p then none else l.files p
  current := if dir <+: a.dir ++ ["current"] then none else l.current
  previous := if dir <+: a.dir ++ ["previous"] then none else l.previous
  version := if dir <+: a.dir ++ ["VERSION"] then none else l.version

def rollbackSelf (a : Agent) (l : Layout) : Layout :=
  match l.previous with
  | none => l
  | some target =>
      match extractVersionFromTarget target a.name with
      | none => l
      | some old =>
          let reverted := { l with current := some target, version := some old }
          match l.currentVersion a with
          | none => reverted
          | some bad => reverted.removeDirAll a (a.versionDir bad)

/-! ## Reading the layout -/

/-- The bytes that `current` leads to. -/
def Layout.live (a : Agent) (l : Layout) : Option Binary :=
  l.current.bind fun target => l.files (a.locate target)

/-! ## Installation and rollback -/

section Restore
variable (a : Agent) (l : Layout) (version : String) (staged : Binary)

/-- An installation and the rollback of its handle. A rollback that fails changes nothing. -/
def installAndRollback : Layout :=
  let (handle, installed) := installNewVersion a version staged l
  match rollback a handle installed with
  | .ok reverted => reverted
  | .error _ => installed

/-- `current` leads to the bytes it led to before, and `VERSION` is what it was. -/
def Restored : Prop :=
  (installAndRollback a l version staged).live a = l.live a ∧
    (installAndRollback a l version staged).version = l.version

/-- With a version read from the link, `VERSION` names it and its binary has the live bytes; where
the copy goes to that place, it has them too. Without one, nothing is replaced by anything else. -/
def Recoverable (live : Binary) : Prop :=
  match l.currentVersion a with
  | none => staged = live ∧ l.version = some version
  | some old =>
      (if a.binary old = a.binary version then staged = live
        else l.files (a.binary old) = some live) ∧ l.version = some old

/-- Rollback restores a layout exactly if it is recoverable. -/
theorem restored_iff_recoverable (live : Binary) (hlive : l.live a = some live) :
    Restored a l version staged ↔ Recoverable a l version staged live := by
  rw [Restored, hlive, Recoverable]
  cases hold : l.currentVersion a with
  | none =>
      have hstate : installAndRollback a l version staged =
          (l.place a version staged).swap a ⟨version, none⟩ := by
        rw [installAndRollback, installNewVersion]
        have hcopied : (l.place a version staged).currentVersion a = none := hold
        rw [hcopied]
        rfl
      rw [hstate]
      simp only [Layout.live, Layout.swap, Layout.place, Option.bind_some]
      rw [← Agent.binary, Function.update_self, Option.some_inj, eq_comm (a := some version)]
  | some old =>
      have hstate : installAndRollback a l version staged =
          { (l.place a version staged).swap a ⟨version, some old⟩ with
            current := some (a.target old), version := some old } := by
        rw [installAndRollback, installNewVersion]
        have hcopied : (l.place a version staged).currentVersion a = some old := hold
        rw [hcopied]
        rfl
      rw [hstate]
      simp only [Layout.live, Layout.swap, Layout.place, Option.bind_some]
      rw [← Agent.binary, eq_comm (a := some old)]
      split_ifs with hsame
      · rw [hsame, Function.update_self, Option.some_inj]
      · rw [Function.update_of_ne hsame]

end Restore

/-- The updater's own directory. -/
def updaterAgent : Agent :=
  ⟨"pmx-updater", ["opt", "pmx-cloud", "agents", "pmx-updater"], by decide, by decide, by decide⟩

def Layout.empty : Layout := ⟨fun _ => none, none, none, none⟩

/-- The layout after a first installation. -/
def firstInstalled : Layout := (installNewVersion updaterAgent "1.4.1" [1] .empty).2

/-- Another version is rolled back to the first. -/
theorem restored_otherVersion : Restored updaterAgent firstInstalled "1.4.2" [2] :=
  (restored_iff_recoverable updaterAgent firstInstalled "1.4.2" [2] [1] (by decide +kernel)).mpr
    ⟨by decide +kernel, by decide +kernel⟩

/-- The installed version is installed again with other bytes: the copy goes into the live
directory, and rollback has nothing to go back to. -/
theorem reinstalled_not_restored :
    firstInstalled.live updaterAgent = some [1] ∧
      (installAndRollback updaterAgent firstInstalled "1.4.1" [2]).live updaterAgent = some [2] ∧
      ¬ Restored updaterAgent firstInstalled "1.4.1" [2] := by
  refine ⟨by decide +kernel, by decide +kernel, fun h => ?_⟩
  exact absurd h.1 (by decide +kernel)

end PmxAgents.Updater

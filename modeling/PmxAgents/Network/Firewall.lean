import Mathlib.Logic.Function.Basic
import PmxAgents.Lib.Checks
import PmxAgents.Lib.FileSystem
import PmxAgents.Network.Ruleset

/-!
# The firewall of the network agent

A ruleset is written beside its final place, checked by `nft`, renamed into place and
loaded into the kernel; then the link `active.nft` is moved to it. A lockdown is a
ruleset of its own, followed by a flag in the state directory that makes `clear` refuse.

## Implementation notes

The steps of a call change the file system, the kernel and the flag one after another. A
call that fails and one whose process ends leave the same state, so both are a stop at
the step that was not taken any more. Files of the ruleset directory are named by their
stems. The link names a path of the directory's own text, which is read from inside the
directory. Directories on that path are no links.

`nft -f` adds the rules of a file to those that are there, in their order.
-/

namespace PmxAgents.Network

open Lib

/-! ## The ruleset directory -/

/-- `rulesets` are the files with the ending `.nft`, `staged` those of the form `.<stem>.tmp`;
`link` is the stem that `active.nft` names when it is a link. -/
structure Dir where
  rulesets : String → Option (List Line)
  staged : String → Option (List Line)
  link : Option String
  exclusive : link.isSome → rulesets "active" = none

namespace Dir

def stage (d : Dir) (revision : String) (text : List Line) : Dir :=
  { d with staged := Function.update d.staged revision (some text) }

/-- Rename the staged file to its final name, over whatever is there. -/
def promote (d : Dir) (revision : String) : Dir where
  rulesets := Function.update d.rulesets revision (d.staged revision)
  staged := Function.update d.staged revision none
  link := if revision = "active" then none else d.link
  exclusive := by
    split_ifs with h
    · simp
    · intro hlink
      rw [Function.update_of_ne (Ne.symm h)]
      exact d.exclusive hlink

/-- Remove `active.nft`. -/
def unlink (d : Dir) : Dir where
  rulesets := Function.update d.rulesets "active" none
  staged := d.staged
  link := none
  exclusive := by simp

/-- Make `active.nft` a link. -/
def relink (d : Dir) (revision : String) : Dir :=
  { d.unlink with link := some revision, exclusive := fun _ => by simp [unlink] }

/-- Write `clear.nft`. -/
def writeClear (d : Dir) (text : List Line) : Dir :=
  { d with
    rulesets := Function.update d.rulesets "clear" (some text)
    exclusive := fun h => by
      rw [Function.update_of_ne (by decide)]
      exact d.exclusive h }

end Dir

/-- The directory the configured text leads to. -/
def Config.dirPath (cfg : Config) : FileSystem.Path :=
  if cfg.rulesetDir.toList.head? = some '/' then
    FileSystem.clean (FileSystem.components cfg.rulesetDir.toList)
  else FileSystem.clean (cfg.workingDir ++ FileSystem.components cfg.rulesetDir.toList)

/-- The directory the same text leads to in a link inside the directory. -/
def Config.linkPath (cfg : Config) : FileSystem.Path :=
  if cfg.rulesetDir.toList.head? = some '/' then
    FileSystem.clean (FileSystem.components cfg.rulesetDir.toList)
  else FileSystem.clean (cfg.dirPath ++ FileSystem.components cfg.rulesetDir.toList)

/-- Links made with the configured text lead into the directory they are in. -/
def Config.LinksBack (cfg : Config) : Prop := cfg.linkPath = cfg.dirPath

instance (cfg : Config) : Decidable cfg.LinksBack := inferInstanceAs (Decidable (_ = _))

/-- What `active.nft` leads to. -/
def Dir.readActive (cfg : Config) (d : Dir) : Option (List Line) :=
  match d.link with
  | none => d.rulesets "active"
  | some revision => if cfg.LinksBack then d.rulesets revision else none

/-- The stem of the active file. A file in the place of the link is an error. -/
def readActivePath (cfg : Config) (d : Dir) : Except String (Option String) :=
  if (d.readActive cfg).isNone then .ok none
  else
    match d.link with
    | none => .error "read active ruleset symlink"
    | some revision => .ok (some revision)

/-! ## The lockdown flag -/

/-- A file that was cut off is no JSON text. -/
inductive FlagFile where
  | missing
  | enabled (b : Bool)
  | torn
  deriving DecidableEq, Repr

def isLockdownEnabled : FlagFile → Except String Bool
  | .missing => .ok false
  | .enabled b => .ok b
  | .torn => .error "EOF while parsing"

/-! ## The kernel -/

structure KernelRule where
  family : String
  table : String
  chain : String
  text : String
  deriving DecidableEq, Repr

abbrev Kernel := List KernelRule

/-- The kernel while a file is read, with the table and the chain of the current line. -/
structure Reading where
  kernel : Kernel
  family : String
  table : String
  chain : String

def Reading.line (r : Reading) : Line → Reading
  | .flushTable family table =>
      { r with kernel := r.kernel.filter fun k => ¬ (k.family = family ∧ k.table = table) }
  | .table family table => { r with family := family, table := table }
  | .chain chain => { r with chain := chain }
  | .rule text =>
      if text = "" then r
      else { r with kernel := r.kernel ++ [⟨r.family, r.table, r.chain, text⟩] }
  | _ => r

/-- Load a file. -/
def Kernel.load (k : Kernel) (text : List Line) : Kernel :=
  (text.foldl Reading.line ⟨k, "", "", ""⟩).kernel

/-! ## Calls -/

/-- `loaded` is the file that was loaded last, and `lockdown` tells whether a lockdown made it. -/
structure State where
  dir : Dir
  flag : FlagFile
  kernel : Kernel
  loaded : Option (List Line)
  lockdown : Bool

def State.load (s : State) (text : List Line) (lockdown : Bool) : State :=
  { s with kernel := s.kernel.load text, loaded := some text, lockdown := lockdown }

/-- What `apply` has found out before it writes anything. -/
structure Plan where
  wasLockdown : Bool
  revision : String
  rendered : List Line
  changedLines : ℕ

def prepare (cfg : Config) (std : Std) (now : Int) (params : ApplyParams) (s : State) :
    Except String Plan := do
  let wasLockdown ← isLockdownEnabled s.flag
  ensureLimit cfg params.ruleset
  ensureRulesetTarget params.ruleset
  let revision ← normalizeRevision params.ruleset.revision now
  let rendered ← renderRuleset cfg std params.ruleset params.allowSshFrom
  ensureIsolationIntact cfg std params.allowSshFrom rendered
  let active ← readActivePath cfg s.dir
  let old := active.bind s.dir.rulesets
  return ⟨wasLockdown, revision, rendered,
    match old with
    | none => rendered.length
    | some old => diffLineCount old rendered⟩

/-- What a plan holds. -/
theorem prepare_eq_ok {cfg : Config} {std : Std} {now : Int} {params : ApplyParams} {s : State}
    {plan : Plan} (h : prepare cfg std now params s = .ok plan) :
    isLockdownEnabled s.flag = .ok plan.wasLockdown ∧
      normalizeRevision params.ruleset.revision now = .ok plan.revision ∧
      renderRuleset cfg std params.ruleset params.allowSshFrom = .ok plan.rendered ∧
      ensureRulesetTarget params.ruleset = .ok () := by
  simp only [prepare, Checks.bind_eq_ok] at h
  obtain ⟨was, hwas, _, -, _, htarget, revision, hrevision, rendered, hrendered, _, -, active, -,
    hplan⟩ := h
  obtain rfl := Except.ok.inj hplan
  exact ⟨hwas, hrevision, hrendered, htarget⟩

/-- The first step of `apply` that was not taken any more, or not to its end. -/
inductive Stop where
  | create
  | stage (left : List Line)
  | check
  | load
  | unlink
  | link
  | flag
  | writeFlag
  deriving DecidableEq, Repr

def Plan.execute (plan : Plan) (lockdown : Bool) (stop : Option Stop) (s : State) : State :=
  let staged := { s with dir := s.dir.stage plan.revision plan.rendered }
  let promoted := { staged with dir := staged.dir.promote plan.revision }
  let loaded := promoted.load plan.rendered lockdown
  let unlinked := { loaded with dir := loaded.dir.unlink }
  let linked := { unlinked with dir := unlinked.dir.relink plan.revision }
  match stop with
  | some .create => s
  | some (.stage left) => { s with dir := s.dir.stage plan.revision left }
  | some .check => staged
  | some .load => promoted
  | some .unlink => loaded
  | some .link => unlinked
  | some .flag => linked
  | some .writeFlag => if plan.wasLockdown then { linked with flag := .torn } else linked
  | none => if plan.wasLockdown then { linked with flag := .enabled false } else linked

structure ApplyResult where
  revision : String
  changedLines : ℕ
  deriving DecidableEq, Repr

inductive Reply where
  | ok (result : ApplyResult)
  | refused (message : String)
  | stopped
  deriving DecidableEq, Repr

def apply (cfg : Config) (std : Std) (now : Int) (params : ApplyParams) (lockdown : Bool)
    (stop : Option Stop) (s : State) : Reply × State :=
  match prepare cfg std now params s with
  | .error message => (.refused message, s)
  | .ok plan =>
      (match stop with
        | none => .ok ⟨plan.revision, plan.changedLines⟩
        | some _ => .stopped,
       plan.execute lockdown stop s)

def lockdownRuleset (now : Int) (managementCidrs : List String) : RuleSet where
  revision := some ("lockdown-" ++ toString now)
  family := "inet"
  table := defaultTable
  chains := [⟨"input", some "filter", some "input", some 0, some "drop"⟩]
  rules := managementCidrs.map fun cidr =>
    ⟨"input", [.matchField "ip saddr" "==" cidr, .accept]⟩

/-- A stop inside `apply`, before the flag is written, or while it is written. -/
inductive LockdownStop where
  | apply (stop : Stop)
  | flag
  | writeFlag
  deriving DecidableEq, Repr

def LockdownStop.inApply : Option LockdownStop → Option Stop
  | some (.apply stop) => some stop
  | _ => none

def emergencyLockdown (cfg : Config) (std : Std) (now : Int) (managementCidrs : List String)
    (stop : Option LockdownStop) (s : State) : Reply × State :=
  if managementCidrs = [] then (.refused "management_cidrs is required for lockdown", s)
  else
    match apply cfg std now ⟨lockdownRuleset now managementCidrs, managementCidrs⟩ true
        (LockdownStop.inApply stop) s with
    | (.ok result, s) =>
        match stop with
        | some .writeFlag => (.stopped, { s with flag := .torn })
        | some _ => (.stopped, s)
        | none => (.ok result, { s with flag := .enabled true })
    | (reply, s) => (reply, s)

inductive ClearStop where
  | create
  | write (left : List Line)
  | load
  deriving DecidableEq, Repr

def lockdownActive : String :=
  "LOCKDOWN_ACTIVE: firewall.rules.clear is refused while lockdown is active"

/-- The file of `clear`, unless it is refused. -/
def prepareClear (cfg : Config) (std : Std) (s : State) : Except String (List Line) := do
  if ← isLockdownEnabled s.flag then throw lockdownActive
  let isolation ← renderIsolationTable cfg std []
  return .flushTable "inet" defaultTable :: isolation

def clear (cfg : Config) (std : Std) (stop : Option ClearStop) (s : State) : Reply × State :=
  match prepareClear cfg std s with
  | .error message => (.refused message, s)
  | .ok text =>
      let written := { s with dir := s.dir.writeClear text }
      match stop with
      | some .create => (.stopped, s)
      | some (.write left) => (.stopped, { s with dir := s.dir.writeClear left })
      | some .load => (.stopped, written)
      | none => (.ok ⟨"", 0⟩, written.load text false)

/-! ## Histories -/

inductive Op where
  | apply (now : Int) (params : ApplyParams) (stop : Option Stop)
  | clear (stop : Option ClearStop)
  | emergencyLockdown (now : Int) (managementCidrs : List String) (stop : Option LockdownStop)
  deriving DecidableEq, Repr

def Op.run (cfg : Config) (std : Std) (s : State) : Op → Reply × State
  | .apply now params stop => Network.apply cfg std now params false stop s
  | .clear stop => Network.clear cfg std stop s
  | .emergencyLockdown now cidrs stop => Network.emergencyLockdown cfg std now cidrs stop s

def step (cfg : Config) (std : Std) (s : State) (op : Op) : Option State :=
  some (op.run cfg std s).2

/-- An empty directory, no flag, and no rules. -/
def State.init : State :=
  ⟨⟨fun _ => none, fun _ => none, none, nofun⟩, .missing, [], none, false⟩

/-- Addresses and lower case as they are written. -/
def plainStd : Std := ⟨fun s => some (.v4 s), id⟩

def plainConfig : Config := ⟨[], "/etc/pmx/nft", 100, true, []⟩

/-- A ruleset with one rule. -/
def oneRule (revision : String) (expr : List Expr) : ApplyParams :=
  ⟨⟨some revision, "inet", defaultTable, [⟨"input", some "filter", some "input", some 0, none⟩],
    [⟨"input", expr⟩]⟩, []⟩

end PmxAgents.Network

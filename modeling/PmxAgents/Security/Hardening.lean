import Mathlib.Data.List.Sort
import PmxAgents.Lib.Attempts
import PmxAgents.Lib.FileSystem
import PmxAgents.Lib.Text

/-!
# Hardening jobs

`hardening.apply` runs the operations of a profile one after the other, each as a script in a
scope of its own: first with `--check`, then, if that does not succeed, for real. The state of
the job is a file that is written anew at every turn. When the agent starts it looks through
the files and brings those jobs to an end that were running.

## Implementation notes

The state directory is one and the same everywhere. A state is written to a temporary file
that is renamed, so a write is all or nothing, but a write that fails can leave the temporary
file. Times are written into the states and read by nobody; they are left out, and the error
output of an operation is the piece of it that is kept. The check of the embedded scripts
against their hashes is an argument.
-/

namespace PmxAgents.Security.Hardening

open Lib Lib.Dialogue

/-! ## States -/

inductive Status where
  | queued
  | running
  | success
  | fail
  deriving DecidableEq, Repr

structure OperationState where
  name : String
  status : Status
  noop : Bool
  unit : String
  stderr : String
  deriving DecidableEq, Repr

structure ApplyState where
  jobID : String
  profile : String
  status : Status
  error : String
  operations : List OperationState
  deriving DecidableEq, Repr

/-! ## Operations and their scopes -/

structure ScopeHardening where
  readWritePaths : List String
  appArmorProfile : String
  deriving DecidableEq, Repr

def operationHardening : String → Option ScopeHardening
  | "disable_rpcbind" => some ⟨["/etc/systemd", "/run/systemd"], "pmx-security-disable-rpcbind"⟩
  | "ssh_level1" => some ⟨["/etc/ssh", "/run/systemd"], "pmx-security-ssh-harden"⟩
  | "auditd_enable" => some ⟨["/etc/audit", "/run/systemd"], "pmx-security-auditd-enable"⟩
  | _ => none

def profileOperations : String → Option (List String)
  | "cis_level1" => some ["disable_rpcbind", "ssh_level1"]
  | "cis_level2" => some ["disable_rpcbind", "ssh_level1", "auditd_enable"]
  | _ => none

def dedupeSorted (ops : List String) : List String :=
  ops.dedup.insertionSort FileSystem.nameLe

/-- The errors of a job; those that quote a text have it as an argument. -/
inductive ApplyError where
  | customNeedsOperations
  | unknownOperation (op : String)
  | unknownProfile (profile : String)
  | text (message : String)
  deriving DecidableEq, Repr

def resolveOperations (profile : String) (ops : List String) : Except ApplyError (List String) :=
  let name := Text.trimSpace (Casing.toLower profile)
  let name := if name = "" then "cis_level1" else name
  if name = "custom" then
    if ops = [] then .error .customNeedsOperations
    else match ops.find? fun op => (operationHardening op).isNone with
      | some op => .error (.unknownOperation op)
      | none => .ok (dedupeSorted ops)
  else match profileOperations name with
    | some resolved => .ok resolved
    | none => .error (.unknownProfile name)

def isSafeToken (v : String) : Bool :=
  v ≠ "" && v.toList.all fun c => c == '-' || c == '_' || c.isAlphanum

def scopeUnitName (jobID name : String) : Except String String :=
  if isSafeToken name && isSafeToken jobID then
    .ok ("pmx-sec-apply-" ++ jobID ++ "-" ++ name ++ ".scope")
  else .error "rootscope: invalid job/name token"

/-! ## Applying a profile -/

structure ApplyParams where
  jobID : String
  profile : String
  operations : List String

structure ApplyResult where
  applied : List String
  noop : List String
  deriving DecidableEq, Repr

inductive Query where
  | persist (st : ApplyState)
  | materialize (op : String)
  | runRoot (jobID name command : String) (args : List String) (h : Option ScopeHardening)
  deriving DecidableEq, Repr

/-- A script that was run has an exit code, unless there is no result at all. -/
inductive Reply where
  | done
  | failed (err : String)
  | script (path : String)
  | ran (exitCode : Option ℤ) (stderr : String) (err : Option String)
  deriving DecidableEq, Repr

def Reply.error : Reply → Option String
  | .failed err => some err
  | .ran _ _ err => err
  | _ => none

def Reply.path : Reply → String
  | .script path => path
  | _ => ""

def Reply.stderr : Reply → String
  | .ran _ stderr _ => stderr
  | _ => ""

def Reply.exitsZero : Reply → Bool
  | .ran (some 0) _ none => true
  | _ => false

abbrev Applying := Talk Query Reply (Except ApplyError ApplyResult)

/-- The names of the operations are distinct. -/
def ApplyState.markOp (st : ApplyState) (name : String) (mark : OperationState → OperationState) :
    ApplyState :=
  { st with operations := st.operations.map fun op => if op.name = name then mark op else op }

def ApplyState.markOpRunning (st : ApplyState) (name unit : String) : ApplyState :=
  st.markOp name fun op => { op with status := .running, unit := unit, stderr := "" }

def ApplyState.markOpSuccess (st : ApplyState) (name : String) (noop : Bool) : ApplyState :=
  st.markOp name fun op => { op with status := .success, noop := noop, stderr := "" }

def ApplyState.markOpFail (st : ApplyState) (name stderr : String) : ApplyState :=
  st.markOp name fun op => { op with status := .fail, stderr := stderr }

def ApplyState.markJobSuccess (st : ApplyState) : ApplyState :=
  { st with status := .success, error := "" }

def ApplyState.markJobFail (st : ApplyState) (reason : String) : ApplyState :=
  { st with status := .fail, error := Text.trimSpace reason }

/-- Write the state, and go on if that succeeds. -/
def persist (st : ApplyState) (next : Applying) : Applying :=
  .ask (.persist st) fun r => match r.error with
    | some err => .ret (.error (.text err))
    | none => next

/-- Write that the job has failed, whether that succeeds or not. -/
def failJob (st : ApplyState) (reason err : String) : Applying :=
  .ask (.persist (st.markJobFail reason)) fun _ => .ret (.error (.text err))

def applyOps (st : ApplyState) (res : ApplyResult) : List String → Applying
  | [] => persist st.markJobSuccess (.ret (.ok res))
  | op :: rest => .ask (.materialize op) fun made => match made.error with
    | some err => failJob st ("operation " ++ op ++ " materialize failed: " ++ err) err
    | none => match scopeUnitName st.jobID (op ++ "-check") with
      | .error err => failJob st ("operation " ++ op ++ " invalid unit: " ++ err) err
      | .ok checkUnit =>
        let checking := st.markOpRunning op checkUnit
        persist checking (.ask (.runRoot st.jobID (op ++ "-check") "/bin/sh" [made.path, "--check"]
            (operationHardening op)) fun check =>
          if check.exitsZero then
            let passed := checking.markOpSuccess op true
            persist passed (applyOps passed { res with noop := res.noop ++ [op] } rest)
          else match scopeUnitName st.jobID op with
            | .error err =>
                failJob checking ("operation " ++ op ++ " invalid apply unit: " ++ err) err
            | .ok applyUnit =>
              let applying := checking.markOpRunning op applyUnit
              persist applying (.ask (.runRoot st.jobID op "/bin/sh" [made.path]
                  (operationHardening op)) fun ran => match ran.error with
                | some err =>
                  let broken := applying.markOpFail op ran.stderr
                  .ask (.persist broken) fun _ =>
                    failJob broken ("operation " ++ op ++ " failed: " ++ err)
                      ("hardening.apply operation " ++ op ++ " failed: " ++ err)
                | none =>
                  let applied := applying.markOpSuccess op false
                  persist applied
                    (applyOps applied { res with applied := res.applied ++ [op] } rest)))

/-- The state with which a job begins. -/
def newApplyTracker (jobID profile : String) (ops : List String) : ApplyState :=
  ⟨jobID, profile, .running, "", ops.map fun op => ⟨op, .queued, false, "", ""⟩⟩

def apply (signatures : Except String Unit) (params : ApplyParams) : Applying :=
  let jobID := if params.jobID = "" then "local" else params.jobID
  match signatures with
  | .error err => .ret (.error (.text err))
  | .ok () => match resolveOperations params.profile params.operations with
    | .error err => .ret (.error err)
    | .ok ops => match scopeUnitName jobID "state" with
      | .error err =>
          .ret (.error (.text ("hardening.apply: invalid job id for state path: " ++ err)))
      | .ok _ =>
        let st := newApplyTracker jobID params.profile ops
        persist st (applyOps st ⟨[], []⟩ ops)

/-! ## The directory of states -/

/-- A file has a state, or something that cannot be decoded as one. -/
inductive Entry where
  | dir
  | file (content : Option ApplyState)
  deriving DecidableEq, Repr

/-- The entries in the order of their names. -/
abbrev Jobs := List (String × Entry)

def Jobs.erase (d : Jobs) (name : String) : Jobs := d.filter fun e => e.1 ≠ name

def Jobs.put (d : Jobs) (name : String) (entry : Entry) : Jobs :=
  (d.erase name).orderedInsert (fun a b => FileSystem.nameLe a.1 b.1) (name, entry)

def applyStatePath (jobID : String) : String := jobID ++ ".json"

def Effect (d : Jobs) (q : Query) (r : Reply) (d' : Jobs) : Prop :=
  match q with
  | .persist st =>
      let path := applyStatePath st.jobID
      if r = .done then d' = (d.erase (path ++ ".tmp")).put path (.file (some st))
      else d' = d ∨ ∃ part, d' = d.put (path ++ ".tmp") (.file part)
  | _ => d' = d

/-- The directories that jobs leave which may be stopped at any point. -/
inductive Stopped (signatures : Except String Unit) : Jobs → Prop
  | fresh : Stopped signatures []
  | attempt {d d' : Jobs} {params : ApplyParams} {log : Log Query Reply}
      {result : Option (Except ApplyError ApplyResult)} (before : Stopped signatures d)
      (run : Begins (apply signatures params) log result) (effects : Effects Effect d log d') :
      Stopped signatures d'

/-! ## Reconciliation -/

structure ScopeState where
  activeState : String
  subState : String
  result : String
  execMainStatus : ℤ

inductive ShowError where
  | notFound
  | other (text : String)

abbrev Inspector := String → Except ShowError ScopeState

def ScopeState.isActive (scope : ScopeState) : Bool :=
  Casing.equalFold scope.activeState "active" || Casing.equalFold scope.subState "running"

structure Flags where
  changed : Bool
  running : Bool
  failed : Bool
  deriving DecidableEq, Repr

def Flags.or (f g : Flags) : Flags :=
  ⟨f.changed || g.changed, f.running || g.running, f.failed || g.failed⟩

def reconcileOp (inspector : Inspector) (op : OperationState) : OperationState × Flags :=
  if op.status ≠ .running then (op, ⟨false, false, op.status == .fail⟩)
  else if Text.trimSpace op.unit = "" then
    ({ op with status := .fail, stderr := "running operation missing scope unit" },
      ⟨true, false, true⟩)
  else match inspector op.unit with
    | .error .notFound =>
        ({ op with status := .fail, stderr := "scope not found during reconcile" },
          ⟨true, false, true⟩)
    | .error (.other text) => ({ op with status := .fail, stderr := text }, ⟨true, false, true⟩)
    | .ok scope =>
        if scope.isActive then (op, ⟨false, true, false⟩)
        else if scope.execMainStatus = 0 ∨ Casing.equalFold scope.result "success" then
          ({ op with status := .success, stderr := "" }, ⟨true, false, false⟩)
        else
          ({ op with
              status := .fail
              stderr := "result=" ++ scope.result ++ " exit=" ++ toString scope.execMainStatus },
            ⟨true, false, true⟩)

def reconcileOne (inspector : Inspector) : List OperationState → List OperationState × Flags
  | [] => ([], ⟨false, false, false⟩)
  | op :: ops =>
      ((reconcileOp inspector op).1 :: (reconcileOne inspector ops).1,
        (reconcileOp inspector op).2.or (reconcileOne inspector ops).2)

def allSuccessful (ops : List OperationState) : Bool :=
  ops ≠ [] && ops.all fun op => op.status == .success

/-- The state of a job some of whose operations have changed. -/
def settle (st : ApplyState) (ops : List OperationState) (flags : Flags) : ApplyState :=
  if flags.failed then
    { st with
      operations := ops
      status := .fail
      error := if st.error = "" then "reconcile detected failed operation" else st.error }
  else if flags.running then { st with operations := ops, status := .running, error := "" }
  else if allSuccessful ops then { st with operations := ops, status := .success, error := "" }
  else { st with
    operations := ops
    status := .fail
    error := "reconcile found incomplete operation set" }

/-- `filepath.Ext`: what a name has from its last dot on. -/
def ext (name : List Char) : List Char :=
  if '.' ∈ name then '.' :: (name.reverse.takeWhile (· ≠ '.')).reverse else []

def isJob (name : String) : Bool := ext name.toList == ".json".toList

/-- What the file system refuses. -/
structure Disk where
  readDir : Option String
  readFile : String → Option String
  writeFile : String → Option String

/-- What becomes of an entry; an error ends the pass. -/
def reconcileEntry (inspector : Inspector) (disk : Disk) (name : String) (entry : Entry) :
    Except String Entry :=
  if entry = .dir ∨ isJob name = false then .ok entry
  else match disk.readFile name with
    | some err => .error err
    | none => match entry with
      | .file (some st) =>
          let (ops, flags) := reconcileOne inspector st.operations
          if st.status ≠ .running ∨ flags.changed = false then .ok entry
          else match disk.writeFile name with
            | some err => .error err
            | none => .ok (.file (some (settle st ops flags)))
      | _ => .error ("hardening.apply: decode state " ++ name)

def reconcileEntries (inspector : Inspector) (disk : Disk) : Jobs → Jobs × Except String Unit
  | [] => ([], .ok ())
  | (name, entry) :: rest => match reconcileEntry inspector disk name entry with
    | .error err => ((name, entry) :: rest, .error err)
    | .ok entry' => ((name, entry') :: (reconcileEntries inspector disk rest).1,
        (reconcileEntries inspector disk rest).2)

def reconcileApplyStates (inspector : Inspector) (disk : Disk) (d : Jobs) :
    Jobs × Except String Unit :=
  match disk.readDir with
  | some err => (d, .error ("hardening.reconcile: readdir: " ++ err))
  | none => reconcileEntries inspector disk d

end PmxAgents.Security.Hardening

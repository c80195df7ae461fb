import Mathlib.Data.List.Basic
import PmxAgents.Lib.Checks
import PmxAgents.Lib.FileSystem
import PmxAgents.Lib.IpText
import PmxAgents.Lib.MakeDirs

/-!
# Community scripts

A signed script is run by `systemd-run` in a transient unit that may write below some roots
only and that reaches either no network or the addresses the request lists. The request is
checked, the directories the script may write to are made, and the checks' results become
the options of the command.

What the options mean is read as the service manager reads them: a list of directories is
split at white space, and each word is a path, with a sign before it if it may be missing.

## Implementation notes

Decoding the script, reading the release key and verifying the signature are one operation
of the host, and so is the descriptor of the sealed copy of the script.
-/

namespace PmxAgents.HardwareInstaller

open Lib Lib.Text Lib.FileSystem Lib.MakeDirs

structure Params where
  allowedInterpreters : List String
  allowedWriteRoots : List String
  outputLimitBytes : ℤ
  maxTimeoutSec : ℤ

structure RunRequest where
  script : String
  scriptSignature : String
  interpreter : String
  writePaths : List String
  envAllowlist : List String
  timeoutSeconds : ℤ
  allowNetwork : Bool
  ipAddressAllow : List String

inductive ScriptError where
  | unverified (reason : String)
  | interpreterNotAllowlisted (interpreter : String)
  | writePathSpaces (raw : String)
  | writePathNotAbsolute (raw : String)
  | writePathOutside (raw : String)
  | writePathsEmpty
  | createWritePath
  | timeoutExceedsMax (max : ℤ)
  | memfd
  | invalidMemfd
  | ipAddressAllowRequired
  | invalidIpAddressAllow (raw : String)
  | ipAddressAllowEmpty
  | invalidEnvName (raw : String)
  deriving DecidableEq, Repr

/-! ## Write paths -/

def writeRoots (roots : List String) : List String :=
  if roots = [] then ["/tmp", "/var/tmp"] else roots

/-- A path without the slash at its end. -/
def cleanPath (path : String) : String :=
  let clean := trimSuffix path "/"
  if clean = "" then "/" else clean

def underRoot (clean root : String) : Bool :=
  let rootClean := trimSuffix (trimSpace root) "/"
  rootClean ≠ "" && (clean = rootClean || (rootClean ++ "/").toList.isPrefixOf clean.toList)

/-- The path to write to that an entry stands for; a blank entry stands for none. -/
def checkWritePath (roots : List String) (raw : String) : Except ScriptError (Option String) :=
  let path := trimSpace raw
  if path = "" then .ok none
  else if ' ' ∈ path.toList then .error (.writePathSpaces raw)
  else if PathText.isAbsolute path = false then .error (.writePathNotAbsolute raw)
  else if roots.any (underRoot (cleanPath path)) = false then .error (.writePathOutside raw)
  else .ok (some (cleanPath path))

/-- Add a path that has not been seen. -/
def addNew (out : List String) (clean : String) : List String :=
  if clean ∈ out then out else out ++ [clean]

def collectWritePaths (roots : List String) :
    List String → List String → Except ScriptError (List String)
  | out, [] => .ok out
  | out, raw :: rest =>
      match checkWritePath roots raw with
      | .error e => .error e
      | .ok none => collectWritePaths roots out rest
      | .ok (some clean) => collectWritePaths roots (addNew out clean) rest

/-- The entries that are checked: those of the request, or the first root. -/
def requestedPaths (paths roots : List String) : List String :=
  if paths = [] then (writeRoots roots).take 1 else paths

def normalizeWritePaths (paths roots : List String) : Except ScriptError (List String) :=
  match collectWritePaths (writeRoots roots) [] (requestedPaths paths roots) with
  | .error e => .error e
  | .ok out => if out = [] then .error .writePathsEmpty else .ok out

/-! ## The command -/

def buildExecTarget (interpreter : String) (scriptFD : ℤ) :
    Except ScriptError (String × List String) :=
  if scriptFD < 0 then .error .invalidMemfd
  else
    let scriptPath := "/proc/self/fd/" ++ toString (scriptFD + 3)
    if interpreter = "/bin/bash" ∨ interpreter = "/bin/sh" then .ok (interpreter, [scriptPath])
    else if interpreter = "/usr/bin/python3" then .ok (interpreter, [scriptPath])
    else .error (.interpreterNotAllowlisted interpreter)

def sandboxOptions (writePaths : List String) : List String :=
  ["--pipe",
    "--wait",
    "--collect",
    "--property=NoNewPrivileges=yes",
    "--property=ProtectSystem=strict",
    "--property=ProtectHome=true",
    "--property=PrivateTmp=true",
    "--property=ReadOnlyPaths=/",
    "--property=ReadWritePaths=" ++ " ".intercalate writePaths,
    "--property=AppArmorProfile=pmx-hardware-installer-community-script"]

/-- The address or prefix is one that the standard library reads. -/
def isAllowEntry (v : String) : Bool :=
  (IpText.parsePrefix v.toList).isSome || (IpText.parseAddr v.toList).isSome

def allowOptions : List String → Except ScriptError (List String)
  | [] => .ok []
  | raw :: rest =>
      let v := trimSpace raw
      if v = "" then allowOptions rest
      else if isAllowEntry v = false then .error (.invalidIpAddressAllow raw)
      else
        match allowOptions rest with
        | .error e => .error e
        | .ok options => .ok (("--property=IPAddressAllow=" ++ v) :: options)

def networkOptions (allowNetwork : Bool) (ipAddressAllow : List String) :
    Except ScriptError (List String) :=
  if allowNetwork = false then .ok ["--property=PrivateNetwork=true"]
  else if ipAddressAllow = [] then .error .ipAddressAllowRequired
  else
    match allowOptions ipAddressAllow with
    | .error e => .error e
    | .ok options => if options = [] then .error .ipAddressAllowEmpty else .ok options

def buildSystemdRunArgs (interpreter : String) (scriptFD : ℤ) (writePaths : List String)
    (allowNetwork : Bool) (ipAddressAllow : List String) : Except ScriptError (List String) :=
  match buildExecTarget interpreter scriptFD with
  | .error e => .error e
  | .ok (execPath, execArgs) =>
      match networkOptions allowNetwork ipAddressAllow with
      | .error e => .error e
      | .ok network => .ok (sandboxOptions writePaths ++ network ++ execPath :: execArgs)

/-! ## The environment -/

def isEnvName (name : String) : Bool :=
  match name.toList with
  | [] => false
  | c :: rest =>
      (c.isAlpha || c == '_') && rest.all fun d => d.isAlphanum || d == '_'

def collectEnv (lookupEnv : String → Option String) :
    List String → List String → List String → Except ScriptError (List String × List String)
  | seen, out, [] => .ok (seen, out)
  | seen, out, raw :: rest =>
      let name := trimSpace raw
      if isEnvName name = false then .error (.invalidEnvName raw)
      else if name ∈ seen then collectEnv lookupEnv seen out rest
      else
        match lookupEnv name with
        | some value => collectEnv lookupEnv (name :: seen) (out ++ [name ++ "=" ++ value]) rest
        | none => collectEnv lookupEnv (name :: seen) out rest

def buildAllowedEnv (lookupEnv : String → Option String) (allowlist : List String) :
    Except ScriptError (List String) :=
  if allowlist = [] then .ok []
  else
    match collectEnv lookupEnv [] [] allowlist with
    | .error e => .error e
    | .ok (seen, out) =>
        .ok (if "PATH" ∈ seen then out else out ++ ["PATH=/usr/sbin:/usr/bin:/sbin:/bin"])

/-! ## A run up to the start of the command -/

/-- What a run finds on the host. -/
structure Host where
  verify : String → String → Except String Unit
  disk : Disk
  memfd : Option ℤ
  lookupEnv : String → Option String

/-- The command that is started, with its limits. No environment means that of the agent. -/
structure Launch where
  args : List String
  env : List String
  timeoutSec : ℤ
  outputLimit : ℤ
  deriving DecidableEq

def chooseInterpreter (p : Params) (req : RunRequest) : Except ScriptError String :=
  let named := trimSpace req.interpreter
  let interpreter := if named = "" then "/bin/bash" else named
  if interpreter ∈ p.allowedInterpreters then .ok interpreter
  else .error (.interpreterNotAllowlisted interpreter)

def chooseTimeout (p : Params) (req : RunRequest) : Except ScriptError ℤ :=
  let asked := if req.timeoutSeconds ≤ 0 then p.maxTimeoutSec else req.timeoutSeconds
  let timeoutSec := if asked ≤ 0 then 600 else asked
  if p.maxTimeoutSec < timeoutSec ∧ 0 < p.maxTimeoutSec then
    .error (.timeoutExceedsMax p.maxTimeoutSec)
  else .ok timeoutSec

def outputLimit (p : Params) : ℤ :=
  if p.outputLimitBytes ≤ 0 then 10 * 1024 * 1024 else p.outputLimitBytes

/-- The components of a path to make, as they are looked up. -/
def pathParts (path : String) : List String := components path.toList

def createWritePaths (writePaths : List String) (disk : Disk) : Making :=
  makeEach (writePaths.map pathParts) disk

/-- The part of a run before anything is written. -/
def checkRequest (host : Host) (p : Params) (req : RunRequest) :
    Except ScriptError (String × List String) := do
  match host.verify req.script req.scriptSignature with
  | .error reason => throw (.unverified reason)
  | .ok () =>
      let interpreter ← chooseInterpreter p req
      let writePaths ← normalizeWritePaths req.writePaths p.allowedWriteRoots
      pure (interpreter, writePaths)

/-- The part of a run between making the directories and starting the command. -/
def prepare (host : Host) (p : Params) (req : RunRequest) (interpreter : String)
    (writePaths : List String) : Except ScriptError Launch := do
  let timeoutSec ← chooseTimeout p req
  match host.memfd with
  | none => throw .memfd
  | some scriptFD =>
      let args ← buildSystemdRunArgs interpreter scriptFD writePaths req.allowNetwork
        req.ipAddressAllow
      let env ← buildAllowedEnv host.lookupEnv req.envAllowlist
      pure ⟨args, env, timeoutSec, outputLimit p⟩

/-- The directories that are made, and the command that is started. -/
def run (host : Host) (p : Params) (req : RunRequest) : Making × Except ScriptError Launch :=
  match checkRequest host p req with
  | .error e => (⟨host.disk, [], true⟩, .error e)
  | .ok (interpreter, writePaths) =>
      let making := createWritePaths writePaths host.disk
      if making.done then (making, prepare host p req interpreter writePaths)
      else (making, .error .createWritePath)

end PmxAgents.HardwareInstaller

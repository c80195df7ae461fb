import Mathlib.Data.List.Infix
import Mathlib.Logic.Function.Basic
import PmxAgents.Hypervisor.Exec

/-!
# Creating virtual machines

A machine is created in several calls of `qm`: one that allocates it, and one each for its
boot disk, its cloud-init drive and its boot order. Before that the agent asks whether a
machine of that number exists, and if so it returns with success. After an attempt that was
broken off between two calls a machine exists that lacks what the later calls would have
given it, and the next attempt returns with success.

## Implementation notes

The list of storages is read from the output of `pvesh` by an operation of the host. A call
of `qm` that succeeds has its effect; one that fails may have had it.
-/

namespace PmxAgents.Hypervisor

open Lib Lib.Text Lib.Dialogue

/-! ## Storages -/

structure NodeStorage where
  storage : String
  content : String
  type : String
  active : ℤ
  enabled : ℤ
  avail : ℤ

/-- What the agent takes from the host besides the tools. -/
structure Node where
  name : String
  readStorages : String → Option (List NodeStorage)

def isBlockStorage (type : String) : Bool :=
  type ∈ ["lvm", "lvmthin", "zfspool", "zfs", "rbd", "iscsi", "iscsidirect"]

/-- The best storage so far and its space, for other storages and for block storages. -/
structure Best where
  other : String
  otherAvail : ℤ
  block : String
  blockAvail : ℤ

/-- Look at the storages in order; the requested one ends the search if it can be used. -/
def searchStorage (requested contentType : String) (preferBlock : Bool) :
    Best → List NodeStorage → String
  | best, [] =>
      if preferBlock ∧ best.block ≠ "" then best.block
      else if best.other = "" then requested
      else best.other
  | best, s :: rest =>
      if s.enabled ≠ 1 ∨ ¬ contentType.toList <:+: s.content.toList then
        searchStorage requested contentType preferBlock best rest
      else if preferBlock ∧ isBlockStorage s.type then
        searchStorage requested contentType preferBlock
          (if best.block = "" ∨ best.blockAvail < s.avail then
            { best with block := s.storage, blockAvail := s.avail } else best) rest
      else if s.active ≠ 1 then searchStorage requested contentType preferBlock best rest
      else if s.storage = requested ∧ preferBlock = false then requested
      else
        searchStorage requested contentType preferBlock
          (if best.otherAvail < s.avail then
            { best with other := s.storage, otherAvail := s.avail } else best) rest

/-- The storage that the output of the list gives, or the requested one if it cannot be read. -/
def pickStorage (node : Node) (requested contentType : String) (ended : Ended) : String :=
  if (execReply ended).err ∨ exitCode ended ≠ 0 then requested
  else
    match node.readStorages ended.stdout with
    | none => requested
    | some storages =>
        searchStorage requested contentType (contentType = "rootdir") ⟨"", -1, "", -1⟩ storages

def resolveStorage (node : Node) (requested contentType : String) : Talk Query Ended String :=
  if node.name = "" then .ret requested
  else
    .ask (.pvesh, ["get", "/nodes/" ++ node.name ++ "/storage", "--output-format", "json"])
      fun ended => .ret (pickStorage node requested contentType ended)

/-! ## The request -/

inductive CreateError where
  | param (e : ParamError)
  | notPositive
  | net0 (value : String)
  | badStorage (value : String)
  | badOstype (value : String)
  | badCpuModel (value : String)
  | badMachine (value : String)
  | badBios
  | badBootOrder
  | badDisk (value : String)
  | allocate
  | attachDisk
  | allocateDisk
  | cloudInit
  | bootOrder
  deriving DecidableEq, Repr

structure CreateParams where
  vmid : String
  name : String
  memory : ℤ
  cores : ℤ
  sockets : ℤ
  net0 : String
  storage : String
  disk : String
  diskGb : ℤ
  ostype : String
  cpuModel : String
  machine : String
  bios : String
  bootOrder : String
  cloudInit : Bool
  nested : Bool
  agentEnabled : Option Bool
  startOnBoot : Option Bool

def isSafeCreateNet0 (value : String) : Bool :=
  let lead := "virtio,bridge=".toList
  if lead.isPrefixOf value.toList then
    let remainder := value.toList.drop lead.length
    let bridge := before ',' remainder
    bridge ≠ [] && isSafeToken (String.ofList bridge) &&
      (bridge = remainder || remainder.drop (bridge.length + 1) = "firewall=1".toList)
  else false

/-- A device is some letters and some digits after them. -/
def isBootDevice (device : List Char) : Bool :=
  let isLower := fun c : Char => decide ('a' ≤ c) && decide (c ≤ 'z')
  let digits := device.dropWhile isLower
  digits.length < device.length && digits ≠ [] && digits.all Char.isDigit

def isSafeBootOrder (value : String) : Bool :=
  let devices := split ';' value.toList
  devices.all isBootDevice && devices.Nodup

def boolValue (params : Params) (key : String) : Option Bool :=
  match params.lookup key with
  | some (.bool b) => some b
  | _ => none

def readCreateParams (params : Params) : Except CreateError CreateParams :=
  match requiredVMID params "vmid" with
  | .error e => .error (.param e)
  | .ok vmid =>
      match requiredSafeToken params "name" with
      | .error e => .error (.param e)
      | .ok name =>
          let nested := boolParam params "nested_virtualization"
          .ok
            { vmid, name, nested
              memory := intParam params "memory" 1024
              cores := intParam params "cores" 1
              sockets := intParam params "sockets" 1
              net0 := stringParam params "net0" "virtio,bridge=vmbr0"
              storage := stringParam params "storage" "local-lvm"
              disk := stringParam params "disk" ""
              diskGb := intParam params "disk_gb" 0
              ostype := stringParam params "ostype" "l26"
              cpuModel := if nested then "host" else stringParam params "cpu_model" ""
              machine := stringParam params "machine" ""
              bios := stringParam params "bios" ""
              bootOrder := stringParam params "boot_order" ""
              cloudInit := boolParam params "cloud_init"
              agentEnabled := boolValue params "agent_enabled"
              startOnBoot := boolValue params "start_on_boot" }

/-- The checks before the first call. -/
def CreateParams.validate (r : CreateParams) : Except CreateError Unit :=
  if r.memory ≤ 0 ∨ r.cores ≤ 0 ∨ r.sockets ≤ 0 then .error .notPositive
  else if isSafeCreateNet0 r.net0 = false then .error (.net0 r.net0)
  else if isSafeToken r.storage = false then .error (.badStorage r.storage)
  else if isSafeToken r.ostype = false then .error (.badOstype r.ostype)
  else if r.cpuModel ≠ "" ∧ isSafeToken r.cpuModel = false then .error (.badCpuModel r.cpuModel)
  else if r.machine ≠ "" ∧ isSafeToken r.machine = false then .error (.badMachine r.machine)
  else if r.bios ≠ "" ∧ r.bios ≠ "seabios" ∧ r.bios ≠ "ovmf" then .error .badBios
  else if r.bootOrder ≠ "" ∧ isSafeBootOrder r.bootOrder = false then .error .badBootOrder
  else .ok ()

/-! ## The calls -/

/-- A step of the creation: a call of `qm`, with the error of its failure, or a check. -/
inductive Step where
  | call (failed : CreateError) (args : List String)
  | demand (holds : Bool) (failed : CreateError)

def flagPair (condition : Bool) (key value : String) : List String :=
  if condition then [key, value] else []

def CreateParams.createArgs (r : CreateParams) : List String :=
  ["create", r.vmid,
    "--name", r.name,
    "--memory", toString r.memory,
    "--cores", toString r.cores,
    "--sockets", toString r.sockets,
    "--ide2", "none,media=cdrom",
    "--net0", r.net0,
    "--ostype", r.ostype] ++
  flagPair (r.cpuModel ≠ "") "--cpu" r.cpuModel ++
  flagPair (r.machine ≠ "") "--machine" r.machine ++
  flagPair (r.bios ≠ "") "--bios" r.bios ++
  flagPair r.agentEnabled.isSome "--agent"
    (if r.agentEnabled = some true then "enabled=1" else "enabled=0") ++
  flagPair r.startOnBoot.isSome "--onboot" (if r.startOnBoot = some true then "1" else "0") ++
  flagPair r.nested "--tags" "pmx-nested-cloud"

def formatDiskSpec (storage : String) (sizeGb : ℤ) : String := storage ++ ":" ++ toString sizeGb

def CreateParams.diskSteps (r : CreateParams) (storage : String) : List Step :=
  if r.disk ≠ "" then
    [.demand (isSafeToken r.disk) (.badDisk r.disk),
      .call .attachDisk ["set", r.vmid, "--scsi0", storage ++ ":" ++ r.disk]]
  else if 0 < r.diskGb then
    [.call .allocateDisk ["set", r.vmid, "--scsi0", formatDiskSpec storage r.diskGb,
      "--boot", "order=scsi0;net0"]]
  else []

def CreateParams.cloudInitSteps (r : CreateParams) (storage : String) : List Step :=
  if r.cloudInit then
    [.call .cloudInit ["set", r.vmid, "--ide2", storage ++ ":cloudinit", "--serial0", "socket",
      "--vga", "serial0"]]
  else []

def CreateParams.bootSteps (r : CreateParams) : List Step :=
  if r.bootOrder ≠ "" then
    [.call .bootOrder ["set", r.vmid, "--boot", "order=" ++ r.bootOrder]]
  else []

def perform : List Step → Talk Query Ended (Except CreateError Unit)
  | [] => .ret (.ok ())
  | .demand holds failed :: rest => if holds then perform rest else .ret (.error failed)
  | .call failed args :: rest =>
      .ask (.qm, args) fun ended =>
        if (execReply ended).err then .ret (.error failed) else perform rest

/-- A storage is looked for if a disk or a drive is to be made. -/
def chooseStorage (node : Node) (r : CreateParams) : Talk Query Ended String :=
  if r.disk ≠ "" ∨ 0 < r.diskGb ∨ r.cloudInit then resolveStorage node r.storage "images"
  else .ret r.storage

def CreateParams.steps (r : CreateParams) (storage : String) : List Step :=
  .call .allocate r.createArgs ::
    (r.diskSteps storage ++ r.cloudInitSteps storage ++ r.bootSteps)

/-- The machine was found: there is a result and its exit code is zero. -/
def found (reply : Reply) : Bool :=
  match reply.result with
  | none => false
  | some result => result.exitCode = 0

def create (node : Node) (r : CreateParams) : Talk Query Ended (Except CreateError Unit) :=
  match r.validate with
  | .error e => .ret (.error e)
  | .ok () =>
      .ask (.qm, ["config", r.vmid]) fun probe =>
        if found (execReply probe) then .ret (.ok ())
        else (chooseStorage node r).bind fun storage => perform (r.steps storage)

/-! ## The machine -/

/-- The options of a machine. -/
abbrev Config := String → Option String

/-- The options and values of a call. -/
def optionPairs : List String → List (String × String)
  | key :: value :: rest => (key, value) :: optionPairs rest
  | _ => []

def Config.set (c : Config) (pairs : List (String × String)) : Config :=
  pairs.foldl (fun c p => Function.update c p.1 (some p.2)) c

/-- What a call does if it has its effect, on the machine of the request. -/
def changed (vm : Option Config) : Query → Option (Option Config)
  | (.qm, "config" :: _) => if vm.isSome then some vm else none
  | (.qm, "create" :: _ :: options) =>
      match vm with
      | none => some (some (Config.set (fun _ => none) (optionPairs options)))
      | some _ => none
  | (.qm, "set" :: _ :: options) =>
      match vm with
      | none => none
      | some c => some (some (c.set (optionPairs options)))
  | _ => some vm

/-- A call that succeeds has its effect, one that fails may have had it. -/
def Effect (vm : Option Config) (q : Query) (ended : Ended) (vm' : Option Config) : Prop :=
  changed vm q = some vm' ∨ ended.failure.isSome ∧ vm' = vm

inductive Effects : Option Config → Log Query Ended → Option Config → Prop
  | nil (vm : Option Config) : Effects vm [] vm
  | cons {vm vm' vm'' : Option Config} {q : Query} {ended : Ended} {log : Log Query Ended}
      (first : Effect vm q ended vm') (rest : Effects vm' log vm'') :
      Effects vm ((q, ended) :: log) vm''

/-- An attempt to create the machine, which the end of the agent may have cut off. -/
structure Attempt where
  vmBefore : Option Config
  log : Log Query Ended
  result : Option (Except CreateError Unit)
  vmAfter : Option Config

/-- The first question was answered by a machine that exists. -/
def Attempt.Found (a : Attempt) (r : CreateParams) : Prop :=
  ∃ probe rest, a.log = ((.qm, ["config", r.vmid]), probe) :: rest ∧ probe.failure = none

/-- Attempts, each with what it asked and what that did to the machine. -/
structure Attempted (node : Node) (r : CreateParams) (attempts : List Attempt) : Prop where
  runs : ∀ a ∈ attempts, Begins (create node r) a.log a.result
  effects : ∀ a ∈ attempts, Effects a.vmBefore a.log a.vmAfter

/-- Attempts one after the other, each of which finds the machine as the last has left it. -/
structure History (node : Node) (r : CreateParams) (attempts : List Attempt) : Prop
    extends Attempted node r attempts where
  linked : attempts.IsChain fun a b => a.vmAfter = b.vmBefore

/-- The machine exists with the boot disk, the drive and the boot order of the request. -/
def Complete (r : CreateParams) (vm : Option Config) : Prop :=
  ∃ c, vm = some c ∧ ∃ storage,
    (r.disk ≠ "" → c "--scsi0" = some (storage ++ ":" ++ r.disk)) ∧
    (r.disk = "" → 0 < r.diskGb → c "--scsi0" = some (formatDiskSpec storage r.diskGb)) ∧
    (r.cloudInit = true → c "--ide2" = some (storage ++ ":cloudinit")) ∧
    (r.bootOrder ≠ "" → c "--boot" = some ("order=" ++ r.bootOrder))

end PmxAgents.Hypervisor

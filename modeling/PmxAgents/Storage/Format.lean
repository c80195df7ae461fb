import Mathlib.Data.List.Infix
import PmxAgents.Lib.Checks
import PmxAgents.Lib.Text

/-!
# Formatting a disk

The `disk.format` command of the storage agent. Guards look the device and its
children up in the mount table and in fstab; then the device is wiped and
partitioned, and a file system is made on its first partition. The guards see the
direct children of top-level disks only, and the name of the first partition is
guessed when the second listing does not show one.

## Implementation notes

A run is a function of the files and of the answers of the external programs. It
returns the commands it issues along with its result.
-/

namespace PmxAgents.Storage

open Lib

/-- A node of the listing of block devices. -/
inductive BlockNode where
  | mk (name type : String) (children : List BlockNode)

namespace BlockNode

def name : BlockNode → String
  | mk n _ _ => n

def type : BlockNode → String
  | mk _ t _ => t

def children : BlockNode → List BlockNode
  | mk _ _ cs => cs

def device (n : BlockNode) : String := "/dev/" ++ n.name

mutual

/-- All nodes strictly below a node. -/
def descendants : BlockNode → List BlockNode
  | mk _ _ cs => nodesOf cs

/-- All nodes of a forest. -/
def nodesOf : List BlockNode → List BlockNode
  | [] => []
  | n :: rest => n :: (n.descendants ++ nodesOf rest)

end

end BlockNode

/-- The answer of `lsblk`: no answer, an answer that is not understood, or the forest. -/
inductive LsblkAnswer where
  | failed
  | unparsable
  | devices (nodes : List BlockNode)

def LsblkAnswer.nodes : LsblkAnswer → List BlockNode
  | devices nodes => nodes
  | _ => []

inductive FileRead where
  | ok (text : String)
  | notExist
  | failed

inductive FSType where
  | ext4
  | xfs
  | btrfs
  deriving DecidableEq

structure FormatParams where
  device : String
  fsType : String
  force : Bool
  mountsPath : String
  fstabPath : String

/-- What a run reads from its surroundings. -/
structure Env where
  readFile : String → FileRead
  lsblkBefore : LsblkAnswer
  lsblkAfter : LsblkAnswer
  wipefsOk : Bool
  partedOk : Bool
  mkfsOk : Bool

inductive Command where
  | wipefs (device : String)
  | parted (device : String)
  | mkfs (fs : FSType) (device : String)
  deriving DecidableEq

def Command.device : Command → String
  | wipefs d => d
  | parted d => d
  | mkfs _ d => d

inductive FormatError where
  | notDevPath
  | unsupportedFSType (s : String)
  | mounted (device : String)
  | inFstab (device : String)
  | descendantMounted (device : String)
  | descendantInFstab (device : String)
  | hasChildren (device : String)
  | readMounts
  | readFstab
  | lsblk
  | parseLsblk
  | wipefs
  | parted
  | mkfs (fs : FSType)
  deriving DecidableEq

/-! ## The guards -/

def hasPrefix (s start : String) : Bool := start.toList.isPrefixOf s.toList

def supportedFSType (s : String) : Option FSType :=
  let t := (Text.trim s.toList).map Char.toLower
  if t = "ext4".toList then some .ext4
  else if t = "xfs".toList then some .xfs
  else if t = "btrfs".toList then some .btrfs
  else none

def FormatParams.mounts (p : FormatParams) : String :=
  if p.mountsPath = "" then "/proc/mounts" else p.mountsPath

def FormatParams.fstab (p : FormatParams) : String :=
  if p.fstabPath = "" then "/etc/fstab" else p.fstabPath

/-- The first fields of the lines of a table; lines may be comments. -/
def tableDevices (comments : Bool) (text : String) : List String :=
  (Text.split '\n' text.toList).filterMap fun line =>
    let line := Text.trim line
    if line = [] ∨ comments = true ∧ line.head? = some '#' then none
    else (Text.fields line).head?.map String.ofList

/-- The devices of a table that may be missing. -/
def FileRead.devices (comments : Bool) : FileRead → List String
  | ok text => tableDevices comments text
  | _ => []

/-- The first device of the table that is one of the given ones. -/
def findDevice (comments : Bool) (e : FormatError) (read : FileRead) (devices : List String) :
    Except FormatError (Option String) :=
  match read with
  | .failed => .error e
  | _ => .ok ((read.devices comments).find? (· ∈ devices))

def isAnyMounted (env : Env) (p : FormatParams) (devices : List String) :
    Except FormatError (Option String) :=
  findDevice false .readMounts (env.readFile p.mounts) devices

def listedAnyInFstab (env : Env) (p : FormatParams) (devices : List String) :
    Except FormatError (Option String) :=
  findDevice true .readFstab (env.readFile p.fstab) devices

def refuse (e : String → FormatError) : Option String → Except FormatError Unit
  | none => .ok ()
  | some d => .error (e d)

/-- The names of the children of the top-level disks with the given device. -/
def childNames (nodes : List BlockNode) (device : String) : List String :=
  (nodes.filter fun n => n.type = "disk" ∧ n.device = device).flatMap fun n =>
    n.children.map BlockNode.name

def listChildren (answer : LsblkAnswer) : Except FormatError (String → List String) :=
  match answer with
  | .failed => .error .lsblk
  | .unparsable => .error .parseLsblk
  | .devices nodes => .ok (childNames nodes)

/-- The device of a child, from the name in the listing: one round of the loop over the names. -/
def childDevice (child : String) : Option String :=
  let child := Text.trimSpace child
  if child = "" then none
  else if hasPrefix child "/dev/" then some child
  else some ("/dev/" ++ child)

def relatedDevices (diskDevice : String) (names : List String) : List String :=
  diskDevice :: names.filterMap childDevice

/-- Refuse devices that are mounted, then devices that are in fstab. -/
def refuseListed (env : Env) (p : FormatParams) (mounted inFstab : String → FormatError)
    (devices : List String) : Except FormatError Unit := do
  refuse mounted (← isAnyMounted env p devices)
  refuse inFstab (← listedAnyInFstab env p devices)

/-- Refuse descendants that are listed, and any children without `force`. -/
def refuseChildren (env : Env) (p : FormatParams) (names : List String) :
    Except FormatError Unit := do
  let descendants := (relatedDevices p.device names).tail
  if descendants ≠ [] then
    refuseListed env p .descendantMounted .descendantInFstab descendants
  if names ≠ [] ∧ p.force = false then .error (.hasChildren p.device)

/-- Everything before the first command. -/
def guards (env : Env) (p : FormatParams) : Except FormatError FSType :=
  if !hasPrefix p.device "/dev/" || decide ("..".toList <:+: p.device.toList) then
    .error .notDevPath
  else
    match supportedFSType p.fsType with
    | none => .error (.unsupportedFSType p.fsType)
    | some fs => do
        refuseListed env p .mounted .inFstab [p.device]
        let children ← listChildren env.lsblkBefore
        refuseChildren env p (children p.device)
        return fs

/-! ## The commands -/

/-- The first partition that the listing shows for the first disk of that name. -/
def shownPartition (answer : LsblkAnswer) (diskDevice : String) : Option String := do
  let diskName := diskDevice.toList.drop (if hasPrefix diskDevice "/dev/" then 5 else 0)
  let node ← answer.nodes.find? fun n => n.name.toList = diskName ∧ n.type = "disk"
  let child ← node.children.find? fun c => c.type = "part" ∧ c.name ≠ ""
  return child.device

/-- Devices whose partitions are taken to have the letter p before their number. -/
def numberedDisk (device : String) : Bool :=
  hasPrefix device "/dev/nvme" || hasPrefix device "/dev/mmcblk"

def guessedPartition (device : String) : String :=
  if numberedDisk device then device ++ "p1" else device ++ "1"

def firstPartitionDevice (answer : LsblkAnswer) (diskDevice : String) : String :=
  (shownPartition answer diskDevice).getD (guessedPartition diskDevice)

/-- The commands issued and the result. -/
def format (env : Env) (p : FormatParams) : List Command × Except FormatError Unit :=
  match guards env p with
  | .error e => ([], .error e)
  | .ok fs =>
      if env.wipefsOk = false then ([.wipefs p.device], .error .wipefs)
      else if env.partedOk = false then ([.wipefs p.device, .parted p.device], .error .parted)
      else
        let target := firstPartitionDevice env.lsblkAfter p.device
        ([.wipefs p.device, .parted p.device, .mkfs fs target],
          if env.mkfsOk then .ok () else .error (.mkfs fs))

/-! ## When the guards let a run pass -/

section Guards
variable {env : Env} {p : FormatParams}

/-- The parameters pass the checks that do not depend on the machine. -/
def Accepted (p : FormatParams) : Prop :=
  hasPrefix p.device "/dev/" = true ∧ ¬"..".toList <:+: p.device.toList ∧
    (supportedFSType p.fsType).isSome

/-- The device is the first field of a line of the mount table or of fstab. -/
def Listed (env : Env) (p : FormatParams) (d : String) : Prop :=
  d ∈ (env.readFile p.mounts).devices false ∨ d ∈ (env.readFile p.fstab).devices true

/-- The direct children of the top-level disks with the device of the request. -/
def directChildren (env : Env) (p : FormatParams) : List BlockNode :=
  (env.lsblkBefore.nodes.filter fun n => n.type = "disk" ∧ n.device = p.device).flatMap
    BlockNode.children

/-- The device is that of a direct child of a top-level disk. -/
def DirectChild (env : Env) (p : FormatParams) (d : String) : Prop :=
  ∃ c ∈ directChildren env p, childDevice c.name = some d

instance (env : Env) (p : FormatParams) (d : String) : Decidable (DirectChild env p d) :=
  inferInstanceAs (Decidable (∃ c ∈ _, _))

/-- A table or the listing of devices cannot be read. -/
def Unreadable (env : Env) (p : FormatParams) : Prop :=
  env.readFile p.mounts = .failed ∨ env.readFile p.fstab = .failed ∨
    env.lsblkBefore = .failed ∨ env.lsblkBefore = .unparsable

/-- The reasons for which a run stops before its first command. -/
def Refused (env : Env) (p : FormatParams) : Prop :=
  Unreadable env p ∨ Listed env p p.device ∨ (∃ d, DirectChild env p d ∧ Listed env p d) ∨
    directChildren env p ≠ [] ∧ p.force = false

theorem childNames_eq (env : Env) (p : FormatParams) :
    childNames env.lsblkBefore.nodes p.device = (directChildren env p).map BlockNode.name := by
  rw [childNames, directChildren, List.map_flatMap]

theorem mem_relatedDevices_tail {d : String} :
    d ∈ (relatedDevices p.device (childNames env.lsblkBefore.nodes p.device)).tail ↔
      DirectChild env p d := by
  rw [relatedDevices, List.tail_cons, childNames_eq, List.mem_filterMap]
  simp [DirectChild]

theorem findDevice_refuse_ok {comments : Bool} {e : FormatError} {read : FileRead}
    {devices : List String} {r : String → FormatError} :
    (findDevice comments e read devices >>= refuse r) = .ok () ↔
      read ≠ .failed ∧ ∀ d ∈ devices, d ∉ read.devices comments := by
  cases read with
  | failed => simp [findDevice, bind, Except.bind]
  | notExist => simp [findDevice, bind, Except.bind, FileRead.devices, refuse]
  | ok text =>
      simp only [findDevice, bind, Except.bind, ne_eq, reduceCtorEq, not_false_eq_true, true_and]
      constructor
      · intro h d hd hmem
        cases hfind : (FileRead.devices comments (.ok text)).find? (· ∈ devices) with
        | none =>
            have hnot := List.find?_eq_none.mp hfind d hmem
            simp [hd] at hnot
        | some d' =>
            rw [hfind] at h
            cases h
      · intro h
        have hnone : (FileRead.devices comments (.ok text)).find? (· ∈ devices) = none := by
          rw [List.find?_eq_none]
          intro d hmem
          simpa using fun hd => h d hd hmem
        rw [hnone]
        rfl

theorem refuseListed_ok {r r' : String → FormatError} {devices : List String} :
    refuseListed env p r r' devices = .ok () ↔
      env.readFile p.mounts ≠ .failed ∧ env.readFile p.fstab ≠ .failed ∧
        ∀ d ∈ devices, ¬Listed env p d := by
  have hsplit : refuseListed env p r r' devices = .ok () ↔
      (isAnyMounted env p devices >>= refuse r) = .ok () ∧
        (listedAnyInFstab env p devices >>= refuse r') = .ok () := by
    simp only [refuseListed, Checks.bind_eq_ok]
    constructor
    · rintro ⟨d, hd, u, hu, hrest⟩
      exact ⟨⟨d, hd, hu⟩, hrest⟩
    · rintro ⟨⟨d, hd, hu⟩, hrest⟩
      exact ⟨d, hd, (), hu, hrest⟩
  rw [hsplit, isAnyMounted, listedAnyInFstab, findDevice_refuse_ok, findDevice_refuse_ok]
  unfold Listed
  constructor
  · rintro ⟨⟨hm, hmd⟩, hf, hfd⟩
    exact ⟨hm, hf, fun d hd h => h.elim (hmd d hd) (hfd d hd)⟩
  · rintro ⟨hm, hf, h⟩
    exact ⟨⟨hm, fun d hd hmem => h d hd (Or.inl hmem)⟩, hf, fun d hd hmem => h d hd (Or.inr hmem)⟩

theorem refuseChildren_ok {names : List String} (hm : env.readFile p.mounts ≠ .failed)
    (hf : env.readFile p.fstab ≠ .failed) :
    refuseChildren env p names = .ok () ↔
      (∀ d ∈ (relatedDevices p.device names).tail, ¬Listed env p d) ∧
        ¬(names ≠ [] ∧ p.force = false) := by
  have hlast : (if names ≠ [] ∧ p.force = false then Except.error (.hasChildren p.device)
      else pure () : Except FormatError Unit) = .ok () ↔ ¬(names ≠ [] ∧ p.force = false) := by
    split <;> simp_all [pure, Except.pure]
  unfold refuseChildren
  by_cases hne : (relatedDevices p.device names).tail = []
  · simp only [hne, ne_eq, not_true_eq_false, if_false]
    simpa using hlast
  · rw [if_pos hne, Checks.bind_eq_ok]
    constructor
    · rintro ⟨u, hu, hrest⟩
      exact ⟨(refuseListed_ok.mp hu).2.2, hlast.mp hrest⟩
    · rintro ⟨hnot, hrest⟩
      exact ⟨(), refuseListed_ok.mpr ⟨hm, hf, hnot⟩, hlast.mpr hrest⟩

/-- An accepted run reaches its first command exactly when nothing refuses it. -/
theorem guards_ok_iff (env : Env) (hacc : Accepted p) :
    (∃ fs, guards env p = .ok fs) ↔ ¬Refused env p := by
  obtain ⟨hdev, hdots, hfs⟩ := hacc
  obtain ⟨fs, hfs⟩ := Option.isSome_iff_exists.mp hfs
  have hguards : guards env p = do
      refuseListed env p .mounted .inFstab [p.device]
      let children ← listChildren env.lsblkBefore
      refuseChildren env p (children p.device)
      return fs := by
    rw [guards, hdev, decide_eq_false hdots, if_neg (by decide), hfs]
  rw [hguards]
  simp only [Checks.bind_eq_ok]
  constructor
  · rintro ⟨fs', u, hdirect, children, hlist, u', hchildren, -⟩
    obtain ⟨hm, hf, hnot⟩ := refuseListed_ok.mp hdirect
    obtain ⟨hdesc, hforce⟩ := (refuseChildren_ok hm hf).mp hchildren
    unfold listChildren at hlist
    split at hlist
    · cases hlist
    · cases hlist
    · rename_i nodes hnodes
      cases hlist
      rintro ((h | h | h | h) | h | ⟨d, hd, h⟩ | h)
      · exact hm h
      · exact hf h
      · rw [hnodes] at h
        cases h
      · rw [hnodes] at h
        cases h
      · exact hnot p.device List.mem_cons_self h
      · rw [← mem_relatedDevices_tail, hnodes] at hd
        exact hdesc d hd h
      · refine hforce ⟨fun hnil => h.1 ?_, h.2⟩
        have hnames := childNames_eq env p
        rw [hnodes] at hnames
        exact List.map_eq_nil_iff.mp (hnames.symm.trans hnil)
  · intro hpass
    have hm : env.readFile p.mounts ≠ .failed := fun h => hpass (Or.inl (Or.inl h))
    have hf : env.readFile p.fstab ≠ .failed := fun h => hpass (Or.inl (Or.inr (Or.inl h)))
    have hself : ¬Listed env p p.device := fun h => hpass (Or.inr (Or.inl h))
    have hlist : listChildren env.lsblkBefore = .ok (childNames env.lsblkBefore.nodes) := by
      cases hbefore : env.lsblkBefore with
      | failed => exact absurd (Or.inl (Or.inr (Or.inr (Or.inl hbefore)))) hpass
      | unparsable => exact absurd (Or.inl (Or.inr (Or.inr (Or.inr hbefore)))) hpass
      | devices nodes => rfl
    refine ⟨fs, (), refuseListed_ok.mpr ⟨hm, hf, by simpa using hself⟩, _, hlist, (), ?_, rfl⟩
    refine (refuseChildren_ok hm hf).mpr ⟨fun d hd h => ?_, fun h => ?_⟩
    · exact hpass (Or.inr (Or.inr (Or.inl ⟨d, mem_relatedDevices_tail.mp hd, h⟩)))
    · rw [childNames_eq] at h
      exact hpass (Or.inr (Or.inr (Or.inr ⟨fun hnil => h.1 (by simp [hnil]), h.2⟩)))

/-- The commands of an accepted run: none when it is refused, else all on the device but the
last one. -/
theorem format_commands (env : Env) (hacc : Accepted p) :
    (Refused env p ∧ (format env p).1 = []) ∨
      (¬Refused env p ∧ (env.wipefsOk = false ∨ env.partedOk = false) ∧ (format env p).1 ≠ [] ∧
        ∀ c ∈ (format env p).1, c.device = p.device) ∨
      (¬Refused env p ∧ env.wipefsOk = true ∧ env.partedOk = true ∧
        ∃ fs, (format env p).1 = [.wipefs p.device, .parted p.device,
          .mkfs fs (firstPartitionDevice env.lsblkAfter p.device)]) := by
  have hpass := guards_ok_iff env hacc
  unfold format
  cases hguards : guards env p with
  | error e =>
      rw [hguards] at hpass
      exact Or.inl ⟨not_not.mp (fun h => nomatch hpass.mpr h), rfl⟩
  | ok fs =>
      rw [hguards] at hpass
      have hnot := hpass.mp ⟨fs, rfl⟩
      right
      cases hw : env.wipefsOk with
      | false => exact Or.inl ⟨hnot, Or.inl rfl, by simp [Command.device]⟩
      | true =>
          cases hp : env.partedOk with
          | false => exact Or.inl ⟨hnot, Or.inr rfl, by simp [Command.device]⟩
          | true => exact Or.inr ⟨hnot, rfl, rfl, fs, by simp⟩

theorem format_ne_nil (hacc : Accepted p) : (format env p).1 ≠ [] ↔ ¬Refused env p := by
  rcases format_commands env hacc with ⟨hr, hnil⟩ | ⟨hr, -, hne, -⟩ | ⟨hr, -, -, fs, heq⟩
  · simp [hr, hnil]
  · simp [hr, hne]
  · simp [hr, heq]

end Guards

/-! ## Devices in use -/

/-- The nodes below the nodes of the given device, at any depth. -/
def LsblkAnswer.nodesBelow (answer : LsblkAnswer) (device : String) : List BlockNode :=
  ((BlockNode.nodesOf answer.nodes).filter fun n => n.device = device).flatMap
    BlockNode.descendants

/-- A run touches the disk only when nothing on it is in use, exactly if every listed node below
the device is a direct child of a top-level disk, or the run stops for another reason. -/
theorem format_spares_listed_iff (env : Env) {p : FormatParams} (hacc : Accepted p) :
    ((format env p).1 ≠ [] → ¬Listed env p p.device ∧
        ∀ n ∈ env.lsblkBefore.nodesBelow p.device, ¬Listed env p n.device) ↔
      ((∀ n ∈ env.lsblkBefore.nodesBelow p.device,
          Listed env p n.device → DirectChild env p n.device) ∨ Refused env p) := by
  rw [format_ne_nil hacc]
  constructor
  · intro h
    by_cases hr : Refused env p
    · exact Or.inr hr
    · exact Or.inl fun n hn hlisted => absurd hlisted ((h hr).2 n hn)
  · rintro (hdirect | hr) hnot
    · refine ⟨fun h => hnot (Or.inr (Or.inl h)), fun n hn hlisted => ?_⟩
      -- a listed direct child refuses the run
      exact hnot (Or.inr (Or.inr (Or.inl ⟨_, hdirect n hn hlisted, hlisted⟩)))
    · exact absurd hr hnot

def forcedExt4 (device : String) : FormatParams :=
  { device, fsType := "ext4", force := true, mountsPath := "", fstabPath := "" }

/-- A machine with the given mount table, no fstab and the same listing twice. -/
def machine (mounts : String) (nodes : List BlockNode) : Env :=
  { readFile := fun path => if path = "/proc/mounts" then .ok mounts else .notExist
    lsblkBefore := .devices nodes
    lsblkAfter := .devices nodes
    wipefsOk := true
    partedOk := true
    mkfsOk := true }

theorem accepted_forcedExt4 {device : String} (hdev : hasPrefix device "/dev/" = true)
    (hdots : ¬"..".toList <:+: device.toList) : Accepted (forcedExt4 device) :=
  ⟨hdev, hdots, show (supportedFSType "ext4").isSome = true by decide⟩

instance (env : Env) (p : FormatParams) (d : String) : Decidable (Listed env p d) :=
  inferInstanceAs (Decidable (_ ∨ _))

/-- A disk with a free array on its partition, beside one that is mounted. -/
theorem format_spares_listed_free :
    let env := machine "/dev/sdb1 / ext4 rw 0 0\n"
      [.mk "sda" "disk" [.mk "sda1" "part" [.mk "md0" "raid1" []]],
        .mk "sdb" "disk" [.mk "sdb1" "part" []]]
    (format env (forcedExt4 "/dev/sda")).1 ≠ [] ∧ ¬Listed env (forcedExt4 "/dev/sda") "/dev/sda" ∧
      ∀ n ∈ env.lsblkBefore.nodesBelow "/dev/sda",
        ¬Listed env (forcedExt4 "/dev/sda") n.device := by
  refine ⟨by decide, (format_spares_listed_iff _ (accepted_forcedExt4 ?_ ?_)).mpr (Or.inl ?_) ?_⟩
  all_goals decide

/-- An array on a partition is mounted: the disk is formatted all the same. -/
theorem format_touches_mounted :
    let env := machine "/dev/md0 / ext4 rw 0 0\n"
      [.mk "sda" "disk" [.mk "sda1" "part" [.mk "md0" "raid1" []]]]
    (∃ n ∈ env.lsblkBefore.nodesBelow "/dev/sda", Listed env (forcedExt4 "/dev/sda") n.device) ∧
      (format env (forcedExt4 "/dev/sda")).1 =
        [.wipefs "/dev/sda", .parted "/dev/sda", .mkfs .ext4 "/dev/sda1"] := by
  decide

/-! ## The device of the file system -/

section Target
variable {env : Env} {p : FormatParams}

/-- The listing shows the device as a partition of the disk. -/
def PartitionOf (answer : LsblkAnswer) (disk d : String) : Prop :=
  ∃ n ∈ BlockNode.nodesOf answer.nodes, n.device = disk ∧
    ∃ c ∈ n.children, c.type = "part" ∧ c.device = d

/-- One of the listings shows the device as a whole disk. -/
def WholeDisk (env : Env) (d : String) : Prop :=
  ∃ n ∈ BlockNode.nodesOf env.lsblkBefore.nodes ++ BlockNode.nodesOf env.lsblkAfter.nodes,
    n.device = d ∧ n.type = "disk"

def lastIs (f : Char → Bool) (s : String) : Bool := s.toList.getLast?.any f

/-- The kernel's name of the first partition of a whole disk. -/
def KernelName (env : Env) (disk d : String) : Prop :=
  WholeDisk env disk ∧
    (lastIs Char.isAlpha disk = true ∧ d = disk ++ "1" ∨
      lastIs Char.isDigit disk = true ∧ d = disk ++ "p1")

/-- The guess follows the kernel's rule for the last character of the name. -/
def GuessFits (device : String) : Prop :=
  if numberedDisk device then lastIs Char.isDigit device = true
  else lastIs Char.isAlpha device = true

instance (answer : LsblkAnswer) (disk d : String) : Decidable (PartitionOf answer disk d) :=
  inferInstanceAs (Decidable (∃ n ∈ _, _ ∧ ∃ c ∈ _, _))

instance (env : Env) (d : String) : Decidable (WholeDisk env d) :=
  inferInstanceAs (Decidable (∃ n ∈ _, _))

instance (env : Env) (disk d : String) : Decidable (KernelName env disk d) :=
  inferInstanceAs (Decidable (_ ∧ (_ ∨ _)))

theorem mem_nodesOf {n : BlockNode} {nodes : List BlockNode} (h : n ∈ nodes) :
    n ∈ BlockNode.nodesOf nodes := by
  induction nodes with
  | nil => cases h
  | cons m rest ih =>
      rw [BlockNode.nodesOf]
      rcases List.mem_cons.mp h with rfl | h
      · exact List.mem_cons_self
      · exact List.mem_cons_of_mem _ (List.mem_append_right _ (ih h))

theorem shownPartition_partitionOf {answer : LsblkAnswer} {device d : String}
    (hdev : hasPrefix device "/dev/" = true) (h : shownPartition answer device = some d) :
    PartitionOf answer device d := by
  simp only [shownPartition, hdev, if_true, bind, Option.bind_eq_some_iff] at h
  obtain ⟨n, hn, c, hc, hd⟩ := h
  cases hd
  have hname := List.find?_some hn
  have htype := List.find?_some hc
  simp only [decide_eq_true_eq] at hname htype
  refine ⟨n, mem_nodesOf (List.mem_of_find?_eq_some hn), ?_, c, List.mem_of_find?_eq_some hc,
    htype.1, rfl⟩
  obtain ⟨rest, hrest⟩ := List.isPrefixOf_iff_prefix.mp hdev
  rw [← String.toList_inj, BlockNode.device, String.toList_append, hname.1, ← hrest]
  rfl

theorem guessedPartition_ne (device : String) : guessedPartition device ≠ device := by
  intro h
  have hlen := congrArg (fun s : String => s.toList.length) h
  unfold guessedPartition at hlen
  split at hlen <;> simp [String.toList_append] at hlen

theorem append_one_ne_append_p1 (device : String) : device ++ "1" ≠ device ++ "p1" := by
  intro h
  have hlen := congrArg (fun s : String => s.toList.length) h
  simp [String.toList_append] at hlen

theorem kernelName_guessed_iff {device : String} :
    KernelName env device (guessedPartition device) ↔ WholeDisk env device ∧ GuessFits device := by
  have hne := append_one_ne_append_p1 device
  unfold KernelName GuessFits guessedPartition
  cases numberedDisk device with
  | false => simp [hne]
  | true => simp [hne.symm]

/-- The commands name the device and its partitions only, exactly if the last command is not
reached, a partition is shown after partitioning, or the guess is right. -/
theorem format_targets_iff (env : Env) {p : FormatParams} (hacc : Accepted p) :
    (∀ c ∈ (format env p).1, c.device = p.device ∨ PartitionOf env.lsblkAfter p.device c.device ∨
        KernelName env p.device c.device) ↔
      (Refused env p ∨ env.wipefsOk = false ∨ env.partedOk = false ∨
        (shownPartition env.lsblkAfter p.device).isSome ∨
        PartitionOf env.lsblkAfter p.device (guessedPartition p.device) ∨
        WholeDisk env p.device ∧ GuessFits p.device) := by
  rcases format_commands env hacc with
    ⟨hr, hnil⟩ | ⟨-, hearly, -, hall⟩ | ⟨hr, hw, hp, fs, heq⟩
  · simp [hr, hnil]
  · refine ⟨fun _ => Or.inr (hearly.imp_right Or.inl), fun _ c hc => Or.inl (hall c hc)⟩
  · simp only [heq, hr, hw, hp, List.mem_cons, List.not_mem_nil, or_false, forall_eq_or_imp,
      forall_eq, Command.device, true_or, true_and, Bool.true_eq_false, false_or,
      ← kernelName_guessed_iff]
    cases hshown : shownPartition env.lsblkAfter p.device with
    | none =>
        simp only [firstPartitionDevice, hshown, Option.getD_none, guessedPartition_ne, false_or,
          Option.isSome_none, Bool.false_eq_true]
    | some d =>
        simp only [firstPartitionDevice, hshown, Option.getD_some, Option.isSome_some, true_or,
          iff_true]
        exact Or.inr (Or.inl (shownPartition_partitionOf hacc.1 hshown))

/-- A whole disk whose partition is shown. -/
theorem format_targets_shown :
    let env := machine "" [.mk "sda" "disk" [.mk "sda1" "part" []]]
    ∀ c ∈ (format env (forcedExt4 "/dev/sda")).1, c.device = "/dev/sda" ∨
      PartitionOf env.lsblkAfter "/dev/sda" c.device ∨ KernelName env "/dev/sda" c.device :=
  (format_targets_iff _ (accepted_forcedExt4 (by decide) (by decide))).mpr
    (Or.inr (Or.inr (Or.inr (Or.inl (by decide)))))

/-- Formatting the partition `sda1` makes the file system on `sda11`. -/
theorem format_targets_other :
    let env := machine "" [.mk "sda" "disk" [.mk "sda1" "part" [], .mk "sda11" "part" []]]
    Command.mkfs .ext4 "/dev/sda11" ∈ (format env (forcedExt4 "/dev/sda1")).1 ∧
      "/dev/sda11" ≠ "/dev/sda1" ∧ ¬PartitionOf env.lsblkAfter "/dev/sda1" "/dev/sda11" ∧
      ¬KernelName env "/dev/sda1" "/dev/sda11" := by
  decide

end Target

end PmxAgents.Storage

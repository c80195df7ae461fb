import Mathlib.Data.List.Infix
import PmxAgents.Hypervisor.StorageChoice
import PmxAgents.Lib.Checks
import PmxAgents.Lib.IpText
import PmxAgents.Lib.OptionText

/-!
# Property strings of containers

`ct.create` and `ct.mount.add` hand options to `pct` that are lists themselves: the tool splits
them at commas, and each part at its first equals sign. Tokens, volumes and addresses have no
comma. A mount point is checked as a path only, and one with a comma in it adds options of its
own.

## Implementation notes

The names of storages come from the tools of the host. A mount point is compared as it is read:
with the blanks around it removed.
-/

namespace PmxAgents.Hypervisor

open Lib Lib.Text Lib.Dialogue

/-! ## Parameters -/

inductive CtRequestError where
  | param (e : ParamError)
  | notAbsolutePath (key value : String)
  | badHostname
  | badStorage
  | badNetworkBridge
  | badNetworkIP
  | create
  | mountAdd
  deriving DecidableEq, Repr

def isSafeVolume (value : String) : Bool :=
  value ≠ "" && value.toList.all fun c =>
    c == '.' || c == '_' || c == '-' || c == '/' || c == ':' || c.isAlphanum

def requiredSafeVolume (params : Params) (key : String) : Except ParamError String :=
  let value := stringParam params key ""
  if value = "" then .error (.required key)
  else if isSafeVolume value = false then .error (.badCharacters key value)
  else .ok value

def validateAbsolutePath (value key : String) : Except CtRequestError String :=
  if value.toList.head? ≠ some '/' ∨ ['.', '.'] <:+: value.toList ∨ '\n' ∈ value.toList ∨
      '\r' ∈ value.toList ∨ '\x00' ∈ value.toList then
    .error (.notAbsolutePath key value)
  else .ok value

def requiredAbsolutePath (params : Params) (key : String) : Except CtRequestError String :=
  let value := stringParam params key ""
  if value = "" then .error (.param (.required key)) else validateAbsolutePath value key

def isSafeContainerIP (value : String) : Bool :=
  value = "dhcp" ||
    (trimSpace value = value && match IpText.parseCIDR value.toList with
      | none => false
      | some (address, _) => address.to4.isSome)

/-! ## Mount points -/

structure MountParams where
  ctid : String
  volume : String
  mountpoint : String
  slot : ℤ
  deriving DecidableEq, Repr

def readMountParams (params : Params) : Except CtRequestError MountParams := do
  let ctid ← (requiredVMID params "ctid").mapError .param
  let volume ← (requiredSafeVolume params "volume").mapError .param
  let mountpoint ← requiredAbsolutePath params "mountpoint"
  return { ctid, volume, mountpoint, slot := intParam params "slot" 0 }

def MountParams.property (m : MountParams) : String := m.volume ++ ",mp=" ++ m.mountpoint

def MountParams.args (m : MountParams) : List String :=
  ["set", m.ctid, "--mp" ++ toString m.slot, m.property]

def mountAdd (params : Params) : Talk Query Ended (Except CtRequestError Unit) :=
  match readMountParams params with
  | .error e => .ret (.error e)
  | .ok m =>
      .ask (.pct, m.args) fun ended =>
        if (execReply ended).err then .ret (.error .mountAdd) else .ret (.ok ())

/-! ## Creation -/

structure CtParams where
  ctid : String
  ostemplate : String
  hostname : String
  memory : ℤ
  cores : ℤ
  storage : String
  disk : ℤ
  networkBridge : String
  networkIP : String
  unprivileged : Bool

def readCtParams (params : Params) : Except CtRequestError CtParams := do
  let ctid ← (requiredVMID params "ctid").mapError .param
  let ostemplate ← (requiredSafeVolume params "ostemplate").mapError .param
  let hostname := stringParam params "hostname" ""
  if hostname ≠ "" ∧ isSafeToken hostname = false then throw .badHostname
  let storage := stringParam params "storage" "local-lvm"
  if isSafeToken storage = false then throw .badStorage
  let networkBridge := stringParam params "network_bridge" "vmbr0"
  if isSafeToken networkBridge = false then throw .badNetworkBridge
  let networkIP := stringParam params "network_ip" "dhcp"
  if isSafeContainerIP networkIP = false then throw .badNetworkIP
  return { ctid, ostemplate, hostname, storage, networkBridge, networkIP
           memory := intParam params "memory" 512
           cores := intParam params "cores" 0
           disk := intParam params "disk_gb" 8
           unprivileged :=
             if (params.lookup "unprivileged").isSome then boolParam params "unprivileged"
             else true }

def CtParams.net0 (r : CtParams) : String :=
  "name=eth0,bridge=" ++ r.networkBridge ++ ",ip=" ++ r.networkIP

def CtParams.createArgs (r : CtParams) (storage : String) : List String :=
  ["create", r.ctid, r.ostemplate,
    "--memory", toString r.memory,
    "--rootfs", formatDiskSpec storage r.disk,
    "--net0", r.net0,
    "--unprivileged", if r.unprivileged then "1" else "0"] ++
  flagPair (0 < r.cores) "--cores" (toString r.cores) ++
  flagPair (r.hostname ≠ "") "--hostname" r.hostname

def createCt (node : Node) (params : Params) : Talk Query Ended (Except CtRequestError Unit) :=
  match readCtParams params with
  | .error e => .ret (.error e)
  | .ok r =>
      .ask (.pct, ["config", r.ctid]) fun probe =>
        if found (execReply probe) then .ret (.ok ())
        else
          (resolveStorage node r.storage "rootdir").bind fun storage =>
            .ask (.pct, r.createArgs storage) fun ended =>
              if (execReply ended).err then .ret (.error .create) else .ret (.ok ())

/-! ## What the tool reads -/

/-- The keys and values that `pct` finds in a property string. -/
def properties (text : String) : List OptionText.Entry := OptionText.entries ',' '=' text.toList

/-- A storage and a size, around the first colon. -/
def allocation (value : List Char) : OptionText.Entry := OptionText.entry ':' value

def entryOf (key value : String) : OptionText.Entry := (some key.toList, value.toList)

inductive CtRequest where
  | mountAdd (params : Params)
  | create (params : Params)

def CtRequest.Accepted : CtRequest → Prop
  | .mountAdd params => ∃ m, readMountParams params = .ok m
  | .create params => ∃ r, readCtParams params = .ok r

/-- The call has a volume and its mount point, as requested, and nothing else. -/
def MountExact (params : Params) (args : List String) : Prop :=
  ∃ ctid slot text, args = ["set", ctid, slot, text] ∧
    properties text =
      [(none, (stringParam params "volume" "").toList),
        entryOf "mp" (stringParam params "mountpoint" "")]

/-- The root file system is a storage and the requested size, the network a name, the requested
bridge and the requested address. -/
def CreateExact (params : Params) (storage : String) (args : List String) : Prop :=
  ∃ ctid ostemplate options rootfs net0 value,
    args = "create" :: ctid :: ostemplate :: options ∧
    (optionPairs options).lookup "--rootfs" = some rootfs ∧
    (optionPairs options).lookup "--net0" = some net0 ∧
    properties rootfs = [(none, value)] ∧
    allocation value = entryOf storage (toString (intParam params "disk_gb" 8)) ∧
    properties net0 =
      [entryOf "name" "eth0", entryOf "bridge" (stringParam params "network_bridge" "vmbr0"),
        entryOf "ip" (stringParam params "network_ip" "dhcp")]

/-- In every run, the calls that set a mount point or create a container have exactly the properties
of the request. The storage is the one that was found for the requested one in the same run. -/
def CtRequest.Exact (node : Node) : CtRequest → Prop
  | .mountAdd params => ∀ log result, Begins (Hypervisor.mountAdd params) log result →
      ∀ args ended, ((.pct, args), ended) ∈ log → MountExact params args
  | .create params => ∀ log result, Begins (createCt node params) log result →
      ∀ args ended, ((.pct, "create" :: args), ended) ∈ log →
        ∃ search storage, search <:+: log ∧
          Begins (resolveStorage node (stringParam params "storage" "local-lvm") "rootdir") search
            (some storage) ∧
          CreateExact params storage ("create" :: args)

/-- A mount point has no comma. -/
def CtRequest.Plain : CtRequest → Prop
  | .mountAdd params => ',' ∉ (stringParam params "mountpoint" "").toList
  | .create _ => True

/-- A name without the signs of property strings. -/
def PlainName (name : String) : Prop :=
  ',' ∉ name.toList ∧ '=' ∉ name.toList ∧ ':' ∉ name.toList

/-- The host names its storages by identifiers. -/
def NamesStorages (node : Node) : Prop :=
  ∀ stdout storages, node.readStorages stdout = some storages →
    ∀ s ∈ storages, PlainName s.storage

/-! ## Accepted texts -/

section Texts
variable {c : Char} {value : String} {params : Params} {key : String}

theorem notMem_of_all {p : Char → Bool} {s : List Char} (h : s.all p = true) (hc : p c = false) :
    c ∉ s := by
  intro hmem
  rw [List.all_eq_true.mp h c hmem] at hc
  cases hc

theorem notMem_of_isSafeToken (h : isSafeToken value = true)
    (hc : (c == '.' || c == '_' || c == '-' || c == '/' || c.isAlphanum) = false) :
    c ∉ value.toList :=
  notMem_of_all (Bool.and_eq_true_iff.mp h).2 hc

theorem notMem_of_isSafeVolume (h : isSafeVolume value = true)
    (hc : (c == '.' || c == '_' || c == '-' || c == '/' || c == ':' || c.isAlphanum) = false) :
    c ∉ value.toList :=
  notMem_of_all (Bool.and_eq_true_iff.mp h).2 hc

theorem requiredSafeVolume_eq_ok {volume : String}
    (h : requiredSafeVolume params key = .ok volume) :
    volume = stringParam params key "" ∧ isSafeVolume volume = true := by
  rw [requiredSafeVolume] at h
  split_ifs at h with hempty hsafe
  obtain rfl := Except.ok.inj h
  exact ⟨rfl, Bool.not_eq_false _ ▸ hsafe⟩

theorem requiredAbsolutePath_eq_ok {path : String}
    (h : requiredAbsolutePath params key = .ok path) :
    path = stringParam params key "" := by
  rw [requiredAbsolutePath, validateAbsolutePath] at h
  split_ifs at h
  exact (Except.ok.inj h).symm

/-- An accepted address has no comma. -/
theorem notMem_of_isSafeContainerIP (h : isSafeContainerIP value = true) : ',' ∉ value.toList := by
  rcases (Bool.or_eq_true _ _).mp h with hdhcp | hcidr
  · rw [of_decide_eq_true hdhcp]
    decide
  · have hparse := (Bool.and_eq_true_iff.mp hcidr).2
    cases haddr : IpText.parseCIDR value.toList with
    | none =>
        rw [haddr] at hparse
        cases hparse
    | some address =>
        intro hmem
        have hchar := IpText.parseCIDR_chars (a := address.1) haddr ',' hmem
        revert hchar
        decide

theorem notMem_toString (n : ℤ) (hdigit : c.isDigit = false) (hdash : c ≠ '-') :
    c ∉ (toString n).toList := by
  have hnat : ∀ m : ℕ, c ∉ (toString m).toList := by
    intro m hmem
    have hlist : (toString m).toList = Nat.toDigits 10 m := Nat.toList_repr
    rw [hlist] at hmem
    rw [Nat.isDigit_of_mem_toDigits (by decide) le_rfl hmem] at hdigit
    cases hdigit
  cases n with
  | ofNat m => exact hnat m
  | negSucc m =>
      have hlist : (toString (Int.negSucc m)).toList = '-' :: (toString (m + 1)).toList := by
        rw [show toString (Int.negSucc m) = "-" ++ toString (m + 1) from rfl, String.toList_append]
        rfl
      rw [hlist]
      exact fun hmem => (List.mem_cons.mp hmem).elim hdash (hnat (m + 1))

end Texts

/-! ## Calls -/

/-- After the last call a run is over. -/
theorem begins_ite_ret {α : Type} {c : Prop} [Decidable c] {a b : α} {log : Log Query Ended}
    {result : Option α} (h : Begins (if c then .ret a else .ret b) log result) : log = [] := by
  split_ifs at h <;> cases h <;> rfl

section Mount
variable {params : Params} {m : MountParams}

theorem toList_property (m : MountParams) :
    m.property.toList = OptionText.printAll ',' '='
      [(none, m.volume.toList), entryOf "mp" m.mountpoint] := by
  simp [MountParams.property, OptionText.printAll, OptionText.print, entryOf, String.toList_append]

theorem readMountParams_eq_ok (h : readMountParams params = .ok m) :
    m.volume = stringParam params "volume" "" ∧ isSafeVolume m.volume = true ∧
      m.mountpoint = stringParam params "mountpoint" "" := by
  simp only [readMountParams, Checks.bind_eq_ok, Checks.mapError_eq_ok] at h
  obtain ⟨ctid, -, volume, hvolume, mountpoint, hmountpoint, hm⟩ := h
  obtain rfl := Except.ok.inj hm
  obtain ⟨hread, hsafe⟩ := requiredSafeVolume_eq_ok hvolume
  exact ⟨hread, hsafe, requiredAbsolutePath_eq_ok hmountpoint⟩

/-- The tool finds the volume and the mount point exactly if the mount point has no comma. -/
theorem properties_mount_iff (hvolume : isSafeVolume m.volume = true) :
    properties m.property = [(none, m.volume.toList), entryOf "mp" m.mountpoint] ↔
      ',' ∉ m.mountpoint.toList := by
  have hequals : '=' ∉ m.volume.toList := notMem_of_isSafeVolume hvolume (by decide)
  have hcomma : ',' ∉ m.volume.toList := notMem_of_isSafeVolume hvolume (by decide)
  have hkeyed : ∀ e ∈ [(none, m.volume.toList), entryOf "mp" m.mountpoint],
      OptionText.Keyed '=' e := by
    refine List.forall_mem_cons.mpr ⟨hequals, List.forall_mem_cons.mpr ⟨?_, by simp⟩⟩
    exact show '=' ∉ "mp".toList by decide
  rw [properties, toList_property, OptionText.entries_printAll_iff (List.cons_ne_nil _ _) hkeyed]
  simp [OptionText.print, entryOf, hcomma]

theorem begins_mountAdd {log : Log Query Ended} {result : Option (Except CtRequestError Unit)}
    (hread : readMountParams params = .ok m) (h : Begins (mountAdd params) log result)
    {args : List String} {ended : Ended} (hmem : ((.pct, args), ended) ∈ log) : args = m.args := by
  rw [mountAdd, hread] at h
  cases h with
  | cut => cases hmem
  | ask reply tail =>
      rw [begins_ite_ret tail, List.mem_singleton] at hmem
      exact congrArg (fun e => e.1.2) hmem

theorem mountAdd_exact_iff (node : Node) (hread : readMountParams params = .ok m) :
    (CtRequest.mountAdd params).Exact node ↔ (CtRequest.mountAdd params).Plain := by
  obtain ⟨hvolume, hsafe, hmountpoint⟩ := readMountParams_eq_ok hread
  rw [CtRequest.Exact, CtRequest.Plain, ← hmountpoint, ← properties_mount_iff hsafe]
  constructor
  · intro h
    have hrun : Begins (mountAdd params) [((.pct, m.args), ⟨"", "", none, false⟩)] none := by
      rw [mountAdd, hread]
      exact .ask _ (.cut _)
    obtain ⟨ctid, slot, text, hargs, hproperties⟩ := h _ _ hrun _ _ List.mem_cons_self
    obtain rfl : m.property = text := by
      simpa [MountParams.args] using congrArg (fun l => l.getLast?) hargs
    rw [hvolume, hmountpoint]
    exact hproperties
  · intro h log result hrun args ended hmem
    rw [begins_mountAdd hread hrun hmem]
    refine ⟨m.ctid, "--mp" ++ toString m.slot, m.property, rfl, ?_⟩
    rw [← hvolume, ← hmountpoint]
    exact h

end Mount

section Create
variable {node : Node} {params : Params} {r : CtParams}

theorem readCtParams_eq_ok (h : readCtParams params = .ok r) :
    r.storage = stringParam params "storage" "local-lvm" ∧ isSafeToken r.storage = true ∧
      r.networkBridge = stringParam params "network_bridge" "vmbr0" ∧
      isSafeToken r.networkBridge = true ∧
      r.networkIP = stringParam params "network_ip" "dhcp" ∧
      isSafeContainerIP r.networkIP = true ∧ r.disk = intParam params "disk_gb" 8 := by
  simp only [readCtParams, Checks.bind_eq_ok, Checks.mapError_eq_ok, Checks.ite_throw_bind_eq_ok,
    Bool.not_eq_false] at h
  obtain ⟨ctid, -, ostemplate, -, -, hstorage, hbridge, hip, hr⟩ := h
  obtain rfl := Except.ok.inj hr
  exact ⟨rfl, hstorage, rfl, hbridge, rfl, hip, rfl⟩

theorem toList_net0 (r : CtParams) :
    r.net0.toList = OptionText.printAll ',' '='
      [entryOf "name" "eth0", entryOf "bridge" r.networkBridge, entryOf "ip" r.networkIP] := by
  have hlead : "name=eth0,bridge=".toList =
      "name".toList ++ '=' :: ("eth0".toList ++ ',' :: ("bridge".toList ++ ['='])) := rfl
  have hip : ",ip=".toList = ',' :: ("ip".toList ++ ['=']) := rfl
  -- over any four texts, so that the literal ones are not evaluated
  have hpieces : ∀ a b c d : String,
      (a ++ b ++ c ++ d).toList = a.toList ++ b.toList ++ c.toList ++ d.toList := by
    intro a b c d
    simp only [String.toList_append]
  have htext : r.net0.toList = "name=eth0,bridge=".toList ++ r.networkBridge.toList ++
      ",ip=".toList ++ r.networkIP.toList := hpieces _ _ _ _
  rw [htext, hlead, hip]
  simp only [OptionText.printAll, OptionText.print, entryOf, List.map_cons,
    List.map_nil, List.intercalate_cons_cons, List.intercalate_singleton, List.append_assoc,
    List.cons_append, List.nil_append]

theorem properties_net0 (hbridge : isSafeToken r.networkBridge = true)
    (hip : isSafeContainerIP r.networkIP = true) :
    properties r.net0 =
      [entryOf "name" "eth0", entryOf "bridge" r.networkBridge, entryOf "ip" r.networkIP] := by
  have hcomma : ',' ∉ r.networkBridge.toList := notMem_of_isSafeToken hbridge (by decide)
  have hcomma' : ',' ∉ r.networkIP.toList := notMem_of_isSafeContainerIP hip
  rw [properties, toList_net0, OptionText.entries_printAll_iff (List.cons_ne_nil _ _)]
  · simp [OptionText.print, entryOf, hcomma, hcomma']
  · refine List.forall_mem_cons.mpr ⟨?_, List.forall_mem_cons.mpr
      ⟨?_, List.forall_mem_cons.mpr ⟨?_, by simp⟩⟩⟩
    · exact show '=' ∉ "name".toList by decide
    · exact show '=' ∉ "bridge".toList by decide
    · exact show '=' ∉ "ip".toList by decide

/-- A storage and a size are one value, which the tool cuts at the colon. -/
theorem properties_rootfs {storage : String} (size : ℤ)
    (h : PlainName storage) :
    properties (formatDiskSpec storage size) = [(none, (formatDiskSpec storage size).toList)] ∧
      allocation (formatDiskSpec storage size).toList = entryOf storage (toString size) := by
  obtain ⟨hcomma, hequals, hcolon⟩ := h
  have hlist : (formatDiskSpec storage size).toList =
      OptionText.print ':' (entryOf storage (toString size)) := by
    simp [formatDiskSpec, OptionText.print, entryOf, String.toList_append]
  have hnot : ∀ c : Char, c.isDigit = false → c ≠ '-' → c ≠ ':' → c ∉ storage.toList →
      c ∉ (formatDiskSpec storage size).toList := by
    intro c hdigit hdash hne hstorage
    rw [hlist, entryOf, OptionText.print, List.mem_append, List.mem_cons]
    exact not_or.mpr ⟨hstorage, not_or.mpr ⟨hne, notMem_toString size hdigit hdash⟩⟩
  refine ⟨?_, ?_⟩
  · rw [properties, OptionText.entries,
      split_of_not_mem (hnot ',' (by decide) (by decide) (by decide) hcomma), List.map_singleton,
      OptionText.entry, if_neg (hnot '=' (by decide) (by decide) (by decide) hequals)]
  · rw [allocation, hlist]
    exact OptionText.entry_print hcolon

/-- The resolution asks for the list of storages only. -/
theorem begins_resolveStorage {requested contentType : String} {log : Log Query Ended}
    {result : Option String} (h : Begins (resolveStorage node requested contentType) log result)
    {args : List String} {ended : Ended} : ((.pct, args), ended) ∉ log := by
  rw [resolveStorage] at h
  split_ifs at h
  · cases h <;> exact List.not_mem_nil
  · cases h with
    | cut => exact List.not_mem_nil
    | ask reply tail => cases tail <;> simp

theorem plainName_of_resolveStorage {requested contentType storage : String}
    {log : Log Query Ended} (hnames : NamesStorages node) (hrequested : PlainName requested)
    (h : Begins (resolveStorage node requested contentType) log (some storage)) :
    PlainName storage := by
  rw [resolveStorage] at h
  split_ifs at h
  · cases h
    exact hrequested
  · cases h with
    | ask reply tail =>
        cases tail
        rw [pickStorage]
        split_ifs
        · exact hrequested
        · cases hread : node.readStorages reply.stdout with
          | none => exact hrequested
          | some storages =>
              exact searchStorage_induction hrequested (fun h => absurd rfl h)
                (fun h => absurd rfl h) (hnames _ _ hread)

/-- The call that creates the container has the storage that the run has found. -/
theorem begins_createCt {log : Log Query Ended} {result : Option (Except CtRequestError Unit)}
    (hread : readCtParams params = .ok r) (h : Begins (createCt node params) log result)
    {args : List String} {ended : Ended} (hmem : ((.pct, "create" :: args), ended) ∈ log) :
    ∃ search storage, search <:+: log ∧
      Begins (resolveStorage node r.storage "rootdir") search (some storage) ∧
      "create" :: args = r.createArgs storage := by
  rw [createCt, hread] at h
  cases h with
  | cut => cases hmem
  | @ask _ _ probe log _ tail =>
      have hlog : ((.pct, "create" :: args), ended) ∈ log := by
        refine (List.mem_cons.mp hmem).resolve_left fun heq => ?_
        have hargs := congrArg (fun e => e.1.2.head?) heq
        revert hargs
        simp
      dsimp only at tail
      split_ifs at tail
      · cases tail <;> cases hlog
      · rcases begins_bind tail with ⟨-, hcut⟩ | ⟨search, rest, storage, rfl, hsearch, hrest⟩
        · exact absurd hlog (begins_resolveStorage hcut)
        · have hcall := (List.mem_append.mp hlog).resolve_left (begins_resolveStorage hsearch)
          refine ⟨search, storage, ⟨[_], rest, rfl⟩, hsearch, ?_⟩
          cases hrest with
          | cut => cases hcall
          | ask reply tail' =>
              rw [begins_ite_ret tail', List.mem_singleton] at hcall
              exact congrArg (fun e => e.1.2) hcall

theorem create_exact (hnames : NamesStorages node) (hread : readCtParams params = .ok r) :
    (CtRequest.create params).Exact node := by
  obtain ⟨hstorage, hsafe, hbridge, hsafeBridge, hip, hsafeIP, hdisk⟩ := readCtParams_eq_ok hread
  have hplain : PlainName r.storage :=
    ⟨notMem_of_isSafeToken hsafe (by decide), notMem_of_isSafeToken hsafe (by decide),
      notMem_of_isSafeToken hsafe (by decide)⟩
  intro log result hrun args ended hmem
  obtain ⟨search, storage, hinfix, hsearch, hargs⟩ := begins_createCt hread hrun hmem
  obtain ⟨hrootfs, hallocation⟩ := properties_rootfs r.disk
    (plainName_of_resolveStorage hnames hplain hsearch)
  refine ⟨search, storage, hinfix, hstorage ▸ hsearch, ?_⟩
  rw [hargs, CreateExact, ← hbridge, ← hip, ← hdisk]
  exact ⟨r.ctid, r.ostemplate, _, formatDiskSpec storage r.disk, r.net0, _, rfl, rfl, rfl, hrootfs,
    hallocation, properties_net0 hsafeBridge hsafeIP⟩

end Create

/-- The property strings of an accepted request have exactly what was requested if a mount point
has no comma, and only then. -/
theorem properties_exact_iff {node : Node} {request : CtRequest} (hnames : NamesStorages node)
    (haccepted : request.Accepted) : request.Exact node ↔ request.Plain := by
  cases request with
  | mountAdd params =>
      obtain ⟨m, hread⟩ := haccepted
      exact mountAdd_exact_iff node hread
  | create params =>
      obtain ⟨r, hread⟩ := haccepted
      exact iff_of_true (create_exact hnames hread) trivial

/-! ## Requests -/

def mountRequest (mountpoint : String) : Params :=
  [("ctid", .str "100"), ("volume", .str "local-lvm:vm-100-disk-1"),
    ("mountpoint", .str mountpoint)]

theorem namesStorages_pools : NamesStorages poolsNode := by
  intro stdout storages hread s hs
  obtain rfl := Option.some.inj hread
  simp only [List.mem_cons, List.not_mem_nil, or_false] at hs
  rcases hs with rfl | rfl <;> exact ⟨by decide, by decide, by decide⟩

theorem accepted_mountRequest_data : (CtRequest.mountAdd (mountRequest "/mnt/data")).Accepted :=
  ⟨⟨"100", "local-lvm:vm-100-disk-1", "/mnt/data", 0⟩, by decide⟩

theorem properties_exact_data :
    (CtRequest.mountAdd (mountRequest "/mnt/data")).Exact poolsNode :=
  (properties_exact_iff namesStorages_pools accepted_mountRequest_data).mpr
    (show ',' ∉ (stringParam (mountRequest "/mnt/data") "mountpoint" "").toList by decide)

/-- The mount point adds an option of its own. -/
theorem comma_adds_option :
    (CtRequest.mountAdd (mountRequest "/mnt/data,backup=1")).Accepted ∧
      ¬ (CtRequest.mountAdd (mountRequest "/mnt/data,backup=1")).Exact poolsNode ∧
      properties "local-lvm:vm-100-disk-1,mp=/mnt/data,backup=1" =
        [(none, "local-lvm:vm-100-disk-1".toList), entryOf "mp" "/mnt/data",
          entryOf "backup" "1"] := by
  have hread : readMountParams (mountRequest "/mnt/data,backup=1") =
      .ok ⟨"100", "local-lvm:vm-100-disk-1", "/mnt/data,backup=1", 0⟩ := by decide
  refine ⟨⟨_, hread⟩, ?_, by decide⟩
  rw [mountAdd_exact_iff poolsNode hread, CtRequest.Plain]
  decide

end PmxAgents.Hypervisor

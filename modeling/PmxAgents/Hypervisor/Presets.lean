import PmxAgents.Hypervisor.VmHistory

/-!
# Guided builds

`vm.create.synology-dsm` and `vm.create.zimaos` fill in what a request leaves open and then create a
machine as every other request does. The network card that is filled in for Synology DSM is not
one that the creation accepts.
-/

namespace PmxAgents.Hypervisor

open Lib Lib.Text Lib.Dialogue

/-- An entry in front takes the place of those of the same key behind it. -/
def preset (ostype : String) (memory cores : ℤ) (net0 : String) (envelope : Params) : Params :=
  ("net0", .str (stringParam envelope "net0" net0)) ::
    ("cores", .num (intParam envelope "cores" cores)) ::
    ("memory", .num (intParam envelope "memory" memory)) ::
    ("ostype", .str ostype) :: envelope

def synologyDSMParams : Params → Params := preset "other" 4096 2 "e1000,bridge=vmbr0"

def zimaOSParams : Params → Params := preset "l26" 2048 2 "virtio,bridge=vmbr0"

/-- `Create`, from the parameters on. -/
def createVm (node : Node) (params : Params) : Talk Query Ended (Except CreateError Unit) :=
  match readCreateParams params with
  | .error e => .ret (.error e)
  | .ok r => create node r

def PassesChecks (params : Params) : Prop :=
  ∃ r, readCreateParams params = .ok r ∧ r.validate = .ok ()

/-- Every run in which the machine does not exist yet calls `qm create`. -/
def ReachesCreate (node : Node) (params : Params) : Prop :=
  ∀ log result, Begins (createVm node params) log (some result) →
    (∀ vmid probe rest, log = ((.qm, ["config", vmid]), probe) :: rest → probe.failure ≠ none) →
    ∃ args ended, ((.qm, "create" :: args), ended) ∈ log

/-- Positive if it is there. -/
def PositiveOrAbsent (params : Params) (key : String) : Prop :=
  ∀ v, params.lookup key = some v → ∃ n : ℤ, v = .num n ∧ 0 < n

/-- A request that names the machine and leaves open what the guided builds fill in. -/
structure Bare (envelope : Params) : Prop where
  vmid : ∃ vmid, requiredVMID envelope "vmid" = .ok vmid
  name : ∃ name, requiredSafeToken envelope "name" = .ok name
  memory : PositiveOrAbsent envelope "memory"
  cores : PositiveOrAbsent envelope "cores"
  sockets : PositiveOrAbsent envelope "sockets"
  absent : ∀ key ∈ ["net0", "storage", "cpu_model", "machine", "bios", "boot_order", "disk"],
    envelope.lookup key = none

/-! ## What the creation reads -/

section Read
variable {params envelope : Params} {key fallback : String}

theorem stringParam_of_absent (h : params.lookup key = none) :
    stringParam params key fallback = fallback := by
  rw [stringParam, h]

theorem intParam_pos (h : PositiveOrAbsent params key) {n : ℤ} (hn : 0 < n) :
    0 < intParam params key n := by
  rw [intParam]
  cases hlookup : params.lookup key with
  | none => exact hn
  | some v =>
      obtain ⟨m, rfl, hm⟩ := h v hlookup
      exact hm

variable {ostype net0 : String} {memory cores : ℤ}

theorem lookup_preset (h : key ∉ ["net0", "cores", "memory", "ostype"]) :
    (preset ostype memory cores net0 envelope).lookup key = envelope.lookup key := by
  simp only [List.mem_cons, List.not_mem_nil, or_false, not_or] at h
  simp only [preset, List.lookup_cons, beq_false_of_ne h.1, beq_false_of_ne h.2.1,
    beq_false_of_ne h.2.2.1, beq_false_of_ne h.2.2.2]

theorem stringParam_preset (h : key ∉ ["net0", "cores", "memory", "ostype"]) :
    stringParam (preset ostype memory cores net0 envelope) key fallback =
      stringParam envelope key fallback := by
  rw [stringParam, stringParam, lookup_preset h]

theorem intParam_preset (h : key ∉ ["net0", "cores", "memory", "ostype"]) {n : ℤ} :
    intParam (preset ostype memory cores net0 envelope) key n = intParam envelope key n := by
  rw [intParam, intParam, lookup_preset h]

theorem stringParam_eq_of_lookup {text : String} (h : params.lookup key = some (.str text))
    (hempty : text ≠ "") (htrim : trimSpace text = text) :
    stringParam params key fallback = text := by
  rw [stringParam, h]
  simp only [htrim]
  rw [if_neg hempty]

theorem stringParam_preset_of_absent (h : key ∉ ["net0", "cores", "memory", "ostype"])
    (habsent : envelope.lookup key = none) :
    stringParam (preset ostype memory cores net0 envelope) key fallback = fallback := by
  rw [stringParam_preset h, stringParam_of_absent habsent]

theorem lookup_net0_preset (h : envelope.lookup "net0" = none) :
    (preset ostype memory cores net0 envelope).lookup "net0" = some (.str net0) := by
  rw [preset, stringParam_of_absent h, List.lookup_cons_self]

/-- A request as a preset fills it in. -/
structure Filled (ostype net0 : String) (r : CreateParams) : Prop where
  pos : 0 < r.memory ∧ 0 < r.cores ∧ 0 < r.sockets
  net0 : r.net0 = net0
  ostype : r.ostype = ostype
  storage : r.storage = "local-lvm"
  cpuModel : r.cpuModel = "" ∨ r.cpuModel = "host"
  machine : r.machine = ""
  bios : r.bios = ""
  bootOrder : r.bootOrder = ""

/-- The request that the creation reads from a preset. -/
theorem readCreateParams_preset (h : Bare envelope)
    (hostype : ostype ≠ "" ∧ trimSpace ostype = ostype)
    (hnet0 : net0 ≠ "" ∧ trimSpace net0 = net0) (hmemory : 0 < memory) (hcores : 0 < cores) :
    ∃ r, readCreateParams (preset ostype memory cores net0 envelope) = .ok r ∧
      Filled ostype net0 r := by
  obtain ⟨vmid, hvmid⟩ := h.vmid
  obtain ⟨name, hname⟩ := h.name
  have hvmid' : requiredVMID (preset ostype memory cores net0 envelope) "vmid" = .ok vmid := by
    rw [requiredVMID, stringParam_preset (by decide), ← requiredVMID, hvmid]
  have hname' : requiredSafeToken (preset ostype memory cores net0 envelope) "name" = .ok name := by
    rw [requiredSafeToken, stringParam_preset (by decide), ← requiredSafeToken, hname]
  have hcard : stringParam (preset ostype memory cores net0 envelope) "net0"
      "virtio,bridge=vmbr0" = net0 :=
    stringParam_eq_of_lookup (lookup_net0_preset (h.absent _ (by decide))) hnet0.1 hnet0.2
  have hsystem : stringParam (preset ostype memory cores net0 envelope) "ostype" "l26" = ostype :=
    stringParam_eq_of_lookup rfl hostype.1 hostype.2
  have hsockets : intParam (preset ostype memory cores net0 envelope) "sockets" 1 =
      intParam envelope "sockets" 1 := intParam_preset (by decide)
  rw [readCreateParams, hvmid', hname']
  refine ⟨_, rfl, ⟨?_, ?_, ?_⟩, ?_, ?_, ?_, ?_, ?_, ?_, ?_⟩
  · exact intParam_pos h.memory hmemory
  · exact intParam_pos h.cores hcores
  · exact hsockets ▸ intParam_pos h.sockets (by decide)
  · dsimp only
    exact hcard
  · dsimp only
    exact hsystem
  · exact stringParam_preset_of_absent (by decide) (h.absent _ (by decide))
  · -- the model of the processor is absent, but nesting sets one
    dsimp only
    split_ifs
    · exact .inr rfl
    · exact .inl (stringParam_preset_of_absent (by decide) (h.absent _ (by decide)))
  · exact stringParam_preset_of_absent (by decide) (h.absent _ (by decide))
  · exact stringParam_preset_of_absent (by decide) (h.absent _ (by decide))
  · exact stringParam_preset_of_absent (by decide) (h.absent _ (by decide))

end Read

/-! ## The checks and the call -/

section Calls
variable {node : Node} {params : Params} {r : CreateParams}

theorem reachesCreate_of_validate (hread : readCreateParams params = .ok r)
    (hvalid : r.validate = .ok ()) : ReachesCreate node params := by
  intro log result hrun hprobe
  rw [createVm, hread] at hrun
  dsimp only at hrun
  rw [create, hvalid] at hrun
  dsimp only at hrun
  cases hrun with
  | ask probe tail =>
      have hfound : ¬ found (execReply probe) = true := by
        rw [found_execReply]
        exact hprobe r.vmid probe _ rfl
      dsimp only at tail
      rw [if_neg hfound] at tail
      rcases begins_bind tail with ⟨hnone, -⟩ | ⟨first, rest, storage, rfl, -, hrest⟩
      · cases hnone
      · -- the first step after the choice of a storage is the call that allocates
        rw [CreateParams.steps, perform] at hrest
        cases hrest with
        | ask ended tail' =>
            refine ⟨r.createArgs.tail, ended, ?_⟩
            have hargs : "create" :: r.createArgs.tail = r.createArgs := rfl
            rw [hargs]
            simp

theorem not_reachesCreate_of_validate {e : CreateError} (hread : readCreateParams params = .ok r)
    (hvalid : r.validate = .error e) : ¬ ReachesCreate node params := by
  intro hreaches
  have hrun : Begins (createVm node params) [] (some (.error e)) := by
    rw [createVm, hread]
    dsimp only
    rw [create, hvalid]
    exact .ret _
  obtain ⟨args, ended, hmem⟩ := hreaches [] _ hrun (by simp)
  exact absurd hmem List.not_mem_nil

/-- What is filled in passes the checks if the network card does. -/
theorem Filled.validate {ostype net0 : String} (h : Filled ostype net0 r)
    (hostype : isSafeToken ostype = true) :
    r.validate = if isSafeCreateNet0 net0 then .ok () else .error (.net0 net0) := by
  have hpos := h.pos
  have hpositive : ¬ (r.memory ≤ 0 ∨ r.cores ≤ 0 ∨ r.sockets ≤ 0) := by omega
  have hsafe : isSafeToken "local-lvm" = true := by decide
  have hmodel : ¬ (r.cpuModel ≠ "" ∧ isSafeToken r.cpuModel = false) := by
    rcases h.cpuModel with hcpu | hcpu
    · exact fun h => h.1 hcpu
    · rw [hcpu]
      decide
  rw [CreateParams.validate, if_neg hpositive, h.net0, h.storage, h.ostype, hostype, hsafe,
    if_neg hmodel, h.machine, h.bios, h.bootOrder]
  cases isSafeCreateNet0 net0 <;> simp

end Calls

/-! ## The two builds -/

section Builds
variable {envelope : Params}

theorem exists_zimaOS_request (h : Bare envelope) :
    ∃ r, readCreateParams (zimaOSParams envelope) = .ok r ∧ r.validate = .ok () := by
  obtain ⟨r, hread, hfilled⟩ := @readCreateParams_preset envelope "l26" "virtio,bridge=vmbr0"
    2048 2 h (by decide) (by decide) (by decide) (by decide)
  exact ⟨r, hread, (hfilled.validate (by decide)).trans (by decide)⟩

/-- The network card of the guided build is not one that the creation accepts. -/
theorem exists_synologyDSM_request (h : Bare envelope) :
    ∃ r, readCreateParams (synologyDSMParams envelope) = .ok r ∧
      r.validate = .error (.net0 "e1000,bridge=vmbr0") := by
  obtain ⟨r, hread, hfilled⟩ := @readCreateParams_preset envelope "other" "e1000,bridge=vmbr0"
    4096 2 h (by decide) (by decide) (by decide) (by decide)
  exact ⟨r, hread, (hfilled.validate (by decide)).trans (by decide)⟩

theorem not_passesChecks_of_validate {params : Params} {r : CreateParams} {e : CreateError}
    (hread : readCreateParams params = .ok r) (hvalid : r.validate = .error e) :
    ¬ PassesChecks params := by
  rintro ⟨r', hread', hvalid'⟩
  obtain rfl : r = r' := Except.ok.inj (hread.symm.trans hread')
  rw [hvalid] at hvalid'
  cases hvalid'

/-- On every host the guided build of ZimaOS passes the checks and creates the machine, and that
of Synology DSM never does. -/
theorem guided_builds_create (node : Node) (h : Bare envelope) :
    (PassesChecks (zimaOSParams envelope) ∧ ReachesCreate node (zimaOSParams envelope)) ∧
      ¬ PassesChecks (synologyDSMParams envelope) ∧
      ¬ ReachesCreate node (synologyDSMParams envelope) := by
  obtain ⟨zima, hzima, hvalid⟩ := exists_zimaOS_request h
  obtain ⟨synology, hsynology, hinvalid⟩ := exists_synologyDSM_request h
  exact ⟨⟨⟨zima, hzima, hvalid⟩, reachesCreate_of_validate hzima hvalid⟩,
    not_passesChecks_of_validate hsynology hinvalid,
    not_reachesCreate_of_validate hsynology hinvalid⟩

end Builds

/-- A request with a number and a name only. -/
def namedRequest : Params := [("vmid", .str "200"), ("name", .str "synology")]

theorem bare_namedRequest : Bare namedRequest where
  vmid := ⟨"200", by decide⟩
  name := ⟨"synology", by decide⟩
  memory := fun _ h => by cases h
  cores := fun _ h => by cases h
  sockets := fun _ h => by cases h
  absent := by decide

theorem guided_builds_create_named :
    Bare namedRequest ∧
      (PassesChecks (zimaOSParams namedRequest) ∧
        ReachesCreate namelessNode (zimaOSParams namedRequest)) ∧
      ¬ PassesChecks (synologyDSMParams namedRequest) ∧
      ¬ ReachesCreate namelessNode (synologyDSMParams namedRequest) :=
  ⟨bare_namedRequest, guided_builds_create namelessNode bare_namedRequest⟩

/-- The number and the name are in order, nothing else is asked for, and the build is refused. -/
theorem synologyDSM_refused :
    Bare namedRequest ∧ ¬ PassesChecks (synologyDSMParams namedRequest) ∧
      ¬ ReachesCreate namelessNode (synologyDSMParams namedRequest) := by
  obtain ⟨r, hread, hvalid⟩ := exists_synologyDSM_request bare_namedRequest
  exact ⟨bare_namedRequest, not_passesChecks_of_validate hread hvalid,
    not_reachesCreate_of_validate hread hvalid⟩

end PmxAgents.Hypervisor

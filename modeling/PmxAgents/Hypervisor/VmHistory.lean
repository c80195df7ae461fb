import PmxAgents.Hypervisor.Vm

/-!
# Attempts to create a machine

An attempt that returns with success has either made all its calls, and then the machine has
everything the request asks for, or it has found the machine and has left it as it was. So in
every sequence of attempts what counts is the machine that an attempt finds.
-/

namespace PmxAgents.Hypervisor

open Lib Lib.Dialogue

/-- The arguments of the calls among the steps. -/
def callsOf : List Step → List (List String)
  | [] => []
  | .demand _ _ :: rest => callsOf rest
  | .call _ args :: rest => args :: callsOf rest

/-- The machine after calls that all had their effect. -/
def applyCalls : Option Config → List (List String) → Option (Option Config)
  | vm, [] => some vm
  | vm, args :: rest => (changed vm (.qm, args)).bind fun vm' => applyCalls vm' rest

section Calls
variable {vm vm' : Option Config} (c : Config) (r : CreateParams) (storage : String)

theorem callsOf_append (steps others : List Step) :
    callsOf (steps ++ others) = callsOf steps ++ callsOf others := by
  induction steps with
  | nil => rfl
  | cons step steps ih =>
      cases step with
      | demand holds failed => exact ih
      | call failed args => exact congrArg (args :: ·) ih

theorem applyCalls_append (calls others : List (List String)) :
    applyCalls vm (calls ++ others) =
      (applyCalls vm calls).bind fun vm' => applyCalls vm' others := by
  induction calls generalizing vm with
  | nil => rfl
  | cons args calls ih =>
      rw [List.cons_append, applyCalls, applyCalls, Option.bind_assoc]
      exact congrArg (Option.bind (changed vm (.qm, args))) (funext fun vm' => ih)

theorem applyCalls_set (id : String) (options : List String) :
    applyCalls (some c) [["set", id] ++ options] = some (some (c.set (optionPairs options))) := rfl

theorem applyCalls_disk :
    ∃ c', applyCalls (some c) (callsOf (r.diskSteps storage)) = some (some c') ∧
      (r.disk ≠ "" → c' "--scsi0" = some (storage ++ ":" ++ r.disk)) ∧
      (r.disk = "" → 0 < r.diskGb → c' "--scsi0" = some (formatDiskSpec storage r.diskGb)) := by
  rw [CreateParams.diskSteps]
  split_ifs with hdisk hsize
  · refine ⟨_, applyCalls_set c r.vmid ["--scsi0", storage ++ ":" ++ r.disk], fun _ => ?_,
      fun hnone => absurd hnone hdisk⟩
    simp [optionPairs, Config.set]
  · refine ⟨_, applyCalls_set c r.vmid ["--scsi0", formatDiskSpec storage r.diskGb, "--boot",
      "order=scsi0;net0"], fun hsome => absurd hsome hdisk, fun _ _ => ?_⟩
    simp [optionPairs, Config.set]
  · exact ⟨c, rfl, fun hsome => absurd hsome hdisk, fun _ hpos => absurd hpos hsize⟩

theorem applyCalls_cloudInit :
    ∃ c', applyCalls (some c) (callsOf (r.cloudInitSteps storage)) = some (some c') ∧
      c' "--scsi0" = c "--scsi0" ∧
      (r.cloudInit = true → c' "--ide2" = some (storage ++ ":cloudinit")) := by
  rw [CreateParams.cloudInitSteps]
  split_ifs with hcloud
  · refine ⟨_, applyCalls_set c r.vmid ["--ide2", storage ++ ":cloudinit", "--serial0", "socket",
      "--vga", "serial0"], ?_, fun _ => ?_⟩
    · simp [optionPairs, Config.set]
    · simp [optionPairs, Config.set]
  · exact ⟨c, rfl, rfl, fun h => absurd h hcloud⟩

theorem applyCalls_boot : ∃ c', applyCalls (some c) (callsOf r.bootSteps) = some (some c') ∧
    c' "--scsi0" = c "--scsi0" ∧ c' "--ide2" = c "--ide2" ∧
    (r.bootOrder ≠ "" → c' "--boot" = some ("order=" ++ r.bootOrder)) := by
  rw [CreateParams.bootSteps]
  split_ifs with hboot
  · refine ⟨_, applyCalls_set c r.vmid ["--boot", "order=" ++ r.bootOrder], ?_, ?_, fun _ => ?_⟩
    · simp [optionPairs, Config.set]
    · simp [optionPairs, Config.set]
    · simp [optionPairs, Config.set]
  · exact ⟨c, rfl, rfl, rfl, fun h => absurd h hboot⟩

variable {r storage}

/-- All calls of a creation leave a machine that has what was asked for. -/
theorem complete_of_calls (h : applyCalls vm (callsOf (r.steps storage)) = some vm') :
    Complete r vm' := by
  rw [CreateParams.steps, callsOf, applyCalls, Option.bind_eq_some_iff] at h
  obtain ⟨made, hmade, h⟩ := h
  obtain ⟨c₀, rfl⟩ : ∃ c₀, made = some c₀ := by
    cases vm with
    | none => exact ⟨_, (Option.some.inj hmade).symm⟩
    | some c => cases hmade
  rw [callsOf_append, callsOf_append, applyCalls_append, applyCalls_append] at h
  obtain ⟨c₁, hdisk, hattached, hallocated⟩ := applyCalls_disk c₀ r storage
  obtain ⟨c₂, hcloud, hscsi, hdrive⟩ := applyCalls_cloudInit c₁ r storage
  obtain ⟨c₃, hboot, hscsi', hide, horder⟩ := applyCalls_boot c₂ r
  rw [hdisk, Option.bind_some, hcloud, Option.bind_some, hboot] at h
  refine ⟨c₃, (Option.some.inj h).symm, storage, fun hd => ?_, fun hd hpos => ?_, fun hi => ?_,
    horder⟩
  · rw [hscsi', hscsi, hattached hd]
  · rw [hscsi', hscsi, hallocated hd hpos]
  · rw [hide, hdrive hi]

end Calls

section Attempts
variable {node : Node} {r : CreateParams} {vm vm' : Option Config} {log : Log Query Ended}
  {steps : List Step}

theorem effects_append {first rest : Log Query Ended} (h : Effects vm (first ++ rest) vm') :
    ∃ mid, Effects vm first mid ∧ Effects mid rest vm' := by
  induction first generalizing vm with
  | nil => exact ⟨vm, .nil vm, h⟩
  | cons e first ih =>
      cases h with
      | cons heffect htail =>
          obtain ⟨mid, hfirst, hrest⟩ := ih htail
          exact ⟨mid, .cons heffect hfirst, hrest⟩

/-- Steps that end with success have all had their effect. -/
theorem applyCalls_of_perform (h : Begins (perform steps) log (some (.ok ())))
    (heffects : Effects vm log vm') : applyCalls vm (callsOf steps) = some vm' := by
  induction steps generalizing vm log with
  | nil =>
      cases h
      cases heffects
      rfl
  | cons step rest ih =>
      cases step with
      | demand holds failed =>
          rw [perform] at h
          split_ifs at h
          · exact ih h heffects
          · cases h
      | call failed args =>
          rw [perform] at h
          cases h with
          | ask ended tail =>
              beta_reduce at tail
              split_ifs at tail with herr
              · cases tail
              · cases heffects with
                | cons first after =>
                    rcases first with hchanged | ⟨hfailed, -⟩
                    · rw [callsOf, applyCalls, hchanged, Option.bind_some]
                      exact ih tail after
                    · exact absurd hfailed herr

theorem found_execReply {e : Ended} : found (execReply e) = true ↔ e.failure = none := by
  rw [← exitCode_eq_zero_iff]
  simp [found, execReply]

/-- An attempt ends with success on a complete machine exactly if a machine that it found was
complete. -/
theorem complete_iff_of_attempt {a : Attempt} (hrun : Begins (create node r) a.log a.result)
    (heffects : Effects a.vmBefore a.log a.vmAfter) :
    (a.result = some (.ok ()) → Complete r a.vmAfter) ↔
      (a.result.isSome → a.Found r → Complete r a.vmBefore) := by
  obtain ⟨vmBefore, log, result, vmAfter⟩ := a
  simp only at hrun heffects ⊢
  have hempty : log = [] → ∀ P : Prop, (Attempt.Found ⟨vmBefore, log, result, vmAfter⟩ r → P) := by
    rintro rfl P ⟨probe, rest, hlog, -⟩
    cases hlog
  rw [create] at hrun
  cases hvalid : r.validate with
  | error e =>
      simp only [hvalid] at hrun
      cases hrun with
      | cut => simp
      | ret => exact ⟨fun _ _ => hempty rfl _, fun _ => nofun⟩
  | ok u =>
      simp only [hvalid] at hrun
      cases hrun with
      | cut => simp
      | @ask _ _ probe rest _ tail =>
          beta_reduce at tail
          cases heffects with
          | @cons _ mid _ _ _ _ first after =>
              by_cases hfound : probe.failure = none
              · -- the machine is there and stays as it is
                rw [if_pos (found_execReply.mpr hfound)] at tail
                have hmid : mid = vmBefore := by
                  rcases first with hchanged | ⟨-, hsame⟩
                  · rw [changed] at hchanged
                    split_ifs at hchanged
                    exact (Option.some.inj hchanged).symm
                  · exact hsame
                subst hmid
                cases tail with
                | cut => simp
                | ret =>
                    cases after
                    exact ⟨fun h _ _ => h rfl, fun h _ => h rfl ⟨probe, [], rfl, hfound⟩⟩
              · rw [if_neg fun h => hfound (found_execReply.mp h)] at tail
                refine ⟨fun _ _ hf => ?_, fun _ hok => ?_⟩
                · obtain ⟨probe', rest', hlog, hnone⟩ := hf
                  obtain ⟨rfl, -⟩ : probe = probe' ∧ rest = rest' := by simpa using hlog
                  exact absurd hnone hfound
                · subst hok
                  rcases begins_bind tail with ⟨hcut, -⟩ | ⟨l₁, l₂, storage, rfl, hchoose, hperform⟩
                  · cases hcut
                  · obtain ⟨mid', hstorage, hcalls⟩ := effects_append after
                    exact complete_of_calls (applyCalls_of_perform hperform hcalls)

end Attempts

/-- In a sequence of attempts every success leaves a complete machine exactly if no attempt that
runs to its end finds an incomplete one. Whether the machine is changed between the attempts makes
no difference. -/
theorem created_complete_iff (node : Node) (r : CreateParams) (attempts : List Attempt)
    (hattempted : Attempted node r attempts) :
    (∀ a ∈ attempts, a.result = some (.ok ()) → Complete r a.vmAfter) ↔
      ∀ a ∈ attempts, a.result.isSome → a.Found r → Complete r a.vmBefore :=
  forall₂_congr fun a ha => complete_iff_of_attempt (hattempted.runs a ha) (hattempted.effects a ha)

/-! ## An attempt that is broken off -/

/-- A host without a name, on which storages are not looked for. -/
def namelessNode : Node := ⟨"", fun _ => none⟩

/-- A machine with a fresh boot disk. -/
def diskRequest : CreateParams where
  vmid := "100"
  name := "web"
  memory := 1024
  cores := 1
  sockets := 1
  net0 := "virtio,bridge=vmbr0"
  storage := "local-lvm"
  disk := ""
  diskGb := 32
  ostype := "l26"
  cpuModel := ""
  machine := ""
  bios := ""
  bootOrder := ""
  cloudInit := false
  nested := false
  agentEnabled := none
  startOnBoot := none

def succeeded : Ended := ⟨"", "", none, false⟩

theorem exit_two_ne : (2 : Int) ≠ 0 := by decide

def failed : Ended := ⟨"", "", some (.exit 2 exit_two_ne), false⟩

/-- The machine as the first call allocates it. -/
def allocated : Config := Config.set (fun _ => none) (optionPairs (diskRequest.createArgs.drop 2))

def withDisk : Config :=
  allocated.set (optionPairs ["--scsi0", formatDiskSpec "local-lvm" 32, "--boot",
    "order=scsi0;net0"])

/-- The questions of an attempt that finds no machine and allocates one, up to the disk. -/
def diskLog (last : Ended) : Log Query Ended :=
  [((.qm, ["config", "100"]), failed), ((.qm, diskRequest.createArgs), succeeded),
    ((.qm, ["set", "100", "--scsi0", formatDiskSpec "local-lvm" 32, "--boot", "order=scsi0;net0"]),
      last)]

theorem begins_create (last : Ended) :
    Begins (create namelessNode diskRequest) (diskLog last)
      (some (if (execReply last).err then .error .allocateDisk else .ok ())) := by
  have hvalid : diskRequest.validate = .ok () := by decide
  rw [create]
  simp only [hvalid]
  refine .ask failed (.ask succeeded (.ask last ?_))
  cases herr : (execReply last).err with
  | true =>
      rw [if_pos rfl]
      exact .ret _
  | false =>
      rw [if_neg Bool.false_ne_true]
      exact .ret _

/-- An attempt that finds no machine, and the next one, which finds what the first has left. -/
def attemptsWith (last : Ended) (c : Config) : List Attempt :=
  [⟨none, diskLog last,
      some (if (execReply last).err then .error .allocateDisk else .ok ()), some c⟩,
    ⟨some c, [((.qm, ["config", "100"]), succeeded)], some (.ok ()), some c⟩]

theorem history_attemptsWith {last : Ended} {c : Config}
    (h : Effects none (diskLog last) (some c)) :
    History namelessNode diskRequest (attemptsWith last c) := by
  refine ⟨⟨?_, ?_⟩, by simp [attemptsWith]⟩
  · intro a ha
    simp only [attemptsWith, List.mem_cons, List.not_mem_nil, or_false] at ha
    rcases ha with rfl | rfl
    · exact begins_create last
    · have hvalid : diskRequest.validate = .ok () := by decide
      rw [create]
      simp only [hvalid]
      exact .ask succeeded (.ret _)
  · intro a ha
    simp only [attemptsWith, List.mem_cons, List.not_mem_nil, or_false] at ha
    rcases ha with rfl | rfl
    · exact h
    · exact .cons (Or.inl rfl) (.nil _)

/-- The calls of the first attempt succeed, and the second one finds the complete machine. -/
theorem created_complete_twice :
    History namelessNode diskRequest (attemptsWith succeeded withDisk) ∧
      ∀ a ∈ attemptsWith succeeded withDisk, a.result = some (.ok ()) →
        Complete diskRequest a.vmAfter := by
  have hhistory : History namelessNode diskRequest (attemptsWith succeeded withDisk) :=
    history_attemptsWith
      (.cons (Or.inr ⟨rfl, rfl⟩) (.cons (Or.inl rfl) (.cons (Or.inl rfl) (.nil _))))
  refine ⟨hhistory, (created_complete_iff _ _ _ hhistory.toAttempted).mpr fun a ha _ hfound => ?_⟩
  simp only [attemptsWith, List.mem_cons, List.not_mem_nil, or_false] at ha
  rcases ha with rfl | rfl
  · obtain ⟨probe, rest, hlog, hnone⟩ := hfound
    have hprobe : failed = probe := (Prod.mk.inj (List.cons.inj hlog).1).2
    rw [← hprobe] at hnone
    cases hnone
  · exact ⟨withDisk, rfl, "local-lvm", by decide, fun _ _ => by decide, by decide, by decide⟩

/-- The first attempt fails to add the disk. The second one returns with success, and the machine
has no disk. -/
theorem retried_without_disk :
    History namelessNode diskRequest (attemptsWith failed allocated) ∧
      ∃ a ∈ attemptsWith failed allocated, a.result = some (.ok ()) ∧
        ¬ Complete diskRequest a.vmAfter := by
  refine ⟨history_attemptsWith (.cons (Or.inr ⟨rfl, rfl⟩) (.cons (Or.inl rfl)
    (.cons (Or.inr ⟨rfl, rfl⟩) (.nil _)))), _, List.mem_cons_of_mem _ List.mem_cons_self, rfl, ?_⟩
  rintro ⟨c, hc, storage, -, hdisk, -⟩
  obtain rfl := Option.some.inj hc
  have hnone : allocated "--scsi0" = none := by decide
  exact absurd (hnone.symm.trans (hdisk rfl (by decide))) nofun

end PmxAgents.Hypervisor

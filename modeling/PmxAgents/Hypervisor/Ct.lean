import PmxAgents.Hypervisor.Exec

/-!
# Deleting containers

A container is deleted in three steps: it is looked for, its status is asked, and it is
destroyed if it does not run. A container that is not found counts as deleted. It is looked
for by its configuration, and every way in which that can fail is taken for a container that
is not there: also a tool that is missing, that did not answer in time or that failed for
another reason.
-/

namespace PmxAgents.Hypervisor

open Lib Lib.Text Lib.Cbor Lib.Dialogue

inductive CtError where
  | param (e : ParamError)
  | status (ctid : String)
  | running (ctid : String)
  | destroy
  deriving DecidableEq, Repr

/-- The status after the first eight bytes of the output. -/
def statusText (stdout : String) : Bytes :=
  let line := utf8 (trimSpace stdout)
  if 8 < line.length then line.drop 8 else utf8 "unknown"

def ctStatus (ctid : String) (reply : Reply) : Except CtError Bytes :=
  if reply.err then .error (.status ctid)
  else
    match reply.result with
    | none => .ok (utf8 "unknown")
    | some result => .ok (statusText result.stdout)

/-- The look for the container failed. -/
def notFound (reply : Reply) : Bool :=
  match reply.result with
  | none => true
  | some result => result.exitCode ≠ 0

def destroy (ctid : String) : Talk Query Ended (Except CtError Unit) :=
  .ask (.pct, ["destroy", ctid]) fun ended =>
    if (execReply ended).err then .ret (.error .destroy) else .ret (.ok ())

def delete (params : Params) : Talk Query Ended (Except CtError Unit) :=
  match requiredVMID params "ctid" with
  | .error e => .ret (.error (.param e))
  | .ok ctid =>
      .ask (.pct, ["config", ctid]) fun probe =>
        if notFound (execReply probe) then .ret (.ok ())
        else
          .ask (.pct, ["status", ctid]) fun status =>
            match ctStatus ctid (execReply status) with
            | .error e => .ret (.error e)
            | .ok text =>
                if text = utf8 "running" then .ret (.error (.running ctid)) else destroy ctid

section Delete
variable {params : Params} {ctid : String} {log : Log Query Ended}
  {result : Except CtError Unit}

theorem notFound_execReply {e : Ended} : notFound (execReply e) = true ↔ exitCode e ≠ 0 := by
  simp [notFound, execReply]

theorem run_destroy (h : Run (destroy ctid) log result) :
    ∃ ended, log = [((.pct, ["destroy", ctid]), ended)] ∧
      (result = .ok () → ended.failure = none) := by
  cases h with
  | ask ended tail =>
      beta_reduce at tail
      refine ⟨ended, ?_⟩
      cases herr : (execReply ended).err with
      | true =>
          rw [if_pos herr] at tail
          cases tail
          exact ⟨rfl, nofun⟩
      | false =>
          rw [if_neg (by simp [herr])] at tail
          cases tail
          exact ⟨rfl, fun _ => Option.not_isSome_iff_eq_none.mp (by simpa [execReply] using herr)⟩

/-- A run refuses the request, ends with the look for the container, or goes on to destroy it. -/
theorem run_delete (h : Run (delete params) log result) :
    (∃ e, log = [] ∧ result = .error e) ∨
      ∃ probe rest, log = ((.pct, ["config", stringParam params "ctid" ""]), probe) :: rest ∧
        (exitCode probe ≠ 0 ∧ rest = [] ∧ result = .ok () ∨
          exitCode probe = 0 ∧ (∀ r, ((.pct, ["config", stringParam params "ctid" ""]), r) ∉ rest) ∧
            (result = .ok () →
              ∃ r, ((.pct, ["destroy", stringParam params "ctid" ""]), r) ∈ rest ∧
                r.failure = none)) := by
  rw [delete] at h
  cases hctid : requiredVMID params "ctid" with
  | error e =>
      simp only [hctid] at h
      cases h
      exact Or.inl ⟨_, rfl, rfl⟩
  | ok ctid =>
      obtain rfl := requiredVMID_eq_ok hctid
      simp only [hctid] at h
      cases h with
      | ask probe tail =>
          beta_reduce at tail
          refine Or.inr ⟨probe, _, rfl, ?_⟩
          by_cases hprobe : exitCode probe = 0
          · have hfound : ¬ notFound (execReply probe) = true :=
              fun hnot => notFound_execReply.mp hnot hprobe
            rw [if_neg hfound] at tail
            refine Or.inr ⟨hprobe, ?_⟩
            cases tail with
            | ask status tail =>
                beta_reduce at tail
                cases hstatus : ctStatus (stringParam params "ctid" "") (execReply status) with
                | error e =>
                    simp only [hstatus] at tail
                    cases tail
                    exact ⟨by simp, nofun⟩
                | ok text =>
                    simp only [hstatus] at tail
                    split_ifs at tail with hrunning
                    · cases tail
                      exact ⟨by simp, nofun⟩
                    · obtain ⟨ended, rfl, hended⟩ := run_destroy tail
                      exact ⟨by simp, fun hok => ⟨ended, by simp, hended hok⟩⟩
          · rw [if_pos (notFound_execReply.mpr hprobe)] at tail
            cases tail
            exact Or.inl ⟨hprobe, rfl, rfl⟩

end Delete

/-- A container is reported as deleted for one of the two reasons exactly if the tool has reported
it missing whenever the look for it failed. -/
theorem delete_sound_iff (reportsMissing : Ended → Prop) (params : Params)
    (log : Log Query Ended) (result : Except CtError Unit) (hrun : Run (delete params) log result) :
    (result = .ok () →
        (∃ r, ((.pct, ["config", stringParam params "ctid" ""]), r) ∈ log ∧ reportsMissing r) ∨
          ∃ r, ((.pct, ["destroy", stringParam params "ctid" ""]), r) ∈ log ∧ r.failure = none) ↔
      ∀ r, ((.pct, ["config", stringParam params "ctid" ""]), r) ∈ log → exitCode r ≠ 0 →
        reportsMissing r := by
  rcases run_delete hrun with ⟨e, rfl, rfl⟩ |
    ⟨probe, rest, rfl, ⟨hprobe, rfl, rfl⟩ | ⟨hprobe, hrest, hok⟩⟩
  · simp
  · constructor
    · intro h r hr _
      have hreason := h rfl
      simp only [List.mem_singleton, Prod.mk.injEq] at hr hreason
      obtain ⟨-, rfl⟩ := hr
      rcases hreason with ⟨r, ⟨-, rfl⟩, hmissing⟩ | ⟨r, ⟨⟨-, hne⟩, -⟩, -⟩
      · exact hmissing
      · exact absurd hne (by simp)
    · exact fun h _ => Or.inl ⟨probe, by simp, h probe (by simp) hprobe⟩
  · constructor
    · intro _ r hr hcode
      rcases List.mem_cons.mp hr with heq | hr
      · obtain ⟨-, rfl⟩ := Prod.mk.inj heq
        exact absurd hprobe hcode
      · exact absurd hr (hrest r)
    · intro _ hresult
      obtain ⟨r, hr, hnone⟩ := hok hresult
      exact Or.inr ⟨r, List.mem_cons_of_mem _ hr, hnone⟩

/-- The request to delete a container. -/
def deleteRequest : Params := [("ctid", .str "100")]

/-- The tool says that there is no such container. -/
def SaysMissing (e : Ended) : Prop :=
  e.stderr = "Configuration file 'nodes/pve/lxc/100.conf' does not exist\n"

def missing : Ended where
  stdout := ""
  stderr := "Configuration file 'nodes/pve/lxc/100.conf' does not exist\n"
  failure := some (.exit 2 (by decide))
  deadline := false

/-- The process was killed when its deadline had passed. -/
def timedOut : Ended where
  stdout := ""
  stderr := ""
  failure := some (.exit (-1) (by decide))
  deadline := true

theorem run_delete_failed (e : Ended) (h : exitCode e ≠ 0) :
    Run (delete deleteRequest) [((.pct, ["config", "100"]), e)] (.ok ()) := by
  have hctid : requiredVMID deleteRequest "ctid" = .ok "100" := by decide
  rw [delete]
  simp only [hctid]
  refine Run.ask e ?_
  rw [if_pos (notFound_execReply.mpr h)]
  exact Run.ret _

/-- A container that the tool reports as missing is reported as deleted. -/
theorem delete_sound_missing :
    (∃ r, ((Tool.pct, ["config", "100"]), r) ∈ [((Tool.pct, ["config", "100"]), missing)] ∧
        SaysMissing r) ∨
      ∃ r, ((Tool.pct, ["destroy", "100"]), r) ∈ [((Tool.pct, ["config", "100"]), missing)] ∧
        r.failure = none :=
  (delete_sound_iff SaysMissing deleteRequest [((.pct, ["config", "100"]), missing)] (.ok ())
    (run_delete_failed missing (by decide))).mpr
    (by
      intro r hr _
      obtain ⟨-, rfl⟩ := Prod.mk.inj (List.mem_singleton.mp hr)
      rfl) rfl

/-- A look for the container that did not end in time is taken for a container that is gone. -/
theorem timedOut_reported_deleted :
    Run (delete deleteRequest) [((.pct, ["config", "100"]), timedOut)] (.ok ()) ∧
      exitCode timedOut = -2 ∧ ¬ SaysMissing timedOut :=
  ⟨run_delete_failed timedOut (by decide), rfl, by simp [SaysMissing, timedOut]⟩

end PmxAgents.Hypervisor

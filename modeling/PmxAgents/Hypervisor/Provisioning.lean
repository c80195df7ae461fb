import PmxAgents.Hypervisor.Exec
import PmxAgents.Lib.Checks
import PmxAgents.Lib.Runs

/-!
# Snippets of user data

`provisioning.apply` writes the user data of a machine to a snippet, whose name is made of the
machine and the job, and `provisioning.cleanup` removes a snippet. The dispatcher puts the id of
the job itself among the parameters of every command. A job that cleans up therefore names a
snippet of its own and not that of the job that wrote one, and ids of jobs are not used twice.

## Implementation notes

The directory is a map from names to contents. What its disk does is given with each request; a
write that fails leaves a part of the user data, unless the file can be removed again. Whether
user data are YAML is an argument.
-/

namespace PmxAgents.Hypervisor.Provisioning

open Lib Lib.Text Lib.Runs

inductive ProvisioningError where
  | param (e : ParamError)
  | jobIDRequired (command : String)
  | badJobID (command : String)
  | userdataRequired
  | badYAML
  | mkdir
  | createSnippet
  | writeSnippet
  | closeSnippet
  | cicustom
  | removeSnippet
  deriving DecidableEq, Repr

def isJobID (value : String) : Bool :=
  value ≠ "" && value.toList.all fun c => c == '-' || c == '_' || c.isAlphanum

def snippetName (vmid jobID : String) : String :=
  "userdata-" ++ vmid ++ "-" ++ jobID ++ ".yaml"

abbrev Snippets := String → Option String

/-- The outcomes of the calls of one request. `written` is what a failing write leaves. -/
structure Host where
  yaml : String → Bool
  mkdir : Bool
  create : Bool
  written : Option (Option String)
  close : Bool
  remove : Bool
  qm : Ended

/-- The machine and the job of a request. -/
def readTarget (command : String) (params : Params) :
    Except ProvisioningError (String × String) := do
  let vmid ← (requiredVMID params "vmid").mapError .param
  let jobID := stringParam params "job_id" ""
  if jobID = "" then throw (.jobIDRequired command)
  if isJobID jobID = false then throw (.badJobID command)
  return (vmid, jobID)

def readUserdata (host : Host) (params : Params) : Except ProvisioningError String :=
  match params.lookup "userdata" with
  | some (.str userdata) =>
      if userdata = "" then .error .userdataRequired
      else if host.yaml userdata then .ok userdata else .error .badYAML
  | _ => .error .userdataRequired

/-- Write a snippet. -/
def writeSnippet (host : Host) (name userdata : String) (dir : Snippets) :
    Except ProvisioningError Unit × Snippets :=
  if host.mkdir = false then (.error .mkdir, dir)
  else if host.create = false then (.error .createSnippet, dir)
  else
    match host.written with
    | some left => (.error .writeSnippet, Function.update dir name left)
    | none =>
        (if host.close then .ok () else .error .closeSnippet,
          Function.update dir name (some userdata))

/-- The arguments of `qm` once the snippet is written. -/
def cicustomArgs (vmid name : String) : List String :=
  ["set", vmid, "--cicustom", "user=local:snippets/" ++ name]

def applyWithDir (host : Host) (params : Params) (dir : Snippets) :
    Except ProvisioningError Unit × Snippets × List Query :=
  match readTarget "provisioning.apply" params, readUserdata host params with
  | .error e, _ => (.error e, dir, [])
  | .ok _, .error e => (.error e, dir, [])
  | .ok (vmid, jobID), .ok userdata =>
      match writeSnippet host (snippetName vmid jobID) userdata dir with
      | (.error e, dir) => (.error e, dir, [])
      | (.ok (), dir) =>
          (if (execReply host.qm).err then .error .cicustom else .ok (), dir,
            [(.qm, cicustomArgs vmid (snippetName vmid jobID))])

def cleanupWithDir (host : Host) (params : Params) (dir : Snippets) :
    Except ProvisioningError Unit × Snippets × List Query :=
  match readTarget "provisioning.cleanup" params with
  | .error e => (.error e, dir, [])
  | .ok (vmid, jobID) =>
      -- a snippet that does not exist is no error
      if dir (snippetName vmid jobID) = none ∨ host.remove then
        (.ok (), Function.update dir (snippetName vmid jobID) none, [])
      else (.error .removeSnippet, dir, [])

inductive Command where
  | apply
  | cleanup

structure Request where
  command : Command
  jobID : String
  params : Params
  host : Host

/-- The dispatcher sets the id of the job. -/
def Request.injected (r : Request) : Params := ("job_id", .str r.jobID) :: r.params

def dispatch (r : Request) (dir : Snippets) :
    Except ProvisioningError Unit × Snippets × List Query :=
  match r.command with
  | .apply => applyWithDir r.host r.injected dir
  | .cleanup => cleanupWithDir r.host r.injected dir

def dispatchStep (dir : Snippets) (r : Request) : Option Snippets := some (dispatch r dir).2.1

/-! ## Names of snippets -/

/-- The name gives back the machine, which has digits only, and the job. -/
theorem snippetName_inj {vmid vmid' jobID jobID' : String} (hvmid : isNumericVMID vmid = true)
    (hvmid' : isNumericVMID vmid' = true)
    (h : snippetName vmid jobID = snippetName vmid' jobID') : jobID = jobID' := by
  have hdash : ∀ {v : String}, isNumericVMID v = true → '-' ∉ v.toList := by
    intro v hv hmem
    simp only [isNumericVMID, Bool.and_eq_true, List.all_eq_true] at hv
    exact absurd (hv.1.2 _ hmem) (by decide)
  have hlist : vmid.toList ++ '-' :: (jobID.toList ++ ".yaml".toList) =
      vmid'.toList ++ '-' :: (jobID'.toList ++ ".yaml".toList) := by
    have := congrArg String.toList h
    simpa [snippetName, String.toList_append] using this
  have hbefore := congrArg (before '-') hlist
  rw [before_append (hdash hvmid), before_append (hdash hvmid')] at hbefore
  rw [hbefore] at hlist
  have htail := (List.cons.inj (List.append_cancel_left hlist)).2
  exact String.toList_inj.mp (List.append_cancel_right htail)

/-- The id of the job as the commands read it. -/
def Request.readJobID (r : Request) : String := stringParam r.injected "job_id" ""

theorem readTarget_eq_ok {r : Request} {command vmid jobID : String}
    (h : readTarget command r.injected = .ok (vmid, jobID)) :
    isNumericVMID vmid = true ∧ jobID = r.readJobID := by
  rw [readTarget] at h
  obtain ⟨v, hv, h⟩ := Checks.bind_eq_ok.mp h
  obtain ⟨-, h⟩ := Checks.ite_throw_bind_eq_ok.mp h
  obtain ⟨-, h⟩ := Checks.ite_throw_bind_eq_ok.mp h
  obtain ⟨rfl, rfl⟩ := Prod.mk.inj (Except.ok.inj h)
  have hv := Checks.mapError_eq_ok.mp hv
  rw [requiredVMID] at hv
  split_ifs at hv with _ hnumeric
  obtain rfl := Except.ok.inj hv
  exact ⟨eq_true_of_ne_false hnumeric, rfl⟩

theorem lookup_of_readUserdata {host : Host} {params : Params} {userdata : String}
    (h : readUserdata host params = .ok userdata) :
    params.lookup "userdata" = some (.str userdata) := by
  rw [readUserdata] at h
  split at h
  · next text hlookup =>
      split_ifs at h
      obtain rfl := Except.ok.inj h
      exact hlookup
  · cases h

theorem writeSnippet_cases (host : Host) (name userdata : String) (dir : Snippets) :
    (∃ e, writeSnippet host name userdata dir = (.error e, dir)) ∨
      (∃ e left, writeSnippet host name userdata dir = (.error e, Function.update dir name left)) ∨
      writeSnippet host name userdata dir = (.ok (), Function.update dir name (some userdata)) := by
  rw [writeSnippet]
  split_ifs
  · exact Or.inl ⟨_, rfl⟩
  · exact Or.inl ⟨_, rfl⟩
  · cases host.written with
    | some left => exact Or.inr (Or.inl ⟨_, left, rfl⟩)
    | none => exact Or.inr (Or.inr rfl)
  · cases host.written with
    | some left => exact Or.inr (Or.inl ⟨_, left, rfl⟩)
    | none => exact Or.inr (Or.inl ⟨_, some userdata, rfl⟩)

/-- What a request does: nothing, something to the snippet of its job without a call of `qm`, or it
puts the user data there and calls `qm` with the snippet's name. -/
theorem dispatch_cases (r : Request) (dir : Snippets) :
    (dispatch r dir).2 = (dir, []) ∨
      ∃ vmid content, isNumericVMID vmid = true ∧
        (dispatch r dir).2.1 = Function.update dir (snippetName vmid r.readJobID) content ∧
        ((dispatch r dir).2.2 = [] ∨
          ∃ userdata, r.params.lookup "userdata" = some (.str userdata) ∧ content = some userdata ∧
            (dispatch r dir).2.2 = [(.qm, cicustomArgs vmid (snippetName vmid r.readJobID))]) := by
  rw [dispatch]
  cases r.command with
  | apply =>
      simp only [applyWithDir]
      cases htarget : readTarget "provisioning.apply" r.injected with
      | error e => exact Or.inl rfl
      | ok target =>
          obtain ⟨vmid, jobID⟩ := target
          obtain ⟨hvmid, rfl⟩ := readTarget_eq_ok htarget
          cases hread : readUserdata r.host r.injected with
          | error e => exact Or.inl rfl
          | ok userdata =>
              rcases writeSnippet_cases r.host (snippetName vmid r.readJobID) userdata dir with
                ⟨e, hwrite⟩ | ⟨e, left, hwrite⟩ | hwrite
              · simp only [hwrite, true_or]
              · simp only [hwrite]
                exact Or.inr ⟨vmid, left, hvmid, rfl, Or.inl trivial⟩
              · simp only [hwrite]
                exact Or.inr ⟨vmid, some userdata, hvmid, rfl,
                  Or.inr ⟨userdata, lookup_of_readUserdata hread, rfl, rfl⟩⟩
  | cleanup =>
      simp only [cleanupWithDir]
      cases htarget : readTarget "provisioning.cleanup" r.injected with
      | error e => exact Or.inl rfl
      | ok target =>
          obtain ⟨vmid, jobID⟩ := target
          obtain ⟨hvmid, rfl⟩ := readTarget_eq_ok htarget
          simp only
          split_ifs
          · exact Or.inr ⟨vmid, none, hvmid, rfl, Or.inl rfl⟩
          · exact Or.inl rfl

/-- A request changes only a snippet of its own job. -/
theorem dispatch_other {r : Request} {vmid jobID : String} (dir : Snippets)
    (hvmid : isNumericVMID vmid = true) (hjob : r.readJobID ≠ jobID) :
    (dispatch r dir).2.1 (snippetName vmid jobID) = dir (snippetName vmid jobID) := by
  rcases dispatch_cases r dir with hsame | ⟨v, content, hv, hdir, -⟩
  · rw [hsame]
  · rw [hdir]
    apply Function.update_of_ne
    intro hname
    exact hjob (snippetName_inj hvmid hv hname).symm

/-- A request that calls `qm` has written its user data to the snippet it names there. -/
theorem written_of_qm {r : Request} {dir : Snippets} {vmid name : String}
    (h : (.qm, cicustomArgs vmid name) ∈ (dispatch r dir).2.2) :
    isNumericVMID vmid = true ∧ name = snippetName vmid r.readJobID ∧
      ∃ userdata, r.params.lookup "userdata" = some (.str userdata) ∧
        (dispatch r dir).2.1 name = some userdata := by
  rcases dispatch_cases r dir with
    hsame | ⟨v, content, hv, hdir, hnone | ⟨userdata, huser, rfl, hcalls⟩⟩
  · simp [hsame] at h
  · simp [hnone] at h
  · obtain ⟨rfl, rfl⟩ : vmid = v ∧ name = snippetName v r.readJobID := by
      simpa [hcalls, cicustomArgs] using h
    exact ⟨hv, rfl, userdata, huser, by simp [hdir]⟩

/-- In a run whose jobs have different ids, a snippet that a machine was configured with is there
to the end, with the user data of its job: no cleanup removes it. -/
theorem snippets_kept (dir mid final : Snippets) (before after : List Request) (r : Request)
    (hdistinct : ((before ++ r :: after).map Request.readJobID).Nodup)
    (hbefore : exec dispatchStep dir before = some mid)
    (hrun : exec dispatchStep dir (before ++ r :: after) = some final) (vmid name : String)
    (hqm : (.qm, cicustomArgs vmid name) ∈ (dispatch r mid).2.2) :
    ∃ userdata, r.params.lookup "userdata" = some (.str userdata) ∧ final name = some userdata := by
  obtain ⟨hvmid, rfl, userdata, huser, hwritten⟩ := written_of_qm hqm
  refine ⟨userdata, huser, ?_⟩
  have hafter : exec dispatchStep (dispatch r mid).2.1 after = some final := by
    rw [exec_append, hbefore] at hrun
    exact hrun
  have hothers : ∀ q ∈ after, q.readJobID ≠ r.readJobID := by
    intro q hq hsame
    rw [List.map_append, List.map_cons, List.nodup_append] at hdistinct
    exact (List.nodup_cons.mp hdistinct.2.1).1 (hsame ▸ List.mem_map_of_mem hq)
  have hkept : ∀ d q d', d (snippetName vmid r.readJobID) = some userdata →
      q.readJobID ≠ r.readJobID → dispatchStep d q = some d' →
      d' (snippetName vmid r.readJobID) = some userdata := by
    intro d q d' hd hq hstep
    obtain rfl := Option.some.inj hstep
    exact (dispatch_other d hvmid hq).trans hd
  exact exec_invariant hkept hwritten (admits_of_forall hothers) hafter

def plainHost : Host := ⟨fun _ => true, true, true, none, true, true, ⟨"", "", none, false⟩⟩

def plainRequest (command : Command) (jobID : String) : Request :=
  ⟨command, jobID, [("vmid", .str "100"), ("userdata", .str "a: 1")], plainHost⟩

theorem snippets_kept_cleanup :
    ∃ final, exec dispatchStep (fun _ => none)
        [plainRequest .apply "j1", plainRequest .cleanup "j2"] = some final ∧
      ∃ userdata, (plainRequest .apply "j1").params.lookup "userdata" = some (.str userdata) ∧
        final (snippetName "100" "j1") = some userdata :=
  ⟨_, rfl, snippets_kept (fun _ => none) _ _ [] [plainRequest .cleanup "j2"]
    (plainRequest .apply "j1") (by decide) rfl rfl "100" _ (by decide)⟩

end PmxAgents.Hypervisor.Provisioning
